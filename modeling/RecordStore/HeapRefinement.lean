import RecordStore.HeapAlloc
import RecordStore.LogicalPages

namespace RecordStore.HeapRefinement

open RecordStore.CFile RecordStore.Outcome RecordStore.FixedRecord RecordStore.FixedPage
open RecordStore.DirectoryPage RecordStore.HeapFile RecordStore.PageLayout RecordStore.DirectoryChain
open RecordStore.HeapImage RecordStore.HeapAlloc RecordStore.HeapSession RecordStore.LogicalPages

variable {P S : Nat} {h : Heapfile P S} {pages : Pages P S} {link off : Nat → Int}

/-- The heap file and the pages do the same: same fault, or same value and the heap file
stands for the pages. -/
def Refines {α : Type} (x : Except Fault (α × Heapfile P S)) (y : Except Fault (α × Pages P S)) : Prop :=
  Agree (fun a b => a.1 = b.1 ∧ Tracks a.2 b.2) x y

theorem Rep.of_core (hr : Rep h pages) {h' : Heapfile P S} {pages' : Pages P S}
    (hc : Core h' pages' (chainLink P pages.length) (chainOffset P))
    (hl : pages'.length = pages.length) : Rep h' pages' := by
  have hb := hr.bound
  rw [hr.core.bytes_length, ← hl, ← hc.bytes_length] at hb
  exact ⟨hl ▸ hc, hb⟩

theorem Core.allocated_iff (hp : 1001 < P) (hc : Core h pages link off) (pid : Nat) :
    Allocated h pid ↔ pid < pages.length := by
  constructor
  · rintro ⟨entry, he⟩
    by_contra hlt
    rw [getEntry, hc.directory (Nat.succ_pos _), ok_bind] at he
    simp only [show (directoryAt P link off (entriesOf pages) 0).capacity =
      directoryCapacity P from rfl] at he
    obtain hd | hd := Nat.lt_or_ge (pid / directoryCapacity P) (numDirs (directoryCapacity P) pages.length)
    · have hn : ¬ ((pid % directoryCapacity P : Nat) : Int) <
          (directoryAt P link off (entriesOf pages) (pid / directoryCapacity P)).nEntries := by
        rwa [lt_nEntries_iff hp hc.size, entriesOf_length]
      rw [hc.directory hd, ok_bind, if_neg hn] at he
      cases he
    · rw [hc.directory_past hd] at he
      cases he
  · intro hlt
    exact ⟨_, hc.getEntry hp (List.getElem?_eq_getElem hlt)⟩

theorem allocated_iff (hp : 1001 < P) (hr : Rep h pages) (pid : Nat) :
    Allocated h pid ↔ pid < pages.length :=
  Core.allocated_iff hp hr.core pid

section Changes

variable {σ : Type} {view : σ → Heapfile P S} {x : Except Fault σ} {j : Nat} {r : Except Fault (Page P S)}

/-- An execution that makes `r` of page `j`: it stops with the fault of `r`, or the heap file in the
state it leaves has the new page. -/
structure Changes (view : σ → Heapfile P S) (x : Except Fault σ) (pages : Pages P S) (j : Nat)
    (r : Except Fault (Page P S)) (link off : Nat → Int) : Prop where
  fault : ∀ e, r = .error e → x = .error e
  page : ∀ page', r = .ok page' → ∃ s, x = .ok s ∧ Core (view s) (pages.set j page') link off

/-- Whatever holds of the heap file with the changed page, the execution and the change agree on it. -/
theorem Changes.agree_of {R : σ → Pages P S → Prop} (hc : Changes view x pages j r link off)
    (hR : ∀ s page', x = .ok s → r = .ok page' → Core (view s) (pages.set j page') link off →
      R s (pages.set j page')) : Agree R x (r.map (fun page' => pages.set j page')) := by
  cases r with
  | error e =>
    rw [hc.fault e rfl]
    rfl
  | ok page' =>
    obtain ⟨s, hx, hc'⟩ := hc.page page' rfl
    rw [hx]
    exact hR s page' hx rfl hc'

theorem Changes.agree (hc : Changes view x pages j r (chainLink P pages.length) (chainOffset P))
    (hr : Rep h pages) : Agree (fun s => Tracks (view s)) x (r.map (fun page' => pages.set j page')) :=
  hc.agree_of (fun _ _ _ _ hc' => (Rep.of_core hr hc' (by simp)).tracks)

theorem Changes.agree_grown (hc : Changes view x pages j r link off)
    (hstd : (layout (directoryCapacity P) pages.length).length * P < 2147483648 →
      Changes view x pages j r (chainLink P pages.length) (chainOffset P)) :
    Agree (fun s => Tracks (view s)) x (r.map (fun page' => pages.set j page')) := by
  refine hc.agree_of (fun s page' hx hr hc' => ⟨link, off, hc', fun hb => ⟨?_, hb⟩⟩)
  -- the file has its final length already before the change
  have hb1 := hb
  rw [hc'.bytes_length, List.length_set] at hb1
  obtain ⟨s', hx', hc''⟩ := (hstd hb1).page page' hr
  obtain rfl : s = s' := Except.ok.inj (hx.symm.trans hx')
  simpa using hc''

end Changes

/-- Load a page, change it, commit it: the shape of `update_record` and `delete_record`. -/
theorem modify_core (hz : Sizes P S) (hc : Core h pages link off) {j : Nat} {page : Page P S}
    (hj : pages[j]? = some page) (f : Page P S → Except Fault (Page P S)) :
    Changes (fun h => h) (do
      let (page, h) ← getPage h j
      let page ← f page
      commitPage { h with cachedPage := some page } j) pages j (f page) link off := by
  obtain ⟨h1, hg, hc1, hpid, -⟩ := hc.getPage hz hj
  constructor
  · intro e he
    simp [hg, he]
  · intro page' hp
    obtain ⟨h2, hcm, hc2, -, -⟩ := hc1.commitPage hz hpid page'
    exact ⟨h2, by simp [hg, hp, hcm], hc2⟩

theorem modify_agree (hz : Sizes P S) (hr : Rep h pages) {j : Nat} (hj : j < pages.length)
    (f : Page P S → Except Fault (Page P S)) :
    Agree Tracks (do
      let (page, h) ← getPage h j
      let page ← f page
      commitPage { h with cachedPage := some page } j) (modifyPage pages j f) := by
  have hget := List.getElem?_eq_getElem hj
  rw [modifyPage_some hget]
  exact (modify_core hz hr.core hget f).agree hr

theorem vacantPageId_eq (hz : Sizes P S) (hc : Core h pages link off) :
    vacantPageId h = firstFree pages := by
  rw [vacantPageId_directories hz.page hc.size hc.dirs hc.fits, firstFree]
  have hiff : ∀ j : Nat, (entriesOf pages)[j]?.map (fun e : Entry => decide (0 < e.freeSpace)) =
      pages[j]?.map (fun page : Page P S => decide (0 < fixedLenPageFreeslots page)) := by
    intro j
    simp only [entriesOf, List.getElem?_mapIdx, Option.map_map]
    cases pages[j]? <;> simp
  have hmap : (entriesOf pages).map (fun e : Entry => decide (0 < e.freeSpace)) =
      pages.map (fun page : Page P S => decide (0 < fixedLenPageFreeslots page)) := by
    apply List.ext_getElem?
    intro j
    rw [List.getElem?_map, List.getElem?_map]
    exact hiff j
  have h1 : (entriesOf pages).findIdx? (fun e : Entry => decide (0 < e.freeSpace)) =
      ((entriesOf pages).map (fun e : Entry => decide (0 < e.freeSpace))).findIdx? id := by
    rw [List.findIdx?_map]
    rfl
  rw [h1, hmap, List.findIdx?_map]
  rfl

theorem getFreePid_of_some (hz : Sizes P S) (hc : Core h pages link off) {j : Nat}
    (hff : firstFree pages = some j) : getFreePid h = .ok (j, h) := by
  rw [getFreePid, vacantPageId_eq hz hc, hff]

theorem getFreePid_of_none (hz : Sizes P S) (hc : Core h pages link off) (hff : firstFree pages = none) :
    getFreePid h = allocPage h := by
  rw [getFreePid, vacantPageId_eq hz hc, hff]

theorem putRecord_ok_of {h1 h2 h3 h4 : Heapfile P S} {pid : Nat} {page page' : Page P S}
    {slot : Option Nat} {rec : Record} (hp : getFreePid h = .ok (pid, h1))
    (hg : getPage h1 pid = .ok (page, h2)) (ha : addFixedLenPage page rec = .ok (slot, page'))
    (hc : commitPage { h2 with cachedPage := some page' } pid = .ok h3)
    (hg2 : getPage h3 pid = .ok (page', h4)) : putRecord h rec = .ok h4 := by
  simp [putRecord, hp, hg, ha, hc, hg2]

theorem putRecord_error_of {h1 h2 : Heapfile P S} {pid : Nat} {page : Page P S} {rec : Record}
    {e : Fault} (hp : getFreePid h = .ok (pid, h1)) (hg : getPage h1 pid = .ok (page, h2))
    (ha : addFixedLenPage page rec = .error e) : putRecord h rec = .error e := by
  simp [putRecord, hp, hg, ha]

theorem put_core (hz : Sizes P S) {h1 : Heapfile P S} (hc : Core h1 pages link off) {j : Nat}
    {page : Page P S} (rec : Record) (hp : getFreePid h = .ok (j, h1)) (hj : pages[j]? = some page) :
    Changes (fun h => h) (putRecord h rec) pages j ((addFixedLenPage page rec).map Prod.snd) link off := by
  obtain ⟨h2, hg, hc2, hpid, -⟩ := hc.getPage hz hj
  cases ha : addFixedLenPage page rec with
  | error e =>
    constructor
    · rintro _ ⟨⟩
      exact putRecord_error_of hp hg ha
    · rintro _ ⟨⟩
  | ok res =>
    constructor
    · rintro _ ⟨⟩
    · rintro _ ⟨⟩
      obtain ⟨h3, hcm, hc3, hpid3, hpage3⟩ := hc2.commitPage hz hpid res.2
      have hg2 : getPage h3 j = .ok (res.2, h3) := by simp [getPage, hpid3, hpage3]
      exact ⟨h3, putRecord_ok_of hp hg ha hcm hg2, hc3⟩

theorem put_agree (hz : Sizes P S) (hr : Rep h pages) (rec : Record) :
    Agree Tracks (putRecord h rec) (put pages rec) := by
  cases hff : firstFree pages with
  | some j =>
    have hp := getFreePid_of_some hz hr.core hff
    obtain ⟨page, slot, hj, -⟩ := firstFree_some hff
    rw [put, hff]
    simp only [modifyPage_some hj]
    exact (put_core hz hr.core rec hp hj).agree hr
  | none =>
    obtain ⟨h1, link', off', halloc, hc1, -, -, hstd⟩ := allocPage_core hz hr.core hr.bound
    have hp := (getFreePid_of_none hz hr.core hff).trans halloc
    have hj : (pages ++ [Page.blank P S])[pages.length]? = some (Page.blank P S) :=
      List.getElem?_concat_length
    rw [put, hff]
    simp only [modifyPage_some hj]
    refine (put_core hz hc1 rec hp hj).agree_grown (fun hb => put_core hz ?_ rec hp hj)
    rw [← hc1.bytes_length] at hb
    simpa using hstd (Nat.lt_add_right P hb) rfl rfl

theorem step_refines (hz : Sizes P S) (hr : Rep h pages) (beyond : Nat → Byte) {o : Op}
    (ho : OpAllocated h o) :
    Refines (HeapSession.step beyond h o) (LogicalPages.step beyond pages o) := by
  cases o with
  | put rec => exact (put_agree hz hr rec).map (fun _ _ ht => ⟨rfl, ht⟩)
  | update rid rec =>
    have hagree := modify_agree hz hr ((allocated_iff hz.page hr _).mp ho)
      (fun page => writeFixedLenPage page rid.slot rec)
    exact hagree.map (fun _ _ ht => ⟨rfl, ht⟩)
  | delete rid =>
    have hagree := modify_agree hz hr ((allocated_iff hz.page hr _).mp ho)
      (fun page => deleteFixedLenPage page rid.slot)
    exact hagree.map (fun _ _ ht => ⟨rfl, ht⟩)
  | get rid n =>
    have hlt := (allocated_iff hz.page hr _).mp ho
    have hget := List.getElem?_eq_getElem hlt
    obtain ⟨h1, hg, hc1, -, -⟩ := hr.core.getPage hz hget
    simp only [HeapSession.step, LogicalPages.step, hget, getRecord, hg, ok_bind]
    cases hread : readFixedLenPage beyond pages[rid.pageId] rid.slot n with
    | error e => rfl
    | ok r => exact ⟨rfl, (Rep.of_core hr hc1 rfl).tracks⟩

end RecordStore.HeapRefinement
