import RecordStore.HeapRuns

namespace RecordStore.WriteThrough

open RecordStore.CFile RecordStore.Int32 RecordStore.Outcome RecordStore.FixedRecord RecordStore.FixedPage
open RecordStore.DirectoryPage RecordStore.HeapFile RecordStore.PageLayout RecordStore.DirectoryChain
open RecordStore.DirectoryGrowth RecordStore.HeapImage RecordStore.HeapAlloc RecordStore.HeapSession
open RecordStore.LogicalPages RecordStore.HeapRefinement RecordStore.HeapReopen RecordStore.HeapRuns

/-- A heap file that keeps no page in memory. -/
structure Store (P S : Nat) where
  file : File
  directoryBuffer : List Directory

variable {P S : Nat} {s : Store P S} {pages : Pages P S} {beyond : Nat → Byte}

/-- The store as a heap file with nothing cached, to look entries up and to read and
write blocks. -/
def Store.heapfile (s : Store P S) : Heapfile P S := ⟨s.file, s.directoryBuffer, none, none, false⟩

def Store.of (h : Heapfile P S) : Store P S := ⟨h.file, h.directoryBuffer⟩

def loadPage (s : Store P S) (pid : Nat) : Except Fault (Page P S × Store P S) := do
  let _ ← initFixedLenPage P S
  let entry ← getEntry s.heapfile pid
  let (block, h) ← readBlock s.heapfile entry.value.offset
  .ok (.ofBlock block, .of h)

/-- Record the free space of a page and write it to its block at once. -/
def storePage (s : Store P S) (pid : Nat) (page : Page P S) : Except Fault (Store P S) := do
  let entry ← getEntry s.heapfile pid
  let dir ← s.heapfile.directory entry.dirNo
  let h := s.heapfile.setDirectory entry.dirNo
    (dir.setFreeSpace entry.slotNo (fixedLenPageFreeslots page))
  .ok (.of (writeBlock h page.data entry.value.offset))

def allocPage (s : Store P S) : Except Fault (Nat × Store P S) := do
  let page ← initFixedLenPage P S
  let h := { s.heapfile with file := fseekEnd s.file }
  let entry : Entry := ⟨toInt32 (ftell h.file), fixedLenPageFreeslots page⟩
  let (pid, h) ← appendEntry (writeBlock h page.data entry.offset) entry
  .ok (pid, .of h)

def getFreePid (s : Store P S) : Except Fault (Nat × Store P S) :=
  match vacantPageId s.heapfile with
  | some pid => .ok (pid, s)
  | none => allocPage s

def modifyRecord (s : Store P S) (pid : Nat) (f : Page P S → Except Fault (Page P S)) :
    Except Fault (Store P S) := do
  let (page, s) ← loadPage s pid
  let page ← f page
  storePage s pid page

def putRecord (s : Store P S) (rec : Record) : Except Fault (Store P S) := do
  let (pid, s) ← getFreePid s
  modifyRecord s pid (fun page => (addFixedLenPage page rec).map Prod.snd)

def getRecord (beyond : Nat → Byte) (s : Store P S) (rid : RecordID) (n : Nat) :
    Except Fault (Record × Store P S) := do
  let (page, s) ← loadPage s rid.pageId
  let rec ← readFixedLenPage beyond page rid.slot n
  .ok (rec, s)

def updateRecord (s : Store P S) (rid : RecordID) (rec : Record) : Except Fault (Store P S) :=
  modifyRecord s rid.pageId (fun page => writeFixedLenPage page rid.slot rec)

def deleteRecord (s : Store P S) (rid : RecordID) : Except Fault (Store P S) :=
  modifyRecord s rid.pageId (fun page => deleteFixedLenPage page rid.slot)

def close (s : Store P S) : List Byte :=
  (s.directoryBuffer.foldl (fun h dir => writeBlock h dir.data dir.offset) s.heapfile).file.bytes

def step (beyond : Nat → Byte) (s : Store P S) : Op → Except Fault (Option Record × Store P S)
  | .put rec => (putRecord s rec).map (fun s => (none, s))
  | .get rid n => (getRecord beyond s rid n).map (fun r => (some r.1, r.2))
  | .update rid rec => (updateRecord s rid rec).map (fun s => (none, s))
  | .delete rid => (deleteRecord s rid).map (fun s => (none, s))

def run (beyond : Nat → Byte) : Store P S → List Op → Except Fault (List (Option Record) × Store P S)
  | s, [] => .ok ([], s)
  | s, o :: os => do
    let (res, s) ← step beyond s o
    let (results, s) ← run beyond s os
    .ok (res :: results, s)

def finish (beyond : Nat → Byte) (s : Store P S) (os : List Op) :
    Except Fault (List (Option Record) × List Byte) := do
  let (results, s) ← run beyond s os
  .ok (results, close s)

theorem disk_heapfile {link off : Nat → Int} (hc : Core s.heapfile pages link off) :
    OnDisk (P := P) s.file.bytes pages.length
      (fun j bs => ∀ page, pages[j]? = some page → bs = page.data) := by
  obtain ⟨content, hs, hb, hd⟩ := hc.disk
  exact ⟨content, hs, hb, fun j hj page hp => hd j hj page hp (fun hf => by cases hf)⟩

theorem core_heapfile {link off : Nat → Int} {file : File} {dirs : List Directory}
    (hdirs : dirs = directories P link off (entriesOf pages))
    (hdisk : OnDisk (P := P) file.bytes pages.length
      (fun j bs => ∀ page, pages[j]? = some page → bs = page.data))
    (hP : P < 2147483648) (hsmall : ∀ j < pages.length, blockOffset P (.page j) < 2147483648) :
    Core (⟨file, dirs⟩ : Store P S).heapfile pages link off := by
  obtain ⟨content, hs, hb, hd⟩ := hdisk
  exact ⟨hdirs, ⟨content, hs, hb, fun j hj page hp _ => hd j hj page hp⟩, .inl ⟨rfl, rfl, rfl⟩,
    hP, hsmall⟩

theorem loadPage_core (hz : Sizes P S) {link off : Nat → Int} (hc : Core s.heapfile pages link off)
    {j : Nat} {page : Page P S} (hj : pages[j]? = some page) :
    ∃ s', loadPage s j = .ok (page, s') ∧ Core s'.heapfile pages link off := by
  obtain ⟨content, hs, hb, hd⟩ := disk_heapfile hc
  have hlt : j < pages.length := (List.getElem?_eq_some_iff.mp hj).1
  obtain ⟨block, file, hr, hblock, hfile⟩ :=
    readBlock_owner (h := s.heapfile) hs hb (owner_mem (P := P) hlt)
  have hpage : (Page.ofBlock block : Page P S) = page := Page.ext (hblock.trans (hd j hlt page hj))
  have hinit : initFixedLenPage P S = .ok (Page.blank P S) := if_pos ⟨hz.slotPos, hz.slotLt⟩
  refine ⟨⟨file, s.directoryBuffer⟩, ?_, core_heapfile hc.dirs ⟨content, hs, hfile.trans hb, hd⟩
    hc.size hc.small⟩
  simp only [loadPage, hinit, ok_bind, hc.getEntry hz.page hj, hr, hpage]
  rfl

theorem storePage_core (hz : Sizes P S) {link off : Nat → Int} (hc : Core s.heapfile pages link off)
    {j : Nat} (hlt : j < pages.length) (page' : Page P S) :
    ∃ s', storePage s j page' = .ok s' ∧ Core s'.heapfile (pages.set j page') link off := by
  have hj := List.getElem?_eq_getElem hlt
  obtain ⟨content, hs, hb, hd⟩ := disk_heapfile hc
  have hcap := (capacity_bounds hz.page hc.size).1
  have hdir := hc.directory (dir_lt hlt)
  have hset := setFreeSpace_directories link off hcap (entriesOf_getElem? hj)
    (fixedLenPageFreeslots page' : Int)
  have hw := writeBlock_owner (h := s.heapfile) hs hb (owner_mem (P := P) hlt) page'.length_data
  refine ⟨⟨(writeBlock s.heapfile page'.data (blockOffset P (.page j))).file,
    directories P link off (entriesOf (pages.set j page'))⟩, ?_, ?_⟩
  · simp only [storePage, hc.getEntry hz.page hj, ok_bind, hdir, Heapfile.setDirectory, hc.dirs, hset,
      entriesOf_set]
    rfl
  · refine core_heapfile rfl ⟨Function.update content (.page j) page'.data, ?_, ?_, ?_⟩ hc.size ?_
    · rw [List.length_set]
      exact update_length hs page'.length_data
    · rw [List.length_set]
      exact hw
    · intro i hi page hp
      rw [List.length_set] at hi
      by_cases hij : i = j
      · subst hij
        rw [List.getElem?_set_self hlt] at hp
        rw [Function.update_self, Option.some.inj hp]
      · have hne : Owner.page i ≠ .page j := fun he => hij (Owner.page.inj he)
        rw [List.getElem?_set_ne (Ne.symm hij)] at hp
        rw [Function.update_of_ne hne]
        exact hd i hi page hp
    · intro i hi
      rw [List.length_set] at hi
      exact hc.small i hi

theorem allocPage_of {h2 : Heapfile P S} {pid : Nat} {blank : Page P S}
    (hi : initFixedLenPage P S = .ok blank)
    (ha : appendEntry (writeBlock { s.heapfile with file := fseekEnd s.file } blank.data
      (toInt32 (ftell (fseekEnd s.file)))) ⟨toInt32 (ftell (fseekEnd s.file)),
        fixedLenPageFreeslots blank⟩ = .ok (pid, h2)) :
    allocPage s = .ok (pid, .of h2) := by
  simp [allocPage, hi, ha]

theorem allocPage_core (hz : Sizes P S) {link off : Nat → Int} (hc : Core s.heapfile pages link off)
    (hb : s.file.bytes.length < 2147483648) :
    ∃ s' link' off', allocPage s = .ok (pages.length, s') ∧
      Core s'.heapfile (pages ++ [Page.blank P S]) link' off' ∧
      (s'.file.bytes.length < 2147483648 → link = chainLink P pages.length → off = chainOffset P →
        Core s'.heapfile (pages ++ [Page.blank P S]) (chainLink P (pages.length + 1)) (chainOffset P)) := by
  have hinit : initFixedLenPage P S = .ok (Page.blank P S) := if_pos ⟨hz.slotPos, hz.slotLt⟩
  have hoff : toInt32 (ftell (fseekEnd s.file)) = (blockOffset P (.page pages.length) : Int) := by
    rw [blockOffset, position, ← hc.bytes_length]
    exact toInt32_of_inRange ⟨by simp only [ftell]; omega, by simp only [ftell, fseekEnd]; exact_mod_cast hb⟩
  have hfile : (writeBlock { s.heapfile with file := fseekEnd s.file } (Page.blank P S).data
      (toInt32 (ftell (fseekEnd s.file)))).file.bytes = s.heapfile.file.bytes ++ List.replicate P 0 := by
    rw [writeBlock, fwrite_at_end s.file (by omega)]
    rfl
  obtain ⟨h2, link', off', happ, hdirty, hc2, hstd⟩ := appendEntry_core hz hc hb hfile
    (writeBlock_directoryBuffer _ _ _) (writeBlock_cachedPage _ _ _) (writeBlock_cachedPid _ _ _)
    (writeBlock_pageCacheDirty _ _ _)
  have hmk : ∀ link off, Core h2 (pages ++ [Page.blank P S]) link off →
      Core (Store.of h2).heapfile (pages ++ [Page.blank P S]) link off := by
    intro link off hc'
    obtain ⟨content, hs, hbytes, hd⟩ := hc'.disk
    refine core_heapfile hc'.dirs ⟨content, hs, hbytes, fun j hj page hp => ?_⟩ hc'.size hc'.small
    exact hd j hj page hp (fun ht => by rw [hdirty] at ht; cases ht)
  rw [← hoff] at happ
  exact ⟨_, link', off', allocPage_of hinit happ, hmk _ _ hc2, fun hbound hl ho =>
    hmk _ _ (hstd (Nat.lt_add_right P hbound) hl ho)⟩

def Stands (s : Store P S) (pages : Pages P S) : Prop := Tracks s.heapfile pages

theorem modify_core (hz : Sizes P S) {link off : Nat → Int} (hc : Core s.heapfile pages link off)
    {j : Nat} {page : Page P S} (hj : pages[j]? = some page) (f : Page P S → Except Fault (Page P S)) :
    Changes Store.heapfile (modifyRecord s j f) pages j (f page) link off := by
  obtain ⟨s1, hl, hc1⟩ := loadPage_core hz hc hj
  constructor
  · intro e he
    simp [modifyRecord, hl, he]
  · intro page' hp
    obtain ⟨s2, hs, hc2⟩ := storePage_core hz hc1 (List.getElem?_eq_some_iff.mp hj).1 page'
    exact ⟨s2, by simp [modifyRecord, hl, hp, hs], hc2⟩

theorem modify_agree (hz : Sizes P S) (hr : Rep s.heapfile pages) {j : Nat} (hj : j < pages.length)
    (f : Page P S → Except Fault (Page P S)) :
    Agree Stands (modifyRecord s j f) (modifyPage pages j f) := by
  have hget := List.getElem?_eq_getElem hj
  rw [modifyPage_some hget]
  exact (modify_core hz hr.core hget f).agree hr

theorem put_agree (hz : Sizes P S) (hr : Rep s.heapfile pages) (rec : Record) :
    Agree Stands (putRecord s rec) (put pages rec) := by
  have hv := vacantPageId_eq hz hr.core
  cases hff : firstFree pages with
  | some j =>
    have hp : getFreePid s = .ok (j, s) := by rw [getFreePid, hv, hff]
    obtain ⟨page, slot, hj, -⟩ := firstFree_some hff
    rw [put, hff, putRecord, hp, ok_bind]
    exact modify_agree hz hr (List.getElem?_eq_some_iff.mp hj).1 _
  | none =>
    obtain ⟨s1, link', off', halloc, hc1, hstd⟩ := allocPage_core hz hr.core hr.bound
    have hp : getFreePid s = .ok (pages.length, s1) := by
      rw [getFreePid, hv, hff]
      exact halloc
    have hj : (pages ++ [Page.blank P S])[pages.length]? = some (Page.blank P S) :=
      List.getElem?_concat_length
    rw [put, hff, putRecord, hp, ok_bind]
    simp only [modifyPage_some hj]
    refine (modify_core hz hc1 hj _).agree_grown (fun hb => modify_core hz ?_ hj _)
    rw [← hc1.bytes_length] at hb
    simpa using hstd hb rfl rfl

theorem step_agree (hz : Sizes P S) (hr : Rep s.heapfile pages) {o : Op} (ho : OpOfPages pages o) :
    Agree (fun a b => a.1 = b.1 ∧ Stands a.2 b.2) (step beyond s o) (LogicalPages.step beyond pages o) := by
  cases o with
  | put rec => exact (put_agree hz hr rec).map (fun _ _ ht => ⟨rfl, ht⟩)
  | update rid rec =>
    have hagree := modify_agree hz hr ho.1 (fun page => writeFixedLenPage page rid.slot rec)
    exact hagree.map (fun _ _ ht => ⟨rfl, ht⟩)
  | delete rid =>
    have hagree := modify_agree hz hr ho.1 (fun page => deleteFixedLenPage page rid.slot)
    exact hagree.map (fun _ _ ht => ⟨rfl, ht⟩)
  | get rid n =>
    have hlt : rid.pageId < pages.length := ho.1
    have hget := List.getElem?_eq_getElem hlt
    obtain ⟨s1, hg, hc1⟩ := loadPage_core hz hr.core hget
    simp only [step, LogicalPages.step, hget, getRecord, hg, ok_bind]
    cases hread : readFixedLenPage beyond pages[rid.pageId] rid.slot n with
    | error e => rfl
    | ok r => exact ⟨rfl, (Rep.of_core hr hc1 rfl).tracks⟩

theorem run_agree (hz : Sizes P S) (os : List Op) (hr : Rep s.heapfile pages)
    (ha : PagesAdmissible beyond OpOfPages pages os) :
    Agree (fun a b => a.1 = b.1 ∧ Rep a.2.heapfile b.2) (run beyond s os)
      (LogicalPages.run beyond pages os) := by
  induction os generalizing s pages with
  | nil => exact ⟨rfl, hr⟩
  | cons o os ih =>
    obtain ⟨hop, hall⟩ := ha
    refine (step_agree hz hr hop).bind ?_
    rintro ⟨res, s'⟩ ⟨res', pages'⟩ - hs ⟨rfl, ht⟩
    obtain ⟨hb, hadm⟩ := hall _ _ hs
    refine (ih (Tracks.rep ht hb) hadm).bind ?_
    rintro ⟨results, s''⟩ ⟨results', pages''⟩ - - ⟨rfl, hr''⟩
    exact ⟨rfl, hr''⟩

theorem close_eq (hz : Sizes P S) (hr : Rep s.heapfile pages) : close s = closedFile pages :=
  Except.ok.inj (closeHeapfile_eq hz.page hr)

theorem finish_eq (hz : Sizes P S) (os : List Op) (hr : Rep s.heapfile pages)
    (ha : PagesAdmissible beyond OpOfPages pages os) :
    finish beyond s os = (do
      let (results, pages) ← LogicalPages.run beyond pages os
      .ok (results, closedFile pages)) := by
  refine Agree.eq ((run_agree hz os hr ha).bind ?_)
  rintro ⟨results, s'⟩ ⟨results', pages'⟩ - - ⟨rfl, hr'⟩
  simp only [close_eq hz hr']
  rfl

theorem rep_of_clean {h : Heapfile P S} (hr : Rep h pages) (hclean : h.pageCacheDirty = false) :
    Rep (Store.of h).heapfile pages := by
  obtain ⟨content, hs, hb, hd⟩ := hr.core.disk
  refine ⟨core_heapfile hr.core.dirs ⟨content, hs, hb, fun j hj page hp => ?_⟩ hr.core.size
    hr.core.small, hr.bound⟩
  exact hd j hj page hp (fun ht => by rw [hclean] at ht; cases ht)

/-- The heap file with its one cached page does what the store without a cache does,
from a new file and from any file that was closed. -/
theorem cache_agrees_without (hz : Sizes P S) (hP : P < 2147483648) (beyond : Nat → Byte) :
    (∀ os : List Op, SessionAdmissible beyond P S OpInRange (os.map Cmd.op) →
      session beyond P S (os.map Cmd.op) = (do
        let h ← createHeapfile P S
        finish beyond (Store.of h) os)) ∧
    (∀ cmds results bytes, SessionAdmissible beyond P S OpInRange cmds →
      session beyond P S cmds = .ok (results, bytes) →
      ∃ h : Heapfile P S, openHeapfile P S (bytes.length / P + 1) bytes = .ok h ∧
        ∀ os : List Op, Admissible beyond OpInRange h (os.map Cmd.op) →
          (do
            let (results, h) ← HeapSession.run beyond h (os.map Cmd.op)
            let bytes ← closeHeapfile h
            .ok (results, bytes)) = finish beyond (Store.of h) os) := by
  constructor
  · intro os ha
    have hp := (sessionAdmissible_iff hz hP (opInRange_iff hz) (fun _ _ ho => ho) _).mp ha
    obtain ⟨h, he, hr, hclean⟩ := createHeapfile_rep (S := S) hz.page hP
    rw [session_eq hz hP (fun _ _ ho => ho) _ hp, he, ok_bind]
    rw [ops_map_op] at hp ⊢
    exact (finish_eq hz os (rep_of_clean hr hclean) hp).symm
  · intro cmds results bytes ha hs
    have hp := (sessionAdmissible_iff hz hP (opInRange_iff hz) (fun _ _ ho => ho) _).mp ha
    obtain ⟨pages, -, rfl, hlen⟩ := session_ok hz hP (fun _ _ ho => ho) hp hs
    obtain ⟨h, he, hr, hclean⟩ := open_closedFile hz hP hlen
    refine ⟨h, he, fun os ha' => ?_⟩
    have hp' := (admissible_iff hz (opInRange_iff hz) (fun _ _ ho => ho) _ hr).mp ha'
    rw [run_close_eq hz (fun _ _ ho => ho) _ hr hp']
    rw [ops_map_op] at hp' ⊢
    exact (finish_eq hz os (rep_of_clean hr hclean) hp').symm

theorem cache_agrees_without_letters :
    session (fun _ => 0) 1002 10 (letterOps.map Cmd.op) = (do
      let h ← createHeapfile 1002 10
      finish (fun _ => 0) (Store.of h) letterOps) := by
  have hz : Sizes 1002 10 := ⟨by decide, by decide, by decide⟩
  refine (cache_agrees_without hz (by decide) (fun _ => 0)).1 _ ?_
  rw [sessionAdmissible_iff hz (by decide) (opInRange_iff hz) (fun _ _ ho => ho), ops_map_op]
  decide +kernel

end RecordStore.WriteThrough
