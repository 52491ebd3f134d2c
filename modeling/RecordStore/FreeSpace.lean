import RecordStore.RecordMap

namespace RecordStore.FreeSpace

open RecordStore.CFile RecordStore.FixedRecord RecordStore.FixedPage RecordStore.PageBitmap
open RecordStore.HeapFile RecordStore.HeapImage RecordStore.HeapAlloc RecordStore.HeapSession
open RecordStore.LogicalPages RecordStore.HeapRefinement RecordStore.HeapReopen RecordStore.HeapRuns
open RecordStore.HeapContents RecordStore.RecordMap

variable {P S : Nat} {h : Heapfile P S} {pages : Pages P S} {beyond : Nat → Byte}

/-- Ids are in range, live or not, and records are as wide as a slot. -/
def OpWide (h : Heapfile P S) : Op → Prop
  | .put rec => rec.length = S / attributeSize
  | .get rid n => RidInRange h rid ∧ S / attributeSize ≤ n
  | .update rid rec => RidInRange h rid ∧ rec.length = S / attributeSize
  | .delete rid => RidInRange h rid

def OpWideOfPages (pages : Pages P S) : Op → Prop
  | .put rec => rec.length = S / attributeSize
  | .get rid n => RidOfPages pages rid ∧ S / attributeSize ≤ n
  | .update rid rec => RidOfPages pages rid ∧ rec.length = S / attributeSize
  | .delete rid => RidOfPages pages rid

/-- Every slot of every page holds a record. -/
def AllOccupied (h : Heapfile P S) : Prop :=
  ∀ pid page, logicalPage h pid = some page → ∀ t < fixedLenPageCapacity P S, page.filled t = true

/-- `t` is the lowest free slot of page `pid`, and no page before it has one. -/
def FirstFreeSlot (h : Heapfile P S) (pid t : Nat) : Prop :=
  (∃ page, logicalPage h pid = some page ∧ t < fixedLenPageCapacity P S ∧ page.filled t = false ∧
    ∀ u < t, page.filled u = true) ∧
  ∀ pid' < pid, ∀ page, logicalPage h pid' = some page →
    ∀ u < fixedLenPageCapacity P S, page.filled u = true

theorem opWide_iff (hz : Sizes P S) {h : Heapfile P S} {pages : Pages P S} (hr : Rep h pages) (o : Op) :
    OpWide h o ↔ OpWideOfPages pages o := by
  cases o with
  | put rec => exact Iff.rfl
  | get rid n => exact and_congr (ridInRange_iff hz hr rid) Iff.rfl
  | update rid rec => exact and_congr (ridInRange_iff hz hr rid) Iff.rfl
  | delete rid => exact ridInRange_iff hz hr rid

theorem opWide_opOfPages (pages : Pages P S) (o : Op) (ho : OpWideOfPages pages o) :
    OpOfPages pages o := by
  cases o with
  | put rec => trivial
  | get rid n => exact ho.1
  | update rid rec => exact ho.1
  | delete rid => exact ho

theorem ridOfPages_slot {rid : RecordID} (hin : RidOfPages pages rid) :
    ∃ (page : Page P S) (t : Nat), pages[rid.pageId]? = some page ∧ rid.slot = t ∧
      t < fixedLenPageCapacity P S := by
  obtain ⟨hlt, hpos, hcap⟩ := hin
  obtain ⟨t, ht⟩ := Int.eq_ofNat_of_zero_le hpos
  exact ⟨pages[rid.pageId], t, List.getElem?_eq_getElem hlt, ht, by omega⟩

theorem step_ok (hz : Sizes P S) (beyond : Nat → Byte) {o : Op} (ho : OpWideOfPages pages o) :
    ∃ res pages', LogicalPages.step beyond pages o = .ok (res, pages') := by
  cases o with
  | put rec =>
    obtain ⟨pages', -, hput, -, -⟩ := put_contents hz pages ho
    exact ⟨none, pages', step_put_of beyond hput⟩
  | get rid n =>
    obtain ⟨rec, hs⟩ := (step_get beyond n ho.1).1 ho.2
    exact ⟨some rec, pages, hs⟩
  | update rid rec =>
    obtain ⟨page, t, hj, hslot, hcap⟩ := ridOfPages_slot ho.1
    obtain ⟨page', hw, -⟩ := write_contents page hcap ho.2
    refine ⟨none, pages.set rid.pageId page', ?_⟩
    simp only [LogicalPages.step, modifyPage_some hj, hslot, hw]
    rfl
  | delete rid =>
    obtain ⟨page, t, hj, hslot, hcap⟩ := ridOfPages_slot ho
    obtain ⟨page', hw, -⟩ := delete_contents page hcap
    refine ⟨none, pages.set rid.pageId page', ?_⟩
    simp only [LogicalPages.step, modifyPage_some hj, hslot, hw]
    rfl

theorem run_ok (hz : Sizes P S) (os : List Op) (ha : PagesAdmissible beyond OpWideOfPages pages os) :
    ∃ results pages', LogicalPages.run beyond pages os = .ok (results, pages') := by
  induction os generalizing pages with
  | nil => exact ⟨[], pages, rfl⟩
  | cons o os ih =>
    obtain ⟨hop, hall⟩ := ha
    obtain ⟨res, pages1, hs⟩ := step_ok hz beyond hop
    obtain ⟨results, pages', hrun⟩ := ih (hall res pages1 hs).2
    exact ⟨res :: results, pages', by simp [LogicalPages.run, hs, hrun]⟩

theorem allOccupied_iff (hz : Sizes P S) (hr : Rep h pages) : AllOccupied h ↔ firstFree pages = none := by
  have hfull : ∀ page : Page P S, (∀ t < fixedLenPageCapacity P S, page.filled t = true) ↔
      ¬ 0 < fixedLenPageFreeslots page := by
    intro page
    rw [freeslots_pos_iff, ← emptySlot_eq_none]
    cases emptySlot page <;> simp
  simp only [AllOccupied, logicalPage_eq hz hr, firstFree, List.findIdx?_eq_none_iff, hfull]
  constructor
  · intro hall page hmem
    obtain ⟨j, hj⟩ := List.mem_iff_getElem?.mp hmem
    simpa using hall j page hj
  · intro hall j page hj
    simpa using hall page (List.mem_of_getElem? hj)

theorem firstFreeSlot_of (hz : Sizes P S) (hr : Rep h pages) {j t : Nat} {page : Page P S}
    (hff : firstFree pages = some j) (hj : pages[j]? = some page) (he : emptySlot page = some t) :
    FirstFreeSlot h j t := by
  obtain ⟨hcap, hfree, hlow⟩ := emptySlot_eq_some.mp he
  refine ⟨⟨page, by rw [logicalPage_eq hz hr, hj], hcap, hfree, hlow⟩, ?_⟩
  obtain ⟨_, _, hbefore⟩ := List.findIdx?_eq_some_iff_getElem.mp hff
  intro i hi page' hp
  rw [logicalPage_eq hz hr] at hp
  obtain ⟨hlt, rfl⟩ := List.getElem?_eq_some_iff.mp hp
  have hnone : ¬ 0 < fixedLenPageFreeslots pages[i] := by simpa using hbefore i hi
  rw [freeslots_pos_iff] at hnone
  refine emptySlot_eq_none.mp ?_
  cases hs : emptySlot pages[i] with
  | none => rfl
  | some u => exact absurd ⟨u, hs⟩ hnone

/-- Where a put goes, by the counts in the directories: to the first free slot there is, or
to the first slot of a new page. -/
theorem put_first_fit (hz : Sizes P S) (hr : Rep h pages) {rec : Record}
    (hrec : rec.length = S / attributeSize) :
    ∃ pid h1 page h2 slot page' h', getFreePid h = .ok (pid, h1) ∧ getPage h1 pid = .ok (page, h2) ∧
      addFixedLenPage page rec = .ok (some slot, page') ∧ putRecord h rec = .ok h' ∧
      (¬ Allocated h pid ↔ AllOccupied h) ∧ (¬ AllOccupied h → FirstFreeSlot h pid slot) ∧
      (h'.file.bytes.length < 2147483648 → Allocated h' pid ∧
        contents h' = Function.update (contents h) ⟨pid, slot⟩ (some (stored rec))) := by
  have hocc := allOccupied_iff hz hr
  have halloc := fun pid => allocated_iff hz.page hr pid
  cases hff : firstFree pages with
  | some j =>
    obtain ⟨page, t, hj, he⟩ := firstFree_some hff
    obtain ⟨page', ha, -, hc⟩ := add_contents he hrec
    have hlt : j < pages.length := (List.getElem?_eq_some_iff.mp hj).1
    have hp := getFreePid_of_some hz hr.core hff
    obtain ⟨h2, hg, -, -, -⟩ := hr.core.getPage hz hj
    obtain ⟨h', hput, hc'⟩ := (put_core hz hr.core rec hp hj).page page' (by rw [ha]; rfl)
    have hr' := Rep.of_core hr hc' (by simp)
    refine ⟨j, h, page, h2, t, page', h', hp, hg, ha, hput, ?_, fun _ => firstFreeSlot_of hz hr hff hj he,
      fun _ => ⟨?_, ?_⟩⟩
    · rw [halloc, hocc, hff]
      simp [hlt]
    · rw [allocated_iff hz.page hr', List.length_set]
      exact hlt
    · rw [contents_eq hz hr', contents_eq hz hr, contentsOf_set hj hc]
  | none =>
    obtain ⟨h1, link, off, halloc1, hc1, -, -, -⟩ := allocPage_core hz hr.core hr.bound
    have hj : (pages ++ [Page.blank P S])[pages.length]? = some (Page.blank P S) :=
      List.getElem?_concat_length
    obtain ⟨page', ha, -, hc⟩ := add_contents (blank_emptySlot hz) hrec
    have hp := (getFreePid_of_none hz hr.core hff).trans halloc1
    obtain ⟨h2, hg, -, -, -⟩ := hc1.getPage hz hj
    obtain ⟨h', hput, -⟩ := (put_core hz hc1 rec hp hj).page page' (by rw [ha]; rfl)
    have hlogical : put pages rec = .ok ((pages ++ [Page.blank P S]).set pages.length page') := by
      rw [put, hff]
      simp only [modifyPage_some hj, ha]
      rfl
    have ht := put_agree hz hr rec
    rw [hput, hlogical] at ht
    refine ⟨pages.length, h1, Page.blank P S, h2, 0, page', h', hp, hg, ha, hput, ?_, ?_, fun hb => ?_⟩
    · rw [halloc, hocc, hff]
      simp
    · intro hno
      exact absurd (hocc.mpr hff) hno
    · have hr' := Tracks.rep ht (Tracks.bytes_length ht ▸ hb)
      constructor
      · rw [allocated_iff hz.page hr']
        simp
      · rw [contents_eq hz hr', contents_eq hz hr, contentsOf_set hj hc, contentsOf_blank]

/-- In every state that is reached the directories count the free slots of every page exactly,
and the next put is a first fit that finds room. -/
theorem free_space_exact (hz : Sizes P S) (hP : P < 2147483648) (beyond : Nat → Byte) (cmds : List Cmd)
    (ha : SessionAdmissible beyond P S OpWide cmds) :
    ∃ (h0 : Heapfile P S) (results : List (Option Record)) (h : Heapfile P S),
      createHeapfile P S = .ok h0 ∧ HeapSession.run beyond h0 cmds = .ok (results, h) ∧
      (∀ pid entry, getEntry h pid = .ok entry →
        ∃ page, logicalPage h pid = some page ∧ entry.value.freeSpace = fixedLenPageFreeslots page) ∧
      ∀ rec : Record, rec.length = S / attributeSize →
        ∃ pid h1 page h2 slot page' h', getFreePid h = .ok (pid, h1) ∧ getPage h1 pid = .ok (page, h2) ∧
          addFixedLenPage page rec = .ok (some slot, page') ∧ putRecord h rec = .ok h' ∧
          (¬ Allocated h pid ↔ AllOccupied h) ∧ (¬ AllOccupied h → FirstFreeSlot h pid slot) ∧
          (h'.file.bytes.length < 2147483648 → Allocated h' pid ∧
            contents h' = Function.update (contents h) ⟨pid, slot⟩ (some (stored rec))) := by
  obtain ⟨h0, he, hr0, -⟩ := createHeapfile_rep (S := S) hz.page hP
  have hp := (sessionAdmissible_iff hz hP (opWide_iff hz) opWide_opOfPages _).mp ha
  obtain ⟨results, pages, hrun⟩ := run_ok hz _ hp
  have hagree := run_refines hz opWide_opOfPages cmds hr0 hp
  rw [hrun] at hagree
  obtain ⟨⟨results', h⟩, hx, -, hr⟩ := hagree.of_ok_right
  refine ⟨h0, results', h, he, hx, ?_, fun rec hrec => put_first_fit hz hr hrec⟩
  intro pid entry hentry
  have hlt := (allocated_iff hz.page hr pid).mp ⟨entry, hentry⟩
  have hj := List.getElem?_eq_getElem hlt
  refine ⟨pages[pid], by rw [logicalPage_eq hz hr, hj], ?_⟩
  rw [hr.core.getEntry hz.page hj] at hentry
  rw [← Except.ok.inj hentry]

theorem free_space_exact_letters :
    ∃ (h0 : Heapfile 1002 10) (results : List (Option Record)) (h : Heapfile 1002 10),
      createHeapfile 1002 10 = .ok h0 ∧
      HeapSession.run (fun _ => 0) h0 [.op (.put letterRecord), .reopen, .op (.put letterRecord)] =
        .ok (results, h) ∧
      ∀ pid entry, getEntry h pid = .ok entry →
        ∃ page, logicalPage h pid = some page ∧ entry.value.freeSpace = fixedLenPageFreeslots page := by
  have hz : Sizes 1002 10 := ⟨by decide, by decide, by decide⟩
  obtain ⟨h0, results, h, he, hrun, hfree, -⟩ := free_space_exact hz (by decide) (fun _ => 0)
    [.op (.put letterRecord), .reopen, .op (.put letterRecord)] (by
      rw [sessionAdmissible_iff hz (by decide) (opWide_iff hz) opWide_opOfPages]
      refine pagesAdmissible_puts [letterRecord, letterRecord] (fun pages rec hrec => ?_) (by decide)
      simp only [List.mem_cons, List.not_mem_nil, or_false, or_self] at hrec
      rw [hrec]
      rfl)
  exact ⟨h0, results, h, he, hrun, hfree⟩

end RecordStore.FreeSpace
