import RecordStore.AllocatedRuns
import RecordStore.FreeSpace
import RecordStore.Scanning

namespace RecordStore.UpdateProgram

open RecordStore.CFile RecordStore.Outcome RecordStore.FixedRecord RecordStore.FixedPage RecordStore.PageSlots
open RecordStore.DirectoryPage RecordStore.HeapFile RecordStore.PageLayout RecordStore.HeapImage
open RecordStore.HeapAlloc RecordStore.HeapSession RecordStore.LogicalPages RecordStore.HeapRefinement
open RecordStore.HeapRuns RecordStore.HeapContents RecordStore.FreeSpace RecordStore.AllocatedRuns
open RecordStore.CsvPrograms RecordStore.RecordIterator RecordStore.Scanning

variable {P S : Nat} {h : Heapfile P S} {pages : Pages P S} {beyond : Nat → Byte}

def numAttr : Nat := 100

/-- `rec[attribute_id] = new_value`. Past its end the vector has no element to assign. -/
def setAttribute (rec : Record) (attributeId : Nat) (newValue : CString) : Except Fault Record :=
  if attributeId < rec.length then .ok (rec.set attributeId newValue) else .error .memory

/-- What the program does to an open heap file: it reads the record into one of `n` attributes,
replaces an attribute and writes the record back. -/
def updateAttribute (beyond : Nat → Byte) (h : Heapfile P S) (rid : RecordID) (n attributeId : Nat)
    (newValue : CString) : Except Fault (Heapfile P S) := do
  let (rec, h) ← getRecord beyond h rid n
  let rec ← setAttribute rec attributeId newValue
  updateRecord h rid rec

/-- `update <heapfile> <pid>,<slot> <attribute_id> <new_value> <page_size>`: the new content of the
heap file. -/
def update (beyond : Nat → Byte) (P : Nat) (bytes : List Byte) (pid slot attributeId : Int)
    (newValue : CString) : Except Fault (List Byte) :=
  if 0 ≤ pid ∧ 0 ≤ slot ∧ 0 ≤ attributeId ∧ 0 < P then do
    let h : Heapfile P slotSize ← openHeapfile P slotSize (bytes.length / P + 1) bytes
    let h ← updateAttribute beyond h ⟨pid.toNat, slot⟩ numAttr attributeId.toNat
      (newValue.truncate attributeSize)
    closeHeapfile h
  else .error .exit

def updatedRecord (page : Page P S) (t attributeId : Nat) (newValue : CString) : Record :=
  (slotRecord page t).set attributeId newValue

theorem slotRecord_length (page : Page P S) (t : Nat) : (slotRecord page t).length = S / attributeSize := by
  rw [slotRecord, List.length_map, List.length_range]

theorem updatedRecord_length (page : Page P S) (t attributeId : Nat) (newValue : CString) :
    (updatedRecord page t attributeId newValue).length = S / attributeSize := by
  rw [updatedRecord, List.length_set, slotRecord_length]

theorem updatedRecord_size (page : Page P S) (t attributeId : Nat) (newValue : CString) :
    fixedLenSizeof (updatedRecord page t attributeId newValue) ≤ S := by
  rw [fixedLenSizeof, updatedRecord_length]
  exact Nat.div_mul_le_self _ _

theorem updateAttribute_rep (hz : Sizes P S) (hr : Rep h pages) {j t i : Nat} {page : Page P S}
    (hj : pages[j]? = some page) (ht : t < fixedLenPageCapacity P S) (hi : i < S / attributeSize)
    (newValue : CString) :
    ∃ h' page', updateAttribute beyond h ⟨j, t⟩ (S / attributeSize) i newValue = .ok h' ∧
      writeFixedLenPage page t (updatedRecord page t i newValue) = .ok page' ∧ Rep h' (pages.set j page') := by
  obtain ⟨h1, hg, hc1, -, -⟩ := hr.core.getPage hz hj
  have hr1 : Rep h1 pages := Rep.of_core hr hc1 rfl
  have hget : getRecord beyond h ⟨j, t⟩ (S / attributeSize) = .ok (slotRecord page t, h1) := by
    rw [getRecord, hg, ok_bind]
    simp only [readFixedLenPage_eq beyond page ht, ok_bind]
  have hset : setAttribute (slotRecord page t) i newValue = .ok (updatedRecord page t i newValue) := by
    rw [setAttribute, slotRecord_length, if_pos hi, updatedRecord]
  obtain ⟨page', hw, -⟩ := writeFixedLenPage_spec page ht (updatedRecord_size page t i newValue)
  obtain ⟨h', hx, hr'⟩ := updateRecord_rep hz hr1 hj hw
  refine ⟨h', page', ?_, hw, hr'⟩
  rw [updateAttribute, hget, ok_bind]
  simp only [hset, ok_bind]
  exact hx

def live (h : Heapfile P S) : Set RecordID := {rid | contents h rid ≠ none}

theorem live_eq_insert {h' : Heapfile P S} {rid : RecordID} {rec : Record}
    (hc : contents h' = Function.update (contents h) rid (some rec)) : live h' = insert rid (live h) := by
  ext other
  rw [Set.mem_insert_iff, live, live, Set.mem_ofPred_eq, Set.mem_ofPred_eq, hc]
  by_cases ho : other = rid
  · rw [ho, Function.update_self]
    exact iff_of_true (Option.some_ne_none rec) (.inl rfl)
  · rw [Function.update_of_ne ho]
    exact (or_iff_right ho).symm

theorem updateAttribute_live (hz : Sizes P S) (hr : Rep h pages) {rid : RecordID} {i : Nat}
    (hin : RidOfPages pages rid) (hi : i < S / attributeSize) (newValue : CString) :
    ∃ h' pages', updateAttribute beyond h rid (S / attributeSize) i newValue = .ok h' ∧
      Rep h' pages' ∧ pages'.length = pages.length ∧ live h' = insert rid (live h) := by
  obtain ⟨j, slot⟩ := rid
  obtain ⟨page, t, hj, hslot, ht⟩ := ridOfPages_slot hin
  obtain rfl : slot = t := hslot
  obtain ⟨h', page', hx, hw, hr'⟩ := updateAttribute_rep hz hr hj ht hi newValue
  obtain ⟨page'', hw', hc⟩ := write_contents page ht (updatedRecord_length page t i newValue)
  obtain rfl : page' = page'' := Except.ok.inj (hw.symm.trans hw')
  have hcontents : contents h' =
      Function.update (contents h) ⟨j, t⟩ (some (stored (updatedRecord page t i newValue))) := by
    rw [contents_eq hz hr', contents_eq hz hr, contentsOf_set hj hc]
  exact ⟨h', _, hx, hr', List.length_set, live_eq_insert hcontents⟩

structure Update where
  rid : RecordID
  attributeId : Nat
  newValue : CString

def updates (beyond : Nat → Byte) (n : Nat) : Heapfile P S → List Update → Except Fault (Heapfile P S)
  | h, [] => .ok h
  | h, u :: us => do
    let h ← updateAttribute beyond h u.rid n u.attributeId u.newValue
    updates beyond n h us

theorem updates_live (hz : Sizes P S) (us : List Update) (hr : Rep h pages)
    (hus : ∀ u ∈ us, RidOfPages pages u.rid ∧ u.attributeId < S / attributeSize) :
    ∃ h', updates beyond (S / attributeSize) h us = .ok h' ∧
      live h' = live h ∪ {rid | ∃ u ∈ us, u.rid = rid} := by
  induction us generalizing h pages with
  | nil => exact ⟨h, rfl, by simp⟩
  | cons u us ih =>
    obtain ⟨hin, hi⟩ := hus u (List.mem_cons_self ..)
    obtain ⟨h1, pages1, hx, hr1, hlen, hlive⟩ := updateAttribute_live hz hr hin hi u.newValue
    obtain ⟨h', hrest, hlive'⟩ := ih hr1 (fun v hv => by
      obtain ⟨hin', hi'⟩ := hus v (List.mem_cons_of_mem _ hv)
      exact ⟨⟨hlen ▸ hin'.1, hin'.2⟩, hi'⟩)
    refine ⟨h', by rw [updates, hx, ok_bind, hrest], ?_⟩
    rw [hlive', hlive]
    ext rid
    simp only [Set.mem_union, Set.mem_insert_iff, Set.mem_ofPred_eq, List.mem_cons, exists_eq_or_imp,
      @eq_comm _ rid u.rid]
    rw [or_assoc, or_left_comm]

/-- However often the program is run: the ids that hold a record are the same afterwards exactly when
each of the ids it was given held one. -/
theorem updates_keep_live_iff (hz : Sizes P S) (hP : P < 2147483648) {cmds : List Cmd}
    (ha : SessionAdmissible beyond P S OpAllocated cmds) (hreach : Reached beyond P S cmds h)
    {us : List Update} (hus : ∀ u ∈ us, RidInRange h u.rid ∧ u.attributeId < S / attributeSize) :
    ∃ h', updates beyond (S / attributeSize) h us = .ok h' ∧
      (live h' = live h ↔ ∀ u ∈ us, contents h u.rid ≠ none) := by
  obtain ⟨pages, hr⟩ := reached_rep hz hP ha hreach
  obtain ⟨h', hx, hlive⟩ := updates_live hz us hr
    (fun u hu => ⟨(ridInRange_iff hz hr _).mp (hus u hu).1, (hus u hu).2⟩)
  refine ⟨h', hx, ?_⟩
  rw [hlive, Set.union_eq_left]
  constructor
  · exact fun hsub u hu => hsub ⟨u, hu, rfl⟩
  · rintro hall _ ⟨u, hu, rfl⟩
    exact hall u hu

/-- A record is put and deleted; an update of its first attribute brings it back, and the next scan
lists it. -/
theorem update_brings_back : ∃ h : Heapfile 1002 slotSize,
    SessionAdmissible (fun _ => 0) 1002 slotSize OpAllocated [.op (.put wideRecord), .op (.delete ⟨0, (0 : Nat)⟩)] ∧
    Reached (fun _ => 0) 1002 slotSize [.op (.put wideRecord), .op (.delete ⟨0, (0 : Nat)⟩)] h ∧
    RidInRange h ⟨0, (0 : Nat)⟩ ∧ contents h ⟨0, (0 : Nat)⟩ = none ∧
    ∃ h', updateAttribute (fun _ => 0) h ⟨0, (0 : Nat)⟩ numAttr 0 letterAttribute = .ok h' ∧ live h' ≠ live h ∧
      ∃ out fuel it, scan (fun _ => 0) true fuel h' = .ok (out, it) ∧ ∃ rec, (⟨0, (0 : Nat)⟩, rec) ∈ out := by
  have hz : Sizes 1002 slotSize := ⟨by decide, by decide, by decide⟩
  have hc : 0 < fixedLenPageCapacity 1002 slotSize := by decide
  obtain ⟨h0, page, ha0, hreach0, hr0, hal0, -⟩ := reached_wideRecord
  obtain ⟨page', hd, hcontents⟩ := delete_contents page hc
  have hj : [page][0]? = some page := rfl
  obtain ⟨h, ha, hreach, hr⟩ := reached_delete hz ha0 hreach0 hr0 hal0 hj hd
  have hin : RidOfPages ([page].set 0 page') ⟨0, (0 : Nat)⟩ := ⟨Nat.zero_lt_one, le_rfl, Int.ofNat_lt.mpr hc⟩
  have hnone : contents h ⟨0, (0 : Nat)⟩ = none := by
    rw [contents_eq hz hr, contentsOf_set hj hcontents, Function.update_self]
  obtain ⟨h', pages', hx, hr', hlen, hlive⟩ := updateAttribute_live hz hr hin
    (show 0 < slotSize / attributeSize by decide) letterAttribute
  have hmem : (⟨0, (0 : Nat)⟩ : RecordID) ∈ live h' := hlive ▸ Set.mem_insert _ _
  have hfull : ¬ LastFull (directoryCapacity 1002) pages'.length := by
    rw [hlen, List.length_set, List.length_singleton]
    decide
  obtain ⟨it, hscan, -⟩ := scan_of_rep hz (fun _ => 0) hr' hfull (Nat.lt_succ_self _)
  obtain ⟨rec, hrec⟩ := Option.ne_none_iff_exists'.mp hmem
  rw [contents_eq hz hr'] at hrec
  exact ⟨h, ha, hreach, ⟨(allocated_iff hz.page hr 0).mpr hin.1, hin.2⟩, hnone, h', hx,
    fun he => (he ▸ hmem : (⟨0, (0 : Nat)⟩ : RecordID) ∈ live h) hnone,
    _, _, it, hscan, rec, (mem_listing_iff _ _ _).mpr hrec⟩

theorem updates_keep_live_iff_put : ∃ h : Heapfile 1002 slotSize,
    Reached (fun _ => 0) 1002 slotSize [.op (.put wideRecord)] h ∧
    ∃ h', updates (fun _ => 0) (slotSize / attributeSize) h [⟨⟨0, (0 : Nat)⟩, 0, letterAttribute⟩] = .ok h' ∧
      (live h' = live h ↔ ∀ u ∈ [(⟨⟨0, (0 : Nat)⟩, 0, letterAttribute⟩ : Update)], contents h u.rid ≠ none) := by
  have hz : Sizes 1002 slotSize := ⟨by decide, by decide, by decide⟩
  obtain ⟨h, -, ha, hreach, -, hal, -⟩ := reached_wideRecord
  refine ⟨h, hreach, updates_keep_live_iff hz (by decide) ha hreach (fun u hu => ?_)⟩
  obtain rfl := List.mem_singleton.mp hu
  exact ⟨⟨hal, le_rfl, by decide⟩, by decide⟩

end RecordStore.UpdateProgram
