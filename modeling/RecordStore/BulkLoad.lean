import RecordStore.PackedPages

namespace RecordStore.BulkLoad

open RecordStore.Splice RecordStore.CFile RecordStore.Outcome RecordStore.FixedRecord RecordStore.FixedPage
open RecordStore.PageSlots RecordStore.DirectoryPage RecordStore.HeapFile RecordStore.PageLayout
open RecordStore.DirectoryChain RecordStore.HeapImage RecordStore.HeapSession RecordStore.LogicalPages
open RecordStore.HeapRefinement RecordStore.HeapReopen RecordStore.HeapRuns RecordStore.HeapContents
open RecordStore.RecordMap RecordStore.PackedPages

variable {P S : Nat} {h : Heapfile P S} {pages : Pages P S} {beyond : Nat → Byte} {recs : List Record}

/-- The pages and the directories of a heap file with `n` records put into it. -/
def pageCount (P S n : Nat) : Nat := ceilDiv n (fixedLenPageCapacity P S)

def dirCount (P S n : Nat) : Nat := max 1 (ceilDiv (pageCount P S n) (directoryCapacity P))

theorem numDirs_eq {c : Nat} (hc : 0 < c) (n : Nat) : numDirs c n = max 1 (ceilDiv n c) := by
  cases n with
  | zero => simp [numDirs, ceilDiv_zero hc]
  | succ n =>
    rw [numDirs, ceilDiv_succ hc, Nat.add_sub_cancel]
    exact (Nat.max_eq_right (Nat.le_add_left 1 _)).symm

theorem fileLength_eq (P n : Nat) : fileLength P n = (n + numDirs (directoryCapacity P) n) * P := by
  rw [fileLength, layout_length]

theorem fileLength_mono {m n : Nat} (hle : m ≤ n) : fileLength P m ≤ fileLength P n := by
  rw [fileLength_eq, fileLength_eq]
  apply Nat.mul_le_mul_right
  apply Nat.add_le_add hle
  exact Nat.succ_le_succ (Nat.div_le_div_right (by omega))

theorem step_put {rec : Record} {res : Option Record} {pages' : Pages P S}
    (hs : LogicalPages.step beyond pages (.put rec) = .ok (res, pages')) :
    put pages rec = .ok pages' := by
  obtain ⟨ps, hput, he⟩ := map_eq_ok.mp hs
  obtain ⟨-, rfl⟩ := Prod.mk.inj he
  exact hput

theorem packed_run (hz : Sizes P S) (beyond : Nat → Byte) (rest : List Record)
    (hrest : ∀ rec ∈ rest, rec.length = S / attributeSize) (hp : Packed pages recs) :
    ∃ results pages', LogicalPages.run beyond pages (rest.map Op.put) = .ok (results, pages') ∧
      Packed pages' (recs ++ rest) := by
  induction rest generalizing pages recs with
  | nil => exact ⟨[], pages, rfl, by rwa [List.append_nil]⟩
  | cons rec rest ih =>
    obtain ⟨pages1, hput, hp1⟩ := hp.put hz (hrest rec (List.mem_cons_self ..))
    obtain ⟨results, pages', hrun, hp'⟩ := ih (fun r hr => hrest r (List.mem_cons_of_mem _ hr)) hp1
    exact ⟨none :: results, pages', run_put_of hput hrun, by rwa [List.append_assoc] at hp'⟩

/-- The file is longest at the end of the load. -/
theorem packed_admissible (hz : Sizes P S) (beyond : Nat → Byte) (rest : List Record)
    (hrest : ∀ rec ∈ rest, rec.length = S / attributeSize) (hp : Packed pages recs)
    (hb : fileLength P (pageCount P S (recs.length + rest.length)) < 2147483648) :
    PagesAdmissible beyond OpOfPages pages (rest.map Op.put) := by
  induction rest generalizing pages recs with
  | nil => trivial
  | cons rec rest ih =>
    refine ⟨trivial, fun res pages' hs => ?_⟩
    obtain ⟨pages1, hput, hp1⟩ := hp.put hz (hrest rec (List.mem_cons_self ..))
    obtain rfl : pages1 = pages' := Except.ok.inj (hput.symm.trans (step_put hs))
    have hlen : (recs ++ [rec]).length + rest.length = recs.length + (rec :: rest).length := by
      simp only [List.length_append, List.length_cons, List.length_nil]
      omega
    constructor
    · rw [hp1.count]
      refine lt_of_le_of_lt (fileLength_mono ?_) hb
      exact Nat.div_le_div_right (by omega)
    · refine ih (fun r hr => hrest r (List.mem_cons_of_mem _ hr)) hp1 ?_
      rwa [hlen]

theorem packed_contents (hz : Sizes P S) (hp : Packed pages recs) (rid : RecordID) (rec : Record) :
    contentsOf pages rid = some rec ↔ ∃ (i : Nat) (r : Record), recs[i]? = some r ∧
      rid = ⟨i / fixedLenPageCapacity P S, (i % fixedLenPageCapacity P S : Nat)⟩ ∧ rec = stored r := by
  have hc := capacity_pos hz.slotPos hz.slotLt
  constructor
  · intro hrec
    obtain ⟨page, t, hj, hslot, ht, -⟩ := live_rid (by rw [hrec]; simp)
    obtain ⟨j, slot⟩ := rid
    simp only at hj hslot
    rw [contentsOf, hj, Option.bind_some, hslot, hp.holds j page hj t ht, getElem?_slice, if_pos ht] at hrec
    obtain ⟨r, hr, he⟩ := Option.map_eq_some_iff.mp hrec
    refine ⟨j * fixedLenPageCapacity P S + t, r, hr, ?_, he.symm⟩
    rw [hslot, Nat.mul_comm, Nat.mul_add_div hc, Nat.div_eq_of_lt ht, Nat.mul_add_mod,
      Nat.mod_eq_of_lt ht, Nat.add_zero]
  · rintro ⟨i, r, hi, rfl, rfl⟩
    have hlt := (List.getElem?_eq_some_iff.mp hi).1
    have hm := Nat.mod_lt i hc
    have hj := List.getElem?_eq_getElem (l := pages)
      (show i / fixedLenPageCapacity P S < pages.length by rw [hp.count]; exact div_lt_ceilDiv hc hlt)
    rw [contentsOf, hj, Option.bind_some, hp.holds _ _ hj _ hm, getElem?_slice, if_pos hm,
      Nat.div_add_mod', hi]
    rfl

/-- Loading a new heap file ends without a fault if the file it makes is below `2 ^ 31` bytes,
keeps the records in order and leaves no gap. -/
theorem load_packs (hz : Sizes P S) (beyond : Nat → Byte) (recs : List Record)
    (hrecs : ∀ rec ∈ recs, rec.length = S / attributeSize)
    (hb : (pageCount P S recs.length + dirCount P S recs.length) * P < 2147483648) :
    ∃ (h0 : Heapfile P S) (results : List (Option Record)) (h : Heapfile P S),
      createHeapfile P S = .ok h0 ∧
      HeapSession.run beyond h0 (recs.map (fun rec => .op (.put rec))) = .ok (results, h) ∧
      (∀ rid rec, contents h rid = some rec ↔ ∃ (i : Nat) (r : Record), recs[i]? = some r ∧
        rid = ⟨i / fixedLenPageCapacity P S, (i % fixedLenPageCapacity P S : Nat)⟩ ∧ rec = stored r) ∧
      (∀ pid, Allocated h pid ↔ pid < pageCount P S recs.length) ∧
      h.directoryBuffer.length = dirCount P S recs.length ∧
      (∀ pid, pid + 1 < pageCount P S recs.length →
        ∃ page, logicalPage h pid = some page ∧ fixedLenPageFreeslots page = 0) ∧
      h.file.bytes.length = (pageCount P S recs.length + dirCount P S recs.length) * P := by
  have hc := capacity_pos hz.slotPos hz.slotLt
  have hP : P < 2147483648 := by
    refine lt_of_le_of_lt (Nat.le_mul_of_pos_left P ?_) hb
    exact Nat.add_pos_right _ (Nat.lt_of_lt_of_le Nat.zero_lt_one (Nat.le_max_left _ _))
  have hdirs : numDirs (directoryCapacity P) (pageCount P S recs.length) = dirCount P S recs.length :=
    numDirs_eq (capacity_bounds hz.page hP).1 _
  have hfile : fileLength P (pageCount P S recs.length) =
      (pageCount P S recs.length + dirCount P S recs.length) * P := by
    rw [fileLength_eq, hdirs]
  obtain ⟨h0, he, hr0, -⟩ := createHeapfile_rep (S := S) hz.page hP
  obtain ⟨results, pages, hrun, hp⟩ := packed_run hz beyond recs hrecs (Packed.nil hc)
  rw [List.nil_append] at hp
  have hadm : PagesAdmissible beyond OpOfPages ([] : Pages P S) (recs.map Op.put) := by
    refine packed_admissible hz beyond recs hrecs (Packed.nil hc) ?_
    rw [List.length_nil, Nat.zero_add, hfile]
    exact hb
  have hagree := run_refines hz (fun _ _ ho => ho) _ hr0 (ops_puts recs ▸ hadm)
  rw [ops_puts, hrun] at hagree
  obtain ⟨⟨results', h⟩, hx, -, hr⟩ := hagree.of_ok_right
  have hcount : pages.length = pageCount P S recs.length := hp.count
  refine ⟨h0, results', h, he, hx, ?_, ?_, ?_, ?_, ?_⟩
  · rw [contents_eq hz hr]
    exact packed_contents hz hp
  · intro pid
    rw [allocated_iff hz.page hr, hcount]
  · rw [hr.core.buffer_length, hcount, hdirs]
  · intro pid hlt
    have hget := List.getElem?_eq_getElem (l := pages) (show pid < pages.length by omega)
    refine ⟨_, (logicalPage_eq hz hr pid).trans hget, hp.full hget ?_⟩
    have hle := ceilDiv_le (n := recs.length) hc
    unfold pageCount at hlt
    omega
  · rw [← hfile, ← hcount]
    exact Tracks.bytes_length hr.tracks

/-- Two records that take a page each. -/
theorem load_packs_letters : ∃ (h0 : Heapfile 1002 1000) (results : List (Option Record)) (h : Heapfile 1002 1000),
    createHeapfile 1002 1000 = .ok h0 ∧
    HeapSession.run (fun _ => 0) h0 (twoRecords.map (fun rec => .op (.put rec))) = .ok (results, h) ∧
    (∀ rid rec, contents h rid = some rec ↔ ∃ (i : Nat) (r : Record), twoRecords[i]? = some r ∧
      rid = ⟨i / fixedLenPageCapacity 1002 1000, (i % fixedLenPageCapacity 1002 1000 : Nat)⟩ ∧ rec = stored r) ∧
    (∀ pid, Allocated h pid ↔ pid < 2) ∧
    h.directoryBuffer.length = 1 ∧
    (∀ pid, pid + 1 < 2 → ∃ page, logicalPage h pid = some page ∧ fixedLenPageFreeslots page = 0) ∧
    h.file.bytes.length = 3 * 1002 := by
  refine load_packs ⟨by decide, by decide, by decide⟩ (fun _ => 0) twoRecords ?_ (by decide)
  decide

end RecordStore.BulkLoad
