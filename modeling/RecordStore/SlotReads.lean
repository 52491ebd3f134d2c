import RecordStore.AllocatedRuns
import RecordStore.Scanning
import RecordStore.SlotFrame

namespace RecordStore.SlotReads

open RecordStore.CFile RecordStore.Outcome RecordStore.FixedRecord RecordStore.FixedPage RecordStore.PageSlots
open RecordStore.SlotFrame RecordStore.HeapFile RecordStore.HeapImage RecordStore.HeapAlloc
open RecordStore.HeapSession RecordStore.LogicalPages RecordStore.HeapRuns RecordStore.HeapContents
open RecordStore.AllocatedRuns RecordStore.RecordIterator RecordStore.CsvPrograms RecordStore.Scanning

variable {P S : Nat} {h : Heapfile P S} {pages : Pages P S} {beyond : Nat → Byte}

/-- `strncpy` from the address `src`: the bytes before the NUL, and the addresses that are read. -/
def strncpyFrom (mem : Nat → Byte) : Nat → Nat → List Byte × List Nat
  | _, 0 => ([], [])
  | src, n + 1 =>
    if mem src = 0 then ([], [src])
    else
      let (bytes, reads) := strncpyFrom mem (src + 1) n
      (mem src :: bytes, src :: reads)

/-- The loop of `fixed_len_read` over `n` attributes: their bytes, and the addresses that are read. -/
def readLoop (mem : Nat → Byte) : Nat → Nat → List (List Byte) × List Nat
  | _, 0 => ([], [])
  | src, n + 1 =>
    let (value, reads) := strncpyFrom mem src attributeSize
    let (values, more) := readLoop mem (src + attributeSize) n
    (value :: values, reads ++ more)

/-- `read_fixed_len_page`, with the addresses from the start of the page that it reads: that of the flag, and those of the
record. -/
def readFixedLenPageLoop (beyond : Nat → Byte) (page : Page P S) (slot : Int) (n : Nat) :
    Except Fault (List (List Byte) × Int × List Nat) :=
  if 0 ≤ slot then
    if S / attributeSize ≤ n then
      let (values, reads) := readLoop (page.memory beyond) (slot.toNat * S) n
      .ok (values, flagIndex P slot.toNat, reads)
    else .error .assertFailed
  else .error .assertFailed

def nextReads (beyond : Nat → Byte) (it : Iterator P S) : Except Fault (Int × List Nat) := do
  let (page, _) ← getPage it.heapfile it.pid
  let (_, flag, reads) ← readFixedLenPageLoop beyond page it.slot 100
  .ok (flag, reads)

section Loop

variable {mem mem' : Nat → Byte}

theorem strncpyFrom_bytes (mem : Nat → Byte) (src n : Nat) :
    (strncpyFrom mem src n).1 = (cstring ((List.range n).map (fun k => mem (src + k))) n).bytes := by
  have hall : (strncpyFrom mem src n).1 = ((List.range' src n).map mem).takeWhile (fun b => b ≠ 0) := by
    induction n generalizing src with
    | zero => rfl
    | succ n ih =>
      rw [strncpyFrom, List.range'_succ, List.map_cons]
      by_cases hz : mem src = 0
      · rw [if_pos hz, List.takeWhile_cons_of_neg (by simpa using hz)]
      · rw [if_neg hz, List.takeWhile_cons_of_pos (by simpa using hz), ← ih]
  have hlen : ((List.range n).map (fun k => mem (src + k))).length ≤ n := by simp
  have htake := List.take_of_length_le hlen
  rw [hall, List.range'_eq_map_range, List.map_map]
  exact congrArg (List.takeWhile (fun b => b ≠ 0)) htake.symm

theorem readLoop_bytes (mem : Nat → Byte) (src n : Nat) :
    (readLoop mem src n).1 = (List.range n).map (fun i =>
      (cstring ((List.range attributeSize).map (fun k => mem (src + (i * attributeSize + k))))
        attributeSize).bytes) := by
  induction n generalizing src with
  | zero => rfl
  | succ n ih =>
    rw [readLoop, List.range_succ_eq_map, List.map_cons, List.map_map]
    simp only [strncpyFrom_bytes, ih, Nat.zero_mul, Nat.zero_add, Function.comp_def, Nat.succ_mul,
      Nat.add_assoc, Nat.add_left_comm]

theorem strncpyFrom_range {src n i : Nat} (hi : i ∈ (strncpyFrom mem src n).2) : src ≤ i ∧ i < src + n := by
  induction n generalizing src with
  | zero => cases hi
  | succ n ih =>
    rw [strncpyFrom] at hi
    split at hi
    · rw [List.mem_singleton] at hi
      omega
    · obtain rfl | hi := List.mem_cons.mp hi
      · omega
      · have := ih hi
        omega

theorem readLoop_range {src n i : Nat} (hi : i ∈ (readLoop mem src n).2) :
    src ≤ i ∧ i < src + n * attributeSize := by
  induction n generalizing src with
  | zero => cases hi
  | succ n ih =>
    rw [readLoop] at hi
    rw [Nat.succ_mul]
    obtain hi | hi := List.mem_append.mp hi
    · have := strncpyFrom_range hi
      omega
    · have := ih hi
      omega

theorem mem_readLoop (mem : Nat → Byte) (src : Nat) {n a : Nat} (ha : a < n) :
    src + a * attributeSize ∈ (readLoop mem src n).2 := by
  induction n generalizing src a with
  | zero => cases ha
  | succ n ih =>
    rw [readLoop]
    cases a with
    | zero =>
      refine List.mem_append_left _ ?_
      rw [Nat.zero_mul, Nat.add_zero, attributeSize, strncpyFrom]
      split
      · exact List.mem_singleton_self src
      · exact List.mem_cons_self
    | succ a =>
      refine List.mem_append_right _ ?_
      rw [Nat.succ_mul, Nat.add_comm (a * attributeSize), ← Nat.add_assoc]
      exact ih _ (Nat.lt_of_succ_lt_succ ha)

theorem strncpyFrom_congr {src n : Nat} (h : ∀ i ∈ (strncpyFrom mem src n).2, mem' i = mem i) :
    strncpyFrom mem' src n = strncpyFrom mem src n := by
  induction n generalizing src with
  | zero => rfl
  | succ n ih =>
    rw [strncpyFrom] at h
    rw [strncpyFrom, strncpyFrom]
    by_cases hz : mem src = 0
    · rw [if_pos hz] at h
      rw [if_pos hz, if_pos ((h src (List.mem_singleton_self src)).trans hz)]
    · rw [if_neg hz] at h
      have hsrc := h src List.mem_cons_self
      rw [if_neg hz, if_neg (hsrc ▸ hz), hsrc, ih (fun i hi => h i (List.mem_cons_of_mem _ hi))]

theorem readLoop_congr {src n : Nat} (h : ∀ i ∈ (readLoop mem src n).2, mem' i = mem i) :
    readLoop mem' src n = readLoop mem src n := by
  induction n generalizing src with
  | zero => rfl
  | succ n ih =>
    rw [readLoop] at h
    rw [readLoop, readLoop, strncpyFrom_congr (fun i hi => h i (List.mem_append_left _ hi)),
      ih (fun i hi => h i (List.mem_append_right _ hi))]

end Loop

section Slot

variable {page page' : Page P S}

theorem readFixedLenPageLoop_eq (beyond : Nat → Byte) (page : Page P S) (slot : Int) (n : Nat) :
    (readFixedLenPageLoop beyond page slot n).map Prod.fst =
      (readFixedLenPage beyond page slot n).map (List.map CString.bytes) := by
  rw [readFixedLenPageLoop, readFixedLenPage]
  split
  case isTrue =>
    rw [fixedLenRead]
    split
    case isTrue => simp only [Except.map, readLoop_bytes, List.map_map, Function.comp_def]
    case isFalse => rfl
  case isFalse => rfl

theorem readFixedLenPage_congr {beyond' : Nat → Byte} {t n : Nat}
    (h : ∀ i ∈ (readLoop (page.memory beyond) (t * S) n).2, page'.memory beyond' i = page.memory beyond i) :
    readFixedLenPage beyond' page' t n = readFixedLenPage beyond page t n := by
  have hinj : Function.Injective (Except.map (List.map CString.bytes) : Except Fault Record → _) := by
    rintro (e | r) (e' | r') he
    · exact congrArg Except.error (Except.error.inj he)
    · cases he
    · cases he
    · exact congrArg Except.ok (List.map_injective_iff.mpr (fun _ _ => CString.ext) (Except.ok.inj he))
  apply hinj
  rw [← readFixedLenPageLoop_eq, ← readFixedLenPageLoop_eq, readFixedLenPageLoop, readFixedLenPageLoop,
    Int.toNat_natCast, readLoop_congr h]

theorem memory_of_lt (page : Page P S) (beyond : Nat → Byte) {i : Nat} (hi : i < P) :
    page.memory beyond i = page.byte i := if_pos hi

end Slot

/-- What the record under the cursor is read from lies in its slot and in the page, and these bytes decide the record:
another iterator at such a slot delivers it too, whatever else its page and the memory behind it hold. -/
def RecordInSlot (beyond : Nat → Byte) (it : Iterator P S) : Prop :=
  (∃ flag reads, nextReads beyond it = .ok (flag, reads) ∧ ∀ i ∈ reads, i ∈ slotBytes S it.slot.toNat ∧ i < P) ∧
  ∀ (beyond' : Nat → Byte) (it' : Iterator P S) (page page' : Page P S),
    (getPage it.heapfile it.pid).map Prod.fst = .ok page → (getPage it'.heapfile it'.pid).map Prod.fst = .ok page' →
    it'.slot = it.slot → (∀ i ∈ slotBytes S it.slot.toNat, page'.byte i = page.byte i) →
    ∀ record record', (next beyond it).map Prod.fst = .ok record →
      (next beyond' it').map Prod.fst = .ok record' → record' = record

/-- All that `next` reads lies in the slot. -/
def StaysInSlot (beyond : Nat → Byte) (it : Iterator P S) : Prop :=
  RecordInSlot beyond it ∧
    ∃ flag reads, nextReads beyond it = .ok (flag, reads) ∧ ∃ i ∈ slotBytes S it.slot.toNat, flag = (i : Int)

theorem readFixedLenPage_of_next {it : Iterator P S} {page : Page P S} {record : Record}
    (hg : (getPage it.heapfile it.pid).map Prod.fst = .ok page)
    (hx : (next beyond it).map Prod.fst = .ok record) : readFixedLenPage beyond page it.slot 100 = .ok record := by
  obtain ⟨⟨page1, h⟩, hg1, rfl⟩ := map_eq_ok.mp hg
  obtain ⟨⟨record1, it1⟩, hx1, rfl⟩ := map_eq_ok.mp hx
  rw [next, hg1, ok_bind] at hx1
  obtain ⟨record2, hread, hrest⟩ := bind_eq_ok.mp hx1
  obtain ⟨it2, -, he⟩ := bind_eq_ok.mp hrest
  obtain ⟨rfl, -⟩ := Prod.mk.inj (Except.ok.inj he)
  exact hread

section Next

variable {q t : Nat} {page : Page P S}

theorem nextReads_eq (hz : Sizes P S) (hr : Rep h pages) (hq : pages[q]? = some page) (hw : S / attributeSize ≤ 100)
    (hasNext : Bool) :
    nextReads beyond ⟨h, q, t, hasNext⟩ = .ok (flagIndex P t, (readLoop (page.memory beyond) (t * S) 100).2) := by
  obtain ⟨h', hg, -, -, -⟩ := hr.core.getPage hz hq
  rw [nextReads, hg, ok_bind]
  simp only [readFixedLenPageLoop, if_pos (Int.natCast_nonneg t), if_pos hw, Int.toNat_natCast, ok_bind]

theorem not_staysInSlot (hz : Sizes P S) (hr : Rep h pages) (hq : pages[q]? = some page)
    (ht : t < fixedLenPageCapacity P S) (hw : S ≤ slotSize) (hasNext : Bool) :
    ¬ StaysInSlot beyond ⟨h, q, t, hasNext⟩ := by
  rintro ⟨-, flag, reads, hreads, i, hi, rfl⟩
  rw [nextReads_eq hz hr hq (Nat.div_le_div_right hw)] at hreads
  have hflag := (Prod.mk.inj (Except.ok.inj hreads)).1
  exact flagIndex_not_mem_slotBytes ht ht hi hflag.symm

/-- The record is read from the slot under the cursor exactly when a slot is as wide as the record that `next` builds. -/
theorem recordInSlot_iff (hz : Sizes P S) (hr : Rep h pages) (hq : pages[q]? = some page)
    (ht : t < fixedLenPageCapacity P S) (hw : S ≤ slotSize) (hdvd : S % attributeSize = 0) (hasNext : Bool) :
    RecordInSlot beyond ⟨h, q, t, hasNext⟩ ↔ S = slotSize := by
  have hfields : S / attributeSize ≤ 100 := Nat.div_le_div_right hw
  have hreads : nextReads beyond ⟨h, q, t, hasNext⟩ = .ok (flagIndex P t, (readLoop (page.memory beyond) (t * S) 100).2) :=
    nextReads_eq hz hr hq hfields hasNext
  have hpage := slot_in_page ht
  constructor
  · rintro ⟨⟨flag, reads, he, hin⟩, -⟩
    by_contra hne
    -- the attribute after the last one of the slot is read too
    have hlt : S / attributeSize < 100 := by
      unfold slotSize at hw hne
      unfold attributeSize at hdvd ⊢
      omega
    have hmem := mem_readLoop (page.memory beyond) (t * S) hlt
    rw [hreads] at he
    obtain ⟨hslot, -⟩ := hin _ ((Prod.mk.inj (Except.ok.inj he)).2 ▸ hmem)
    rw [Nat.div_mul_cancel (Nat.dvd_of_mod_eq_zero hdvd), Int.toNat_natCast, mem_slotBytes] at hslot
    omega
  · intro hS
    have hall {i : Nat} (hi : i ∈ (readLoop (page.memory beyond) (t * S) 100).2) : i ∈ slotBytes S t := by
      have hrange := readLoop_range hi
      rw [mem_slotBytes, hS]
      rw [hS] at hrange
      exact hrange
    have hlt {i : Nat} (hi : i ∈ slotBytes S t) : i < P := by
      rw [mem_slotBytes] at hi
      omega
    refine ⟨⟨_, _, hreads, fun i hi => ⟨hall hi, hlt (hall hi)⟩⟩, ?_⟩
    intro beyond' it' page1 page' hg hg' hslot hbytes record record' hx hx'
    have hread := readFixedLenPage_of_next hg hx
    have hread' := readFixedLenPage_of_next hg' hx'
    obtain ⟨h', hgetPage, -, -, -⟩ := hr.core.getPage hz hq
    rw [hgetPage] at hg
    obtain rfl : page = page1 := Except.ok.inj hg
    have hmem : ∀ i ∈ (readLoop (page.memory beyond) (t * S) 100).2,
        page'.memory beyond' i = page.memory beyond i := by
      intro i hi
      rw [memory_of_lt _ _ (hlt (hall hi)), memory_of_lt _ _ (hlt (hall hi))]
      exact hbytes i (hall hi)
    rw [hslot, readFixedLenPage_congr hmem, hread] at hread'
    exact (Except.ok.inj hread').symm

/-- Near the end of the page the attributes after the slot are not even in the page. -/
theorem next_leaves_page (hz : Sizes P S) (hr : Rep h pages) (hq : pages[q]? = some page)
    (hw : S / attributeSize ≤ 100) (hasNext : Bool) (hend : P ≤ t * S + 99 * attributeSize) :
    ∃ flag reads, nextReads beyond ⟨h, q, t, hasNext⟩ = .ok (flag, reads) ∧ ∃ i ∈ reads, P ≤ i :=
  ⟨_, _, nextReads_eq hz hr hq hw hasNext, _, mem_readLoop _ _ (by decide), hend⟩

end Next

/-- For every record of every heap file: reading it leaves its slot, since its flag is read, too. The record itself is read
from the slot exactly when slots have the 1000 bytes that 100 attributes take. -/
theorem next_never_stays (hz : Sizes P S) (hP : P < 2147483648) (hw : S ≤ slotSize) (hdvd : S % attributeSize = 0)
    {cmds : List Cmd} (ha : SessionAdmissible beyond P S OpAllocated cmds) (hreach : Reached beyond P S cmds h)
    {rid : RecordID} (hlive : contents h rid ≠ none) (beyond' : Nat → Byte) (hasNext : Bool) :
    ¬ StaysInSlot beyond' ⟨h, rid.pageId, rid.slot, hasNext⟩ ∧
      (RecordInSlot beyond' ⟨h, rid.pageId, rid.slot, hasNext⟩ ↔ S = slotSize) := by
  obtain ⟨pages, hr⟩ := reached_rep hz hP ha hreach
  rw [contents_eq hz hr] at hlive
  obtain ⟨page, t, hj, hslot, ht, -⟩ := live_rid hlive
  rw [hslot]
  exact ⟨not_staysInSlot hz hr hj ht hw hasNext, recordInSlot_iff hz hr hj ht hw hdvd hasNext⟩

/-- A heap file of one-attribute records, as one column has them: reading its only record reads the
bytes of 99 more attributes. -/
theorem next_leaves_slot : ∃ h : Heapfile 1002 10,
    SessionAdmissible (fun _ => 0) 1002 10 OpAllocated [.op (.put letterRecord)] ∧
    Reached (fun _ => 0) 1002 10 [.op (.put letterRecord)] h ∧ contents h ⟨0, (0 : Nat)⟩ ≠ none ∧
    ¬ StaysInSlot (fun _ => 0) ⟨h, 0, (0 : Nat), true⟩ ∧ ¬ RecordInSlot (fun _ => 0) ⟨h, 0, (0 : Nat), true⟩ := by
  have hz : Sizes 1002 10 := ⟨by decide, by decide, by decide⟩
  obtain ⟨h, page, ha, hreach, hr, hfilled, -⟩ := reached_put hz (by decide) (fun _ => 0)
    (show letterRecord.length = 10 / attributeSize by decide) (by decide)
  have hj : [page][0]? = some page := rfl
  have hc : 0 < fixedLenPageCapacity 1002 10 := by decide
  refine ⟨h, ha, hreach, ?_, not_staysInSlot hz hr hj hc (by decide) true, fun hstays => ?_⟩
  · rw [contents_eq hz hr]
    exact contentsOf_ne_none hj hc hfilled
  · exact absurd ((recordInSlot_iff hz hr hj hc (by decide) (by decide) true).mp hstays) (by decide)

theorem next_never_stays_put : ∃ h : Heapfile 1002 slotSize,
    Reached (fun _ => 0) 1002 slotSize [.op (.put wideRecord)] h ∧
    ¬ StaysInSlot (fun _ => 0) ⟨h, 0, (0 : Nat), true⟩ ∧ RecordInSlot (fun _ => 0) ⟨h, 0, (0 : Nat), true⟩ := by
  have hz : Sizes 1002 slotSize := ⟨by decide, by decide, by decide⟩
  obtain ⟨h, -, ha, hreach, -, -, hlive, -⟩ := reached_wideRecord
  have hboth := next_never_stays hz (by decide) le_rfl (by decide) ha hreach hlive (fun _ => 0) true
  exact ⟨h, hreach, hboth.1, hboth.2.mpr rfl⟩

end RecordStore.SlotReads
