import RecordStore.AllocatedRuns
import RecordStore.DirectoryBounds

namespace RecordStore.LeftoverMemory

open RecordStore.CFile RecordStore.Outcome RecordStore.FixedRecord RecordStore.FixedPage
open RecordStore.DirectoryPage RecordStore.HeapFile RecordStore.PageLayout RecordStore.HeapImage
open RecordStore.HeapAlloc RecordStore.HeapSession RecordStore.LogicalPages RecordStore.HeapRuns
open RecordStore.HeapContents RecordStore.AllocatedRuns RecordStore.RecordIterator RecordStore.IteratorScan
open RecordStore.CsvPrograms RecordStore.Scanning RecordStore.DirectoryBounds

variable {P S : Nat} {h : Heapfile P S} {pages : Pages P S} {beyond : Nat → Byte}

/-- The constructor, run on an object in memory that has these members. -/
def construct (memory : Iterator P S) (h : Heapfile P S) : Except Fault (Iterator P S) :=
  incrementIterator { memory with heapfile := h, pid := 0, slot := -1 }

theorem construct_eq (memory : Iterator P S) (h : Heapfile P S) :
    construct memory h = Iterator.new memory.hasNext h := rfl

inductive Call where
  | hasNext
  | nextRID
  | next

inductive Answer where
  | more (hasNext : Bool)
  | rid (rid : RecordID)
  | record (record : Record)

def call (beyond : Nat → Byte) (it : Iterator P S) : Call → Except Fault (Answer × Iterator P S)
  | .hasNext => .ok (.more it.hasNext, it)
  | .nextRID => .ok (.rid (nextRID it), it)
  | .next => (next beyond it).map (fun r => (.record r.1, r.2))

/-- The answers to calls in turn, and the fault that stops them, if there is one. -/
def answers (beyond : Nat → Byte) : Iterator P S → List Call → List Answer × Option Fault
  | _, [] => ([], none)
  | it, c :: calls =>
    match call beyond it c with
    | .ok (answer, it) =>
      let (rest, fault) := answers beyond it calls
      (answer :: rest, fault)
    | .error e => ([], some e)

/-- What a program sees of an iterator that it constructs in this memory. -/
def constructAndCall (beyond : Nat → Byte) (memory : Iterator P S) (h : Heapfile P S) (calls : List Call) :
    List Answer × Option Fault :=
  match construct memory h with
  | .ok it => answers beyond it calls
  | .error e => ([], some e)

/-- After construction `hasNext()` is true exactly when some record is live. -/
def HasNextRight (memory : Iterator P S) (h : Heapfile P S) : Prop :=
  ∃ it, construct memory h = .ok it ∧ (it.hasNext = true ↔ ∃ rid, contents h rid ≠ none)

/-- Which of the two contents the memory had makes no difference to any calls, and `hasNext()` is right
after both. -/
def ScanIndependent (beyond : Nat → Byte) (memory memory' : Iterator P S) (h : Heapfile P S) : Prop :=
  (∀ calls, constructAndCall beyond memory h calls = constructAndCall beyond memory' h calls) ∧
  HasNextRight memory h ∧ HasNextRight memory' h

/-- The loop passes `has_next` through, or clears it. -/
theorem incrementLoop_hasNext (c fuel : Nat) (it : Iterator P S) (b : Bool) :
    incrementLoop c fuel { it with hasNext := b } =
      (incrementLoop c fuel { it with hasNext := true }).map
        (fun it' => { it' with hasNext := it'.hasNext && b }) := by
  induction fuel generalizing it with
  | zero => rfl
  | succ fuel ih =>
    have htest : pageIsAllocated c { it with hasNext := b } = pageIsAllocated c { it with hasNext := true } := rfl
    rw [incrementLoop, incrementLoop, htest]
    cases pageIsAllocated c { it with hasNext := true } with
    | error e => rfl
    | ok allocated =>
      rw [ok_bind, ok_bind]
      cases allocated with
      | false => rfl
      | true =>
        simp only [if_true]
        cases getPage it.heapfile it.pid with
        | error e => rfl
        | ok p =>
          simp only [ok_bind]
          split
          case isTrue => rfl
          case isFalse => exact ih ⟨p.2, it.pid + 1, getNextFilledSlot p.1 it.slot, true⟩

theorem new_hasNext (h : Heapfile P S) (b : Bool) :
    Iterator.new b h = (Iterator.new true h).map (fun it => { it with hasNext := it.hasNext && b }) := by
  rw [Iterator.new, Iterator.new, incrementIterator, incrementIterator]
  cases h.directory 0 with
  | error e => rfl
  | ok first => exact incrementLoop_hasNext _ _ ⟨h, 0, -1, true⟩ b

/-- A new iterator has lost what the memory held when there is no record, and has kept its `has_next` when
there is one. -/
theorem construct_cases (hz : Sizes P S) (hr : Rep h pages) (hf : ¬ LastFull (directoryCapacity P) pages.length) :
    ((¬ ∃ rid, contents h rid ≠ none) ∧ ∃ it : Iterator P S, it.hasNext = false ∧
      ∀ memory, construct memory h = .ok it) ∨
    ((∃ rid, contents h rid ≠ none) ∧ ∃ (h' : Heapfile P S) (q t : Nat),
      ∀ memory, construct memory h = .ok ⟨h', q, t, memory.hasNext⟩) := by
  rw [contents_eq hz hr, ← lives_ne_nil_iff]
  obtain ⟨hl, it, hnew, hfalse, -⟩ | ⟨q, t, h', page, hl, hnew, -⟩ := new_cases hz true hr hf
  · refine .inl ⟨fun hne => hne hl, it, hfalse, fun memory => ?_⟩
    rw [construct_eq, new_hasNext, hnew, Except.map, hfalse, Bool.false_and, ← hfalse]
  · refine .inr ⟨hl ▸ List.cons_ne_nil _ _, h', q, t, fun memory => ?_⟩
    rw [construct_eq, new_hasNext, hnew]
    rfl

theorem scanIndependent_of_rep (hz : Sizes P S) (hr : Rep h pages)
    (hf : ¬ LastFull (directoryCapacity P) pages.length) (memory memory' : Iterator P S) :
    ScanIndependent beyond memory memory' h ↔
      (¬ ∃ rid, contents h rid ≠ none) ∨ (memory.hasNext = true ∧ memory'.hasNext = true) := by
  obtain ⟨hnone, it, hfalse, hnew⟩ | ⟨hlive, h', q, t, hnew⟩ := construct_cases hz hr hf
  · have hright (m : Iterator P S) : HasNextRight m h := ⟨it, hnew m, by simp [hfalse, hnone]⟩
    refine iff_of_true ⟨fun calls => ?_, hright memory, hright memory'⟩ (.inl hnone)
    rw [constructAndCall, constructAndCall, hnew memory, hnew memory']
  · have hright (m : Iterator P S) : HasNextRight m h ↔ m.hasNext = true := by
      rw [HasNextRight, hnew m]
      simp [hlive]
    rw [ScanIndependent, hright, hright, or_iff_right (not_not_intro hlive), and_iff_right_iff_imp]
    rintro ⟨h1, h2⟩ calls
    rw [constructAndCall, constructAndCall, hnew memory, hnew memory', h1, h2]

/-- For any two contents of the memory: the iterators constructed in them do the same, with `hasNext()`
right from the start, exactly when there is no record or both contents had `has_next` true. -/
theorem scan_independent_iff (hz : Sizes P slotSize) (hP : P < 2147483648) {cmds : List Cmd}
    (ha : SessionAdmissible beyond P slotSize OpAllocated cmds) {h : Heapfile P slotSize}
    (hreach : Reached beyond P slotSize cmds h) (hfull : ¬ LastDirectoryFull h) (beyond' : Nat → Byte)
    (memory memory' : Iterator P slotSize) :
    ScanIndependent beyond' memory memory' h ↔
      (∀ rid, contents h rid = none) ∨ (memory.hasNext = true ∧ memory'.hasNext = true) := by
  obtain ⟨pages, hr⟩ := reached_rep hz hP ha hreach
  rw [lastDirectoryFull_iff hz hr] at hfull
  rw [scanIndependent_of_rep hz hr hfull, not_exists_not]

theorem scanLoop_hasNext {fuel : Nat} {it it' : Iterator P S} {out : List (RecordID × Record)}
    (hscan : scanLoop beyond fuel it = .ok (out, it')) : it'.hasNext = false := by
  induction fuel generalizing it out with
  | zero => cases hscan
  | succ fuel ih =>
    rw [scanLoop] at hscan
    split at hscan
    case isTrue =>
      obtain ⟨⟨record, it1⟩, -, hrest⟩ := bind_eq_ok.mp hscan
      obtain ⟨⟨rest, it2⟩, hloop, he⟩ := bind_eq_ok.mp hrest
      obtain ⟨-, rfl⟩ := Prod.mk.inj (Except.ok.inj he)
      exact ih hloop
    case isFalse hdone =>
      obtain ⟨-, rfl⟩ := Prod.mk.inj (Except.ok.inj hscan)
      exact Bool.eq_false_of_not_eq_true hdone

theorem rescan_finds_nothing (hz : Sizes P S) {it : Iterator P S} {out : List (RecordID × Record)} {fuel : Nat}
    {hasNext : Bool} (hscan : scan beyond hasNext fuel h = .ok (out, it)) (hr : Rep it.heapfile pages)
    (hf : ¬ LastFull (directoryCapacity P) pages.length) :
    ∃ it', construct it it.heapfile = .ok it' ∧ ∀ fuel', scanLoop beyond (fuel' + 1) it' = .ok ([], it') := by
  obtain ⟨it0, -, hloop⟩ := bind_eq_ok.mp hscan
  have hdone := scanLoop_hasNext hloop
  obtain ⟨-, it', hfalse, hnew⟩ | ⟨-, h', q, t, hnew⟩ := construct_cases hz hr hf
  · exact ⟨it', hnew it, fun fuel' => by rw [scanLoop, if_neg (by simp [hfalse])]⟩
  · exact ⟨_, hnew it, fun fuel' => by rw [scanLoop, if_neg (by simp [hdone])]⟩

/-- One record, and the memory of an iterator that has listed it. -/
theorem scan_depends_on_last : ∃ (h : Heapfile 1002 slotSize) (out : List (RecordID × Record))
    (fuel : Nat) (last : Iterator 1002 slotSize),
    SessionAdmissible (fun _ => 0) 1002 slotSize OpAllocated [.op (.put wideRecord)] ∧
    Reached (fun _ => 0) 1002 slotSize [.op (.put wideRecord)] h ∧ ¬ LastDirectoryFull h ∧
    scan (fun _ => 0) true fuel h = .ok (out, last) ∧
    ¬ ScanIndependent (fun _ => 0) ⟨h, 0, 0, true⟩ last h := by
  have hz : Sizes 1002 slotSize := ⟨by decide, by decide, by decide⟩
  obtain ⟨h, page, ha, hreach, hr, -, hlive, -⟩ := reached_wideRecord
  have hf : ¬ LastFull (directoryCapacity 1002) [page].length := by
    rw [List.length_singleton]
    decide
  obtain ⟨last, hscan, -⟩ := scan_of_rep hz (fun _ => 0) hr hf (Nat.lt_succ_self _)
  refine ⟨h, _, _, last, ha, hreach, fun hfull => hf ((lastDirectoryFull_iff hz hr).mp hfull),
    hscan, fun hindep => ?_⟩
  obtain ⟨it0, -, hloop⟩ := bind_eq_ok.mp hscan
  have hdone := scanLoop_hasNext hloop
  obtain hnone | ⟨-, htrue⟩ := (scanIndependent_of_rep hz hr hf _ last).mp hindep
  · exact hnone ⟨_, hlive⟩
  · rw [hdone] at htrue
    cases htrue

theorem scan_independent_iff_put : ∃ h : Heapfile 1002 slotSize,
    Reached (fun _ => 0) 1002 slotSize [.op (.put wideRecord)] h ∧
    ScanIndependent (fun _ => 0) ⟨h, 0, 0, true⟩ ⟨h, 5, 7, true⟩ h := by
  have hz : Sizes 1002 slotSize := ⟨by decide, by decide, by decide⟩
  obtain ⟨h, page, ha, hreach, hr, -⟩ := reached_wideRecord
  have hf : ¬ LastDirectoryFull h := by
    rw [lastDirectoryFull_iff hz hr, List.length_singleton]
    decide
  exact ⟨h, hreach, (scan_independent_iff hz (by decide) ha hreach hf (fun _ => 0) _ _).mpr (.inr ⟨rfl, rfl⟩)⟩

end RecordStore.LeftoverMemory
