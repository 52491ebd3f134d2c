import RecordStore.HeapFile

namespace RecordStore.HeapSession

open RecordStore.CFile RecordStore.Outcome RecordStore.FixedRecord RecordStore.FixedPage
open RecordStore.HeapFile

/-- A call of one of the record operations. `get` reads into a record of `n` attributes. -/
inductive Op where
  | put (rec : Record)
  | get (rid : RecordID) (n : Nat)
  | update (rid : RecordID) (rec : Record)
  | delete (rid : RecordID)

/-- What a program does with a heap file: record operations, and closing it and
opening it again. -/
inductive Cmd where
  | op (o : Op)
  | reopen

variable {P S : Nat}

def step (beyond : Nat → Byte) (h : Heapfile P S) : Op → Except Fault (Option Record × Heapfile P S)
  | .put rec => (putRecord h rec).map (fun h => (none, h))
  | .get rid n => (getRecord beyond h rid n).map (fun r => (some r.1, r.2))
  | .update rid rec => (updateRecord h rid rec).map (fun h => (none, h))
  | .delete rid => (deleteRecord h rid).map (fun h => (none, h))

/-- `close_heapfile`, then `init_heapfile` and `open_heapfile` on the same file. No
chain of distinct directories is longer than the file has blocks. -/
def reopen (h : Heapfile P S) : Except Fault (Heapfile P S) := do
  let bytes ← closeHeapfile h
  openHeapfile P S (bytes.length / P + 1) bytes

def run (beyond : Nat → Byte) : Heapfile P S → List Cmd →
    Except Fault (List (Option Record) × Heapfile P S)
  | h, [] => .ok ([], h)
  | h, .op o :: cmds => do
    let (res, h) ← step beyond h o
    let (results, h) ← run beyond h cmds
    .ok (res :: results, h)
  | h, .reopen :: cmds => do
    let h ← reopen h
    run beyond h cmds

def Allocated (h : Heapfile P S) (pid : Nat) : Prop := ∃ entry, getEntry h pid = .ok entry

/-- The page is allocated and the slot is one of its slots. -/
def RidInRange (h : Heapfile P S) (rid : RecordID) : Prop :=
  Allocated h rid.pageId ∧ 0 ≤ rid.slot ∧ rid.slot < fixedLenPageCapacity P S

def OpInRange (h : Heapfile P S) : Op → Prop
  | .put _ => True
  | .get rid _ => RidInRange h rid
  | .update rid _ => RidInRange h rid
  | .delete rid => RidInRange h rid

def OpAllocated (h : Heapfile P S) : Op → Prop
  | .put _ => True
  | .get rid _ => Allocated h rid.pageId
  | .update rid _ => Allocated h rid.pageId
  | .delete rid => Allocated h rid.pageId

theorem OpInRange.allocated {h : Heapfile P S} {o : Op} (ho : OpInRange h o) : OpAllocated h o := by
  cases o with
  | put rec => trivial
  | get rid n => exact ho.1
  | update rid rec => exact ho.1
  | delete rid => exact ho.1

/-- Every operation is one that `ok` allows in the state it is run in, and leaves the file
below `2 ^ 31` bytes. -/
def Admissible (beyond : Nat → Byte) (ok : Heapfile P S → Op → Prop) : Heapfile P S → List Cmd → Prop
  | _, [] => True
  | h, .op o :: cmds => ok h o ∧ ∀ res h', step beyond h o = .ok (res, h') →
      h'.file.bytes.length < 2147483648 ∧ Admissible beyond ok h' cmds
  | h, .reopen :: cmds => ∀ h', reopen h = .ok h' → Admissible beyond ok h' cmds

def ops : List Cmd → List Op
  | [] => []
  | .op o :: cmds => o :: ops cmds
  | .reopen :: cmds => ops cmds

theorem ops_map_op (os : List Op) : ops (os.map Cmd.op) = os := by
  induction os with
  | nil => rfl
  | cons o os ih => rw [List.map_cons, ops, ih]

theorem ops_puts (recs : List Record) : ops (recs.map (fun rec => .op (.put rec))) = recs.map Op.put := by
  rw [← ops_map_op (recs.map Op.put), List.map_map]
  rfl

end RecordStore.HeapSession
