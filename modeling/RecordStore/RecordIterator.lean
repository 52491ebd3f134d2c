import RecordStore.HeapFile

namespace RecordStore.RecordIterator

open RecordStore.CFile RecordStore.Outcome RecordStore.FixedRecord RecordStore.FixedPage RecordStore.HeapFile

variable {P S : Nat}

/-- A cursor on the next record of a heap file. -/
structure Iterator (P S : Nat) where
  heapfile : Heapfile P S
  pid : Nat
  slot : Int
  hasNext : Bool

/-- The test before each round: the directory of page `pid` has an entry for it. -/
def pageIsAllocated (dirCapacity : Nat) (it : Iterator P S) : Except Fault Bool := do
  let dir ← it.heapfile.directory (it.pid / dirCapacity)
  .ok (decide (((it.pid % dirCapacity : Nat) : Int) < dir.nEntries))

def incrementLoop (dirCapacity : Nat) : Nat → Iterator P S → Except Fault (Iterator P S)
  | 0, _ => .error .outOfFuel
  | fuel + 1, it => do
    let allocated ← pageIsAllocated dirCapacity it
    if allocated then
      let (page, h) ← getPage it.heapfile it.pid
      let slot := getNextFilledSlot page it.slot
      if 0 ≤ slot then .ok { it with heapfile := h, slot := slot }
      else incrementLoop dirCapacity fuel { it with heapfile := h, slot := slot, pid := it.pid + 1 }
    else .ok { it with hasNext := false }

/-- Move to the next record. The loop has left the directories after as many rounds as they
have room for entries. -/
def incrementIterator (it : Iterator P S) : Except Fault (Iterator P S) := do
  let first ← it.heapfile.directory 0
  incrementLoop first.capacity (it.heapfile.directoryBuffer.length * first.capacity + 1) it

/-- The constructor. It leaves `has_next` as memory had it. -/
def Iterator.new (hasNext : Bool) (h : Heapfile P S) : Except Fault (Iterator P S) :=
  incrementIterator ⟨h, 0, -1, hasNext⟩

def nextRID (it : Iterator P S) : RecordID := ⟨it.pid, it.slot⟩

/-- Read the record under the cursor, always into 100 attributes, and move on. -/
def next (beyond : Nat → Byte) (it : Iterator P S) : Except Fault (Record × Iterator P S) := do
  let (page, h) ← getPage it.heapfile it.pid
  let record ← readFixedLenPage beyond page it.slot 100
  let it ← incrementIterator { it with heapfile := h }
  .ok (record, it)

/-- The loop of `scan`, for at most `fuel` tests of `hasNext`. -/
def scanLoop (beyond : Nat → Byte) : Nat → Iterator P S →
    Except Fault (List (RecordID × Record) × Iterator P S)
  | 0, _ => .error .outOfFuel
  | fuel + 1, it =>
    if it.hasNext then do
      let rid := nextRID it
      let (record, it) ← next beyond it
      let (rest, it) ← scanLoop beyond fuel it
      .ok ((rid, record) :: rest, it)
    else .ok ([], it)

def scan (beyond : Nat → Byte) (hasNext : Bool) (fuel : Nat) (h : Heapfile P S) :
    Except Fault (List (RecordID × Record) × Iterator P S) := do
  let it ← Iterator.new hasNext h
  scanLoop beyond fuel it

end RecordStore.RecordIterator
