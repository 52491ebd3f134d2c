import RecordStore.CStrings
import RecordStore.CsvPrograms
import RecordStore.Int32
import RecordStore.RecordIterator

namespace RecordStore.ColumnStore

open RecordStore.CFile RecordStore.CText RecordStore.CStrings RecordStore.Int32 RecordStore.Outcome
open RecordStore.FixedRecord RecordStore.HeapFile RecordStore.CsvPrograms RecordStore.RecordIterator

def columnSlotSize : Nat := 20

def maxAttributes : Nat := 100

/-- The record of a column entry. Its first attribute is a new block of memory, `tupId`, of which
only the terminator is written: the id that is passed in gets lost. -/
def loadColRecord (tupId : List Byte) (token : List Byte) (_tupleId : Nat) : Record :=
  [cstring tupId attributeSize, cstring token attributeSize]

variable {P S : Nat}

/-- The first line makes the heap files, one for each token. `fresh` has the bytes that the
memory for the tuple ids of this row holds. -/
def createColumns (fresh : Nat → List Byte) :
    List (Heapfile P columnSlotSize) → List (List Byte) → Except Fault (List (Heapfile P columnSlotSize))
  | heapfiles, [] => .ok heapfiles
  | heapfiles, token :: tokens =>
    if heapfiles.length < maxAttributes then do
      let heapfile ← createHeapfile P columnSlotSize
      let heapfile ← putRecord heapfile (loadColRecord (fresh heapfiles.length) token 0)
      createColumns fresh (heapfiles ++ [heapfile]) tokens
    else .error .memory

/-- The loop over the tokens of a later line. A place of `heapfiles` that the first line did not
fill has no heap file in it. -/
def putColumns (fresh : Nat → List Byte) (tupleId : Nat) :
    Nat → List (Heapfile P S) → List (List Byte) → Except Fault (List (Heapfile P S))
  | _, heapfiles, [] => .ok heapfiles
  | attributeId, heapfiles, token :: tokens =>
    match heapfiles[attributeId]? with
    | none => .error .memory
    | some heapfile => do
      let heapfile ← putRecord heapfile (loadColRecord (fresh attributeId) token tupleId)
      putColumns fresh tupleId (attributeId + 1) (heapfiles.set attributeId heapfile) tokens

def loadColumns (fresh : Nat → Nat → List Byte) :
    Nat → List (Heapfile P S) → List (List Byte) → Except Fault (List (Heapfile P S))
  | _, heapfiles, [] => .ok heapfiles
  | tupleId, heapfiles, line :: lines => do
    let heapfiles ← putColumns (fresh tupleId) tupleId 0 heapfiles (strtok line comma)
    loadColumns fresh (tupleId + 1) heapfiles lines

def closeColumns : List (Heapfile P S) → Except Fault (List (List Byte))
  | [] => .ok []
  | heapfile :: heapfiles => do
    let bytes ← closeHeapfile heapfile
    let files ← closeColumns heapfiles
    .ok (bytes :: files)

/-- The column store that the program makes of a CSV file: file `i` is the one named by the number
`i`. `fresh` has what new memory holds, by row and column. -/
def csv2colstore (P : Nat) (fresh : Nat → Nat → List Byte) (csv : List Byte) :
    Except Fault (List (List Byte)) :=
  if 0 < P then
    match csvLines csv with
    | [] => .error .memory
    | line :: lines => do
      let heapfiles : List (Heapfile P columnSlotSize) ← createColumns (fresh 0) [] (strtok line comma)
      let heapfiles ← loadColumns fresh 1 heapfiles lines
      -- all 100 places of the array are looked at, also those that no token filled
      if heapfiles.length = maxAttributes then closeColumns heapfiles else .error .memory
  else .error .exit

def inRange (start stop v : CString) : Bool :=
  decide (0 ≤ strcmp v.bytes start.bytes ∧ strcmp v.bytes stop.bytes ≤ 0)

/-- `SUBSTRING(A, 1, 5)`. -/
def substring (v : CString) : List Byte := v.bytes.take 5

def attributeAt (record : Record) (i : Nat) : Except Fault CString :=
  match record[i]? with
  | some v => .ok v
  | none => .error .memory

/-- The loop of `select` and `select2`, with the lines it prints. `beyond i` is the memory behind
the page at the `i`-th call of `next`. -/
def selectLoop (column : Nat) (start stop : CString) :
    (Nat → Nat → Byte) → Nat → Iterator P S → Except Fault (List (List Byte) × Iterator P S)
  | _, 0, _ => .error .outOfFuel
  | beyond, fuel + 1, it =>
    if it.hasNext then do
      let (record, it) ← next (beyond 0) it
      let v ← attributeAt record column
      let (lines, it) ← selectLoop column start stop (fun i => beyond (i + 1)) fuel it
      .ok (if inRange start stop v then substring v :: lines else lines, it)
    else .ok ([], it)

def selectFrom (P S : Nat) (hasNext : Bool) (beyond : Nat → Nat → Byte) (fuel : Nat) (bytes : List Byte)
    (column : Nat) (start stop : CString) : Except Fault (List (List Byte)) := do
  let h ← openHeapfile P S (bytes.length / P + 1) bytes
  let it ← Iterator.new hasNext h
  let (lines, it) ← selectLoop column start stop beyond fuel it
  let _ ← closeHeapfile it.heapfile
  .ok lines

/-- The lines `select` prints before its time. -/
def select (P : Nat) (hasNext : Bool) (beyond : Nat → Nat → Byte) (fuel : Nat) (heapfile : List Byte)
    (attributeId : Int) (start stop : CString) : Except Fault (List (List Byte)) :=
  if 0 < P ∧ 0 ≤ attributeId then
    selectFrom P slotSize hasNext beyond fuel heapfile attributeId.toNat start stop
  else .error .exit

/-- `fopen` of a column. -/
def columnFile (colstore : List (List Byte)) (attributeId : Nat) : Except Fault (List Byte) :=
  match colstore[attributeId]? with
  | some bytes => .ok bytes
  | none => .error .assertFailed

/-- The same on a column store, where the value is the second attribute of its record. -/
def select2 (P : Nat) (hasNext : Bool) (beyond : Nat → Nat → Byte) (fuel : Nat)
    (colstore : List (List Byte)) (attributeId : Int) (start stop : CString) :
    Except Fault (List (List Byte)) :=
  if 0 < P ∧ 0 ≤ attributeId then do
    let bytes ← columnFile colstore attributeId.toNat
    selectFrom P columnSlotSize hasNext beyond fuel bytes 1 start stop
  else .error .exit

def collectLoop (start stop : CString) :
    (Nat → Nat → Byte) → Nat → Iterator P S → Except Fault (List Int × Iterator P S)
  | _, 0, _ => .error .outOfFuel
  | beyond, fuel + 1, it =>
    if it.hasNext then do
      let (record, it) ← next (beyond 0) it
      let v ← attributeAt record 1
      if inRange start stop v then do
        let tupId ← attributeAt record 0
        let (ids, it) ← collectLoop start stop (fun i => beyond (i + 1)) fuel it
        .ok (toInt32 (atoi tupId.bytes) :: ids, it)
      else collectLoop start stop (fun i => beyond (i + 1)) fuel it
    else .ok ([], it)

/-- The inner loop: print the value of the first record with the tuple id, if there is one. -/
def findLoop (tupleId : Int) :
    (Nat → Nat → Byte) → Nat → Iterator P S → Except Fault (List (List Byte) × Iterator P S)
  | _, 0, _ => .error .outOfFuel
  | beyond, fuel + 1, it =>
    if it.hasNext then do
      let (record, it) ← next (beyond 0) it
      let tupId ← attributeAt record 0
      if tupleId = toInt32 (atoi tupId.bytes) then do
        let v ← attributeAt record 1
        .ok ([substring v], it)
      else findLoop tupleId (fun i => beyond (i + 1)) fuel it
    else .ok ([], it)

def joinLoop (hasNext : Bool) (fuel : Nat) :
    (Nat → Nat → Nat → Byte) → Heapfile P S → List Int → Except Fault (List (List Byte) × Heapfile P S)
  | _, h, [] => .ok ([], h)
  | beyond, h, tupleId :: ids => do
    let it ← Iterator.new hasNext h
    let (line, it) ← findLoop tupleId (beyond 0) fuel it
    let (lines, h) ← joinLoop hasNext fuel (fun k => beyond (k + 1)) it.heapfile ids
    .ok (line ++ lines, h)

/-- The lines `select3` prints. `beyond k` belongs to the `k`-th scan. -/
def select3 (P : Nat) (hasNext : Bool) (beyond : Nat → Nat → Nat → Byte) (fuel : Nat)
    (colstore : List (List Byte)) (attributeId returnAttributeId : Int) (start stop : CString) :
    Except Fault (List (List Byte)) :=
  if 0 < P ∧ 0 ≤ attributeId ∧ 0 ≤ returnAttributeId then do
    let bytes ← columnFile colstore attributeId.toNat
    let h ← openHeapfile P columnSlotSize (bytes.length / P + 1) bytes
    let it ← Iterator.new hasNext h
    let (ids, it) ← collectLoop start stop (beyond 0) fuel it
    let bytes ← closeHeapfile it.heapfile
    -- the column is on disk again when the other one, perhaps the same, is opened
    let bytes ← columnFile (colstore.set attributeId.toNat bytes) returnAttributeId.toNat
    let h ← openHeapfile P columnSlotSize (bytes.length / P + 1) bytes
    let (lines, h) ← joinLoop hasNext fuel (fun k => beyond (k + 1)) h ids
    let _ ← closeHeapfile h
    .ok lines
  else .error .exit

end RecordStore.ColumnStore
