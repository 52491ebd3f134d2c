import RecordStore.Coding
import RecordStore.Cursors
import RecordStore.Outcome

namespace RecordStore.Blocks

open RecordStore.CFile RecordStore.Outcome RecordStore.Coding RecordStore.Cursors

section Builder

structure BlockBuilder where
  buffer : List Byte
  restarts : List Nat
  counter : Nat
  finished : Bool
  lastKey : List Byte

def BlockBuilder.new : BlockBuilder := ⟨[], [0], 0, false, []⟩

/-- The loop of `Add` that counts the bytes that a key shares with the one before. -/
def sharedLength : List Byte → List Byte → Nat
  | a :: as, b :: bs => if a = b then sharedLength as bs + 1 else 0
  | _, _ => 0

/-- An entry in a block. The lengths are passed on as `uint32_t`. -/
def entryBytes (shared : Nat) (key value : List Byte) : List Byte :=
  encodeVarint32 (shared % 4294967296) ++ (encodeVarint32 ((key.length - shared) % 4294967296) ++
    (encodeVarint32 (value.length % 4294967296) ++ (key.drop shared ++ value)))

variable (compare : List Byte → List Byte → Int) (restartInterval : Nat)

def BlockBuilder.add (b : BlockBuilder) (key value : List Byte) : Except Fault BlockBuilder :=
  if b.finished = false ∧ b.counter ≤ restartInterval ∧ (b.buffer = [] ∨ 0 < compare key b.lastKey) then
    let shared := if b.counter < restartInterval then sharedLength b.lastKey key else 0
    let restarts := if b.counter < restartInterval then b.restarts else b.restarts ++ [b.buffer.length % 4294967296]
    let counter := if b.counter < restartInterval then b.counter else 0
    let lastKey := b.lastKey.take shared ++ key.drop shared
    if lastKey = key then .ok ⟨b.buffer ++ entryBytes shared key value, restarts, counter + 1, false, lastKey⟩
    else .error .assertFailed
  else .error .assertFailed

/-- `Finish`. The block is what is in the buffer then. -/
def BlockBuilder.finish (b : BlockBuilder) : BlockBuilder :=
  { b with
    buffer := b.buffer ++ ((b.restarts.map encodeFixed32).flatten ++ encodeFixed32 (b.restarts.length % 4294967296))
    finished := true }

def BlockBuilder.adds : BlockBuilder → List (List Byte × List Byte) → Except Fault BlockBuilder
  | b, [] => .ok b
  | b, (key, value) :: entries => do
    let b ← b.add compare restartInterval key value
    BlockBuilder.adds b entries

end Builder

section Iterator

/-- A block that is read. One that is no block has the size 0. -/
structure Block where
  data : List Byte
  size : Nat
  restartOffset : Nat
  deriving DecidableEq

def numRestartsOf (data : List Byte) : Nat := decodeFixed32 (data.drop (data.length - 4))

def Block.new (contents : List Byte) : Block :=
  if contents.length < 4 then ⟨contents, 0, 0⟩
  else if (contents.length - 4) / 4 < numRestartsOf contents then ⟨contents, 0, 0⟩
  else ⟨contents, contents.length, (contents.length - (1 + numRestartsOf contents) * 4) % 4294967296⟩

/-- Shared bytes, unshared bytes and the length of the value, and what is behind them. `text` goes to the limit. -/
def decodeEntry (text : List Byte) : Option (Nat × Nat × Nat × List Byte) :=
  match text with
  | shared :: nonShared :: valueLength :: rest => do
    let (shared, nonShared, valueLength, p) ←
      if (shared.toNat ||| nonShared.toNat ||| valueLength.toNat) < 128 then
        some (shared.toNat, nonShared.toNat, valueLength.toNat, rest)
      else do
        let (shared, p) ← getVarint32Ptr text
        let (nonShared, p) ← getVarint32Ptr p
        let (valueLength, p) ← getVarint32Ptr p
        some (shared, nonShared, valueLength, p)
    -- the sum is one of `uint32_t`
    if p.length < (nonShared + valueLength) % 4294967296 then none else some (shared, nonShared, valueLength, p)
  | _ => none

/-- `Block::Iter`. The value is the part of the data from `valueOffset` on; a corrupt block leaves it empty. -/
structure BlockIter where
  data : List Byte
  restarts : Nat
  numRestarts : Nat
  current : Nat
  restartIndex : Nat
  key : List Byte
  valueOffset : Nat
  valueLength : Nat
  corrupt : Bool

namespace BlockIter

def nextEntryOffset (it : BlockIter) : Nat := it.valueOffset + it.valueLength

def valid (it : BlockIter) : Bool := it.current < it.restarts

def getRestartPoint (it : BlockIter) (index : Nat) : Except Fault Nat :=
  if index < it.numRestarts then
    if it.restarts + index * 4 + 4 ≤ it.data.length then .ok (decodeFixed32 (it.data.drop (it.restarts + index * 4)))
    else .error .memory
  else .error .assertFailed

def seekToRestartPoint (it : BlockIter) (index : Nat) : Except Fault BlockIter := do
  let offset ← it.getRestartPoint index
  .ok { it with key := [], restartIndex := index, valueOffset := offset, valueLength := 0 }

def corruptionError (it : BlockIter) : BlockIter :=
  ⟨it.data, it.restarts, it.numRestarts, it.restarts, it.numRestarts, [], 0, 0, true⟩

def restartLoop (it : BlockIter) (current : Nat) : Nat → Nat → Except Fault Nat
  | 0, _ => .error .outOfFuel
  | fuel + 1, restartIndex =>
    if restartIndex + 1 < it.numRestarts then do
      let point ← it.getRestartPoint (restartIndex + 1)
      if point < current then restartLoop it current fuel (restartIndex + 1) else .ok restartIndex
    else .ok restartIndex

def parseNextKey (it : BlockIter) : Except Fault (Bool × BlockIter) :=
  let current := it.nextEntryOffset
  if it.restarts ≤ current then
    .ok (false, { it with current := it.restarts, restartIndex := it.numRestarts })
  else
    match decodeEntry ((it.data.take it.restarts).drop current) with
    | none => .ok (false, { it with current := current }.corruptionError)
    | some (shared, nonShared, valueLength, p) =>
      if it.key.length < shared then .ok (false, { it with current := current }.corruptionError)
      else
        let offset := it.restarts - p.length
        if offset + nonShared ≤ it.data.length then do
          let restartIndex ← it.restartLoop current (it.numRestarts + 1) it.restartIndex
          .ok (true, { it with
            current := current
            restartIndex := restartIndex
            key := it.key.take shared ++ (it.data.drop offset).take nonShared
            valueOffset := offset + nonShared
            valueLength := valueLength })
        else .error .memory

/-- `ParseNextKey` as long as the entry ends before `limit`. Every round but the first goes on by a byte at least. -/
def parseTo (limit : Nat) : Nat → BlockIter → Except Fault BlockIter
  | 0, _ => .error .outOfFuel
  | fuel + 1, it => do
    let (parsed, it) ← it.parseNextKey
    if parsed = true ∧ it.nextEntryOffset < limit then parseTo limit fuel it else .ok it

def next (it : BlockIter) : Except Fault BlockIter :=
  if it.valid then do
    let (_, it) ← it.parseNextKey
    .ok it
  else .error .assertFailed

/-- The loop of `Prev` over the restart points: the last one before `original`, if there is one. -/
def restartBefore (it : BlockIter) (original : Nat) : Nat → Except Fault (Option Nat)
  | 0 => do
    let point ← it.getRestartPoint 0
    if original ≤ point then .ok none else .ok (some 0)
  | index + 1 => do
    let point ← it.getRestartPoint (index + 1)
    if original ≤ point then restartBefore it original index else .ok (some (index + 1))

def prev (it : BlockIter) : Except Fault BlockIter :=
  if it.valid then do
    let index ← it.restartBefore it.current it.restartIndex
    match index with
    | none => .ok { it with current := it.restarts, restartIndex := it.numRestarts }
    | some index => do
      let start ← it.seekToRestartPoint index
      parseTo it.current (it.data.length + 1) start
  else .error .assertFailed

def seekToFirst (it : BlockIter) : Except Fault BlockIter := do
  let it ← it.seekToRestartPoint 0
  let (_, it) ← it.parseNextKey
  .ok it

def seekToLast (it : BlockIter) : Except Fault BlockIter := do
  let it ← it.seekToRestartPoint (it.numRestarts - 1)
  parseTo it.restarts (it.data.length + 1) it

variable (compare : List Byte → List Byte → Int)

/-- The binary search of `Seek`; there is no result if a restart point is none. -/
def searchLoop (it : BlockIter) (target : List Byte) : Nat → Nat → Nat → Except Fault (Option Nat)
  | 0, _, _ => .error .outOfFuel
  | fuel + 1, left, right =>
    if left < right then do
      let mid := (left + right + 1) / 2
      let regionOffset ← it.getRestartPoint mid
      match decodeEntry ((it.data.take it.restarts).drop regionOffset) with
      | some (0, nonShared, _, p) =>
        let offset := it.restarts - p.length
        if offset + nonShared ≤ it.data.length then
          if compare ((it.data.drop offset).take nonShared) target < 0 then searchLoop it target fuel mid right
          else searchLoop it target fuel left (mid - 1)
        else .error .memory
      | _ => .ok none
    else .ok (some left)

def seekLoop (target : List Byte) : Nat → BlockIter → Except Fault BlockIter
  | 0, _ => .error .outOfFuel
  | fuel + 1, it => do
    let (parsed, it) ← it.parseNextKey
    if parsed = true ∧ compare it.key target < 0 then seekLoop target fuel it else .ok it

def seek (target : List Byte) (it : BlockIter) : Except Fault BlockIter := do
  let index ← it.searchLoop compare target (it.numRestarts + 1) 0 (it.numRestarts - 1)
  match index with
  | none => .ok it.corruptionError
  | some index => do
    let start ← it.seekToRestartPoint index
    seekLoop compare target (it.data.length + 1) start

def entry (it : BlockIter) : Except Fault (List Byte × List Byte) :=
  if it.valid then
    if it.valueOffset + it.valueLength ≤ it.data.length then
      .ok (it.key, (it.data.drop it.valueOffset).take it.valueLength)
    else .error .memory
  else .error .assertFailed

end BlockIter

/-- What `NewIterator` of a block gives: an iterator over nothing, with an error or without, or one over the block. -/
inductive BlockIterator where
  | empty (corrupt : Bool)
  | block (it : BlockIter)

/-- The iterator is at no entry first, and has no value yet. -/
def Block.newIterator (b : Block) : Except Fault BlockIterator :=
  if b.size < 4 then .ok (.empty true)
  else if numRestartsOf b.data = 0 then .ok (.empty false)
  else
    .ok (.block
      ⟨b.data, b.restartOffset, numRestartsOf b.data, b.restartOffset, numRestartsOf b.data, [], 0, 0, false⟩)

/-- A call of `Block::Iter`; an empty iterator stays as it is. -/
def BlockIterator.step (f : BlockIter → Except Fault BlockIter) : BlockIterator → Except Fault BlockIterator
  | .empty corrupt => .ok (.empty corrupt)
  | .block it => do
    let it ← f it
    .ok (.block it)

/-- Whether `status` is an error. It stays one. -/
def BlockIterator.corrupt : BlockIterator → Bool
  | .empty corrupt => corrupt
  | .block it => it.corrupt

def blockIterator (compare : List Byte → List Byte → Int) :
    Cursor Fault BlockIterator (List Byte) (List Byte × List Byte) where
  valid
    | .empty _ => false
    | .block it => it.valid
  entry
    | .empty _ => .error .assertFailed
    | .block it => it.entry
  seekToFirst := BlockIterator.step BlockIter.seekToFirst
  seekToLast := BlockIterator.step BlockIter.seekToLast
  seek target := BlockIterator.step (BlockIter.seek compare target)
  next
    | .empty _ => .error .assertFailed
    | .block it => do
      let it ← it.next
      .ok (.block it)
  prev
    | .empty _ => .error .assertFailed
    | .block it => do
      let it ← it.prev
      .ok (.block it)

end Iterator

end RecordStore.Blocks
