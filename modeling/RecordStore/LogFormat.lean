import RecordStore.Crc32c
import RecordStore.Outcome

namespace RecordStore.LogFormat

open RecordStore.CFile RecordStore.Outcome RecordStore.Coding

def blockSize : Nat := 32768

def headerSize : Nat := 7

inductive RecordType where
  | zero
  | full
  | first
  | middle
  | last
  deriving DecidableEq, Repr

def RecordType.code : RecordType → Byte
  | .zero => 0
  | .full => 1
  | .first => 2
  | .middle => 3
  | .last => 4

section Writer

structure Writer where
  dest : List Byte
  blockOffset : Nat
  deriving DecidableEq

def Writer.new : Writer := ⟨[], 0⟩

def fragmentCrc (t : RecordType) (data : List Byte) : BitVec 32 :=
  Crc32c.mask (Crc32c.extend 0 (Crc32c.value 0 [t.code]) data)

def header (t : RecordType) (data : List Byte) : List Byte :=
  encodeFixed32 (fragmentCrc t data).toNat ++
    [BitVec.ofNat 8 (data.length &&& 0xff), BitVec.ofNat 8 (data.length >>> 8), t.code]

def emitPhysicalRecord (w : Writer) (t : RecordType) (data : List Byte) : Except Fault Writer :=
  if data.length ≤ 0xffff ∧ w.blockOffset + headerSize + data.length ≤ blockSize then
    .ok ⟨w.dest ++ header t data ++ data, w.blockOffset + (headerSize + data.length)⟩
  else .error .assertFailed

/-- A block without room for a header is filled up, and a new one is begun. -/
def switchBlock (w : Writer) : Writer :=
  if blockSize - w.blockOffset < headerSize then ⟨w.dest ++ List.replicate (blockSize - w.blockOffset) 0, 0⟩ else w

def fragmentType (begins ends : Bool) : RecordType :=
  if begins && ends then .full
  else if begins then .first
  else if ends then .last
  else .middle

def addRecordLoop : Nat → Writer → Bool → List Byte → Except Fault Writer
  | 0, _, _, _ => .error .outOfFuel
  | fuel + 1, w, begins, left =>
    if w.blockOffset ≤ blockSize then do
      let w := switchBlock w
      let avail := blockSize - w.blockOffset - headerSize
      let fragmentLength := min left.length avail
      let w ← emitPhysicalRecord w (fragmentType begins (left.length = fragmentLength)) (left.take fragmentLength)
      if 0 < left.length - fragmentLength then addRecordLoop fuel w false (left.drop fragmentLength) else .ok w
    else .error .assertFailed

/-- Every round but the first writes a byte of the record. -/
def addRecord (w : Writer) (slice : List Byte) : Except Fault Writer :=
  addRecordLoop (slice.length + 2) w true slice

def addRecords : Writer → List (List Byte) → Except Fault Writer
  | w, [] => .ok w
  | w, slice :: slices => do
    let w ← addRecord w slice
    addRecords w slices

end Writer

section Reader

/-- What `ReadPhysicalRecord` returns where there is no fragment; other values are types. -/
def kEof : Nat := 5

def kBadRecord : Nat := 6

/-- A log file that is read: what has not been read of the file, the reader, and the drops it has
reported. -/
structure Reader where
  file : List Byte
  checksum : Bool
  buffer : List Byte
  eof : Bool
  lastRecordOffset : Nat
  endOfBufferOffset : Nat
  initialOffset : Nat
  reports : List (Nat × String)

def Reader.new (file : List Byte) (checksum : Bool) (initialOffset : Nat) : Reader :=
  ⟨file, checksum, [], false, 0, 0, initialOffset, []⟩

def sub64 (a b : Nat) : Nat := (a + 18446744073709551616 - b % 18446744073709551616) % 18446744073709551616

def reportCorruption (r : Reader) (bytes : Nat) (reason : String) : Reader :=
  if r.initialOffset ≤ sub64 (sub64 r.endOfBufferOffset r.buffer.length) bytes then
    { r with reports := r.reports ++ [(bytes, reason)] }
  else r

/-- Skip the blocks before the one that can hold the first record that is asked for. -/
def skipToInitialBlock (r : Reader) : Reader :=
  let offsetInBlock := r.initialOffset % blockSize
  let blockStart := r.initialOffset - offsetInBlock
  let blockStart := if blockSize - 6 < offsetInBlock then blockStart + blockSize else blockStart
  { r with endOfBufferOffset := blockStart, file := if 0 < blockStart then r.file.drop blockStart else r.file }

/-- Read the next block. A short read is the last one. -/
def readBlock (r : Reader) : Reader :=
  let got := r.file.take blockSize
  { r with
    file := r.file.drop blockSize
    buffer := got
    endOfBufferOffset := r.endOfBufferOffset + got.length
    eof := if got.length < blockSize then true else r.eof }

def charToUnsigned (c : Byte) : Nat := if c.toNat < 128 then c.toNat else c.toNat + 4294967040

def parseFragment (r : Reader) : Nat × List Byte × Reader :=
  let a := (r.buffer.getD 4 0).toNat
  let b := (r.buffer.getD 5 0).toNat
  let type := charToUnsigned (r.buffer.getD 6 0)
  let length := a ||| (b <<< 8)
  if r.buffer.length < headerSize + length then
    (kBadRecord, [], reportCorruption { r with buffer := [] } r.buffer.length "bad record length")
  else if type = 0 ∧ length = 0 then (kBadRecord, [], { r with buffer := [] })
  else if r.checksum ∧ Crc32c.value 0 ((r.buffer.drop 6).take (1 + length)) ≠
      Crc32c.unmask (BitVec.ofNat 32 (decodeFixed32 r.buffer)) then
    (kBadRecord, [], reportCorruption { r with buffer := [] } r.buffer.length "checksum mismatch")
  else
    let r' := { r with buffer := r.buffer.drop (headerSize + length) }
    if sub64 (sub64 (sub64 r'.endOfBufferOffset r'.buffer.length) headerSize) length < r'.initialOffset then
      (kBadRecord, [], r')
    else (type, (r.buffer.drop headerSize).take length, r')

/-- The type of the next fragment, or one of the special values, and the fragment. -/
def readPhysicalRecordLoop : Nat → Reader → Except Fault (Nat × List Byte × Reader)
  | 0, _ => .error .outOfFuel
  | fuel + 1, r =>
    if r.buffer.length < headerSize then
      if r.eof = false then readPhysicalRecordLoop fuel (readBlock r)
      else if r.buffer.length = 0 then .ok (kEof, [], r)
      else .ok (kEof, [], reportCorruption { r with buffer := [] } r.buffer.length "truncated record at end of file")
    else .ok (parseFragment r)

/-- A block that is read is the last one or has a header in it. -/
def readPhysicalRecord (r : Reader) : Except Fault (Nat × List Byte × Reader) := readPhysicalRecordLoop 3 r

/-- The part of a record that has been read, and where the record starts. -/
structure Assembly where
  inFragmentedRecord : Bool
  scratch : List Byte
  prospectiveRecordOffset : Nat

/-- A record that begins where another one has not ended. A writer of earlier versions left empty
first fragments at the end of blocks. -/
def reportPartial (r : Reader) (s : Assembly) (reason : String) : Reader :=
  if s.inFragmentedRecord ∧ s.scratch ≠ [] then reportCorruption r s.scratch.length reason else r

/-- The loop of `ReadRecord`: the record, or nothing at the end of the file. -/
def readRecordLoop : Nat → Reader → Assembly → Except Fault (Option (List Byte) × Reader)
  | 0, _, _ => .error .outOfFuel
  | fuel + 1, r, s => do
    let physicalRecordOffset := sub64 r.endOfBufferOffset r.buffer.length
    let (recordType, fragment, r) ← readPhysicalRecord r
    if recordType = 1 then
      let r := reportPartial r s "partial record without end(1)"
      .ok (some fragment, { r with lastRecordOffset := physicalRecordOffset })
    else if recordType = 2 then
      let r := reportPartial r s "partial record without end(2)"
      readRecordLoop fuel r ⟨true, fragment, physicalRecordOffset⟩
    else if recordType = 3 then
      if s.inFragmentedRecord then readRecordLoop fuel r { s with scratch := s.scratch ++ fragment }
      else readRecordLoop fuel (reportCorruption r fragment.length "missing start of fragmented record(1)") s
    else if recordType = 4 then
      if s.inFragmentedRecord then
        .ok (some (s.scratch ++ fragment), { r with lastRecordOffset := s.prospectiveRecordOffset })
      else readRecordLoop fuel (reportCorruption r fragment.length "missing start of fragmented record(2)") s
    else if recordType = kEof then
      let r := if s.inFragmentedRecord then reportCorruption r s.scratch.length "partial record without end(3)" else r
      .ok (none, r)
    else if recordType = kBadRecord then
      if s.inFragmentedRecord then
        readRecordLoop fuel (reportCorruption r s.scratch.length "error in middle of record") { s with
          inFragmentedRecord := false
          scratch := [] }
      else readRecordLoop fuel r s
    else
      let dropped := fragment.length + (if s.inFragmentedRecord then s.scratch.length else 0)
      readRecordLoop fuel (reportCorruption r dropped ("unknown record type " ++ toString recordType)) { s with
        inFragmentedRecord := false
        scratch := [] }

/-- Every round takes bytes from the file or the buffer, or is the last one. -/
def readRecord (r : Reader) : Except Fault (Option (List Byte) × Reader) :=
  let r := if r.lastRecordOffset < r.initialOffset then skipToInitialBlock r else r
  readRecordLoop (r.file.length + r.buffer.length + 2) r ⟨false, [], 0⟩

/-- `while (reader.ReadRecord(..))`. -/
def readRecords : Nat → Reader → Except Fault (List (List Byte) × Reader)
  | 0, _ => .error .outOfFuel
  | fuel + 1, r => do
    let (record, r) ← readRecord r
    match record with
    | some record =>
      let (records, r) ← readRecords fuel r
      .ok (record :: records, r)
    | none => .ok ([], r)

end Reader

end RecordStore.LogFormat
