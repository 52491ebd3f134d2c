import RecordStore.FixedRecord

namespace RecordStore.FixedPage

open RecordStore.Splice RecordStore.CFile RecordStore.Outcome RecordStore.FixedRecord

/-- A page of `P = page_size` bytes cut into slots of `S = slot_size` bytes. -/
structure Page (P S : Nat) where
  data : List Byte
  length_data : data.length = P
  deriving DecidableEq

variable {P S : Nat}

@[ext] theorem Page.ext {p q : Page P S} (h : p.data = q.data) : p = q := by
  cases p
  cases q
  simp_all

/-- A page straight from `new char[page_size]()`. -/
def Page.blank (P S : Nat) : Page P S := ⟨List.replicate P 0, by simp⟩

def Page.ofBlock (block : { bs : List Byte // bs.length = P }) : Page P S := ⟨block.1, block.2⟩

def initFixedLenPage (P S : Nat) : Except Fault (Page P S) :=
  if 0 < S ∧ S < P then .ok (Page.blank P S) else .error .assertFailed

def Page.byte (page : Page P S) (index : Nat) : Byte := page.data.getD index 0

/-- `ceil(n / 8.0)` for a non-negative `int`. -/
def ceilBytes (n : Nat) : Nat := (n + 7) / 8

def fixedLenPageCapacity (P S : Nat) : Nat := (P - ceilBytes (P / S)) / S

/-- The inner loop of `fixed_len_page_freeslots`: `bits` rounds are left, the
flags come out of the low bit of a signed `char` that is shifted right. -/
def freeslotsByte (numRecs : Nat) : Nat → Byte → Nat → Nat → Nat × Nat
  | 0, _, result, counter => (result, counter)
  | bits + 1, charVal, result, counter =>
    if counter < numRecs then
      freeslotsByte numRecs bits (charVal.sshiftRight 1) (result + (charVal &&& 1).toNat) (counter + 1)
    else (result, counter)

def freeslotsLoop (page : Page P S) (numRecs : Nat) : Nat → Nat → Nat → Nat → Nat
  | 0, _, result, _ => result
  | bytes + 1, i, result, counter =>
    let (result, counter) := freeslotsByte numRecs 8 (page.byte (P - i)) result counter
    freeslotsLoop page numRecs bytes (i + 1) result counter

def fixedLenPageFreeslots (page : Page P S) : Nat :=
  let numRecs := fixedLenPageCapacity P S
  numRecs - freeslotsLoop page numRecs (ceilBytes numRecs) 1 0 0

/-- The inner loop of `add_fixed_len_page`: the first clear flag of a byte and the
counter the loop ends with. -/
def emptySlotByte (numRecs : Nat) : Nat → Byte → Nat → Option Nat × Nat
  | 0, _, counter => (none, counter)
  | bits + 1, charVal, counter =>
    if counter < numRecs then
      if charVal &&& 1 = 0 then (some counter, counter)
      else emptySlotByte numRecs bits (charVal.sshiftRight 1) (counter + 1)
    else (none, counter)

def emptySlotLoop (page : Page P S) (numRecs : Nat) : Nat → Nat → Nat → Option Nat
  | 0, _, _ => none
  | bytes + 1, i, counter =>
    match emptySlotByte numRecs 8 (page.byte (P - i)) counter with
    | (some slot, _) => some slot
    | (none, counter) => emptySlotLoop page numRecs bytes (i + 1) counter

/-- Store bytes at `off`; what does not fit the page would land on foreign memory. -/
def Page.store (page : Page P S) (off : Nat) (bs : List Byte) : Except Fault (Page P S) :=
  if h : off + bs.length ≤ P then
    .ok ⟨splice page.data off bs, by rw [splice_length (by rw [page.length_data]; exact h), page.length_data]⟩
  else if bs = [] then .ok page
  else .error .memory

/-- Change one byte. A negative index lies before the page. -/
def Page.modify (page : Page P S) (index : Int) (f : Byte → Byte) : Except Fault (Page P S) :=
  if 0 ≤ index ∧ index < P then
    .ok ⟨page.data.modify index.toNat f, by rw [List.length_modify, page.length_data]⟩
  else .error .memory

/-- The directory byte that holds the flag of a slot. -/
def flagIndex (P : Nat) (slot : Nat) : Int := (P : Int) - ceilBytes (slot + 1)

def flagMask (slot : Nat) : Byte := 1#8 <<< (slot % 8)

def writeFixedLenPage (page : Page P S) (slot : Int) (r : Record) : Except Fault (Page P S) :=
  if 0 ≤ slot then do
    let page ← page.store (slot.toNat * S) (fixedLenWrite r)
    page.modify (flagIndex P slot.toNat) (fun b => b ||| flagMask slot.toNat)
  else .error .assertFailed

/-- Returns the slot the record went to, or `none` (the source's -1) on a full page. -/
def addFixedLenPage (page : Page P S) (r : Record) : Except Fault (Option Nat × Page P S) :=
  let numRecs := fixedLenPageCapacity P S
  match emptySlotLoop page numRecs (ceilBytes numRecs) 1 0 with
  | some slot => do
    let page ← writeFixedLenPage page slot r
    .ok (some slot, page)
  | none => .ok (none, page)

/-- Memory as seen from the start of the page: past its end stand bytes that are
not the page's. -/
def Page.memory (page : Page P S) (beyond : Nat → Byte) (i : Nat) : Byte :=
  if i < P then page.byte i else beyond (i - P)

/-- Read `n` attributes from a slot, whether its flag is set or not. -/
def readFixedLenPage (beyond : Nat → Byte) (page : Page P S) (slot : Int) (n : Nat) :
    Except Fault Record :=
  if 0 ≤ slot then
    fixedLenRead (fun i => page.memory beyond (slot.toNat * S + i)) S n
  else .error .assertFailed

def deleteFixedLenPage (page : Page P S) (slot : Int) : Except Fault (Page P S) :=
  if 0 ≤ slot then
    page.modify (flagIndex P slot.toNat) (fun b => b &&& ~~~flagMask slot.toNat)
  else .error .assertFailed

def Page.filled (page : Page P S) (slot : Nat) : Bool :=
  (page.byte (P - 1 - slot / 8) &&& flagMask slot) != 0

/-- The next slot after `slot` that holds a record, or -1. -/
def getNextFilledSlot (page : Page P S) (slot : Int) : Int :=
  let first := (slot + 1).toNat
  match (List.range' first (fixedLenPageCapacity P S - first)).find? page.filled with
  | some slot => slot
  | none => -1

end RecordStore.FixedPage
