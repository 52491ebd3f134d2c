import RecordStore.CStrings
import RecordStore.RecordSchema
import RecordStore.ThreeWay

namespace RecordStore.RecordComparator

open RecordStore.Splice RecordStore.CFile RecordStore.CText RecordStore.CStrings RecordStore.Int32
open RecordStore.Outcome RecordStore.RecordSchema

/-- The size of `lhs_attr` and `rhs_attr`. -/
def scratchSize : Nat := 40

/-- What the scratch arrays hold when the loop enters round `i`. -/
structure Scratch where
  lhs : Nat → List Byte
  rhs : Nat → List Byte
  lhs_length : ∀ i, (lhs i).length = scratchSize
  rhs_length : ∀ i, (rhs i).length = scratchSize

def entry {α : Type} (v : List α) (i : Nat) : Except Fault α :=
  match v[i]? with
  | some x => .ok x
  | none => .error .memory

/-- The pointer that `get_attr` returns, as an offset into the record. -/
def getAttr (i : Nat) (schema : Schema) : Except Fault Int := entry schema.dataOffset i

def copyFrom (data : List Byte) (offset : Int) (n : Nat) : Except Fault (List Byte) :=
  if n = 0 ∨ (0 ≤ offset ∧ offset + n ≤ data.length) then .ok (slice data offset.toNat n)
  else .error .memory

/-- The string in a scratch array after the `memcpy` of attribute `sortIdx`. The terminator is
put at the length of attribute `i`, the position in the sort list. -/
def loadAttr (schema : Schema) (data scratch : List Byte) (sortIdx i : Nat) : Except Fault (List Byte) := do
  let offset ← getAttr sortIdx schema
  let attr ← entry schema.attrs sortIdx
  let value ← copyFrom data offset attr.length
  if attr.length ≤ scratchSize then
    let attrI ← entry schema.attrs i
    if attrI.length < scratchSize then .ok (cstr ((splice scratch 0 value).set attrI.length 0))
    else .error .memory
  else .error .memory

def intCmp (lhs rhs : List Byte) : Int := toInt32 (atoi lhs - atoi rhs)

/-- `cmp_fns`: the function for each type. `floatCmp` is `float_cmp`. -/
def cmpFn (floatCmp : List Byte → List Byte → Int) : AttrType → List Byte → List Byte → Int
  | .int => intCmp
  | .float => floatCmp
  | .string => strcmp

section Comparators

variable (floatCmp : List Byte → List Byte → Int) (schema : Schema) (scratch : Scratch) (lhs rhs : List Byte)

def compareAt (sortIdx i : Nat) : Except Fault Int := do
  let lhsAttr ← loadAttr schema lhs (scratch.lhs i) sortIdx i
  let rhsAttr ← loadAttr schema rhs (scratch.rhs i) sortIdx i
  let attr ← entry schema.attrs sortIdx
  .ok (cmpFn floatCmp attr.type lhsAttr rhsAttr)

def compareLoop : List Nat → Nat → Except Fault Int
  | [], _ => .ok 0
  | sortIdx :: sortAttrs, i => do
    let cmp ← compareAt floatCmp schema scratch lhs rhs sortIdx i
    if cmp ≠ 0 then .ok cmp else compareLoop sortAttrs (i + 1)

def qsortCmp : Except Fault Int := compareLoop floatCmp schema scratch lhs rhs schema.sortAttrs 0

def recordLess : Except Fault Bool := do
  let cmp ← compareLoop floatCmp schema scratch lhs rhs schema.sortAttrs 0
  .ok (decide (cmp < 0))

end Comparators

end RecordStore.RecordComparator
