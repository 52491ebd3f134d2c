import RecordStore.CText
import RecordStore.Int32
import RecordStore.Outcome

namespace RecordStore.RecordSchema

open RecordStore.CFile RecordStore.CText RecordStore.Int32 RecordStore.Outcome

inductive AttrType where
  | int
  | float
  | string
  deriving DecidableEq, Repr

structure Attribute where
  name : List Byte
  type : AttrType
  length : Nat
  deriving DecidableEq

structure Schema where
  attrs : List Attribute
  sortAttrs : List Nat
  dataOffset : List Int
  recordSize : Nat

/-- The loop of `main` over the attributes: `data_offset` is filled with `total_length`,
which is an `int`. -/
def offsetsLoop : List Attribute → Int → List Int
  | [], _ => []
  | attr :: attrs, totalLength =>
    totalLength :: offsetsLoop attrs (toInt32 (totalLength + (attr.length + 1)))

/-- The loop of `main` that adds up `record_size`: each attribute and a separator. -/
def recordSizeLoop : List Attribute → Nat → Nat
  | [], recordSize => recordSize
  | attr :: attrs, recordSize => recordSizeLoop attrs (recordSize + (attr.length + 1))

def mkSchema (attrs : List Attribute) : Schema :=
  ⟨attrs, [], offsetsLoop attrs 0, recordSizeLoop attrs 0⟩

def sortAttrLoop (schema : Schema) : List (List Byte) → Except Fault Schema
  | [] => .ok schema
  | token :: tokens =>
    match schema.attrs.findIdx? (fun attr => attr.name = token) with
    | some i => sortAttrLoop { schema with sortAttrs := schema.sortAttrs ++ [i] } tokens
    | none => .error .exit

def setSchemaSortAttr (schema : Schema) (sortingAttr : List Byte) : Except Fault Schema :=
  sortAttrLoop schema (strtok sortingAttr comma)

theorem recordSizeLoop_eq (attrs : List Attribute) (recordSize : Nat) :
    recordSizeLoop attrs recordSize = recordSize + recordSizeLoop attrs 0 := by
  induction attrs generalizing recordSize with
  | nil => rfl
  | cons attr attrs ih =>
    rw [recordSizeLoop, recordSizeLoop, ih, ih (0 + (attr.length + 1))]
    omega

theorem recordSize_pos {attrs : List Attribute} (h : attrs ≠ []) : 0 < (mkSchema attrs).recordSize := by
  cases attrs with
  | nil => exact absurd rfl h
  | cons attr attrs =>
    show 0 < recordSizeLoop (attr :: attrs) 0
    rw [recordSizeLoop, recordSizeLoop_eq]
    omega

/-- What holds of a schema that the program has built: the layout is that of its attributes,
and every sort attribute is one of them. -/
structure Built (schema : Schema) : Prop where
  offsets : schema.dataOffset = offsetsLoop schema.attrs 0
  size : schema.recordSize = recordSizeLoop schema.attrs 0
  sorts : ∀ s ∈ schema.sortAttrs, s < schema.attrs.length

theorem mkSchema_built (attrs : List Attribute) : Built (mkSchema attrs) :=
  ⟨rfl, rfl, fun _ hs => absurd hs List.not_mem_nil⟩

theorem sortAttrLoop_built {schema schema' : Schema} {tokens : List (List Byte)}
    (h : sortAttrLoop schema tokens = .ok schema') (hb : Built schema) :
    Built schema' ∧ schema'.attrs = schema.attrs := by
  induction tokens generalizing schema with
  | nil =>
    cases h
    exact ⟨hb, rfl⟩
  | cons token tokens ih =>
    rw [sortAttrLoop] at h
    split at h
    case h_1 i hi =>
      have hlt := (List.findIdx?_eq_some_iff_getElem.mp hi).1
      have hsorts : ∀ s ∈ schema.sortAttrs ++ [i], s < schema.attrs.length := by
        intro s hs
        obtain hs | hs := List.mem_append.mp hs
        · exact hb.sorts s hs
        · rwa [List.mem_singleton.mp hs]
      exact (ih h ⟨hb.offsets, hb.size, hsorts⟩ :)
    case h_2 => cases h

end RecordStore.RecordSchema
