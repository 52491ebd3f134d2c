import RecordStore.ProbeOrder

namespace RecordStore.RecordLayout

open RecordStore.Splice RecordStore.CFile RecordStore.Int32 RecordStore.RecordSchema RecordStore.ProbeOrder

/-- Where attribute `x` stands in a record: each one before it takes its length and a
separator. -/
def attrOffset : List Attribute → Nat → Nat
  | _, 0 => 0
  | [], _ + 1 => 0
  | attr :: attrs, x + 1 => attr.length + 1 + attrOffset attrs x

def attrLength (attrs : List Attribute) (x : Nat) : Nat := (attrs[x]?).elim 0 Attribute.length

def attrType (attrs : List Attribute) (x : Nat) : AttrType := (attrs[x]?).elim .string Attribute.type

def attrValue (attrs : List Attribute) (data : List Byte) (x : Nat) : List Byte :=
  slice data (attrOffset attrs x) (attrLength attrs x)

def recordOf : List Attribute → (Nat → List Byte) → List Byte
  | [], _ => []
  | _ :: attrs, v => v 0 ++ 32 :: recordOf attrs (fun x => v (x + 1))

theorem attrLength_of {attrs : List Attribute} {x : Nat} {attr : Attribute} (h : attrs[x]? = some attr) :
    attrLength attrs x = attr.length := by
  rw [attrLength, h]
  rfl

theorem attrType_of {attrs : List Attribute} {x : Nat} {attr : Attribute} (h : attrs[x]? = some attr) :
    attrType attrs x = attr.type := by
  rw [attrType, h]
  rfl

theorem attrLength_cons (attr : Attribute) (attrs : List Attribute) (x : Nat) :
    attrLength (attr :: attrs) (x + 1) = attrLength attrs x := rfl

theorem toInt32_add (x y : Int) : toInt32 (toInt32 x + y) = toInt32 (x + y) := by
  unfold toInt32
  omega

theorem offsetsLoop_getElem? {attrs : List Attribute} {x : Nat} {attr : Attribute} (h : attrs[x]? = some attr)
    (total : Int) : (offsetsLoop attrs (toInt32 total))[x]? = some (toInt32 (total + attrOffset attrs x)) := by
  induction attrs generalizing x total with
  | nil => cases h
  | cons first attrs ih =>
    cases x with
    | zero => rw [offsetsLoop, List.getElem?_cons_zero, attrOffset, Int.natCast_zero, Int.add_zero]
    | succ x =>
      rw [offsetsLoop, List.getElem?_cons_succ, toInt32_add, ih (by simpa using h), attrOffset]
      congr 2
      push_cast
      omega

theorem recordSizeLoop_cons (attr : Attribute) (attrs : List Attribute) :
    recordSizeLoop (attr :: attrs) 0 = attr.length + 1 + recordSizeLoop attrs 0 := by
  rw [recordSizeLoop, recordSizeLoop_eq, Nat.zero_add]

theorem attrOffset_bound {attrs : List Attribute} {x : Nat} {attr : Attribute} (h : attrs[x]? = some attr) :
    attrOffset attrs x + attr.length + 1 ≤ recordSizeLoop attrs 0 := by
  induction attrs generalizing x with
  | nil => cases h
  | cons first attrs ih =>
    rw [recordSizeLoop_cons]
    cases x with
    | zero =>
      obtain rfl : first = attr := by simpa using h
      rw [attrOffset]
      omega
    | succ x =>
      have hrest := ih (by simpa using h)
      rw [attrOffset]
      omega

theorem Values.tail {attr : Attribute} {attrs : List Attribute} {v : Nat → List Byte}
    (h : Values (attrLength (attr :: attrs)) v) : Values (attrLength attrs) (fun x => v (x + 1)) :=
  ⟨fun x => h.length (x + 1), fun x => h.noNul (x + 1)⟩

theorem recordOf_length {attrs : List Attribute} {v : Nat → List Byte} (h : Values (attrLength attrs) v) :
    (recordOf attrs v).length = recordSizeLoop attrs 0 := by
  induction attrs generalizing v with
  | nil => rfl
  | cons attr attrs ih =>
    have h0 : (v 0).length = attr.length := h.length 0
    rw [recordOf, recordSizeLoop_cons, List.length_append, List.length_cons, ih (Values.tail h), h0]
    omega

theorem slice_recordOf {attrs : List Attribute} {v : Nat → List Byte} (h : Values (attrLength attrs) v) {x : Nat}
    (hx : x < attrs.length) : slice (recordOf attrs v) (attrOffset attrs x) (attrLength attrs x) = v x := by
  induction attrs generalizing v x with
  | nil => cases hx
  | cons attr attrs ih =>
    cases x with
    | zero =>
      rw [attrOffset, recordOf, slice, List.drop_zero, ← h.length 0, List.take_left]
    | succ x =>
      have h0 : (v 0).length = attr.length := h.length 0
      have hrest := ih (Values.tail h) (Nat.lt_of_succ_lt_succ hx)
      rw [attrOffset, attrLength_cons, recordOf, slice, ← List.drop_drop, ← List.drop_drop, ← h0, List.drop_left,
        List.drop_one, List.tail_cons]
      exact hrest

theorem attrValue_recordOf {attrs : List Attribute} {v : Nat → List Byte} (h : Values (attrLength attrs) v) :
    attrValue attrs (recordOf attrs v) = v := by
  funext x
  by_cases hx : x < attrs.length
  · exact slice_recordOf h hx
  · have hlen : attrLength attrs x = 0 := by
      rw [attrLength, List.getElem?_eq_none (Nat.not_lt.mp hx)]
      rfl
    have hv := h.length x
    rw [hlen] at hv
    rw [attrValue, hlen, slice, List.take_zero, List.length_eq_zero_iff.mp hv]

theorem recordOf_blanks (attrs : List Attribute) :
    recordOf attrs (blanks (attrLength attrs)) = List.replicate (recordSizeLoop attrs 0) 32 := by
  induction attrs with
  | nil => rfl
  | cons attr attrs ih =>
    have htail : (fun x => blanks (attrLength (attr :: attrs)) (x + 1)) = blanks (attrLength attrs) := rfl
    have h0 : blanks (attrLength (attr :: attrs)) 0 = List.replicate attr.length 32 := rfl
    rw [recordOf, htail, ih, h0, ← List.replicate_succ, ← List.replicate_add, recordSizeLoop_cons]
    congr 1
    omega

theorem take_recordOf_update {attrs : List Attribute} (v : Nat → List Byte) (x : Nat) (w : List Byte)
    (h : ∀ y, (v y).length = attrLength attrs y) :
    (recordOf attrs (Function.update v x w)).take (attrOffset attrs x) =
      (recordOf attrs v).take (attrOffset attrs x) := by
  induction attrs generalizing v x with
  | nil => rfl
  | cons attr attrs ih =>
    cases x with
    | zero => rfl
    | succ x =>
      have h0 : (v 0).length = attr.length := h 0
      have htail : (fun y => Function.update v (x + 1) w (y + 1)) = Function.update (fun y => v (y + 1)) x w := by
        funext y
        by_cases hy : y = x
        · rw [hy, Function.update_self, Function.update_self]
        · rw [Function.update_of_ne (by omega), Function.update_of_ne hy]
      have hrest := ih (fun y => v (y + 1)) x (fun y => h (y + 1))
      rw [recordOf, recordOf, htail, Function.update_of_ne (Nat.succ_ne_zero x).symm, attrOffset, ← h0,
        List.take_append, List.take_append]
      congr 1
      rw [Nat.add_assoc, Nat.add_sub_cancel_left, Nat.add_comm 1, List.take_succ_cons, List.take_succ_cons, hrest]

end RecordStore.RecordLayout
