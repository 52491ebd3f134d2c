import RecordStore.SortComparators

namespace RecordStore.ComparatorOrder

open RecordStore.CFile RecordStore.ThreeWay RecordStore.CStrings RecordStore.Int32 RecordStore.RecordSchema
open RecordStore.RecordComparator RecordStore.ProbeOrder RecordStore.RecordLayout RecordStore.ScratchCompare
open RecordStore.SortComparators

/-- A record of the schema whose integers are in the range of `int`. -/
structure Valid (schema : Schema) (data : List Byte) : Prop where
  holds : Holds schema data
  ints : ∀ x, attrType schema.attrs x = .int → InRange (atoi (attrValue schema.attrs data x))

/-- `operator()` answers `less` and `qsort_cmp` answers `cmp`, whatever the scratch arrays hold;
`less` is a strict weak order of the records, and `cmp` has opposite signs when its arguments
are exchanged. -/
structure RecordOrder (floatCmp : List Byte → List Byte → Int) (schema : Schema)
    (less : List Byte → List Byte → Bool) (cmp : List Byte → List Byte → Int) : Prop where
  operator : ∀ scratch a b, Valid schema a → Valid schema b →
    recordLess floatCmp schema scratch a b = .ok (less a b)
  qsort : ∀ scratch a b, Valid schema a → Valid schema b →
    qsortCmp floatCmp schema scratch a b = .ok (cmp a b)
  irrefl : ∀ a, Valid schema a → less a a = false
  asymm : ∀ a b, Valid schema a → Valid schema b → less a b = true → less b a = false
  trans : ∀ a b c, Valid schema a → Valid schema b → Valid schema c →
    less a b = true → less b c = true → less a c = true
  incomparable : ∀ a b c, Valid schema a → Valid schema b → Valid schema c →
    less a b = false → less b a = false → less b c = false → less c b = false →
    less a c = false ∧ less c a = false
  signs : ∀ a b, Valid schema a → Valid schema b →
    (cmp a b < 0 ↔ 0 < cmp b a) ∧ (cmp a b = 0 ↔ cmp b a = 0)

/-- Attribute `i` of the schema is as long as the `i`th sort attribute, no attribute is too
long for the scratch arrays, and the offsets are in the range of `int`. -/
structure Matched (schema : Schema) : Prop where
  lengths : ∀ i s, schema.sortAttrs[i]? = some s →
    i < schema.attrs.length ∧ attrLength schema.attrs i = attrLength schema.attrs s
  short : ∀ attr ∈ schema.attrs, attr.length < scratchSize
  size : schema.recordSize < 2147483648

variable {floatCmp : List Byte → List Byte → Int} {schema : Schema} {a b : List Byte}

theorem attrLength_lt (hm : Matched schema) (x : Nat) : attrLength schema.attrs x < scratchSize := by
  cases hx : schema.attrs[x]? with
  | none =>
    rw [attrLength, hx]
    decide
  | some attr =>
    rw [attrLength_of hx]
    exact hm.short attr (List.mem_of_getElem? hx)

theorem probe_whole (hm : Matched schema) {p : Probe} (hp : p ∈ probes schema) :
    p.seen = attrLength schema.attrs p.attr := by
  obtain ⟨j, s, hs, rfl⟩ := exists_of_mem_probesFrom schema.attrs hp
  rw [Nat.zero_add]
  exact (hm.lengths j s hs).2

theorem Matched.inBounds (hb : Built schema) (hm : Matched schema) : InBounds schema where
  size := by
    by_contra hlt
    have hget := List.getElem?_eq_getElem (l := schema.sortAttrs)
      (show schema.attrs.length < schema.sortAttrs.length by omega)
    exact absurd (hm.lengths _ _ hget).1 (Nat.lt_irrefl _)
  fits p hp := by
    rw [probe_whole hm hp]
    exact ⟨attrLength_lt hm _, le_rfl, (attrLength_lt hm _).le⟩
  offset s hs := by
    have hbound := attrOffset_bound (List.getElem?_eq_getElem (hb.sorts s hs))
    have hsize := hm.size
    rw [hb.size] at hsize
    omega

def roundCmp (floatCmp : List Byte → List Byte → Int) (schema : Schema) (s : Nat) (a b : List Byte) : Int :=
  cmpFn floatCmp (attrType schema.attrs s) (attrValue schema.attrs a s) (attrValue schema.attrs b s)

theorem qsortCmp_rounds (hb : Built schema) (hm : Matched schema) (ha : Holds schema a) (hb' : Holds schema b)
    (floatCmp : List Byte → List Byte → Int) (scratch : Scratch) :
    qsortCmp floatCmp schema scratch a b =
      .ok (firstNonzero (schema.sortAttrs.map (fun s => roundCmp floatCmp schema s a b))) := by
  rw [qsortCmp_eq hb (hm.inBounds hb) ha hb']
  congr 2
  conv_rhs => rw [← probesFrom_attr schema.attrs schema.sortAttrs 0, List.map_map]
  apply List.map_congr_left
  intro p hp
  have hva := (holds_values hb ha).length p.attr
  have hvb := (holds_values hb hb').length p.attr
  have hwhole := probe_whole hm hp
  rw [probeCmp, List.take_of_length_le (by omega), List.take_of_length_le (by omega)]
  rfl

theorem intCmp_of_short {x y : List Byte} (hx : x.length ≤ 9) (hy : y.length ≤ 9) :
    intCmp x y = atoi x - atoi y := by
  have hpow : ∀ s : List Byte, s.length ≤ 9 → -1000000000 < atoi s ∧ atoi s < 1000000000 := by
    intro s hs
    have hle : 10 ^ s.length ≤ 10 ^ 9 := Nat.pow_le_pow_right (by decide) hs
    have hbounds := atoi_bounds s
    norm_num at hle
    omega
  have h1 := hpow x hx
  have h2 := hpow y hy
  exact toInt32_of_inRange ⟨by omega, by omega⟩

theorem roundCmp_orders (hb : Built schema) (hfloat : ∀ x, attrType schema.attrs x ≠ .float) {s : Nat}
    (hs : attrType schema.attrs s = .int → attrLength schema.attrs s ≤ 9) :
    Orders (Valid schema) (roundCmp floatCmp schema s) := by
  cases htype : attrType schema.attrs s with
  | float => exact absurd htype (hfloat s)
  | string =>
    have hcmp : roundCmp floatCmp schema s =
        fun a b => strcmp (attrValue schema.attrs a s) (attrValue schema.attrs b s) := by
      funext a b
      rw [roundCmp, htype]
      rfl
    rw [hcmp]
    exact strcmp_orders.comap (fun data => attrValue schema.attrs data s) (fun _ hx => hx.holds.noNul s)
  | int =>
    have hlen : ∀ {data}, Valid schema data → (attrValue schema.attrs data s).length ≤ 9 := by
      intro data hdata
      rw [(holds_values hb hdata.holds).length]
      exact hs htype
    have hcmp : ∀ {a b}, Valid schema a → Valid schema b → roundCmp floatCmp schema s a b =
        atoi (attrValue schema.attrs a s) - atoi (attrValue schema.attrs b s) := by
      intro a b ha hb'
      rw [roundCmp, htype]
      exact intCmp_of_short (hlen ha) (hlen hb')
    constructor
    · intro a b ha hb'
      rw [hcmp ha hb', hcmp hb' ha]
      omega
    · intro a b c ha hb' hc hab hbc
      rw [hcmp ha hb'] at hab
      rw [hcmp hb' hc] at hbc
      rw [hcmp ha hc]
      omega

theorem recordOrder_of_orders (hb : Built schema) (hm : Matched schema)
    (h : ∀ s ∈ schema.sortAttrs, Orders (Valid schema) (roundCmp floatCmp schema s)) :
    ∃ less cmp, RecordOrder floatCmp schema less cmp := by
  have ho := Orders.lex h
  refine ⟨fun a b => decide (firstNonzero (schema.sortAttrs.map (fun s => roundCmp floatCmp schema s a b)) < 0),
    fun a b => firstNonzero (schema.sortAttrs.map (fun s => roundCmp floatCmp schema s a b)), ?_⟩
  have hcmp := fun scratch a b (ha : Valid schema a) (hb' : Valid schema b) =>
    qsortCmp_rounds hb hm ha.holds hb'.holds floatCmp scratch
  constructor
  case operator => exact fun scratch a b ha hb' => recordLess_eq (hcmp scratch a b ha hb')
  case qsort => exact hcmp
  case irrefl =>
    intro a ha
    simp [ho.self ha]
  case asymm =>
    intro a b ha hb' hab
    have hba := (ho.swap a b ha hb').mp (of_decide_eq_true hab)
    exact decide_eq_false (by omega)
  case trans =>
    intro a b c ha hb' hc hab hbc
    exact decide_eq_true (ho.lt_of_lt_of_le ha hb' hc (of_decide_eq_true hab) (of_decide_eq_true hbc).le)
  case incomparable =>
    intro a b c ha hb' hc hab hba hbc hcb
    have h1 := of_decide_eq_false hab
    have h2 := of_decide_eq_false hba
    have h3 := of_decide_eq_false hbc
    have h4 := of_decide_eq_false hcb
    have hab0 := (ho.swap b a hb' ha).not.mp h2
    have hbc0 := (ho.swap c b hc hb').not.mp h4
    have hac := ho.zero_trans ha hb' hc (by omega) (by omega)
    have hca := (ho.zero_iff ha hc).mp hac
    exact ⟨decide_eq_false (by omega), decide_eq_false (by omega)⟩
  case signs => exact fun a b ha hb' => ⟨ho.swap a b ha hb', ho.zero_iff ha hb'⟩

section Overflow

/-- Three integers of ten bytes: 2000000000, -200000000 and 0. -/
def high : List Byte := [50, 48, 48, 48, 48, 48, 48, 48, 48, 48]

def low : List Byte := [45, 50, 48, 48, 48, 48, 48, 48, 48, 48]

def null : List Byte := [48, 32, 32, 32, 32, 32, 32, 32, 32, 32]

/-- `text` with blanks after it to fill attribute `s`, and blanks in all other attributes. -/
def fieldOf (len : Nat → Nat) (s : Nat) (text : List Byte) : Nat → List Byte :=
  Function.update (blanks len) s (text ++ List.replicate (len s - 10) 32)

theorem atoi_high (n : Nat) : atoi (high ++ List.replicate n 32) = 2000000000 := by
  have hdigits := digitsValue_blanks high (by decide) n
  have hvalue : high.foldl (fun value d => 10 * value + (d.toNat - 48)) 0 = 2000000000 := by decide
  rw [hvalue] at hdigits
  have hnumber : leadingNumber (high ++ List.replicate n 32) = 2000000000 := congrArg Int.ofNat hdigits
  rw [atoi, hnumber]
  rfl

theorem atoi_low (n : Nat) : atoi (low ++ List.replicate n 32) = -200000000 := by
  have hdigits := digitsValue_blanks low.tail (by decide) n
  have hvalue : low.tail.foldl (fun value d => 10 * value + (d.toNat - 48)) 0 = 200000000 := by decide
  rw [hvalue] at hdigits
  have hnumber : leadingNumber (low ++ List.replicate n 32) = -200000000 :=
    congrArg (fun k : Nat => -(k : Int)) hdigits
  rw [atoi, hnumber]
  rfl

theorem atoi_null (n : Nat) : atoi (null ++ List.replicate n 32) = 0 := rfl

theorem fieldOf_values {len : Nat → Nat} {s : Nat} (hlen : 10 ≤ len s) (text : List Byte)
    (htext : text.length = 10) (hnul : (0 : Byte) ∉ text) : Values len (fieldOf len s text) := by
  constructor
  · intro x
    by_cases hx : x = s
    · subst hx
      rw [fieldOf, Function.update_self, List.length_append, List.length_replicate, htext]
      omega
    · rw [fieldOf, Function.update_of_ne hx]
      exact (blanks_values len).length x
  · intro x
    by_cases hx : x = s
    · subst hx
      rw [fieldOf, Function.update_self, List.mem_append]
      rintro (h | h)
      · exact hnul h
      · exact absurd (List.eq_of_mem_replicate h) (by decide)
    · rw [fieldOf, Function.update_of_ne hx]
      exact (blanks_values len).noNul x

variable {s : Nat}

theorem valid_fieldOf (hb : Built schema) {text : List Byte}
    (hv : Values (attrLength schema.attrs) (fieldOf (attrLength schema.attrs) s text))
    (hint : InRange (atoi (text ++ List.replicate (attrLength schema.attrs s - 10) 32))) :
    Valid schema (recordOf schema.attrs (fieldOf (attrLength schema.attrs) s text)) := by
  refine ⟨holds_recordOf hb hv, ?_⟩
  intro x _
  rw [attrValue_recordOf hv]
  by_cases hx : x = s
  · subst hx
    rwa [fieldOf, Function.update_self]
  · rw [fieldOf, Function.update_of_ne hx, blanks, atoi_all_blank]
    decide

theorem qsortCmp_fieldOf (floatCmp : List Byte → List Byte → Int) (hb : Built schema) (hm : Matched schema)
    (hfloat : ∀ x, attrType schema.attrs x ≠ .float)
    (hs : s ∈ schema.sortAttrs) (htype : attrType schema.attrs s = .int) {text text' : List Byte}
    (hv : Values (attrLength schema.attrs) (fieldOf (attrLength schema.attrs) s text))
    (hv' : Values (attrLength schema.attrs) (fieldOf (attrLength schema.attrs) s text')) {x : Int} (hx : x ≠ 0)
    (hcmp : toInt32 (atoi (text ++ List.replicate (attrLength schema.attrs s - 10) 32) -
      atoi (text' ++ List.replicate (attrLength schema.attrs s - 10) 32)) = x) (scratch : Scratch) :
    qsortCmp floatCmp schema scratch (recordOf schema.attrs (fieldOf (attrLength schema.attrs) s text))
      (recordOf schema.attrs (fieldOf (attrLength schema.attrs) s text')) = .ok x := by
  have hround : roundCmp floatCmp schema s (recordOf schema.attrs (fieldOf (attrLength schema.attrs) s text))
      (recordOf schema.attrs (fieldOf (attrLength schema.attrs) s text')) = x := by
    rw [roundCmp, htype, attrValue_recordOf hv, attrValue_recordOf hv', fieldOf, fieldOf,
      Function.update_self, Function.update_self]
    exact hcmp
  rw [qsortCmp_rounds hb hm (holds_recordOf hb hv) (holds_recordOf hb hv')]
  congr 1
  refine firstNonzero_eq_of_mem hx (List.mem_map.mpr ⟨s, hs, hround⟩) ?_
  intro c hc
  obtain ⟨t, -, rfl⟩ := List.mem_map.mp hc
  by_cases ht : t = s
  · rw [ht]
    exact .inr hround
  · left
    rw [roundCmp, attrValue_recordOf hv, attrValue_recordOf hv', fieldOf, fieldOf, Function.update_of_ne ht,
      Function.update_of_ne ht]
    exact cmpFn_self (hfloat t) _

/-- An integer of ten bytes or more to sort on: 2000000000 is before -200000000, which is
before 0, but 2000000000 is not before 0. -/
theorem not_recordOrder (hb : Built schema) (hm : Matched schema)
    (hfloat : ∀ x, attrType schema.attrs x ≠ .float) (hs : s ∈ schema.sortAttrs)
    (htype : attrType schema.attrs s = .int) (hlen : 10 ≤ attrLength schema.attrs s)
    {less : List Byte → List Byte → Bool} {cmp : List Byte → List Byte → Int} :
    ¬ RecordOrder floatCmp schema less cmp := by
  intro h
  let scratch : Scratch := ⟨fun _ => List.replicate scratchSize 0, fun _ => List.replicate scratchSize 0,
    fun _ => List.length_replicate, fun _ => List.length_replicate⟩
  have hv1 := fieldOf_values hlen high rfl (by decide)
  have hv2 := fieldOf_values hlen low rfl (by decide)
  have hv3 := fieldOf_values hlen null rfl (by decide)
  have ha := valid_fieldOf hb hv1 (by rw [atoi_high]; decide)
  have hb' := valid_fieldOf hb hv2 (by rw [atoi_low]; decide)
  have hc := valid_fieldOf hb hv3 (by rw [atoi_null]; decide)
  have h12 := recordLess_eq (qsortCmp_fieldOf floatCmp hb hm hfloat hs htype hv1 hv2
    (show (-2094967296 : Int) ≠ 0 by decide) (by rw [atoi_high, atoi_low]; rfl) scratch)
  have h23 := recordLess_eq (qsortCmp_fieldOf floatCmp hb hm hfloat hs htype hv2 hv3
    (show (-200000000 : Int) ≠ 0 by decide) (by rw [atoi_low, atoi_null]; rfl) scratch)
  have h13 := recordLess_eq (qsortCmp_fieldOf floatCmp hb hm hfloat hs htype hv1 hv3
    (show (2000000000 : Int) ≠ 0 by decide) (by rw [atoi_high, atoi_null]; rfl) scratch)
  have l12 := Except.ok.inj ((h.operator scratch _ _ ha hb').symm.trans h12)
  have l23 := Except.ok.inj ((h.operator scratch _ _ hb' hc).symm.trans h23)
  have l13 := Except.ok.inj ((h.operator scratch _ _ ha hc).symm.trans h13)
  have htrans := h.trans _ _ _ ha hb' hc (l12.trans (by decide)) (l23.trans (by decide))
  rw [l13] at htrans
  exact absurd htrans (by decide)

end Overflow

/-- The comparators order the records exactly when every integer to sort on has at most nine
bytes. -/
theorem recordOrder_iff (floatCmp : List Byte → List Byte → Int) (attrs : List Attribute)
    (htypes : ∀ attr ∈ attrs, attr.type ≠ .float) (sortingAttr : List Byte) (schema : Schema)
    (hschema : setSchemaSortAttr (mkSchema attrs) sortingAttr = .ok schema) (hm : Matched schema) :
    (∃ less cmp, RecordOrder floatCmp schema less cmp) ↔
      ∀ s ∈ schema.sortAttrs, attrType schema.attrs s = .int → attrLength schema.attrs s ≤ 9 := by
  obtain ⟨hb, hfloat⟩ := built_types htypes hschema
  constructor
  · rintro ⟨less, cmp, h⟩ s hs htype
    by_contra hlen
    exact not_recordOrder hb hm hfloat hs htype (by omega) h
  · intro hshort
    exact recordOrder_of_orders hb hm (fun s hs => roundCmp_orders hb hfloat (hshort s hs))

def yearSchema (n : Nat) : Schema := { mkSchema [⟨[121], .int, n⟩] with sortAttrs := [0] }

theorem matched_one {attr : Attribute} (hlen : attr.length < scratchSize) :
    Matched { mkSchema [attr] with sortAttrs := [0] } where
  lengths i s hs := by
    cases i with
    | zero => exact ⟨Nat.zero_lt_one, by rw [show s = 0 from (Option.some.inj hs).symm]⟩
    | succ i => cases hs
  short attr' hattr := by
    rw [List.mem_singleton.mp hattr]
    exact hlen
  size := by
    have hsize : (mkSchema [attr]).recordSize = 0 + (attr.length + 1) := rfl
    rw [hsize]
    unfold scratchSize at hlen
    omega

theorem yearSchema_matched {n : Nat} (hn : n < scratchSize) : Matched (yearSchema n) := matched_one hn

theorem recordOrder_iff_year :
    setSchemaSortAttr (mkSchema [⟨[121], .int, 4⟩]) [121] = .ok (yearSchema 4) ∧
      ∃ less cmp, RecordOrder (fun _ _ => 0) (yearSchema 4) less cmp := by
  refine ⟨rfl, (recordOrder_iff (fun _ _ => 0) [⟨[121], .int, 4⟩] (by decide) [121] _ rfl
    (yearSchema_matched (by decide))).mpr ?_⟩
  intro s hs _
  rw [List.mem_singleton.mp hs]
  decide

/-- An integer attribute of ten bytes cannot be sorted on. -/
theorem ten_digits_out_of_order :
    setSchemaSortAttr (mkSchema [⟨[121], .int, 10⟩]) [121] = .ok (yearSchema 10) ∧
      Matched (yearSchema 10) ∧ ¬ ∃ less cmp, RecordOrder (fun _ _ => 0) (yearSchema 10) less cmp := by
  have hschema : setSchemaSortAttr (mkSchema [⟨[121], .int, 10⟩]) [121] = .ok (yearSchema 10) := rfl
  have hm : Matched (yearSchema 10) := yearSchema_matched (by decide)
  refine ⟨hschema, hm, ?_⟩
  rintro ⟨less, cmp, h⟩
  obtain ⟨hb, -⟩ := sortAttrLoop_built hschema (mkSchema_built _)
  exact not_recordOrder (s := 0) hb hm (attrType_ne_float (by decide)) (List.mem_singleton.mpr rfl) rfl
    (by decide) h

end RecordStore.ComparatorOrder
