import RecordStore.ScratchCompare

namespace RecordStore.SortComparators

open RecordStore.ThreeWay RecordStore.Splice RecordStore.CFile RecordStore.CStrings RecordStore.Int32
open RecordStore.Outcome RecordStore.RecordSchema RecordStore.RecordComparator RecordStore.ProbeOrder
open RecordStore.RecordLayout RecordStore.ScratchCompare

section Tuples

variable (floatCmp : List Byte → List Byte → Int) (schema : Schema) (a b : List Byte)

def attrCmp (s : Nat) : Int :=
  valueCmp floatCmp (attrType schema.attrs s) (attrValue schema.attrs a s) (attrValue schema.attrs b s)

def Precedes : Prop :=
  ∃ before s after, schema.sortAttrs = before ++ s :: after ∧
    (∀ t ∈ before, attrCmp floatCmp schema a b t = 0) ∧ attrCmp floatCmp schema a b s < 0

def SameTuple : Prop := ∀ s ∈ schema.sortAttrs, attrCmp floatCmp schema a b s = 0

/-- The comparators do without an access out of range, and compare the tuples of the sort
attributes. -/
def ComparesTuples : Prop :=
  ∀ (a b : List Byte) (scratch scratch' : Scratch), Holds schema a → Holds schema b →
    Small (attrType schema.attrs) (attrValue schema.attrs a) (attrValue schema.attrs b) schema.sortAttrs →
    ∃ less cmp, recordLess floatCmp schema scratch a b = .ok less ∧
      qsortCmp floatCmp schema scratch' a b = .ok cmp ∧
      (less = true ↔ Precedes floatCmp schema a b) ∧ (cmp < 0 ↔ Precedes floatCmp schema a b) ∧
      (cmp = 0 ↔ SameTuple floatCmp schema a b)

end Tuples

/-- The sort list is no longer than the schema, copies and terminators fit the scratch arrays,
no terminator stands behind the copy, and the offsets are `int`s. -/
structure InBounds (schema : Schema) : Prop where
  size : schema.sortAttrs.length ≤ schema.attrs.length
  fits : ∀ p ∈ probes schema, p.seen < scratchSize ∧ p.seen ≤ attrLength schema.attrs p.attr ∧
    attrLength schema.attrs p.attr ≤ scratchSize
  offset : ∀ s ∈ schema.sortAttrs, attrLength schema.attrs s = 0 ∨ attrOffset schema.attrs s < 2 ^ 31

/-- The lengths at the positions of the sort list suit its attributes. -/
structure Aligned (schema : Schema) : Prop extends InBounds schema where
  covers : Covers (attrType schema.attrs) (attrLength schema.attrs) (probes schema)

variable {floatCmp : List Byte → List Byte → Int} {schema : Schema} {a b : List Byte}

theorem precedes_iff : Precedes floatCmp schema a b ↔
    firstNonzero (schema.sortAttrs.map (attrCmp floatCmp schema a b)) < 0 := by
  constructor
  · rintro ⟨before, s, after, hsort, hbefore, hs⟩
    have hzero : ∀ c ∈ before.map (attrCmp floatCmp schema a b), c = 0 := by
      intro c hc
      obtain ⟨t, ht, rfl⟩ := List.mem_map.mp hc
      exact hbefore t ht
    rwa [hsort, List.map_append, firstNonzero_append hzero, List.map_cons, firstNonzero_cons_of_ne (by omega)]
  · intro hneg
    obtain ⟨before, s, after, hsort, hbefore, -, heq⟩ :=
      exists_first_nonzero (attrCmp floatCmp schema a b) (l := schema.sortAttrs) (by omega)
    exact ⟨before, s, after, hsort, hbefore, heq ▸ hneg⟩

theorem sameTuple_iff : SameTuple floatCmp schema a b ↔
    firstNonzero (schema.sortAttrs.map (attrCmp floatCmp schema a b)) = 0 := by
  rw [firstNonzero_eq_zero, SameTuple]
  simp

theorem map_fullCmp : (probes schema).map (fullCmp floatCmp (attrType schema.attrs) (attrValue schema.attrs a)
    (attrValue schema.attrs b)) = schema.sortAttrs.map (attrCmp floatCmp schema a b) := by
  conv_rhs => rw [← probesFrom_attr schema.attrs schema.sortAttrs 0, List.map_map]
  rfl

theorem holds_values (hb : Built schema) {data : List Byte} (h : Holds schema data) :
    Values (attrLength schema.attrs) (attrValue schema.attrs data) := by
  refine ⟨?_, h.noNul⟩
  intro x
  rw [attrValue, slice_length]
  cases hx : schema.attrs[x]? with
  | none =>
    rw [attrLength, hx]
    exact Nat.zero_min _
  | some attr =>
    have hbound := attrOffset_bound hx
    rw [← hb.size, ← h.length] at hbound
    rw [attrLength_of hx]
    omega

theorem holds_recordOf (hb : Built schema) {v : Nat → List Byte} (h : Values (attrLength schema.attrs) v) :
    Holds schema (recordOf schema.attrs v) := by
  refine ⟨by rw [recordOf_length h, hb.size], ?_⟩
  rw [attrValue_recordOf h]
  exact h.noNul

theorem compareAt_eq (hb : Built schema) (hin : InBounds schema) (ha : Holds schema a) (hb' : Holds schema b)
    (floatCmp : List Byte → List Byte → Int) (scratch : Scratch) {j s : Nat} (hs : schema.sortAttrs[j]? = some s) :
    compareAt floatCmp schema scratch a b s (0 + j) = .ok (probeCmp floatCmp (attrType schema.attrs)
      (attrValue schema.attrs a) (attrValue schema.attrs b) ⟨s, attrLength schema.attrs (0 + j)⟩) := by
  obtain ⟨hseen, hle, hfit⟩ := hin.fits _ (mem_probesFrom schema.attrs hs 0)
  have hmem := List.mem_of_getElem? hs
  have hj := (List.getElem?_eq_some_iff.mp hs).1
  have hattr := List.getElem?_eq_getElem (hb.sorts s hmem)
  have hattrI := List.getElem?_eq_getElem (show 0 + j < schema.attrs.length by have := hin.size; omega)
  have hoffset := hin.offset s hmem
  simp only [attrLength_of hattr, attrLength_of hattrI] at hseen hle hfit hoffset
  rw [compareAt, loadAttr_eq hb hattr hattrI hfit hseen hle hoffset ha (scratch.lhs_length _), ok_bind,
    loadAttr_eq hb hattr hattrI hfit hseen hle hoffset hb' (scratch.rhs_length _), ok_bind, entry_eq_ok.mpr hattr,
    ok_bind, probeCmp, attrLength_of hattrI, attrType_of hattr]

theorem qsortCmp_eq (hb : Built schema) (hin : InBounds schema) (ha : Holds schema a) (hb' : Holds schema b)
    (floatCmp : List Byte → List Byte → Int) (scratch : Scratch) :
    qsortCmp floatCmp schema scratch a b = .ok (firstNonzero ((probes schema).map
      (probeCmp floatCmp (attrType schema.attrs) (attrValue schema.attrs a) (attrValue schema.attrs b)))) :=
  compareLoop_eq (fun _ _ hs => compareAt_eq hb hin ha hb' floatCmp scratch hs)

theorem recordLess_eq {scratch : Scratch} {cmp : Int} (h : qsortCmp floatCmp schema scratch a b = .ok cmp) :
    recordLess floatCmp schema scratch a b = .ok (decide (cmp < 0)) := by
  rw [recordLess, ← qsortCmp, h, ok_bind]

theorem comparesTuples_of_aligned (hb : Built schema) (hfloat : ∀ x, attrType schema.attrs x ≠ .float)
    (h : Aligned schema) : ComparesTuples floatCmp schema := by
  intro a b scratch scratch' ha hb' hsmall
  have hcmp := fun scratch => qsortCmp_eq hb h.toInBounds ha hb' floatCmp scratch
  have hfirst := firstNonzero_probes hfloat (holds_values hb ha) (holds_values hb hb') floatCmp
    (by rwa [probes, probesFrom_attr]) h.covers
  rw [map_fullCmp] at hfirst
  rw [hfirst] at hcmp
  refine ⟨_, _, recordLess_eq (hcmp scratch), hcmp scratch', ?_, precedes_iff.symm, sameTuple_iff.symm⟩
  rw [decide_eq_true_iff, precedes_iff]

theorem agrees_of_comparesTuples (hb : Built schema) (hin : InBounds schema)
    (h : ComparesTuples floatCmp schema) :
    Agrees floatCmp (attrType schema.attrs) (attrLength schema.attrs) (probes schema) := by
  intro v w hv hw hsmall
  have ha := holds_recordOf hb hv
  have hb' := holds_recordOf hb hw
  let scratch : Scratch := ⟨fun _ => List.replicate scratchSize 0, fun _ => List.replicate scratchSize 0,
    fun _ => List.length_replicate, fun _ => List.length_replicate⟩
  obtain ⟨less, cmp, -, hcmp, -, hneg, hzero⟩ := h _ _ scratch scratch ha hb'
    (by rwa [attrValue_recordOf hv, attrValue_recordOf hw, ← probesFrom_attr schema.attrs schema.sortAttrs 0])
  rw [qsortCmp_eq hb hin ha hb'] at hcmp
  obtain rfl := Except.ok.inj hcmp
  rw [precedes_iff, ← map_fullCmp, attrValue_recordOf hv, attrValue_recordOf hw] at hneg
  rw [sameTuple_iff, ← map_fullCmp, attrValue_recordOf hv, attrValue_recordOf hw] at hzero
  exact ⟨hneg, hzero⟩

section Bounds

variable (hb : Built schema) (hfloat : ∀ x, attrType schema.attrs x ≠ .float)
  (h : ComparesTuples floatCmp schema)

include hb hfloat h

theorem blank_round (scratch : Scratch) {j s : Nat} (hs : schema.sortAttrs[j]? = some s) :
    compareAt floatCmp schema scratch (List.replicate schema.recordSize 32) (List.replicate schema.recordSize 32)
      s j = .ok 0 := by
  have hv := blanks_values (attrLength schema.attrs)
  have hbits := blanks_bits (attrLength schema.attrs)
  have hrec : recordOf schema.attrs (blanks (attrLength schema.attrs)) = List.replicate schema.recordSize 32 := by
    rw [recordOf_blanks, hb.size]
  have hholds := holds_recordOf hb hv
  rw [hrec] at hholds
  obtain ⟨-, cmp, -, hcmp, -, -, hzero⟩ := h _ _ scratch scratch hholds hholds
    (by rw [← hrec, attrValue_recordOf hv]; exact hbits.small hbits _)
  have hsame : SameTuple floatCmp schema (List.replicate schema.recordSize 32) (List.replicate schema.recordSize 32) :=
    fun s _ => valueCmp_self (hfloat s) _
  rw [hzero.mpr hsame] at hcmp
  have hround := compareAt_of_loop hcmp hs
  rwa [Nat.zero_add] at hround

theorem round_bounds {j s : Nat} (hs : schema.sortAttrs[j]? = some s) :
    ∃ attr attrI, schema.attrs[s]? = some attr ∧ schema.attrs[j]? = some attrI ∧
      attr.length ≤ scratchSize ∧ attrI.length < scratchSize ∧ attrI.length ≤ attr.length ∧
      (attr.length = 0 ∨ 0 ≤ toInt32 (attrOffset schema.attrs s)) := by
  have hround := fun scratch => blank_round hb hfloat h scratch hs
  have hload : ∀ scratch : Scratch, ∃ x y attr,
      loadAttr schema (List.replicate schema.recordSize 32) (scratch.lhs j) s j = .ok x ∧
      loadAttr schema (List.replicate schema.recordSize 32) (scratch.rhs j) s j = .ok y ∧
      schema.attrs[s]? = some attr ∧ 0 = cmpFn floatCmp attr.type x y := fun scratch => compareAt_ok (hround scratch)
  obtain ⟨x, -, -, hx, -⟩ := hload ⟨fun _ => List.replicate scratchSize 0, fun _ => List.replicate scratchSize 0,
    fun _ => List.length_replicate, fun _ => List.length_replicate⟩
  obtain ⟨offset, attr, attrI, hoffset, hattr, hattrI, hfit, hterm, hread, -⟩ := loadAttr_ok hx
  have hoff : offset = toInt32 (attrOffset schema.attrs s) := by
    have := entry_eq_ok.mp (getAttr_eq hb hattr)
    rw [hoffset] at this
    exact Option.some.inj this
  refine ⟨attr, attrI, hattr, hattrI, hfit, hterm, ?_, hread.imp_right (fun h => hoff ▸ h.1)⟩
  by_contra hlt
  have hlt := Nat.not_le.mp hlt
  -- scratch arrays that differ behind the copy
  obtain ⟨x, y, attr', hx, hy, hattr', hcmp⟩ := hload ⟨fun _ => junk attr.length 49, fun _ => junk attr.length 48,
    fun _ => junk_length (by omega) 49, fun _ => junk_length (by omega) 48⟩
  have hstring : ∀ c x, c ≠ 0 → loadAttr schema (List.replicate schema.recordSize 32) (junk attr.length c) s j =
      .ok x → x = mark (attr.length + 1) attr.length c := by
    intro c x hc hx
    obtain ⟨offset, attr'', attrI', -, hattr'', hattrI', -, -, hread, hx⟩ := loadAttr_ok hx
    obtain rfl := Option.some.inj (hattr.symm.trans hattr'')
    obtain rfl := Option.some.inj (hattrI.symm.trans hattrI')
    have hblank : slice (List.replicate schema.recordSize (32 : Byte)) offset.toNat attr.length =
        List.replicate attr.length 32 := by
      rw [slice, List.drop_replicate, List.take_replicate]
      congr 1
      rw [List.length_replicate] at hread
      omega
    rw [hx, hblank, cstr_junk hlt hterm hc]
  rw [hstring 49 x (by decide) hx, hstring 48 y (by decide) hy, cmpFn_digits (attrType_of hattr' ▸ hfloat s)] at hcmp
  exact absurd hcmp (by decide)

theorem offset_bound {s : Nat} (hs : s ∈ schema.sortAttrs) :
    attrLength schema.attrs s = 0 ∨ attrOffset schema.attrs s < 2 ^ 31 := by
  by_contra hnot
  have hlen : 0 < attrLength schema.attrs s := by omega
  obtain ⟨j, hj⟩ := List.getElem?_of_mem hs
  obtain ⟨attr, -, hattr, -, -, -, -, hread⟩ := round_bounds hb hfloat h hj
  rw [attrLength_of hattr] at hlen
  have hfar : 2 ^ 32 ≤ attrOffset schema.attrs s := by
    have hnonneg := hread.resolve_left (by omega)
    rw [attrLength_of hattr] at hnot
    unfold toInt32 at hnonneg
    omega
  have hblank := blanks_values (attrLength schema.attrs)
  have hk : attrLength schema.attrs s - 1 < attrLength schema.attrs s := by
    rw [attrLength_of hattr]
    omega
  have hv := hblank.put hk (show (48 : Byte) ≠ 0 by decide)
  have hw := hblank.put hk (show (49 : Byte) ≠ 0 by decide)
  let scratch : Scratch := ⟨fun _ => List.replicate scratchSize 0, fun _ => List.replicate scratchSize 0,
    fun _ => List.length_replicate, fun _ => List.length_replicate⟩
  obtain ⟨-, cmp, -, hcmp, -, -, hzero⟩ := h _ _ scratch scratch (holds_recordOf hb hv) (holds_recordOf hb hw)
    (by
      rw [attrValue_recordOf hv, attrValue_recordOf hw]
      exact ((blanks_bits _).put _ _ (.inl rfl)).small ((blanks_bits _).put _ _ (.inr rfl)) _)
  have hne : cmp ≠ 0 := by
    intro hc
    have hsame := hzero.mp hc s hs
    rw [attrCmp, attrValue_recordOf hv, attrValue_recordOf hw, put_self, put_self, valueCmp_digits (hfloat s)] at hsame
    exact absurd hsame (by decide)
  obtain ⟨j', s', hs', hround⟩ := exists_compareAt hcmp hne
  obtain ⟨x, y, attr', hx, hy, hattr', hcmp'⟩ := compareAt_ok hround
  obtain ⟨offset, attr1, attrI, hoffset, hattr1, hattrI, hfit, -, -, hxeq⟩ := loadAttr_ok hx
  obtain ⟨offset', attr2, attrI', hoffset', hattr2, hattrI', -, -, -, hyeq⟩ := loadAttr_ok hy
  obtain rfl := Option.some.inj (hoffset.symm.trans hoffset')
  obtain rfl := Option.some.inj (hattr1.symm.trans hattr2)
  obtain rfl := Option.some.inj (hattrI.symm.trans hattrI')
  have hnear : offset.toNat + attr1.length ≤ attrOffset schema.attrs s := by
    have hoff := entry_eq_ok.mp (getAttr_eq hb hattr1)
    rw [hoffset] at hoff
    have hrange := (toInt32_inRange (attrOffset schema.attrs s')).2
    rw [← Option.some.inj hoff] at hrange
    unfold scratchSize at hfit
    omega
  have htake : (recordOf schema.attrs (put (attrLength schema.attrs) s (attrLength schema.attrs s - 1) 48
        (blanks (attrLength schema.attrs)))).take (attrOffset schema.attrs s) =
      (recordOf schema.attrs (put (attrLength schema.attrs) s (attrLength schema.attrs s - 1) 49
        (blanks (attrLength schema.attrs)))).take (attrOffset schema.attrs s) :=
    (take_recordOf_update _ _ _ hblank.length).trans (take_recordOf_update _ _ _ hblank.length).symm
  have hxy : x = y := by rw [hxeq, hyeq, slice_eq_of_take htake hnear]
  rw [hxy, cmpFn_self (attrType_of hattr' ▸ hfloat s')] at hcmp'
  exact hne hcmp'

theorem inBounds_of_comparesTuples : InBounds schema where
  size := by
    by_contra hlt
    have hlt := Nat.not_le.mp hlt
    obtain ⟨-, attrI, -, hattrI, -⟩ := round_bounds hb hfloat h (List.getElem?_eq_getElem hlt)
    exact absurd (List.getElem?_eq_some_iff.mp hattrI).1 (Nat.lt_irrefl _)
  fits := by
    intro p hp
    obtain ⟨j, s, hs, rfl⟩ := exists_of_mem_probesFrom schema.attrs hp
    obtain ⟨attr, attrI, hattr, hattrI, hfit, hterm, hle, -⟩ := round_bounds hb hfloat h hs
    rw [Nat.zero_add, attrLength_of hattr, attrLength_of hattrI]
    exact ⟨hterm, hle, hfit⟩
  offset := fun s hs => offset_bound hb hfloat h hs

theorem aligned_of_comparesTuples : Aligned schema := by
  have hin := inBounds_of_comparesTuples hb hfloat h
  have hagrees := agrees_of_comparesTuples hb hin h
  have hseen : ∀ p ∈ probes schema, p.seen ≤ attrLength schema.attrs p.attr := fun p hp => (hin.fits p hp).2.1
  exact ⟨hin, ints_of_agrees hfloat hseen hagrees, whole_of_agrees hfloat hseen hagrees,
    ordered_of_agrees hfloat hseen hagrees⟩

end Bounds

theorem attrType_ne_float {attrs : List Attribute} (h : ∀ attr ∈ attrs, attr.type ≠ .float) (x : Nat) :
    attrType attrs x ≠ .float := by
  cases hx : attrs[x]? with
  | none =>
    rw [attrType, hx]
    decide
  | some attr =>
    rw [attrType_of hx]
    exact h attr (List.mem_of_getElem? hx)

theorem built_types {attrs : List Attribute} (htypes : ∀ attr ∈ attrs, attr.type ≠ .float)
    {sortingAttr : List Byte} {schema : Schema}
    (hschema : setSchemaSortAttr (mkSchema attrs) sortingAttr = .ok schema) :
    Built schema ∧ ∀ x, attrType schema.attrs x ≠ .float := by
  obtain ⟨hb, hattrs⟩ := sortAttrLoop_built hschema (mkSchema_built attrs)
  refine ⟨hb, ?_⟩
  rw [hattrs]
  exact attrType_ne_float htypes

/-- The comparators compare the requested attributes exactly when the lengths at the positions
of the sort list suit them. -/
theorem comparators_iff (floatCmp : List Byte → List Byte → Int) (attrs : List Attribute)
    (htypes : ∀ attr ∈ attrs, attr.type ≠ .float) (sortingAttr : List Byte) (schema : Schema)
    (hschema : setSchemaSortAttr (mkSchema attrs) sortingAttr = .ok schema) :
    ComparesTuples floatCmp schema ↔ Aligned schema := by
  obtain ⟨hb, hfloat⟩ := built_types htypes hschema
  exact ⟨aligned_of_comparesTuples hb hfloat, comparesTuples_of_aligned hb hfloat⟩

theorem covers_of_whole {type : Nat → AttrType} {len : Nat → Nat} {probes : List Probe}
    (h : ∀ p ∈ probes, p.seen = len p.attr) : Covers type len probes where
  ints p hp _ := .inr (h p hp)
  whole p hp := ⟨p, hp, rfl, h p hp⟩
  ordered before p after hprobes _ _ q hq := by
    have hq := List.takeWhile_subset _ hq
    exact ⟨q, hq, rfl, h q (hprobes ▸ List.mem_append_left _ hq)⟩

/-- For a sort list without repetitions: attribute `i` of the schema is as long as the `i`th
sort attribute. -/
theorem aligned_iff_of_nodup (hnodup : schema.sortAttrs.Nodup) :
    Aligned schema ↔ InBounds schema ∧ ∀ p ∈ probes schema, p.seen = attrLength schema.attrs p.attr := by
  constructor
  · intro h
    refine ⟨h.toInBounds, ?_⟩
    intro p hp
    obtain ⟨q, hq, hattr, hseen⟩ := h.covers.whole p hp
    have hinj := List.inj_on_of_nodup_map
      (show ((probes schema).map Probe.attr).Nodup by rwa [probes, probesFrom_attr])
    rwa [hinj hq hp hattr] at hseen
  · rintro ⟨hin, hwhole⟩
    exact ⟨hin, covers_of_whole hwhole⟩

/-- The attributes of the example schema that are no floats. -/
def studentAttrs : List Attribute := [⟨[110], .string, 9⟩, ⟨[97], .string, 8⟩, ⟨[121], .int, 4⟩]

/-- Sorting on the first attribute compares it. -/
theorem comparators_iff_first :
    setSchemaSortAttr (mkSchema studentAttrs) [110] = .ok { mkSchema studentAttrs with sortAttrs := [0] } ∧
      ComparesTuples (fun _ _ => 0) { mkSchema studentAttrs with sortAttrs := [0] } := by
  refine ⟨rfl, (comparators_iff (fun _ _ => 0) studentAttrs (by decide) [110] _ rfl).mpr ?_⟩
  have hone : ∀ p ∈ probes { mkSchema studentAttrs with sortAttrs := [0] }, p = ⟨0, 9⟩ :=
    fun p hp => List.mem_singleton.mp hp
  refine ⟨⟨by decide, ?_, by decide⟩, covers_of_whole ?_⟩
  · intro p hp
    rw [hone p hp]
    decide
  · intro p hp
    rw [hone p hp]
    rfl

/-- Sorting on the year puts the terminator five bytes behind the copy. -/
theorem year_reads_scratch :
    setSchemaSortAttr (mkSchema studentAttrs) [121] = .ok { mkSchema studentAttrs with sortAttrs := [2] } ∧
      ¬ ComparesTuples (fun _ _ => 0) { mkSchema studentAttrs with sortAttrs := [2] } := by
  refine ⟨rfl, fun h => ?_⟩
  obtain ⟨hb, -⟩ := sortAttrLoop_built (show setSchemaSortAttr (mkSchema studentAttrs) [121] = .ok _ from rfl)
    (mkSchema_built studentAttrs)
  have hin := inBounds_of_comparesTuples hb (attrType_ne_float (by decide)) h
  have hfits := (hin.fits ⟨2, 9⟩ (List.mem_cons_self ..)).2.1
  exact absurd hfits (by decide)

end RecordStore.SortComparators
