import RecordStore.RecordLayout

namespace RecordStore.ScratchCompare

open RecordStore.ThreeWay RecordStore.Splice RecordStore.CFile RecordStore.CText RecordStore.CStrings
open RecordStore.Int32 RecordStore.Outcome RecordStore.RecordSchema RecordStore.RecordComparator
open RecordStore.ProbeOrder RecordStore.RecordLayout

structure Holds (schema : Schema) (data : List Byte) : Prop where
  length : data.length = schema.recordSize
  noNul : ∀ x, (0 : Byte) ∉ attrValue schema.attrs data x

/-- The rounds of the comparison: the sort attribute, and the length of the attribute at the
same position in the schema. -/
def probesFrom (attrs : List Attribute) : List Nat → Nat → List Probe
  | [], _ => []
  | s :: sortAttrs, i => ⟨s, attrLength attrs i⟩ :: probesFrom attrs sortAttrs (i + 1)

def probes (schema : Schema) : List Probe := probesFrom schema.attrs schema.sortAttrs 0

theorem probesFrom_attr (attrs : List Attribute) (l : List Nat) (i : Nat) :
    (probesFrom attrs l i).map Probe.attr = l := by
  induction l generalizing i with
  | nil => rfl
  | cons s l ih => rw [probesFrom, List.map_cons, ih]

theorem mem_probesFrom (attrs : List Attribute) {l : List Nat} {j s : Nat} (h : l[j]? = some s) (i : Nat) :
    ⟨s, attrLength attrs (i + j)⟩ ∈ probesFrom attrs l i := by
  induction l generalizing i j with
  | nil => cases h
  | cons t l ih =>
    cases j with
    | zero =>
      obtain rfl : t = s := by simpa using h
      exact List.mem_cons_self ..
    | succ j =>
      have hrest := ih (by simpa using h) (i + 1)
      rw [Nat.add_assoc, Nat.add_comm 1 j] at hrest
      exact List.mem_cons_of_mem _ hrest

theorem exists_of_mem_probesFrom (attrs : List Attribute) {l : List Nat} {i : Nat} {p : Probe}
    (h : p ∈ probesFrom attrs l i) : ∃ j s, l[j]? = some s ∧ p = ⟨s, attrLength attrs (i + j)⟩ := by
  induction l generalizing i with
  | nil => cases h
  | cons t l ih =>
    obtain rfl | h := List.mem_cons.mp h
    · exact ⟨0, t, rfl, rfl⟩
    · obtain ⟨j, s, hs, rfl⟩ := ih h
      refine ⟨j + 1, s, by simpa using hs, ?_⟩
      rw [Nat.add_assoc, Nat.add_comm 1 j]

section Loop

variable {floatCmp : List Byte → List Byte → Int} {schema : Schema} {scratch : Scratch} {a b : List Byte}

theorem compareLoop_eq {f : Probe → Int} {l : List Nat} {i : Nat}
    (h : ∀ j s, l[j]? = some s →
      compareAt floatCmp schema scratch a b s (i + j) = .ok (f ⟨s, attrLength schema.attrs (i + j)⟩)) :
    compareLoop floatCmp schema scratch a b l i = .ok (firstNonzero ((probesFrom schema.attrs l i).map f)) := by
  induction l generalizing i with
  | nil => rfl
  | cons s l ih =>
    have hrest : ∀ j t, l[j]? = some t →
        compareAt floatCmp schema scratch a b t (i + 1 + j) = .ok (f ⟨t, attrLength schema.attrs (i + 1 + j)⟩) := by
      intro j t ht
      have := h (j + 1) t (by simpa using ht)
      rwa [Nat.add_comm j 1, ← Nat.add_assoc] at this
    have hfirst := h 0 s rfl
    rw [Nat.add_zero] at hfirst
    rw [compareLoop, hfirst, ok_bind, ih hrest, probesFrom, List.map_cons, firstNonzero]
    split <;> rfl

theorem compareAt_of_loop {l : List Nat} {i : Nat} (h : compareLoop floatCmp schema scratch a b l i = .ok 0)
    {j s : Nat} (hs : l[j]? = some s) : compareAt floatCmp schema scratch a b s (i + j) = .ok 0 := by
  induction l generalizing i j with
  | nil => cases hs
  | cons t l ih =>
    rw [compareLoop] at h
    obtain ⟨cmp, hcmp, h⟩ := bind_eq_ok.mp h
    obtain rfl : cmp = 0 := by
      by_contra hne
      rw [if_pos hne] at h
      exact hne (Except.ok.inj h)
    cases j with
    | zero =>
      obtain rfl : t = s := by simpa using hs
      exact hcmp
    | succ j =>
      have hrest := ih h (by simpa using hs)
      rwa [Nat.add_assoc, Nat.add_comm 1 j] at hrest

theorem exists_compareAt {l : List Nat} {i : Nat} {cmp : Int}
    (h : compareLoop floatCmp schema scratch a b l i = .ok cmp) (hne : cmp ≠ 0) :
    ∃ j s, l[j]? = some s ∧ compareAt floatCmp schema scratch a b s (i + j) = .ok cmp := by
  induction l generalizing i with
  | nil => exact absurd (Except.ok.inj h).symm hne
  | cons t l ih =>
    rw [compareLoop] at h
    obtain ⟨c, hc, h⟩ := bind_eq_ok.mp h
    split at h
    · obtain rfl := Except.ok.inj h
      exact ⟨0, t, rfl, hc⟩
    · obtain ⟨j, s, hs, hj⟩ := ih h
      refine ⟨j + 1, s, by simpa using hs, ?_⟩
      rwa [Nat.add_assoc, Nat.add_comm 1 j] at hj

end Loop

theorem entry_eq_ok {α : Type} {v : List α} {i : Nat} {x : α} : entry v i = .ok x ↔ v[i]? = some x := by
  rw [entry]
  cases v[i]? <;> simp

theorem cstr_set {l : List Byte} {t : Nat} (ht : t < l.length) (h : (0 : Byte) ∉ l.take t) :
    cstr (l.set t 0) = l.take t := by
  have htake : ∀ x ∈ l.take t, decide (x ≠ 0) = true := by
    intro x hx
    exact decide_eq_true (fun h0 => h (h0 ▸ hx))
  rw [cstr, List.set_eq_take_append_cons_drop, if_pos ht, List.takeWhile_append_of_pos htake,
    List.takeWhile_cons_of_neg (by simp), List.append_nil]

theorem loadAttr_ok {schema : Schema} {data scratch : List Byte} {s i : Nat} {x : List Byte}
    (h : loadAttr schema data scratch s i = .ok x) :
    ∃ offset attr attrI, schema.dataOffset[s]? = some offset ∧ schema.attrs[s]? = some attr ∧
      schema.attrs[i]? = some attrI ∧ attr.length ≤ scratchSize ∧ attrI.length < scratchSize ∧
      (attr.length = 0 ∨ (0 ≤ offset ∧ offset + attr.length ≤ data.length)) ∧
      x = cstr ((splice scratch 0 (slice data offset.toNat attr.length)).set attrI.length 0) := by
  rw [loadAttr] at h
  obtain ⟨offset, hoffset, h⟩ := bind_eq_ok.mp h
  obtain ⟨attr, hattr, h⟩ := bind_eq_ok.mp h
  obtain ⟨value, hvalue, h⟩ := bind_eq_ok.mp h
  split at h
  case isFalse => cases h
  case isTrue hfit =>
    obtain ⟨attrI, hattrI, h⟩ := bind_eq_ok.mp h
    split at h
    case isFalse => cases h
    case isTrue hterm =>
      rw [copyFrom] at hvalue
      split at hvalue
      case isFalse => cases hvalue
      case isTrue hread =>
        obtain rfl := Except.ok.inj hvalue
        exact ⟨offset, attr, attrI, entry_eq_ok.mp hoffset, entry_eq_ok.mp hattr, entry_eq_ok.mp hattrI, hfit,
          hterm, hread, (Except.ok.inj h).symm⟩

theorem compareAt_ok {floatCmp : List Byte → List Byte → Int} {schema : Schema} {scratch : Scratch}
    {a b : List Byte} {s i : Nat} {cmp : Int} (h : compareAt floatCmp schema scratch a b s i = .ok cmp) :
    ∃ x y attr, loadAttr schema a (scratch.lhs i) s i = .ok x ∧ loadAttr schema b (scratch.rhs i) s i = .ok y ∧
      schema.attrs[s]? = some attr ∧ cmp = cmpFn floatCmp attr.type x y := by
  obtain ⟨x, hx, h⟩ := bind_eq_ok.mp h
  obtain ⟨y, hy, h⟩ := bind_eq_ok.mp h
  obtain ⟨attr, hattr, h⟩ := bind_eq_ok.mp h
  exact ⟨x, y, attr, hx, hy, entry_eq_ok.mp hattr, (Except.ok.inj h).symm⟩

def junk (n : Nat) (c : Byte) : List Byte :=
  List.replicate n 0 ++ c :: List.replicate (scratchSize - n - 1) 0

theorem junk_length {n : Nat} (h : n < scratchSize) (c : Byte) : (junk n c).length = scratchSize := by
  simp only [junk, List.length_append, List.length_cons, List.length_replicate]
  omega

theorem cstr_junk {n t : Nat} (hn : n < t) (ht : t < scratchSize) {c : Byte} (hc : c ≠ 0) :
    cstr ((splice (junk n c) 0 (List.replicate n 32)).set t 0) = mark (n + 1) n c := by
  obtain ⟨d, rfl⟩ := Nat.exists_eq_add_of_lt hn
  have hsplice : splice (junk n c) 0 (List.replicate n 32) =
      List.replicate n 32 ++ c :: List.replicate (scratchSize - n - 1) 0 := by
    rw [splice, List.take_zero, List.nil_append, List.length_replicate, Nat.zero_add, junk,
      List.drop_left' List.length_replicate]
  have hset : (List.replicate n (32 : Byte) ++ c :: List.replicate (scratchSize - n - 1) 0).set (n + d + 1) 0 =
      List.replicate n 32 ++ c :: List.replicate (scratchSize - n - 1) 0 := by
    rw [List.set_append_right _ _ (by rw [List.length_replicate]; omega), List.length_replicate,
      show n + d + 1 - n = d + 1 by omega, List.set_cons_succ, List.set_replicate_self]
  have hblank : ∀ x ∈ List.replicate n (32 : Byte), decide (x ≠ 0) = true := by
    intro x hx
    rw [List.eq_of_mem_replicate hx]
    rfl
  have hzeros : (List.replicate (scratchSize - n - 1) (0 : Byte)).takeWhile (fun b => decide (b ≠ 0)) = [] := by
    cases scratchSize - n - 1 with
    | zero => rfl
    | succ m => rfl
  rw [hsplice, hset, cstr, List.takeWhile_append_of_pos hblank, List.takeWhile_cons_of_pos (by simpa using hc), hzeros,
    mark, Nat.add_sub_cancel_left, Nat.sub_self, List.replicate_zero]

theorem slice_eq_of_take {l l' : List Byte} {n : Nat} (h : l.take n = l'.take n) {o k : Nat} (hk : o + k ≤ n) :
    slice l o k = slice l' o k := by
  have hcut : ∀ m : List Byte, slice m o k = slice (m.take n) o k := by
    intro m
    rw [slice, slice, List.drop_take, List.take_take, Nat.min_eq_left (by omega)]
  rw [hcut, h, ← hcut]

section Load

variable {schema : Schema} (hb : Built schema)

include hb

theorem getAttr_eq {s : Nat} {attr : Attribute} (hs : schema.attrs[s]? = some attr) :
    getAttr s schema = .ok (toInt32 (attrOffset schema.attrs s)) := by
  have hzero : toInt32 0 = 0 := toInt32_of_inRange (by decide)
  have h := offsetsLoop_getElem? hs 0
  rw [hzero, ← hb.offsets, Int.zero_add] at h
  exact entry_eq_ok.mpr h

theorem loadAttr_eq {data scratch : List Byte} {s i : Nat} {attr attrI : Attribute}
    (hs : schema.attrs[s]? = some attr) (hi : schema.attrs[i]? = some attrI) (hfit : attr.length ≤ scratchSize)
    (hterm : attrI.length < scratchSize) (hle : attrI.length ≤ attr.length)
    (hoffset : attr.length = 0 ∨ attrOffset schema.attrs s < 2 ^ 31) (hdata : Holds schema data)
    (hscratch : scratch.length = scratchSize) :
    loadAttr schema data scratch s i = .ok ((attrValue schema.attrs data s).take attrI.length) := by
  have hvalue : attrValue schema.attrs data s = slice data (attrOffset schema.attrs s) attr.length := by
    rw [attrValue, attrLength_of hs]
  have hbound := attrOffset_bound hs
  rw [← hb.size, ← hdata.length] at hbound
  have hcopy : copyFrom data (toInt32 (attrOffset schema.attrs s)) attr.length =
      .ok (attrValue schema.attrs data s) := by
    rw [copyFrom, hvalue]
    obtain hzero | hlt := hoffset
    · rw [if_pos (.inl hzero), hzero, slice, slice, List.take_zero, List.take_zero]
    · rw [toInt32_of_inRange ⟨by omega, by omega⟩, if_pos (.inr ⟨by omega, by omega⟩), Int.toNat_natCast]
  have hlen : (attrValue schema.attrs data s).length = attr.length := by
    rw [hvalue, slice_length_of_le (by omega)]
  have htake : (splice scratch 0 (attrValue schema.attrs data s)).take attrI.length =
      (attrValue schema.attrs data s).take attrI.length := by
    rw [splice, List.take_zero, List.nil_append, List.take_append_of_le_length (by omega)]
  rw [loadAttr, getAttr_eq hb hs, ok_bind, entry_eq_ok.mpr hs, ok_bind, hcopy, ok_bind, if_pos hfit,
    entry_eq_ok.mpr hi, ok_bind, if_pos hterm, cstr_set, htake]
  · rw [splice_length (by omega), hscratch]
    exact hterm
  · rw [htake]
    exact fun h => hdata.noNul s (List.mem_of_mem_take h)

end Load

end RecordStore.ScratchCompare
