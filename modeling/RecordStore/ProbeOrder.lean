import Mathlib.Data.List.TakeWhile
import RecordStore.RecordComparator

namespace RecordStore.ProbeOrder

open RecordStore.ThreeWay RecordStore.CFile RecordStore.CStrings RecordStore.Int32
open RecordStore.RecordSchema RecordStore.RecordComparator

/-- A round of the comparison that looks at the first `seen` bytes of an attribute. -/
structure Probe where
  attr : Nat
  seen : Nat

variable {floatCmp : List Byte → List Byte → Int} {type : Nat → AttrType} {len : Nat → Nat}

def valueCmp (floatCmp : List Byte → List Byte → Int) : AttrType → List Byte → List Byte → Int
  | .int, a, b => atoi a - atoi b
  | .float, a, b => floatCmp a b
  | .string, a, b => strcmp a b

def probeCmp (floatCmp : List Byte → List Byte → Int) (type : Nat → AttrType) (a b : Nat → List Byte)
    (p : Probe) : Int :=
  cmpFn floatCmp (type p.attr) ((a p.attr).take p.seen) ((b p.attr).take p.seen)

def fullCmp (floatCmp : List Byte → List Byte → Int) (type : Nat → AttrType) (a b : Nat → List Byte)
    (p : Probe) : Int :=
  valueCmp floatCmp (type p.attr) (a p.attr) (b p.attr)

/-- Attribute values as long as the schema says, without a NUL. -/
structure Values (len : Nat → Nat) (a : Nat → List Byte) : Prop where
  length : ∀ x, (a x).length = len x
  noNul : ∀ x, (0 : Byte) ∉ a x

/-- The integers compared and their differences are in the range of `int`. -/
def Small (type : Nat → AttrType) (a b : Nat → List Byte) (attrs : List Nat) : Prop :=
  ∀ x ∈ attrs, type x = .int →
    InRange (atoi (a x)) ∧ InRange (atoi (b x)) ∧ InRange (atoi (a x) - atoi (b x))

/-- The probes see integers as a whole or not at all, see every attribute as a whole at some
round, and see nothing new of an attribute before all that precede it in the sort list were
seen as a whole. -/
structure Covers (type : Nat → AttrType) (len : Nat → Nat) (probes : List Probe) : Prop where
  ints : ∀ p ∈ probes, type p.attr = .int → p.seen = 0 ∨ p.seen = len p.attr
  whole : ∀ p ∈ probes, ∃ q ∈ probes, q.attr = p.attr ∧ q.seen = len p.attr
  ordered : ∀ before p after, probes = before ++ p :: after → 0 < p.seen →
    (∀ q ∈ before, q.attr = p.attr → q.seen < p.seen) →
    ∀ q ∈ before.takeWhile (fun q => q.attr ≠ p.attr), ∃ r ∈ before, r.attr = q.attr ∧ r.seen = len q.attr

theorem split_first {α : Type} (f : α → Bool) {x : α} (hx : f x = false) (before after : List α) :
    ∃ y rest, f y = false ∧ before ++ x :: after = before.takeWhile f ++ y :: rest := by
  induction before with
  | nil => exact ⟨x, after, hx, rfl⟩
  | cons z before ih =>
    cases hz : f z with
    | true =>
      obtain ⟨y, rest, hy, heq⟩ := ih
      refine ⟨y, rest, hy, ?_⟩
      rw [List.takeWhile_cons_of_pos hz, List.cons_append, List.cons_append, heq]
    | false =>
      refine ⟨z, before ++ x :: after, hz, ?_⟩
      rw [List.takeWhile_cons_of_neg (by simp [hz])]
      rfl

section Sufficient

variable {probes : List Probe} {a b : Nat → List Byte} (hfloat : ∀ x, type x ≠ .float) (ha : Values len a)
  (hb : Values len b)

include hfloat ha hb

theorem probeCmp_of_whole (floatCmp : List Byte → List Byte → Int) {p : Probe}
    (hsmall : type p.attr = .int → InRange (atoi (a p.attr) - atoi (b p.attr))) (h : p.seen = len p.attr) :
    probeCmp floatCmp type a b p = fullCmp floatCmp type a b p := by
  have hta : (a p.attr).take p.seen = a p.attr := List.take_of_length_le (by rw [ha.length, h])
  have htb : (b p.attr).take p.seen = b p.attr := List.take_of_length_le (by rw [hb.length, h])
  rw [probeCmp, fullCmp, hta, htb]
  cases htype : type p.attr with
  | int => exact toInt32_of_inRange (hsmall htype)
  | float => exact absurd htype (hfloat _)
  | string => rfl

theorem probeCmp_of_ne_zero {p : Probe}
    (hsmall : type p.attr = .int → InRange (atoi (a p.attr) - atoi (b p.attr)))
    (hints : type p.attr = .int → p.seen = 0 ∨ p.seen = len p.attr)
    (h : probeCmp floatCmp type a b p ≠ 0) :
    probeCmp floatCmp type a b p = fullCmp floatCmp type a b p := by
  cases htype : type p.attr with
  | int =>
    obtain hzero | hwhole := hints htype
    · refine absurd ?_ h
      rw [probeCmp, htype, hzero, List.take_zero, List.take_zero]
      exact toInt32_of_inRange (by decide)
    · exact probeCmp_of_whole hfloat ha hb floatCmp hsmall hwhole
  | float => exact absurd htype (hfloat _)
  | string =>
    rw [probeCmp, htype] at h
    rw [probeCmp, fullCmp, htype]
    exact (strcmp_take (by rw [ha.length, hb.length]) h).symm

/-- A probe that sees no more than one before finds no difference if that found none. -/
theorem probeCmp_eq_zero_of_le {p q : Probe} (hattr : q.attr = p.attr)
    (hints : type p.attr = .int → p.seen = 0 ∨ p.seen = len p.attr) (hle : p.seen ≤ q.seen)
    (hq : probeCmp floatCmp type a b q = 0) : probeCmp floatCmp type a b p = 0 := by
  by_contra hp
  cases htype : type p.attr with
  | int =>
    obtain hzero | hwhole := hints htype
    · refine hp ?_
      rw [probeCmp, htype, hzero, List.take_zero, List.take_zero]
      exact toInt32_of_inRange (by decide)
    · refine hp (Eq.trans ?_ hq)
      rw [probeCmp, probeCmp, hattr, List.take_of_length_le (by rw [ha.length]; omega),
        List.take_of_length_le (by rw [hb.length]; omega), List.take_of_length_le (by rw [ha.length]; omega),
        List.take_of_length_le (by rw [hb.length]; omega)]
  | float => exact absurd htype (hfloat _)
  | string =>
    rw [probeCmp, htype] at hp
    rw [probeCmp, hattr, htype] at hq
    have htake : ∀ l : List Byte, l.take p.seen = (l.take q.seen).take p.seen := by
      intro l
      rw [List.take_take, Nat.min_eq_left hle]
    have hlen : ((a p.attr).take q.seen).length = ((b p.attr).take q.seen).length := by
      rw [List.length_take, List.length_take, ha.length, hb.length]
    rw [htake, htake (b p.attr)] at hp
    exact hp ((strcmp_take hlen hp).symm.trans hq)

theorem firstNonzero_probes (floatCmp : List Byte → List Byte → Int)
    (hsmall : Small type a b (probes.map Probe.attr)) (h : Covers type len probes) :
    firstNonzero (probes.map (probeCmp floatCmp type a b)) =
      firstNonzero (probes.map (fullCmp floatCmp type a b)) := by
  have hsmall : ∀ p ∈ probes, type p.attr = .int → InRange (atoi (a p.attr) - atoi (b p.attr)) :=
    fun p hp htype => (hsmall p.attr (List.mem_map_of_mem hp) htype).2.2
  by_cases hzero : firstNonzero (probes.map (probeCmp floatCmp type a b)) = 0
  · have hall : ∀ p ∈ probes, probeCmp floatCmp type a b p = 0 := by
      simpa using firstNonzero_eq_zero.mp hzero
    rw [hzero, eq_comm, firstNonzero_eq_zero]
    intro c hc
    obtain ⟨p, hp, rfl⟩ := List.mem_map.mp hc
    obtain ⟨q, hq, hattr, hwhole⟩ := h.whole p hp
    have hfull := probeCmp_of_whole hfloat ha hb floatCmp (hsmall q hq) (hattr ▸ hwhole : q.seen = len q.attr)
    rw [hall q hq] at hfull
    rw [fullCmp, ← hattr]
    exact hfull.symm
  · obtain ⟨before, p, after, rfl, hbefore, hne, heq⟩ := exists_first_nonzero _ hzero
    have hp : p ∈ before ++ p :: after := List.mem_append_right _ (List.mem_cons_self ..)
    have hints := h.ints p hp
    have hpos : 0 < p.seen := by
      apply Nat.pos_of_ne_zero
      intro hseen
      apply hne
      have hnone : probeCmp floatCmp type a b p = cmpFn floatCmp (type p.attr) [] [] := by
        rw [probeCmp, hseen, List.take_zero, List.take_zero]
      rw [hnone]
      cases htype : type p.attr with
      | int => exact toInt32_of_inRange (by decide)
      | float => exact absurd htype (hfloat _)
      | string => rfl
    have hnew : ∀ q ∈ before, q.attr = p.attr → q.seen < p.seen := by
      intro q hq hattr
      by_contra hle
      exact hne (probeCmp_eq_zero_of_le hfloat ha hb hattr hints (Nat.not_lt.mp hle) (hbefore q hq))
    -- all that stands before the first round on this attribute is equal
    have hprev : ∀ q ∈ before.takeWhile (fun q => q.attr ≠ p.attr), fullCmp floatCmp type a b q = 0 := by
      intro q hq
      obtain ⟨r, hr, hattr, hwhole⟩ := h.ordered before p after rfl hpos hnew q hq
      have hfull := probeCmp_of_whole hfloat ha hb floatCmp (hsmall r (List.mem_append_left _ hr))
        (hattr ▸ hwhole : r.seen = len r.attr)
      rw [hbefore r hr] at hfull
      rw [fullCmp, ← hattr]
      exact hfull.symm
    have hfull := probeCmp_of_ne_zero hfloat ha hb (hsmall p hp) hints hne
    rw [heq, hfull]
    have hfullne : fullCmp floatCmp type a b p ≠ 0 := hfull ▸ hne
    have hsame : ∀ q, q.attr = p.attr → fullCmp floatCmp type a b q = fullCmp floatCmp type a b p := by
      intro q hq
      rw [fullCmp, fullCmp, hq]
    obtain ⟨q, rest, hq, hsplit⟩ := split_first (fun q => decide (q.attr ≠ p.attr))
      (show decide (p.attr ≠ p.attr) = false by simp) before after
    have hq : q.attr = p.attr := by simpa using hq
    rw [hsplit, List.map_append, List.map_cons, firstNonzero_append, firstNonzero_cons_of_ne, hsame q hq]
    · rw [hsame q hq]
      exact hfullne
    · intro c hc
      obtain ⟨q, hq, rfl⟩ := List.mem_map.mp hc
      exact hprev q hq

end Sufficient

/-- The comparison by probes has the sign of the comparison of whole values. -/
def Agrees (floatCmp : List Byte → List Byte → Int) (type : Nat → AttrType) (len : Nat → Nat)
    (probes : List Probe) : Prop :=
  ∀ a b, Values len a → Values len b → Small type a b (probes.map Probe.attr) →
    (firstNonzero (probes.map (probeCmp floatCmp type a b)) < 0 ↔
      firstNonzero (probes.map (fullCmp floatCmp type a b)) < 0) ∧
    (firstNonzero (probes.map (probeCmp floatCmp type a b)) = 0 ↔
      firstNonzero (probes.map (fullCmp floatCmp type a b)) = 0)

section Necessary

theorem cmpFn_self {t : AttrType} (ht : t ≠ .float) (v : List Byte) : cmpFn floatCmp t v v = 0 := by
  cases t with
  | int =>
    rw [cmpFn, intCmp, Int.sub_self]
    exact toInt32_of_inRange (by decide)
  | float => exact absurd rfl ht
  | string => exact strcmp_self v

theorem valueCmp_self {t : AttrType} (ht : t ≠ .float) (v : List Byte) : valueCmp floatCmp t v v = 0 := by
  cases t with
  | int => exact Int.sub_self _
  | float => exact absurd rfl ht
  | string => exact strcmp_self v

theorem cmpFn_digits {t : AttrType} (ht : t ≠ .float) (n k : Nat) :
    cmpFn floatCmp t (mark n k 49) (mark n k 48) = 1 := by
  cases t with
  | int =>
    rw [cmpFn, intCmp, atoi_mark_zero, atoi_mark_one]
    exact toInt32_of_inRange (by decide)
  | float => exact absurd rfl ht
  | string => exact strcmp_mark _ _ (by decide)

theorem valueCmp_digits {t : AttrType} (ht : t ≠ .float) (n k : Nat) :
    valueCmp floatCmp t (mark n k 48) (mark n k 49) = -1 := by
  cases t with
  | int => rw [valueCmp, atoi_mark_zero, atoi_mark_one, Int.zero_sub]
  | float => exact absurd rfl ht
  | string => exact strcmp_mark _ _ (by decide)

def blanks (len : Nat → Nat) (x : Nat) : List Byte := List.replicate (len x) 32

theorem blanks_values (len : Nat → Nat) : Values len (blanks len) where
  length x := List.length_replicate
  noNul x h := absurd (List.eq_of_mem_replicate h) (by decide)

def put (len : Nat → Nat) (x k : Nat) (c : Byte) (a : Nat → List Byte) : Nat → List Byte :=
  Function.update a x (mark (len x) k c)

theorem put_self (x k : Nat) (c : Byte) (a : Nat → List Byte) : put len x k c a x = mark (len x) k c :=
  Function.update_self ..

theorem put_of_ne {x y : Nat} (h : y ≠ x) (k : Nat) (c : Byte) (a : Nat → List Byte) : put len x k c a y = a y :=
  Function.update_of_ne h ..

theorem Values.put {a : Nat → List Byte} (ha : Values len a) {x k : Nat} (hk : k < len x) {c : Byte} (hc : c ≠ 0) :
    Values len (put len x k c a) := by
  constructor
  · intro y
    by_cases hy : y = x
    · rw [hy, put_self, mark_length hk]
    · rw [put_of_ne hy, ha.length]
  · intro y
    by_cases hy : y = x
    · rw [hy, put_self]
      exact zero_not_mem_mark _ _ hc
    · rw [put_of_ne hy]
      exact ha.noNul y

def Bits (a : Nat → List Byte) : Prop := ∀ x, atoi (a x) = 0 ∨ atoi (a x) = 1

theorem blanks_bits (len : Nat → Nat) : Bits (blanks len) := fun x => .inl (atoi_all_blank (len x))

theorem Bits.put {a : Nat → List Byte} (ha : Bits a) (x k : Nat) {c : Byte} (hc : c = 48 ∨ c = 49) :
    Bits (put len x k c a) := by
  intro y
  by_cases hy : y = x
  · rw [hy, put_self]
    obtain rfl | rfl := hc
    · exact .inl (atoi_mark_zero ..)
    · exact .inr (atoi_mark_one ..)
  · rw [put_of_ne hy]
    exact ha y

theorem Bits.small {a b : Nat → List Byte} (ha : Bits a) (hb : Bits b) (attrs : List Nat) :
    Small type a b attrs := by
  intro x _ _
  obtain h | h := ha x <;> obtain h' | h' := hb x <;> rw [h, h'] <;> decide

variable {probes : List Probe} (hfloat : ∀ x, type x ≠ .float) (hseen : ∀ p ∈ probes, p.seen ≤ len p.attr)
  (h : Agrees floatCmp type len probes)

include hfloat hseen h

theorem ints_of_agrees : ∀ p ∈ probes, type p.attr = .int → p.seen = 0 ∨ p.seen = len p.attr := by
  intro p hp htype
  by_contra hnot
  have hle := hseen p hp
  have hlt : p.seen < len p.attr := by omega
  have hpos : 0 < p.seen := by omega
  -- both are the number 1, but only one shows it in the first `p.seen` bytes
  have hagree := h (put len p.attr 0 49 (blanks len)) (put len p.attr (len p.attr - 1) 49 (blanks len))
    ((blanks_values len).put (by omega) (by decide)) ((blanks_values len).put (by omega) (by decide))
    (((blanks_bits len).put _ _ (.inr rfl)).small ((blanks_bits len).put _ _ (.inr rfl)) _)
  have hfull : ∀ c ∈ probes.map (fullCmp floatCmp type (put len p.attr 0 49 (blanks len))
      (put len p.attr (len p.attr - 1) 49 (blanks len))), c = 0 := by
    intro c hc
    obtain ⟨q, -, rfl⟩ := List.mem_map.mp hc
    by_cases hq : q.attr = p.attr
    · rw [fullCmp, hq, htype, put_self, put_self, valueCmp, atoi_mark_one, atoi_mark_one, Int.sub_self]
    · rw [fullCmp, put_of_ne hq, put_of_ne hq, valueCmp_self (hfloat _)]
  have hzero := firstNonzero_eq_zero.mp (hagree.2.mpr (firstNonzero_eq_zero.mpr hfull)) _ (List.mem_map_of_mem hp)
  rw [probeCmp, htype, put_self, put_self, take_mark_of_lt hpos hle, take_mark_of_le (by omega), cmpFn, intCmp,
    atoi_mark_one, atoi_all_blank, toInt32_of_inRange (by decide)] at hzero
  exact absurd hzero (by decide)

theorem whole_of_agrees : ∀ p ∈ probes, ∃ q ∈ probes, q.attr = p.attr ∧ q.seen = len p.attr := by
  intro p hp
  by_contra hnot
  have hlt : ∀ q ∈ probes, q.attr = p.attr → q.seen < len p.attr := by
    intro q hq hattr
    have hle := hseen q hq
    rw [hattr] at hle
    exact Nat.lt_of_le_of_ne hle (fun he => hnot ⟨q, hq, hattr, he⟩)
  have hpos := hlt p hp rfl
  -- a difference in the last byte is never seen
  have hagree := h (put len p.attr (len p.attr - 1) 48 (blanks len))
    (put len p.attr (len p.attr - 1) 49 (blanks len))
    ((blanks_values len).put (by omega) (by decide)) ((blanks_values len).put (by omega) (by decide))
    (((blanks_bits len).put _ _ (.inl rfl)).small ((blanks_bits len).put _ _ (.inr rfl)) _)
  have hprobe : ∀ c ∈ probes.map (probeCmp floatCmp type (put len p.attr (len p.attr - 1) 48 (blanks len))
      (put len p.attr (len p.attr - 1) 49 (blanks len))), c = 0 := by
    intro c hc
    obtain ⟨q, hq, rfl⟩ := List.mem_map.mp hc
    by_cases hattr : q.attr = p.attr
    · have hq := hlt q hq hattr
      rw [probeCmp, hattr, put_self, put_self, take_mark_of_le (by omega), take_mark_of_le (by omega),
        cmpFn_self (hfloat _)]
    · rw [probeCmp, put_of_ne hattr, put_of_ne hattr, cmpFn_self (hfloat _)]
  have hzero := firstNonzero_eq_zero.mp (hagree.2.mp (firstNonzero_eq_zero.mpr hprobe)) _ (List.mem_map_of_mem hp)
  rw [fullCmp, put_self, put_self, valueCmp_digits (hfloat _)] at hzero
  exact absurd hzero (by decide)

/-- Something new is seen of attribute `x` while `y`, which precedes it, was not seen as a
whole: then they can differ in opposite directions. -/
theorem ordered_of_agrees : ∀ before p after, probes = before ++ p :: after → 0 < p.seen →
    (∀ q ∈ before, q.attr = p.attr → q.seen < p.seen) →
    ∀ q ∈ before.takeWhile (fun q => q.attr ≠ p.attr),
      ∃ r ∈ before, r.attr = q.attr ∧ r.seen = len q.attr := by
  intro before p after hprobes hpos hnew q hq
  by_contra hnot
  have hq' : q ∈ before := List.takeWhile_subset _ hq
  have hne : ∀ r ∈ before.takeWhile (fun q => q.attr ≠ p.attr), r.attr ≠ p.attr := by
    intro r hr
    simpa using List.mem_takeWhile_imp hr
  have hyx := hne q hq
  have hle : p.seen ≤ len p.attr := hseen p (by simp [hprobes])
  have hlt : ∀ r ∈ before, r.attr = q.attr → r.seen < len q.attr := by
    intro r hr hattr
    have hle := hseen r (by simp [hprobes, hr])
    rw [hattr] at hle
    exact Nat.lt_of_le_of_ne hle (fun he => hnot ⟨r, hr, hattr, he⟩)
  have hlen := hlt q hq' rfl
  let a := put len p.attr (p.seen - 1) 49 (put len q.attr (len q.attr - 1) 48 (blanks len))
  let b := put len p.attr (p.seen - 1) 48 (put len q.attr (len q.attr - 1) 49 (blanks len))
  have hax : a p.attr = mark (len p.attr) (p.seen - 1) 49 := put_self ..
  have hbx : b p.attr = mark (len p.attr) (p.seen - 1) 48 := put_self ..
  have hay : a q.attr = mark (len q.attr) (len q.attr - 1) 48 := (put_of_ne hyx ..).trans (put_self ..)
  have hby : b q.attr = mark (len q.attr) (len q.attr - 1) 49 := (put_of_ne hyx ..).trans (put_self ..)
  have hab : ∀ z, z ≠ p.attr → z ≠ q.attr → a z = b z := by
    intro z hzx hzy
    rw [show a z = blanks len z from (put_of_ne hzx ..).trans (put_of_ne hzy ..),
      show b z = blanks len z from (put_of_ne hzx ..).trans (put_of_ne hzy ..)]
  have hagree := h a b
    (((blanks_values len).put (by omega) (by decide)).put (by omega) (by decide))
    (((blanks_values len).put (by omega) (by decide)).put (by omega) (by decide))
    ((((blanks_bits len).put _ _ (.inl rfl)).put _ _ (.inr rfl)).small
      (((blanks_bits len).put _ _ (.inr rfl)).put _ _ (.inl rfl)) _)
  -- the rounds before `p` see no difference, so `p` decides
  have hbefore : ∀ c ∈ before.map (probeCmp floatCmp type a b), c = 0 := by
    intro c hc
    obtain ⟨r, hr, rfl⟩ := List.mem_map.mp hc
    rw [probeCmp]
    by_cases hx : r.attr = p.attr
    · have hr := hnew r hr hx
      rw [hx, hax, hbx, take_mark_of_le (by omega), take_mark_of_le (by omega), cmpFn_self (hfloat _)]
    · by_cases hy : r.attr = q.attr
      · have hr := hlt r hr hy
        rw [hy, hay, hby, take_mark_of_le (by omega), take_mark_of_le (by omega), cmpFn_self (hfloat _)]
      · rw [hab _ hx hy, cmpFn_self (hfloat _)]
  have hp : probeCmp floatCmp type a b p = 1 := by
    rw [probeCmp, hax, hbx, take_mark_of_lt (by omega) hle, take_mark_of_lt (by omega) hle, cmpFn_digits (hfloat _)]
  have hprobe : firstNonzero (probes.map (probeCmp floatCmp type a b)) = 1 := by
    rw [hprobes, List.map_append, firstNonzero_append hbefore, List.map_cons,
      firstNonzero_cons_of_ne (by rw [hp]; decide), hp]
  -- among the whole values `q` decides
  have hfull : firstNonzero (probes.map (fullCmp floatCmp type a b)) = -1 := by
    have hone : ∀ r ∈ before.takeWhile (fun q => decide (q.attr ≠ p.attr)),
        fullCmp floatCmp type a b r = 0 ∨ fullCmp floatCmp type a b r = -1 := by
      intro r hr
      rw [fullCmp]
      by_cases hy : r.attr = q.attr
      · rw [hy, hay, hby, valueCmp_digits (hfloat _)]
        exact .inr rfl
      · rw [hab _ (hne r hr) hy, valueCmp_self (hfloat _)]
        exact .inl rfl
    have hnz : firstNonzero ((before.takeWhile (fun q => decide (q.attr ≠ p.attr))).map
        (fullCmp floatCmp type a b)) ≠ 0 := by
      intro hz
      have hq := firstNonzero_eq_zero.mp hz _ (List.mem_map_of_mem hq)
      rw [fullCmp, hay, hby, valueCmp_digits (hfloat _)] at hq
      exact absurd hq (by decide)
    obtain ⟨x, r, y, hsplit, -, hr, heq⟩ := exists_first_nonzero _ hnz
    have hmem : r ∈ before.takeWhile (fun q => decide (q.attr ≠ p.attr)) := by
      rw [hsplit]
      exact List.mem_append_right _ (List.mem_cons_self ..)
    have hr := (hone r hmem).resolve_left hr
    rw [hprobes, ← List.takeWhile_append_dropWhile (p := fun q => decide (q.attr ≠ p.attr)) (l := before),
      List.append_assoc, List.map_append, firstNonzero_append_of_ne hnz, heq, hr]
  rw [hprobe, hfull] at hagree
  exact absurd (hagree.1.mpr (by decide)) (by decide)

end Necessary

end RecordStore.ProbeOrder
