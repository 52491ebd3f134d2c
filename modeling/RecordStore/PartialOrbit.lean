import Mathlib.Data.Finset.Card
import Mathlib.Dynamics.PeriodicPts.Defs
import Mathlib.Tactic

namespace RecordStore.PartialOrbit

open Function

variable {α : Type} {f : α → Option α} {x y z : α} {m n i j : Nat}

/-- The point reached from `x` in `n` steps of a partial function. -/
def orbit (f : α → Option α) (x : α) (n : Nat) : Option α := (fun o => o.bind f)^[n] (some x)

@[simp] theorem orbit_zero (f : α → Option α) (x : α) : orbit f x 0 = some x := rfl

theorem orbit_succ (f : α → Option α) (x : α) (n : Nat) : orbit f x (n + 1) = (orbit f x n).bind f :=
  iterate_succ_apply' _ _ _

theorem orbit_add (f : α → Option α) (x : α) (m n : Nat) :
    orbit f x (m + n) = (fun o => o.bind f)^[n] (orbit f x m) := by
  rw [orbit, Nat.add_comm, iterate_add_apply]
  rfl

theorem orbit_none_of_le (h : orbit f x m = none) (hle : m ≤ n) : orbit f x n = none := by
  obtain ⟨k, rfl⟩ := Nat.exists_eq_add_of_le hle
  rw [orbit_add, h]
  exact iterate_fixed rfl k

theorem orbit_some_of_le (h : orbit f x n = some y) (hle : m ≤ n) : ∃ z, orbit f x m = some z := by
  cases hm : orbit f x m with
  | some z => exact ⟨z, rfl⟩
  | none =>
    rw [orbit_none_of_le hm hle] at h
    cases h

theorem step_of_succ (h : orbit f x n = some y) (h' : orbit f x (n + 1) = some z) : f y = some z := by
  rwa [orbit_succ, h] at h'

/-- The orbit comes to a point where the function is not defined. -/
def Ends (f : α → Option α) (x : α) : Prop := ∃ n, orbit f x n = none

/-- The orbit comes to no point twice. -/
def Simple (f : α → Option α) (x : α) : Prop :=
  ∀ i j y, orbit f x i = some y → orbit f x j = some y → i = j

theorem Ends.last (h : Ends f x) : ∃ n y, orbit f x n = some y ∧ f y = none := by
  obtain ⟨n, hn⟩ := h
  induction n with
  | zero => cases hn
  | succ n ih =>
    cases hy : orbit f x n with
    | none => exact ih hy
    | some y =>
      rw [orbit_succ, hy] at hn
      exact ⟨n, y, hy, hn⟩

theorem not_ends_of_again (hi : orbit f x i = some y) (hj : orbit f x j = some y) (hlt : i < j) :
    ¬ Ends f x := by
  rintro ⟨n, hn⟩
  have hperiod : IsPeriodicPt (fun o : Option α => o.bind f) (j - i) (some y) := by
    have h := orbit_add f x i (j - i)
    rw [Nat.add_sub_cancel' hlt.le, hi, hj] at h
    exact h.symm
  have hagain : orbit f x (i + (j - i) * n) = some y := by
    rw [orbit_add, hi]
    exact hperiod.mul_const n
  have hle : n ≤ i + (j - i) * n := Nat.le_add_left_of_le (Nat.le_mul_of_pos_left n (by omega))
  rw [orbit_none_of_le hn hle] at hagain
  cases hagain

theorem Ends.simple (h : Ends f x) : Simple f x := by
  intro i j y hi hj
  obtain hlt | heq | hgt := Nat.lt_trichotomy i j
  · exact absurd h (not_ends_of_again hi hj hlt)
  · exact heq
  · exact absurd h (not_ends_of_again hj hi hgt)

theorem Simple.length_le (h : Simple f x) {s : Finset α} {n : Nat}
    (hs : ∀ i < n, ∃ y ∈ s, orbit f x i = some y) : n ≤ s.card := by
  by_contra hlt
  have : Nonempty α := ⟨x⟩
  choose! p hmem hp using hs
  obtain ⟨i, hi, j, hj, hne, heq⟩ := Finset.exists_ne_map_eq_of_card_lt_of_maps_to
    (s := Finset.range n) (t := s) (f := p) (by rw [Finset.card_range]; omega)
    (fun i hi => hmem i (Finset.mem_range.mp hi))
  rw [Finset.mem_range] at hi hj
  exact hne (h i j (p i) (hp i hi) (heq ▸ hp j hj))

/-- A function that is defined on finitely many points only has orbits that end or repeat. -/
theorem Simple.ends (h : Simple f x) {s : Finset α} (hs : ∀ y z, f y = some z → y ∈ s) : Ends f x := by
  refine ⟨s.card + 1, ?_⟩
  cases hn : orbit f x (s.card + 1) with
  | none => rfl
  | some z =>
    refine absurd (h.length_le (s := s) (n := s.card + 1) (fun i hi => ?_)) (by omega)
    obtain ⟨y, hy⟩ := orbit_some_of_le hn hi.le
    obtain ⟨y', hy'⟩ := orbit_some_of_le hn (Nat.succ_le_of_lt hi)
    exact ⟨y, hs y y' (step_of_succ hy hy'), hy⟩

end RecordStore.PartialOrbit
