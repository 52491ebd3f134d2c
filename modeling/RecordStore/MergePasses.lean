import RecordStore.Splice
import RecordStore.KMerge

namespace RecordStore.MergePasses

open RecordStore.Splice RecordStore.KMerge

variable {α : Type} {less : α → α → Bool} {n k : Nat}

/-- Every segment of length `n` is sorted; the last one may be shorter. -/
def BlockSorted (less : α → α → Bool) (n : Nat) (l : List α) : Prop :=
  ∀ j, Sorted less (slice l (j * n) n)

/-- The `k` segments of length `n` at the start of `l`, empty where `l` has ended. -/
def segments (n k : Nat) (l : List α) : List (List α) :=
  (List.range k).map (fun i => slice l (i * n) n)

/-- One pass: `k` segments at a time are merged. -/
inductive Pass (less : α → α → Bool) (n k : Nat) : List α → List α → Prop
  | done : Pass less n k [] []
  | group {l out out' : List α} (hl : l ≠ []) (hm : Merges less (segments n k l) out)
    (h : Pass less n k (l.drop (n * k)) out') : Pass less n k l (out ++ out')

/-- Passes one after the other; the segments get `k` times as long with each. -/
inductive Passes (less : α → α → Bool) (k n : Nat) (l : List α) : Nat → List α → Prop
  | refl : Passes less k n l n l
  | step {n' : Nat} {l' l'' : List α} (h : Passes less k n l n' l') (h' : Pass less n' k l' l'') :
    Passes less k n l (n' * k) l''

/-- The first pass: `n` elements at a time are put in order by `sort`. -/
inductive SortedBlocks (sort : List α → List α) (n : Nat) : List α → List α → Prop
  | done : SortedBlocks sort n [] []
  | block {l l' : List α} (hl : l ≠ []) (h : SortedBlocks sort n (l.drop n) l') :
    SortedBlocks sort n l (sort (l.take n) ++ l')

theorem segments_flatten (n k : Nat) (l : List α) : (segments n k l).flatten = l.take (n * k) := by
  induction k with
  | zero => simp [segments]
  | succ k ih =>
    have hs : segments n (k + 1) l = segments n k l ++ [slice l (k * n) n] := by
      rw [segments, List.range_succ, List.map_append]
      rfl
    rw [hs, List.flatten_append, ih, List.flatten_singleton, slice, Nat.mul_succ, Nat.mul_comm k n,
      List.take_add]

theorem Pass.perm {l l' : List α} (h : Pass less n k l l') : l'.Perm l := by
  induction h with
  | done => exact List.Perm.refl _
  | @group l out out' _ hm _ ih =>
    have hp := hm.perm
    rw [segments_flatten] at hp
    have hall := hp.append ih
    rwa [List.take_append_drop] at hall

theorem Passes.perm {n' : Nat} {l l' : List α} (h : Passes less k n l n' l') : l'.Perm l := by
  induction h with
  | refl => exact List.Perm.refl _
  | step _ h' ih => exact h'.perm.trans ih

section Congr

variable {less' : α → α → Bool} {p : α → Prop} (hp : ∀ a b, p a → p b → less a b = less' a b)

include hp

theorem Pass.congr {l l' : List α} (h : Pass less n k l l') (hl : ∀ a ∈ l, p a) : Pass less' n k l l' := by
  induction h with
  | done => exact Pass.done
  | @group l out out' hne hm _ ih =>
    refine Pass.group hne (hm.congr hp ?_) (ih (fun a ha => hl a (List.mem_of_mem_drop ha)))
    intro run hrun a ha
    obtain ⟨i, -, rfl⟩ := List.mem_map.mp hrun
    exact hl a (List.mem_of_mem_drop (List.mem_of_mem_take ha))

theorem Passes.congr {n' : Nat} {l l' : List α} (h : Passes less k n l n' l') (hl : ∀ a ∈ l, p a) :
    Passes less' k n l n' l' := by
  induction h with
  | refl => exact Passes.refl
  | step h h' ih => exact ih.step (h'.congr hp (fun a ha => hl a (h.perm.mem_iff.mp ha)))

end Congr

theorem SortedBlocks.perm {sort : List α → List α} (hsort : ∀ l, (sort l).Perm l) {l l' : List α}
    (h : SortedBlocks sort n l l') : l'.Perm l := by
  induction h with
  | done => exact List.Perm.refl _
  | @block l l' _ _ ih =>
    have hall := (hsort (l.take n)).append ih
    rwa [List.take_append_drop] at hall

theorem BlockSorted.nil : BlockSorted less n ([] : List α) := by
  intro j
  rw [slice, List.drop_nil, List.take_nil]
  exact List.Pairwise.nil

theorem BlockSorted.drop {l : List α} (h : BlockSorted less n l) (k : Nat) :
    BlockSorted less n (l.drop (n * k)) := by
  intro j
  have hj := h (k + j)
  rwa [slice, Nat.add_mul, Nat.mul_comm k n, ← List.drop_drop] at hj

theorem BlockSorted.segments {l : List α} (h : BlockSorted less n l) (k : Nat) :
    ∀ run ∈ segments n k l, Sorted less run := by
  intro run hrun
  obtain ⟨i, -, rfl⟩ := List.mem_map.mp hrun
  exact h i

theorem BlockSorted.append {out rest : List α} {m : Nat} (hs : Sorted less out) (hle : out.length ≤ m)
    (hfull : out.length = m ∨ rest = []) (h : BlockSorted less m rest) : BlockSorted less m (out ++ rest) := by
  intro j
  cases j with
  | zero =>
    have hz : slice (out ++ rest) (0 * m) m = out := by
      rw [Nat.zero_mul, slice, List.drop_zero]
      obtain rfl | rfl := hfull
      · exact List.take_left
      · rw [List.append_nil, List.take_of_length_le hle]
    rw [hz]
    exact hs
  | succ j =>
    have hz : slice (out ++ rest) ((j + 1) * m) m = slice rest (j * m) m := by
      obtain rfl | rfl := hfull
      · rw [slice, Nat.succ_mul, Nat.add_comm, ← List.drop_drop, List.drop_left, slice]
      · have hend : out.length ≤ (j + 1) * m := hle.trans (Nat.le_mul_of_pos_left m (Nat.succ_pos j))
        rw [List.append_nil, slice, slice, List.drop_nil, List.drop_eq_nil_of_le hend]
    rw [hz]
    exact h j

theorem BlockSorted.sorted {l : List α} (h : BlockSorted less n l) (hn : l.length ≤ n) : Sorted less l := by
  have h0 := h 0
  rwa [Nat.zero_mul, slice, List.drop_zero, List.take_of_length_le hn] at h0

theorem Pass.blockSorted (ho : StrictWeakOrder less) {l l' : List α} (h : Pass less n k l l')
    (hs : BlockSorted less n l) : BlockSorted less (n * k) l' := by
  induction h with
  | done => exact BlockSorted.nil
  | @group l out out' _ hm h ih =>
    have hp := hm.perm.length_eq
    rw [segments_flatten, List.length_take] at hp
    apply BlockSorted.append (hm.sorted ho (hs.segments k)) (by omega) ?_ (ih (hs.drop k))
    by_cases hlen : n * k ≤ l.length
    · exact .inl (by omega)
    · right
      rw [List.drop_eq_nil_of_le (by omega)] at h
      exact List.Perm.eq_nil h.perm

theorem Passes.blockSorted (ho : StrictWeakOrder less) {n' : Nat} {l l' : List α}
    (h : Passes less k n l n' l') (hs : BlockSorted less n l) : BlockSorted less n' l' := by
  induction h with
  | refl => exact hs
  | step _ h' ih => exact h'.blockSorted ho ih

theorem SortedBlocks.blockSorted {sort : List α → List α} (hperm : ∀ l, (sort l).Perm l) {p : α → Prop}
    (hsort : ∀ l, (∀ a ∈ l, p a) → Sorted less (sort l)) {l l' : List α} (h : SortedBlocks sort n l l')
    (hl : ∀ a ∈ l, p a) : BlockSorted less n l' := by
  induction h with
  | done => exact BlockSorted.nil
  | @block l l' _ h ih =>
    have hlen := (hperm (l.take n)).length_eq
    rw [List.length_take] at hlen
    apply BlockSorted.append (hsort _ (fun a ha => hl a (List.mem_of_mem_take ha))) (by omega) ?_
      (ih (fun a ha => hl a (List.mem_of_mem_drop ha)))
    by_cases hn : n ≤ l.length
    · exact .inl (by omega)
    · right
      rw [List.drop_eq_nil_of_le (by omega)] at h
      exact List.Perm.eq_nil (h.perm hperm)

theorem Pass.stable (ho : StrictWeakOrder less) {l l' : List α} (h : Pass less n k l l')
    (hs : BlockSorted less n l) (e : α) :
    l'.filter (equivalent less e) = l.filter (equivalent less e) := by
  induction h with
  | done => rfl
  | @group l out out' _ hm _ ih =>
    have hout := hm.stable ho (hs.segments k) e
    rw [segments_flatten] at hout
    rw [List.filter_append, hout, ih (hs.drop k), ← List.filter_append, List.take_append_drop]

theorem Passes.stable (ho : StrictWeakOrder less) {n' : Nat} {l l' : List α}
    (h : Passes less k n l n' l') (hs : BlockSorted less n l) (e : α) :
    l'.filter (equivalent less e) = l.filter (equivalent less e) := by
  induction h with
  | refl => rfl
  | step h h' ih => rw [h'.stable ho (h.blockSorted ho hs) e, ih]

end RecordStore.MergePasses
