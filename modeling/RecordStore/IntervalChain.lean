import Mathlib.Tactic
import Mathlib.Order.CompletePartialOrder

namespace RecordStore.IntervalChain

variable {ι α : Type} [LinearOrder α] {lo hi : ι → α} {a b c : α} {l l' : List ι} {i : ι}

/-- The intervals `[lo i, hi i)` of the list stand one behind the other from `a` to `b`. None
of them is empty. -/
inductive Spans (lo hi : ι → α) : α → List ι → α → Prop
  | nil (a : α) : Spans lo hi a [] a
  | cons {i : ι} {l : List ι} {b : α} (hi' : lo i < hi i) (h : Spans lo hi (hi i) l b) :
    Spans lo hi (lo i) (i :: l) b

namespace Spans

theorem le (h : Spans lo hi a l b) : a ≤ b := by
  induction h with
  | nil => exact le_refl _
  | cons hi' _ ih => exact hi'.le.trans ih

theorem append (h : Spans lo hi a l b) (h' : Spans lo hi b l' c) : Spans lo hi a (l ++ l') c := by
  induction h with
  | nil => exact h'
  | cons hi' _ ih => exact .cons hi' (ih h')

theorem concat (h : Spans lo hi a l (lo i)) (hi' : lo i < hi i) : Spans lo hi a (l ++ [i]) (hi i) :=
  h.append (.cons hi' (.nil _))

theorem bounds (h : Spans lo hi a l b) (hm : i ∈ l) : a ≤ lo i ∧ hi i ≤ b := by
  induction h with
  | nil => cases hm
  | cons hi' h ih =>
    obtain rfl | hm := List.mem_cons.mp hm
    · exact ⟨le_refl _, h.le⟩
    · exact ⟨hi'.le.trans (ih hm).1, (ih hm).2⟩

theorem head_eq (h : Spans lo hi a l b) (hm : i ∈ l.head?) : lo i = a := by
  induction h with
  | nil => cases hm
  | cons _ _ _ => rw [Option.some.inj hm]

/-- Each interval begins where the one before it ends. -/
theorem isChain (h : Spans lo hi a l b) : l.IsChain (fun i j => lo j = hi i) := by
  induction h with
  | nil => exact .nil
  | cons _ h ih => exact List.isChain_cons.mpr ⟨fun j hj => h.head_eq hj, ih⟩

theorem pairwise_disjoint (h : Spans lo hi a l b) :
    l.Pairwise (fun i j => Disjoint (Set.Ico (lo i) (hi i)) (Set.Ico (lo j) (hi j))) := by
  induction h with
  | nil => exact .nil
  | cons _ h ih =>
    refine List.pairwise_cons.mpr ⟨fun j hj => ?_, ih⟩
    refine Set.disjoint_left.mpr (fun p hp hp' => ?_)
    exact absurd ((h.bounds hj).1.trans hp'.1) (not_le.mpr hp.2)

theorem covers (h : Spans lo hi a l b) (p : α) :
    (∃ i ∈ l, p ∈ Set.Ico (lo i) (hi i)) ↔ p ∈ Set.Ico a b := by
  induction h with
  | nil => simp
  | cons hi' h ih =>
    rw [List.exists_mem_cons_iff, ih]
    have hle := h.le
    constructor
    · rintro (⟨h1, h2⟩ | ⟨h1, h2⟩)
      · exact ⟨h1, h2.trans_le hle⟩
      · exact ⟨hi'.le.trans h1, h2⟩
    · rintro ⟨h1, h2⟩
      obtain hlt | hge := lt_or_ge p (hi _)
      · exact .inl ⟨h1, hlt⟩
      · exact .inr ⟨hge, h2⟩

end Spans

end RecordStore.IntervalChain
