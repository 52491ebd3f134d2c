import Mathlib.Data.List.Basic
import RecordStore.ThreeWay

namespace RecordStore.KMerge

open RecordStore.ThreeWay

variable {α : Type} {less : α → α → Bool}

structure StrictWeakOrder (less : α → α → Bool) : Prop where
  irrefl : ∀ a, less a a = false
  trans : ∀ a b c, less a b = true → less b c = true → less a c = true
  incompTrans : ∀ a b c, less a b = false → less b a = false → less b c = false → less c b = false →
    less a c = false ∧ less c a = false

def Sorted (less : α → α → Bool) (l : List α) : Prop := l.Pairwise (fun a b => less b a = false)

def equivalent (less : α → α → Bool) (a b : α) : Bool := !less a b && !less b a

theorem StrictWeakOrder.asymm (h : StrictWeakOrder less) {a b : α} (hab : less a b = true) :
    less b a = false := by
  by_contra hba
  have haa := h.trans a b a hab (by simpa using hba)
  simp [h.irrefl] at haa

theorem StrictWeakOrder.le_trans (h : StrictWeakOrder less) {a b c : α} (hab : less b a = false)
    (hbc : less c b = false) : less c a = false := by
  by_contra hca
  have hca : less c a = true := by simpa using hca
  cases hab' : less a b with
  | true => simp [h.trans c a b hca hab'] at hbc
  | false =>
    cases hbc' : less b c with
    | true => simp [h.trans b c a hbc' hca] at hab
    | false => simp [(h.incompTrans a b c hab' hab hbc' hbc).2] at hca

theorem StrictWeakOrder.lt_of_lt_of_le (h : StrictWeakOrder less) {a b c : α} (hab : less a b = true)
    (hbc : less c b = false) : less a c = true := by
  by_contra hac
  have := h.le_trans hbc (by simpa using hac : less a c = false)
  simp [hab] at this

open Classical in
/-- A comparison that orders the elements with `p` is part of a strict weak order of all. -/
theorem exists_strictWeakOrder {p : α → Prop} {cmp : α → α → Int} (h : Orders p cmp) :
    ∃ less, StrictWeakOrder less ∧ ∀ a b, p a → p b → less a b = decide (cmp a b < 0) := by
  -- the elements without `p` come last, and none of them before another
  refine ⟨fun a b => decide (p a ∧ (p b → cmp a b < 0)), ?_, fun a b ha hb => by simp [ha, hb]⟩
  have htrue : ∀ {a b}, decide (p a ∧ (p b → cmp a b < 0)) = true ↔ p a ∧ (p b → cmp a b < 0) := decide_eq_true_iff
  have hfalse : ∀ {a b}, decide (p a ∧ (p b → cmp a b < 0)) = false ↔ (p a → p b ∧ 0 ≤ cmp a b) := by
    intro a b
    rw [decide_eq_false_iff_not, not_and, Classical.not_imp, Int.not_lt]
  constructor
  case irrefl =>
    intro a
    rw [hfalse]
    exact fun ha => ⟨ha, (h.self ha).ge⟩
  case trans =>
    intro a b c hab hbc
    rw [htrue] at hab hbc ⊢
    exact ⟨hab.1, fun hc => h.lt_of_lt_of_le hab.1 hbc.1 hc (hab.2 hbc.1) (hbc.2 hc).le⟩
  case incompTrans =>
    intro a b c hab hba hbc hcb
    rw [hfalse] at hab hba hbc hcb
    rw [hfalse, hfalse]
    by_cases hb : p b
    · obtain ⟨ha, hba⟩ := hba hb
      obtain ⟨hc, hbc⟩ := hbc hb
      have hab := (hab ha).2
      have hcb := (hcb hc).2
      have hab' := h.swap b a hb ha
      have hbc' := h.swap c b hc hb
      have hac := h.zero_trans ha hb hc (by omega) (by omega)
      exact ⟨fun _ => ⟨hc, hac.ge⟩, fun _ => ⟨ha, ((h.zero_iff ha hc).mp hac).ge⟩⟩
    · exact ⟨fun ha => absurd (hab ha).1 hb, fun hc => absurd (hcb hc).1 hb⟩

/-- The first of the least entries, searched from index `i` on with `best` as the least so far. -/
def pickMin (less : α → α → Bool) : List (Option α) → Nat → Option (Nat × α) → Option (Nat × α)
  | [], _, best => best
  | none :: rest, i, best => pickMin less rest (i + 1) best
  | some x :: rest, i, none => pickMin less rest (i + 1) (some (i, x))
  | some x :: rest, i, some (j, m) =>
    pickMin less rest (i + 1) (if less x m then some (i, x) else some (j, m))

theorem pickMin_some {l : List (Option α)} {i j : Nat} {best : Option (Nat × α)} {x : α}
    (h : pickMin less l i best = some (j, x)) :
    best = some (j, x) ∨ ∃ t, j = i + t ∧ l[t]? = some (some x) := by
  induction l generalizing i best with
  | nil => exact .inl h
  | cons a rest ih =>
    have hshift : ∀ best', pickMin less rest (i + 1) best' = some (j, x) →
        best' = some (j, x) ∨ ∃ t, j = i + t ∧ (a :: rest)[t]? = some (some x) := by
      intro best' h'
      obtain hb | ⟨t, hj, ht⟩ := ih h'
      · exact .inl hb
      · exact .inr ⟨t + 1, by omega, by simpa using ht⟩
    cases a with
    | none => exact hshift best h
    | some y =>
      have hnew : some (i, y) = some (j, x) → ∃ t, j = i + t ∧ (some y :: rest)[t]? = some (some x) := by
        intro he
        obtain ⟨rfl, rfl⟩ := Prod.mk.inj (Option.some.inj he)
        exact ⟨0, rfl, rfl⟩
      cases best with
      | none =>
        obtain hb | ht := hshift _ h
        · exact .inr (hnew hb)
        · exact .inr ht
      | some b =>
        obtain hb | ht := hshift _ h
        · split at hb
          · exact .inr (hnew hb)
          · exact .inl hb
        · exact .inr ht

theorem pickMin_eq_none {l : List (Option α)} {i : Nat} {best : Option (Nat × α)}
    (h : pickMin less l i best = none) : best = none ∧ ∀ a ∈ l, a = none := by
  induction l generalizing i best with
  | nil => exact ⟨h, by simp⟩
  | cons a rest ih =>
    cases a with
    | none =>
      obtain ⟨hb, hall⟩ := ih h
      exact ⟨hb, by simpa using hall⟩
    | some y =>
      cases best with
      | none => simpa using (ih h).1
      | some b =>
        have hb := (ih h).1
        split at hb <;> cases hb

def Before (less : α → α → Bool) (x : α) (t : Nat) (l : List (Option α)) : Prop :=
  ∀ u y, u < t → l[u]? = some (some y) → less x y = true

def After (less : α → α → Bool) (x : α) (t : Nat) (l : List (Option α)) : Prop :=
  ∀ u y, t < u → l[u]? = some (some y) → less y x = false

theorem Before.cons {x : α} {t : Nat} {a : Option α} {rest : List (Option α)}
    (h : Before less x t rest) (ha : ∀ y, a = some y → less x y = true) :
    Before less x (t + 1) (a :: rest) := by
  intro u y hu hy
  cases u with
  | zero => exact ha y (by simpa using hy)
  | succ u => exact h u y (by omega) (by simpa using hy)

theorem After.cons {x : α} {t : Nat} {rest : List (Option α)} (h : After less x t rest) (a : Option α) :
    After less x (t + 1) (a :: rest) := by
  intro u y hu hy
  cases u with
  | zero => omega
  | succ u => exact h u y (by omega) (by simpa using hy)

theorem After.head {x : α} {rest : List (Option α)} (h : ∀ y, some y ∈ rest → less y x = false)
    (a : Option α) : After less x 0 (a :: rest) := by
  intro u y hu hy
  cases u with
  | zero => omega
  | succ u => exact h y (List.mem_of_getElem? (by simpa using hy))

theorem pickMin_least {l : List (Option α)} (ho : StrictWeakOrder less) {i j j0 : Nat} {x m : α}
    (h : pickMin less l i (some (j0, m)) = some (j, x)) :
    ((j, x) = (j0, m) ∧ ∀ y, some y ∈ l → less y m = false) ∨
    ∃ t, j = i + t ∧ less x m = true ∧ Before less x t l ∧ After less x t l := by
  induction l generalizing i j0 m with
  | nil => exact .inl ⟨(Option.some.inj h).symm, by simp⟩
  | cons a rest ih =>
    cases a with
    | none =>
      obtain ⟨he, hall⟩ | ⟨t, hj, hx, hlow, hhigh⟩ := ih h
      · exact .inl ⟨he, by simpa using hall⟩
      · exact .inr ⟨t + 1, by omega, hx, hlow.cons (by simp), hhigh.cons none⟩
    | some z =>
      rw [pickMin] at h
      split at h
      case isTrue hz =>
        obtain ⟨he, hall⟩ | ⟨t, hj, hx, hlow, hhigh⟩ := ih h
        · obtain ⟨rfl, rfl⟩ := Prod.mk.inj he
          exact .inr ⟨0, rfl, hz, fun u y hu => absurd hu (Nat.not_lt_zero u), After.head hall _⟩
        · refine .inr ⟨t + 1, by omega, ho.trans _ _ _ hx hz, hlow.cons ?_, hhigh.cons _⟩
          intro y hy
          rw [← Option.some.inj hy]
          exact hx
      case isFalse hz =>
        have hz : less z m = false := by simpa using hz
        obtain ⟨he, hall⟩ | ⟨t, hj, hx, hlow, hhigh⟩ := ih h
        · refine .inl ⟨he, ?_⟩
          intro y hy
          obtain hy | hy := List.mem_cons.mp hy
          · rw [Option.some.inj hy]
            exact hz
          · exact hall y hy
        · refine .inr ⟨t + 1, by omega, hx, hlow.cons ?_, hhigh.cons _⟩
          intro y hy
          rw [← Option.some.inj hy]
          exact ho.lt_of_lt_of_le hx hz

/-- The entry found is less than every earlier one, and no later one is less than it. -/
theorem pickMin_spec {l : List (Option α)} (ho : StrictWeakOrder less) {i j : Nat} {x : α}
    (h : pickMin less l i none = some (j, x)) :
    ∃ t, j = i + t ∧ l[t]? = some (some x) ∧ Before less x t l ∧ After less x t l := by
  induction l generalizing i with
  | nil => cases h
  | cons a rest ih =>
    cases a with
    | none =>
      obtain ⟨t, hj, ht, hlow, hhigh⟩ := ih h
      exact ⟨t + 1, by omega, by simpa using ht, hlow.cons (by simp), hhigh.cons none⟩
    | some z =>
      rw [pickMin] at h
      obtain hb | ⟨t, hj, ht⟩ := pickMin_some h
      · obtain ⟨rfl, rfl⟩ := Prod.mk.inj (Option.some.inj hb)
        obtain ⟨-, hall⟩ | ⟨t, hj, -⟩ := pickMin_least ho h
        · exact ⟨0, rfl, rfl, fun u y hu => absurd hu (Nat.not_lt_zero u), After.head hall _⟩
        · omega
      · obtain ⟨he, -⟩ | ⟨t', hj', hx, hlow, hhigh⟩ := pickMin_least ho h
        · have := (Prod.mk.inj he).1
          omega
        · obtain rfl : t' = t := by omega
          refine ⟨t' + 1, by omega, by simpa using ht, hlow.cons ?_, hhigh.cons _⟩
          intro y hy
          rw [← Option.some.inj hy]
          exact hx

/-- `out` comes out of `runs` when the least head, the first of them if several are least, is
taken until nothing is left. -/
inductive Merges (less : α → α → Bool) : List (List α) → List α → Prop
  | done {runs : List (List α)} (h : ∀ run ∈ runs, run = []) : Merges less runs []
  | step {runs : List (List α)} {i : Nat} {x : α} {rest out : List α}
    (hp : pickMin less (runs.map List.head?) 0 none = some (i, x)) (hi : runs[i]? = some (x :: rest))
    (h : Merges less (runs.set i rest) out) : Merges less runs (x :: out)

theorem split_at {runs : List (List α)} {i : Nat} {run : List α} (hi : runs[i]? = some run) :
    ∃ before after, runs = before ++ run :: after ∧ before.length = i ∧
      ∀ rest, runs.set i rest = before ++ rest :: after := by
  obtain ⟨hlt, rfl⟩ := List.getElem?_eq_some_iff.mp hi
  refine ⟨runs.take i, runs.drop (i + 1), ?_, ?_, ?_⟩
  · rw [← List.drop_eq_getElem_cons hlt, List.take_append_drop]
  · rw [List.length_take]
    omega
  · intro rest
    rw [List.set_eq_take_append_cons_drop, if_pos hlt]

section Congr

variable {less' : α → α → Bool} {p : α → Prop} (hp : ∀ a b, p a → p b → less a b = less' a b)

include hp

theorem pickMin_congr {l : List (Option α)} {i : Nat} {best : Option (Nat × α)} (hl : ∀ a, some a ∈ l → p a)
    (hbest : ∀ j m, best = some (j, m) → p m) : pickMin less l i best = pickMin less' l i best := by
  induction l generalizing i best with
  | nil => rfl
  | cons a rest ih =>
    have hrest : ∀ b, some b ∈ rest → p b := fun b hb => hl b (List.mem_cons_of_mem _ hb)
    cases a with
    | none => exact ih hrest hbest
    | some x =>
      have hx : p x := hl x (List.mem_cons_self ..)
      have hnew : ∀ j m, some (i, x) = some (j, m) → p m := by
        intro j m he
        obtain ⟨-, rfl⟩ := Prod.mk.inj (Option.some.inj he)
        exact hx
      cases best with
      | none => exact ih hrest hnew
      | some b =>
        obtain ⟨j, m⟩ := b
        rw [pickMin, pickMin, ← hp x m hx (hbest j m rfl)]
        apply ih hrest
        split
        · exact hnew
        · exact hbest

theorem Merges.congr {runs : List (List α)} {out : List α} (h : Merges less runs out)
    (hruns : ∀ run ∈ runs, ∀ a ∈ run, p a) : Merges less' runs out := by
  induction h with
  | done hnil => exact Merges.done hnil
  | @step runs i x rest out hpick hi h ih =>
    have hrun := hruns _ (List.mem_of_getElem? hi)
    refine Merges.step ?_ hi (ih ?_)
    · rw [← hpick]
      symm
      apply pickMin_congr hp
      · intro a ha
        obtain ⟨run, hr, hhead⟩ := List.mem_map.mp ha
        exact hruns run hr a (List.mem_of_mem_head? hhead)
      · simp
    · intro run hr a ha
      obtain hr | rfl := List.mem_or_eq_of_mem_set hr
      · exact hruns run hr a ha
      · exact hrun a (List.mem_cons_of_mem _ ha)

end Congr

/-- Nothing is lost or made up, whatever the test. -/
theorem Merges.perm {runs : List (List α)} {out : List α} (h : Merges less runs out) :
    out.Perm runs.flatten := by
  induction h with
  | done hnil =>
    rw [List.flatten_eq_nil_iff.mpr hnil]
  | step hp hi _ ih =>
    obtain ⟨before, after, hruns, -, hset⟩ := split_at hi
    rw [hset] at ih
    rw [hruns]
    simp only [List.flatten_append, List.flatten_cons, List.cons_append] at ih ⊢
    exact (List.Perm.cons _ ih).trans List.perm_middle.symm

/-- `tagged` interleaves the runs: it has the elements of every run under the number of the
run, in their order, and nothing else. -/
structure Interleaves (runs : List (List α)) (tagged : List (Nat × α)) : Prop where
  bound : ∀ p ∈ tagged, p.1 < runs.length
  order : ∀ (i : Nat) (run : List α), runs[i]? = some run →
    (tagged.filter (fun p => p.1 = i)).map Prod.snd = run

theorem Interleaves.nil {runs : List (List α)} (h : ∀ run ∈ runs, run = []) : Interleaves runs [] :=
  ⟨by simp, fun i run hi => (h run (List.mem_of_getElem? hi)).symm⟩

theorem Interleaves.cons {runs : List (List α)} {i : Nat} {x : α} {rest : List α}
    {tagged : List (Nat × α)} (hi : runs[i]? = some (x :: rest))
    (h : Interleaves (runs.set i rest) tagged) : Interleaves runs ((i, x) :: tagged) := by
  have hlt := (List.getElem?_eq_some_iff.mp hi).1
  constructor
  · rw [List.forall_mem_cons]
    exact ⟨hlt, fun p hp => by simpa using h.bound p hp⟩
  · intro j run hj
    by_cases hij : i = j
    · subst hij
      rw [hi] at hj
      rw [List.filter_cons_of_pos (by simp), List.map_cons,
        h.order i rest (List.getElem?_set_self hlt), ← Option.some.inj hj]
    · rw [List.filter_cons_of_neg (by simp [hij])]
      exact h.order j run (by rw [List.getElem?_set_ne hij, hj])

theorem Interleaves.mem {runs : List (List α)} {tagged : List (Nat × α)} (h : Interleaves runs tagged)
    {p : Nat × α} (hp : p ∈ tagged) : ∃ run, runs[p.1]? = some run ∧ p.2 ∈ run := by
  have hget := List.getElem?_eq_getElem (h.bound p hp)
  refine ⟨_, hget, ?_⟩
  rw [← h.order p.1 _ hget]
  exact List.mem_map_of_mem (List.mem_filter.mpr ⟨hp, by simp⟩)

section Ordered

variable (ho : StrictWeakOrder less)

include ho

theorem lt_of_head {x y : α} {run : List α} (hs : Sorted less run) (hy : run.head? = some y)
    (hxy : less x y = true) {z : α} (hz : z ∈ run) : less x z = true := by
  cases run with
  | nil => cases hy
  | cons w ws =>
    obtain rfl : w = y := by simpa using hy
    obtain rfl | hz := List.mem_cons.mp hz
    · exact hxy
    · exact ho.lt_of_lt_of_le hxy (List.rel_of_pairwise_cons hs hz)

theorem le_of_head {x y : α} {run : List α} (hs : Sorted less run) (hy : run.head? = some y)
    (hxy : less y x = false) {z : α} (hz : z ∈ run) : less z x = false := by
  cases run with
  | nil => cases hy
  | cons w ws =>
    obtain rfl : w = y := by simpa using hy
    obtain rfl | hz := List.mem_cons.mp hz
    · exact hxy
    · exact ho.le_trans hxy (List.rel_of_pairwise_cons hs hz)

/-- The element a step takes is less than all of the earlier runs and not above anything in
the later ones. -/
theorem step_bounds {before after : List (List α)} {x : α} {rest : List α}
    (hs : ∀ run ∈ before ++ (x :: rest) :: after, Sorted less run)
    (hp : pickMin less ((before ++ (x :: rest) :: after).map List.head?) 0 none =
      some (before.length, x)) :
    (∀ z ∈ before.flatten, less x z = true) ∧ (∀ z ∈ rest ++ after.flatten, less z x = false) := by
  obtain ⟨t, ht, -, hlow, hhigh⟩ := pickMin_spec ho hp
  obtain rfl : t = before.length := by omega
  have hhead : ∀ (run : List α) z, z ∈ run → ∃ y, run.head? = some y := by
    intro run z hz
    cases run with
    | nil => cases hz
    | cons y ys => exact ⟨y, rfl⟩
  constructor
  · intro z hz
    obtain ⟨run, hrun, hz⟩ := List.mem_flatten.mp hz
    obtain ⟨u, hu⟩ := List.mem_iff_getElem?.mp hrun
    obtain ⟨y, hy⟩ := hhead run z hz
    have hlt : u < before.length := (List.getElem?_eq_some_iff.mp hu).1
    refine lt_of_head ho (hs run (List.mem_append_left _ hrun)) hy (hlow u y hlt ?_) hz
    rw [List.getElem?_map, List.getElem?_append_left hlt, hu, Option.map_some, hy]
  · intro z hz
    obtain hz | hz := List.mem_append.mp hz
    · have hx := hs (x :: rest) (List.mem_append_right _ (List.mem_cons_self ..))
      exact List.rel_of_pairwise_cons hx hz
    · obtain ⟨run, hrun, hz⟩ := List.mem_flatten.mp hz
      obtain ⟨u, hu⟩ := List.mem_iff_getElem?.mp hrun
      obtain ⟨y, hy⟩ := hhead run z hz
      have hmem : run ∈ before ++ (x :: rest) :: after :=
        List.mem_append_right _ (List.mem_cons_of_mem _ hrun)
      refine le_of_head ho (hs run hmem) hy (hhigh (before.length + (u + 1)) y (by omega) ?_) hz
      rw [List.getElem?_map, List.getElem?_append_right (by omega), Nat.add_sub_cancel_left,
        List.getElem?_cons_succ, hu, Option.map_some, hy]

omit ho in
theorem sorted_set {before after : List (List α)} {x : α} {rest : List α}
    (hs : ∀ run ∈ before ++ (x :: rest) :: after, Sorted less run) :
    ∀ run ∈ before ++ rest :: after, Sorted less run := by
  intro run hrun
  obtain hrun | hrun := List.mem_append.mp hrun
  · exact hs run (List.mem_append_left _ hrun)
  · obtain rfl | hrun := List.mem_cons.mp hrun
    · exact List.Pairwise.of_cons (hs (x :: run) (List.mem_append_right _ (List.mem_cons_self ..)))
    · exact hs run (List.mem_append_right _ (List.mem_cons_of_mem _ hrun))

theorem Merges.sorted {runs : List (List α)} {out : List α} (h : Merges less runs out)
    (hs : ∀ run ∈ runs, Sorted less run) : Sorted less out := by
  induction h with
  | done => exact List.Pairwise.nil
  | step hp hi hm ih =>
    obtain ⟨before, after, rfl, rfl, hset⟩ := split_at hi
    obtain ⟨hlow, hhigh⟩ := step_bounds ho hs hp
    rw [hset] at hm ih
    refine List.Pairwise.cons ?_ (ih (sorted_set hs))
    intro z hz
    have hz := hm.perm.mem_iff.mp hz
    rw [List.flatten_append, List.flatten_cons] at hz
    obtain hz | hz := List.mem_append.mp hz
    · exact ho.asymm (hlow z hz)
    · exact hhigh z hz

theorem Merges.stable {runs : List (List α)} {out : List α} (h : Merges less runs out)
    (hs : ∀ run ∈ runs, Sorted less run) (e : α) :
    out.filter (equivalent less e) = runs.flatten.filter (equivalent less e) := by
  induction h with
  | done hnil => rw [List.flatten_eq_nil_iff.mpr hnil]
  | @step runs i x rest out hp hi _ ih =>
    obtain ⟨before, after, rfl, rfl, hset⟩ := split_at hi
    obtain ⟨hlow, -⟩ := step_bounds ho hs hp
    rw [hset] at ih
    have ih := ih (sorted_set hs)
    simp only [List.flatten_append, List.flatten_cons, List.filter_append, List.cons_append] at ih ⊢
    by_cases he : equivalent less e x = true
    · -- nothing before `x` is equivalent to it
      have hnone : before.flatten.filter (equivalent less e) = [] := by
        rw [List.filter_eq_nil_iff]
        intro z hz hez
        simp only [equivalent, Bool.and_eq_true, Bool.not_eq_true'] at he hez
        have hxz := (ho.incompTrans x e z he.2 he.1 hez.1 hez.2).1
        simp [hlow z hz] at hxz
      rw [hnone, List.nil_append] at ih
      rw [List.filter_cons_of_pos he, List.filter_cons_of_pos he, ih, hnone, List.nil_append,
        List.filter_append]
    · rw [List.filter_cons_of_neg he, List.filter_cons_of_neg he, ih, List.filter_append]

/-- A merge interleaves its runs, and of equivalent elements those of the earlier run come
first. -/
theorem Merges.interleaves {runs : List (List α)} {out : List α} (h : Merges less runs out) :
    ∃ tagged : List (Nat × α), tagged.map Prod.snd = out ∧ Interleaves runs tagged ∧
      ((∀ run ∈ runs, Sorted less run) →
        tagged.Pairwise (fun p q => equivalent less p.2 q.2 = true → p.1 ≤ q.1)) := by
  induction h with
  | done hnil => exact ⟨[], rfl, Interleaves.nil hnil, fun _ => List.Pairwise.nil⟩
  | @step runs i x rest out hp hi _ ih =>
    obtain ⟨tagged, hout, hinter, hfirst⟩ := ih
    refine ⟨(i, x) :: tagged, by rw [List.map_cons, hout], hinter.cons hi, ?_⟩
    intro hs
    obtain ⟨before, after, rfl, rfl, hset⟩ := split_at hi
    obtain ⟨hlow, -⟩ := step_bounds ho hs hp
    rw [hset] at hinter hfirst
    refine List.Pairwise.cons ?_ (hfirst (sorted_set hs))
    intro q hq he
    by_contra hlt
    -- an element of an earlier run is above the least
    have hq1 : q.1 < before.length := Nat.lt_of_not_le hlt
    obtain ⟨run, hrun, hmem⟩ := hinter.mem hq
    rw [List.getElem?_append_left hq1] at hrun
    have hless := hlow q.2 (List.mem_flatten_of_mem (List.mem_of_getElem? hrun) hmem)
    simp [equivalent, hless] at he

end Ordered

end RecordStore.KMerge
