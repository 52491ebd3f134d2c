import Mathlib.Data.Set.Card
import RecordStore.Cursors
import RecordStore.ThreeWay

namespace RecordStore.Versions

open RecordStore.Cursors RecordStore.ThreeWay

variable {α κ : Type}

/-- Versions of entries, of which those of equal users stand together. -/
structure Grouped (p : κ → Prop) (compare : κ → κ → Int) (lt : α → α → Prop) (user : α → κ) (S : Set α) : Prop where
  inOrder : InOrder lt S
  order : Orders p compare
  holds : ∀ a ∈ S, p (user a)
  grouped : ∀ a ∈ S, ∀ b ∈ S, lt a b → compare (user a) (user b) ≤ 0

variable (compare : κ → κ → Int) (lt : α → α → Prop) (user : α → κ) (seen value : α → Prop)

/-- The values that are seen first of all that is seen of their users. -/
def visible (S : Set α) : Set α :=
  { e ∈ S | seen e ∧ value e ∧ ∀ e' ∈ S, seen e' → compare (user e') (user e) = 0 → e' ≠ e → lt e e' }

/-- What a skipped user hides: itself, and what is before it. -/
def Hidden : Option κ → κ → Prop
  | none, _ => False
  | some k, u => compare u k ≤ 0

/-- Where a search over what is yet to come can end. -/
def candidates (T : Set α) (skip : Option κ) : Set α :=
  { e ∈ T | seen e ∧ value e ∧ ¬ Hidden compare skip (user e) ∧
    ∀ e' ∈ T, seen e' → lt e' e → compare (user e') (user e) ≠ 0 }

/-- What a search over what is left has found so far among what it has gone through. -/
def Found (S L T : Set α) : Option α → Prop
  | none => ∀ x ∈ L, x ∉ T → x ∉ visible compare lt user seen value S
  | some b => b ∈ L ∧ b ∉ T ∧ seen b ∧ value b ∧
    ∀ x ∈ L, x ∉ T → seen x → x = b ∨ (lt b x ∧ x ∉ visible compare lt user seen value S)

variable {compare lt user seen value} {p : κ → Prop} {S T L : Set α} {a : α} {skip : Option κ}

section Forward

theorem from_iff (hS : InOrder lt S) (ha : a ∈ S) {x : α} : x ∈ { x ∈ S | ¬ lt x a } ↔ x = a ∨ x ∈ { x ∈ S | lt a x } := by
  constructor
  · rintro ⟨hx, hxa⟩
    by_cases he : x = a
    · exact .inl he
    · exact .inr ⟨hx, (hS.total x hx a ha he).resolve_left hxa⟩
  · rintro (rfl | ⟨hx, hax⟩)
    · exact ⟨ha, hS.irrefl _ ha⟩
    · exact ⟨hx, hS.asymm ha hx hax⟩

/-- What is not before the next entry is what is behind this one, and it is less than there was. -/
theorem next_shrinks (hS : InOrder lt S) (hfinite : S.Finite) (ha : a ∈ S) {b : α}
    (hb : First lt { x ∈ S | lt a x } (some b)) :
    { x ∈ S | ¬ lt x b } = { x ∈ S | lt a x } ∧ { x ∈ S | ¬ lt x b }.ncard < { x ∈ S | ¬ lt x a }.ncard := by
  have hset : { x ∈ S | ¬ lt x b } = { x ∈ S | lt a x } := by
    refine First.upper hS (fun x hx => hx.1) (fun x hx y hy hxy => ?_) hb
    exact ⟨hy, hS.trans a ha x hx.1 y hy hx.2 hxy⟩
  refine ⟨hset, ?_⟩
  rw [hset]
  apply Set.ncard_lt_ncard _ (hfinite.subset fun x hx => hx.1)
  refine ⟨fun x hx => (from_iff hS ha).mpr (.inr hx), fun hsub => ?_⟩
  exact hS.irrefl a ha (hsub ⟨ha, hS.irrefl a ha⟩).2

theorem candidates_here (h : Grouped p compare lt user S) (ha : a ∈ S) (hseen : seen a) (hvalue : value a)
    (hhidden : ¬ Hidden compare skip (user a)) :
    First lt (candidates compare lt user seen value { x ∈ S | ¬ lt x a } skip) (some a) := by
  refine ⟨⟨⟨ha, h.inOrder.irrefl a ha⟩, hseen, hvalue, hhidden, fun e he _ hlt => absurd hlt he.2⟩, ?_⟩
  rintro b ⟨hb, -⟩ hne
  exact ((from_iff h.inOrder ha).mp hb).resolve_left hne |>.2

theorem Hidden.of_le (h : Orders p compare) (hskip : ∀ k ∈ skip, p k) {u v : κ} (hu : p u) (hv : p v)
    (huv : compare u v ≤ 0) (hh : Hidden compare skip v) : Hidden compare skip u := by
  cases skip with
  | none => exact hh
  | some k => exact h.trans u v k hu hv (hskip k rfl) huv hh

theorem candidates_pass (h : Grouped p compare lt user S) (hskip : ∀ k ∈ skip, p k) (ha : a ∈ S)
    (hpass : seen a → Hidden compare skip (user a)) :
    candidates compare lt user seen value { x ∈ S | ¬ lt x a } skip =
      candidates compare lt user seen value { x ∈ S | lt a x } skip := by
  ext e
  constructor
  · rintro ⟨he, hseen, hvalue, hhidden, hnew⟩
    obtain rfl | he := (from_iff h.inOrder ha).mp he
    · exact absurd (hpass hseen) hhidden
    · exact ⟨he, hseen, hvalue, hhidden, fun e' he' => hnew e' ((from_iff h.inOrder ha).mpr (.inr he'))⟩
  · rintro ⟨he, hseen, hvalue, hhidden, hnew⟩
    refine ⟨(from_iff h.inOrder ha).mpr (.inr he), hseen, hvalue, hhidden, fun e' he' hseen' hlt hzero => ?_⟩
    obtain rfl | he' := (from_iff h.inOrder ha).mp he'
    · -- its user would hide the entry as well
      have hzero' := ((h.order.zero_iff (h.holds _ he.1) (h.holds _ ha)).mpr hzero).le
      exact hhidden ((hpass hseen').of_le h.order hskip (h.holds _ he.1) (h.holds _ ha) hzero')
    · exact hnew e' he' hseen' hlt hzero

/-- A deletion that is seen hides its user from then on. -/
theorem candidates_deletion (h : Grouped p compare lt user S) (hskip : ∀ k ∈ skip, p k) (ha : a ∈ S) (hseen : seen a)
    (hvalue : ¬ value a) (hahead : ∀ k ∈ skip, ¬ compare (user a) k < 0) :
    candidates compare lt user seen value { x ∈ S | ¬ lt x a } skip =
      candidates compare lt user seen value { x ∈ S | lt a x } (some (user a)) := by
  ext e
  constructor
  · rintro ⟨he, hseene, hvaluee, hhidden, hnew⟩
    obtain rfl | he := (from_iff h.inOrder ha).mp he
    · exact absurd hvaluee hvalue
    refine ⟨he, hseene, hvaluee, fun hle => ?_, fun e' he' => hnew e' ((from_iff h.inOrder ha).mpr (.inr he'))⟩
    have hge := h.grouped a ha e he.1 he.2
    have hswap := h.order.swap (user a) (user e) (h.holds _ ha) (h.holds _ he.1)
    have hzero := h.order.zero_iff (h.holds _ ha) (h.holds _ he.1)
    refine hnew a ((from_iff h.inOrder ha).mpr (.inl rfl)) hseen he.2 ?_
    unfold Hidden at hle
    omega
  · rintro ⟨he, hseene, hvaluee, hhidden, hnew⟩
    have hbehind : compare (user a) (user e) < 0 := by
      have hswap := h.order.swap (user a) (user e) (h.holds _ ha) (h.holds _ he.1)
      unfold Hidden at hhidden
      omega
    refine ⟨(from_iff h.inOrder ha).mpr (.inr he), hseene, hvaluee, fun hle => ?_, fun e' he' hseen' hlt hzero => ?_⟩
    · cases skip with
      | none => exact hle
      | some k => exact hahead k rfl (h.order.lt_of_lt_of_le (h.holds _ ha) (h.holds _ he.1) (hskip k rfl) hbehind hle)
    · obtain rfl | he' := (from_iff h.inOrder ha).mp he'
      · omega
      · exact hnew e' he' hseen' hlt hzero

/-- The candidates are what is visible of some users, if these are the users that are yet to come and are not hidden. -/
theorem candidates_eq (h : Grouped p compare lt user S) {G : κ → Prop} (hT : T ⊆ S)
    (hG : ∀ x ∈ S, seen x → (x ∈ T ∧ ¬ Hidden compare skip (user x) ↔ G (user x)))
    (hclosed : ∀ x ∈ S, ∀ y ∈ S, compare (user x) (user y) = 0 → G (user y) → G (user x)) :
    candidates compare lt user seen value T skip = { e ∈ visible compare lt user seen value S | G (user e) } := by
  ext e
  constructor
  · rintro ⟨he, hseen, hvalue, hhidden, hnew⟩
    have hGe := (hG e (hT he) hseen).mp ⟨he, hhidden⟩
    refine ⟨⟨hT he, hseen, hvalue, fun e' he' hseen' hzero hne => ?_⟩, hGe⟩
    have hin := ((hG e' he' hseen').mpr (hclosed e' he' e (hT he) hzero hGe)).1
    exact (h.inOrder.total e (hT he) e' he' (Ne.symm hne)).resolve_right fun hlt => hnew e' hin hseen' hlt hzero
  · rintro ⟨⟨he, hseen, hvalue, hnew⟩, hGe⟩
    obtain ⟨hin, hhidden⟩ := (hG e he hseen).mpr hGe
    refine ⟨hin, hseen, hvalue, hhidden, fun e' he' hseen' hlt hzero => ?_⟩
    have hne : e' ≠ e := fun heq => h.inOrder.irrefl e he (heq ▸ hlt)
    exact h.inOrder.asymm (hT he') he hlt (hnew e' (hT he') hseen' hzero hne)

end Forward

section Backward

theorem upTo_iff (hS : InOrder lt S) (hL : L ⊆ S) (ha : a ∈ L) {x : α} :
    x ∈ { x ∈ L | ¬ lt a x } ↔ x = a ∨ x ∈ { x ∈ L | lt x a } :=
  from_iff (hS.flip.mono hL) ha

theorem Found.none_of_all (hT : ∀ x ∈ L, seen x → x ∈ T) : Found compare lt user seen value S L T none :=
  fun x hx hxT hvisible => hxT (hT x hx hvisible.2.1)

theorem Found.pass (hS : InOrder lt S) (hL : L ⊆ S) (ha : a ∈ L) (hseen : ¬ seen a) {o : Option α}
    (h : Found compare lt user seen value S L { x ∈ L | ¬ lt a x } o) :
    Found compare lt user seen value S L { x ∈ L | lt x a } o := by
  have hor : ∀ x ∈ L, x ∉ { x ∈ L | lt x a } → x = a ∨ x ∉ { x ∈ L | ¬ lt a x } := by
    intro x hx hxT
    by_cases he : x = a
    · exact .inl he
    · exact .inr fun hin => hxT (((upTo_iff hS hL ha).mp hin).resolve_left he)
  cases o with
  | none =>
    intro x hx hxT hvisible
    obtain rfl | hxT := hor x hx hxT
    · exact hseen hvisible.2.1
    · exact h x hx hxT hvisible
  | some b =>
    obtain ⟨hb, hbT, hbseen, hbvalue, hrest⟩ := h
    refine ⟨hb, fun hin => hbT ((upTo_iff hS hL ha).mpr (.inr hin)), hbseen, hbvalue, fun x hx hxT hxseen => ?_⟩
    obtain rfl | hxT := hor x hx hxT
    · exact absurd hxseen hseen
    · exact hrest x hx hxT hxseen

/-- An entry that is seen takes the place of what has been found, if that is of the same user. -/
theorem Found.replace (h : Grouped p compare lt user S) (hL : L ⊆ S) (ha : a ∈ L) (hseen : seen a) {o : Option α}
    (ho : ∀ b ∈ o, ¬ compare (user a) (user b) < 0) (hf : Found compare lt user seen value S L { x ∈ L | ¬ lt a x } o) :
    (value a → Found compare lt user seen value S L { x ∈ L | lt x a } (some a)) ∧
      (¬ value a → Found compare lt user seen value S L { x ∈ L | lt x a } none) := by
  -- nothing behind the entry is visible
  have hbehind : ∀ x ∈ L, x ∉ { x ∈ L | ¬ lt a x } → seen x → lt a x ∧ x ∉ visible compare lt user seen value S := by
    intro x hx hxT hxseen
    have hax : lt a x := by
      by_contra hax
      exact hxT ⟨hx, hax⟩
    refine ⟨hax, ?_⟩
    cases o with
    | none => exact hf x hx hxT
    | some b =>
      obtain ⟨hb, hbT, hbseen, hbvalue, hrest⟩ := hf
      obtain rfl | ⟨-, hnot⟩ := hrest x hx hxT hxseen
      · rintro ⟨-, -, -, hnew⟩
        have hle := h.grouped a (hL ha) x (hL hx) hax
        have hzero : compare (user a) (user x) = 0 := by
          have hge := ho x rfl
          omega
        have hne : a ≠ x := fun he => h.inOrder.irrefl x (hL hx) (he ▸ hax)
        exact h.inOrder.asymm (hL ha) (hL hx) hax (hnew a (hL ha) hseen hzero hne)
      · exact hnot
  have hor : ∀ x ∈ L, x ∉ { x ∈ L | lt x a } → x = a ∨ x ∉ { x ∈ L | ¬ lt a x } := by
    intro x hx hxT
    by_cases he : x = a
    · exact .inl he
    · exact .inr fun hin => hxT (((upTo_iff h.inOrder hL ha).mp hin).resolve_left he)
  constructor
  · intro hvalue
    refine ⟨ha, fun hin => h.inOrder.irrefl a (hL ha) hin.2, hseen, hvalue, fun x hx hxT hxseen => ?_⟩
    exact (hor x hx hxT).imp_right fun hxT => hbehind x hx hxT hxseen
  · intro hvalue x hx hxT hvisible
    obtain rfl | hxT := hor x hx hxT
    · exact hvalue hvisible.2.2.1
    · exact (hbehind x hx hxT hvisible.2.1).2 hvisible

theorem Found.done (h : Grouped p compare lt user S) (hL : L ⊆ S)
    (hlower : ∀ x ∈ S, ∀ y ∈ L, compare (user x) (user y) ≤ 0 → x ∈ L) {b : α} (hT : T ⊆ L)
    (hbelow : ∀ x ∈ T, ∀ y ∈ L, y ∉ T → lt x y) (hearlier : ∀ x ∈ T, seen x → compare (user x) (user b) < 0)
    (hf : Found compare lt user seen value S L T (some b)) :
    Last lt { e ∈ visible compare lt user seen value S | e ∈ L } (some b) ∧
      { x ∈ S | seen x ∧ compare (user x) (user b) < 0 } = { x ∈ T | seen x } := by
  obtain ⟨hb, hbT, hbseen, hbvalue, hrest⟩ := hf
  refine ⟨⟨⟨⟨hL hb, hbseen, hbvalue, fun e' he' hseen' hzero hne => ?_⟩, hb⟩, ?_⟩, ?_⟩
  · have he'L := hlower e' he' b hb hzero.le
    by_cases he'T : e' ∈ T
    · have hlt := hearlier e' he'T hseen'
      omega
    · exact ((hrest e' he'L he'T hseen').resolve_left hne).1
  · rintro x ⟨hvisible, hx⟩ hne
    by_cases hxT : x ∈ T
    · exact hbelow x hxT b hb hbT
    · exact absurd hvisible ((hrest x hx hxT hvisible.2.1).resolve_left hne).2
  · ext x
    constructor
    · rintro ⟨hx, hseen, hlt⟩
      have hxL := hlower x hx b hb hlt.le
      by_contra hnot
      have hxT : x ∉ T := fun hin => hnot ⟨hin, hseen⟩
      obtain rfl | ⟨hbx, -⟩ := hrest x hxL hxT hseen
      · have hself := h.order.self (h.holds x hx)
        omega
      · have hle := h.grouped b (hL hb) x hx hbx
        have hswap := h.order.swap (user x) (user b) (h.holds x hx) (h.holds b (hL hb))
        omega
    · rintro ⟨hxT, hseen⟩
      exact ⟨hL (hT hxT), hseen, hearlier x hxT hseen⟩

end Backward

end RecordStore.Versions
