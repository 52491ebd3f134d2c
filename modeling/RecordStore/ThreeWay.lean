import Mathlib.Tactic

namespace RecordStore.ThreeWay

/-- The first value that is not zero. -/
def firstNonzero : List Int → Int
  | [] => 0
  | c :: cs => if c ≠ 0 then c else firstNonzero cs

theorem firstNonzero_eq_zero {cs : List Int} : firstNonzero cs = 0 ↔ ∀ c ∈ cs, c = 0 := by
  induction cs with
  | nil => simp [firstNonzero]
  | cons c cs ih =>
    rw [firstNonzero]
    by_cases hc : c = 0
    · simp [hc, ih]
    · simp [hc]

theorem firstNonzero_append {cs : List Int} (h : ∀ c ∈ cs, c = 0) (ds : List Int) :
    firstNonzero (cs ++ ds) = firstNonzero ds := by
  induction cs with
  | nil => rfl
  | cons c cs ih =>
    have hc := h c (List.mem_cons_self ..)
    rw [List.cons_append, firstNonzero, if_neg (by simpa using hc), ih (fun d hd => h d (List.mem_cons_of_mem _ hd))]

theorem firstNonzero_cons_of_ne {c : Int} (hc : c ≠ 0) (cs : List Int) : firstNonzero (c :: cs) = c := by
  rw [firstNonzero, if_pos hc]

theorem firstNonzero_append_of_ne {cs : List Int} (h : firstNonzero cs ≠ 0) (ds : List Int) :
    firstNonzero (cs ++ ds) = firstNonzero cs := by
  induction cs with
  | nil => exact absurd rfl h
  | cons c cs ih =>
    rw [List.cons_append, firstNonzero, firstNonzero]
    by_cases hc : c = 0
    · rw [firstNonzero, if_neg (by simpa using hc)] at h
      rw [if_neg (by simpa using hc), if_neg (by simpa using hc), ih h]
    · rw [if_pos hc, if_pos hc]

theorem firstNonzero_eq_of_mem {cs : List Int} {x : Int} (hx : x ≠ 0) (hmem : x ∈ cs)
    (h : ∀ c ∈ cs, c = 0 ∨ c = x) : firstNonzero cs = x := by
  induction cs with
  | nil => cases hmem
  | cons c cs ih =>
    obtain hc | hc := h c (List.mem_cons_self ..)
    · have hin : x ∈ cs := by
        obtain he | hin := List.mem_cons.mp hmem
        · exact absurd (he.trans hc) hx
        · exact hin
      rw [firstNonzero, if_neg (by simpa using hc), ih hin (fun d hd => h d (List.mem_cons_of_mem _ hd))]
    · rw [hc, firstNonzero_cons_of_ne hx]

theorem exists_first_nonzero {α : Type} (f : α → Int) {l : List α} (h : firstNonzero (l.map f) ≠ 0) :
    ∃ before x after, l = before ++ x :: after ∧ (∀ y ∈ before, f y = 0) ∧ f x ≠ 0 ∧
      firstNonzero (l.map f) = f x := by
  induction l with
  | nil => exact absurd rfl h
  | cons y l ih =>
    by_cases hy : f y = 0
    · have hl : firstNonzero ((y :: l).map f) = firstNonzero (l.map f) := by
        rw [List.map_cons, firstNonzero, if_neg (by simpa using hy)]
      rw [hl] at h ⊢
      obtain ⟨before, x, after, rfl, hbefore, hx, heq⟩ := ih h
      refine ⟨y :: before, x, after, rfl, ?_, hx, heq⟩
      intro z hz
      obtain rfl | hz := List.mem_cons.mp hz
      · exact hy
      · exact hbefore z hz
    · refine ⟨[], y, l, rfl, by simp, hy, ?_⟩
      rw [List.map_cons, firstNonzero_cons_of_ne hy]

theorem firstNonzero_map_sign (cs : List Int) : firstNonzero (cs.map Int.sign) = (firstNonzero cs).sign := by
  induction cs with
  | nil => rfl
  | cons c cs ih =>
    rw [List.map_cons, firstNonzero, firstNonzero, ih]
    by_cases hc : c = 0
    · rw [if_neg (by simp [hc]), if_neg (by simpa using hc)]
    · rw [if_pos (by simpa using hc), if_pos hc]

variable {α β ι : Type} {p : α → Prop} {cmp : α → α → Int} {a b c : α}

/-- A three-way comparison that agrees with a total preorder of the elements that satisfy `p`. -/
structure Orders (p : α → Prop) (cmp : α → α → Int) : Prop where
  swap : ∀ a b, p a → p b → (cmp a b < 0 ↔ 0 < cmp b a)
  trans : ∀ a b c, p a → p b → p c → cmp a b ≤ 0 → cmp b c ≤ 0 → cmp a c ≤ 0

/-- The elements that `a` does not stand behind. -/
def above (p : α → Prop) (cmp : α → α → Int) (a : α) : Set α := { b | p b ∧ cmp a b ≤ 0 }

namespace Orders

theorem zero_iff (h : Orders p cmp) (ha : p a) (hb : p b) : cmp a b = 0 ↔ cmp b a = 0 := by
  have hab := h.swap a b ha hb
  have hba := h.swap b a hb ha
  omega

theorem self (h : Orders p cmp) (ha : p a) : cmp a a = 0 := by
  have hs := h.swap a a ha ha
  omega

theorem lt_of_lt_of_le (h : Orders p cmp) (ha : p a) (hb : p b) (hc : p c) (hab : cmp a b < 0)
    (hbc : cmp b c ≤ 0) : cmp a c < 0 := by
  have hle := h.trans a b c ha hb hc hab.le hbc
  by_contra hnot
  have hba : 0 < cmp b a := (h.swap a b ha hb).mp hab
  have hca : cmp c a ≤ 0 := ((h.zero_iff ha hc).mp (by omega)).le
  have := h.trans b c a hb hc ha hbc hca
  omega

theorem lt_of_le_of_lt (h : Orders p cmp) (ha : p a) (hb : p b) (hc : p c) (hab : cmp a b ≤ 0)
    (hbc : cmp b c < 0) : cmp a c < 0 := by
  have hle := h.trans a b c ha hb hc hab hbc.le
  by_contra hnot
  have hcb : 0 < cmp c b := (h.swap b c hb hc).mp hbc
  have hca : cmp c a ≤ 0 := ((h.zero_iff ha hc).mp (by omega)).le
  have := h.trans c a b hc ha hb hca hab
  omega

theorem zero_trans (h : Orders p cmp) (ha : p a) (hb : p b) (hc : p c) (hab : cmp a b = 0)
    (hbc : cmp b c = 0) : cmp a c = 0 := by
  have hle := h.trans a b c ha hb hc hab.le hbc.le
  have hge := h.trans c b a hc hb ha ((h.zero_iff hb hc).mp hbc).le ((h.zero_iff ha hb).mp hab).le
  have hs := h.swap a c ha hc
  omega

theorem comap {q : β → Prop} (h : Orders p cmp) (g : β → α) (hg : ∀ x, q x → p (g x)) :
    Orders q (fun x y => cmp (g x) (g y)) where
  swap x y hx hy := h.swap _ _ (hg x hx) (hg y hy)
  trans x y z hx hy hz := h.trans _ _ _ (hg x hx) (hg y hy) (hg z hz)

theorem of_image {q : β → Prop} {c : β → β → Int} (h : Orders q c) (f : β → α) {l : List β}
    (hl : ∀ x ∈ l, q x) (hc : ∀ x ∈ l, ∀ y ∈ l, cmp (f x) (f y) = c x y) :
    Orders (fun a => a ∈ l.map f) cmp where
  swap a b ha hb := by
    obtain ⟨x, hx, rfl⟩ := List.mem_map.mp ha
    obtain ⟨y, hy, rfl⟩ := List.mem_map.mp hb
    rw [hc x hx y hy, hc y hy x hx]
    exact h.swap x y (hl x hx) (hl y hy)
  trans a b d ha hb hd := by
    obtain ⟨x, hx, rfl⟩ := List.mem_map.mp ha
    obtain ⟨y, hy, rfl⟩ := List.mem_map.mp hb
    obtain ⟨z, hz, rfl⟩ := List.mem_map.mp hd
    rw [hc x hx y hy, hc y hy z hz, hc x hx z hz]
    exact h.trans x y z (hl x hx) (hl y hy) (hl z hz)

theorem sign (h : Orders p cmp) : Orders p (fun a b => (cmp a b).sign) where
  swap a b ha hb := by
    rw [Int.sign_neg_iff, Int.sign_pos_iff]
    exact h.swap a b ha hb
  trans a b c ha hb hc := by
    rw [Int.sign_nonpos_iff, Int.sign_nonpos_iff, Int.sign_nonpos_iff]
    exact h.trans a b c ha hb hc

theorem lex {f : ι → α → α → Int} {l : List ι} (h : ∀ i ∈ l, Orders p (f i)) :
    Orders p (fun a b => firstNonzero (l.map (fun i => f i a b))) := by
  induction l with
  | nil => exact ⟨fun a b _ _ => by simp [firstNonzero], fun a b c _ _ _ _ _ => le_rfl⟩
  | cons i l ih =>
    have hi := h i (List.mem_cons_self ..)
    have hl := ih (fun j hj => h j (List.mem_cons_of_mem _ hj))
    have hcons : ∀ a b, firstNonzero ((i :: l).map (fun i => f i a b)) =
        if f i a b ≠ 0 then f i a b else firstNonzero (l.map (fun i => f i a b)) := fun _ _ => rfl
    constructor
    · intro a b ha hb
      have hz := hi.zero_iff ha hb
      simp only [hcons]
      by_cases h0 : f i a b = 0
      · rw [if_neg (by simpa using h0), if_neg (by simpa using hz.mp h0)]
        exact hl.swap a b ha hb
      · rw [if_pos h0, if_pos (fun h1 => h0 (hz.mpr h1))]
        exact hi.swap a b ha hb
    · intro a b c ha hb hc hab hbc
      simp only [hcons] at hab hbc ⊢
      -- the first round settles it unless it finds no difference in both pairs
      have hab' : f i a b ≤ 0 := by
        split at hab
        · exact hab
        · omega
      have hbc' : f i b c ≤ 0 := by
        split at hbc
        · exact hbc
        · omega
      by_cases h1 : f i a b = 0
      · by_cases h2 : f i b c = 0
        · rw [if_neg (by simpa using h1)] at hab
          rw [if_neg (by simpa using h2)] at hbc
          rw [if_neg (by simpa using hi.zero_trans ha hb hc h1 h2)]
          exact hl.trans a b c ha hb hc hab hbc
        · have hlt := hi.lt_of_le_of_lt ha hb hc hab' (by omega)
          rw [if_pos hlt.ne]
          exact hlt.le
      · have hlt := hi.lt_of_lt_of_le ha hb hc (by omega) hbc'
        rw [if_pos hlt.ne]
        exact hlt.le

theorem above_le (h : Orders p cmp) (ha : p a) (hb : p b) (hab : cmp a b ≤ 0) : above p cmp b ≤ above p cmp a :=
  fun c hc => ⟨hc.1, h.trans a b c ha hb hc.1 hab hc.2⟩

theorem zero_of_above_eq (h : Orders p cmp) (ha : p a) (hb : p b) (heq : above p cmp a = above p cmp b) :
    cmp a b = 0 := by
  have hab : b ∈ above p cmp a := heq ▸ ⟨hb, (h.self hb).le⟩
  have hba : a ∈ above p cmp b := heq ▸ ⟨ha, (h.self ha).le⟩
  have hle : cmp a b ≤ 0 := hab.2
  have hge : cmp b a ≤ 0 := hba.2
  have hswap := h.swap a b ha hb
  omega

/-- Two sorted lists of the same elements differ only among elements that compare as equal. -/
theorem forall₂_of_perm (h : Orders p cmp) {l l' : List α} (hl : ∀ a ∈ l, p a) (hperm : l.Perm l')
    (hs : l.Pairwise (fun a b => cmp a b ≤ 0)) (hs' : l'.Pairwise (fun a b => cmp a b ≤ 0)) :
    List.Forall₂ (fun a b => cmp a b = 0) l l' := by
  have hl' : ∀ a ∈ l', p a := fun a ha => hl a (hperm.mem_iff.mpr ha)
  have hsorted : ∀ {m : List α}, (∀ a ∈ m, p a) → m.Pairwise (fun a b => cmp a b ≤ 0) →
      (m.map (above p cmp)).Pairwise (fun x y => y ≤ x) := by
    intro m hm hpair
    rw [List.pairwise_map]
    apply List.Pairwise.imp_of_mem _ hpair
    exact fun ha hb hab => h.above_le (hm _ ha) (hm _ hb) hab
  -- the sets are in a partial order, where sorted lists of the same elements are equal
  have heq : l.map (above p cmp) = l'.map (above p cmp) := (hperm.map _).eq_of_pairwise
    (fun _ _ _ _ hxy hyx => le_antisymm hyx hxy) (hsorted hl hs) (hsorted hl' hs')
  rw [List.forall₂_iff_get]
  refine ⟨hperm.length_eq, ?_⟩
  intro i hi hi'
  apply h.zero_of_above_eq (hl _ (List.get_mem ..)) (hl' _ (List.get_mem ..))
  have hget := congrArg (fun m : List (Set α) => m[i]?) heq
  simpa [List.getElem?_eq_getElem hi, List.getElem?_eq_getElem hi'] using hget

end Orders

end RecordStore.ThreeWay
