import Mathlib.Data.List.Pairwise
import Mathlib.Data.Set.Finite.Basic
import RecordStore.ThreeWay

namespace RecordStore.Cursors

open RecordStore.ThreeWay

variable {E σ κ α : Type}

/-- The operations of an iterator over entries of which one is the current one, if it is valid. -/
structure Cursor (E σ κ α : Type) where
  valid : σ → Bool
  entry : σ → Except E α
  seekToFirst : σ → Except E σ
  seekToLast : σ → Except E σ
  seek : κ → σ → Except E σ
  next : σ → Except E σ
  prev : σ → Except E σ

structure InOrder (lt : α → α → Prop) (S : Set α) : Prop where
  irrefl : ∀ a ∈ S, ¬ lt a a
  trans : ∀ a ∈ S, ∀ b ∈ S, ∀ c ∈ S, lt a b → lt b c → lt a c
  total : ∀ a ∈ S, ∀ b ∈ S, a ≠ b → lt a b ∨ lt b a

def First (lt : α → α → Prop) (S : Set α) : Option α → Prop
  | none => S = ∅
  | some a => a ∈ S ∧ ∀ b ∈ S, b ≠ a → lt a b

def Last (lt : α → α → Prop) (S : Set α) : Option α → Prop := First (fun a b => lt b a) S

/-- A cursor goes through the entries of a set in their order. `At` says which states stand for being
at an entry, or at none. -/
structure Walks (c : Cursor E σ κ α) (lt : α → α → Prop) (before : α → κ → Prop) (target : κ → Prop) (S : Set α)
    (At : σ → Option α → Prop) : Prop where
  valid : ∀ {s o}, At s o → c.valid s = o.isSome
  entry : ∀ {s a}, At s (some a) → c.entry s = .ok a
  mem : ∀ {s a}, At s (some a) → a ∈ S
  seekToFirst : ∀ {s o}, At s o → ∃ s' o', c.seekToFirst s = .ok s' ∧ At s' o' ∧ First lt S o'
  seekToLast : ∀ {s o}, At s o → ∃ s' o', c.seekToLast s = .ok s' ∧ At s' o' ∧ Last lt S o'
  seek : ∀ {s o} k, target k → At s o →
    ∃ s' o', c.seek k s = .ok s' ∧ At s' o' ∧ First lt { b ∈ S | ¬ before b k } o'
  next : ∀ {s a}, At s (some a) → ∃ s' o', c.next s = .ok s' ∧ At s' o' ∧ First lt { b ∈ S | lt a b } o'
  prev : ∀ {s a}, At s (some a) → ∃ s' o', c.prev s = .ok s' ∧ At s' o' ∧ Last lt { b ∈ S | lt b a } o'

/-- A cursor that goes through entries in the order of their keys. -/
abbrev KeyWalks {ν : Type} (c : Cursor E σ κ (κ × ν)) (compare : κ → κ → Int) (target : κ → Prop) (S : Set (κ × ν))
    (At : σ → Option (κ × ν) → Prop) : Prop :=
  Walks c (fun a b => compare a.1 b.1 < 0) (fun a k => compare a.1 k < 0) target S At

variable {lt : α → α → Prop} {S T : Set α}

theorem InOrder.flip (h : InOrder lt S) : InOrder (fun a b => lt b a) S where
  irrefl := h.irrefl
  trans a ha b hb c hc hab hbc := h.trans c hc b hb a ha hbc hab
  total a ha b hb hab := (h.total a ha b hb hab).symm

theorem InOrder.mono (h : InOrder lt S) (hT : T ⊆ S) : InOrder lt T where
  irrefl a ha := h.irrefl a (hT ha)
  trans a ha b hb c hc := h.trans a (hT ha) b (hT hb) c (hT hc)
  total a ha b hb := h.total a (hT ha) b (hT hb)

theorem InOrder.asymm (h : InOrder lt S) {a b : α} (ha : a ∈ S) (hb : b ∈ S) (hab : lt a b) : ¬ lt b a :=
  fun hba => h.irrefl a ha (h.trans a ha b hb a ha hab hba)

/-- Of entries that an entry is not among, those that are not before it are behind it. -/
theorem InOrder.notBefore (h : InOrder lt S) (hT : T ⊆ S) {a : α} (ha : a ∈ S) (haT : a ∉ T) :
    { b ∈ T | ¬ lt b a } = { b ∈ T | lt a b } := by
  ext b
  refine and_congr_right fun hb => ⟨fun hba => ?_, h.asymm ha (hT hb)⟩
  exact (h.total a ha b (hT hb) fun he => haT (he ▸ hb)).resolve_right hba

theorem First.mem {a : α} (h : First lt S (some a)) : a ∈ S := h.1

theorem First.notMem (h : First lt S none) (a : α) : a ∉ S := by
  obtain rfl : S = ∅ := h
  exact Set.notMem_empty a

theorem First.unique (hS : InOrder lt S) {o o' : Option α} (h : First lt S o) (h' : First lt S o') : o = o' := by
  cases o with
  | none =>
    cases o' with
    | none => rfl
    | some b => exact absurd (h ▸ h'.1) (Set.notMem_empty b)
  | some a =>
    cases o' with
    | none => exact absurd (h' ▸ h.1) (Set.notMem_empty a)
    | some b =>
      by_contra hne
      have hab : a ≠ b := fun he => hne (congrArg some he)
      exact hS.asymm h.1 h'.1 (h.2 b h'.1 (Ne.symm hab)) (h'.2 a h.1 hab)

/-- What is not before the first entry of a part that is closed upwards is that part. -/
theorem First.upper (hS : InOrder lt S) (hT : T ⊆ S) (hup : ∀ a ∈ T, ∀ b ∈ S, lt a b → b ∈ T) {a : α}
    (h : First lt T (some a)) : { b ∈ S | ¬ lt b a } = T := by
  ext b
  constructor
  · rintro ⟨hb, hba⟩
    by_cases he : b = a
    · exact he ▸ h.1
    · exact hup a h.1 b hb ((hS.total a (hT h.1) b hb (Ne.symm he)).resolve_right hba)
  · intro hb
    refine ⟨hT hb, fun hba => ?_⟩
    by_cases he : b = a
    · subst he
      exact hS.irrefl b (hT hb) hba
    · exact hS.asymm (hT h.1) (hT hb) (h.2 b hb he) hba

theorem inOrder_of_pairwise {l : List α} (hl : l.Pairwise lt) (hirrefl : ∀ a ∈ l, ¬ lt a a)
    (htrans : ∀ a ∈ l, ∀ b ∈ l, ∀ c ∈ l, lt a b → lt b c → lt a c) : InOrder lt { a | a ∈ l } := by
  refine ⟨hirrefl, htrans, fun a ha b hb => ?_⟩
  have hsymm : Std.Symm (fun x y => lt x y ∨ lt y x) := ⟨fun _ _ => Or.symm⟩
  exact (hl.imp (S := fun x y => lt x y ∨ lt y x) Or.inl).forall ha hb

/-- A sorted list starts with its first entry, and so does what is left of it under a condition. -/
theorem first_find? {l : List α} (hl : l.Pairwise lt) (P : α → Bool) :
    First lt { a | a ∈ l ∧ P a } (l.find? P) := by
  induction l with
  | nil =>
    apply Set.eq_empty_of_forall_notMem
    exact fun a ha => List.not_mem_nil ha.1
  | cons e l ih =>
    obtain ⟨he, hl⟩ := List.pairwise_cons.mp hl
    by_cases hP : P e
    · rw [List.find?_cons_of_pos hP]
      refine ⟨⟨List.mem_cons_self .., hP⟩, fun b hb hne => ?_⟩
      exact he b ((List.mem_cons.mp hb.1).resolve_left hne)
    · rw [List.find?_cons_of_neg hP]
      have hset : { a | a ∈ e :: l ∧ P a } = { a | a ∈ l ∧ P a } := by
        ext a
        constructor
        · rintro ⟨ha, hPa⟩
          obtain rfl | ha := List.mem_cons.mp ha
          · exact absurd hPa hP
          · exact ⟨ha, hPa⟩
        · exact fun ha => ⟨List.mem_cons_of_mem _ ha.1, ha.2⟩
      rw [hset]
      exact ih hl

theorem last_find? {l : List α} (hl : l.Pairwise lt) (P : α → Bool) :
    Last lt { a | a ∈ l ∧ P a } (l.reverse.find? P) := by
  have hfirst := first_find? (List.pairwise_reverse.mpr hl) P
  unfold Last
  simpa only [List.mem_reverse] using hfirst

section Lists

theorem lt_of_sorted {l : List α} (hl : l.Pairwise lt) {i j : Nat} {a b : α} (ha : l[i]? = some a) (hb : l[j]? = some b)
    (hij : i < j) : lt a b := by
  obtain ⟨hi, rfl⟩ := List.getElem?_eq_some_iff.mp ha
  obtain ⟨hj, rfl⟩ := List.getElem?_eq_some_iff.mp hb
  exact List.pairwise_iff_getElem.mp hl i j hi hj hij

theorem lt_iff_index {l : List α} (hl : l.Pairwise lt) (hS : InOrder lt { a | a ∈ l }) {i j : Nat} {a b : α}
    (ha : l[i]? = some a) (hb : l[j]? = some b) : lt a b ↔ i < j := by
  have hain := List.mem_of_getElem? ha
  have hbin := List.mem_of_getElem? hb
  refine ⟨fun hab => ?_, lt_of_sorted hl ha hb⟩
  by_contra hij
  obtain heq | hlt := (Nat.not_lt.mp hij).eq_or_lt
  · subst heq
    obtain rfl := Option.some.inj (ha.symm.trans hb)
    exact hS.irrefl a hain hab
  · exact hS.asymm hain hbin hab (lt_of_sorted hl hb ha hlt)

theorem first_getElem? {l : List α} (hl : l.Pairwise lt) {P : α → Prop} {i : Nat}
    (hP : ∀ j b, l[j]? = some b → (P b ↔ i ≤ j)) : First lt { b | b ∈ l ∧ P b } l[i]? := by
  cases ha : l[i]? with
  | none =>
    apply Set.eq_empty_of_forall_notMem
    rintro b ⟨hb, hPb⟩
    obtain ⟨j, hj⟩ := List.mem_iff_getElem?.mp hb
    have hij := (hP j b hj).mp hPb
    have hlen := List.getElem?_eq_none_iff.mp ha
    rw [List.getElem?_eq_none (hlen.trans hij)] at hj
    cases hj
  | some a =>
    refine ⟨⟨List.mem_of_getElem? ha, (hP i a ha).mpr le_rfl⟩, ?_⟩
    rintro b ⟨hb, hPb⟩ hne
    obtain ⟨j, hj⟩ := List.mem_iff_getElem?.mp hb
    have hij : i ≠ j := fun he => hne (Option.some.inj ((he ▸ hj).symm.trans ha))
    exact lt_of_sorted hl ha hj (lt_of_le_of_ne ((hP j b hj).mp hPb) hij)

theorem last_getElem? {l : List α} (hl : l.Pairwise lt) {P : α → Prop} {i : Nat} (hi : i ≤ l.length)
    (hP : ∀ j b, l[j]? = some b → (P b ↔ j < i)) : Last lt { b | b ∈ l ∧ P b } (if i = 0 then none else l[i - 1]?) := by
  split
  · apply Set.eq_empty_of_forall_notMem
    rintro b ⟨hb, hPb⟩
    obtain ⟨j, hj⟩ := List.mem_iff_getElem?.mp hb
    have hji := (hP j b hj).mp hPb
    omega
  · rename_i hpos
    have ha : l[i - 1]? = some l[i - 1] := List.getElem?_eq_getElem (by omega)
    rw [ha]
    refine ⟨⟨List.getElem_mem _, (hP _ _ ha).mpr (by omega)⟩, ?_⟩
    rintro b ⟨hb, hPb⟩ hne
    obtain ⟨j, hj⟩ := List.mem_iff_getElem?.mp hb
    have hij : j ≠ i - 1 := fun he => hne (Option.some.inj ((he ▸ hj).symm.trans ha))
    exact lt_of_sorted hl hj ha (lt_of_le_of_ne (Nat.le_sub_one_of_lt ((hP j b hj).mp hPb)) hij)

theorem findIdx_le_iff {l : List α} {q : α → Bool} (hl : l.Pairwise lt)
    (hq : ∀ a ∈ l, ∀ b ∈ l, lt a b → q a = true → q b = true)
    {j : Nat} {b : α} (hj : l[j]? = some b) : q b = true ↔ l.findIdx q ≤ j := by
  constructor
  · intro hb
    by_contra hlt
    obtain ⟨hlen, rfl⟩ := List.getElem?_eq_some_iff.mp hj
    have hnot := List.not_of_lt_findIdx (Nat.not_le.mp hlt)
    rw [hnot] at hb
    cases hb
  · intro hle
    have hlen : l.findIdx q < l.length := lt_of_le_of_lt hle (List.getElem?_eq_some_iff.mp hj).1
    obtain ⟨a, ha, hfound⟩ : ∃ a, l[l.findIdx q]? = some a ∧ q a = true :=
      ⟨_, List.getElem?_eq_getElem hlen, List.findIdx_getElem⟩
    obtain heq | hlt := hle.eq_or_lt
    · rw [heq, hj] at ha
      rwa [Option.some.inj ha]
    · exact hq a (List.mem_of_getElem? ha) b (List.mem_of_getElem? hj) (lt_of_sorted hl ha hj hlt) hfound

theorem findIdx_eq_of {l : List α} {q : α → Bool} {j : Nat} (hj : j ≤ l.length)
    (hbelow : ∀ i a, i < j → l[i]? = some a → q a = false) (hat : ∀ a, l[j]? = some a → q a = true) : l.findIdx q = j := by
  apply le_antisymm
  · by_contra hlt
    have hlen : j < l.length := lt_of_lt_of_le (Nat.not_le.mp hlt) List.findIdx_le_length
    have hnot := List.not_of_lt_findIdx (Nat.not_le.mp hlt)
    rw [hat _ (List.getElem?_eq_getElem hlen)] at hnot
    cases hnot
  · by_contra hlt
    have hlen : l.findIdx q < l.length := lt_of_lt_of_le (Nat.not_le.mp hlt) hj
    have hfalse := hbelow _ _ (Nat.not_le.mp hlt) (List.getElem?_eq_getElem hlen)
    exact Bool.noConfusion ((List.findIdx_getElem (w := hlen)).symm.trans hfalse)

/-- A cursor over a list of entries. Behind the last entry it is at none. -/
def listCursor (fault : E) (before : α → κ → Bool) : Cursor E (List α × Nat) κ α where
  valid s := decide (s.2 < s.1.length)
  entry s :=
    match s.1[s.2]? with
    | some a => .ok a
    | none => .error fault
  seekToFirst s := .ok (s.1, 0)
  seekToLast s := .ok (s.1, if s.1.isEmpty then 0 else s.1.length - 1)
  seek k s := .ok (s.1, s.1.findIdx fun a => !before a k)
  next s := if s.2 < s.1.length then .ok (s.1, s.2 + 1) else .error fault
  prev s := if s.2 < s.1.length then .ok (s.1, if s.2 = 0 then s.1.length else s.2 - 1) else .error fault

theorem listCursor_walks {l : List α} (hl : l.Pairwise lt) (hS : InOrder lt { a | a ∈ l }) (fault : E)
    (before : α → κ → Bool) {target : κ → Prop}
    (hbefore : ∀ k, target k → ∀ a ∈ l, ∀ b ∈ l, lt a b → before b k = true → before a k = true) :
    Walks (listCursor fault before) lt (fun a k => before a k = true) target { a | a ∈ l }
      (fun s o => s.1 = l ∧ o = l[s.2]?) where
  valid := by
    rintro ⟨_, i⟩ o ⟨rfl, rfl⟩
    cases h : (_ : List α)[i]? with
    | none => exact decide_eq_false (Nat.not_lt.mpr (List.getElem?_eq_none_iff.mp h))
    | some a => exact decide_eq_true (List.getElem?_eq_some_iff.mp h).1
  entry := by
    rintro ⟨_, i⟩ a ⟨rfl, ha⟩
    simp only [listCursor, ← ha]
  mem := by
    rintro ⟨_, i⟩ a ⟨rfl, ha⟩
    exact List.mem_of_getElem? ha.symm
  seekToFirst := by
    rintro ⟨_, i⟩ o ⟨rfl, rfl⟩
    refine ⟨_, _, rfl, ⟨rfl, rfl⟩, ?_⟩
    have hfirst := first_getElem? hl (P := fun _ => True) (i := 0) fun j b _ => iff_of_true trivial (Nat.zero_le j)
    simpa only [and_true] using hfirst
  seekToLast := by
    rintro ⟨l, i⟩ o ⟨rfl, rfl⟩
    refine ⟨_, _, rfl, ⟨rfl, rfl⟩, ?_⟩
    have hlast := last_getElem? hl (P := fun _ => True) le_rfl fun j b hj =>
      iff_of_true trivial (List.getElem?_eq_some_iff.mp hj).1
    simp only [and_true] at hlast
    cases l with
    | nil => exact hlast
    | cons a l => exact hlast
  seek := by
    rintro ⟨l, i⟩ o k hk ⟨rfl, rfl⟩
    refine ⟨_, _, rfl, ⟨rfl, rfl⟩, first_getElem? hl fun j b hj => ?_⟩
    rw [← findIdx_le_iff hl _ hj]
    · simp
    · intro x hx y hy hxy
      simp only [Bool.not_eq_true', Bool.eq_false_iff]
      exact fun hxk hyk => hxk (hbefore k hk x hx y hy hxy hyk)
  next := by
    rintro ⟨l, i⟩ a ⟨rfl, ha⟩
    obtain ⟨hi, -⟩ := List.getElem?_eq_some_iff.mp ha.symm
    refine ⟨_, _, if_pos hi, ⟨rfl, rfl⟩, first_getElem? hl fun j b hj => ?_⟩
    exact lt_iff_index hl hS ha.symm hj
  prev := by
    rintro ⟨l, i⟩ a ⟨rfl, ha⟩
    obtain ⟨hi, -⟩ := List.getElem?_eq_some_iff.mp ha.symm
    refine ⟨_, _, if_pos hi, ⟨rfl, rfl⟩, ?_⟩
    have hlast := last_getElem? hl hi.le fun j b hj => lt_iff_index hl hS hj ha.symm
    split_ifs at hlast ⊢
    · rwa [List.getElem?_eq_none le_rfl]
    · exact hlast

end Lists

section Runs

variable {c : Cursor E σ κ α} {before : α → κ → Prop} {target : κ → Prop} {At : σ → Option α → Prop}

inductive Call (κ : Type) where
  | seekToFirst
  | seekToLast
  | seek (k : κ)
  | next
  | prev

def Cursor.call (c : Cursor E σ κ α) : Call κ → σ → Except E σ
  | .seekToFirst => c.seekToFirst
  | .seekToLast => c.seekToLast
  | .seek k => c.seek k
  | .next => c.next
  | .prev => c.prev

def Cursor.calls (c : Cursor E σ κ α) : List (Call κ) → σ → Except E σ
  | [], s => .ok s
  | op :: ops, s => do
    let s ← c.call op s
    Cursor.calls c ops s

/-- Where a call goes in a set of entries. Only what is at an entry may be moved on or back. -/
inductive Move (lt : α → α → Prop) (before : α → κ → Prop) (target : κ → Prop) (S : Set α) :
    Option α → Call κ → Option α → Prop where
  | seekToFirst {o o' : Option α} (h : First lt S o') : Move lt before target S o .seekToFirst o'
  | seekToLast {o o' : Option α} (h : Last lt S o') : Move lt before target S o .seekToLast o'
  | seek {o o' : Option α} {k : κ} (hk : target k) (h : First lt { b ∈ S | ¬ before b k } o') :
      Move lt before target S o (.seek k) o'
  | next {a : α} {o' : Option α} (h : First lt { b ∈ S | lt a b } o') : Move lt before target S (some a) .next o'
  | prev {a : α} {o' : Option α} (h : Last lt { b ∈ S | lt b a } o') : Move lt before target S (some a) .prev o'

inductive Moves (lt : α → α → Prop) (before : α → κ → Prop) (target : κ → Prop) (S : Set α) :
    Option α → List (Call κ) → Option α → Prop where
  | nil (o : Option α) : Moves lt before target S o [] o
  | cons {o o1 o2 : Option α} {op : Call κ} {ops : List (Call κ)} (h : Move lt before target S o op o1)
      (hs : Moves lt before target S o1 ops o2) : Moves lt before target S o (op :: ops) o2

theorem Walks.call (h : Walks c lt before target S At) (hS : InOrder lt S) {s : σ} {o o' : Option α} {op : Call κ}
    (hat : At s o) (hm : Move lt before target S o op o') : ∃ s', c.call op s = .ok s' ∧ At s' o' := by
  cases hm with
  | seekToFirst hfirst =>
    obtain ⟨s', o1, hs, hat', hfirst'⟩ := h.seekToFirst hat
    exact ⟨s', hs, hfirst'.unique hS hfirst ▸ hat'⟩
  | seekToLast hlast =>
    obtain ⟨s', o1, hs, hat', hlast'⟩ := h.seekToLast hat
    exact ⟨s', hs, First.unique hS.flip hlast' hlast ▸ hat'⟩
  | seek hk hfirst =>
    obtain ⟨s', o1, hs, hat', hfirst'⟩ := h.seek _ hk hat
    exact ⟨s', hs, hfirst'.unique (hS.mono fun _ hb => hb.1) hfirst ▸ hat'⟩
  | next hfirst =>
    obtain ⟨s', o1, hs, hat', hfirst'⟩ := h.next hat
    exact ⟨s', hs, hfirst'.unique (hS.mono fun _ hb => hb.1) hfirst ▸ hat'⟩
  | prev hlast =>
    obtain ⟨s', o1, hs, hat', hlast'⟩ := h.prev hat
    exact ⟨s', hs, First.unique (hS.flip.mono fun _ hb => hb.1) hlast' hlast ▸ hat'⟩

theorem Walks.calls (h : Walks c lt before target S At) (hS : InOrder lt S) {s : σ} {o o' : Option α} {ops : List (Call κ)}
    (hat : At s o) (hm : Moves lt before target S o ops o') : ∃ s', c.calls ops s = .ok s' ∧ At s' o' := by
  induction hm generalizing s with
  | nil o => exact ⟨s, rfl, hat⟩
  | cons hmove _ ih =>
    obtain ⟨s1, hcall, hat1⟩ := h.call hS hat hmove
    obtain ⟨s2, hcalls, hat2⟩ := ih hat1
    refine ⟨s2, ?_, hat2⟩
    rw [Cursor.calls, hcall]
    exact hcalls

theorem Walks.fewer {target' : κ → Prop} (h : Walks c lt before target S At) (ht : ∀ k, target' k → target k) :
    Walks c lt before target' S At :=
  ⟨h.valid, h.entry, h.mem, h.seekToFirst, h.seekToLast, fun k hk => h.seek k (ht k hk), h.next, h.prev⟩

/-- A cursor that does what another one does, on states that are related, goes through the same entries. -/
theorem Walks.simulated {τ : Type} (h : Walks c lt before target S At) {c' : Cursor E τ κ α} {target' : κ → Prop}
    (ht : ∀ k, target' k → target k) (R : τ → σ → Prop) (hvalid : ∀ t s, R t s → c'.valid t = c.valid s)
    (hentry : ∀ t s a, R t s → c.entry s = .ok a → c'.entry t = .ok a)
    (hcall : ∀ op t s s', (∀ k, op = .seek k → target' k) → R t s → c.call op s = .ok s' →
      ∃ t', c'.call op t = .ok t' ∧ R t' s') :
    Walks c' lt before target' S (fun t o => ∃ s, R t s ∧ At s o) where
  valid := by
    rintro t o ⟨s, hR, hat⟩
    rw [hvalid t s hR, h.valid hat]
  entry := by
    rintro t a ⟨s, hR, hat⟩
    exact hentry t s a hR (h.entry hat)
  mem := by
    rintro t a ⟨s, -, hat⟩
    exact h.mem hat
  seekToFirst := by
    rintro t o ⟨s, hR, hat⟩
    obtain ⟨s', o', hs, hat', hfirst⟩ := h.seekToFirst hat
    obtain ⟨t', ht', hR'⟩ := hcall .seekToFirst t s s' (fun _ hk => by cases hk) hR hs
    exact ⟨t', o', ht', ⟨s', hR', hat'⟩, hfirst⟩
  seekToLast := by
    rintro t o ⟨s, hR, hat⟩
    obtain ⟨s', o', hs, hat', hlast⟩ := h.seekToLast hat
    obtain ⟨t', ht', hR'⟩ := hcall .seekToLast t s s' (fun _ hk => by cases hk) hR hs
    exact ⟨t', o', ht', ⟨s', hR', hat'⟩, hlast⟩
  seek := by
    rintro t o k hk ⟨s, hR, hat⟩
    obtain ⟨s', o', hs, hat', hfirst⟩ := h.seek k (ht k hk) hat
    obtain ⟨t', ht', hR'⟩ := hcall (.seek k) t s s' (fun k' hk' => by cases hk'; exact hk) hR hs
    exact ⟨t', o', ht', ⟨s', hR', hat'⟩, hfirst⟩
  next := by
    rintro t a ⟨s, hR, hat⟩
    obtain ⟨s', o', hs, hat', hfirst⟩ := h.next hat
    obtain ⟨t', ht', hR'⟩ := hcall .next t s s' (fun _ hk => by cases hk) hR hs
    exact ⟨t', o', ht', ⟨s', hR', hat'⟩, hfirst⟩
  prev := by
    rintro t a ⟨s, hR, hat⟩
    obtain ⟨s', o', hs, hat', hlast⟩ := h.prev hat
    obtain ⟨t', ht', hR'⟩ := hcall .prev t s s' (fun _ hk => by cases hk) hR hs
    exact ⟨t', o', ht', ⟨s', hR', hat'⟩, hlast⟩

/-- A cursor that does on some of its states what another one does goes through the same entries. -/
theorem Walks.onto {τ : Type} (h : Walks c lt before target S At) {c' : Cursor E τ κ α} (f : σ → τ)
    (hvalid : ∀ s, c'.valid (f s) = c.valid s) (hentry : ∀ s, c'.entry (f s) = c.entry s)
    (hcall : ∀ op s s', c.call op s = .ok s' → c'.call op (f s) = .ok (f s')) :
    Walks c' lt before target S (fun t o => ∃ s, t = f s ∧ At s o) := by
  apply h.simulated (fun _ hk => hk) (fun t s => t = f s)
  · rintro _ s rfl
    exact hvalid s
  · rintro _ s a rfl ha
    rw [hentry s, ha]
  · rintro op _ s s' - rfl hs
    exact ⟨f s', hcall op s s' hs, rfl⟩

end Runs

section Map

variable {β κ' : Type} {c : Cursor E σ κ α} {before : α → κ → Prop} {target : κ → Prop} {At : σ → Option α → Prop}

/-- A cursor whose entries are read in another form, and whose targets are given in another form. -/
def Cursor.map (decode : α → Except E β) (encode : κ' → κ) (c : Cursor E σ κ α) : Cursor E σ κ' β where
  valid := c.valid
  entry s := do
    let a ← c.entry s
    decode a
  seekToFirst := c.seekToFirst
  seekToLast := c.seekToLast
  seek k := c.seek (encode k)
  next := c.next
  prev := c.prev

theorem First.image {lt' : β → β → Prop} {f : α → β} {T : Set β} {o : Option α} (h : First lt S o)
    (hlt : ∀ a ∈ S, ∀ b ∈ S, lt a b → lt' (f a) (f b)) (hT : T = f '' S) : First lt' T (o.map f) := by
  subst hT
  cases o with
  | none =>
    obtain rfl : S = ∅ := h
    exact Set.image_empty f
  | some a =>
    refine ⟨Set.mem_image_of_mem f h.1, ?_⟩
    rintro _ ⟨b, hb, rfl⟩ hne
    exact hlt a h.1 b hb (h.2 b hb fun he => hne (congrArg f he))

theorem Walks.map {lt' : β → β → Prop} {before' : β → κ' → Prop} {target' : κ' → Prop} (h : Walks c lt before target S At)
    {decode : α → Except E β} {encode : κ' → κ} (f : α → β) (hdecode : ∀ a ∈ S, decode a = .ok (f a))
    (hlt : ∀ a ∈ S, ∀ b ∈ S, (lt' (f a) (f b) ↔ lt a b))
    (hbefore : ∀ a ∈ S, ∀ k, target' k → (before' (f a) k ↔ before a (encode k)))
    (htarget : ∀ k, target' k → target (encode k)) :
    Walks (c.map decode encode) lt' before' target' (f '' S) (fun s o' => ∃ o, At s o ∧ o' = o.map f) := by
  have hmono : ∀ {T : Set α}, T ⊆ S → ∀ a ∈ T, ∀ b ∈ T, lt a b → lt' (f a) (f b) :=
    fun hT a ha b hb hab => (hlt a (hT ha) b (hT hb)).mpr hab
  have hset : ∀ {P : α → Prop} {P' : β → Prop}, (∀ a ∈ S, P' (f a) ↔ P a) →
      { b ∈ f '' S | P' b } = f '' { a ∈ S | P a } := by
    intro P P' hP
    ext b
    constructor
    · rintro ⟨⟨a, ha, rfl⟩, hb⟩
      exact ⟨a, ⟨ha, (hP a ha).mp hb⟩, rfl⟩
    · rintro ⟨a, ⟨ha, hPa⟩, rfl⟩
      exact ⟨⟨a, ha, rfl⟩, (hP a ha).mpr hPa⟩
  constructor
  · rintro s _ ⟨o, hat, rfl⟩
    rw [Option.isSome_map]
    exact h.valid hat
  · rintro s b ⟨o, hat, hb⟩
    obtain ⟨a, rfl, rfl⟩ := Option.map_eq_some_iff.mp hb.symm
    show (c.entry s >>= decode) = _
    rw [h.entry hat]
    exact hdecode a (h.mem hat)
  · rintro s b ⟨o, hat, hb⟩
    obtain ⟨a, rfl, rfl⟩ := Option.map_eq_some_iff.mp hb.symm
    exact Set.mem_image_of_mem f (h.mem hat)
  · rintro s _ ⟨o, hat, rfl⟩
    obtain ⟨s', o', hstep, hat', hfirst⟩ := h.seekToFirst hat
    exact ⟨s', o'.map f, hstep, ⟨o', hat', rfl⟩, hfirst.image (hmono (Set.Subset.refl S)) rfl⟩
  · rintro s _ ⟨o, hat, rfl⟩
    obtain ⟨s', o', hstep, hat', hlast⟩ := h.seekToLast hat
    exact ⟨s', o'.map f, hstep, ⟨o', hat', rfl⟩,
      First.image hlast (fun a ha b hb => hmono (Set.Subset.refl S) b hb a ha) rfl⟩
  · rintro s _ k hk ⟨o, hat, rfl⟩
    obtain ⟨s', o', hstep, hat', hfirst⟩ := h.seek (encode k) (htarget k hk) hat
    exact ⟨s', o'.map f, hstep, ⟨o', hat', rfl⟩,
      hfirst.image (hmono fun _ ha => ha.1) (hset fun a ha => not_congr (hbefore a ha k hk))⟩
  · rintro s b ⟨o, hat, hb⟩
    obtain ⟨a, rfl, rfl⟩ := Option.map_eq_some_iff.mp hb.symm
    obtain ⟨s', o', hstep, hat', hfirst⟩ := h.next hat
    exact ⟨s', o'.map f, hstep, ⟨o', hat', rfl⟩,
      hfirst.image (hmono fun _ ha => ha.1) (hset fun b hb => hlt a (h.mem hat) b hb)⟩
  · rintro s b ⟨o, hat, hb⟩
    obtain ⟨a, rfl, rfl⟩ := Option.map_eq_some_iff.mp hb.symm
    obtain ⟨s', o', hstep, hat', hlast⟩ := h.prev hat
    exact ⟨s', o'.map f, hstep, ⟨o', hat', rfl⟩,
      First.image hlast (fun a ha b hb => hmono (fun _ ha => ha.1) b hb a ha) (hset fun b hb => hlt b hb a (h.mem hat))⟩

end Map

section Entries

variable {ν : Type} {p : κ → Prop} {compare : κ → κ → Int} {entries : List (κ × ν)}

theorem entries_inOrder (ho : Orders p compare) (hp : ∀ e ∈ entries, p e.1)
    (hsorted : entries.Pairwise fun e e' => compare e.1 e'.1 < 0) :
    InOrder (fun e e' => compare e.1 e'.1 < 0) { e | e ∈ entries } := by
  refine inOrder_of_pairwise hsorted (fun a ha hlt => ?_) fun a ha b hb c hc hab hbc =>
    ho.lt_of_le_of_lt (hp a ha) (hp b hb) (hp c hc) hab.le hbc
  rw [ho.self (hp a ha)] at hlt
  exact lt_irrefl _ hlt

theorem entries_walks (ho : Orders p compare) (hp : ∀ e ∈ entries, p e.1)
    (hsorted : entries.Pairwise fun e e' => compare e.1 e'.1 < 0) (fault : E) :
    KeyWalks (listCursor fault fun e k => decide (compare e.1 k < 0)) compare p { e | e ∈ entries }
      (fun s o => s.1 = entries ∧ o = entries[s.2]?) := by
  have hbefore : ∀ k, p k → ∀ a ∈ entries, ∀ b ∈ entries, compare a.1 b.1 < 0 →
      decide (compare b.1 k < 0) = true → decide (compare a.1 k < 0) = true := by
    intro k hk a ha b hb hab hbk
    exact decide_eq_true (ho.lt_of_le_of_lt (hp a ha) (hp b hb) hk hab.le (of_decide_eq_true hbk))
  have hwalks := listCursor_walks hsorted (entries_inOrder ho hp hsorted) fault
    (fun e k => decide (compare e.1 k < 0)) hbefore
  simpa only [decide_eq_true_eq] using hwalks

end Entries

end RecordStore.Cursors
