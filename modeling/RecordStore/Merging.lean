import RecordStore.CFile
import RecordStore.Cursors
import RecordStore.Outcome
import RecordStore.ThreeWay

namespace RecordStore.Merging

open RecordStore.CFile RecordStore.Outcome RecordStore.ThreeWay RecordStore.Cursors

variable {σ κ ν : Type}

inductive Direction where
  | forward
  | reverse
  deriving DecidableEq

/-- `MergingIterator`. The current child is given by its index. -/
structure MergingIterator (σ : Type) where
  children : List σ
  current : Option Nat
  direction : Direction

section Definitions

variable (compare : κ → κ → Int) (c : Cursor Fault σ κ (κ × ν))

def stepEach (step : Nat → σ → Except Fault σ) : Nat → List σ → Except Fault (List σ)
  | _, [] => .ok []
  | i, child :: children => do
    let child ← step i child
    let children ← stepEach step (i + 1) children
    .ok (child :: children)

def entryOf (children : List σ) (i : Nat) : Except Fault (κ × ν) :=
  match children[i]? with
  | some child => c.entry child
  | none => .error .memory

/-- The loop of `FindSmallest` and `FindLargest`, over the indices that are left. -/
def findBest (better : Int → Bool) (children : List σ) : List Nat → Option Nat → Except Fault (Option Nat)
  | [], best => .ok best
  | i :: rest, best =>
    match children[i]? with
    | none => .error .memory
    | some child =>
      if c.valid child then
        match best with
        | none => findBest better children rest (some i)
        | some j => do
          let entry ← c.entry child
          let bestEntry ← entryOf c children j
          findBest better children rest (if better (compare entry.1 bestEntry.1) then some i else some j)
      else findBest better children rest best

def findSmallest (children : List σ) : Except Fault (Option Nat) :=
  findBest compare c (fun r => decide (r < 0)) children (List.range children.length) none

def findLargest (children : List σ) : Except Fault (Option Nat) :=
  findBest compare c (fun r => decide (0 < r)) children (List.range children.length).reverse none

def forwardFrom (children : List σ) : Except Fault (MergingIterator σ) := do
  let current ← findSmallest compare c children
  .ok ⟨children, current, .forward⟩

def reverseFrom (children : List σ) : Except Fault (MergingIterator σ) := do
  let current ← findLargest compare c children
  .ok ⟨children, current, .reverse⟩

/-- A child goes behind the key that the iterator is at. -/
def turnForward (key : κ) (child : σ) : Except Fault σ := do
  let child ← c.seek key child
  if c.valid child then do
    let entry ← c.entry child
    if compare key entry.1 = 0 then c.next child else .ok child
  else .ok child

/-- A child goes before the key that the iterator is at. -/
def turnReverse (key : κ) (child : σ) : Except Fault σ := do
  let child ← c.seek key child
  if c.valid child then c.prev child else c.seekToLast child

/-- All children but the current one go behind its key, if they are not there already. -/
def allForward (m : MergingIterator σ) (j : Nat) (key : κ) : Except Fault (List σ) :=
  if m.direction = .forward then .ok m.children
  else stepEach (fun i child => if i = j then .ok child else turnForward compare c key child) 0 m.children

def allReverse (m : MergingIterator σ) (j : Nat) (key : κ) : Except Fault (List σ) :=
  if m.direction = .reverse then .ok m.children
  else stepEach (fun i child => if i = j then .ok child else turnReverse c key child) 0 m.children

def MergingIterator.next (m : MergingIterator σ) : Except Fault (MergingIterator σ) :=
  match m.current with
  | none => .error .assertFailed
  | some j => do
    let entry ← entryOf c m.children j
    let children ← allForward compare c m j entry.1
    let children ← stepEach (fun i child => if i = j then c.next child else .ok child) 0 children
    forwardFrom compare c children

def MergingIterator.prev (m : MergingIterator σ) : Except Fault (MergingIterator σ) :=
  match m.current with
  | none => .error .assertFailed
  | some j => do
    let entry ← entryOf c m.children j
    let children ← allReverse c m j entry.1
    let children ← stepEach (fun i child => if i = j then c.prev child else .ok child) 0 children
    reverseFrom compare c children

def MergingIterator.entry (m : MergingIterator σ) : Except Fault (κ × ν) :=
  match m.current with
  | none => .error .assertFailed
  | some j => entryOf c m.children j

def mergingIterator : Cursor Fault (MergingIterator σ) κ (κ × ν) where
  valid m := m.current.isSome
  entry := MergingIterator.entry c
  seekToFirst m := do
    let children ← stepEach (fun _ => c.seekToFirst) 0 m.children
    forwardFrom compare c children
  seekToLast m := do
    let children ← stepEach (fun _ => c.seekToLast) 0 m.children
    reverseFrom compare c children
  seek k m := do
    let children ← stepEach (fun _ => c.seek k) 0 m.children
    forwardFrom compare c children
  next := MergingIterator.next compare c
  prev := MergingIterator.prev compare c

/-- What `NewMergingIterator` gives: of no child an `EmptyIterator`, and of one child the child. -/
inductive Merged (σ : Type) where
  | empty
  | single (child : σ)
  | many (m : MergingIterator σ)

def newMergingIterator : List σ → Merged σ
  | [] => .empty
  | [child] => .single child
  | children => .many ⟨children, none, .forward⟩

def Merged.step (atEmpty : Except Fault (Merged σ)) (single : σ → Except Fault σ)
    (many : MergingIterator σ → Except Fault (MergingIterator σ)) : Merged σ → Except Fault (Merged σ)
  | .empty => atEmpty
  | .single child => do
    let child ← single child
    .ok (.single child)
  | .many m => do
    let m ← many m
    .ok (.many m)

def mergedIterator : Cursor Fault (Merged σ) κ (κ × ν) where
  valid
    | .empty => false
    | .single child => c.valid child
    | .many m => (mergingIterator compare c).valid m
  entry
    | .empty => .error .assertFailed
    | .single child => c.entry child
    | .many m => (mergingIterator compare c).entry m
  seekToFirst := Merged.step (.ok .empty) c.seekToFirst (mergingIterator compare c).seekToFirst
  seekToLast := Merged.step (.ok .empty) c.seekToLast (mergingIterator compare c).seekToLast
  seek k := Merged.step (.ok .empty) (c.seek k) ((mergingIterator compare c).seek k)
  next := Merged.step (.error .assertFailed) c.next (mergingIterator compare c).next
  prev := Merged.step (.error .assertFailed) c.prev (mergingIterator compare c).prev

end Definitions

variable {compare : κ → κ → Int} {c : Cursor Fault σ κ (κ × ν)} {p target : κ → Prop} {n : Nat}
  {S : Nat → Set (κ × ν)} {At : Nat → σ → Option (κ × ν) → Prop} {children : List σ}

def union (n : Nat) (S : Nat → Set (κ × ν)) : Set (κ × ν) := { a | ∃ i < n, a ∈ S i }

/-- Children that go through sets of entries with keys that are all different. -/
structure Merges (compare : κ → κ → Int) (c : Cursor Fault σ κ (κ × ν)) (p target : κ → Prop) (n : Nat)
    (S : Nat → Set (κ × ν)) (At : Nat → σ → Option (κ × ν) → Prop) : Prop where
  walks : ∀ i < n, KeyWalks c compare target (S i) (At i)
  order : Orders p compare
  holds : ∀ k, target k → p k
  keys : ∀ a ∈ union n S, target a.1
  apart : ∀ a ∈ union n S, ∀ b ∈ union n S, a ≠ b → compare a.1 b.1 ≠ 0
  disjoint : ∀ i < n, ∀ j < n, i ≠ j → ∀ a ∈ S i, a ∉ S j

/-- Every child is at an entry, or at none, and what is said about it there holds. -/
def Placed (At : Nat → σ → Option (κ × ν) → Prop) (Q : Nat → Option (κ × ν) → Prop) (children : List σ) : Prop :=
  ∀ i s, children[i]? = some s → ∃ o, At i s o ∧ Q i o

section Steps

theorem stepEach_spec {step : Nat → σ → Except Fault σ} {R : Nat → σ → Prop} {i : Nat}
    (h : ∀ k s, children[k]? = some s → ∃ s', step (i + k) s = .ok s' ∧ R (i + k) s') :
    ∃ children', stepEach step i children = .ok children' ∧ children'.length = children.length ∧
      ∀ k s, children'[k]? = some s → R (i + k) s := by
  induction children generalizing i with
  | nil => exact ⟨[], rfl, rfl, fun k s hk => by simp at hk⟩
  | cons child children ih =>
    obtain ⟨child', hstep, hR⟩ := h 0 child rfl
    have hrest : ∀ k s, children[k]? = some s → ∃ s', step (i + 1 + k) s = .ok s' ∧ R (i + 1 + k) s' := by
      intro k s hk
      rw [show i + 1 + k = i + (k + 1) by omega]
      exact h (k + 1) s hk
    obtain ⟨children', hsteps, hlen, hRs⟩ := ih hrest
    refine ⟨child' :: children', ?_, by rw [List.length_cons, List.length_cons, hlen], ?_⟩
    · rw [stepEach, show step i child = .ok child' from hstep, ok_bind, hsteps]
      rfl
    · intro k s hk
      cases k with
      | zero =>
        cases hk
        exact hR
      | succ k =>
        have hRk := hRs k s hk
        rwa [show i + 1 + k = i + (k + 1) by omega] at hRk

theorem stepEach_placed {step : Nat → σ → Except Fault σ} {Q Q' : Nat → Option (κ × ν) → Prop}
    (h : Placed At Q children) (hlen : children.length = n)
    (hstep : ∀ i < n, ∀ s o, At i s o → Q i o → ∃ s' o', step i s = .ok s' ∧ At i s' o' ∧ Q' i o') :
    ∃ children', stepEach step 0 children = .ok children' ∧ children'.length = n ∧ Placed At Q' children' := by
  have hsteps : ∀ k s, children[k]? = some s → ∃ s', step (0 + k) s = .ok s' ∧ ∃ o, At (0 + k) s' o ∧ Q' (0 + k) o := by
    intro k s hk
    obtain ⟨hk', -⟩ := List.getElem?_eq_some_iff.mp hk
    obtain ⟨o, hat, hQ⟩ := h k s hk
    obtain ⟨s', o', hs, hat', hQ'⟩ := hstep k (hlen ▸ hk') s o hat hQ
    rw [Nat.zero_add]
    exact ⟨s', hs, o', hat', hQ'⟩
  obtain ⟨children', heq, hlen', hR⟩ := stepEach_spec (R := fun i s => ∃ o, At i s o ∧ Q' i o) hsteps
  refine ⟨children', heq, hlen'.trans hlen, fun i s hi => ?_⟩
  have hRi := hR i s hi
  rwa [Nat.zero_add] at hRi

end Steps

section Best

def Best (lt : κ × ν → κ × ν → Prop) (n : Nat) (pos : Nat → Option (κ × ν)) (seen : Nat → Prop) : Option Nat → Prop
  | none => ∀ i, seen i → pos i = none
  | some j => j < n ∧ ∃ a, pos j = some a ∧ ∀ i, seen i → ∀ b, pos i = some b → b ≠ a → lt a b

variable {lt : κ × ν → κ × ν → Prop} {better : Int → Bool} {pos : Nat → Option (κ × ν)}

theorem Best.mono {seen seen' : Nat → Prop} (h : ∀ i, seen' i → seen i) {best : Option Nat} (hb : Best lt n pos seen best) :
    Best lt n pos seen' best := by
  cases best with
  | none => exact fun i hi => hb i (h i hi)
  | some j =>
    obtain ⟨hj, a, ha, hleast⟩ := hb
    exact ⟨hj, a, ha, fun i hi => hleast i (h i hi)⟩

theorem entryOf_eq (hwalks : ∀ i < n, KeyWalks c compare target (S i) (At i))
    (hlen : children.length = n) (hpos : ∀ i s, children[i]? = some s → At i s (pos i)) {i : Nat} (hi : i < n)
    {a : κ × ν} (ha : pos i = some a) : entryOf c children i = .ok a ∧ a ∈ union n S := by
  have hchild : children[i]? = some children[i] := List.getElem?_eq_getElem (hlen ▸ hi)
  have hat := hpos i _ hchild
  rw [ha] at hat
  refine ⟨?_, i, hi, (hwalks i hi).mem hat⟩
  rw [entryOf, hchild]
  exact (hwalks i hi).entry hat

theorem findBest_spec (hwalks : ∀ i < n, KeyWalks c compare target (S i) (At i))
    (hlt : InOrder lt (union n S)) (hbetter : ∀ a ∈ union n S, ∀ b ∈ union n S, (better (compare b.1 a.1) = true ↔ lt b a))
    (hlen : children.length = n) (hpos : ∀ i s, children[i]? = some s → At i s (pos i)) {order : List Nat}
    (horder : ∀ i ∈ order, i < n) {seen : Nat → Prop} (hseen : ∀ i, seen i → i < n) {best : Option Nat}
    (hbest : Best lt n pos seen best) :
    ∃ r, findBest compare c better children order best = .ok r ∧ Best lt n pos (fun i => seen i ∨ i ∈ order) r := by
  have hentry : ∀ {i a}, i < n → pos i = some a → entryOf c children i = .ok a ∧ a ∈ union n S :=
    fun hi ha => entryOf_eq hwalks hlen hpos hi ha
  induction order generalizing seen best with
  | nil =>
    refine ⟨best, by rw [findBest], ?_⟩
    simpa only [List.not_mem_nil, or_false] using hbest
  | cons i order ih =>
    have hi := horder i (List.mem_cons_self ..)
    have hchild : children[i]? = some children[i] := List.getElem?_eq_getElem (hlen ▸ hi)
    have hvalid := (hwalks i hi).valid (hpos i _ hchild)
    have hnext : ∀ best', Best lt n pos (fun k => seen k ∨ k = i) best' →
        ∃ r, findBest compare c better children order best' = .ok r ∧
          Best lt n pos (fun k => seen k ∨ k ∈ i :: order) r := by
      intro best' hbest'
      obtain ⟨r, hr, hbr⟩ := ih (fun k hk => horder k (List.mem_cons_of_mem _ hk))
        (fun k hk => hk.elim (hseen k) fun he => he ▸ hi) hbest'
      refine ⟨r, hr, hbr.mono fun k hk => ?_⟩
      obtain hk | hk := hk
      · exact .inl (.inl hk)
      · exact (List.mem_cons.mp hk).elim (fun he => .inl (.inr he)) .inr
    rw [findBest]
    simp only [hchild, hvalid]
    cases hb : pos i with
    | none =>
      apply hnext
      cases best with
      | none => exact fun k hk => hk.elim (hbest k) fun he => he ▸ hb
      | some j =>
        obtain ⟨hj, a, ha, hleast⟩ := hbest
        refine ⟨hj, a, ha, fun k hk x hx => ?_⟩
        obtain hk | rfl := hk
        · exact hleast k hk x hx
        · rw [hb] at hx
          cases hx
    | some b =>
      obtain ⟨hread, hbin⟩ := hentry hi hb
      have hread' : c.entry children[i] = .ok b := by rwa [entryOf, hchild] at hread
      cases best with
      | none =>
        refine hnext (some i) ⟨hi, b, hb, fun k hk x hx hne => ?_⟩
        obtain hk | rfl := hk
        · rw [hbest k hk] at hx
          cases hx
        · exact absurd (Option.some.inj (hx.symm.trans hb)) hne
      | some j =>
        obtain ⟨hj, a, ha, hleast⟩ := hbest
        obtain ⟨hreadj, hain⟩ := hentry hj ha
        simp only [Option.isSome_some, if_true, hread', hreadj, ok_bind]
        apply hnext
        by_cases hba : better (compare b.1 a.1) = true
        · have hlt' := (hbetter a hain b hbin).mp hba
          rw [if_pos hba]
          refine ⟨hi, b, hb, fun k hk x hx hne => ?_⟩
          obtain hk | rfl := hk
          · by_cases hxa : x = a
            · exact hxa ▸ hlt'
            · have hxin := (hentry (hseen k hk) hx).2
              exact hlt.trans b hbin a hain x hxin hlt' (hleast k hk x hx hxa)
          · exact absurd (Option.some.inj (hx.symm.trans hb)) hne
        · rw [if_neg hba]
          refine ⟨hj, a, ha, fun k hk x hx hne => ?_⟩
          obtain hk | rfl := hk
          · exact hleast k hk x hx hne
          · obtain rfl : x = b := Option.some.inj (hx.symm.trans hb)
            exact (hlt.total a hain x hbin (Ne.symm hne)).resolve_right fun h => hba ((hbetter a hain x hbin).mpr h)

/-- The iterator is at an entry of the child that it has found, and the other children are behind it. -/
def Settled (lt : κ × ν → κ × ν → Prop) (n : Nat) (S : Nat → Set (κ × ν)) (At : Nat → σ → Option (κ × ν) → Prop)
    (children : List σ) (current : Option Nat) : Option (κ × ν) → Prop
  | none => current = none
  | some a => (∃ j < n, current = some j ∧ a ∈ S j) ∧ Placed At (fun i => First lt { b ∈ S i | ¬ lt b a }) children

/-- Of children that are at their first entries with a property that goes on upwards, the best is at the first
entry of all with that property. -/
theorem findBest_settles (better : Int → Bool) (order : List Nat)
    (hwalks : ∀ i < n, KeyWalks c compare target (S i) (At i))
    (hlt : InOrder lt (union n S)) (hbetter : ∀ a ∈ union n S, ∀ b ∈ union n S, (better (compare b.1 a.1) = true ↔ lt b a))
    (hlen : children.length = n) {P : κ × ν → Prop} (hup : ∀ a ∈ union n S, ∀ b ∈ union n S, P a → lt a b → P b)
    (hplaced : Placed At (fun i => First lt { b ∈ S i | P b }) children) (horder : ∀ i, i ∈ order ↔ i < n) :
    ∃ r o, findBest compare c better children order none = .ok r ∧ First lt { b ∈ union n S | P b } o ∧
      Settled lt n S At children r o := by
  have hchild : ∀ i, ∃ o, ∀ s, children[i]? = some s → At i s o ∧ First lt { b ∈ S i | P b } o := by
    intro i
    cases hi : children[i]? with
    | none => exact ⟨none, fun s hs => by cases hs⟩
    | some s =>
      obtain ⟨o, ho⟩ := hplaced i s hi
      exact ⟨o, fun s' hs' => Option.some.inj hs' ▸ ho⟩
  choose pos hpos using hchild
  have hfirst : ∀ i < n, First lt { b ∈ S i | P b } (pos i) :=
    fun i hi => (hpos i _ (List.getElem?_eq_getElem (hlen ▸ hi))).2
  have hnothing : Best lt n pos (fun _ => False) none := fun _ h => h.elim
  obtain ⟨r, hr, hbest⟩ := findBest_spec hwalks hlt hbetter hlen (fun i s hs => (hpos i s hs).1)
    (fun i hi => (horder i).mp hi) (fun _ h => h.elim) hnothing
  cases r with
  | none =>
    refine ⟨none, none, hr, ?_, rfl⟩
    apply Set.eq_empty_of_forall_notMem
    rintro b ⟨⟨i, hi, hb⟩, hPb⟩
    have hnone := hfirst i hi
    rw [hbest i (.inr ((horder i).mpr hi))] at hnone
    exact hnone.notMem b ⟨hb, hPb⟩
  | some j =>
    obtain ⟨hj, a, ha, hleast⟩ := hbest
    have haj := hfirst j hj
    rw [ha] at haj
    obtain ⟨⟨hain, hPa⟩, -⟩ := haj
    have hfirsta : First lt { b ∈ union n S | P b } (some a) := by
      refine ⟨⟨⟨j, hj, hain⟩, hPa⟩, ?_⟩
      rintro b ⟨⟨i, hi, hb⟩, hPb⟩ hne
      have hi' := hfirst i hi
      cases hx : pos i with
      | none =>
        rw [hx] at hi'
        exact (hi'.notMem b ⟨hb, hPb⟩).elim
      | some x =>
        rw [hx] at hi'
        obtain ⟨⟨hxin, hPx⟩, hxleast⟩ := hi'
        have hax : x ≠ a → lt a x := hleast i (.inr ((horder i).mpr hi)) x hx
        by_cases hbx : b = x
        · exact hbx ▸ hax (hbx ▸ hne)
        · have hxb := hxleast b ⟨hb, hPb⟩ hbx
          by_cases hxa : x = a
          · exact hxa ▸ hxb
          · exact hlt.trans a ⟨j, hj, hain⟩ x ⟨i, hi, hxin⟩ b ⟨i, hi, hb⟩ (hax hxa) hxb
    have hset : { b ∈ union n S | ¬ lt b a } = { b ∈ union n S | P b } := by
      refine First.upper hlt (fun b hb => hb.1) (fun x hx b hb hxb => ?_) hfirsta
      exact ⟨hb, hup x hx.1 b hb hx.2 hxb⟩
    refine ⟨some j, some a, hr, hfirsta, ⟨j, hj, rfl, hain⟩, fun i s hs => ?_⟩
    obtain ⟨hi, -⟩ := List.getElem?_eq_some_iff.mp hs
    have hsame : { b ∈ S i | ¬ lt b a } = { b ∈ S i | P b } := by
      ext b
      constructor
      · rintro ⟨hb, hba⟩
        exact ⟨hb, ((Set.ext_iff.mp hset b).mp ⟨⟨i, hlen ▸ hi, hb⟩, hba⟩).2⟩
      · rintro ⟨hb, hPb⟩
        exact ⟨hb, ((Set.ext_iff.mp hset b).mpr ⟨⟨i, hlen ▸ hi, hb⟩, hPb⟩).2⟩
    have hat := hpos i s hs
    rw [← hsame] at hat
    exact ⟨pos i, hat⟩

theorem Settled.current_at (hlt : InOrder lt (union n S)) (hlen : children.length = n) {current : Option Nat} {a : κ × ν}
    (h : Settled lt n S At children current (some a)) :
    ∃ j s, j < n ∧ current = some j ∧ children[j]? = some s ∧ At j s (some a) ∧ a ∈ S j := by
  obtain ⟨⟨j, hj, hcurrent, ha⟩, hplaced⟩ := h
  have hchild : children[j]? = some children[j] := List.getElem?_eq_getElem (hlen ▸ hj)
  obtain ⟨o, hat, hfirst⟩ := hplaced j _ hchild
  have hirrefl := hlt.irrefl a ⟨j, hj, ha⟩
  have hsome : First lt { b ∈ S j | ¬ lt b a } (some a) :=
    ⟨⟨ha, hirrefl⟩, fun b hb hne => (hlt.total a ⟨j, hj, ha⟩ b ⟨j, hj, hb.1⟩ (Ne.symm hne)).resolve_right hb.2⟩
  obtain rfl := hfirst.unique (hlt.mono fun b hb => ⟨j, hj, hb.1⟩) hsome
  exact ⟨j, _, hj, hcurrent, hchild, hat, ha⟩

end Best

section Walks

/-- Where the iterator is when all its children are placed. -/
def MergingAt (compare : κ → κ → Int) (n : Nat) (S : Nat → Set (κ × ν)) (At : Nat → σ → Option (κ × ν) → Prop)
    (m : MergingIterator σ) (o : Option (κ × ν)) : Prop :=
  m.children.length = n ∧ Placed At (fun _ _ => True) m.children ∧
    match m.direction with
    | .forward => Settled (fun a b => compare a.1 b.1 < 0) n S At m.children m.current o
    | .reverse => Settled (fun a b => compare b.1 a.1 < 0) n S At m.children m.current o

theorem Placed.any {Q : Nat → Option (κ × ν) → Prop} (h : Placed At Q children) : Placed At (fun _ _ => True) children :=
  fun i s hs => (h i s hs).imp fun _ ho => ⟨ho.1, trivial⟩

namespace Merges

variable (h : Merges compare c p target n S At)
include h

theorem inOrder : InOrder (fun a b => compare a.1 b.1 < 0) (union n S) where
  irrefl a ha := by
    rw [h.order.self (h.holds _ (h.keys a ha))]
    exact lt_irrefl 0
  trans a ha b hb c hc hab hbc :=
    h.order.lt_of_lt_of_le (h.holds _ (h.keys a ha)) (h.holds _ (h.keys b hb)) (h.holds _ (h.keys c hc)) hab hbc.le
  total a ha b hb hne := by
    have hswap := h.order.swap b.1 a.1 (h.holds _ (h.keys b hb)) (h.holds _ (h.keys a ha))
    have hapart := h.apart a ha b hb hne
    omega

theorem swap {a b : κ × ν} (ha : a ∈ union n S) (hb : b ∈ union n S) : 0 < compare a.1 b.1 ↔ compare b.1 a.1 < 0 :=
  (h.order.swap b.1 a.1 (h.holds _ (h.keys b hb)) (h.holds _ (h.keys a ha))).symm

theorem largest : ∀ a ∈ union n S, ∀ b ∈ union n S, (decide (0 < compare b.1 a.1) = true ↔ compare a.1 b.1 < 0) :=
  fun _ ha _ hb => decide_eq_true_iff.trans (h.swap hb ha)

theorem other {i j : Nat} (hi : i < n) (hj : j < n) (hij : i ≠ j) {a b : κ × ν} (ha : a ∈ S j) (hb : b ∈ S i) : b ≠ a :=
  fun he => h.disjoint i hi j hj hij b hb (he ▸ ha)

theorem turnForward_spec {i j : Nat} (hi : i < n) (hj : j < n) (hij : i ≠ j) {a : κ × ν} (ha : a ∈ S j) {s : σ}
    {o : Option (κ × ν)} (hat : At i s o) :
    ∃ s' o', turnForward compare c a.1 s = .ok s' ∧ At i s' o' ∧
      First (fun a b => compare a.1 b.1 < 0) { b ∈ S i | compare a.1 b.1 < 0 } o' := by
  have hain : a ∈ union n S := ⟨j, hj, ha⟩
  obtain ⟨s', o', hseek, hat', hfirst⟩ := (h.walks i hi).seek a.1 (h.keys a hain) hat
  have hset := h.inOrder.notBefore (fun b hb => ⟨i, hi, hb⟩) hain (h.disjoint j hj i hi (Ne.symm hij) a ha)
  rw [hset] at hfirst
  refine ⟨s', o', ?_, hat', hfirst⟩
  rw [turnForward, hseek, ok_bind]
  simp only [(h.walks i hi).valid hat']
  cases o' with
  | none => rfl
  | some b =>
    have hb := (h.walks i hi).mem hat'
    have hne := h.apart a hain b ⟨i, hi, hb⟩ (h.other hi hj hij ha hb).symm
    simp only [Option.isSome_some, if_true, (h.walks i hi).entry hat', ok_bind, if_neg hne]

theorem turnReverse_spec {i j : Nat} (hi : i < n) (hj : j < n) (hij : i ≠ j) {a : κ × ν} (ha : a ∈ S j) {s : σ}
    {o : Option (κ × ν)} (hat : At i s o) :
    ∃ s' o', turnReverse c a.1 s = .ok s' ∧ At i s' o' ∧
      First (fun a b => compare b.1 a.1 < 0) { b ∈ S i | compare b.1 a.1 < 0 } o' := by
  have hain : a ∈ union n S := ⟨j, hj, ha⟩
  obtain ⟨s1, o1, hseek, hat1, hfirst⟩ := (h.walks i hi).seek a.1 (h.keys a hain) hat
  rw [turnReverse, hseek, ok_bind]
  simp only [(h.walks i hi).valid hat1]
  cases o1 with
  | none =>
    obtain ⟨s', o', hlast, hat', hlasto⟩ := (h.walks i hi).seekToLast hat1
    have hset : { b ∈ S i | compare b.1 a.1 < 0 } = S i := by
      ext b
      refine ⟨fun hb => hb.1, fun hb => ⟨hb, ?_⟩⟩
      by_contra hba
      exact hfirst.notMem b ⟨hb, hba⟩
    refine ⟨s', o', hlast, hat', ?_⟩
    rw [hset]
    exact hlasto
  | some b =>
    obtain ⟨⟨hb, hba⟩, hleast⟩ := hfirst
    obtain ⟨s', o', hprev, hat', hlast⟩ := (h.walks i hi).prev hat1
    have hset : { x ∈ S i | compare x.1 a.1 < 0 } = { x ∈ S i | compare x.1 b.1 < 0 } := by
      ext x
      refine and_congr_right fun hx => ⟨fun hxa => ?_, fun hxb => ?_⟩
      · have hab := (h.inOrder.total a hain b ⟨i, hi, hb⟩ (h.other hi hj hij ha hb).symm).resolve_right hba
        exact h.inOrder.trans x ⟨i, hi, hx⟩ a hain b ⟨i, hi, hb⟩ hxa hab
      · by_contra hxa
        have hne : x ≠ b := fun he => h.inOrder.irrefl b ⟨i, hi, hb⟩ (he ▸ hxb)
        exact h.inOrder.asymm ⟨i, hi, hx⟩ ⟨i, hi, hb⟩ hxb (hleast x ⟨hx, hxa⟩ hne)
    refine ⟨s', o', hprev, hat', ?_⟩
    rw [hset]
    exact hlast

theorem forwardFrom_spec (hlen : children.length = n) {P : κ × ν → Prop}
    (hup : ∀ a ∈ union n S, ∀ b ∈ union n S, P a → compare a.1 b.1 < 0 → P b)
    (hplaced : Placed At (fun i => First (fun a b => compare a.1 b.1 < 0) { b ∈ S i | P b }) children) :
    ∃ m o, forwardFrom compare c children = .ok m ∧ MergingAt compare n S At m o ∧
      First (fun a b => compare a.1 b.1 < 0) { b ∈ union n S | P b } o := by
  obtain ⟨r, o, hr, hfirst, hsettled⟩ := findBest_settles (fun r => decide (r < 0)) (List.range children.length) h.walks
    h.inOrder (fun _ _ _ _ => decide_eq_true_iff) hlen hup hplaced fun i => hlen ▸ List.mem_range
  refine ⟨⟨children, r, .forward⟩, o, ?_, ⟨hlen, hplaced.any, hsettled⟩, hfirst⟩
  rw [forwardFrom, findSmallest, hr]
  rfl

theorem reverseFrom_spec (hlen : children.length = n) {P : κ × ν → Prop}
    (hup : ∀ a ∈ union n S, ∀ b ∈ union n S, P a → compare b.1 a.1 < 0 → P b)
    (hplaced : Placed At (fun i => First (fun a b => compare b.1 a.1 < 0) { b ∈ S i | P b }) children) :
    ∃ m o, reverseFrom compare c children = .ok m ∧ MergingAt compare n S At m o ∧
      First (fun a b => compare b.1 a.1 < 0) { b ∈ union n S | P b } o := by
  obtain ⟨r, o, hr, hfirst, hsettled⟩ := findBest_settles (fun r => decide (0 < r)) (List.range children.length).reverse
    h.walks h.inOrder.flip h.largest hlen hup hplaced fun i => hlen ▸ List.mem_reverse.trans List.mem_range
  refine ⟨⟨children, r, .reverse⟩, o, ?_, ⟨hlen, hplaced.any, hsettled⟩, hfirst⟩
  rw [reverseFrom, findLargest, hr]
  rfl

end Merges

/-- Before a step the current child is at the entry, and the others are at their first entries behind it. -/
def Ready (lt : κ × ν → κ × ν → Prop) (S : Nat → Set (κ × ν)) (a : κ × ν) (j i : Nat) (o : Option (κ × ν)) : Prop :=
  if i = j then o = some a else First lt { b ∈ S i | lt a b } o

variable {lt : κ × ν → κ × ν → Prop} {j : Nat} {a : κ × ν} {s : σ}

theorem Settled.ready (hlt : InOrder lt (union n S)) (hdisjoint : ∀ i < n, ∀ j < n, i ≠ j → ∀ a ∈ S i, a ∉ S j)
    (hlen : children.length = n) (h : Settled lt n S At children (some j) (some a)) (hs : children[j]? = some s)
    (hat : At j s (some a)) : Placed At (Ready lt S a j) children := by
  obtain ⟨⟨j', hj, hcurrent, ha⟩, hplaced⟩ := h
  obtain rfl : j = j' := Option.some.inj hcurrent
  intro i s' hs'
  obtain ⟨hi, -⟩ := List.getElem?_eq_some_iff.mp hs'
  rw [hlen] at hi
  by_cases hij : i = j
  · subst hij
    obtain rfl : s = s' := Option.some.inj (hs.symm.trans hs')
    exact ⟨some a, hat, (if_pos rfl).mpr rfl⟩
  · obtain ⟨o, hat', hfirst⟩ := hplaced i s' hs'
    rw [hlt.notBefore (fun b hb => ⟨i, hi, hb⟩) ⟨j, hj, ha⟩ (hdisjoint j hj i hi (Ne.symm hij) a ha)] at hfirst
    exact ⟨o, hat', (if_neg hij).mpr hfirst⟩

theorem turned_ready {turn : σ → Except Fault σ} (hplaced : Placed At (fun _ _ => True) children)
    (hlen : children.length = n) (hs : children[j]? = some s) (hat : At j s (some a))
    (hturn : ∀ i < n, i ≠ j → ∀ s o, At i s o → ∃ s' o', turn s = .ok s' ∧ At i s' o' ∧ First lt { b ∈ S i | lt a b } o') :
    ∃ children', stepEach (fun i child => if i = j then .ok child else turn child) 0 children = .ok children' ∧
      children'.length = n ∧ Placed At (Ready lt S a j) children' := by
  have hcurrent : Placed At (fun i o => i = j → o = some a) children := by
    intro i s' hs'
    by_cases hij : i = j
    · subst hij
      obtain rfl : s = s' := Option.some.inj (hs.symm.trans hs')
      exact ⟨some a, hat, fun _ => rfl⟩
    · exact (hplaced i s' hs').imp fun o ho => ⟨ho.1, fun he => absurd he hij⟩
  refine stepEach_placed hcurrent hlen fun i hi s' o hat' hQ => ?_
  by_cases hij : i = j
  · exact ⟨s', o, if_pos hij, hat', (if_pos hij).mpr (hQ hij)⟩
  · obtain ⟨s1, o1, hs1, hat1, hfirst⟩ := hturn i hi hij s' o hat'
    exact ⟨s1, o1, (if_neg hij).trans hs1, hat1, (if_neg hij).mpr hfirst⟩

theorem Ready.step {step : σ → Except Fault σ} (h : Placed At (Ready lt S a j) children) (hlen : children.length = n)
    (hstep : ∀ s, At j s (some a) → ∃ s' o', step s = .ok s' ∧ At j s' o' ∧ First lt { b ∈ S j | lt a b } o') :
    ∃ children', stepEach (fun i child => if i = j then step child else .ok child) 0 children = .ok children' ∧
      children'.length = n ∧ Placed At (fun i => First lt { b ∈ S i | lt a b }) children' := by
  refine stepEach_placed h hlen fun i hi s o hat hready => ?_
  by_cases hij : i = j
  · obtain rfl := hij
    obtain rfl : o = some a := (if_pos rfl).mp hready
    obtain ⟨s', o', hs', hat', hfirst⟩ := hstep s hat
    exact ⟨s', o', (if_pos rfl).trans hs', hat', hfirst⟩
  · exact ⟨s, o, if_neg hij, hat, (if_neg hij).mp hready⟩

namespace Merges

variable (h : Merges compare c p target n S At)
include h

theorem next_ready {m : MergingIterator σ} (hm : MergingAt compare n S At m (some a)) :
    ∃ j < n, m.current = some j ∧ a ∈ S j ∧ entryOf c m.children j = .ok a ∧ ∃ children,
      allForward compare c m j a.1 = .ok children ∧
      children.length = n ∧ Placed At (Ready (fun a b => compare a.1 b.1 < 0) S a j) children := by
  obtain ⟨m, current, direction⟩ := m
  obtain ⟨hlen, hany, hsettled⟩ := hm
  cases direction with
  | forward =>
    obtain ⟨j, s, hj, rfl, hs, hat, ha⟩ := Settled.current_at h.inOrder hlen hsettled
    refine ⟨j, hj, rfl, ha, by simp only [entryOf, hs, (h.walks j hj).entry hat], m, if_pos rfl, hlen, ?_⟩
    exact Settled.ready h.inOrder h.disjoint hlen hsettled hs hat
  | reverse =>
    obtain ⟨j, s, hj, rfl, hs, hat, ha⟩ := Settled.current_at h.inOrder.flip hlen hsettled
    refine ⟨j, hj, rfl, ha, by simp only [entryOf, hs, (h.walks j hj).entry hat], ?_⟩
    exact turned_ready hany hlen hs hat fun i hi hij s o hat => h.turnForward_spec hi hj hij ha hat

theorem prev_ready {m : MergingIterator σ} (hm : MergingAt compare n S At m (some a)) :
    ∃ j < n, m.current = some j ∧ a ∈ S j ∧ entryOf c m.children j = .ok a ∧ ∃ children,
      allReverse c m j a.1 = .ok children ∧
      children.length = n ∧ Placed At (Ready (fun a b => compare b.1 a.1 < 0) S a j) children := by
  obtain ⟨m, current, direction⟩ := m
  obtain ⟨hlen, hany, hsettled⟩ := hm
  cases direction with
  | forward =>
    obtain ⟨j, s, hj, rfl, hs, hat, ha⟩ := Settled.current_at h.inOrder hlen hsettled
    refine ⟨j, hj, rfl, ha, by simp only [entryOf, hs, (h.walks j hj).entry hat], ?_⟩
    exact turned_ready hany hlen hs hat fun i hi hij s o hat => h.turnReverse_spec hi hj hij ha hat
  | reverse =>
    obtain ⟨j, s, hj, rfl, hs, hat, ha⟩ := Settled.current_at h.inOrder.flip hlen hsettled
    refine ⟨j, hj, rfl, ha, by simp only [entryOf, hs, (h.walks j hj).entry hat], m, if_pos rfl, hlen, ?_⟩
    exact Settled.ready h.inOrder.flip h.disjoint hlen hsettled hs hat

theorem next_spec {m : MergingIterator σ} (hm : MergingAt compare n S At m (some a)) :
    ∃ m' o', m.next compare c = .ok m' ∧ MergingAt compare n S At m' o' ∧
      First (fun a b => compare a.1 b.1 < 0) { b ∈ union n S | compare a.1 b.1 < 0 } o' := by
  obtain ⟨j, hj, hcurrent, ha, hentry, children, hturn, hlen, hready⟩ := h.next_ready hm
  obtain ⟨children', hstep, hlen', hplaced⟩ := Ready.step hready hlen fun s hat => (h.walks j hj).next hat
  obtain ⟨m', o', hm', hat', hfirst⟩ := h.forwardFrom_spec hlen'
    (fun x hx b hb hax hxb => h.inOrder.trans a ⟨j, hj, ha⟩ x hx b hb hax hxb) hplaced
  refine ⟨m', o', ?_, hat', hfirst⟩
  rw [MergingIterator.next, hcurrent]
  simp only [hentry, ok_bind, hturn, hstep, hm']

theorem prev_spec {m : MergingIterator σ} (hm : MergingAt compare n S At m (some a)) :
    ∃ m' o', m.prev compare c = .ok m' ∧ MergingAt compare n S At m' o' ∧
      Last (fun a b => compare a.1 b.1 < 0) { b ∈ union n S | compare b.1 a.1 < 0 } o' := by
  obtain ⟨j, hj, hcurrent, ha, hentry, children, hturn, hlen, hready⟩ := h.prev_ready hm
  obtain ⟨children', hstep, hlen', hplaced⟩ := Ready.step hready hlen fun s hat => (h.walks j hj).prev hat
  obtain ⟨m', o', hm', hat', hlast⟩ := h.reverseFrom_spec hlen'
    (fun x hx b hb hax hxb => h.inOrder.trans b hb x hx a ⟨j, hj, ha⟩ hxb hax) hplaced
  refine ⟨m', o', ?_, hat', hlast⟩
  rw [MergingIterator.prev, hcurrent]
  simp only [hentry, ok_bind, hturn, hstep, hm']

theorem walks_union : KeyWalks (mergingIterator compare c) compare target (union n S) (MergingAt compare n S At) where
  valid := by
    rintro ⟨m, current, direction⟩ o ⟨-, -, hsettled⟩
    cases direction <;> cases o <;> simp only [Settled] at hsettled
    · exact hsettled ▸ rfl
    · obtain ⟨⟨j, -, rfl, -⟩, -⟩ := hsettled
      rfl
    · exact hsettled ▸ rfl
    · obtain ⟨⟨j, -, rfl, -⟩, -⟩ := hsettled
      rfl
  entry := by
    intro m a hm
    obtain ⟨j, hj, hcurrent, -, hentry, -⟩ := h.next_ready hm
    simp only [mergingIterator, MergingIterator.entry, hcurrent, hentry]
  mem := by
    intro m a hm
    obtain ⟨j, hj, -, ha, -⟩ := h.next_ready hm
    exact ⟨j, hj, ha⟩
  seekToFirst := by
    rintro m o ⟨hlen, hany, -⟩
    have hfirst : ∀ i < n, ∀ s o, At i s o → True → ∃ s' o', c.seekToFirst s = .ok s' ∧ At i s' o' ∧
        First (fun a b => compare a.1 b.1 < 0) { b ∈ S i | True } o' := fun i hi s o hat _ => by
      simpa only [and_true, Set.ofPred_mem_eq] using (h.walks i hi).seekToFirst hat
    obtain ⟨children, hseek, hlen', hplaced⟩ := stepEach_placed hany hlen hfirst
    obtain ⟨m', o', hm', hat', hfirst⟩ := h.forwardFrom_spec hlen' (fun _ _ _ _ _ _ => trivial) hplaced
    refine ⟨m', o', by simp only [mergingIterator, hseek, ok_bind, hm'], hat', ?_⟩
    simpa only [and_true, Set.ofPred_mem_eq] using hfirst
  seekToLast := by
    rintro m o ⟨hlen, hany, -⟩
    have hlast : ∀ i < n, ∀ s o, At i s o → True → ∃ s' o', c.seekToLast s = .ok s' ∧ At i s' o' ∧
        First (fun a b => compare b.1 a.1 < 0) { b ∈ S i | True } o' := fun i hi s o hat _ => by
      simpa only [Last, and_true, Set.ofPred_mem_eq] using (h.walks i hi).seekToLast hat
    obtain ⟨children, hseek, hlen', hplaced⟩ := stepEach_placed hany hlen hlast
    obtain ⟨m', o', hm', hat', hlast⟩ := h.reverseFrom_spec hlen' (fun _ _ _ _ _ _ => trivial) hplaced
    refine ⟨m', o', by simp only [mergingIterator, hseek, ok_bind, hm'], hat', ?_⟩
    simpa only [Last, and_true, Set.ofPred_mem_eq] using hlast
  seek := by
    rintro m o k hk ⟨hlen, hany, -⟩
    obtain ⟨children, hseek, hlen', hplaced⟩ := stepEach_placed hany hlen fun i hi s o hat _ => (h.walks i hi).seek k hk hat
    have hup : ∀ a ∈ union n S, ∀ b ∈ union n S, ¬ compare a.1 k < 0 → compare a.1 b.1 < 0 → ¬ compare b.1 k < 0 :=
      fun a ha b hb hak hab hbk =>
        hak (h.order.lt_of_lt_of_le (h.holds _ (h.keys a ha)) (h.holds _ (h.keys b hb)) (h.holds _ hk) hab hbk.le)
    obtain ⟨m', o', hm', hat', hfirst⟩ := h.forwardFrom_spec hlen' hup hplaced
    exact ⟨m', o', by simp only [mergingIterator, hseek, ok_bind, hm'], hat', hfirst⟩
  next := h.next_spec
  prev := h.prev_spec

/-- What `NewMergingIterator` gives goes through the entries of all children, however many there are. -/
theorem new_walks (hlen : children.length = n) (hnew : Placed At (fun _ o => o = none) children) :
    ∃ MergedAt : Merged σ → Option (κ × ν) → Prop, MergedAt (newMergingIterator children) none ∧
      KeyWalks (mergedIterator compare c) compare target (union n S) MergedAt := by
  match children, hlen with
  | [], hlen =>
    subst hlen
    refine ⟨fun m o => m = .empty ∧ o = none, ⟨rfl, rfl⟩, ?_⟩
    have hempty : ∀ P : κ × ν → Prop, { a ∈ union 0 S | P a } = ∅ := by
      rintro P
      apply Set.eq_empty_of_forall_notMem
      rintro a ⟨⟨i, hi, -⟩, -⟩
      exact Nat.not_lt_zero i hi
    have hunion : union 0 S = ∅ := by
      have hall := hempty fun _ => True
      simpa only [and_true, Set.ofPred_mem_eq] using hall
    constructor
    · rintro _ _ ⟨rfl, rfl⟩
      rfl
    · rintro _ _ ⟨-, ho⟩
      cases ho
    · rintro _ _ ⟨-, ho⟩
      cases ho
    · rintro _ _ ⟨rfl, rfl⟩
      exact ⟨.empty, none, rfl, ⟨rfl, rfl⟩, hunion⟩
    · rintro _ _ ⟨rfl, rfl⟩
      exact ⟨.empty, none, rfl, ⟨rfl, rfl⟩, hunion⟩
    · rintro _ _ k - ⟨rfl, rfl⟩
      exact ⟨.empty, none, rfl, ⟨rfl, rfl⟩, hempty _⟩
    · rintro _ _ ⟨-, ho⟩
      cases ho
    · rintro _ _ ⟨-, ho⟩
      cases ho
  | [child], hlen =>
    subst hlen
    obtain ⟨o, hat, rfl⟩ := hnew 0 child rfl
    have hunion : union [child].length S = S 0 := by
      ext a
      constructor
      · rintro ⟨i, hi, ha⟩
        obtain rfl := Nat.lt_one_iff.mp hi
        exact ha
      · exact fun ha => ⟨0, Nat.one_pos, ha⟩
    rw [hunion]
    refine ⟨_, ⟨child, rfl, hat⟩, (h.walks 0 Nat.one_pos).onto Merged.single (fun _ => rfl) (fun _ => rfl) ?_⟩
    intro op s s' hs
    cases op <;> simp only [Cursor.call] at hs <;> simp only [Cursor.call, mergedIterator, Merged.step, hs, ok_bind]
  | child :: child' :: children, hlen =>
    refine ⟨_, ⟨⟨child :: child' :: children, none, .forward⟩, rfl, hlen, hnew.any, rfl⟩,
      h.walks_union.onto Merged.many (fun _ => rfl) (fun _ => rfl) ?_⟩
    intro op s s' hs
    cases op <;> simp only [Cursor.call] at hs <;> simp only [Cursor.call, mergedIterator, Merged.step, hs, ok_bind]

/-- Any calls take the iterator to where they go in the set of all entries, with no fault. -/
theorem merged_calls (hlen : children.length = n) (hnew : Placed At (fun _ o => o = none) children) {ops : List (Call κ)}
    {o : Option (κ × ν)}
    (hmoves : Moves (fun a b => compare a.1 b.1 < 0) (fun a k => compare a.1 k < 0) target (union n S) none ops o) :
    ∃ m, (mergedIterator compare c).calls ops (newMergingIterator children) = .ok m ∧
      (mergedIterator compare c).valid m = o.isSome ∧ ∀ a, o = some a → (mergedIterator compare c).entry m = .ok a := by
  obtain ⟨MergedAt, hat, hwalks⟩ := h.new_walks hlen hnew
  obtain ⟨m, hm, hat'⟩ := hwalks.calls h.inOrder hat hmoves
  refine ⟨m, hm, hwalks.valid hat', ?_⟩
  rintro a rfl
  exact hwalks.entry hat'

end Merges

/-- Two lists of entries of which one has an entry between those of the other, and the way to it and back. -/
theorem Merges.merged_calls_lists :
    ∃ m, (mergedIterator (fun a b : Nat => (a : Int) - b) (listCursor .assertFailed fun a k => decide (a.1 < k))).calls
        [.seekToLast, .prev, .prev, .next, .seek 3]
        (newMergingIterator [([(1, 10), (4, 40)], 2), ([(2, 20)], 1)]) = .ok m ∧
      (mergedIterator (fun a b : Nat => (a : Int) - b)
        (listCursor .assertFailed fun a k => decide (a.1 < k))).valid m = true ∧
      ∀ a, some (4, 40) = some a → (mergedIterator (fun a b : Nat => (a : Int) - b)
        (listCursor .assertFailed fun a k => decide (a.1 < k))).entry m = .ok a := by
  obtain ⟨S, hS⟩ : ∃ S : Nat → List (Nat × Nat), S = fun i => if i = 0 then [(1, 10), (4, 40)] else [(2, 20)] := ⟨_, rfl⟩
  have hunion : ∀ a, a ∈ union 2 (fun i => { a | a ∈ S i }) ↔ a = (1, 10) ∨ a = (4, 40) ∨ a = (2, 20) := by
    intro a
    constructor
    · rintro ⟨i, hi, ha⟩
      obtain rfl | rfl : i = 0 ∨ i = 1 := by omega
      · simp [hS] at ha
        tauto
      · simp [hS] at ha
        tauto
    · rintro (rfl | rfl | rfl)
      · exact ⟨0, by decide, by simp [hS]⟩
      · exact ⟨0, by decide, by simp [hS]⟩
      · exact ⟨1, by decide, by simp [hS]⟩
  have hsorted : ∀ i < 2, (S i).Pairwise fun a b => (a.1 : Int) - b.1 < 0 := by
    intro i hi
    obtain rfl | rfl : i = 0 ∨ i = 1 := by omega
    · simp [hS]
    · simp [hS]
  have hmerges : Merges (fun a b : Nat => (a : Int) - b) (listCursor .assertFailed fun a k => decide (a.1 < k))
      (fun _ => True) (fun _ => True) 2 (fun i => { a | a ∈ S i }) (fun i s o => s.1 = S i ∧ o = (S i)[s.2]?) := by
    constructor
    · intro i hi
      have hin := inOrder_of_pairwise (hsorted i hi) (by intros; omega) (by intros; omega)
      have hwalks := listCursor_walks (hsorted i hi) hin Fault.assertFailed (fun a k => decide (a.1 < k))
        fun k (_ : True) a _ b _ hab hbk => by simp at hbk ⊢; omega
      have hbefore : (fun (a : Nat × Nat) (k : Nat) => decide (a.1 < k) = true) =
          fun (a : Nat × Nat) (k : Nat) => (a.1 : Int) - k < 0 := by
        funext a k
        simp
      rwa [hbefore] at hwalks
    · exact ⟨by intros; omega, by intros; omega⟩
    · exact fun _ _ => trivial
    · exact fun _ _ => trivial
    · intro a ha b hb hne
      rw [hunion] at ha hb
      grind
    · intro i hi j hj hij a ha hb
      obtain rfl | rfl : i = 0 ∨ i = 1 := by omega
      · obtain rfl : j = 1 := by omega
        simp [hS] at ha hb
        grind
      · obtain rfl : j = 0 := by omega
        simp [hS] at ha hb
        grind
  have hnew : Placed (fun i s o => s.1 = S i ∧ o = (S i)[s.2]?) (fun _ o => o = none)
      [([(1, 10), (4, 40)], 2), ([(2, 20)], 1)] := by
    rintro (_ | _ | i) s hs <;> cases hs
    · exact ⟨none, by simp [hS], rfl⟩
    · exact ⟨none, by simp [hS], rfl⟩
  have hlast : Last (fun a b => (a.1 : Int) - b.1 < 0) (union 2 fun i => { a | a ∈ S i }) (some (4, 40)) := by
    simp only [Last, First, hunion]
    grind
  have hprev : ∀ a b, (a, b) = ((4, 40), (2, 20)) ∨ (a, b) = ((2, 20), (1, 10)) →
      Last (fun a b => (a.1 : Int) - b.1 < 0) { x ∈ union 2 fun i => { a | a ∈ S i } | (x.1 : Int) - a.1 < 0 } (some b) := by
    simp only [Last, First, Set.mem_ofPred_eq, hunion]
    grind
  have hnext : First (fun a b => (a.1 : Int) - b.1 < 0) { x ∈ union 2 fun i => { a | a ∈ S i } | (1 : Int) - x.1 < 0 }
      (some (2, 20)) := by
    simp only [First, Set.mem_ofPred_eq, hunion]
    grind
  have hseek : First (fun a b => (a.1 : Int) - b.1 < 0) { x ∈ union 2 fun i => { a | a ∈ S i } | ¬ (x.1 : Int) - 3 < 0 }
      (some (4, 40)) := by
    simp only [First, Set.mem_ofPred_eq, hunion]
    grind
  exact hmerges.merged_calls rfl hnew (.cons (.seekToLast hlast) (.cons (.prev (hprev _ _ (.inl rfl)))
    (.cons (.prev (hprev _ _ (.inr rfl))) (.cons (.next hnext) (.cons (.seek trivial hseek) (.nil _))))))

end Walks

end RecordStore.Merging
