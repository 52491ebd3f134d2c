import RecordStore.SkipLists

namespace RecordStore.SkipListLevels

open RecordStore.Outcome RecordStore.ThreeWay RecordStore.SkipLists RecordStore.SkipLists.SkipList

variable {K : Type} {s s' : SkipList K}

/-- Behind the node `x` the list of a level goes through these nodes with these keys, to its end. -/
def Linked (s : SkipList K) (level : Nat) : Nat → List (Nat × K) → Prop
  | x, [] => s.next x level = .ok none
  | x, e :: es => s.next x level = .ok (some e.1) ∧ s.keyOf e.1 = .ok e.2 ∧ Linked s level e.1 es

def lastFrom (x : Nat) (es : List (Nat × K)) : Nat := es.foldl (fun _ e => e.1) x

@[simp] theorem lastFrom_nil (x : Nat) : lastFrom x ([] : List (Nat × K)) = x := rfl

@[simp] theorem lastFrom_cons (x : Nat) (e : Nat × K) (es : List (Nat × K)) :
    lastFrom x (e :: es) = lastFrom e.1 es := rfl

@[simp] theorem lastFrom_snoc (x : Nat) (es : List (Nat × K)) (e : Nat × K) : lastFrom x (es ++ [e]) = e.1 := by
  rw [lastFrom, List.foldl_append]
  rfl

theorem lastFrom_mem (x : Nat) (es : List (Nat × K)) : lastFrom x es ∈ x :: es.map Prod.fst := by
  induction es generalizing x with
  | nil => exact List.mem_cons_self ..
  | cons e es ih => exact List.mem_cons_of_mem _ (ih e.1)

theorem Linked.drop {level x : Nat} {es rest : List (Nat × K)} (h : Linked s level x (es ++ rest)) :
    Linked s level (lastFrom x es) rest := by
  induction es generalizing x with
  | nil => exact h
  | cons e es ih => exact ih h.2.2

theorem Linked.next_eq {level x : Nat} {es : List (Nat × K)} (h : Linked s level x es) :
    s.next x level = .ok (es.head?.map Prod.fst) := by
  cases es with
  | nil => exact h
  | cons e es => exact h.1

theorem Linked.keyOf_eq {level x : Nat} {es : List (Nat × K)} (h : Linked s level x es) {e : Nat × K} (he : e ∈ es) :
    s.keyOf e.1 = .ok e.2 := by
  induction es generalizing x with
  | nil => cases he
  | cons e' es ih =>
    obtain rfl | he := List.mem_cons.mp he
    · exact h.2.1
    · exact ih h.2.2 he

theorem Linked.frame {level x : Nat} {es : List (Nat × K)} (h : Linked s level x es)
    (hnext : ∀ y ∈ x :: es.map Prod.fst, s'.next y level = s.next y level)
    (hkey : ∀ y ∈ es.map Prod.fst, s'.keyOf y = s.keyOf y) : Linked s' level x es := by
  induction es generalizing x with
  | nil => exact (hnext x (List.mem_cons_self ..)).trans h
  | cons e es ih =>
    refine ⟨(hnext x (List.mem_cons_self ..)).trans h.1, (hkey e.1 (List.mem_cons_self ..)).trans h.2.1, ?_⟩
    exact ih h.2.2 (fun y hy => hnext y (List.mem_cons_of_mem _ hy)) (fun y hy => hkey y (List.mem_cons_of_mem _ hy))

theorem Linked.insert {level x n : Nat} {key : K} {es rest : List (Nat × K)} (h : Linked s level x (es ++ rest))
    (hnodup : (x :: (es ++ rest).map Prod.fst).Nodup)
    (hn : s'.next n level = .ok (rest.head?.map Prod.fst)) (hkey : s'.keyOf n = .ok key)
    (hlast : s'.next (lastFrom x es) level = .ok (some n))
    (hnext : ∀ y ∈ x :: (es ++ rest).map Prod.fst, y ≠ lastFrom x es → s'.next y level = s.next y level)
    (hkeys : ∀ y ∈ (es ++ rest).map Prod.fst, s'.keyOf y = s.keyOf y) :
    Linked s' level x (es ++ (n, key) :: rest) := by
  induction es generalizing x with
  | nil =>
    refine ⟨hlast, hkey, ?_⟩
    cases rest with
    | nil => exact hn
    | cons e rest =>
      refine ⟨hn, (hkeys e.1 (List.mem_cons_self ..)).trans h.2.1, ?_⟩
      refine h.2.2.frame (fun y hy => hnext y (List.mem_cons_of_mem _ hy) ?_)
        (fun y hy => hkeys y (List.mem_cons_of_mem _ hy))
      rintro rfl
      exact (List.nodup_cons.mp hnodup).1 hy
  | cons e es ih =>
    have hnodup' := (List.nodup_cons.mp hnodup).2
    have hx : x ≠ lastFrom e.1 es := by
      intro hx
      have hmem := lastFrom_mem e.1 es
      rw [← hx] at hmem
      refine (List.nodup_cons.mp hnodup).1 ?_
      rw [List.cons_append, List.map_cons, List.map_append]
      exact List.mem_append_left (rest.map Prod.fst) hmem
    refine ⟨(hnext x (List.mem_cons_self ..) hx).trans h.1, (hkeys e.1 (List.mem_cons_self ..)).trans h.2.1, ?_⟩
    exact ih h.2.2 hnodup' hlast (fun y hy => hnext y (List.mem_cons_of_mem _ hy))
      (fun y hy => hkeys y (List.mem_cons_of_mem _ hy))

section Stores

theorem next_setNext {x level : Nat} {link : Option Nat} (h : s.setNext x level link = .ok s') (y l : Nat) :
    s'.next y l = if y = x ∧ l = level then .ok link else s.next y l := by
  unfold setNext at h
  split at h
  case h_2 => cases h
  rename_i node hnode
  split at h
  case isFalse => cases h
  rename_i hlevel
  cases h
  obtain ⟨hx, rfl⟩ := List.getElem?_eq_some_iff.mp hnode
  by_cases hy : y = x
  · subst hy
    by_cases hl : l = level
    · subst hl
      simp [SkipList.next, hx, hlevel]
    · simp [SkipList.next, hx, hl, Ne.symm hl]
  · simp [SkipList.next, hy, Ne.symm hy]

theorem keyOf_setNext {x level : Nat} {link : Option Nat} (h : s.setNext x level link = .ok s') (y : Nat) :
    s'.keyOf y = s.keyOf y := by
  unfold setNext at h
  split at h
  case h_2 => cases h
  rename_i node hnode
  split at h
  case isFalse => cases h
  cases h
  obtain ⟨hx, rfl⟩ := List.getElem?_eq_some_iff.mp hnode
  by_cases hy : y = x
  · subst hy
    simp [SkipList.keyOf, hx]
  · simp [SkipList.keyOf, Ne.symm hy]

theorem setNext_same {x level : Nat} {link : Option Nat} (h : s.setNext x level link = .ok s') :
    s'.nodes.length = s.nodes.length ∧ s'.maxHeight = s.maxHeight ∧ s'.seed = s.seed := by
  unfold setNext at h
  split at h
  case h_2 => cases h
  split at h
  case isFalse => cases h
  cases h
  exact ⟨List.length_set, rfl, rfl⟩

def HasHeight (s : SkipList K) (x height : Nat) : Prop := ∃ node, s.nodes[x]? = some node ∧ node.next.length = height

theorem HasHeight.setNext {y height x level : Nat} {link : Option Nat} (hy : HasHeight s y height)
    (h : s.setNext x level link = .ok s') : HasHeight s' y height := by
  obtain ⟨node', hnode', hlen⟩ := hy
  unfold SkipList.setNext at h
  split at h
  case h_2 => cases h
  rename_i node hnode
  split at h
  case isFalse => cases h
  cases h
  obtain ⟨hx, rfl⟩ := List.getElem?_eq_some_iff.mp hnode
  by_cases hyx : y = x
  · subst hyx
    rw [hnode] at hnode'
    cases hnode'
    exact ⟨_, List.getElem?_set_self hx, by rw [List.length_set]; exact hlen⟩
  · exact ⟨node', by rw [List.getElem?_set_ne (Ne.symm hyx)]; exact hnode', hlen⟩

theorem HasHeight.setNext_ok {x height level : Nat} (h : HasHeight s x height) (hlevel : level < height)
    (link : Option Nat) : ∃ s', s.setNext x level link = .ok s' := by
  obtain ⟨node, hnode, rfl⟩ := h
  rw [SkipList.setNext, hnode]
  exact ⟨_, if_pos hlevel⟩

theorem setNext_of_next {x level : Nat} {link : Option Nat} (h : s.next x level = .ok link) (link' : Option Nat) :
    ∃ s', s.setNext x level link' = .ok s' := by
  unfold SkipList.next at h
  cases hnode : s.nodes[x]? with
  | none =>
    rw [hnode] at h
    cases h
  | some node =>
    refine HasHeight.setNext_ok ⟨node, hnode, rfl⟩ ?_ link'
    by_contra hlevel
    rw [hnode, Option.bind_some, List.getElem?_eq_none (Nat.not_lt.mp hlevel)] at h
    cases h

theorem next_newNode {key : K} {height x level : Nat} (hx : x < s.nodes.length) :
    (s.newNode key height).next x level = s.next x level := by
  rw [SkipList.next, SkipList.newNode, List.getElem?_append_left hx]
  rfl

theorem keyOf_newNode {key : K} {height x : Nat} (hx : x < s.nodes.length) :
    (s.newNode key height).keyOf x = s.keyOf x := by
  rw [SkipList.keyOf, SkipList.newNode, List.getElem?_append_left hx]
  rfl

theorem newNode_self (key : K) (height : Nat) :
    HasHeight (s.newNode key height) s.nodes.length height ∧ (s.newNode key height).keyOf s.nodes.length = .ok key := by
  have hget : (s.newNode key height).nodes[s.nodes.length]? = some ⟨key, List.replicate height none⟩ :=
    List.getElem?_concat_length
  refine ⟨⟨_, hget, List.length_replicate⟩, ?_⟩
  rw [SkipList.keyOf, hget]

end Stores

/-- The lists of the levels, from the lowest one up: each is a part of the one below it, and the
lowest one is in order. -/
structure Shape (p : K → Prop) (cmp : K → K → Int) (nodes maxHeight : Nat) (levels : Nat → List (Nat × K)) : Prop where
  nested : ∀ l, (levels (l + 1)).Sublist (levels l)
  keys : ∀ e ∈ levels 0, p e.2
  sorted : (levels 0).Pairwise (fun a b => cmp a.2 b.2 < 0)
  nodup : (head :: (levels 0).map Prod.fst).Nodup
  bound : ∀ e ∈ levels 0, e.1 < nodes
  room : (levels 0).length < nodes
  height : 1 ≤ maxHeight ∧ maxHeight ≤ heightLimit
  top : ∀ l, maxHeight ≤ l → levels l = []

/-- What a skip list stands for at any moment. -/
structure Rep (p : K → Prop) (cmp : K → K → Int) (s : SkipList K) (levels : Nat → List (Nat × K)) : Prop
    extends Shape p cmp s.nodes.length s.maxHeight levels where
  linked : ∀ l < heightLimit, Linked s l head (levels l)

variable {p : K → Prop} {cmp : K → K → Int} {levels : Nat → List (Nat × K)}

section Search

variable {P : Nat × K → Prop} [DecidablePred P]
  {test : Nat → Option Nat → Except Fault Bool}

theorem Shape.sublist {nodes maxHeight : Nat} (h : Shape p cmp nodes maxHeight levels) (l : Nat) :
    (levels l).Sublist (levels 0) := by
  induction l with
  | zero => exact List.Sublist.refl _
  | succ l ih => exact (h.nested l).trans ih

/-- The test of a search says which nodes are passed. A node before one that is passed is passed. -/
structure Tests (levels : Nat → List (Nat × K)) (P : Nat × K → Prop) [DecidablePred P]
    (test : Nat → Option Nat → Except Fault Bool) : Prop where
  none : ∀ A : List (Nat × K), A.Sublist (levels 0) → (∀ a ∈ A, P a) → test (lastFrom head A) none = .ok false
  some : ∀ A : List (Nat × K), A.Sublist (levels 0) → (∀ a ∈ A, P a) → ∀ e ∈ levels 0,
    test (lastFrom head A) (some e.1) = .ok (decide (P e))
  before : (levels 0).Pairwise (fun a b => P b → P a)

theorem Tests.rest (ht : Tests levels P test) {e : Nat × K} {B : List (Nat × K)} (hB : (e :: B).Sublist (levels 0))
    (he : ¬ P e) : ∀ b ∈ e :: B, ¬ P b := by
  intro b hb hPb
  obtain rfl | hb := List.mem_cons.mp hb
  · exact he hPb
  · exact he ((List.pairwise_cons.mp (ht.before.sublist hB)).1 b hb hPb)

/-- A round goes on to the next node of the level, or the level has no further node to pass. -/
theorem searchStep_spec (h : Rep p cmp s levels) (ht : Tests levels P test) {level : Nat} (hlevel : level < heightLimit)
    {A B : List (Nat × K)} (hsplit : levels level = A ++ B) (hA : ∀ a ∈ A, P a) (prev : List Nat) :
    (∃ e B', B = e :: B' ∧ P e ∧ searchStep s test (lastFrom head A) level prev = .ok (.going e.1 level prev)) ∨
    ((∀ b ∈ B, ¬ P b) ∧ searchStep s test (lastFrom head A) level prev =
      match level with
      | 0 => .ok (.found (lastFrom head A) (B.head?.map Prod.fst) (lastFrom head A :: prev))
      | level + 1 => .ok (.going (lastFrom head A) level (lastFrom head A :: prev))) := by
  have hsub := h.sublist level
  rw [hsplit] at hsub
  have hA' := (List.sublist_append_left A B).trans hsub
  have hlinked : Linked s level head (A ++ B) := hsplit ▸ h.linked level hlevel
  have hnext := hlinked.drop.next_eq
  rw [searchStep, hnext, ok_bind]
  cases B with
  | nil =>
    right
    rw [List.head?_nil, Option.map_none, ht.none A hA' hA, ok_bind]
    refine ⟨fun b hb => absurd hb List.not_mem_nil, ?_⟩
    cases level <;> rfl
  | cons e B =>
    have he : e ∈ levels 0 := hsub.subset (List.mem_append_right A (List.mem_cons_self ..))
    rw [List.head?_cons, Option.map_some, ht.some A hA' hA e he, ok_bind]
    by_cases hP : P e
    · left
      exact ⟨e, B, rfl, hP, if_pos (decide_eq_true hP)⟩
    · right
      refine ⟨ht.rest ((List.sublist_append_right A _).trans hsub) hP, ?_⟩
      rw [decide_eq_false hP]
      cases level <;> rfl

theorem Rep.descend (h : Rep p cmp s levels) (ht : Tests levels P test) {level : Nat} {A B : List (Nat × K)}
    (hsplit : levels (level + 1) = A ++ B) (hA : ∀ a ∈ A, P a) :
    ∃ A' B', levels level = A' ++ B' ∧ (∀ a ∈ A', P a) ∧ lastFrom head A' = lastFrom head A := by
  obtain rfl | ⟨A0, a, rfl⟩ := List.eq_nil_or_concat' A
  · exact ⟨[], levels level, rfl, fun a ha => absurd ha List.not_mem_nil, rfl⟩
  · have hmem : a ∈ levels level := (h.nested level).subset (by
      rw [hsplit]
      exact List.mem_append_left _ (List.mem_append_right _ (List.mem_singleton_self a)))
    obtain ⟨C, D, hCD⟩ := List.append_of_mem hmem
    have ha : P a := hA a (List.mem_append_right _ (List.mem_singleton_self a))
    have hpair := ht.before.sublist (h.sublist level)
    rw [hCD] at hpair
    refine ⟨C ++ [a], D, by rw [hCD, List.append_assoc]; rfl, ?_, by rw [lastFrom_snoc, lastFrom_snoc]⟩
    intro c hc
    obtain hc | hc := List.mem_append.mp hc
    · exact (List.pairwise_append.mp hpair).2.2 c hc a (List.mem_cons_self ..) ha
    · exact List.mem_singleton.mp hc ▸ ha

theorem filter_split {A B : List (Nat × K)} (hA : ∀ a ∈ A, P a) (hB : ∀ b ∈ B, ¬ P b) :
    (A ++ B).filter (fun e => P e) = A ∧ (A ++ B).filter (fun e => ¬ P e) = B := by
  constructor
  · rw [List.filter_append, List.filter_eq_self.mpr (by simpa using hA), List.filter_eq_nil_iff.mpr (by simpa using hB),
      List.append_nil]
  · rw [List.filter_append, List.filter_eq_nil_iff.mpr (by simpa using hA), List.filter_eq_self.mpr (by simpa using hB),
      List.nil_append]

def lastPassed (levels : Nat → List (Nat × K)) (P : Nat × K → Prop) [DecidablePred P] (level : Nat) : Nat :=
  lastFrom head ((levels level).filter (fun e => P e))

theorem searchLoop_spec (h : Rep p cmp s levels) (ht : Tests levels P test) {fuel level : Nat} (hlevel : level < heightLimit)
    {A B : List (Nat × K)} (hsplit : levels level = A ++ B) (hA : ∀ a ∈ A, P a) (prev : List Nat)
    (hfuel : B.length + 1 + level * s.nodes.length ≤ fuel) :
    searchLoop s test fuel (.going (lastFrom head A) level prev) =
      .ok (lastPassed levels P 0, ((levels 0).filter (fun e => ¬ P e)).head?.map Prod.fst,
        (List.range (level + 1)).map (lastPassed levels P) ++ prev) := by
  induction fuel generalizing level A B prev with
  | zero => omega
  | succ fuel ih =>
    rw [searchLoop]
    obtain ⟨e, B', rfl, hP, hstep⟩ | ⟨hB, hstep⟩ := searchStep_spec h ht hlevel hsplit hA prev
    · rw [hstep, ok_bind, ← lastFrom_snoc head A e]
      refine ih hlevel (by rw [hsplit, List.append_assoc]; rfl) ?_ prev ?_
      · intro a ha
        obtain ha | ha := List.mem_append.mp ha
        · exact hA a ha
        · exact List.mem_singleton.mp ha ▸ hP
      · rw [List.length_cons] at hfuel
        omega
    · obtain ⟨hfilter, hfilter'⟩ := filter_split hA hB
      rw [← hsplit] at hfilter hfilter'
      have hlast : lastFrom head A = lastPassed levels P level := by rw [lastPassed, hfilter]
      cases level with
      | zero =>
        rw [hstep, ok_bind, searchLoop, hlast, hfilter']
        rfl
      | succ level =>
        obtain ⟨A', B', hsplit', hA', hlast'⟩ := h.descend ht hsplit hA
        have hshort : B'.length < s.nodes.length := by
          have hle := (h.sublist level).length_le
          rw [hsplit', List.length_append] at hle
          have hroom := h.room
          omega
        have hrange : List.range (level + 2) = List.range (level + 1) ++ [level + 1] := List.range_succ
        rw [hstep, ok_bind, ← hlast', ih (Nat.lt_of_succ_lt hlevel) hsplit' hA' _ (by
          rw [Nat.add_mul] at hfuel
          omega), hlast', hlast, hrange, List.map_append, List.append_assoc]
        rfl

/-- A search finds the last node it passes and the one behind it, and `prev` for each level. -/
theorem search_spec (h : Rep p cmp s levels) (ht : Tests levels P test) :
    search s test = .ok (lastPassed levels P 0, ((levels 0).filter (fun e => ¬ P e)).head?.map Prod.fst,
      (List.range s.maxHeight).map (lastPassed levels P)) := by
  have hheight := h.height
  have hroom := h.room
  have hle := (h.sublist (s.maxHeight - 1)).length_le
  have htop : s.maxHeight - 1 < heightLimit := by omega
  have hloop := searchLoop_spec h ht htop (List.nil_append (levels (s.maxHeight - 1))).symm
    (fun a ha => absurd ha List.not_mem_nil) [] (show _ ≤ s.maxHeight * (s.nodes.length + 1) by
      obtain ⟨m, hm⟩ := Nat.exists_eq_add_of_le' hheight.1
      rw [hm, Nat.add_sub_cancel, Nat.add_mul, Nat.mul_add]
      rw [hm, Nat.add_sub_cancel] at hle
      omega)
  rw [lastFrom_nil, Nat.sub_add_cancel hheight.1, List.append_nil] at hloop
  exact hloop

end Search

section Insert

variable {key : K}

/-- The levels once a node is linked into those below `i`. -/
def linkedBelow (cmp : K → K → Int) (levels : Nat → List (Nat × K)) (x : Nat) (key : K) (i l : Nat) :
    List (Nat × K) :=
  if l < i then
    (levels l).filter (fun e => cmp e.2 key < 0) ++ (x, key) :: (levels l).filter (fun e => ¬ cmp e.2 key < 0)
  else levels l

theorem linkedBelow_zero (x : Nat) : linkedBelow cmp levels x key 0 = levels := by
  funext l
  rw [linkedBelow, if_neg (Nat.not_lt_zero l)]

theorem mem_linkedBelow {x i l : Nat} {e : Nat × K} (h : e ∈ linkedBelow cmp levels x key i l) :
    e = (x, key) ∨ e ∈ levels l := by
  unfold linkedBelow at h
  split at h
  · obtain h | h := List.mem_append.mp h
    · exact .inr (List.mem_of_mem_filter h)
    · obtain rfl | h := List.mem_cons.mp h
      · exact .inl rfl
      · exact .inr (List.mem_of_mem_filter h)
  · exact .inr h

theorem Shape.before {nodes maxHeight : Nat} (ho : Orders p cmp) (h : Shape p cmp nodes maxHeight levels)
    (hkey : p key) : (levels 0).Pairwise (fun a b => cmp b.2 key < 0 → cmp a.2 key < 0) := by
  apply List.Pairwise.imp_of_mem _ h.sorted
  intro a b ha hb hab hb'
  exact ho.lt_of_lt_of_le (h.keys a ha) (h.keys b hb) hkey hab hb'.le

theorem filter_append_of_before {P : Nat × K → Prop} [DecidablePred P] {es : List (Nat × K)}
    (h : es.Pairwise (fun a b => P b → P a)) : es.filter (fun e => P e) ++ es.filter (fun e => ¬ P e) = es := by
  induction es with
  | nil => rfl
  | cons e es ih =>
    obtain ⟨he, hes⟩ := List.pairwise_cons.mp h
    by_cases hP : P e
    · rw [List.filter_cons_of_pos (by simpa using hP), List.filter_cons_of_neg (by simpa using hP), List.cons_append,
        ih hes]
    · have hnone : ∀ b ∈ es, ¬ P b := fun b hb hPb => hP (he b hb hPb)
      rw [List.filter_cons_of_neg (by simpa using hP), List.filter_cons_of_pos (by simpa using hP),
        List.filter_eq_nil_iff.mpr (by simpa using hnone), List.filter_eq_self.mpr (by simpa using hnone)]
      rfl

/-- Below the height of a new node the levels keep their shape while it is linked in. -/
theorem Shape.linkedBelow {nodes maxHeight x i : Nat} (ho : Orders p cmp) (h : Shape p cmp nodes maxHeight levels)
    (hkey : p key) (hnew : ∀ e ∈ levels 0, cmp e.2 key ≠ 0) (hx : x < nodes) (hfresh : x ∉ head :: (levels 0).map Prod.fst)
    (hroom : (levels 0).length + 1 < nodes) (hi : i ≤ maxHeight) :
    Shape p cmp nodes maxHeight (linkedBelow cmp levels x key i) := by
  cases i with
  | zero =>
    rw [linkedBelow_zero]
    exact h
  | succ i =>
    have hbelow (l : Nat) (hl : l < i + 1) : SkipListLevels.linkedBelow cmp levels x key (i + 1) l =
        (levels l).filter (fun e => cmp e.2 key < 0) ++ (x, key) :: (levels l).filter (fun e => ¬ cmp e.2 key < 0) :=
      if_pos hl
    have hsplit := filter_append_of_before (h.before ho hkey)
    have hperm : (SkipListLevels.linkedBelow cmp levels x key (i + 1) 0).Perm ((x, key) :: levels 0) := by
      rw [hbelow 0 (Nat.succ_pos i)]
      exact List.perm_middle.trans (List.Perm.cons _ (List.Perm.of_eq hsplit))
    refine ⟨fun l => ?_, fun e he => ?_, ?_, ?_, fun e he => ?_, ?_, h.height, fun l hl => ?_⟩
    · by_cases hl : l < i + 1
      · rw [hbelow l hl]
        by_cases hl' : l + 1 < i + 1
        · rw [hbelow (l + 1) hl']
          exact ((h.nested l).filter _).append (((h.nested l).filter _).cons_cons _)
        · rw [SkipListLevels.linkedBelow, if_neg hl']
          have hl0 : ((levels l).filter (fun e => cmp e.2 key < 0) ++
              (levels l).filter (fun e => ¬ cmp e.2 key < 0)) = levels l :=
            filter_append_of_before ((h.before ho hkey).sublist (h.sublist l))
          have hins := (List.Sublist.refl ((levels l).filter (fun e => cmp e.2 key < 0))).append
            ((List.Sublist.refl ((levels l).filter (fun e => ¬ cmp e.2 key < 0))).cons (x, key))
          rw [hl0] at hins
          exact (h.nested l).trans hins
      · rw [SkipListLevels.linkedBelow, SkipListLevels.linkedBelow, if_neg hl, if_neg (fun h' => hl (Nat.lt_of_succ_lt h'))]
        exact h.nested l
    · obtain rfl | he := mem_linkedBelow he
      · exact hkey
      · exact h.keys e he
    · rw [hbelow 0 (Nat.succ_pos i), List.pairwise_append]
      refine ⟨h.sorted.filter _, List.pairwise_cons.mpr ⟨?_, h.sorted.filter _⟩, ?_⟩
      · intro b hb
        obtain ⟨hb, hle⟩ := List.mem_filter.mp hb
        have hne := hnew b hb
        have hswap := ho.swap key b.2 hkey (h.keys b hb)
        have hge : ¬ cmp b.2 key < 0 := by simpa using hle
        show cmp key b.2 < 0
        omega
      · intro a ha b hb
        obtain ⟨ha, hlt⟩ := List.mem_filter.mp ha
        have hlt : cmp a.2 key < 0 := by simpa using hlt
        obtain rfl | hb := List.mem_cons.mp hb
        · exact hlt
        · obtain ⟨hb, hle⟩ := List.mem_filter.mp hb
          have hge : ¬ cmp b.2 key < 0 := by simpa using hle
          have hswap := ho.swap key b.2 hkey (h.keys b hb)
          have hswap' := ho.zero_iff hkey (h.keys b hb)
          refine ho.lt_of_lt_of_le (h.keys a ha) hkey (h.keys b hb) hlt ?_
          have hswap'' := ho.swap b.2 key (h.keys b hb) hkey
          omega
    · have hmap := (hperm.map Prod.fst).cons head
      rw [hmap.nodup_iff, List.map_cons]
      obtain ⟨hhead, hids⟩ := List.nodup_cons.mp h.nodup
      rw [List.mem_cons, not_or] at hfresh
      refine List.nodup_cons.mpr ⟨?_, List.nodup_cons.mpr ⟨hfresh.2, hids⟩⟩
      rw [List.mem_cons, not_or]
      exact ⟨Ne.symm hfresh.1, hhead⟩
    · obtain rfl | he := mem_linkedBelow he
      · exact hx
      · exact h.bound e he
    · rw [hperm.length_eq]
      exact hroom
    · rw [SkipListLevels.linkedBelow, if_neg (by omega)]
      exact h.top l hl

/-- A list while a node is linked in: below `i` the node is there, and its links can be set. -/
structure Linking (p : K → Prop) (cmp : K → K → Int) (levels : Nat → List (Nat × K)) (x : Nat) (key : K)
    (height i : Nat) (s : SkipList K) : Prop where
  rep : Rep p cmp s (linkedBelow cmp levels x key i)
  own : s.keyOf x = .ok key
  size : HasHeight s x height

theorem not_mem_linkedBelow {x i l : Nat} (h : x ∉ head :: (levels l).map Prod.fst) (hl : ¬ l < i) :
    x ∉ head :: (linkedBelow cmp levels x key i l).map Prod.fst := by
  rwa [linkedBelow, if_neg hl]

theorem mem_ids_sublist {l : Nat} (h : (levels l).Sublist (levels 0)) {y : Nat}
    (hy : y ∈ head :: (levels l).map Prod.fst) : y ∈ head :: (levels 0).map Prod.fst :=
  List.Sublist.subset ((h.map Prod.fst).cons_cons head) hy

variable {x height i : Nat}

/-- The node before the new one in a level that it is not yet in. -/
def before (cmp : K → K → Int) (levels : Nat → List (Nat × K)) (key : K) (i : Nat) : Nat :=
  lastPassed levels (fun e => cmp e.2 key < 0) i

theorem Linking.split (ho : Orders p cmp) (hkey : p key) {nodes maxHeight : Nat}
    (hshape : Shape p cmp nodes maxHeight levels) (l : Nat) :
    (levels l).filter (fun e => cmp e.2 key < 0) ++ (levels l).filter (fun e => ¬ cmp e.2 key < 0) = levels l :=
  filter_append_of_before ((hshape.before ho hkey).sublist (hshape.sublist l))

/-- The new node points to the rest of a level; nobody sees it. -/
theorem Linking.prepare (ho : Orders p cmp) (hkey : p key) {nodes maxHeight : Nat}
    (hshape : Shape p cmp nodes maxHeight levels) (hfresh : x ∉ head :: (levels 0).map Prod.fst)
    (h : Linking p cmp levels x key height i s) (hi : i < height) (hheight : height ≤ heightLimit) :
    ∃ s', SkipLists.prepare s x i (before cmp levels key i) = .ok s' ∧ Linking p cmp levels x key height i s' ∧
      s'.next x i = .ok (((levels i).filter (fun e => ¬ cmp e.2 key < 0)).head?.map Prod.fst) ∧
      s'.nodes.length = s.nodes.length ∧ s'.maxHeight = s.maxHeight ∧ s'.seed = s.seed := by
  have hlinked := h.rep.linked i (Nat.lt_of_lt_of_le hi hheight)
  rw [SkipListLevels.linkedBelow, if_neg (Nat.lt_irrefl i), ← Linking.split ho hkey hshape i] at hlinked
  obtain ⟨s', hset⟩ := h.size.setNext_ok hi (((levels i).filter (fun e => ¬ cmp e.2 key < 0)).head?.map Prod.fst)
  have hsame := setNext_same hset
  refine ⟨s', ?_, ⟨⟨?_, ?_⟩, ?_, h.size.setNext hset⟩, ?_, hsame⟩
  · rw [SkipLists.prepare, before, lastPassed, hlinked.drop.next_eq, ok_bind, hset]
  · rw [hsame.1, hsame.2.1]
    exact h.rep.toShape
  · intro l hl
    refine (h.rep.linked l hl).frame (fun y hy => ?_) (fun y _ => keyOf_setNext hset y)
    rw [next_setNext hset, if_neg]
    rintro ⟨rfl, rfl⟩
    refine not_mem_linkedBelow ?_ (Nat.lt_irrefl l) hy
    exact fun hy' => hfresh (mem_ids_sublist (hshape.sublist l) hy')
  · rw [keyOf_setNext hset]
    exact h.own
  · rw [next_setNext hset, if_pos ⟨rfl, rfl⟩]

/-- The node before the new one points to it; from then on it is there. -/
theorem Linking.publish (ho : Orders p cmp) (hkey : p key) {nodes maxHeight : Nat}
    (hshape : Shape p cmp nodes maxHeight levels) (hfresh : x ∉ head :: (levels 0).map Prod.fst)
    (h : Linking p cmp levels x key height i s) (hi : i < height) (hheight : height ≤ heightLimit)
    (hnext : s.next x i = .ok (((levels i).filter (fun e => ¬ cmp e.2 key < 0)).head?.map Prod.fst))
    (hshape' : Shape p cmp s.nodes.length s.maxHeight (linkedBelow cmp levels x key (i + 1))) :
    ∃ s', SkipLists.publish s x i (before cmp levels key i) = .ok s' ∧
      Linking p cmp levels x key height (i + 1) s' ∧
      s'.nodes.length = s.nodes.length ∧ s'.maxHeight = s.maxHeight ∧ s'.seed = s.seed := by
  have hlinked := h.rep.linked i (Nat.lt_of_lt_of_le hi hheight)
  have hsplit := Linking.split ho hkey hshape i
  rw [SkipListLevels.linkedBelow, if_neg (Nat.lt_irrefl i), ← hsplit] at hlinked
  obtain ⟨s', hset⟩ := setNext_of_next hlinked.drop.next_eq (some x)
  have hsame := setNext_same hset
  have hlast : before cmp levels key i ∈ head :: (levels i).map Prod.fst := by
    have hmem := lastFrom_mem head ((levels i).filter (fun e => cmp e.2 key < 0))
    exact List.Sublist.subset ((List.filter_sublist.map Prod.fst).cons_cons head) hmem
  have hx : before cmp levels key i ≠ x := fun he =>
    hfresh (mem_ids_sublist (hshape.sublist i) (he ▸ hlast))
  refine ⟨s', hset, ⟨⟨?_, ?_⟩, ?_, h.size.setNext hset⟩, hsame⟩
  · rw [hsame.1, hsame.2.1]
    exact hshape'
  · intro l hl
    by_cases hli : l = i
    · subst hli
      rw [SkipListLevels.linkedBelow, if_pos (Nat.lt_succ_self l)]
      refine hlinked.insert ?_ ?_ ?_ ?_ (fun y _ hy' => ?_) (fun y _ => keyOf_setNext hset y)
      · rw [hsplit]
        exact hshape.nodup.sublist (((hshape.sublist l).map Prod.fst).cons_cons head)
      · rw [next_setNext hset, if_neg (fun he => hx he.1.symm)]
        exact hnext
      · rw [keyOf_setNext hset]
        exact h.own
      · rw [next_setNext hset, if_pos ⟨rfl, rfl⟩]
      · rw [next_setNext hset, if_neg]
        exact fun he => hy' he.1
    · have hlevels : SkipListLevels.linkedBelow cmp levels x key (i + 1) l =
          SkipListLevels.linkedBelow cmp levels x key i l := by
        unfold SkipListLevels.linkedBelow
        by_cases hlt : l < i
        · rw [if_pos hlt, if_pos (Nat.lt_succ_of_lt hlt)]
        · rw [if_neg hlt, if_neg (by omega)]
      rw [hlevels]
      refine (h.rep.linked l hl).frame (fun y _ => ?_) (fun y _ => keyOf_setNext hset y)
      rw [next_setNext hset, if_neg (fun he => hli he.2)]
  · rw [keyOf_setNext hset]
    exact h.own

end Insert

end RecordStore.SkipListLevels
