import RecordStore.SkipListLevels

namespace RecordStore.SkipListRuns

open RecordStore.Outcome RecordStore.ThreeWay RecordStore.Cursors RecordStore.SkipLists RecordStore.SkipLists.SkipList
open RecordStore.SkipListLevels

variable {K : Type} {s s' : SkipList K} {p : K → Prop} {cmp : K → K → Int} {levels : Nat → List (Nat × K)} {key : K}

section Searches

theorem keyIsAfterNode_some (h : Rep p cmp s levels) {e : Nat × K} (he : e ∈ levels 0) :
    keyIsAfterNode s cmp key (some e.1) = .ok (decide (cmp e.2 key < 0)) := by
  rw [keyIsAfterNode, (h.linked 0 (by decide)).keyOf_eq he, ok_bind]

theorem tests_greaterOrEqual (ho : Orders p cmp) (h : Rep p cmp s levels) (hkey : p key) :
    Tests levels (fun e => cmp e.2 key < 0) (fun _ next => keyIsAfterNode s cmp key next) where
  none _ _ _ := rfl
  some _ _ _ _ he := keyIsAfterNode_some h he
  before := h.before ho hkey

theorem findGreaterOrEqual_spec (ho : Orders p cmp) (h : Rep p cmp s levels) (hkey : p key) :
    findGreaterOrEqual s cmp key =
      .ok (((levels 0).filter (fun e => ¬ cmp e.2 key < 0)).head?.map Prod.fst,
        (List.range s.maxHeight).map (before cmp levels key)) := by
  rw [findGreaterOrEqual, search_spec h (tests_greaterOrEqual ho h hkey), ok_bind]
  rfl

theorem lessThanTest_passed (h : Rep p cmp s levels) {A : List (Nat × K)} (hA : A.Sublist (levels 0))
    (hP : ∀ a ∈ A, cmp a.2 key < 0) (next : Option Nat) :
    lessThanTest s cmp key (lastFrom head A) next = keyIsAfterNode s cmp key next := by
  unfold lessThanTest
  obtain rfl | ⟨A, a, rfl⟩ := List.eq_nil_or_concat' A
  · rw [lastFrom_nil, if_pos rfl]
    rfl
  · have hmem : a ∈ A ++ [a] := List.mem_append_right _ (List.mem_singleton_self a)
    have ha := hA.subset hmem
    have hhead : a.1 ≠ head := fun he =>
      (List.nodup_cons.mp h.nodup).1 (he ▸ List.mem_map_of_mem ha)
    rw [lastFrom_snoc, if_neg hhead, keyIsAfterNode_some h ha, decide_eq_true (hP a hmem)]
    rfl

theorem findLessThan_spec (ho : Orders p cmp) (h : Rep p cmp s levels) (hkey : p key) :
    findLessThan s cmp key = .ok (before cmp levels key 0) := by
  have htests : Tests levels (fun e => cmp e.2 key < 0) (lessThanTest s cmp key) := {
    none := fun A hA hP => lessThanTest_passed h hA hP none
    some := fun A hA hP e he => (lessThanTest_passed h hA hP _).trans (keyIsAfterNode_some h he)
    before := h.before ho hkey }
  rw [findLessThan, search_spec h htests, ok_bind]
  rfl

theorem findLast_spec (h : Rep p cmp s levels) : findLast s = .ok (lastFrom head (levels 0)) := by
  have htests : Tests levels (fun _ => True) (fun _ next => .ok next.isSome) := {
    none := fun _ _ _ => rfl
    some := fun _ _ _ _ _ => rfl
    before := List.pairwise_of_forall fun _ _ _ => trivial }
  rw [findLast, search_spec h htests, ok_bind, lastPassed]
  simp

end Searches

section Insert

theorem before_of_top (h : Rep p cmp s levels) {i : Nat} (hi : s.maxHeight ≤ i) : before cmp levels key i = head := by
  rw [before, lastPassed, h.top i hi]
  rfl

theorem prev_eq (h : Rep p cmp s levels) (height : Nat) :
    ((List.range s.maxHeight).map (before cmp levels key) ++ List.replicate (height - s.maxHeight) head).take height =
      (List.range height).map (before cmp levels key) := by
  apply List.ext_getElem
  · simp only [List.length_take, List.length_append, List.length_map, List.length_range, List.length_replicate]
    omega
  · intro i hi hi'
    rw [List.length_map, List.length_range] at hi'
    simp only [List.getElem_take, List.getElem_map, List.getElem_range, List.getElem_append, List.length_map,
      List.length_range, List.getElem_replicate]
    split
    · rfl
    · exact (before_of_top h (by omega)).symm

theorem fresh (h : Rep p cmp s levels) : s.nodes.length ∉ head :: (levels 0).map Prod.fst := by
  intro hmem
  obtain he | hmem := List.mem_cons.mp hmem
  · have hroom := h.room
    rw [he] at hroom
    exact Nat.not_lt_zero _ hroom
  · obtain ⟨e, he, heq⟩ := List.mem_map.mp hmem
    exact Nat.lt_irrefl _ (heq ▸ h.bound e he)

theorem Shape.grow {nodes maxHeight height : Nat} (h : Shape p cmp nodes maxHeight levels) (hheight : height ≤ heightLimit) :
    Shape p cmp (nodes + 1) (max maxHeight height) levels where
  nested := h.nested
  keys := h.keys
  sorted := h.sorted
  nodup := h.nodup
  bound e he := Nat.lt_succ_of_lt (h.bound e he)
  room := Nat.lt_succ_of_lt h.room
  height := ⟨le_max_of_le_left h.height.1, max_le h.height.2 hheight⟩
  top l hl := h.top l (le_of_max_le_left hl)

/-- Before the loop nothing has changed for those who search. -/
theorem beginInsert_spec (ho : Orders p cmp) (h : Rep p cmp s levels) (hkey : p key)
    (hnew : ∀ e ∈ levels 0, cmp e.2 key ≠ 0) :
    ∃ s' height, beginInsert cmp s key =
        .ok (s', s.nodes.length, (List.range height).map (before cmp levels key)) ∧
      1 ≤ height ∧ height ≤ s'.maxHeight ∧ Linking p cmp levels s.nodes.length key height 0 s' ∧
      s'.nodes.length = s.nodes.length + 1 := by
  have hequal : equalNode s cmp key (((levels 0).filter (fun e => ¬ cmp e.2 key < 0)).head?.map Prod.fst) = .ok false := by
    cases hhead : ((levels 0).filter (fun e => ¬ cmp e.2 key < 0)).head? with
    | none => rfl
    | some e =>
      have he := List.mem_of_mem_filter (List.mem_of_head? hhead)
      have hne := hnew e he
      have hzero := ho.zero_iff hkey (h.keys e he)
      rw [Option.map_some, equalNode, (h.linked 0 (by decide)).keyOf_eq he, ok_bind,
        decide_eq_false fun h0 => hne (hzero.mp h0)]
  obtain ⟨hlow, hhigh⟩ := randomHeight_le s.seed
  let s1 : SkipList K := { s with maxHeight := max s.maxHeight (randomHeight s.seed).1, seed := (randomHeight s.seed).2 }
  have hlen : (s1.newNode key (randomHeight s.seed).1).nodes.length = s.nodes.length + 1 := by
    rw [SkipList.newNode, List.length_append]
    rfl
  obtain ⟨hsize, hown⟩ := newNode_self (s := s1) key (randomHeight s.seed).1
  have hstart : ∀ y ∈ head :: (levels 0).map Prod.fst, y < s1.nodes.length := by
    intro y hy
    obtain rfl | hy := List.mem_cons.mp hy
    · exact Nat.lt_of_le_of_lt (Nat.zero_le _) h.room
    · obtain ⟨e, he, rfl⟩ := List.mem_map.mp hy
      exact h.bound e he
  refine ⟨s1.newNode key (randomHeight s.seed).1, (randomHeight s.seed).1, ?_, hlow, le_max_right ..,
    ⟨⟨?_, ?_⟩, hown, hsize⟩, hlen⟩
  · rw [beginInsert, findGreaterOrEqual_spec ho h hkey, ok_bind]
    simp only [hequal, ok_bind, prev_eq h, Bool.false_eq_true, if_false]
    rfl
  · rw [linkedBelow_zero, hlen]
    exact Shape.grow h.toShape hhigh
  · rw [linkedBelow_zero]
    intro l hl
    refine (h.linked l hl).frame (fun y hy => ?_) (fun y hy => ?_)
    · exact next_newNode (s := s1) (hstart y (mem_ids_sublist (h.sublist l) hy))
    · exact keyOf_newNode (s := s1) (hstart y (mem_ids_sublist (h.sublist l) (List.mem_cons_of_mem _ hy)))

theorem linkLoop_spec (ho : Orders p cmp) (hkey : p key) {nodes maxHeight : Nat}
    (hshape : Shape p cmp nodes maxHeight levels) (hnew : ∀ e ∈ levels 0, cmp e.2 key ≠ 0) {x height : Nat}
    (hfresh : x ∉ head :: (levels 0).map Prod.fst) (hheight : height ≤ heightLimit) (n : Nat) {i : Nat}
    (hi : i + n = height) (h : Linking p cmp levels x key height i s) (htop : height ≤ s.maxHeight)
    (hx : x < s.nodes.length) (hroom : (levels 0).length + 1 < s.nodes.length)
    (hgrown : Shape p cmp s.nodes.length s.maxHeight levels) :
    ∃ s', linkLoop x i ((List.range' i n).map (before cmp levels key)) s = .ok s' ∧
      Linking p cmp levels x key height height s' ∧ s'.nodes.length = s.nodes.length := by
  induction n generalizing i s with
  | zero =>
    obtain rfl : i = height := hi
    exact ⟨s, rfl, h, rfl⟩
  | succ n ih =>
    obtain ⟨s1, hprepare, hlinking1, hnext, hlen1, hmax1, -⟩ :=
      h.prepare ho hkey hshape hfresh (by omega) hheight
    have hshape' : Shape p cmp s1.nodes.length s1.maxHeight (linkedBelow cmp levels x key (i + 1)) := by
      rw [hlen1, hmax1]
      exact hgrown.linkedBelow ho hkey hnew hx hfresh hroom (by omega)
    obtain ⟨s2, hpublish, hlinking2, hlen2, hmax2, -⟩ :=
      hlinking1.publish ho hkey hshape hfresh (by omega) hheight hnext hshape'
    obtain ⟨s', hloop, hdone, hlen⟩ := ih (show i + 1 + n = height by omega) hlinking2 (by rw [hmax2, hmax1]; exact htop)
      (by rw [hlen2, hlen1]; exact hx) (by rw [hlen2, hlen1]; exact hroom) (by rw [hlen2, hlen1, hmax2, hmax1]; exact hgrown)
    refine ⟨s', ?_, hdone, by rw [hlen, hlen2, hlen1]⟩
    rw [List.range'_succ, List.map_cons, linkLoop, hprepare, ok_bind, hpublish, ok_bind, hloop]

theorem insert_spec (ho : Orders p cmp) (h : Rep p cmp s levels) (hkey : p key) (hnew : ∀ e ∈ levels 0, cmp e.2 key ≠ 0) :
    ∃ s' levels', insert cmp s key = .ok s' ∧ Rep p cmp s' levels' ∧
      levels' 0 = (levels 0).filter (fun e => cmp e.2 key < 0) ++ (s.nodes.length, key) ::
        (levels 0).filter (fun e => ¬ cmp e.2 key < 0) := by
  obtain ⟨s1, height, hbegin, hlow, hhigh, hlinking, hlen⟩ := beginInsert_spec ho h hkey hnew
  have hgrown := hlinking.rep.toShape
  rw [linkedBelow_zero] at hgrown
  obtain ⟨s', hloop, hdone, -⟩ := linkLoop_spec ho hkey h.toShape hnew (fresh h) (hhigh.trans hlinking.rep.height.2) height
    (Nat.zero_add height) hlinking hhigh (by rw [hlen]; exact Nat.lt_succ_self _)
    (by rw [hlen]; exact Nat.succ_lt_succ h.room) hgrown
  refine ⟨s', linkedBelow cmp levels s.nodes.length key height, ?_, hdone.rep, if_pos hlow⟩
  unfold SkipLists.insert
  rw [hbegin, ok_bind]
  simp only [List.range_eq_range']
  exact hloop

theorem new_rep (key : K) : Rep p cmp (newSkipList key) (fun _ => []) where
  nested _ := List.Sublist.refl _
  keys e he := absurd he List.not_mem_nil
  sorted := List.Pairwise.nil
  nodup := List.nodup_singleton _
  bound e he := absurd he List.not_mem_nil
  room := Nat.zero_lt_one
  height := ⟨le_rfl, show 1 ≤ heightLimit by decide⟩
  top _ _ := rfl
  linked l hl := by
    show (newSkipList key).next head l = .ok none
    unfold heightLimit at hl
    rw [SkipList.next, newSkipList, head, List.getElem?_cons_zero, Option.bind_some, List.getElem?_replicate,
      if_pos (show l < heightLimit from hl)]
    rfl

theorem inserts_spec (ho : Orders p cmp) {keys : List K} (hkeys : ∀ k ∈ keys, p k)
    (hne : keys.Pairwise (fun a b => cmp a b ≠ 0)) (h : Rep p cmp s levels)
    (hnew : ∀ e ∈ levels 0, ∀ k ∈ keys, cmp e.2 k ≠ 0) :
    ∃ s' levels', inserts cmp keys s = .ok s' ∧ Rep p cmp s' levels' ∧
      ((levels' 0).map Prod.snd).Perm ((levels 0).map Prod.snd ++ keys) := by
  induction keys generalizing s levels with
  | nil => exact ⟨s, levels, rfl, h, by rw [List.append_nil]⟩
  | cons key keys ih =>
    obtain ⟨hfirst, hrest⟩ := List.pairwise_cons.mp hne
    have hkey := hkeys key (List.mem_cons_self ..)
    obtain ⟨s1, levels1, hinsert, hrep1, hlevel⟩ :=
      insert_spec ho h hkey (fun e he => hnew e he key (List.mem_cons_self ..))
    have hperm : ((levels1 0).map Prod.snd).Perm (key :: (levels 0).map Prod.snd) := by
      have hsplit := filter_append_of_before (h.before ho hkey)
      rw [hlevel]
      exact (List.perm_middle.trans (List.Perm.cons _ (List.Perm.of_eq hsplit))).map Prod.snd
    obtain ⟨s', levels', hinserts, hrep', hperm'⟩ := ih (fun k hk => hkeys k (List.mem_cons_of_mem _ hk)) hrest hrep1 (by
      intro e he k hk
      obtain he | he := List.mem_cons.mp (hperm.mem_iff.mp (List.mem_map_of_mem he))
      · exact he ▸ hfirst k hk
      · obtain ⟨e', he', heq⟩ := List.mem_map.mp he
        exact heq ▸ hnew e' he' k (List.mem_cons_of_mem _ hk))
    refine ⟨s', levels', ?_, hrep', ?_⟩
    · rw [inserts, hinsert, ok_bind, hinserts]
    · exact hperm'.trans ((hperm.append_right keys).trans (List.perm_middle.symm))

end Insert

section Iterator

def IteratorAt (levels : Nat → List (Nat × K)) (node : Option Nat) (o : Option K) : Prop :=
  match o with
  | some key => ∃ x, node = some x ∧ (x, key) ∈ levels 0
  | none => node = none

def keySet (levels : Nat → List (Nat × K)) : Set K := { k | k ∈ (levels 0).map Prod.snd }

theorem iteratorAt_entry {o : Option (Nat × K)} (h : ∀ e, o = some e → e ∈ levels 0) :
    IteratorAt levels (o.map Prod.fst) (o.map Prod.snd) := by
  cases o with
  | none => rfl
  | some e => exact ⟨e.1, rfl, h e rfl⟩

theorem keys_sorted (h : Rep p cmp s levels) : ((levels 0).map Prod.snd).Pairwise (fun a b => cmp a b < 0) :=
  List.pairwise_map.mpr h.sorted

theorem first_filter (h : Rep p cmp s levels) (P : K → Bool) :
    First (fun a b => cmp a b < 0) { k ∈ keySet levels | P k }
      (((levels 0).filter (fun e => P e.2)).head?.map Prod.snd) := by
  have hfirst := first_find? (keys_sorted h) P
  rwa [List.find?_map, ← List.head?_filter] at hfirst

theorem last_filter (h : Rep p cmp s levels) (P : K → Bool) :
    Last (fun a b => cmp a b < 0) { k ∈ keySet levels | P k }
      (((levels 0).filter (fun e => P e.2)).getLast?.map Prod.snd) := by
  have hlast := last_find? (keys_sorted h) P
  rwa [← List.map_reverse, List.find?_map, ← List.head?_filter, List.filter_reverse, List.head?_reverse] at hlast

theorem lastPassed_entry (h : Rep p cmp s levels) {es : List (Nat × K)} (hes : es.Sublist (levels 0)) :
    IteratorAt levels (if lastFrom head es = head then none else some (lastFrom head es)) (es.getLast?.map Prod.snd) := by
  obtain rfl | ⟨A, a, rfl⟩ := List.eq_nil_or_concat' es
  · exact if_pos rfl
  · have ha := hes.subset (List.mem_append_right A (List.mem_singleton_self a))
    have hhead : a.1 ≠ head := fun he => (List.nodup_cons.mp h.nodup).1 (he ▸ List.mem_map_of_mem ha)
    rw [lastFrom_snoc, if_neg hhead, List.getLast?_concat]
    exact ⟨a.1, rfl, ha⟩

theorem next_entry (ho : Orders p cmp) (h : Rep p cmp s levels) {x : Nat} {key : K} (hx : (x, key) ∈ levels 0) :
    s.next x 0 = .ok (((levels 0).filter (fun e => cmp key e.2 < 0)).head?.map Prod.fst) := by
  obtain ⟨A, B, hAB⟩ := List.append_of_mem hx
  have hsorted := h.sorted
  rw [hAB] at hsorted
  obtain ⟨-, hB, hA⟩ := List.pairwise_append.mp hsorted
  have hlinked := h.linked 0 (by decide)
  rw [hAB, ← List.singleton_append, ← List.append_assoc] at hlinked
  have hnext := hlinked.drop.next_eq
  rw [lastFrom_snoc] at hnext
  have hafter : (levels 0).filter (fun e => cmp key e.2 < 0) = B := by
    rw [hAB, List.filter_append, List.filter_cons_of_neg (by simp [ho.self (h.keys _ hx)]),
      List.filter_eq_nil_iff.mpr, List.filter_eq_self.mpr, List.nil_append]
    · intro b hb
      exact decide_eq_true ((List.pairwise_cons.mp hB).1 b hb)
    · intro a ha
      have hmem : a ∈ levels 0 := hAB ▸ List.mem_append_left _ ha
      have hlt : cmp a.2 key < 0 := hA a ha (x, key) (List.mem_cons_self ..)
      have hswap := ho.swap a.2 key (h.keys a hmem) (h.keys _ hx)
      simp only [decide_eq_true_eq]
      omega
  rw [hnext, hafter]

theorem iterator_walks (ho : Orders p cmp) (h : Rep p cmp s levels) :
    Walks (iterator cmp s) (fun a b => cmp a b < 0) (fun a k => cmp a k < 0) p (keySet levels) (IteratorAt levels) where
  valid {node o} hat := by
    cases o with
    | none =>
      cases hat
      rfl
    | some k =>
      obtain ⟨x, rfl, -⟩ := hat
      rfl
  entry hat := by
    obtain ⟨x, rfl, hx⟩ := hat
    exact (h.linked 0 (by decide)).keyOf_eq hx
  mem hat := by
    obtain ⟨x, -, hx⟩ := hat
    exact List.mem_map.mpr ⟨_, hx, rfl⟩
  seekToFirst _ := by
    refine ⟨_, _, (h.linked 0 (by decide)).next_eq, iteratorAt_entry fun e => List.mem_of_head?, ?_⟩
    have hfirst := first_filter h (fun _ => true)
    simpa using hfirst
  seekToLast _ := by
    refine ⟨_, (levels 0).getLast?.map Prod.snd, ?_, lastPassed_entry h (List.Sublist.refl _), ?_⟩
    · show iteratorSeekToLast s = _
      rw [iteratorSeekToLast, findLast_spec h, ok_bind]
    · have hlast := last_filter h (fun _ => true)
      simpa using hlast
  seek k hk _ := by
    refine ⟨_, _, ?_, iteratorAt_entry (o := ((levels 0).filter (fun e => ¬ cmp e.2 k < 0)).head?) ?_, ?_⟩
    · show iteratorSeek cmp s k = _
      rw [iteratorSeek, findGreaterOrEqual_spec ho h hk, ok_bind]
    · exact fun e he => List.mem_of_mem_filter (List.mem_of_head? he)
    · have hfirst := first_filter h (fun a => ¬ cmp a k < 0)
      simpa using hfirst
  next {node key} hat := by
    obtain ⟨x, rfl, hx⟩ := hat
    refine ⟨_, _, next_entry ho h hx, iteratorAt_entry fun e he => ?_, ?_⟩
    · exact List.mem_of_mem_filter (List.mem_of_head? he)
    · have hfirst := first_filter h (fun b => cmp key b < 0)
      simpa using hfirst
  prev {node key} hat := by
    obtain ⟨x, rfl, hx⟩ := hat
    refine ⟨_, _, ?_, lastPassed_entry h (List.filter_sublist (p := fun e => cmp e.2 key < 0)), ?_⟩
    · show iteratorPrev cmp s (some x) = _
      rw [iteratorPrev, (h.linked 0 (by decide)).keyOf_eq hx, ok_bind, findLessThan_spec ho h (h.keys _ hx), ok_bind]
      rfl
    · have hlast := last_filter h (fun b => cmp b key < 0)
      simpa using hlast

end Iterator

section Set

theorem contains_spec (ho : Orders p cmp) (h : Rep p cmp s levels) (hkey : p key) :
    ∃ b, contains s cmp key = .ok b ∧ (b = true ↔ ∃ k ∈ keySet levels, cmp key k = 0) := by
  rw [contains, findGreaterOrEqual_spec ho h hkey, ok_bind]
  have hsplit := filter_append_of_before (h.before ho hkey)
  have hsorted := h.sorted.filter (fun e => decide (¬ cmp e.2 key < 0))
  cases hrest : (levels 0).filter (fun e => ¬ cmp e.2 key < 0) with
  | nil =>
    refine ⟨false, rfl, fun h => (by cases h), ?_⟩
    rintro ⟨k, hk, hzero⟩
    obtain ⟨e, he, rfl⟩ := List.mem_map.mp hk
    have hlt := List.filter_eq_nil_iff.mp hrest e he
    have hswap := ho.zero_iff hkey (h.keys e he)
    simp only [decide_eq_true_eq, not_not] at hlt
    omega
  | cons e rest =>
    obtain ⟨he, hge⟩ := List.mem_filter.mp (hrest ▸ List.mem_cons_self .. : e ∈ (levels 0).filter _)
    have hge : ¬ cmp e.2 key < 0 := by simpa using hge
    have hpe := h.keys e he
    refine ⟨decide (cmp key e.2 = 0), ?_, ?_⟩
    · show equalNode s cmp key (some e.1) = _
      rw [equalNode, (h.linked 0 (by decide)).keyOf_eq he, ok_bind]
    · rw [decide_eq_true_iff]
      refine ⟨fun hzero => ⟨e.2, List.mem_map_of_mem he, hzero⟩, ?_⟩
      rintro ⟨k, hk, hzero⟩
      obtain ⟨e', he', rfl⟩ := List.mem_map.mp hk
      have hpe' := h.keys e' he'
      have hmem : e' ∈ e :: rest := by
        rw [← hrest, List.mem_filter]
        have hz := (ho.zero_iff hkey hpe').mp hzero
        exact ⟨he', by simpa using (show 0 ≤ cmp e'.2 key by omega)⟩
      rw [hrest] at hsorted
      have hle : cmp e.2 e'.2 ≤ 0 := by
        obtain rfl | hmem := List.mem_cons.mp hmem
        · exact (ho.self hpe').le
        · exact ((List.pairwise_cons.mp hsorted).1 e' hmem).le
      have hback := ho.trans _ _ _ hpe hpe' hkey hle ((ho.zero_iff hkey hpe').mp hzero).le
      exact (ho.zero_iff hpe hkey).mp (by omega)

/-- A list filled with any keys that are different, in any order, is the set of its keys: its iterator
goes through them in order, to and fro, and it contains what is equal to one of them. -/
theorem inserts_refine_set (ho : Orders p cmp) {keys : List K} (hkeys : ∀ k ∈ keys, p k)
    (hne : keys.Pairwise (fun a b => cmp a b ≠ 0)) (any : K) :
    ∃ s At, inserts cmp keys (newSkipList any) = .ok s ∧ At none none ∧
      Walks (iterator cmp s) (fun a b => cmp a b < 0) (fun a k => cmp a k < 0) p { k | k ∈ keys } At ∧
      ∀ key, p key → ∃ b, contains s cmp key = .ok b ∧ (b = true ↔ ∃ k ∈ keys, cmp key k = 0) := by
  obtain ⟨s, levels, hinserts, hrep, hperm⟩ :=
    inserts_spec ho hkeys hne (new_rep any) (fun e he => absurd he List.not_mem_nil)
  have hset : keySet levels = { k | k ∈ keys } := Set.ext fun k => hperm.mem_iff
  refine ⟨s, IteratorAt levels, hinserts, rfl, hset ▸ iterator_walks ho hrep, fun key hkey => ?_⟩
  obtain ⟨b, hb, hiff⟩ := contains_spec ho hrep hkey
  rw [hset] at hiff
  exact ⟨b, hb, hiff⟩

theorem difference_orders : Orders (fun _ : Int => True) (fun a b => a - b) where
  swap a b _ _ := by omega
  trans a b c _ _ _ := by omega

theorem inserts_refine_set_numbers :
    ∃ s At, inserts (fun a b => a - b) [5, -3, 2] (newSkipList (0 : Int)) = .ok s ∧ At none none ∧
      Walks (iterator (fun a b => a - b) s) (fun a b => a - b < 0) (fun a k => a - k < 0) (fun _ => True)
        { k | k ∈ [5, -3, 2] } At ∧
      ∀ key, True → ∃ b, contains s (fun a b => a - b) key = .ok b ∧ (b = true ↔ ∃ k ∈ [5, -3, 2], key - k = 0) :=
  inserts_refine_set difference_orders (fun _ _ => trivial) (by decide) 0

end Set

end RecordStore.SkipListRuns
