import RecordStore.SkipListRuns

namespace RecordStore.SkipListReaders

open RecordStore.Outcome RecordStore.ThreeWay RecordStore.SkipLists RecordStore.SkipLists.SkipList
open RecordStore.SkipListLevels RecordStore.SkipListRuns

variable {K : Type}

/-- Where an `Insert` is in its loop: the node, the key, the level, what is left of `prev`, and whether
the node has its own link for the level. -/
structure Inserting (K : Type) where
  node : Nat
  key : K
  level : Nat
  prev : List Nat
  prepared : Bool

/-- A list with the one writer it has at a time and a reader, which wait for nobody. `published` are
the keys that the lowest list leads to. -/
structure Config (K : Type) where
  list : SkipList K
  writer : Option (Inserting K)
  reader : Search
  published : List K

/-- What the writer does up to its next store that others can see. -/
inductive Write (cmp : K → K → Int) : Config K → Config K → Prop
  | start {s s' : SkipList K} {key : K} {x : Nat} {prev : List Nat} {r : Search} {keys : List K}
      (hbegin : beginInsert cmp s key = .ok (s', x, prev)) :
      Write cmp ⟨s, none, r, keys⟩ ⟨s', some ⟨x, key, 0, prev, false⟩, r, keys⟩
  | prepare {s s' : SkipList K} {key : K} {x level q : Nat} {prev : List Nat} {r : Search} {keys : List K}
      (hprepare : prepare s x level q = .ok s') :
      Write cmp ⟨s, some ⟨x, key, level, q :: prev, false⟩, r, keys⟩ ⟨s', some ⟨x, key, level, q :: prev, true⟩, r, keys⟩
  | publish {s s' : SkipList K} {key : K} {x level q : Nat} {prev : List Nat} {r : Search} {keys : List K}
      (hpublish : publish s x level q = .ok s') :
      Write cmp ⟨s, some ⟨x, key, level, q :: prev, true⟩, r, keys⟩
        ⟨s', some ⟨x, key, level + 1, prev, false⟩, r, if level = 0 then key :: keys else keys⟩
  | done {s : SkipList K} {key : K} {x level : Nat} {r : Search} {keys : List K} :
      Write cmp ⟨s, some ⟨x, key, level, [], false⟩, r, keys⟩ ⟨s, none, r, keys⟩

/-- What the reader does up to its next load of a link: it starts a search, or goes on with it. -/
inductive Read (cmp : K → K → Int) (target : K) : Config K → Config K → Prop
  | start {s : SkipList K} {w : Option (Inserting K)} {r : Search} {keys : List K} :
      Read cmp target ⟨s, w, r, keys⟩ ⟨s, w, .going head (s.maxHeight - 1) [], keys⟩
  | step {s : SkipList K} {w : Option (Inserting K)} {x level : Nat} {prev : List Nat} {r : Search} {keys : List K}
      (hstep : searchStep s (fun _ next => keyIsAfterNode s cmp target next) x level prev = .ok r) :
      Read cmp target ⟨s, w, .going x level prev, keys⟩ ⟨s, w, r, keys⟩

/-- The writer inserts keys that satisfy `p`, and the two take steps in any order. -/
inductive Reachable (p : K → Prop) (cmp : K → K → Int) (target any : K) : Config K → Prop
  | init : Reachable p cmp target any ⟨newSkipList any, none, .found head none [], []⟩
  | write {c c' : Config K} (h : Reachable p cmp target any c) (hstep : Write cmp c c')
      (hkey : ∀ w, c'.writer = some w → p w.key) : Reachable p cmp target any c'
  | read {c c' : Config K} (h : Reachable p cmp target any c) (hstep : Read cmp target c c') :
      Reachable p cmp target any c'

variable {p : K → Prop} {cmp : K → K → Int} {target any : K} {levels : Nat → List (Nat × K)}

/-- What the writer has in its hands, where `now` are the levels that others see. -/
inductive Writing (p : K → Prop) (cmp : K → K → Int) (s : SkipList K) : Option (Inserting K) →
    (Nat → List (Nat × K)) → Prop
  | idle {now : Nat → List (Nat × K)} (hrep : Rep p cmp s now) : Writing p cmp s none now
  | linking {levels : Nat → List (Nat × K)} {x : Nat} {key : K} {level : Nat} {prev : List Nat} {prepared : Bool}
      {n : Nat} (hprev : prev = (List.range' level n).map (before cmp levels key)) (hkey : p key)
      (hnew : ∀ e ∈ levels 0, cmp e.2 key ≠ 0) (hfresh : x ∉ head :: (levels 0).map Prod.fst)
      (hshape : Shape p cmp s.nodes.length s.maxHeight levels) (hx : x < s.nodes.length)
      (hroom : (levels 0).length + 1 < s.nodes.length) (hheight : level + n ≤ s.maxHeight)
      (hlinking : Linking p cmp levels x key (level + n) level s) (hmore : prepared = true → 0 < n)
      (hprepared : prepared = true →
        s.next x level = .ok (((levels level).filter (fun e => ¬ cmp e.2 key < 0)).head?.map Prod.fst)) :
      Writing p cmp s (some ⟨x, key, level, prev, prepared⟩) (linkedBelow cmp levels x key level)

theorem Writing.rep {s : SkipList K} {w : Option (Inserting K)} {now : Nat → List (Nat × K)}
    (h : Writing p cmp s w now) : Rep p cmp s now := by
  cases h with
  | idle hrep => exact hrep
  | linking _ _ _ _ _ _ _ _ hlinking _ _ => exact hlinking.rep

/-- A node that the reader has passed in a level. It stays passed, since nothing is taken out. -/
def Passed (cmp : K → K → Int) (target : K) (now : Nat → List (Nat × K)) (level x : Nat) : Prop :=
  x = head ∨ ∃ e ∈ now level, e.1 = x ∧ cmp e.2 target < 0

/-- The reader stands at a node that it has passed. -/
def Reading (cmp : K → K → Int) (target : K) (now : Nat → List (Nat × K)) : Search → Prop
  | .going x level _ => level < heightLimit ∧ Passed cmp target now level x
  | .found _ _ _ => True

theorem Reading.mono {now now' : Nat → List (Nat × K)} {r : Search} (h : Reading cmp target now r)
    (hle : ∀ l, ∀ e ∈ now l, e ∈ now' l) : Reading cmp target now' r := by
  cases r with
  | found => trivial
  | going x level prev =>
    refine ⟨h.1, h.2.imp id ?_⟩
    rintro ⟨e, he, heq⟩
    exact ⟨e, hle level e he, heq⟩

theorem Passed.split {s : SkipList K} {now : Nat → List (Nat × K)} (ho : Orders p cmp) (hrep : Rep p cmp s now)
    (htarget : p target) {level x : Nat} (h : Passed cmp target now level x) :
    ∃ A B, now level = A ++ B ∧ (∀ a ∈ A, cmp a.2 target < 0) ∧ lastFrom head A = x := by
  obtain rfl | ⟨e, he, rfl, hlt⟩ := h
  · exact ⟨[], now level, rfl, fun a ha => absurd ha List.not_mem_nil, rfl⟩
  · obtain ⟨C, D, hCD⟩ := List.append_of_mem he
    have hpair := (hrep.before ho htarget).sublist (hrep.sublist level)
    rw [hCD] at hpair
    refine ⟨C ++ [e], D, by rw [hCD, List.append_assoc]; rfl, fun a ha => ?_, lastFrom_snoc ..⟩
    obtain ha | ha := List.mem_append.mp ha
    · exact (List.pairwise_append.mp hpair).2.2 a ha e (List.mem_cons_self ..) hlt
    · exact List.mem_singleton.mp ha ▸ hlt

theorem passed_last {now : Nat → List (Nat × K)} {level level' : Nat} {A B : List (Nat × K)}
    (hsplit : now level = A ++ B) (hA : ∀ a ∈ A, cmp a.2 target < 0) (hle : ∀ e ∈ now level, e ∈ now level') :
    Passed cmp target now level' (lastFrom head A) := by
  obtain rfl | ⟨A, a, rfl⟩ := List.eq_nil_or_concat' A
  · exact .inl rfl
  · have ha : a ∈ A ++ [a] := List.mem_append_right _ (List.mem_singleton_self a)
    exact .inr ⟨a, hle a (hsplit ▸ List.mem_append_left _ ha), (lastFrom_snoc ..).symm, hA a ha⟩

/-- A load of the reader, at any moment: it does not fail, the reader stays at a node that it has passed,
and a node that it finds is the first one at or behind its key in the list of that moment. -/
theorem read_spec {s : SkipList K} {now : Nat → List (Nat × K)} (ho : Orders p cmp) (hrep : Rep p cmp s now)
    (htarget : p target) {x level : Nat} {prev : List Nat} (hr : Reading cmp target now (.going x level prev)) :
    ∃ r, searchStep s (fun _ next => keyIsAfterNode s cmp target next) x level prev = .ok r ∧
      Reading cmp target now r ∧
      ∀ y next prev', r = .found y next prev' →
        next = ((now 0).find? (fun e => ¬ cmp e.2 target < 0)).map Prod.fst := by
  obtain ⟨hlevel, hpassed⟩ := hr
  obtain ⟨A, B, hsplit, hA, rfl⟩ := hpassed.split ho hrep htarget
  obtain ⟨e, B', rfl, hlt, hstep⟩ | ⟨hB, hstep⟩ :=
    searchStep_spec hrep (tests_greaterOrEqual ho hrep htarget) hlevel hsplit hA prev
  · refine ⟨_, hstep, ⟨hlevel, .inr ⟨e, ?_, rfl, hlt⟩⟩, fun y next prev' h => by cases h⟩
    rw [hsplit]
    exact List.mem_append_right _ (List.mem_cons_self ..)
  · cases level with
    | zero =>
      refine ⟨_, hstep, trivial, fun y next prev' h => ?_⟩
      cases h
      rw [← List.head?_filter, hsplit, (filter_split hA hB).2]
    | succ level =>
      refine ⟨_, hstep, ⟨Nat.lt_of_succ_lt hlevel, ?_⟩, fun y next prev' h => by cases h⟩
      exact passed_last hsplit hA (fun e he => (hrep.nested level).subset he)

/-- A store never takes a node out of a list. -/
theorem linkedBelow_mono {x i : Nat} {key : K} (ho : Orders p cmp) {nodes maxHeight : Nat}
    (hshape : Shape p cmp nodes maxHeight levels) (hkey : p key) (l : Nat) (e : Nat × K)
    (he : e ∈ linkedBelow cmp levels x key i l) : e ∈ linkedBelow cmp levels x key (i + 1) l := by
  unfold linkedBelow at he ⊢
  by_cases hl : l < i
  · rw [if_pos hl] at he
    rw [if_pos (Nat.lt_succ_of_lt hl)]
    exact he
  · rw [if_neg hl] at he
    split
    · rw [← Linking.split ho hkey hshape l] at he
      exact List.perm_middle.mem_iff.mpr (List.mem_cons_of_mem _ he)
    · exact he

/-- The assertion of `Insert` keeps keys out that are there. -/
theorem begin_new {s : SkipList K} {key : K} {r : SkipList K × Nat × List Nat} (ho : Orders p cmp)
    (hrep : Rep p cmp s levels) (hkey : p key) (h : beginInsert cmp s key = .ok r) :
    ∀ e ∈ levels 0, cmp e.2 key ≠ 0 := by
  intro e he hzero
  obtain ⟨b, hb, hiff⟩ := contains_spec ho hrep hkey
  have htrue : b = true := hiff.mpr ⟨e.2, List.mem_map_of_mem he, (ho.zero_iff (hrep.keys e he) hkey).mp hzero⟩
  rw [contains, findGreaterOrEqual_spec ho hrep hkey, ok_bind] at hb
  rw [beginInsert, findGreaterOrEqual_spec ho hrep hkey, ok_bind] at h
  simp only [hb, htrue, ok_bind, if_true] at h
  cases h

/-- What holds whatever the two have done: there are levels that the links stand for, the writer is
putting a key into them, and the reader is in them. -/
structure Good (p : K → Prop) (cmp : K → K → Int) (target : K) (c : Config K) (now : Nat → List (Nat × K)) : Prop where
  writing : Writing p cmp c.list c.writer now
  reading : Reading cmp target now c.reader
  published : ((now 0).map Prod.snd).Perm c.published

theorem Good.write {c c' : Config K} {now : Nat → List (Nat × K)} (ho : Orders p cmp) (h : Good p cmp target c now)
    (hstep : Write cmp c c') (hkey' : ∀ w, c'.writer = some w → p w.key) : ∃ now', Good p cmp target c' now' := by
  obtain ⟨hwriting, hreading, hpublished⟩ := h
  cases hstep with
  | @start s s' key x prev r keys hbegin =>
    cases hwriting with
    | idle hrep =>
      have hkey : p key := hkey' _ rfl
      have hnew := begin_new ho hrep hkey hbegin
      obtain ⟨s1, height, hbegin', -, hhigh, hlinking, hlen⟩ := beginInsert_spec ho hrep hkey hnew
      rw [hbegin] at hbegin'
      cases hbegin'
      have hshape := hlinking.rep.toShape
      rw [linkedBelow_zero] at hshape
      have hwriting' : Writing p cmp s' (some ⟨s.nodes.length, key, 0, _, false⟩) (linkedBelow cmp now _ key 0) :=
        .linking (congrArg _ (List.range_eq_range' (n := height))) hkey hnew (fresh hrep) hshape
          (by rw [hlen]; exact Nat.lt_succ_self _) (by rw [hlen]; exact Nat.succ_lt_succ hrep.room)
          (by rw [Nat.zero_add]; exact hhigh) (by rw [Nat.zero_add]; exact hlinking) (fun h => by cases h)
          (fun h => by cases h)
      rw [linkedBelow_zero] at hwriting'
      exact ⟨now, hwriting', hreading, hpublished⟩
  | @prepare s s' key x level q prev r keys hprepare =>
    cases hwriting with
    | @linking levels x key level prev prepared n hprev hkey hnew hfresh hshape hx hroom hheight hlinking hmore hprepared =>
      obtain ⟨n, rfl⟩ : ∃ m, n = m + 1 := by
        cases n with
        | zero => cases hprev
        | succ n => exact ⟨n, rfl⟩
      rw [List.range'_succ, List.map_cons] at hprev
      obtain ⟨rfl, rfl⟩ := List.cons.inj hprev
      obtain ⟨s1, hprepare', hlinking', hnext, hlen, hmax, -⟩ :=
        hlinking.prepare ho hkey hshape hfresh (by omega) (hheight.trans hlinking.rep.height.2)
      rw [hprepare] at hprepare'
      cases hprepare'
      refine ⟨_, .linking (n := n + 1) ?_ hkey hnew hfresh ?_ ?_ ?_ ?_ hlinking' (fun _ => Nat.succ_pos n) (fun _ => hnext),
        hreading, hpublished⟩
      · rw [List.range'_succ, List.map_cons]
      · rw [hlen, hmax]
        exact hshape
      · rw [hlen]
        exact hx
      · rw [hlen]
        exact hroom
      · rw [hmax]
        exact hheight
  | @publish s s' key x level q prev r keys hpublish =>
    cases hwriting with
    | @linking levels x key level prev prepared n hprev hkey hnew hfresh hshape hx hroom hheight hlinking hmore hprepared =>
      obtain ⟨n, rfl⟩ : ∃ m, n = m + 1 := by
        cases n with
        | zero => cases hprev
        | succ n => exact ⟨n, rfl⟩
      rw [List.range'_succ, List.map_cons] at hprev
      obtain ⟨rfl, rfl⟩ := List.cons.inj hprev
      have hshape' := hshape.linkedBelow (i := level + 1) ho hkey hnew hx hfresh hroom (by omega)
      obtain ⟨s1, hpublish', hlinking', hlen, hmax, -⟩ :=
        hlinking.publish ho hkey hshape hfresh (by omega) (hheight.trans hlinking.rep.height.2) (hprepared rfl) hshape'
      rw [hpublish] at hpublish'
      cases hpublish'
      have hend : level + 1 + n = level + (n + 1) := by omega
      refine ⟨linkedBelow cmp levels x key (level + 1),
        .linking (n := n) rfl hkey hnew hfresh ?_ ?_ ?_ ?_ ?_ (fun h => by cases h) (fun h => by cases h),
        hreading.mono (linkedBelow_mono ho hshape hkey), ?_⟩
      · rw [hlen, hmax]
        exact hshape
      · rw [hlen]
        exact hx
      · rw [hlen]
        exact hroom
      · rw [hmax, hend]
        exact hheight
      · rw [hend]
        exact hlinking'
      · show (((linkedBelow cmp levels x key (level + 1)) 0).map Prod.snd).Perm (if level = 0 then key :: keys else keys)
        rw [linkedBelow, if_pos (Nat.succ_pos level)]
        by_cases hlevel : level = 0
        · subst hlevel
          rw [linkedBelow_zero] at hpublished
          have hsplit := Linking.split ho hkey hshape 0
          rw [if_pos rfl]
          refine (List.perm_middle.map Prod.snd).trans ?_
          rw [List.map_cons, hsplit]
          exact hpublished.cons key
        · rw [if_neg hlevel]
          rw [linkedBelow, if_pos (Nat.pos_of_ne_zero hlevel)] at hpublished
          exact hpublished
  | @done s key x level r keys =>
    cases hwriting with
    | linking _ _ _ _ _ _ _ _ hlinking _ _ => exact ⟨_, .idle hlinking.rep, hreading, hpublished⟩

theorem Good.read {c c' : Config K} {now : Nat → List (Nat × K)} (ho : Orders p cmp) (htarget : p target)
    (h : Good p cmp target c now) (hstep : Read cmp target c c') : Good p cmp target c' now := by
  obtain ⟨hwriting, hreading, hpublished⟩ := h
  have hrep := hwriting.rep
  cases hstep with
  | @start s w r keys =>
    refine ⟨hwriting, ⟨?_, .inl rfl⟩, hpublished⟩
    have hheight : 1 ≤ s.maxHeight ∧ s.maxHeight ≤ heightLimit := hrep.height
    omega
  | step hstep =>
    obtain ⟨r, hread, hreading', -⟩ := read_spec ho hrep htarget hreading
    rw [hstep] at hread
    cases hread
    exact ⟨hwriting, hreading', hpublished⟩

theorem Reachable.good {c : Config K} (ho : Orders p cmp) (htarget : p target) (h : Reachable p cmp target any c) :
    ∃ now, Good p cmp target c now := by
  induction h with
  | init => exact ⟨fun _ => [], .idle (new_rep any), trivial, List.Perm.refl _⟩
  | write _ hstep hkey ih =>
    obtain ⟨now, hgood⟩ := ih
    exact hgood.write ho hstep hkey
  | read _ hstep ih =>
    obtain ⟨now, hgood⟩ := ih
    exact ⟨now, hgood.read ho htarget hstep⟩

theorem Writing.step {s : SkipList K} {w : Inserting K} {now : Nat → List (Nat × K)} (ho : Orders p cmp)
    (h : Writing p cmp s (some w) now) (r : Search) (keys : List K) : ∃ c', Write cmp ⟨s, some w, r, keys⟩ c' := by
  cases h with
  | @linking levels x key level prev prepared n hprev hkey hnew hfresh hshape hx hroom hheight hlinking hmore hprepared =>
    cases n with
    | zero =>
      obtain rfl : prev = [] := hprev
      cases prepared with
      | true => exact absurd (hmore rfl) (Nat.lt_irrefl 0)
      | false => exact ⟨_, .done⟩
    | succ n =>
      rw [List.range'_succ, List.map_cons] at hprev
      subst hprev
      cases prepared with
      | false =>
        obtain ⟨s1, hprepare, -⟩ := hlinking.prepare ho hkey hshape hfresh (by omega) (hheight.trans hlinking.rep.height.2)
        exact ⟨_, .prepare hprepare⟩
      | true =>
        have hshape' := hshape.linkedBelow (i := level + 1) ho hkey hnew hx hfresh hroom (by omega)
        obtain ⟨s1, hpublish, -⟩ := hlinking.publish ho hkey hshape hfresh (by omega)
          (hheight.trans hlinking.rep.height.2) (hprepared rfl) hshape'
        exact ⟨_, .publish hpublish⟩

theorem begin_write {c : Config K} {now : Nat → List (Nat × K)} (ho : Orders p cmp) (hrep : Rep p cmp c.list now)
    (hpublished : ((now 0).map Prod.snd).Perm c.published) (hidle : c.writer = none) {key : K} (hkey : p key)
    (hnew : ∀ k ∈ c.published, cmp k key ≠ 0) :
    ∃ s x prev, Write cmp c ⟨s, some ⟨x, key, 0, prev, false⟩, c.reader, c.published⟩ := by
  have habsent : ∀ e ∈ now 0, cmp e.2 key ≠ 0 := fun e he =>
    hnew e.2 (hpublished.mem_iff.mp (List.mem_map_of_mem he))
  obtain ⟨s, height, hbegin, -⟩ := beginInsert_spec ho hrep hkey habsent
  obtain ⟨list, w, r, keys⟩ := c
  obtain rfl : w = none := hidle
  exact ⟨s, _, _, .start hbegin⟩

/-- However the stores of a writer and the loads of a reader fall: neither of them fails or touches a
link that is not set, a writer that is not at work can begin with any key that is not published, the
lowest list leads through the published keys in order, and a node that the reader finds is the first
one at or behind its key in the list of the moment of its last load. -/
theorem readers_need_no_lock (ho : Orders p cmp) (htarget : p target) {c : Config K}
    (h : Reachable p cmp target any c) :
    (∀ w, c.writer = some w → ∃ c', Write cmp c c') ∧
    (c.writer = none → ∀ key, p key → (∀ k ∈ c.published, cmp k key ≠ 0) →
      ∃ s x prev, Write cmp c ⟨s, some ⟨x, key, 0, prev, false⟩, c.reader, c.published⟩) ∧
    ∃ es : List (Nat × K), Linked c.list 0 head es ∧ es.Pairwise (fun a b => cmp a.2 b.2 < 0) ∧
      (es.map Prod.snd).Perm c.published ∧
      ∀ x level prev, c.reader = .going x level prev →
        ∃ r, searchStep c.list (fun _ next => keyIsAfterNode c.list cmp target next) x level prev = .ok r ∧
          ∀ y next prev', r = .found y next prev' →
            next = (es.find? (fun e => ¬ cmp e.2 target < 0)).map Prod.fst := by
  obtain ⟨now, hwriting, hreading, hpublished⟩ := h.good ho htarget
  have hrep := hwriting.rep
  refine ⟨fun w hw => ?_, fun hidle key hkey hnew => begin_write ho hrep hpublished hidle hkey hnew, now 0,
    hrep.linked 0 (by decide), hrep.sorted, hpublished, fun x level prev hr => ?_⟩
  · obtain ⟨s, w', r, keys⟩ := c
    obtain rfl : w' = some w := hw
    exact hwriting.step ho r keys
  · rw [hr] at hreading
    obtain ⟨r, hstep, -, hfound⟩ := read_spec ho hrep htarget hreading
    exact ⟨r, hstep, hfound⟩

/-- A reader looks for 7 while 5 is put into an empty list. -/
theorem readers_need_no_lock_five :
    ∃ c : Config Int, c.writer.isSome ∧ c.reader = .going head (c.list.maxHeight - 1) [] ∧
      (∀ w, c.writer = some w → ∃ c', Write (fun a b => a - b) c c') ∧
      ∃ es : List (Nat × Int), Linked c.list 0 head es ∧ es.Pairwise (fun a b => a.2 - b.2 < 0) ∧
        (es.map Prod.snd).Perm c.published ∧
        ∀ x level prev, c.reader = .going x level prev →
          ∃ r, searchStep c.list (fun _ next => keyIsAfterNode c.list (fun a b => a - b) 7 next) x level prev = .ok r ∧
            ∀ y next prev', r = .found y next prev' →
              next = (es.find? (fun e => ¬ e.2 - 7 < 0)).map Prod.fst := by
  have hnew : Reachable (fun _ => True) (fun a b => a - b) 7 (0 : Int) ⟨newSkipList 0, none, .found head none [], []⟩ :=
    .init
  obtain ⟨-, hbegin, -⟩ := readers_need_no_lock difference_orders trivial hnew
  obtain ⟨s, x, prev, hstart⟩ := hbegin rfl 5 trivial (fun k hk => absurd hk List.not_mem_nil)
  obtain ⟨hwrite, -, hread⟩ := readers_need_no_lock difference_orders trivial
    (.read (.write hnew hstart (fun _ _ => trivial)) .start)
  exact ⟨_, rfl, rfl, hwrite, hread⟩

end RecordStore.SkipListReaders
