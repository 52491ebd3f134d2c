import Mathlib.Data.List.Forall2
import RecordStore.ThreeWay

namespace RecordStore.OrderedMap

open RecordStore.ThreeWay

variable {K V ι : Type}

/-- A map with the operations to fill it and to iterate over it. -/
structure Store (K V : Type) where
  Db : Type
  empty : Db
  put : Db → K → V → Db
  entries : Db → List (K × V)

def Store.puts (m : Store K V) (db : m.Db) (es : List (K × V)) : m.Db :=
  es.foldl (fun db e => m.put db e.1 e.2) db

/-- A map under the comparator `cmp`: a `put` takes the place of the entries with an equal key
and leaves all others, and the iteration is in order if `cmp` orders the keys. -/
structure Ordered (cmp : K → K → Int) (m : Store K V) : Prop where
  empty : m.entries m.empty = []
  put : ∀ db k v, (m.entries (m.put db k v)).Perm ((k, v) :: (m.entries db).filter (fun e => cmp e.1 k ≠ 0))
  sorted : ∀ es, Orders (fun k => k ∈ es.map Prod.fst) cmp →
    (m.entries (m.puts m.empty es)).Pairwise (fun e e' => cmp e.1 e'.1 ≤ 0)

theorem exists_perm_of_perm_map {α β : Type} (f : α → β) {l : List α} {es : List β} (h : es.Perm (l.map f)) :
    ∃ order : List α, order.Perm l ∧ es = order.map f := by
  have hmap : List.Forall₂ (fun e i => e = f i) (l.map f) l := by
    rw [List.forall₂_map_left_iff, List.forall₂_same]
    exact fun _ _ => rfl
  obtain ⟨order, hes, hperm⟩ := List.perm_comp_forall₂ h hmap
  refine ⟨order, hperm, ?_⟩
  rw [← List.forall₂_eq_eq_eq, List.forall₂_map_right_iff]
  exact hes

variable {cmp : K → K → Int} {m : Store K V}

namespace Ordered

theorem puts_perm (h : Ordered cmp m) {es : List (K × V)} {db : m.Db}
    (hes : es.Pairwise (fun e e' => cmp e.1 e'.1 ≠ 0))
    (hdb : ∀ e ∈ m.entries db, ∀ e' ∈ es, cmp e.1 e'.1 ≠ 0) :
    (m.entries (m.puts db es)).Perm (m.entries db ++ es) := by
  induction es generalizing db with
  | nil => rw [Store.puts, List.foldl_nil, List.append_nil]
  | cons e es ih =>
    obtain ⟨hfirst, hrest⟩ := List.pairwise_cons.mp hes
    have hkeep : (m.entries db).filter (fun e' => cmp e'.1 e.1 ≠ 0) = m.entries db := by
      rw [List.filter_eq_self]
      intro e' he'
      exact decide_eq_true (hdb e' he' e (List.mem_cons_self ..))
    have hput := h.put db e.1 e.2
    rw [hkeep] at hput
    have hnext := @ih (m.put db e.1 e.2) hrest (by
      intro e' he' e'' he''
      obtain rfl | he' := List.mem_cons.mp (hput.mem_iff.mp he')
      · exact hfirst e'' he''
      · exact hdb e' he' e'' (List.mem_cons_of_mem _ he''))
    exact hnext.trans ((hput.append_right es).trans List.perm_middle.symm)

theorem puts_empty_perm (h : Ordered cmp m) {es : List (K × V)}
    (hes : es.Pairwise (fun e e' => cmp e.1 e'.1 ≠ 0)) : (m.entries (m.puts m.empty es)).Perm es := by
  have hperm : (m.entries (m.puts m.empty es)).Perm (m.entries m.empty ++ es) :=
    h.puts_perm hes (by simp [h.empty])
  rwa [h.empty, List.nil_append] at hperm

theorem mem_of_mem_puts (h : Ordered cmp m) {es : List (K × V)} {db : m.Db} {e : K × V}
    (he : e ∈ m.entries (m.puts db es)) : e ∈ m.entries db ∨ e ∈ es := by
  induction es generalizing db with
  | nil => exact .inl he
  | cons e' es ih =>
    obtain he | he := ih he
    · obtain rfl | he := List.mem_cons.mp ((h.put db e'.1 e'.2).mem_iff.mp he)
      · exact .inr (List.mem_cons_self ..)
      · exact .inl (List.mem_of_mem_filter he)
    · exact .inr (List.mem_cons_of_mem _ he)

/-- Of keys that all compare as equal the last one is left. -/
theorem puts_of_equal (h : Ordered cmp m) {es : List (K × V)} {e : K × V} (hes : ∀ e' ∈ es, cmp e'.1 e.1 = 0) :
    m.entries (m.puts m.empty (es ++ [e])) = [e] := by
  have hput := h.put (m.puts m.empty es) e.1 e.2
  have hnone : (m.entries (m.puts m.empty es)).filter (fun e' => cmp e'.1 e.1 ≠ 0) = [] := by
    rw [List.filter_eq_nil_iff]
    intro e' he'
    obtain he' | he' := h.mem_of_mem_puts he'
    · rw [h.empty] at he'
      cases he'
    · simp [hes e' he']
  rw [hnone] at hput
  rw [Store.puts, List.foldl_append]
  exact List.perm_singleton.mp hput

theorem exists_order (h : Ordered cmp m) (f : ι → K × V) {l : List ι}
    (hne : l.Pairwise (fun i j => cmp (f i).1 (f j).1 ≠ 0))
    (ho : Orders (fun k => k ∈ l.map (fun i => (f i).1)) cmp) :
    ∃ order : List ι, order.Perm l ∧ m.entries (m.puts m.empty (l.map f)) = order.map f ∧
      order.Pairwise (fun i j => cmp (f i).1 (f j).1 < 0) := by
  have hkeys : (l.map f).map Prod.fst = l.map (fun i => (f i).1) := List.map_map
  obtain ⟨order, hperm, heq⟩ := exists_perm_of_perm_map f (h.puts_empty_perm (List.pairwise_map.mpr hne))
  have hmem : ∀ {i}, i ∈ l → (f i).1 ∈ l.map (fun i => (f i).1) := fun hi => List.mem_map_of_mem hi
  have hle := h.sorted (l.map f) (by rwa [hkeys])
  rw [heq, List.pairwise_map] at hle
  -- different keys stay different in any order
  have hboth : l.Pairwise (fun i j => cmp (f i).1 (f j).1 ≠ 0 ∧ cmp (f j).1 (f i).1 ≠ 0) := by
    apply List.Pairwise.imp_of_mem _ hne
    intro i j hi hj hij
    exact ⟨hij, fun h0 => hij ((ho.zero_iff (hmem hj) (hmem hi)).mp h0)⟩
  have hne' := (hperm.pairwise_iff (fun hij => ⟨hij.2, hij.1⟩)).mpr hboth
  refine ⟨order, hperm, heq, ?_⟩
  apply (hle.and hne').imp
  intro i j hij
  exact lt_of_le_of_ne hij.1 hij.2.1

end Ordered

def listPut (cmp : K → K → Int) (db : List (K × V)) (k : K) (v : V) : List (K × V) :=
  (k, v) :: db.filter (fun e => cmp e.1 k ≠ 0)

def listStore (cmp : K → K → Int) : Store K V where
  Db := List (K × V)
  empty := []
  put := listPut cmp
  entries db := db.mergeSort (fun e e' => cmp e.1 e'.1 ≤ 0)

theorem pairwise_mergeSort_of_orders {α : Type} {c : α → α → Int} {l : List α}
    (h : Orders (fun a => a ∈ l) c) :
    (l.mergeSort (fun a b => c a b ≤ 0)).Pairwise (fun a b => c a b ≤ 0) := by
  have hval := List.map_mergeSort (r := fun a b : { x // x ∈ l } => c a.1 b.1 ≤ 0)
    (s := fun a b => c a b ≤ 0) (f := Subtype.val) (l := l.attach) (fun _ _ _ _ => rfl)
  rw [List.attach_map_subtype_val] at hval
  rw [← hval, List.pairwise_map]
  have hsorted : (l.attach.mergeSort (fun a b => c a.1 b.1 ≤ 0)).Pairwise
      (fun a b => decide (c a.1 b.1 ≤ 0) = true) := by
    apply List.pairwise_mergeSort
    · intro a b d hab hbd
      exact decide_eq_true (h.trans _ _ _ a.2 b.2 d.2 (of_decide_eq_true hab) (of_decide_eq_true hbd))
    · intro a b
      have hswap := h.swap b.1 a.1 b.2 a.2
      rw [Bool.or_eq_true, decide_eq_true_iff, decide_eq_true_iff]
      omega
  exact hsorted.imp of_decide_eq_true

theorem mem_listPut_foldl {es db : List (K × V)} {e : K × V}
    (h : e ∈ es.foldl (fun db e => listPut cmp db e.1 e.2) db) : e ∈ db ∨ e ∈ es := by
  induction es generalizing db with
  | nil => exact .inl h
  | cons e' es ih =>
    obtain h | h := ih h
    · obtain rfl | h := List.mem_cons.mp h
      · exact .inr (List.mem_cons_self ..)
      · exact .inl (List.mem_of_mem_filter h)
    · exact .inr (List.mem_cons_of_mem _ h)

theorem listStore_ordered (cmp : K → K → Int) : Ordered cmp (listStore cmp : Store K V) where
  empty := List.mergeSort_nil
  put db k v := by
    refine (List.mergeSort_perm ..).trans (List.Perm.cons _ ?_)
    exact (List.mergeSort_perm ..).symm.filter _
  sorted es h := by
    refine pairwise_mergeSort_of_orders (c := fun e e' : K × V => cmp e.1 e'.1) (h.comap Prod.fst ?_)
    intro e he
    obtain he | he := mem_listPut_foldl he
    · cases he
    · exact List.mem_map_of_mem he

end RecordStore.OrderedMap
