import Mathlib.Data.Set.Finite.Basic
import Mathlib.Data.Set.Finite.Lattice
import RecordStore.HeapRuns

namespace RecordStore.HeapContents

open RecordStore.FixedRecord RecordStore.FixedPage RecordStore.PageSlots RecordStore.HeapFile
open RecordStore.HeapImage RecordStore.HeapAlloc RecordStore.HeapSession RecordStore.LogicalPages
open RecordStore.HeapRefinement

variable {P S : Nat} {h : Heapfile P S} {pages : Pages P S}

/-- A page as it is now: the cached copy if it is cached, its block on disk otherwise. -/
def logicalPage (h : Heapfile P S) (pid : Nat) : Option (Page P S) :=
  if h.cachedPid = some pid then h.cachedPage
  else
    match getEntry h pid with
    | .ok entry =>
      match readBlock h entry.value.offset with
      | .ok (block, _) => some (.ofBlock block)
      | .error _ => none
    | .error _ => none

/-- The record in a slot, if the slot exists and its flag is set. -/
def pageContents (page : Page P S) (slot : Int) : Option Record :=
  if 0 ≤ slot ∧ slot < fixedLenPageCapacity P S ∧ page.filled slot.toNat = true then
    some (slotRecord page slot.toNat)
  else none

def contents (h : Heapfile P S) (rid : RecordID) : Option Record :=
  (logicalPage h rid.pageId).bind (fun page => pageContents page rid.slot)

def contentsOf (pages : Pages P S) (rid : RecordID) : Option Record :=
  pages[rid.pageId]?.bind (fun page => pageContents page rid.slot)

theorem logicalPage_eq (hz : Sizes P S) (hr : Rep h pages) (pid : Nat) :
    logicalPage h pid = pages[pid]? := by
  unfold logicalPage
  split
  case isTrue hpid =>
    obtain ⟨hn, -⟩ | ⟨j, page, hj, hpage, hget⟩ := hr.core.cache
    · rw [hn] at hpid
      cases hpid
    · obtain rfl : j = pid := Option.some.inj (hj ▸ hpid)
      rw [hpage, hget]
  case isFalse hpid =>
    cases hget : pages[pid]? with
    | some page =>
      obtain ⟨content, hs, hb, hd⟩ := hr.core.disk
      have hlt : pid < pages.length := (List.getElem?_eq_some_iff.mp hget).1
      obtain ⟨block, file, hread, hblock, -⟩ := readBlock_owner hs hb (owner_mem (P := P) hlt)
      have hdata := hd pid hlt page hget (fun _ => hpid)
      rw [hr.core.getEntry hz.page hget]
      simp only [hread, Option.some.injEq]
      exact Page.ext (hblock.trans hdata)
    | none =>
      have hn : ¬ Allocated h pid := by
        rw [allocated_iff hz.page hr]
        exact Nat.not_lt.mpr (List.getElem?_eq_none_iff.mp hget)
      cases he : getEntry h pid with
      | ok entry => exact absurd ⟨entry, he⟩ hn
      | error e => rfl

theorem contents_eq (hz : Sizes P S) (hr : Rep h pages) : contents h = contentsOf pages := by
  funext rid
  rw [contents, contentsOf, logicalPage_eq hz hr]

theorem pageContents_natCast (page : Page P S) {t : Nat} (ht : t < fixedLenPageCapacity P S) :
    pageContents page t = if page.filled t then some (slotRecord page t) else none := by
  simp [pageContents, ht]

theorem pageContents_eq_none_iff (page : Page P S) {t : Nat} (ht : t < fixedLenPageCapacity P S) :
    pageContents page t = none ↔ page.filled t = false := by
  rw [pageContents_natCast page ht]
  cases page.filled t <;> simp

theorem contentsOf_ne_none {j t : Nat} {page : Page P S} (hj : pages[j]? = some page)
    (ht : t < fixedLenPageCapacity P S) (hfilled : page.filled t = true) : contentsOf pages ⟨j, t⟩ ≠ none := by
  rw [contentsOf, hj, Option.bind_some, pageContents_natCast page ht, if_pos hfilled]
  exact Option.some_ne_none _

theorem live_rid {rid : RecordID} (hlive : contentsOf pages rid ≠ none) :
    ∃ (page : Page P S) (t : Nat), pages[rid.pageId]? = some page ∧ rid.slot = t ∧
      t < fixedLenPageCapacity P S ∧ page.filled t = true := by
  obtain ⟨j, slot⟩ := rid
  cases hj : pages[j]? with
  | none => simp [contentsOf, hj] at hlive
  | some page =>
    have hin : 0 ≤ slot ∧ slot < fixedLenPageCapacity P S ∧ page.filled slot.toNat = true := by
      by_contra hout
      refine hlive ?_
      rw [contentsOf, hj, Option.bind_some, pageContents, if_neg hout]
    obtain ⟨t, rfl⟩ := Int.eq_ofNat_of_zero_le hin.1
    exact ⟨page, t, rfl, rfl, by exact_mod_cast hin.2.1, hin.2.2⟩

theorem pageContents_update {page page' : Page P S} {t : Nat} {v : Option Record} (hself : pageContents page' t = v)
    (hother : ∀ u < fixedLenPageCapacity P S, u ≠ t →
      page'.filled u = page.filled u ∧ slotRecord page' u = slotRecord page u) :
    pageContents page' = Function.update (pageContents page) (t : Int) v := by
  funext slot
  by_cases hslot : slot = t
  · rw [hslot, Function.update_self, hself]
  · rw [Function.update_of_ne hslot]
    by_cases hr : 0 ≤ slot ∧ slot < fixedLenPageCapacity P S
    · obtain ⟨u, rfl⟩ := Int.eq_ofNat_of_zero_le hr.1
      have hu : u < fixedLenPageCapacity P S := by exact_mod_cast hr.2
      obtain ⟨hf, hrec⟩ := hother u hu (fun he => hslot (by rw [he]))
      rw [pageContents_natCast _ hu, pageContents_natCast _ hu, hf, hrec]
    · rw [pageContents, pageContents, if_neg (fun hc => hr ⟨hc.1, hc.2.1⟩),
        if_neg (fun hc => hr ⟨hc.1, hc.2.1⟩)]

theorem write_contents (page : Page P S) {t : Nat} (ht : t < fixedLenPageCapacity P S) {rec : Record}
    (hrec : rec.length = S / attributeSize) :
    ∃ page', writeFixedLenPage page t rec = .ok page' ∧
      pageContents page' = Function.update (pageContents page) (t : Int) (some (stored rec)) := by
  have hsize : fixedLenSizeof rec ≤ S := by
    rw [fixedLenSizeof, hrec]
    exact Nat.div_mul_le_self _ _
  obtain ⟨page', hw, hflag, hother, hself⟩ := writeFixedLenPage_spec page ht hsize
  refine ⟨page', hw, pageContents_update ?_ ?_⟩
  · rw [pageContents_natCast _ ht, hflag t ht, if_pos rfl, if_pos rfl, hself hrec.symm]
  · intro u hu hne
    exact ⟨by rw [hflag u hu, if_neg hne], hother u hu hne⟩

theorem delete_contents (page : Page P S) {t : Nat} (ht : t < fixedLenPageCapacity P S) :
    ∃ page', deleteFixedLenPage page t = .ok page' ∧
      pageContents page' = Function.update (pageContents page) (t : Int) none := by
  obtain ⟨page', hw, hflag, hother⟩ := deleteFixedLenPage_spec page ht
  refine ⟨page', hw, pageContents_update ?_ ?_⟩
  · rw [pageContents_eq_none_iff _ ht, hflag t ht, if_pos rfl]
  · intro u hu hne
    exact ⟨by rw [hflag u hu, if_neg hne], hother u hu⟩

theorem contentsOf_set {j : Nat} {page page' : Page P S} {slot : Int} {v : Option Record}
    (hj : pages[j]? = some page)
    (hp : pageContents page' = Function.update (pageContents page) slot v) :
    contentsOf (pages.set j page') = Function.update (contentsOf pages) ⟨j, slot⟩ v := by
  have hlt : j < pages.length := (List.getElem?_eq_some_iff.mp hj).1
  funext rid
  obtain ⟨i, s⟩ := rid
  by_cases hij : i = j
  · subst hij
    rw [contentsOf, List.getElem?_set_self hlt, Option.bind_some, hp]
    by_cases hs : s = slot
    · subst hs
      rw [Function.update_self, Function.update_self]
    · rw [Function.update_of_ne hs, Function.update_of_ne (by simpa using hs), contentsOf, hj]
      rfl
  · rw [contentsOf, List.getElem?_set_ne (Ne.symm hij), Function.update_of_ne (by simp [hij]), contentsOf]

theorem blank_filled (t : Nat) : (Page.blank P S).filled t = false := by
  have hb : ∀ i, (Page.blank P S).byte i = 0 := by
    intro i
    simp only [Page.byte, Page.blank, List.getD_eq_getElem?_getD, List.getElem?_replicate]
    split <;> rfl
  simp [Page.filled, hb]

theorem contentsOf_blank : contentsOf (pages ++ [Page.blank P S]) = contentsOf pages := by
  funext rid
  by_cases hlt : rid.pageId < pages.length
  · rw [contentsOf, List.getElem?_append_left hlt, contentsOf]
  · have hnone : pages[rid.pageId]? = none := List.getElem?_eq_none_iff.mpr (by omega)
    rw [contentsOf, contentsOf, hnone]
    by_cases heq : rid.pageId = pages.length
    · rw [heq, List.getElem?_concat_length, Option.bind_some, pageContents, if_neg]
      · rfl
      · simp [blank_filled]
    · rw [List.getElem?_eq_none_iff.mpr (by simp; omega)]

theorem contentsOf_finite (pages : Pages P S) : {rid | contentsOf pages rid ≠ none}.Finite := by
  have hsub : {rid | contentsOf pages rid ≠ none} ⊆
      (fun q : Nat × Nat => (⟨q.1, q.2⟩ : RecordID)) ''
        (Set.Iio pages.length ×ˢ Set.Iio (fixedLenPageCapacity P S)) := by
    intro rid hne
    obtain ⟨page, t, hj, hslot, hcap, -⟩ := live_rid hne
    exact ⟨(rid.pageId, t), ⟨(List.getElem?_eq_some_iff.mp hj).1, hcap⟩, by simp only [← hslot]⟩
  exact Set.Finite.subset (((Set.finite_Iio _).prod (Set.finite_Iio _)).image _) hsub

end RecordStore.HeapContents
