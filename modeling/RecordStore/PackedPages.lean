import RecordStore.RecordMap

namespace RecordStore.PackedPages

open RecordStore.Splice RecordStore.FixedRecord RecordStore.FixedPage RecordStore.PageBitmap
open RecordStore.PageSlots RecordStore.HeapImage RecordStore.LogicalPages RecordStore.HeapContents
open RecordStore.RecordMap RecordStore.HeapRuns

variable {P S : Nat} {page : Page P S} {pages : Pages P S} {recs : List Record} {rec : Record}

def ceilDiv (n c : Nat) : Nat := (n + c - 1) / c

/-- The records stand in the first slots of the page and the other slots are free. -/
def PageHolds (page : Page P S) (recs : List Record) : Prop :=
  ∀ t < fixedLenPageCapacity P S, pageContents page t = recs[t]?.map stored

/-- The records stand in the pages one after the other, and no page is there without need. -/
structure Packed (pages : Pages P S) (recs : List Record) : Prop where
  count : pages.length = ceilDiv recs.length (fixedLenPageCapacity P S)
  holds : ∀ (j : Nat) (page : Page P S), pages[j]? = some page →
    PageHolds page (slice recs (j * fixedLenPageCapacity P S) (fixedLenPageCapacity P S))

theorem PageHolds.filled (hh : PageHolds page recs) {t : Nat} (ht : t < fixedLenPageCapacity P S) :
    page.filled t = true ↔ t < recs.length := by
  have hnone := pageContents_eq_none_iff page ht
  rw [hh t ht, Option.map_eq_none_iff, List.getElem?_eq_none_iff] at hnone
  rw [← Nat.not_le, hnone]
  simp

theorem PageHolds.emptySlot_some (hh : PageHolds page recs)
    (hlt : recs.length < fixedLenPageCapacity P S) : emptySlot page = some recs.length := by
  refine emptySlot_eq_some.mpr ⟨hlt, ?_, fun u hu => (hh.filled (hu.trans hlt)).mpr hu⟩
  rw [← Bool.not_eq_true, hh.filled hlt]
  omega

theorem countP_lt_range (k n : Nat) : (List.range n).countP (fun t => t < k) = min k n := by
  induction n with
  | zero => simp
  | succ n ih =>
    rw [List.range_succ, List.countP_append, ih, List.countP_singleton]
    by_cases hlt : n < k
    · simp only [hlt, decide_true, if_true]
      omega
    · simp only [hlt, decide_false, Bool.false_eq_true, if_false]
      omega

theorem PageHolds.freeslots (hh : PageHolds page recs) :
    fixedLenPageFreeslots page = fixedLenPageCapacity P S - recs.length := by
  have hocc : occupied page =
      (List.range (fixedLenPageCapacity P S)).countP (fun t => t < recs.length) := by
    apply List.countP_congr
    intro t ht
    rw [hh.filled (List.mem_range.mp ht), decide_eq_true_iff]
  rw [freeslots_eq, hocc, countP_lt_range]
  omega

theorem PageHolds.freeslots_pos (hh : PageHolds page recs) :
    0 < fixedLenPageFreeslots page ↔ recs.length < fixedLenPageCapacity P S := by
  rw [hh.freeslots]
  omega

theorem blank_holds : PageHolds (Page.blank P S) [] := by
  intro t ht
  rw [(pageContents_eq_none_iff _ ht).mpr (blank_filled t)]
  rfl

theorem PageHolds.append {page' : Page P S} (hh : PageHolds page recs)
    (hc : pageContents page' =
      Function.update (pageContents page) (recs.length : Int) (some (stored rec))) :
    PageHolds page' (recs ++ [rec]) := by
  intro t ht
  rw [hc]
  by_cases he : t = recs.length
  · subst he
    simp
  · rw [Function.update_of_ne (by omega), hh t ht]
    by_cases hlt : t < recs.length
    · rw [List.getElem?_append_left hlt]
    · rw [List.getElem?_eq_none (by omega), List.getElem?_eq_none (by simp; omega)]

section Counts

variable {n c : Nat}

theorem ceilDiv_zero (hc : 0 < c) : ceilDiv 0 c = 0 :=
  Nat.div_eq_of_lt (by omega)

theorem ceilDiv_succ (hc : 0 < c) : ceilDiv (n + 1) c = n / c + 1 := by
  rw [ceilDiv, show n + 1 + c - 1 = n + c by omega, Nat.add_div_right _ hc]

theorem ceilDiv_of_mod_eq_zero (hc : 0 < c) (hm : n % c = 0) : ceilDiv n c = n / c := by
  obtain ⟨q, rfl⟩ := Nat.dvd_of_mod_eq_zero hm
  rw [ceilDiv, Nat.add_sub_assoc hc, Nat.mul_add_div hc, Nat.div_eq_of_lt (by omega), Nat.add_zero,
    Nat.mul_div_cancel_left _ hc]

theorem ceilDiv_of_mod_ne_zero (hc : 0 < c) (hm : n % c ≠ 0) : ceilDiv n c = n / c + 1 := by
  have hdm := Nat.div_add_mod n c
  have hlt := Nat.mod_lt n hc
  have he : n + c - 1 = c * (n / c + 1) + (n % c - 1) := by
    rw [Nat.mul_succ]
    omega
  have hsmall : (n % c - 1) / c = 0 := Nat.div_eq_of_lt (by omega)
  rw [ceilDiv, he, Nat.mul_add_div hc, hsmall, Nat.add_zero]

theorem whole_group {j : Nat} (hj : j < n / c) : j * c + c ≤ n := by
  have h1 : (j + 1) * c ≤ n / c * c := Nat.mul_le_mul_right _ hj
  rw [Nat.succ_mul] at h1
  exact h1.trans (Nat.div_mul_le_self _ _)

theorem div_lt_ceilDiv {i : Nat} (hc : 0 < c) (hi : i < n) : i / c < ceilDiv n c := by
  obtain ⟨m, rfl⟩ := Nat.exists_eq_add_one_of_ne_zero (Nat.ne_zero_of_lt hi)
  rw [ceilDiv_succ hc]
  exact Nat.lt_succ_of_le (Nat.div_le_div_right (Nat.le_of_lt_succ hi))

theorem ceilDiv_le (hc : 0 < c) : ceilDiv n c ≤ n / c + 1 := by
  rw [← ceilDiv_succ hc]
  exact Nat.div_le_div_right (by omega)

end Counts

theorem Packed.nil (hc : 0 < fixedLenPageCapacity P S) : Packed ([] : Pages P S) [] :=
  ⟨(ceilDiv_zero hc).symm, fun j page hj => by simp at hj⟩

theorem Packed.full (hp : Packed pages recs) {j : Nat} (hj : pages[j]? = some page)
    (hlt : j < recs.length / fixedLenPageCapacity P S) : fixedLenPageFreeslots page = 0 := by
  have hpos := (hp.holds j page hj).freeslots_pos
  rw [slice_length_of_le (whole_group hlt)] at hpos
  omega

section Grow

variable {page' : Page P S}

theorem Packed.keep (hp : Packed pages recs) {j : Nat} (hj : pages[j]? = some page)
    (hlt : j < recs.length / fixedLenPageCapacity P S) :
    PageHolds page
      (slice (recs ++ [rec]) (j * fixedLenPageCapacity P S) (fixedLenPageCapacity P S)) := by
  rw [slice_append_of_le [rec] (whole_group hlt)]
  exact hp.holds j page hj

theorem count_append (hc : 0 < fixedLenPageCapacity P S) :
    ceilDiv (recs ++ [rec]).length (fixedLenPageCapacity P S) =
      recs.length / fixedLenPageCapacity P S + 1 := by
  rw [List.length_append]
  exact ceilDiv_succ hc

theorem Packed.append_page (hc : 0 < fixedLenPageCapacity P S) (hp : Packed pages recs)
    (hm : recs.length % fixedLenPageCapacity P S = 0) (hh : PageHolds page' [rec]) :
    Packed (pages ++ [page']) (recs ++ [rec]) := by
  have hlen : pages.length = recs.length / fixedLenPageCapacity P S :=
    hp.count.trans (ceilDiv_of_mod_eq_zero hc hm)
  have hdm := Nat.div_add_mod' recs.length (fixedLenPageCapacity P S)
  have hnil : slice recs (recs.length / fixedLenPageCapacity P S * fixedLenPageCapacity P S)
      (fixedLenPageCapacity P S) = [] := by
    rw [← List.length_eq_zero_iff, slice_length]
    omega
  constructor
  · rw [count_append hc, List.length_append, hlen]
    rfl
  · intro j page hj
    by_cases hlt : j < pages.length
    · rw [List.getElem?_append_left hlt] at hj
      exact hp.keep hj (hlen ▸ hlt)
    · have hle := (List.getElem?_eq_some_iff.mp hj).1
      rw [List.length_append, List.length_singleton] at hle
      obtain rfl : j = pages.length := by omega
      rw [List.getElem?_concat_length] at hj
      obtain rfl := Option.some.inj hj
      rw [hlen, slice_append_last recs rec hc, hnil]
      exact hh

theorem Packed.set_last (hc : 0 < fixedLenPageCapacity P S) (hp : Packed pages recs)
    (hm : recs.length % fixedLenPageCapacity P S ≠ 0)
    (hh : PageHolds page' (slice recs (recs.length / fixedLenPageCapacity P S * fixedLenPageCapacity P S)
      (fixedLenPageCapacity P S) ++ [rec])) :
    Packed (pages.set (recs.length / fixedLenPageCapacity P S) page') (recs ++ [rec]) := by
  have hlen : pages.length = recs.length / fixedLenPageCapacity P S + 1 :=
    hp.count.trans (ceilDiv_of_mod_ne_zero hc hm)
  constructor
  · rw [count_append hc, List.length_set, hlen]
  · intro j page hj
    by_cases he : recs.length / fixedLenPageCapacity P S = j
    · subst he
      rw [List.getElem?_set_self (by omega)] at hj
      obtain rfl := Option.some.inj hj
      rw [slice_append_last recs rec hc]
      exact hh
    · rw [List.getElem?_set_ne he] at hj
      have hlt := (List.getElem?_eq_some_iff.mp hj).1
      exact hp.keep hj (by omega)

theorem Packed.last_room (hc : 0 < fixedLenPageCapacity P S) (hp : Packed pages recs)
    (hj : pages[recs.length / fixedLenPageCapacity P S]? = some page) :
    (slice recs (recs.length / fixedLenPageCapacity P S * fixedLenPageCapacity P S)
      (fixedLenPageCapacity P S)).length < fixedLenPageCapacity P S ∧
    0 < fixedLenPageFreeslots page := by
  have hdm := Nat.div_add_mod' recs.length (fixedLenPageCapacity P S)
  have hmod := Nat.mod_lt recs.length hc
  have hroom : (slice recs (recs.length / fixedLenPageCapacity P S * fixedLenPageCapacity P S)
      (fixedLenPageCapacity P S)).length < fixedLenPageCapacity P S := by
    rw [slice_length]
    omega
  exact ⟨hroom, (hp.holds _ _ hj).freeslots_pos.mpr hroom⟩

end Grow

theorem Packed.put (hz : Sizes P S) (hp : Packed pages recs) (hrec : rec.length = S / attributeSize) :
    ∃ pages' : Pages P S, LogicalPages.put pages rec = .ok pages' ∧ Packed pages' (recs ++ [rec]) := by
  have hc := capacity_pos hz.slotPos hz.slotLt
  by_cases hm : recs.length % fixedLenPageCapacity P S = 0
  case pos =>
    have hlen : pages.length = recs.length / fixedLenPageCapacity P S :=
      hp.count.trans (ceilDiv_of_mod_eq_zero hc hm)
    have hff : firstFree pages = none := by
      refine List.findIdx?_eq_none_iff.mpr (fun page hmem => ?_)
      obtain ⟨j, hj⟩ := List.mem_iff_getElem?.mp hmem
      have hlt := (List.getElem?_eq_some_iff.mp hj).1
      simp [hp.full hj (hlen ▸ hlt)]
    obtain ⟨page', hput, -, hcont⟩ := put_of_none hz hff hrec
    refine ⟨_, hput, ?_⟩
    rw [List.set_append_right _ _ (Nat.le_refl _), Nat.sub_self]
    exact hp.append_page hc hm (blank_holds.append hcont)
  case neg =>
    have hlen : pages.length = recs.length / fixedLenPageCapacity P S + 1 :=
      hp.count.trans (ceilDiv_of_mod_ne_zero hc hm)
    have hget := List.getElem?_eq_getElem (l := pages)
      (show recs.length / fixedLenPageCapacity P S < pages.length by omega)
    have hh := hp.holds _ _ hget
    obtain ⟨hroom, hpos⟩ := hp.last_room hc hget
    have hff : firstFree pages = some (recs.length / fixedLenPageCapacity P S) := by
      refine List.findIdx?_eq_some_iff_getElem.mpr ⟨by omega, by simpa using hpos, ?_⟩
      intro i hi
      simp [hp.full (List.getElem?_eq_getElem (by omega)) hi]
    obtain ⟨page', hput, -, hcont⟩ := put_of_some hff hget (hh.emptySlot_some hroom) hrec
    exact ⟨_, hput, hp.set_last hc hm (hh.append hcont)⟩

def twoRecords : List Record := [List.replicate 100 letterAttribute, List.replicate 100 secondLetter]

end RecordStore.PackedPages
