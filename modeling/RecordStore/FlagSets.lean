import Mathlib.Data.Finset.Sort
import RecordStore.IteratorScan
import RecordStore.SlotFrame

namespace RecordStore.FlagSets

open RecordStore.FixedRecord RecordStore.FixedPage RecordStore.PageBitmap RecordStore.PageSlots
open RecordStore.SlotFrame RecordStore.IteratorScan

variable {P S : Nat}

/-- The slots whose flag, where `write_fixed_len_page` sets it and `delete_fixed_len_page`
clears it, is 1. -/
def flags (page : Page P S) : Finset Nat :=
  (Finset.range (fixedLenPageCapacity P S)).filter (fun t => bit page (flagIndex P t).toNat (t % 8) = true)

theorem mem_flags (page : Page P S) {t : Nat} :
    t ∈ flags page ↔ t < fixedLenPageCapacity P S ∧ page.filled t = true := by
  rw [flags, Finset.mem_filter, Finset.mem_range]
  refine and_congr_right (fun ht => ?_)
  rw [flagIndex_eq (slots_before_flags ht).2, Int.toNat_natCast, ← filled_eq_bit]

theorem filled_eq_mem_flags (page : Page P S) {t : Nat} (ht : t < fixedLenPageCapacity P S) :
    page.filled t = decide (t ∈ flags page) := by
  rw [Bool.eq_iff_iff, decide_eq_true_iff, mem_flags]
  exact (and_iff_right ht).symm

theorem flags_subset (page : Page P S) : flags page ⊆ Finset.range (fixedLenPageCapacity P S) :=
  Finset.filter_subset _ _

theorem flags_eq_toFinset (page : Page P S) :
    flags page = ((List.range (fixedLenPageCapacity P S)).filter page.filled).toFinset := by
  ext t
  rw [mem_flags, List.mem_toFinset, List.mem_filter, List.mem_range]

theorem occupied_eq (page : Page P S) : occupied page = (flags page).card := by
  rw [occupied, List.countP_eq_length_filter, flags_eq_toFinset,
    List.toFinset_card_of_nodup (List.nodup_range.filter _)]

theorem freeslots_add_card (page : Page P S) :
    fixedLenPageFreeslots page + (flags page).card = fixedLenPageCapacity P S := by
  have hle : (flags page).card ≤ fixedLenPageCapacity P S := by
    simpa using Finset.card_le_card (flags_subset page)
  rw [freeslots_eq, occupied_eq]
  omega

theorem write_flags (page : Page P S) {t : Nat} (ht : t < fixedLenPageCapacity P S) {r : Record}
    (hr : r.length ≤ S / attributeSize) :
    ∃ page', writeFixedLenPage page t r = .ok page' ∧ flags page' = insert t (flags page) := by
  have hsize : fixedLenSizeof r ≤ S := (Nat.mul_le_mul_right _ hr).trans (Nat.div_mul_le_self _ _)
  obtain ⟨page', hw, hflag, -⟩ := writeFixedLenPage_spec page ht hsize
  refine ⟨page', hw, ?_⟩
  ext u
  rw [Finset.mem_insert, mem_flags, mem_flags]
  by_cases hu : u < fixedLenPageCapacity P S
  · rw [hflag u hu]
    by_cases hut : u = t <;> simp [hu, hut, ht]
  · have hne : u ≠ t := by
      rintro rfl
      exact hu ht
    simp [hu, hne]

theorem delete_flags (page : Page P S) {t : Nat} (ht : t < fixedLenPageCapacity P S) :
    ∃ page', deleteFixedLenPage page t = .ok page' ∧ flags page' = (flags page).erase t := by
  obtain ⟨page', hd, hflag, -⟩ := deleteFixedLenPage_spec page ht
  refine ⟨page', hd, ?_⟩
  ext u
  rw [Finset.mem_erase, mem_flags, mem_flags, and_left_comm]
  refine and_congr_right (fun hu => ?_)
  rw [hflag u hu]
  by_cases hut : u = t <;> simp [hut]

theorem emptySlot_flags {page : Page P S} {t : Nat} :
    emptySlot page = some t ↔ t < fixedLenPageCapacity P S ∧ t ∉ flags page ∧ ∀ u < t, u ∈ flags page := by
  rw [emptySlot_eq_some]
  refine and_congr_right (fun ht => and_congr ?_ (forall₂_congr (fun u hu => ?_)))
  · rw [filled_eq_mem_flags page ht, decide_eq_false_iff_not]
  · rw [filled_eq_mem_flags page (hu.trans ht), decide_eq_true_iff]

theorem emptySlot_none_flags {page : Page P S} :
    emptySlot page = none ↔ flags page = Finset.range (fixedLenPageCapacity P S) := by
  rw [emptySlot_eq_none]
  constructor
  · intro hall
    refine (flags_subset page).antisymm (fun t ht => ?_)
    have hlt := Finset.mem_range.mp ht
    exact (mem_flags page).mpr ⟨hlt, hall t hlt⟩
  · intro he t ht
    rw [← Finset.mem_range, ← he, mem_flags] at ht
    exact ht.2

theorem add_flags (page : Page P S) {r : Record} (hr : r.length ≤ S / attributeSize) :
    (flags page = Finset.range (fixedLenPageCapacity P S) ∧ addFixedLenPage page r = .ok (none, page)) ∨
    ∃ t page', t < fixedLenPageCapacity P S ∧ t ∉ flags page ∧ (∀ u < t, u ∈ flags page) ∧
      addFixedLenPage page r = .ok (some t, page') ∧ flags page' = insert t (flags page) := by
  rw [addFixedLenPage_eq]
  cases he : emptySlot page with
  | none => exact .inl ⟨emptySlot_none_flags.mp he, rfl⟩
  | some t =>
    obtain ⟨ht, hout, hmin⟩ := emptySlot_flags.mp he
    obtain ⟨page', hw, hflags⟩ := write_flags page ht hr
    exact .inr ⟨t, page', ht, hout, hmin, by simp only [hw]; rfl, hflags⟩

/-- Asked again and again, `get_next_filled_slot` lists the filled slots that are left. -/
theorem getNextFilledSlot_iterate (page : Page P S) (slot : Int) {l : List Nat}
    (hl : slotsAfter page slot = l) :
    (List.range (l.length + 1)).map (fun n => (getNextFilledSlot page)^[n + 1] slot) =
      l.map (fun t : Nat => (t : Int)) ++ [-1] := by
  have hfirst := getNextFilledSlot_eq page slot
  rw [hl] at hfirst
  induction l generalizing slot with
  | nil => simp [hfirst]
  | cons t ts ih =>
    have hts := (slotsAfter_cons hl).2.2.symm
    have hnext := getNextFilledSlot_eq page t
    rw [hts] at hnext
    have hrest := ih (t : Int) hts hnext
    rw [List.length_cons, List.range_succ_eq_map, List.map_cons, List.map_map, List.map_cons, List.cons_append,
      ← hrest]
    simp only [Function.comp_def, Function.iterate_succ_apply, Function.iterate_zero_apply, hfirst]

theorem slotsAfter_start (page : Page P S) : slotsAfter page (-1) = (flags page).sort := by
  have hl : slotsAfter page (-1) = (List.range (fixedLenPageCapacity P S)).filter page.filled := by
    rw [slotsAfter, List.range_eq_range']
    rfl
  rw [hl, flags_eq_toFinset, (List.toFinset_sort _ (List.nodup_range.filter _)).mpr]
  exact (List.pairwise_lt_range.imp le_of_lt).filter _

theorem routines_congr {p q : Page P S} (h : flags p = flags q) :
    fixedLenPageFreeslots p = fixedLenPageFreeslots q ∧ emptySlot p = emptySlot q ∧
      ∀ slot, getNextFilledSlot p slot = getNextFilledSlot q slot := by
  refine ⟨?_, ?_, fun slot => ?_⟩
  · have hp := freeslots_add_card p
    have hq := freeslots_add_card q
    rw [h] at hp
    omega
  · apply Option.ext
    intro t
    rw [emptySlot_flags, emptySlot_flags, h]
  · have hs : slotsAfter p slot = slotsAfter q slot := by
      rw [slotsAfter, slotsAfter]
      apply List.filter_congr
      intro t ht
      have hlt : t < fixedLenPageCapacity P S := by
        rw [List.mem_range'_1] at ht
        omega
      rw [filled_eq_mem_flags p hlt, filled_eq_mem_flags q hlt, h]
    rw [getNextFilledSlot_eq, getNextFilledSlot_eq, hs]

theorem add_slot_congr {p q : Page P S} (h : flags p = flags q) {r : Record}
    (hr : r.length ≤ S / attributeSize) :
    (addFixedLenPage p r).map Prod.fst = (addFixedLenPage q r).map Prod.fst := by
  rw [addFixedLenPage_eq, addFixedLenPage_eq, (routines_congr h).2.1]
  cases he : emptySlot q with
  | none => rfl
  | some t =>
    have ht := (emptySlot_flags.mp he).1
    obtain ⟨p', hp, -⟩ := write_flags p ht hr
    obtain ⟨q', hq, -⟩ := write_flags q ht hr
    simp only [hp, hq]
    rfl

/-- The routines that walk over the flags and those that compute the place of one flag mean the
same bits of a page, and no others. -/
structure RoutinesAgree (page : Page P S) : Prop where
  freeslots : fixedLenPageFreeslots page + (flags page).card = fixedLenPageCapacity P S
  write : ∀ t < fixedLenPageCapacity P S, ∀ r : Record, r.length ≤ S / attributeSize →
    ∃ page', writeFixedLenPage page t r = .ok page' ∧ flags page' = insert t (flags page)
  delete : ∀ t < fixedLenPageCapacity P S,
    ∃ page', deleteFixedLenPage page t = .ok page' ∧ flags page' = (flags page).erase t
  add : ∀ r : Record, r.length ≤ S / attributeSize →
    (flags page = Finset.range (fixedLenPageCapacity P S) ∧ addFixedLenPage page r = .ok (none, page)) ∨
    ∃ t page', t < fixedLenPageCapacity P S ∧ t ∉ flags page ∧ (∀ u < t, u ∈ flags page) ∧
      addFixedLenPage page r = .ok (some t, page') ∧ flags page' = insert t (flags page)
  next : (List.range ((flags page).card + 1)).map (fun n => (getNextFilledSlot page)^[n + 1] (-1)) =
    (flags page).sort.map (fun t : Nat => (t : Int)) ++ [-1]
  padding : ∀ other : Page P S, flags other = flags page →
    fixedLenPageFreeslots other = fixedLenPageFreeslots page ∧
    (∀ slot, getNextFilledSlot other slot = getNextFilledSlot page slot) ∧
    ∀ r : Record, r.length ≤ S / attributeSize →
      (addFixedLenPage other r).map Prod.fst = (addFixedLenPage page r).map Prod.fst

/-- On a page that `init_fixed_len_page` lets through there is a slot, and the routines agree. -/
theorem bitmap_routines_agree (hs : 0 < S) (hp : S < P) (page : Page P S) :
    0 < fixedLenPageCapacity P S ∧ RoutinesAgree page := by
  refine ⟨capacity_pos hs hp, freeslots_add_card page, fun t ht r hr => write_flags page ht hr,
    fun t ht => delete_flags page ht, fun r hr => add_flags page hr, ?_, fun other h => ?_⟩
  · rw [← Finset.length_sort (fun a b : Nat => a ≤ b)]
    exact getNextFilledSlot_iterate page (-1) (slotsAfter_start page)
  · obtain ⟨hfree, -, hnext⟩ := routines_congr h
    exact ⟨hfree, hnext, fun r hr => add_slot_congr h hr⟩

/-- A page of three slots. The flags of the first and the last one are set, and two bits behind them. -/
def markedPage : Page 64 20 := ⟨List.replicate 63 7 ++ [173], by decide⟩

theorem bitmap_routines_agree_marked : 0 < fixedLenPageCapacity 64 20 ∧ flags markedPage = {0, 2} ∧
    RoutinesAgree markedPage := by
  have hagree := bitmap_routines_agree (by decide) (by decide) markedPage
  exact ⟨hagree.1, by decide, hagree.2⟩

end RecordStore.FlagSets
