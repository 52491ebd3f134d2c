import RecordStore.PageSlots

namespace RecordStore.SlotFrame

open RecordStore.Splice RecordStore.Outcome RecordStore.FixedRecord RecordStore.FixedPage
open RecordStore.PageBitmap RecordStore.PageSlots

variable {P S : Nat}

def bit (page : Page P S) (i k : Nat) : Bool := (page.byte i).getLsbD k

def slotBytes (S t : Nat) : Set Nat := Set.Ico (t * S) ((t + 1) * S)

theorem mem_slotBytes {t i : Nat} : i ∈ slotBytes S t ↔ t * S ≤ i ∧ i < t * S + S := by
  rw [slotBytes, Set.mem_Ico, Nat.succ_mul]

theorem filled_eq_bit (page : Page P S) (t : Nat) : page.filled t = bit page (P - 1 - t / 8) (t % 8) :=
  filled_eq page t

def InPage (P S t : Nat) (r : Record) : Prop := ∀ k < fixedLenSizeof r, t * S + k < P

theorem inPage_of_le {t : Nat} {r : Record} (h : t * S + fixedLenSizeof r ≤ P) : InPage P S t r := by
  intro k hk
  omega

theorem store_of_inPage (page : Page P S) {t : Nat} {r : Record} (h : InPage P S t r) :
    ∃ page' : Page P S, page.store (t * S) (fixedLenWrite r) = .ok page' ∧
      ∀ i < P, page'.byte i = if t * S ≤ i ∧ i < t * S + fixedLenSizeof r then
        (fixedLenWrite r).getD (i - t * S) 0 else page.byte i := by
  have hlen := fixedLenWrite_length r
  cases hr : fixedLenSizeof r with
  | zero =>
    have hnil : fixedLenWrite r = [] := List.length_eq_zero_iff.mp (hlen.trans hr)
    refine ⟨page, ?_, fun i _ => ?_⟩
    · rw [hnil, Page.store]
      split
      · congr
        simp [splice]
      · rfl
    · rw [if_neg (by omega)]
  | succ n =>
    have hend := h n (by omega)
    obtain ⟨page', hs, hd⟩ := store_of_le page (show t * S + (fixedLenWrite r).length ≤ P by omega)
    have hoff : t * S ≤ page.data.length := by
      rw [page.length_data]
      omega
    refine ⟨page', hs, fun i hi => ?_⟩
    simp only [Page.byte, List.getD_eq_getElem?_getD, hd, getElem?_splice _ hoff, hlen, hr]
    by_cases hlo : i < t * S
    · rw [if_pos hlo, if_neg (by omega)]
    · by_cases hhi : i < t * S + (n + 1)
      · rw [if_neg hlo, if_pos hhi, if_pos (by omega)]
      · rw [if_neg hlo, if_neg hhi, if_neg (by omega)]

theorem store_of_not_inPage (page : Page P S) {t : Nat} {r : Record} (h : ¬ InPage P S t r) :
    page.store (t * S) (fixedLenWrite r) = .error .memory := by
  have hlen := fixedLenWrite_length r
  have hout : ¬ t * S + (fixedLenWrite r).length ≤ P := fun hle => h (inPage_of_le (hlen ▸ hle))
  have hne : fixedLenWrite r ≠ [] := by
    intro hnil
    refine h (fun k hk => ?_)
    rw [← hlen, hnil] at hk
    exact absurd hk (Nat.not_lt_zero k)
  rw [Page.store, dif_neg hout, if_neg hne]

theorem writeFixedLenPage_bits (page : Page P S) {t : Nat} {r : Record} (hfit : InPage P S t r)
    (ht : t / 8 < P) :
    ∃ page', writeFixedLenPage page t r = .ok page' ∧ ∀ i < P, ∀ k < 8, bit page' i k =
      if i = P - 1 - t / 8 ∧ k = t % 8 then true
      else if t * S ≤ i ∧ i < t * S + fixedLenSizeof r then ((fixedLenWrite r).getD (i - t * S) 0).getLsbD k
      else bit page i k := by
  obtain ⟨p1, h1, hb1⟩ := store_of_inPage page hfit
  obtain ⟨p2, h2, hd2⟩ := modify_flag p1 ht (fun b => b ||| flagMask t)
  refine ⟨p2, ?_, fun i hi k hk => ?_⟩
  · rw [writeFixedLenPage, if_pos (Int.natCast_nonneg t), Int.toNat_natCast, h1]
    exact h2
  · have hstored : (p1.byte i).getLsbD k = if t * S ≤ i ∧ i < t * S + fixedLenSizeof r then
        ((fixedLenWrite r).getD (i - t * S) 0).getLsbD k else bit page i k := by
      rw [hb1 i hi]
      split <;> rfl
    rw [bit, byte_modify (by omega) hd2, ← hstored]
    by_cases hflag : i = P - 1 - t / 8
    · simp only [hflag, ↓reduceIte, true_and]
      exact or_flagMask t _ k hk
    · simp only [hflag, ↓reduceIte, false_and]

theorem writeFixedLenPage_fault (page : Page P S) {t : Nat} {r : Record}
    (h : ¬ (InPage P S t r ∧ t / 8 < P)) : writeFixedLenPage page t r = .error .memory := by
  rw [writeFixedLenPage, if_pos (Int.natCast_nonneg t), Int.toNat_natCast]
  by_cases hfit : InPage P S t r
  · obtain ⟨p1, h1, -⟩ := store_of_inPage page hfit
    have hout : ¬ (0 ≤ flagIndex P t ∧ flagIndex P t < P) := by
      have ht : ¬ t / 8 < P := fun ht => h ⟨hfit, ht⟩
      unfold flagIndex ceilBytes
      omega
    rw [h1, ok_bind, Page.modify, if_neg hout]
  · rw [store_of_not_inPage page hfit]
    rfl

theorem deleteFixedLenPage_bits (page : Page P S) {t : Nat} (ht : t / 8 < P) :
    ∃ page', deleteFixedLenPage page t = .ok page' ∧ ∀ i < P, ∀ k < 8, bit page' i k =
      if i = P - 1 - t / 8 ∧ k = t % 8 then false else bit page i k := by
  obtain ⟨page', hx, hd⟩ := deleteFixedLenPage_data page ht
  refine ⟨page', hx, fun i hi k hk => ?_⟩
  rw [bit, byte_modify (by omega) hd]
  by_cases hflag : i = P - 1 - t / 8
  · simp only [hflag, ↓reduceIte, true_and]
    exact and_not_flagMask t _ k hk
  · simp only [hflag, ↓reduceIte, false_and]
    rfl

theorem deleteFixedLenPage_fault (page : Page P S) {t : Nat} (h : ¬ t / 8 < P) :
    deleteFixedLenPage page t = .error .memory := by
  have hout : ¬ (0 ≤ flagIndex P t ∧ flagIndex P t < P) := by
    unfold flagIndex ceilBytes
    omega
  rw [deleteFixedLenPage, if_pos (Int.natCast_nonneg t), Int.toNat_natCast, Page.modify, if_neg hout]

theorem slotBytes_disjoint {t u : Nat} (h : t ≠ u) : slotBytes S t ∩ slotBytes S u = ∅ := by
  apply Set.eq_empty_of_forall_notMem
  rintro i ⟨ht, hu⟩
  rw [mem_slotBytes] at ht hu
  have := slots_disjoint (S := S) h
  omega

theorem slotBytes_in_page {t : Nat} (ht : t < fixedLenPageCapacity P S) : slotBytes S t ⊆ Set.Iio P := by
  intro i hi
  rw [mem_slotBytes] at hi
  have := slot_in_page ht
  rw [Set.mem_Iio]
  omega

theorem flagIndex_not_mem_slotBytes {t u : Nat} (ht : t < fixedLenPageCapacity P S)
    (hu : u < fixedLenPageCapacity P S) {i : Nat} (hi : i ∈ slotBytes S t) : (i : Int) ≠ flagIndex P u := by
  obtain ⟨hflag, hu8⟩ := slots_before_flags hu
  have hend := slot_end ht
  rw [mem_slotBytes] at hi
  rw [flagIndex_eq hu8]
  omega

theorem flag_ne {t u : Nat} (h : t ≠ u) : flagIndex P t ≠ flagIndex P u ∨ t % 8 ≠ u % 8 := by
  unfold flagIndex ceilBytes
  omega

/-- The slots below the capacity and their flags lie in the page and keep out of each other's way. -/
structure SlotsApart (P S : Nat) : Prop where
  capacity : 1 ≤ fixedLenPageCapacity P S
  slotsInPage : ∀ t < fixedLenPageCapacity P S, slotBytes S t ⊆ Set.Iio P
  flagsInPage : ∀ t < fixedLenPageCapacity P S, 0 ≤ flagIndex P t ∧ flagIndex P t < P
  slotsDisjoint : ∀ t < fixedLenPageCapacity P S, ∀ u < fixedLenPageCapacity P S, t ≠ u →
    slotBytes S t ∩ slotBytes S u = ∅
  flagsOutside : ∀ t < fixedLenPageCapacity P S, ∀ u < fixedLenPageCapacity P S,
    ∀ i ∈ slotBytes S t, (i : Int) ≠ flagIndex P u
  flagsDistinct : ∀ t < fixedLenPageCapacity P S, ∀ u < fixedLenPageCapacity P S, t ≠ u →
    flagIndex P t ≠ flagIndex P u ∨ t % 8 ≠ u % 8

theorem slotsApart (hs : 0 < S) (hp : S < P) : SlotsApart P S where
  capacity := capacity_pos hs hp
  slotsInPage _ ht := slotBytes_in_page ht
  flagsInPage t ht := by
    have ht8 := (slots_before_flags ht).2
    rw [flagIndex_eq ht8]
    omega
  slotsDisjoint _ _ _ _ hne := slotBytes_disjoint hne
  flagsOutside _ ht _ hu _ hi := flagIndex_not_mem_slotBytes ht hu hi
  flagsDistinct _ _ _ _ hne := flag_ne hne

/-- `p` and `q` are the same but for the flag of slot `t`, which is `v` in `q`, and for what the
bytes in `area` hold. -/
def SameBut (area : Set Nat) (t : Nat) (v : Bool) (p q : Page P S) : Prop :=
  ∀ i < P, i ∉ area → ∀ k < 8, bit q i k = if (i : Int) = flagIndex P t ∧ k = t % 8 then v else bit p i k

theorem flagIndex_iff {t : Nat} (ht : t / 8 < P) (i : Nat) : (i : Int) = flagIndex P t ↔ i = P - 1 - t / 8 := by
  rw [flagIndex_eq ht]
  exact Int.ofNat_inj

theorem write_sameBut (page : Page P S) {t : Nat} (ht : t < fixedLenPageCapacity P S) {r : Record}
    (hr : fixedLenSizeof r ≤ S) :
    ∃ page', writeFixedLenPage page t r = .ok page' ∧ SameBut (slotBytes S t) t true page page' := by
  have ht8 := (slots_before_flags ht).2
  have hpage := slot_in_page ht
  have hfit : InPage P S t r := inPage_of_le (by omega)
  obtain ⟨page', hw, hbits⟩ := writeFixedLenPage_bits page hfit ht8
  refine ⟨page', hw, fun i hi hout k hk => ?_⟩
  rw [mem_slotBytes] at hout
  simp only [flagIndex_iff ht8]
  rw [hbits i hi k hk, if_neg (show ¬ (t * S ≤ i ∧ i < t * S + fixedLenSizeof r) by omega)]

theorem delete_sameBut (page : Page P S) {t : Nat} (ht : t < fixedLenPageCapacity P S) :
    ∃ page', deleteFixedLenPage page t = .ok page' ∧ SameBut ∅ t false page page' := by
  have ht8 := (slots_before_flags ht).2
  obtain ⟨page', hd, hbits⟩ := deleteFixedLenPage_bits page ht8
  refine ⟨page', hd, fun i hi _ k hk => ?_⟩
  simp only [flagIndex_iff ht8]
  exact hbits i hi k hk

theorem SameBut.mono {area area' : Set Nat} {t : Nat} {v : Bool} {p q : Page P S} (ha : area ⊆ area')
    (h : SameBut area t v p q) : SameBut area' t v p q :=
  fun i hi hout k hk => h i hi (fun hin => hout (ha hin)) k hk

/-- Slots and flags are apart, and writing, deleting and reading a slot concern its own bytes and
its own flag only. -/
theorem slot_operations_frame (hs : 0 < S) (hp : S < P) :
    SlotsApart P S ∧
    ∀ (page : Page P S), ∀ t < fixedLenPageCapacity P S,
      (∀ r : Record, r.length = S / attributeSize →
        ∃ page', writeFixedLenPage page t r = .ok page' ∧ SameBut (slotBytes S t) t true page page' ∧
          ∀ beyond, readFixedLenPage beyond page' t (S / attributeSize) = .ok (stored r)) ∧
      ∃ page', deleteFixedLenPage page t = .ok page' ∧ SameBut ∅ t false page page' := by
  refine ⟨slotsApart hs hp, fun page t ht => ⟨fun r hr => ?_, delete_sameBut page ht⟩⟩
  have hsize : fixedLenSizeof r ≤ S := by
    rw [fixedLenSizeof, hr]
    exact Nat.div_mul_le_self _ _
  obtain ⟨page', hw, hsame⟩ := write_sameBut page ht hsize
  obtain ⟨page'', hw', -, -, hself⟩ := writeFixedLenPage_spec page ht hsize
  obtain rfl : page' = page'' := Except.ok.inj (hw.symm.trans hw')
  refine ⟨page', hw, hsame, fun beyond => ?_⟩
  rw [readFixedLenPage_eq beyond page' ht, hself hr.symm]

theorem slot_operations_frame_small : SlotsApart 64 20 ∧
    ∀ (page : Page 64 20), ∀ t < fixedLenPageCapacity 64 20,
      (∀ r : Record, r.length = 20 / attributeSize →
        ∃ page', writeFixedLenPage page t r = .ok page' ∧ SameBut (slotBytes 20 t) t true page page' ∧
          ∀ beyond, readFixedLenPage beyond page' t (20 / attributeSize) = .ok (stored r)) ∧
      ∃ page', deleteFixedLenPage page t = .ok page' ∧ SameBut ∅ t false page page' :=
  slot_operations_frame (by decide) (by decide)

end RecordStore.SlotFrame
