import RecordStore.FixedPage

namespace RecordStore.PageBitmap

open RecordStore.CFile RecordStore.FixedPage

variable {P S : Nat}

theorem flagMask_eq (slot : Nat) : flagMask slot = BitVec.twoPow 8 (slot % 8) := by
  rw [flagMask, BitVec.twoPow_eq]

theorem filled_eq (page : Page P S) (slot : Nat) :
    page.filled slot = (page.byte (P - 1 - slot / 8)).getLsbD (slot % 8) := by
  have h8 : slot % 8 < 8 := Nat.mod_lt _ (by decide)
  rw [Page.filled, flagMask_eq, BitVec.and_twoPow]
  cases hb : (page.byte (P - 1 - slot / 8)).getLsbD (slot % 8) with
  | false => simp
  | true =>
    simp only [↓reduceIte, bne_iff_ne, ne_eq]
    intro he
    have h := congrArg (fun x : Byte => x.getLsbD (slot % 8)) he
    simp [h8] at h

/-- Bit `t` of the `i`-th directory byte, counted from 1 at the page's end, is the
flag of slot `8 * (i - 1) + t`. -/
theorem byte_filled (page : Page P S) {i t : Nat} (hi : 0 < i) (ht : t < 8) :
    (page.byte (P - i)).getLsbD t = page.filled (8 * (i - 1) + t) := by
  rw [filled_eq]
  have hd : (8 * (i - 1) + t) / 8 = i - 1 := by omega
  have hm : (8 * (i - 1) + t) % 8 = t := by omega
  rw [hd, hm, show P - 1 - (i - 1) = P - i by omega]

theorem sshiftRight_bit (v : Byte) {t : Nat} (ht : t + 1 < 8) :
    (v.sshiftRight 1).getLsbD t = v.getLsbD (t + 1) := by
  simp [BitVec.getLsbD_sshiftRight, Nat.add_comm 1 t, ht, show ¬ 8 ≤ t by omega]

theorem and_one_toNat (v : Byte) : (v &&& 1).toNat = if v.getLsbD 0 then 1 else 0 := by
  have h := BitVec.and_one_eq_setWidth_ofBool_getLsbD (x := v)
  rw [show (1 : Byte) = 1#8 from rfl, h]
  cases v.getLsbD 0 <;> rfl

theorem and_one_eq_zero (v : Byte) : v &&& 1 = 0 ↔ v.getLsbD 0 = false := by
  have h := and_one_toNat v
  constructor
  · intro hz
    rw [hz] at h
    cases hb : v.getLsbD 0 <;> simp_all
  · intro hz
    rw [hz] at h
    exact BitVec.eq_of_toNat_eq (by simpa using h)

section Scan

variable (flag : Nat → Bool) (numRecs : Nat)

theorem shift_flags {bits : Nat} {charVal : Byte} {counter : Nat} (hb : bits + 1 ≤ 8)
    (hv : ∀ t < bits + 1, charVal.getLsbD t = flag (counter + t)) :
    ∀ t < bits, (charVal.sshiftRight 1).getLsbD t = flag (counter + 1 + t) := by
  intro t ht
  rw [sshiftRight_bit charVal (by omega), hv (t + 1) (by omega)]
  congr 1
  omega

theorem freeslotsByte_eq {bits : Nat} {charVal : Byte} {result counter : Nat} (hb : bits ≤ 8)
    (hv : ∀ t < bits, charVal.getLsbD t = flag (counter + t)) (hc : counter ≤ numRecs) :
    freeslotsByte numRecs bits charVal result counter =
      (result + (List.range' counter (min bits (numRecs - counter))).countP flag,
        counter + min bits (numRecs - counter)) := by
  induction bits generalizing charVal result counter with
  | zero => simp [freeslotsByte]
  | succ bits ih =>
    rw [freeslotsByte]
    by_cases hlt : counter < numRecs
    · have hshift := shift_flags flag hb hv
      have h0 := hv 0 (by omega)
      have hm : min (bits + 1) (numRecs - counter) = min bits (numRecs - (counter + 1)) + 1 := by omega
      rw [if_pos hlt, ih (by omega) hshift (by omega), hm, List.range'_succ, List.countP_cons,
        and_one_toNat, h0, Nat.add_zero]
      ext <;> simp only <;> omega
    · have hz : numRecs - counter = 0 := by omega
      simp [hlt, hz]

theorem emptySlotByte_eq {bits : Nat} {charVal : Byte} {counter : Nat} (hb : bits ≤ 8)
    (hv : ∀ t < bits, charVal.getLsbD t = flag (counter + t)) (hc : counter ≤ numRecs) :
    (emptySlotByte numRecs bits charVal counter).1 =
        (List.range' counter (min bits (numRecs - counter))).find? (fun t => !flag t) ∧
      ((emptySlotByte numRecs bits charVal counter).1 = none →
        (emptySlotByte numRecs bits charVal counter).2 = counter + min bits (numRecs - counter)) := by
  induction bits generalizing charVal counter with
  | zero => simp [emptySlotByte]
  | succ bits ih =>
    rw [emptySlotByte]
    by_cases hlt : counter < numRecs
    · have hshift := shift_flags flag hb hv
      have h0 := hv 0 (by omega)
      have hm : min (bits + 1) (numRecs - counter) = min bits (numRecs - (counter + 1)) + 1 := by omega
      rw [if_pos hlt, hm, List.range'_succ, List.find?_cons]
      by_cases hz : charVal &&& 1 = 0
      · have hf := (and_one_eq_zero charVal).mp hz
        rw [h0, Nat.add_zero] at hf
        rw [if_pos hz]
        simp [hf]
      · have hf : flag counter = true := by
          rw [and_one_eq_zero, h0, Nat.add_zero] at hz
          simpa using hz
        obtain ⟨h1, h2⟩ := ih (by omega) hshift (show counter + 1 ≤ numRecs by omega)
        rw [if_neg hz, hf]
        refine ⟨h1, fun hn => ?_⟩
        rw [h2 hn]
        omega
    · have hz : numRecs - counter = 0 := by omega
      simp [hlt, hz]

end Scan

/-- The counting loop, entered at byte `i` with the counter in step or already at
the end, counts the set flags it has left. -/
theorem freeslotsLoop_eq (page : Page P S) (numRecs bytes i result counter : Nat) (hi : 0 < i)
    (hc : counter ≤ numRecs) (hs : counter = numRecs ∨ counter = 8 * (i - 1)) :
    freeslotsLoop page numRecs bytes i result counter =
      result + (List.range' counter (min (8 * bytes) (numRecs - counter))).countP page.filled := by
  induction bytes generalizing i result counter with
  | zero => simp [freeslotsLoop]
  | succ bytes ih =>
    obtain rfl | hs := hs
    · have hb : freeslotsByte counter 8 (page.byte (P - i)) result counter = (result, counter) := by
        simp [freeslotsByte]
      rw [freeslotsLoop, hb]
      simp only [ih (i + 1) result counter (by omega) le_rfl (.inl rfl), Nat.sub_self, Nat.min_zero]
    · have hv : ∀ t < 8, (page.byte (P - i)).getLsbD t = page.filled (counter + t) := by
        intro t ht
        rw [byte_filled page hi ht, hs]
      rw [freeslotsLoop, freeslotsByte_eq page.filled numRecs le_rfl hv hc]
      simp only
      rw [ih (i + 1) _ _ (by omega) (by omega) (by omega), Nat.add_assoc, ← List.countP_append,
        List.range'_append_1]
      congr 3
      omega

theorem emptySlotLoop_eq (page : Page P S) (numRecs bytes i counter : Nat) (hi : 0 < i)
    (hc : counter ≤ numRecs) (hs : counter = numRecs ∨ counter = 8 * (i - 1)) :
    emptySlotLoop page numRecs bytes i counter =
      (List.range' counter (min (8 * bytes) (numRecs - counter))).find? (fun t => !page.filled t) := by
  induction bytes generalizing i counter with
  | zero => simp [emptySlotLoop]
  | succ bytes ih =>
    obtain rfl | hs := hs
    · have hb : emptySlotByte counter 8 (page.byte (P - i)) counter = (none, counter) := by
        simp [emptySlotByte]
      rw [emptySlotLoop, hb]
      simp only [ih (i + 1) counter (by omega) le_rfl (.inl rfl), Nat.sub_self, Nat.min_zero]
    · have hv : ∀ t < 8, (page.byte (P - i)).getLsbD t = page.filled (counter + t) := by
        intro t ht
        rw [byte_filled page hi ht, hs]
      obtain ⟨h1, h2⟩ := emptySlotByte_eq page.filled numRecs le_rfl hv hc
      have hsplit : List.range' counter (min (8 * (bytes + 1)) (numRecs - counter)) =
          List.range' counter (min 8 (numRecs - counter)) ++
            List.range' (counter + min 8 (numRecs - counter))
              (min (8 * bytes) (numRecs - (counter + min 8 (numRecs - counter)))) := by
        rw [List.range'_append_1]
        congr 1
        omega
      rw [emptySlotLoop, hsplit, List.find?_append, ← h1]
      generalize hr : emptySlotByte numRecs 8 (page.byte (P - i)) counter = res at h1 h2 ⊢
      obtain ⟨slot, counter'⟩ := res
      cases slot with
      | some slot => rfl
      | none =>
        have hc' : counter' = counter + min 8 (numRecs - counter) := h2 rfl
        subst hc'
        simp only [Option.none_or]
        exact ih (i + 1) _ (by omega) (by omega) (by omega)

theorem le_ceilBytes (n : Nat) : n ≤ 8 * ceilBytes n := by
  unfold ceilBytes
  omega

def occupied (page : Page P S) : Nat :=
  (List.range (fixedLenPageCapacity P S)).countP page.filled

theorem freeslots_eq (page : Page P S) :
    fixedLenPageFreeslots page = fixedLenPageCapacity P S - occupied page := by
  have hb := le_ceilBytes (fixedLenPageCapacity P S)
  rw [fixedLenPageFreeslots, freeslotsLoop_eq page _ _ 1 0 0 (by decide) (Nat.zero_le _) (.inr rfl),
    Nat.sub_zero, Nat.min_eq_right hb, Nat.zero_add, ← List.range_eq_range', occupied]

def emptySlot (page : Page P S) : Option Nat :=
  (List.range (fixedLenPageCapacity P S)).find? (fun t => !page.filled t)

theorem emptySlotLoop_eq_emptySlot (page : Page P S) :
    emptySlotLoop page (fixedLenPageCapacity P S) (ceilBytes (fixedLenPageCapacity P S)) 1 0 =
      emptySlot page := by
  have hb := le_ceilBytes (fixedLenPageCapacity P S)
  rw [emptySlotLoop_eq page _ _ 1 0 (by decide) (Nat.zero_le _) (.inr rfl),
    Nat.sub_zero, Nat.min_eq_right hb, ← List.range_eq_range', emptySlot]

theorem emptySlot_eq_some {page : Page P S} {t : Nat} :
    emptySlot page = some t ↔ t < fixedLenPageCapacity P S ∧ page.filled t = false ∧
      ∀ u < t, page.filled u = true := by
  rw [emptySlot, List.find?_range_eq_some]
  simp [and_left_comm]

theorem emptySlot_eq_none {page : Page P S} :
    emptySlot page = none ↔ ∀ t < fixedLenPageCapacity P S, page.filled t = true := by
  simp [emptySlot, List.find?_eq_none]

theorem freeslots_pos_iff (page : Page P S) :
    0 < fixedLenPageFreeslots page ↔ ∃ t, emptySlot page = some t := by
  have hle : occupied page ≤ fixedLenPageCapacity P S := by
    simpa [occupied] using List.countP_le_length (p := page.filled)
      (l := List.range (fixedLenPageCapacity P S))
  have hfull : occupied page = fixedLenPageCapacity P S ↔ emptySlot page = none := by
    rw [emptySlot_eq_none, occupied]
    have h := List.countP_eq_length (p := page.filled) (l := List.range (fixedLenPageCapacity P S))
    rw [List.length_range] at h
    simpa using h
  rw [freeslots_eq]
  cases he : emptySlot page with
  | none =>
    have := hfull.mpr he
    simp [this]
  | some t =>
    have hne : occupied page ≠ fixedLenPageCapacity P S := fun h => by simp [hfull.mp h] at he
    exact ⟨fun _ => ⟨t, rfl⟩, fun _ => by omega⟩

end RecordStore.PageBitmap
