import RecordStore.ExternalSort

namespace RecordStore.SilentLoss

open RecordStore.CFile RecordStore.Outcome RecordStore.RecordFile RecordStore.MergePasses RecordStore.PassLoop
open RecordStore.RecordSchema RecordStore.Msort RecordStore.ExternalSort

/-- The sort reports an error, or its output has the bytes and the records of the input. -/
def KeepsInput (qsort : (List Byte → List Byte → Int) → List (List Byte) → List (List Byte))
    (qsortCmp : List Byte → List Byte → Int) (less : List Byte → List Byte → Bool) (fresh : Nat → Byte)
    (schema : Schema) (mem k : Nat) (input : List Byte) (fuel : Nat) : Prop :=
  match msort qsort qsortCmp less fresh schema mem k input fuel with
  | .error e => e = .exit ∨ e = .assertFailed
  | .ok out => out.length = input.length ∧
      (records schema.recordSize out).Perm (records schema.recordSize input)

section Outcomes

variable {qsort : (List Byte → List Byte → Int) → List (List Byte) → List (List Byte)}
  {qsortCmp : List Byte → List Byte → Int} {less : List Byte → List Byte → Bool} {fresh : Nat → Byte}
  {schema : Schema} {mem k fuel : Nat} {input : List Byte}

theorem keepsInput_of_records (hrs : 0 < schema.recordSize) {recs : List (List Byte)}
    (hperm : recs.Perm (records schema.recordSize input))
    (h : msort qsort qsortCmp less fresh schema mem k input fuel = .ok recs.flatten) :
    KeepsInput qsort qsortCmp less fresh schema mem k input fuel ↔ schema.recordSize ∣ input.length := by
  have hu := (records_uniform schema.recordSize input).of_perm hperm
  have hlen : recs.flatten.length = input.length / schema.recordSize * schema.recordSize := by
    rw [flatten_length hu, hperm.length_eq, records_length]
  rw [KeepsInput, h]
  show recs.flatten.length = input.length ∧ (records schema.recordSize recs.flatten).Perm _ ↔ _
  rw [hlen, records_flatten hrs hu, and_iff_left hperm]
  exact ⟨fun h => Dvd.intro_left _ h, Nat.div_mul_cancel⟩

/-- Memory below the record size: everything is dropped. -/
theorem msort_no_room (hrs : 0 < schema.recordSize) (hmem : 0 < mem) (hk : 1 < k) (hroom : mem < schema.recordSize)
    (fuel : Nat) : msort qsort qsortCmp less fresh schema mem k input (fuel + 1) = .ok [] := by
  have hNk : 0 * k < 2 ^ 31 := by
    rw [Nat.zero_mul]
    exact Nat.two_pow_pos 31
  rw [msort_eq hmem hk (Nat.div_eq_of_lt hroom) (Nat.two_pow_pos 31) (mkRuns_zero hrs fuel _ _),
    passLoop_stop _ _ hNk (Nat.zero_mul k).le, ok_bind]

variable {N : Nat}

theorem msort_one_run (hN : input.length / schema.recordSize = N) (hrs : 0 < schema.recordSize)
    (hroom : schema.recordSize ≤ mem) (hR : mem / schema.recordSize < 2 ^ 31) (hk : 1 < k) (hNk : N * k < 2 ^ 31)
    (hlong : N * k ≤ mem / schema.recordSize) (hfuel : N < fuel) :
    ∃ runs, SortedBlocks (qsort qsortCmp) (mem / schema.recordSize) (records schema.recordSize input) runs ∧
      msort qsort qsortCmp less fresh schema mem k input fuel = .ok runs.flatten := by
  have hle : N ≤ N * k := Nat.le_mul_of_pos_right _ (by omega)
  obtain ⟨runs, hblocks, -, hmsort⟩ := @msort_runs qsort qsortCmp less fresh schema mem k fuel input hrs hroom
    hR hk (by rw [hN]; omega) (by rwa [hN])
  obtain ⟨fuel, rfl⟩ := Nat.exists_eq_succ_of_ne_zero (Nat.ne_zero_of_lt hfuel)
  rw [hN, passLoop_stop _ _ hNk hlong] at hmsort
  exact ⟨runs, hblocks, hmsort⟩

theorem mergeGroup_exits (hk : 1 < k) (hbuf : mem / (k + 1) < schema.recordSize) (fuel N n : Nat) (s : Temps) :
    mergeGroup less schema.recordSize fresh (mem / (k + 1)) fuel s (groupRuns N n k 0) = .error .exit := by
  have hdiv := Nat.div_eq_of_lt hbuf
  obtain ⟨k, rfl⟩ := Nat.exists_eq_succ_of_ne_zero (Nat.ne_zero_of_lt hk)
  rw [mergeGroup, groupRuns, List.range_succ_eq_map, List.map_cons, newIterators_error hdiv, error_bind]

theorem msort_exits (hN : input.length / schema.recordSize = N) (hrs : 0 < schema.recordSize)
    (hroom : schema.recordSize ≤ mem) (hk : 1 < k) (hfit : IntsFit schema.recordSize mem k N)
    (hshort : mem / schema.recordSize < N * k) (hbuf : mem / (k + 1) < schema.recordSize)
    (hfuel : N + 1 < fuel) : msort qsort qsortCmp less fresh schema mem k input fuel = .error .exit := by
  obtain ⟨runs, -, -, hmsort⟩ := @msort_runs qsort qsortCmp less fresh schema mem k fuel input hrs hroom
    hfit.runLength hk (by rw [hN]; exact hfit.count hk) (by rw [hN]; omega)
  have hNpos : 0 < N := by
    apply Nat.pos_of_ne_zero
    rintro rfl
    rw [Nat.zero_mul] at hshort
    exact absurd hshort (Nat.not_lt_zero _)
  have hRk : mem / schema.recordSize * k < 2 ^ 31 := by simpa using hfit.segments 0 (by simpa using hshort)
  rw [hN, bufSize_eq hfit.chunks hfit.bufSize] at hmsort
  obtain ⟨fuel, rfl⟩ := Nat.exists_eq_add_of_le' (show 2 ≤ fuel by omega)
  rw [passLoop_fault endPass hNpos hfit.bound hRk hshort
    (mergeGroup_exits hk hbuf ..)] at hmsort
  exact hmsort

end Outcomes

theorem keeps_input_iff (attrs : List Attribute) (hattrs : attrs ≠ [])
    (qsort : (List Byte → List Byte → Int) → List (List Byte) → List (List Byte))
    (qsortCmp : List Byte → List Byte → Int) (less : List Byte → List Byte → Bool) (fresh : Nat → Byte)
    (hqsort : ∀ block, (qsort qsortCmp block).Perm block) (mem k : Nat) (input : List Byte)
    (hmem : 0 < mem) (hlong : mem < 2 ^ 31) (hk : 1 < k)
    (hint : input.length / (mkSchema attrs).recordSize +
      input.length / (mkSchema attrs).recordSize * k * k < 2 ^ 31)
    (fuel : Nat) (hfuel : input.length / (mkSchema attrs).recordSize * k +
      input.length / (mkSchema attrs).recordSize + 1 < fuel) :
    KeepsInput qsort qsortCmp less fresh (mkSchema attrs) mem k input fuel ↔
      ((mkSchema attrs).recordSize ∣ input.length ∧ ((mkSchema attrs).recordSize ≤ mem ∨ input = [])) ∨
      ((mkSchema attrs).recordSize ≤ mem ∧
        mem / (mkSchema attrs).recordSize < input.length / (mkSchema attrs).recordSize * k ∧
        mem / (k + 1) < (mkSchema attrs).recordSize) := by
  have hrs := recordSize_pos hattrs
  obtain ⟨N, hN⟩ : ∃ N, input.length / (mkSchema attrs).recordSize = N := ⟨_, rfl⟩
  by_cases hroom : (mkSchema attrs).recordSize ≤ mem
  · by_cases hshort : mem / (mkSchema attrs).recordSize < N * k
    · have hNpos : 0 < N := by
        apply Nat.pos_of_ne_zero
        rintro rfl
        rw [Nat.zero_mul] at hshort
        exact absurd hshort (Nat.not_lt_zero _)
      have hkk : k * 2 ≤ N * k * k := Nat.mul_le_mul (Nat.le_mul_of_pos_left k hNpos) hk
      have hfit : IntsFit (mkSchema attrs).recordSize mem k N :=
        IntsFit.of_square _ hk (by rw [hN] at hint; omega) hlong (by rwa [hN] at hint)
      by_cases hbuf : mem / (k + 1) < (mkSchema attrs).recordSize
      · rw [hN] at hfuel
        rw [KeepsInput, msort_exits hN hrs hroom hk hfit hshort hbuf (by omega), hN]
        exact ⟨fun _ => .inr ⟨hroom, hshort, hbuf⟩, fun _ => .inl rfl⟩
      · obtain ⟨runs, n, recs, hblocks, -, hmsort, hpasses, -⟩ := @msort_passes qsort qsortCmp less fresh _ mem k
          fuel input hqsort hrs (Nat.not_lt.mp hbuf) hk (by rwa [hN]) hfuel
        rw [keepsInput_of_records hrs (hpasses.perm.trans (hblocks.perm hqsort)) hmsort]
        exact ⟨fun h => .inl ⟨h, .inl hroom⟩, fun h => h.elim And.left (fun h => absurd h.2.2 hbuf)⟩
    · rw [hN] at hint hfuel
      have hkk : N * k ≤ N * k * k := Nat.le_mul_of_pos_right _ (by omega)
      obtain ⟨runs, hblocks, hmsort⟩ := @msort_one_run qsort qsortCmp less fresh _ mem k fuel input N hN hrs hroom
        ((Nat.div_le_self ..).trans_lt hlong) hk (by omega) (Nat.not_lt.mp hshort) (by omega)
      rw [keepsInput_of_records hrs (hblocks.perm hqsort) hmsort, hN]
      exact ⟨fun h => .inl ⟨h, .inl hroom⟩, fun h => h.elim And.left (fun h => absurd h.2.1 hshort)⟩
  · obtain ⟨fuel, rfl⟩ := Nat.exists_eq_succ_of_ne_zero (Nat.ne_zero_of_lt hfuel)
    rw [KeepsInput, msort_no_room hrs hmem hk (Nat.not_le.mp hroom)]
    constructor
    · rintro ⟨hlen, -⟩
      obtain rfl : input = [] := List.length_eq_zero_iff.mp hlen.symm
      exact .inl ⟨Dvd.intro_left 0 (Nat.zero_mul _), .inr rfl⟩
    · rintro (⟨-, hle | rfl⟩ | ⟨hle, -⟩)
      · exact absurd hle hroom
      · exact ⟨rfl, List.Perm.refl _⟩
      · exact absurd hle hroom

/-- The three records of before, sorted with room for all of them. -/
theorem keeps_input_iff_three :
    KeepsInput mergeSortBy byteCmp byteLess (fun _ => 0) (mkSchema [⟨[97], .string, 1⟩]) 6 2
      [3, 10, 1, 10, 2, 10] 11 := by
  refine (keeps_input_iff [⟨[97], .string, 1⟩] (by simp) mergeSortBy byteCmp byteLess (fun _ => 0)
    (fun block => (mergeSortBy_byteCmp block).1) 6 2 [3, 10, 1, 10, 2, 10] (by decide) (by decide) (by decide)
    (by decide) 11 (by decide)).mpr ?_
  exact .inl ⟨by decide, .inl (by decide)⟩

/-- One byte of memory and records of two: the output is empty and no error is reported. -/
theorem input_lost_without_room :
    ¬ KeepsInput mergeSortBy byteCmp byteLess (fun _ => 0) (mkSchema [⟨[97], .string, 1⟩]) 1 2
      [3, 10, 1, 10, 2, 10] 11 := by
  rw [KeepsInput, msort_no_room (by decide) (by decide) (by decide) (by decide)]
  rintro ⟨hlen, -⟩
  exact absurd hlen (by decide)

end RecordStore.SilentLoss
