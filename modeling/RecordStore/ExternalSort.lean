import RecordStore.Msort

namespace RecordStore.ExternalSort

open RecordStore.CFile RecordStore.Int32 RecordStore.Outcome RecordStore.RecordFile RecordStore.KMerge
open RecordStore.MergePasses RecordStore.PassLoop RecordStore.RecordSchema RecordStore.Msort

/-- What is computed in `int` for `N` records is in its range. -/
structure IntsFit (recordSize mem k N : Nat) : Prop where
  chunks : k + 1 < 2 ^ 31
  bufSize : mem / (k + 1) < 2 ^ 31
  runLength : mem / recordSize < 2 ^ 31
  bound : N * k < 2 ^ 31
  segments : ∀ q, mem / recordSize * k ^ q < N * k → mem / recordSize * k ^ (q + 1) < 2 ^ 31

theorem IntsFit.of_square {mem k N : Nat} (recordSize : Nat) (hk : 1 < k) (hchunks : k + 1 < 2 ^ 31)
    (hmem : mem < 2 ^ 31) (hint : N + N * k * k < 2 ^ 31) : IntsFit recordSize mem k N where
  chunks := hchunks
  bufSize := (Nat.div_le_self ..).trans_lt hmem
  runLength := (Nat.div_le_self ..).trans_lt hmem
  bound := by
    have hkk : N * k ≤ N * k * k := Nat.le_mul_of_pos_right _ (by omega)
    omega
  segments q hq := by
    have hlt := Nat.mul_lt_mul_of_pos_right hq (Nat.zero_lt_of_lt hk)
    rw [Nat.pow_succ, ← Nat.mul_assoc]
    omega

theorem IntsFit.count {recordSize mem k N : Nat} (h : IntsFit recordSize mem k N) (hk : 1 < k) : N < 2 ^ 31 := by
  have hN : N ≤ N * k := Nat.le_mul_of_pos_right _ (by omega)
  have hbound := h.bound
  omega

section Msort

variable {qsort : (List Byte → List Byte → Int) → List (List Byte) → List (List Byte)}
  {qsortCmp : List Byte → List Byte → Int} {less : List Byte → List Byte → Bool} {fresh : Nat → Byte}
  {schema : Schema} {mem k fuel : Nat} {input : List Byte}

theorem runs_uniform {sort : List (List Byte) → List (List Byte)} (hperm : ∀ l, (sort l).Perm l)
    {rs R : Nat} {runs : List (List Byte)} (h : SortedBlocks sort R (records rs input) runs) :
    Uniform rs runs ∧ runs.length = input.length / rs :=
  ⟨(records_uniform rs input).of_perm (h.perm hperm), by rw [(h.perm hperm).length_eq, records_length]⟩

theorem bufSize_eq (hk : k + 1 < 2 ^ 31) (hbuf : mem / (k + 1) < 2 ^ 31) :
    (toInt32 ((mem : Int).tdiv (toInt32 ((k : Int) + 1)))).toNat = mem / (k + 1) := by
  rw [show (k : Int) + 1 = ((k + 1 : Nat) : Int) from rfl, toInt32_natCast hk, ← Int.ofNat_tdiv,
    toInt32_natCast hbuf, Int.toNat_natCast]

theorem msort_eq {R : Nat} {tmpIn : File} {numRecords : Int} (hmem : 0 < mem) (hk : 1 < k)
    (hR : mem / schema.recordSize = R) (hint : R < 2 ^ 31)
    (hruns : mkRuns (qsort qsortCmp) schema.recordSize R fuel ⟨input, 0⟩ ⟨[], 0⟩ = .ok (tmpIn, numRecords)) :
    msort qsort qsortCmp less fresh schema mem k input fuel = (do
      let (s, _, _) ← passLoop (mergeGroup less schema.recordSize fresh
          (toInt32 ((mem : Int).tdiv (toInt32 ((k : Int) + 1)))).toNat fuel) endPass numRecords k fuel (R : Int) 0
        ⟨tmpIn, ⟨[], 0⟩⟩
      .ok s.tmpIn.bytes) := by
  subst hR
  rw [msort, if_pos (by omega), if_pos (by omega)]
  simp only [Int.toNat_natCast, hruns, ok_bind, toInt32_natCast hint]

theorem msort_runs (hrs : 0 < schema.recordSize) (hroom : schema.recordSize ≤ mem)
    (hR : mem / schema.recordSize < 2 ^ 31) (hk : 1 < k) (hN : input.length / schema.recordSize < 2 ^ 31)
    (hfuel : input.length / schema.recordSize < fuel) :
    ∃ runs, SortedBlocks (qsort qsortCmp) (mem / schema.recordSize) (records schema.recordSize input) runs ∧
      mkRuns (qsort qsortCmp) schema.recordSize (mem / schema.recordSize) fuel ⟨input, 0⟩ ⟨[], 0⟩ =
        .ok (⟨runs.flatten, runs.flatten.length⟩, ((input.length / schema.recordSize : Nat) : Int)) ∧
      msort qsort qsortCmp less fresh schema mem k input fuel = (do
        let (s, _, _) ← passLoop (mergeGroup less schema.recordSize fresh
            (toInt32 ((mem : Int).tdiv (toInt32 ((k : Int) + 1)))).toNat fuel) endPass
          ((input.length / schema.recordSize : Nat) : Int) k fuel ((mem / schema.recordSize : Nat) : Int) 0
          ⟨⟨runs.flatten, runs.flatten.length⟩, ⟨[], 0⟩⟩
        .ok s.tmpIn.bytes) := by
  obtain ⟨runs, hblocks, hruns⟩ := mkRuns_spec hrs (Nat.div_pos hroom hrs)
    (by rwa [records_length]) (by rwa [records_length])
  rw [records_length] at hruns
  exact ⟨runs, hblocks, hruns, msort_eq (by omega) hk rfl hR hruns⟩

/-- The sort with room for a record in each iterator's buffer is `mk_runs` and the passes
over its runs. -/
theorem msort_passes (hperm : ∀ block, (qsort qsortCmp block).Perm block) (hrs : 0 < schema.recordSize)
    (hbuf : schema.recordSize ≤ mem / (k + 1)) (hk : 1 < k)
    (hfit : IntsFit schema.recordSize mem k (input.length / schema.recordSize))
    (hfuel : input.length / schema.recordSize * k + input.length / schema.recordSize + 1 < fuel) :
    ∃ runs n recs, SortedBlocks (qsort qsortCmp) (mem / schema.recordSize) (records schema.recordSize input) runs ∧
      mkRuns (qsort qsortCmp) schema.recordSize (mem / schema.recordSize) fuel ⟨input, 0⟩ ⟨[], 0⟩ =
        .ok (⟨runs.flatten, runs.flatten.length⟩, ((input.length / schema.recordSize : Nat) : Int)) ∧
      msort qsort qsortCmp less fresh schema mem k input fuel = .ok recs.flatten ∧
      Passes less k (mem / schema.recordSize) runs n recs ∧ input.length / schema.recordSize ≤ n := by
  have hroom : schema.recordSize ≤ mem := hbuf.trans (Nat.div_le_self ..)
  obtain ⟨runs, hblocks, hruns, hmsort⟩ :=
    @msort_runs qsort qsortCmp less fresh schema mem k fuel input hrs hroom hfit.runLength hk (hfit.count hk)
      (by omega)
  obtain ⟨hu, hlen⟩ := runs_uniform hperm hblocks
  rw [bufSize_eq hfit.chunks hfit.bufSize] at hmsort
  obtain ⟨s, q, log, recs, hloop, hq, hbetween⟩ := passLoop_merges less fresh (Nat.div_pos hbuf hrs) hk
    (Nat.div_pos hroom hrs) hfit.bound hfit.segments hu hlen hfuel runs.flatten.length
  rw [hloop, ok_bind] at hmsort
  exact ⟨runs, _, recs, hblocks, hruns, hmsort.trans (congrArg _ hbetween.tmpIn), hbetween.passes, hq⟩

end Msort

/-- The external sort gives the records of its input in order; records that compare equal
stay as they stood in the file of sorted runs. -/
theorem msort_sorts (attrs : List Attribute) (hattrs : attrs ≠ [])
    (qsort : (List Byte → List Byte → Int) → List (List Byte) → List (List Byte))
    (qsortCmp : List Byte → List Byte → Int) (less : List Byte → List Byte → Bool) (fresh : Nat → Byte)
    (horder : StrictWeakOrder less)
    (hagree : ∀ a b, (qsortCmp a b < 0 ↔ less a b = true) ∧ (0 < qsortCmp a b ↔ less b a = true))
    (hqsort : ∀ block, (qsort qsortCmp block).Perm block ∧
      (qsort qsortCmp block).Pairwise (fun a b => qsortCmp a b ≤ 0))
    (mem k N : Nat) (input : List Byte) (hinput : input.length = N * (mkSchema attrs).recordSize) (hk : 1 < k)
    (hbuf : (mkSchema attrs).recordSize ≤ mem / (k + 1)) (hmem : mem < 2 ^ 31) (hint : N + N * k * k < 2 ^ 31)
    (fuel : Nat) (hfuel : N * k + N + 1 < fuel) :
    ∃ runs out,
      mkRuns (qsort qsortCmp) (mkSchema attrs).recordSize (mem / (mkSchema attrs).recordSize) fuel
        ⟨input, 0⟩ ⟨[], 0⟩ = .ok (runs, (N : Int)) ∧
      msort qsort qsortCmp less fresh (mkSchema attrs) mem k input fuel = .ok out ∧
      out.length = N * (mkSchema attrs).recordSize ∧
      (records (mkSchema attrs).recordSize out).Perm (records (mkSchema attrs).recordSize input) ∧
      Sorted less (records (mkSchema attrs).recordSize out) ∧
      ∀ e, (records (mkSchema attrs).recordSize out).filter (equivalent less e) =
        (records (mkSchema attrs).recordSize runs.bytes).filter (equivalent less e) := by
  have hrs := recordSize_pos hattrs
  have hN : input.length / (mkSchema attrs).recordSize = N := by rw [hinput, Nat.mul_div_cancel _ hrs]
  have hperm : ∀ block, (qsort qsortCmp block).Perm block := fun block => (hqsort block).1
  have hsort : ∀ block, Sorted less (qsort qsortCmp block) := by
    intro block
    apply List.Pairwise.imp _ (hqsort block).2
    intro a b hab
    by_contra hlt
    have := (hagree a b).2.mpr (by simpa using hlt)
    omega
  have hchunks : k + 1 ≤ mem := by
    by_contra hlt
    rw [Nat.div_eq_of_lt (by omega)] at hbuf
    omega
  have hfit := IntsFit.of_square (mkSchema attrs).recordSize hk (by omega) hmem hint
  obtain ⟨runs, n, recs, hblocks, hruns, hmsort, hpasses, hn⟩ :=
    @msort_passes qsort qsortCmp less fresh (mkSchema attrs) mem k fuel input hperm hrs hbuf hk
      (by rwa [hN]) (by rwa [hN])
  rw [hN] at hruns hn
  obtain ⟨hu, hlen⟩ := runs_uniform hperm hblocks
  rw [hN] at hlen
  have hu' := hu.of_perm hpasses.perm
  have hlen' : recs.length = N := hpasses.perm.length_eq.trans hlen
  have hblock := hblocks.blockSorted (p := fun _ => True) hperm (fun block _ => hsort block) (fun _ _ => trivial)
  refine ⟨_, recs.flatten, hruns, hmsort, ?_, ?_, ?_, ?_⟩
  · rw [flatten_length hu', hlen']
  · rw [records_flatten hrs hu']
    exact hpasses.perm.trans (hblocks.perm hperm)
  · rw [records_flatten hrs hu']
    exact (hpasses.blockSorted horder hblock).sorted (by omega)
  · intro e
    rw [records_flatten hrs hu', records_flatten hrs hu]
    exact hpasses.stable horder hblock e

/-- The order of the first byte. -/
def byteCmp (a b : List Byte) : Int := (a.headD 0).toNat - (b.headD 0).toNat

def byteLess (a b : List Byte) : Bool := decide (byteCmp a b < 0)

def mergeSortBy (cmp : List Byte → List Byte → Int) (block : List (List Byte)) : List (List Byte) :=
  block.mergeSort (fun a b => decide (cmp a b ≤ 0))

theorem byteLess_iff (a b : List Byte) : byteLess a b = true ↔ (a.headD 0).toNat < (b.headD 0).toNat := by
  rw [byteLess, decide_eq_true_iff, byteCmp]
  omega

theorem byteLess_order : StrictWeakOrder byteLess where
  irrefl a := by
    rw [Bool.eq_false_iff, ne_eq, byteLess_iff]
    omega
  trans a b c hab hbc := by
    rw [byteLess_iff] at *
    omega
  incompTrans a b c hab hba hbc hcb := by
    rw [Bool.eq_false_iff, ne_eq, byteLess_iff] at *
    rw [Bool.eq_false_iff, ne_eq, byteLess_iff]
    omega

theorem mergeSortBy_byteCmp (block : List (List Byte)) :
    (mergeSortBy byteCmp block).Perm block ∧
      (mergeSortBy byteCmp block).Pairwise (fun a b => byteCmp a b ≤ 0) := by
  refine ⟨List.mergeSort_perm .., ?_⟩
  have hsorted : (mergeSortBy byteCmp block).Pairwise (fun a b => decide (byteCmp a b ≤ 0) = true) := by
    apply List.pairwise_mergeSort
    · intro a b c hab hbc
      rw [decide_eq_true_iff, byteCmp] at *
      omega
    · intro a b
      rw [Bool.or_eq_true, decide_eq_true_iff, decide_eq_true_iff, byteCmp, byteCmp]
      omega
  exact hsorted.imp of_decide_eq_true

/-- Three records of two bytes, merged in pairs with 6 bytes of memory. -/
theorem msort_sorts_three :
    ∃ runs out,
      mkRuns (mergeSortBy byteCmp) (mkSchema [⟨[97], .string, 1⟩]).recordSize
        (6 / (mkSchema [⟨[97], .string, 1⟩]).recordSize) 11 ⟨[3, 10, 1, 10, 2, 10], 0⟩ ⟨[], 0⟩ = .ok (runs, (3 : Nat)) ∧
      msort mergeSortBy byteCmp byteLess (fun _ => 0) (mkSchema [⟨[97], .string, 1⟩]) (6 : Nat) (2 : Nat)
        [3, 10, 1, 10, 2, 10] 11 = .ok out ∧
      out.length = 3 * (mkSchema [⟨[97], .string, 1⟩]).recordSize ∧
      (records (mkSchema [⟨[97], .string, 1⟩]).recordSize out).Perm
        (records (mkSchema [⟨[97], .string, 1⟩]).recordSize [3, 10, 1, 10, 2, 10]) ∧
      Sorted byteLess (records (mkSchema [⟨[97], .string, 1⟩]).recordSize out) ∧
      ∀ e, (records (mkSchema [⟨[97], .string, 1⟩]).recordSize out).filter (equivalent byteLess e) =
        (records (mkSchema [⟨[97], .string, 1⟩]).recordSize runs.bytes).filter (equivalent byteLess e) := by
  refine msort_sorts [⟨[97], .string, 1⟩] (by simp) mergeSortBy byteCmp byteLess (fun _ => 0) byteLess_order ?_
    mergeSortBy_byteCmp 6 2 3 [3, 10, 1, 10, 2, 10] (by decide) (by decide) (by decide) (by decide) (by decide) 11
    (by decide)
  intro a b
  rw [byteLess_iff, byteLess_iff, byteCmp]
  omega

end RecordStore.ExternalSort
