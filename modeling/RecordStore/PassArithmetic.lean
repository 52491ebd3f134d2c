import RecordStore.PassLoop

namespace RecordStore.PassArithmetic

open RecordStore.Int32 RecordStore.Outcome RecordStore.RunIterator RecordStore.PassLoop

variable {σ : Type} {body : σ → List Run → Except Fault σ} {endPass : σ → σ} {N k : Nat}

/-- The merge loop ends, all it computed in `int` is exact, and after its passes one segment
holds all records. -/
def EnoughPasses (numRecords k runLength : Nat) : Prop :=
  ∃ fuel passes log,
    passLoop (fun _ _ => .ok ()) id numRecords k fuel runLength 0 () = .ok ((), passes, log) ∧
      (∀ c ∈ log, Calc.Exact c) ∧ numRecords ≤ runLength * k ^ passes

theorem lt_of_mulInt_exact {a b : Nat} (h : Calc.Exact (mulInt a b)) : a * b < 2 ^ 31 := by
  have hrange := toInt32_inRange ((a : Int) * b)
  have hvalue : toInt32 ((a : Int) * b) = (a : Int) * b := h
  rw [hvalue, ← Int.natCast_mul] at hrange
  have hupper := hrange.2
  omega

theorem bound_of_exact {fuel pass pass' : Nat} {n : Int} {s s' : σ} {log : List Calc}
    (h : passLoop body endPass N k fuel n pass s = .ok (s', pass', log)) (hlog : ∀ c ∈ log, Calc.Exact c) :
    N * k < 2 ^ 31 := by
  apply lt_of_mulInt_exact
  apply hlog
  cases fuel with
  | zero => cases h
  | succ fuel =>
    rw [passLoop] at h
    split at h
    · obtain ⟨a, -, h⟩ := bind_eq_ok.mp h
      obtain ⟨b, -, h⟩ := bind_eq_ok.mp h
      have hlog' := (Prod.mk.inj (Prod.mk.inj (Except.ok.inj h)).2).2
      rw [← hlog']
      exact List.mem_cons_self ..
    · have hlog' := (Prod.mk.inj (Prod.mk.inj (Except.ok.inj h)).2).2
      rw [← hlog']
      exact List.mem_cons_self ..

theorem power_of_exact {fuel n pass pass' : Nat} {s s' : σ} {log : List Calc} (hn : n < 2 ^ 31)
    (h : passLoop body endPass N k fuel n pass s = .ok (s', pass', log)) (hlog : ∀ c ∈ log, Calc.Exact c) :
    ∃ q, N * k ≤ n * k ^ q ∧ n * k ^ q < 2 ^ 31 := by
  induction fuel generalizing n pass pass' s s' log with
  | zero => cases h
  | succ fuel ih =>
    have hNk := bound_of_exact h hlog
    rw [passLoop, mulInt_natCast hNk] at h
    split at h
    case isTrue hlt =>
      obtain ⟨⟨s1, log1⟩, -, h⟩ := bind_eq_ok.mp h
      obtain ⟨⟨s2, pass2, log2⟩, hrest, h⟩ := bind_eq_ok.mp h
      have hlog' := (Prod.mk.inj (Prod.mk.inj (Except.ok.inj h)).2).2
      have hnk : n * k < 2 ^ 31 := by
        apply lt_of_mulInt_exact
        apply hlog
        simp [← hlog']
      rw [mulInt_natCast hnk] at hrest
      obtain ⟨q, hq⟩ := ih hnk hrest (fun c hc => hlog c (by simp [← hlog', hc]))
      refine ⟨q + 1, ?_⟩
      rwa [Nat.pow_succ', ← Nat.mul_assoc]
    case isFalse hlt =>
      refine ⟨0, ?_, ?_⟩
      · simpa using Int.ofNat_le.mp (Int.not_lt.mp hlt)
      · simpa using hn

/-- The loop stays exact when the loop bound is an `int` and the segment length reaches it
before it stops being one. -/
theorem enough_of_power {r p : Nat} (hk : 1 < k) (hr : 0 < r) (hNk : N * k < 2 ^ 31)
    (hlow : N * k ≤ r * k ^ p) (hhigh : r * k ^ p < 2 ^ 31) : EnoughPasses N k r := by
  have hcap : ∀ q, r * k ^ q < N * k → r * k ^ (q + 1) < 2 ^ 31 := by
    intro q hq
    have hqp : q < p := by
      by_contra hge
      have := Nat.mul_le_mul_left r (Nat.pow_le_pow_right (Nat.zero_lt_of_lt hk) (Nat.not_lt.mp hge))
      omega
    have := Nat.mul_le_mul_left r (Nat.pow_le_pow_right (Nat.zero_lt_of_lt hk) (Nat.succ_le_of_lt hqp))
    exact this.trans_lt hhigh
  obtain ⟨s, q, log, hrun, hlog, hq, -⟩ := passLoop_rule (fun _ _ => .ok ()) id (fun _ _ => True)
    (fun _ _ _ => True) hk hNk (fun _ _ _ => trivial) (fun _ _ _ _ _ _ _ => ⟨(), rfl, trivial⟩)
    (fun _ _ _ _ _ => trivial) (N * k - r + N + 2) 0 hr hcap (Nat.lt_succ_self _) trivial
  refine ⟨_, 0 + q, log, hrun, hlog, ?_⟩
  rw [Nat.zero_add]
  exact (Nat.le_mul_of_pos_right N (Nat.zero_lt_of_lt hk)).trans hq

theorem enough_passes_iff (numRecords k runLength : Nat) (hk : 1 < k) (hr : 0 < runLength)
    (hint : runLength < 2 ^ 31) :
    EnoughPasses numRecords k runLength ↔
      numRecords * k < 2 ^ 31 ∧
        ∃ p, numRecords * k ≤ runLength * k ^ p ∧ runLength * k ^ p < 2 ^ 31 := by
  constructor
  · rintro ⟨fuel, passes, log, hrun, hlog, -⟩
    exact ⟨bound_of_exact hrun hlog, power_of_exact hint hrun hlog⟩
  · rintro ⟨hNk, p, hlow, hhigh⟩
    exact enough_of_power hk hr hNk hlow hhigh

/-- Ten million records in runs of a million are merged 16 at a time without overflow. -/
theorem enough_passes_iff_ten_million :
    1 < 16 ∧ 0 < 1000000 ∧ 1000000 < 2 ^ 31 ∧ EnoughPasses 10000000 16 1000000 := by
  refine ⟨by decide, by decide, by decide, ?_⟩
  exact (enough_passes_iff 10000000 16 1000000 (by decide) (by decide) (by decide)).mpr
    ⟨by decide, 2, by decide, by decide⟩

/-- The largest file of the k experiment: its 150 million records make the loop bound
overflow. -/
theorem experiment_overflows : ¬ EnoughPasses 150000000 16 (409600000 / 29) := by
  rintro ⟨fuel, passes, log, hrun, hlog, -⟩
  exact absurd (bound_of_exact hrun hlog) (by decide)

end RecordStore.PassArithmetic
