import RecordStore.Int32
import RecordStore.RunIterator

namespace RecordStore.PassLoop

open RecordStore.Int32 RecordStore.Outcome RecordStore.RunIterator

/-- A value computed in `int`, beside the product or sum it stands for. -/
structure Calc where
  value : Int
  exact : Int

def Calc.Exact (c : Calc) : Prop := c.value = c.exact

def mulInt (a b : Int) : Calc := ⟨toInt32 (a * b), a * b⟩

def addInt (a b : Int) : Calc := ⟨toInt32 (a + b), a + b⟩

/-- The loop over the iterators of a group: the runs they are made for, and what is left
of `unprocessed`. -/
def groupLoop (n offset : Int) : Nat → Int → Int → List Run × Int × List Calc
  | 0, _, unprocessed => ([], unprocessed, [])
  | left + 1, i, unprocessed =>
    let length := if unprocessed < n then unprocessed.tmod n else n
    let unprocessed := if unprocessed < n then n else unprocessed
    let product := mulInt i n
    let start := addInt offset product.value
    let (runs, unprocessed, log) := groupLoop n offset left (i + 1) (unprocessed - n)
    (⟨start.value, length⟩ :: runs, unprocessed, product :: start :: log)

section Loops

variable {σ : Type} (body : σ → List Run → Except Fault σ) (endPass : σ → σ) (numRecords k : Int)

/-- The loop over the groups of a pass. `body` makes the iterators and merges. -/
def offsetLoop (n : Int) : Nat → Int → Int → σ → Except Fault (σ × List Calc)
  | 0, _, _, _ => .error .outOfFuel
  | fuel + 1, offset, unprocessed, s =>
    if offset < numRecords then do
      let (runs, unprocessed, log) := groupLoop n offset k.toNat 0 unprocessed
      let s ← body s runs
      let stride := mulInt n k
      let next := addInt offset stride.value
      let (s, log') ← offsetLoop n fuel next.value unprocessed s
      .ok (s, log ++ stride :: next :: log')
    else .ok (s, [])

/-- The loop over the passes. `endPass` rewinds and swaps the files. -/
def passLoop : Nat → Int → Nat → σ → Except Fault (σ × Nat × List Calc)
  | 0, _, _, _ => .error .outOfFuel
  | fuel + 1, n, pass, s =>
    let bound := mulInt numRecords k
    if n < bound.value then do
      let (s, log) ← offsetLoop body numRecords k n fuel 0 numRecords s
      let next := mulInt n k
      let (s, pass, log') ← passLoop fuel next.value (pass + 1) (endPass s)
      .ok (s, pass, bound :: log ++ next :: log')
    else .ok (s, pass, [bound])

end Loops

def groupRuns (N n k offset : Nat) : List Run :=
  (List.range k).map (fun i => ⟨((offset + i * n : Nat) : Int), ((min n (N - (offset + i * n)) : Nat) : Int)⟩)

theorem toInt32_natCast {x : Nat} (h : x < 2 ^ 31) : toInt32 (x : Int) = x :=
  toInt32_of_inRange ⟨by omega, by omega⟩

theorem mulInt_natCast {a b : Nat} (h : a * b < 2 ^ 31) :
    mulInt a b = ⟨((a * b : Nat) : Int), ((a * b : Nat) : Int)⟩ := by
  rw [mulInt, ← Int.natCast_mul, toInt32_natCast h]

theorem addInt_natCast {a b : Nat} (h : a + b < 2 ^ 31) :
    addInt a b = ⟨((a + b : Nat) : Int), ((a + b : Nat) : Int)⟩ := by
  rw [addInt, ← Int.natCast_add, toInt32_natCast h]

section Rounds

variable {N n x : Nat}

theorem unprocessed_round : (if ((N - x : Nat) : Int) < n then (n : Int) else ((N - x : Nat) : Int)) - n =
    ((N - (x + n) : Nat) : Int) := by
  split <;> omega

theorem length_round : (if ((N - x : Nat) : Int) < n then ((N - x : Nat) : Int).tmod n else (n : Int)) =
    ((min n (N - x) : Nat) : Int) := by
  split
  case isTrue hlt => rw [Int.tmod_eq_of_lt (by omega) hlt, Nat.min_eq_right (by omega)]
  case isFalse hlt => rw [Nat.min_eq_left (by omega)]

end Rounds

/-- What is left unprocessed is what lies behind the runs handed out, never below zero. -/
theorem groupLoop_eq (N offset n left i : Nat) (h : offset + (i + left) * n < 2 ^ 31) :
    ∃ log, (∀ c ∈ log, Calc.Exact c) ∧
      groupLoop n offset left i ((N - (offset + i * n) : Nat) : Int) =
        ((List.range' i left).map (fun i =>
          ⟨((offset + i * n : Nat) : Int), ((min n (N - (offset + i * n)) : Nat) : Int)⟩),
        ((N - (offset + (i + left) * n) : Nat) : Int), log) := by
  induction left generalizing i with
  | zero => exact ⟨[], by simp, rfl⟩
  | succ left ih =>
    rw [show i + (left + 1) = i + 1 + left by omega] at h ⊢
    have hi : (i + 1) * n ≤ (i + 1 + left) * n := Nat.mul_le_mul_right n (by omega)
    rw [Nat.succ_mul] at hi
    obtain ⟨log, hlog, heq⟩ := ih (i + 1) h
    refine ⟨mulInt i n :: addInt offset (mulInt i n).value :: log, ?_, ?_⟩
    · rw [mulInt_natCast (by omega), addInt_natCast (by omega)]
      intro c hc
      obtain rfl | rfl | hc := by simpa using hc
      · rfl
      · rfl
      · exact hlog c hc
    · rw [groupLoop, unprocessed_round, length_round, Nat.add_assoc, ← Nat.succ_mul,
        show (i : Int) + 1 = ((i + 1 : Nat) : Int) from rfl, heq, mulInt_natCast (by omega),
        addInt_natCast (by omega), List.range'_succ, List.map_cons]

section Rules

variable {σ : Type} {N k : Nat}

theorem offsetLoop_group {n offset : Nat} (hoffset : offset < N) (h : offset + n * k < 2 ^ 31)
    (body : σ → List Run → Except Fault σ) (fuel : Nat) (s : σ) :
    ∃ log, (∀ c ∈ log, Calc.Exact c) ∧
      offsetLoop body N k n (fuel + 1) offset ((N - offset : Nat) : Int) s = (do
        let s ← body s (groupRuns N n k offset)
        let (s, log') ← offsetLoop body N k n fuel ((offset + n * k : Nat) : Int)
          ((N - (offset + n * k) : Nat) : Int) s
        .ok (s, log ++ log')) := by
  have hnk : n * k < 2 ^ 31 := by omega
  obtain ⟨log, hlog, hgroup⟩ := groupLoop_eq N offset n k 0 (by rwa [Nat.zero_add, Nat.mul_comm k])
  rw [Nat.zero_mul, Nat.add_zero, Nat.zero_add, Nat.mul_comm k, ← List.range_eq_range'] at hgroup
  refine ⟨log ++ [mulInt n k, addInt offset (mulInt n k).value], ?_, ?_⟩
  · rw [mulInt_natCast hnk, addInt_natCast h]
    intro c hc
    obtain hc | rfl | rfl := by simpa using hc
    · exact hlog c hc
    · rfl
    · rfl
  · rw [offsetLoop, if_pos (by omega), Int.toNat_natCast]
    simp only [show ((0 : Int)) = ((0 : Nat) : Int) from rfl, hgroup]
    rw [mulInt_natCast hnk, addInt_natCast h]
    simp only [List.append_assoc, List.cons_append, List.nil_append]
    rfl

/-- Rule for the groups of a pass: what each merge carries from one group to the next holds
after the last. -/
theorem offsetLoop_rule {body : σ → List Run → Except Fault σ} {n : Nat} {J : Nat → σ → Prop} (hnk : 0 < n * k)
    (hcap : ∀ offset < N, offset = 0 ∨ n * k ≤ offset → offset + n * k < 2 ^ 31)
    (hgroup : ∀ offset s, offset < N → J offset s →
      ∃ s', body s (groupRuns N n k offset) = .ok s' ∧ J (offset + n * k) s')
    (fuel : Nat) {offset : Nat} {s : σ} (hstride : offset = 0 ∨ n * k ≤ offset) (hfuel : N - offset < fuel)
    (hs : J offset s) :
    ∃ s' log last, offsetLoop body N k n fuel offset ((N - offset : Nat) : Int) s = .ok (s', log) ∧
      (∀ c ∈ log, Calc.Exact c) ∧ N ≤ last ∧ J last s' := by
  induction fuel generalizing offset s with
  | zero => omega
  | succ fuel ih =>
    by_cases hoffset : offset < N
    · obtain ⟨log, hlog, heq⟩ := offsetLoop_group hoffset (hcap offset hoffset hstride) body fuel s
      obtain ⟨s1, hbody, hs1⟩ := hgroup offset s hoffset hs
      obtain ⟨s2, log', last, hrest, hlog', hlast, hs2⟩ :=
        @ih (offset + n * k) s1 (.inr (by omega)) (by omega) hs1
      refine ⟨s2, log ++ log', last, ?_, ?_, hlast, hs2⟩
      · rw [heq, hbody, ok_bind, hrest]
        rfl
      · intro c hc
        obtain hc | hc := List.mem_append.mp hc
        · exact hlog c hc
        · exact hlog' c hc
    · refine ⟨s, [], offset, ?_, by simp, by omega, hs⟩
      rw [offsetLoop, if_neg (by omega)]

theorem passLoop_stop (body : σ → List Run → Except Fault σ) (endPass : σ → σ) {n : Nat} (hNk : N * k < 2 ^ 31)
    (h : N * k ≤ n) (fuel pass : Nat) (s : σ) :
    passLoop body endPass N k (fuel + 1) n pass s = .ok (s, pass, [mulInt N k]) := by
  rw [passLoop, mulInt_natCast hNk, if_neg (Int.not_lt.mpr (Int.ofNat_le.mpr h))]

theorem passLoop_fault {body : σ → List Run → Except Fault σ} (endPass : σ → σ) {n : Nat} {s : σ} {e : Fault}
    (hN : 0 < N) (hNk : N * k < 2 ^ 31) (hnk : n * k < 2 ^ 31) (hlt : n < N * k)
    (h : body s (groupRuns N n k 0) = .error e) (fuel pass : Nat) :
    passLoop body endPass N k (fuel + 2) n pass s = .error e := by
  obtain ⟨log, -, heq⟩ := offsetLoop_group hN (show 0 + n * k < 2 ^ 31 by omega) body fuel s
  rw [h, error_bind] at heq
  rw [passLoop, mulInt_natCast hNk, if_pos (Int.ofNat_lt.mpr hlt)]
  exact congrArg (· >>= _) heq

/-- Rule for the passes. `I n` holds between passes when the segments have length `n`,
`J n offset` inside a pass. -/
theorem passLoop_rule (body : σ → List Run → Except Fault σ) (endPass : σ → σ) (I : Nat → σ → Prop)
    (J : Nat → Nat → σ → Prop) (hk : 1 < k) (hNk : N * k < 2 ^ 31)
    (hstart : ∀ n s, I n s → J n 0 s)
    (hgroup : ∀ n offset s, 0 < n → n < N * k → offset < N → J n offset s →
      ∃ s', body s (groupRuns N n k offset) = .ok s' ∧ J n (offset + n * k) s')
    (hend : ∀ n last s, N ≤ last → J n last s → I (n * k) (endPass s))
    (fuel pass : Nat) {n : Nat} {s : σ} (hn : 0 < n) (hcap : ∀ q, n * k ^ q < N * k → n * k ^ (q + 1) < 2 ^ 31)
    (hfuel : N * k - n + N + 1 < fuel) (hs : I n s) :
    ∃ s' q log, passLoop body endPass N k fuel n pass s = .ok (s', pass + q, log) ∧
      (∀ c ∈ log, Calc.Exact c) ∧ N * k ≤ n * k ^ q ∧ I (n * k ^ q) s' := by
  induction fuel generalizing n pass s with
  | zero => omega
  | succ fuel ih =>
    by_cases hlt : n < N * k
    · have hnk : n * k < 2 ^ 31 := by simpa using hcap 0 (by simpa using hlt)
      have hgrow : n + 1 ≤ n * k := by
        have := Nat.mul_le_mul_left n hk
        omega
      have hstride : ∀ offset < N, offset = 0 ∨ n * k ≤ offset → offset + n * k < 2 ^ 31 := by
        rintro offset hoffset (rfl | hle)
        · omega
        · have := Nat.mul_le_mul_left N hk
          omega
      obtain ⟨s1, log, last, hpass, hlog, hlast, hs1⟩ := offsetLoop_rule (by omega) hstride
        (fun offset s => hgroup n offset s hn hlt) fuel (.inl rfl) (by omega) (hstart n s hs)
      rw [Nat.sub_zero] at hpass
      obtain ⟨s2, q, log', hrest, hlog', hq, hs2⟩ := @ih (pass + 1) (n * k) (endPass s1) (by omega)
        (fun q hlt' => by
          have := hcap (q + 1) (by rwa [Nat.pow_succ', ← Nat.mul_assoc])
          rwa [Nat.pow_succ', ← Nat.mul_assoc] at this)
        (by omega) (hend n last s1 hlast hs1)
      rw [Nat.mul_assoc, ← Nat.pow_succ'] at hq hs2
      refine ⟨s2, q + 1, mulInt N k :: log ++ mulInt n k :: log', ?_, ?_, hq, hs2⟩
      · rw [passLoop, mulInt_natCast hNk, mulInt_natCast hnk]
        rw [if_pos (Int.ofNat_lt.mpr hlt)]
        rw [show ((0 : Int)) = ((0 : Nat) : Int) from rfl, hpass, ok_bind]
        simp only [hrest, ok_bind, Nat.add_assoc, Nat.add_comm 1 q]
      · rw [mulInt_natCast hNk, mulInt_natCast hnk]
        intro c hc
        obtain rfl | hc | rfl | hc := by simpa using hc
        · rfl
        · exact hlog c hc
        · rfl
        · exact hlog' c hc
    · refine ⟨s, 0, [mulInt N k], ?_, ?_, ?_, ?_⟩
      · rw [passLoop_stop body endPass hNk (Nat.not_lt.mp hlt), Nat.add_zero]
      · rw [mulInt_natCast hNk]
        intro c hc
        rw [List.mem_singleton.mp hc]
        rfl
      · simpa using hlt
      · simpa using hs

end Rules

end RecordStore.PassLoop
