import Mathlib.Logic.Relation
import RecordStore.IntervalChain
import RecordStore.PassLoop

namespace RecordStore.RunPartition

open RecordStore.IntervalChain RecordStore.Outcome RecordStore.RunIterator RecordStore.PassLoop

/-- A run with the `offset` of its group and the number `i` of the iterator it is made for. -/
structure Handed where
  offset : Int
  i : Int
  run : Run

/-- The variables of the two loops of a pass, and the runs made so far in the order of the loops. -/
structure PassState where
  offset : Int
  i : Int
  unprocessed : Int
  handed : List Handed

def startPass (numRecords : Int) : PassState := ⟨0, 0, numRecords, []⟩

def newIterator (n : Int) (s : PassState) : PassState :=
  let length := if s.unprocessed < n then s.unprocessed.tmod n else n
  let unprocessed := if s.unprocessed < n then n else s.unprocessed
  { offset := s.offset
    i := s.i + 1
    unprocessed := unprocessed - n
    handed := s.handed ++ [⟨s.offset, s.i, ⟨(addInt s.offset (mulInt s.i n).value).value, length⟩⟩] }

/-- One round of the loop over `i`, or the end of that loop and the way to the next group. The
merge in between leaves the variables alone. -/
inductive Step (numRecords n k : Int) : PassState → PassState → Prop
  | iterator {s : PassState} (hoffset : s.offset < numRecords) (hi : s.i < k) :
    Step numRecords n k s (newIterator n s)
  | group {s : PassState} (hoffset : s.offset < numRecords) (hi : ¬ s.i < k) :
    Step numRecords n k s { s with offset := (addInt s.offset (mulInt n k).value).value, i := 0 }

def InPass (numRecords n k : Int) (s : PassState) : Prop :=
  Relation.ReflTransGen (Step numRecords n k) (startPass numRecords) s

def Finished (numRecords : Int) (s : PassState) : Prop := ¬ s.offset < numRecords

def positions (run : Run) : Set Int := Set.Ico run.start (run.start + run.length)

def nonEmpty (run : Run) : Bool := decide (0 < run.length)

/-- The runs stand one behind the other, share no record, and hold the records 0 to
`numRecords - 1` and no others. -/
structure Partitions (runs : List Run) (numRecords : Int) : Prop where
  consecutive : runs.IsChain (fun run run' => run'.start = run.start + run.length)
  disjoint : runs.Pairwise (fun run run' => Disjoint (positions run) (positions run'))
  covers : ∀ p : Int, (∃ run ∈ runs, p ∈ positions run) ↔ 0 ≤ p ∧ p < numRecords

def firstRuns (N n m : Nat) : List Run :=
  (List.range m).map (fun j => ⟨((j * n : Nat) : Int), ((min n (N - j * n) : Nat) : Int)⟩)

theorem firstRuns_succ (N n m : Nat) :
    firstRuns N n (m + 1) =
      firstRuns N n m ++ [⟨((m * n : Nat) : Int), ((min n (N - m * n) : Nat) : Int)⟩] := by
  rw [firstRuns, List.range_succ, List.map_append]
  rfl

/-- The runs with records in them reach to the end of the file, or as far as `m` segments go. -/
theorem firstRuns_spans (N n m : Nat) :
    Spans Run.start (fun run => run.start + run.length) (0 : Int) ((firstRuns N n m).filter nonEmpty)
      ((min N (m * n) : Nat) : Int) := by
  induction m with
  | zero =>
    rw [Nat.zero_mul, Nat.min_zero]
    exact .nil _
  | succ m ih =>
    rw [firstRuns_succ, List.filter_append, Nat.succ_mul]
    obtain hlt | hge := Nat.lt_or_ge (m * n) N
    · obtain rfl | hn := Nat.eq_zero_or_pos n
      · simpa [nonEmpty] using ih
      · have hne : nonEmpty ⟨((m * n : Nat) : Int), ((min n (N - m * n) : Nat) : Int)⟩ = true := by
          rw [nonEmpty, decide_eq_true_iff]
          simp only
          omega
        rw [Nat.min_eq_right hlt.le] at ih
        rw [List.filter_singleton, hne]
        have hend : ((min N (m * n + n) : Nat) : Int) =
            ((m * n : Nat) : Int) + ((min n (N - m * n) : Nat) : Int) := by omega
        rw [hend]
        exact ih.concat (i := (⟨((m * n : Nat) : Int), ((min n (N - m * n) : Nat) : Int)⟩ : Run))
          (by simp only; omega)
    · have hempty : nonEmpty ⟨((m * n : Nat) : Int), ((min n (N - m * n) : Nat) : Int)⟩ = false := by
        rw [nonEmpty, decide_eq_false_iff_not]
        simp only
        omega
      rw [Nat.min_eq_left hge] at ih
      rw [List.filter_singleton, hempty, cond_false, List.append_nil, Nat.min_eq_left (by omega)]
      exact ih

theorem partitions_of_spans {runs : List Run} {N : Int}
    (h : Spans Run.start (fun run => run.start + run.length) (0 : Int) runs N) : Partitions runs N :=
  ⟨h.isChain, h.pairwise_disjoint, h.covers⟩

def ByFormula (N n : Nat) (h : Handed) : Prop :=
  h.run.start = h.offset + h.i * n ∧ h.run.length = min (n : Int) (max 0 (N - (h.offset + h.i * n)))

theorem length_formula (N n x : Nat) :
    ((min n (N - x) : Nat) : Int) = min (n : Int) (max 0 ((N : Int) - (x : Int))) := by omega

/-- `g` groups are done and `i` iterators of the next one are made. -/
structure AtRound (N n k g i : Nat) (s : PassState) : Prop where
  offset : s.offset = ((g * (n * k) : Nat) : Int)
  round : s.i = (i : Int)
  unprocessed : s.unprocessed = ((N - (g * (n * k) + i * n) : Nat) : Int)
  runs : s.handed.map Handed.run = firstRuns N n (g * k + i)
  formula : ∀ h ∈ s.handed, ByFormula N n h

variable {N n k g i : Nat} {s : PassState}

theorem startPass_atRound (N n k : Nat) : AtRound N n k 0 0 (startPass N) := by
  constructor
  case offset => simp [startPass]
  case round => rfl
  case unprocessed => simp [startPass]
  case runs => simp [startPass, firstRuns]
  case formula =>
    intro h hh
    cases hh

theorem AtRound.newIterator (hs : AtRound N n k g i s) (hb : g * (n * k) + i * n < 2 ^ 31) :
    AtRound N n k g (i + 1) (newIterator n s) := by
  have hstart : (addInt s.offset (mulInt s.i n).value).value = ((g * (n * k) + i * n : Nat) : Int) := by
    rw [hs.offset, hs.round, mulInt_natCast (by omega), addInt_natCast hb]
  have hrun : (⟨((g * (n * k) + i * n : Nat) : Int),
      ((min n (N - (g * (n * k) + i * n)) : Nat) : Int)⟩ : Run) =
      ⟨(((g * k + i) * n : Nat) : Int), ((min n (N - (g * k + i) * n) : Nat) : Int)⟩ := by
    rw [show (g * k + i) * n = g * (n * k) + i * n by ring]
  constructor
  case offset => exact hs.offset
  case round => simp only [RunPartition.newIterator, hs.round, Nat.cast_succ]
  case unprocessed =>
    simp only [RunPartition.newIterator, hs.unprocessed]
    rw [unprocessed_round, Nat.succ_mul, Nat.add_assoc]
  case runs =>
    simp only [RunPartition.newIterator, hs.unprocessed, List.map_append, List.map_singleton, hs.runs]
    rw [length_round, hstart, hrun, ← Nat.add_assoc, firstRuns_succ]
  case formula =>
    intro h hh
    simp only [RunPartition.newIterator, hs.unprocessed] at hh
    obtain hh | hh := List.mem_append.mp hh
    · exact hs.formula h hh
    · have hat : ((g * (n * k) : Nat) : Int) + (i : Int) * n = ((g * (n * k) + i * n : Nat) : Int) := by
        push_cast
        rfl
      rw [List.mem_singleton.mp hh, length_round, hstart, hs.offset, hs.round, ByFormula, hat]
      exact ⟨rfl, length_formula N n _⟩

theorem AtRound.group (hs : AtRound N n k g k s) (hb : (g + 1) * (n * k) < 2 ^ 31) :
    AtRound N n k (g + 1) 0 { s with offset := (addInt s.offset (mulInt n k).value).value, i := 0 } := by
  rw [Nat.succ_mul] at hb
  have hoffset : (addInt s.offset (mulInt n k).value).value = (((g + 1) * (n * k) : Nat) : Int) := by
    rw [hs.offset, mulInt_natCast (by omega), addInt_natCast hb, Nat.succ_mul]
  constructor
  case offset => exact hoffset
  case round => rfl
  case unprocessed =>
    show s.unprocessed = _
    rw [hs.unprocessed, show (g + 1) * (n * k) + 0 * n = g * (n * k) + k * n by ring]
  case runs =>
    show s.handed.map Handed.run = _
    rw [hs.runs, Nat.succ_mul, Nat.add_zero]
  case formula => exact hs.formula

theorem InPass.atRound (hb : N + n * k < 2 ^ 31) (h : InPass N n k s) :
    ∃ g i, i ≤ k ∧ AtRound N n k g i s := by
  induction h with
  | refl => exact ⟨0, 0, Nat.zero_le _, startPass_atRound N n k⟩
  | tail _ hstep ih =>
    obtain ⟨g, i, hik, hs⟩ := ih
    cases hstep with
    | iterator hoffset hi =>
      rw [hs.offset] at hoffset
      rw [hs.round] at hi
      have hlt : i * n ≤ n * k := by
        rw [Nat.mul_comm n]
        exact Nat.mul_le_mul_right n hik
      exact ⟨g, i + 1, by omega, hs.newIterator (by omega)⟩
    | group hoffset hi =>
      rw [hs.offset] at hoffset
      rw [hs.round] at hi
      obtain rfl : i = k := by omega
      exact ⟨g + 1, 0, Nat.zero_le _, hs.group (by rw [Nat.succ_mul]; omega)⟩

theorem AtRound.partitions (hs : AtRound N n k g i s) (hend : Finished N s) :
    Partitions ((s.handed.map Handed.run).filter nonEmpty) N := by
  have hspans := firstRuns_spans N n (g * k + i)
  have hle : N ≤ (g * k + i) * n := by
    rw [Finished, hs.offset] at hend
    rw [show (g * k + i) * n = g * (n * k) + i * n by ring]
    omega
  rw [Nat.min_eq_left hle, ← hs.runs] at hspans
  exact partitions_of_spans hspans

/-- In place of the merge: the runs of the groups are kept. -/
def keepRuns (groups : List (List Run)) (runs : List Run) : Except Fault (List (List Run)) :=
  .ok (groups ++ [runs])

section Simulation

variable {numRecords n k : Int}

theorem groupLoop_steps (left : Nat) (s : PassState) (hoffset : s.offset < numRecords) (hi : s.i + left = k) :
    ∃ s', Relation.ReflTransGen (Step numRecords n k) s s' ∧ s'.offset = s.offset ∧ s'.i = k ∧
      s'.unprocessed = (groupLoop n s.offset left s.i s.unprocessed).2.1 ∧
      s'.handed.map Handed.run =
        s.handed.map Handed.run ++ (groupLoop n s.offset left s.i s.unprocessed).1 := by
  induction left generalizing s with
  | zero => exact ⟨s, .refl, rfl, by simpa using hi, rfl, (List.append_nil _).symm⟩
  | succ left ih =>
    have hlt : s.i < k := by omega
    obtain ⟨s', hsteps, ho, hk, hu, hr⟩ := ih (newIterator n s) hoffset (by simp only [newIterator]; omega)
    refine ⟨s', .head (.iterator hoffset hlt) hsteps, ho, hk, hu, ?_⟩
    rw [hr, groupLoop]
    simp [newIterator]

theorem offsetLoop_steps (hk : 0 ≤ k) {fuel : Nat} {groups groups' : List (List Run)} {log : List Calc}
    (s : PassState)
    (h : offsetLoop keepRuns numRecords k n fuel s.offset s.unprocessed groups = .ok (groups', log))
    (hi : s.i = 0) (hr : s.handed.map Handed.run = groups.flatten) :
    ∃ s', Relation.ReflTransGen (Step numRecords n k) s s' ∧ Finished numRecords s' ∧
      s'.handed.map Handed.run = groups'.flatten := by
  induction fuel generalizing s groups groups' log with
  | zero => cases h
  | succ fuel ih =>
    rw [offsetLoop] at h
    split at h
    case isFalse hend =>
      obtain ⟨rfl, -⟩ := Prod.mk.inj (Except.ok.inj h)
      exact ⟨s, .refl, hend, hr⟩
    case isTrue hoffset =>
      obtain ⟨s1, hsteps, ho, hi1, hu, hr1⟩ := groupLoop_steps (n := n) (k := k) k.toNat s hoffset (by omega)
      rw [hi] at hu hr1
      simp only [keepRuns, ok_bind] at h
      obtain ⟨⟨groups1, log1⟩, hrest, he⟩ := bind_eq_ok.mp h
      obtain ⟨rfl, -⟩ := Prod.mk.inj (Except.ok.inj he)
      obtain ⟨s2, hsteps2, hend, hr2⟩ := ih
        { s1 with offset := (addInt s1.offset (mulInt n k).value).value, i := 0 }
        (by simpa only [ho, hu] using hrest) rfl (by simp [hr1, hr])
      refine ⟨s2, (hsteps.tail (.group (ho ▸ hoffset) (by omega))).trans hsteps2, hend, hr2⟩

end Simulation

/-- In every state of a pass `unprocessed` is not negative and each run has the length of the
formula. At the end of the pass the runs that are not empty partition the file; the loops come
to that end, with all they compute in `int` exact. -/
theorem pass_partitions (numRecords n k : Nat) (hn : 0 < n) (hk : 1 < k) (hb : numRecords + n * k < 2 ^ 31) :
    (∀ s, InPass numRecords n k s → 0 ≤ s.unprocessed ∧ ∀ h ∈ s.handed, ByFormula numRecords n h) ∧
    (∀ s, InPass numRecords n k s → Finished numRecords s →
      Partitions ((s.handed.map Handed.run).filter nonEmpty) numRecords) ∧
    ∃ fuel0, ∀ fuel ≥ fuel0, ∃ groups log s,
      offsetLoop keepRuns numRecords k n fuel 0 numRecords [] = .ok (groups, log) ∧
      (∀ c ∈ log, Calc.Exact c) ∧ InPass numRecords n k s ∧ Finished numRecords s ∧
      s.handed.map Handed.run = groups.flatten := by
  refine ⟨fun s hs => ?_, fun s hs hend => ?_, numRecords + 1, fun fuel hfuel => ?_⟩
  · obtain ⟨g, i, -, hat⟩ := hs.atRound hb
    exact ⟨by rw [hat.unprocessed]; exact Int.natCast_nonneg _, hat.formula⟩
  · obtain ⟨g, i, -, hat⟩ := hs.atRound hb
    exact hat.partitions hend
  · have hgroup (offset : Nat) (groups : List (List Run)) (_ : offset < numRecords) (_ : True) :
        ∃ groups', keepRuns groups (groupRuns numRecords n k offset) = .ok groups' ∧ True :=
      ⟨groups ++ [groupRuns numRecords n k offset], rfl, trivial⟩
    obtain ⟨groups, log, -, hloop, hlog, -⟩ := offsetLoop_rule (J := fun _ _ => True)
      (Nat.mul_pos hn (by omega)) (fun offset hoffset _ => (show offset + n * k < 2 ^ 31 by omega))
      hgroup fuel (.inl rfl) (by omega) trivial (s := [])
    rw [Nat.sub_zero] at hloop
    obtain ⟨s, hsteps, hend, hr⟩ :=
      offsetLoop_steps (Int.natCast_nonneg k) (startPass numRecords) hloop rfl rfl
    exact ⟨groups, log, s, hloop, hlog, hsteps, hend, hr⟩

/-- Five records in runs of two, merged two runs at a time: the fourth run is empty. -/
theorem pass_partitions_five :
    (∀ s, InPass (5 : Nat) (2 : Nat) (2 : Nat) s →
      0 ≤ s.unprocessed ∧ ∀ h ∈ s.handed, ByFormula 5 2 h) ∧
    (∀ s, InPass (5 : Nat) (2 : Nat) (2 : Nat) s → Finished (5 : Nat) s →
      Partitions ((s.handed.map Handed.run).filter nonEmpty) (5 : Nat)) ∧
    ∃ fuel0, ∀ fuel ≥ fuel0, ∃ groups log s,
      offsetLoop keepRuns (5 : Nat) (2 : Nat) (2 : Nat) fuel 0 (5 : Nat) [] = .ok (groups, log) ∧
      (∀ c ∈ log, Calc.Exact c) ∧ InPass (5 : Nat) (2 : Nat) (2 : Nat) s ∧ Finished (5 : Nat) s ∧
      s.handed.map Handed.run = groups.flatten :=
  pass_partitions 5 2 2 (by decide) (by decide) (by decide)

example : (offsetLoop keepRuns 5 2 2 3 0 5 []).map Prod.fst =
    .ok [[⟨0, 2⟩, ⟨2, 2⟩], [⟨4, 1⟩, ⟨6, 0⟩]] := by rfl

end RecordStore.RunPartition
