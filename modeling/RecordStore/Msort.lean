import RecordStore.KwayMerge
import RecordStore.MergePasses
import RecordStore.PassLoop
import RecordStore.RecordSchema

namespace RecordStore.Msort

open RecordStore.Splice RecordStore.CFile RecordStore.Int32 RecordStore.Outcome RecordStore.RecordFile
open RecordStore.RunIterator RecordStore.KMerge RecordStore.KwayMerge RecordStore.MergePasses
open RecordStore.PassLoop RecordStore.RecordSchema

/-- The two temporary files; they swap their roles after each pass. -/
structure Temps where
  tmpIn : File
  tmpOut : File

/-- The loop of `mk_runs`. `sort` is `qsort` with its comparator; an incomplete record at the
end is read, but neither sorted nor written. -/
def mkRunsLoop (sort : List (List Byte) → List (List Byte)) (recordSize runLength : Nat) :
    Nat → File → File → Int → Except Fault (File × Int)
  | 0, _, _, _ => .error .outOfFuel
  | fuel + 1, inFp, outFp, numRecords =>
    let (buf, inFp) := fread inFp (recordSize * runLength)
    let rd := buf.length / recordSize
    if rd ≠ 0 then
      mkRunsLoop sort recordSize runLength fuel inFp
        (fwrite outFp (sort (records recordSize buf)).flatten) (toInt32 (numRecords + rd))
    else .ok (outFp, numRecords)

def mkRuns (sort : List (List Byte) → List (List Byte)) (recordSize runLength fuel : Nat)
    (inFp outFp : File) : Except Fault (File × Int) :=
  mkRunsLoop sort recordSize runLength fuel inFp outFp 0

def newIterators (recordSize : Nat) (fresh : Nat → Byte) (bufSize : Nat) : List Run → Except Fault (List Iterator)
  | [] => .ok []
  | run :: runs => do
    let it ← newRunIterator recordSize fresh bufSize run
    let iterators ← newIterators recordSize fresh bufSize runs
    .ok (it :: iterators)

def mergeGroup (less : List Byte → List Byte → Bool) (recordSize : Nat) (fresh : Nat → Byte)
    (bufSize fuel : Nat) (s : Temps) (runs : List Run) : Except Fault Temps := do
  let iterators ← newIterators recordSize fresh bufSize runs
  let (tmpIn, tmpOut) ← kwayMerge less recordSize fuel iterators s.tmpIn s.tmpOut
  .ok ⟨tmpIn, tmpOut⟩

def endPass (s : Temps) : Temps := ⟨rewind s.tmpOut, rewind s.tmpIn⟩

/-- `main` for a schema that was read: what is copied to the output file. `less` is the
`operator()` of the comparator. -/
def msort (qsort : (List Byte → List Byte → Int) → List (List Byte) → List (List Byte))
    (qsortCmp : List Byte → List Byte → Int) (less : List Byte → List Byte → Bool) (fresh : Nat → Byte)
    (schema : Schema) (memCapacity k : Int) (input : List Byte) (fuel : Nat) : Except Fault (List Byte) :=
  if 0 < memCapacity then
    if 1 < k then do
      let runLength := memCapacity.toNat / schema.recordSize
      let (tmpIn, numRecords) ← mkRuns (qsort qsortCmp) schema.recordSize runLength fuel
        ⟨input, 0⟩ ⟨[], 0⟩
      let bufSize := toInt32 (memCapacity.tdiv (toInt32 (k + 1)))
      let (s, _, _) ← passLoop (mergeGroup less schema.recordSize fresh bufSize.toNat fuel) endPass
        numRecords k fuel (toInt32 runLength) 0 ⟨tmpIn, ⟨[], 0⟩⟩
      .ok s.tmpIn.bytes
    else .error .assertFailed
  else .error .assertFailed

section Runs

variable {sort : List (List Byte) → List (List Byte)} {rs R : Nat}

/-- The runs that `mk_runs` writes are the sorted blocks of the records of the input. -/
theorem mkRunsLoop_spec (hrs : 0 < rs) (hR : 0 < R) {fuel count : Nat} {inFp outFp : File}
    (hout : outFp.pos ≤ outFp.bytes.length)
    (hfuel : (records rs (inFp.bytes.drop inFp.pos)).length < fuel)
    (hcount : count + (records rs (inFp.bytes.drop inFp.pos)).length < 2 ^ 31) :
    ∃ runs, SortedBlocks sort R (records rs (inFp.bytes.drop inFp.pos)) runs ∧
      mkRunsLoop sort rs R fuel inFp outFp count = .ok (fwrite outFp runs.flatten,
        ((count + (records rs (inFp.bytes.drop inFp.pos)).length : Nat) : Int)) := by
  induction fuel generalizing inFp outFp count with
  | zero => omega
  | succ fuel ih =>
    have hbuf : slice inFp.bytes inFp.pos (rs * R) = (inFp.bytes.drop inFp.pos).take (R * rs) := by
      rw [slice, Nat.mul_comm]
    have hrecs : records rs (slice inFp.bytes inFp.pos (rs * R)) =
        (records rs (inFp.bytes.drop inFp.pos)).take R := by
      rw [hbuf, records_take hrs]
    have hrd : (slice inFp.bytes inFp.pos (rs * R)).length / rs =
        ((records rs (inFp.bytes.drop inFp.pos)).take R).length := by
      rw [← records_length, hrecs]
    have hdrop : inFp.bytes.drop (inFp.pos + (slice inFp.bytes inFp.pos (rs * R)).length) =
        (inFp.bytes.drop inFp.pos).drop (R * rs) := by
      rw [slice_length, List.drop_drop, Nat.mul_comm rs]
      obtain hle | hle := Nat.le_total (R * rs) (inFp.bytes.length - inFp.pos)
      · rw [Nat.min_eq_left hle]
      · rw [List.drop_eq_nil_of_le (by omega), List.drop_eq_nil_of_le (by omega)]
    have hrest : records rs (inFp.bytes.drop (inFp.pos + (slice inFp.bytes inFp.pos (rs * R)).length)) =
        (records rs (inFp.bytes.drop inFp.pos)).drop R := by
      rw [hdrop, records_drop]
    have hlen : ((records rs (inFp.bytes.drop inFp.pos)).take R).length +
        ((records rs (inFp.bytes.drop inFp.pos)).drop R).length =
          (records rs (inFp.bytes.drop inFp.pos)).length := by
      rw [← List.length_append, List.take_append_drop]
    by_cases hnil : records rs (inFp.bytes.drop inFp.pos) = []
    · have hzero : (slice inFp.bytes inFp.pos (rs * R)).length / rs = 0 := by
        rw [hrd, hnil, List.take_nil, List.length_nil]
      refine ⟨[], by rw [hnil]; exact SortedBlocks.done, ?_⟩
      rw [mkRunsLoop, fread]
      simp only [hzero, ne_eq, not_true_eq_false, if_false, hnil, List.length_nil, Nat.add_zero, List.flatten_nil,
        fwrite_nil hout]
    · have hpos : 0 < ((records rs (inFp.bytes.drop inFp.pos)).take R).length := by
        have := List.length_pos_iff.mpr hnil
        rw [List.length_take]
        omega
      obtain ⟨runs, hruns, hloop⟩ := @ih
        (count + ((records rs (inFp.bytes.drop inFp.pos)).take R).length)
        { inFp with pos := inFp.pos + (slice inFp.bytes inFp.pos (rs * R)).length }
        (fwrite outFp (sort ((records rs (inFp.bytes.drop inFp.pos)).take R)).flatten)
        (fwrite_pos_le hout _) (by simp only [hrest]; omega) (by simp only [hrest]; omega)
      simp only [hrest] at hruns hloop
      refine ⟨sort ((records rs (inFp.bytes.drop inFp.pos)).take R) ++ runs, SortedBlocks.block hnil hruns, ?_⟩
      rw [mkRunsLoop, fread]
      simp only [hrd, hrecs]
      rw [if_pos (by omega), ← Int.natCast_add, toInt32_natCast (by omega), hloop, fwrite_fwrite hout,
        List.flatten_append, Nat.add_assoc, hlen]

theorem mkRuns_spec (hrs : 0 < rs) (hR : 0 < R) {fuel : Nat} {input : List Byte}
    (hfuel : (records rs input).length < fuel) (hcount : (records rs input).length < 2 ^ 31) :
    ∃ runs, SortedBlocks sort R (records rs input) runs ∧
      mkRuns sort rs R fuel ⟨input, 0⟩ ⟨[], 0⟩ =
        .ok (⟨runs.flatten, runs.flatten.length⟩, ((records rs input).length : Int)) := by
  obtain ⟨runs, hruns, hloop⟩ := @mkRunsLoop_spec sort rs R hrs hR fuel 0 ⟨input, 0⟩ ⟨[], 0⟩
    (Nat.le_refl 0) hfuel (by rwa [Nat.zero_add])
  refine ⟨runs, hruns, ?_⟩
  rw [mkRuns]
  rw [Nat.zero_add, fwrite_end rfl, List.nil_append, Nat.zero_add] at hloop
  exact hloop

/-- Without room for one record the input is read as empty. -/
theorem mkRuns_zero (hrs : 0 < rs) (fuel : Nat) (inFp outFp : File) :
    mkRuns sort rs 0 (fuel + 1) inFp outFp = .ok (outFp, ((0 : Nat) : Int)) := by
  rw [mkRuns, mkRunsLoop, fread]
  simp [slice, Nat.div_eq_of_lt hrs]

end Runs

section Merging

variable {less : List Byte → List Byte → Bool} {fresh : Nat → Byte} {rs bufSize N k : Nat}

theorem newIterators_error (hbuf : bufSize / rs = 0) (run : Run) (runs : List Run) :
    newIterators rs fresh bufSize (run :: runs) = .error .exit := by
  rw [newIterators, newRunIterator, if_pos (by omega)]
  rfl

theorem newIterators_spec (fresh : Nat → Byte) (hbuf : 0 < bufSize / rs) (recs : List (List Byte)) (n offset : Nat)
    (is : List Nat) :
    ∃ iterators, newIterators rs fresh bufSize (is.map (fun i => ⟨((offset + i * n : Nat) : Int),
        ((min n (recs.length - (offset + i * n)) : Nat) : Int)⟩)) = .ok iterators ∧
      List.Forall₂ (fun it run => Reading rs recs run it ∧ it.pos = 0) iterators
        (is.map (fun i => slice (recs.drop offset) (i * n) n)) := by
  induction is with
  | nil => exact ⟨[], rfl, List.Forall₂.nil⟩
  | cons i is ih =>
    obtain ⟨iterators, hrest, hreading⟩ := ih
    have hlen : (slice (recs.drop offset) (i * n) n).length = min n (recs.length - (offset + i * n)) := by
      rw [slice_length, List.length_drop, Nat.sub_sub]
    have hrun : slice (recs.drop offset) (i * n) n =
        slice recs (offset + i * n) (slice (recs.drop offset) (i * n) n).length := by
      rw [hlen, slice, List.drop_drop, slice, ← List.length_drop, List.take_eq_take_min]
    obtain ⟨it, hit, hread, hpos⟩ := newRunIterator_reading fresh
      ⟨((offset + i * n : Nat) : Int), ((min n (recs.length - (offset + i * n)) : Nat) : Int)⟩
      hbuf (fun _ => Int.natCast_nonneg _) (by rw [hlen]; rfl) hrun
    refine ⟨it :: iterators, ?_, List.Forall₂.cons ⟨hread, hpos⟩ hreading⟩
    rw [List.map_cons, newIterators, hit, ok_bind, hrest]
    rfl

theorem mergeGroup_spec (hbuf : 0 < bufSize / rs) {recs : List (List Byte)} (hu : Uniform rs recs) {s : Temps}
    (hin : s.tmpIn.bytes = recs.flatten) (hout : s.tmpOut.pos ≤ s.tmpOut.bytes.length) {fuel : Nat}
    (hfuel : recs.length < fuel) (n offset : Nat) :
    ∃ tmpIn out, mergeGroup less rs fresh bufSize fuel s (groupRuns recs.length n k offset) =
        .ok ⟨tmpIn, fwrite s.tmpOut out.flatten⟩ ∧
      tmpIn.bytes = s.tmpIn.bytes ∧ Merges less (segments n k (recs.drop offset)) out := by
  obtain ⟨iterators, hnew, hreading⟩ := newIterators_spec fresh hbuf recs n offset (List.range k)
  have hlen : (segments n k (recs.drop offset)).flatten.length < fuel := by
    rw [segments_flatten, List.length_take, List.length_drop]
    omega
  have hpre : recs.flatten <+: s.tmpIn.bytes := by rw [hin]
  obtain ⟨tmpIn, out, hmerge, hbytes, hm⟩ := kwayMerge_spec less hu hpre hout hreading hlen
  refine ⟨tmpIn, out, ?_, hbytes, hm⟩
  rw [mergeGroup, groupRuns, hnew, ok_bind, hmerge]
  rfl

/-- Between passes: the first file holds what the passes so far made of `runs`. -/
structure Between (less : List Byte → List Byte → Bool) (rs N k R : Nat) (runs : List (List Byte)) (n : Nat)
    (recs : List (List Byte)) (s : Temps) : Prop where
  uniform : Uniform rs recs
  length : recs.length = N
  tmpIn : s.tmpIn.bytes = recs.flatten
  passes : Passes less k R runs n recs
  tmpOut : s.tmpOut.pos = 0 ∧ s.tmpOut.bytes.length ≤ N * rs

/-- Inside a pass: the groups before `offset` are merged into the second file. -/
structure Within (less : List Byte → List Byte → Bool) (rs N k R : Nat) (runs : List (List Byte)) (n offset : Nat)
    (recs : List (List Byte)) (s : Temps) : Prop where
  uniform : Uniform rs recs
  length : recs.length = N
  tmpIn : s.tmpIn.bytes = recs.flatten
  passes : Passes less k R runs n recs
  tmpOut : ∃ f out, f.pos = 0 ∧ f.bytes.length ≤ N * rs ∧ s.tmpOut = fwrite f out.flatten ∧
    ∀ out', Pass less n k (recs.drop offset) out' → Pass less n k recs (out ++ out')

variable {R n : Nat} {runs recs : List (List Byte)} {s : Temps}

theorem Between.within (h : Between less rs N k R runs n recs s) : Within less rs N k R runs n 0 recs s := by
  refine ⟨h.uniform, h.length, h.tmpIn, h.passes, s.tmpOut, [], h.tmpOut.1, h.tmpOut.2, ?_, fun _ h' => h'⟩
  rw [List.flatten_nil, fwrite_nil (by have := h.tmpOut.1; omega)]

theorem Within.group {offset fuel : Nat} (fresh : Nat → Byte) (hbuf : 0 < bufSize / rs) (hfuel : N < fuel)
    (hoffset : offset < N) (h : Within less rs N k R runs n offset recs s) :
    ∃ s', mergeGroup less rs fresh bufSize fuel s (groupRuns N n k offset) = .ok s' ∧
      Within less rs N k R runs n (offset + n * k) recs s' := by
  obtain ⟨f, done, hpos, hflen, htmpOut, hdone⟩ := h.tmpOut
  have hlength := h.length
  have hout : s.tmpOut.pos ≤ s.tmpOut.bytes.length := by
    rw [htmpOut]
    exact fwrite_pos_le (by omega) _
  obtain ⟨tmpIn, out, hgroup, hbytes, hm⟩ :=
    mergeGroup_spec hbuf h.uniform h.tmpIn hout (by rwa [hlength]) n offset
  rw [hlength] at hgroup
  refine ⟨_, hgroup, h.uniform, hlength, hbytes.trans h.tmpIn, h.passes, f, done ++ out, hpos, hflen, ?_, ?_⟩
  · rw [htmpOut, fwrite_fwrite (by omega), List.flatten_append]
  · intro out' hrest
    rw [List.append_assoc]
    apply hdone
    refine Pass.group ?_ hm (by rwa [List.drop_drop])
    rw [ne_eq, List.drop_eq_nil_iff]
    omega

/-- The second file, when all groups are written, is the first file of the next pass. -/
theorem Within.finish {last : Nat} (hlast : N ≤ last) (h : Within less rs N k R runs n last recs s) :
    ∃ recs', Between less rs N k R runs (n * k) recs' (endPass s) := by
  obtain ⟨f, out, hpos, hflen, htmpOut, hdone⟩ := h.tmpOut
  have hlength := h.length
  have hpass : Pass less n k recs out := by
    have hrest := hdone [] (by rw [List.drop_eq_nil_of_le (by omega)]; exact Pass.done)
    rwa [List.append_nil] at hrest
  have hu := h.uniform.of_perm hpass.perm
  have hlen : out.length = N := hpass.perm.length_eq.trans hlength
  have hbytes : (fwrite f out.flatten).bytes = out.flatten := by
    rw [fwrite_of_le (by omega), hpos, splice, List.take_zero, List.nil_append, Nat.zero_add,
      List.drop_eq_nil_of_le (by rw [flatten_length hu, hlen]; exact hflen), List.append_nil]
  refine ⟨out, hu, hlen, ?_, h.passes.step hpass, rfl, ?_⟩
  · show s.tmpOut.bytes = out.flatten
    rw [htmpOut, hbytes]
  · show s.tmpIn.bytes.length ≤ N * rs
    rw [h.tmpIn, flatten_length h.uniform, hlength]

theorem passLoop_merges (less : List Byte → List Byte → Bool) (fresh : Nat → Byte) (hbuf : 0 < bufSize / rs)
    (hk : 1 < k) (hR : 0 < R) (hNk : N * k < 2 ^ 31) (hcap : ∀ q, R * k ^ q < N * k → R * k ^ (q + 1) < 2 ^ 31)
    (hu : Uniform rs runs) (hlen : runs.length = N) {fuel : Nat} (hfuel : N * k + N + 1 < fuel) (pos : Nat) :
    ∃ s q log recs, passLoop (mergeGroup less rs fresh bufSize fuel) endPass N k fuel R 0
        ⟨⟨runs.flatten, pos⟩, ⟨[], 0⟩⟩ = .ok (s, q, log) ∧
      N ≤ R * k ^ q ∧ Between less rs N k R runs (R * k ^ q) recs s := by
  have hN : N < fuel := by omega
  have hinit : Between less rs N k R runs R runs ⟨⟨runs.flatten, pos⟩, ⟨[], 0⟩⟩ :=
    ⟨hu, hlen, rfl, Passes.refl, rfl, Nat.zero_le _⟩
  obtain ⟨s, q, log, hrun, -, hq, recs, hbetween⟩ := passLoop_rule (mergeGroup less rs fresh bufSize fuel) endPass
    (fun n s => ∃ recs, Between less rs N k R runs n recs s)
    (fun n offset s => ∃ recs, Within less rs N k R runs n offset recs s) hk hNk
    (fun n s ⟨recs, h⟩ => ⟨recs, h.within⟩)
    (fun n offset s _ _ hoffset ⟨recs, h⟩ => by
      obtain ⟨s', hgroup, h'⟩ := h.group fresh hbuf hN hoffset
      exact ⟨s', hgroup, recs, h'⟩)
    (fun n last s hlast ⟨recs, h⟩ => h.finish hlast) fuel 0 hR hcap (by omega) ⟨runs, hinit⟩
  rw [Nat.zero_add] at hrun
  exact ⟨s, q, log, recs, hrun, (Nat.le_mul_of_pos_right N (by omega)).trans hq, hbetween⟩

end Merging

end RecordStore.Msort
