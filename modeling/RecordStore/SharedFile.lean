import RecordStore.RunMerging

namespace RecordStore.SharedFile

open RecordStore.Splice RecordStore.CFile RecordStore.Outcome RecordStore.RecordFile RecordStore.RunIterator
open RecordStore.RunMerging

structure Reader where
  recordSize : Nat
  it : Iterator

/-- The iterators on one FILE. -/
structure Shared where
  fp : File
  readers : List Reader

def callNext (s : Shared) (i : Nat) : Except Fault (Nat × Shared) :=
  match s.readers[i]? with
  | some r => do
    let (it, rec, fp) ← next r.recordSize s.fp r.it
    .ok (rec, ⟨fp, s.readers.set i { r with it := it }⟩)
  | none => .error .memory

/-- The states that calls of `next()` lead to, each with the calls so far: the iterator and
the pointer it returned. A call that ends the program leads to no state. -/
inductive Calls (s0 : Shared) : List (Nat × Nat) → Shared → Prop
  | start : Calls s0 [] s0
  | call {log : List (Nat × Nat)} {s s' : Shared} {i rec : Nat} (h : Calls s0 log s)
    (hc : callNext s i = .ok (rec, s')) : Calls s0 (log ++ [(i, rec)]) s'

def returned (m : Nat) (log : List (Nat × Nat)) : List Nat :=
  (log.filter (fun c => c.1 = m)).map Prod.snd

/-- The iterator has yielded the records from `start` on, one with each of its calls, and the
one it yielded last is still where the pointer says. -/
structure Yields (rs : Nat) (bytes : List Byte) (start length : Nat) (calls : List Nat) (it : Iterator) :
    Prop where
  hasNext : hasNext it = decide (calls.length < length)
  record : ∀ j rec : Nat, j < length → calls[j]? = some rec → calls.length = j + 1 →
    (records rs bytes)[start + j]? = some (slice it.readBuf rec rs)

theorem callNext_eq_ok {s s' : Shared} {i rec : Nat} : callNext s i = .ok (rec, s') ↔
    ∃ r it fp, s.readers[i]? = some r ∧ next r.recordSize s.fp r.it = .ok (it, rec, fp) ∧
      s' = ⟨fp, s.readers.set i { r with it := it }⟩ := by
  unfold callNext
  cases s.readers[i]? with
  | none => simp
  | some r =>
    simp only [bind_eq_ok, Except.ok.injEq, Prod.mk.injEq, Option.some.injEq]
    constructor
    · rintro ⟨⟨it, rec', fp⟩, hn, rfl, rfl⟩
      exact ⟨r, it, fp, rfl, hn, rfl⟩
    · rintro ⟨_, it, fp, rfl, hn, rfl⟩
      exact ⟨(it, rec, fp), hn, rfl, rfl⟩

theorem returned_append_self (m rec : Nat) (log : List (Nat × Nat)) :
    returned m (log ++ [(m, rec)]) = returned m log ++ [rec] := by
  simp [returned]

theorem returned_append_other {m i : Nat} (hi : i ≠ m) (rec : Nat) (log : List (Nat × Nat)) :
    returned m (log ++ [(i, rec)]) = returned m log := by
  simp [returned, hi]

/-- What a call of `next()` does whatever the file holds. -/
theorem next_moves {rs rec : Nat} {fp fp' : File} {it it' : Iterator}
    (h : next rs fp it = .ok (it', rec, fp')) :
    it'.pos = it.pos + 1 ∧ it'.runLength = it.runLength ∧ fp'.bytes = fp.bytes := by
  rw [next] at h
  split at h
  · obtain ⟨⟨it1, fp1⟩, hrefill, h⟩ := bind_eq_ok.mp h
    obtain ⟨rfl, -, rfl⟩ := by simpa using h
    rw [refill] at hrefill
    split at hrefill
    · cases hrefill
    · obtain ⟨rfl, rfl⟩ := Prod.mk.inj (Except.ok.inj hrefill)
      exact ⟨rfl, rfl, fseekSet_bytes fp _⟩
  · obtain ⟨rfl, -, rfl⟩ := by simpa using h
    exact ⟨rfl, rfl, rfl⟩

section Interleaving

variable {rs start length m : Nat} {bytes : List Byte} {calls : List Nat} {s s' : Shared} {it : Iterator}

def runOf (start length : Nat) : Run := ⟨(start : Int), (length : Int)⟩

/-- The iterator is where its calls have brought it, wherever the file position is. -/
structure Midway (rs : Nat) (bytes : List Byte) (start length : Nat) (calls : List Nat) (it : Iterator) :
    Prop where
  pos : it.pos = calls.length
  runLength : it.runLength = (length : Int)
  reading : calls.length ≤ length →
    Reading rs (records rs bytes) (runRecords rs bytes (runOf start length)) it
  last : ∀ j rec : Nat, j < length → calls[j]? = some rec → calls.length = j + 1 →
    (runRecords rs bytes (runOf start length))[j]? = some (slice it.readBuf rec rs)

theorem getElem?_runRecords (rs : Nat) (bytes : List Byte) (start : Nat) {length j : Nat} (hj : j < length) :
    (runRecords rs bytes (runOf start length))[j]? = (records rs bytes)[start + j]? := by
  simp only [runRecords, runOf, Int.toNat_natCast]
  rw [getElem?_slice, if_pos hj]

theorem Midway.yields (h : Midway rs bytes start length calls it) :
    Yields rs bytes start length calls it := by
  constructor
  · rw [hasNext, h.pos, h.runLength]
    simp
  · intro j rec hj hrec hlast
    rw [← getElem?_runRecords rs bytes start hj]
    exact h.last j rec hj hrec hlast

theorem Midway.next_record (hrs : 0 < rs) (hin : start + length ≤ bytes.length / rs)
    (h : Midway rs bytes start length calls it) (hlt : calls.length < length) {fp : File}
    (hfp : fp.bytes = bytes) :
    ∃ it' rec fp' r, next rs fp it = .ok (it', rec, fp') ∧
      (runRecords rs bytes (runOf start length))[calls.length]? = some r ∧
      Reading rs (records rs bytes) (runRecords rs bytes (runOf start length)) it' ∧
      slice it'.readBuf rec rs = r := by
  have hrec : start + calls.length < (records rs bytes).length := by
    rw [records_length]
    omega
  have hget : (runRecords rs bytes (runOf start length))[calls.length]? =
      some (records rs bytes)[start + calls.length] := by
    rw [getElem?_runRecords rs bytes start hlt, List.getElem?_eq_getElem hrec]
  have hpre : (records rs bytes).flatten <+: fp.bytes := by
    rw [hfp]
    exact records_isPrefix hrs bytes
  obtain ⟨it', rec, fp', hnext, -, hread, -, hr⟩ :=
    next_spec (records_uniform rs bytes) hpre (h.reading hlt.le) (by rwa [h.pos])
  exact ⟨it', rec, fp', _, hnext, hget, hread, hr⟩

theorem Midway.call (hrs : 0 < rs) (hin : start + length ≤ bytes.length / rs)
    (h : Midway rs bytes start length calls it) {fp fp' : File} (hfp : fp.bytes = bytes) {it' : Iterator}
    {rec : Nat} (hn : next rs fp it = .ok (it', rec, fp')) :
    Midway rs bytes start length (calls ++ [rec]) it' := by
  obtain ⟨hpos, hlen, -⟩ := next_moves hn
  have hwithin : calls.length < length →
      Reading rs (records rs bytes) (runRecords rs bytes (runOf start length)) it' ∧
      (runRecords rs bytes (runOf start length))[calls.length]? = some (slice it'.readBuf rec rs) := by
    intro hlt
    obtain ⟨it1, rec1, fp1, r, hn1, hget, hread, hr⟩ := h.next_record hrs hin hlt hfp
    obtain ⟨rfl, rfl, -⟩ := by simpa using hn.symm.trans hn1
    exact ⟨hread, hr ▸ hget⟩
  constructor
  case pos => rw [hpos, h.pos, List.length_append, List.length_singleton]
  case runLength => rw [hlen, h.runLength]
  case reading =>
    intro hle
    rw [List.length_append, List.length_singleton] at hle
    exact (hwithin hle).1
  case last =>
    intro j rec' hj hrec hlast
    rw [List.length_append, List.length_singleton] at hlast
    obtain rfl : calls.length = j := by omega
    rw [List.getElem?_concat_length] at hrec
    obtain rfl := Option.some.inj hrec
    exact (hwithin hj).2

theorem Calls.midway (hrs : 0 < rs) (hin : start + length ≤ bytes.length / rs) {s0 : Shared}
    (hbytes : s0.fp.bytes = bytes) (hm : s0.readers[m]? = some ⟨rs, it⟩)
    (hstart : Midway rs bytes start length [] it) {log : List (Nat × Nat)} (h : Calls s0 log s) :
    s.fp.bytes = bytes ∧ ∃ it', s.readers[m]? = some ⟨rs, it'⟩ ∧
      Midway rs bytes start length (returned m log) it' := by
  induction h with
  | start => exact ⟨hbytes, it, hm, hstart⟩
  | @call log s s' i rec _ hc ih =>
    obtain ⟨hfp, it1, hget, hmid⟩ := ih
    obtain ⟨r, it', fp', hr, hn, rfl⟩ := callNext_eq_ok.mp hc
    refine ⟨(next_moves hn).2.2.trans hfp, ?_⟩
    by_cases hi : i = m
    · subst hi
      obtain rfl := Option.some.inj (hr.symm.trans hget)
      refine ⟨it', ?_, ?_⟩
      · exact List.getElem?_set_self (List.getElem?_eq_some_iff.mp hr).1
      · rw [returned_append_self]
        exact hmid.call hrs hin hfp hn
    · refine ⟨it1, ?_, ?_⟩
      · exact (List.getElem?_set_ne hi).trans hget
      · rw [returned_append_other hi]
        exact hmid

end Interleaving

/-- An iterator on a run inside the file yields the records of the run, one with each call of
`next()`, whatever other iterators on the same FILE are called in between. -/
theorem run_yields {rs : Nat} (hrs : 0 < rs) (fp : File) (start length bufSize : Nat) (fresh : Nat → Byte)
    (hin : start + length ≤ fp.bytes.length / rs) (hbuf : rs ≤ bufSize) (before after : List Reader) :
    ∃ it, newRunIterator rs fresh bufSize ⟨start, length⟩ = .ok it ∧
      ∀ log s, Calls ⟨fp, before ++ ⟨rs, it⟩ :: after⟩ log s →
        ∃ it', s.readers[before.length]? = some ⟨rs, it'⟩ ∧
          Yields rs fp.bytes start length (returned before.length log) it' ∧
          ((returned before.length log).length < length →
            ∃ rec s', callNext s before.length = .ok (rec, s')) := by
  have hfits : Source.Fits rs fp.bytes ⟨runOf start length, bufSize, fresh⟩ := by
    refine ⟨fun _ => ⟨Int.natCast_nonneg _, ?_⟩, hbuf⟩
    have := (Nat.le_div_iff_mul_le hrs).mp hin
    simp only [runOf]
    exact_mod_cast this
  obtain ⟨it, hnew, hread, hpos⟩ := newRunIterator_spec hrs hfits
  have hlength : it.runLength = (length : Int) := by
    rw [newRunIterator, if_neg (Nat.not_lt.mpr (Nat.div_pos hbuf hrs))] at hnew
    rw [← Except.ok.inj hnew]
    rfl
  have hstart : Midway rs fp.bytes start length [] it :=
    ⟨hpos, hlength, fun _ => hread, fun j rec _ hrec => by simp at hrec⟩
  refine ⟨it, hnew, fun log s hcalls => ?_⟩
  obtain ⟨hfp, it', hget, hmid⟩ := hcalls.midway hrs hin rfl
    (by rw [List.getElem?_append_right (Nat.le_refl _), Nat.sub_self]; rfl) hstart
  refine ⟨it', hget, hmid.yields, fun hlt => ?_⟩
  obtain ⟨it1, rec, fp1, -, hn, -⟩ := hmid.next_record hrs hin hlt hfp
  exact ⟨rec, _, callNext_eq_ok.mpr ⟨_, it1, fp1, hget, hn, rfl⟩⟩

/-- The buffer has room for two records and a half, and its second block reaches over the end
of the run into the next one, which the other iterator reads. -/
theorem run_yields_three :
    ∃ it, newRunIterator 2 (fun _ => 0) 5 ⟨(1 : Nat), (3 : Nat)⟩ = .ok it ∧
      ∀ log s, Calls ⟨⟨[1, 10, 2, 10, 3, 10, 4, 10, 5, 10], 0⟩,
          [⟨2, ⟨4, 1, [0, 0], 0, 0, 1⟩⟩] ++ ⟨2, it⟩ :: []⟩ log s →
        ∃ it', s.readers[1]? = some ⟨2, it'⟩ ∧
          Yields 2 [1, 10, 2, 10, 3, 10, 4, 10, 5, 10] 1 3 (returned 1 log) it' ∧
          ((returned 1 log).length < 3 → ∃ rec s', callNext s 1 = .ok (rec, s')) :=
  run_yields (by decide) ⟨[1, 10, 2, 10, 3, 10, 4, 10, 5, 10], 0⟩ 1 3 5 (fun _ => 0) (by decide) (by decide)
    [⟨2, ⟨4, 1, [0, 0], 0, 0, 1⟩⟩] []

end RecordStore.SharedFile
