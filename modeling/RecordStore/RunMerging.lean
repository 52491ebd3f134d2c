import RecordStore.ExternalSort

namespace RecordStore.RunMerging

open RecordStore.Splice RecordStore.CFile RecordStore.RecordFile RecordStore.RunIterator RecordStore.KMerge
open RecordStore.KwayMerge RecordStore.ExternalSort

/-- What a `RunIterator` is made from besides the file: its run, the size of its buffer, and
what the memory of the buffer holds at first. -/
structure Source where
  run : Run
  bufSize : Nat
  fresh : Nat → Byte

def runRecords (rs : Nat) (bytes : List Byte) (run : Run) : List (List Byte) :=
  slice (records rs bytes) run.start.toNat run.length.toNat

/-- A run that has records lies inside the file, and the buffer has room for a record. -/
def Source.Fits (rs : Nat) (bytes : List Byte) (source : Source) : Prop :=
  (0 < source.run.length →
    0 ≤ source.run.start ∧ (source.run.start + source.run.length) * rs ≤ bytes.length) ∧
  rs ≤ source.bufSize

variable {rs : Nat} {bytes : List Byte}

theorem runRecords_length {source : Source} (hrs : 0 < rs) (h : source.Fits rs bytes) :
    (runRecords rs bytes source.run).length = source.run.length.toNat := by
  rw [runRecords, slice_length, records_length]
  by_cases hpos : 0 < source.run.length
  · obtain ⟨hstart, hend⟩ := h.1 hpos
    obtain ⟨a, ha⟩ := Int.eq_ofNat_of_zero_le hstart
    obtain ⟨n, hn⟩ := Int.eq_ofNat_of_zero_le hpos.le
    rw [ha, hn] at hend ⊢
    have hle : a + n ≤ bytes.length / rs := (Nat.le_div_iff_mul_le hrs).mpr (by exact_mod_cast hend)
    simp only [Int.toNat_natCast]
    omega
  · omega

theorem newRunIterator_spec {source : Source} (hrs : 0 < rs) (h : source.Fits rs bytes) :
    ∃ it, newRunIterator rs source.fresh source.bufSize source.run = .ok it ∧
      Reading rs (records rs bytes) (runRecords rs bytes source.run) it ∧ it.pos = 0 := by
  have hlen := runRecords_length hrs h
  refine newRunIterator_reading source.fresh source.run (Nat.div_pos h.2 hrs) ?_ hlen.symm ?_
  · intro hne
    have hpos := List.length_pos_iff.mpr hne
    exact (h.1 (by omega)).1
  · rw [hlen]
    rfl

theorem newIterators_reading (hrs : 0 < rs) {sources : List Source} {iterators : List Iterator}
    (hnew : List.Forall₂ (fun source it =>
      newRunIterator rs source.fresh source.bufSize source.run = .ok it) sources iterators)
    (hfit : ∀ source ∈ sources, source.Fits rs bytes) :
    List.Forall₂ (fun it run => Reading rs (records rs bytes) run it ∧ it.pos = 0) iterators
      (sources.map (fun source => runRecords rs bytes source.run)) := by
  induction hnew with
  | nil => exact List.Forall₂.nil
  | @cons source it sources iterators hit _ ih =>
    obtain ⟨it', hit', hread⟩ := newRunIterator_spec hrs (hfit source (List.mem_cons_self ..))
    obtain rfl : it' = it := Except.ok.inj (hit'.symm.trans hit)
    exact List.Forall₂.cons hread (ih (fun s hs => hfit s (List.mem_cons_of_mem _ hs)))

theorem records_isPrefix (hrs : 0 < rs) (bytes : List Byte) : (records rs bytes).flatten <+: bytes := by
  rw [flatten_records hrs]
  exact List.take_prefix _ _

/-- `kway_merge` ends, and what it adds to the output interleaves the runs. Of sorted runs it
makes a sorted sequence, in which equal records stand in the order of their runs. -/
theorem kwayMerge_interleaves (hrs : 0 < rs) {less : List Byte → List Byte → Bool}
    (ho : StrictWeakOrder less) (inFp fp : File) (hfp : fp.pos = fp.bytes.length)
    {sources : List Source} {iterators : List Iterator}
    (hfit : ∀ source ∈ sources, source.Fits rs inFp.bytes)
    (hnew : List.Forall₂ (fun source it =>
      newRunIterator rs source.fresh source.bufSize source.run = .ok it) sources iterators) :
    ∃ fuel0, ∀ fuel ≥ fuel0, ∃ (inFp' fp' : File) (tagged : List (Nat × List Byte)),
      kwayMerge less rs fuel iterators inFp fp = .ok (inFp', fp') ∧
      fp'.bytes = fp.bytes ++ (tagged.map Prod.snd).flatten ∧
      Interleaves (sources.map (fun source => runRecords rs inFp.bytes source.run)) tagged ∧
      ((∀ source ∈ sources, Sorted less (runRecords rs inFp.bytes source.run)) →
        Sorted less (tagged.map Prod.snd) ∧
        tagged.Pairwise (fun p q => equivalent less p.2 q.2 = true → p.1 ≤ q.1)) := by
  have hread := newIterators_reading hrs hnew hfit
  have hpre := records_isPrefix hrs inFp.bytes
  refine ⟨(sources.map (fun source => runRecords rs inFp.bytes source.run)).flatten.length + 1,
    fun fuel hfuel => ?_⟩
  obtain ⟨inFp', out, hmerge, -, hm⟩ := kwayMerge_spec less (records_uniform rs inFp.bytes) hpre hfp.le
    hread (Nat.lt_of_succ_le hfuel)
  obtain ⟨tagged, rfl, hinter, hfirst⟩ := hm.interleaves ho
  refine ⟨inFp', _, tagged, hmerge, by rw [fwrite_end hfp], hinter, ?_⟩
  intro hs
  have hs' : ∀ run ∈ sources.map (fun source => runRecords rs inFp.bytes source.run), Sorted less run :=
    List.forall_mem_map.mpr hs
  exact ⟨hm.sorted ho hs', hfirst hs'⟩

theorem kwayMerge_interleaves_three :
    ∃ fuel0, ∀ fuel ≥ fuel0, ∃ (inFp' fp' : File) (tagged : List (Nat × List Byte)),
      kwayMerge byteLess 1 fuel [⟨-5, 0, [0, 0], 0, 0, 2⟩, ⟨1, 2, [0], 0, 0, 1⟩, ⟨0, 1, [0], 0, 0, 1⟩]
        ⟨[2, 1, 3], 0⟩ ⟨[], 0⟩ = .ok (inFp', fp') ∧
      fp'.bytes = [] ++ (tagged.map Prod.snd).flatten ∧
      Interleaves ([⟨⟨-5, 0⟩, 2, fun _ => 0⟩, ⟨⟨1, 2⟩, 1, fun _ => 0⟩, ⟨⟨0, 1⟩, 1, fun _ => 0⟩].map
        (fun source : Source => runRecords 1 [2, 1, 3] source.run)) tagged ∧
      ((∀ source ∈ ([⟨⟨-5, 0⟩, 2, fun _ => 0⟩, ⟨⟨1, 2⟩, 1, fun _ => 0⟩, ⟨⟨0, 1⟩, 1, fun _ => 0⟩] : List Source),
          Sorted byteLess (runRecords 1 [2, 1, 3] source.run)) →
        Sorted byteLess (tagged.map Prod.snd) ∧
        tagged.Pairwise (fun p q => equivalent byteLess p.2 q.2 = true → p.1 ≤ q.1)) := by
  refine kwayMerge_interleaves (by decide) byteLess_order ⟨[2, 1, 3], 0⟩ ⟨[], 0⟩ rfl ?_ ?_
  · simp [Source.Fits]
  · exact .cons rfl (.cons rfl (.cons rfl .nil))

end RecordStore.RunMerging
