import RecordStore.Scanning

namespace RecordStore.DirectoryBounds

open RecordStore.CFile RecordStore.Outcome RecordStore.FixedRecord RecordStore.FixedPage
open RecordStore.PageBitmap RecordStore.DirectoryPage RecordStore.HeapFile RecordStore.PageLayout
open RecordStore.DirectoryChain RecordStore.HeapImage RecordStore.HeapAlloc RecordStore.HeapSession
open RecordStore.LogicalPages RecordStore.HeapReopen RecordStore.HeapRuns RecordStore.HeapContents
open RecordStore.RecordIterator RecordStore.IteratorScan RecordStore.CsvPrograms RecordStore.RecordMap
open RecordStore.Scanning

variable {P S : Nat} {h : Heapfile P S} {pages : Pages P S} {beyond : Nat → Byte}

/-- No scan, however long and whatever `has_next` starts as, looks for a directory past the
end of `directory_buffer`. -/
def ScanInBounds (beyond : Nat → Byte) (h : Heapfile P S) : Prop :=
  ∀ hasNext fuel dirNo, scan beyond hasNext fuel h ≠ .error (.dirIndex dirNo)

theorem lives_ne_nil_iff : lives pages 0 (-1) ≠ [] ↔ ∃ rid, contentsOf pages rid ≠ none := by
  constructor
  · intro hne
    obtain ⟨⟨q, t⟩, hm⟩ := List.exists_mem_of_ne_nil _ hne
    obtain ⟨page, hq, hc, hf, -⟩ := (lives_mem (by decide) q t).mp hm
    refine ⟨⟨q, t⟩, ?_⟩
    rw [contentsOf, hq, Option.bind_some, pageContents_natCast page hc, if_pos hf]
    simp
  · rintro ⟨rid, hlive⟩ hnil
    obtain ⟨page, t, hq, hslot, hc, hf⟩ := live_rid hlive
    have hm : (rid.pageId, t) ∈ lives pages 0 (-1) :=
      (lives_mem (by decide) _ _).mpr ⟨page, hq, hc, hf, by omega⟩
    rw [hnil] at hm
    cases hm

theorem scanLoop_done (beyond : Nat → Byte) {it : Iterator P S} (hn : it.hasNext = false) (fuel dirNo : Nat) :
    scanLoop beyond fuel it ≠ .error (.dirIndex dirNo) := by
  cases fuel with
  | zero => simp [scanLoop]
  | succ fuel => simp [scanLoop, hn]

/-- From a place on, a scan stays in bounds if the last directory has room, or if the first
`next` stops it. -/
theorem scanLoop_inBounds (hz : Sizes P S) (beyond : Nat → Byte)
    (hok : ¬ LastFull (directoryCapacity P) pages.length ∨ ¬ S / attributeSize ≤ 100) (fuel : Nat) :
    ∀ (q t : Nat) (h : Heapfile P S) (hasNext : Bool) (dirNo : Nat), Rep h pages → q < pages.length →
      scanLoop beyond fuel ⟨h, q, t, hasNext⟩ ≠ .error (.dirIndex dirNo) := by
  induction fuel with
  | zero =>
    intro q t h hasNext dirNo _ _
    simp [scanLoop]
  | succ fuel ih =>
    intro q t h hasNext dirNo hr hq
    cases hasNext with
    | false => exact scanLoop_done beyond rfl _ _
    | true =>
      by_cases hw : S / attributeSize ≤ 100
      · have hf := hok.resolve_right (not_not_intro hw)
        obtain ⟨r, hland, hread⟩ := next_wide hz hw t true hr hq
        have hnext := hread beyond
        cases hl : lives pages q t with
        | nil =>
          rw [hl] at hland
          obtain ⟨it, rfl, hfalse, -⟩ := hland.2 hf
          rw [scanLoop_of_ok rfl hnext]
          have hdone := scanLoop_done beyond hfalse fuel dirNo
          cases hs : scanLoop beyond fuel it with
          | ok r => simp [Except.map]
          | error e => simpa [hs, Except.map] using hdone
        | cons p rest =>
          obtain ⟨q', t'⟩ := p
          rw [hl] at hland
          obtain ⟨h1, rfl, hr1⟩ := hland
          obtain ⟨-, page, hq', -, -⟩ := lives_cons hl
          have hrest := ih q' t' h1 true dirNo hr1 (List.getElem?_eq_some_iff.mp hq').1
          rw [scanLoop_of_ok rfl hnext]
          cases hs : scanLoop beyond fuel ⟨h1, q', t', true⟩ with
          | ok r => simp [Except.map]
          | error e => simpa [hs, Except.map] using hrest
      · rw [scanLoop_of_error rfl (next_narrow hz beyond hw hr hq)]
        simp

theorem scan_of_full (hz : Sizes P S) (beyond : Nat → Byte) (hr : Rep h pages)
    (hf : LastFull (directoryCapacity P) pages.length)
    (hw : lives pages 0 (-1) ≠ [] → S / attributeSize ≤ 100) :
    ∃ fuel, scan beyond true fuel h = .error (.dirIndex (pages.length / directoryCapacity P)) := by
  have hland := new_lands hz true hr
  cases hl : lives pages 0 (-1) with
  | nil =>
    rw [hl] at hland
    refine ⟨0, ?_⟩
    rw [scan, hland.1 hf]
    rfl
  | cons p rest =>
    obtain ⟨q, t⟩ := p
    rw [hl] at hland
    obtain ⟨h1, he, hr1⟩ := hland
    obtain ⟨hrest, page, hq, -, -⟩ := lives_cons hl
    refine ⟨rest.length + 1, ?_⟩
    rw [scan, he, ok_bind]
    exact (scanLoop_spec hz beyond (hw (by simp [hl])) rest _ q t h1 hr1
      (List.getElem?_eq_some_iff.mp hq).1 hrest.symm).1 hf (Nat.lt_succ_self _)

theorem scanInBounds_of_rep (hz : Sizes P S) (hr : Rep h pages) :
    ScanInBounds beyond h ↔ ¬ LastFull (directoryCapacity P) pages.length ∨
      (¬ S / attributeSize ≤ 100 ∧ lives pages 0 (-1) ≠ []) := by
  constructor
  · intro hsafe
    by_contra hbad
    obtain ⟨hf, hlive⟩ := not_or.mp hbad
    obtain ⟨fuel, hscan⟩ := scan_of_full hz beyond hr (not_not.mp hf)
      (fun hne => not_not.mp (fun hw => hlive ⟨hw, hne⟩))
    exact hsafe true fuel _ hscan
  · intro hok hasNext fuel dirNo
    have hl1 := new_lands hz hasNext hr
    rw [scan]
    cases hl : lives pages 0 (-1) with
    | nil =>
      rw [hl] at hl1 hok
      obtain ⟨it, he, hfalse, -⟩ := hl1.2 (hok.resolve_right (fun hn => hn.2 rfl))
      rw [he, ok_bind]
      exact scanLoop_done beyond hfalse fuel dirNo
    | cons p rest =>
      obtain ⟨q, t⟩ := p
      rw [hl] at hl1
      obtain ⟨h1, he, hr1⟩ := hl1
      obtain ⟨-, page, hq, -, -⟩ := lives_cons hl
      rw [he, ok_bind]
      exact scanLoop_inBounds hz beyond (hok.imp_right And.left) fuel q t h1 hasNext dirNo hr1
        (List.getElem?_eq_some_iff.mp hq).1

/-- A scan stays within the directories exactly when the last one is not full, or when slots
are too wide for `next` and there is a record for it to stop at. -/
theorem scan_in_bounds_iff (hz : Sizes P S) (hP : P < 2147483648) (beyond : Nat → Byte)
    {cmds : List Cmd} (ha : SessionAdmissible beyond P S OpInRange cmds) {h : Heapfile P S}
    (hreach : Reached beyond P S cmds h) :
    ScanInBounds beyond h ↔
      ¬ LastDirectoryFull h ∨ (100 < S / attributeSize ∧ ∃ rid, contents h rid ≠ none) := by
  obtain ⟨pages, hr⟩ := hreach.rep hz hP ha
  rw [scanInBounds_of_rep hz hr, lastDirectoryFull_iff hz hr, contents_eq hz hr, lives_ne_nil_iff,
    Nat.not_le]

theorem put_fills_page (hz : Sizes P S) (hone : fixedLenPageCapacity P S = 1)
    (hfull : firstFree pages = none) {rec : Record} (hrec : rec.length = S / attributeSize) :
    ∃ pages', put pages rec = .ok pages' ∧ pages'.length = pages.length + 1 ∧ firstFree pages' = none := by
  have hj : (pages ++ [Page.blank P S])[pages.length]? = some (Page.blank P S) :=
    List.getElem?_concat_length
  obtain ⟨page', ha, -, hc⟩ := add_contents (blank_emptySlot hz) hrec
  refine ⟨(pages ++ [Page.blank P S]).set pages.length page', ?_, by simp, ?_⟩
  · rw [put, hfull]
    simp only [modifyPage_some hj, ha]
    rfl
  · have hlast : ¬ 0 < fixedLenPageFreeslots page' := by
      rw [freeslots_pos_iff]
      rintro ⟨t, ht⟩
      obtain ⟨htc, hfree, -⟩ := emptySlot_eq_some.mp ht
      rw [← pageContents_eq_none_iff page' htc, hc] at hfree
      obtain rfl : t = 0 := by omega
      simp at hfree
    have hset : (pages ++ [Page.blank P S]).set pages.length page' = pages ++ [page'] := by
      simp
    rw [firstFree, List.findIdx?_eq_none_iff] at hfull ⊢
    rw [hset]
    intro page hmem
    obtain hmem | hmem := List.mem_append.mp hmem
    · exact hfull page hmem
    · rw [List.mem_singleton.mp hmem]
      simpa using hlast

theorem scan_in_bounds_iff_put : ∃ h : Heapfile 1002 slotSize,
    Reached (fun _ => 0) 1002 slotSize [.op (.put wideRecord)] h ∧
    (ScanInBounds (fun _ => 0) h ↔
      ¬ LastDirectoryFull h ∨ (100 < slotSize / attributeSize ∧ ∃ rid, contents h rid ≠ none)) := by
  have hz : Sizes 1002 slotSize := ⟨by decide, by decide, by decide⟩
  obtain ⟨h, pages, hreach, hr, hlen⟩ := reached_puts hz (by decide) (fun _ => 0) [wideRecord]
    (by simp [wideRecord, slotSize, attributeSize]) (by decide)
  refine ⟨h, hreach, scan_in_bounds_iff hz (by decide) _ ?_ hreach⟩
  rw [sessionAdmissible_iff hz (by decide) (opInRange_iff hz) (fun _ _ ho => ho)]
  exact pagesAdmissible_puts [wideRecord] (fun _ _ _ => trivial) (by decide)

theorem run_fills_pages (hz : Sizes P S) (beyond : Nat → Byte) (hone : fixedLenPageCapacity P S = 1)
    {rec : Record} (hrec : rec.length = S / attributeSize) (n : Nat) (hfull : firstFree pages = none) :
    ∃ results pages', LogicalPages.run beyond pages (List.replicate n (.put rec)) = .ok (results, pages') ∧
      pages'.length = pages.length + n := by
  induction n generalizing pages with
  | zero => exact ⟨[], pages, rfl, rfl⟩
  | succ n ih =>
    obtain ⟨pages1, hput, hlen, hfull1⟩ := put_fills_page hz hone hfull hrec
    obtain ⟨results, pages', hrun, hlen'⟩ := ih hfull1
    exact ⟨none :: results, pages', run_put_of hput hrun, by omega⟩

/-- 124 records of 100 attributes on pages of 1002 bytes fill the one directory there is. -/
theorem scan_past_last_directory :
    SessionAdmissible (fun _ => 0) 1002 slotSize OpInRange
      ((List.replicate 124 (Op.put wideRecord)).map Cmd.op) ∧
    ∃ h : Heapfile 1002 slotSize,
      Reached (fun _ => 0) 1002 slotSize ((List.replicate 124 (Op.put wideRecord)).map Cmd.op) h ∧
      h.directoryBuffer.length = 1 ∧ ∃ fuel, scan (fun _ => 0) true fuel h = .error (.dirIndex 1) := by
  have hz : Sizes 1002 slotSize := ⟨by decide, by decide, by decide⟩
  have hwide : wideRecord.length = slotSize / attributeSize := by
    simp [wideRecord, slotSize, attributeSize]
  have hadm : PagesAdmissible (fun _ => 0) OpOfPages ([] : Pages 1002 slotSize)
      (List.replicate 124 (Op.put wideRecord)) := by
    rw [← List.map_replicate (f := Op.put)]
    exact pagesAdmissible_puts _ (fun _ _ _ => trivial) (by rw [List.length_replicate]; decide)
  obtain ⟨h0, he, hr0, -⟩ := createHeapfile_rep (S := slotSize) hz.page (by decide)
  obtain ⟨results, pages, hrun, hlen⟩ := run_fills_pages hz (fun _ => 0) (by decide) hwide 124
    (show firstFree ([] : Pages 1002 slotSize) = none from rfl)
  have hagree := run_refines hz (fun _ _ ho => ho) ((List.replicate 124 (Op.put wideRecord)).map Cmd.op)
    hr0 (by rw [ops_map_op]; exact hadm)
  rw [ops_map_op, hrun] at hagree
  obtain ⟨⟨results', h⟩, hx, -, hr⟩ := hagree.of_ok_right
  have h124 : pages.length = 124 := by simpa using hlen
  refine ⟨?_, h, ⟨h0, results', he, hx⟩, ?_, ?_⟩
  · rw [sessionAdmissible_iff hz (by decide) (opInRange_iff hz) (fun _ _ ho => ho), ops_map_op]
    exact hadm
  · rw [hr.core.buffer_length, h124]
    decide
  · obtain ⟨fuel, hscan⟩ := scan_of_full hz (fun _ => 0) hr (by rw [h124]; decide) (fun _ => by decide)
    rw [h124] at hscan
    exact ⟨fuel, hscan⟩

end RecordStore.DirectoryBounds
