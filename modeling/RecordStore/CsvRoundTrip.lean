import RecordStore.ColumnLoad
import RecordStore.PageFiles

namespace RecordStore.CsvRoundTrip

open RecordStore.CFile RecordStore.CText RecordStore.FixedRecord RecordStore.HeapFile RecordStore.HeapImage
open RecordStore.HeapAlloc RecordStore.LogicalPages RecordStore.HeapRuns RecordStore.HeapContents
open RecordStore.RecordIterator RecordStore.IteratorScan RecordStore.CsvPrograms RecordStore.PackedPages
open RecordStore.BulkLoad RecordStore.PageFiles RecordStore.Scanning RecordStore.PackedScan
open RecordStore.ColumnLoad

variable {P : Nat} {record : Record} {pages : Pages P slotSize} {recs : List Record}

structure CsvRecord (record : Record) : Prop where
  count : record.length = 100
  plain : ∀ attr ∈ record, PlainField attr.bytes
  width : ∀ attr ∈ record, attr.bytes.length ≤ attributeSize

def EndsWide (record : Record) : Prop := ∀ last ∈ record.getLast?, last.bytes.length = attributeSize

def csvText (records : List Record) : List Byte := (records.map printRecordAsCsv).flatten

def reloaded (record : Record) : Record :=
  (strtok (printRecordAsCsv record) comma).map (fun token => cstring token attributeSize)

section Line

theorem lineText_length (fields : List (List Byte)) (last : List Byte) :
    (lineText (fields ++ [last])).length = (fields.map (fun f => f.length + 1)).sum + last.length + 1 := by
  rw [lineText_concat]
  induction fields with
  | nil => simp [List.intercalate]
  | cons f fields ih =>
    rw [List.cons_append, List.intercalate_cons_of_ne_nil (by simp), List.length_append, List.length_append, ih,
      List.map_cons, List.sum_cons, List.length_singleton]
    ring

theorem cstring_of_noNul {src : List Byte} (h : (0 : Byte) ∉ src) (n : Nat) : (cstring src n).bytes = src.take n := by
  refine List.takeWhile_eq_self_iff.mpr (fun b hb => decide_eq_true ?_)
  rintro rfl
  exact h (List.mem_of_mem_take hb)

theorem cstring_bytes (s : CString) {n : Nat} (h : s.bytes.length ≤ n) : cstring s.bytes n = s := by
  apply CString.ext
  rw [cstring_of_noNul s.noNul, List.take_of_length_le h]

theorem cstring_newline (s : CString) {n : Nat} (h : s.bytes.length ≤ n) :
    (cstring (s.bytes ++ [newline]) n).bytes = if s.bytes.length = n then s.bytes else s.bytes ++ [newline] := by
  have hline : (0 : Byte) ∉ s.bytes ++ [newline] := fun h0 =>
    (List.mem_append.mp h0).elim s.noNul (fun h0 => absurd h0 (by decide))
  rw [cstring_of_noNul hline]
  split
  case isTrue hn => rw [List.take_append_of_le_length hn.ge, List.take_of_length_le h]
  case isFalse hn =>
    refine List.take_of_length_le ?_
    rw [List.length_append, List.length_singleton]
    omega

end Line

section Reload

theorem CsvRecord.concat (hc : CsvRecord record) : ∃ init last, record = init ++ [last] := by
  obtain rfl | hlast := record.eq_nil_or_concat'
  · exact absurd hc.count (by decide)
  · exact hlast

theorem endsWide_concat (init : Record) (last : CString) :
    EndsWide (init ++ [last]) ↔ last.bytes.length = attributeSize := by
  simp [EndsWide]

theorem reloaded_concat {init : Record} {last : CString} (hc : CsvRecord (init ++ [last])) :
    reloaded (init ++ [last]) = init ++ [cstring (last.bytes ++ [newline]) attributeSize] := by
  have hplain : ∀ f ∈ init.map CString.bytes ++ [last.bytes], PlainField f := by
    intro f hf
    rw [← List.map_singleton, ← List.map_append] at hf
    obtain ⟨attr, hattr, rfl⟩ := List.mem_map.mp hf
    exact hc.plain attr hattr
  have hline : printRecordAsCsv (init ++ [last]) = lineText (init.map CString.bytes ++ [last.bytes]) := by
    rw [printRecordAsCsv, List.map_append, List.map_singleton, lineText]
  rw [reloaded, hline, strtok_lineText hplain, List.map_append, List.map_map, List.map_singleton]
  congr 1
  refine (List.map_congr_left (fun attr hattr => ?_)).trans (List.map_id init)
  exact cstring_bytes attr (hc.width attr (List.mem_append_left _ hattr))

theorem reloaded_eq_iff (hc : CsvRecord record) : reloaded record = record ↔ EndsWide record := by
  obtain ⟨init, last, rfl⟩ := hc.concat
  have hle := hc.width last (List.mem_append_right _ (List.mem_singleton_self _))
  rw [reloaded_concat hc, endsWide_concat, List.append_cancel_left_eq, List.cons.injEq, and_iff_left rfl,
    CString.ext_iff, cstring_newline last hle]
  constructor
  · intro he
    by_contra hne
    rw [if_neg hne] at he
    simp at he
  · exact fun hn => if_pos hn

theorem reloaded_length (hc : CsvRecord record) : (reloaded record).length = 100 := by
  obtain ⟨init, last, rfl⟩ := hc.concat
  rw [reloaded_concat hc, ← hc.count, List.length_append, List.length_append, List.length_singleton,
    List.length_singleton]

theorem loadCsvRecord_print (hc : CsvRecord record) :
    loadCsvRecord (printRecordAsCsv record) = .ok (reloaded record) :=
  if_pos (reloaded_length hc)

/-- Its attributes are as short as they were put, so the heap file stores them whole. -/
theorem stored_reloaded (record : Record) : stored (reloaded record) = reloaded record := by
  rw [stored, reloaded, List.map_map]
  exact List.map_congr_left (fun token _ => cstring_truncate token attributeSize)

theorem print_length (init : Record) (last : CString) : (printRecordAsCsv (init ++ [last])).length =
    ((init.map CString.bytes).map (fun f => f.length + 1)).sum + last.bytes.length + 1 := by
  rw [← lineText_length, printRecordAsCsv, List.map_append, List.map_singleton, lineText]

theorem print_length_lt (hc : CsvRecord record) : (printRecordAsCsv record).length < maxLineLen := by
  obtain ⟨init, last, rfl⟩ := hc.concat
  have hle := hc.width last (List.mem_append_right _ (List.mem_singleton_self _))
  have hsum : ((init.map CString.bytes).map (fun f => f.length + 1)).sum ≤
      ((init.map CString.bytes).map (fun f => f.length + 1)).length • 11 := by
    refine List.sum_le_card_nsmul _ _ (fun n hn => ?_)
    rw [List.map_map] at hn
    obtain ⟨attr, hattr, rfl⟩ := List.mem_map.mp hn
    exact Nat.succ_le_succ (hc.width attr (List.mem_append_left _ hattr))
  have hcount := hc.count
  rw [List.length_append, List.length_singleton] at hcount
  rw [List.length_map, List.length_map, smul_eq_mul] at hsum
  rw [print_length]
  unfold maxLineLen
  unfold attributeSize at hle
  omega

theorem print_reloaded (hc : CsvRecord record) :
    (printRecordAsCsv record).length ≤ (printRecordAsCsv (reloaded record)).length ∧
    (printRecordAsCsv (reloaded record) = printRecordAsCsv record ↔ EndsWide record) := by
  obtain ⟨init, last, rfl⟩ := hc.concat
  have hle := hc.width last (List.mem_append_right _ (List.mem_singleton_self _))
  have hlast := congrArg List.length (cstring_newline last hle)
  have hlen := print_length init last
  have hlen' := print_length init (cstring (last.bytes ++ [newline]) attributeSize)
  rw [← reloaded_eq_iff hc]
  constructor
  · rw [reloaded_concat hc]
    split at hlast
    · omega
    · rw [List.length_append] at hlast
      omega
  · refine ⟨fun he => ?_, congrArg printRecordAsCsv⟩
    rw [reloaded_eq_iff hc, endsWide_concat]
    rw [reloaded_concat hc] at he
    have hsame := congrArg List.length he
    split at hlast
    · assumption
    · rw [List.length_append, List.length_singleton] at hlast
      omega

end Reload

section File

/-- Texts of pieces, each at least as long as its counterpart, are the same only piece by piece. -/
theorem flatten_map_eq_iff {α β : Type} {l : List α} {f g : α → List β}
    (h : ∀ a ∈ l, (g a).length ≤ (f a).length) :
    (l.map f).flatten = (l.map g).flatten ↔ ∀ a ∈ l, f a = g a := by
  refine ⟨fun he => ?_, fun he => congrArg List.flatten (List.map_congr_left he)⟩
  induction l with
  | nil => exact fun a ha => absurd ha List.not_mem_nil
  | cons a l ih =>
    have htail : ∀ b ∈ l, (g b).length ≤ (f b).length := fun b hb => h b (List.mem_cons_of_mem _ hb)
    have hsum : (l.map g).flatten.length ≤ (l.map f).flatten.length := by
      rw [List.length_flatten, List.length_flatten, List.map_map, List.map_map]
      exact List.sum_le_sum htail
    have hhead := h a (List.mem_cons_self ..)
    simp only [List.map_cons, List.flatten_cons] at he
    have hlen := congrArg List.length he
    rw [List.length_append, List.length_append] at hlen
    obtain ⟨hfirst, hrest⟩ := List.append_inj he (by omega)
    intro b hb
    obtain rfl | hb := List.mem_cons.mp hb
    · exact hfirst
    · exact ih htail hrest b hb

theorem csvLines_csvText {records : List Record} (hrecords : ∀ r ∈ records, CsvRecord r) :
    csvLines (csvText records) = records.map printRecordAsCsv := by
  refine fgetsLines_flatten (by decide) (fun line hline => ?_)
  obtain ⟨r, hr, rfl⟩ := List.mem_map.mp hline
  refine ⟨lineText_endsLine (fun f hf => ?_), print_length_lt (hrecords r hr)⟩
  obtain ⟨attr, hattr, rfl⟩ := List.mem_map.mp hf
  exact (hrecords r hr).plain attr hattr

theorem listing_packed (hz : Sizes P slotSize) (beyond : Nat → Byte) (hp : Packed pages recs) :
    (listing beyond pages).map Prod.snd = recs.map stored := by
  rw [← lives_slotContents hz hp, listing, List.map_map]
  apply List.map_congr_left
  rintro ⟨q, t⟩ hm
  obtain ⟨page, hq, hc, hf, -⟩ := (lives_mem (by decide) q t).mp hm
  rw [Function.comp_apply, recordAt_eq hq hc, slotContents, contentsOf, hq, Option.bind_some,
    pageContents_natCast page hc, if_pos hf, Option.getD_some]

theorem load_csvText (hp : 1001 < P) (hP : P < 2147483648) (beyond : Nat → Byte) {records : List Record}
    (hrecords : ∀ r ∈ records, CsvRecord r)
    (hb : fileLength P (pageCount P slotSize records.length) < 2147483648) :
    ∃ (bytes : List Byte) (h : Heapfile P slotSize) (pages : Pages P slotSize),
      csv2heapfile P (csvText records) = .ok bytes ∧
      openHeapfile P slotSize (bytes.length / P + 1) bytes = .ok h ∧ Rep h pages ∧
      (listing beyond pages).map Prod.snd = records.map reloaded := by
  have hz : Sizes P slotSize := ⟨hp, by decide, by unfold slotSize; omega⟩
  have hlines := csvLines_csvText hrecords
  have hfull : FullRows (csvText records) := by
    intro line hline
    rw [hlines] at hline
    obtain ⟨r, hr, rfl⟩ := List.mem_map.mp hline
    have hcount := reloaded_length (hrecords r hr)
    rwa [reloaded, List.length_map] at hcount
  obtain ⟨bytes, hload, hs⟩ := csv2heapfile_lines hp hP hfull (fun n hn => by
    rw [hlines, List.length_map] at hn
    exact lt_of_le_of_lt (fileLength_mono (Nat.div_le_div_right (by omega))) hb)
  obtain ⟨h, hopen, pages, hr, hpacked⟩ := hs.reopened hz hP
  refine ⟨bytes, h, pages, hload, hopen, hr, ?_⟩
  rw [listing_packed hz beyond hpacked, hlines, List.map_map, List.map_map]
  exact List.map_congr_left (fun r _ => stored_reloaded r)

end File

/-- A record of a CSV file comes back from its line exactly when its last attribute fills its field,
and a whole file comes back from the heap file it is loaded into exactly when all its records are so. -/
theorem csv_round_trip_iff (beyond : Nat → Byte) :
    (∀ record, CsvRecord record → csvLines (printRecordAsCsv record) = [printRecordAsCsv record] ∧
      (loadCsvRecord (printRecordAsCsv record) = .ok record ↔ EndsWide record)) ∧
    ∀ P, 1001 < P → P < 2147483648 → ∀ records : List Record, (∀ r ∈ records, CsvRecord r) →
      fileLength P (pageCount P slotSize records.length) < 2147483648 →
      ∃ (bytes : List Byte) (h : Heapfile P slotSize) (out : List (RecordID × Record)),
        csv2heapfile P (csvText records) = .ok bytes ∧
        openHeapfile P slotSize (bytes.length / P + 1) bytes = .ok h ∧
        out.Pairwise (fun a b => RidLt a.1 b.1) ∧ (∀ rid rec, (rid, rec) ∈ out ↔ contents h rid = some rec) ∧
        (¬ LastDirectoryFull h → ∃ fuel0, ∀ fuel ≥ fuel0, ∃ it, scan beyond true fuel h = .ok (out, it)) ∧
        (csvText (out.map Prod.snd) = csvText records ↔ ∀ r ∈ records, EndsWide r) := by
  constructor
  · intro record hc
    have hall : ∀ r ∈ [record], CsvRecord r := fun r hr => List.mem_singleton.mp hr ▸ hc
    have hline := csvLines_csvText hall
    rw [csvText, List.map_singleton, List.flatten_singleton] at hline
    refine ⟨hline, ?_⟩
    rw [loadCsvRecord_print hc, Except.ok.injEq, reloaded_eq_iff hc]
  · intro P hp hP records hrecords hb
    have hz : Sizes P slotSize := ⟨hp, by decide, by unfold slotSize; omega⟩
    obtain ⟨bytes, h, pages, hload, hopen, hr, hout⟩ := load_csvText hp hP beyond hrecords hb
    refine ⟨bytes, h, listing beyond pages, hload, hopen, listing_sorted beyond pages, ?_, ?_, ?_⟩
    · intro rid rec
      rw [contents_eq hz hr]
      exact mem_listing_iff beyond rid rec
    · intro hfull
      rw [lastDirectoryFull_iff hz hr] at hfull
      refine ⟨(lives pages 0 (-1)).length + 1, fun fuel hfuel => ?_⟩
      obtain ⟨it, hscan, -⟩ := scan_of_rep hz beyond hr hfull hfuel
      exact ⟨it, hscan⟩
    · have hpieces := flatten_map_eq_iff (f := printRecordAsCsv ∘ reloaded)
        (fun r hr => (print_reloaded (hrecords r hr)).1)
      rw [hout, csvText, csvText, List.map_map, hpieces]
      exact forall₂_congr (fun r hr => (print_reloaded (hrecords r hr)).2)

theorem csvRecord_wideRecord : CsvRecord wideRecord where
  count := List.length_replicate
  plain _ hattr := List.eq_of_mem_replicate hattr ▸ ⟨by decide, by decide, by decide, by decide⟩
  width _ hattr := List.eq_of_mem_replicate hattr ▸ by decide

/-- Of 100 attributes "a" the last one comes back with the newline. -/
theorem short_field_keeps_newline : CsvRecord wideRecord ∧
    csvLines (printRecordAsCsv wideRecord) = [printRecordAsCsv wideRecord] ∧
    loadCsvRecord (printRecordAsCsv wideRecord) ≠ .ok wideRecord := by
  have hall : ∀ r ∈ [wideRecord], CsvRecord r := fun r hr => List.mem_singleton.mp hr ▸ csvRecord_wideRecord
  have hline := csvLines_csvText hall
  rw [csvText, List.map_singleton, List.flatten_singleton] at hline
  refine ⟨csvRecord_wideRecord, hline, ?_⟩
  rw [loadCsvRecord_print csvRecord_wideRecord, ne_eq, Except.ok.injEq, reloaded_eq_iff csvRecord_wideRecord]
  exact fun hwide => absurd (hwide letterAttribute (by decide)) (by decide)

theorem csv_round_trip_iff_letters :
    (csvLines (printRecordAsCsv wideRecord) = [printRecordAsCsv wideRecord] ∧
      (loadCsvRecord (printRecordAsCsv wideRecord) = .ok wideRecord ↔ EndsWide wideRecord)) ∧
    ∃ (bytes : List Byte) (h : Heapfile 1002 slotSize) (out : List (RecordID × Record)),
      csv2heapfile 1002 (csvText [wideRecord]) = .ok bytes ∧
      openHeapfile 1002 slotSize (bytes.length / 1002 + 1) bytes = .ok h ∧
      out.Pairwise (fun a b => RidLt a.1 b.1) ∧ (∀ rid rec, (rid, rec) ∈ out ↔ contents h rid = some rec) ∧
      (¬ LastDirectoryFull h → ∃ fuel0, ∀ fuel ≥ fuel0, ∃ it, scan (fun _ => 0) true fuel h = .ok (out, it)) ∧
      (csvText (out.map Prod.snd) = csvText [wideRecord] ↔ ∀ r ∈ [wideRecord], EndsWide r) :=
  ⟨(csv_round_trip_iff (fun _ => 0)).1 wideRecord csvRecord_wideRecord,
    (csv_round_trip_iff (fun _ => 0)).2 1002 (by decide) (by decide) [wideRecord]
      (fun r hr => List.mem_singleton.mp hr ▸ csvRecord_wideRecord) (by decide)⟩

end RecordStore.CsvRoundTrip
