import Mathlib.Data.List.GetD
import RecordStore.ColumnStore
import RecordStore.PackedScan

namespace RecordStore.ColumnLoad

open RecordStore.CFile RecordStore.CText RecordStore.Outcome RecordStore.FixedRecord RecordStore.HeapFile
open RecordStore.HeapImage RecordStore.HeapRuns RecordStore.CsvPrograms RecordStore.ColumnStore
open RecordStore.BulkLoad RecordStore.PackedScan

variable {P S : Nat}

section Table

variable (csv : List Byte)

def field (i a : Nat) : List Byte := (strtok ((csvLines csv).getD i []) comma).getD a []

def storedField (i a : Nat) : CString := cstring (field csv i a) attributeSize

def FullRows : Prop := ∀ line ∈ csvLines csv, (strtok line comma).length = maxAttributes

def rowRecord (i : Nat) : Record :=
  (strtok ((csvLines csv).getD i []) comma).map (fun token => cstring token attributeSize)

def colRecord (fresh : Nat → Nat → List Byte) (a i : Nat) : Record :=
  loadColRecord (fresh i a) (field csv i a) i

end Table

variable {csv : List Byte} {fresh : Nat → Nat → List Byte}

theorem tokens_length (hfull : FullRows csv) {i : Nat} (hi : i < (csvLines csv).length) :
    (strtok ((csvLines csv).getD i []) comma).length = maxAttributes := by
  rw [List.getD_eq_getElem _ _ hi]
  exact hfull _ (List.getElem_mem hi)

section Text

theorem csvLines_text (rows : List (List (List Byte))) (h : ∀ fields ∈ rows, ∀ f ∈ fields, PlainField f)
    (hlen : ∀ fields ∈ rows, (lineText fields).length < maxLineLen) :
    csvLines (rows.map lineText).flatten = rows.map lineText := by
  refine fgetsLines_flatten (by decide) (fun line hline => ?_)
  obtain ⟨fields, hfields, rfl⟩ := List.mem_map.mp hline
  exact ⟨lineText_endsLine (h fields hfields), hlen fields hfields⟩

theorem fullRows_text (rows : List (List (List Byte))) (h : ∀ fields ∈ rows, ∀ f ∈ fields, PlainField f)
    (hlen : ∀ fields ∈ rows, (lineText fields).length < maxLineLen)
    (hcount : ∀ fields ∈ rows, fields.length = maxAttributes) :
    FullRows (rows.map lineText).flatten := by
  intro line hline
  rw [csvLines_text rows h hlen] at hline
  obtain ⟨fields, hfields, rfl⟩ := List.mem_map.mp hline
  have hpos := hcount fields hfields
  obtain rfl | ⟨init, last, rfl⟩ := fields.eq_nil_or_concat'
  · cases hpos
  · rw [strtok_lineText (h _ hfields), List.length_append, List.length_singleton]
    rwa [List.length_append, List.length_singleton] at hpos

end Text

section Rows

theorem loadLines_loaded (hz : Sizes P slotSize) (lines : List (List Byte)) {h : Heapfile P slotSize}
    {recs : List Record} (hl : Loaded h recs)
    (hlines : ∀ line ∈ lines, (strtok line comma).length = maxAttributes)
    (hb : ∀ n ≤ recs.length + lines.length, fileLength P (pageCount P slotSize n) < 2147483648) :
    ∃ h', loadLines h lines = .ok h' ∧ Loaded h' (recs ++ lines.map (fun line =>
      (strtok line comma).map (fun token => cstring token attributeSize))) := by
  induction lines generalizing h recs with
  | nil => exact ⟨h, rfl, by rwa [List.map_nil, List.append_nil]⟩
  | cons line lines ih =>
    have hlen : ((strtok line comma).map (fun token => cstring token attributeSize)).length = 100 := by
      rw [List.length_map]
      exact hlines line (List.mem_cons_self ..)
    obtain ⟨h1, hput, hl1⟩ := hl.put hz _ (hlen.trans (by decide)) (hb _ (by simp))
    obtain ⟨h', hload, hl'⟩ := ih hl1 (fun l hm => hlines l (List.mem_cons_of_mem _ hm))
      (fun n hn => hb n (by simp at hn ⊢; omega))
    refine ⟨h', ?_, by rwa [List.append_assoc] at hl'⟩
    rw [loadLines, loadCsvRecord]
    simp only [hlen, if_true, ok_bind, hput, hload]

theorem map_getD_range {α β : Type} (l : List α) (d : α) (f : α → β) :
    (List.range l.length).map (fun i => f (l.getD i d)) = l.map f := by
  apply List.ext_getElem
  · simp
  · intro i h1 h2
    rw [List.length_map] at h2
    rw [List.getElem_map, List.getElem_map, List.getElem_range, List.getD_eq_getElem _ _ h2]

theorem csv2heapfile_lines (hp : 1001 < P) (hP : P < 2147483648) (hfull : FullRows csv)
    (hb : ∀ n ≤ (csvLines csv).length, fileLength P (pageCount P slotSize n) < 2147483648) :
    ∃ bytes, csv2heapfile P csv = .ok bytes ∧ Saved P slotSize bytes ((csvLines csv).map (fun line =>
      (strtok line comma).map (fun token => cstring token attributeSize))) := by
  have hz : Sizes P slotSize := ⟨hp, by decide, by unfold slotSize; omega⟩
  obtain ⟨h, hcreate, hl⟩ := createHeapfile_loaded hz hP
  obtain ⟨h', hload, hl'⟩ := loadLines_loaded hz (csvLines csv) hl hfull (fun n hn => hb n (by simpa using hn))
  obtain ⟨bytes, hclose, hs⟩ := hl'.close hz
  refine ⟨bytes, ?_, hs⟩
  rw [csv2heapfile, if_pos (by omega), hcreate, ok_bind, hload, ok_bind, hclose]

theorem csv2heapfile_saved (hp : 1001 < P) (hfull : FullRows csv)
    (hfit : RoomFor P slotSize (csvLines csv).length) :
    ∃ bytes, csv2heapfile P csv = .ok bytes ∧
      Saved P slotSize bytes ((List.range (csvLines csv).length).map (rowRecord csv)) := by
  obtain ⟨bytes, hx, hs⟩ := csv2heapfile_lines hp hfit.size hfull (fun n hn => hfit.fileLength_lt hp hn)
  rw [← map_getD_range (csvLines csv) []] at hs
  exact ⟨bytes, hx, hs⟩

end Rows

section Columns

def Columns (heapfiles : List (Heapfile P S)) (col : Nat → List Record) : Prop :=
  ∀ (a : Nat) (h : Heapfile P S), heapfiles[a]? = some h → Loaded h (col a)

variable {heapfiles : List (Heapfile P S)} {col : Nat → List Record}

theorem Columns.set (hc : Columns heapfiles col) {k : Nat} {h : Heapfile P S} {recs : List Record}
    (hl : Loaded h recs) : Columns (heapfiles.set k h) (Function.update col k recs) := by
  intro a h' ha
  by_cases hak : a = k
  · subst hak
    have hlt := (List.getElem?_eq_some_iff.mp ha).1
    rw [List.length_set] at hlt
    rw [List.getElem?_set_self hlt] at ha
    rw [Function.update_self, ← Option.some.inj ha]
    exact hl
  · rw [List.getElem?_set_ne (Ne.symm hak)] at ha
    rw [Function.update_of_ne hak]
    exact hc a h' ha

theorem Columns.concat (hc : Columns heapfiles col) {h : Heapfile P S}
    (hl : Loaded h (col heapfiles.length)) : Columns (heapfiles ++ [h]) col := by
  intro a h' ha
  by_cases hlt : a < heapfiles.length
  · rw [List.getElem?_append_left hlt] at ha
    exact hc a h' ha
  · have hle := (List.getElem?_eq_some_iff.mp ha).1
    rw [List.length_append, List.length_singleton] at hle
    obtain rfl : a = heapfiles.length := by omega
    rw [List.getElem?_concat_length] at ha
    rwa [← Option.some.inj ha]

theorem of_cons_eq_drop {α : Type} {l xs : List α} {k : Nat} {x : α} (hd : x :: xs = l.drop k) :
    ∃ hk : k < l.length, x = l[k] ∧ xs = l.drop (k + 1) := by
  have hk : k < l.length := by
    refine Nat.lt_of_not_le (fun hle => ?_)
    rw [List.drop_eq_nil_of_le hle] at hd
    cases hd
  rw [List.drop_eq_getElem_cons hk] at hd
  exact ⟨hk, List.cons.inj hd⟩

/-- The columns with an entry more in those from `k` to `n`. -/
def addEntries (k n : Nat) (entry : Nat → Record) (col : Nat → List Record) (a : Nat) : List Record :=
  if k ≤ a ∧ a < n then col a ++ [entry a] else col a

theorem addEntries_end {k n : Nat} (hk : n ≤ k) (entry : Nat → Record) (col : Nat → List Record) :
    addEntries k n entry col = col := by
  funext a
  exact if_neg (by omega)

theorem addEntries_step {k n : Nat} (hk : k < n) (entry : Nat → Record) (col : Nat → List Record) :
    addEntries k n entry col = addEntries (k + 1) n entry (Function.update col k (col k ++ [entry k])) := by
  funext a
  rw [addEntries, addEntries]
  by_cases hak : a = k
  · subst hak
    rw [if_pos ⟨le_rfl, hk⟩, if_neg (by omega), Function.update_self]
  · rw [Function.update_of_ne hak]
    exact if_congr (by omega) rfl rfl

theorem putColumns_columns (hz : Sizes P S) (hS : S / attributeSize = 2) (row : Nat → List Byte)
    (tupleId : Nat) {n : Nat} (hb : fileLength P (pageCount P S (n + 1)) < 2147483648)
    (all tokens : List (List Byte)) :
    ∀ (k : Nat) (heapfiles : List (Heapfile P S)) (col : Nat → List Record), tokens = all.drop k →
      heapfiles.length = all.length → Columns heapfiles col → (∀ a ≥ k, (col a).length = n) →
      ∃ heapfiles', putColumns row tupleId k heapfiles tokens = .ok heapfiles' ∧
        heapfiles'.length = all.length ∧ Columns heapfiles' (addEntries k all.length
          (fun a => loadColRecord (row a) (all.getD a []) tupleId) col) := by
  induction tokens with
  | nil =>
    intro k heapfiles col hd hlen hc _
    have hk := List.drop_eq_nil_iff.mp hd.symm
    exact ⟨heapfiles, rfl, hlen, by rwa [addEntries_end hk]⟩
  | cons token tokens ih =>
    intro k heapfiles col hd hlen hc hn
    obtain ⟨hk, htoken, htokens⟩ := of_cons_eq_drop hd
    have hget := List.getElem?_eq_getElem (l := heapfiles) (show k < heapfiles.length by omega)
    obtain ⟨h1, hput, hl1⟩ := (hc k _ hget).put hz (loadColRecord (row k) token tupleId)
      hS.symm (by rwa [hn k le_rfl])
    obtain ⟨heapfiles', hrest, hlen', hc'⟩ := ih (k + 1) (heapfiles.set k h1) _ htokens
      (by rwa [List.length_set]) (hc.set hl1)
      (fun a ha => by rw [Function.update_of_ne (by omega)]; exact hn a (by omega))
    refine ⟨heapfiles', ?_, hlen', ?_⟩
    · simp only [putColumns, hget, hput, ok_bind, hrest]
    · rw [addEntries_step hk, List.getD_eq_getElem _ _ hk, ← htoken]
      exact hc'

theorem createColumns_columns (hz : Sizes P columnSlotSize) (hP : P < 2147483648)
    (row : Nat → List Byte) (hb : fileLength P (pageCount P columnSlotSize 1) < 2147483648)
    (all tokens : List (List Byte)) (hall : all.length ≤ maxAttributes) :
    ∀ heapfiles : List (Heapfile P columnSlotSize), tokens = all.drop heapfiles.length →
      heapfiles.length ≤ all.length →
      Columns heapfiles (fun a => [loadColRecord (row a) (all.getD a []) 0]) →
      ∃ heapfiles', createColumns row heapfiles tokens = .ok heapfiles' ∧
        heapfiles'.length = all.length ∧
        Columns heapfiles' (fun a => [loadColRecord (row a) (all.getD a []) 0]) := by
  induction tokens with
  | nil =>
    intro heapfiles hd hle hc
    have hge := List.drop_eq_nil_iff.mp hd.symm
    exact ⟨heapfiles, rfl, by omega, hc⟩
  | cons token tokens ih =>
    intro heapfiles hd hle hc
    obtain ⟨hk, htoken, htokens⟩ := of_cons_eq_drop hd
    obtain ⟨h0, hcreate, hl0⟩ := createHeapfile_loaded hz hP
    obtain ⟨h1, hput, hl1⟩ := hl0.put hz (loadColRecord (row heapfiles.length) token 0)
      (show 2 = columnSlotSize / attributeSize by decide) hb
    have hentry : [] ++ [loadColRecord (row heapfiles.length) token 0] =
        [loadColRecord (row heapfiles.length) (all.getD heapfiles.length []) 0] := by
      rw [List.getD_eq_getElem _ _ hk, htoken]
      rfl
    rw [hentry] at hl1
    obtain ⟨heapfiles', hrest, hlen, hc'⟩ := ih (heapfiles ++ [h1]) (by simpa using htokens)
      (by simpa using hk) (hc.concat hl1)
    refine ⟨heapfiles', ?_, hlen, hc'⟩
    rw [createColumns, if_pos (by omega), hcreate, ok_bind, hput, ok_bind, hrest]

theorem loadColumns_columns (hz : Sizes P columnSlotSize) (hfull : FullRows csv)
    (hb : ∀ n ≤ (csvLines csv).length, fileLength P (pageCount P columnSlotSize n) < 2147483648)
    (lines : List (List Byte)) :
    ∀ (k : Nat) (heapfiles : List (Heapfile P columnSlotSize)), lines = (csvLines csv).drop k →
      k ≤ (csvLines csv).length → heapfiles.length = maxAttributes →
      Columns heapfiles (fun a => (List.range k).map (colRecord csv fresh a)) →
      ∃ heapfiles', loadColumns fresh k heapfiles lines = .ok heapfiles' ∧
        heapfiles'.length = maxAttributes ∧
        Columns heapfiles' (fun a => (List.range (csvLines csv).length).map (colRecord csv fresh a)) := by
  induction lines with
  | nil =>
    intro k heapfiles hd hk hlen hc
    have hge := List.drop_eq_nil_iff.mp hd.symm
    obtain rfl : k = (csvLines csv).length := by omega
    exact ⟨heapfiles, rfl, hlen, hc⟩
  | cons line lines ih =>
    intro k heapfiles hd hk hlen hc
    obtain ⟨hlt, hline, hlines⟩ := of_cons_eq_drop hd
    have htokens := tokens_length hfull hlt
    rw [List.getD_eq_getElem _ _ hlt, ← hline] at htokens
    obtain ⟨heapfiles1, hput, hlen1, hc1⟩ := putColumns_columns (n := k) hz (by decide)
      (fresh k) k (hb (k + 1) hlt) (strtok line comma) _ 0 heapfiles _ List.drop_zero.symm
      (hlen.trans htokens.symm) hc
      (fun a _ => by rw [List.length_map, List.length_range])
    have hcol : Columns heapfiles1 (fun a => (List.range (k + 1)).map (colRecord csv fresh a)) := by
      intro a h ha
      have hacol := (List.getElem?_eq_some_iff.mp ha).1
      have hh := hc1 a h ha
      rw [addEntries, if_pos ⟨Nat.zero_le _, by omega⟩] at hh
      have hentry : colRecord csv fresh a k = loadColRecord (fresh k a) ((strtok line comma).getD a []) k := by
        rw [colRecord, field, List.getD_eq_getElem _ _ hlt, ← hline]
      change Loaded h ((List.range (k + 1)).map (colRecord csv fresh a))
      rw [List.range_succ, List.map_append, List.map_singleton, hentry]
      exact hh
    obtain ⟨heapfiles', hrest, hlen', hc'⟩ := ih (k + 1) heapfiles1 hlines hlt (hlen1.trans htokens) hcol
    exact ⟨heapfiles', by rw [loadColumns, hput, ok_bind, hrest], hlen', hc'⟩

theorem closeColumns_saved (hz : Sizes P S) (col : Nat → List Record) (hc : Columns heapfiles col) :
    ∃ files, closeColumns heapfiles = .ok files ∧ files.length = heapfiles.length ∧
      ∀ (a : Nat) (bytes : List Byte), files[a]? = some bytes → Saved P S bytes (col a) := by
  induction heapfiles generalizing col with
  | nil => exact ⟨[], rfl, rfl, fun a bytes ha => by simp at ha⟩
  | cons h heapfiles ih =>
    obtain ⟨bytes, hclose, hs⟩ := (hc 0 h rfl).close hz
    obtain ⟨files, hrest, hlen, hfiles⟩ := ih (fun a => col (a + 1)) (fun a => hc (a + 1))
    refine ⟨bytes :: files, ?_, congrArg (· + 1) hlen, ?_⟩
    · rw [closeColumns, hclose, ok_bind, hrest, ok_bind]
    · intro a bytes' ha
      cases a with
      | zero =>
        rw [← Option.some.inj ha]
        exact hs
      | succ a => exact hfiles a bytes' ha

/-- The column store has, for each of its 100 columns, the entries in the order of the lines. -/
theorem csv2colstore_saved (hp : 1001 < P) (fresh : Nat → Nat → List Byte) (hne : csvLines csv ≠ [])
    (hfull : FullRows csv) (hfit : RoomFor P columnSlotSize (csvLines csv).length) :
    ∃ colstore, csv2colstore P fresh csv = .ok colstore ∧ colstore.length = maxAttributes ∧
      ∀ a < maxAttributes, ∃ bytes, columnFile colstore a = .ok bytes ∧
        Saved P columnSlotSize bytes ((List.range (csvLines csv).length).map (colRecord csv fresh a)) := by
  have hz : Sizes P columnSlotSize := ⟨hp, by decide, by unfold columnSlotSize; omega⟩
  have hb := fun n hn => hfit.fileLength_lt (m := n) hp hn
  obtain ⟨line, lines, hcons⟩ := List.exists_cons_of_ne_nil hne
  have hpos : 0 < (csvLines csv).length := List.length_pos_of_ne_nil hne
  have hline : (csvLines csv).getD 0 [] = line := by rw [hcons]; rfl
  have htokens := tokens_length hfull hpos
  rw [hline] at htokens
  obtain ⟨heapfiles0, hcreate, hlen0, hc0⟩ := createColumns_columns hz hfit.size (fresh 0) (hb 1 hpos)
    (strtok line comma) _ htokens.le [] List.drop_zero.symm (Nat.zero_le _) (fun a h ha => by simp at ha)
  have hcol : Columns heapfiles0 (fun a => (List.range 1).map (colRecord csv fresh a)) := by
    intro a h ha
    have hh := hc0 a h ha
    change Loaded h [loadColRecord (fresh 0 a) (field csv 0 a) 0]
    rw [field, hline]
    exact hh
  obtain ⟨heapfiles, hload, hlen, hc⟩ := loadColumns_columns hz hfull hb lines 1 heapfiles0
    (by rw [hcons]; rfl) hpos (hlen0.trans htokens) hcol
  obtain ⟨files, hclose, hflen, hfiles⟩ := closeColumns_saved hz _ hc
  refine ⟨files, ?_, hflen.trans hlen, ?_⟩
  · rw [csv2colstore, if_pos (by omega), hcons]
    simp only [hcreate, ok_bind, hload, if_pos hlen, hclose]
  · intro a ha
    have hget := List.getElem?_eq_getElem (l := files) (show a < files.length by omega)
    exact ⟨files[a], by rw [columnFile, hget], hfiles a _ hget⟩

end Columns

end RecordStore.ColumnLoad
