import RecordStore.ColumnLoad
import RecordStore.Reopening

namespace RecordStore.ColumnSelect

open RecordStore.CFile RecordStore.CText RecordStore.Outcome RecordStore.FixedRecord RecordStore.HeapFile
open RecordStore.HeapImage RecordStore.HeapRuns RecordStore.CsvPrograms RecordStore.RecordIterator
open RecordStore.ColumnStore RecordStore.PackedScan RecordStore.ColumnLoad

variable {P S : Nat} {csv : List Byte} {fresh : Nat → Nat → List Byte} {start stop : CString}

section Table

variable (csv : List Byte) (a : Nat) (start stop : CString)

def matched : List Nat :=
  (List.range (csvLines csv).length).filter (fun i => inRange start stop (storedField csv i a))

def selected : List (List Byte) := (matched csv a start stop).map (fun i => (storedField csv i a).bytes.take 5)

end Table

theorem stored_rowRecord (csv : List Byte) (i : Nat) : stored (rowRecord csv i) = rowRecord csv i := by
  rw [stored, rowRecord, List.map_map]
  apply List.map_congr_left
  intro token _
  exact cstring_truncate token attributeSize

theorem rowRecord_getElem? (hfull : FullRows csv) {i a : Nat} (hi : i < (csvLines csv).length)
    (ha : a < maxAttributes) : (stored (rowRecord csv i))[a]? = some (storedField csv i a) := by
  have hlt : a < (strtok ((csvLines csv).getD i []) comma).length := by rwa [tokens_length hfull hi]
  rw [stored_rowRecord, rowRecord, List.getElem?_map, List.getElem?_eq_getElem hlt, storedField, field,
    List.getD_eq_getElem _ _ hlt]
  rfl

theorem stored_colRecord (csv : List Byte) (fresh : Nat → Nat → List Byte) (a i : Nat) :
    stored (colRecord csv fresh a i) = [cstring (fresh i a) attributeSize, storedField csv i a] := by
  rw [stored, colRecord, loadColRecord, List.map_cons, List.map_singleton, cstring_truncate,
    cstring_truncate, storedField]

theorem attributeAt_append {record : Record} {i : Nat} {v : CString} (hv : record[i]? = some v)
    (tail : Record) : attributeAt (record ++ tail) i = .ok v := by
  rw [attributeAt, List.getElem?_append_left (List.getElem?_eq_some_iff.mp hv).1, hv]

section Loop

variable {I : Heapfile P S → Prop} {column : Nat} {record : Nat → Record} {v : Nat → CString}

theorem selectLoop_delivers (start stop : CString) (rows : List Nat)
    (hv : ∀ i ∈ rows, (record i)[column]? = some (v i)) :
    ∀ (beyond : Nat → Nat → Byte) (fuel : Nat) (it : Iterator P S), Delivers I (rows.map record) it →
      rows.length < fuel →
      ∃ it', selectLoop column start stop beyond fuel it =
        .ok ((rows.filter (fun i => inRange start stop (v i))).map (fun i => (v i).bytes.take 5), it') ∧
        I it'.heapfile := by
  apply Delivers.loop
  · intro beyond fuel it hdone
    rw [selectLoop, hdone]
    rfl
  · intro i hi rest beyond fuel it it1 it' tail hnext hx hrest
    left
    have hat := attributeAt_append (hv i hi) tail
    rw [selectLoop, hnext, if_pos rfl, hx, ok_bind, List.filter_cons]
    simp only [hat, ok_bind, hrest]
    split <;> rfl

theorem selectFrom_saved (hz : Sizes P S) (hw : S / attributeSize ≤ 100) {n : Nat} (hfit : RoomFor P S n)
    {bytes : List Byte} (hs : Saved P S bytes ((List.range n).map record))
    (hv : ∀ i < n, (stored (record i))[column]? = some (v i)) (beyond : Nat → Nat → Byte) {fuel : Nat}
    (hfuel : n < fuel) :
    selectFrom P S true beyond fuel bytes column start stop =
      .ok (((List.range n).filter (fun i => inRange start stop (v i))).map (fun i => (v i).bytes.take 5)) := by
  obtain ⟨h, hopen, hl⟩ := hs.reopened hz hfit.size
  obtain ⟨it, hnew, hd⟩ := hl.delivers hz hw (by simpa using hfit.room)
  rw [List.map_map] at hd
  obtain ⟨it', hloop, hl'⟩ := selectLoop_delivers start stop (List.range n)
    (fun i hi => hv i (List.mem_range.mp hi)) beyond fuel it hd (by simpa using hfuel)
  obtain ⟨bytes', hclose, -⟩ := hl'.close hz
  rw [selectFrom, hopen, ok_bind, hnew, ok_bind, hloop, ok_bind]
  simp only [hclose, ok_bind]

end Loop

/-- Selection by a column gives the same lines from the heap file of the rows and from the column
store: the first five bytes of the values in range, in the order of the rows. -/
theorem select_eq_select2 (hp : 1001 < P) (fresh : Nat → Nat → List Byte) (hne : csvLines csv ≠ [])
    (hfull : FullRows csv) (hrows : RoomFor P slotSize (csvLines csv).length)
    (hcols : RoomFor P columnSlotSize (csvLines csv).length) {a : Nat} (ha : a < 100)
    (start stop : CString) :
    ∃ heapfile colstore, csv2heapfile P csv = .ok heapfile ∧ csv2colstore P fresh csv = .ok colstore ∧
      ∃ fuel0, ∀ fuel ≥ fuel0, ∀ beyond beyond' : Nat → Nat → Byte,
        select P true beyond fuel heapfile a start stop = .ok (selected csv a start stop) ∧
        select2 P true beyond' fuel colstore a start stop = .ok (selected csv a start stop) := by
  have hzrow : Sizes P slotSize := ⟨hp, by decide, by unfold slotSize; omega⟩
  have hzcol : Sizes P columnSlotSize := ⟨hp, by decide, by unfold columnSlotSize; omega⟩
  obtain ⟨heapfile, hheap, hsheap⟩ := csv2heapfile_saved hp hfull hrows
  obtain ⟨colstore, hcol, -, hcolumn⟩ := csv2colstore_saved hp fresh hne hfull hcols
  obtain ⟨bytes, hfile, hsfile⟩ := hcolumn a ha
  refine ⟨heapfile, colstore, hheap, hcol, (csvLines csv).length + 1, ?_⟩
  intro fuel hfuel beyond beyond'
  have hguard : 0 < P ∧ (0 : Int) ≤ a := ⟨by omega, Int.natCast_nonneg a⟩
  constructor
  · rw [select, if_pos hguard, Int.toNat_natCast]
    exact selectFrom_saved hzrow (by decide) hrows hsheap
      (fun i hi => rowRecord_getElem? hfull hi ha) beyond hfuel
  · rw [select2, if_pos hguard, Int.toNat_natCast, hfile, ok_bind]
    exact selectFrom_saved hzcol (by decide) hcols hsfile
      (fun i _ => by rw [stored_colRecord]; rfl) beyond' hfuel

def letterText : List Byte := lineText (List.replicate 99 [97] ++ [[97]])

theorem letterFields_plain : ∀ f ∈ List.replicate 99 [(97 : Byte)] ++ [[97]], PlainField f := by
  intro f hf
  obtain rfl : f = [97] := by simpa using hf
  exact ⟨by simp, by decide, by decide, by decide⟩

theorem csvLines_letterText : csvLines letterText = [letterText] := by
  have hlines := csvLines_text [List.replicate 99 [(97 : Byte)] ++ [[97]]]
    (by simpa using letterFields_plain) (by decide +kernel)
  simpa [letterText] using hlines

theorem fullRows_letterText : FullRows letterText := by
  have hfull := fullRows_text [List.replicate 99 [(97 : Byte)] ++ [[97]]]
    (by simpa using letterFields_plain) (by decide +kernel) (by decide)
  simpa [letterText] using hfull

theorem roomFor_letterText : RoomFor 1002 slotSize (csvLines letterText).length ∧
    RoomFor 1002 columnSlotSize (csvLines letterText).length := by
  rw [csvLines_letterText]
  exact ⟨⟨by decide, by decide⟩, ⟨by decide, by decide⟩⟩

def threeRows : List (List (List Byte)) :=
  [[97, 98, 99, 100, 101, 102], [97, 98, 99, 100, 101, 120], [98]].map fun f => f :: List.replicate 99 [97]

def rowsText : List Byte := (threeRows.map lineText).flatten

theorem threeRows_plain : ∀ fields ∈ threeRows, ∀ f ∈ fields, PlainField f := by
  have hletters : ∀ fields ∈ threeRows, ∀ f ∈ fields, f ≠ [] ∧ (0 : Byte) ∉ f ∧ comma ∉ f ∧ newline ∉ f := by decide
  intro fields hfields f hf
  obtain ⟨hne, hnul, hcomma, hnewline⟩ := hletters fields hfields f hf
  exact ⟨hne, hnul, hcomma, hnewline⟩

theorem csvLines_rowsText : csvLines rowsText = threeRows.map lineText :=
  csvLines_text threeRows threeRows_plain (by decide +kernel)

theorem fullRows_rowsText : FullRows rowsText :=
  fullRows_text threeRows threeRows_plain (by decide +kernel) (by decide)

theorem roomFor_rowsText : RoomFor 1002 slotSize (csvLines rowsText).length ∧
    RoomFor 1002 columnSlotSize (csvLines rowsText).length := by
  rw [csvLines_rowsText]
  exact ⟨⟨by decide, by decide⟩, ⟨by decide, by decide⟩⟩

def wordStop : CString := ⟨[97, 122], by decide⟩

/-- The words from `a` to `az`. -/
theorem select_eq_select2_letters : ∃ heapfile colstore,
    csv2heapfile 1002 rowsText = .ok heapfile ∧
    csv2colstore 1002 (fun _ _ => []) rowsText = .ok colstore ∧
    ∃ fuel0, ∀ fuel ≥ fuel0, ∀ beyond beyond' : Nat → Nat → Byte,
      select 1002 true beyond fuel heapfile (0 : Nat) letterAttribute wordStop =
        .ok [[97, 98, 99, 100, 101], [97, 98, 99, 100, 101]] ∧
      select2 1002 true beyond' fuel colstore (0 : Nat) letterAttribute wordStop =
        .ok [[97, 98, 99, 100, 101], [97, 98, 99, 100, 101]] := by
  have hselected : selected rowsText 0 letterAttribute wordStop =
      [[97, 98, 99, 100, 101], [97, 98, 99, 100, 101]] := by decide +kernel
  have hagree := select_eq_select2 (by decide : 1001 < 1002) (fun _ _ => []) (by simp [csvLines_rowsText, threeRows])
    fullRows_rowsText roomFor_rowsText.1 roomFor_rowsText.2 (by decide : 0 < 100) letterAttribute wordStop
  rwa [hselected] at hagree

end RecordStore.ColumnSelect
