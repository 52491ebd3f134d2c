import RecordStore.ColumnSelect

namespace RecordStore.TupleJoin

open RecordStore.CFile RecordStore.CText RecordStore.CStrings RecordStore.Int32 RecordStore.Outcome
open RecordStore.FixedRecord RecordStore.HeapFile RecordStore.HeapImage RecordStore.HeapRuns RecordStore.CsvPrograms
open RecordStore.RecordIterator RecordStore.ColumnStore RecordStore.PackedScan RecordStore.ColumnLoad
open RecordStore.ColumnSelect

variable {P S : Nat} {csv : List Byte} {fresh : Nat → Nat → List Byte} {a b : Nat} {start stop : CString}

section Table

variable (csv : List Byte) (fresh : Nat → Nat → List Byte) (a b : Nat) (start stop : CString)

def tupleNumber (i : Nat) : Int := toInt32 (atoi (cstring (fresh i a) attributeSize).bytes)

def lookup (id : Int) : Option Nat :=
  (List.range (csvLines csv).length).find? (fun j => id = tupleNumber fresh b j)

/-- The lines that come of the ids in the two columns. -/
def joined : List (List Byte) :=
  (matched csv a start stop).filterMap
    (fun i => (lookup csv fresh b (tupleNumber fresh a i)).map (fun j => (storedField csv j b).bytes.take 5))

/-- The lines a projection is to print: column `b` of the rows that match in column `a`. -/
def projected : List (List Byte) :=
  (matched csv a start stop).map (fun i => (storedField csv i b).bytes.take 5)

def Projects (P : Nat) : Prop :=
  ∃ colstore, csv2colstore P fresh csv = .ok colstore ∧
    ∃ fuel0, ∀ fuel ≥ fuel0, ∀ beyond : Nat → Nat → Nat → Byte,
      select3 P true beyond fuel colstore a b start stop = .ok (projected csv a b start stop)

end Table

section Loops

variable {I : Heapfile P S → Prop} {record : Nat → Record} {tupId v : Nat → CString}

theorem collectLoop_delivers (start stop : CString) (rows : List Nat) (hr : ∀ i ∈ rows, record i = [tupId i, v i]) :
    ∀ (beyond : Nat → Nat → Byte) (fuel : Nat) (it : Iterator P S), Delivers I (rows.map record) it →
      rows.length < fuel →
      ∃ it', collectLoop start stop beyond fuel it =
        .ok ((rows.filter (fun i => inRange start stop (v i))).map (fun i => toInt32 (atoi (tupId i).bytes)), it') ∧
        I it'.heapfile := by
  apply Delivers.loop
  · intro beyond fuel it hdone
    rw [collectLoop, hdone]
    rfl
  · intro i hi rest beyond fuel it it1 it' tail hnext hx hrest
    left
    have hid : attributeAt (record i ++ tail) 0 = .ok (tupId i) := by rw [hr i hi]; rfl
    have hat : attributeAt (record i ++ tail) 1 = .ok (v i) := by rw [hr i hi]; rfl
    rw [collectLoop, hnext, if_pos rfl, hx, ok_bind, List.filter_cons]
    simp only [hid, hat, ok_bind, hrest]
    split <;> rfl

theorem findLoop_delivers (id : Int) (rows : List Nat) (hr : ∀ i ∈ rows, record i = [tupId i, v i]) :
    ∀ (beyond : Nat → Nat → Byte) (fuel : Nat) (it : Iterator P S), Delivers I (rows.map record) it →
      rows.length < fuel →
      ∃ it', findLoop id beyond fuel it =
        .ok (((rows.find? (fun i => id = toInt32 (atoi (tupId i).bytes))).map
          (fun i => (v i).bytes.take 5)).toList, it') ∧ I it'.heapfile := by
  apply Delivers.loop
  · intro beyond fuel it hdone
    rw [findLoop, hdone]
    rfl
  · intro i hi rest beyond fuel it it1 it' tail hnext hx hrest
    have hid : attributeAt (record i ++ tail) 0 = .ok (tupId i) := by rw [hr i hi]; rfl
    have hat : attributeAt (record i ++ tail) 1 = .ok (v i) := by rw [hr i hi]; rfl
    rw [findLoop, hnext, if_pos rfl, hx, ok_bind, List.find?_cons]
    simp only [hid, hat, ok_bind, hrest]
    by_cases heq : id = toInt32 (atoi (tupId i).bytes)
    · right
      rw [if_pos heq, decide_eq_true heq]
      rfl
    · left
      rw [if_neg heq, decide_eq_false heq]

end Loops

section Store

def Column (csv : List Byte) (fresh : Nat → Nat → List Byte) (a : Nat) (h : Heapfile P columnSlotSize) : Prop :=
  Loaded h ((List.range (csvLines csv).length).map (colRecord csv fresh a))

theorem column_delivers (hz : Sizes P columnSlotSize) (hfit : RoomFor P columnSlotSize (csvLines csv).length)
    {h : Heapfile P columnSlotSize} (hl : Column csv fresh a h) :
    ∃ it, Iterator.new true h = .ok it ∧ Delivers (Column csv fresh a)
      ((List.range (csvLines csv).length).map (fun i => stored (colRecord csv fresh a i))) it := by
  obtain ⟨it, hnew, hd⟩ := Loaded.delivers hz (by decide) (by simpa using hfit.room) hl
  rw [List.map_map] at hd
  exact ⟨it, hnew, hd⟩

theorem joinLoop_column (hz : Sizes P columnSlotSize) (hfit : RoomFor P columnSlotSize (csvLines csv).length)
    {fuel : Nat} (hfuel : (csvLines csv).length < fuel) (ids : List Int) :
    ∀ (beyond : Nat → Nat → Nat → Byte) (h : Heapfile P columnSlotSize), Column csv fresh b h →
      ∃ h', joinLoop true fuel beyond h ids = .ok (ids.filterMap
        (fun id => (lookup csv fresh b id).map (fun j => (storedField csv j b).bytes.take 5)), h') ∧
        Column csv fresh b h' := by
  induction ids with
  | nil => exact fun beyond h hl => ⟨h, rfl, hl⟩
  | cons id ids ih =>
    intro beyond h hl
    obtain ⟨it, hnew, hd⟩ := column_delivers hz hfit hl
    obtain ⟨it', hfind, hl'⟩ := findLoop_delivers id _ (fun i _ => stored_colRecord csv fresh b i) (beyond 0)
      fuel it hd (by simpa using hfuel)
    obtain ⟨h', hrest, hl''⟩ := ih (fun k => beyond (k + 1)) it'.heapfile hl'
    refine ⟨h', ?_, hl''⟩
    rw [joinLoop, hnew, ok_bind, hfind, ok_bind]
    simp only [hrest, ok_bind, List.filterMap_cons]
    change Except.ok (((lookup csv fresh b id).map (fun j => (storedField csv j b).bytes.take 5)).toList ++ _, _) = _
    cases lookup csv fresh b id <;> rfl

theorem select3_joined (hp : 1001 < P) (fresh : Nat → Nat → List Byte) (hne : csvLines csv ≠ [])
    (hfull : FullRows csv) (hfit : RoomFor P columnSlotSize (csvLines csv).length) (ha : a < maxAttributes)
    (hb : b < maxAttributes) (start stop : CString) :
    ∃ colstore, csv2colstore P fresh csv = .ok colstore ∧
      ∀ fuel > (csvLines csv).length, ∀ beyond : Nat → Nat → Nat → Byte,
        select3 P true beyond fuel colstore a b start stop = .ok (joined csv fresh a b start stop) := by
  have hz : Sizes P columnSlotSize := ⟨hp, by decide, by unfold columnSlotSize; omega⟩
  obtain ⟨colstore, hcol, hlen, hcolumn⟩ := csv2colstore_saved hp fresh hne hfull hfit
  refine ⟨colstore, hcol, fun fuel hfuel beyond => ?_⟩
  obtain ⟨bytesA, hfileA, hsA⟩ := hcolumn a ha
  obtain ⟨hA, hopenA, hlA⟩ := hsA.reopened hz hfit.size
  obtain ⟨it, hnew, hd⟩ := column_delivers hz hfit hlA
  obtain ⟨it', hcollect, hlA'⟩ := collectLoop_delivers start stop _
    (fun i _ => stored_colRecord csv fresh a i) (beyond 0) fuel it hd (by simpa using hfuel)
  obtain ⟨bytesA', hclose, hsA'⟩ := Loaded.close hz hlA'
  obtain ⟨bytesB, hfileB, hsB⟩ : ∃ bytes, columnFile (colstore.set a bytesA') b = .ok bytes ∧
      Saved P columnSlotSize bytes ((List.range (csvLines csv).length).map (colRecord csv fresh b)) := by
    by_cases hab : a = b
    · subst hab
      exact ⟨bytesA', by rw [columnFile, List.getElem?_set_self (hlen.symm ▸ ha)], hsA'⟩
    · obtain ⟨bytesB, hfileB, hsB⟩ := hcolumn b hb
      refine ⟨bytesB, ?_, hsB⟩
      rw [columnFile, List.getElem?_set_ne hab]
      exact hfileB
  obtain ⟨hB, hopenB, hlB⟩ := hsB.reopened hz hfit.size
  obtain ⟨hB', hjoin, hlB'⟩ := joinLoop_column hz hfit hfuel
    ((matched csv a start stop).map (tupleNumber fresh a)) (fun k => beyond (k + 1)) hB hlB
  obtain ⟨bytesB', hcloseB, -⟩ := Loaded.close hz hlB'
  have hguard : 0 < P ∧ (0 : Int) ≤ a ∧ (0 : Int) ≤ b :=
    ⟨by omega, Int.natCast_nonneg a, Int.natCast_nonneg b⟩
  rw [select3, if_pos hguard, Int.toNat_natCast, Int.toNat_natCast, hfileA, ok_bind, hopenA, ok_bind, hnew,
    ok_bind, hcollect, ok_bind]
  simp only [hclose, ok_bind, hfileB, hopenB]
  change (joinLoop true fuel (fun k => beyond (k + 1)) hB
    ((matched csv a start stop).map (tupleNumber fresh a)) >>= _) = _
  rw [hjoin, ok_bind]
  simp only [hcloseB, ok_bind, List.filterMap_map]
  rfl

end Store

theorem filterMap_eq_map_iff {α β : Type} {l : List α} {f : α → Option β} {g : α → β} :
    l.filterMap f = l.map g ↔ ∀ x ∈ l, f x = some (g x) := by
  induction l with
  | nil => simp
  | cons x l ih =>
    rw [List.filterMap_cons, List.map_cons, List.forall_mem_cons, ← ih]
    cases hx : f x with
    | none =>
      simp only [reduceCtorEq, false_and, iff_false]
      intro heq
      have hlen := congrArg List.length heq
      have hle := List.length_filterMap_le f l
      rw [List.length_cons, List.length_map] at hlen
      omega
    | some y => simp only [List.cons.injEq, Option.some.injEq]

/-- The ids lead from every match to a row with the value of the match. -/
def LeadsBack (csv : List Byte) (fresh : Nat → Nat → List Byte) (a b : Nat) (start stop : CString) : Prop :=
  ∀ i ∈ matched csv a start stop, ∃ j, lookup csv fresh b (tupleNumber fresh a i) = some j ∧
    (storedField csv j b).bytes.take 5 = (storedField csv i b).bytes.take 5

theorem joined_eq_projected_iff :
    joined csv fresh a b start stop = projected csv a b start stop ↔ LeadsBack csv fresh a b start stop := by
  rw [joined, projected, filterMap_eq_map_iff]
  simp only [Option.map_eq_some_iff, LeadsBack]

theorem lookup_eq_some_iff {id : Int} {j : Nat} :
    lookup csv fresh b id = some j ↔ id = tupleNumber fresh b j ∧ j < (csvLines csv).length ∧
      ∀ k < j, id ≠ tupleNumber fresh b k := by
  rw [lookup, List.find?_range_eq_some]
  simp

theorem projects_iff (hp : 1001 < P) (hne : csvLines csv ≠ []) (hfull : FullRows csv)
    (hfit : RoomFor P columnSlotSize (csvLines csv).length) (ha : a < maxAttributes) (hb : b < maxAttributes) :
    Projects csv fresh a b start stop P ↔ LeadsBack csv fresh a b start stop := by
  obtain ⟨colstore, hcol, hprint⟩ := select3_joined hp fresh hne hfull hfit ha hb start stop
  rw [← joined_eq_projected_iff]
  constructor
  · rintro ⟨colstore', hcol', fuel0, hproj⟩
    obtain rfl : colstore = colstore' := Except.ok.inj (hcol.symm.trans hcol')
    have hout := hproj (fuel0 + (csvLines csv).length + 1) (by omega) (fun _ _ _ => 0)
    rw [hprint _ (by omega)] at hout
    exact Except.ok.inj hout
  · intro heq
    refine ⟨colstore, hcol, (csvLines csv).length + 1, fun fuel hfuel beyond => ?_⟩
    rw [hprint fuel hfuel beyond, heq]

section Memory

def oneOrTwo (p : Nat → Nat → Bool) (i a : Nat) : List Byte := if p i a then [49] else [50]

theorem tupleNumber_oneOrTwo (p : Nat → Nat → Bool) (a i : Nat) :
    tupleNumber (oneOrTwo p) a i = if p i a then 1 else 2 := by
  rw [tupleNumber, oneOrTwo]
  split <;> decide +kernel

theorem not_leadsBack_of_ne (hab : a ≠ b) {i : Nat} (hi : i ∈ matched csv a start stop) :
    ¬ LeadsBack csv (oneOrTwo (fun _ c => decide (c = a))) a b start stop := by
  intro hl
  obtain ⟨j, hj, -⟩ := hl i hi
  have hid := (lookup_eq_some_iff.mp hj).1
  rw [tupleNumber_oneOrTwo, tupleNumber_oneOrTwo, decide_eq_true rfl,
    decide_eq_false (Ne.symm hab)] at hid
  exact absurd hid (by decide)

theorem same_value (hl : ∀ fresh, LeadsBack csv fresh a a start stop) {i j : Nat}
    (hi : i ∈ matched csv a start stop) (hlt : j < i) :
    (storedField csv j a).bytes.take 5 = (storedField csv i a).bytes.take 5 := by
  obtain ⟨k, hk, hsub⟩ := hl (oneOrTwo (fun r _ => decide (r = i ∨ r = j))) i hi
  obtain ⟨hid, -, hfirst⟩ := lookup_eq_some_iff.mp hk
  rw [tupleNumber_oneOrTwo, decide_eq_true (.inl rfl), if_pos rfl] at hid hfirst
  have hkj : k = j := by
    by_cases hmem : k = i ∨ k = j
    · refine hmem.resolve_left (fun hki => hfirst j (hki ▸ hlt) ?_)
      rw [tupleNumber_oneOrTwo, decide_eq_true (.inr rfl), if_pos rfl]
    · rw [tupleNumber_oneOrTwo, decide_eq_false hmem] at hid
      exact absurd hid (by decide)
  rw [← hkj]
  exact hsub

/-- In the column itself a match leads to the first row with its id, which is no later. -/
theorem leadsBack_of_same (h : ∀ i ∈ matched csv a start stop,
    a = b ∧ ∀ j < i, (storedField csv j a).bytes.take 5 = (storedField csv i a).bytes.take 5)
    (fresh : Nat → Nat → List Byte) : LeadsBack csv fresh a b start stop := by
  intro i hi
  obtain ⟨rfl, hbefore⟩ := h i hi
  have hn := List.mem_range.mp (List.mem_filter.mp hi).1
  cases hk : lookup csv fresh a (tupleNumber fresh a i) with
  | none =>
    have hnone := List.find?_range_eq_none.mp hk i hn
    simp at hnone
  | some k =>
    refine ⟨k, rfl, ?_⟩
    have hle : k ≤ i := Nat.le_of_not_lt (fun hlt => (lookup_eq_some_iff.mp hk).2.2 i hlt rfl)
    obtain rfl | hlt := hle.eq_or_lt
    · rfl
    · exact hbefore k hlt

end Memory

theorem matched_letterText : 0 ∈ matched letterText 0 letterAttribute letterAttribute := by
  have hfield : field letterText 0 0 = [97] := by
    rw [field, csvLines_letterText]
    change (strtok letterText comma).getD 0 [] = [97]
    rw [letterText, strtok_lineText letterFields_plain]
    rfl
  refine List.mem_filter.mpr ⟨?_, ?_⟩
  · rw [csvLines_letterText]
    decide
  · rw [storedField, hfield]
    decide

/-- One row, the value of another column, and memory that held a different number for each column. -/
theorem other_column_lost :
    ¬ Projects letterText (oneOrTwo (fun _ c => decide (c = 0))) 0 1 letterAttribute letterAttribute 1002 := by
  rw [projects_iff (by decide) (by simp [csvLines_letterText]) fullRows_letterText roomFor_letterText.2
    (by decide) (by decide)]
  exact not_leadsBack_of_ne (by decide) matched_letterText

/-- The join of the columns is on memory that was never written. It prints the projection, whatever
that memory holds, exactly if no row matches, or if the two columns are one and a match has no row
before it with another value. -/
theorem projects_iff_same (hp : 1001 < P) (hne : csvLines csv ≠ []) (hfull : FullRows csv)
    (hfit : RoomFor P columnSlotSize (csvLines csv).length) (ha : a < maxAttributes) (hb : b < maxAttributes)
    (start stop : CString) :
    (∀ fresh, Projects csv fresh a b start stop P) ↔ ∀ i ∈ matched csv a start stop,
      a = b ∧ ∀ j < i, (storedField csv j a).bytes.take 5 = (storedField csv i a).bytes.take 5 := by
  have hiff (fresh : Nat → Nat → List Byte) :
      Projects csv fresh a b start stop P ↔ LeadsBack csv fresh a b start stop :=
    projects_iff hp hne hfull hfit ha hb
  constructor
  · intro hproj i hi
    have hl := fun fresh => (hiff fresh).mp (hproj fresh)
    obtain rfl : a = b := by
      by_contra hab
      exact not_leadsBack_of_ne hab hi (hl _)
    exact ⟨rfl, fun j hlt => same_value hl hi hlt⟩
  · intro h fresh
    exact (hiff fresh).mpr (leadsBack_of_same h fresh)

/-- Of three rows the first two match, and they are printed alike. The third one is behind rows with another value. -/
theorem projects_iff_same_letters :
    (∀ fresh, Projects rowsText fresh 0 0 letterAttribute wordStop 1002) ∧
      ¬ ∀ fresh, Projects rowsText fresh 0 0 wordStop secondLetter 1002 := by
  have hiff := fun start stop => projects_iff_same (by decide : 1001 < 1002)
    (by simp [csvLines_rowsText, threeRows]) fullRows_rowsText roomFor_rowsText.2 (by decide : 0 < maxAttributes)
    (by decide : 0 < maxAttributes) start stop
  refine ⟨(hiff _ _).mpr (by decide +kernel), fun h => ?_⟩
  have hthird := (hiff _ _).mp h
  revert hthird
  decide +kernel

end RecordStore.TupleJoin
