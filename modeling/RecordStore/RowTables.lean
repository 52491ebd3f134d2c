import RecordStore.CsvRoundTrip
import RecordStore.Reopening
import RecordStore.RowPrograms
import RecordStore.UpdateFrame

namespace RecordStore.RowTables

open RecordStore.CFile RecordStore.CText RecordStore.CStrings RecordStore.Int32 RecordStore.Outcome
open RecordStore.FixedRecord RecordStore.FixedPage RecordStore.PageBitmap RecordStore.PageSlots
open RecordStore.DirectoryPage RecordStore.HeapFile RecordStore.PageLayout RecordStore.HeapImage
open RecordStore.HeapAlloc RecordStore.HeapSession RecordStore.LogicalPages RecordStore.HeapRefinement
open RecordStore.HeapReopen RecordStore.HeapRuns
open RecordStore.HeapContents RecordStore.RecordMap RecordStore.FreeSpace RecordStore.BulkLoad RecordStore.RecordIterator
open RecordStore.IteratorScan RecordStore.CsvPrograms RecordStore.Reopening RecordStore.Scanning
open RecordStore.UpdateProgram RecordStore.UpdateFrame RecordStore.CsvRoundTrip RecordStore.RowPrograms

section Table

variable {c : Nat}

/-- What the programs keep in a heap file: pages of `c` slots, each empty or with a record. -/
abbrev Table (c : Nat) := List (Fin c → Option Record)

def emptyAt (page : Fin c → Option Record) : Option (Fin c) :=
  (List.finRange c).find? (fun t => (page t).isNone)

/-- The first empty slot takes the record; if there is none, a new page does. -/
def Table.put (hc : 0 < c) (table : Table c) (rec : Record) : Table c :=
  match table.findIdx? (fun page => (emptyAt page).isSome) with
  | some j => table.modify j (fun page =>
      match emptyAt page with
      | some t => Function.update page t (some rec)
      | none => page)
  | none => table ++ [Function.update (fun _ => none) ⟨0, hc⟩ (some rec)]

/-- The records in the order of page and slot. -/
def Table.entries (table : Table c) : List (RecordID × Record) :=
  table.zipIdx.flatMap (fun p => (List.finRange c).filterMap (fun t =>
    (p.1 t).map (fun rec => (⟨p.2, (t : Nat)⟩, rec))))

end Table

variable {P S : Nat} {h : Heapfile P S} {pages : Pages P S} {beyond : Nat → Byte}

def pageSlots (page : Page P S) (t : Fin (fixedLenPageCapacity P S)) : Option Record := pageContents page (t : Nat)

section Scan

theorem pageSlots_eq (page : Page P slotSize) (t : Fin (fixedLenPageCapacity P slotSize)) :
    pageSlots page t = if page.filled t then some (slotRecord page t) else none :=
  pageContents_natCast page t.isLt

theorem slotsAfter_start {β : Type} (page : Page P slotSize) (f : Nat → Record → β) :
    (slotsAfter page (-1)).map (fun t => f t (slotRecord page t)) =
      (List.finRange (fixedLenPageCapacity P slotSize)).filterMap (fun t => (pageSlots page t).map (f t)) := by
  have hfin : (List.finRange (fixedLenPageCapacity P slotSize)).filterMap (fun t => (pageSlots page t).map (f t)) =
      (List.range (fixedLenPageCapacity P slotSize)).filterMap
        (fun t => if page.filled t then some (f t (slotRecord page t)) else none) := by
    rw [← List.map_coe_finRange_eq_range, List.filterMap_map]
    apply List.filterMap_congr
    intro t _
    rw [pageSlots_eq, Function.comp_apply]
    split <;> rfl
  rw [hfin, slotsAfter, List.range_eq_range', ← List.filterMap_eq_map', List.filterMap_filter,
    show ((-1 : Int) + 1).toNat = 0 from rfl, Nat.sub_zero]

end Scan

section Programs

variable {pages : Pages P slotSize}

end Programs

end RecordStore.RowTables
