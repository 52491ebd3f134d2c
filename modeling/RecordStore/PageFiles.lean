import RecordStore.CsvPrograms
import RecordStore.PackedPages
import RecordStore.RecordFile

namespace RecordStore.PageFiles

open RecordStore.Splice RecordStore.CFile RecordStore.CText RecordStore.Outcome RecordStore.FixedRecord
open RecordStore.FixedPage RecordStore.PageSlots RecordStore.LogicalPages RecordStore.HeapRuns
open RecordStore.CsvPrograms RecordStore.HeapContents RecordStore.RecordMap RecordStore.PackedPages
open RecordStore.RecordFile

variable {P : Nat}

structure Writer (P : Nat) where
  page : Option (Page P slotSize)
  pageFile : File
  numRecords : Nat
  numPages : Nat

/-- Write a full page out and start a new one, if there is no page with room. -/
def Writer.withRoom (w : Writer P) : Except Fault (Page P slotSize × Writer P) :=
  match w.page with
  | none => do
    let page ← initFixedLenPage P slotSize
    .ok (page, { w with page := some page, numPages := w.numPages + 1 })
  | some page =>
    if fixedLenPageFreeslots page = 0 then do
      let w := { w with pageFile := fwrite w.pageFile page.data }
      let page ← initFixedLenPage P slotSize
      .ok (page, { w with page := some page, numPages := w.numPages + 1 })
    else .ok (page, w)

def writeLoop : Writer P → List (Except Fault Record) → Except Fault (Writer P)
  | w, [] => .ok w
  | w, load :: loads => do
    let rec ← load
    let (page, w) ← { w with numRecords := w.numRecords + 1 }.withRoom
    let (_, page) ← addFixedLenPage page rec
    writeLoop { w with page := some page } loads

def numAttr : Nat := 100

/-- The loop over the page file. A short read leaves the rest of `line` as it was. -/
def readLoop (beyond : Nat → Byte) : Nat → Page P slotSize → File → Except Fault (List Record)
  | 0, _, _ => .error .outOfFuel
  | fuel + 1, line, pageFile =>
    let (got, pageFile) := fread pageFile P
    if got = [] then .ok []
    else do
      let _ ← initFixedLenPage P slotSize
      let line ← line.store 0 got
      let numRecs := fixedLenPageCapacity P slotSize - fixedLenPageFreeslots line
      let recs ← (List.range numRecs).mapM (fun i : Nat => readFixedLenPage beyond line i numAttr)
      let rest ← readLoop beyond fuel line pageFile
      .ok (recs ++ rest)

def printRecordAsCsv (record : Record) : List Byte :=
  [comma].intercalate (record.map CString.bytes) ++ [newline]

variable {recs : List Record} {pages : Pages P slotSize} {w : Writer P}

def pageBytes (pages : Pages P slotSize) : List Byte := (pages.map Page.data).flatten

/-- The writer after a line: the records so far fill the pages of the file and then the
current one. -/
structure Writing (w : Writer P) (recs : List Record) (pages : Pages P slotSize)
    (page : Page P slotSize) : Prop where
  current : w.page = some page
  file : w.pageFile = ⟨pageBytes pages, (pageBytes pages).length⟩
  packed : Packed (pages ++ [page]) recs
  records : w.numRecords = recs.length
  counted : w.numPages = pages.length + 1

end RecordStore.PageFiles
