import RecordStore.CText
import RecordStore.HeapFile

namespace RecordStore.CsvPrograms

open RecordStore.CFile RecordStore.CText RecordStore.Outcome RecordStore.FixedRecord RecordStore.HeapFile

def slotSize : Nat := 1000

def maxLineLen : Nat := 10000

/-- Split a line on commas; the attributes are cut to their field. -/
def loadCsvRecord (line : List Byte) : Except Fault Record :=
  let record := (strtok line comma).map (fun token => cstring token attributeSize)
  if record.length = 100 then .ok record else .error .assertFailed

def csvLines (csv : List Byte) : List (List Byte) := fgetsLines maxLineLen csv

variable {P S : Nat}

def loadLines : Heapfile P S → List (List Byte) → Except Fault (Heapfile P S)
  | h, [] => .ok h
  | h, line :: lines => do
    let rec ← loadCsvRecord line
    let h ← putRecord h rec
    loadLines h lines

def csv2heapfile (P : Nat) (csv : List Byte) : Except Fault (List Byte) :=
  if 0 < P then do
    let h ← createHeapfile P slotSize
    let h ← loadLines h (csvLines csv)
    closeHeapfile h
  else .error .exit

/-- What becomes of the heap file `bytes` when the lines of a CSV file are put into it. -/
def insert (P : Nat) (bytes : List Byte) (csv : List Byte) : Except Fault (List Byte) :=
  if 0 < P then do
    let h ← openHeapfile P slotSize (bytes.length / P + 1) bytes
    let h ← loadLines h (csvLines csv)
    closeHeapfile h
  else .error .exit

end RecordStore.CsvPrograms
