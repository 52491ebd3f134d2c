import RecordStore.CStrings
import RecordStore.PageFiles
import RecordStore.UpdateProgram

namespace RecordStore.RowPrograms

open RecordStore.CFile RecordStore.CText RecordStore.CStrings RecordStore.Int32 RecordStore.Outcome
open RecordStore.FixedRecord RecordStore.FixedPage RecordStore.HeapFile RecordStore.RecordIterator
open RecordStore.CsvPrograms RecordStore.UpdateProgram RecordStore.PageFiles

/-- `delete <heapfile> <pid>,<slot> <page_size>`: the new content of the heap file. -/
def delete (P : Nat) (bytes : List Byte) (pid slot : Int) : Except Fault (List Byte) :=
  if 0 ≤ pid ∧ 0 ≤ slot ∧ 0 < P then do
    let h : Heapfile P slotSize ← openHeapfile P slotSize (bytes.length / P + 1) bytes
    let h ← deleteRecord h ⟨pid.toNat, slot⟩
    closeHeapfile h
  else .error .exit

/-- A call of one of the programs on a heap file that is there, with its arguments. -/
inductive Program where
  | insert (csv : List Byte)
  | update (recordId attributeId : List Byte) (newValue : CString)
  | delete (recordId : List Byte)
  | scan

end RecordStore.RowPrograms
