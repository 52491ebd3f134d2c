import RecordStore.DirectoryPage
import RecordStore.FixedPage

namespace RecordStore.HeapFile

open RecordStore.Splice RecordStore.CFile RecordStore.Int32 RecordStore.Outcome RecordStore.FixedRecord
open RecordStore.FixedPage RecordStore.DirectoryPage

/-- A heap file with pages of `P` bytes and slots of `S` bytes. All directories
are buffered; of the pages only the last one used is. -/
structure Heapfile (P S : Nat) where
  file : File
  directoryBuffer : List Directory
  cachedPage : Option (Page P S)
  /-- `none` is the source's -1. -/
  cachedPid : Option Nat
  pageCacheDirty : Bool

structure RecordID where
  pageId : Nat
  slot : Int
  deriving DecidableEq

variable {P S : Nat}

def initHeapfile (P S : Nat) (file : File) : Except Fault (Heapfile P S) :=
  if 1001 < P then .ok ⟨file, [], none, none, false⟩ else .error .assertFailed

/-- Read a block of `page_size` bytes. Less than that ends the program. -/
def readBlock (h : Heapfile P S) (offset : Int) :
    Except Fault ({ bs : List Byte // bs.length = P } × Heapfile P S) :=
  let (got, file) := fread (fseekSet h.file offset) P
  if hl : got.length = P then .ok (⟨got, hl⟩, { h with file := file }) else .error .exit

theorem readBlock_slice {h : Heapfile P S} {offset : Int} {block : List Byte}
    (hs : slice h.file.bytes (fseekSet h.file offset).pos P = block) (hl : block.length = P) :
    readBlock h offset =
      .ok (⟨block, hl⟩, { h with file := ⟨h.file.bytes, (fseekSet h.file offset).pos + P⟩ }) := by
  subst hs
  simp only [readBlock, fread, fseekSet_bytes, hl, dite_true]

/-- Write a block. An ideal file takes all of it. -/
def writeBlock (h : Heapfile P S) (buffer : List Byte) (offset : Int) : Heapfile P S :=
  { h with file := fwrite (fseekSet h.file offset) buffer }

@[simp] theorem writeBlock_directoryBuffer (h : Heapfile P S) (buffer : List Byte) (offset : Int) :
    (writeBlock h buffer offset).directoryBuffer = h.directoryBuffer := rfl

@[simp] theorem writeBlock_cachedPage (h : Heapfile P S) (buffer : List Byte) (offset : Int) :
    (writeBlock h buffer offset).cachedPage = h.cachedPage := rfl

@[simp] theorem writeBlock_cachedPid (h : Heapfile P S) (buffer : List Byte) (offset : Int) :
    (writeBlock h buffer offset).cachedPid = h.cachedPid := rfl

@[simp] theorem writeBlock_pageCacheDirty (h : Heapfile P S) (buffer : List Byte) (offset : Int) :
    (writeBlock h buffer offset).pageCacheDirty = h.pageCacheDirty := rfl

def createHeapfile (P S : Nat) : Except Fault (Heapfile P S) := do
  let h ← initHeapfile P S ⟨[], 0⟩
  let directory ← initDirectoryPage P 0
  let h := writeBlock h directory.data 0
  .ok { h with directoryBuffer := h.directoryBuffer ++ [directory] }

def openLoop : Nat → Heapfile P S → Int → Except Fault (Heapfile P S)
  | 0, _, _ => .error .outOfFuel
  | fuel + 1, h, offset => do
    let directory ← initDirectoryPage P offset
    let (block, h) ← readBlock h offset
    let directory := { directory with data := block.1 }
    let h := { h with directoryBuffer := h.directoryBuffer ++ [directory] }
    if directory.nextDirectory ≠ 0 then openLoop fuel h directory.nextDirectory else .ok h

/-- Open the file that holds `bytes`, following at most `fuel` directories. -/
def openHeapfile (P S : Nat) (fuel : Nat) (bytes : List Byte) : Except Fault (Heapfile P S) := do
  let h ← initHeapfile P S ⟨bytes, 0⟩
  openLoop fuel h 0

def Heapfile.directory (h : Heapfile P S) (dirNo : Nat) : Except Fault Directory :=
  match h.directoryBuffer[dirNo]? with
  | some dir => .ok dir
  | none => .error (.dirIndex dirNo)

def Heapfile.setDirectory (h : Heapfile P S) (dirNo : Nat) (dir : Directory) : Heapfile P S :=
  { h with directoryBuffer := h.directoryBuffer.set dirNo dir }

/-- A pointer to a directory entry, with the entry it points to. -/
structure EntryRef where
  dirNo : Nat
  slotNo : Nat
  value : Entry

def getEntry (h : Heapfile P S) (pid : Nat) : Except Fault EntryRef := do
  let first ← h.directory 0
  let dirNo := pid / first.capacity
  let slotNo := pid % first.capacity
  let dir ← h.directory dirNo
  if (slotNo : Int) < dir.nEntries then .ok ⟨dirNo, slotNo, dir.entry slotNo⟩
  else .error .assertFailed

/-- Write the cached page out if it is dirty, as `get_page`, `alloc_page` and
`close_heapfile` all begin by doing before they drop it. -/
def writeBack (h : Heapfile P S) : Except Fault (Heapfile P S) :=
  if h.pageCacheDirty then
    match h.cachedPid, h.cachedPage with
    | some pid, some page => do
      let entry ← getEntry h pid
      .ok (writeBlock h page.data entry.value.offset)
    | _, _ => .error .memory
  else .ok h

/-- Close the heap file; the result is the content of the file on disk. -/
def closeHeapfile (h : Heapfile P S) : Except Fault (List Byte) := do
  let h ← writeBack h
  let h := h.directoryBuffer.foldl (fun h dir => writeBlock h dir.data dir.offset) h
  .ok h.file.bytes

def getPage (h : Heapfile P S) (pid : Nat) : Except Fault (Page P S × Heapfile P S) :=
  if h.cachedPid = some pid then
    match h.cachedPage with
    | some page => .ok (page, h)
    | none => .error .memory
  else do
    let h ← writeBack h
    let _ ← initFixedLenPage P S
    let entry ← getEntry h pid
    let (block, h) ← readBlock h entry.value.offset
    let page : Page P S := .ofBlock block
    .ok (page, { h with cachedPage := some page, cachedPid := some pid, pageCacheDirty := false })

/-- Enter a new page into the first directory with room, or into a new directory
at the end of the file. Returns the id of the page. -/
def appendEntry (h : Heapfile P S) (entry : Entry) : Except Fault (Nat × Heapfile P S) :=
  match h.directoryBuffer.findIdx? (fun dir => !isFull dir) with
  | some dirNo => do
    let dir ← h.directory dirNo
    let (slotNo, dir) ← nextVacantSlot dir
    .ok (dirNo * dir.capacity + slotNo, h.setDirectory dirNo (dir.setEntry slotNo entry))
  | none => do
    let numDirectories := h.directoryBuffer.length
    let lastDir ← h.directory (numDirectories - 1)
    let h := { h with file := fseekEnd h.file }
    let offset := toInt32 (ftell h.file)
    let h := h.setDirectory (numDirectories - 1) (lastDir.setNextDirectory offset)
    let newDir ← initDirectoryPage P offset
    let h := writeBlock h newDir.data offset
    let (slotNo, newDir) ← nextVacantSlot newDir
    .ok (numDirectories * newDir.capacity + slotNo,
      { h with directoryBuffer := h.directoryBuffer ++ [newDir.setEntry slotNo entry] })

/-- Allocate another page at the end of the file and make it the cached one. -/
def allocPage (h : Heapfile P S) : Except Fault (Nat × Heapfile P S) := do
  let page ← initFixedLenPage P S
  let h := { h with file := fseekEnd h.file }
  let entry : Entry := ⟨toInt32 (ftell h.file), fixedLenPageFreeslots page⟩
  let h := writeBlock h page.data entry.offset
  let (pid, h) ← appendEntry h entry
  let h ← writeBack h
  .ok (pid, { h with cachedPage := some page, cachedPid := some pid, pageCacheDirty := false })

def vacantPageIdFrom : List Directory → Nat → Option Nat
  | [], _ => none
  | dir :: dirs, dirNo =>
    match findFreePage dir with
    | some slotNo => some (dirNo * dir.capacity + slotNo)
    | none => vacantPageIdFrom dirs (dirNo + 1)

def vacantPageId (h : Heapfile P S) : Option Nat := vacantPageIdFrom h.directoryBuffer 0

def getFreePid (h : Heapfile P S) : Except Fault (Nat × Heapfile P S) :=
  match vacantPageId h with
  | some pid => .ok (pid, h)
  | none => allocPage h

/-- Record the free space of the cached page and mark it dirty. -/
def commitPage (h : Heapfile P S) (pid : Nat) : Except Fault (Heapfile P S) :=
  match h.cachedPid, h.cachedPage with
  | some cached, some page => do
    let entry ← getEntry h cached
    let dir ← h.directory entry.dirNo
    let h := h.setDirectory entry.dirNo (dir.setFreeSpace entry.slotNo (fixedLenPageFreeslots page))
    if cached = pid then .ok { h with pageCacheDirty := true } else .error .assertFailed
  | _, _ => .error .memory

def putRecord (h : Heapfile P S) (rec : Record) : Except Fault (Heapfile P S) := do
  let (pid, h) ← getFreePid h
  let (page, h) ← getPage h pid
  let (_, page) ← addFixedLenPage page rec
  let h ← commitPage { h with cachedPage := some page } pid
  let (page2, h) ← getPage h pid
  if page = page2 then .ok h else .error .assertFailed

def getRecord (beyond : Nat → Byte) (h : Heapfile P S) (rid : RecordID) (n : Nat) :
    Except Fault (Record × Heapfile P S) := do
  let (page, h) ← getPage h rid.pageId
  let rec ← readFixedLenPage beyond page rid.slot n
  .ok (rec, h)

def updateRecord (h : Heapfile P S) (rid : RecordID) (rec : Record) : Except Fault (Heapfile P S) := do
  let (page, h) ← getPage h rid.pageId
  let page ← writeFixedLenPage page rid.slot rec
  commitPage { h with cachedPage := some page } rid.pageId

def deleteRecord (h : Heapfile P S) (rid : RecordID) : Except Fault (Heapfile P S) := do
  let (page, h) ← getPage h rid.pageId
  let page ← deleteFixedLenPage page rid.slot
  commitPage { h with cachedPage := some page } rid.pageId

end RecordStore.HeapFile
