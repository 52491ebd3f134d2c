import RecordStore.Int32
import RecordStore.Outcome

namespace RecordStore.DirectoryPage

open RecordStore.CFile RecordStore.Int32 RecordStore.Outcome

/-- Where a page stands in the file and how many of its slots are free. -/
structure Entry where
  offset : Int
  freeSpace : Int
  deriving DecidableEq

/-- A directory page. `next_directory`, `n_entries` and the entries are pointers
into `data`; `offset` is the place of the page in the file. -/
structure Directory where
  capacity : Nat
  data : List Byte
  offset : Int
  deriving DecidableEq

namespace Directory

def nextDirectory (dir : Directory) : Int := readInt dir.data 0

def nEntries (dir : Directory) : Int := readInt dir.data 4

def entry (dir : Directory) (i : Nat) : Entry :=
  ⟨readInt dir.data (8 + 8 * i), readInt dir.data (12 + 8 * i)⟩

def setNextDirectory (dir : Directory) (x : Int) : Directory :=
  { dir with data := writeInt dir.data 0 x }

def setNEntries (dir : Directory) (x : Int) : Directory :=
  { dir with data := writeInt dir.data 4 x }

def setFreeSpace (dir : Directory) (i : Nat) (x : Int) : Directory :=
  { dir with data := writeInt dir.data (12 + 8 * i) x }

def setEntry (dir : Directory) (i : Nat) (e : Entry) : Directory :=
  { dir with data := writeInt (writeInt dir.data (8 + 8 * i) e.offset) (12 + 8 * i) e.freeSpace }

end Directory

def directoryCapacity (P : Nat) : Nat := (P - 8) / 8

def initDirectoryPage (P : Nat) (offset : Int) : Except Fault Directory :=
  if 0 < directoryCapacity P then
    .ok (Directory.setNEntries ⟨directoryCapacity P, List.replicate P 0, offset⟩ 0)
  else .error .assertFailed

def isFull (dir : Directory) : Bool := dir.nEntries = dir.capacity

/-- Take one more entry into use and return its index. -/
def nextVacantSlot (dir : Directory) : Except Fault (Nat × Directory) :=
  if isFull dir then .error .assertFailed
  else .ok (dir.nEntries.toNat, dir.setNEntries (dir.nEntries + 1))

/-- The first entry with free space, `none` standing for -1. -/
def findFreePage (dir : Directory) : Option Nat :=
  (List.range dir.nEntries.toNat).find? (fun i => 0 < (dir.entry i).freeSpace)

def encodeEntry (e : Entry) : List Byte := encodeInt e.offset ++ encodeInt e.freeSpace

theorem encodeEntry_length (e : Entry) : (encodeEntry e).length = 8 := rfl

def directoryImage (P : Nat) (next : Int) (entries : List Entry) : List Byte :=
  encodeInt next ++ (encodeInt entries.length ++
    (entries.flatMap encodeEntry ++ List.replicate (P - 8 - 8 * entries.length) 0))

theorem encodeEntries_length (entries : List Entry) :
    (entries.flatMap encodeEntry).length = 8 * entries.length := by
  simp [List.length_flatMap, encodeEntry_length, Nat.mul_comm]

theorem directoryImage_length {P : Nat} {entries : List Entry} (next : Int)
    (h : 8 + 8 * entries.length ≤ P) : (directoryImage P next entries).length = P := by
  simp only [directoryImage, List.length_append, encodeInt_length, encodeEntries_length,
    List.length_replicate]
  omega

theorem directoryImage_nil {P : Nat} (hp : 8 ≤ P) : directoryImage P 0 [] = List.replicate P 0 := by
  have he : encodeInt 0 = List.replicate 4 0 := by decide
  rw [directoryImage, List.length_nil, Nat.cast_zero, he, List.flatMap_nil, List.nil_append,
    List.replicate_append_replicate, List.replicate_append_replicate]
  congr 1
  omega

theorem directoryImage_split {P : Nat} {entries : List Entry} (next : Int) {i : Nat} {e : Entry}
    (he : entries[i]? = some e) :
    ∃ before after, before.length = 8 + 8 * i ∧
      (∀ e', directoryImage P next (entries.set i e') = before ++ (encodeEntry e' ++ after)) ∧
      directoryImage P next entries = before ++ (encodeEntry e ++ after) := by
  obtain ⟨hi, heq⟩ := List.getElem?_eq_some_iff.mp he
  have hset : ∀ e', entries.set i e' = entries.take i ++ e' :: entries.drop (i + 1) :=
    fun e' => List.set_eq_take_append_cons_drop.trans (if_pos hi)
  have hself : entries = entries.take i ++ e :: entries.drop (i + 1) := by
    rw [← hset e, ← heq, List.set_getElem_self]
  have hall : ∀ e', directoryImage P next (entries.set i e') =
      (encodeInt next ++ (encodeInt entries.length ++ (entries.take i).flatMap encodeEntry)) ++
        (encodeEntry e' ++ ((entries.drop (i + 1)).flatMap encodeEntry ++
          List.replicate (P - 8 - 8 * entries.length) 0)) := by
    intro e'
    rw [directoryImage, List.length_set, hset e']
    simp only [List.flatMap_append, List.flatMap_cons, List.append_assoc]
  refine ⟨_, _, ?_, hall, ?_⟩
  · simp only [List.length_append, encodeInt_length, encodeEntries_length, List.length_take]
    omega
  · rw [← hall e, ← heq, List.set_getElem_self]

section Image

variable {P c : Nat} {next off : Int} {entries : List Entry}

theorem nextDirectory_image (hn : InRange next) :
    Directory.nextDirectory ⟨c, directoryImage P next entries, off⟩ = next :=
  readInt_append [] _ hn

theorem nEntries_image (hl : InRange (entries.length : Int)) :
    Directory.nEntries ⟨c, directoryImage P next entries, off⟩ = entries.length :=
  readInt_append (encodeInt next) _ hl

theorem entry_image {i : Nat} {e : Entry} (he : entries[i]? = some e)
    (ho : InRange e.offset) (hf : InRange e.freeSpace) :
    Directory.entry ⟨c, directoryImage P next entries, off⟩ i = e := by
  obtain ⟨before, after, hb, -, hd⟩ := directoryImage_split (P := P) next he
  have h1 : readInt (directoryImage P next entries) (8 + 8 * i) = e.offset := by
    rw [hd, ← hb, encodeEntry, List.append_assoc]
    exact readInt_append before _ ho
  have h2 : readInt (directoryImage P next entries) (12 + 8 * i) = e.freeSpace := by
    have hb' : (before ++ encodeInt e.offset).length = 12 + 8 * i := by
      rw [List.length_append, hb, encodeInt_length]
      omega
    rw [hd, ← hb', encodeEntry, List.append_assoc, ← List.append_assoc before]
    exact readInt_append (before ++ encodeInt e.offset) _ hf
  simp only [Directory.entry, h1, h2]

theorem setNextDirectory_image (next' : Int) :
    Directory.setNextDirectory ⟨c, directoryImage P next entries, off⟩ next' =
      ⟨c, directoryImage P next' entries, off⟩ := by
  simp only [Directory.setNextDirectory, Directory.mk.injEq, true_and, and_true]
  exact writeInt_append [] _ next next'

theorem setFreeSpace_image {i : Nat} {e : Entry} (he : entries[i]? = some e) (x : Int) :
    Directory.setFreeSpace ⟨c, directoryImage P next entries, off⟩ i x =
      ⟨c, directoryImage P next (entries.set i { e with freeSpace := x }), off⟩ := by
  obtain ⟨before, after, hb, hset, hd⟩ := directoryImage_split (P := P) next he
  have hb' : (before ++ encodeInt e.offset).length = 12 + 8 * i := by
    rw [List.length_append, hb, encodeInt_length]
    omega
  simp only [Directory.setFreeSpace, Directory.mk.injEq, true_and, and_true]
  rw [hset, hd, ← hb', encodeEntry, encodeEntry, List.append_assoc, ← List.append_assoc before,
    writeInt_append]
  simp only [List.append_assoc]

end Image

theorem initDirectoryPage_eq {P : Nat} (hp : 16 ≤ P) (off : Int) :
    initDirectoryPage P off = .ok ⟨directoryCapacity P, directoryImage P 0 [], off⟩ := by
  have hc : 0 < directoryCapacity P := by
    unfold directoryCapacity
    omega
  have hw : writeInt (List.replicate P 0) 4 0 = directoryImage P 0 [] := by
    rw [← directoryImage_nil (by omega)]
    exact writeInt_append (encodeInt 0) _ 0 0
  rw [initDirectoryPage, if_pos hc, Directory.setNEntries, hw]

theorem append_image {P c : Nat} (next off : Int) (entries : List Entry) (e : Entry)
    (h : 8 + 8 * (entries.length + 1) ≤ P) :
    Directory.setEntry (Directory.setNEntries ⟨c, directoryImage P next entries, off⟩
        (entries.length + 1)) entries.length e =
      ⟨c, directoryImage P next (entries ++ [e]), off⟩ := by
  have hz : List.replicate (P - 8 - 8 * entries.length) (0 : Byte) =
      encodeInt 0 ++ (encodeInt 0 ++ List.replicate (P - 8 - 8 * (entries.length + 1)) 0) := by
    have he : encodeInt 0 = List.replicate 4 0 := by decide
    rw [he, List.replicate_append_replicate, List.replicate_append_replicate]
    congr 1
    omega
  have h1 : writeInt (directoryImage P next entries) 4 (entries.length + 1) =
      encodeInt next ++ (encodeInt (entries.length + 1) ++ (entries.flatMap encodeEntry ++
        (encodeInt 0 ++ (encodeInt 0 ++ List.replicate (P - 8 - 8 * (entries.length + 1)) 0)))) := by
    rw [directoryImage, hz]
    exact writeInt_append (encodeInt next) _ _ _
  have hb : (encodeInt next ++ (encodeInt (entries.length + 1) ++
      entries.flatMap encodeEntry)).length = 8 + 8 * entries.length := by
    simp only [List.length_append, encodeInt_length, encodeEntries_length]
    omega
  have hb' : (encodeInt next ++ (encodeInt (entries.length + 1) ++
      (entries.flatMap encodeEntry ++ encodeInt e.offset))).length = 12 + 8 * entries.length := by
    simp only [List.length_append, encodeInt_length, encodeEntries_length]
    omega
  have h2 := writeInt_append (encodeInt next ++ (encodeInt (entries.length + 1) ++
    entries.flatMap encodeEntry)) (encodeInt 0 ++ List.replicate (P - 8 - 8 * (entries.length + 1)) 0)
    0 e.offset
  have h3 := writeInt_append (encodeInt next ++ (encodeInt (entries.length + 1) ++
    (entries.flatMap encodeEntry ++ encodeInt e.offset)))
    (List.replicate (P - 8 - 8 * (entries.length + 1)) 0) 0 e.freeSpace
  rw [hb] at h2
  rw [hb'] at h3
  simp only [List.append_assoc] at h2 h3
  simp only [Directory.setEntry, Directory.setNEntries, Directory.mk.injEq, true_and, and_true]
  rw [h1, h2, h3]
  simp [directoryImage, encodeEntry]

end RecordStore.DirectoryPage
