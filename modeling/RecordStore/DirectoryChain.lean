import RecordStore.HeapFile
import RecordStore.PageLayout

namespace RecordStore.DirectoryChain

open RecordStore.Splice RecordStore.Int32 RecordStore.Outcome RecordStore.DirectoryPage RecordStore.HeapFile
open RecordStore.PageLayout

variable {P S : Nat} {link off : Nat → Int} {entries : List Entry}

/-- Directory `d` of a heap file whose pages have the given entries, with its link
and its place in the file. -/
def directoryAt (P : Nat) (link off : Nat → Int) (entries : List Entry) (d : Nat) : Directory :=
  ⟨directoryCapacity P, directoryImage P (link d)
    (slice entries (d * directoryCapacity P) (directoryCapacity P)), off d⟩

def directories (P : Nat) (link off : Nat → Int) (entries : List Entry) : List Directory :=
  (List.range (numDirs (directoryCapacity P) entries.length)).map (directoryAt P link off entries)

def Fits (entries : List Entry) : Prop := ∀ e ∈ entries, InRange e.offset ∧ InRange e.freeSpace

theorem capacity_bounds (hp : 1001 < P) (hP : P < 2147483648) :
    0 < directoryCapacity P ∧ 8 + 8 * directoryCapacity P ≤ P ∧ directoryCapacity P < 2147483648 := by
  unfold directoryCapacity
  omega

theorem directories_getElem? {d : Nat} (hd : d < numDirs (directoryCapacity P) entries.length) :
    (directories P link off entries)[d]? = some (directoryAt P link off entries d) := by
  simp [directories, hd]

theorem directories_length :
    (directories P link off entries).length = numDirs (directoryCapacity P) entries.length := by
  simp [directories]

theorem nEntries_directoryAt (hP : P < 2147483648) (d : Nat) :
    (directoryAt P link off entries d).nEntries =
      (min (directoryCapacity P) (entries.length - d * directoryCapacity P) : Nat) := by
  have hl := slice_length entries (d * directoryCapacity P) (directoryCapacity P)
  have hc : directoryCapacity P ≤ P := by
    unfold directoryCapacity
    omega
  rw [← hl]
  refine nEntries_image ⟨by omega, ?_⟩
  rw [hl]
  omega

theorem isFull_directoryAt (hP : P < 2147483648) (d : Nat) :
    isFull (directoryAt P link off entries d) = decide (d * directoryCapacity P + directoryCapacity P ≤
      entries.length ∨ directoryCapacity P = 0) := by
  rw [isFull, nEntries_directoryAt hP]
  simp only [directoryAt, Nat.cast_inj, decide_eq_decide]
  omega

theorem entry_directoryAt (hf : Fits entries) (hc : 0 < directoryCapacity P) {j : Nat} {e : Entry}
    (he : entries[j]? = some e) :
    (directoryAt P link off entries (j / directoryCapacity P)).entry (j % directoryCapacity P) = e := by
  have hm := Nat.mod_lt j hc
  have hj : j / directoryCapacity P * directoryCapacity P + j % directoryCapacity P = j :=
    Nat.div_add_mod' _ _
  obtain ⟨ho, hs⟩ := hf e (List.mem_of_getElem? he)
  refine entry_image ?_ ho hs
  rw [getElem?_slice, if_pos hm, hj, he]

theorem dir_lt {j n c : Nat} (hj : j < n) : j / c < numDirs c n := by
  have : j / c ≤ (n - 1) / c := Nat.div_le_div_right (by omega)
  unfold numDirs
  omega

theorem getEntry_directories {h : Heapfile P S} (hp : 1001 < P) (hP : P < 2147483648)
    (hd : h.directoryBuffer = directories P link off entries) (hf : Fits entries)
    {j : Nat} {e : Entry} (he : entries[j]? = some e) :
    getEntry h j = .ok ⟨j / directoryCapacity P, j % directoryCapacity P, e⟩ := by
  have hc := (capacity_bounds hp hP).1
  have hj : j < entries.length := (List.getElem?_eq_some_iff.mp he).1
  have h0 : h.directory 0 = .ok (directoryAt P link off entries 0) := by
    rw [Heapfile.directory, hd, directories_getElem? (Nat.succ_pos _)]
  have h1 : h.directory (j / directoryCapacity P) =
      .ok (directoryAt P link off entries (j / directoryCapacity P)) := by
    rw [Heapfile.directory, hd, directories_getElem? (dir_lt hj)]
  have hm := Nat.mod_lt j hc
  have hdm : j / directoryCapacity P * directoryCapacity P + j % directoryCapacity P = j :=
    Nat.div_add_mod' _ _
  have hcap : (directoryAt P link off entries 0).capacity = directoryCapacity P := rfl
  rw [getEntry, h0, ok_bind]
  simp only [hcap]
  rw [h1, ok_bind, if_pos, entry_directoryAt hf hc he]
  rw [nEntries_directoryAt hP]
  omega

theorem lt_nEntries_iff (hp : 1001 < P) (hP : P < 2147483648) (j : Nat) :
    (((j % directoryCapacity P : Nat) : Int) <
      (directoryAt P link off entries (j / directoryCapacity P)).nEntries) ↔ j < entries.length := by
  have hc := (capacity_bounds hp hP).1
  have hm := Nat.mod_lt j hc
  have hdm : j / directoryCapacity P * directoryCapacity P + j % directoryCapacity P = j :=
    Nat.div_add_mod' _ _
  rw [nEntries_directoryAt hP]
  omega

theorem findFreePage_directoryAt (hP : P < 2147483648) (hf : Fits entries) (d : Nat) :
    findFreePage (directoryAt P link off entries d) =
      (slice entries (d * directoryCapacity P) (directoryCapacity P)).findIdx?
        (fun e => 0 < e.freeSpace) := by
  have hl := slice_length entries (d * directoryCapacity P) (directoryCapacity P)
  rw [findFreePage, nEntries_directoryAt hP, Int.toNat_natCast, ← hl]
  generalize hsl : slice entries (d * directoryCapacity P) (directoryCapacity P) = es at *
  have hentry : ∀ i e, es[i]? = some e → (directoryAt P link off entries d).entry i = e := by
    intro i e hi
    have hmem : e ∈ entries := by
      have := List.mem_of_getElem? hi
      rw [← hsl] at this
      exact List.mem_of_mem_drop (List.mem_of_mem_take this)
    obtain ⟨ho, hs⟩ := hf e hmem
    rw [directoryAt, hsl]
    exact entry_image hi ho hs
  cases hr : es.findIdx? (fun e => 0 < e.freeSpace) with
  | none =>
    rw [List.findIdx?_eq_none_iff] at hr
    rw [List.find?_eq_none]
    intro i hi
    have hlt : i < es.length := List.mem_range.mp hi
    have hg := List.getElem?_eq_getElem hlt
    rw [hentry i _ hg]
    simpa using hr _ (List.getElem_mem hlt)
  | some i =>
    rw [List.findIdx?_eq_some_iff_getElem] at hr
    obtain ⟨hlt, hi, hall⟩ := hr
    rw [List.find?_range_eq_some]
    refine ⟨?_, List.mem_range.mpr hlt, ?_⟩
    · rw [hentry i _ (List.getElem?_eq_getElem hlt)]
      simpa using hi
    · intro k hk
      have hklt : k < es.length := by omega
      rw [hentry k _ (List.getElem?_eq_getElem hklt)]
      simpa using hall k hk

theorem vacantPageIdFrom_eq (link off : Nat → Int) (hP : P < 2147483648) (hf : Fits entries) (k d : Nat)
    (hk : entries.length ≤ (d + k) * directoryCapacity P) :
    vacantPageIdFrom ((List.range' d k).map (directoryAt P link off entries)) d =
      ((entries.drop (d * directoryCapacity P)).findIdx? (fun e => 0 < e.freeSpace)).map
        (fun i => d * directoryCapacity P + i) := by
  induction k generalizing d with
  | zero =>
    have hz : entries.drop (d * directoryCapacity P) = [] := List.drop_eq_nil_of_le (by simpa using hk)
    simp [vacantPageIdFrom, hz]
  | succ k ih =>
    have hsplit : entries.drop (d * directoryCapacity P) =
        slice entries (d * directoryCapacity P) (directoryCapacity P) ++
          entries.drop ((d + 1) * directoryCapacity P) := by
      rw [slice, Nat.succ_mul, ← List.drop_drop, List.take_append_drop]
    have hnext := ih (d + 1) (by rwa [Nat.add_assoc, Nat.add_comm 1 k])
    rw [List.range'_succ, List.map_cons, vacantPageIdFrom, findFreePage_directoryAt hP hf, hsplit,
      List.findIdx?_append, hnext]
    cases hr : (slice entries (d * directoryCapacity P) (directoryCapacity P)).findIdx?
        (fun e => 0 < e.freeSpace) with
    | some i => rfl
    | none =>
      rw [Option.none_or, Option.map_map]
      cases hr' : (entries.drop ((d + 1) * directoryCapacity P)).findIdx? (fun e => 0 < e.freeSpace) with
      | none => rfl
      | some i =>
        have hlt : d * directoryCapacity P + directoryCapacity P < entries.length := by
          have := (List.findIdx?_eq_some_iff_getElem.mp hr').1
          rw [List.length_drop, Nat.succ_mul] at this
          omega
        have hsl : (slice entries (d * directoryCapacity P) (directoryCapacity P)).length =
            directoryCapacity P := slice_length_of_le (by omega)
        simp only [Option.map_some, Option.some.injEq, Function.comp_apply, hsl, Nat.succ_mul]
        omega

theorem length_le_numDirs_mul {c : Nat} (hc : 0 < c) (n : Nat) : n ≤ numDirs c n * c := by
  have h1 := Nat.div_add_mod' (n - 1) c
  have h2 := Nat.mod_lt (n - 1) hc
  unfold numDirs
  rw [Nat.succ_mul]
  omega

theorem vacantPageId_directories {h : Heapfile P S} (hp : 1001 < P) (hP : P < 2147483648)
    (hd : h.directoryBuffer = directories P link off entries) (hf : Fits entries) :
    vacantPageId h = entries.findIdx? (fun e => 0 < e.freeSpace) := by
  have hc := (capacity_bounds hp hP).1
  have hle := length_le_numDirs_mul hc entries.length
  have hv := vacantPageIdFrom_eq link off hP hf
    (numDirs (directoryCapacity P) entries.length) 0 (by simpa using hle)
  rw [vacantPageId, hd, directories, List.range_eq_range', hv]
  simp

end RecordStore.DirectoryChain
