import RecordStore.DirectoryChain

namespace RecordStore.DirectoryGrowth

open RecordStore.Splice RecordStore.CFile RecordStore.Int32 RecordStore.DirectoryPage RecordStore.HeapFile
open RecordStore.PageLayout RecordStore.DirectoryChain

variable {P S : Nat} {link off : Nat → Int} {entries : List Entry}

theorem slice_set_same {α : Type} (l : List α) {c j : Nat} (x : α) (hc : 0 < c) :
    slice (l.set j x) (j / c * c) c = (slice l (j / c * c) c).set (j % c) x := by
  have hm := Nat.mod_lt j hc
  have hj : j / c * c + j % c = j := Nat.div_add_mod' _ _
  apply List.ext_getElem?
  intro i
  simp only [getElem?_slice, List.getElem?_set, slice_length]
  by_cases hi : i < c
  · have he : j = j / c * c + i ↔ j % c = i := by omega
    by_cases hji : j % c = i
    · subst hji
      have hlt : j < l.length ↔ j % c < min c (l.length - j / c * c) := by omega
      simp [hi, hj, hlt]
    · simp [hi, he, hji]
  · simp [hi, show j % c ≠ i by omega]

theorem slice_set_other {α : Type} (l : List α) {c j d : Nat} (x : α) (hd : d ≠ j / c) (hc : 0 < c) :
    slice (l.set j x) (d * c) c = slice l (d * c) c := by
  apply List.ext_getElem?
  intro i
  rw [getElem?_slice, getElem?_slice]
  by_cases hi : i < c
  · have hne : j ≠ d * c + i := by
      rintro rfl
      rw [Nat.mul_comm, Nat.mul_add_div hc, Nat.div_eq_of_lt hi] at hd
      omega
    simp [hi, hne]
  · simp [hi]

/-- Storing the free space of page `j` through its entry pointer changes entry `j`
of the chain and nothing else. -/
theorem setFreeSpace_directories (link off : Nat → Int) (hc : 0 < directoryCapacity P) {j : Nat} {e : Entry}
    (he : entries[j]? = some e) (x : Int) :
    (directories P link off entries).set (j / directoryCapacity P)
        ((directoryAt P link off entries (j / directoryCapacity P)).setFreeSpace
          (j % directoryCapacity P) x) =
      directories P link off (entries.set j { e with freeSpace := x }) := by
  have hm := Nat.mod_lt j hc
  have hj : j / directoryCapacity P * directoryCapacity P + j % directoryCapacity P = j :=
    Nat.div_add_mod' _ _
  have hes : (slice entries (j / directoryCapacity P * directoryCapacity P)
      (directoryCapacity P))[j % directoryCapacity P]? = some e := by
    rw [getElem?_slice, if_pos hm, hj, he]
  apply List.ext_getElem?
  intro d
  rw [List.getElem?_set, directories, directories, List.length_set, List.getElem?_map,
    List.getElem?_map]
  by_cases hd : d < numDirs (directoryCapacity P) entries.length
  · rw [List.getElem?_range hd, List.length_map, List.length_range]
    by_cases hdj : j / directoryCapacity P = d
    · subst hdj
      rw [if_pos rfl, if_pos hd, directoryAt, setFreeSpace_image hes]
      simp only [Option.map_some, directoryAt, slice_set_same entries _ hc]
    · rw [if_neg hdj]
      simp only [Option.map_some, directoryAt, slice_set_other entries _ (Ne.symm hdj) hc]
  · have hn : (List.range (numDirs (directoryCapacity P) entries.length))[d]? = none := by
      simpa using hd
    have hne : j / directoryCapacity P ≠ d := by
      have := dir_lt (c := directoryCapacity P) (List.getElem?_eq_some_iff.mp he).1
      omega
    rw [hn, if_neg hne]
    rfl

theorem directoryAt_append_of_le (link off : Nat → Int) {d : Nat} {link' off' : Nat → Int} (e : Entry)
    (hl : link' d = link d) (ho : off' d = off d)
    (hd : d * directoryCapacity P + directoryCapacity P ≤ entries.length) :
    directoryAt P link' off' (entries ++ [e]) d = directoryAt P link off entries d := by
  have hs : slice (entries ++ [e]) (d * directoryCapacity P) (directoryCapacity P) =
      slice entries (d * directoryCapacity P) (directoryCapacity P) := slice_append_of_le [e] hd
  rw [directoryAt, directoryAt, hs, hl, ho]

theorem appendEntry_of_some {h : Heapfile P S} {e : Entry} {dirNo slotNo : Nat} {dir dir' : Directory}
    (hi : h.directoryBuffer.findIdx? (fun dir => !isFull dir) = some dirNo)
    (hd : h.directory dirNo = .ok dir) (hs : nextVacantSlot dir = .ok (slotNo, dir')) :
    appendEntry h e =
      .ok (dirNo * dir'.capacity + slotNo, h.setDirectory dirNo (dir'.setEntry slotNo e)) := by
  rw [appendEntry, hi]
  simp [hd, hs]

section Room

variable (hp : 1001 < P) (hP : P < 2147483648)
  (hr : ¬ LastFull (directoryCapacity P) entries.length)

include hp hP hr

theorem findIdx?_room :
    (directories P link off entries).findIdx? (fun dir => !isFull dir) =
      some (entries.length / directoryCapacity P) := by
  have hc := (capacity_bounds hp hP).1
  have hn := (numDirs_succ_of_not_full hr).1
  have hdm : entries.length / directoryCapacity P * directoryCapacity P +
      entries.length % directoryCapacity P = entries.length := Nat.div_add_mod' _ _
  have hm := Nat.mod_lt entries.length hc
  rw [List.findIdx?_eq_some_iff_getElem]
  refine ⟨by rw [directories_length, hn]; omega, ?_, ?_⟩
  · simp only [directories, List.getElem_map, List.getElem_range, isFull_directoryAt hP]
    simp only [Bool.not_eq_true', decide_eq_false_iff_not]
    omega
  · intro d hdlt
    have hle : d * directoryCapacity P + directoryCapacity P ≤ entries.length := by
      rw [← Nat.succ_mul]
      exact (Nat.mul_le_mul_right _ hdlt).trans (Nat.div_mul_le_self _ _)
    simp only [directories, List.getElem_map, List.getElem_range, isFull_directoryAt hP]
    simp [hle]

omit hr in
theorem nextVacantSlot_room :
    nextVacantSlot (directoryAt P link off entries (entries.length / directoryCapacity P)) =
      .ok (entries.length % directoryCapacity P,
        (directoryAt P link off entries (entries.length / directoryCapacity P)).setNEntries
          ((entries.length % directoryCapacity P : Nat) + 1)) := by
  have hc := (capacity_bounds hp hP).1
  have hdm : entries.length / directoryCapacity P * directoryCapacity P +
      entries.length % directoryCapacity P = entries.length := Nat.div_add_mod' _ _
  have hm := Nat.mod_lt entries.length hc
  have hnent : (directoryAt P link off entries (entries.length / directoryCapacity P)).nEntries =
      ((entries.length % directoryCapacity P : Nat) : Int) := by
    rw [nEntries_directoryAt hP]
    omega
  have hnf : isFull (directoryAt P link off entries (entries.length / directoryCapacity P)) = false := by
    rw [isFull_directoryAt hP, decide_eq_false_iff_not]
    omega
  rw [nextVacantSlot, hnf, hnent, Int.toNat_natCast]
  simp

theorem setEntry_room (e : Entry) :
    (directories P link off entries).set (entries.length / directoryCapacity P)
      (((directoryAt P link off entries (entries.length / directoryCapacity P)).setNEntries
        ((entries.length % directoryCapacity P : Nat) + 1)).setEntry
          (entries.length % directoryCapacity P) e) = directories P link off (entries ++ [e]) := by
  obtain ⟨hc, h8, -⟩ := capacity_bounds hp hP
  obtain ⟨hn, hn'⟩ := numDirs_succ_of_not_full hr
  have hdm : entries.length / directoryCapacity P * directoryCapacity P +
      entries.length % directoryCapacity P = entries.length := Nat.div_add_mod' _ _
  have hm := Nat.mod_lt entries.length hc
  have hsl : (slice entries (entries.length / directoryCapacity P * directoryCapacity P)
      (directoryCapacity P)).length = entries.length % directoryCapacity P := by
    rw [slice_length]
    omega
  have happ := append_image (P := P) (c := directoryCapacity P)
    (link (entries.length / directoryCapacity P)) (off (entries.length / directoryCapacity P))
    (slice entries (entries.length / directoryCapacity P * directoryCapacity P)
      (directoryCapacity P)) e (by omega)
  rw [hsl] at happ
  rw [directoryAt, happ, ← slice_append_last entries e hc]
  apply List.ext_getElem?
  intro d
  rw [List.getElem?_set, directories, directories, List.length_append, List.length_singleton, hn, hn',
    List.length_map, List.length_range, List.getElem?_map, List.getElem?_map]
  by_cases hlast : entries.length / directoryCapacity P = d
  · subst hlast
    simp [directoryAt]
  · rw [if_neg hlast]
    by_cases hlt : d < entries.length / directoryCapacity P + 1
    · have hle : d * directoryCapacity P + directoryCapacity P ≤ entries.length := by
        rw [← Nat.succ_mul]
        exact (Nat.mul_le_mul_right _ (by omega)).trans (Nat.div_mul_le_self _ _)
      rw [List.getElem?_range hlt, Option.map_some, Option.map_some,
        directoryAt_append_of_le link off e rfl rfl hle]
    · have hn : (List.range (entries.length / directoryCapacity P + 1))[d]? = none := by simpa using hlt
      rw [hn]
      rfl

theorem appendEntry_room {h : Heapfile P S} (hd : h.directoryBuffer = directories P link off entries)
    (e : Entry) :
    appendEntry h e = .ok (entries.length,
      { h with directoryBuffer := directories P link off (entries ++ [e]) }) := by
  have hn := (numDirs_succ_of_not_full hr).1
  have hdir : h.directory (entries.length / directoryCapacity P) =
      .ok (directoryAt P link off entries (entries.length / directoryCapacity P)) := by
    rw [Heapfile.directory, hd, directories_getElem? (by omega)]
  have hdm : entries.length / directoryCapacity P * directoryCapacity P +
      entries.length % directoryCapacity P = entries.length := Nat.div_add_mod' _ _
  rw [appendEntry_of_some (by rw [hd, findIdx?_room hp hP hr]) hdir (nextVacantSlot_room hp hP),
    Heapfile.setDirectory, hd, setEntry_room hp hP hr, Directory.setNEntries, directoryAt, hdm]

end Room

theorem appendEntry_of_none {h : Heapfile P S} {e : Entry} {slotNo : Nat} {o : Int}
    {lastDir newDir newDir' : Directory}
    (hi : h.directoryBuffer.findIdx? (fun dir => !isFull dir) = none)
    (hl : h.directory (h.directoryBuffer.length - 1) = .ok lastDir)
    (ho : toInt32 (ftell (fseekEnd h.file)) = o) (hn : initDirectoryPage P o = .ok newDir)
    (hs : nextVacantSlot newDir = .ok (slotNo, newDir')) :
    appendEntry h e = .ok (h.directoryBuffer.length * newDir'.capacity + slotNo,
      { h with
        file := fwrite (fseekSet (fseekEnd h.file) o) newDir.data
        directoryBuffer := h.directoryBuffer.set (h.directoryBuffer.length - 1)
          (lastDir.setNextDirectory o) ++ [newDir'.setEntry slotNo e] }) := by
  rw [appendEntry, hi]
  simp [hl, ho, hn, hs, writeBlock, Heapfile.setDirectory]

/-- The links after directory `d` has been added at `o`. -/
def growLink (link : Nat → Int) (d : Nat) (o : Int) : Nat → Int :=
  Function.update (Function.update link (d - 1) o) d 0

section Full

variable (hp : 1001 < P) (hP : P < 2147483648)
  (hr : LastFull (directoryCapacity P) entries.length)

include hp hP hr

omit hp in
theorem findIdx?_full :
    (directories P link off entries).findIdx? (fun dir => !isFull dir) = none := by
  have hn := (numDirs_succ_of_full hr).1
  rw [List.findIdx?_eq_none_iff]
  intro dir hmem
  obtain ⟨d, hd, rfl⟩ := List.mem_map.mp hmem
  rw [List.mem_range, hn] at hd
  have hle : d * directoryCapacity P + directoryCapacity P ≤ entries.length := by
    rw [← Nat.succ_mul, ← hr.div_mul]
    exact Nat.mul_le_mul_right _ hd
  simp [isFull_directoryAt hP, hle]

/-- All directories being full, the chain grows by one directory that holds the
new entry, and the former last one is linked to it. -/
theorem directories_grow (e : Entry) (o : Int) :
    (directories P link off entries).set (entries.length / directoryCapacity P - 1)
        ((directoryAt P link off entries (entries.length / directoryCapacity P - 1)).setNextDirectory o) ++
      [⟨directoryCapacity P, directoryImage P 0 [e], o⟩] =
    directories P (growLink link (entries.length / directoryCapacity P) o)
      (Function.update off (entries.length / directoryCapacity P) o) (entries ++ [e]) := by
  have hc := (capacity_bounds hp hP).1
  obtain ⟨hn, hn'⟩ := numDirs_succ_of_full hr
  have hmul := hr.div_mul
  have hpos := hr.div_pos
  generalize hD : entries.length / directoryCapacity P = D at *
  have hlast : slice (entries ++ [e]) (D * directoryCapacity P) (directoryCapacity P) = [e] := by
    rw [hmul, slice, List.drop_left, List.take_of_length_le (by rw [List.length_singleton]; omega)]
  rw [directories, directories, List.length_append, List.length_singleton, hn, hn', List.range_succ,
    List.map_append, List.map_singleton]
  congr 1
  · apply List.ext_getElem?
    intro d
    rw [List.getElem?_set, List.length_map, List.length_range, List.getElem?_map, List.getElem?_map]
    by_cases hlt : d < D
    · have hle : d * directoryCapacity P + directoryCapacity P ≤ entries.length := by
        rw [← Nat.succ_mul, ← hmul]
        exact Nat.mul_le_mul_right _ hlt
      have hoff : Function.update off D o d = off d := Function.update_of_ne (by omega) _ _
      have hne : d ≠ D := by omega
      rw [List.getElem?_range hlt, Option.map_some, Option.map_some]
      by_cases hlast' : D - 1 = d
      · subst hlast'
        rw [if_pos rfl, if_pos hlt, directoryAt, setNextDirectory_image]
        have hl : growLink link D o (D - 1) = o := by simp [growLink, hne]
        rw [directoryAt_append_of_le (growLink link D o) off e rfl hoff hle,
          directoryAt, hl]
      · have hl : growLink link D o d = link d := by simp [growLink, hne, Ne.symm hlast']
        rw [if_neg hlast', directoryAt_append_of_le link off e hl hoff hle]
    · have hnone : (List.range D)[d]? = none := by simpa using hlt
      rw [hnone, if_neg (by omega)]
      rfl
  · simp [directoryAt, hlast, growLink]

theorem appendEntry_full {h : Heapfile P S} (hd : h.directoryBuffer = directories P link off entries)
    (e : Entry) {o : Int} (ho : toInt32 (ftell (fseekEnd h.file)) = o) :
    appendEntry h e = .ok (entries.length,
      { h with
        file := fwrite (fseekSet (fseekEnd h.file) o) (List.replicate P 0)
        directoryBuffer := directories P (growLink link (entries.length / directoryCapacity P) o)
          (Function.update off (entries.length / directoryCapacity P) o) (entries ++ [e]) }) := by
  obtain ⟨hc, h8, -⟩ := capacity_bounds hp hP
  have hn := (numDirs_succ_of_full hr).1
  have hmul := hr.div_mul
  have hpos := hr.div_pos
  have hfind : h.directoryBuffer.findIdx? (fun dir => !isFull dir) = none := by
    rw [hd, findIdx?_full hP hr]
  have hlen : h.directoryBuffer.length = entries.length / directoryCapacity P := by
    rw [hd, directories_length, hn]
  have hlast : h.directory (h.directoryBuffer.length - 1) =
      .ok (directoryAt P link off entries (entries.length / directoryCapacity P - 1)) := by
    rw [Heapfile.directory, hlen, hd, directories_getElem? (by omega)]
  have hnew : nextVacantSlot ⟨directoryCapacity P, directoryImage P 0 [], o⟩ =
      .ok (0, Directory.setNEntries ⟨directoryCapacity P, directoryImage P 0 [], o⟩ 1) := by
    have hz : Directory.nEntries ⟨directoryCapacity P, directoryImage P 0 [], o⟩ = 0 :=
      nEntries_image (by decide)
    rw [nextVacantSlot, isFull, hz]
    simp [show ¬ (0 : Int) = directoryCapacity P by omega]
  have happ := append_image (P := P) (c := directoryCapacity P) 0 o [] e
    (by rw [List.length_nil]; omega)
  have hzero : directoryImage P 0 [] = List.replicate P 0 := directoryImage_nil (by omega)
  rw [appendEntry_of_none hfind hlast ho (initDirectoryPage_eq (by omega) o) hnew, hlen]
  simp only [List.length_nil, Nat.cast_zero, zero_add, List.nil_append] at happ
  rw [happ, hd, directories_grow hp hP hr, hzero, Directory.setNEntries, hmul, Nat.add_zero]

end Full

theorem all_isFull_iff (hp : 1001 < P) (hP : P < 2147483648) :
    (directories P link off entries).all isFull = true ↔ LastFull (directoryCapacity P) entries.length := by
  have hall : (directories P link off entries).all isFull = true ↔
      (directories P link off entries).findIdx? (fun dir => !isFull dir) = none := by
    simp [List.findIdx?_eq_none_iff]
  rw [hall]
  by_cases hf : LastFull (directoryCapacity P) entries.length
  · simp [findIdx?_full hP hf, hf]
  · simp [findIdx?_room hp hP hf, hf]

end RecordStore.DirectoryGrowth
