import RecordStore.HeapRefinement

namespace RecordStore.HeapReopen

open RecordStore.Splice RecordStore.BlockImage RecordStore.CFile RecordStore.Int32 RecordStore.Outcome
open RecordStore.FixedPage RecordStore.DirectoryPage RecordStore.HeapFile RecordStore.PageLayout
open RecordStore.DirectoryChain RecordStore.HeapImage RecordStore.HeapAlloc RecordStore.HeapSession
open RecordStore.LogicalPages

variable {P S : Nat} {h : Heapfile P S} {pages : Pages P S}

def chainDirectory (pages : Pages P S) (d : Nat) : Directory :=
  directoryAt P (chainLink P pages.length) (chainOffset P) (entriesOf pages) d

def closedBlock (pages : Pages P S) : Owner → List Byte
  | .dir d => (chainDirectory pages d).data
  | .page j => (pages[j]?.map Page.data).getD (List.replicate P 0)

def closedFile (pages : Pages P S) : List Byte :=
  image (layout (directoryCapacity P) pages.length) (closedBlock pages)

theorem chainDirectory_data_length (hp : 1001 < P) (hP : P < 2147483648) (d : Nat) :
    (chainDirectory pages d).data.length = P := by
  have hc := (capacity_bounds hp hP).2.1
  refine directoryImage_length _ ?_
  rw [slice_length]
  omega

theorem closedBlock_length (pages : Pages P S) (hp : 1001 < P) (hP : P < 2147483648) (o : Owner) :
    (closedBlock pages o).length = P := by
  cases o with
  | dir d => exact chainDirectory_data_length hp hP d
  | page j =>
    rw [closedBlock]
    cases pages[j]? with
    | none => simp
    | some page => exact page.length_data

theorem closedFile_length (pages : Pages P S) (hp : 1001 < P) (hP : P < 2147483648) :
    (closedFile pages).length = (layout (directoryCapacity P) pages.length).length * P :=
  image_length (fun o _ => closedBlock_length pages hp hP o)

/-- A page that keeps its number of free slots changes its own block of the file and no other. -/
theorem closedFile_set (hp : 1001 < P) (hP : P < 2147483648) {j : Nat} {page page' : Page P S}
    (hj : pages[j]? = some page) (hfree : fixedLenPageFreeslots page' = fixedLenPageFreeslots page) :
    closedFile (pages.set j page') = splice (closedFile pages) (blockOffset P (.page j)) page'.data := by
  have hlt : j < pages.length := (List.getElem?_eq_some_iff.mp hj).1
  have hentries : entriesOf (pages.set j page') = entriesOf pages := by
    obtain ⟨hl, he⟩ := List.getElem?_eq_some_iff.mp (entriesOf_getElem? hj)
    rw [entriesOf_set, hfree, ← he, List.set_getElem_self hl]
  have hblocks : closedBlock (pages.set j page') = Function.update (closedBlock pages) (.page j) page'.data := by
    funext o
    cases o with
    | dir d => rw [Function.update_of_ne (by simp), closedBlock, closedBlock, chainDirectory, chainDirectory,
        hentries, List.length_set]
    | page i =>
      by_cases hij : i = j
      · subst hij
        rw [Function.update_self, closedBlock, List.getElem?_set_self hlt]
        rfl
      · rw [Function.update_of_ne (by simpa using hij), closedBlock, closedBlock,
          List.getElem?_set_ne (Ne.symm hij)]
  rw [closedFile, closedFile, hblocks, List.length_set]
  exact (splice_image (layout_nodup _) (fun o _ => closedBlock_length pages hp hP o)
    (layout_position (owner_mem (P := P) hlt)) page'.length_data).symm

theorem foldl_writeBlock {n : Nat} (D : Nat → Directory)
    (hoff : ∀ d, (D d).offset = (blockOffset P (.dir d) : Int)) (hlen : ∀ d, (D d).data.length = P)
    (ds : List Nat) (hds : ∀ d ∈ ds, d < numDirs (directoryCapacity P) n) (h : Heapfile P S)
    (content : Owner → List Byte)
    (hs : ∀ o ∈ layout (directoryCapacity P) n, (content o).length = P)
    (hb : h.file.bytes = image (layout (directoryCapacity P) n) content) :
    ∃ content' : Owner → List Byte,
      ((ds.map D).foldl (fun h dir => writeBlock h dir.data dir.offset) h).file.bytes =
        image (layout (directoryCapacity P) n) content' ∧
      (∀ j, content' (.page j) = content (.page j)) ∧
      ∀ d, d ∈ ds ∨ content (.dir d) = (D d).data → content' (.dir d) = (D d).data := by
  induction ds generalizing h content with
  | nil => exact ⟨content, hb, fun _ => rfl, fun d hd => by simpa using hd⟩
  | cons d ds ih =>
    have hmem : .dir d ∈ layout (directoryCapacity P) n :=
      dir_mem_layout.mpr (hds d (List.mem_cons_self ..))
    have hw := writeBlock_owner hs hb hmem (hlen d)
    obtain ⟨content', hb', hp', hd'⟩ := ih (fun e he => hds e (List.mem_cons_of_mem _ he))
      (writeBlock h (D d).data (blockOffset P (.dir d))) (Function.update content (.dir d) (D d).data)
      (update_length hs (hlen d)) hw
    refine ⟨content', ?_, ?_, ?_⟩
    · rw [List.map_cons, List.foldl_cons, hoff]
      exact hb'
    · intro j
      rw [hp', Function.update_of_ne (by simp)]
    · intro e he
      apply hd'
      by_cases hed : e = d
      · subst hed
        exact .inr (Function.update_self ..)
      · have hne : Owner.dir e ≠ .dir d := fun heq => hed (Owner.dir.inj heq)
        simpa [Function.update_of_ne hne, hed] using he

/-- The closed file depends on the pages only. -/
theorem closeHeapfile_eq (hp : 1001 < P) (hr : Rep h pages) :
    closeHeapfile h = .ok (closedFile pages) := by
  have hP := hr.core.size
  obtain ⟨file, hw, content, hs, hb, hd⟩ := hr.core.writeBack hp
  obtain ⟨content', hb', hpage', hdir'⟩ := foldl_writeBlock (chainDirectory pages) (fun _ => rfl)
    (chainDirectory_data_length hp hP) (List.range (numDirs (directoryCapacity P) pages.length))
    (fun d hd => List.mem_range.mp hd) { h with file := file } content hs hb
  have hdirs : h.directoryBuffer =
      (List.range (numDirs (directoryCapacity P) pages.length)).map (chainDirectory pages) := by
    rw [hr.core.dirs, directories, entriesOf_length]
    rfl
  have himg : image (layout (directoryCapacity P) pages.length) content' = closedFile pages := by
    refine image_congr (fun o ho => ?_)
    cases o with
    | dir d => exact hdir' d (.inl (List.mem_range.mpr (dir_mem_layout.mp ho)))
    | page j =>
      have hj := page_mem_layout.mp ho
      have hget := List.getElem?_eq_getElem hj
      rw [hpage', hd j hj _ hget, closedBlock, hget]
      rfl
  rw [← hdirs, himg] at hb'
  rw [closeHeapfile, hw, ok_bind, ← hb']

theorem chainLink_inRange {n : Nat}
    (hb : (layout (directoryCapacity P) n).length * P < 2147483648) (d : Nat) :
    InRange (chainLink P n d) := by
  unfold chainLink
  split
  case isTrue hd =>
    have hlt := position_lt (dir_mem_layout.mpr hd)
    have hle : blockOffset P (.dir (d + 1)) ≤ (layout (directoryCapacity P) n).length * P :=
      Nat.mul_le_mul_right _ hlt.le
    constructor <;> omega
  case isFalse => decide

theorem chainLink_ne_zero_iff (hp : 0 < P) (n d : Nat) :
    chainLink P n d ≠ 0 ↔ d + 1 < numDirs (directoryCapacity P) n := by
  unfold chainLink
  split
  case isTrue hd =>
    have hpos : 0 < blockOffset P (.dir (d + 1)) := Nat.mul_pos (Nat.succ_pos _) hp
    simp only [hd, iff_true]
    omega
  case isFalse hd => simp [hd]

theorem openLoop_of {fuel : Nat} {h1 : Heapfile P S} {offset : Int} {dir : Directory}
    {block : { bs : List Byte // bs.length = P }} (hi : initDirectoryPage P offset = .ok dir)
    (hr : readBlock h offset = .ok (block, h1)) :
    openLoop (fuel + 1) h offset =
      if Directory.nextDirectory { dir with data := block.1 } ≠ 0 then
        openLoop fuel { h1 with directoryBuffer := h1.directoryBuffer ++ [{ dir with data := block.1 }] }
          (Directory.nextDirectory { dir with data := block.1 })
      else .ok { h1 with directoryBuffer := h1.directoryBuffer ++ [{ dir with data := block.1 }] } := by
  simp [openLoop, hi, hr]

theorem openLoop_step (hp : 1001 < P) (hP : P < 2147483648)
    (hbound : (layout (directoryCapacity P) pages.length).length * P < 2147483648) {d : Nat}
    (hd : d < numDirs (directoryCapacity P) pages.length) (fuel : Nat)
    (hb : h.file.bytes = closedFile pages)
    (hdirs : h.directoryBuffer = (List.range d).map (chainDirectory pages)) :
    ∃ file, file.bytes = closedFile pages ∧ openLoop (fuel + 1) h (chainOffset P d) =
      if d + 1 < numDirs (directoryCapacity P) pages.length then
        openLoop fuel { h with
          file := file
          directoryBuffer := (List.range (d + 1)).map (chainDirectory pages) } (chainOffset P (d + 1))
      else .ok { h with
        file := file
        directoryBuffer := (List.range (d + 1)).map (chainDirectory pages) } := by
  obtain ⟨block, file, hread, hblock, hfile⟩ := readBlock_owner
    (fun o _ => closedBlock_length pages hp hP o) hb (dir_mem_layout.mpr hd)
  have hinit := initDirectoryPage_eq (show 16 ≤ P by omega) (chainOffset P d)
  have hdir : ({ (⟨directoryCapacity P, directoryImage P 0 [], chainOffset P d⟩ : Directory) with
      data := block.1 } : Directory) = chainDirectory pages d := by
    rw [hblock]
    rfl
  have hnext : (chainDirectory pages d).nextDirectory = chainLink P pages.length d :=
    nextDirectory_image (chainLink_inRange hbound d)
  have hbuf : h.directoryBuffer ++ [chainDirectory pages d] =
      (List.range (d + 1)).map (chainDirectory pages) := by
    rw [hdirs, List.range_succ, List.map_append, List.map_singleton]
  refine ⟨file, hfile.trans hb, ?_⟩
  rw [openLoop_of hinit hread, hdir, hnext]
  simp only [chainLink_ne_zero_iff (show 0 < P by omega), hbuf]
  by_cases hlast : d + 1 < numDirs (directoryCapacity P) pages.length
  · rw [if_pos hlast, if_pos hlast, chainLink, if_pos hlast, chainOffset]
  · rw [if_neg hlast, if_neg hlast]

theorem openLoop_chain (hp : 1001 < P) (hP : P < 2147483648)
    (hbound : (layout (directoryCapacity P) pages.length).length * P < 2147483648) (k : Nat) :
    ∀ (fuel d : Nat) (h : Heapfile P S), d + k + 1 = numDirs (directoryCapacity P) pages.length →
      k < fuel → h.file.bytes = closedFile pages →
      h.directoryBuffer = (List.range d).map (chainDirectory pages) →
      ∃ file, file.bytes = closedFile pages ∧ openLoop fuel h (chainOffset P d) = .ok { h with
          file := file
          directoryBuffer := (List.range (d + k + 1)).map (chainDirectory pages) } := by
  induction k with
  | zero =>
    intro fuel d h hd hfuel hb hdirs
    obtain ⟨fuel, rfl⟩ := Nat.exists_eq_succ_of_ne_zero (show fuel ≠ 0 by omega)
    obtain ⟨file, hfile, hstep⟩ := openLoop_step hp hP hbound (by omega) fuel hb hdirs
    exact ⟨file, hfile, by rw [hstep, if_neg (by omega)]⟩
  | succ k ih =>
    intro fuel d h hd hfuel hb hdirs
    obtain ⟨fuel, rfl⟩ := Nat.exists_eq_succ_of_ne_zero (show fuel ≠ 0 by omega)
    obtain ⟨file, hfile, hstep⟩ := openLoop_step hp hP hbound (by omega) fuel hb hdirs
    obtain ⟨file', hfile', hrest⟩ := ih fuel (d + 1) { h with
      file := file
      directoryBuffer := (List.range (d + 1)).map (chainDirectory pages) } (by omega) (by omega) hfile rfl
    refine ⟨file', hfile', ?_⟩
    rw [hstep, if_pos (by omega), hrest, show d + (k + 1) + 1 = d + 1 + k + 1 by omega]

theorem numDirs_le_layout (c n : Nat) : numDirs c n ≤ (layout c n).length := by
  induction n with
  | zero => simp [numDirs, layout]
  | succ n ih =>
    by_cases hf : LastFull c n
    · rw [layout_succ_of_full hf, (numDirs_succ_of_full hf).2, ← (numDirs_succ_of_full hf).1]
      simp only [List.length_append, List.length_cons, List.length_nil]
      omega
    · rw [layout_succ_of_not_full hf, (numDirs_succ_of_not_full hf).2, ← (numDirs_succ_of_not_full hf).1]
      simp only [List.length_append, List.length_cons, List.length_nil]
      omega

theorem chainOffset_zero (P : Nat) : chainOffset P 0 = 0 := by
  simp [chainOffset, blockOffset, position]

theorem openHeapfile_closedFile (hp : 1001 < P) (hP : P < 2147483648)
    (hbound : (closedFile pages).length < 2147483648) :
    ∃ h, openHeapfile P S ((closedFile pages).length / P + 1) (closedFile pages) = .ok h ∧
      Rep h pages ∧ h.pageCacheDirty = false := by
  have hlen := closedFile_length pages hp hP
  have hbound' := hlen ▸ hbound
  have hfuel : (closedFile pages).length / P = (layout (directoryCapacity P) pages.length).length := by
    rw [hlen, Nat.mul_div_cancel _ (by omega)]
  have hnum := numDirs_le_layout (directoryCapacity P) pages.length
  have hpos : 0 < numDirs (directoryCapacity P) pages.length := Nat.succ_pos _
  obtain ⟨file, hfile, hopen⟩ := openLoop_chain hp hP hbound'
    (numDirs (directoryCapacity P) pages.length - 1) ((closedFile pages).length / P + 1) 0
    (⟨⟨closedFile pages, 0⟩, [], none, none, false⟩ : Heapfile P S) (by omega) (by omega) rfl rfl
  have hdirs : (List.range (0 + (numDirs (directoryCapacity P) pages.length - 1) + 1)).map
      (chainDirectory pages) = directories P (chainLink P pages.length) (chainOffset P)
        (entriesOf pages) := by
    rw [directories, entriesOf_length, show 0 + (numDirs (directoryCapacity P) pages.length - 1) + 1 =
      numDirs (directoryCapacity P) pages.length by omega]
    rfl
  rw [hdirs] at hopen
  have hinit : openHeapfile P S ((closedFile pages).length / P + 1) (closedFile pages) =
      openLoop ((closedFile pages).length / P + 1)
        (⟨⟨closedFile pages, 0⟩, [], none, none, false⟩ : Heapfile P S) (chainOffset P 0) := by
    rw [openHeapfile, initHeapfile, if_pos hp, ok_bind, chainOffset_zero]
  refine ⟨_, hinit.trans hopen, ?_⟩
  refine ⟨⟨⟨rfl, ⟨closedBlock pages, fun o _ => closedBlock_length pages hp hP o, hfile, ?_⟩,
    .inl ⟨rfl, rfl, rfl⟩, hP, ?_⟩, hfile ▸ hbound⟩, rfl⟩
  · intro j _ page hj _
    rw [closedBlock, hj]
    rfl
  · intro j hj
    have hlt := position_lt (owner_mem (P := P) hj)
    exact lt_of_le_of_lt (Nat.mul_le_mul_right _ hlt.le) hbound'

theorem reopen_rep (hp : 1001 < P) (hr : Rep h pages) :
    ∃ h', reopen h = .ok h' ∧ Rep h' pages := by
  have hbound : (closedFile pages).length < 2147483648 := by
    rw [closedFile_length pages hp hr.core.size, ← hr.core.bytes_length]
    exact hr.bound
  obtain ⟨h', hopen, hr', -⟩ := openHeapfile_closedFile hp hr.core.size hbound
  exact ⟨h', by rw [reopen, closeHeapfile_eq hp hr, ok_bind, hopen], hr'⟩

theorem blank_image_length (hp : 1001 < P) : (directoryImage P 0 []).length = P :=
  directoryImage_length 0 (show 8 + 8 * 0 ≤ P by omega)

theorem createHeapfile_eq (hp : 1001 < P) :
    createHeapfile P S = .ok ⟨⟨directoryImage P 0 [], P⟩,
      [⟨directoryCapacity P, directoryImage P 0 [], 0⟩], none, none, false⟩ := by
  have hinit := initDirectoryPage_eq (show 16 ≤ P by omega) 0
  have hfile : fwrite (fseekSet ⟨[], 0⟩ 0) (directoryImage P 0 []) = ⟨directoryImage P 0 [], P⟩ := by
    rw [show fseekSet ⟨[], 0⟩ 0 = ⟨[], 0⟩ from rfl, fwrite_end rfl, blank_image_length hp]
    simp
  rw [createHeapfile, initHeapfile, if_pos hp, ok_bind, hinit, ok_bind]
  simp only [writeBlock, hfile, List.nil_append]

theorem createHeapfile_rep (hp : 1001 < P) (hP : P < 2147483648) :
    ∃ h, createHeapfile P S = .ok h ∧ Rep h [] ∧ h.pageCacheDirty = false := by
  have hlen := blank_image_length hp
  refine ⟨_, createHeapfile_eq hp, ⟨⟨?_, ⟨fun _ => directoryImage P 0 [], fun _ _ => hlen, ?_, by simp⟩,
    .inl ⟨rfl, rfl, rfl⟩, hP, by simp⟩, ?_⟩, rfl⟩
  · simp [directories, entriesOf, numDirs, directoryAt, chainLink, chainOffset_zero, slice]
  · simp [layout, image]
  · rw [hlen]
    exact hP

end RecordStore.HeapReopen
