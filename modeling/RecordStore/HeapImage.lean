import RecordStore.DirectoryGrowth
import RecordStore.PageSlots

namespace RecordStore.HeapImage

open RecordStore.Splice RecordStore.BlockImage RecordStore.CFile RecordStore.FixedPage RecordStore.PageBitmap
open RecordStore.PageSlots RecordStore.DirectoryPage RecordStore.HeapFile RecordStore.PageLayout
open RecordStore.DirectoryChain RecordStore.DirectoryGrowth

variable {P S : Nat}

/-- The sizes `init_heapfile` and `init_fixed_len_page` let through. -/
structure Sizes (P S : Nat) : Prop where
  page : 1001 < P
  slotPos : 0 < S
  slotLt : S < P

def blockOffset (P : Nat) (o : Owner) : Nat := position (directoryCapacity P) o * P

theorem blockOffset_dir_of_full {n : Nat} (hf : LastFull (directoryCapacity P) n) :
    blockOffset P (.dir (n / directoryCapacity P)) = (layout (directoryCapacity P) n).length * P + P := by
  rw [blockOffset, position_dir_of_full hf, Nat.succ_mul]

def entriesOf (pages : List (Page P S)) : List Entry :=
  pages.mapIdx (fun j page => ⟨blockOffset P (.page j), fixedLenPageFreeslots page⟩)

/-- The file holds one block for each owner, and `disk` is what the pages look like there. -/
def OnDisk (bytes : List Byte) (n : Nat) (disk : Nat → List Byte → Prop) : Prop :=
  ∃ content : Owner → List Byte, (∀ o ∈ layout (directoryCapacity P) n, (content o).length = P) ∧
    bytes = image (layout (directoryCapacity P) n) content ∧ ∀ j < n, disk j (content (.page j))

/-- A heap file in memory and on disk stands for the list of its pages as they are
now. The page in the cache may be newer than its block; directory blocks on disk
may be old, since the directories that count are the buffered ones. -/
structure Core (h : Heapfile P S) (pages : List (Page P S)) (link off : Nat → Int) : Prop where
  dirs : h.directoryBuffer = directories P link off (entriesOf pages)
  disk : OnDisk (P := P) h.file.bytes pages.length (fun j bs => ∀ page, pages[j]? = some page →
    (h.pageCacheDirty = true → h.cachedPid ≠ some j) → bs = page.data)
  cache : (h.cachedPid = none ∧ h.cachedPage = none ∧ h.pageCacheDirty = false) ∨
    ∃ j page, h.cachedPid = some j ∧ h.cachedPage = some page ∧ pages[j]? = some page
  size : P < 2147483648
  small : ∀ j < pages.length, blockOffset P (.page j) < 2147483648

theorem entriesOf_length (pages : List (Page P S)) : (entriesOf pages).length = pages.length := by
  simp [entriesOf]

theorem entriesOf_getElem? {pages : List (Page P S)} {j : Nat} {page : Page P S}
    (hj : pages[j]? = some page) :
    (entriesOf pages)[j]? = some ⟨blockOffset P (.page j), fixedLenPageFreeslots page⟩ := by
  simp [entriesOf, hj]

theorem entriesOf_set {pages : List (Page P S)} {j : Nat} (page : Page P S) :
    entriesOf (pages.set j page) =
      (entriesOf pages).set j ⟨blockOffset P (.page j), fixedLenPageFreeslots page⟩ := by
  apply List.ext_getElem?
  intro i
  simp only [entriesOf, List.getElem?_mapIdx, List.getElem?_set, List.length_mapIdx]
  by_cases hij : j = i
  · subst hij
    by_cases hlt : j < pages.length <;> simp [hlt]
  · simp [hij]

theorem entriesOf_append (pages : List (Page P S)) (page : Page P S) :
    entriesOf (pages ++ [page]) =
      entriesOf pages ++ [⟨blockOffset P (.page pages.length), fixedLenPageFreeslots page⟩] := by
  simp [entriesOf, List.mapIdx_append]

theorem freeslots_le (page : Page P S) : fixedLenPageFreeslots page ≤ P := by
  rw [freeslots_eq]
  exact (Nat.sub_le _ _).trans ((capacity_le_div P S).trans (Nat.div_le_self _ _))

theorem fits_entriesOf {pages : List (Page P S)} (hP : P < 2147483648)
    (hs : ∀ j < pages.length, blockOffset P (.page j) < 2147483648) : Fits (entriesOf pages) := by
  intro e he
  obtain ⟨j, hj, rfl⟩ := List.mem_mapIdx.mp he
  have h1 := hs j hj
  have h2 := freeslots_le pages[j]
  constructor <;> constructor <;> simp only <;> omega

theorem owner_mem {n j : Nat} (hj : j < n) : .page j ∈ layout (directoryCapacity P) n :=
  page_mem_layout.mpr hj

/-- Reading the block of an owner delivers its content and leaves the bytes as they are. -/
theorem readBlock_owner {h : Heapfile P S} {n : Nat} {content : Owner → List Byte}
    (hs : ∀ o ∈ layout (directoryCapacity P) n, (content o).length = P)
    (hb : h.file.bytes = image (layout (directoryCapacity P) n) content) {o : Owner}
    (ho : o ∈ layout (directoryCapacity P) n) :
    ∃ block file, readBlock h (blockOffset P o) = .ok (block, { h with file := file }) ∧
      block.1 = content o ∧ file.bytes = h.file.bytes := by
  have hsl : slice h.file.bytes (blockOffset P o) P = content o := by
    rw [hb]
    exact slice_image hs (layout_position ho)
  have hpos : (fseekSet h.file (blockOffset P o)).pos = blockOffset P o := by rw [fseekSet_natCast]
  exact ⟨⟨content o, hs o ho⟩, _, readBlock_slice (hpos.symm ▸ hsl) (hs o ho), rfl, rfl⟩

theorem writeBlock_owner {h : Heapfile P S} {n : Nat} {content : Owner → List Byte}
    (hs : ∀ o ∈ layout (directoryCapacity P) n, (content o).length = P)
    (hb : h.file.bytes = image (layout (directoryCapacity P) n) content) {o : Owner}
    (ho : o ∈ layout (directoryCapacity P) n) {x : List Byte} (hx : x.length = P) :
    (writeBlock h x (blockOffset P o)).file.bytes =
      image (layout (directoryCapacity P) n) (Function.update content o x) := by
  have hlen : h.file.bytes.length = (layout (directoryCapacity P) n).length * P := by
    rw [hb, image_length hs]
  have hle : blockOffset P o ≤ h.file.bytes.length := by
    rw [hlen]
    exact Nat.mul_le_mul_right _ (position_lt ho).le
  have hw : (writeBlock h x (blockOffset P o)).file.bytes =
      splice h.file.bytes (blockOffset P o) x := by
    rw [writeBlock, fseekSet_natCast, fwrite_of_le hle]
  rw [hw, hb]
  exact splice_image (layout_nodup n) hs (layout_position ho) hx

theorem update_length {n : Nat} {content : Owner → List Byte}
    (hs : ∀ o ∈ layout (directoryCapacity P) n, (content o).length = P) {o : Owner} {x : List Byte}
    (hx : x.length = P) :
    ∀ p ∈ layout (directoryCapacity P) n, (Function.update content o x p).length = P := by
  intro p hp
  by_cases hpo : p = o
  · subst hpo
    rw [Function.update_self, hx]
  · rw [Function.update_of_ne hpo, hs p hp]

theorem commitPage_of {h : Heapfile P S} {j : Nat} {page : Page P S} {entry : EntryRef}
    {dir : Directory} (hpid : h.cachedPid = some j) (hpage : h.cachedPage = some page)
    (hent : getEntry h j = .ok entry) (hdir : h.directory entry.dirNo = .ok dir) :
    commitPage h j = .ok { h.setDirectory entry.dirNo
      (dir.setFreeSpace entry.slotNo (fixedLenPageFreeslots page)) with pageCacheDirty := true } := by
  simp [commitPage, hpid, hpage, hent, hdir]

namespace Core

variable {h : Heapfile P S} {pages : List (Page P S)} {link off : Nat → Int}

theorem bytes_length (hc : Core h pages link off) :
    h.file.bytes.length = (layout (directoryCapacity P) pages.length).length * P := by
  obtain ⟨content, hs, hb, -⟩ := hc.disk
  rw [hb, image_length hs]

theorem fits (hc : Core h pages link off) : Fits (entriesOf pages) :=
  fits_entriesOf hc.size hc.small

theorem buffer_length (hc : Core h pages link off) :
    h.directoryBuffer.length = numDirs (directoryCapacity P) pages.length := by
  rw [hc.dirs, directories_length, entriesOf_length]

theorem buffer_getElem? (hc : Core h pages link off) {d : Nat}
    (hd : d < numDirs (directoryCapacity P) pages.length) :
    h.directoryBuffer[d]? = some (directoryAt P link off (entriesOf pages) d) := by
  rw [hc.dirs, directories_getElem? (by rwa [entriesOf_length])]

theorem directory (hc : Core h pages link off) {d : Nat} (hd : d < numDirs (directoryCapacity P) pages.length) :
    h.directory d = .ok (directoryAt P link off (entriesOf pages) d) := by
  rw [Heapfile.directory, hc.buffer_getElem? hd]

theorem getEntry (hp : 1001 < P) (hc : Core h pages link off) {j : Nat} {page : Page P S}
    (hj : pages[j]? = some page) :
    getEntry h j = .ok ⟨j / directoryCapacity P, j % directoryCapacity P,
      ⟨blockOffset P (.page j), fixedLenPageFreeslots page⟩⟩ :=
  getEntry_directories hp hc.size hc.dirs hc.fits (entriesOf_getElem? hj)

theorem directory_past (hc : Core h pages link off) {d : Nat}
    (hd : numDirs (directoryCapacity P) pages.length ≤ d) : h.directory d = .error (.dirIndex d) := by
  rw [Heapfile.directory, List.getElem?_eq_none (by rwa [hc.buffer_length])]

theorem writeBack (hp : 1001 < P) (hc : Core h pages link off) :
    ∃ file, writeBack h = .ok { h with file := file } ∧
      OnDisk (P := P) file.bytes pages.length
        (fun j bs => ∀ page, pages[j]? = some page → bs = page.data) := by
  obtain ⟨content, hs, hb, hd⟩ := hc.disk
  by_cases hdirty : h.pageCacheDirty = true
  case neg =>
    refine ⟨h.file, if_neg hdirty, content, hs, hb, ?_⟩
    intro j hj page hp'
    exact hd j hj page hp' (fun ht => absurd ht hdirty)
  case pos =>
    obtain ⟨-, -, hf⟩ | ⟨j, page, hpid, hpage, hj⟩ := hc.cache
    · simp [hdirty] at hf
    · have hlt : j < pages.length := (List.getElem?_eq_some_iff.mp hj).1
      have hmem := owner_mem (P := P) hlt
      have hw := writeBlock_owner hs hb hmem page.length_data
      refine ⟨(writeBlock h page.data (blockOffset P (.page j))).file, ?_, _,
        update_length hs page.length_data, hw, ?_⟩
      · simp [HeapFile.writeBack, hdirty, hpid, hpage, hc.getEntry hp hj, writeBlock]
      · intro i hi page' hp'
        by_cases hij : i = j
        · subst hij
          rw [hj] at hp'
          rw [Function.update_self, Option.some.inj hp']
        · have hne : Owner.page i ≠ .page j := fun he => hij (Owner.page.inj he)
          rw [Function.update_of_ne hne]
          exact hd i hi page' hp' (fun _ he => hij (Option.some.inj (hpid ▸ he)).symm)

theorem getPage (hz : Sizes P S) (hc : Core h pages link off) {j : Nat} {page : Page P S}
    (hj : pages[j]? = some page) :
    ∃ h', getPage h j = .ok (page, h') ∧ Core h' pages link off ∧
      h'.cachedPid = some j ∧ h'.cachedPage = some page := by
  by_cases hpid : h.cachedPid = some j
  · obtain ⟨hn, -⟩ | ⟨i, page', hpid', hpage', hi⟩ := hc.cache
    · simp [hpid] at hn
    · obtain rfl : j = i := Option.some.inj (hpid ▸ hpid')
      obtain rfl : page' = page := by simpa [hi] using hj
      exact ⟨h, by simp [HeapFile.getPage, hpid, hpage'], hc, hpid, hpage'⟩
  · obtain ⟨file, hw, content, hs, hb, hd⟩ := hc.writeBack hz.page
    have hlt : j < pages.length := (List.getElem?_eq_some_iff.mp hj).1
    have hent : HeapFile.getEntry { h with file := file } j = .ok ⟨j / directoryCapacity P,
        j % directoryCapacity P, ⟨blockOffset P (.page j), fixedLenPageFreeslots page⟩⟩ :=
      getEntry_directories hz.page hc.size hc.dirs hc.fits (entriesOf_getElem? hj)
    obtain ⟨block, file', hr, hblock, hfile'⟩ :=
      readBlock_owner (h := { h with file := file }) hs hb (owner_mem (P := P) hlt)
    have hpage : (Page.ofBlock block : Page P S) = page :=
      Page.ext (hblock.trans (hd j hlt page hj))
    have hinit : initFixedLenPage P S = .ok (Page.blank P S) := if_pos ⟨hz.slotPos, hz.slotLt⟩
    refine ⟨{ h with
      file := file', cachedPage := some page, cachedPid := some j, pageCacheDirty := false }, ?_, ?_, rfl, rfl⟩
    · simp [HeapFile.getPage, hpid, hw, hinit, hent, hr, hpage]
    · refine ⟨hc.dirs, ⟨content, hs, hfile'.trans hb, ?_⟩, .inr ⟨j, page, rfl, rfl, hj⟩,
        hc.size, hc.small⟩
      intro i hi page' hp' _
      exact hd i hi page' hp'

theorem commitPage (hz : Sizes P S) (hc : Core h pages link off) {j : Nat}
    (hpid : h.cachedPid = some j) (page' : Page P S) :
    ∃ h', commitPage { h with cachedPage := some page' } j = .ok h' ∧
      Core h' (pages.set j page') link off ∧
      h'.cachedPid = some j ∧ h'.cachedPage = some page' := by
  obtain ⟨hn, -⟩ | ⟨i, page, hpid', hpage, hj⟩ := hc.cache
  · simp [hpid] at hn
  obtain rfl : j = i := Option.some.inj (hpid ▸ hpid')
  have hlt : j < pages.length := (List.getElem?_eq_some_iff.mp hj).1
  have hcap := (capacity_bounds hz.page hc.size).1
  have hent : HeapFile.getEntry { h with cachedPage := some page' } j = .ok ⟨j / directoryCapacity P,
      j % directoryCapacity P, ⟨blockOffset P (.page j), fixedLenPageFreeslots page⟩⟩ :=
    getEntry_directories hz.page hc.size hc.dirs hc.fits (entriesOf_getElem? hj)
  have hdir : Heapfile.directory { h with cachedPage := some page' } (j / directoryCapacity P) =
      .ok (directoryAt P link off (entriesOf pages) (j / directoryCapacity P)) := hc.directory (dir_lt hlt)
  have hset := setFreeSpace_directories link off hcap (entriesOf_getElem? hj)
    (fixedLenPageFreeslots page' : Int)
  refine ⟨{ h with
    directoryBuffer := directories P link off (entriesOf (pages.set j page'))
    cachedPage := some page', pageCacheDirty := true }, ?_, ?_, hpid, rfl⟩
  · rw [commitPage_of (h := { h with cachedPage := some page' }) hpid rfl hent hdir,
      Heapfile.setDirectory, entriesOf_set]
    simp only [hc.dirs, hset]
  · obtain ⟨content, hs, hb, hd⟩ := hc.disk
    refine ⟨rfl, ⟨content, ?_, ?_, ?_⟩, .inr ⟨j, page', hpid, rfl, ?_⟩, hc.size, ?_⟩
    · rwa [List.length_set]
    · rwa [List.length_set]
    · intro i hi page'' hp'' hne
      rw [List.length_set] at hi
      have hij : j ≠ i := fun he => hne rfl (he ▸ hpid)
      rw [List.getElem?_set_ne hij] at hp''
      exact hd i hi page'' hp'' (fun _ he => hij (Option.some.inj (hpid ▸ he)))
    · simp [hlt]
    · intro i hi
      rw [List.length_set] at hi
      exact hc.small i hi

end Core

end RecordStore.HeapImage
