import RecordStore.HeapImage

namespace RecordStore.HeapAlloc

open RecordStore.BlockImage RecordStore.CFile RecordStore.Int32 RecordStore.FixedPage
open RecordStore.DirectoryPage RecordStore.HeapFile RecordStore.PageLayout RecordStore.DirectoryChain
open RecordStore.DirectoryGrowth RecordStore.HeapImage

variable {P S : Nat} {h : Heapfile P S} {pages : List (Page P S)} {link off : Nat → Int}

/-- The links of a chain for `n` pages: to the next directory, and 0 at the end. -/
def chainLink (P n d : Nat) : Int :=
  if d + 1 < numDirs (directoryCapacity P) n then blockOffset P (.dir (d + 1)) else 0

def chainOffset (P d : Nat) : Int := blockOffset P (.dir d)

/-- A heap file whose file is below `2 ^ 31` bytes, with links and offsets exact. -/
structure Rep (h : Heapfile P S) (pages : List (Page P S)) : Prop where
  core : Core h pages (chainLink P pages.length) (chainOffset P)
  bound : h.file.bytes.length < 2147483648

/-- What holds after any operation: the file may have outgrown `int` offsets. -/
def Tracks (h : Heapfile P S) (pages : List (Page P S)) : Prop :=
  ∃ link off, Core h pages link off ∧ (h.file.bytes.length < 2147483648 → Rep h pages)

theorem Rep.tracks (hr : Rep h pages) : Tracks h pages := ⟨_, _, hr.core, fun _ => hr⟩

theorem directories_congr {link' off' : Nat → Int} {entries : List Entry}
    (hl : ∀ d < numDirs (directoryCapacity P) entries.length, link d = link' d)
    (ho : ∀ d < numDirs (directoryCapacity P) entries.length, off d = off' d) :
    directories P link off entries = directories P link' off' entries := by
  apply List.map_congr_left
  intro d hd
  have hd' := List.mem_range.mp hd
  rw [directoryAt, directoryAt, hl d hd', ho d hd']

theorem chain_grow {n : Nat} (hf : LastFull (directoryCapacity P) n) {o : Int}
    (ho : o = blockOffset P (.dir (n / directoryCapacity P))) :
    (∀ d < numDirs (directoryCapacity P) (n + 1),
      growLink (chainLink P n) (n / directoryCapacity P) o d = chainLink P (n + 1) d) ∧
    (∀ d < numDirs (directoryCapacity P) (n + 1),
      Function.update (chainOffset P) (n / directoryCapacity P) o d = chainOffset P d) := by
  obtain ⟨hn, hn'⟩ := numDirs_succ_of_full hf
  constructor
  · intro d hd
    unfold growLink chainLink
    rw [hn, hn', Function.update_apply, Function.update_apply]
    by_cases h1 : d = n / directoryCapacity P
    · simp [h1]
    · by_cases h2 : d = n / directoryCapacity P - 1
      · have hd1 : d + 1 = n / directoryCapacity P := by omega
        rw [if_neg h1, if_pos h2, hd1, if_pos (by omega), ho]
      · rw [if_neg h1, if_neg h2, if_pos (by omega), if_pos (by omega)]
  · intro d hd
    rw [Function.update_apply]
    split
    case isTrue h1 => rw [ho, h1, chainOffset]
    case isFalse h1 => rfl

/-- The content of the blocks once those of `n` pages have been joined by blank ones. -/
def grown (P n : Nat) (content : Owner → List Byte) (o : Owner) : List Byte :=
  if o ∈ layout (directoryCapacity P) n then content o else List.replicate P 0

/-- The file with the block of a new page appended, and of a new directory if one is due. -/
theorem image_grow (n : Nat) (content : Owner → List Byte) :
    image (layout (directoryCapacity P) (n + 1)) (grown P n content) =
      image (layout (directoryCapacity P) n) content ++
        (if LastFull (directoryCapacity P) n then List.replicate P 0 ++ List.replicate P 0
          else List.replicate P 0) := by
  have hold : image (layout (directoryCapacity P) n) (grown P n content) =
      image (layout (directoryCapacity P) n) content := image_congr (fun o ho => if_pos ho)
  have hp : .page n ∉ layout (directoryCapacity P) n := by simp [page_mem_layout]
  by_cases hf : LastFull (directoryCapacity P) n
  · have hd : .dir (n / directoryCapacity P) ∉ layout (directoryCapacity P) n := by
      rw [dir_mem_layout, (numDirs_succ_of_full hf).1]
      omega
    rw [layout_succ_of_full hf, image_append, hold, if_pos hf]
    simp [image, grown, hp, hd]
  · rw [layout_succ_of_not_full hf, image_append, hold, if_neg hf]
    simp [image, grown, hp]

theorem grown_length {n : Nat} {content : Owner → List Byte}
    (hs : ∀ o ∈ layout (directoryCapacity P) n, (content o).length = P) (o : Owner) :
    (grown P n content o).length = P := by
  unfold grown
  split
  case isTrue ho => exact hs o ho
  case isFalse => exact List.length_replicate

theorem lt_or_eq_last {n j : Nat} (hj : j < n + 1) : j < n ∨ j = n := by omega

/-- A heap file whose directories and file have been extended by a blank page, the
cache untouched. -/
theorem core_grow (hc : Core h pages link off) (hb : h.file.bytes.length < 2147483648)
    (h2 : Heapfile P S) {link' off' : Nat → Int}
    (hdirs : h2.directoryBuffer = directories P link' off' (entriesOf (pages ++ [Page.blank P S])))
    (hbytes : h2.file.bytes = h.file.bytes ++
      (if LastFull (directoryCapacity P) pages.length then List.replicate P 0 ++ List.replicate P 0
        else List.replicate P 0))
    (hpage : h2.cachedPage = h.cachedPage) (hpid : h2.cachedPid = h.cachedPid)
    (hdirty : h2.pageCacheDirty = h.pageCacheDirty) :
    Core h2 (pages ++ [Page.blank P S]) link' off' := by
  obtain ⟨content, hs, himg, hd⟩ := hc.disk
  have hlen : (pages ++ [Page.blank P S]).length = pages.length + 1 := by simp
  refine ⟨hdirs, ⟨grown P pages.length content, fun o _ => grown_length hs o, ?_, ?_⟩, ?_, hc.size, ?_⟩
  · rw [hlen, image_grow, ← himg, hbytes]
  · intro j hj page hp hne
    rw [hpid, hdirty] at hne
    obtain hlt | rfl := lt_or_eq_last (hlen ▸ hj)
    · rw [grown, if_pos (page_mem_layout.mpr hlt)]
      rw [List.getElem?_append_left hlt] at hp
      exact hd j hlt page hp hne
    · rw [grown, if_neg (by simp [page_mem_layout])]
      rw [List.getElem?_concat_length] at hp
      rw [← Option.some.inj hp]
      rfl
  · rw [hpage, hpid, hdirty]
    obtain hn | ⟨j, page, hj1, hj2, hj⟩ := hc.cache
    · exact .inl hn
    · refine .inr ⟨j, page, hj1, hj2, ?_⟩
      rw [List.getElem?_append_left (List.getElem?_eq_some_iff.mp hj).1, hj]
  · intro j hj
    obtain hlt | rfl := lt_or_eq_last (hlen ▸ hj)
    · exact hc.small j hlt
    · rw [blockOffset, position, ← hc.bytes_length]
      exact hb

theorem Core.congr {link' off' : Nat → Int} (hc : Core h pages link off)
    (hl : ∀ d < numDirs (directoryCapacity P) pages.length, link d = link' d)
    (ho : ∀ d < numDirs (directoryCapacity P) pages.length, off d = off' d) :
    Core h pages link' off' := by
  refine ⟨?_, hc.disk, hc.cache, hc.size, hc.small⟩
  rw [hc.dirs]
  refine directories_congr ?_ ?_ <;> rw [entriesOf_length] <;> assumption

theorem appendEntry_core (hz : Sizes P S) (hc : Core h pages link off)
    (hb : h.file.bytes.length < 2147483648) {h1 : Heapfile P S}
    (hfile : h1.file.bytes = h.file.bytes ++ List.replicate P 0)
    (hdirs : h1.directoryBuffer = h.directoryBuffer) (hpage : h1.cachedPage = h.cachedPage)
    (hpid : h1.cachedPid = h.cachedPid) (hdirty : h1.pageCacheDirty = h.pageCacheDirty) :
    ∃ h2 link' off', appendEntry h1 ⟨blockOffset P (.page pages.length),
        fixedLenPageFreeslots (Page.blank P S)⟩ = .ok (pages.length, h2) ∧
      h2.pageCacheDirty = h.pageCacheDirty ∧ Core h2 (pages ++ [Page.blank P S]) link' off' ∧
      (h2.file.bytes.length < 2147483648 + P → link = chainLink P pages.length → off = chainOffset P →
        Core h2 (pages ++ [Page.blank P S]) (chainLink P (pages.length + 1)) (chainOffset P)) := by
  have hlen : (pages ++ [Page.blank P S]).length = pages.length + 1 := by simp
  have hdirs' : h1.directoryBuffer = directories P link off (entriesOf pages) := hdirs.trans hc.dirs
  by_cases hf : LastFull (directoryCapacity P) pages.length
  · have hf' : LastFull (directoryCapacity P) (entriesOf pages).length := by rwa [entriesOf_length]
    have hl1 : h1.file.bytes.length = h.file.bytes.length + P := by
      rw [hfile, List.length_append, List.length_replicate]
    have happ := appendEntry_full hz.page hc.size hf' hdirs'
      ⟨blockOffset P (.page pages.length), fixedLenPageFreeslots (Page.blank P S)⟩ rfl
    have hsz := hc.size
    rw [fwrite_at_end h1.file (by omega), entriesOf_length, ← entriesOf_append] at happ
    have hgrow := core_grow hc hb ({ h1 with
        file := ⟨h1.file.bytes ++ List.replicate P 0, h1.file.bytes.length + (List.replicate P (0 : Byte)).length⟩
        directoryBuffer := directories P
          (growLink link (pages.length / directoryCapacity P) (toInt32 (ftell (fseekEnd h1.file))))
          (Function.update off (pages.length / directoryCapacity P) (toInt32 (ftell (fseekEnd h1.file))))
          (entriesOf (pages ++ [Page.blank P S])) })
      rfl (by rw [if_pos hf, hfile, List.append_assoc]) hpage hpid hdirty
    refine ⟨_, _, _, happ, hdirty, hgrow, ?_⟩
    intro hbound hl ho
    have hoffset : toInt32 (ftell (fseekEnd h1.file)) =
        (blockOffset P (.dir (pages.length / directoryCapacity P)) : Int) := by
      have hval : blockOffset P (.dir (pages.length / directoryCapacity P)) = h1.file.bytes.length := by
        rw [blockOffset_dir_of_full hf, hl1, hc.bytes_length]
      rw [List.length_append, List.length_replicate] at hbound
      rw [hval]
      exact toInt32_of_inRange ⟨by simp only [ftell]; omega, by simp only [ftell, fseekEnd]; omega⟩
    obtain ⟨hg1, hg2⟩ := chain_grow hf hoffset
    refine Core.congr hgrow ?_ ?_
    · rw [hlen, hl]
      exact hg1
    · rw [hlen, ho]
      exact hg2
  · have hf' : ¬ LastFull (directoryCapacity P) (entriesOf pages).length := by rwa [entriesOf_length]
    have happ := appendEntry_room hz.page hc.size hf' hdirs'
      ⟨blockOffset P (.page pages.length), fixedLenPageFreeslots (Page.blank P S)⟩
    rw [entriesOf_length, ← entriesOf_append] at happ
    have hgrow := core_grow hc hb ({ h1 with
      directoryBuffer := directories P link off (entriesOf (pages ++ [Page.blank P S])) })
      rfl (by rw [if_neg hf, hfile]) hpage hpid hdirty
    refine ⟨_, link, off, happ, hdirty, hgrow, ?_⟩
    intro _ hl ho
    obtain ⟨hn, hn'⟩ := numDirs_succ_of_not_full hf
    refine Core.congr hgrow (fun d _ => ?_) (fun d _ => by rw [ho])
    rw [hl, chainLink, chainLink, hn, hn']

theorem allocPage_of {h2 h3 : Heapfile P S} {pid : Nat} {blank : Page P S}
    (hi : initFixedLenPage P S = .ok blank)
    (ha : appendEntry (writeBlock { h with file := fseekEnd h.file } blank.data
      (toInt32 (ftell (fseekEnd h.file)))) ⟨toInt32 (ftell (fseekEnd h.file)),
        fixedLenPageFreeslots blank⟩ = .ok (pid, h2))
    (hw : writeBack h2 = .ok h3) :
    allocPage h = .ok (pid, { h3 with
      cachedPage := some blank, cachedPid := some pid, pageCacheDirty := false }) := by
  simp [allocPage, hi, ha, hw]

theorem allocPage_core (hz : Sizes P S) (hc : Core h pages link off)
    (hb : h.file.bytes.length < 2147483648) :
    ∃ h' link' off', allocPage h = .ok (pages.length, h') ∧
      Core h' (pages ++ [Page.blank P S]) link' off' ∧
      h'.cachedPid = some pages.length ∧ h'.cachedPage = some (Page.blank P S) ∧
      (h'.file.bytes.length < 2147483648 + P → link = chainLink P pages.length → off = chainOffset P →
        Core h' (pages ++ [Page.blank P S]) (chainLink P (pages.length + 1)) (chainOffset P)) := by
  have hinit : initFixedLenPage P S = .ok (Page.blank P S) := if_pos ⟨hz.slotPos, hz.slotLt⟩
  have hoff : toInt32 (ftell (fseekEnd h.file)) = (blockOffset P (.page pages.length) : Int) := by
    rw [blockOffset, position, ← hc.bytes_length]
    exact toInt32_of_inRange ⟨by simp only [ftell]; omega, by simp only [ftell, fseekEnd]; omega⟩
  have hfile : (writeBlock { h with file := fseekEnd h.file } (Page.blank P S).data
      (toInt32 (ftell (fseekEnd h.file)))).file.bytes = h.file.bytes ++ List.replicate P 0 := by
    rw [writeBlock, fwrite_at_end h.file (by omega)]
    rfl
  obtain ⟨h2, link', off', happ, -, hc2, hstd⟩ := appendEntry_core hz hc hb hfile
    (writeBlock_directoryBuffer _ _ _) (writeBlock_cachedPage _ _ _) (writeBlock_cachedPid _ _ _)
    (writeBlock_pageCacheDirty _ _ _)
  obtain ⟨file, hw, content, hs, himg, hd⟩ := hc2.writeBack hz.page
  have hlast : (pages ++ [Page.blank P S])[pages.length]? = some (Page.blank P S) :=
    List.getElem?_concat_length
  -- the write-back touches neither the directories nor the number of blocks
  have hbytes : file.bytes.length = h2.file.bytes.length := by
    rw [himg, image_length hs, hc2.bytes_length]
  have hmk : ∀ link off, Core h2 (pages ++ [Page.blank P S]) link off →
      Core { h2 with
        file := file
        cachedPage := some (Page.blank P S)
        cachedPid := some pages.length
        pageCacheDirty := false } (pages ++ [Page.blank P S]) link off := by
    intro link off hc'
    refine ⟨hc'.dirs, ⟨content, hs, himg, fun j hj page hp _ => hd j hj page hp⟩,
      .inr ⟨_, _, rfl, rfl, hlast⟩, hc'.size, hc'.small⟩
  rw [← hoff] at happ
  refine ⟨_, link', off', allocPage_of hinit happ hw, hmk _ _ hc2, rfl, rfl, ?_⟩
  intro hbound hl ho
  exact hmk _ _ (hstd (hbytes ▸ hbound) hl ho)

end RecordStore.HeapAlloc
