import RecordStore.BlockTiling
import RecordStore.BulkLoad

namespace RecordStore.StoredOffsets

open RecordStore.CFile RecordStore.Int32 RecordStore.Outcome RecordStore.FixedRecord RecordStore.FixedPage
open RecordStore.DirectoryPage RecordStore.HeapFile RecordStore.PageLayout RecordStore.DirectoryChain
open RecordStore.DirectoryGrowth RecordStore.HeapImage RecordStore.HeapAlloc RecordStore.HeapSession
open RecordStore.LogicalPages RecordStore.HeapRefinement RecordStore.HeapReopen RecordStore.HeapRuns
open RecordStore.BlockTiling RecordStore.PageSlots RecordStore.PackedPages RecordStore.BulkLoad

variable {P S : Nat} {h h' : Heapfile P S} {pages pages' : Pages P S} {log : List (Owner × Nat)}
  {rec : Record}

/-- The offset kept for a block: a page has it in its entry, a directory in the link that
leads to it. The first directory is linked from nowhere. -/
def storedAt (h : Heapfile P S) : Owner → Option Int
  | .page j =>
    match getEntry h j with
    | .ok entry => some entry.value.offset
    | .error _ => none
  | .dir 0 => h.directoryBuffer[0]?.map Directory.offset
  | .dir (d + 1) =>
    if d + 1 < h.directoryBuffer.length then h.directoryBuffer[d]?.map Directory.nextDirectory
    else none

def pageWritten (h : Heapfile P S) : Heapfile P S :=
  writeBlock { h with file := fseekEnd h.file } (Page.blank P S).data (toInt32 (ftell (fseekEnd h.file)))

/-- The blocks a put appends, each with the end of the file it is put at: a page if none has
room, and a directory if all are full. -/
def appended (h : Heapfile P S) : List (Owner × Nat) :=
  match vacantPageId h, allocPage h with
  | none, .ok (pid, _) => (.page pid, h.file.bytes.length) ::
      (if h.directoryBuffer.all isFull then
        [(.dir h.directoryBuffer.length, (pageWritten h).file.bytes.length)] else [])
  | _, _ => []

/-- The offsets kept are the places the blocks were appended at, none of them is negative
and no two blocks have the same. -/
structure StoredExactly (h : Heapfile P S) (log : List (Owner × Nat)) : Prop where
  place : ∀ b pos, (b, pos) ∈ log → ∃ o, storedAt h b = some o ∧ o = pos
  nonneg : ∀ b o, storedAt h b = some o → 0 ≤ o
  distinct : ∀ b b' o, storedAt h b = some o → storedAt h b' = some o → b = b'

/-- The offsets are exact before the first put and after each that returns. -/
def ExactThrough (h : Heapfile P S) (log : List (Owner × Nat)) : List Record → Prop
  | [] => StoredExactly h log
  | rec :: recs => StoredExactly h log ∧
      ∀ h', putRecord h rec = .ok h' → ExactThrough h' (log ++ appended h) recs

/-- What a put appends begins below `2 ^ 31`. -/
def RoomToAppend (h : Heapfile P S) : Prop :=
  vacantPageId h = none → h.file.bytes.length < 2147483648 ∧
    (h.directoryBuffer.all isFull = true → h.file.bytes.length + P < 2147483648)

def RoomThrough (h : Heapfile P S) : List Record → Prop
  | [] => True
  | rec :: recs => ∀ h', putRecord h rec = .ok h' → RoomToAppend h ∧ RoomThrough h' recs

/-- A heap file whose blocks all begin below `2 ^ 31`, with links and offsets exact. -/
structure Placed (h : Heapfile P S) (pages : Pages P S) : Prop where
  core : Core h pages (chainLink P pages.length) (chainOffset P)
  bound : fileLength P pages.length < 2147483648 + P

theorem fileLength_succ (P n : Nat) :
    fileLength P (n + 1) = fileLength P n + (if LastFull (directoryCapacity P) n then P + P else P) := by
  rw [fileLength, fileLength]
  split
  case isTrue hf =>
    rw [layout_succ_of_full hf, List.length_append, Nat.add_mul]
    simp only [List.length_cons, List.length_nil]
    omega
  case isFalse hf =>
    rw [layout_succ_of_not_full hf, List.length_append, Nat.add_mul, List.length_singleton, Nat.one_mul]

theorem Placed.length (hr : Placed h pages) : h.file.bytes.length = fileLength P pages.length :=
  hr.core.bytes_length

theorem Placed.offset_lt (hr : Placed h pages) {b : Owner}
    (hb : b ∈ layout (directoryCapacity P) pages.length) : blockOffset P b < 2147483648 := by
  have hle : (position (directoryCapacity P) b + 1) * P ≤ fileLength P pages.length :=
    Nat.mul_le_mul_right _ (position_lt hb)
  have hbound := hr.bound
  rw [Nat.succ_mul] at hle
  rw [blockOffset]
  omega

theorem Placed.all_isFull (hp : 1001 < P) (hr : Placed h pages) :
    h.directoryBuffer.all isFull = true ↔ LastFull (directoryCapacity P) pages.length := by
  rw [hr.core.dirs, all_isFull_iff hp hr.core.size, entriesOf_length]

theorem Placed.storedAt_iff (hp : 1001 < P) (hr : Placed h pages) {b : Owner} {o : Int} :
    storedAt h b = some o ↔ b ∈ layout (directoryCapacity P) pages.length ∧ o = blockOffset P b := by
  match b with
  | .page j =>
    rw [page_mem_layout, storedAt]
    by_cases hj : j < pages.length
    · rw [hr.core.getEntry hp (List.getElem?_eq_getElem hj)]
      simp [hj, eq_comm]
    · have hne : ∀ entry, getEntry h j ≠ .ok entry := fun entry he =>
        hj ((Core.allocated_iff hp hr.core j).mp ⟨entry, he⟩)
      cases he : getEntry h j with
      | ok entry => exact absurd he (hne entry)
      | error e => simp [hj]
  | .dir 0 =>
    have h0 : 0 < numDirs (directoryCapacity P) pages.length := Nat.succ_pos _
    rw [dir_mem_layout, storedAt, hr.core.buffer_getElem? h0]
    simp [directoryAt, chainOffset, h0, eq_comm]
  | .dir (d + 1) =>
    rw [dir_mem_layout, storedAt, hr.core.buffer_length]
    by_cases hd : d + 1 < numDirs (directoryCapacity P) pages.length
    · have hlink : chainLink P pages.length d = blockOffset P (.dir (d + 1)) := if_pos hd
      have hlt := hr.offset_lt (dir_mem_layout.mpr hd)
      have hrange : InRange (chainLink P pages.length d) := by
        rw [hlink]
        constructor <;> omega
      have hnext : (directoryAt P (chainLink P pages.length) (chainOffset P) (entriesOf pages)
          d).nextDirectory = chainLink P pages.length d := nextDirectory_image hrange
      rw [if_pos hd, hr.core.buffer_getElem? (Nat.lt_of_succ_lt hd), Option.map_some, hnext, hlink]
      simp [hd, eq_comm]
    · simp [hd]

/-- The log says where the blocks are. -/
def Logged (P n : Nat) (log : List (Owner × Nat)) : Prop :=
  ∀ b pos, (b, pos) ∈ log → b ∈ layout (directoryCapacity P) n ∧ pos = blockOffset P b

theorem Placed.storedExactly (hp : 1001 < P) (hr : Placed h pages) (hlog : Logged P pages.length log) :
    StoredExactly h log := by
  constructor
  · intro b pos hb
    obtain ⟨hmem, rfl⟩ := hlog b pos hb
    exact ⟨_, (hr.storedAt_iff hp).mpr ⟨hmem, rfl⟩, rfl⟩
  · intro b o ho
    obtain ⟨-, rfl⟩ := (hr.storedAt_iff hp).mp ho
    exact Int.natCast_nonneg _
  · intro b b' o ho ho'
    obtain ⟨hmem, rfl⟩ := (hr.storedAt_iff hp).mp ho
    obtain ⟨hmem', he⟩ := (hr.storedAt_iff hp).mp ho'
    exact blockOffset_inj (by omega) hmem hmem' (Int.ofNat.inj he)

theorem Placed.of_rep (hr : Rep h pages) : Placed h pages :=
  ⟨hr.core, Nat.lt_add_right P (hr.core.bytes_length.symm.trans_lt hr.bound)⟩

theorem agree_placed {x : Except Fault (Heapfile P S)} {j : Nat} {r : Except Fault (Page P S)}
    (hc : Changes (fun h => h) x pages j r (chainLink P pages.length) (chainOffset P))
    (hb : fileLength P pages.length < 2147483648 + P) :
    Agree Placed x (r.map (fun page' => pages.set j page')) :=
  hc.agree_of (fun _ _ _ _ hc' => ⟨by rwa [List.length_set], by rwa [List.length_set]⟩)

theorem roomToAppend_iff (hp : 1001 < P) (hr : Placed h pages) :
    RoomToAppend h ↔ (vacantPageId h = none → fileLength P (pages.length + 1) < 2147483648 + P) := by
  refine imp_congr_right (fun _ => ?_)
  rw [hr.all_isFull hp, hr.length, fileLength_succ]
  by_cases hf : LastFull (directoryCapacity P) pages.length
  · simp only [hf, if_true, true_implies]
    omega
  · simp only [hf, if_false, false_implies, and_true]
    omega

theorem put_agree_placed (hz : Sizes P S) (hr : Placed h pages) (hroom : RoomToAppend h) (rec : Record) :
    Agree Placed (putRecord h rec) (put pages rec) := by
  have hv := vacantPageId_eq hz hr.core
  cases hff : firstFree pages with
  | some j =>
    have hp := getFreePid_of_some hz hr.core hff
    obtain ⟨page, slot, hj, -⟩ := firstFree_some hff
    rw [put, hff]
    simp only [modifyPage_some hj]
    exact agree_placed (put_core hz hr.core rec hp hj) hr.bound
  | none =>
    obtain ⟨h1, link', off', halloc, hc1, -, -, hstd⟩ :=
      allocPage_core hz hr.core (hroom (hv.trans hff)).1
    have hn : (pages ++ [Page.blank P S]).length = pages.length + 1 := by simp
    have hbound := (roomToAppend_iff hz.page hr).mp hroom (hv.trans hff)
    have hc : Core h1 (pages ++ [Page.blank P S]) (chainLink P (pages ++ [Page.blank P S]).length)
        (chainOffset P) := by
      rw [hn]
      exact hstd (by rw [hc1.bytes_length, hn]; exact hbound) rfl rfl
    have hp := (getFreePid_of_none hz hr.core hff).trans halloc
    have hj : (pages ++ [Page.blank P S])[pages.length]? = some (Page.blank P S) :=
      List.getElem?_concat_length
    rw [put, hff]
    simp only [modifyPage_some hj]
    exact agree_placed (put_core hz hc rec hp hj) (hn ▸ hbound)

theorem pageWritten_length (h : Heapfile P S) (hb : h.file.bytes.length < 4294967296) :
    (pageWritten h).file.bytes.length = h.file.bytes.length + P := by
  rw [pageWritten, writeBlock, fwrite_at_end h.file hb, List.length_append, Page.length_data]

theorem appended_eq (hz : Sizes P S) (hr : Placed h pages) (hlen : h.file.bytes.length < 2147483648)
    (hv : vacantPageId h = none) : appended h = (.page pages.length, blockOffset P (.page pages.length)) ::
      (if LastFull (directoryCapacity P) pages.length then
        [(.dir (pages.length / directoryCapacity P),
          blockOffset P (.dir (pages.length / directoryCapacity P)))] else []) := by
  obtain ⟨h1, link', off', halloc, -⟩ := allocPage_core hz hr.core hlen
  have hpage : blockOffset P (.page pages.length) = h.file.bytes.length := hr.length.symm
  simp only [appended, hv, halloc, hr.all_isFull hz.page, hpage]
  split
  case isTrue hf =>
    rw [hr.core.buffer_length, (numDirs_succ_of_full hf).1, pageWritten_length h (by omega),
      blockOffset_dir_of_full hf, hr.core.bytes_length]
  case isFalse => rfl

theorem logged_put (hz : Sizes P S) (hr : Placed h pages) (hroom : RoomToAppend h)
    (hput : put pages rec = .ok pages') (hlog : Logged P pages.length log) :
    Logged P pages'.length (log ++ appended h) := by
  have hv := vacantPageId_eq hz hr.core
  intro b pos hb
  cases hff : firstFree pages with
  | some j =>
    have hnil : appended h = [] := by rw [appended, hv, hff]
    rw [put_length_of_some hff hput]
    rw [hnil, List.append_nil] at hb
    exact hlog b pos hb
  | none =>
    rw [hff] at hv
    rw [appended_eq hz hr (hroom hv).1 hv, List.mem_append, List.mem_cons] at hb
    rw [put_length_of_none hff hput, layout, List.mem_append, List.mem_cons]
    obtain hb | hb | hb := hb
    · exact ⟨.inl (hlog b pos hb).1, (hlog b pos hb).2⟩
    · obtain ⟨rfl, rfl⟩ := Prod.mk.inj hb
      exact ⟨.inr (.inl rfl), rfl⟩
    · split at hb
      case isTrue hf =>
        obtain ⟨rfl, rfl⟩ := Prod.mk.inj (List.mem_singleton.mp hb)
        refine ⟨.inr (.inr ?_), rfl⟩
        rw [if_pos hf]
        exact List.mem_singleton_self _
      case isFalse => cases hb

theorem readInt_inRange (data : List Byte) (pos : Nat) : InRange (readInt data pos) := by
  unfold readInt decodeInt
  split
  · exact toInt32_inRange _
  · decide

theorem storedAt_lt {b : Owner} {o : Int} (hb : b ≠ .dir 0) (ho : storedAt h b = some o) :
    o < 2147483648 := by
  match b with
  | .page j =>
    rw [storedAt] at ho
    split at ho
    case h_1 entry he =>
      obtain ⟨first, -, he⟩ := bind_eq_ok.mp he
      obtain ⟨dir, -, he⟩ := bind_eq_ok.mp he
      split at he
      case isTrue =>
        rw [← Option.some.inj ho, ← Except.ok.inj he]
        exact (readInt_inRange _ _).2
      case isFalse => cases he
    case h_2 => cases ho
  | .dir 0 => exact absurd rfl hb
  | .dir (d + 1) =>
    rw [storedAt] at ho
    split at ho
    case isTrue =>
      obtain ⟨dir, -, rfl⟩ := Option.map_eq_some_iff.mp ho
      exact (readInt_inRange _ _).2
    case isFalse => cases ho

theorem roomToAppend_of_exact (hp : 1001 < P) (hr : Placed h pages) (hput : putRecord h rec = .ok h')
    (hx : StoredExactly h' (log ++ appended h)) : RoomToAppend h := by
  intro hv
  obtain ⟨⟨pid, h1⟩, hf, -⟩ := bind_eq_ok.mp hput
  rw [getFreePid, hv] at hf
  have hz := sizes_of_allocPage hp hf
  have hbelow : ∀ b pos, (b, pos) ∈ appended h → b ≠ .dir 0 → pos < 2147483648 := by
    intro b pos hb hne
    obtain ⟨o, ho, rfl⟩ := hx.place b pos (List.mem_append_right _ hb)
    have := storedAt_lt hne ho
    omega
  have hlen : h.file.bytes.length < 2147483648 :=
    hbelow (.page pid) _ (by simp only [appended, hv, hf, List.mem_cons, true_or]) (by simp)
  refine ⟨hlen, fun hfull => ?_⟩
  have hlast := (hr.all_isFull hp).mp hfull
  have happ := appended_eq hz hr hlen hv
  rw [if_pos hlast] at happ
  have hpos := hbelow (.dir (pages.length / directoryCapacity P)) _
    (by rw [happ]; exact List.mem_cons_of_mem _ (List.mem_singleton_self _))
    (fun he => hlast.div_pos.ne' (Owner.dir.inj he))
  rwa [blockOffset_dir_of_full hlast, ← hr.core.bytes_length] at hpos

theorem sizes_of_putRecord (hp : 1001 < P) (hr : Placed h pages) (hz : 0 < pages.length → Sizes P S)
    (hput : putRecord h rec = .ok h') : Sizes P S := by
  obtain hzero | hpos := Nat.eq_zero_or_pos pages.length
  case inr => exact hz hpos
  case inl =>
    have hnil : entriesOf pages = [] := by
      rw [← List.length_eq_zero_iff, entriesOf_length, hzero]
    have hv : vacantPageId h = none := by
      rw [vacantPageId_directories hp hr.core.size hr.core.dirs hr.core.fits, hnil]
      rfl
    obtain ⟨r, hf, -⟩ := bind_eq_ok.mp hput
    rw [getFreePid, hv] at hf
    exact sizes_of_allocPage hp hf

theorem exactThrough_of_placed (hp : 1001 < P) (hr : Placed h pages) (hz : 0 < pages.length → Sizes P S)
    (hlog : Logged P pages.length log) (recs : List Record) :
    ExactThrough h log recs ↔ RoomThrough h recs := by
  induction recs generalizing h pages log with
  | nil => exact iff_of_true (hr.storedExactly hp hlog) trivial
  | cons rec recs ih =>
    -- as long as there is room, the state after the put is again one of these
    have hnext : ∀ h', putRecord h rec = .ok h' → RoomToAppend h →
        (ExactThrough h' (log ++ appended h) recs ↔ RoomThrough h' recs) := by
      intro h' hput hroom
      have hz' := sizes_of_putRecord hp hr hz hput
      have hagree := put_agree_placed hz' hr hroom rec
      rw [hput] at hagree
      obtain ⟨pages', hpages, hr'⟩ := hagree.of_ok_left
      exact ih hr' (fun _ => hz') (logged_put hz' hr hroom hpages hlog)
    constructor
    · rintro ⟨-, hx⟩ h' hput
      have hstored : StoredExactly h' (log ++ appended h) := by
        cases recs with
        | nil => exact hx h' hput
        | cons => exact (hx h' hput).1
      have hroom := roomToAppend_of_exact hp hr hput hstored
      exact ⟨hroom, (hnext h' hput hroom).mp (hx h' hput)⟩
    · intro hroom
      refine ⟨hr.storedExactly hp hlog, fun h' hput => ?_⟩
      obtain ⟨hroom, hrest⟩ := hroom h' hput
      exact (hnext h' hput hroom).mpr hrest

/-- Whatever has been done with a heap file, the offsets of the blocks that puts append to it
are exact as long as these begin below `2 ^ 31`, and no longer. -/
theorem exactThrough_iff {beyond : Nat → Byte} {calls : List (Nat × Nat)}
    (hreach : Reachable beyond h calls) (recs : List Record) :
    ExactThrough h [] recs ↔ RoomThrough h recs := by
  obtain ⟨hp, pages, hr, -, hz⟩ := hreach.rep
  exact exactThrough_of_placed hp (Placed.of_rep hr) hz (fun b pos hb => absurd hb List.not_mem_nil) recs

theorem exactThrough_iff_letter : ∃ h : Heapfile 1002 10,
    createHeapfile 1002 10 = .ok h ∧ ExactThrough h [] [letterRecord] := by
  obtain ⟨h, he, hr, -⟩ := createHeapfile_rep (P := 1002) (S := 10) (by decide) (by decide)
  have hlen : h.file.bytes.length = 1002 := hr.core.bytes_length
  have hreach : Reachable (fun _ => 0) h [] := .create he hr.bound
  refine ⟨h, he, (exactThrough_iff hreach _).mpr ?_⟩
  intro h' _
  refine ⟨fun _ => ⟨hr.bound, fun _ => ?_⟩, trivial⟩
  rw [hlen]
  decide

section Load

variable {link off : Nat → Int}

theorem allocPage_returns (hz : Sizes P S) (hc : Core h pages link off) :
    ∃ (h1 : Heapfile P S) (e : Entry) (link' off' : Nat → Int), allocPage h = .ok (pages.length, h1) ∧
      h1.cachedPid = some pages.length ∧ h1.cachedPage = some (Page.blank P S) ∧
      h1.directoryBuffer = directories P link' off' (entriesOf pages ++ [e]) ∧
      Fits (entriesOf pages ++ [e]) := by
  have hinit : initFixedLenPage P S = .ok (Page.blank P S) := if_pos ⟨hz.slotPos, hz.slotLt⟩
  obtain ⟨o, ho⟩ : ∃ o, toInt32 (ftell (fseekEnd h.file)) = o := ⟨_, rfl⟩
  obtain ⟨e, he⟩ : ∃ e : Entry, e = ⟨o, fixedLenPageFreeslots (Page.blank P S)⟩ := ⟨_, rfl⟩
  have hfits : Fits (entriesOf pages ++ [e]) := by
    intro e' hmem
    obtain hmem | hmem := List.mem_append.mp hmem
    · exact hc.fits e' hmem
    · have hoff : InRange o := ho ▸ toInt32_inRange _
      have hfree := freeslots_le (Page.blank P S)
      have hP := hc.size
      obtain rfl : e' = _ := (List.mem_singleton.mp hmem).trans he
      exact ⟨hoff, by constructor <;> simp only <;> omega⟩
  obtain ⟨w, hw, hdirs, hpidw, hpagew, hdirtyw⟩ : ∃ w : Heapfile P S, w = pageWritten h ∧
      w.directoryBuffer = directories P link off (entriesOf pages) ∧ w.cachedPid = h.cachedPid ∧
      w.cachedPage = h.cachedPage ∧ w.pageCacheDirty = h.pageCacheDirty :=
    ⟨_, rfl, (writeBlock_directoryBuffer _ _ _).trans hc.dirs, writeBlock_cachedPid _ _ _,
      writeBlock_cachedPage _ _ _, writeBlock_pageCacheDirty _ _ _⟩
  obtain ⟨h2, link', off', happ, hdirs2, hpid, hpage, hdirty⟩ :
      ∃ (h2 : Heapfile P S) (link' off' : Nat → Int),
      appendEntry w e = .ok (pages.length, h2) ∧
      h2.directoryBuffer = directories P link' off' (entriesOf pages ++ [e]) ∧
      h2.cachedPid = w.cachedPid ∧ h2.cachedPage = w.cachedPage ∧ h2.pageCacheDirty = w.pageCacheDirty := by
    rw [← entriesOf_length]
    by_cases hf : LastFull (directoryCapacity P) (entriesOf pages).length
    · exact ⟨_, _, _, appendEntry_full hz.page hc.size hf hdirs e rfl, rfl, rfl, rfl, rfl⟩
    · exact ⟨_, _, _, appendEntry_room hz.page hc.size hf hdirs e, rfl, rfl, rfl, rfl⟩
  have hback : ∃ file, writeBack h2 = .ok { h2 with file := file } := by
    by_cases hd : h2.pageCacheDirty = true
    · obtain ⟨-, -, hf⟩ | ⟨j, page, hj1, hj2, hj⟩ := hc.cache
      · rw [hdirty, hdirtyw, hf] at hd
        cases hd
      · have hget := entriesOf_getElem? hj
        have hlt := (List.getElem?_eq_some_iff.mp hget).1
        have hent := getEntry_directories hz.page hc.size hdirs2 hfits
          ((List.getElem?_append_left hlt).trans hget)
        refine ⟨(writeBlock h2 page.data (blockOffset P (.page j))).file, ?_⟩
        simp [writeBack, hd, (hpid.trans hpidw).trans hj1, (hpage.trans hpagew).trans hj2, hent, writeBlock]
    · exact ⟨h2.file, if_neg hd⟩
  obtain ⟨file, hback⟩ := hback
  rw [hw, he, ← ho, pageWritten] at happ
  exact ⟨_, e, link', off', allocPage_of hinit happ hback, rfl, rfl, hdirs2, hfits⟩

theorem putRecord_returns (hz : Sizes P S) (hc : Core h pages link off) (hff : firstFree pages = none)
    (hput : put pages rec = .ok pages') : ∃ h', putRecord h rec = .ok h' := by
  obtain ⟨h1, e, link', off', halloc, hpid, hpage, hdirs, hfits⟩ := allocPage_returns hz hc
  have hp := (getFreePid_of_none hz hc hff).trans halloc
  have hg : getPage h1 pages.length = .ok (Page.blank P S, h1) := by simp [getPage, hpid, hpage]
  rw [put, hff] at hput
  obtain ⟨page, page', hj, hadd, -⟩ := modifyPage_eq_ok hput
  rw [List.getElem?_concat_length] at hj
  obtain rfl := Option.some.inj hj
  obtain ⟨⟨slot, page'⟩, hslot, rfl⟩ := map_eq_ok.mp hadd
  have hlast : (entriesOf pages ++ [e])[pages.length]? = some e := by
    rw [← entriesOf_length, List.getElem?_concat_length]
  have hent := getEntry_directories (h := { h1 with cachedPage := some page' })
    hz.page hc.size hdirs hfits hlast
  have hd := dir_lt (c := directoryCapacity P) (List.getElem?_eq_some_iff.mp hlast).1
  have hdir : Heapfile.directory { h1 with cachedPage := some page' } (pages.length / directoryCapacity P) =
      .ok (directoryAt P link' off' (entriesOf pages ++ [e]) (pages.length / directoryCapacity P)) := by
    rw [Heapfile.directory, hdirs, directories_getElem? hd]
  obtain ⟨h2, hcommit, hpid2, hpage2⟩ : ∃ h2 : Heapfile P S,
      commitPage { h1 with cachedPage := some page' } pages.length = .ok h2 ∧
      h2.cachedPid = some pages.length ∧ h2.cachedPage = some page' :=
    ⟨_, commitPage_of hpid rfl hent hdir, hpid, rfl⟩
  have hg2 : getPage h2 pages.length = .ok (page', h2) := by simp [getPage, hpid2, hpage2]
  exact ⟨h2, putRecord_ok_of hp hg hslot hcommit hg2⟩

/-- Records of the right size put one after the other find room as long as the file they make
does not come to a block at `2 ^ 31` or behind. -/
theorem roomThrough_iff (hz : Sizes P S) (hr : Placed h pages) {recs : List Record}
    (hpacked : Packed pages recs) (rest : List Record)
    (hrest : ∀ rec ∈ rest, rec.length = S / attributeSize) :
    RoomThrough h rest ↔ fileLength P (pageCount P S (recs.length + rest.length)) < 2147483648 + P := by
  induction rest generalizing h pages recs with
  | nil =>
    have hcount : pages.length = pageCount P S recs.length := hpacked.count
    exact iff_of_true trivial (hcount ▸ hr.bound)
  | cons rec rest ih =>
    obtain ⟨pages1, hput, hpacked1⟩ := hpacked.put hz (hrest rec (List.mem_cons_self ..))
    have hcount1 : pages1.length = pageCount P S (recs.length + 1) := by
      rw [hpacked1.count, List.length_append]
      rfl
    by_cases hroom : RoomToAppend h
    · have hagree := put_agree_placed hz hr hroom rec
      rw [hput] at hagree
      obtain ⟨h1, hx, hr1⟩ := hagree.of_ok_right
      have hrec := ih hr1 hpacked1 (fun r hmem => hrest r (List.mem_cons_of_mem _ hmem))
      rw [List.length_append, List.length_singleton, Nat.add_assoc, Nat.add_comm 1] at hrec
      rw [List.length_cons, ← hrec]
      constructor
      · intro hall
        exact (hall h1 hx).2
      · intro hall h' hx'
        obtain rfl : h1 = h' := Except.ok.inj (hx.symm.trans hx')
        exact ⟨hroom, hall⟩
    · have hfull := hroom
      rw [roomToAppend_iff hz.page hr, Classical.not_imp] at hfull
      obtain ⟨hv, hlong⟩ := hfull
      have hff := (vacantPageId_eq hz hr.core).symm.trans hv
      obtain ⟨h1, hx⟩ := putRecord_returns hz hr.core hff hput
      refine iff_of_false (fun hall => hroom (hall h1 hx).1) (fun hb => hlong ?_)
      rw [← put_length_of_none hff hput, hcount1]
      refine lt_of_le_of_lt (fileLength_mono (Nat.div_le_div_right ?_)) hb
      rw [List.length_cons]
      omega

end Load

/-- The offsets in a new heap file that is loaded with records are exact at every moment if and
only if the last of its blocks begins below `2 ^ 31`. -/
theorem exactThrough_load (hz : Sizes P S) (hP : P < 2147483648) (recs : List Record)
    (hrecs : ∀ rec ∈ recs, rec.length = S / attributeSize) :
    ∃ h0 : Heapfile P S, createHeapfile P S = .ok h0 ∧ (ExactThrough h0 [] recs ↔
      (pageCount P S recs.length + dirCount P S recs.length - 1) * P < 2147483648) := by
  obtain ⟨h0, he, hr, -⟩ := createHeapfile_rep (S := S) hz.page hP
  have hplaced := Placed.of_rep hr
  have hexact := exactThrough_of_placed hz.page hplaced (fun _ => hz)
    (fun b pos hb => absurd hb List.not_mem_nil) recs
  have hroom := roomThrough_iff hz hplaced (Packed.nil (capacity_pos hz.slotPos hz.slotLt)) recs hrecs
  refine ⟨h0, he, hexact.trans (hroom.trans ?_)⟩
  have hpos : 1 ≤ pageCount P S recs.length + dirCount P S recs.length :=
    (Nat.le_max_left _ _).trans (Nat.le_add_left _ _)
  obtain ⟨k, hk⟩ := Nat.exists_eq_add_of_le' hpos
  rw [List.length_nil, Nat.zero_add, fileLength_eq, numDirs_eq (capacity_bounds hz.page hP).1,
    show max 1 (ceilDiv (pageCount P S recs.length) (directoryCapacity P)) =
      dirCount P S recs.length from rfl, hk, Nat.add_sub_cancel, Nat.succ_mul, Nat.add_lt_add_iff_right]

/-- Pages of 1002 bytes take one record of 1000 bytes each, directories 124 entries. The page of
the last of these records is block 2143198, at 2147484396. -/
theorem exactThrough_overflow : ∃ h0 : Heapfile 1002 1000, createHeapfile 1002 1000 = .ok h0 ∧
    ¬ ExactThrough h0 [] (List.replicate 2126053 (List.replicate 100 letterAttribute)) := by
  obtain ⟨h0, he, hiff⟩ := exactThrough_load (P := 1002) (S := 1000) ⟨by decide, by decide, by decide⟩
    (by decide) (List.replicate 2126053 (List.replicate 100 letterAttribute))
    (fun rec hrec => by rw [List.eq_of_mem_replicate hrec, List.length_replicate]; rfl)
  refine ⟨h0, he, fun hx => ?_⟩
  have hlast := hiff.mp hx
  rw [List.length_replicate] at hlast
  exact absurd hlast (by decide)

end RecordStore.StoredOffsets
