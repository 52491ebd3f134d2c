import RecordStore.RecordCodec
import RecordStore.OutOfRange
import RecordStore.UpdateProgram

namespace RecordStore.UpdateFrame

open RecordStore.Splice RecordStore.BlockImage RecordStore.CFile RecordStore.Outcome RecordStore.FixedRecord
open RecordStore.FixedPage RecordStore.PageBitmap RecordStore.PageSlots RecordStore.HeapFile
open RecordStore.PageLayout RecordStore.HeapImage RecordStore.HeapAlloc RecordStore.HeapSession
open RecordStore.LogicalPages RecordStore.HeapRefinement RecordStore.HeapReopen RecordStore.HeapRuns
open RecordStore.HeapContents RecordStore.FreeSpace RecordStore.AllocatedRuns RecordStore.CsvPrograms
open RecordStore.Scanning RecordStore.RecordCodec RecordStore.OutOfRange RecordStore.UpdateProgram

variable {P S : Nat} {h : Heapfile P S} {pages : Pages P S} {beyond : Nat → Byte}

section Page

variable {page : Page P S} {t : Nat}

theorem or_flagMask_eq {b : Byte} {t : Nat} (hb : b.getLsbD (t % 8) = true) : b ||| flagMask t = b := by
  apply BitVec.eq_of_getLsbD_eq
  intro k hk
  rw [or_flagMask t b k hk]
  split
  case isTrue he => rw [he, hb]
  case isFalse => rfl

/-- A write to a slot whose flag is set only stores the record. -/
theorem write_live (ht : t < fixedLenPageCapacity P S) (hlive : page.filled t = true) {r : Record}
    (hr : fixedLenSizeof r ≤ S) :
    ∃ page', writeFixedLenPage page t r = .ok page' ∧ page'.data = splice page.data (t * S) (fixedLenWrite r) ∧
      fixedLenPageFreeslots page' = fixedLenPageFreeslots page := by
  obtain ⟨written, page', hd1, hw, hd⟩ := writeFixedLenPage_data page ht hr
  have hfilled {u : Nat} (hu : u < fixedLenPageCapacity P S) : written.filled u = page.filled u :=
    filled_splice ht (by rwa [fixedLenWrite_length]) hd1 hu
  have hset : page' = written := by
    apply Page.ext
    apply List.ext_getElem?
    intro i
    rw [hd, List.getElem?_modify]
    by_cases hi : P - 1 - t / 8 = i
    · subst hi
      have hlt : P - 1 - t / 8 < written.data.length := by
        rw [written.length_data]
        have := (slots_before_flags ht).2
        omega
      have hbit : (written.data[P - 1 - t / 8]).getLsbD (t % 8) = true := by
        rw [← hfilled ht, filled_eq, Page.byte, List.getD_eq_getElem?_getD, List.getElem?_eq_getElem hlt] at hlive
        exact hlive
      simp only [List.getElem?_eq_getElem hlt, if_true, Option.map_eq_map, Option.map_some, or_flagMask_eq hbit]
    · simp only [if_neg hi, Option.map_eq_map, Option.map_id_fun', id_eq]
  refine ⟨page', hw, hset ▸ hd1, ?_⟩
  have hocc : occupied written = occupied page := by
    apply List.countP_congr
    intro u hu
    rw [hfilled (List.mem_range.mp hu)]
  rw [freeslots_eq, freeslots_eq, hset, hocc]

def field (page : Page P S) (t a : Nat) : List Byte :=
  slice page.data (t * S + a * attributeSize) attributeSize

theorem field_length (ht : t < fixedLenPageCapacity P S) {a : Nat} (ha : a < S / attributeSize) :
    (field page t a).length = attributeSize := by
  apply slice_length_of_le
  have h1 := attribute_end ha
  have h2 := slot_in_page ht
  rw [page.length_data]
  omega

theorem updatedRecord_getElem? {i a : Nat} (newValue : CString) (ha : a < S / attributeSize) :
    (updatedRecord page t i newValue)[a]? =
      some (if a = i then newValue else cstring (field page t a) attributeSize) := by
  have hget : (slotRecord page t)[a]? = some (cstring (field page t a) attributeSize) := by
    rw [slotRecord, List.getElem?_map, List.getElem?_range ha]
    rfl
  rw [updatedRecord, List.getElem?_set, slotRecord_length, hget]
  by_cases hai : a = i
  · simp [← hai, ha]
  · rw [if_neg (Ne.symm hai), if_neg hai]

/-- Updating attribute `i` of a live slot writes the new value there, and leaves all other bytes of the
page as they were exactly when the other fields are padded. -/
theorem update_page (ht : t < fixedLenPageCapacity P S) (hlive : page.filled t = true) {i : Nat}
    (hi : i < S / attributeSize) (newValue : CString) :
    ∃ page', writeFixedLenPage page t (updatedRecord page t i newValue) = .ok page' ∧
      fixedLenPageFreeslots page' = fixedLenPageFreeslots page ∧
      field page' t i = strncpy newValue attributeSize ∧
      (SameOutside page.data page'.data (t * S + i * attributeSize) attributeSize ↔
        ∀ a < S / attributeSize, a ≠ i → Padded (field page t a)) := by
  have hsize := updatedRecord_size page t i newValue
  obtain ⟨page', hw, hd, hfree⟩ := write_live ht hlive hsize
  have hlen : (fixedLenWrite (updatedRecord page t i newValue)).length = S / attributeSize * attributeSize := by
    rw [fixedLenWrite_length, fixedLenSizeof, updatedRecord_length]
  have hpage := slot_in_page ht
  have hle := Nat.div_mul_le_self S attributeSize
  have hbase : t * S + S / attributeSize * attributeSize ≤ page.data.length := by
    rw [page.length_data]
    omega
  have hold : (slice page.data (t * S) (S / attributeSize * attributeSize)).length =
      S / attributeSize * attributeSize := slice_length_of_le hbase
  have hend {a : Nat} (ha : a < S / attributeSize) :
      a * attributeSize + attributeSize ≤ S / attributeSize * attributeSize := by
    rw [← Nat.succ_mul]
    exact Nat.mul_le_mul_right _ ha
  have hnew {a : Nat} (ha : a < S / attributeSize) :
      slice (fixedLenWrite (updatedRecord page t i newValue)) (a * attributeSize) attributeSize =
        strncpy (if a = i then newValue else cstring (field page t a) attributeSize) attributeSize :=
    slice_fixedLenWrite _ (updatedRecord_getElem? newValue ha)
  refine ⟨page', hw, hfree, ?_, ?_⟩
  · rw [field, hd, slice_splice_inside (by omega) (by rw [hlen]; exact hend hi), hnew hi, if_pos rfl]
  · have hx : slice page.data (t * S) (slice page.data (t * S) (S / attributeSize * attributeSize)).length =
        slice page.data (t * S) (S / attributeSize * attributeSize) := by rw [hold]
    rw [hd, sameOutside_splice (hlen.trans hold.symm) (by rwa [hold]) hx, sameOutside_group hold hlen]
    refine forall₃_congr (fun a ha hne => ?_)
    rw [hnew ha, if_neg hne, slice_slice _ (hend ha)]
    exact strncpy_cstring_iff (field_length ht ha)

end Page

section Padding

variable {page page' : Page P S}

/-- Every attribute of every slot is padded, whether the slot holds a record or not. -/
def AllPadded (page : Page P S) : Prop :=
  ∀ t < fixedLenPageCapacity P S, ∀ a < S / attributeSize, Padded (field page t a)

theorem field_congr {p q : Page P S} {t a : Nat} (ha : a < S / attributeSize)
    (h : slice q.data (t * S) S = slice p.data (t * S) S) : field q t a = field p t a := by
  have hin := attribute_end ha
  rw [field, field, ← slice_slice q.data hin, ← slice_slice p.data hin, h]

theorem blank_padded : AllPadded (Page.blank P S) := by
  intro t _ a _
  refine List.pairwise_of_forall_mem_list (fun _ _ b hb _ => ?_)
  exact List.eq_of_mem_replicate (List.mem_of_mem_drop (List.mem_of_mem_take hb))

theorem write_padded (hpad : AllPadded page) {t : Nat} (ht : t < fixedLenPageCapacity P S) {rec : Record}
    (hrec : rec.length = S / attributeSize) (hw : writeFixedLenPage page t rec = .ok page') : AllPadded page' := by
  have hsize : fixedLenSizeof rec = S / attributeSize * attributeSize := by rw [fixedLenSizeof, hrec]
  obtain ⟨page'', hw', -, hother, hself⟩ := writeFixedLenPage_slots page ht
    (hsize.trans_le (Nat.div_mul_le_self S attributeSize))
  obtain rfl : page' = page'' := Except.ok.inj (hw.symm.trans hw')
  intro u hu a ha
  by_cases hut : u = t
  · subst hut
    have hend : a * attributeSize + attributeSize ≤ fixedLenSizeof rec := by
      rw [hsize, ← Nat.succ_mul]
      exact Nat.mul_le_mul_right _ ha
    rw [field, hself _ _ hend, slice_fixedLenWrite rec (List.getElem?_eq_getElem (hrec ▸ ha))]
    exact strncpy_padded _ _
  · rw [field_congr ha (hother u hu hut)]
    exact hpad u hu a ha

theorem delete_padded (hpad : AllPadded page) {t : Nat} (ht : t < fixedLenPageCapacity P S)
    (hd : deleteFixedLenPage page t = .ok page') : AllPadded page' := by
  obtain ⟨page'', hd', hdata⟩ := deleteFixedLenPage_data page (slots_before_flags ht).2
  obtain rfl : page' = page'' := Except.ok.inj (hd.symm.trans hd')
  intro u hu a ha
  rw [field_congr ha (slice_modify_flag ht hu hdata)]
  exact hpad u hu a ha

theorem add_padded (hpad : AllPadded page) {rec : Record} (hrec : rec.length = S / attributeSize)
    (hadd : (addFixedLenPage page rec).map Prod.snd = .ok page') : AllPadded page' := by
  obtain ⟨⟨slot, page''⟩, ha, hsnd⟩ := map_eq_ok.mp hadd
  obtain rfl : page'' = page' := hsnd
  rw [addFixedLenPage_eq] at ha
  split at ha
  case h_1 t he =>
    obtain ⟨page1, hw, hpair⟩ := map_eq_ok.mp ha
    obtain ⟨-, rfl⟩ := Prod.mk.inj hpair
    exact write_padded hpad (emptySlot_eq_some.mp he).1 hrec hw
  case h_2 he =>
    obtain ⟨-, rfl⟩ := Prod.mk.inj (Except.ok.inj ha)
    exact hpad

/-- Operations on slots that are there, with records as wide as a slot, leave padded attributes. -/
theorem step_padded {pages' : Pages P S} {o : Op} {res : Option Record} (hpad : ∀ page ∈ pages, AllPadded page)
    (ho : OpWideOfPages pages o) (hs : LogicalPages.step beyond pages o = .ok (res, pages')) :
    ∀ page ∈ pages', AllPadded page := by
  cases o with
  | put rec =>
    obtain ⟨pages1, hput, he⟩ := map_eq_ok.mp hs
    obtain ⟨-, rfl⟩ := Prod.mk.inj he
    have hadd {page page' : Page P S} (hp : AllPadded page)
        (ha : (addFixedLenPage page rec).map Prod.snd = .ok page') : AllPadded page' := add_padded hp ho ha
    rw [put] at hput
    split at hput
    · exact modifyPage_forall hpad hadd hput
    · refine modifyPage_forall (fun page hp => ?_) hadd hput
      obtain hp | hp := List.mem_append.mp hp
      · exact hpad page hp
      · rw [List.mem_singleton.mp hp]
        exact blank_padded
  | get rid n =>
    obtain ⟨page, t, hj, -, -⟩ := ridOfPages_slot ho.1
    rw [LogicalPages.step, hj] at hs
    obtain ⟨rec, -, he⟩ := map_eq_ok.mp hs
    obtain ⟨-, rfl⟩ := Prod.mk.inj he
    exact hpad
  | update rid rec =>
    obtain ⟨page, t, -, hslot, ht⟩ := ridOfPages_slot ho.1
    obtain ⟨pages1, hm, he⟩ := map_eq_ok.mp hs
    obtain ⟨-, rfl⟩ := Prod.mk.inj he
    rw [hslot] at hm
    exact modifyPage_forall hpad (fun hp hw => write_padded hp ht ho.2 hw) hm
  | delete rid =>
    obtain ⟨page, t, -, hslot, ht⟩ := ridOfPages_slot ho
    obtain ⟨pages1, hm, he⟩ := map_eq_ok.mp hs
    obtain ⟨-, rfl⟩ := Prod.mk.inj he
    rw [hslot] at hm
    exact modifyPage_forall hpad (fun hp hd => delete_padded hp ht hd) hm

theorem rep_unique (hz : Sizes P S) {pages' : Pages P S} (hr : Rep h pages) (hr' : Rep h pages') : pages = pages' := by
  apply List.ext_getElem?
  intro j
  rw [← logicalPage_eq hz hr, ← logicalPage_eq hz hr']

theorem reached_padded (hz : Sizes P S) (hP : P < 2147483648) {cmds : List Cmd}
    (ha : SessionAdmissible beyond P S OpWide cmds) (hreach : Reached beyond P S cmds h) (hr : Rep h pages) :
    ∀ page ∈ pages, AllPadded page := by
  obtain ⟨pages', hr', hpad⟩ := hreach.inv hz hP (fun pages => ∀ page ∈ pages, AllPadded page) (opWide_iff hz)
    opWide_opOfPages (fun _ hp => absurd hp List.not_mem_nil) step_padded ha
  obtain rfl := rep_unique hz hr hr'
  exact hpad

end Padding

/-- The place in the file of an attribute of the record at `rid`, whose page has this entry. -/
def attributeOffset (entry : EntryRef) (rid : RecordID) (a : Nat) : Nat :=
  entry.value.offset.toNat + (rid.slot.toNat * slotSize + a * attributeSize)

theorem update_closedFile (hz : Sizes P slotSize) (hP : P < 2147483648) {pages : Pages P slotSize}
    (hlen : fileLength P pages.length < 2147483648) {j t i : Nat} {page page' : Page P slotSize}
    (hj : pages[j]? = some page) (ht : t < fixedLenPageCapacity P slotSize) (hi : i < numAttr)
    (newValue : CString)
    (hw : writeFixedLenPage page t (updatedRecord page t i (newValue.truncate attributeSize)) = .ok page') :
    update beyond P (closedFile pages) j t i newValue = .ok (closedFile (pages.set j page')) := by
  obtain ⟨h, hopen, hr, -⟩ := open_closedFile hz hP hlen
  obtain ⟨h', page'', hx, hw', hr'⟩ := updateAttribute_rep hz hr hj ht hi
    (newValue.truncate attributeSize)
  obtain rfl : page' = page'' := Except.ok.inj (hw.symm.trans hw')
  have hp := hz.page
  rw [update, if_pos ⟨Int.natCast_nonneg j, Int.natCast_nonneg t, Int.natCast_nonneg i, by omega⟩, hopen, ok_bind,
    Int.toNat_natCast, Int.toNat_natCast]
  have hx' : updateAttribute beyond h ⟨j, t⟩ numAttr i (newValue.truncate attributeSize) = .ok h' := hx
  rw [hx', ok_bind, closeHeapfile_eq hp hr']

section File

variable {page : Page P slotSize} {j t i : Nat}

theorem slice_closedFile (hp : 1001 < P) (hP : P < 2147483648) {page : Page P S} (hj : pages[j]? = some page) :
    slice (closedFile pages) (blockOffset P (.page j)) P = page.data := by
  have hblock : closedBlock pages (.page j) = page.data := by
    rw [closedBlock, hj]
    rfl
  rw [← hblock]
  exact slice_image (fun o _ => closedBlock_length pages hp hP o)
    (layout_position (owner_mem (P := P) (List.getElem?_eq_some_iff.mp hj).1))

theorem closedFile_block_end (hp : 1001 < P) (hP : P < 2147483648) {page : Page P S} (hj : pages[j]? = some page) :
    blockOffset P (.page j) + P ≤ (closedFile pages).length := by
  have hlen := congrArg List.length (slice_closedFile hp hP hj)
  rw [slice_length, page.length_data] at hlen
  omega

theorem update_live (hz : Sizes P slotSize) (hP : P < 2147483648) {pages : Pages P slotSize}
    (hlen : fileLength P pages.length < 2147483648) (hj : pages[j]? = some page)
    (ht : t < fixedLenPageCapacity P slotSize) (hlive : page.filled t = true) (hi : i < numAttr)
    (newValue : CString) :
    ∃ bytes', update beyond P (closedFile pages) j t i newValue = .ok bytes' ∧
      bytes'.length = (closedFile pages).length ∧
      slice bytes' (blockOffset P (.page j) + (t * slotSize + i * attributeSize)) attributeSize =
        strncpy newValue attributeSize ∧
      (SameOutside (closedFile pages) bytes' (blockOffset P (.page j) + (t * slotSize + i * attributeSize))
          attributeSize ↔
        ∀ a < numAttr, a ≠ i → Padded (field page t a)) := by
  obtain ⟨page', hw, hfree, hfield, hsame⟩ := update_page ht hlive (show i < slotSize / attributeSize from hi)
    (newValue.truncate attributeSize)
  have hslot := slot_in_page ht
  have hin := attribute_end (show i < slotSize / attributeSize from hi)
  have hbytes := closedFile_set hz.page hP hj hfree
  have hend := closedFile_block_end hz.page hP hj
  have hblock := slice_closedFile hz.page hP hj
  have hl := page.length_data
  have hl' := page'.length_data
  refine ⟨_, update_closedFile hz hP hlen hj ht hi newValue hw, ?_, ?_, ?_⟩
  · rw [hbytes, splice_length (by rw [hl']; exact hend)]
  · rw [hbytes, slice_splice_inside (show _ ≤ (closedFile pages).length by omega) (by omega)]
    rw [field, strncpy_truncate] at hfield
    exact hfield
  · have hold : slice (closedFile pages) (blockOffset P (.page j)) page.data.length = page.data := by rwa [hl]
    rw [hbytes, sameOutside_splice (hl'.trans hl.symm) (by rwa [hl]) hold]
    exact hsame

end File

/-- For every file a session left and every id that holds a record: the program leaves the new value,
cut and padded, in its place, and changes nothing else exactly when every other attribute of the record
is padded. So it is after operations on slots that are there. -/
theorem update_file_iff (hz : Sizes P slotSize) (hP : P < 2147483648) (beyond' : Nat → Byte) {cmds : List Cmd}
    (ha : SessionAdmissible beyond P slotSize OpAllocated cmds) {h : Heapfile P slotSize}
    (hreach : Reached beyond P slotSize cmds h) {bytes : List Byte} (hclose : closeHeapfile h = .ok bytes)
    {rid : RecordID} (hlive : contents h rid ≠ none) {i : Nat} (hi : i < numAttr) (newValue : CString) :
    ∃ entry bytes', getEntry h rid.pageId = .ok entry ∧
      update beyond' P bytes rid.pageId rid.slot i newValue = .ok bytes' ∧ bytes'.length = bytes.length ∧
      slice bytes' (attributeOffset entry rid i) attributeSize = strncpy newValue attributeSize ∧
      (SameOutside bytes bytes' (attributeOffset entry rid i) attributeSize ↔
        ∀ a < numAttr, a ≠ i → Padded (slice bytes (attributeOffset entry rid a) attributeSize)) ∧
      (SessionAdmissible beyond P slotSize OpWide cmds →
        SameOutside bytes bytes' (attributeOffset entry rid i) attributeSize) := by
  obtain ⟨pages, hr⟩ := reached_rep hz hP ha hreach
  obtain rfl : closedFile pages = bytes := Except.ok.inj ((closeHeapfile_eq hz.page hr).symm.trans hclose)
  rw [contents_eq hz hr] at hlive
  obtain ⟨page, t, hj, hslot, ht, hfilled⟩ := live_rid hlive
  obtain ⟨bytes', hx, hl, hvalue, hsame⟩ := update_live hz hP (Rep.fileLength_lt hr) hj ht hfilled hi newValue
  have hoff (e : EntryRef) (he : e.value.offset = (blockOffset P (.page rid.pageId) : Nat)) (a : Nat) :
      attributeOffset e rid a = blockOffset P (.page rid.pageId) + (t * slotSize + a * attributeSize) := by
    rw [attributeOffset, he, hslot, Int.toNat_natCast, Int.toNat_natCast]
  refine ⟨_, bytes', hr.core.getEntry hz.page hj, ?_, hl, ?_, ?_, fun hwide => ?_⟩
  · rw [hslot]
    exact hx
  · rw [hoff _ rfl]
    exact hvalue
  · rw [hoff _ rfl, hsame]
    refine forall₃_congr (fun a ha hne => ?_)
    have hslot := slot_in_page ht
    have hin := attribute_end (show a < slotSize / attributeSize from ha)
    rw [hoff _ rfl, field, ← slice_closedFile hz.page hP hj, slice_slice _ (by omega)]
  · rw [hoff _ rfl, hsame]
    intro a ha _
    exact reached_padded hz hP hwide hreach hr page (List.mem_of_getElem? hj) t ht a ha

def atAttribute : CString := ⟨[64, 97], by decide⟩

/-- A put of a record that starts with "@a", and `delete <file> 0,8014 1002`: the flag of slot 8014 would
be the one bit of '@'. -/
def damage : List Cmd :=
  [.op (.put (atAttribute :: List.replicate 99 letterAttribute)), .op (.delete ⟨0, (8014 : Nat)⟩)]

/-- The record is still live, and an update of its second attribute erases the 'a' of its first. -/
theorem update_erases : ∃ (h : Heapfile 1002 slotSize) (bytes : List Byte),
    SessionAdmissible (fun _ => 0) 1002 slotSize OpAllocated damage ∧ Reached (fun _ => 0) 1002 slotSize damage h ∧
    closeHeapfile h = .ok bytes ∧ contents h ⟨0, (0 : Nat)⟩ ≠ none ∧
    ∃ entry bytes', getEntry h 0 = .ok entry ∧
      update (fun _ => 0) 1002 bytes 0 0 1 letterAttribute = .ok bytes' ∧
      ¬ SameOutside bytes bytes' (attributeOffset entry ⟨0, (0 : Nat)⟩ 1) attributeSize := by
  have hz : Sizes 1002 slotSize := ⟨by decide, by decide, by decide⟩
  have hc : 0 < fixedLenPageCapacity 1002 slotSize := by decide
  obtain ⟨h0, page, ha0, hreach0, hr0, hfilled, hrec⟩ := reached_put hz (by decide) (fun _ => 0)
    (show (atAttribute :: List.replicate 99 letterAttribute).length = slotSize / attributeSize by decide) (by decide)
  have hj : [page][0]? = some page := rfl
  obtain ⟨page', hd, hdata⟩ := deleteFixedLenPage_data page (show 8014 / 8 < 1002 by decide)
  obtain ⟨h, ha, hreach, hr⟩ := reached_delete hz ha0 hreach0 hr0
    ((allocated_iff hz.page hr0 0).mpr Nat.zero_lt_one) hj hd
  have hfilled' : page'.filled 0 = true := by
    rw [filled_modify (by decide) (and_not_flagMask 8014) hdata (show 0 / 8 < 1002 by decide), if_neg (by decide)]
    exact hfilled
  have hattr : (slotRecord page 0)[0]? = some (atAttribute.truncate attributeSize) := by
    rw [hrec]
    rfl
  have hfirst : (field page' 0 0)[0]? = some 0 := by
    have hb := byte_of_attribute page hattr (show (atAttribute.truncate attributeSize).bytes[0]? = some 64 from rfl)
    rw [field, getElem?_slice, if_pos (by decide), hdata]
    simp only [List.getElem?_modify, hb]
    rfl
  have hsecond : (field page' 0 0)[1]? = some 97 := by
    have hb := byte_of_attribute page hattr (show (atAttribute.truncate attributeSize).bytes[1]? = some 97 from rfl)
    rw [field, getElem?_slice, if_pos (by decide), hdata]
    simp only [List.getElem?_modify, hb]
    rfl
  have hbad : ¬ Padded (field page' 0 0) := by
    intro hpad
    obtain ⟨h0lt, h0⟩ := List.getElem?_eq_some_iff.mp hfirst
    obtain ⟨h1lt, h1⟩ := List.getElem?_eq_some_iff.mp hsecond
    have hzero := List.pairwise_iff_getElem.mp hpad 0 1 h0lt h1lt Nat.zero_lt_one h0
    rw [h1] at hzero
    exact absurd hzero (by decide)
  have hj' : [page'][0]? = some page' := rfl
  obtain ⟨bytes', hx, -, -, hsame⟩ := update_live hz (by decide) (Rep.fileLength_lt hr) hj' hc hfilled'
    (show 1 < numAttr by decide) letterAttribute
  refine ⟨h, closedFile [page'], ha, hreach, closeHeapfile_eq hz.page hr, ?_, _, bytes',
    hr.core.getEntry hz.page hj', hx, fun hall => hbad (hsame.mp hall 0 (by decide) (by decide))⟩
  rw [contents_eq hz hr]
  exact contentsOf_ne_none hj' hc hfilled'

theorem update_file_iff_put : ∃ (h : Heapfile 1002 slotSize) (bytes : List Byte),
    Reached (fun _ => 0) 1002 slotSize [.op (.put wideRecord)] h ∧ closeHeapfile h = .ok bytes ∧
    ∃ entry bytes', getEntry h 0 = .ok entry ∧
      update (fun _ => 0) 1002 bytes 0 0 1 letterAttribute = .ok bytes' ∧ bytes'.length = bytes.length ∧
      slice bytes' (attributeOffset entry ⟨0, (0 : Nat)⟩ 1) attributeSize = strncpy letterAttribute attributeSize ∧
      SameOutside bytes bytes' (attributeOffset entry ⟨0, (0 : Nat)⟩ 1) attributeSize := by
  have hz : Sizes 1002 slotSize := ⟨by decide, by decide, by decide⟩
  obtain ⟨h, page, ha, hreach, hr, -, hlive, -⟩ := reached_wideRecord
  have hwide : SessionAdmissible (fun _ => 0) 1002 slotSize OpWide [.op (.put wideRecord)] := by
    rw [sessionAdmissible_iff hz (by decide) (opWide_iff hz) opWide_opOfPages]
    refine pagesAdmissible_puts [wideRecord] (fun pages rec hrec => ?_) (by decide)
    rw [List.mem_singleton.mp hrec]
    rfl
  obtain ⟨entry, bytes', he, hx, hl, hvalue, -, hsame⟩ := update_file_iff hz (by decide) (fun _ => 0)
    ha hreach (closeHeapfile_eq hz.page hr) hlive (show 1 < numAttr by decide) letterAttribute
  exact ⟨h, _, hreach, closeHeapfile_eq hz.page hr, entry, bytes', he, hx, hl, hvalue, hsame hwide⟩

end RecordStore.UpdateFrame
