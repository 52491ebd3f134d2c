import RecordStore.AllocatedRuns
import RecordStore.Scanning
import RecordStore.SlotFrame

namespace RecordStore.OutOfRange

open RecordStore.Splice RecordStore.CFile RecordStore.Outcome RecordStore.FixedRecord RecordStore.FixedPage
open RecordStore.PageSlots RecordStore.SlotFrame RecordStore.HeapFile RecordStore.HeapImage
open RecordStore.HeapAlloc RecordStore.HeapSession RecordStore.LogicalPages RecordStore.HeapRefinement
open RecordStore.HeapRuns RecordStore.HeapContents RecordStore.AllocatedRuns RecordStore.CsvPrograms
open RecordStore.Scanning

variable {P S : Nat} {h : Heapfile P S} {pages : Pages P S} {beyond : Nat → Byte}

/-- The other slots have the bytes and the flags they had. -/
def SlotsKept (page page' : Page P S) (t : Nat) : Prop :=
  ∀ u < fixedLenPageCapacity P S, u ≠ t →
    slice page'.data (u * S) S = slice page.data (u * S) S ∧ page'.filled u = page.filled u

/-- The bit that `delete_fixed_len_page` clears is the flag of a slot, or lies in the page and, where
that is in a record, is clear anyway. -/
def DeleteHarmless (page : Page P S) (t : Nat) : Prop :=
  t < fixedLenPageCapacity P S ∨
    t / 8 < P ∧ (P - 1 - t / 8 < fixedLenPageCapacity P S * S → bit page (P - 1 - t / 8) (t % 8) = false)

/-- The slot exists; or all of the record lies in the page, the flags it is written over are what its
bytes say, and the bit that is set for it lies in the page and, where that is in a record, is set
anyway. -/
def UpdateHarmless (page : Page P S) (t : Nat) (r : Record) : Prop :=
  t < fixedLenPageCapacity P S ∨
    InPage P S t r ∧ t / 8 < P ∧
    (P - 1 - t / 8 < fixedLenPageCapacity P S * S → bit page (P - 1 - t / 8) (t % 8) = true) ∧
    ∀ u < fixedLenPageCapacity P S, ∀ k < fixedLenSizeof r, P - 1 - u / 8 = t * S + k →
      ((fixedLenWrite r).getD k 0).getLsbD (u % 8) = page.filled u

section Bits

variable {page page' : Page P S}

theorem slice_eq_iff {u : Nat} (hu : u < fixedLenPageCapacity P S) :
    slice page'.data (u * S) S = slice page.data (u * S) S ↔
      ∀ i ∈ slotBytes S u, ∀ k < 8, bit page' i k = bit page i k := by
  have hpage := slot_in_page hu
  have hbyte (p : Page P S) {i : Nat} (hi : i < S) : (slice p.data (u * S) S)[i]? = some (p.byte (u * S + i)) := by
    have hlt : u * S + i < p.data.length := by
      rw [p.length_data]
      omega
    rw [getElem?_slice, if_pos hi, List.getElem?_eq_getElem hlt, Page.byte, List.getD_eq_getElem?_getD,
      List.getElem?_eq_getElem hlt, Option.getD_some]
  constructor
  · intro he i hi k _
    rw [mem_slotBytes] at hi
    have h1 := hbyte page' (show i - u * S < S by omega)
    rw [he, hbyte page (by omega), Nat.add_sub_cancel' hi.1] at h1
    rw [bit, bit, Option.some.inj h1]
  · intro hbits
    apply List.ext_getElem?
    intro i
    by_cases hi : i < S
    · rw [hbyte page' hi, hbyte page hi]
      congr 1
      apply BitVec.eq_of_getLsbD_eq
      intro k hk
      exact hbits _ (mem_slotBytes.mpr (by omega)) k hk
    · rw [getElem?_slice, getElem?_slice, if_neg hi, if_neg hi]

theorem slotsKept_iff {t : Nat} : SlotsKept page page' t ↔
    ∀ u < fixedLenPageCapacity P S, u ≠ t →
      (∀ i ∈ slotBytes S u, ∀ k < 8, bit page' i k = bit page i k) ∧
      bit page' (P - 1 - u / 8) (u % 8) = bit page (P - 1 - u / 8) (u % 8) := by
  refine forall₃_congr (fun u hu _ => and_congr (slice_eq_iff hu) ?_)
  rw [filled_eq_bit, filled_eq_bit]

theorem exists_slot {i : Nat} (hi : i < fixedLenPageCapacity P S * S) :
    ∃ u < fixedLenPageCapacity P S, i ∈ slotBytes S u := by
  have hs : 0 < S := Nat.pos_of_ne_zero (by rintro rfl; simp at hi)
  refine ⟨i / S, (Nat.div_lt_iff_lt_mul hs).mpr hi, ?_⟩
  rw [slotBytes, Set.mem_Ico]
  exact ⟨Nat.div_mul_le_self i S, Nat.lt_mul_of_div_lt (Nat.lt_succ_self _) hs⟩

theorem slotBytes_lt {u i : Nat} (hu : u < fixedLenPageCapacity P S) (hi : i ∈ slotBytes S u) :
    i < fixedLenPageCapacity P S * S ∧ i < P := by
  have hend := slot_end hu
  have hpage := slot_in_page hu
  rw [mem_slotBytes] at hi
  omega

theorem kept_of_slot {t : Nat} {v : Bool} (ht : t < fixedLenPageCapacity P S)
    (hsame : SameBut (slotBytes S t) t v page page') : SlotsKept page page' t := by
  have ht8 := (slots_before_flags ht).2
  refine slotsKept_iff.mpr (fun u hu hne => ⟨fun i hi k hk => ?_, ?_⟩)
  · have hout : i ∉ slotBytes S t := fun ht => Set.notMem_empty i (slotBytes_disjoint hne ▸ ⟨hi, ht⟩)
    rw [hsame i (slotBytes_lt hu hi).2 hout k hk, if_neg (fun he => flagIndex_not_mem_slotBytes hu ht hi he.1)]
  · obtain ⟨hafter, hu8⟩ := slots_before_flags hu
    have hout : P - 1 - u / 8 ∉ slotBytes S t := fun hmem => by
      have := (slotBytes_lt ht hmem).1
      omega
    have hne' : ¬ (((P - 1 - u / 8 : Nat) : Int) = flagIndex P t ∧ u % 8 = t % 8) := by
      rw [flagIndex_iff ht8]
      omega
    rw [hsame _ (by omega) hout _ (Nat.mod_lt _ (by decide)), if_neg hne']

/-- Bytes stored past the slots, and then the flag bit of a slot that is not there. The flag may be a
bit of a record, and the bytes may be flags. -/
theorem kept_iff_of_flag {t : Nat} {v : Bool} {image : Nat → Nat → Bool} (ht : ¬ t < fixedLenPageCapacity P S)
    (ht8 : t / 8 < P) (hrec : ∀ i < fixedLenPageCapacity P S * S, ∀ k, image i k = bit page i k)
    (hbits : ∀ i < P, ∀ k < 8, bit page' i k = if i = P - 1 - t / 8 ∧ k = t % 8 then v else image i k) :
    SlotsKept page page' t ↔
      (P - 1 - t / 8 < fixedLenPageCapacity P S * S → bit page (P - 1 - t / 8) (t % 8) = v) ∧
      ∀ u < fixedLenPageCapacity P S, image (P - 1 - u / 8) (u % 8) = page.filled u := by
  have hmod (u : Nat) : u % 8 < 8 := Nat.mod_lt _ (by decide)
  have hflag (u : Nat) (hu : u < fixedLenPageCapacity P S) :
      bit page' (P - 1 - u / 8) (u % 8) = image (P - 1 - u / 8) (u % 8) := by
    have hu8 := (slots_before_flags hu).2
    rw [hbits _ (by omega) _ (hmod u), if_neg (by omega)]
  rw [slotsKept_iff]
  constructor
  · intro hkept
    refine ⟨fun hlt => ?_, fun u hu => ?_⟩
    · obtain ⟨u, hu, hmem⟩ := exists_slot hlt
      have hbit := (hkept u hu (fun he => ht (he ▸ hu))).1 _ hmem _ (hmod t)
      rw [hbits _ (by omega) _ (hmod t), if_pos ⟨rfl, rfl⟩] at hbit
      exact hbit.symm
    · rw [← hflag u hu, filled_eq_bit]
      exact (hkept u hu (fun he => ht (he ▸ hu))).2
  · rintro ⟨hv, himage⟩ u hu _
    refine ⟨fun i hi k hk => ?_, by rw [hflag u hu, himage u hu, filled_eq_bit]⟩
    obtain ⟨hlt, hiP⟩ := slotBytes_lt hu hi
    rw [hbits i hiP k hk]
    split
    case isTrue he =>
      obtain ⟨rfl, rfl⟩ := he
      exact (hv hlt).symm
    case isFalse => exact hrec i hlt k

end Bits

theorem delete_keeps_iff (page : Page P S) (t : Nat) :
    (∃ page', deleteFixedLenPage page t = .ok page' ∧ SlotsKept page page' t) ↔ DeleteHarmless page t := by
  by_cases ht : t < fixedLenPageCapacity P S
  · obtain ⟨page', hd, hsame⟩ := delete_sameBut page ht
    exact iff_of_true ⟨page', hd, kept_of_slot ht (hsame.mono (Set.empty_subset _))⟩ (.inl ht)
  · rw [DeleteHarmless, or_iff_right ht]
    by_cases ht8 : t / 8 < P
    · obtain ⟨page', hd, hbits⟩ := deleteFixedLenPage_bits page ht8
      have hkept := kept_iff_of_flag ht ht8 (fun _ _ _ => rfl) hbits
      rw [and_iff_left (fun u _ => (filled_eq_bit page u).symm)] at hkept
      rw [hd, and_iff_right ht8, ← hkept]
      exact ⟨fun ⟨p, hp, hk⟩ => Except.ok.inj hp ▸ hk, fun hk => ⟨page', rfl, hk⟩⟩
    · rw [deleteFixedLenPage_fault page ht8]
      exact iff_of_false (fun ⟨_, he, _⟩ => by cases he) (fun he => ht8 he.1)

theorem update_keeps_iff (page : Page P S) (t : Nat) {r : Record} (hr : fixedLenSizeof r ≤ S) :
    (∃ page', writeFixedLenPage page t r = .ok page' ∧ SlotsKept page page' t) ↔ UpdateHarmless page t r := by
  by_cases ht : t < fixedLenPageCapacity P S
  · obtain ⟨page', hw, hsame⟩ := write_sameBut page ht hr
    exact iff_of_true ⟨page', hw, kept_of_slot ht hsame⟩ (.inl ht)
  · rw [UpdateHarmless, or_iff_right ht]
    by_cases hok : InPage P S t r ∧ t / 8 < P
    · obtain ⟨hfit, ht8⟩ := hok
      obtain ⟨page', hw, hbits⟩ := writeFixedLenPage_bits page hfit ht8
      have hpast : fixedLenPageCapacity P S * S ≤ t * S := Nat.mul_le_mul_right S (Nat.le_of_not_lt ht)
      have hkept := kept_iff_of_flag ht ht8 (fun i hi k => if_neg (by omega)) hbits
      rw [hw, and_iff_right hfit, and_iff_right ht8]
      refine Iff.trans ⟨fun ⟨p, hp, hk⟩ => Except.ok.inj hp ▸ hk, fun hk => ⟨page', rfl, hk⟩⟩
        (hkept.trans (and_congr_right (fun _ => forall₂_congr (fun u hu => ?_))))
      constructor
      · intro he k hk hpos
        rw [if_pos (by omega), hpos, Nat.add_sub_cancel_left] at he
        exact he
      · intro himage
        split
        case isTrue hin =>
          exact himage (P - 1 - u / 8 - t * S) (by omega) (by omega)
        case isFalse => exact (filled_eq_bit page u).symm
    · rw [writeFixedLenPage_fault page hok]
      exact iff_of_false (fun ⟨_, he, _⟩ => by cases he) (fun he => hok ⟨he.1, he.2.1⟩)

def storedBytes (h : Heapfile P S) (rid : RecordID) : Option (List Byte) :=
  (logicalPage h rid.pageId).map (fun page => slice page.data (rid.slot.toNat * S) S)

/-- Every other id stands for the bytes it stood for, and holds a record if it held one. -/
def OthersKept (h h' : Heapfile P S) (rid : RecordID) : Prop :=
  ∀ rid', RidInRange h rid' → rid' ≠ rid →
    storedBytes h' rid' = storedBytes h rid' ∧ (contents h' rid' = none ↔ contents h rid' = none)

/-- What an operation on `rid` may come to: the others are kept, or an assertion or an error
message ends the program before it has changed anything. -/
def Harmless (h : Heapfile P S) (rid : RecordID) (x : Except Fault (Heapfile P S)) : Prop :=
  (∃ h', x = .ok h' ∧ OthersKept h h' rid) ∨ x = .error .assertFailed ∨ x = .error .exit

theorem othersKept_iff (hz : Sizes P S) (hr : Rep h pages) {j t : Nat} {page page' : Page P S}
    {h' : Heapfile P S} (hj : pages[j]? = some page) (hr' : Rep h' (pages.set j page')) :
    OthersKept h h' ⟨j, t⟩ ↔ SlotsKept page page' t := by
  have hlt : j < pages.length := (List.getElem?_eq_some_iff.mp hj).1
  have hself : (pages.set j page')[j]? = some page' := List.getElem?_set_self hlt
  constructor
  · intro hkept u hu hne
    have hin : RidInRange h ⟨j, u⟩ :=
      ⟨(allocated_iff hz.page hr j).mpr hlt, Int.natCast_nonneg u, Int.ofNat_lt.mpr hu⟩
    have hrid : (⟨j, u⟩ : RecordID) ≠ ⟨j, t⟩ := fun he => hne (Int.ofNat_inj.mp (congrArg RecordID.slot he))
    obtain ⟨hbytes, hlive⟩ := hkept _ hin hrid
    simp only [storedBytes, logicalPage_eq hz hr', logicalPage_eq hz hr, hself, hj, Option.map_some,
      Int.toNat_natCast, Option.some.injEq] at hbytes
    simp only [contents_eq hz hr', contents_eq hz hr, contentsOf, hself, hj, Option.bind_some,
      pageContents_eq_none_iff _ hu] at hlive
    exact ⟨hbytes, Bool.eq_iff_iff.mpr (by simpa using not_congr hlive)⟩
  · rintro hkept ⟨i, slot⟩ ⟨-, hnonneg, hslot⟩ hrid
    obtain ⟨u, rfl⟩ := Int.eq_ofNat_of_zero_le hnonneg
    have hu : u < fixedLenPageCapacity P S := Int.ofNat_lt.mp hslot
    simp only [storedBytes, logicalPage_eq hz hr', logicalPage_eq hz hr, contents_eq hz hr', contents_eq hz hr,
      contentsOf]
    by_cases hij : i = j
    · subst hij
      obtain ⟨hbytes, hflag⟩ := hkept u hu (fun he => hrid (he ▸ rfl))
      simp only [hself, hj, Option.map_some, Option.bind_some, Int.toNat_natCast, hbytes,
        pageContents_eq_none_iff _ hu, hflag, and_self]
    · rw [List.getElem?_set_ne (Ne.symm hij)]
      exact ⟨rfl, Iff.rfl⟩

/-- A page operation that, if anything, leaves the page is harmless on the heap file exactly when it is
so on the page. -/
theorem harmless_iff (hz : Sizes P S) (hr : Rep h pages) {j t : Nat} {page : Page P S}
    (hj : pages[j]? = some page) {f : Page P S → Except Fault (Page P S)} {x : Except Fault (Heapfile P S)}
    (hx : Agree Tracks x (modifyPage pages j f)) (hf : ∀ e, f page = .error e → e = .memory) :
    Harmless h ⟨j, t⟩ x ↔ ∃ page', f page = .ok page' ∧ SlotsKept page page' t := by
  rw [modifyPage_some hj] at hx
  cases hp : f page with
  | error e =>
    obtain rfl := hf e hp
    rw [hp] at hx
    obtain rfl : x = .error .memory := Agree.of_error_right hx
    refine iff_of_false ?_ (fun ⟨_, he, _⟩ => by cases he)
    rintro (⟨_, he, _⟩ | he | he) <;> cases he
  | ok page' =>
    rw [hp] at hx
    obtain ⟨h', rfl, ht⟩ := Agree.of_ok_right hx
    have hr' : Rep h' (pages.set j page') := Tracks.rep ht (by
      rw [List.length_set]
      exact Rep.fileLength_lt hr)
    have hkept := othersKept_iff (t := t) hz hr hj hr'
    constructor
    · rintro (⟨h'', he, hk⟩ | he | he)
      · obtain rfl := Except.ok.inj he
        exact ⟨page', rfl, hkept.mp hk⟩
      · cases he
      · cases he
    · rintro ⟨page'', he, hk⟩
      obtain rfl := Except.ok.inj he
      exact .inl ⟨h', rfl, hkept.mpr hk⟩

theorem write_error (page : Page P S) {t : Nat} {r : Record} {e : Fault}
    (he : writeFixedLenPage page t r = .error e) : e = .memory := by
  by_cases hok : InPage P S t r ∧ t / 8 < P
  · obtain ⟨page', hw, -⟩ := writeFixedLenPage_bits page hok.1 hok.2
    rw [hw] at he
    cases he
  · rw [writeFixedLenPage_fault page hok] at he
    exact (Except.error.inj he).symm

theorem delete_error (page : Page P S) {t : Nat} {e : Fault} (he : deleteFixedLenPage page t = .error e) :
    e = .memory := by
  by_cases hok : t / 8 < P
  · obtain ⟨page', hd, -⟩ := deleteFixedLenPage_bits page hok
    rw [hd] at he
    cases he
  · rw [deleteFixedLenPage_fault page hok] at he
    exact (Except.error.inj he).symm

theorem delete_harmless_iff (hz : Sizes P S) (hr : Rep h pages) {j t : Nat} {page : Page P S}
    (hj : pages[j]? = some page) : Harmless h ⟨j, t⟩ (deleteRecord h ⟨j, t⟩) ↔ DeleteHarmless page t := by
  have hlt : j < pages.length := (List.getElem?_eq_some_iff.mp hj).1
  rw [← delete_keeps_iff]
  exact harmless_iff hz hr hj (modify_agree hz hr hlt (fun page => deleteFixedLenPage page t))
    (fun e he => delete_error page he)

theorem update_harmless_iff (hz : Sizes P S) (hr : Rep h pages) {j t : Nat} {page : Page P S}
    (hj : pages[j]? = some page) {rec : Record} (hrec : fixedLenSizeof rec ≤ S) :
    Harmless h ⟨j, t⟩ (updateRecord h ⟨j, t⟩ rec) ↔ UpdateHarmless page t rec := by
  have hlt : j < pages.length := (List.getElem?_eq_some_iff.mp hj).1
  rw [← update_keeps_iff page t hrec]
  exact harmless_iff hz hr hj (modify_agree hz hr hlt (fun page => writeFixedLenPage page t rec))
    (fun e he => write_error page he)

/-- In whatever state: deleting and updating any slot of an allocated page leave all other ids alone
exactly when the slot is there, or the bits that are changed for it are nobody's or have the new
value already. -/
theorem out_of_range_harmless_iff (hz : Sizes P S) (hP : P < 2147483648) {cmds : List Cmd}
    (ha : SessionAdmissible beyond P S OpAllocated cmds) (hreach : Reached beyond P S cmds h)
    {pid : Nat} (hal : Allocated h pid) (t : Nat) :
    ∃ page, logicalPage h pid = some page ∧
      (Harmless h ⟨pid, t⟩ (deleteRecord h ⟨pid, t⟩) ↔ DeleteHarmless page t) ∧
      ∀ rec : Record, fixedLenSizeof rec ≤ S →
        (Harmless h ⟨pid, t⟩ (updateRecord h ⟨pid, t⟩ rec) ↔ UpdateHarmless page t rec) := by
  obtain ⟨pages, hr⟩ := reached_rep hz hP ha hreach
  have hj := List.getElem?_eq_getElem ((allocated_iff hz.page hr pid).mp hal)
  exact ⟨_, (logicalPage_eq hz hr pid).trans hj, delete_harmless_iff hz hr hj,
    fun rec hrec => update_harmless_iff hz hr hj hrec⟩

theorem cstring_getElem? {src : List Byte} {n k : Nat} {b : Byte} (h : (cstring src n).bytes[k]? = some b) :
    k < n ∧ src[k]? = some b := by
  obtain ⟨hlt, rfl⟩ := List.getElem?_eq_some_iff.mp h
  have hk := List.prefix_iff_getElem?.mp (List.takeWhile_prefix _) k hlt
  rw [List.getElem?_take] at hk
  split at hk
  · exact ⟨by assumption, hk⟩
  · cases hk

theorem byte_of_attribute (page : Page P S) {t i k : Nat} {attr : CString} {b : Byte}
    (hi : (slotRecord page t)[i]? = some attr) (hb : attr.bytes[k]? = some b) :
    page.data[t * S + i * attributeSize + k]? = some b := by
  simp only [slotRecord, List.getElem?_map, Option.map_eq_some_iff] at hi
  obtain ⟨a, ha, rfl⟩ := hi
  obtain rfl : i = a := by
    obtain ⟨hlt, he⟩ := List.getElem?_eq_some_iff.mp ha
    rwa [List.getElem_range] at he
  obtain ⟨hk, hsrc⟩ := cstring_getElem? hb
  rwa [getElem?_slice, if_pos hk] at hsrc

/-- `delete <file> 0,8008 1002`: the only record's first byte is where the flag of slot 8008 would be. -/
theorem delete_8008_harms : ∃ h : Heapfile 1002 slotSize,
    SessionAdmissible (fun _ => 0) 1002 slotSize OpAllocated [.op (.put wideRecord)] ∧
    Reached (fun _ => 0) 1002 slotSize [.op (.put wideRecord)] h ∧ Allocated h 0 ∧
    ¬ Harmless h ⟨0, (8008 : Nat)⟩ (deleteRecord h ⟨0, (8008 : Nat)⟩) := by
  have hz : Sizes 1002 slotSize := ⟨by decide, by decide, by decide⟩
  obtain ⟨h, page, ha, hreach, hr, hal, -, hrec⟩ := reached_wideRecord
  refine ⟨h, ha, hreach, hal, ?_⟩
  rw [delete_harmless_iff hz hr (show [page][0]? = some page from rfl)]
  have hattr : (slotRecord page 0)[0]? = some (letterAttribute.truncate attributeSize) := by
    rw [hrec]
    rfl
  have hbyte : page.byte 0 = 97 := by
    rw [Page.byte, List.getD_eq_getElem?_getD]
    exact congrArg (Option.getD · 0)
      (byte_of_attribute page hattr (show (letterAttribute.truncate attributeSize).bytes[0]? = some 97 from rfl))
  rintro (hlt | ⟨-, hclear⟩)
  · exact absurd hlt (by decide)
  · have hbit := hclear (by decide)
    rw [bit, show 1002 - 1 - 8008 / 8 = 0 by decide, hbyte] at hbit
    exact absurd hbit (by decide)

theorem out_of_range_harmless_iff_put : ∃ h : Heapfile 1002 slotSize,
    Reached (fun _ => 0) 1002 slotSize [.op (.put wideRecord)] h ∧ ∃ page, logicalPage h 0 = some page ∧
      (Harmless h ⟨0, (8008 : Nat)⟩ (deleteRecord h ⟨0, (8008 : Nat)⟩) ↔ DeleteHarmless page 8008) ∧
      ∀ rec : Record, fixedLenSizeof rec ≤ slotSize →
        (Harmless h ⟨0, (8008 : Nat)⟩ (updateRecord h ⟨0, (8008 : Nat)⟩ rec) ↔ UpdateHarmless page 8008 rec) := by
  have hz : Sizes 1002 slotSize := ⟨by decide, by decide, by decide⟩
  obtain ⟨h, -, ha, hreach, -, hal, -⟩ := reached_wideRecord
  exact ⟨h, hreach, out_of_range_harmless_iff hz (by decide) ha hreach hal 8008⟩

end RecordStore.OutOfRange
