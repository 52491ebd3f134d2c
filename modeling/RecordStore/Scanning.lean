import RecordStore.CsvPrograms
import RecordStore.IteratorScan
import RecordStore.RecordMap

namespace RecordStore.Scanning

open RecordStore.CFile RecordStore.Outcome RecordStore.FixedRecord RecordStore.FixedPage RecordStore.PageSlots
open RecordStore.DirectoryPage RecordStore.HeapFile RecordStore.PageLayout RecordStore.DirectoryChain
open RecordStore.HeapImage RecordStore.HeapAlloc RecordStore.HeapSession RecordStore.LogicalPages
open RecordStore.HeapRuns RecordStore.HeapContents RecordStore.RecordIterator RecordStore.IteratorScan
open RecordStore.CsvPrograms RecordStore.RecordMap

variable {P S : Nat} {h : Heapfile P S} {pages : Pages P S} {beyond : Nat → Byte}

def RidLt (a b : RecordID) : Prop := a.pageId < b.pageId ∨ (a.pageId = b.pageId ∧ a.slot < b.slot)

/-- The last directory page has no room for another entry. -/
def LastDirectoryFull (h : Heapfile P S) : Prop :=
  ∃ dir, h.directoryBuffer.getLast? = some dir ∧ isFull dir = true

theorem lastDirectoryFull_iff (hz : Sizes P S) (hr : Rep h pages) :
    LastDirectoryFull h ↔ LastFull (directoryCapacity P) pages.length := by
  have hcap := (capacity_bounds hz.page hr.core.size).1
  have hlast : h.directoryBuffer.getLast? = some (directoryAt P (chainLink P pages.length) (chainOffset P)
      (entriesOf pages) ((pages.length - 1) / directoryCapacity P)) := by
    rw [hr.core.dirs, directories, entriesOf_length, numDirs, List.range_succ, List.map_append,
      List.map_singleton, List.getLast?_concat]
  have hdm := Nat.div_add_mod' pages.length (directoryCapacity P)
  have hm := Nat.mod_lt pages.length hcap
  simp only [LastDirectoryFull, hlast, Option.some.injEq, exists_eq_left',
    isFull_directoryAt hr.core.size, entriesOf_length, decide_eq_true_eq]
  by_cases hf : LastFull (directoryCapacity P) pages.length
  · have hd := (numDirs_succ_of_full hf).1
    unfold numDirs at hd
    simp only [hf, iff_true]
    left
    rw [← Nat.succ_mul, Nat.succ_eq_add_one, hd, hf.div_mul]
  · have hd := (numDirs_succ_of_not_full hf).1
    unfold numDirs at hd
    rw [Nat.add_right_cancel hd]
    simp only [hf, iff_false]
    omega

theorem slotsAfter_mem (page : Page P S) {slot : Int} (hs : -1 ≤ slot) (t : Nat) :
    t ∈ slotsAfter page slot ↔ t < fixedLenPageCapacity P S ∧ page.filled t = true ∧ slot < t := by
  simp only [slotsAfter, List.mem_filter, List.mem_range'_1]
  constructor
  · rintro ⟨hr, hf⟩
    exact ⟨by omega, hf, by omega⟩
  · rintro ⟨hc, hf, hlt⟩
    exact ⟨by omega, hf⟩

theorem lives_mem_of_lt {pid q t : Nat} {slot : Int} (hm : (q, t) ∈ lives pages pid slot) : pid ≤ q := by
  by_cases hlt : pid < pages.length
  · rw [lives_step (List.getElem?_eq_getElem hlt), List.mem_append, List.mem_map] at hm
    obtain ⟨u, -, hu⟩ | hm := hm
    · exact (Prod.mk.inj hu).1.le
    · exact (Nat.le_succ _).trans (lives_mem_of_lt hm)
  · rw [lives_end (by omega)] at hm
    cases hm
termination_by pages.length - pid

theorem lives_mem {pid : Nat} {slot : Int} (hs : -1 ≤ slot) (q t : Nat) :
    (q, t) ∈ lives pages pid slot ↔ ∃ page, pages[q]? = some page ∧ t < fixedLenPageCapacity P S ∧
      page.filled t = true ∧ (pid < q ∨ pid = q ∧ slot < t) := by
  by_cases hlt : pid < pages.length
  · have hp := List.getElem?_eq_getElem hlt
    rw [lives_step hp, List.mem_append, List.mem_map, lives_mem (show -1 ≤ (-1 : Int) by decide) q t]
    constructor
    · rintro (⟨u, hu, he⟩ | ⟨page, hq, hc, hf, hpos⟩)
      · obtain ⟨rfl, rfl⟩ := Prod.mk.inj he
        obtain ⟨hc, hf, hslot⟩ := (slotsAfter_mem _ hs u).mp hu
        exact ⟨_, hp, hc, hf, .inr ⟨rfl, hslot⟩⟩
      · exact ⟨page, hq, hc, hf, .inl (by omega)⟩
    · rintro ⟨page, hq, hc, hf, hpos⟩
      obtain hpos | ⟨rfl, hslot⟩ := hpos
      · refine .inr ⟨page, hq, hc, hf, ?_⟩
        omega
      · rw [hp] at hq
        obtain rfl := Option.some.inj hq
        exact .inl ⟨t, (slotsAfter_mem _ hs t).mpr ⟨hc, hf, hslot⟩, rfl⟩
  · rw [lives_end (by omega)]
    simp only [List.not_mem_nil, false_iff]
    rintro ⟨page, hq, -, -, hpos⟩
    have := (List.getElem?_eq_some_iff.mp hq).1
    omega
termination_by pages.length - pid

theorem lives_sorted (pid : Nat) (slot : Int) :
    (lives pages pid slot).Pairwise (fun a b => a.1 < b.1 ∨ a.1 = b.1 ∧ a.2 < b.2) := by
  by_cases hlt : pid < pages.length
  · rw [lives_step (List.getElem?_eq_getElem hlt), List.pairwise_append]
    refine ⟨?_, lives_sorted (pid + 1) (-1), ?_⟩
    · rw [List.pairwise_map]
      refine List.Pairwise.imp (fun hab => .inr ⟨rfl, hab⟩) ?_
      exact List.Pairwise.filter _ List.pairwise_lt_range'
    · rintro ⟨q, t⟩ hq ⟨q', t'⟩ hq'
      obtain ⟨u, -, hu⟩ := List.mem_map.mp hq
      have hle := lives_mem_of_lt hq'
      obtain ⟨rfl, -⟩ := Prod.mk.inj hu
      exact .inl (by omega)
  · rw [lives_end (by omega)]
    exact List.Pairwise.nil
termination_by pages.length - pid

theorem recordAt_eq {pages : Pages P slotSize} {q t : Nat} {page : Page P slotSize}
    (hq : pages[q]? = some page) (ht : t < fixedLenPageCapacity P slotSize) :
    recordAt beyond pages (q, t) = slotRecord page t := by
  have hread := readFixedLenPage_eq beyond page ht
  simp only [recordAt, hq]
  rw [show (100 : Nat) = slotSize / attributeSize by decide, hread]
  rfl

def listing (beyond : Nat → Byte) (pages : Pages P S) : List (RecordID × Record) :=
  (lives pages 0 (-1)).map (fun p => (⟨p.1, p.2⟩, recordAt beyond pages p))

theorem mem_lives_iff (q t : Nat) :
    (q, t) ∈ lives pages 0 (-1) ↔ contentsOf pages ⟨q, t⟩ ≠ none := by
  rw [lives_mem (by decide)]
  constructor
  · rintro ⟨page, hq, hc, hf, -⟩
    exact contentsOf_ne_none hq hc hf
  · intro hlive
    obtain ⟨page, u, hq, hslot, hcap, hf⟩ := live_rid hlive
    obtain rfl : t = u := Int.ofNat.inj hslot
    exact ⟨page, hq, hcap, hf, by omega⟩

theorem mem_listing_iff (beyond : Nat → Byte) {pages : Pages P slotSize} (rid : RecordID) (rec : Record) :
    (rid, rec) ∈ listing beyond pages ↔ contentsOf pages rid = some rec := by
  rw [listing, List.mem_map]
  constructor
  · rintro ⟨⟨q, t⟩, hm, he⟩
    obtain ⟨page, hq, hc, hf, -⟩ := (lives_mem (by decide) q t).mp hm
    obtain ⟨rfl, rfl⟩ := Prod.mk.inj he
    rw [contentsOf, hq, Option.bind_some, pageContents_natCast page hc, if_pos hf, recordAt_eq hq hc]
  · intro hc
    have hlive : contentsOf pages rid ≠ none := by simp [hc]
    obtain ⟨page, t, hq, hslot, hcap, hf⟩ := live_rid hlive
    obtain ⟨q, slot⟩ := rid
    obtain rfl : slot = t := hslot
    refine ⟨(q, t), (mem_lives_iff q t).mpr hlive, ?_⟩
    rw [contentsOf, hq, Option.bind_some, pageContents_natCast page hcap, if_pos hf] at hc
    rw [recordAt_eq hq hcap, Option.some.inj hc]

theorem listing_sorted (beyond : Nat → Byte) (pages : Pages P S) :
    (listing beyond pages).Pairwise (fun a b => RidLt a.1 b.1) := by
  rw [listing, List.pairwise_map]
  refine List.Pairwise.imp ?_ (lives_sorted 0 (-1))
  rintro ⟨q, t⟩ ⟨q', t'⟩ (hlt | ⟨heq, hlt⟩)
  · exact .inl hlt
  · exact .inr ⟨heq, Int.ofNat_lt.mpr hlt⟩

theorem scan_of_rep (hz : Sizes P slotSize) (beyond : Nat → Byte) {h : Heapfile P slotSize} {pages : Pages P slotSize}
    (hr : Rep h pages) (hf : ¬ LastFull (directoryCapacity P) pages.length) {fuel : Nat}
    (hfuel : (lives pages 0 (-1)).length < fuel) :
    ∃ it, scan beyond true fuel h = .ok (listing beyond pages, it) ∧ Rep it.heapfile pages := by
  rw [scan, listing]
  obtain ⟨hl, it, he, hfalse, hr'⟩ | ⟨q, t, h1, page, hl, he, hr1, hq, -, -⟩ := new_cases hz true hr hf
  · obtain ⟨fuel, rfl⟩ := Nat.exists_eq_succ_of_ne_zero (show fuel ≠ 0 by omega)
    refine ⟨it, ?_, hr'⟩
    rw [he, hl, ok_bind, scanLoop, if_neg (by simp [hfalse])]
    rfl
  · rw [he, hl, ok_bind]
    rw [hl] at hfuel
    exact (scanLoop_spec hz beyond (by decide) _ fuel q t h1 hr1
      (List.getElem?_eq_some_iff.mp hq).1 rfl).2 hf (by simpa using hfuel)

/-- A scan with `has_next` starting as true lists the records there are, each once and in the
order of page and slot, and leaves them as they are. -/
theorem scan_enumerates_live (hp : 1001 < P) (hP : P < 2147483648) (beyond : Nat → Byte)
    {cmds : List Cmd} (ha : SessionAdmissible beyond P slotSize OpInRange cmds)
    {h : Heapfile P slotSize} (hreach : Reached beyond P slotSize cmds h)
    (hfull : ¬ LastDirectoryFull h) :
    ∃ (out : List (RecordID × Record)) (fuel0 : Nat),
      (∀ fuel ≥ fuel0, ∃ it, scan beyond true fuel h = .ok (out, it) ∧
        contents it.heapfile = contents h) ∧
      out.Pairwise (fun a b => RidLt a.1 b.1) ∧
      ∀ rid rec, (rid, rec) ∈ out ↔ contents h rid = some rec := by
  have hz : Sizes P slotSize := ⟨hp, by decide, by unfold slotSize; omega⟩
  obtain ⟨pages, hr⟩ := hreach.rep hz hP ha
  rw [lastDirectoryFull_iff hz hr] at hfull
  refine ⟨listing beyond pages, (lives pages 0 (-1)).length + 1, fun fuel hfuel => ?_, ?_, ?_⟩
  · obtain ⟨it, hscan, hr'⟩ := scan_of_rep hz beyond hr hfull hfuel
    exact ⟨it, hscan, by rw [contents_eq hz hr', contents_eq hz hr]⟩
  · exact listing_sorted beyond pages
  · intro rid rec
    rw [contents_eq hz hr]
    exact mem_listing_iff beyond rid rec

def wideRecord : Record := List.replicate 100 letterAttribute

def holeOps : List Op := [.put wideRecord, .put wideRecord, .put wideRecord, .delete ⟨1, (0 : Nat)⟩]

theorem scan_enumerates_live_put : ∃ h : Heapfile 1002 slotSize,
    Reached (fun _ => 0) 1002 slotSize (holeOps.map Cmd.op) h ∧
    contents h ⟨1, (0 : Nat)⟩ = none ∧ contents h ⟨2, (0 : Nat)⟩ ≠ none ∧
    ∃ (out : List (RecordID × Record)) (fuel0 : Nat),
      (∀ fuel ≥ fuel0, ∃ it, scan (fun _ => 0) true fuel h = .ok (out, it) ∧
        contents it.heapfile = contents h) ∧
      out.Pairwise (fun a b => RidLt a.1 b.1) ∧
      ∀ rid rec, (rid, rec) ∈ out ↔ contents h rid = some rec := by
  have hz : Sizes 1002 slotSize := ⟨by decide, by decide, by decide⟩
  have hadm : PagesAdmissible (fun _ => 0) OpOfPages ([] : Pages 1002 slotSize) holeOps := by decide +kernel
  have hrun : (LogicalPages.run (fun _ => 0) ([] : Pages 1002 slotSize) holeOps).toOption.map (fun r =>
      (r.2.length, (contentsOf r.2 ⟨1, (0 : Nat)⟩).isSome, (contentsOf r.2 ⟨2, (0 : Nat)⟩).isSome)) =
        some (3, false, true) := by decide +kernel
  obtain ⟨⟨results, pages⟩, hpages, hread⟩ := Option.map_eq_some_iff.mp hrun
  obtain ⟨hlen, hhole, hlive⟩ : pages.length = 3 ∧ (contentsOf pages ⟨1, (0 : Nat)⟩).isSome = false ∧
      (contentsOf pages ⟨2, (0 : Nat)⟩).isSome = true := by
    simpa only [Prod.mk.injEq] using hread
  have hok : LogicalPages.run (fun _ => 0) ([] : Pages 1002 slotSize) holeOps = .ok (results, pages) := by
    cases hresult : LogicalPages.run (fun _ => 0) ([] : Pages 1002 slotSize) holeOps with
    | error e =>
      rw [hresult] at hpages
      cases hpages
    | ok r =>
      rw [hresult] at hpages
      exact congrArg Except.ok (Option.some.inj hpages)
  obtain ⟨h, hreach, hr⟩ := reached_of_run hz (by decide) hadm hok
  rw [← contents_eq hz hr] at hhole hlive
  refine ⟨h, hreach, by simpa using hhole, Option.isSome_iff_ne_none.mp hlive,
    scan_enumerates_live (by decide) (by decide) _ ?_ hreach ?_⟩
  · rw [sessionAdmissible_iff hz (by decide) (opInRange_iff hz) (fun _ _ ho => ho), ops_map_op]
    exact hadm
  · rw [lastDirectoryFull_iff hz hr]
    rintro ⟨-, hmod⟩
    rw [hlen] at hmod
    exact absurd hmod (by decide)

end RecordStore.Scanning
