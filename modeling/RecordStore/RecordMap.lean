import RecordStore.HeapContents

namespace RecordStore.RecordMap

open RecordStore.CFile RecordStore.Outcome RecordStore.FixedRecord RecordStore.FixedPage
open RecordStore.PageBitmap RecordStore.PageSlots RecordStore.HeapFile RecordStore.HeapImage
open RecordStore.HeapAlloc RecordStore.HeapSession RecordStore.LogicalPages RecordStore.HeapRefinement
open RecordStore.HeapReopen RecordStore.HeapRuns RecordStore.HeapContents

variable {P S : Nat} {h : Heapfile P S} {pages : Pages P S} {beyond : Nat → Byte}

/-- What a heap file is for: a map from ids to records. A put chooses the id itself, but
never one that is in use. -/
inductive MapStep (m : RecordID → Option Record) :
    Op → Option Record → (RecordID → Option Record) → Prop
  | put (rec : Record) (rid : RecordID) (hnew : m rid = none) :
    MapStep m (.put rec) none (Function.update m rid (some (stored rec)))
  | get (rid : RecordID) (n : Nat) (rec : Record) (hlive : m rid = some rec) :
    MapStep m (.get rid n) (some rec) m
  | update (rid : RecordID) (rec : Record) (hlive : m rid ≠ none) :
    MapStep m (.update rid rec) none (Function.update m rid (some (stored rec)))
  | delete (rid : RecordID) (hlive : m rid ≠ none) :
    MapStep m (.delete rid) none (Function.update m rid none)

/-- Every operation ends without a fault and does to the contents what it does to the map,
which stays finite. -/
def Simulates (beyond : Nat → Byte) : Heapfile P S → List Op → Prop
  | h, [] => {rid | contents h rid ≠ none}.Finite
  | h, o :: os => {rid | contents h rid ≠ none}.Finite ∧
    ∃ res h', HeapSession.step beyond h o = .ok (res, h') ∧ MapStep (contents h) o res (contents h') ∧
      Simulates beyond h' os

/-- Records are as wide as a slot, and get, update and delete name a record that is there. -/
def OpFits (S : Nat) (m : RecordID → Option Record) : Op → Prop
  | .put rec => rec.length = S / attributeSize
  | .get rid n => n = S / attributeSize ∧ m rid ≠ none
  | .update rid rec => rec.length = S / attributeSize ∧ m rid ≠ none
  | .delete rid => m rid ≠ none

instance decidableOpFits (m : RecordID → Option Record) : DecidablePred (OpFits S m) := fun o =>
  match o with
  | .put rec => inferInstanceAs (Decidable (rec.length = S / attributeSize))
  | .get rid n => inferInstanceAs (Decidable (n = S / attributeSize ∧ m rid ≠ none))
  | .update rid rec => inferInstanceAs (Decidable (rec.length = S / attributeSize ∧ m rid ≠ none))
  | .delete rid => inferInstanceAs (Decidable (m rid ≠ none))

theorem opFits_opOfPages (pages : Pages P S) (o : Op) (ho : OpFits S (contentsOf pages) o) :
    OpOfPages pages o := by
  have hrid : ∀ rid, contentsOf pages rid ≠ none → RidOfPages pages rid := by
    intro rid hlive
    obtain ⟨page, t, hj, ht, hcap, -⟩ := live_rid hlive
    exact ⟨(List.getElem?_eq_some_iff.mp hj).1, by omega, by omega⟩
  cases o with
  | put rec => trivial
  | get rid n => exact hrid rid ho.2
  | update rid rec => exact hrid rid ho.2
  | delete rid => exact hrid rid ho

theorem opFits_iff (hz : Sizes P S) {h : Heapfile P S} {pages : Pages P S} (hr : Rep h pages) (o : Op) :
    OpFits S (contents h) o ↔ OpFits S (contentsOf pages) o := by
  rw [contents_eq hz hr]

theorem add_contents {page : Page P S} {t : Nat} (he : emptySlot page = some t) {rec : Record}
    (hrec : rec.length = S / attributeSize) :
    ∃ page', addFixedLenPage page rec = .ok (some t, page') ∧ pageContents page t = none ∧
      pageContents page' = Function.update (pageContents page) (t : Int) (some (stored rec)) := by
  obtain ⟨hcap, hfree, -⟩ := emptySlot_eq_some.mp he
  obtain ⟨page', hw, hc⟩ := write_contents page hcap hrec
  refine ⟨page', ?_, (pageContents_eq_none_iff page hcap).mpr hfree, hc⟩
  rw [addFixedLenPage_eq, he]
  simp only [hw]
  rfl

theorem blank_emptySlot (hz : Sizes P S) : emptySlot (Page.blank P S) = some 0 :=
  emptySlot_eq_some.mpr ⟨capacity_pos hz.slotPos hz.slotLt, blank_filled 0, by simp⟩

theorem put_of_some {j t : Nat} {page : Page P S} (hff : firstFree pages = some j)
    (hj : pages[j]? = some page) (he : emptySlot page = some t) {rec : Record}
    (hrec : rec.length = S / attributeSize) :
    ∃ page', put pages rec = .ok (pages.set j page') ∧ pageContents page t = none ∧
      pageContents page' = Function.update (pageContents page) (t : Int) (some (stored rec)) := by
  obtain ⟨page', ha, hnone, hc⟩ := add_contents he hrec
  refine ⟨page', ?_, hnone, hc⟩
  rw [put, hff]
  simp only [modifyPage_some hj, ha]
  rfl

theorem put_of_none (hz : Sizes P S) (hff : firstFree pages = none) {rec : Record}
    (hrec : rec.length = S / attributeSize) :
    ∃ page', put pages rec = .ok ((pages ++ [Page.blank P S]).set pages.length page') ∧
      pageContents (Page.blank P S) (0 : Nat) = none ∧
      pageContents page' =
        Function.update (pageContents (Page.blank P S)) ((0 : Nat) : Int) (some (stored rec)) := by
  obtain ⟨page', ha, hnone, hc⟩ := add_contents (blank_emptySlot hz) hrec
  refine ⟨page', ?_, hnone, hc⟩
  rw [put, hff]
  simp only [modifyPage_some List.getElem?_concat_length, ha]
  rfl

theorem put_contents (hz : Sizes P S) (pages : Pages P S) {rec : Record} (hrec : rec.length = S / attributeSize) :
    ∃ pages' rid, put pages rec = .ok pages' ∧ contentsOf pages rid = none ∧
      contentsOf pages' = Function.update (contentsOf pages) rid (some (stored rec)) := by
  cases hff : firstFree pages with
  | some j =>
    obtain ⟨page, t, hj, he⟩ := firstFree_some hff
    obtain ⟨page', hput, hnone, hc⟩ := put_of_some hff hj he hrec
    refine ⟨pages.set j page', ⟨j, t⟩, hput, ?_, contentsOf_set hj hc⟩
    rw [contentsOf, hj]
    exact hnone
  | none =>
    have hj : (pages ++ [Page.blank P S])[pages.length]? = some (Page.blank P S) :=
      List.getElem?_concat_length
    obtain ⟨page', hput, hnone, hc⟩ := put_of_none hz hff hrec
    refine ⟨_, ⟨pages.length, (0 : Nat)⟩, hput, ?_, ?_⟩
    · rw [← contentsOf_blank, contentsOf, hj]
      exact hnone
    · rw [contentsOf_set hj hc, contentsOf_blank]

theorem step_put_of {rec : Record} {pages' : Pages P S} (beyond : Nat → Byte) (hput : put pages rec = .ok pages') :
    LogicalPages.step beyond pages (.put rec) = .ok (none, pages') := by
  rw [LogicalPages.step, hput]
  rfl

theorem run_put_of {rec : Record} {pages1 pages' : Pages P S} {os : List Op} {results : List (Option Record)}
    {beyond : Nat → Byte} (hput : put pages rec = .ok pages1)
    (hrun : LogicalPages.run beyond pages1 os = .ok (results, pages')) :
    LogicalPages.run beyond pages (.put rec :: os) = .ok (none :: results, pages') := by
  rw [run_cons, step_put_of beyond hput, ok_bind, hrun]
  rfl

theorem run_puts (hz : Sizes P S) (beyond : Nat → Byte) (recs : List Record)
    (hrecs : ∀ rec ∈ recs, rec.length = S / attributeSize) (pages : Pages P S) :
    ∃ results pages', LogicalPages.run beyond pages (recs.map Op.put) = .ok (results, pages') ∧
      pages'.length ≤ pages.length + recs.length := by
  induction recs generalizing pages with
  | nil => exact ⟨[], pages, rfl, le_rfl⟩
  | cons rec recs ih =>
    obtain ⟨pages1, rid, hput, -, -⟩ := put_contents hz pages (hrecs rec (List.mem_cons_self ..))
    obtain ⟨results, pages', hrun, hlen⟩ := ih (fun r hr => hrecs r (List.mem_cons_of_mem _ hr)) pages1
    have hgrow := put_length hput
    exact ⟨none :: results, pages', run_put_of hput hrun, by rw [List.length_cons]; omega⟩

theorem reached_of_run (hz : Sizes P S) (hP : P < 2147483648) {beyond : Nat → Byte} {os : List Op}
    (hadm : PagesAdmissible beyond OpOfPages ([] : Pages P S) os) {results : List (Option Record)} {pages : Pages P S}
    (hrun : LogicalPages.run beyond [] os = .ok (results, pages)) :
    ∃ h : Heapfile P S, Reached beyond P S (os.map Cmd.op) h ∧ Rep h pages := by
  obtain ⟨h0, he, hr0, -⟩ := createHeapfile_rep (S := S) hz.page hP
  have hagree := run_refines hz (fun _ _ ho => ho) _ hr0 ((ops_map_op os).symm ▸ hadm)
  rw [ops_map_op, hrun] at hagree
  obtain ⟨⟨results', h⟩, hx, -, hr⟩ := hagree.of_ok_right
  exact ⟨h, ⟨h0, results', he, hx⟩, hr⟩

theorem reached_puts (hz : Sizes P S) (hP : P < 2147483648) (beyond : Nat → Byte) (recs : List Record)
    (hrecs : ∀ rec ∈ recs, rec.length = S / attributeSize)
    (hlen : (2 * recs.length + 1) * P < 2147483648) :
    ∃ (h : Heapfile P S) (pages : Pages P S), Reached beyond P S (recs.map (fun r => .op (.put r))) h ∧
      Rep h pages ∧ pages.length ≤ recs.length := by
  obtain ⟨results, pages, hrun, hle⟩ := run_puts hz beyond recs hrecs []
  have hadm : PagesAdmissible beyond OpOfPages ([] : Pages P S) (recs.map Op.put) :=
    pagesAdmissible_puts recs (fun _ _ _ => trivial) (by simpa using hlen)
  obtain ⟨h, hreach, hr⟩ := reached_of_run hz hP hadm hrun
  rw [List.map_map] at hreach
  exact ⟨h, pages, hreach, hr, by simpa using hle⟩

theorem step_contents (hz : Sizes P S) (beyond : Nat → Byte) {o : Op} (ho : OpFits S (contentsOf pages) o) :
    ∃ res pages', LogicalPages.step beyond pages o = .ok (res, pages') ∧
      MapStep (contentsOf pages) o res (contentsOf pages') := by
  cases o with
  | put rec =>
    obtain ⟨pages', rid, hput, hnew, hc⟩ := put_contents hz pages ho
    exact ⟨none, pages', step_put_of beyond hput, hc ▸ .put rec rid hnew⟩
  | get rid n =>
    obtain ⟨rfl, hlive⟩ := ho
    obtain ⟨page, t, hj, hslot, hcap, hflag⟩ := live_rid hlive
    refine ⟨some (slotRecord page t), pages, ?_, .get rid _ _ ?_⟩
    · simp only [LogicalPages.step, hj, hslot, readFixedLenPage_eq beyond page hcap]
      rfl
    · rw [contentsOf, hj, Option.bind_some, hslot, pageContents_natCast page hcap, if_pos hflag]
  | update rid rec =>
    obtain ⟨hrec, hlive⟩ := ho
    obtain ⟨page, t, hj, hslot, hcap, -⟩ := live_rid hlive
    obtain ⟨page', hw, hc⟩ := write_contents page hcap hrec
    have hset := contentsOf_set hj hc
    rw [← hslot] at hset
    refine ⟨none, pages.set rid.pageId page', ?_, hset ▸ .update rid rec hlive⟩
    simp only [LogicalPages.step, modifyPage_some hj, hslot, hw]
    rfl
  | delete rid =>
    obtain ⟨page, t, hj, hslot, hcap, -⟩ := live_rid ho
    obtain ⟨page', hw, hc⟩ := delete_contents page hcap
    have hset := contentsOf_set hj hc
    rw [← hslot] at hset
    refine ⟨none, pages.set rid.pageId page', ?_, hset ▸ .delete rid ho⟩
    simp only [LogicalPages.step, modifyPage_some hj, hslot, hw]
    rfl

theorem simulates_of_rep (hz : Sizes P S) (os : List Op) (hr : Rep h pages)
    (ha : PagesAdmissible beyond (fun pages => OpFits S (contentsOf pages)) pages os) :
    Simulates beyond h os := by
  induction os generalizing h pages with
  | nil =>
    rw [Simulates, contents_eq hz hr]
    exact contentsOf_finite pages
  | cons o os ih =>
    obtain ⟨hop, hall⟩ := ha
    obtain ⟨res, pages', hs, hmap⟩ := step_contents hz beyond hop
    have hagree : Agree _ _ _ := step_refines hz hr beyond
      ((opInRange_iff hz hr o).mpr (opFits_opOfPages pages o hop)).allocated
    rw [hs] at hagree
    obtain ⟨⟨res', h'⟩, hx, hres, ht⟩ := hagree.of_ok_right
    obtain ⟨hb, hadm⟩ := hall res pages' hs
    have hr' := Tracks.rep ht hb
    obtain rfl : res' = res := hres
    rw [Simulates, contents_eq hz hr]
    refine ⟨contentsOf_finite pages, res', h', hx, ?_, ih hr' hadm⟩
    rw [contents_eq hz hr']
    exact hmap

/-- From a new heap file on, every sequence of operations is one on a finite map that
starts empty. -/
theorem heapfile_refines_map (hz : Sizes P S) (hP : P < 2147483648) (beyond : Nat → Byte)
    (os : List Op)
    (ha : SessionAdmissible beyond P S (fun h => OpFits S (contents h)) (os.map Cmd.op)) :
    ∃ h : Heapfile P S, createHeapfile P S = .ok h ∧ contents h = (fun _ => none) ∧
      Simulates beyond h os := by
  obtain ⟨h, he, hr, -⟩ := createHeapfile_rep (S := S) hz.page hP
  have hp := (sessionAdmissible_iff hz hP (opFits_iff hz) opFits_opOfPages _).mp ha
  rw [ops_map_op] at hp
  refine ⟨h, he, ?_, simulates_of_rep hz os hr hp⟩
  rw [contents_eq hz hr]
  funext rid
  simp [contentsOf]

theorem heapfile_refines_map_letters : ∃ h : Heapfile 1002 10, createHeapfile 1002 10 = .ok h ∧
    contents h = (fun _ => none) ∧ Simulates (fun _ => 0) h letterOps := by
  have hz : Sizes 1002 10 := ⟨by decide, by decide, by decide⟩
  refine heapfile_refines_map hz (by decide) (fun _ => 0) _ ?_
  rw [sessionAdmissible_iff hz (by decide) (opFits_iff hz) opFits_opOfPages, ops_map_op]
  decide +kernel

end RecordStore.RecordMap
