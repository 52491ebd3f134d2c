import RecordStore.BulkLoad
import RecordStore.Scanning

namespace RecordStore.AllocatedRuns

open RecordStore.Splice RecordStore.CFile RecordStore.Outcome RecordStore.FixedRecord RecordStore.FixedPage
open RecordStore.PageSlots RecordStore.HeapFile RecordStore.HeapImage RecordStore.HeapAlloc
open RecordStore.HeapSession RecordStore.LogicalPages RecordStore.HeapRefinement RecordStore.HeapReopen
open RecordStore.HeapRuns RecordStore.HeapContents RecordStore.PackedPages RecordStore.BulkLoad
open RecordStore.CsvPrograms RecordStore.Scanning

variable {P S : Nat} {h : Heapfile P S} {pages : Pages P S} {beyond : Nat → Byte}

/-- An operation on an allocated page, whatever slot it names, leaves a heap file that stands for
its pages. -/
theorem step_rep (hz : Sizes P S) (hr : Rep h pages) {o : Op} (ho : OpAllocated h o)
    {res : Option Record} {h' : Heapfile P S} (hs : HeapSession.step beyond h o = .ok (res, h'))
    (hb : h'.file.bytes.length < 2147483648) :
    ∃ pages', LogicalPages.step beyond pages o = .ok (res, pages') ∧ Rep h' pages' := by
  have hagree : Agree _ _ _ := step_refines hz hr beyond ho
  rw [hs] at hagree
  obtain ⟨⟨res', pages'⟩, hx, hres, ht⟩ := hagree.of_ok_left
  obtain rfl : res = res' := hres
  exact ⟨pages', hx, Tracks.rep ht (by rwa [← Tracks.bytes_length ht])⟩

theorem run_rep (hz : Sizes P S) (cmds : List Cmd) {results : List (Option Record)} {h' : Heapfile P S}
    (hr : Rep h pages) (ha : Admissible beyond OpAllocated h cmds)
    (hrun : HeapSession.run beyond h cmds = .ok (results, h')) : ∃ pages' : Pages P S, Rep h' pages' := by
  induction cmds generalizing h pages results with
  | nil =>
    obtain ⟨-, rfl⟩ := Prod.mk.inj (Except.ok.inj hrun)
    exact ⟨pages, hr⟩
  | cons cmd cmds ih =>
    cases cmd with
    | reopen =>
      obtain ⟨h1, he, hr1⟩ := reopen_rep hz.page hr
      rw [HeapSession.run, he, ok_bind] at hrun
      exact ih hr1 (ha h1 he) hrun
    | op o =>
      obtain ⟨ho, hall⟩ := ha
      obtain ⟨⟨res, h1⟩, hs, hrest⟩ := bind_eq_ok.mp hrun
      obtain ⟨⟨results1, h2⟩, hrun1, he⟩ := bind_eq_ok.mp hrest
      obtain ⟨-, rfl⟩ := Prod.mk.inj (Except.ok.inj he)
      obtain ⟨hb, hadm⟩ := hall res h1 hs
      obtain ⟨pages1, -, hr1⟩ := step_rep hz hr ho hs hb
      exact ih hr1 hadm hrun1

theorem modify_rep (hr : Rep h pages) {j : Nat} {page page' : Page P S}
    (hj : pages[j]? = some page) {f : Page P S → Except Fault (Page P S)} {x : Except Fault (Heapfile P S)}
    (hx : Agree Tracks x (modifyPage pages j f)) (hf : f page = .ok page') :
    ∃ h', x = .ok h' ∧ Rep h' (pages.set j page') := by
  rw [modifyPage_some hj, hf] at hx
  obtain ⟨h', he, ht⟩ := Agree.of_ok_right hx
  refine ⟨h', he, Tracks.rep ht ?_⟩
  rw [List.length_set]
  exact Rep.fileLength_lt hr

theorem updateRecord_rep (hz : Sizes P S) (hr : Rep h pages) {j t : Nat} {page page' : Page P S} {rec : Record}
    (hj : pages[j]? = some page) (hw : writeFixedLenPage page t rec = .ok page') :
    ∃ h', updateRecord h ⟨j, t⟩ rec = .ok h' ∧ Rep h' (pages.set j page') :=
  modify_rep hr hj (modify_agree hz hr (List.getElem?_eq_some_iff.mp hj).1
    (fun page => writeFixedLenPage page t rec)) hw

theorem deleteRecord_rep (hz : Sizes P S) (hr : Rep h pages) {j t : Nat} {page page' : Page P S}
    (hj : pages[j]? = some page) (hd : deleteFixedLenPage page t = .ok page') :
    ∃ h', deleteRecord h ⟨j, t⟩ = .ok h' ∧ Rep h' (pages.set j page') :=
  modify_rep hr hj (modify_agree hz hr (List.getElem?_eq_some_iff.mp hj).1
    (fun page => deleteFixedLenPage page t)) hd

/-- Every state that operations on allocated pages lead to, in slots that exist or not, stands for
its pages. -/
theorem reached_rep (hz : Sizes P S) (hP : P < 2147483648) {cmds : List Cmd}
    (ha : SessionAdmissible beyond P S OpAllocated cmds) (hreach : Reached beyond P S cmds h) :
    ∃ pages : Pages P S, Rep h pages := by
  obtain ⟨h0, results, he, hrun⟩ := hreach
  obtain ⟨h0', he', hr, -⟩ := createHeapfile_rep (S := S) hz.page hP
  obtain rfl : h0' = h0 := Except.ok.inj (he'.symm.trans he)
  exact run_rep hz cmds hr (ha _ he) hrun

theorem admissible_mono {ok ok' : Heapfile P S → Op → Prop} (hok : ∀ h o, ok h o → ok' h o) {cmds : List Cmd}
    (ha : Admissible beyond ok h cmds) : Admissible beyond ok' h cmds := by
  induction cmds generalizing h with
  | nil => trivial
  | cons cmd cmds ih =>
    cases cmd with
    | reopen => exact fun h' he => ih (ha h' he)
    | op o =>
      refine ⟨hok h o ha.1, fun res h' hs => ?_⟩
      obtain ⟨hb, hadm⟩ := ha.2 res h' hs
      exact ⟨hb, ih hadm⟩

theorem sessionAdmissible_allocated {cmds : List Cmd} (ha : SessionAdmissible beyond P S OpInRange cmds) :
    SessionAdmissible beyond P S OpAllocated cmds :=
  fun h he => admissible_mono (fun _ _ ho => ho.allocated) (ha h he)

section Append

variable {cmds cmds' : List Cmd} {h1 h2 : Heapfile P S} {results results' : List (Option Record)}
  {ok : Heapfile P S → Op → Prop}

theorem run_append (hrun : HeapSession.run beyond h cmds = .ok (results, h1))
    (hrun' : HeapSession.run beyond h1 cmds' = .ok (results', h2)) :
    HeapSession.run beyond h (cmds ++ cmds') = .ok (results ++ results', h2) := by
  induction cmds generalizing h results with
  | nil =>
    obtain ⟨rfl, rfl⟩ := Prod.mk.inj (Except.ok.inj hrun)
    exact hrun'
  | cons cmd cmds ih =>
    cases cmd with
    | reopen =>
      obtain ⟨h0, he, hrest⟩ := bind_eq_ok.mp hrun
      rw [List.cons_append, HeapSession.run, he, ok_bind]
      exact ih hrest
    | op o =>
      obtain ⟨⟨res, h0⟩, hs, hrest⟩ := bind_eq_ok.mp hrun
      obtain ⟨⟨results0, h3⟩, hrun0, he⟩ := bind_eq_ok.mp hrest
      obtain ⟨rfl, rfl⟩ := Prod.mk.inj (Except.ok.inj he)
      rw [List.cons_append, HeapSession.run, hs, ok_bind]
      simp only [ih hrun0, ok_bind]
      rfl

theorem admissible_append (ha : Admissible beyond ok h cmds)
    (hb : ∀ results h1, HeapSession.run beyond h cmds = .ok (results, h1) → Admissible beyond ok h1 cmds') :
    Admissible beyond ok h (cmds ++ cmds') := by
  induction cmds generalizing h with
  | nil => exact hb [] h rfl
  | cons cmd cmds ih =>
    cases cmd with
    | reopen =>
      refine fun h1 he => ih (ha h1 he) (fun results h2 hrun => hb results h2 ?_)
      rw [HeapSession.run, he, ok_bind]
      exact hrun
    | op o =>
      refine ⟨ha.1, fun res h1 hs => ⟨(ha.2 res h1 hs).1, ih (ha.2 res h1 hs).2 ?_⟩⟩
      refine fun results h2 hrun => hb (res :: results) h2 ?_
      rw [HeapSession.run, hs, ok_bind]
      simp only [hrun, ok_bind]

theorem reached_append (hreach : Reached beyond P S cmds h1)
    (hrun : HeapSession.run beyond h1 cmds' = .ok (results, h2)) : Reached beyond P S (cmds ++ cmds') h2 := by
  obtain ⟨h0, results0, he, hrun0⟩ := hreach
  exact ⟨h0, results0 ++ results, he, run_append hrun0 hrun⟩

/-- More commands are admissible after others if they are so in the state those lead to. -/
theorem sessionAdmissible_append (ha : SessionAdmissible beyond P S ok cmds)
    (hreach : Reached beyond P S cmds h1) (hb : Admissible beyond ok h1 cmds') :
    SessionAdmissible beyond P S ok (cmds ++ cmds') := by
  obtain ⟨h0, results0, he, hrun0⟩ := hreach
  intro h he'
  obtain rfl : h0 = h := Except.ok.inj (he.symm.trans he')
  refine admissible_append (ha h0 he) (fun results h2 hrun => ?_)
  obtain ⟨-, rfl⟩ := Prod.mk.inj (Except.ok.inj (hrun0.symm.trans hrun))
  exact hb

end Append

theorem reached_delete (hz : Sizes P S) {cmds : List Cmd} {ok : Heapfile P S → Op → Prop}
    (ha : SessionAdmissible beyond P S ok cmds) (hreach : Reached beyond P S cmds h) (hr : Rep h pages)
    {j t : Nat} {page page' : Page P S} (hok : ok h (.delete ⟨j, t⟩)) (hj : pages[j]? = some page)
    (hd : deleteFixedLenPage page t = .ok page') :
    ∃ h', SessionAdmissible beyond P S ok (cmds ++ [.op (.delete ⟨j, t⟩)]) ∧
      Reached beyond P S (cmds ++ [.op (.delete ⟨j, t⟩)]) h' ∧ Rep h' (pages.set j page') := by
  obtain ⟨h', hx, hr'⟩ := deleteRecord_rep hz hr hj hd
  have hs : HeapSession.step beyond h (.delete ⟨j, t⟩) = .ok (none, h') := by
    rw [HeapSession.step, hx]
    rfl
  have hrun : HeapSession.run beyond h [.op (.delete ⟨j, t⟩)] = .ok ([none], h') := by
    rw [HeapSession.run, hs]
    rfl
  refine ⟨h', sessionAdmissible_append ha hreach ⟨hok, fun res h1 hs' => ?_⟩, reached_append hreach hrun, hr'⟩
  obtain ⟨-, rfl⟩ := Prod.mk.inj (Except.ok.inj (hs.symm.trans hs'))
  exact ⟨hr'.bound, trivial⟩

theorem reached_packed (hz : Sizes P S) (hP : P < 2147483648) (beyond : Nat → Byte) (recs : List Record)
    (hrecs : ∀ rec ∈ recs, rec.length = S / attributeSize)
    (hb : fileLength P (pageCount P S recs.length) < 2147483648) :
    ∃ (h : Heapfile P S) (pages : Pages P S),
      SessionAdmissible beyond P S OpInRange (recs.map (fun r => .op (.put r))) ∧
      Reached beyond P S (recs.map (fun r => .op (.put r))) h ∧ Rep h pages ∧ Packed pages recs := by
  have hnil : Packed ([] : Pages P S) [] := Packed.nil (capacity_pos hz.slotPos hz.slotLt)
  obtain ⟨h0, he, hr0, -⟩ := createHeapfile_rep (S := S) hz.page hP
  obtain ⟨results, pages, hrun, hp⟩ := packed_run hz beyond recs hrecs hnil
  have hadm := packed_admissible hz beyond recs hrecs hnil (by simpa using hb)
  have hagree := run_refines hz (fun _ _ ho => ho) _ hr0 (ops_puts recs ▸ hadm)
  rw [ops_puts, hrun] at hagree
  obtain ⟨⟨results', h⟩, hx, -, hr⟩ := hagree.of_ok_right
  refine ⟨h, pages, ?_, ⟨h0, results', he, hx⟩, hr, by simpa using hp⟩
  rw [sessionAdmissible_iff hz hP (opInRange_iff hz) (fun _ _ ho => ho), ops_puts]
  exact hadm

theorem reached_put (hz : Sizes P S) (hP : P < 2147483648) (beyond : Nat → Byte) {rec : Record}
    (hrec : rec.length = S / attributeSize) (hb : fileLength P 1 < 2147483648) :
    ∃ (h : Heapfile P S) (page : Page P S), SessionAdmissible beyond P S OpAllocated [.op (.put rec)] ∧
      Reached beyond P S [.op (.put rec)] h ∧ Rep h [page] ∧ page.filled 0 = true ∧
      slotRecord page 0 = stored rec := by
  have hc := capacity_pos hz.slotPos hz.slotLt
  have hcount : pageCount P S 1 = 1 := by rw [pageCount, ceilDiv_succ hc, Nat.zero_div]
  obtain ⟨h, pages, ha, hreach, hr, hp⟩ := reached_packed hz hP beyond [rec]
    (fun r hr => List.mem_singleton.mp hr ▸ hrec) (by rwa [List.length_singleton, hcount])
  obtain ⟨page, rfl⟩ : ∃ page, pages = [page] := List.length_eq_one_iff.mp (hp.count.trans hcount)
  have hholds := hp.holds 0 page rfl 0 hc
  rw [Nat.zero_mul, getElem?_slice, if_pos hc, pageContents_natCast page hc] at hholds
  have hfilled : page.filled 0 = true := by
    by_contra hf
    rw [if_neg hf] at hholds
    cases hholds
  rw [if_pos hfilled] at hholds
  exact ⟨h, page, sessionAdmissible_allocated ha, hreach, hr, hfilled, Option.some.inj hholds⟩

theorem reached_wideRecord : ∃ (h : Heapfile 1002 slotSize) (page : Page 1002 slotSize),
    SessionAdmissible (fun _ => 0) 1002 slotSize OpAllocated [.op (.put wideRecord)] ∧
    Reached (fun _ => 0) 1002 slotSize [.op (.put wideRecord)] h ∧ Rep h [page] ∧ Allocated h 0 ∧
    contents h ⟨0, (0 : Nat)⟩ ≠ none ∧ slotRecord page 0 = stored wideRecord := by
  have hz : Sizes 1002 slotSize := ⟨by decide, by decide, by decide⟩
  obtain ⟨h, page, ha, hreach, hr, hfilled, hrec⟩ := reached_put hz (by decide) (fun _ => 0)
    (show wideRecord.length = slotSize / attributeSize by decide) (by decide)
  refine ⟨h, page, ha, hreach, hr, (allocated_iff hz.page hr 0).mpr Nat.zero_lt_one, ?_, hrec⟩
  rw [contents_eq hz hr]
  exact contentsOf_ne_none (show [page][0]? = some page from rfl) (by decide) hfilled

end RecordStore.AllocatedRuns
