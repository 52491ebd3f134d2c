import RecordStore.HeapReopen

namespace RecordStore.HeapRuns

open RecordStore.CFile RecordStore.Outcome RecordStore.FixedRecord RecordStore.FixedPage
open RecordStore.DirectoryPage RecordStore.HeapFile RecordStore.PageLayout RecordStore.HeapImage
open RecordStore.HeapAlloc RecordStore.HeapSession RecordStore.LogicalPages RecordStore.HeapRefinement
open RecordStore.HeapReopen

variable {P S : Nat} {h : Heapfile P S} {pages : Pages P S} {beyond : Nat → Byte}

def fileLength (P n : Nat) : Nat := (layout (directoryCapacity P) n).length * P

def RidOfPages (pages : Pages P S) (rid : RecordID) : Prop :=
  rid.pageId < pages.length ∧ 0 ≤ rid.slot ∧ rid.slot < fixedLenPageCapacity P S

def OpOfPages (pages : Pages P S) : Op → Prop
  | .put _ => True
  | .get rid _ => RidOfPages pages rid
  | .update rid _ => RidOfPages pages rid
  | .delete rid => RidOfPages pages rid

theorem fileLength_le (P n : Nat) : fileLength P n ≤ (2 * n + 1) * P :=
  Nat.mul_le_mul_right _ (layout_length_le n)

def PagesAdmissible (beyond : Nat → Byte) (ok : Pages P S → Op → Prop) : Pages P S → List Op → Prop
  | _, [] => True
  | pages, o :: os => ok pages o ∧ ∀ res pages', LogicalPages.step beyond pages o = .ok (res, pages') →
      fileLength P pages'.length < 2147483648 ∧ PagesAdmissible beyond ok pages' os

instance decidableOpOfPages (pages : Pages P S) : DecidablePred (OpOfPages pages) := fun o =>
  match o with
  | .put _ => .isTrue trivial
  | .get rid _ | .update rid _ | .delete rid =>
    inferInstanceAs (Decidable (rid.pageId < pages.length ∧ 0 ≤ rid.slot ∧ rid.slot < fixedLenPageCapacity P S))

instance decidablePagesAdmissible (beyond : Nat → Byte) (ok : Pages P S → Op → Prop)
    [∀ pages, DecidablePred (ok pages)] :
    (pages : Pages P S) → (os : List Op) → Decidable (PagesAdmissible beyond ok pages os)
  | _, [] => .isTrue trivial
  | pages, o :: os =>
    match hs : LogicalPages.step beyond pages o with
    | .ok (res, pages') =>
      have := decidablePagesAdmissible beyond ok pages' os
      decidable_of_iff (ok pages o ∧ fileLength P pages'.length < 2147483648 ∧ PagesAdmissible beyond ok pages' os)
        (and_congr_right fun _ => ⟨fun h _ _ h' => by cases hs.symm.trans h'; exact h, fun h => h res pages' hs⟩)
    | .error _ => decidable_of_iff (ok pages o) ⟨fun h => ⟨h, fun _ _ h' => by cases hs.symm.trans h'⟩, And.left⟩

theorem pagesAdmissible_puts {okP : Pages P S → Op → Prop} (recs : List Record)
    (hok : ∀ (pages : Pages P S), ∀ rec ∈ recs, okP pages (.put rec))
    (hlen : (2 * (pages.length + recs.length) + 1) * P < 2147483648) :
    PagesAdmissible beyond okP pages (recs.map Op.put) := by
  induction recs generalizing pages with
  | nil => trivial
  | cons rec recs ih =>
    refine ⟨hok pages rec (List.mem_cons_self ..), fun res pages' hs => ?_⟩
    have hput : put pages rec = .ok pages' := by
      cases hp : put pages rec with
      | error e => simp [LogicalPages.step, hp, Except.map] at hs
      | ok p =>
        simp only [LogicalPages.step, hp, Except.map, Except.ok.injEq, Prod.mk.injEq] at hs
        rw [hs.2]
    have hgrow := put_length hput
    have hbound : (2 * (pages'.length + recs.length) + 1) * P < 2147483648 := by
      refine lt_of_le_of_lt (Nat.mul_le_mul_right _ ?_) hlen
      rw [List.length_cons]
      omega
    refine ⟨lt_of_le_of_lt (fileLength_le _ _) (lt_of_le_of_lt (Nat.mul_le_mul_right _ ?_) hbound),
      ih (fun pages rec hrec => hok pages rec (List.mem_cons_of_mem _ hrec)) hbound⟩
    omega

def letterAttribute : CString := ⟨[97], by decide⟩

def secondLetter : CString := ⟨[98], by decide⟩

def letterRecord : Record := [letterAttribute]

/-- Two puts, the first record read, the second one changed, the first one deleted, and a put into its slot. -/
def letterOps : List Op :=
  [.put letterRecord, .put letterRecord, .get ⟨0, (0 : Nat)⟩ 1, .update ⟨0, (1 : Nat)⟩ [secondLetter],
    .delete ⟨0, (0 : Nat)⟩, .get ⟨0, (1 : Nat)⟩ 1, .put letterRecord]

theorem Tracks.rep {h : Heapfile P S} (ht : Tracks h pages)
    (hb : fileLength P pages.length < 2147483648) : Rep h pages := by
  obtain ⟨link, off, hc, hrep⟩ := ht
  refine hrep ?_
  rw [hc.bytes_length]
  exact hb

theorem Tracks.bytes_length {h : Heapfile P S} (ht : Tracks h pages) :
    h.file.bytes.length = fileLength P pages.length := by
  obtain ⟨link, off, hc, -⟩ := ht
  exact hc.bytes_length

theorem Rep.fileLength_lt (hr : Rep h pages) : fileLength P pages.length < 2147483648 := by
  rw [← Tracks.bytes_length hr.tracks]
  exact hr.bound

theorem ridInRange_iff (hz : Sizes P S) (hr : Rep h pages) (rid : RecordID) :
    RidInRange h rid ↔ RidOfPages pages rid :=
  and_congr (allocated_iff hz.page hr rid.pageId) Iff.rfl

theorem opInRange_iff (hz : Sizes P S) (hr : Rep h pages) (o : Op) :
    OpInRange h o ↔ OpOfPages pages o := by
  cases o with
  | put rec => exact Iff.rfl
  | get rid n => exact ridInRange_iff hz hr rid
  | update rid rec => exact ridInRange_iff hz hr rid
  | delete rid => exact ridInRange_iff hz hr rid

/-- Whether a sequence of commands is admissible does not depend on where the heap file
is reopened, nor on its cache. -/
theorem admissible_iff (hz : Sizes P S) {okH : Heapfile P S → Op → Prop} {okP : Pages P S → Op → Prop}
    (hiff : ∀ {h pages}, Rep h pages → ∀ o, okH h o ↔ okP pages o)
    (hok : ∀ pages o, okP pages o → OpOfPages pages o) (cmds : List Cmd) (hr : Rep h pages) :
    Admissible beyond okH h cmds ↔ PagesAdmissible beyond okP pages (ops cmds) := by
  induction cmds generalizing h pages with
  | nil => exact Iff.rfl
  | cons cmd cmds ih =>
    cases cmd with
    | reopen =>
      obtain ⟨h', he, hr'⟩ := reopen_rep hz.page hr
      simp only [Admissible, ops, he, Except.ok.injEq, forall_eq']
      exact ih hr'
    | op o =>
      simp only [Admissible, ops, PagesAdmissible]
      rw [hiff hr o]
      refine and_congr_right (fun hop => ?_)
      have hagree : Agree _ _ _ := step_refines hz hr beyond ((opInRange_iff hz hr o).mpr (hok pages o hop)).allocated
      constructor
      · intro hall res pages' hs
        rw [hs] at hagree
        obtain ⟨r, hx, -, ht⟩ := hagree.of_ok_right
        obtain ⟨hb, hadm⟩ := hall r.1 r.2 hx
        rw [Tracks.bytes_length ht] at hb
        exact ⟨hb, (ih (Tracks.rep ht hb)).mp hadm⟩
      · intro hall res h' hs
        rw [hs] at hagree
        obtain ⟨r, hx, -, ht⟩ := hagree.of_ok_left
        obtain ⟨hb, hadm⟩ := hall r.1 r.2 hx
        rw [Tracks.bytes_length ht]
        exact ⟨hb, (ih (Tracks.rep ht hb)).mpr hadm⟩

theorem run_refines (hz : Sizes P S) {okP : Pages P S → Op → Prop}
    (hok : ∀ pages o, okP pages o → OpOfPages pages o) (cmds : List Cmd) (hr : Rep h pages)
    (ha : PagesAdmissible beyond okP pages (ops cmds)) :
    Agree (fun a b => a.1 = b.1 ∧ Rep a.2 b.2) (HeapSession.run beyond h cmds)
      (LogicalPages.run beyond pages (ops cmds)) := by
  induction cmds generalizing h pages with
  | nil => exact ⟨rfl, hr⟩
  | cons cmd cmds ih =>
    cases cmd with
    | reopen =>
      obtain ⟨h', he, hr'⟩ := reopen_rep hz.page hr
      rw [HeapSession.run, he, ok_bind]
      exact ih hr' ha
    | op o =>
      obtain ⟨hop, hall⟩ := ha
      refine (step_refines hz hr beyond ((opInRange_iff hz hr o).mpr (hok pages o hop)).allocated).bind ?_
      rintro ⟨res, h'⟩ ⟨res', pages'⟩ - hs ⟨rfl, ht⟩
      obtain ⟨hb, hadm⟩ := hall _ _ hs
      refine (ih (Tracks.rep ht hb) hadm).bind ?_
      rintro ⟨results, h''⟩ ⟨results', pages''⟩ - - ⟨rfl, hr''⟩
      exact ⟨rfl, hr''⟩

theorem step_get (beyond : Nat → Byte) {rid : RecordID} (n : Nat) (hin : RidOfPages pages rid) :
    (S / attributeSize ≤ n → ∃ rec, LogicalPages.step beyond pages (.get rid n) = .ok (some rec, pages)) ∧
    (¬ S / attributeSize ≤ n → LogicalPages.step beyond pages (.get rid n) = .error .assertFailed) := by
  obtain ⟨hlt, hslot, -⟩ := hin
  have hget := List.getElem?_eq_getElem hlt
  constructor
  · intro hn
    exact ⟨_, by simp only [LogicalPages.step, hget, readFixedLenPage, if_pos hslot, fixedLenRead, if_pos hn]; rfl⟩
  · intro hn
    simp only [LogicalPages.step, hget, readFixedLenPage, if_pos hslot, fixedLenRead, if_neg hn]
    rfl

def session (beyond : Nat → Byte) (P S : Nat) (cmds : List Cmd) :
    Except Fault (List (Option Record) × List Byte) := do
  let h ← createHeapfile P S
  let (results, h) ← HeapSession.run beyond h cmds
  let bytes ← closeHeapfile h
  .ok (results, bytes)

def SessionAdmissible (beyond : Nat → Byte) (P S : Nat) (ok : Heapfile P S → Op → Prop)
    (cmds : List Cmd) : Prop :=
  ∀ h, createHeapfile P S = .ok h → Admissible beyond ok h cmds

theorem sessionAdmissible_iff (hz : Sizes P S) (hP : P < 2147483648) {okH : Heapfile P S → Op → Prop}
    {okP : Pages P S → Op → Prop} (hiff : ∀ {h pages}, Rep h pages → ∀ o, okH h o ↔ okP pages o)
    (hok : ∀ pages o, okP pages o → OpOfPages pages o) (cmds : List Cmd) :
    SessionAdmissible beyond P S okH cmds ↔ PagesAdmissible beyond okP [] (ops cmds) := by
  obtain ⟨h, he, hr, -⟩ := createHeapfile_rep (S := S) hz.page hP
  simp only [SessionAdmissible, he, Except.ok.injEq, forall_eq']
  exact admissible_iff hz hiff hok cmds hr

theorem run_close_eq (hz : Sizes P S) {okP : Pages P S → Op → Prop}
    (hok : ∀ pages o, okP pages o → OpOfPages pages o) (cmds : List Cmd) (hr : Rep h pages)
    (ha : PagesAdmissible beyond okP pages (ops cmds)) :
    (do
      let (results, h) ← HeapSession.run beyond h cmds
      let bytes ← closeHeapfile h
      .ok (results, bytes) : Except Fault (List (Option Record) × List Byte)) = (do
      let (results, pages) ← LogicalPages.run beyond pages (ops cmds)
      .ok (results, closedFile pages)) := by
  refine Agree.eq ((run_refines hz hok cmds hr ha).bind ?_)
  rintro ⟨results, h'⟩ ⟨results', pages'⟩ - - ⟨rfl, hr'⟩
  simp only [closeHeapfile_eq hz.page hr', ok_bind]
  rfl

theorem session_eq (hz : Sizes P S) (hP : P < 2147483648) {okP : Pages P S → Op → Prop}
    (hok : ∀ pages o, okP pages o → OpOfPages pages o) (cmds : List Cmd)
    (ha : PagesAdmissible beyond okP ([] : Pages P S) (ops cmds)) :
    session beyond P S cmds = (do
      let (results, pages) ← LogicalPages.run beyond ([] : Pages P S) (ops cmds)
      .ok (results, closedFile pages)) := by
  obtain ⟨h, he, hr, -⟩ := createHeapfile_rep (S := S) hz.page hP
  rw [session, he, ok_bind]
  exact run_close_eq hz hok cmds hr ha

theorem session_ok (hz : Sizes P S) (hP : P < 2147483648) {okP : Pages P S → Op → Prop}
    (hok : ∀ pages o, okP pages o → OpOfPages pages o) {cmds : List Cmd} {results : List (Option Record)}
    {bytes : List Byte} (ha : PagesAdmissible beyond okP ([] : Pages P S) (ops cmds))
    (hs : session beyond P S cmds = .ok (results, bytes)) :
    ∃ pages : Pages P S, LogicalPages.run beyond ([] : Pages P S) (ops cmds) = .ok (results, pages) ∧
      bytes = closedFile pages ∧ fileLength P pages.length < 2147483648 := by
  rw [session_eq hz hP hok cmds ha] at hs
  obtain ⟨⟨results', pages⟩, hrun, hres⟩ := bind_eq_ok.mp hs
  obtain ⟨h, -, hr, -⟩ := createHeapfile_rep (S := S) hz.page hP
  have hagree := run_refines hz hok cmds hr ha
  rw [hrun] at hagree
  obtain ⟨a, -, -, hr'⟩ := hagree.of_ok_right
  simp only [Except.ok.injEq, Prod.mk.injEq] at hres
  exact ⟨pages, by rw [hrun, hres.1], hres.2.symm, Rep.fileLength_lt hr'⟩

/-- The states a sequence of commands leads to from a new heap file. -/
def Reached (beyond : Nat → Byte) (P S : Nat) (cmds : List Cmd) (h : Heapfile P S) : Prop :=
  ∃ h0 results, createHeapfile P S = .ok h0 ∧ HeapSession.run beyond h0 cmds = .ok (results, h)

theorem run_inv {okP : Pages P S → Op → Prop} {Inv : Pages P S → Prop}
    (hstep : ∀ {pages : Pages P S} {o : Op} {res : Option Record} {pages' : Pages P S}, Inv pages → okP pages o →
      LogicalPages.step beyond pages o = .ok (res, pages') → Inv pages')
    (os : List Op) (hinv : Inv pages) (ha : PagesAdmissible beyond okP pages os)
    {results : List (Option Record)} {pages' : Pages P S}
    (hrun : LogicalPages.run beyond pages os = .ok (results, pages')) : Inv pages' := by
  induction os generalizing pages results with
  | nil =>
    obtain ⟨-, rfl⟩ := Prod.mk.inj (Except.ok.inj hrun)
    exact hinv
  | cons o os ih =>
    obtain ⟨hop, hall⟩ := ha
    rw [run_cons] at hrun
    obtain ⟨⟨res, pages1⟩, hs, hrest⟩ := bind_eq_ok.mp hrun
    obtain ⟨⟨results1, pages2⟩, hrun1, he⟩ := bind_eq_ok.mp hrest
    obtain ⟨-, rfl⟩ := Prod.mk.inj (Except.ok.inj he)
    exact ih (hstep hinv hop hs) (hall res pages1 hs).2 hrun1

/-- A property of pages that a new heap file has and every operation keeps holds of every state that
is reached. -/
theorem Reached.inv (hz : Sizes P S) (hP : P < 2147483648) (Inv : Pages P S → Prop)
    {okH : Heapfile P S → Op → Prop} {okP : Pages P S → Op → Prop}
    (hiff : ∀ {h pages}, Rep h pages → ∀ o, okH h o ↔ okP pages o)
    (hok : ∀ pages o, okP pages o → OpOfPages pages o) (hnil : Inv [])
    (hstep : ∀ {pages : Pages P S} {o : Op} {res : Option Record} {pages' : Pages P S}, Inv pages → okP pages o →
      LogicalPages.step beyond pages o = .ok (res, pages') → Inv pages')
    {cmds : List Cmd} (ha : SessionAdmissible beyond P S okH cmds) (hreach : Reached beyond P S cmds h) :
    ∃ pages : Pages P S, Rep h pages ∧ Inv pages := by
  obtain ⟨h0, results, he, hrun⟩ := hreach
  obtain ⟨h0', he', hr, -⟩ := createHeapfile_rep (S := S) hz.page hP
  obtain rfl : h0' = h0 := Except.ok.inj (he'.symm.trans he)
  have hp := (sessionAdmissible_iff hz hP hiff hok _).mp ha
  have hagree := run_refines hz hok cmds hr hp
  rw [hrun] at hagree
  obtain ⟨⟨results', pages⟩, hlogical, -, hr'⟩ := hagree.of_ok_left
  exact ⟨pages, hr', run_inv hstep _ hnil hp hlogical⟩

theorem Reached.rep (hz : Sizes P S) (hP : P < 2147483648) {cmds : List Cmd}
    (ha : SessionAdmissible beyond P S OpInRange cmds) (hreach : Reached beyond P S cmds h) :
    ∃ pages : Pages P S, Rep h pages := by
  obtain ⟨pages, hr, -⟩ := hreach.inv hz hP (fun _ => True) (opInRange_iff hz) (fun _ _ ho => ho) trivial
    (fun _ _ _ => trivial) ha
  exact ⟨pages, hr⟩

theorem open_closedFile (hz : Sizes P S) (hP : P < 2147483648)
    (hlen : fileLength P pages.length < 2147483648) :
    ∃ h, openHeapfile P S ((closedFile pages).length / P + 1) (closedFile pages) = .ok h ∧
      Rep h pages ∧ h.pageCacheDirty = false := by
  refine openHeapfile_closedFile hz.page hP ?_
  rw [closedFile_length pages hz.page hP]
  exact hlen

end RecordStore.HeapRuns
