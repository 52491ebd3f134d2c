import RecordStore.CsvPrograms
import RecordStore.HeapRuns

namespace RecordStore.Reopening

open RecordStore.CFile RecordStore.Outcome RecordStore.FixedRecord RecordStore.HeapFile RecordStore.HeapImage
open RecordStore.HeapAlloc RecordStore.HeapSession RecordStore.LogicalPages RecordStore.HeapRefinement
open RecordStore.HeapReopen RecordStore.HeapRuns RecordStore.CText RecordStore.CsvPrograms

variable {P S : Nat} {h : Heapfile P S} {pages : Pages P S} {beyond : Nat → Byte}

/-- The same operations with no reopening between them. -/
def withoutReopen (cmds : List Cmd) : List Cmd := (ops cmds).map Cmd.op

theorem ops_withoutReopen (cmds : List Cmd) : ops (withoutReopen cmds) = ops cmds := ops_map_op (ops cmds)

theorem session_withoutReopen (hz : Sizes P S) (hP : P < 2147483648) (cmds : List Cmd)
    (ha : SessionAdmissible beyond P S OpInRange (withoutReopen cmds)) :
    session beyond P S cmds = session beyond P S (withoutReopen cmds) := by
  have hp := (sessionAdmissible_iff hz hP (opInRange_iff hz) (fun _ _ ho => ho) _).mp ha
  have hp' := hp
  rw [ops_withoutReopen] at hp'
  rw [session_eq hz hP (fun _ _ ho => ho) _ hp, session_eq hz hP (fun _ _ ho => ho) _ hp',
    ops_withoutReopen]

section Load

def loadPages : Pages P S → List (List Byte) → Except Fault (Pages P S)
  | pages, [] => .ok pages
  | pages, line :: lines => do
    let rec ← loadCsvRecord line
    let pages ← put pages rec
    loadPages pages lines

/-- At no point of the load does the file reach `2 ^ 31` bytes. -/
def LoadBelow (h : Heapfile P S) (lines : List (List Byte)) : Prop :=
  ∀ n h', loadLines h (lines.take n) = .ok h' → h'.file.bytes.length < 2147483648

def PagesBelow (pages : Pages P S) (lines : List (List Byte)) : Prop :=
  ∀ n pages', loadPages pages (lines.take n) = .ok pages' → fileLength P pages'.length < 2147483648

theorem loadPages_append (lines lines' : List (List Byte)) (pages : Pages P S) :
    loadPages pages (lines ++ lines') = (do
      let pages ← loadPages pages lines
      loadPages pages lines') := by
  induction lines generalizing pages with
  | nil => rfl
  | cons line lines ih =>
    simp only [List.cons_append, loadPages, bind_assoc, ih]

theorem PagesBelow.tail {line : List Byte} {lines : List (List Byte)} {rec : Record}
    {pages' : Pages P S} (hb : PagesBelow pages (line :: lines)) (hl : loadCsvRecord line = .ok rec)
    (hp : put pages rec = .ok pages') :
    fileLength P pages'.length < 2147483648 ∧ PagesBelow pages' lines := by
  constructor
  · exact hb 1 pages' (by simp [loadPages, hl, hp])
  · intro n pages'' hn
    exact hb (n + 1) pages'' (by simp [loadPages, hl, hp, hn])

theorem PagesBelow.append_left {lines lines' : List (List Byte)}
    (hb : PagesBelow pages (lines ++ lines')) : PagesBelow pages lines := by
  intro n pages' hn
  refine hb (min n lines.length) pages' ?_
  rw [List.take_append_of_le_length (Nat.min_le_right _ _), ← List.take_eq_take_min]
  exact hn

theorem PagesBelow.append_right {lines lines' : List (List Byte)} {pages' : Pages P S}
    (hb : PagesBelow pages (lines ++ lines')) (hl : loadPages pages lines = .ok pages') :
    PagesBelow pages' lines' := by
  intro n pages'' hn
  refine hb (lines.length + n) pages'' ?_
  rw [List.take_length_add_append, loadPages_append, hl]
  exact hn

theorem loadBelow_pages (hz : Sizes P S) (lines : List (List Byte)) (hr : Rep h pages)
    (hb : LoadBelow h lines) : PagesBelow pages lines := by
  induction lines generalizing h pages with
  | nil =>
    intro n pages' hn
    rw [List.take_nil, loadPages] at hn
    rw [← Except.ok.inj hn]
    exact Rep.fileLength_lt hr
  | cons line lines ih =>
    intro n pages' hn
    cases n with
    | zero =>
      rw [List.take_zero, loadPages] at hn
      rw [← Except.ok.inj hn]
      exact Rep.fileLength_lt hr
    | succ n =>
      rw [List.take_succ_cons, loadPages] at hn
      obtain ⟨rec, hl, hn⟩ := bind_eq_ok.mp hn
      obtain ⟨pages1, hp, hn⟩ := bind_eq_ok.mp hn
      have hagree := put_agree hz hr rec
      rw [hp] at hagree
      obtain ⟨h1, hx, ht⟩ := hagree.of_ok_right
      have hb1 : h1.file.bytes.length < 2147483648 := hb 1 h1 (by simp [loadLines, hl, hx])
      rw [Tracks.bytes_length ht] at hb1
      refine ih (Tracks.rep ht hb1) (fun m h' hm => ?_) n pages' hn
      exact hb (m + 1) h' (by simp [loadLines, hl, hx, hm])

theorem load_agree (hz : Sizes P S) (lines : List (List Byte)) (hr : Rep h pages)
    (hb : PagesBelow pages lines) : Agree Rep (loadLines h lines) (loadPages pages lines) := by
  induction lines generalizing h pages with
  | nil => exact hr
  | cons line lines ih =>
    rw [loadLines, loadPages]
    cases hl : loadCsvRecord line with
    | error e => rfl
    | ok rec =>
      rw [ok_bind, ok_bind]
      refine (put_agree hz hr rec).bind ?_
      intro h' pages' _ hp ht
      obtain ⟨hlen, htail⟩ := hb.tail hl hp
      exact ih (Tracks.rep ht hlen) htail

theorem loadBelow_of_length (hz : Sizes P S) (hr : Rep h pages) {lines : List (List Byte)}
    (hlen : (2 * (pages.length + lines.length) + 1) * P < 2147483648) : LoadBelow h lines := by
  have hgrow : ∀ (lines : List (List Byte)) (pages pages' : Pages P S),
      loadPages pages lines = .ok pages' → pages'.length ≤ pages.length + lines.length := by
    intro lines
    induction lines with
    | nil =>
      intro pages pages' hl
      rw [← Except.ok.inj hl]
      rfl
    | cons line lines ih =>
      intro pages pages' hl
      rw [loadPages] at hl
      obtain ⟨rec, -, hl⟩ := bind_eq_ok.mp hl
      obtain ⟨pages1, hp, hl⟩ := bind_eq_ok.mp hl
      have h1 := put_length hp
      have h2 := ih pages1 pages' hl
      rw [List.length_cons]
      omega
  have hbelow : ∀ n, PagesBelow pages (lines.take n) := by
    intro n m pages' hm
    have hle := hgrow _ _ _ hm
    refine lt_of_le_of_lt (fileLength_le _ _) (lt_of_le_of_lt (Nat.mul_le_mul_right _ ?_) hlen)
    simp only [List.length_take] at hle
    omega
  intro n h' hn
  have hagree := load_agree hz _ hr (hbelow n)
  rw [hn] at hagree
  obtain ⟨pages', -, hr'⟩ := hagree.of_ok_left
  exact hr'.bound

theorem csv2heapfile_eq (hp : 1001 < P) (hP : P < 2147483648) {csv : List Byte}
    (hb : PagesBelow ([] : Pages P slotSize) (csvLines csv)) :
    csv2heapfile P csv = (do
      let pages ← loadPages ([] : Pages P slotSize) (csvLines csv)
      .ok (closedFile pages)) := by
  have hz : Sizes P slotSize := ⟨hp, by decide, by unfold slotSize; omega⟩
  obtain ⟨h, he, hr, -⟩ := createHeapfile_rep (S := slotSize) hz.page hP
  rw [csv2heapfile, if_pos (by omega), he, ok_bind]
  refine Agree.eq ((load_agree hz _ hr hb).bind ?_)
  intro h' pages' _ _ hr'
  rw [closeHeapfile_eq hz.page hr']
  rfl

theorem insert_eq (hp : 1001 < P) (hP : P < 2147483648) {pages : Pages P slotSize} {csv : List Byte}
    (hlen : fileLength P pages.length < 2147483648) (hb : PagesBelow pages (csvLines csv)) :
    CsvPrograms.insert P (closedFile pages) csv = (do
      let pages ← loadPages pages (csvLines csv)
      .ok (closedFile pages)) := by
  have hz : Sizes P slotSize := ⟨hp, by decide, by unfold slotSize; omega⟩
  obtain ⟨h, he, hr, -⟩ := open_closedFile hz hP hlen
  rw [CsvPrograms.insert, if_pos (by omega), he, ok_bind]
  refine Agree.eq ((load_agree hz _ hr hb).bind ?_)
  intro h' pages' _ _ hr'
  rw [closeHeapfile_eq hz.page hr']
  rfl

/-- Loading a file and then inserting a second one is loading a file with the lines of both. -/
theorem csv2heapfile_insert (hp : 1001 < P) (hP : P < 2147483648) {A B C : List Byte}
    (hlines : csvLines C = csvLines A ++ csvLines B)
    (hbelow : ∀ h : Heapfile P slotSize, createHeapfile P slotSize = .ok h → LoadBelow h (csvLines C)) :
    (csv2heapfile P A >>= fun bytes => CsvPrograms.insert P bytes B) = csv2heapfile P C := by
  have hz : Sizes P slotSize := ⟨hp, by decide, by unfold slotSize; omega⟩
  obtain ⟨h, he, hr, -⟩ := createHeapfile_rep (S := slotSize) hz.page hP
  have hC := loadBelow_pages hz _ hr (hbelow h he)
  have hAB := hlines ▸ hC
  rw [csv2heapfile_eq hp hP hC, csv2heapfile_eq hp hP hAB.append_left, hlines, loadPages_append]
  cases hA : loadPages ([] : Pages P slotSize) (csvLines A) with
  | error e => rfl
  | ok pages =>
    have hlen := hAB.append_left (csvLines A).length pages (by rwa [List.take_length])
    simp only [ok_bind]
    exact insert_eq hp hP hlen (hAB.append_right hA)

end Load

section Read

/-- Calls of `get_record`, each with the number of attributes of the record it fills. -/
def gets (reads : List (RecordID × Nat)) : List Cmd := reads.map (fun r => .op (.get r.1 r.2))

theorem pagesAdmissible_gets (beyond : Nat → Byte) (reads : List (RecordID × Nat))
    (hin : ∀ r ∈ reads, RidOfPages pages r.1)
    (hlen : fileLength P pages.length < 2147483648) :
    PagesAdmissible beyond OpOfPages pages (ops (gets reads)) := by
  induction reads with
  | nil => trivial
  | cons r reads ih =>
    have hr := hin r (List.mem_cons_self ..)
    refine ⟨hr, fun res pages' hs => ?_⟩
    by_cases hn : S / attributeSize ≤ r.2
    · obtain ⟨rec, hrec⟩ := (step_get beyond r.2 hr).1 hn
      rw [hrec] at hs
      obtain rfl : pages = pages' := congrArg Prod.snd (Except.ok.inj hs)
      exact ⟨hlen, ih (fun r hr => hin r (List.mem_cons_of_mem _ hr))⟩
    · rw [(step_get beyond r.2 hr).2 hn] at hs
      cases hs

theorem run_gets (beyond : Nat → Byte) (reads : List (RecordID × Nat)) (hin : ∀ r ∈ reads, RidOfPages pages r.1) :
    ((∀ r ∈ reads, S / attributeSize ≤ r.2) →
      ∃ results, LogicalPages.run beyond pages (ops (gets reads)) = .ok (results, pages)) ∧
    ((¬ ∀ r ∈ reads, S / attributeSize ≤ r.2) →
      LogicalPages.run beyond pages (ops (gets reads)) = .error .assertFailed) := by
  induction reads with
  | nil => exact ⟨fun _ => ⟨[], rfl⟩, fun hn => absurd (by simp) hn⟩
  | cons r reads ih =>
    obtain ⟨hok, herr⟩ := ih (fun r hr => hin r (List.mem_cons_of_mem _ hr))
    obtain ⟨hstep, hfail⟩ := step_get beyond r.2 (hin r (List.mem_cons_self ..))
    have hops : ops (gets (r :: reads)) = .get r.1 r.2 :: ops (gets reads) := rfl
    simp only [List.forall_mem_cons, hops, LogicalPages.run_cons]
    by_cases hn : S / attributeSize ≤ r.2
    · obtain ⟨rec, hrec⟩ := hstep hn
      rw [hrec]
      simp only [ok_bind, hn, true_and]
      constructor
      · intro hall
        obtain ⟨results, hres⟩ := hok hall
        exact ⟨some rec :: results, by rw [hres]; rfl⟩
      · intro hall
        rw [herr hall]
        rfl
    · simp only [hn, false_and, false_implies, true_and, not_false_eq_true, forall_const]
      rw [hfail hn]
      rfl

theorem read_close_eq (hz : Sizes P S) (hr : Rep h pages) {reads : List (RecordID × Nat)}
    (hin : ∀ r ∈ reads, RidInRange h r.1) :
    (do
      let (_, h) ← HeapSession.run beyond h (gets reads)
      closeHeapfile h) =
      if ∀ r ∈ reads, S / attributeSize ≤ r.2 then .ok (closedFile pages) else .error .assertFailed := by
  have hin' : ∀ r ∈ reads, RidOfPages pages r.1 := fun r hr' =>
    (opInRange_iff hz hr (.get r.1 r.2)).mp (hin r hr')
  have hagree := run_refines hz (fun _ _ ho => ho) (gets reads) hr
    (pagesAdmissible_gets beyond reads hin' (Rep.fileLength_lt hr))
  obtain ⟨hok, herr⟩ := run_gets beyond reads hin'
  split
  case isTrue hall =>
    obtain ⟨results, hres⟩ := hok hall
    rw [hres] at hagree
    obtain ⟨a, hx, -, hr'⟩ := hagree.of_ok_right
    rw [hx, ok_bind]
    exact closeHeapfile_eq hz.page hr'
  case isFalse hall =>
    rw [herr hall] at hagree
    rw [hagree.of_error_right]
    rfl

end Read

/-- Closing a heap file and opening it again at any points of a sequence of operations
changes neither the results nor the file that is left at the end. -/
theorem reopen_transparent (hz : Sizes P S) (hP : P < 2147483648) (beyond : Nat → Byte) :
    (∀ cmds, SessionAdmissible beyond P S OpInRange (withoutReopen cmds) →
      session beyond P S cmds = session beyond P S (withoutReopen cmds)) ∧
    (∀ A B C, csvLines C = csvLines A ++ csvLines B →
      (∀ h : Heapfile P slotSize, createHeapfile P slotSize = .ok h → LoadBelow h (csvLines C)) →
      (csv2heapfile P A >>= fun bytes => CsvPrograms.insert P bytes B) = csv2heapfile P C) ∧
    (∀ cmds results bytes, SessionAdmissible beyond P S OpInRange cmds →
      session beyond P S cmds = .ok (results, bytes) →
      ∃ h : Heapfile P S, openHeapfile P S (bytes.length / P + 1) bytes = .ok h ∧
        ∀ reads : List (RecordID × Nat), (∀ r ∈ reads, RidInRange h r.1) →
          (do
            let (_, h) ← HeapSession.run beyond h (gets reads)
            closeHeapfile h) =
            if ∀ r ∈ reads, S / attributeSize ≤ r.2 then .ok bytes else .error .assertFailed) := by
  refine ⟨session_withoutReopen hz hP, fun A B C => csv2heapfile_insert hz.page hP, ?_⟩
  intro cmds results bytes ha hs
  have hp := (sessionAdmissible_iff hz hP (opInRange_iff hz) (fun _ _ ho => ho) _).mp ha
  obtain ⟨pages, -, rfl, hlen⟩ := session_ok hz hP (fun _ _ ho => ho) hp hs
  obtain ⟨h, he, hr, -⟩ := open_closedFile hz hP hlen
  exact ⟨h, he, fun reads hin => read_close_eq hz hr hin⟩

def letterLine : List Byte := ((List.replicate 99 [97, comma]).flatten ++ [97]) ++ [newline]

theorem reopen_transparent_letters :
    session (fun _ => 0) 1002 10 [.op (.put letterRecord), .reopen, .op (.put letterRecord)] =
      session (fun _ => 0) 1002 10 [.op (.put letterRecord), .op (.put letterRecord)] ∧
    (csv2heapfile 1002 letterLine >>= fun bytes => CsvPrograms.insert 1002 bytes letterLine) =
      csv2heapfile 1002 (letterLine ++ letterLine) := by
  have hz : Sizes 1002 10 := ⟨by decide, by decide, by decide⟩
  have hz' : Sizes 1002 slotSize := ⟨by decide, by decide, by decide⟩
  obtain ⟨h1, h2, -⟩ := reopen_transparent hz (by decide) (fun _ => 0)
  constructor
  · refine h1 [.op (.put letterRecord), .reopen, .op (.put letterRecord)] ?_
    rw [sessionAdmissible_iff hz (by decide) (opInRange_iff hz) (fun _ _ ho => ho)]
    exact pagesAdmissible_puts [letterRecord, letterRecord] (fun _ _ _ => trivial) (by decide)
  · refine h2 letterLine letterLine _ (fgetsLines_append (by decide) List.getLast?_concat letterLine) ?_
    intro h he
    obtain ⟨h', he', hr, -⟩ := createHeapfile_rep (S := slotSize) hz'.page (by decide)
    obtain rfl : h' = h := Except.ok.inj (he'.symm.trans he)
    refine loadBelow_of_length hz' hr ?_
    have hlen := fgetsLines_length_le maxLineLen (letterLine ++ letterLine)
    have hbytes : (letterLine ++ letterLine).length = 400 := by
      simp only [letterLine, List.length_append, List.length_flatten, List.map_replicate, List.sum_replicate,
        List.length_cons, List.length_nil]
      rfl
    rw [hbytes] at hlen
    refine lt_of_le_of_lt (Nat.mul_le_mul_right _ (show _ ≤ 2 * (0 + 400) + 1 by
      simp only [List.length_nil, csvLines]
      omega)) (by decide)

end RecordStore.Reopening
