import RecordStore.HeapContents
import RecordStore.RecordIterator

namespace RecordStore.IteratorScan

open RecordStore.CFile RecordStore.Outcome RecordStore.FixedRecord RecordStore.FixedPage
open RecordStore.DirectoryPage RecordStore.HeapFile RecordStore.PageLayout RecordStore.DirectoryChain
open RecordStore.HeapImage RecordStore.HeapAlloc RecordStore.LogicalPages RecordStore.HeapRefinement
open RecordStore.RecordIterator

variable {P S : Nat} {pages : Pages P S}

def slotsAfter (page : Page P S) (slot : Int) : List Nat :=
  (List.range' (slot + 1).toNat (fixedLenPageCapacity P S - (slot + 1).toNat)).filter page.filled

def livesFrom : List (Page P S) → Nat → Int → List (Nat × Nat)
  | [], _, _ => []
  | page :: rest, pid, slot => (slotsAfter page slot).map (fun t => (pid, t)) ++ livesFrom rest (pid + 1) (-1)

/-- The places of the records after slot `slot` of page `pid`, in the order of a scan. -/
def lives (pages : Pages P S) (pid : Nat) (slot : Int) : List (Nat × Nat) :=
  livesFrom (pages.drop pid) pid slot

theorem lives_step {pid : Nat} {page : Page P S} (hp : pages[pid]? = some page) (slot : Int) :
    lives pages pid slot = (slotsAfter page slot).map (fun t => (pid, t)) ++ lives pages (pid + 1) (-1) := by
  obtain ⟨hlt, rfl⟩ := List.getElem?_eq_some_iff.mp hp
  rw [lives, List.drop_eq_getElem_cons hlt, livesFrom, lives]

theorem lives_end {pid : Nat} (hp : pages.length ≤ pid) (slot : Int) : lives pages pid slot = [] := by
  rw [lives, List.drop_eq_nil_of_le hp, livesFrom]

theorem getNextFilledSlot_eq (page : Page P S) (slot : Int) :
    getNextFilledSlot page slot = match slotsAfter page slot with
      | [] => -1
      | t :: _ => (t : Int) := by
  rw [getNextFilledSlot]
  simp only [← List.head?_filter]
  cases h : slotsAfter page slot with
  | nil =>
    rw [slotsAfter] at h
    simp [h]
  | cons t ts =>
    rw [slotsAfter] at h
    simp [h]

theorem filter_range'_cons {p : Nat → Bool} {a n t : Nat} {ts : List Nat}
    (h : (List.range' a n).filter p = t :: ts) :
    a ≤ t ∧ t < a + n ∧ p t = true ∧ ts = (List.range' (t + 1) (a + n - (t + 1))).filter p := by
  induction n generalizing a with
  | zero => simp at h
  | succ n ih =>
    rw [List.range'_succ, List.filter_cons] at h
    split at h
    case isTrue hp =>
      obtain ⟨rfl, rfl⟩ := List.cons.inj h
      refine ⟨le_rfl, by omega, hp, ?_⟩
      rw [show a + (n + 1) - (a + 1) = n by omega]
    case isFalse hp =>
      obtain ⟨h1, h2, h3, h4⟩ := ih h
      exact ⟨by omega, by omega, h3, by rw [h4, show a + 1 + n = a + (n + 1) by omega]⟩

theorem slotsAfter_cons {page : Page P S} {slot : Int} {t : Nat} {ts : List Nat}
    (h : slotsAfter page slot = t :: ts) :
    t < fixedLenPageCapacity P S ∧ page.filled t = true ∧ ts = slotsAfter page t := by
  obtain ⟨h1, h2, h3, h4⟩ := filter_range'_cons h
  refine ⟨by omega, h3, ?_⟩
  rw [h4, slotsAfter, show ((t : Int) + 1).toNat = t + 1 by omega]
  congr 2
  omega

theorem lives_cons {pid q t : Nat} {slot : Int} {rest : List (Nat × Nat)}
    (h : lives pages pid slot = (q, t) :: rest) :
    rest = lives pages q t ∧ ∃ page, pages[q]? = some page ∧ t < fixedLenPageCapacity P S ∧
      page.filled t = true := by
  by_cases hlt : pid < pages.length
  · have hp := List.getElem?_eq_getElem hlt
    rw [lives_step hp] at h
    cases hs : slotsAfter pages[pid] slot with
    | nil =>
      rw [hs, List.map_nil, List.nil_append] at h
      exact lives_cons h
    | cons u us =>
      obtain ⟨hcap, hflag, rfl⟩ := slotsAfter_cons hs
      rw [hs, List.map_cons, List.cons_append] at h
      obtain ⟨hq, rfl⟩ := List.cons.inj h
      obtain ⟨rfl, rfl⟩ := Prod.mk.inj hq
      exact ⟨(lives_step hp _).symm, _, hp, hcap, hflag⟩
  · rw [lives_end (by omega)] at h
    cases h
termination_by pages.length - pid

def Lands (pages : Pages P S) (hasNext : Bool) :
    List (Nat × Nat) → Except Fault (Iterator P S) → Prop
  | (q, t) :: _, r => ∃ h, r = .ok ⟨h, q, t, hasNext⟩ ∧ Rep h pages
  | [], r =>
    (LastFull (directoryCapacity P) pages.length →
      r = .error (.dirIndex (pages.length / directoryCapacity P))) ∧
    (¬ LastFull (directoryCapacity P) pages.length →
      ∃ it, r = .ok it ∧ it.hasNext = false ∧ Rep it.heapfile pages)

theorem pageIsAllocated_of_lt (hz : Sizes P S) {it : Iterator P S} (hr : Rep it.heapfile pages)
    (hlt : it.pid < pages.length) : pageIsAllocated (directoryCapacity P) it = .ok true := by
  rw [pageIsAllocated, hr.core.directory (dir_lt hlt), ok_bind,
    decide_eq_true ((lt_nEntries_iff hz.page hr.core.size it.pid).mpr (by rwa [entriesOf_length]))]

theorem pageIsAllocated_end (hz : Sizes P S) {it : Iterator P S} (hr : Rep it.heapfile pages)
    (hend : it.pid = pages.length) :
    pageIsAllocated (directoryCapacity P) it =
      if LastFull (directoryCapacity P) pages.length then
        .error (.dirIndex (pages.length / directoryCapacity P))
      else .ok false := by
  split
  case isTrue hf =>
    have hnone : it.heapfile.directory (pages.length / directoryCapacity P) =
        .error (.dirIndex (pages.length / directoryCapacity P)) :=
      hr.core.directory_past (numDirs_succ_of_full hf).1.le
    rw [pageIsAllocated, hend, hnone]
    rfl
  case isFalse hf =>
    have hd : pages.length / directoryCapacity P < numDirs (directoryCapacity P) pages.length := by
      rw [(numDirs_succ_of_not_full hf).1]
      omega
    rw [pageIsAllocated, hend, hr.core.directory hd, ok_bind,
      decide_eq_false (fun hlt => ?_)]
    have := (lt_nEntries_iff hz.page hr.core.size pages.length).mp hlt
    rw [entriesOf_length] at this
    omega

theorem incrementLoop_of {c fuel : Nat} {it : Iterator P S} {page : Page P S} {h : Heapfile P S}
    (ha : pageIsAllocated c it = .ok true) (hg : getPage it.heapfile it.pid = .ok (page, h)) :
    incrementLoop c (fuel + 1) it =
      if 0 ≤ getNextFilledSlot page it.slot then
        .ok { it with heapfile := h, slot := getNextFilledSlot page it.slot }
      else incrementLoop c fuel { it with
        heapfile := h
        slot := getNextFilledSlot page it.slot
        pid := it.pid + 1 } := by
  simp [incrementLoop, ha, hg]

theorem incrementLoop_lands (hz : Sizes P S) (k : Nat) :
    ∀ (fuel : Nat) (it : Iterator P S), Rep it.heapfile pages → it.pid + k = pages.length → k < fuel →
      Lands pages it.hasNext (lives pages it.pid it.slot)
        (incrementLoop (directoryCapacity P) fuel it) := by
  induction k with
  | zero =>
    intro fuel it hr hk hfuel
    obtain ⟨fuel, rfl⟩ := Nat.exists_eq_succ_of_ne_zero (show fuel ≠ 0 by omega)
    rw [lives_end (by omega), incrementLoop, pageIsAllocated_end hz hr (by omega)]
    constructor
    · intro hf
      rw [if_pos hf]
      rfl
    · intro hf
      rw [if_neg hf]
      exact ⟨_, rfl, rfl, hr⟩
  | succ k ih =>
    intro fuel it hr hk hfuel
    obtain ⟨fuel, rfl⟩ := Nat.exists_eq_succ_of_ne_zero (show fuel ≠ 0 by omega)
    have hlt : it.pid < pages.length := by omega
    have hp := List.getElem?_eq_getElem hlt
    obtain ⟨h', hg, hc', -, -⟩ := hr.core.getPage hz hp
    have hr' := Rep.of_core hr hc' rfl
    rw [incrementLoop_of (pageIsAllocated_of_lt hz hr hlt) hg, lives_step hp, getNextFilledSlot_eq]
    cases hs : slotsAfter pages[it.pid] it.slot with
    | cons t ts =>
      rw [if_pos (Int.natCast_nonneg t)]
      exact ⟨h', rfl, hr'⟩
    | nil =>
      rw [if_neg (by decide)]
      exact ih fuel { it with heapfile := h', slot := -1, pid := it.pid + 1 } hr' (by simp only; omega)
        (by omega)

theorem incrementIterator_lands (hz : Sizes P S) (it : Iterator P S) (hr : Rep it.heapfile pages)
    (hpid : it.pid ≤ pages.length) :
    Lands pages it.hasNext (lives pages it.pid it.slot) (incrementIterator it) := by
  have hcap := (capacity_bounds hz.page hr.core.size).1
  have hle := length_le_numDirs_mul hcap pages.length
  rw [incrementIterator, hr.core.directory (Nat.succ_pos _), ok_bind, hr.core.buffer_length]
  exact incrementLoop_lands hz (pages.length - it.pid) _ it hr (by omega)
    (Nat.lt_succ_of_le (le_trans (by omega) hle))

theorem new_lands (hz : Sizes P S) (hasNext : Bool) {h : Heapfile P S} (hr : Rep h pages) :
    Lands pages hasNext (lives pages 0 (-1)) (Iterator.new hasNext h) :=
  incrementIterator_lands hz ⟨h, 0, -1, hasNext⟩ hr (Nat.zero_le _)

/-- A new iterator where the last directory has room: there is no record, or it is at the first one. -/
theorem new_cases (hz : Sizes P S) (hasNext : Bool) {h : Heapfile P S} (hr : Rep h pages)
    (hf : ¬ LastFull (directoryCapacity P) pages.length) :
    (lives pages 0 (-1) = [] ∧
      ∃ it, Iterator.new hasNext h = .ok it ∧ it.hasNext = false ∧ Rep it.heapfile pages) ∨
    ∃ (q t : Nat) (h1 : Heapfile P S) (page : Page P S), lives pages 0 (-1) = (q, t) :: lives pages q t ∧
      Iterator.new hasNext h = .ok ⟨h1, q, t, hasNext⟩ ∧ Rep h1 pages ∧ pages[q]? = some page ∧
      t < fixedLenPageCapacity P S ∧ page.filled t = true := by
  have hland := new_lands hz hasNext hr
  cases hl : lives pages 0 (-1) with
  | nil =>
    rw [hl] at hland
    exact .inl ⟨rfl, hland.2 hf⟩
  | cons p rest =>
    obtain ⟨q, t⟩ := p
    rw [hl] at hland
    obtain ⟨h1, he, hr1⟩ := hland
    obtain ⟨rfl, page, hq, ht, hfilled⟩ := lives_cons hl
    exact .inr ⟨q, t, h1, page, rfl, he, hr1, hq, ht, hfilled⟩

def recordAt (beyond : Nat → Byte) (pages : Pages P S) (q : Nat × Nat) : Record :=
  match pages[q.1]? with
  | some page => (readFixedLenPage beyond page q.2 100).toOption.getD []
  | none => []

theorem next_of {beyond : Nat → Byte} {it : Iterator P S} {page : Page P S} {h : Heapfile P S}
    {r : Except Fault Record} (hg : getPage it.heapfile it.pid = .ok (page, h))
    (hread : readFixedLenPage beyond page it.slot 100 = r) :
    next beyond it = r >>= fun record =>
      (incrementIterator { it with heapfile := h }).map (fun it => (record, it)) := by
  rw [next, hg, ok_bind]
  simp only [hread]
  cases r with
  | error e => rfl
  | ok record => cases incrementIterator { it with heapfile := h } <;> rfl

theorem next_narrow (hz : Sizes P S) (beyond : Nat → Byte) (hw : ¬ S / attributeSize ≤ 100)
    {h : Heapfile P S} {q t : Nat} {hasNext : Bool} (hr : Rep h pages) (hq : q < pages.length) :
    next beyond ⟨h, q, t, hasNext⟩ = .error .assertFailed := by
  obtain ⟨h', hg, -, -, -⟩ := hr.core.getPage hz (List.getElem?_eq_getElem hq)
  have hread : readFixedLenPage beyond pages[q] t 100 = .error .assertFailed := by
    rw [readFixedLenPage, if_pos (Int.natCast_nonneg t), fixedLenRead, if_neg hw]
  rw [next_of hg hread]
  rfl

theorem next_wide (hz : Sizes P S) (hw : S / attributeSize ≤ 100) {h : Heapfile P S} {q : Nat} (t : Nat)
    (hasNext : Bool) (hr : Rep h pages) (hq : q < pages.length) :
    ∃ r, Lands pages hasNext (lives pages q t) r ∧ ∀ beyond,
      next beyond ⟨h, q, t, hasNext⟩ = r.map (fun it => (recordAt beyond pages (q, t), it)) := by
  have hp := List.getElem?_eq_getElem hq
  obtain ⟨h', hg, hc', -, -⟩ := hr.core.getPage hz hp
  have hread (beyond : Nat → Byte) : readFixedLenPage beyond pages[q] t 100 = .ok (recordAt beyond pages (q, t)) := by
    simp only [recordAt, hp, readFixedLenPage, if_pos (Int.natCast_nonneg t), fixedLenRead, if_pos hw]
    rfl
  refine ⟨_, incrementIterator_lands hz ⟨h', q, t, hasNext⟩ (Rep.of_core hr hc' rfl) hq.le, fun beyond => ?_⟩
  rw [next_of hg (hread beyond)]
  rfl

theorem scanLoop_of_ok {beyond : Nat → Byte} {fuel : Nat} {it it1 : Iterator P S} {record : Record}
    (hn : it.hasNext = true) (hx : next beyond it = .ok (record, it1)) :
    scanLoop beyond (fuel + 1) it =
      (scanLoop beyond fuel it1).map (fun r => ((nextRID it, record) :: r.1, r.2)) := by
  simp only [scanLoop, hn, if_true, hx, ok_bind]
  cases scanLoop beyond fuel it1 <;> rfl

theorem scanLoop_of_error {beyond : Nat → Byte} {fuel : Nat} {it : Iterator P S} {e : Fault}
    (hn : it.hasNext = true) (hx : next beyond it = .error e) :
    scanLoop beyond (fuel + 1) it = .error e := by
  simp [scanLoop, hn, hx]

/-- From a place on, the scan lists what is left, and then stops in the last test of
`increment_iterator` or ends, as the last directory is full or not. -/
theorem scanLoop_spec (hz : Sizes P S) (beyond : Nat → Byte) (hw : S / attributeSize ≤ 100)
    (rest : List (Nat × Nat)) :
    ∀ (fuel q t : Nat) (h : Heapfile P S), Rep h pages → q < pages.length → lives pages q t = rest →
      (LastFull (directoryCapacity P) pages.length → rest.length < fuel →
        scanLoop beyond fuel ⟨h, q, t, true⟩ =
          .error (.dirIndex (pages.length / directoryCapacity P))) ∧
      (¬ LastFull (directoryCapacity P) pages.length → rest.length + 1 < fuel →
        ∃ it, scanLoop beyond fuel ⟨h, q, t, true⟩ = .ok (((q, t) :: rest).map
            (fun p => (⟨p.1, p.2⟩, recordAt beyond pages p)), it) ∧ Rep it.heapfile pages) := by
  induction rest with
  | nil =>
    intro fuel q t h hr hq hl
    obtain ⟨r, hland, hread⟩ := next_wide hz hw t true hr hq
    have hnext := hread beyond
    rw [hl] at hland
    constructor
    · intro hf hfuel
      obtain ⟨fuel, rfl⟩ := Nat.exists_eq_succ_of_ne_zero (show fuel ≠ 0 by omega)
      rw [hland.1 hf] at hnext
      exact scanLoop_of_error rfl hnext
    · intro hf hfuel
      obtain ⟨fuel, rfl⟩ := Nat.exists_eq_add_of_le' (show 2 ≤ fuel by simp only [List.length_nil] at hfuel; omega)
      obtain ⟨it, hr1, hfalse, hrep⟩ := hland.2 hf
      rw [hr1] at hnext
      refine ⟨it, ?_, hrep⟩
      rw [scanLoop_of_ok rfl hnext, scanLoop, if_neg (by simp [hfalse])]
      rfl
  | cons p rest ih =>
    intro fuel q t h hr hq hl
    obtain ⟨q', t'⟩ := p
    obtain ⟨r, hland, hread⟩ := next_wide hz hw t true hr hq
    have hnext := hread beyond
    rw [hl] at hland
    obtain ⟨h1, rfl, hr1⟩ := hland
    obtain ⟨hrest, page, hp, -, -⟩ := lives_cons hl
    have hq' : q' < pages.length := (List.getElem?_eq_some_iff.mp hp).1
    constructor
    · intro hf hfuel
      obtain ⟨fuel, rfl⟩ := Nat.exists_eq_succ_of_ne_zero (show fuel ≠ 0 by omega)
      rw [scanLoop_of_ok rfl hnext, (ih fuel q' t' h1 hr1 hq' hrest.symm).1 hf (by simpa using hfuel)]
      rfl
    · intro hf hfuel
      obtain ⟨fuel, rfl⟩ := Nat.exists_eq_succ_of_ne_zero (show fuel ≠ 0 by omega)
      obtain ⟨it, hscan, hrep⟩ :=
        (ih fuel q' t' h1 hr1 hq' hrest.symm).2 hf (by simpa using hfuel)
      refine ⟨it, ?_, hrep⟩
      rw [scanLoop_of_ok rfl hnext, hscan]
      rfl

end RecordStore.IteratorScan
