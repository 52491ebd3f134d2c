import RecordStore.HeapRuns

namespace RecordStore.BlockTiling

open RecordStore.CFile RecordStore.Outcome RecordStore.FixedRecord RecordStore.FixedPage
open RecordStore.DirectoryPage RecordStore.HeapFile RecordStore.PageLayout RecordStore.DirectoryChain
open RecordStore.HeapImage RecordStore.HeapAlloc RecordStore.HeapSession RecordStore.LogicalPages
open RecordStore.HeapRefinement RecordStore.HeapReopen RecordStore.HeapRuns

variable {P S : Nat} {beyond : Nat → Byte} {h h' : Heapfile P S} {pages : Pages P S}

/-- A call into a heap file: a record operation, `alloc_page` or `get_page` by
itself, or closing it and opening it again. The iterator calls `get_page` only. -/
inductive Call where
  | op (o : Op)
  | allocPage
  | getPage (pid : Nat)
  | reopen

def perform (beyond : Nat → Byte) (h : Heapfile P S) : Call → Except Fault (Heapfile P S)
  | .op o => (HeapSession.step beyond h o).map Prod.snd
  | .allocPage => (HeapFile.allocPage h).map Prod.snd
  | .getPage pid => (HeapFile.getPage h pid).map Prod.snd
  | .reopen => HeapSession.reopen h

/-- What a call of `alloc_page` allocates: the id it returns, and the end of the file
where the page is put. -/
def allocation (h : Heapfile P S) : List (Nat × Nat) :=
  match HeapFile.allocPage h with
  | .ok (pid, _) => [(pid, h.file.bytes.length)]
  | .error _ => []

/-- The pages allocated by a call. `put_record` allocates one if no page has room. -/
def allocations (h : Heapfile P S) : Call → List (Nat × Nat)
  | .op (.put _) =>
    match vacantPageId h with
    | some _ => []
    | none => allocation h
  | .allocPage => allocation h
  | _ => []

/-- The states calls lead to from a new heap file as long as the file is below `2 ^ 31`
bytes, each with all pages allocated on the way. -/
inductive Reachable (beyond : Nat → Byte) : Heapfile P S → List (Nat × Nat) → Prop where
  | create {h : Heapfile P S} : createHeapfile P S = .ok h → h.file.bytes.length < 2147483648 →
      Reachable beyond h []
  | call {h h' : Heapfile P S} {log : List (Nat × Nat)} (c : Call) : Reachable beyond h log →
      perform beyond h c = .ok h' → h'.file.bytes.length < 2147483648 →
      Reachable beyond h' (log ++ allocations h c)

inductive BlockRef where
  | directory (dirNo : Nat)
  | entry (dirNo slotNo : Nat)

/-- The offset of a directory page or the one an entry holds. -/
def offsetOf (h : Heapfile P S) : BlockRef → Option Int
  | .directory dirNo => h.directoryBuffer[dirNo]?.map Directory.offset
  | .entry dirNo slotNo => h.directoryBuffer[dirNo]?.bind (fun dir =>
      if (slotNo : Int) < dir.nEntries then some (dir.entry slotNo).offset else none)

/-- The blocks of a heap file tile its file, the directories are chained and filled one
after the other, and the pages of `log` have their numbers in it as ids. -/
structure Tiles (h : Heapfile P S) (log : List (Nat × Nat)) : Prop where
  whole : P ∣ h.file.bytes.length
  disjoint : ∀ b b' o, offsetOf h b = some o → offsetOf h b' = some o → b = b'
  covers : ∀ o : Int, (∃ b, offsetOf h b = some o) ↔ ∃ k : Nat, k < h.file.bytes.length / P ∧ o = k * P
  linked : ∀ (d : Nat) (dir next : Directory), h.directoryBuffer[d]? = some dir →
    h.directoryBuffer[d + 1]? = some next → dir.nextDirectory = next.offset
  last : ∀ dir, h.directoryBuffer.getLast? = some dir → dir.nextDirectory = 0
  filled : ∀ (d : Nat) (dir : Directory), h.directoryBuffer[d]? = some dir →
    d + 1 < h.directoryBuffer.length → dir.nEntries = dir.capacity
  ids : ∀ (j pid off : Nat), log[j]? = some (pid, off) →
    pid = j ∧ ∃ entry, getEntry h j = .ok entry ∧ entry.value.offset = off
  all : ∀ pid, Allocated h pid ↔ pid < log.length

/-- The block an entry or a directory of a file with `c` entries in a directory is for. -/
def refOf (c : Nat) : Owner → BlockRef
  | .dir d => .directory d
  | .page j => .entry (j / c) (j % c)

theorem directory_eq (hr : Rep h pages) {d : Nat} {dir : Directory} :
    h.directoryBuffer[d]? = some dir ↔ d < numDirs (directoryCapacity P) pages.length ∧
      dir = directoryAt P (chainLink P pages.length) (chainOffset P) (entriesOf pages) d := by
  by_cases hd : d < numDirs (directoryCapacity P) pages.length
  · rw [hr.core.buffer_getElem? hd]
    simp [hd, eq_comm]
  · rw [List.getElem?_eq_none (by rw [hr.core.buffer_length]; omega)]
    simp [hd]

theorem entry_page (hp : 1001 < P) (hr : Rep h pages) {j : Nat} (hj : j < pages.length) :
    (directoryAt P (chainLink P pages.length) (chainOffset P) (entriesOf pages)
      (j / directoryCapacity P)).entry (j % directoryCapacity P) =
      ⟨blockOffset P (.page j), fixedLenPageFreeslots pages[j]⟩ :=
  entry_directoryAt hr.core.fits (capacity_bounds hp hr.core.size).1
    (entriesOf_getElem? (List.getElem?_eq_getElem hj))

theorem offsetOf_eq_some (hp : 1001 < P) (hr : Rep h pages) {b : BlockRef} {o : Int} :
    offsetOf h b = some o ↔ ∃ w ∈ layout (directoryCapacity P) pages.length,
      refOf (directoryCapacity P) w = b ∧ (blockOffset P w : Int) = o := by
  have hc := (capacity_bounds hp hr.core.size).1
  have hP := hr.core.size
  constructor
  · intro ho
    cases b with
    | directory d =>
      obtain ⟨dir, hdir, rfl⟩ := Option.map_eq_some_iff.mp ho
      obtain ⟨hd, rfl⟩ := (directory_eq hr).mp hdir
      exact ⟨.dir d, dir_mem_layout.mpr hd, rfl, rfl⟩
    | entry d i =>
      obtain ⟨dir, hdir, hent⟩ := Option.bind_eq_some_iff.mp ho
      obtain ⟨hd, rfl⟩ := (directory_eq hr).mp hdir
      split at hent
      case isFalse => cases hent
      case isTrue hi =>
        rw [nEntries_directoryAt hP, entriesOf_length] at hi
        have hlt : i < directoryCapacity P := by omega
        have hj : d * directoryCapacity P + i < pages.length := by omega
        have hdiv : (d * directoryCapacity P + i) / directoryCapacity P = d := by
          rw [Nat.mul_comm, Nat.mul_add_div hc, Nat.div_eq_of_lt hlt, Nat.add_zero]
        have hmod : (d * directoryCapacity P + i) % directoryCapacity P = i := by
          rw [Nat.mul_comm, Nat.mul_add_mod, Nat.mod_eq_of_lt hlt]
        have hentry := entry_page hp hr hj
        rw [hdiv, hmod] at hentry
        refine ⟨.page (d * directoryCapacity P + i), page_mem_layout.mpr hj, ?_, ?_⟩
        · rw [refOf, hdiv, hmod]
        · rw [hentry] at hent
          exact Option.some.inj hent
  · rintro ⟨w, hw, rfl, rfl⟩
    cases w with
    | dir d =>
      have hdir := (directory_eq hr).mpr ⟨dir_mem_layout.mp hw, rfl⟩
      exact Option.map_eq_some_iff.mpr ⟨_, hdir, rfl⟩
    | page j =>
      have hj := page_mem_layout.mp hw
      have hdir := (directory_eq hr).mpr ⟨dir_lt hj, rfl⟩
      refine Option.bind_eq_some_iff.mpr ⟨_, hdir, ?_⟩
      rw [if_pos ((lt_nEntries_iff hp hP j).mpr (by rwa [entriesOf_length])), entry_page hp hr hj]

/-- The pages of a heap file with `n` pages in the order of their allocation. -/
def pageLog (P n : Nat) : List (Nat × Nat) :=
  (List.range n).map (fun j => (j, blockOffset P (.page j)))

theorem pageLog_length (P n : Nat) : (pageLog P n).length = n := by simp [pageLog]

theorem pageLog_succ (P n : Nat) :
    pageLog P (n + 1) = pageLog P n ++ [(n, blockOffset P (.page n))] := by
  simp [pageLog, List.range_succ]

theorem position_inj {n : Nat} {w w' : Owner} (hw : w ∈ layout (directoryCapacity P) n)
    (hw' : w' ∈ layout (directoryCapacity P) n)
    (he : position (directoryCapacity P) w = position (directoryCapacity P) w') : w = w' := by
  have h1 := layout_position hw
  rw [he, layout_position hw'] at h1
  exact (Option.some.inj h1).symm

theorem blockOffset_inj (hp : 0 < P) {n : Nat} {w w' : Owner} (hw : w ∈ layout (directoryCapacity P) n)
    (hw' : w' ∈ layout (directoryCapacity P) n) (he : blockOffset P w = blockOffset P w') : w = w' :=
  position_inj hw hw' (Nat.eq_of_mul_eq_mul_right hp he)

theorem tiles_of_rep (hp : 1001 < P) (hr : Rep h pages) : Tiles h (pageLog P pages.length) := by
  have hP := hr.core.size
  have hpos : 0 < P := by omega
  have hlen := hr.core.bytes_length
  have hlink : ∀ d, (directoryAt P (chainLink P pages.length) (chainOffset P) (entriesOf pages) d).nextDirectory =
      chainLink P pages.length d := fun d =>
    nextDirectory_image (chainLink_inRange (hlen ▸ hr.bound) d)
  apply Tiles.mk
  case whole => exact ⟨_, hlen.trans (Nat.mul_comm _ _)⟩
  case disjoint =>
    intro b b' o hb hb'
    obtain ⟨w, hw, rfl, ho⟩ := (offsetOf_eq_some hp hr).mp hb
    obtain ⟨w', hw', rfl, ho'⟩ := (offsetOf_eq_some hp hr).mp hb'
    rw [blockOffset_inj hpos hw hw' (Int.ofNat.inj (ho.trans ho'.symm))]
  case covers =>
    intro o
    rw [hlen, Nat.mul_div_cancel _ hpos]
    constructor
    · rintro ⟨b, hb⟩
      obtain ⟨w, hw, -, rfl⟩ := (offsetOf_eq_some hp hr).mp hb
      exact ⟨_, position_lt hw, by simp [blockOffset]⟩
    · rintro ⟨k, hk, rfl⟩
      have hmem := List.getElem_mem hk
      have hpk : position (directoryCapacity P) (layout (directoryCapacity P) pages.length)[k] = k :=
        (List.Nodup.getElem_inj_iff (layout_nodup _)).mp
          (List.getElem?_eq_some_iff.mp (layout_position hmem)).2
      exact ⟨_, (offsetOf_eq_some hp hr).mpr ⟨_, hmem, rfl, by rw [blockOffset, hpk]; push_cast; rfl⟩⟩
  case linked =>
    intro d dir next hd hn
    obtain ⟨-, rfl⟩ := (directory_eq hr).mp hd
    obtain ⟨hlt, rfl⟩ := (directory_eq hr).mp hn
    rw [hlink, chainLink, if_pos hlt]
    rfl
  case last =>
    intro dir hd
    rw [List.getLast?_eq_getElem?] at hd
    obtain ⟨-, rfl⟩ := (directory_eq hr).mp hd
    rw [hlink, chainLink, if_neg]
    rw [hr.core.buffer_length]
    omega
  case filled =>
    intro d dir hd hlt
    obtain ⟨-, rfl⟩ := (directory_eq hr).mp hd
    rw [hr.core.buffer_length, numDirs] at hlt
    have hle : (d + 1) * directoryCapacity P ≤ pages.length - 1 :=
      (Nat.mul_le_mul_right _ (Nat.lt_succ_iff.mp hlt)).trans (Nat.div_mul_le_self _ _)
    rw [Nat.succ_mul] at hle
    rw [nEntries_directoryAt hP, entriesOf_length]
    simp only [directoryAt]
    omega
  case ids =>
    intro j pid off hj
    rw [pageLog, List.getElem?_map] at hj
    obtain ⟨i, hi, he⟩ := Option.map_eq_some_iff.mp hj
    obtain ⟨hlt, rfl⟩ := List.getElem?_eq_some_iff.mp hi
    rw [List.length_range] at hlt
    rw [List.getElem_range] at he
    obtain ⟨rfl, rfl⟩ := Prod.mk.inj he
    exact ⟨rfl, _, hr.core.getEntry hp (List.getElem?_eq_getElem hlt), rfl⟩
  case all =>
    intro pid
    rw [pageLog_length]
    exact allocated_iff hp hr pid

theorem lt_of_getPage (hp : 1001 < P) (hr : Rep h pages) {pid : Nat} {r : Page P S × Heapfile P S}
    (hg : HeapFile.getPage h pid = .ok r) : pid < pages.length := by
  by_cases hpid : h.cachedPid = some pid
  · obtain ⟨hn, -⟩ | ⟨j, page, hj, -, hpage⟩ := hr.core.cache
    · simp [hpid] at hn
    · obtain rfl : pid = j := Option.some.inj (hpid ▸ hj)
      exact (List.getElem?_eq_some_iff.mp hpage).1
  · obtain ⟨file, hw, -⟩ := hr.core.writeBack hp
    rw [HeapFile.getPage, if_neg hpid, hw, ok_bind] at hg
    obtain ⟨_, _, hg⟩ := bind_eq_ok.mp hg
    obtain ⟨entry, he, _⟩ := bind_eq_ok.mp hg
    exact (allocated_iff hp hr pid).mp ⟨entry, he⟩

theorem sizes_of_allocPage (hp : 1001 < P) {r : Nat × Heapfile P S}
    (ha : HeapFile.allocPage h = .ok r) : Sizes P S := by
  obtain ⟨_, hinit, _⟩ := bind_eq_ok.mp ha
  rw [initFixedLenPage] at hinit
  split at hinit
  case isTrue hS => exact ⟨hp, hS.1, hS.2⟩
  case isFalse => cases hinit

theorem opAllocated_of_ok (hp : 1001 < P) (hr : Rep h pages) {o : Op} {r : Option Record × Heapfile P S}
    (ho : HeapSession.step beyond h o = .ok r) : OpAllocated h o := by
  cases o with
  | put rec => trivial
  | get rid n | update rid rec | delete rid =>
    obtain ⟨_, hx, _⟩ := map_eq_ok.mp ho
    obtain ⟨_, hg, _⟩ := bind_eq_ok.mp hx
    exact (allocated_iff hp hr _).mpr (lt_of_getPage hp hr hg)

theorem sizes_of_perform (hp : 1001 < P) (hr : Rep h pages) (hz : 0 < pages.length → Sizes P S)
    {c : Call} (hc : perform beyond h c = .ok h') : c = .reopen ∨ Sizes P S := by
  have hget : ∀ {pid r}, HeapFile.getPage h pid = .ok r → Sizes P S := fun hg =>
    hz (Nat.zero_lt_of_lt (lt_of_getPage hp hr hg))
  cases c with
  | reopen => exact .inl rfl
  | allocPage =>
    obtain ⟨_, ha, _⟩ := map_eq_ok.mp hc
    exact .inr (sizes_of_allocPage hp ha)
  | getPage pid =>
    obtain ⟨_, hg, _⟩ := map_eq_ok.mp hc
    exact .inr (hget hg)
  | op o =>
    obtain ⟨_, ho, _⟩ := map_eq_ok.mp hc
    cases o with
    | get rid n | update rid rec | delete rid =>
      obtain ⟨_, hx, _⟩ := map_eq_ok.mp ho
      obtain ⟨_, hg, _⟩ := bind_eq_ok.mp hx
      exact .inr (hget hg)
    | put rec =>
      obtain ⟨_, hx, _⟩ := map_eq_ok.mp ho
      obtain ⟨⟨pid, h1⟩, hf, hx⟩ := bind_eq_ok.mp hx
      unfold getFreePid at hf
      split at hf
      · obtain ⟨rfl, rfl⟩ := Prod.mk.inj (Except.ok.inj hf)
        obtain ⟨_, hg, _⟩ := bind_eq_ok.mp hx
        exact .inr (hget hg)
      · exact .inr (sizes_of_allocPage hp hf)

theorem allocation_eq (hz : Sizes P S) (hr : Rep h pages) :
    allocation h = [(pages.length, blockOffset P (.page pages.length))] := by
  obtain ⟨h1, link', off', ha, -⟩ := allocPage_core hz hr.core hr.bound
  rw [allocation, ha, hr.core.bytes_length]
  rfl

theorem allocations_put (hz : Sizes P S) (hr : Rep h pages) (rec : Record) :
    allocations h (.op (.put rec)) =
      if (firstFree pages).isSome then [] else [(pages.length, blockOffset P (.page pages.length))] := by
  rw [← allocation_eq hz hr, ← vacantPageId_eq hz hr.core, allocations]
  cases vacantPageId h <;> rfl

theorem step_pageLog (hz : Sizes P S) (hr : Rep h pages) {o : Op} {res : Option Record}
    {pages' : Pages P S} (hs : LogicalPages.step beyond pages o = .ok (res, pages')) :
    pageLog P pages'.length = pageLog P pages.length ++ allocations h (.op o) := by
  cases o with
  | get rid n =>
    simp only [LogicalPages.step] at hs
    split at hs
    · obtain ⟨r, -, he⟩ := map_eq_ok.mp hs
      obtain ⟨-, rfl⟩ := Prod.mk.inj he
      simp [allocations]
    · cases hs
  | update rid rec | delete rid =>
    obtain ⟨ps, hm, he⟩ := map_eq_ok.mp hs
    obtain ⟨-, rfl⟩ := Prod.mk.inj he
    simp [allocations, modifyPage_length hm]
  | put rec =>
    obtain ⟨ps, hput, he⟩ := map_eq_ok.mp hs
    obtain ⟨-, rfl⟩ := Prod.mk.inj he
    rw [allocations_put hz hr]
    cases hff : firstFree pages with
    | some j => simp [put_length_of_some hff hput]
    | none =>
      rw [put_length_of_none hff hput]
      exact pageLog_succ P pages.length

/-- The state after a call stands for pages again, and the pages it has allocated are the
new ones. -/
theorem perform_rep (hz : Sizes P S) (hr : Rep h pages) {c : Call}
    (hc : perform beyond h c = .ok h') (hb : h'.file.bytes.length < 2147483648) :
    ∃ pages' : Pages P S, Rep h' pages' ∧
      pageLog P pages'.length = pageLog P pages.length ++ allocations h c := by
  cases c with
  | op o =>
    obtain ⟨⟨res, h1⟩, ho, rfl⟩ := map_eq_ok.mp hc
    have hagree : Agree _ _ _ := step_refines hz hr beyond (opAllocated_of_ok hz.page hr ho)
    rw [ho] at hagree
    obtain ⟨⟨res', pages'⟩, hs, -, ht⟩ := hagree.of_ok_left
    exact ⟨pages', Tracks.rep ht (Tracks.bytes_length ht ▸ hb), step_pageLog hz hr hs⟩
  | allocPage =>
    obtain ⟨h1, link', off', ha, hc1, -, -, hstd⟩ := allocPage_core hz hr.core hr.bound
    obtain ⟨r, ha', rfl⟩ := map_eq_ok.mp hc
    obtain rfl : r = (pages.length, h1) := Except.ok.inj (ha'.symm.trans ha)
    refine ⟨pages ++ [Page.blank P S], ⟨?_, hb⟩, ?_⟩
    · rw [List.length_append]
      exact hstd (Nat.lt_add_right P hb) rfl rfl
    · rw [allocations, allocation_eq hz hr, List.length_append]
      exact pageLog_succ P pages.length
  | getPage pid =>
    obtain ⟨r, hg, rfl⟩ := map_eq_ok.mp hc
    have hlt := lt_of_getPage hz.page hr hg
    obtain ⟨h1, hg1, hc1, -, -⟩ := hr.core.getPage hz (List.getElem?_eq_getElem hlt)
    obtain rfl : r = (pages[pid], h1) := Except.ok.inj (hg.symm.trans hg1)
    exact ⟨pages, Rep.of_core hr hc1 rfl, by simp [allocations]⟩
  | reopen =>
    obtain ⟨h1, he, hr1⟩ := reopen_rep hz.page hr
    obtain rfl : h1 = h' := Except.ok.inj (he.symm.trans hc)
    exact ⟨pages, hr1, by simp [allocations]⟩

theorem createHeapfile_page (h0 : createHeapfile P S = .ok h) : 1001 < P := by
  by_contra hp
  simp [createHeapfile, initHeapfile, hp] at h0

/-- Every reachable state stands for pages, and they are the pages allocated on the way. -/
theorem Reachable.rep {log : List (Nat × Nat)} (hreach : Reachable beyond h log) :
    1001 < P ∧ ∃ pages : Pages P S, Rep h pages ∧ log = pageLog P pages.length ∧
      (0 < pages.length → Sizes P S) := by
  induction hreach with
  | @create h h0 hb =>
    have hp := createHeapfile_page h0
    have hP : P < 2147483648 := by
      rw [createHeapfile_eq hp] at h0
      rw [← Except.ok.inj h0] at hb
      exact blank_image_length hp ▸ hb
    obtain ⟨h1, he, hr, -⟩ := createHeapfile_rep (S := S) hp hP
    obtain rfl : h1 = h := Except.ok.inj (he.symm.trans h0)
    exact ⟨hp, [], hr, rfl, fun hlt => absurd hlt (Nat.lt_irrefl 0)⟩
  | @call h h' log c _ hc hb ih =>
    obtain ⟨hp, pages, hr, rfl, hz⟩ := ih
    obtain rfl | hz' := sizes_of_perform hp hr hz hc
    · obtain ⟨h1, he, hr1⟩ := reopen_rep hp hr
      obtain rfl : h1 = h' := Except.ok.inj (he.symm.trans hc)
      exact ⟨hp, pages, hr1, by simp [allocations], hz⟩
    · obtain ⟨pages', hr', hlog⟩ := perform_rep hz' hr hc hb
      exact ⟨hp, pages', hr', hlog.symm, fun _ => hz'⟩

/-- In every state the blocks tile the file, the directories form a chain, and the page
allocated as number `j` has the id `j`. -/
theorem blocks_tile {log : List (Nat × Nat)} (hreach : Reachable beyond h log) : Tiles h log := by
  obtain ⟨hp, pages, hr, rfl, -⟩ := hreach.rep
  exact tiles_of_rep hp hr

theorem blocks_tile_alloc : ∃ h : Heapfile 1002 10,
    Reachable (fun _ => 0) h [(0, 1002)] ∧ Tiles h [(0, 1002)] := by
  have hz : Sizes 1002 10 := ⟨by decide, by decide, by decide⟩
  obtain ⟨h0, he, hr, -⟩ := createHeapfile_rep (S := 10) hz.page (by decide)
  obtain ⟨h1, link', off', ha, hc1, -⟩ := allocPage_core hz hr.core hr.bound
  have hreach : Reachable (fun _ => 0) h1 ([] ++ allocations h0 .allocPage) := by
    refine .call .allocPage (.create he hr.bound) (by rw [perform, ha]; rfl) ?_
    rw [hc1.bytes_length]
    decide
  rw [allocations, allocation_eq hz hr] at hreach
  exact ⟨h1, hreach, blocks_tile hreach⟩

end RecordStore.BlockTiling
