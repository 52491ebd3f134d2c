import RecordStore.BulkLoad
import RecordStore.Scanning

namespace RecordStore.PackedScan

open RecordStore.Outcome RecordStore.FixedRecord RecordStore.FixedPage RecordStore.PageSlots
open RecordStore.DirectoryPage RecordStore.HeapFile RecordStore.PageLayout RecordStore.DirectoryChain
open RecordStore.HeapImage RecordStore.HeapAlloc RecordStore.LogicalPages RecordStore.HeapRefinement
open RecordStore.HeapReopen RecordStore.HeapRuns RecordStore.HeapContents RecordStore.RecordIterator
open RecordStore.IteratorScan RecordStore.PackedPages RecordStore.BulkLoad RecordStore.Scanning

variable {P S : Nat} {h : Heapfile P S} {pages : Pages P S} {recs : List Record}
  {bytes : List CFile.Byte}

/-- A heap file of `n` records stays below `2 ^ 31` bytes, and its last directory has room. -/
structure RoomFor (P S n : Nat) : Prop where
  bytes : (pageCount P S n + dirCount P S n) * P < 2147483648
  room : ¬ LastFull (directoryCapacity P) (pageCount P S n)

theorem RoomFor.size {n : Nat} (hfit : RoomFor P S n) : P < 2147483648 := by
  refine lt_of_le_of_lt (Nat.le_mul_of_pos_left P ?_) hfit.bytes
  exact Nat.add_pos_right _ (Nat.lt_of_lt_of_le Nat.zero_lt_one (Nat.le_max_left _ _))

theorem RoomFor.fileLength_lt {n m : Nat} (hp : 1001 < P) (hfit : RoomFor P S n) (hle : m ≤ n) :
    fileLength P (pageCount P S m) < 2147483648 := by
  have hmono : fileLength P (pageCount P S m) ≤ fileLength P (pageCount P S n) := by
    apply fileLength_mono
    exact Nat.div_le_div_right (by omega)
  refine lt_of_le_of_lt hmono ?_
  rw [fileLength_eq, numDirs_eq (capacity_bounds hp hfit.size).1]
  exact hfit.bytes

/-- An open heap file with these records in it, in their order and without a gap. -/
def Loaded (h : Heapfile P S) (recs : List Record) : Prop := ∃ pages, Rep h pages ∧ Packed pages recs

/-- A closed one. -/
def Saved (P S : Nat) (bytes : List CFile.Byte) (recs : List Record) : Prop :=
  ∃ pages : Pages P S, bytes = closedFile pages ∧ Packed pages recs ∧ fileLength P pages.length < 2147483648

theorem createHeapfile_loaded (hz : Sizes P S) (hP : P < 2147483648) :
    ∃ h : Heapfile P S, createHeapfile P S = .ok h ∧ Loaded h [] := by
  obtain ⟨h, he, hr, -⟩ := createHeapfile_rep (S := S) hz.page hP
  exact ⟨h, he, [], hr, Packed.nil (capacity_pos hz.slotPos hz.slotLt)⟩

theorem Loaded.put (hz : Sizes P S) (hl : Loaded h recs) (rec : Record) (hrec : rec.length = S / attributeSize)
    (hb : fileLength P (pageCount P S (recs.length + 1)) < 2147483648) :
    ∃ h', putRecord h rec = .ok h' ∧ Loaded h' (recs ++ [rec]) := by
  obtain ⟨pages, hr, hp⟩ := hl
  obtain ⟨pages', hput, hp'⟩ := hp.put hz hrec
  have hagree := put_agree hz hr rec
  rw [hput] at hagree
  obtain ⟨h', hx, ht⟩ := hagree.of_ok_right
  refine ⟨h', hx, pages', Tracks.rep ht ?_, hp'⟩
  rw [hp'.count, List.length_append]
  exact hb

theorem Loaded.close (hz : Sizes P S) (hl : Loaded h recs) :
    ∃ bytes, closeHeapfile h = .ok bytes ∧ Saved P S bytes recs := by
  obtain ⟨pages, hr, hp⟩ := hl
  exact ⟨_, closeHeapfile_eq hz.page hr, pages, rfl, hp, Rep.fileLength_lt hr⟩

theorem Saved.reopened (hz : Sizes P S) (hP : P < 2147483648) (hs : Saved P S bytes recs) :
    ∃ h : Heapfile P S, openHeapfile P S (bytes.length / P + 1) bytes = .ok h ∧ Loaded h recs := by
  obtain ⟨pages, rfl, hp, hlen⟩ := hs
  have hbound : (closedFile pages).length < 2147483648 := by rwa [closedFile_length pages hz.page hP]
  obtain ⟨h, he, hr, -⟩ := openHeapfile_closedFile (S := S) hz.page hP hbound
  exact ⟨h, he, pages, hr, hp⟩

section Delivers

variable {I : Heapfile P S → Prop}

/-- The next calls of `next` deliver these records, whatever memory holds behind the pages and with
attributes of that memory after those of the slot, and then there is no more. The heap file keeps `I`. -/
def Delivers (I : Heapfile P S → Prop) : List Record → Iterator P S → Prop
  | [], it => it.hasNext = false ∧ I it.heapfile
  | record :: rest, it => it.hasNext = true ∧ I it.heapfile ∧ ∃ it', Delivers I rest it' ∧
      ∀ beyond, ∃ tail, next beyond it = .ok (record ++ tail, it')

theorem Delivers.keeps {rest : List Record} {it : Iterator P S} (hd : Delivers I rest it) :
    I it.heapfile := by
  cases rest with
  | nil => exact hd.2
  | cons record rest => exact hd.2.1

/-- A loop over the iterator: what it makes of no records, and what a round adds. A round may leave
the loop, and then the iterator is the one behind its record. -/
theorem Delivers.loop {β : Type} {record : Nat → Record} {out : List Nat → β}
    {loop : (Nat → Nat → CFile.Byte) → Nat → Iterator P S → Except Fault (β × Iterator P S)}
    (hdone : ∀ beyond fuel it, it.hasNext = false → loop beyond (fuel + 1) it = .ok (out [], it))
    (rows : List Nat)
    (hround : ∀ i ∈ rows, ∀ rest beyond fuel it it1 it' tail, it.hasNext = true →
      next (beyond 0) it = .ok (record i ++ tail, it1) →
      loop (fun k => beyond (k + 1)) fuel it1 = .ok (out rest, it') →
      loop beyond (fuel + 1) it = .ok (out (i :: rest), it') ∨
        loop beyond (fuel + 1) it = .ok (out (i :: rest), it1)) :
    ∀ beyond fuel it, Delivers I (rows.map record) it → rows.length < fuel →
      ∃ it', loop beyond fuel it = .ok (out rows, it') ∧ I it'.heapfile := by
  induction rows with
  | nil =>
    intro beyond fuel it hd hfuel
    obtain ⟨fuel, rfl⟩ := Nat.exists_eq_succ_of_ne_zero (Nat.ne_zero_of_lt hfuel)
    exact ⟨it, hdone beyond fuel it hd.1, hd.2⟩
  | cons i rows ih =>
    intro beyond fuel it hd hfuel
    obtain ⟨fuel, rfl⟩ := Nat.exists_eq_succ_of_ne_zero (Nat.ne_zero_of_lt hfuel)
    obtain ⟨hnext, -, it1, hd1, hread⟩ := hd
    obtain ⟨tail, hx⟩ := hread (beyond 0)
    obtain ⟨it', hrest, hI⟩ := ih (fun j hj => hround j (List.mem_cons_of_mem _ hj))
      (fun k => beyond (k + 1)) fuel it1 hd1 (Nat.lt_of_succ_lt_succ hfuel)
    obtain heq | heq := hround i (List.mem_cons_self ..) rows beyond fuel it it1 it' tail hnext hx hrest
    · exact ⟨it', heq, hI⟩
    · exact ⟨it1, heq, hd1.keeps⟩

def slotContents (pages : Pages P S) (q : Nat × Nat) : Record := (contentsOf pages ⟨q.1, q.2⟩).getD []

theorem recordAt_append (beyond : Nat → CFile.Byte) (hw : S / attributeSize ≤ 100) {page : Page P S}
    {q t : Nat} (hq : pages[q]? = some page) (ht : t < fixedLenPageCapacity P S)
    (hf : page.filled t = true) :
    ∃ tail, recordAt beyond pages (q, t) = slotContents pages (q, t) ++ tail := by
  obtain ⟨tail, hread⟩ := readFixedLenPage_append beyond page ht hw
  refine ⟨tail, ?_⟩
  rw [slotContents, contentsOf, hq, Option.bind_some, pageContents_natCast page ht, if_pos hf]
  simp only [recordAt, hq, hread]
  rfl

theorem delivers_from (hz : Sizes P S) (hw : S / attributeSize ≤ 100) (hI : ∀ h, Rep h pages → I h)
    (hroom : ¬ LastFull (directoryCapacity P) pages.length) (rest : List (Nat × Nat)) :
    ∀ (q t : Nat) (page : Page P S) (h : Heapfile P S), Rep h pages → pages[q]? = some page →
      t < fixedLenPageCapacity P S → page.filled t = true → lives pages q t = rest →
      Delivers I (((q, t) :: rest).map (slotContents pages)) ⟨h, q, t, true⟩ := by
  induction rest with
  | nil =>
    intro q t page h hr hq ht hf hl
    obtain ⟨r, hland, hnext⟩ := next_wide hz hw t true hr (List.getElem?_eq_some_iff.mp hq).1
    rw [hl] at hland
    obtain ⟨it, rfl, hfalse, hr'⟩ := hland.2 hroom
    refine ⟨rfl, hI h hr, it, ⟨hfalse, hI _ hr'⟩, fun beyond => ?_⟩
    obtain ⟨tail, htail⟩ := recordAt_append beyond hw hq ht hf
    exact ⟨tail, by rw [hnext beyond, htail]; rfl⟩
  | cons p rest ih =>
    intro q t page h hr hq ht hf hl
    obtain ⟨q', t'⟩ := p
    obtain ⟨r, hland, hnext⟩ := next_wide hz hw t true hr (List.getElem?_eq_some_iff.mp hq).1
    rw [hl] at hland
    obtain ⟨h1, rfl, hr1⟩ := hland
    obtain ⟨hrest, page', hq', ht', hf'⟩ := lives_cons hl
    refine ⟨rfl, hI h hr, _, ih q' t' page' h1 hr1 hq' ht' hf' hrest.symm, fun beyond => ?_⟩
    obtain ⟨tail, htail⟩ := recordAt_append beyond hw hq ht hf
    exact ⟨tail, by rw [hnext beyond, htail]; rfl⟩

theorem delivers_new (hz : Sizes P S) (hw : S / attributeSize ≤ 100) (hI : ∀ h, Rep h pages → I h)
    (hroom : ¬ LastFull (directoryCapacity P) pages.length) (hr : Rep h pages) :
    ∃ it, Iterator.new true h = .ok it ∧ Delivers I ((lives pages 0 (-1)).map (slotContents pages)) it := by
  obtain ⟨hl, it, he, hfalse, hr'⟩ | ⟨q, t, h1, page, hl, he, hr1, hq, ht, hf⟩ := new_cases hz true hr hroom
  · rw [hl]
    exact ⟨it, he, hfalse, hI _ hr'⟩
  · rw [hl]
    exact ⟨_, he, delivers_from hz hw hI hroom _ q t page h1 hr1 hq ht hf rfl⟩

end Delivers

theorem place_lt {c i j : Nat} (hlt : i < j) : i / c < j / c ∨ i / c = j / c ∧ i % c < j % c := by
  obtain hdiv | hdiv := (Nat.div_le_div_right (c := c) hlt.le).lt_or_eq
  · exact .inl hdiv
  · refine .inr ⟨hdiv, ?_⟩
    have hi := Nat.div_add_mod i c
    have hj := Nat.div_add_mod j c
    rw [hdiv] at hi
    omega

theorem lives_packed (hz : Sizes P S) (hp : Packed pages recs) :
    lives pages 0 (-1) = (List.range recs.length).map
      (fun i => (i / fixedLenPageCapacity P S, i % fixedLenPageCapacity P S)) := by
  have hanti : Std.Antisymm (fun a b : Nat × Nat => a.1 < b.1 ∨ a.1 = b.1 ∧ a.2 < b.2) :=
    ⟨fun a b hab hba => absurd hab (by omega)⟩
  have hirrefl : Std.Irrefl (fun a b : Nat × Nat => a.1 < b.1 ∨ a.1 = b.1 ∧ a.2 < b.2) :=
    ⟨fun a => by omega⟩
  refine (lives_sorted 0 (-1)).eq_of_mem_iff ?_ ?_
  · rw [List.pairwise_map]
    exact List.Pairwise.imp place_lt List.pairwise_lt_range
  · rintro ⟨q, t⟩
    rw [mem_lives_iff, List.mem_map]
    constructor
    · intro hlive
      obtain ⟨rec, hrec⟩ := Option.ne_none_iff_exists'.mp hlive
      obtain ⟨i, r, hi, hrid, -⟩ := (packed_contents hz hp _ _).mp hrec
      obtain ⟨rfl, ht⟩ := RecordID.mk.inj hrid
      exact ⟨i, List.mem_range.mpr (List.getElem?_eq_some_iff.mp hi).1, by rw [Int.ofNat.inj ht]⟩
    · rintro ⟨i, hi, hplace⟩
      obtain ⟨rfl, rfl⟩ := Prod.mk.inj hplace
      have hget := List.getElem?_eq_getElem (List.mem_range.mp hi)
      rw [(packed_contents hz hp _ _).mpr ⟨i, _, hget, rfl, rfl⟩]
      simp

theorem slotContents_packed (hz : Sizes P S) (hp : Packed pages recs) {i : Nat} {r : Record}
    (hi : recs[i]? = some r) :
    slotContents pages (i / fixedLenPageCapacity P S, i % fixedLenPageCapacity P S) = stored r := by
  rw [slotContents, (packed_contents hz hp _ _).mpr ⟨i, r, hi, rfl, rfl⟩]
  rfl

/-- In the order of the places, the records are those that were put, cut to their fields. -/
theorem lives_slotContents (hz : Sizes P S) (hp : Packed pages recs) :
    (lives pages 0 (-1)).map (slotContents pages) = recs.map stored := by
  rw [lives_packed hz hp, List.map_map]
  apply List.ext_getElem?
  intro i
  rw [List.getElem?_map, List.getElem?_map]
  cases hi : recs[i]? with
  | none => simpa using List.getElem?_eq_none_iff.mp hi
  | some r =>
    have hlt := (List.getElem?_eq_some_iff.mp hi).1
    rw [List.getElem?_range hlt, Option.map_some, Option.map_some, Function.comp_apply,
      slotContents_packed hz hp hi]

/-- A scan of a loaded heap file delivers its records as they were put, cut to their fields. -/
theorem Loaded.delivers (hz : Sizes P S) (hw : S / attributeSize ≤ 100)
    (hroom : ¬ LastFull (directoryCapacity P) (pageCount P S recs.length)) (hl : Loaded h recs) :
    ∃ it, Iterator.new true h = .ok it ∧ Delivers (fun h => Loaded h recs) (recs.map stored) it := by
  obtain ⟨pages, hr, hp⟩ := hl
  obtain ⟨it, he, hd⟩ := delivers_new (I := fun h => Loaded h recs) hz hw (fun h hr => ⟨pages, hr, hp⟩)
    (by rwa [hp.count]) hr
  rw [lives_slotContents hz hp] at hd
  exact ⟨it, he, hd⟩

end RecordStore.PackedScan
