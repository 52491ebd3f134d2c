import RecordStore.BlockTiling
import RecordStore.PartialOrbit

namespace RecordStore.OpeningFiles

open RecordStore.Splice RecordStore.CFile RecordStore.Int32 RecordStore.Outcome
open RecordStore.DirectoryPage RecordStore.HeapFile RecordStore.PageLayout RecordStore.HeapImage
open RecordStore.HeapAlloc RecordStore.LogicalPages RecordStore.HeapReopen RecordStore.BlockTiling
open RecordStore.PartialOrbit

variable {P S : Nat} {bytes : List Byte} {h : Heapfile P S} {offset : Int} {n pos : Nat}

def linkAt (bytes : List Byte) (pos : Nat) : Int := readInt bytes pos

/-- A block of `P` bytes can be read at `pos`. -/
def Whole (P : Nat) (bytes : List Byte) (pos : Nat) : Prop := pos + P ≤ bytes.length

instance (P : Nat) (bytes : List Byte) (pos : Nat) : Decidable (Whole P bytes pos) :=
  inferInstanceAs (Decidable (_ ≤ _))

/-- Where the directory after the one at `pos` is read. The seek to a negative
link is refused, and the next block is read in its place. -/
def follow (P pos : Nat) (link : Int) : Nat := if link < 0 then pos + P else link.toNat

def nextPos (P : Nat) (bytes : List Byte) (pos : Nat) : Option Nat :=
  if Whole P bytes pos ∧ linkAt bytes pos ≠ 0 then some (follow P pos (linkAt bytes pos)) else none

/-- Where directory `n` is read when a file of these bytes is opened. -/
def chain (P : Nat) (bytes : List Byte) (n : Nat) : Option Nat := orbit (nextPos P bytes) 0 n

/-- The offset directory `n` is given: what the link to it says. -/
def offsetAt (P : Nat) (bytes : List Byte) : Nat → Int
  | 0 => 0
  | n + 1 => ((chain P bytes n).map (linkAt bytes)).getD 0

/-- Opening the file ends, with the error of `read_block` or with no more
directories than the file has pages, all at different offsets. -/
def OpensWell (P S : Nat) (bytes : List Byte) : Prop :=
  ∃ fuel r, (∀ more, openHeapfile P S (fuel + more) bytes = r) ∧
    (r = .error .exit ∨ ∃ h, r = .ok h ∧ h.directoryBuffer.length ≤ bytes.length / P ∧
      (h.directoryBuffer.map Directory.offset).Nodup)

def EndsAfter (P : Nat) (bytes : List Byte) (n : Nat) : Prop :=
  ∃ pos, chain P bytes n = some pos ∧ Whole P bytes pos ∧ linkAt bytes pos = 0

/-- The links in the file lead along a chain that comes to no place twice. If it comes
to a last directory, its blocks laid side by side fit into the file, and no negative
link stands in two of them. -/
structure LinksSound (P : Nat) (bytes : List Byte) : Prop where
  noCycle : Simple (nextPos P bytes) 0
  fits : ∀ n, EndsAfter P bytes n → (n + 1) * P ≤ bytes.length
  refused : ∀ n, EndsAfter P bytes n → ∀ i j x y, i < j → j < n → chain P bytes i = some x →
    chain P bytes j = some y → linkAt bytes x < 0 → linkAt bytes x ≠ linkAt bytes y

theorem fseekSet_pos (f : File) (offset : Int) :
    (fseekSet f offset).pos = if offset < 0 then f.pos else offset.toNat := by
  unfold fseekSet
  split <;> rfl

theorem linkAt_append (a rest : List Byte) (next : Int) (entries : List Entry) (hn : InRange next) :
    linkAt (a ++ (directoryImage P next entries ++ rest)) a.length = next := by
  rw [linkAt, directoryImage, List.append_assoc]
  exact readInt_append a _ hn

theorem nextPos_eq_some (hw : Whole P bytes pos) (hl : linkAt bytes pos ≠ 0) :
    nextPos P bytes pos = some (follow P pos (linkAt bytes pos)) := if_pos ⟨hw, hl⟩

theorem nextPos_some {q : Nat} (h : nextPos P bytes pos = some q) :
    Whole P bytes pos ∧ linkAt bytes pos ≠ 0 ∧ q = follow P pos (linkAt bytes pos) := by
  unfold nextPos at h
  split at h
  case isTrue hc => exact ⟨hc.1, hc.2, (Option.some.inj h).symm⟩
  case isFalse => cases h

theorem chain_succ (hn : chain P bytes n = some pos) :
    chain P bytes (n + 1) = nextPos P bytes pos := by
  rw [chain, orbit_succ, ← chain, hn, Option.bind_some]

theorem offsetAt_succ (hn : chain P bytes n = some pos) : offsetAt P bytes (n + 1) = linkAt bytes pos := by
  rw [offsetAt, hn, Option.map_some, Option.getD_some]

theorem chain_before {i : Nat} (hn : chain P bytes n = some pos) (hi : i < n) :
    ∃ x y, chain P bytes i = some x ∧ chain P bytes (i + 1) = some y ∧ nextPos P bytes x = some y := by
  obtain ⟨x, hx⟩ := orbit_some_of_le hn hi.le
  obtain ⟨y, hy⟩ := orbit_some_of_le hn (Nat.succ_le_of_lt hi)
  exact ⟨x, y, hx, hy, step_of_succ hx hy⟩

theorem endsAfter_or_outside (h : Ends (nextPos P bytes) 0) :
    ∃ n, EndsAfter P bytes n ∨ ∃ pos, chain P bytes n = some pos ∧ ¬ Whole P bytes pos := by
  obtain ⟨n, pos, hpos, hnone⟩ := h.last
  refine ⟨n, ?_⟩
  by_cases hw : Whole P bytes pos
  · refine .inl ⟨pos, hpos, hw, ?_⟩
    by_contra hl
    cases (nextPos_eq_some hw hl).symm.trans hnone
  · exact .inr ⟨pos, hpos, hw⟩

theorem offsets_nodup (hs : Simple (nextPos P bytes) 0) (hn : chain P bytes n = some pos) :
    ((List.range (n + 1)).map (offsetAt P bytes)).Nodup ↔
      ∀ i j x y, i < j → j < n → chain P bytes i = some x → chain P bytes j = some y →
        linkAt bytes x < 0 → linkAt bytes x ≠ linkAt bytes y := by
  rw [List.nodup_map_iff_inj_on List.nodup_range]
  simp only [List.mem_range]
  constructor
  · intro hinj i j x y hij hj hx hy _ heq
    have := hinj (i + 1) (by omega) (j + 1) (by omega) (by rw [offsetAt_succ hx, offsetAt_succ hy, heq])
    omega
  · intro href
    -- the first offset is 0, which is no link of the chain
    have hlink (i : Nat) (hi : i < n) : ∃ x y, chain P bytes i = some x ∧
        chain P bytes (i + 1) = some y ∧ offsetAt P bytes (i + 1) = linkAt bytes x ∧
        linkAt bytes x ≠ 0 ∧ y = follow P x (linkAt bytes x) := by
      obtain ⟨x, y, hx, hy, hxy⟩ := chain_before hn hi
      obtain ⟨-, hl, hf⟩ := nextPos_some hxy
      exact ⟨x, y, hx, hy, offsetAt_succ hx, hl, hf⟩
    intro i hi j hj heq
    cases i with
    | zero =>
      cases j with
      | zero => rfl
      | succ j =>
        obtain ⟨x, -, -, -, hoff, hl, -⟩ := hlink j (by omega)
        exact absurd (hoff.symm.trans heq.symm) hl
    | succ i =>
      obtain ⟨x, x', hx, hx', hoff, hl, hf⟩ := hlink i (by omega)
      cases j with
      | zero => exact absurd (hoff.symm.trans heq) hl
      | succ j =>
        obtain ⟨y, y', hy, hy', hoff', -, hf'⟩ := hlink j (by omega)
        rw [hoff, hoff'] at heq
        by_cases hneg : linkAt bytes x < 0
        · obtain hlt | hij | hgt := Nat.lt_trichotomy i j
          · exact absurd heq (href i j x y hlt (by omega) hx hy hneg)
          · rw [hij]
          · exact absurd heq.symm (href j i y x hgt (by omega) hy hx (heq ▸ hneg))
        · -- two positive links that are the same lead to the same place
          have hplace : x' = y' := by rw [hf, hf', follow, follow, ← heq, if_neg hneg, if_neg hneg]
          exact hs (i + 1) (j + 1) x' hx' (hplace ▸ hy')

theorem readBlock_whole (hb : h.file.bytes = bytes) (hpos : (fseekSet h.file offset).pos = pos)
    (hw : Whole P bytes pos) :
    ∃ block : { bs : List Byte // bs.length = P }, block.1 = slice bytes pos P ∧
      readBlock h offset = .ok (block, { h with file := ⟨bytes, pos + P⟩ }) := by
  subst hb hpos
  exact ⟨⟨_, slice_length_of_le hw⟩, rfl, readBlock_slice rfl (slice_length_of_le hw)⟩

theorem readBlock_partial (hp : 0 < P) (hb : h.file.bytes = bytes)
    (hpos : (fseekSet h.file offset).pos = pos) (hw : ¬ Whole P bytes pos) :
    readBlock h offset = .error .exit := by
  have hbytes : (fseekSet h.file offset).bytes = bytes := (fseekSet_bytes ..).trans hb
  have hlen : (slice bytes pos P).length ≠ P := by
    unfold Whole at hw
    rw [slice_length]
    omega
  simp only [readBlock, fread, hbytes, hpos, dif_neg hlen]

/-- One round of the loop: a directory more in the buffer, and the stream behind its block. -/
theorem openLoop_round (hp : 1001 < P) (hb : h.file.bytes = bytes)
    (hpos : (fseekSet h.file offset).pos = pos) (hw : Whole P bytes pos) :
    ∃ h' : Heapfile P S, h'.file = ⟨bytes, pos + P⟩ ∧
      h'.directoryBuffer.map Directory.offset = h.directoryBuffer.map Directory.offset ++ [offset] ∧
      ∀ fuel, openLoop (fuel + 1) h offset =
        if linkAt bytes pos ≠ 0 then openLoop fuel h' (linkAt bytes pos) else .ok h' := by
  obtain ⟨block, hblock, hread⟩ := readBlock_whole hb hpos hw
  have hinit := initDirectoryPage_eq (show 16 ≤ P by omega) offset
  have hlink (c : Nat) : Directory.nextDirectory ⟨c, block.1, offset⟩ = linkAt bytes pos := by
    rw [Directory.nextDirectory, hblock, readInt, slice_slice _ (by omega)]
    rfl
  refine ⟨{ h with
    file := ⟨bytes, pos + P⟩
    directoryBuffer := h.directoryBuffer ++ [⟨directoryCapacity P, block.1, offset⟩] },
    rfl, ?_, fun fuel => ?_⟩
  · rw [List.map_append, List.map_singleton]
  · rw [openLoop_of hinit hread, hlink]

structure Before (bytes : List Byte) (n : Nat) (h : Heapfile P S) (offset : Int) : Prop where
  file : h.file.bytes = bytes
  here : chain P bytes n = some (fseekSet h.file offset).pos
  offsets : h.directoryBuffer.map Directory.offset ++ [offset] = (List.range (n + 1)).map (offsetAt P bytes)

theorem openHeapfile_before (hp : 1001 < P) (hn : chain P bytes n = some pos) :
    ∃ (h : Heapfile P S) (offset : Int), Before bytes n h offset ∧
      ∀ fuel, openHeapfile P S (n + fuel) bytes = openLoop fuel h offset := by
  induction n generalizing pos with
  | zero =>
    refine ⟨⟨⟨bytes, 0⟩, [], none, none, false⟩, 0, ⟨rfl, rfl, rfl⟩, fun fuel => ?_⟩
    rw [openHeapfile, initHeapfile, if_pos hp, ok_bind, Nat.zero_add]
  | succ n ih =>
    obtain ⟨x, y, hx, hy, hxy⟩ := chain_before hn n.lt_succ_self
    obtain ⟨hw, hl, hf⟩ := nextPos_some hxy
    obtain ⟨h, offset, hbefore, hopen⟩ := ih hx
    have hpos : (fseekSet h.file offset).pos = x := Option.some.inj (hbefore.here.symm.trans hx)
    obtain ⟨h', hfile, hoffs, hround⟩ := openLoop_round hp hbefore.file hpos hw
    refine ⟨h', linkAt bytes x, ⟨?_, ?_, ?_⟩, fun fuel => ?_⟩
    · rw [hfile]
    · rw [hy, hf, fseekSet_pos, hfile]
      rfl
    · rw [hoffs, hbefore.offsets, List.range_succ (n := n + 1), List.map_append, List.map_singleton,
        offsetAt_succ hx]
    · rw [Nat.add_assoc, Nat.add_comm 1, hopen, hround, if_pos hl]

theorem openHeapfile_exit (hp : 1001 < P) (hn : chain P bytes n = some pos) (hw : ¬ Whole P bytes pos)
    (fuel : Nat) : openHeapfile P S (n + 1 + fuel) bytes = .error .exit := by
  obtain ⟨h, offset, hbefore, hopen⟩ := openHeapfile_before (S := S) hp hn
  have hpos : (fseekSet h.file offset).pos = pos := Option.some.inj (hbefore.here.symm.trans hn)
  rw [Nat.add_assoc, Nat.add_comm 1, hopen, openLoop, initDirectoryPage_eq (by omega), ok_bind,
    readBlock_partial (by omega) hbefore.file hpos hw, error_bind]

theorem openHeapfile_ok (hp : 1001 < P) (hn : EndsAfter P bytes n) :
    ∃ h : Heapfile P S, (∀ fuel, openHeapfile P S (n + 1 + fuel) bytes = .ok h) ∧
      h.directoryBuffer.map Directory.offset = (List.range (n + 1)).map (offsetAt P bytes) := by
  obtain ⟨pos, hn, hw, hl⟩ := hn
  obtain ⟨h, offset, hbefore, hopen⟩ := openHeapfile_before (S := S) hp hn
  have hpos : (fseekSet h.file offset).pos = pos := Option.some.inj (hbefore.here.symm.trans hn)
  obtain ⟨h', -, hoffs, hround⟩ := openLoop_round hp hbefore.file hpos hw
  refine ⟨h', fun fuel => ?_, hoffs.trans hbefore.offsets⟩
  rw [Nat.add_assoc, Nat.add_comm 1, hopen, hround, if_neg (not_not_intro hl)]

theorem openHeapfile_outOfFuel (hp : 1001 < P) (hends : ¬ Ends (nextPos P bytes) 0) (fuel : Nat) :
    openHeapfile P S fuel bytes = .error .outOfFuel := by
  obtain ⟨pos, hn⟩ := Option.ne_none_iff_exists'.mp (not_exists.mp hends fuel)
  obtain ⟨h, offset, -, hopen⟩ := openHeapfile_before (S := S) hp hn
  exact hopen 0

theorem OpensWell.ends (hp : 1001 < P) (h : OpensWell P S bytes) : Ends (nextPos P bytes) 0 := by
  by_contra hnot
  obtain ⟨fuel, r, hopen, hr⟩ := h
  have hout := (hopen 0).symm.trans (openHeapfile_outOfFuel (S := S) hp hnot fuel)
  obtain hr | ⟨h, hr, -⟩ := hr <;> cases hr.symm.trans hout

theorem linksSound_iff_of_aligned (hp : 0 < P)
    (ha : ∀ n x, chain P bytes n = some x → Whole P bytes x →
      ∃ k : Nat, linkAt bytes x = (k * P : Nat)) :
    LinksSound P bytes ↔ Simple (nextPos P bytes) 0 := by
  refine ⟨LinksSound.noCycle, fun hs => ⟨hs, ?_, ?_⟩⟩
  · rintro n ⟨pos, hpos, hw, -⟩
    have hplace (i : Nat) (hi : i < n + 1) : ∃ x ∈ (Finset.range (bytes.length / P)).image (· * P),
        orbit (nextPos P bytes) 0 i = some x := by
      obtain ⟨x, hx⟩ := orbit_some_of_le hpos (Nat.le_of_lt_succ hi)
      have hwx : Whole P bytes x := by
        obtain hlt | rfl := Nat.lt_or_eq_of_le (Nat.le_of_lt_succ hi)
        · obtain ⟨x', y, hx', -, hxy⟩ := chain_before hpos hlt
          obtain rfl : x' = x := Option.some.inj (hx'.symm.trans hx)
          exact (nextPos_some hxy).1
        · exact Option.some.inj (hpos.symm.trans hx) ▸ hw
      have hmul : ∃ k, x = k * P := by
        cases i with
        | zero => exact ⟨0, by rw [Nat.zero_mul]; exact (Option.some.inj hx).symm⟩
        | succ i =>
          obtain ⟨z, y, hz, hy, hzy⟩ := chain_before (n := i + 1) hx i.lt_succ_self
          obtain ⟨hwz, -, hf⟩ := nextPos_some hzy
          obtain ⟨k, hk⟩ := ha i z hz hwz
          refine ⟨k, (Option.some.inj (hx.symm.trans hy)).trans (hf.trans ?_)⟩
          rw [follow, hk, if_neg (by omega), Int.toNat_natCast]
      obtain ⟨k, rfl⟩ := hmul
      refine ⟨k * P, Finset.mem_image.mpr ⟨k, Finset.mem_range.mpr ?_, rfl⟩, hx⟩
      rw [← Nat.succ_le_iff, Nat.le_div_iff_mul_le hp, Nat.succ_mul]
      exact hwx
    rw [← Nat.le_div_iff_mul_le hp]
    exact (hs.length_le hplace).trans (Finset.card_image_le.trans (Finset.card_range _).le)
  · rintro n ⟨pos, hpos, -⟩ i j x y hij hj hx - hneg
    obtain ⟨x', _, hx', -, hxy⟩ := chain_before hpos (hij.trans hj)
    obtain rfl : x' = x := Option.some.inj (hx'.symm.trans hx)
    obtain ⟨k, hk⟩ := ha i x' hx (nextPos_some hxy).1
    omega

/-- Opening a file ends as it should exactly when the links in the file are sound. -/
theorem opensWell_iff (hp : 1001 < P) (bytes : List Byte) : OpensWell P S bytes ↔ LinksSound P bytes := by
  have hdiv (n : Nat) : n + 1 ≤ bytes.length / P ↔ (n + 1) * P ≤ bytes.length :=
    Nat.le_div_iff_mul_le (by omega)
  constructor
  · rintro ⟨fuel, r, hopen, hr⟩
    have hends : Ends (nextPos P bytes) 0 := OpensWell.ends hp ⟨fuel, r, hopen, hr⟩
    have hlast (n : Nat) (hn : EndsAfter P bytes n) : n + 1 ≤ bytes.length / P ∧
        ((List.range (n + 1)).map (offsetAt P bytes)).Nodup := by
      obtain ⟨h, hok, hoffs⟩ := openHeapfile_ok (S := S) hp hn
      have hres := (hopen (n + 1)).symm.trans (Nat.add_comm (n + 1) fuel ▸ hok fuel)
      obtain hr | ⟨h', hr, hlen, hnodup⟩ := hr
      · cases hr.symm.trans hres
      · obtain rfl : h' = h := Except.ok.inj (hr.symm.trans hres)
        have hcount := congrArg List.length hoffs
        rw [List.length_map, List.length_map, List.length_range] at hcount
        exact ⟨hcount ▸ hlen, hoffs ▸ hnodup⟩
    refine ⟨hends.simple, fun n hn => (hdiv n).mp (hlast n hn).1, fun n hn => ?_⟩
    obtain ⟨pos, hpos, -⟩ := id hn
    exact (offsets_nodup hends.simple hpos).mp (hlast n hn).2
  · intro hsound
    have hends : Ends (nextPos P bytes) 0 := hsound.noCycle.ends (s := Finset.range (bytes.length + 1))
      (fun y z hyz => by
        have hw : y + P ≤ bytes.length := (nextPos_some hyz).1
        rw [Finset.mem_range]
        omega)
    obtain ⟨n, hn | ⟨pos, hpos, hw⟩⟩ := endsAfter_or_outside hends
    · obtain ⟨h, hok, hoffs⟩ := openHeapfile_ok (S := S) hp hn
      obtain ⟨pos, hpos, -⟩ := id hn
      have hcount := congrArg List.length hoffs
      rw [List.length_map, List.length_map, List.length_range] at hcount
      refine ⟨n + 1, .ok h, hok, .inr ⟨h, rfl, ?_, ?_⟩⟩
      · rw [hcount, hdiv]
        exact hsound.fits n hn
      · rw [hoffs, offsets_nodup hsound.noCycle hpos]
        exact hsound.refused n hn
    · exact ⟨n + 1, .error .exit, openHeapfile_exit hp hpos hw, .inl rfl⟩

/-- A single directory without entries, as `create_heapfile` leaves it. -/
theorem opensWell_iff_blank : OpensWell 1002 10 (List.replicate 1002 0) := by
  have hlen : (List.replicate 1002 (0 : Byte)).length = 1002 := List.length_replicate
  have hl : linkAt (List.replicate 1002 0) 0 = 0 := by
    rw [← directoryImage_nil (by decide)]
    exact readInt_append [] _ (by decide)
  have hends : Ends (nextPos 1002 (List.replicate 1002 0)) 0 :=
    ⟨1, (chain_succ (orbit_zero _ _)).trans (if_neg (fun h => h.2 hl))⟩
  refine (opensWell_iff (by decide) _).mpr ((linksSound_iff_of_aligned (by decide) ?_).mpr hends.simple)
  intro n x _ hw
  rw [Whole, hlen] at hw
  obtain rfl : x = 0 := by omega
  exact ⟨0, hl⟩

def selfLinked : List Byte := directoryImage 1002 1002 [] ++ (directoryImage 1002 1002 [] ++ [])

theorem opensWell_selfLinked : ¬ OpensWell 1002 1000 selfLinked := by
  have hblock : (directoryImage 1002 1002 []).length = 1002 := directoryImage_length _ (by decide)
  have hlen : selfLinked.length = 2004 := by
    rw [selfLinked, List.length_append, List.append_nil, hblock]
  have h0 : linkAt selfLinked 0 = 1002 := linkAt_append [] _ _ [] (by decide)
  have h1 : linkAt selfLinked 1002 = 1002 := by
    have h := linkAt_append (P := 1002) (directoryImage 1002 1002 []) [] 1002 [] (by decide)
    rwa [hblock] at h
  have hnext (pos : Nat) (hpos : pos ≤ 1002) (hl : linkAt selfLinked pos = 1002) :
      nextPos 1002 selfLinked pos = some 1002 := by
    have hw : Whole 1002 selfLinked pos := by
      rw [Whole, hlen]
      omega
    rw [nextPos_eq_some hw (by rw [hl]; decide), follow, hl]
    rfl
  have hfirst : chain 1002 selfLinked 1 = some 1002 :=
    (chain_succ (orbit_zero _ _)).trans (hnext 0 (by decide) h0)
  have hsecond : chain 1002 selfLinked 2 = some 1002 := (chain_succ hfirst).trans (hnext 1002 le_rfl h1)
  exact fun h => not_ends_of_again hfirst hsecond (by decide) (h.ends (by decide))

theorem openHeapfile_settles (hp : 1001 < P) {k : Nat}
    (hopen : ∀ more, ∃ h : Heapfile P S, openHeapfile P S (k + more) bytes = .ok h) :
    ∃ (fuel : Nat) (h : Heapfile P S), ∀ more, openHeapfile P S (fuel + more) bytes = .ok h := by
  have hends : Ends (nextPos P bytes) 0 := by
    by_contra hnot
    obtain ⟨h, hok⟩ := hopen 0
    cases (openHeapfile_outOfFuel hp hnot k).symm.trans hok
  obtain ⟨n, hn | ⟨pos, hpos, hw⟩⟩ := endsAfter_or_outside hends
  · obtain ⟨h, hok, -⟩ := openHeapfile_ok hp hn
    exact ⟨n + 1, h, hok⟩
  · obtain ⟨h, hok⟩ := hopen (n + 1)
    rw [Nat.add_comm, openHeapfile_exit hp hpos hw] at hok
    cases hok

theorem opensWell_closedFile (pages : Pages P S) (hp : 1001 < P) (hP : P < 2147483648)
    (hsmall : (closedFile pages).length < 2147483648) : OpensWell P S (closedFile pages) := by
  have hlen := closedFile_length pages hp hP
  have hpos : 0 < P := by omega
  obtain ⟨k, hk⟩ : ∃ k, numDirs (directoryCapacity P) pages.length = k + 1 := ⟨_, rfl⟩
  have hopen (more : Nat) : ∃ h : Heapfile P S,
      openHeapfile P S (k + 1 + more) (closedFile pages) = .ok h ∧
      h.directoryBuffer = (List.range (k + 1)).map (chainDirectory pages) := by
    obtain ⟨file, -, hloop⟩ := openLoop_chain hp hP (hlen ▸ hsmall) k (k + 1 + more) 0
      (⟨⟨closedFile pages, 0⟩, [], none, none, false⟩ : Heapfile P S) (by omega) (by omega) rfl rfl
    rw [Nat.zero_add] at hloop
    refine ⟨_, Eq.trans ?_ hloop, rfl⟩
    rw [openHeapfile, initHeapfile, if_pos hp, ok_bind, chainOffset_zero]
  obtain ⟨fuel, h, hok⟩ := openHeapfile_settles hp (fun more => (hopen more).imp (fun _ => And.left))
  obtain ⟨h', hok', hdirs⟩ := hopen fuel
  obtain rfl : h' = h := Except.ok.inj (hok'.symm.trans (Nat.add_comm fuel (k + 1) ▸ hok (k + 1)))
  refine ⟨fuel, .ok h', hok, .inr ⟨h', rfl, ?_, ?_⟩⟩
  · rw [hdirs, List.length_map, List.length_range, hlen, Nat.mul_div_cancel _ hpos, ← hk]
    exact numDirs_le_layout _ _
  · rw [hdirs, List.map_map, List.nodup_map_iff_inj_on List.nodup_range]
    intro d hd e he heq
    rw [List.mem_range, ← hk] at hd he
    exact Owner.dir.inj (blockOffset_inj hpos (dir_mem_layout.mpr hd) (dir_mem_layout.mpr he)
      (Int.ofNat.inj heq))

end RecordStore.OpeningFiles
