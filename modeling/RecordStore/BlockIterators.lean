import RecordStore.BlockReading
import RecordStore.KeySeparators

namespace RecordStore.BlockIterators

open RecordStore.CFile RecordStore.Outcome RecordStore.Coding RecordStore.ThreeWay RecordStore.Cursors RecordStore.Blocks
open RecordStore.BlockReading

variable {compare : List Byte → List Byte → Int} {pieces : List Piece} {points : List Nat} {data : List Byte}
  {it : BlockIter} {i : Nat}

section Loops

def PlacedAt (pieces : List Piece) (points : List Nat) (data : List Byte) (it : BlockIter) (i : Nat) : Prop :=
  AtEntry pieces points data it i ∨ (i = pieces.length ∧ Ended pieces points data it)

theorem PlacedAt.block (h : PlacedAt pieces points data it i) : Over pieces points data it :=
  h.elim AtEntry.block fun h => h.2.block

theorem PlacedAt.le (h : PlacedAt pieces points data it i) : i ≤ pieces.length := by
  obtain h | ⟨rfl, -⟩ := h
  · obtain ⟨e, he, -⟩ := h.entry
    exact (List.getElem?_eq_some_iff.mp he).1.le
  · exact le_rfl

theorem PlacedAt.atEntry (h : PlacedAt pieces points data it i) (hi : i < pieces.length) :
    AtEntry pieces points data it i := by
  obtain h | ⟨rfl, -⟩ := h
  · exact h
  · exact absurd hi (lt_irrefl _)

theorem parse_placed (h : Before pieces points data it i) (hi : Image pieces points data) (hle : i ≤ pieces.length) :
    ∃ parsed it', it.parseNextKey = .ok (parsed, it') ∧ parsed = decide (i < pieces.length) ∧
      PlacedAt pieces points data it' i := by
  obtain rfl | hlt := hle.eq_or_lt
  · obtain ⟨it', hparse, hended⟩ := h.parse_end
    exact ⟨false, it', hparse, (decide_eq_false (lt_irrefl _)).symm, .inr ⟨rfl, hended⟩⟩
  · obtain ⟨it', hparse, hat⟩ := h.parse hi (List.getElem?_eq_getElem hlt)
    exact ⟨true, it', hparse, (decide_eq_true hlt).symm, .inl hat⟩

theorem parseTo_spec (h : Before pieces points data it i) (hi : Image pieces points data) {j fuel : Nat} (hij : i ≤ j)
    (hj : j < pieces.length) (hfuel : j < i + fuel) :
    ∃ it', it.parseTo (offset pieces (j + 1)) fuel = .ok it' ∧ AtEntry pieces points data it' j := by
  induction fuel generalizing it i with
  | zero => omega
  | succ fuel ih =>
    have he := List.getElem?_eq_getElem (show i < pieces.length by omega)
    obtain ⟨it', hparse, hat⟩ := h.parse hi he
    rw [BlockIter.parseTo, hparse, ok_bind]
    simp only [true_and, hat.next,
      offset_lt_iff (show i + 1 ≤ pieces.length by omega) (show j + 1 ≤ pieces.length by omega)]
    split
    · exact ih (hat.before hi) (by omega) (by omega)
    · obtain rfl : i = j := by omega
      exact ⟨it', rfl, hat⟩

/-- The linear search ends at the first entry from the `i`-th one on that is not before the target. -/
theorem seekLoop_spec (compare : List Byte → List Byte → Int) (h : Before pieces points data it i)
    (hi : Image pieces points data) (target : List Byte) (hle : i ≤ pieces.length) {fuel : Nat}
    (hfuel : pieces.length < i + fuel) :
    ∃ j it', it.seekLoop compare target fuel = .ok it' ∧ PlacedAt pieces points data it' j ∧
      (∀ k e, i ≤ k → k < j → pieces[k]? = some e → compare e.key target < 0) ∧
      ∀ e, pieces[j]? = some e → ¬ compare e.key target < 0 := by
  induction fuel generalizing it i with
  | zero => omega
  | succ fuel ih =>
    obtain ⟨parsed, it', hparse, rfl, hplaced⟩ := parse_placed h hi hle
    have hstop : ∀ k e, i ≤ k → k < i → pieces[k]? = some e → compare e.key target < 0 :=
      fun k _ h1 h2 _ => by omega
    rw [BlockIter.seekLoop, hparse, ok_bind]
    simp only [decide_eq_true_eq]
    by_cases hlt : i < pieces.length
    · have hat := hplaced.atEntry hlt
      obtain ⟨e, he, hkey, -⟩ := hat.entry
      by_cases hbefore : compare e.key target < 0
      · obtain ⟨j, it'', hseek, hplaced', hpassed, hfirst⟩ := ih (hat.before hi) hlt (by omega)
        refine ⟨j, it'', by rw [if_pos ⟨hlt, hkey ▸ hbefore⟩, hseek], hplaced', fun k e' hk hkj he' => ?_, hfirst⟩
        obtain rfl | hk := hk.eq_or_lt
        · exact Option.some.inj (he.symm.trans he') ▸ hbefore
        · exact hpassed k e' hk hkj he'
      · refine ⟨i, it', by rw [if_neg fun h => hbefore (hkey ▸ h.2)], hplaced, hstop, fun e' he' => ?_⟩
        exact Option.some.inj (he.symm.trans he') ▸ hbefore
    · refine ⟨i, it', by rw [if_neg fun h => hlt h.1], hplaced, hstop, fun e he => ?_⟩
      exact absurd (List.getElem?_eq_some_iff.mp he).1 hlt

theorem restartBefore_spec (h : Over pieces points data it) (hi : Image pieces points data) (hle : i ≤ pieces.length)
    {index : Nat} (hindex : index < points.length) :
    (i = 0 ∧ it.restartBefore (offset pieces i) index = .ok none) ∨
      ∃ index' r, it.restartBefore (offset pieces i) index = .ok (some index') ∧ points[index']? = some r ∧ r < i := by
  have hr : ∀ index < points.length, ∃ r, points[index]? = some r ∧ r ≤ pieces.length := by
    intro index hindex
    refine ⟨_, List.getElem?_eq_getElem hindex, ?_⟩
    obtain h | h := hi.layout.bound _ (List.getElem_mem hindex) <;> omega
  induction index with
  | zero =>
    have hzero : i ≠ 0 → 0 < i := Nat.pos_of_ne_zero
    rw [BlockIter.restartBefore, h.getRestartPoint hi hi.layout.head, ok_bind, offset_zero]
    by_cases h0 : i = 0
    · exact .inl ⟨h0, if_pos (by rw [h0, offset_zero])⟩
    · have hlt : offset pieces 0 < offset pieces i := offset_lt (hzero h0) hle
      rw [offset_zero] at hlt
      exact .inr ⟨0, 0, if_neg (by omega), hi.layout.head, hzero h0⟩
  | succ index ih =>
    obtain ⟨r, hr, hrle⟩ := hr _ hindex
    rw [BlockIter.restartBefore, h.getRestartPoint hi hr, ok_bind]
    split
    · exact ih (by omega)
    · rename_i hlt
      exact .inr ⟨index + 1, r, rfl, hr, (offset_lt_iff hrle hle).mp (Nat.not_le.mp hlt)⟩

theorem restart_entry (hi : Image pieces points data) {index : Nat} (hpos : 0 < index) (hindex : index < points.length) :
    ∃ r e, points[index]? = some r ∧ pieces[r]? = some e ∧ e.shared = 0 := by
  have hr := List.getElem?_eq_getElem hindex
  have hlt : 0 < points[index] := lt_of_sorted hi.layout.sorted hi.layout.head hr hpos
  obtain hbound | h0 := hi.layout.bound _ (List.getElem_mem hindex)
  · have he := List.getElem?_eq_getElem hbound
    exact ⟨_, _, hr, he, hi.layout.restart _ (List.getElem_mem hindex) _ he⟩
  · omega

/-- The binary search ends at the first restart point or at one whose key is before the target. -/
theorem searchLoop_spec (compare : List Byte → List Byte → Int) (h : Over pieces points data it)
    (hi : Image pieces points data) (target : List Byte)
    {left right fuel : Nat} (hlr : left ≤ right) (hright : right < points.length) (hfuel : right < left + fuel)
    (hleft : left = 0 ∨ ∃ r e, points[left]? = some r ∧ pieces[r]? = some e ∧ compare e.key target < 0) :
    ∃ index < points.length, it.searchLoop compare target fuel left right = .ok (some index) ∧
      (index = 0 ∨ ∃ r e, points[index]? = some r ∧ pieces[r]? = some e ∧ compare e.key target < 0) := by
  induction fuel generalizing left right with
  | zero => omega
  | succ fuel ih =>
    rw [BlockIter.searchLoop]
    split
    · rename_i hlt
      obtain ⟨mid, hmid⟩ : ∃ n, (left + right + 1) / 2 = n := ⟨_, rfl⟩
      obtain ⟨r, e, hr, he, hshared⟩ := restart_entry hi (show 0 < mid by omega) (show mid < points.length by omega)
      obtain ⟨header, rest, tail, hbytes, hdrop, hlen, hdata⟩ := hi.split he
      have hdecode := decodeEntry_bytes (hi.layout.follows he).le_key (hi.entries e (List.mem_of_getElem? he)) rest
      rw [hshared, List.drop_zero] at hbytes hlen hdata hdecode
      rw [Nat.sub_zero] at hdecode
      have hstart : (content pieces).length - (e.key ++ (e.value ++ rest)).length = offset pieces r + header.length := by
        rw [List.length_append, List.length_append]
        omega
      have hsize := hi.length
      simp only [hmid, h.getRestartPoint hi hr, ok_bind, h.data, h.restarts, hdrop, hdecode, hstart, hdata, List.take_left]
      rw [if_pos (by omega)]
      split
      · rename_i hbefore
        exact ih (by omega) hright (by omega) (.inr ⟨r, e, hr, he, hbefore⟩)
      · exact ih (by omega) (by omega) (by omega) hleft
    · exact ⟨left, by omega, rfl, hleft⟩

end Loops

section Walks

theorem length_le_content (pieces : List Piece) : pieces.length ≤ (content pieces).length := by
  induction pieces with
  | nil => exact le_rfl
  | cons e pieces ih =>
    have hpos : 3 ≤ e.bytes.length := entryBytes_pos _ _ _
    have hcons : content (e :: pieces) = e.bytes ++ content pieces := rfl
    rw [hcons, List.length_append, List.length_cons]
    omega

theorem fuel_enough (hi : Image pieces points data) : pieces.length < data.length + 1 := by
  have := length_le_content pieces
  have := hi.length
  omega

theorem seekToFirst_spec (h : Over pieces points data it) (hi : Image pieces points data) :
    ∃ it', it.seekToFirst = .ok it' ∧ PlacedAt pieces points data it' 0 := by
  obtain ⟨start, hstart, hbefore⟩ := h.seekToRestartPoint hi hi.layout.head
  obtain ⟨parsed, it', hparse, -, hplaced⟩ := parse_placed hbefore hi (Nat.zero_le _)
  refine ⟨it', ?_, hplaced⟩
  rw [BlockIter.seekToFirst, hstart, ok_bind, hparse]
  rfl

theorem seekToLast_spec (h : Over pieces points data it) (hi : Image pieces points data) :
    ∃ it', it.seekToLast = .ok it' ∧ PlacedAt pieces points data it' (pieces.length - 1) := by
  have hpos := hi.points_pos
  have hr := List.getElem?_eq_getElem (show points.length - 1 < points.length by omega)
  obtain ⟨start, hstart, hbefore⟩ := h.seekToRestartPoint hi hr
  have hbound := hi.layout.bound _ (List.mem_of_getElem? hr)
  have hfuel := fuel_enough hi
  rw [BlockIter.seekToLast, h.numRestarts, hstart, ok_bind, hbefore.block.restarts, hbefore.block.data]
  obtain hnil | hlt := Nat.eq_zero_or_pos pieces.length
  · -- a block without entries has one restart point, at its end
    obtain rfl := List.length_eq_zero_iff.mp hnil
    obtain hlt | h0 := hbound
    · cases hlt
    · rw [h0] at hbefore
      obtain ⟨it', hparse, hended⟩ := hbefore.parse_end
      refine ⟨it', ?_, .inr ⟨rfl, hended⟩⟩
      rw [BlockIter.parseTo, hparse, ok_bind]
      exact if_neg fun h => Bool.noConfusion h.1
  · obtain ⟨it', hparse, hat⟩ := parseTo_spec hbefore hi (show points[points.length - 1] ≤ pieces.length - 1 by omega)
      (by omega) (show pieces.length - 1 < points[points.length - 1] + (data.length + 1) by omega)
    rw [show pieces.length - 1 + 1 = pieces.length by omega, offset_length] at hparse
    exact ⟨it', hparse, .inl hat⟩

theorem next_spec (h : AtEntry pieces points data it i) (hi : Image pieces points data) :
    ∃ it', it.next = .ok it' ∧ PlacedAt pieces points data it' (i + 1) := by
  obtain ⟨e, he, -⟩ := h.entry
  obtain ⟨parsed, it', hparse, -, hplaced⟩ := parse_placed (h.before hi) hi (List.getElem?_eq_some_iff.mp he).1
  refine ⟨it', ?_, hplaced⟩
  rw [BlockIter.next, h.valid, if_pos rfl, hparse]
  rfl

theorem prev_spec (h : AtEntry pieces points data it i) (hi : Image pieces points data) :
    ∃ it', it.prev = .ok it' ∧ PlacedAt pieces points data it' (if i = 0 then pieces.length else i - 1) := by
  obtain ⟨e, he, -⟩ := h.entry
  have hlt := (List.getElem?_eq_some_iff.mp he).1
  have hfuel := fuel_enough hi
  rw [BlockIter.prev, h.valid, if_pos rfl, h.current, h.block.data]
  obtain ⟨rfl, hnone⟩ | ⟨index, r, hsome, hr, hri⟩ := restartBefore_spec h.block hi hlt.le h.index
  · rw [hnone, ok_bind, if_pos rfl]
    exact ⟨_, rfl, .inr ⟨rfl, ⟨rfl, h.block.restarts, h.block.numRestarts, h.block.intact⟩, h.block.restarts⟩⟩
  · obtain ⟨start, hstart, hbefore⟩ := h.block.seekToRestartPoint hi hr
    obtain ⟨it', hparse, hat⟩ := parseTo_spec hbefore hi (show r ≤ i - 1 by omega) (by omega)
      (show i - 1 < r + (data.length + 1) by omega)
    rw [show i - 1 + 1 = i by omega] at hparse
    rw [hsome, ok_bind, if_neg (show i ≠ 0 by omega)]
    simp only [hstart, ok_bind]
    exact ⟨it', hparse, .inl hat⟩

variable {p : List Byte → Prop}

theorem seek_spec (ho : Orders p compare) (h : Over pieces points data it) (hi : Image pieces points data)
    (hp : ∀ e ∈ pieces, p e.key) (hsorted : (pieces.map pairOf).Pairwise fun e e' => compare e.1 e'.1 < 0)
    {target : List Byte} (htarget : p target) :
    ∃ it', it.seek compare target = .ok it' ∧
      PlacedAt pieces points data it' ((pieces.map pairOf).findIdx fun e => !decide (compare e.1 target < 0)) := by
  have hpos := hi.points_pos
  obtain ⟨index, hindex, hsearch, hbefore⟩ := searchLoop_spec compare h hi target (Nat.zero_le _)
    (show points.length - 1 < points.length by omega) (show points.length - 1 < 0 + (points.length + 1) by omega) (.inl rfl)
  have hr := List.getElem?_eq_getElem hindex
  have hrle : points[index] ≤ pieces.length := by
    obtain h | h := hi.layout.bound _ (List.getElem_mem hindex) <;> omega
  obtain ⟨start, hstart, hstarts⟩ := h.seekToRestartPoint hi hr
  have hfuel := fuel_enough hi
  obtain ⟨j, it', hseek, hplaced, hpassed, hfirst⟩ :=
    seekLoop_spec compare hstarts hi target hrle (show pieces.length < points[index] + (data.length + 1) by omega)
  have hkeys : pieces.Pairwise fun e e' => compare e.key e'.key < 0 := List.pairwise_map.mp hsorted
  -- the entries in front of the restart point are before the target, since its own key is
  have hskipped : ∀ k e, k < points[index] → pieces[k]? = some e → compare e.key target < 0 := by
    intro k e hk he
    obtain rfl | ⟨r, e', hr', he', hlt⟩ := hbefore
    · have h0 := Option.some.inj (hr.symm.trans hi.layout.head)
      omega
    · obtain rfl := Option.some.inj (hr.symm.trans hr')
      exact ho.lt_of_le_of_lt (hp e (List.mem_of_getElem? he)) (hp e' (List.mem_of_getElem? he')) htarget
        (lt_of_sorted hkeys he he' hk).le hlt
  have hfound : (pieces.map pairOf).findIdx (fun e => !decide (compare e.1 target < 0)) = j := by
    apply findIdx_eq_of
    · rw [List.length_map]
      exact hplaced.le
    · intro k a hk ha
      rw [List.getElem?_map] at ha
      obtain ⟨e, he, rfl⟩ := Option.map_eq_some_iff.mp ha
      obtain hlt | hge := Nat.lt_or_ge k points[index]
      · exact congrArg not (decide_eq_true (hskipped k e hlt he))
      · exact congrArg not (decide_eq_true (hpassed k e hge hk he))
    · intro a ha
      rw [List.getElem?_map] at ha
      obtain ⟨e, he, rfl⟩ := Option.map_eq_some_iff.mp ha
      exact congrArg not (decide_eq_false (hfirst e he))
  refine ⟨it', ?_, hfound ▸ hplaced⟩
  rw [BlockIter.seek, h.numRestarts, hsearch, ok_bind]
  simp only [hstart, ok_bind, h.data]
  exact hseek

def SamePlace (pieces : List Piece) (points : List Nat) (data : List Byte) (iter : BlockIterator)
    (s : List (List Byte × List Byte) × Nat) : Prop :=
  s.1 = pieces.map pairOf ∧ ∃ it, iter = .block it ∧ PlacedAt pieces points data it s.2

theorem block_walks (ho : Orders p compare) (hi : Image pieces points data) (hp : ∀ e ∈ pieces, p e.key)
    (hsorted : (pieces.map pairOf).Pairwise fun e e' => compare e.1 e'.1 < 0) :
    ∃ At : BlockIterator → Option (List Byte × List Byte) → Prop,
      (∃ iter, (Block.new data).newIterator = .ok iter ∧ At iter none) ∧
      (∀ iter o, At iter o → iter.corrupt = false) ∧
      KeyWalks (blockIterator compare) compare p { e | e ∈ pieces.map pairOf } At := by
  have hkey : ∀ e ∈ pieces.map pairOf, p e.1 := by
    intro e he
    obtain ⟨piece, hpiece, rfl⟩ := List.mem_map.mp he
    exact hp piece hpiece
  have hlist := entries_walks ho hkey hsorted Fault.assertFailed
  have hlen : (pieces.map pairOf).length = pieces.length := List.length_map _
  have hwalks : KeyWalks (blockIterator compare) compare p { e | e ∈ pieces.map pairOf } _ :=
    hlist.simulated (fun _ hk => hk) (SamePlace pieces points data) ?valid ?entry ?call
  case valid =>
    rintro _ ⟨_, i⟩ ⟨rfl, it, rfl, hplaced⟩
    obtain hat | ⟨heq, hended⟩ := hplaced
    · obtain ⟨e, he, -⟩ := hat.entry
      exact hat.valid.trans (decide_eq_true (hlen ▸ (List.getElem?_eq_some_iff.mp he).1)).symm
    · exact hended.invalid.trans (decide_eq_false (by simp only [hlen]; omega)).symm
  case entry =>
    rintro _ ⟨_, i⟩ a ⟨rfl, it, rfl, hplaced⟩ ha
    cases he : pieces[i]? with
    | none =>
      simp only [listCursor, List.getElem?_map, he, Option.map_none] at ha
      cases ha
    | some e =>
      simp only [listCursor, List.getElem?_map, he, Option.map_some] at ha
      cases ha
      exact (hplaced.atEntry (List.getElem?_eq_some_iff.mp he).1).entry_eq hi he
  case call =>
    rintro op _ ⟨_, i⟩ s' htarget ⟨rfl, it, rfl, hplaced⟩ hs
    cases op with
    | seekToFirst =>
      cases hs
      obtain ⟨it', hseek, hplaced'⟩ := seekToFirst_spec hplaced.block hi
      exact ⟨.block it', by simp [Cursor.call, blockIterator, BlockIterator.step, hseek], rfl, it', rfl, hplaced'⟩
    | seekToLast =>
      cases hs
      obtain ⟨it', hseek, hplaced'⟩ := seekToLast_spec hplaced.block hi
      refine ⟨.block it', by simp [Cursor.call, blockIterator, BlockIterator.step, hseek], rfl, it', rfl, ?_⟩
      cases pieces with
      | nil => exact hplaced'
      | cons e pieces => rwa [hlen]
    | seek k =>
      cases hs
      obtain ⟨it', hseek, hplaced'⟩ := seek_spec ho hplaced.block hi hp hsorted (htarget k rfl)
      exact ⟨.block it', by simp [Cursor.call, blockIterator, BlockIterator.step, hseek], rfl, it', rfl, hplaced'⟩
    | next =>
      simp only [Cursor.call, listCursor, hlen] at hs
      split at hs
      · rename_i hlt
        cases hs
        obtain ⟨it', hnext, hplaced'⟩ := next_spec (hplaced.atEntry hlt) hi
        exact ⟨.block it', by simp [Cursor.call, blockIterator, hnext], rfl, it', rfl, hplaced'⟩
      · cases hs
    | prev =>
      simp only [Cursor.call, listCursor, hlen] at hs
      split at hs
      · rename_i hlt
        cases hs
        obtain ⟨it', hprev, hplaced'⟩ := prev_spec (hplaced.atEntry hlt) hi
        exact ⟨.block it', by simp [Cursor.call, blockIterator, hprev], rfl, it', rfl, hplaced'⟩
      · cases hs
  refine ⟨_, ⟨_, hi.newIterator, (pieces.map pairOf, pieces.length), ⟨rfl, _, rfl, ?_⟩, rfl, ?_⟩, ?_, hwalks⟩
  · rintro _ o ⟨s, ⟨-, it, rfl, hplaced⟩, -⟩
    exact hplaced.block.intact
  · exact .inr ⟨rfl, ⟨rfl, rfl, rfl, rfl⟩, rfl⟩
  · rw [List.getElem?_eq_none hlen.le]

theorem Rep.finish {restartInterval : Nat} {b : BlockBuilder} (h : Rep restartInterval b pieces points)
    (hsize : ((pieces.map pairOf).map entrySize).sum + 8 < 4294967296) : Image pieces points b.finish.buffer := by
  have hcontent := content_length_le pieces
  have hpoints := h.layout.points_length
  have hrestarts := restarts_length pieces points
  have hbuffer : b.finish.buffer =
      content pieces ++ ((points.map fun r => encodeFixed32 (offset pieces r)).flatten ++ encodeFixed32 points.length) := by
    rw [BlockBuilder.finish, h.buffer, h.restarts, List.map_map, List.length_map, Nat.mod_eq_of_lt (by omega)]
    rfl
  refine ⟨h.layout, hbuffer, ?_, fun e he => ?_⟩
  · rw [hbuffer, List.length_append, List.length_append, hrestarts, encodeFixed32, encodeFixed_length]
    omega
  · have hle := List.single_le_sum (l := (pieces.map pairOf).map entrySize) (fun _ _ => Nat.zero_le _)
      (entrySize (pairOf e)) (List.mem_map_of_mem (List.mem_map_of_mem he))
    simp only [entrySize, pairOf] at hle hsize
    omega

/-- Entries in order that are put into a block are found in it by any calls, whatever the keys share and wherever the
restart points are, and the iterator finds no error in it. -/
theorem blocks_read_back (ho : Orders p compare) {restartInterval : Nat} (hinterval : 1 ≤ restartInterval)
    {entries : List (List Byte × List Byte)} (hp : ∀ e ∈ entries, p e.1)
    (hsorted : entries.Pairwise fun e e' => compare e.1 e'.1 < 0) (hsize : (entries.map entrySize).sum + 8 < 4294967296)
    {ops : List (Call (List Byte))} {o : Option (List Byte × List Byte)}
    (hmoves : Moves (fun a b => compare a.1 b.1 < 0) (fun a k => compare a.1 k < 0) p { e | e ∈ entries } none ops o) :
    ∃ b iter iter', BlockBuilder.new.adds compare restartInterval entries = .ok b ∧
      (Block.new b.finish.buffer).newIterator = .ok iter ∧ (blockIterator compare).calls ops iter = .ok iter' ∧
      iter'.corrupt = false ∧ (blockIterator compare).valid iter' = o.isSome ∧
      ∀ e, o = some e → (blockIterator compare).entry iter' = .ok e := by
  have hgreater : entries.Pairwise fun e e' => 0 < compare e'.1 e.1 := by
    refine hsorted.imp_of_mem fun {e e'} he he' hlt => ?_
    exact (ho.swap e.1 e'.1 (hp e he) (hp e' he')).mp hlt
  have hfits : (([].map pairOf ++ entries).map entrySize).sum < 4294967296 := lt_of_le_of_lt (Nat.le_add_right _ 8) hsize
  obtain ⟨b, pieces, points, hadds, heq, hrep⟩ := (new_rep restartInterval).adds hinterval hgreater hfits
  rw [List.map_nil, List.nil_append] at heq
  subst heq
  have hkeys : ∀ e ∈ pieces, p e.key := fun e he => hp (pairOf e) (List.mem_map_of_mem he)
  obtain ⟨At, ⟨iter, hnew, hat⟩, hintact, hwalks⟩ := block_walks ho (Rep.finish hrep hsize) hkeys hsorted
  obtain ⟨iter', hcalls, hat'⟩ := hwalks.calls (entries_inOrder ho hp hsorted) hat hmoves
  refine ⟨b, iter, iter', hadds, hnew, hcalls, hintact iter' o hat', hwalks.valid hat', ?_⟩
  rintro e rfl
  exact hwalks.entry hat'

def letterEntries : List (List Byte × List Byte) := [([97], [1]), ([97, 98], [2]), ([98], [3])]

/-- From the end of a block in which a key shares its first byte with the one before. -/
theorem blocks_read_back_letters :
    ∃ b iter iter', BlockBuilder.new.adds KeySeparators.sliceCompare 2 letterEntries = .ok b ∧
      (Block.new b.finish.buffer).newIterator = .ok iter ∧
      (blockIterator KeySeparators.sliceCompare).calls [.seekToLast, .prev] iter = .ok iter' ∧
      iter'.corrupt = false ∧ (blockIterator KeySeparators.sliceCompare).valid iter' = true ∧
      ∀ e, some ([97, 98], [2]) = some e → (blockIterator KeySeparators.sliceCompare).entry iter' = .ok e := by
  have hsorted : letterEntries.Pairwise fun e e' => KeySeparators.sliceCompare e.1 e'.1 < 0 := by decide
  have hmem : ∀ e ∈ letterEntries, e = ([97], [1]) ∨ e = ([97, 98], [2]) ∨ e = ([98], [3]) := by
    intro e he
    simpa [letterEntries] using he
  have hlast : Last (fun a b => KeySeparators.sliceCompare a.1 b.1 < 0) { e | e ∈ letterEntries } (some ([98], [3])) := by
    refine ⟨by decide, fun e he hne => ?_⟩
    obtain rfl | rfl | rfl := hmem e he
    · decide
    · decide
    · exact absurd rfl hne
  have hprev : Last (fun a b => KeySeparators.sliceCompare a.1 b.1 < 0)
      { e ∈ { e | e ∈ letterEntries } | KeySeparators.sliceCompare e.1 [98] < 0 } (some ([97, 98], [2])) := by
    refine ⟨⟨by decide, by decide⟩, fun e he hne => ?_⟩
    obtain rfl | rfl | rfl := hmem e he.1
    · decide
    · exact absurd rfl hne
    · exact absurd he.2 (by decide)
  exact blocks_read_back KeySeparators.sliceCompare_orders (by decide) (fun _ _ => trivial) hsorted (by decide)
    (.cons (.seekToLast hlast) (.cons (.prev hprev) (.nil _)))

end Walks

end RecordStore.BlockIterators
