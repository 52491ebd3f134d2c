import RecordStore.PageBitmap

namespace RecordStore.PageSlots

open RecordStore.Splice RecordStore.CFile RecordStore.FixedRecord RecordStore.FixedPage RecordStore.PageBitmap

variable {P S : Nat}

theorem capacity_le_div (P S : Nat) : fixedLenPageCapacity P S ≤ P / S :=
  Nat.div_le_div_right (Nat.sub_le _ _)

theorem capacity_pos (hs : 0 < S) (hp : S < P) : 0 < fixedLenPageCapacity P S := by
  -- with q = P / S slots at most, the directory takes no more than P - S bytes
  have hq : 1 ≤ P / S := (Nat.one_le_div_iff hs).mpr hp.le
  have hm := Nat.div_mul_le_self P S
  have hqs : P / S ≤ P / S * S := Nat.le_mul_of_pos_right _ hs
  refine Nat.div_pos ?_ hs
  unfold ceilBytes
  by_cases h1 : P / S = 1
  · rw [h1]
    omega
  · have h2 : (P / S - 1) * S + S = P / S * S := by
      rw [← Nat.succ_mul]
      congr 1
      omega
    have h3 : P / S - 1 ≤ (P / S - 1) * S := Nat.le_mul_of_pos_right _ hs
    omega

theorem slots_before_flags {t : Nat} (ht : t < fixedLenPageCapacity P S) :
    fixedLenPageCapacity P S * S ≤ P - 1 - t / 8 ∧ t / 8 < P := by
  have hcap := capacity_le_div P S
  have hc : fixedLenPageCapacity P S * S ≤ P - ceilBytes (P / S) := Nat.div_mul_le_self _ _
  have hd : P / S ≤ P := Nat.div_le_self _ _
  have hb : t / 8 < ceilBytes (P / S) := by
    unfold ceilBytes
    omega
  have hle : ceilBytes (P / S) ≤ P := by
    unfold ceilBytes
    omega
  omega

theorem slot_end {t : Nat} (ht : t < fixedLenPageCapacity P S) :
    t * S + S ≤ fixedLenPageCapacity P S * S := by
  rw [← Nat.succ_mul]
  exact Nat.mul_le_mul_right _ ht

theorem slot_in_page {t : Nat} (ht : t < fixedLenPageCapacity P S) : t * S + S ≤ P := by
  have h1 := slot_end ht
  have h2 := (slots_before_flags ht).1
  omega

theorem flagIndex_eq {t : Nat} (ht : t / 8 < P) : flagIndex P t = ((P - 1 - t / 8 : Nat) : Int) := by
  unfold flagIndex ceilBytes
  omega

theorem store_of_le (page : Page P S) {off : Nat} {bs : List Byte} (h : off + bs.length ≤ P) :
    ∃ page' : Page P S, page.store off bs = .ok page' ∧ page'.data = splice page.data off bs := by
  rw [Page.store, dif_pos h]
  exact ⟨_, rfl, rfl⟩

theorem modify_flag (page : Page P S) {t : Nat} (ht : t / 8 < P) (f : Byte → Byte) :
    ∃ page' : Page P S, page.modify (flagIndex P t) f = .ok page' ∧
      page'.data = page.data.modify (P - 1 - t / 8) f := by
  rw [Page.modify, flagIndex_eq ht, if_pos (by omega)]
  exact ⟨_, rfl, by simp⟩

theorem byte_of_getElem? {p q : Page P S} {i : Nat} (h : p.data[i]? = q.data[i]?) :
    p.byte i = q.byte i := by
  simp [Page.byte, List.getD_eq_getElem?_getD, h]

theorem byte_modify {p q : Page P S} {i : Nat} {f : Byte → Byte} (hi : i < P)
    (h : q.data = p.data.modify i f) (j : Nat) :
    q.byte j = if j = i then f (p.byte j) else p.byte j := by
  have hl := p.length_data
  simp only [Page.byte, List.getD_eq_getElem?_getD, h, List.getElem?_modify]
  by_cases hj : j = i
  · subst hj
    have hlt : j < p.data.length := by omega
    simp [hlt]
  · simp [hj, Ne.symm hj]

theorem filled_modify {p q : Page P S} {t : Nat} (ht : t / 8 < P) {f : Byte → Byte} {v : Bool}
    (hf : ∀ (b : Byte) (k : Nat), k < 8 → (f b).getLsbD k = if k = t % 8 then v else b.getLsbD k)
    (h : q.data = p.data.modify (P - 1 - t / 8) f) {u : Nat} (hu : u / 8 < P) :
    q.filled u = if u = t then v else p.filled u := by
  have hk : u % 8 < 8 := Nat.mod_lt _ (by decide)
  rw [filled_eq, filled_eq, byte_modify (by omega) h]
  by_cases hb : P - 1 - u / 8 = P - 1 - t / 8
  · have he : u % 8 = t % 8 ↔ u = t := by omega
    rw [if_pos hb, hf _ _ hk]
    simp only [he]
  · rw [if_neg hb, if_neg (fun hut : u = t => hb (by rw [hut]))]

theorem or_flagMask (t : Nat) (b : Byte) (k : Nat) (_ : k < 8) :
    (b ||| flagMask t).getLsbD k = if k = t % 8 then true else b.getLsbD k := by
  have h8 : t % 8 < 8 := Nat.mod_lt _ (by decide)
  rw [flagMask_eq, BitVec.getLsbD_or, BitVec.getLsbD_twoPow]
  by_cases he : k = t % 8
  · simp [he, h8]
  · simp [he, Ne.symm he]

theorem and_not_flagMask (t : Nat) (b : Byte) (k : Nat) (hk : k < 8) :
    (b &&& ~~~flagMask t).getLsbD k = if k = t % 8 then false else b.getLsbD k := by
  have h8 : t % 8 < 8 := Nat.mod_lt _ (by decide)
  rw [flagMask_eq, BitVec.getLsbD_and, BitVec.getLsbD_not, BitVec.getLsbD_twoPow]
  by_cases he : k = t % 8
  · simp [he, h8]
  · simp [he, Ne.symm he, hk]

def slotRecord (page : Page P S) (t : Nat) : Record :=
  (List.range (S / attributeSize)).map (fun i =>
    cstring (slice page.data (t * S + i * attributeSize) attributeSize) attributeSize)

theorem attribute_end {i : Nat} (hi : i < S / attributeSize) : i * attributeSize + attributeSize ≤ S := by
  have h1 := Nat.mul_le_mul_right attributeSize (Nat.succ_le_of_lt hi)
  have h2 := Nat.div_mul_le_self S attributeSize
  rw [Nat.succ_mul] at h1
  omega

theorem slotRecord_congr {p q : Page P S} {t : Nat}
    (h : slice p.data (t * S) S = slice q.data (t * S) S) : slotRecord p t = slotRecord q t := by
  apply List.map_congr_left
  intro i hi
  have hend := attribute_end (List.mem_range.mp hi)
  rw [← slice_slice p.data hend, ← slice_slice q.data hend, h]

theorem readFixedLenPage_eq (beyond : Nat → Byte) (page : Page P S) {t : Nat}
    (ht : t < fixedLenPageCapacity P S) :
    readFixedLenPage beyond page t (S / attributeSize) = .ok (slotRecord page t) := by
  rw [readFixedLenPage, if_pos (Int.natCast_nonneg t), Int.toNat_natCast, fixedLenRead, if_pos le_rfl,
    slotRecord]
  congr 1
  apply List.map_congr_left
  intro i hi
  have hend := attribute_end (List.mem_range.mp hi)
  have hpage := slot_in_page ht
  congr 1
  apply List.ext_getElem?
  intro k
  rw [getElem?_slice]
  by_cases hk : k < attributeSize
  · have hlt : t * S + (i * attributeSize + k) < P := by omega
    have hlt' : t * S + i * attributeSize + k < page.data.length := by
      rw [page.length_data]
      omega
    simp [hk, Page.memory, hlt, Page.byte, List.getD_eq_getElem?_getD, Nat.add_assoc,
      List.getElem?_eq_getElem (show t * S + (i * attributeSize + k) < page.data.length by omega)]
  · simp [hk]

theorem readFixedLenPage_append (beyond : Nat → Byte) (page : Page P S) {t : Nat}
    (ht : t < fixedLenPageCapacity P S) {n : Nat} (hn : S / attributeSize ≤ n) :
    ∃ tail, readFixedLenPage beyond page t n = .ok (slotRecord page t ++ tail) := by
  obtain ⟨k, rfl⟩ := Nat.exists_eq_add_of_le hn
  have hslot := readFixedLenPage_eq beyond page ht
  rw [readFixedLenPage, if_pos (Int.natCast_nonneg t), fixedLenRead, if_pos le_rfl] at hslot
  rw [readFixedLenPage, if_pos (Int.natCast_nonneg t), fixedLenRead, if_pos hn, List.range_add,
    List.map_append, Except.ok.inj hslot]
  exact ⟨_, rfl⟩

theorem slice_modify_flag {p q : Page P S} {t u : Nat} {f : Byte → Byte}
    (ht : t < fixedLenPageCapacity P S) (hu : u < fixedLenPageCapacity P S)
    (h : q.data = p.data.modify (P - 1 - t / 8) f) :
    slice q.data (u * S) S = slice p.data (u * S) S := by
  have hf := (slots_before_flags ht).1
  have hs := slot_end hu
  apply List.ext_getElem?
  intro i
  rw [getElem?_slice, getElem?_slice, h]
  by_cases hi : i < S
  · have hne : P - 1 - t / 8 ≠ u * S + i := by omega
    simp [hi, hne]
  · simp [hi]

theorem slots_disjoint {t u : Nat} (h : u ≠ t) : u * S + S ≤ t * S ∨ t * S + S ≤ u * S := by
  rw [← Nat.succ_mul, ← Nat.succ_mul]
  obtain h | h := Nat.lt_or_gt_of_ne h
  · exact .inl (Nat.mul_le_mul_right _ h)
  · exact .inr (Nat.mul_le_mul_right _ h)

theorem writeFixedLenPage_data (page : Page P S) {t : Nat} (ht : t < fixedLenPageCapacity P S)
    {r : Record} (hr : fixedLenSizeof r ≤ S) :
    ∃ written page' : Page P S, written.data = splice page.data (t * S) (fixedLenWrite r) ∧
      writeFixedLenPage page t r = .ok page' ∧
      page'.data = written.data.modify (P - 1 - t / 8) (fun b => b ||| flagMask t) := by
  have hlen : (fixedLenWrite r).length = fixedLenSizeof r := fixedLenWrite_length r
  have hpage := slot_in_page ht
  obtain ⟨p1, h1, hd1⟩ := store_of_le page (show t * S + (fixedLenWrite r).length ≤ P by omega)
  obtain ⟨p2, h2, hd2⟩ := modify_flag p1 (slots_before_flags ht).2 (fun b => b ||| flagMask t)
  refine ⟨p1, p2, hd1, ?_, hd2⟩
  rw [writeFixedLenPage, if_pos (Int.natCast_nonneg t), Int.toNat_natCast, h1]
  exact h2

theorem filled_splice {page written : Page P S} {t : Nat} (ht : t < fixedLenPageCapacity P S) {bs : List Byte}
    (hbs : bs.length ≤ S) (hd : written.data = splice page.data (t * S) bs) {u : Nat}
    (hu : u < fixedLenPageCapacity P S) : written.filled u = page.filled u := by
  have hend := slot_end ht
  have hflag := (slots_before_flags hu).1
  have hoff : t * S ≤ page.data.length := by
    rw [page.length_data]
    have := slot_in_page ht
    omega
  have hb : written.byte (P - 1 - u / 8) = page.byte (P - 1 - u / 8) := by
    apply byte_of_getElem?
    rw [hd, getElem?_splice _ hoff, if_neg (by omega), if_neg (by omega)]
  rw [filled_eq, filled_eq, hb]

theorem writeFixedLenPage_slots (page : Page P S) {t : Nat} (ht : t < fixedLenPageCapacity P S)
    {r : Record} (hr : fixedLenSizeof r ≤ S) :
    ∃ page', writeFixedLenPage page t r = .ok page' ∧
      (∀ u < fixedLenPageCapacity P S, page'.filled u = if u = t then true else page.filled u) ∧
      (∀ u < fixedLenPageCapacity P S, u ≠ t → slice page'.data (u * S) S = slice page.data (u * S) S) ∧
      ∀ o m, o + m ≤ fixedLenSizeof r → slice page'.data (t * S + o) m = slice (fixedLenWrite r) o m := by
  have hlen : (fixedLenWrite r).length = fixedLenSizeof r := fixedLenWrite_length r
  obtain ⟨-, ht8⟩ := slots_before_flags ht
  have hoff : t * S ≤ page.data.length := by
    rw [page.length_data]
    have := slot_in_page ht
    omega
  obtain ⟨written, page', hd1, hw, hd⟩ := writeFixedLenPage_data page ht hr
  refine ⟨page', hw, fun u hu => ?_, fun u hu hne => ?_, fun o m hom => ?_⟩
  · rw [filled_modify ht8 (or_flagMask t) hd (slots_before_flags hu).2, filled_splice ht (by omega) hd1 hu]
  · have hdisj := slots_disjoint (S := S) hne
    rw [slice_modify_flag ht hu hd, hd1]
    exact slice_splice_disjoint _ hoff (by omega)
  · rw [← slice_slice page'.data (show o + m ≤ S by omega), slice_modify_flag ht ht hd,
      slice_slice written.data (show o + m ≤ S by omega), hd1]
    exact slice_splice_inside hoff (by omega)

theorem writeFixedLenPage_spec (page : Page P S) {t : Nat} (ht : t < fixedLenPageCapacity P S)
    {r : Record} (hr : fixedLenSizeof r ≤ S) :
    ∃ page', writeFixedLenPage page t r = .ok page' ∧
      (∀ u < fixedLenPageCapacity P S, page'.filled u = if u = t then true else page.filled u) ∧
      (∀ u < fixedLenPageCapacity P S, u ≠ t → slotRecord page' u = slotRecord page u) ∧
      (S / attributeSize = r.length → slotRecord page' t = stored r) := by
  obtain ⟨page', hw, hflag, hother, hself⟩ := writeFixedLenPage_slots page ht hr
  refine ⟨page', hw, hflag, fun u hu hne => slotRecord_congr (hother u hu hne), fun hn => ?_⟩
  rw [slotRecord, stored, hn]
  apply List.ext_getElem (by simp)
  intro i h1 h2
  have hi : i < r.length := by simpa using h1
  have hend : i * attributeSize + attributeSize ≤ fixedLenSizeof r := by
    rw [← Nat.succ_mul]
    exact Nat.mul_le_mul_right _ hi
  simp only [List.getElem_map, List.getElem_range]
  rw [hself _ _ hend, slice_fixedLenWrite r (List.getElem?_eq_getElem hi), cstring_strncpy]

theorem deleteFixedLenPage_data (page : Page P S) {t : Nat} (ht : t / 8 < P) :
    ∃ page', deleteFixedLenPage page t = .ok page' ∧
      page'.data = page.data.modify (P - 1 - t / 8) (fun b => b &&& ~~~flagMask t) := by
  obtain ⟨page', h, hd⟩ := modify_flag page ht (fun b => b &&& ~~~flagMask t)
  refine ⟨page', ?_, hd⟩
  rw [deleteFixedLenPage, if_pos (Int.natCast_nonneg t), Int.toNat_natCast]
  exact h

theorem deleteFixedLenPage_spec (page : Page P S) {t : Nat} (ht : t < fixedLenPageCapacity P S) :
    ∃ page', deleteFixedLenPage page t = .ok page' ∧
      (∀ u < fixedLenPageCapacity P S, page'.filled u = if u = t then false else page.filled u) ∧
      (∀ u < fixedLenPageCapacity P S, slotRecord page' u = slotRecord page u) := by
  have ht8 := (slots_before_flags ht).2
  obtain ⟨page', hx, hd⟩ := deleteFixedLenPage_data page ht8
  refine ⟨page', hx, ?_, ?_⟩
  · intro u hu
    exact filled_modify ht8 (and_not_flagMask t) hd (slots_before_flags hu).2
  · intro u hu
    exact slotRecord_congr (slice_modify_flag ht hu hd)

theorem addFixedLenPage_eq (page : Page P S) (r : Record) :
    addFixedLenPage page r =
      match emptySlot page with
      | some slot => (writeFixedLenPage page slot r).map (fun page' => (some slot, page'))
      | none => .ok (none, page) := by
  rw [addFixedLenPage]
  simp only [emptySlotLoop_eq_emptySlot]
  cases emptySlot page with
  | none => rfl
  | some slot => cases h : writeFixedLenPage page slot r <;> simp [h, Except.map]

end RecordStore.PageSlots
