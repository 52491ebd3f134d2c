import Mathlib.Data.List.GetD
import RecordStore.SlotFrame

namespace RecordStore.RecordCodec

open RecordStore.CFile RecordStore.FixedRecord RecordStore.FixedPage RecordStore.SlotFrame

/-- `strncpy(dest, attr, ATTRIBUTE_SIZE)` in memory. -/
def strncpyTo (mem : Nat → Byte) (dest : Nat) (attr : CString) : Nat → Byte := fun i =>
  if dest ≤ i ∧ i < dest + attributeSize then (strncpy attr attributeSize).getD (i - dest) 0 else mem i

def writeLoop (mem : Nat → Byte) (dest : Nat) : Record → Nat → Byte
  | [] => mem
  | attr :: attrs => writeLoop (strncpyTo mem dest attr) (dest + attributeSize) attrs

def fixedLenWriteTo (buf : Nat → Byte) (record : Record) : Nat → Byte := writeLoop buf 0 record

theorem fixedLenSizeof_cons (attr : CString) (attrs : Record) :
    fixedLenSizeof (attr :: attrs) = attributeSize + fixedLenSizeof attrs := by
  rw [fixedLenSizeof, fixedLenSizeof, List.length_cons, Nat.succ_mul, Nat.add_comm]

theorem writeLoop_eq (mem : Nat → Byte) (dest : Nat) (record : Record) (i : Nat) :
    writeLoop mem dest record i = if dest ≤ i ∧ i < dest + fixedLenSizeof record then
      (fixedLenWrite record).getD (i - dest) 0 else mem i := by
  induction record generalizing mem dest with
  | nil =>
    rw [if_neg (by simp [fixedLenSizeof])]
    rfl
  | cons attr attrs ih =>
    have hlen := strncpy_length attr attributeSize
    have hw : fixedLenWrite (attr :: attrs) = strncpy attr attributeSize ++ fixedLenWrite attrs := rfl
    rw [writeLoop, ih, fixedLenSizeof_cons, strncpyTo, hw]
    by_cases hlo : dest ≤ i
    · by_cases hfirst : i < dest + attributeSize
      · rw [if_neg (by omega), if_pos ⟨hlo, hfirst⟩, if_pos (by omega),
          List.getD_append _ _ _ _ (by omega)]
      · by_cases hrest : i < dest + (attributeSize + fixedLenSizeof attrs)
        · rw [if_pos (by omega), if_pos ⟨hlo, hrest⟩, List.getD_append_right _ _ _ _ (by omega), hlen,
            Nat.sub_add_eq]
        · rw [if_neg (by omega), if_neg (by omega), if_neg (by omega)]
    · rw [if_neg (by omega), if_neg (by omega), if_neg (by omega)]

theorem store_eq_writeLoop {P S : Nat} (page : Page P S) {t : Nat} {r : Record} (h : InPage P S t r) :
    ∃ page' : Page P S, page.store (t * S) (fixedLenWrite r) = .ok page' ∧
      ∀ i < P, page'.byte i = writeLoop page.byte (t * S) r i := by
  obtain ⟨page', hs, hb⟩ := store_of_inPage page h
  refine ⟨page', hs, fun i hi => ?_⟩
  rw [hb i hi, writeLoop_eq]

theorem fixedLenWriteTo_eq (buf : Nat → Byte) (record : Record) (i : Nat) :
    fixedLenWriteTo buf record i =
      if i < fixedLenSizeof record then (fixedLenWrite record).getD i 0 else buf i := by
  rw [fixedLenWriteTo, writeLoop_eq]
  simp

theorem fixedLenRead_fixedLenWriteTo (buf : Nat → Byte) (record : Record) {size : Nat}
    (hs : size / attributeSize ≤ record.length) :
    fixedLenRead (fixedLenWriteTo buf record) size record.length = .ok (stored record) := by
  apply fixedLenRead_fixedLenWrite record _ size hs
  intro k hk
  have hlt : k < (fixedLenWrite record).length := by rwa [fixedLenWrite_length]
  rw [fixedLenWriteTo_eq, if_pos hk, List.getD_eq_getElem?_getD, List.getElem?_eq_getElem hlt]
  rfl

theorem strncpy_truncate (s : CString) (n : Nat) : strncpy (s.truncate n) n = strncpy s n := by
  rw [strncpy, strncpy, CString.truncate]
  simp only [List.take_take, Nat.min_self, List.length_take]
  congr 2
  omega

theorem fixedLenWrite_stored (record : Record) : fixedLenWrite (stored record) = fixedLenWrite record := by
  rw [fixedLenWrite, fixedLenWrite, stored, List.flatMap_map]
  simp only [strncpy_truncate]

theorem fixedLenSizeof_stored (record : Record) : fixedLenSizeof (stored record) = fixedLenSizeof record := by
  rw [fixedLenSizeof, fixedLenSizeof, stored, List.length_map]

/-- What is written is read back, cut to the fields, whatever the buffer held; nothing is written
past the record; and the record read from the buffer is written as the same bytes again. -/
theorem codec_round_trip (buf : Nat → Byte) (record : Record) (size : Nat)
    (hs : size / attributeSize ≤ record.length) :
    fixedLenRead (fixedLenWriteTo buf record) size record.length = .ok (stored record) ∧
    (∀ i, record.length * attributeSize ≤ i → fixedLenWriteTo buf record i = buf i) ∧
    ∀ (buf' : Nat → Byte) (record' : Record),
      fixedLenRead (fixedLenWriteTo buf record) size record.length = .ok record' →
      ∀ i < record.length * attributeSize,
        fixedLenWriteTo buf' record' i = fixedLenWriteTo buf record i := by
  have hread := fixedLenRead_fixedLenWriteTo buf record hs
  refine ⟨hread, fun i hi => ?_, fun buf' record' hr i hi => ?_⟩
  · rw [fixedLenWriteTo_eq]
    exact if_neg (Nat.not_lt.mpr hi)
  · obtain rfl : stored record = record' := Except.ok.inj (hread.symm.trans hr)
    have hi' : i < fixedLenSizeof record := hi
    rw [fixedLenWriteTo_eq, fixedLenWriteTo_eq, fixedLenSizeof_stored, fixedLenWrite_stored, if_pos hi',
      if_pos hi']

/-- A short attribute and one that is longer than its field, in a buffer full of old bytes. -/
def mixedRecord : Record := [⟨[97, 98], by decide⟩, ⟨List.replicate 12 99, by decide⟩]

theorem codec_round_trip_mixed :
    fixedLenRead (fixedLenWriteTo (fun _ => 120) mixedRecord) 20 2 = .ok (stored mixedRecord) ∧
    (∀ i, 2 * attributeSize ≤ i → fixedLenWriteTo (fun _ => 120) mixedRecord i = 120) ∧
    ∀ (buf' : Nat → Byte) (record' : Record),
      fixedLenRead (fixedLenWriteTo (fun _ => 120) mixedRecord) 20 2 = .ok record' →
      ∀ i < 2 * attributeSize,
        fixedLenWriteTo buf' record' i = fixedLenWriteTo (fun _ => 120) mixedRecord i :=
  codec_round_trip (fun _ => 120) mixedRecord 20 (by decide)

section Padding

/-- After a NUL there are only NULs. -/
def Padded (field : List Byte) : Prop := field.Pairwise (fun a b => a = 0 → b = 0)

theorem padded_iff (field : List Byte) :
    field.takeWhile (fun b => b ≠ 0) ++
      List.replicate (field.length - (field.takeWhile (fun b => b ≠ 0)).length) 0 = field ↔ Padded field := by
  induction field with
  | nil => simp [Padded]
  | cons b bs ih =>
    rw [Padded, List.pairwise_cons]
    by_cases hb : b = 0
    · subst hb
      have hall : (∀ c ∈ bs, c = 0) → bs.Pairwise (fun a c => a = 0 → c = 0) := fun h =>
        List.pairwise_of_forall_mem_list (fun _ _ c hc _ => h c hc)
      simp only [ne_eq, decide_not, List.takeWhile_cons, decide_true, Bool.not_true, Bool.false_eq_true,
        if_false, List.nil_append, List.length_nil, Nat.sub_zero, List.length_cons, List.replicate_succ,
        List.cons.injEq, true_and, forall_const]
      rw [eq_comm, List.eq_replicate_iff]
      exact ⟨fun h => ⟨h.2, hall h.2⟩, fun h => ⟨rfl, h.1⟩⟩
    · have hstep : (b :: bs).takeWhile (fun c => c ≠ 0) = b :: bs.takeWhile (fun c => c ≠ 0) :=
        List.takeWhile_cons_of_pos (decide_eq_true hb)
      rw [hstep, List.length_cons, List.length_cons, Nat.add_sub_add_right, List.cons_append,
        List.cons.injEq, and_iff_right rfl, ih]
      exact ⟨fun h => ⟨fun _ _ h0 => absurd h0 hb, h⟩, fun h => h.2⟩

theorem strncpy_cstring_iff {field : List Byte} {n : Nat} (hn : field.length = n) :
    strncpy (cstring field n) n = field ↔ Padded field := by
  subst hn
  rw [← padded_iff, strncpy, cstring]
  simp only [List.take_length]
  rw [List.take_of_length_le (List.takeWhile_sublist _).length_le]

theorem strncpy_padded (s : CString) (n : Nat) : Padded (strncpy s n) := by
  rw [← strncpy_cstring_iff (strncpy_length s n), cstring_strncpy, strncpy_truncate]

end Padding

end RecordStore.RecordCodec
