import Mathlib.Data.List.TakeWhile
import RecordStore.CFile
import RecordStore.Outcome

namespace RecordStore.FixedRecord

open RecordStore.Splice RecordStore.CFile RecordStore.Outcome

structure CString where
  bytes : List Byte
  noNul : 0 ∉ bytes
  deriving DecidableEq

@[ext] theorem CString.ext {s t : CString} (h : s.bytes = t.bytes) : s = t := by
  cases s
  cases t
  simp_all

def CString.truncate (s : CString) (n : Nat) : CString :=
  ⟨s.bytes.take n, fun h => s.noNul (List.mem_of_mem_take h)⟩

abbrev Record := List CString

def attributeSize : Nat := 10

/-- The bytes `strncpy(dest, s, n)` stores: a short string is padded with zeros,
a long one is cut and left without a terminator. -/
def strncpy (s : CString) (n : Nat) : List Byte :=
  s.bytes.take n ++ List.replicate (n - s.bytes.length) 0

/-- The string found at `src` when at most `n` bytes are looked at. -/
def cstring (src : List Byte) (n : Nat) : CString :=
  ⟨(src.take n).takeWhile (fun b => b ≠ 0), fun h => by simpa using List.mem_takeWhile_imp h⟩

def fixedLenSizeof (record : Record) : Nat := record.length * attributeSize

def fixedLenWrite (record : Record) : List Byte :=
  record.flatMap (fun attr => strncpy attr attributeSize)

/-- Read `n` attributes, the size of the record passed in, from memory at `buf`. -/
def fixedLenRead (buf : Nat → Byte) (size n : Nat) : Except Fault Record :=
  if size / attributeSize ≤ n then
    .ok ((List.range n).map (fun i =>
      cstring ((List.range attributeSize).map (fun k => buf (i * attributeSize + k))) attributeSize))
  else .error .assertFailed

/-- What a record becomes when it is stored. -/
def stored (record : Record) : Record := record.map (fun attr => attr.truncate attributeSize)

theorem strncpy_length (s : CString) (n : Nat) : (strncpy s n).length = n := by
  simp only [strncpy, List.length_append, List.length_take, List.length_replicate]
  omega

theorem fixedLenWrite_length (record : Record) :
    (fixedLenWrite record).length = fixedLenSizeof record := by
  induction record with
  | nil => rfl
  | cons a as ih =>
    simp only [fixedLenWrite, List.flatMap_cons, List.length_append, strncpy_length,
      fixedLenSizeof, List.length_cons] at ih ⊢
    rw [ih, Nat.succ_mul, Nat.add_comm]

theorem cstring_strncpy (s : CString) (n : Nat) : cstring (strncpy s n) n = s.truncate n := by
  apply CString.ext
  have hall : ∀ b ∈ s.bytes.take n, decide (b ≠ 0) = true := by
    intro b hb
    have hm := List.mem_of_mem_take hb
    simp only [ne_eq, decide_eq_true_eq]
    rintro rfl
    exact s.noNul hm
  have hz : (List.replicate (n - s.bytes.length) (0 : Byte)).takeWhile (fun b => b ≠ 0) = [] := by
    cases n - s.bytes.length <;> simp [List.replicate_succ]
  have ht : (strncpy s n).take n = strncpy s n := List.take_of_length_le (strncpy_length s n).le
  change List.takeWhile _ ((strncpy s n).take n) = s.bytes.take n
  rw [ht, strncpy, List.takeWhile_append_of_pos hall, hz, List.append_nil]

theorem cstring_truncate (src : List Byte) (n : Nat) : (cstring src n).truncate n = cstring src n := by
  apply CString.ext
  apply List.take_of_length_le
  have hle := (List.takeWhile_sublist (l := src.take n) (fun b => b ≠ 0)).length_le
  rw [List.length_take] at hle
  exact hle.trans (Nat.min_le_left ..)

theorem slice_fixedLenWrite (record : Record) {i : Nat} {attr : CString}
    (hi : record[i]? = some attr) :
    slice (fixedLenWrite record) (i * attributeSize) attributeSize = strncpy attr attributeSize := by
  induction record generalizing i with
  | nil => simp at hi
  | cons a as ih =>
    have hlen := strncpy_length a attributeSize
    cases i with
    | zero =>
      obtain rfl : a = attr := by simpa using hi
      simp [slice, fixedLenWrite, hlen]
    | succ i =>
      have hs : slice (fixedLenWrite (a :: as)) ((i + 1) * attributeSize) attributeSize =
          slice (fixedLenWrite as) (i * attributeSize) attributeSize := by
        have he : (i + 1) * attributeSize = (strncpy a attributeSize).length + i * attributeSize := by
          rw [hlen]
          ring
        rw [slice, slice, fixedLenWrite, List.flatMap_cons, he, List.drop_length_add_append]
        rfl
      rw [hs]
      exact ih (by simpa using hi)

/-- Reading back memory that starts with a written record gives the record with
its attributes cut to their field. -/
theorem fixedLenRead_fixedLenWrite (record : Record) (buf : Nat → Byte) (size : Nat)
    (hs : size / attributeSize ≤ record.length)
    (hb : ∀ k < fixedLenSizeof record, (fixedLenWrite record)[k]? = some (buf k)) :
    fixedLenRead buf size record.length = .ok (stored record) := by
  rw [fixedLenRead, if_pos hs]
  congr 1
  apply List.ext_getElem?
  intro i
  simp only [List.getElem?_map, stored]
  cases hi : record[i]? with
  | none =>
    have hl : record.length ≤ i := List.getElem?_eq_none_iff.mp hi
    simp [hl]
  | some attr =>
    have hl : i < record.length := (List.getElem?_eq_some_iff.mp hi).1
    have hf : (List.range attributeSize).map (fun k => buf (i * attributeSize + k)) =
        strncpy attr attributeSize := by
      rw [← slice_fixedLenWrite record hi]
      apply List.ext_getElem?
      intro k
      rw [getElem?_slice]
      by_cases hk : k < attributeSize
      · have hlt : i * attributeSize + k < fixedLenSizeof record := by
          have := Nat.mul_le_mul_right attributeSize (Nat.succ_le_of_lt hl)
          rw [Nat.succ_mul] at this
          unfold fixedLenSizeof
          omega
        simp [hk, hb _ hlt]
      · simp [hk]
    simp [hl, hf, cstring_strncpy]

end RecordStore.FixedRecord
