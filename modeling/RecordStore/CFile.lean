import RecordStore.Splice

namespace RecordStore.CFile

open RecordStore.Splice

abbrev Byte := BitVec 8

/-- An open stdio stream on an ideal byte file. -/
structure File where
  bytes : List Byte
  pos : Nat
  deriving DecidableEq

/-- `fseek(fp, off, SEEK_SET)`. A negative offset is refused and leaves the
stream where it was. -/
def fseekSet (f : File) (off : Int) : File :=
  if off < 0 then f else { f with pos := off.toNat }

def fseekEnd (f : File) : File := { f with pos := f.bytes.length }

def ftell (f : File) : Int := f.pos

def rewind (f : File) : File := { f with pos := 0 }

def fread (f : File) (n : Nat) : List Byte × File :=
  let got := slice f.bytes f.pos n
  (got, { f with pos := f.pos + got.length })

/-- `fwrite(buf, 1, buf.length, fp)`. A gap left by an earlier seek past the
end of the file reads as zeros. -/
def fwrite (f : File) (buf : List Byte) : File :=
  ⟨splice (f.bytes ++ List.replicate (f.pos - f.bytes.length) 0) f.pos buf, f.pos + buf.length⟩

theorem fseekSet_bytes (f : File) (off : Int) : (fseekSet f off).bytes = f.bytes := by
  unfold fseekSet
  split <;> rfl

theorem fseekSet_natCast (f : File) (off : Nat) :
    fseekSet f (off : Int) = { f with pos := off } := by
  rw [fseekSet, if_neg (by omega), Int.toNat_natCast]

theorem fwrite_of_le {f : File} (h : f.pos ≤ f.bytes.length) (buf : List Byte) :
    fwrite f buf = ⟨splice f.bytes f.pos buf, f.pos + buf.length⟩ := by
  simp [fwrite, Nat.sub_eq_zero_of_le h]

theorem fwrite_end {f : File} (h : f.pos = f.bytes.length) (buf : List Byte) :
    fwrite f buf = ⟨f.bytes ++ buf, f.pos + buf.length⟩ := by
  rw [fwrite_of_le h.le, h, splice_end]

theorem fwrite_fwrite {f : File} (h : f.pos ≤ f.bytes.length) (a b : List Byte) :
    fwrite (fwrite f a) b = fwrite f (a ++ b) := by
  have hlen : f.pos + a.length ≤ (splice f.bytes f.pos a).length := by
    simp only [splice, List.length_append, List.length_take]
    omega
  rw [fwrite_of_le h, fwrite_of_le h, fwrite_of_le hlen]
  congr 1
  · apply List.ext_getElem?
    intro i
    rw [getElem?_splice _ hlen, getElem?_splice _ h, getElem?_splice _ h, List.length_append]
    by_cases ha : i < f.pos + a.length
    · by_cases hp : i < f.pos
      · simp [ha, hp]
      · have hi : i - f.pos < a.length := by omega
        simp [ha, hp, hi, show i < f.pos + (a.length + b.length) by omega, List.getElem?_append_left hi]
    · have hi : ¬ i - f.pos < a.length := by omega
      by_cases hb : i < f.pos + a.length + b.length
      · simp [ha, hb, hi, show ¬ i < f.pos by omega, show i < f.pos + (a.length + b.length) by omega,
          List.getElem?_append, Nat.sub_add_eq]
      · simp [ha, hb, show ¬ i < f.pos by omega, show ¬ i < f.pos + (a.length + b.length) by omega]
  · rw [List.length_append, Nat.add_assoc]

theorem fwrite_nil {f : File} (h : f.pos ≤ f.bytes.length) : fwrite f [] = f := by
  simp [fwrite_of_le h, splice]

theorem fwrite_pos_le {f : File} (h : f.pos ≤ f.bytes.length) (buf : List Byte) :
    (fwrite f buf).pos ≤ (fwrite f buf).bytes.length := by
  rw [fwrite_of_le h]
  simp only [splice, List.length_append, List.length_take]
  omega

end RecordStore.CFile
