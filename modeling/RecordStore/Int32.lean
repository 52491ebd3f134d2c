import RecordStore.CFile

namespace RecordStore.Int32

open RecordStore.Splice RecordStore.CFile

/-- Conversion to a 32-bit `int`, which keeps the value modulo `2 ^ 32`. -/
def toInt32 (x : Int) : Int := (x + 2147483648) % 4294967296 - 2147483648

def InRange (x : Int) : Prop := -2147483648 ≤ x ∧ x < 2147483648

instance (x : Int) : Decidable (InRange x) := inferInstanceAs (Decidable (_ ∧ _))

theorem toInt32_of_inRange {x : Int} (h : InRange x) : toInt32 x = x := by
  unfold toInt32
  obtain ⟨hl, hu⟩ := h
  omega

/-- Seek to the end, take the position as an `int`, seek there and write. When the
position has overflowed the second seek is refused, but the stream is at its end. -/
theorem fwrite_at_end (f : File) (h : f.bytes.length < 4294967296) (buf : List Byte) :
    fwrite (fseekSet (fseekEnd f) (toInt32 (ftell (fseekEnd f)))) buf =
      ⟨f.bytes ++ buf, f.bytes.length + buf.length⟩ := by
  have hseek : fseekSet (fseekEnd f) (toInt32 (ftell (fseekEnd f))) = fseekEnd f := by
    by_cases hneg : toInt32 (ftell (fseekEnd f)) < 0
    · rw [fseekSet, if_pos hneg]
    · have hval : (toInt32 (ftell (fseekEnd f))).toNat = f.bytes.length := by
        simp only [ftell, fseekEnd, toInt32] at hneg ⊢
        omega
      rw [fseekSet, if_neg hneg, hval]
      rfl
  rw [hseek, fwrite_end rfl]
  rfl

theorem toInt32_inRange (x : Int) : InRange (toInt32 x) := by
  unfold toInt32
  constructor <;> omega

/-- The four bytes of an `int` in memory, low byte first. -/
def encodeInt (x : Int) : List Byte :=
  let n := (x % 4294967296).toNat
  [BitVec.ofNat 8 n, BitVec.ofNat 8 (n / 256), BitVec.ofNat 8 (n / 65536),
    BitVec.ofNat 8 (n / 16777216)]

def decodeInt : List Byte → Int
  | [b0, b1, b2, b3] =>
    toInt32 (b0.toNat + 256 * b1.toNat + 65536 * b2.toNat + 16777216 * b3.toNat)
  | _ => 0

theorem encodeInt_length (x : Int) : (encodeInt x).length = 4 := rfl

theorem decodeInt_encodeInt (x : Int) : decodeInt (encodeInt x) = toInt32 x := by
  simp only [encodeInt, decodeInt, BitVec.toNat_ofNat]
  unfold toInt32
  omega

def readInt (data : List Byte) (pos : Nat) : Int := decodeInt (slice data pos 4)

def writeInt (data : List Byte) (pos : Nat) (x : Int) : List Byte :=
  splice data pos (encodeInt x)

theorem readInt_append (a d : List Byte) {x : Int} (hx : InRange x) :
    readInt (a ++ (encodeInt x ++ d)) a.length = x := by
  rw [readInt, ← encodeInt_length x, slice_append, decodeInt_encodeInt, toInt32_of_inRange hx]

theorem writeInt_append (a d : List Byte) (x y : Int) :
    writeInt (a ++ (encodeInt x ++ d)) a.length y = a ++ (encodeInt y ++ d) :=
  splice_append a (encodeInt x) (encodeInt y) d rfl

end RecordStore.Int32
