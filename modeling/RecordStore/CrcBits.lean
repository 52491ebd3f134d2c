import Mathlib.Tactic

namespace RecordStore.CrcBits

variable {w : Nat}

/-- Divide by the polynomial for one bit, the low bit first. -/
def bitStep (poly x : BitVec w) : BitVec w := if x.getLsbD 0 then (x >>> 1) ^^^ poly else x >>> 1

def bits (poly : BitVec w) : Nat → BitVec w → BitVec w
  | 0, x => x
  | n + 1, x => bits poly n (bitStep poly x)

theorem bitStep_xor (poly x y : BitVec w) : bitStep poly (x ^^^ y) = bitStep poly x ^^^ bitStep poly y := by
  have hself (a b : BitVec w) : a ^^^ poly ^^^ (b ^^^ poly) = a ^^^ b := by
    rw [BitVec.xor_assoc, BitVec.xor_comm b, ← BitVec.xor_assoc poly, BitVec.xor_self, BitVec.zero_xor]
  simp only [bitStep, BitVec.getLsbD_xor, BitVec.ushiftRight_xor_distrib]
  cases x.getLsbD 0 <;> cases y.getLsbD 0
  · simp
  · simp [BitVec.xor_assoc]
  · simp only [Bool.xor_false, if_true, Bool.false_eq_true, if_false]
    rw [BitVec.xor_assoc, BitVec.xor_comm _ poly, ← BitVec.xor_assoc]
  · simp [hself]

theorem bits_xor (poly : BitVec w) (n : Nat) (x y : BitVec w) :
    bits poly n (x ^^^ y) = bits poly n x ^^^ bits poly n y := by
  induction n generalizing x y with
  | zero => rfl
  | succ n ih => rw [bits, bitStep_xor, ih, bits, bits]

theorem bits_add (poly : BitVec w) (m n : Nat) (x : BitVec w) : bits poly (m + n) x = bits poly n (bits poly m x) := by
  induction m generalizing x with
  | zero => rw [Nat.zero_add, bits]
  | succ m ih => rw [Nat.succ_add, bits, ih, bits]

theorem bits_of_dvd (poly : BitVec w) (n : Nat) {x : BitVec w} (h : ∀ i < n, x.getLsbD i = false) :
    bits poly n x = x >>> n := by
  induction n generalizing x with
  | zero => rw [bits, BitVec.ushiftRight_zero]
  | succ n ih =>
    have hstep : bitStep poly x = x >>> 1 := by
      rw [bitStep, h 0 (Nat.succ_pos n), if_neg Bool.false_ne_true]
    rw [bits, hstep, ih, ← BitVec.shiftRight_add, Nat.add_comm]
    intro i hi
    rw [BitVec.getLsbD_ushiftRight]
    exact h (1 + i) (by omega)

end RecordStore.CrcBits
