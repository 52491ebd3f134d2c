import Mathlib.Order.Bounds.Basic
import RecordStore.PageSlots

namespace RecordStore.PageCapacity

open RecordStore.FixedPage RecordStore.PageSlots

variable {P S : Nat}

/-- `n` records of `S` bytes and one flag for each of them have room in `P` bytes. -/
def Fits (P S n : Nat) : Prop := n * S + ceilBytes n ≤ P

def groups (P S : Nat) : Nat := P / (8 * S + 1)

def rest (P S : Nat) : Nat := P % (8 * S + 1)

/-- The slots that fit: the first of the bytes left is the flag byte of the last slots. -/
def largestCapacity (P S : Nat) : Nat := 8 * groups P S + (rest P S - 1) / S

/-- The bytes left over when the largest number of slots and the flag bytes of the full groups
are laid out. -/
def spare (P S : Nat) : Nat := rest P S - (rest P S - 1) / S * S

theorem page_eq (P S : Nat) : P = 8 * (groups P S * S) + groups P S + rest P S := by
  have h := Nat.div_add_mod P (8 * S + 1)
  rw [Nat.add_mul, Nat.one_mul, Nat.mul_assoc, Nat.mul_comm S] at h
  exact h.symm

theorem rest_le (P S : Nat) : rest P S ≤ 8 * S := Nat.lt_succ_iff.mp (Nat.mod_lt _ (Nat.succ_pos _))

theorem ceilBytes_group (g b : Nat) : ceilBytes (8 * g + b) = g + ceilBytes b := by
  unfold ceilBytes
  omega

theorem ceilBytes_mono {m n : Nat} (h : m ≤ n) : ceilBytes m ≤ ceilBytes n := by
  unfold ceilBytes
  omega

theorem ceilBytes_eq_one {b : Nat} (h0 : 0 < b) (h8 : b ≤ 8) : ceilBytes b = 1 := by
  unfold ceilBytes
  omega

theorem Fits.mono {m n : Nat} (h : m ≤ n) (hn : Fits P S n) : Fits P S m := by
  have h1 := Nat.mul_le_mul_right S h
  have h2 := ceilBytes_mono h
  unfold Fits at hn ⊢
  omega

theorem largestCapacity_mul (P S : Nat) :
    largestCapacity P S * S = 8 * (groups P S * S) + (rest P S - 1) / S * S := by
  rw [largestCapacity, Nat.add_mul, Nat.mul_assoc]

theorem last_slots_lt (hs : 0 < S) : (rest P S - 1) / S < 8 := by
  rw [Nat.div_lt_iff_lt_mul hs]
  have := rest_le P S
  omega

theorem fits_largestCapacity (P S : Nat) : Fits P S (largestCapacity P S) := by
  have hp := page_eq P S
  have hm := Nat.div_mul_le_self (rest P S - 1) S
  unfold Fits
  rw [largestCapacity_mul, largestCapacity, ceilBytes_group]
  obtain hb | hb := Nat.eq_zero_or_pos ((rest P S - 1) / S)
  · rw [hb]
    unfold ceilBytes
    omega
  · -- there are slots in the last group, so there is a byte for their flags
    have hr : S ≤ (rest P S - 1) / S * S := Nat.le_mul_of_pos_left S hb
    have hpos : 0 < rest P S - 1 := (Nat.div_pos_iff.mp hb).1.trans_le (Nat.div_pos_iff.mp hb).2
    have hs : 0 < S := (Nat.div_pos_iff.mp hb).1
    rw [ceilBytes_eq_one hb (last_slots_lt hs).le]
    omega

theorem not_fits_succ (hs : 0 < S) : ¬ Fits P S (largestCapacity P S + 1) := by
  have hp := page_eq P S
  have hmod := Nat.lt_div_mul_add (a := rest P S - 1) hs
  have hc : ceilBytes (largestCapacity P S + 1) = groups P S + 1 := by
    rw [largestCapacity, Nat.add_assoc, ceilBytes_group,
      ceilBytes_eq_one (Nat.succ_pos _) (Nat.succ_le_of_lt (last_slots_lt hs))]
  unfold Fits
  rw [hc, Nat.succ_mul, largestCapacity_mul]
  omega

theorem fits_iff (hs : 0 < S) (n : Nat) : Fits P S n ↔ n ≤ largestCapacity P S := by
  constructor
  · intro hn
    by_contra hlt
    exact not_fits_succ hs (Fits.mono (Nat.lt_of_not_le hlt) hn)
  · intro hle
    exact Fits.mono hle (fits_largestCapacity P S)

theorem isGreatest_largestCapacity (hs : 0 < S) : IsGreatest {n | Fits P S n} (largestCapacity P S) :=
  ⟨fits_largestCapacity P S, fun n hn => (fits_iff hs n).mp hn⟩

/-- The directory that the code sets aside has flags for as many slots as there were without it. -/
theorem ceilBytes_div (hs : 0 < S) :
    ceilBytes (P / S) = groups P S + ceilBytes ((groups P S + rest P S) / S) := by
  have hp := page_eq P S
  have hq : P / S = 8 * groups P S + (groups P S + rest P S) / S := by
    conv_lhs => rw [hp]
    rw [Nat.add_assoc, ← Nat.mul_assoc, Nat.add_comm, Nat.add_mul_div_right _ _ hs, Nat.add_comm]
  rw [hq, ceilBytes_group]

theorem largestCapacity_le_capacity_iff (hs : 0 < S) (hp : S < P) :
    largestCapacity P S ≤ fixedLenPageCapacity P S ↔
      ceilBytes ((groups P S + rest P S) / S) ≤ spare P S := by
  have hpage := page_eq P S
  have hm := Nat.div_mul_le_self (rest P S - 1) S
  have hdir : ceilBytes (P / S) ≤ P := by
    have := Nat.div_le_self P S
    unfold ceilBytes
    omega
  rw [ceilBytes_div hs] at hdir
  rw [fixedLenPageCapacity, Nat.le_div_iff_mul_le hs, ceilBytes_div hs, largestCapacity_mul, spare]
  omega

theorem fits_capacity (hs : 0 < S) (hp : S < P) : Fits P S (fixedLenPageCapacity P S) := by
  have hpos := capacity_pos hs hp
  have h1 := ceilBytes_mono (capacity_le_div P S)
  have h2 : fixedLenPageCapacity P S * S ≤ P - ceilBytes (P / S) := Nat.div_mul_le_self _ _
  have h3 : S ≤ fixedLenPageCapacity P S * S := Nat.le_mul_of_pos_left S hpos
  unfold Fits
  omega

theorem isGreatest_capacity_iff (hs : 0 < S) (hp : S < P) :
    IsGreatest {n | Fits P S n} (fixedLenPageCapacity P S) ↔ largestCapacity P S ≤ fixedLenPageCapacity P S := by
  have hbest := isGreatest_largestCapacity (P := P) hs
  constructor
  · exact fun hg => hg.2 hbest.1
  · exact fun hle => ⟨fits_capacity hs hp, fun n hn => (hbest.2 hn).trans hle⟩

/-- The capacity is the largest possible exactly when the flag bytes for more slots than there
can be fit into what the largest number of slots leaves over. -/
theorem capacity_isGreatest_iff (hs : 0 < S) (hp : S < P) :
    IsGreatest {n | Fits P S n} (fixedLenPageCapacity P S) ↔
      ceilBytes ((P / (8 * S + 1) + P % (8 * S + 1)) / S) ≤
        P % (8 * S + 1) - (P % (8 * S + 1) - 1) / S * S := by
  rw [isGreatest_capacity_iff hs hp]
  exact largestCapacity_le_capacity_iff hs hp

/-- 160 slots of ten bytes and 20 flag bytes fill a page of 1620 bytes; the code finds room for 159. -/
theorem capacity_1620_not_greatest :
    ¬ ∀ P S : Nat, 0 < S → S < P → IsGreatest {n | Fits P S n} (fixedLenPageCapacity P S) := by
  intro hall
  have hle := (hall 1620 10 (by decide) (by decide)).2 (show Fits 1620 10 160 by unfold Fits; decide)
  exact absurd hle (by decide)

theorem capacity_isGreatest_iff_4096 : IsGreatest {n | Fits 4096 1000 n} (fixedLenPageCapacity 4096 1000) ↔
    ceilBytes ((4096 / (8 * 1000 + 1) + 4096 % (8 * 1000 + 1)) / 1000) ≤
      4096 % (8 * 1000 + 1) - (4096 % (8 * 1000 + 1) - 1) / 1000 * 1000 :=
  capacity_isGreatest_iff (by decide) (by decide)

theorem capacity_isGreatest_of_lt (hs : 0 < S) (hp : S < P) (hlt : P < S * (8 * S + 1)) :
    IsGreatest {n | Fits P S n} (fixedLenPageCapacity P S) := by
  have hg : groups P S < S := Nat.div_lt_of_lt_mul (by rwa [Nat.mul_comm])
  have hr := rest_le P S
  have hpage := page_eq P S
  have hm := Nat.div_mul_le_self (rest P S - 1) S
  have hsmall : (groups P S + rest P S) / S ≤ 8 := by
    rw [Nat.div_le_iff_le_mul_add_pred hs]
    omega
  have hspare : ceilBytes ((groups P S + rest P S) / S) ≤ spare P S := by
    by_cases h0 : rest P S = 0
    · rw [h0, Nat.add_zero, Nat.div_eq_of_lt hg]
      exact Nat.zero_le _
    · unfold spare ceilBytes
      omega
  rw [isGreatest_capacity_iff hs hp, largestCapacity_le_capacity_iff hs hp]
  exact hspare

/-- The first page size for which a slot is lost. -/
theorem capacity_not_greatest (hs : 0 < S) :
    ¬ IsGreatest {n | Fits (S * (8 * S + 1)) S n} (fixedLenPageCapacity (S * (8 * S + 1)) S) := by
  have hg : groups (S * (8 * S + 1)) S = S := Nat.mul_div_cancel _ (Nat.succ_pos _)
  have hr : rest (S * (8 * S + 1)) S = 0 := Nat.mul_mod_left _ _
  have hlt : S < S * (8 * S + 1) := by nlinarith
  rw [isGreatest_capacity_iff hs hlt, largestCapacity_le_capacity_iff hs hlt, spare, hg, hr, Nat.add_zero,
    Nat.div_self hs]
  simp [ceilBytes]

end RecordStore.PageCapacity
