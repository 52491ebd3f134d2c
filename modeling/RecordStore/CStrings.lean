import Mathlib.Data.List.TakeWhile
import RecordStore.CFile
import RecordStore.ThreeWay

namespace RecordStore.CStrings

open RecordStore.CFile RecordStore.ThreeWay

def isSpace (b : Byte) : Bool := decide (b = 32 ∨ (9 ≤ b.toNat ∧ b.toNat ≤ 13))

def isDigit (b : Byte) : Bool := decide (48 ≤ b.toNat ∧ b.toNat ≤ 57)

def digitsValue (s : List Byte) : Nat :=
  (s.takeWhile isDigit).foldl (fun value d => 10 * value + (d.toNat - 48)) 0

/-- The number at the start of `s` behind blanks and a sign, however large. -/
def leadingNumber (s : List Byte) : Int :=
  match s.dropWhile isSpace with
  | [] => 0
  | c :: rest =>
    if c = 45 then -digitsValue rest
    else if c = 43 then digitsValue rest
    else digitsValue (c :: rest)

/-- `atoi` on a string: the number as a `long`, which the library cuts to an `int`. -/
def atoi (s : List Byte) : Int := max (-9223372036854775808) (min 9223372036854775807 (leadingNumber s))

def decimal (n : Int) : List Byte :=
  let digits := (Nat.toDigits 10 n.natAbs).map (fun c => BitVec.ofNat 8 c.toNat)
  if n < 0 then 45 :: digits else digits

/-- `strcmp` on two strings, as the difference of the first bytes that differ. -/
def strcmp : List Byte → List Byte → Int
  | [], [] => 0
  | [], b :: _ => -b.toNat
  | a :: _, [] => a.toNat
  | a :: as, b :: bs => if a = b then strcmp as bs else a.toNat - b.toNat

theorem strcmp_self (s : List Byte) : strcmp s s = 0 := by
  induction s with
  | nil => rfl
  | cons a s ih => rw [strcmp, if_pos rfl, ih]

theorem strcmp_append (s a b : List Byte) : strcmp (s ++ a) (s ++ b) = strcmp a b := by
  induction s with
  | nil => rfl
  | cons c s ih => rw [List.cons_append, List.cons_append, strcmp, if_pos rfl, ih]

theorem strcmp_take {a b : List Byte} (hlen : a.length = b.length) {t : Nat}
    (h : strcmp (a.take t) (b.take t) ≠ 0) : strcmp a b = strcmp (a.take t) (b.take t) := by
  induction a generalizing b t with
  | nil =>
    obtain rfl : b = [] := List.length_eq_zero_iff.mp hlen.symm
    rw [List.take_nil]
  | cons x a ih =>
    cases b with
    | nil => cases hlen
    | cons y b =>
      cases t with
      | zero => exact absurd rfl h
      | succ t =>
        rw [List.take_succ_cons, List.take_succ_cons, strcmp] at h ⊢
        rw [strcmp]
        split at h
        case isTrue hxy =>
          rw [if_pos hxy, if_pos hxy]
          exact ih (Nat.succ.inj hlen) h
        case isFalse hxy => rw [if_neg hxy, if_neg hxy]

theorem strcmp_swap (a b : List Byte) : strcmp b a = -strcmp a b := by
  induction a generalizing b with
  | nil => cases b <;> simp [strcmp]
  | cons x a ih =>
    cases b with
    | nil => simp [strcmp]
    | cons y b =>
      rw [strcmp, strcmp]
      by_cases hxy : x = y
      · rw [if_pos hxy, if_pos hxy.symm, ih]
      · rw [if_neg hxy, if_neg (Ne.symm hxy)]
        omega

theorem byte_pos {x : Byte} {s : List Byte} (h : (0 : Byte) ∉ x :: s) : 0 < x.toNat := by
  refine Nat.pos_of_ne_zero (fun h0 => h ?_)
  rw [show x = 0 from BitVec.eq_of_toNat_eq h0]
  exact List.mem_cons_self ..

theorem strcmp_le_trans {a b c : List Byte} (ha : (0 : Byte) ∉ a) (hb : (0 : Byte) ∉ b)
    (hc : (0 : Byte) ∉ c) (hab : strcmp a b ≤ 0) (hbc : strcmp b c ≤ 0) : strcmp a c ≤ 0 := by
  induction a generalizing b c with
  | nil =>
    cases c with
    | nil => simp [strcmp]
    | cons z c =>
      rw [strcmp]
      omega
  | cons x a ih =>
    cases b with
    | nil =>
      have hx := byte_pos ha
      rw [strcmp] at hab
      omega
    | cons y b =>
      cases c with
      | nil =>
        have hy := byte_pos hb
        rw [strcmp] at hbc
        omega
      | cons z c =>
        rw [strcmp] at hab hbc ⊢
        by_cases hxy : x = y
        · subst hxy
          rw [if_pos rfl] at hab
          by_cases hxz : x = z
          · rw [if_pos hxz] at hbc ⊢
            exact ih (List.not_mem_of_not_mem_cons ha) (List.not_mem_of_not_mem_cons hb)
              (List.not_mem_of_not_mem_cons hc) hab hbc
          · rw [if_neg hxz] at hbc ⊢
            exact hbc
        · rw [if_neg hxy] at hab
          have hne : x.toNat ≠ y.toNat := fun he => hxy (BitVec.eq_of_toNat_eq he)
          by_cases hyz : y = z
          · subst hyz
            rw [if_neg hxy]
            exact hab
          · rw [if_neg hyz] at hbc
            rw [if_neg (fun hxz => by subst hxz; omega)]
            omega

theorem strcmp_orders : Orders (fun s => (0 : Byte) ∉ s) strcmp where
  swap a b _ _ := by
    rw [strcmp_swap a b]
    omega
  trans _ _ _ ha hb hc := strcmp_le_trans ha hb hc

theorem digits_lt (ds : List Byte) (value : Nat) (h : ∀ d ∈ ds, isDigit d = true) :
    ds.foldl (fun value d => 10 * value + (d.toNat - 48)) value < (value + 1) * 10 ^ ds.length := by
  induction ds generalizing value with
  | nil => simp
  | cons d ds ih =>
    have hd : d.toNat ≤ 57 := (of_decide_eq_true (h d (List.mem_cons_self ..))).2
    rw [List.foldl_cons]
    refine lt_of_lt_of_le (ih _ (fun e he => h e (List.mem_cons_of_mem _ he))) ?_
    rw [List.length_cons, Nat.pow_succ, Nat.mul_comm (10 ^ ds.length) 10, ← Nat.mul_assoc]
    refine Nat.mul_le_mul_right _ ?_
    omega

theorem digitsValue_lt (s : List Byte) : digitsValue s < 10 ^ s.length := by
  have hlt := digits_lt (s.takeWhile isDigit) 0 (fun d hd => List.mem_takeWhile_imp hd)
  rw [Nat.zero_add, Nat.one_mul] at hlt
  exact lt_of_lt_of_le hlt (Nat.pow_le_pow_right (by decide) (List.takeWhile_sublist _).length_le)

/-- A number of `n` bytes has fewer than `n + 1` digits. -/
theorem leadingNumber_bounds (s : List Byte) :
    -(10 ^ s.length : Nat) < leadingNumber s ∧ leadingNumber s < (10 ^ s.length : Nat) := by
  have hle := (List.dropWhile_sublist isSpace (l := s)).length_le
  have hpos : 0 < 10 ^ s.length := Nat.pow_pos (by decide)
  unfold leadingNumber
  cases hs : s.dropWhile isSpace with
  | nil =>
    simp only
    omega
  | cons c rest =>
    rw [hs] at hle
    have hrest : digitsValue rest < 10 ^ s.length := lt_of_lt_of_le (digitsValue_lt rest)
      (Nat.pow_le_pow_right (by decide) (by rw [List.length_cons] at hle; omega))
    have hall : digitsValue (c :: rest) < 10 ^ s.length :=
      lt_of_lt_of_le (digitsValue_lt _) (Nat.pow_le_pow_right (by decide) hle)
    simp only
    split
    · omega
    · split <;> omega

theorem atoi_bounds (s : List Byte) : -(10 ^ s.length : Nat) < atoi s ∧ atoi s < (10 ^ s.length : Nat) := by
  have hpos : 0 < 10 ^ s.length := Nat.pow_pos (by decide)
  have hbounds := leadingNumber_bounds s
  rw [atoi]
  omega

theorem toDigits_byte {n : Nat} {c : Char} (hc : c ∈ Nat.toDigits 10 n) :
    48 ≤ c.toNat ∧ c.toNat ≤ 57 ∧ (BitVec.ofNat 8 c.toNat).toNat = c.toNat := by
  have hdigit := Nat.isDigit_of_mem_toDigits (by decide) (by decide) hc
  rw [Char.isDigit, Bool.and_eq_true, decide_eq_true_iff, decide_eq_true_iff] at hdigit
  have hlow : 48 ≤ c.toNat := UInt32.le_iff_toNat_le.mp hdigit.1
  have hhigh : c.toNat ≤ 57 := UInt32.le_iff_toNat_le.mp hdigit.2
  refine ⟨hlow, hhigh, ?_⟩
  rw [BitVec.toNat_ofNat, Nat.mod_eq_of_lt (by omega)]

theorem isDigit_of_mem_digits {n : Nat} {d : Byte}
    (hd : d ∈ (Nat.toDigits 10 n).map (fun c => BitVec.ofNat 8 c.toNat)) : isDigit d = true := by
  obtain ⟨c, hc, rfl⟩ := List.mem_map.mp hd
  obtain ⟨hlow, hhigh, hbyte⟩ := toDigits_byte hc
  rw [isDigit, hbyte]
  exact decide_eq_true ⟨hlow, hhigh⟩

theorem digitsValue_digits (n : Nat) :
    digitsValue ((Nat.toDigits 10 n).map (fun c => BitVec.ofNat 8 c.toNat)) = n := by
  rw [digitsValue, List.takeWhile_eq_self_iff.mpr (fun d hd => isDigit_of_mem_digits hd), List.foldl_map]
  refine Eq.trans ?_ (Nat.ofDigitChars_ten_toDigits (n := n))
  rw [Nat.ofDigitChars_eq_foldl]
  apply List.foldl_ext
  intro value c hc
  rw [(toDigits_byte hc).2.2]
  rfl

theorem leadingNumber_decimal (n : Int) : leadingNumber (decimal n) = n := by
  unfold decimal
  split
  case isTrue hneg =>
    show -(digitsValue _ : Int) = n
    rw [digitsValue_digits]
    omega
  case isFalse hneg =>
    have hvalue := digitsValue_digits n.natAbs
    have hdigits := fun d hd => isDigit_of_mem_digits (n := n.natAbs) (d := d) hd
    obtain ⟨d, ds, hcons⟩ : ∃ d ds, (Nat.toDigits 10 n.natAbs).map (fun c => BitVec.ofNat 8 c.toNat) = d :: ds :=
      List.exists_cons_of_ne_nil (by simp [Nat.toDigits_ne_nil])
    rw [hcons] at hvalue hdigits ⊢
    have hd : 48 ≤ d.toNat ∧ d.toNat ≤ 57 := of_decide_eq_true (hdigits d (List.mem_cons_self ..))
    have hne : ∀ c : Byte, c.toNat < 48 → d ≠ c := by
      intro c hc he
      rw [he] at hd
      omega
    have hspace : isSpace d = false := by
      rw [isSpace, decide_eq_false_iff_not]
      rintro (h32 | ⟨-, h13⟩)
      · exact hne 32 (by decide) h32
      · omega
    rw [leadingNumber, List.dropWhile_cons_of_neg (by simp [hspace])]
    simp only [if_neg (hne 45 (by decide)), if_neg (hne 43 (by decide)), hvalue]
    omega

theorem atoi_decimal {n : Int} (hlow : -9223372036854775808 ≤ n) (hhigh : n ≤ 9223372036854775807) :
    atoi (decimal n) = n := by
  rw [atoi, leadingNumber_decimal]
  omega

theorem zero_not_mem_decimal (n : Int) : (0 : Byte) ∉ decimal n := by
  have hdigits : (0 : Byte) ∉ (Nat.toDigits 10 n.natAbs).map (fun c => BitVec.ofNat 8 c.toNat) :=
    fun h => absurd (isDigit_of_mem_digits h) (by decide)
  unfold decimal
  split
  · intro h
    obtain h | h := List.mem_cons.mp h
    · exact absurd h (by decide)
    · exact hdigits h
  · exact hdigits

def mark (len k : Nat) (c : Byte) : List Byte :=
  List.replicate k 32 ++ c :: List.replicate (len - k - 1) 32

theorem mark_length {len k : Nat} (h : k < len) (c : Byte) : (mark len k c).length = len := by
  simp only [mark, List.length_append, List.length_cons, List.length_replicate]
  omega

theorem zero_not_mem_mark (len k : Nat) {c : Byte} (hc : c ≠ 0) : (0 : Byte) ∉ mark len k c := by
  intro h
  obtain h | h := List.mem_append.mp h
  · exact absurd (List.eq_of_mem_replicate h) (by decide)
  · obtain h | h := List.mem_cons.mp h
    · exact hc h.symm
    · exact absurd (List.eq_of_mem_replicate h) (by decide)

theorem take_mark_of_le {len k t : Nat} (h : t ≤ k) (c : Byte) :
    (mark len k c).take t = List.replicate t 32 := by
  rw [mark, List.take_append_of_le_length (by rwa [List.length_replicate]), List.take_replicate,
    Nat.min_eq_left h]

theorem take_mark_of_lt {len k t : Nat} (h : k < t) (ht : t ≤ len) (c : Byte) :
    (mark len k c).take t = mark t k c := by
  obtain ⟨d, rfl⟩ := Nat.exists_eq_add_of_lt h
  rw [mark, Nat.add_assoc, List.take_append, List.length_replicate, List.take_of_length_le (by simp),
    Nat.add_sub_cancel_left, List.take_succ_cons, List.take_replicate, mark]
  congr 3
  omega

theorem atoi_blank (s : List Byte) : atoi (32 :: s) = atoi s := rfl

theorem atoi_blanks (k : Nat) (s : List Byte) : atoi (List.replicate k 32 ++ s) = atoi s := by
  induction k with
  | zero => rfl
  | succ k ih => rw [List.replicate_succ, List.cons_append, atoi_blank, ih]

theorem atoi_all_blank (k : Nat) : atoi (List.replicate k 32) = 0 := by
  rw [← List.append_nil (List.replicate k 32), atoi_blanks]
  rfl

theorem digitsValue_blanks (ds : List Byte) (h : ∀ d ∈ ds, isDigit d = true) (n : Nat) :
    digitsValue (ds ++ List.replicate n 32) =
      ds.foldl (fun value d => 10 * value + (d.toNat - 48)) 0 := by
  have hblank : (List.replicate n (32 : Byte)).takeWhile isDigit = [] := by
    cases n <;> rfl
  rw [digitsValue, List.takeWhile_append_of_pos h, hblank, List.append_nil]

theorem atoi_mark_zero (len k : Nat) : atoi (mark len k 48) = 0 := by
  rw [mark, atoi_blanks]
  cases len - k - 1 <;> rfl

theorem atoi_mark_one (len k : Nat) : atoi (mark len k 49) = 1 := by
  rw [mark, atoi_blanks]
  cases len - k - 1 <;> rfl

theorem strcmp_mark (len k : Nat) {c d : Byte} (h : c ≠ d) :
    strcmp (mark len k c) (mark len k d) = (c.toNat : Int) - d.toNat := by
  rw [mark, mark, strcmp_append, strcmp, if_neg h]

end RecordStore.CStrings
