import Mathlib.Tactic
import RecordStore.CFile
import RecordStore.PrefixCode

namespace RecordStore.Coding

open RecordStore.CFile RecordStore.PrefixCode

def encodeFixed (n value : Nat) : List Byte := (List.range n).map (fun i => BitVec.ofNat 8 (value >>> (8 * i)))

def decodeFixed (buf : List Byte) : Nat := buf.foldr (fun b value => b.toNat + 256 * value) 0

def encodeFixed32 (value : Nat) : List Byte := encodeFixed 4 value

def encodeFixed64 (value : Nat) : List Byte := encodeFixed 8 value

/-- Of what stands at a pointer. No bounds are checked. -/
def decodeFixed32 (ptr : List Byte) : Nat := decodeFixed (ptr.take 4)

def decodeFixed64 (ptr : List Byte) : Nat := decodeFixed (ptr.take 8)

def putFixed64 (dst : List Byte) (value : Nat) : List Byte := dst ++ encodeFixed64 value

def encodeVarint32 (v : Nat) : List Byte :=
  if v < 1 <<< 7 then [BitVec.ofNat 8 v]
  else if v < 1 <<< 14 then [BitVec.ofNat 8 (v ||| 128), BitVec.ofNat 8 (v >>> 7)]
  else if v < 1 <<< 21 then
    [BitVec.ofNat 8 (v ||| 128), BitVec.ofNat 8 ((v >>> 7) ||| 128), BitVec.ofNat 8 (v >>> 14)]
  else if v < 1 <<< 28 then
    [BitVec.ofNat 8 (v ||| 128), BitVec.ofNat 8 ((v >>> 7) ||| 128), BitVec.ofNat 8 ((v >>> 14) ||| 128),
      BitVec.ofNat 8 (v >>> 21)]
  else
    [BitVec.ofNat 8 (v ||| 128), BitVec.ofNat 8 ((v >>> 7) ||| 128), BitVec.ofNat 8 ((v >>> 14) ||| 128),
      BitVec.ofNat 8 ((v >>> 21) ||| 128), BitVec.ofNat 8 (v >>> 28)]

def encodeVarint64 (v : Nat) : List Byte :=
  if 128 ≤ v then BitVec.ofNat 8 ((v &&& 127) ||| 128) :: encodeVarint64 (v >>> 7) else [BitVec.ofNat 8 v]
termination_by v
decreasing_by
  rw [Nat.shiftRight_eq_div_pow]
  omega

def putVarint32 (dst : List Byte) (v : Nat) : List Byte := dst ++ encodeVarint32 v

/-- The length is passed on as a `uint32_t`. -/
def putLengthPrefixedSlice (dst value : List Byte) : List Byte :=
  putVarint32 dst (value.length % 4294967296) ++ value

def varintLength (v : Nat) : Nat := if 128 ≤ v then varintLength (v >>> 7) + 1 else 1
termination_by v
decreasing_by
  rw [Nat.shiftRight_eq_div_pow]
  omega

/-- The loop of the readers, for `rounds` more bytes and a result of `bits` bits. -/
def getVarintLoop (bits : Nat) : Nat → Nat → Nat → List Byte → Option (Nat × List Byte)
  | 0, _, _, _ => none
  | _ + 1, _, _, [] => none
  | rounds + 1, shift, result, byte :: p =>
    if byte.toNat &&& 128 ≠ 0 then
      getVarintLoop bits rounds (shift + 7) (result ||| ((byte.toNat &&& 127) <<< shift) % 2 ^ bits) p
    else some (result ||| (byte.toNat <<< shift) % 2 ^ bits, p)

/-- `shift` runs over 0, 7, .., 28. -/
def getVarint32PtrFallback (p : List Byte) : Option (Nat × List Byte) := getVarintLoop 32 5 0 0 p

def getVarint32Ptr (p : List Byte) : Option (Nat × List Byte) :=
  match p with
  | byte :: rest => if byte.toNat &&& 128 = 0 then some (byte.toNat, rest) else getVarint32PtrFallback p
  | [] => getVarint32PtrFallback p

def getVarint32 (input : List Byte) : Option (Nat × List Byte) := getVarint32Ptr input

def getLengthPrefixedSlice (input : List Byte) : Option (List Byte × List Byte) := do
  let (len, input) ← getVarint32 input
  if len ≤ input.length then some (input.take len, input.drop len) else none

section Fixed

theorem encodeFixed_length (n value : Nat) : (encodeFixed n value).length = n := by
  rw [encodeFixed, List.length_map, List.length_range]

theorem encodeFixed_succ (n value : Nat) :
    encodeFixed (n + 1) value = BitVec.ofNat 8 value :: encodeFixed n (value / 256) := by
  rw [encodeFixed, encodeFixed, List.range_succ_eq_map, List.map_cons, List.map_map]
  congr 1
  apply List.map_congr_left
  intro i _
  rw [Function.comp_apply, Nat.succ_eq_add_one, Nat.mul_add, Nat.mul_one, Nat.add_comm (8 * i) 8, Nat.shiftRight_add,
    Nat.shiftRight_eq_div_pow value 8]

theorem decodeFixed_encodeFixed (n value : Nat) : decodeFixed (encodeFixed n value) = value % 256 ^ n := by
  induction n generalizing value with
  | zero => simp [encodeFixed, decodeFixed, Nat.mod_one]
  | succ n ih =>
    have hrest := ih (value / 256)
    rw [decodeFixed] at hrest
    rw [encodeFixed_succ, decodeFixed, List.foldr_cons, hrest, BitVec.toNat_ofNat,
      show (256 : Nat) ^ (n + 1) = 256 * 256 ^ n from Nat.pow_succ', Nat.mod_mul]

theorem decodeFixed_lt (buf : List Byte) : decodeFixed buf < 256 ^ buf.length := by
  induction buf with
  | nil => simp [decodeFixed]
  | cons b buf ih =>
    have hb := b.isLt
    rw [decodeFixed] at ih
    rw [decodeFixed, List.foldr_cons, List.length_cons, Nat.pow_succ']
    omega

theorem encodeFixed_decodeFixed (buf : List Byte) : encodeFixed buf.length (decodeFixed buf) = buf := by
  induction buf with
  | nil => rfl
  | cons b buf ih =>
    have hb := b.isLt
    have hdiv : decodeFixed (b :: buf) / 256 = decodeFixed buf := by
      rw [decodeFixed, List.foldr_cons]
      change (b.toNat + 256 * decodeFixed buf) / 256 = decodeFixed buf
      omega
    have hlow : BitVec.ofNat 8 (decodeFixed (b :: buf)) = b := by
      apply BitVec.eq_of_toNat_eq
      rw [BitVec.toNat_ofNat, decodeFixed, List.foldr_cons]
      omega
    rw [List.length_cons, encodeFixed_succ, hdiv, hlow, ih]

theorem decodeFixed32_encodeFixed32 {value : Nat} (h : value < 4294967296) (rest : List Byte) :
    decodeFixed32 (encodeFixed32 value ++ rest) = value := by
  rw [decodeFixed32, encodeFixed32, List.take_append_of_le_length (encodeFixed_length 4 value).ge,
    List.take_of_length_le (encodeFixed_length 4 value).le, decodeFixed_encodeFixed]
  exact Nat.mod_eq_of_lt h

theorem decodeFixed64_encodeFixed64 {value : Nat} (h : value < 18446744073709551616) (rest : List Byte) :
    decodeFixed64 (encodeFixed64 value ++ rest) = value := by
  rw [decodeFixed64, encodeFixed64, List.take_append_of_le_length (encodeFixed_length 8 value).ge,
    List.take_of_length_le (encodeFixed_length 8 value).le, decodeFixed_encodeFixed]
  exact Nat.mod_eq_of_lt h

end Fixed

section Varint

def moreByte (v : Nat) : Byte := BitVec.ofNat 8 (v % 128 + 128)

theorem or_128 (v : Nat) : BitVec.ofNat 8 (v ||| 128) = moreByte v := by
  apply BitVec.eq_of_toNat_eq
  have hor : (v % 256) ||| 128 = v % 128 + 128 := by
    have hall : ∀ x < 256, x ||| 128 = x % 128 + 128 := by decide +kernel
    rw [hall _ (Nat.mod_lt v (by decide))]
    omega
  rw [moreByte, BitVec.toNat_ofNat, BitVec.toNat_ofNat, show (2 : Nat) ^ 8 = 256 from rfl]
  have hmod := Nat.or_mod_two_pow (a := v) (b := 128) (n := 8)
  rw [show (2 : Nat) ^ 8 = 256 from rfl, show 128 % 256 = 128 from rfl, hor] at hmod
  rw [hmod]
  omega

theorem and_127_or_128 (v : Nat) : BitVec.ofNat 8 ((v &&& 127) ||| 128) = moreByte v := by
  have hand : v &&& 127 = v % 128 := Nat.and_two_pow_sub_one_eq_mod v 7
  rw [or_128, hand, moreByte, moreByte, Nat.mod_mod]

theorem moreByte_toNat (v : Nat) : (moreByte v).toNat = v % 128 + 128 := by
  rw [moreByte, BitVec.toNat_ofNat]
  omega

theorem encodeVarint64_of_lt {v : Nat} (h : v < 128) : encodeVarint64 v = [BitVec.ofNat 8 v] := by
  rw [encodeVarint64, if_neg (Nat.not_le.mpr h)]

theorem encodeVarint64_of_le {v : Nat} (h : 128 ≤ v) : encodeVarint64 v = moreByte v :: encodeVarint64 (v / 128) := by
  rw [encodeVarint64, if_pos h, and_127_or_128, Nat.shiftRight_eq_div_pow]

theorem encodeVarint32_eq {v : Nat} (h : v < 4294967296) : encodeVarint32 v = encodeVarint64 v := by
  have h1 : v >>> 7 = v / 128 := Nat.shiftRight_eq_div_pow v 7
  have h2 : v >>> 14 = v / 128 / 128 := by rw [Nat.shiftRight_eq_div_pow, Nat.div_div_eq_div_mul]
  have h3 : v >>> 21 = v / 128 / 128 / 128 := by
    rw [Nat.shiftRight_eq_div_pow, Nat.div_div_eq_div_mul, Nat.div_div_eq_div_mul]
  have h4 : v >>> 28 = v / 128 / 128 / 128 / 128 := by
    rw [Nat.shiftRight_eq_div_pow, Nat.div_div_eq_div_mul, Nat.div_div_eq_div_mul, Nat.div_div_eq_div_mul]
  simp only [encodeVarint32, h1, h2, h3, h4, or_128]
  split
  case isTrue hv => rw [encodeVarint64_of_lt (by omega)]
  case isFalse hv =>
    rw [encodeVarint64_of_le (show 128 ≤ v by omega)]
    split
    case isTrue hv1 => rw [encodeVarint64_of_lt (by omega)]
    case isFalse hv1 =>
      rw [encodeVarint64_of_le (show 128 ≤ v / 128 by omega)]
      split
      case isTrue hv2 => rw [encodeVarint64_of_lt (by omega)]
      case isFalse hv2 =>
        rw [encodeVarint64_of_le (show 128 ≤ v / 128 / 128 by omega)]
        split
        case isTrue hv3 => rw [encodeVarint64_of_lt (by omega)]
        case isFalse hv3 =>
          rw [encodeVarint64_of_le (show 128 ≤ v / 128 / 128 / 128 by omega), encodeVarint64_of_lt (by omega)]

theorem varintLength_eq (v : Nat) : varintLength v = (encodeVarint64 v).length := by
  induction v using Nat.strongRecOn with
  | ind v ih =>
    rw [varintLength]
    by_cases hv : v < 128
    · rw [if_neg (Nat.not_le.mpr hv), encodeVarint64_of_lt hv]
      rfl
    · rw [if_pos (Nat.not_lt.mp hv), encodeVarint64_of_le (Nat.not_lt.mp hv), List.length_cons,
        Nat.shiftRight_eq_div_pow, ih (v / 2 ^ 7) (by omega)]

theorem and_128_moreByte (v : Nat) : (moreByte v).toNat &&& 128 ≠ 0 := by
  have hall : ∀ x < 128, (x + 128) &&& 128 ≠ 0 := by decide
  rw [moreByte_toNat]
  exact hall _ (Nat.mod_lt v (by decide))

theorem and_127_moreByte (v : Nat) : (moreByte v).toNat &&& 127 = v % 128 := by
  rw [moreByte_toNat, show (127 : Nat) = 2 ^ 7 - 1 from rfl, Nat.and_two_pow_sub_one_eq_mod]
  omega

theorem and_128_of_lt {x : Nat} (h : x < 128) : x &&& 128 = 0 := by
  have hall : ∀ x < 128, x &&& 128 = 0 := by decide
  exact hall x h

theorem or_shiftLeft {result shift bits x : Nat} (hr : result < 2 ^ shift) (hx : x * 2 ^ shift < 2 ^ bits) :
    result ||| (x <<< shift) % 2 ^ bits = result + x * 2 ^ shift := by
  have hadd := Nat.shiftLeft_add_eq_or_of_lt hr x
  rw [Nat.shiftLeft_eq] at hadd
  rw [Nat.shiftLeft_eq, Nat.mod_eq_of_lt hx, Nat.or_comm, ← hadd, Nat.add_comm]

variable {bits rounds shift result v : Nat}

theorem getVarintLoop_encode (hv : v < 128 ^ (rounds + 1)) (hr : result < 2 ^ shift)
    (hbits : v * 2 ^ shift < 2 ^ bits) (rest : List Byte) :
    getVarintLoop bits (rounds + 1) shift result (encodeVarint64 v ++ rest) = some (result + v * 2 ^ shift, rest) := by
  induction rounds generalizing shift result v with
  | zero =>
    have hlt : v < 128 := by simpa using hv
    have hbyte : (BitVec.ofNat 8 v).toNat = v := by
      rw [BitVec.toNat_ofNat]
      omega
    rw [encodeVarint64_of_lt hlt, List.singleton_append, getVarintLoop, hbyte, if_neg (not_not.mpr (and_128_of_lt hlt)),
      or_shiftLeft hr hbits]
  | succ rounds ih =>
    by_cases hlt : v < 128
    · have hbyte : (BitVec.ofNat 8 v).toNat = v := by
        rw [BitVec.toNat_ofNat]
        omega
      rw [encodeVarint64_of_lt hlt, List.singleton_append, getVarintLoop, hbyte,
        if_neg (not_not.mpr (and_128_of_lt hlt)), or_shiftLeft hr hbits]
    · have hpow : (2 : Nat) ^ (shift + 7) = 2 ^ shift * 128 := by rw [Nat.pow_add]
      have hsplit : v % 128 * 2 ^ shift + v / 128 * 2 ^ (shift + 7) = v * 2 ^ shift := by
        rw [hpow, Nat.mul_comm (2 ^ shift) 128, ← Nat.mul_assoc, ← Nat.add_mul, Nat.mul_comm (v / 128) 128,
          Nat.mod_add_div]
      have hlow : result + v % 128 * 2 ^ shift < 2 ^ (shift + 7) := by
        have hmul := Nat.mul_le_mul_right (2 ^ shift) (show v % 128 ≤ 127 by omega)
        rw [hpow]
        omega
      rw [encodeVarint64_of_le (Nat.not_lt.mp hlt), List.cons_append, getVarintLoop, if_pos (and_128_moreByte v),
        and_127_moreByte, or_shiftLeft hr (by omega), ih ?_ hlow (by omega), Nat.add_assoc, hsplit]
      rw [Nat.pow_succ] at hv
      exact Nat.div_lt_of_lt_mul (by rwa [Nat.mul_comm])

/-- Nothing is read from a part of an encoding. -/
theorem getVarintLoop_cut (rounds shift result : Nat) {text : List Byte} (htext : text <+: encodeVarint64 v)
    (hne : text ≠ encodeVarint64 v) : getVarintLoop bits rounds shift result text = none := by
  induction rounds generalizing shift result v text with
  | zero => rfl
  | succ rounds ih =>
    cases text with
    | nil => rfl
    | cons b text =>
      by_cases hlt : v < 128
      · rw [encodeVarint64_of_lt hlt] at htext hne
        obtain ⟨rfl, hnil⟩ := List.cons_prefix_cons.mp htext
        rw [List.prefix_nil.mp hnil] at hne
        exact absurd rfl hne
      · rw [encodeVarint64_of_le (Nat.not_lt.mp hlt)] at htext hne
        obtain ⟨rfl, hpre⟩ := List.cons_prefix_cons.mp htext
        rw [getVarintLoop, if_pos (and_128_moreByte v)]
        exact ih _ _ hpre (fun he => hne (by rw [he]))

theorem getVarint32Ptr_eq (p : List Byte) : getVarint32Ptr p = getVarint32PtrFallback p := by
  cases p with
  | nil => rfl
  | cons byte rest =>
    rw [getVarint32Ptr]
    split
    case isTrue hlow =>
      have hbyte : byte.toNat < 2 ^ 32 := byte.isLt.trans (by decide)
      rw [getVarint32PtrFallback, getVarintLoop, if_neg (not_not.mpr hlow), Nat.shiftLeft_zero, Nat.mod_eq_of_lt hbyte,
        Nat.zero_or]
    case isFalse => rfl

theorem getVarintLoop_length {bits rounds shift result : Nat} {p rest : List Byte} {v : Nat}
    (h : getVarintLoop bits rounds shift result p = some (v, rest)) : rest.length < p.length := by
  induction rounds generalizing shift result p with
  | zero =>
    rw [getVarintLoop] at h
    cases h
  | succ rounds ih =>
    cases p with
    | nil =>
      rw [getVarintLoop] at h
      cases h
    | cons byte p =>
      rw [getVarintLoop] at h
      split at h
      · exact Nat.lt_succ_of_lt (ih h)
      · obtain ⟨-, rfl⟩ := Prod.mk.inj (Option.some.inj h)
        exact Nat.lt_succ_self _

theorem getLengthPrefixedSlice_length {input value rest : List Byte}
    (h : getLengthPrefixedSlice input = some (value, rest)) : rest.length < input.length := by
  rw [getLengthPrefixedSlice] at h
  cases hlen : getVarint32 input with
  | none =>
    rw [hlen] at h
    cases h
  | some found =>
    obtain ⟨len, tail⟩ := found
    rw [hlen, Option.bind_eq_bind, Option.bind_some] at h
    simp only at h
    split at h
    · obtain ⟨-, rfl⟩ := Prod.mk.inj (Option.some.inj h)
      have htail : tail.length < input.length := by
        rw [getVarint32, getVarint32Ptr_eq] at hlen
        exact getVarintLoop_length hlen
      rw [List.length_drop]
      omega
    · cases h

end Varint

section Codes

def varint32 : Code Byte Nat := ⟨encodeVarint32, getVarint32⟩

def lengthPrefixed : Code Byte (List Byte) := ⟨putLengthPrefixedSlice [], getLengthPrefixedSlice⟩

theorem varint32_lawful : Lawful (fun v => v < 4294967296) varint32 where
  read v hv rest := by
    change getVarint32Ptr (encodeVarint32 v ++ rest) = some (v, rest)
    rw [getVarint32Ptr_eq, encodeVarint32_eq hv, getVarint32PtrFallback,
      getVarintLoop_encode (by omega) (by decide) (by omega)]
    simp
  cut v hv text htext hne := by
    change getVarint32Ptr text = none
    change text <+: encodeVarint32 v at htext
    change text ≠ encodeVarint32 v at hne
    rw [encodeVarint32_eq hv] at htext hne
    rw [getVarint32Ptr_eq]
    exact getVarintLoop_cut 5 0 0 htext hne

theorem lengthPrefixed_lawful : Lawful (fun value => value.length < 4294967296) lengthPrefixed where
  read value hv rest := by
    change getLengthPrefixedSlice (encodeVarint32 (value.length % 4294967296) ++ value ++ rest) = some (value, rest)
    have hread := varint32_lawful.read value.length hv (value ++ rest)
    change getVarint32 (encodeVarint32 value.length ++ (value ++ rest)) = some (value.length, value ++ rest) at hread
    rw [Nat.mod_eq_of_lt hv, List.append_assoc, getLengthPrefixedSlice, hread]
    simp
  cut value hv text htext hne := by
    change text <+: encodeVarint32 (value.length % 4294967296) ++ value at htext
    change text ≠ encodeVarint32 (value.length % 4294967296) ++ value at hne
    change getLengthPrefixedSlice text = none
    rw [Nat.mod_eq_of_lt hv] at htext hne
    rw [getLengthPrefixedSlice]
    obtain ⟨hpre, hne'⟩ | ⟨t, rfl, ht⟩ := prefix_append_cases htext
    · have hcut : getVarint32 text = none := varint32_lawful.cut value.length hv text hpre hne'
      rw [hcut]
      rfl
    · have hread : getVarint32 (encodeVarint32 value.length ++ t) = some (value.length, t) :=
        varint32_lawful.read value.length hv t
      have hlt : t.length < value.length := by
        refine lt_of_le_of_ne ht.length_le (fun he => hne ?_)
        rw [ht.eq_of_length he]
      rw [hread, Option.bind_eq_bind, Option.bind_some]
      simp only
      rw [if_neg (by omega)]

end Codes

end RecordStore.Coding
