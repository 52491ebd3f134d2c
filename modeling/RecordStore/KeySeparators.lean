import RecordStore.DbFormat

namespace RecordStore.KeySeparators

open RecordStore.CFile RecordStore.Outcome RecordStore.ThreeWay RecordStore.DbFormat

section Bytewise

def memcmp : List Byte → List Byte → Int
  | x :: a, y :: b => if x = y then memcmp a b else (x.toNat : Int) - y.toNat
  | _, _ => 0

/-- `compare` of a slice, and `Compare` of the bytewise comparator. -/
def sliceCompare (a b : List Byte) : Int :=
  let r := memcmp a b
  if r = 0 then (if a.length < b.length then -1 else if b.length < a.length then 1 else 0) else r

def commonPrefix : List Byte → List Byte → Nat
  | x :: a, y :: b => if x = y then commonPrefix a b + 1 else 0
  | _, _ => 0

def findShortestSeparator (start limit : List Byte) : Except Fault (List Byte) :=
  let diffIndex := commonPrefix start limit
  if min start.length limit.length ≤ diffIndex then .ok start
  else
    let diffByte := (start.getD diffIndex 0).toNat
    if diffByte < 0xff ∧ diffByte + 1 < (limit.getD diffIndex 0).toNat then
      let start := start.take diffIndex ++ [BitVec.ofNat 8 (diffByte + 1)]
      if sliceCompare start limit < 0 then .ok start else .error .assertFailed
    else .ok start

def findShortSuccessor : List Byte → List Byte
  | [] => []
  | byte :: key => if byte.toNat ≠ 0xff then [BitVec.ofNat 8 (byte.toNat + 1)] else byte :: findShortSuccessor key

theorem memcmp_self (a : List Byte) : memcmp a a = 0 := by
  induction a with
  | nil => rfl
  | cons x a ih => rw [memcmp, if_pos rfl, ih]

theorem sliceCompare_nil (b : List Byte) : sliceCompare [] b = if 0 < b.length then -1 else 0 := by
  simp [sliceCompare, memcmp]

theorem sliceCompare_nil_right (a : List Byte) : sliceCompare a [] = if 0 < a.length then 1 else 0 := by
  cases a <;> simp [sliceCompare, memcmp]

theorem toNat_ne {x y : Byte} (h : x ≠ y) : (x.toNat : Int) - y.toNat ≠ 0 := by
  intro h0
  exact h (BitVec.eq_of_toNat_eq (by omega))

theorem sliceCompare_cons (x y : Byte) (a b : List Byte) :
    sliceCompare (x :: a) (y :: b) = if x = y then sliceCompare a b else (x.toNat : Int) - y.toNat := by
  by_cases h : x = y
  · simp [sliceCompare, memcmp, h]
  · have hne := toNat_ne h
    simp [sliceCompare, memcmp, h, hne]

theorem sliceCompare_self (a : List Byte) : sliceCompare a a = 0 := by
  rw [sliceCompare, memcmp_self, if_pos rfl]
  simp

theorem sliceCompare_swap (a b : List Byte) : sliceCompare a b < 0 ↔ 0 < sliceCompare b a := by
  induction a generalizing b with
  | nil =>
    rw [sliceCompare_nil, sliceCompare_nil_right]
    split <;> simp
  | cons x a ih =>
    cases b with
    | nil =>
      rw [sliceCompare_nil, sliceCompare_nil_right]
      split <;> simp
    | cons y b =>
      rw [sliceCompare_cons, sliceCompare_cons]
      by_cases h : x = y
      · rw [if_pos h, if_pos h.symm]
        exact ih b
      · rw [if_neg h, if_neg (Ne.symm h)]
        omega

theorem sliceCompare_trans (a b c : List Byte) (hab : sliceCompare a b ≤ 0) (hbc : sliceCompare b c ≤ 0) :
    sliceCompare a c ≤ 0 := by
  induction a generalizing b c with
  | nil =>
    rw [sliceCompare_nil]
    split <;> decide
  | cons x a ih =>
    cases b with
    | nil =>
      rw [sliceCompare_nil_right] at hab
      exact absurd hab (by simp)
    | cons y b =>
      cases c with
      | nil =>
        rw [sliceCompare_nil_right] at hbc
        exact absurd hbc (by simp)
      | cons z c =>
        rw [sliceCompare_cons] at hab hbc ⊢
        by_cases hxy : x = y
        · subst hxy
          rw [if_pos rfl] at hab
          by_cases hxz : x = z
          · rw [if_pos hxz] at hbc ⊢
            exact ih b c hab hbc
          · rw [if_neg hxz] at hbc ⊢
            exact hbc
        · rw [if_neg hxy] at hab
          have hne := toNat_ne hxy
          by_cases hyz : y = z
          · subst hyz
            rw [if_neg hxy]
            exact hab
          · rw [if_neg hyz] at hbc
            rw [if_neg fun hxz => by subst hxz; omega]
            omega

theorem sliceCompare_orders : Orders (fun _ => True) sliceCompare where
  swap a b _ _ := sliceCompare_swap a b
  trans a b c _ _ _ := sliceCompare_trans a b c

/-- The separator is cut behind the first byte that differs, and is one greater there. -/
theorem separator_at {start limit : List Byte} (hmin : ¬ min start.length limit.length ≤ commonPrefix start limit)
    (hdiff : (start.getD (commonPrefix start limit) 0).toNat < 0xff ∧
      (start.getD (commonPrefix start limit) 0).toNat + 1 < (limit.getD (commonPrefix start limit) 0).toNat) :
    sliceCompare start (start.take (commonPrefix start limit) ++
        [BitVec.ofNat 8 ((start.getD (commonPrefix start limit) 0).toNat + 1)]) < 0 ∧
      sliceCompare (start.take (commonPrefix start limit) ++
        [BitVec.ofNat 8 ((start.getD (commonPrefix start limit) 0).toNat + 1)]) limit < 0 := by
  induction start generalizing limit with
  | nil => exact absurd (by simp [commonPrefix]) hmin
  | cons x start ih =>
    cases limit with
    | nil => exact absurd (by simp [commonPrefix]) hmin
    | cons y limit =>
      by_cases hxy : x = y
      · subst hxy
        have hpre : commonPrefix (x :: start) (x :: limit) = commonPrefix start limit + 1 := by
          rw [commonPrefix, if_pos rfl]
        rw [hpre] at hmin hdiff ⊢
        simp only [List.length_cons, List.getD_cons_succ, List.take_succ_cons, List.cons_append] at hmin hdiff ⊢
        rw [sliceCompare_cons, sliceCompare_cons, if_pos rfl, if_pos rfl]
        exact ih (by omega) hdiff
      · have hpre : commonPrefix (x :: start) (y :: limit) = 0 := by
          rw [commonPrefix, if_neg hxy]
        rw [hpre] at hdiff ⊢
        simp only [List.getD_cons_zero, List.take_zero, List.nil_append] at hdiff ⊢
        have hnext : (BitVec.ofNat 8 (x.toNat + 1)).toNat = x.toNat + 1 := by
          rw [BitVec.toNat_ofNat]
          omega
        have hne : ∀ z : Byte, z.toNat ≠ x.toNat + 1 → z ≠ BitVec.ofNat 8 (x.toNat + 1) := fun z hz he =>
          hz (he ▸ hnext)
        rw [sliceCompare_cons, sliceCompare_cons, if_neg (hne x (by omega)), if_neg (hne y (by omega)).symm, hnext]
        omega

/-- What a comparator promises of its separators and successors. -/
structure Shortens (p : List Byte → Prop) (compare : List Byte → List Byte → Int)
    (separator : List Byte → List Byte → Except Fault (List Byte)) (successor : List Byte → List Byte) : Prop where
  separator : ∀ start limit, p start → p limit → compare start limit ≤ 0 →
    ∃ key, separator start limit = .ok key ∧ p key ∧ compare start key ≤ 0 ∧ compare key limit ≤ 0 ∧
      (compare start limit < 0 → compare key limit < 0)
  successor : ∀ key, p key → p (successor key) ∧ compare key (successor key) ≤ 0

theorem findShortSuccessor_le (key : List Byte) : sliceCompare key (findShortSuccessor key) ≤ 0 := by
  induction key with
  | nil => decide
  | cons byte key ih =>
    rw [findShortSuccessor]
    have hlt := byte.isLt
    split
    · have hnext : (BitVec.ofNat 8 (byte.toNat + 1)).toNat = byte.toNat + 1 := by
        rw [BitVec.toNat_ofNat]
        omega
      rw [sliceCompare_cons, if_neg (fun he => by rw [← he] at hnext; omega), hnext]
      omega
    · rw [sliceCompare_cons, if_pos rfl]
      exact ih

theorem bytewise_shortens : Shortens (fun _ => True) sliceCompare findShortestSeparator findShortSuccessor where
  separator start limit _ _ hle := by
    unfold findShortestSeparator
    simp only
    split
    · exact ⟨start, rfl, trivial, (sliceCompare_self start).le, hle, id⟩
    · rename_i hmin
      split
      · rename_i hdiff
        obtain ⟨hstart, hlimit⟩ := separator_at hmin hdiff
        rw [if_pos hlimit]
        exact ⟨_, rfl, trivial, hstart.le, hlimit.le, fun _ => hlimit⟩
      · exact ⟨start, rfl, trivial, (sliceCompare_self start).le, hle, id⟩
  successor key _ := ⟨trivial, findShortSuccessor_le key⟩

end Bytewise

section Internal

variable (userCompare : List Byte → List Byte → Int)

/-- A user key with the tag that comes first of all. -/
def withFirstTag (userKey : List Byte) : Except Fault (List Byte) :=
  appendInternalKey [] ⟨userKey, maxSequenceNumber, .value⟩

def internalSeparator (separator : List Byte → List Byte → Except Fault (List Byte)) (start limit : List Byte) :
    Except Fault (List Byte) := do
  let userStart ← extractUserKey start
  let userLimit ← extractUserKey limit
  let tmp ← separator userStart userLimit
  if tmp.length < userStart.length ∧ userCompare userStart tmp < 0 then do
    let tmp ← withFirstTag tmp
    let behindStart ← checkedCompare userCompare start tmp
    let beforeLimit ← checkedCompare userCompare tmp limit
    if behindStart < 0 ∧ beforeLimit < 0 then .ok tmp else .error .assertFailed
  else .ok start

def internalSuccessor (successor : List Byte → List Byte) (key : List Byte) : Except Fault (List Byte) := do
  let userKey ← extractUserKey key
  let tmp := successor userKey
  if tmp.length < userKey.length ∧ userCompare userKey tmp < 0 then do
    let tmp ← withFirstTag tmp
    let behindKey ← checkedCompare userCompare key tmp
    if behindKey < 0 then .ok tmp else .error .assertFailed
  else .ok key

variable {userCompare} {p : List Byte → Prop} {separator : List Byte → List Byte → Except Fault (List Byte)}
  {successor : List Byte → List Byte}

theorem withFirstTag_eq (userKey : List Byte) :
    withFirstTag userKey = .ok (internalKeyOf userKey (maxSequenceNumber * 256 + 1)) := appendInternalKey_eq [] le_rfl

theorem internalCompare_of_lt {a b : List Byte} (h : userCompare (userKeyOf a) (userKeyOf b) < 0) :
    internalCompare userCompare a b < 0 := by
  unfold internalCompare
  simp only
  rw [if_neg h.ne]
  exact h

theorem userCompare_of_internal {a b : List Byte} (h : internalCompare userCompare a b < 0) :
    userCompare (userKeyOf a) (userKeyOf b) ≤ 0 := by
  unfold internalCompare at h
  simp only at h
  split at h
  · rename_i hzero
    exact hzero.le
  · exact h.le

theorem userKeyOf_length (key : List Byte) : (userKeyOf key).length = key.length - 8 := by
  rw [userKeyOf, List.length_take]
  omega

/-- What becomes of an internal key when its user key becomes `tmp`: the tag is put behind it that comes first of all, if
it is shorter and behind the user key. -/
def shortened (userCompare : List Byte → List Byte → Int) (key tmp : List Byte) : List Byte :=
  if tmp.length < (userKeyOf key).length ∧ userCompare (userKeyOf key) tmp < 0 then
    internalKeyOf tmp (maxSequenceNumber * 256 + 1)
  else key

theorem shortened_spec (ho : Orders p userCompare) {key tmp : List Byte} (hlong : 8 ≤ key.length) (hkey : p (userKeyOf key))
    (htmp : p tmp) : p (userKeyOf (shortened userCompare key tmp)) ∧
      internalCompare userCompare key (shortened userCompare key tmp) ≤ 0 ∧
      (shortened userCompare key tmp).length ≤ key.length := by
  have hself : internalCompare userCompare key key ≤ 0 := ((internalCompare_orders ho).self hkey).le
  rw [shortened]
  split
  · rename_i hshort
    refine ⟨by rwa [userKeyOf_internalKeyOf], ?_, ?_⟩
    · exact (internalCompare_of_lt (by rw [userKeyOf_internalKeyOf]; exact hshort.2)).le
    · have hlen := hshort.1
      rw [userKeyOf_length] at hlen
      rw [internalKeyOf_length]
      omega
  · exact ⟨hkey, hself, le_rfl⟩

theorem internalCompare_shorter {key tmp : List Byte} (hlong : 8 ≤ key.length) (h : userCompare (userKeyOf key) tmp < 0) :
    checkedCompare userCompare key (internalKeyOf tmp (maxSequenceNumber * 256 + 1)) =
        .ok (internalCompare userCompare key (internalKeyOf tmp (maxSequenceNumber * 256 + 1))) ∧
      internalCompare userCompare key (internalKeyOf tmp (maxSequenceNumber * 256 + 1)) < 0 := by
  refine ⟨checkedCompare_eq hlong ?_ userCompare, internalCompare_of_lt ?_⟩
  · rw [internalKeyOf_length]
    exact Nat.le_add_left ..
  · rwa [userKeyOf_internalKeyOf]

/-- Between an internal key and one behind it, and behind an internal key: no assertion fails, and the key that is found
is made of what the user comparator finds. It is not before the first one, before the second one, and not longer than the
first one. -/
theorem internal_keys_separate (ho : Orders p userCompare) (hs : Shortens p userCompare separator successor)
    {start : List Byte} (hlong : 8 ≤ start.length) (hstart : p (userKeyOf start)) :
    (∀ limit, 8 ≤ limit.length → p (userKeyOf limit) → internalCompare userCompare start limit < 0 →
      ∃ tmp key, separator (userKeyOf start) (userKeyOf limit) = .ok tmp ∧
        internalSeparator userCompare separator start limit = .ok key ∧ key = shortened userCompare start tmp ∧
        p (userKeyOf key) ∧ internalCompare userCompare start key ≤ 0 ∧ internalCompare userCompare key limit < 0 ∧
        key.length ≤ start.length) ∧
    ∃ key, internalSuccessor userCompare successor start = .ok key ∧
      key = shortened userCompare start (successor (userKeyOf start)) ∧ p (userKeyOf key) ∧
      internalCompare userCompare start key ≤ 0 ∧ key.length ≤ start.length := by
  constructor
  · intro limit hlimitLong hlimit hlt
    obtain ⟨tmp, htmp, hp, hge, hle, hbelow⟩ := hs.separator _ _ hstart hlimit (userCompare_of_internal hlt)
    obtain ⟨hkeys, hbehind, hlen⟩ := shortened_spec ho hlong hstart hp
    refine ⟨tmp, _, htmp, ?_, rfl, hkeys, hbehind, ?_, hlen⟩
    · rw [internalSeparator, extractUserKey_eq hlong, ok_bind, extractUserKey_eq hlimitLong, ok_bind, htmp, ok_bind,
        shortened]
      split
      · rename_i hshort
        obtain ⟨hcompare, hfirst⟩ := internalCompare_shorter hlong hshort.2
        have hbetween := ho.lt_of_lt_of_le hstart hp hlimit hshort.2 hle
        have hsecond : internalCompare userCompare (internalKeyOf tmp (maxSequenceNumber * 256 + 1)) limit < 0 :=
          internalCompare_of_lt (by rw [userKeyOf_internalKeyOf]; exact hbelow hbetween)
        have htagged : 8 ≤ (internalKeyOf tmp (maxSequenceNumber * 256 + 1)).length := by
          rw [internalKeyOf_length]
          exact Nat.le_add_left ..
        rw [withFirstTag_eq, ok_bind, hcompare, ok_bind, checkedCompare_eq htagged hlimitLong, ok_bind,
          if_pos ⟨hfirst, hsecond⟩]
      · rfl
    · rw [shortened]
      split
      · rename_i hshort
        have hbetween := ho.lt_of_lt_of_le hstart hp hlimit hshort.2 hle
        exact internalCompare_of_lt (by rw [userKeyOf_internalKeyOf]; exact hbelow hbetween)
      · exact hlt
  · obtain ⟨hp, -⟩ := hs.successor _ hstart
    obtain ⟨hkeys, hbehind, hlen⟩ := shortened_spec ho hlong hstart hp
    refine ⟨_, ?_, rfl, hkeys, hbehind, hlen⟩
    rw [internalSuccessor, extractUserKey_eq hlong, ok_bind, shortened]
    simp only
    split
    · rename_i hshort
      obtain ⟨hcompare, hfirst⟩ := internalCompare_shorter hlong hshort.2
      rw [withFirstTag_eq, ok_bind, hcompare, ok_bind, if_pos hfirst]
    · rfl

/-- With the bytewise comparator, between the keys "abcd" and "ax" and behind the first of them. -/
theorem internal_keys_separate_bytewise :
    (∃ key, internalSeparator sliceCompare findShortestSeparator (internalKeyOf [97, 98, 99, 100] 1)
        (internalKeyOf [97, 120] 1) = .ok key ∧ key = internalKeyOf [97, 99] (maxSequenceNumber * 256 + 1) ∧
        internalCompare sliceCompare (internalKeyOf [97, 98, 99, 100] 1) key ≤ 0 ∧
        internalCompare sliceCompare key (internalKeyOf [97, 120] 1) < 0) ∧
    ∃ key, internalSuccessor sliceCompare findShortSuccessor (internalKeyOf [97, 98, 99, 100] 1) = .ok key ∧
      key = internalKeyOf [98] (maxSequenceNumber * 256 + 1) ∧
      internalCompare sliceCompare (internalKeyOf [97, 98, 99, 100] 1) key ≤ 0 := by
  have hboth := @internal_keys_separate sliceCompare _ _ _ sliceCompare_orders bytewise_shortens
    (internalKeyOf [97, 98, 99, 100] 1) (by decide) trivial
  obtain ⟨hbetween, key, hsuccessor, hkey, -, hbehind, -⟩ := hboth
  obtain ⟨tmp, key', htmp, hseparator, hkey', -, hstart, hlimit, -⟩ :=
    hbetween (internalKeyOf [97, 120] 1) (by decide) trivial (by decide)
  obtain rfl := Except.ok.inj htmp
  exact ⟨⟨key', hseparator, hkey'.trans (by decide), hstart, hlimit⟩, key, hsuccessor, hkey.trans (by decide), hbehind⟩

end Internal

end RecordStore.KeySeparators
