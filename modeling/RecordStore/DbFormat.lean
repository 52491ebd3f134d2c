import RecordStore.Coding
import RecordStore.Outcome
import RecordStore.ThreeWay

namespace RecordStore.DbFormat

open RecordStore.CFile RecordStore.Outcome RecordStore.Coding RecordStore.ThreeWay RecordStore.PrefixCode

inductive ValueType where
  | deletion
  | value
  deriving DecidableEq, Repr

def ValueType.code : ValueType → Nat
  | .deletion => 0
  | .value => 1

/-- `kL0_SlowdownWritesTrigger`: from so many files at level 0 on a write is delayed. -/
def l0SlowdownWritesTrigger : Nat := 8

def l0StopWritesTrigger : Nat := 12

def maxSequenceNumber : Nat := 72057594037927935

structure ParsedInternalKey where
  userKey : List Byte
  sequence : Nat
  type : ValueType
  deriving DecidableEq

def packSequenceAndType (seq : Nat) (t : ValueType) : Except Fault Nat :=
  if seq ≤ maxSequenceNumber then .ok ((seq <<< 8) ||| t.code) else .error .assertFailed

def appendInternalKey (result : List Byte) (key : ParsedInternalKey) : Except Fault (List Byte) := do
  let tag ← packSequenceAndType key.sequence key.type
  .ok (putFixed64 (result ++ key.userKey) tag)

def userKeyOf (internalKey : List Byte) : List Byte := internalKey.take (internalKey.length - 8)

def extractUserKey (internalKey : List Byte) : Except Fault (List Byte) :=
  if 8 ≤ internalKey.length then .ok (userKeyOf internalKey) else .error .assertFailed

def tagOf (internalKey : List Byte) : Nat := decodeFixed64 (internalKey.drop (internalKey.length - 8))

def parseInternalKey (internalKey : List Byte) : Option ParsedInternalKey :=
  if internalKey.length < 8 then none
  else
    let num := tagOf internalKey
    let c := num &&& 0xff
    if c = 0 then some ⟨userKeyOf internalKey, num >>> 8, .deletion⟩
    else if c = 1 then some ⟨userKeyOf internalKey, num >>> 8, .value⟩
    else none

/-- Greater tags come first. -/
def tagCompare (anum bnum : Nat) : Int := if bnum < anum then -1 else if anum < bnum then 1 else 0

/-- `Compare` of `InternalKeyComparator`, on keys that have a tag. -/
def internalCompare (userCompare : List Byte → List Byte → Int) (akey bkey : List Byte) : Int :=
  let r := userCompare (userKeyOf akey) (userKeyOf bkey)
  if r = 0 then tagCompare (tagOf akey) (tagOf bkey) else r

/-- `Compare` on any keys, with the assertions in it. -/
def checkedCompare (userCompare : List Byte → List Byte → Int) (akey bkey : List Byte) : Except Fault Int := do
  let _ ← extractUserKey akey
  let _ ← extractUserKey bkey
  .ok (internalCompare userCompare akey bkey)

/-- `LookupKey`: its key for a memtable, of which the internal key and the user key are parts. -/
structure LookupKey where
  memtableKey : List Byte
  internalKey : List Byte
  userKey : List Byte

def LookupKey.new (userKey : List Byte) (s : Nat) : Except Fault LookupKey := do
  let tag ← packSequenceAndType s .value
  let internalKey := userKey ++ encodeFixed64 tag
  .ok ⟨encodeVarint32 ((userKey.length + 8) % 4294967296) ++ internalKey, internalKey, userKey⟩

section Tags

theorem pack_eq {seq : Nat} (h : seq ≤ maxSequenceNumber) (t : ValueType) :
    packSequenceAndType seq t = .ok (seq * 256 + t.code) := by
  have hcode : t.code < 2 ^ 8 := by cases t <;> decide
  rw [packSequenceAndType, if_pos h, ← Nat.shiftLeft_add_eq_or_of_lt hcode, Nat.shiftLeft_eq]

theorem tag_lt {seq : Nat} (h : seq ≤ maxSequenceNumber) (t : ValueType) :
    seq * 256 + t.code < 18446744073709551616 := by
  have hcode : t.code < 256 := by cases t <;> decide
  unfold maxSequenceNumber at h
  omega

def internalKeyOf (userKey : List Byte) (tag : Nat) : List Byte := userKey ++ encodeFixed64 tag

theorem internalKeyOf_length (userKey : List Byte) (tag : Nat) :
    (internalKeyOf userKey tag).length = userKey.length + 8 := by
  rw [internalKeyOf, List.length_append, encodeFixed64, encodeFixed_length]

@[simp] theorem userKeyOf_internalKeyOf (userKey : List Byte) (tag : Nat) :
    userKeyOf (internalKeyOf userKey tag) = userKey := by
  rw [userKeyOf, internalKeyOf_length, Nat.add_sub_cancel, internalKeyOf]
  exact List.take_left' rfl

theorem extractUserKey_eq {internalKey : List Byte} (h : 8 ≤ internalKey.length) :
    extractUserKey internalKey = .ok (userKeyOf internalKey) := if_pos h

theorem checkedCompare_eq {akey bkey : List Byte} (ha : 8 ≤ akey.length) (hb : 8 ≤ bkey.length)
    (userCompare : List Byte → List Byte → Int) :
    checkedCompare userCompare akey bkey = .ok (internalCompare userCompare akey bkey) := by
  rw [checkedCompare, extractUserKey_eq ha, ok_bind, extractUserKey_eq hb, ok_bind]

theorem tagOf_of (userKey : List Byte) {tag : Nat} (h : tag < 18446744073709551616) :
    tagOf (internalKeyOf userKey tag) = tag := by
  have hdecode := decodeFixed64_encodeFixed64 h []
  rw [List.append_nil] at hdecode
  rw [tagOf, internalKeyOf_length, Nat.add_sub_cancel, internalKeyOf, List.drop_left' rfl, hdecode]

theorem appendInternalKey_eq (result : List Byte) {key : ParsedInternalKey} (h : key.sequence ≤ maxSequenceNumber) :
    appendInternalKey result key =
      .ok (result ++ internalKeyOf key.userKey (key.sequence * 256 + key.type.code)) := by
  rw [appendInternalKey, pack_eq h, ok_bind, putFixed64, List.append_assoc]
  rfl

theorem parseInternalKey_of {key : ParsedInternalKey} (h : key.sequence ≤ maxSequenceNumber) :
    parseInternalKey (internalKeyOf key.userKey (key.sequence * 256 + key.type.code)) = some key := by
  have hcode : key.type.code < 256 := by cases key.type <;> decide
  have hlen : ¬ (internalKeyOf key.userKey (key.sequence * 256 + key.type.code)).length < 8 := by
    rw [internalKeyOf_length]
    omega
  have hand : (key.sequence * 256 + key.type.code) &&& 0xff = key.type.code := by
    rw [show (key.sequence * 256 + key.type.code) &&& 0xff = (key.sequence * 256 + key.type.code) % 256 from
      Nat.and_two_pow_sub_one_eq_mod _ 8]
    omega
  have hshift : (key.sequence * 256 + key.type.code) >>> 8 = key.sequence := by
    rw [Nat.shiftRight_eq_div_pow]
    omega
  rw [parseInternalKey, if_neg hlen]
  simp only [tagOf_of key.userKey (tag_lt h key.type), hand, hshift, userKeyOf_internalKeyOf]
  obtain ⟨userKey, sequence, type⟩ := key
  cases type <;> rfl

theorem lookupKey_eq {s : Nat} (h : s ≤ maxSequenceNumber) {userKey : List Byte} (hlen : userKey.length + 8 < 4294967296) :
    LookupKey.new userKey s = .ok ⟨putLengthPrefixedSlice [] (internalKeyOf userKey (s * 256 + 1)),
      internalKeyOf userKey (s * 256 + 1), userKey⟩ := by
  rw [LookupKey.new, pack_eq h, ok_bind, putLengthPrefixedSlice, internalKeyOf_length, Nat.mod_eq_of_lt hlen]
  rfl

end Tags

section Order

variable {p : List Byte → Prop} {userCompare : List Byte → List Byte → Int}

theorem tagCompare_orders : Orders (fun _ => True) tagCompare where
  swap a b _ _ := by
    unfold tagCompare
    grind
  trans a b c _ _ _ := by
    unfold tagCompare
    grind

theorem internalCompare_eq (akey bkey : List Byte) : internalCompare userCompare akey bkey =
    firstNonzero [userCompare (userKeyOf akey) (userKeyOf bkey), tagCompare (tagOf akey) (tagOf bkey)] := by
  unfold internalCompare firstNonzero firstNonzero firstNonzero
  grind

theorem internalCompare_orders (h : Orders p userCompare) :
    Orders (fun k => p (userKeyOf k)) (internalCompare userCompare) := by
  have huser : Orders (fun k => p (userKeyOf k)) (fun a b => userCompare (userKeyOf a) (userKeyOf b)) :=
    h.comap userKeyOf fun _ hk => hk
  have htag : Orders (fun k => p (userKeyOf k)) (fun a b => tagCompare (tagOf a) (tagOf b)) :=
    tagCompare_orders.comap tagOf fun _ _ => trivial
  have hlex := Orders.lex (f := fun (i : List Byte → List Byte → Int) a b => i a b)
    (l := [fun a b => userCompare (userKeyOf a) (userKeyOf b), fun a b => tagCompare (tagOf a) (tagOf b)])
    (p := fun k => p (userKeyOf k)) (by
      intro i hi
      obtain rfl | hi := List.mem_cons.mp hi
      · exact huser
      · exact List.mem_singleton.mp hi ▸ htag)
  have heq : internalCompare userCompare = fun a b => firstNonzero
      [userCompare (userKeyOf a) (userKeyOf b), tagCompare (tagOf a) (tagOf b)] := by
    funext a b
    exact internalCompare_eq a b
  rw [heq]
  exact hlex

end Order

end RecordStore.DbFormat
