import RecordStore.KeySeparators
import RecordStore.SkipListRuns

namespace RecordStore.MemTables

open RecordStore.CFile RecordStore.Outcome RecordStore.Coding RecordStore.ThreeWay RecordStore.PrefixCode
open RecordStore.Cursors RecordStore.SkipLists RecordStore.DbFormat

/-- `GetLengthPrefixedSlice` of a pointer into an entry: the slice, and what is behind it. The length
takes five bytes at most. -/
def entrySlice (data : List Byte) : Except Fault (List Byte × List Byte) :=
  match getVarint32Ptr (data.take 5) with
  | some (len, rest) =>
    let data := data.drop ((data.take 5).length - rest.length)
    if len ≤ data.length then .ok (data.take len, data.drop len) else .error .memory
  | none => .error .memory

abbrev MemTable := SkipList (List Byte)

/-- Any key will do for the head of the list; the source takes a null pointer. -/
def newMemTable : MemTable := newSkipList []

section MemTable

variable (userCompare : List Byte → List Byte → Int)

/-- `KeyComparator`. A fault leaves the program, so its value is never used. -/
def keyCompare (a b : List Byte) : Int :=
  match entrySlice a, entrySlice b with
  | .ok (x, _), .ok (y, _) => internalCompare userCompare x y
  | _, _ => 0

def encodeKey (target : List Byte) : List Byte := putVarint32 [] (target.length % 4294967296) ++ target

def encodeEntry (s : Nat) (type : ValueType) (key value : List Byte) : List Byte :=
  encodeVarint32 ((key.length + 8) % 4294967296) ++ (key ++ (encodeFixed64 ((s <<< 8) ||| type.code) ++
    (encodeVarint32 (value.length % 4294967296) ++ value)))

def add (mem : MemTable) (s : Nat) (type : ValueType) (key value : List Byte) : Except Fault MemTable :=
  let internalKeySize := key.length + 8
  let encodedLen := varintLength internalKeySize + internalKeySize + varintLength value.length + value.length
  let buf := encodeEntry s type key value
  if buf.length = encodedLen then insert (keyCompare userCompare) mem buf else .error .assertFailed

inductive GetResult where
  | missing
  | found (value : List Byte)
  | deleted
  deriving DecidableEq

/-- `Get`. The sequence number is not looked at, since the search has gone past the greater ones. -/
def get (mem : MemTable) (key : LookupKey) : Except Fault GetResult := do
  let node ← iteratorSeek (keyCompare userCompare) mem key.memtableKey
  match node with
  | none => .ok .missing
  | some x => do
    let entry ← mem.keyOf x
    let (internalKey, rest) ← entrySlice entry
    if userCompare (userKeyOf internalKey) key.userKey = 0 then
      if tagOf internalKey &&& 0xff = 1 then do
        let (value, _) ← entrySlice rest
        .ok (.found value)
      else if tagOf internalKey &&& 0xff = 0 then .ok .deleted
      else .ok .missing
    else .ok .missing

def decodeEntry (entry : List Byte) : Except Fault (List Byte × List Byte) := do
  let (key, rest) ← entrySlice entry
  let (value, _) ← entrySlice rest
  .ok (key, value)

def memTableIterator (mem : MemTable) : Cursor Fault (Option Nat) (List Byte) (List Byte × List Byte) :=
  (iterator (keyCompare userCompare) mem).map decodeEntry encodeKey

end MemTable

section Encoding

theorem encodeVarint32_length_le (v : Nat) : (encodeVarint32 v).length ≤ 5 := by
  unfold encodeVarint32
  split_ifs <;> simp

theorem entrySlice_read {value : List Byte} (h : value.length < 4294967296) (rest : List Byte) :
    entrySlice (encodeVarint32 (value.length % 4294967296) ++ (value ++ rest)) = .ok (value, rest) := by
  rw [Nat.mod_eq_of_lt h]
  obtain ⟨len, hlen⟩ : ∃ len, encodeVarint32 value.length = len := ⟨_, rfl⟩
  have hle : len.length ≤ 5 := hlen ▸ encodeVarint32_length_le value.length
  have htake : (len ++ (value ++ rest)).take 5 = len ++ (value ++ rest).take (5 - len.length) := by
    rw [List.take_append, List.take_of_length_le hle]
  have hread := varint32_lawful.read value.length h ((value ++ rest).take (5 - len.length))
  change getVarint32Ptr (encodeVarint32 value.length ++ _) = some (value.length, _) at hread
  rw [hlen] at hread ⊢
  rw [entrySlice, htake, hread]
  simp only [List.length_append, Nat.add_sub_cancel]
  rw [List.drop_left, if_pos (by rw [List.length_append]; exact Nat.le_add_right ..), List.take_left, List.drop_left]

theorem varint_length {v : Nat} (h : v < 4294967296) : (encodeVarint32 (v % 4294967296)).length = varintLength v := by
  rw [Nat.mod_eq_of_lt h, encodeVarint32_eq h, varintLength_eq]

theorem encodeEntry_eq {s : Nat} {type : ValueType} (key value : List Byte) :
    encodeEntry s type key value =
      encodeVarint32 ((internalKeyOf key (s * 256 + type.code)).length % 4294967296) ++
        (internalKeyOf key (s * 256 + type.code) ++ (encodeVarint32 (value.length % 4294967296) ++ (value ++ []))) := by
  have hcode : type.code < 2 ^ 8 := by cases type <;> decide
  rw [encodeEntry, internalKeyOf_length, ← Nat.shiftLeft_add_eq_or_of_lt hcode, Nat.shiftLeft_eq, internalKeyOf,
    List.append_nil, List.append_assoc]

theorem encodeEntry_length {s : Nat} {type : ValueType} {key value : List Byte} (hkey : key.length + 8 < 4294967296)
    (hvalue : value.length < 4294967296) : (encodeEntry s type key value).length =
      varintLength (key.length + 8) + (key.length + 8) + varintLength value.length + value.length := by
  simp only [encodeEntry, List.length_append, varint_length hkey, varint_length hvalue, encodeFixed64, encodeFixed_length]
  omega

end Encoding

structure Write where
  sequence : Nat
  type : ValueType
  key : List Byte
  value : List Byte
  deriving DecidableEq

def Write.internalKey (w : Write) : List Byte := internalKeyOf w.key (w.sequence * 256 + w.type.code)

def Write.entry (w : Write) : List Byte := encodeEntry w.sequence w.type w.key w.value

variable {p : List Byte → Prop} {userCompare : List Byte → List Byte → Int}

structure Write.Valid (p : List Byte → Prop) (w : Write) : Prop where
  sequence : w.sequence ≤ maxSequenceNumber
  key : w.key.length + 8 < 4294967296
  value : w.value.length < 4294967296
  holds : p w.key

def Apart (userCompare : List Byte → List Byte → Int) (w w' : Write) : Prop :=
  userCompare w.key w'.key = 0 → w.sequence ≠ w'.sequence

section Order

/-- A text that starts with an internal key: an entry, or what is looked up. -/
def KeyText (p : List Byte → Prop) (text : List Byte) : Prop :=
  ∃ key rest, text = encodeVarint32 (key.length % 4294967296) ++ (key ++ rest) ∧ key.length < 4294967296 ∧
    p (userKeyOf key)

def textKey (text : List Byte) : List Byte :=
  match entrySlice text with
  | .ok (key, _) => key
  | .error _ => []

theorem KeyText.slice {text : List Byte} (h : KeyText p text) : ∃ rest, entrySlice text = .ok (textKey text, rest) := by
  obtain ⟨key, rest, rfl, hlen, -⟩ := h
  refine ⟨rest, ?_⟩
  rw [textKey, entrySlice_read hlen]

theorem keyCompare_eq {a b : List Byte} (ha : KeyText p a) (hb : KeyText p b) :
    keyCompare userCompare a b = internalCompare userCompare (textKey a) (textKey b) := by
  obtain ⟨_, ha⟩ := ha.slice
  obtain ⟨_, hb⟩ := hb.slice
  rw [keyCompare, ha, hb]

theorem KeyText.holds {text : List Byte} (h : KeyText p text) : p (userKeyOf (textKey text)) := by
  obtain ⟨key, rest, rfl, hlen, hp⟩ := h
  rwa [textKey, entrySlice_read hlen]

theorem keyCompare_orders (h : Orders p userCompare) : Orders (KeyText p) (keyCompare userCompare) := by
  have hkeys := (internalCompare_orders h).comap (q := KeyText p) textKey fun _ => KeyText.holds
  constructor
  · intro a b ha hb
    rw [keyCompare_eq ha hb, keyCompare_eq hb ha]
    exact hkeys.swap a b ha hb
  · intro a b c ha hb hc
    rw [keyCompare_eq ha hb, keyCompare_eq hb hc, keyCompare_eq ha hc]
    exact hkeys.trans a b c ha hb hc

theorem entry_slice {w : Write} (hw : w.Valid p) :
    entrySlice w.entry = .ok (w.internalKey, encodeVarint32 (w.value.length % 4294967296) ++ (w.value ++ [])) := by
  rw [Write.entry, encodeEntry_eq, entrySlice_read]
  · rfl
  · rw [internalKeyOf_length]
    exact hw.key

theorem entry_keyText {w : Write} (hw : w.Valid p) : KeyText p w.entry := by
  refine ⟨w.internalKey, encodeVarint32 (w.value.length % 4294967296) ++ (w.value ++ []), encodeEntry_eq _ _, ?_, ?_⟩
  · rw [Write.internalKey, internalKeyOf_length]
    exact hw.key
  · rw [Write.internalKey, userKeyOf_internalKeyOf]
    exact hw.holds

theorem textKey_entry {w : Write} (hw : w.Valid p) : textKey w.entry = w.internalKey := by
  rw [textKey, entry_slice hw]

theorem tagOf_internalKey {w : Write} (hw : w.Valid p) : tagOf w.internalKey = w.sequence * 256 + w.type.code :=
  tagOf_of w.key (tag_lt hw.sequence w.type)

theorem internalCompare_write {w : Write} (hw : w.Valid p) (key : List Byte) {tag : Nat}
    (htag : tag < 18446744073709551616) :
    internalCompare userCompare w.internalKey (internalKeyOf key tag) =
      if userCompare w.key key = 0 then tagCompare (w.sequence * 256 + w.type.code) tag else userCompare w.key key := by
  rw [internalCompare, tagOf_internalKey hw, tagOf_of key htag, Write.internalKey, userKeyOf_internalKeyOf,
    userKeyOf_internalKeyOf]

theorem keyCompare_entry {w w' : Write} (hw : w.Valid p) (hw' : w'.Valid p) :
    keyCompare userCompare w.entry w'.entry =
      if userCompare w.key w'.key = 0 then tagCompare (w.sequence * 256 + w.type.code) (w'.sequence * 256 + w'.type.code)
      else userCompare w.key w'.key := by
  rw [keyCompare_eq (entry_keyText hw) (entry_keyText hw'), textKey_entry hw, textKey_entry hw', Write.internalKey.eq_1 w',
    internalCompare_write hw w'.key (tag_lt hw'.sequence w'.type)]

theorem entry_internalKey {w w' : Write} (hw : w.Valid p) (hw' : w'.Valid p) (h : w.entry = w'.entry) :
    w.internalKey = w'.internalKey := by
  rw [← textKey_entry hw, h, textKey_entry hw']

theorem entry_key {w w' : Write} (hw : w.Valid p) (hw' : w'.Valid p) (h : w.entry = w'.entry) : w.key = w'.key := by
  have hkey := congrArg userKeyOf (entry_internalKey hw hw' h)
  rwa [Write.internalKey, Write.internalKey, userKeyOf_internalKeyOf, userKeyOf_internalKeyOf] at hkey

theorem entry_sequence {w w' : Write} (hw : w.Valid p) (hw' : w'.Valid p) (h : w.entry = w'.entry) :
    w.sequence = w'.sequence := by
  have htag := congrArg tagOf (entry_internalKey hw hw' h)
  have hcode : w.type.code < 256 := by cases w.type <;> decide
  have hcode' : w'.type.code < 256 := by cases w'.type <;> decide
  rw [tagOf_internalKey hw, tagOf_internalKey hw'] at htag
  omega

theorem apart_of_ne {ws : List Write} (h : ws.Pairwise (Apart userCompare)) {w w' : Write} (hw : w ∈ ws) (hw' : w' ∈ ws)
    (hne : w ≠ w') : Apart userCompare w w' ∨ Apart userCompare w' w := by
  have hsymm : Std.Symm (fun a b => Apart userCompare a b ∨ Apart userCompare b a) := ⟨fun _ _ => Or.symm⟩
  exact (h.imp (S := fun a b => Apart userCompare a b ∨ Apart userCompare b a) Or.inl).forall hw hw' hne

theorem entries_apart {w w' : Write} (hw : w.Valid p) (hw' : w'.Valid p) (h : Apart userCompare w w') :
    keyCompare userCompare w.entry w'.entry ≠ 0 := by
  have hcode : w.type.code < 256 := by cases w.type <;> decide
  have hcode' : w'.type.code < 256 := by cases w'.type <;> decide
  rw [keyCompare_entry hw hw']
  split
  · rename_i hzero
    have hne := h hzero
    unfold tagCompare
    split_ifs <;> omega
  · assumption

end Order

section Runs

def adds (userCompare : List Byte → List Byte → Int) : MemTable → List Write → Except Fault MemTable
  | mem, [] => .ok mem
  | mem, w :: ws => do
    let mem ← add userCompare mem w.sequence w.type w.key w.value
    adds userCompare mem ws

/-- The table holds these writes. -/
structure Holds (p : List Byte → Prop) (userCompare : List Byte → List Byte → Int) (mem : MemTable) (ws : List Write) :
    Prop where
  valid : ∀ w ∈ ws, w.Valid p
  list : ∃ levels, SkipListLevels.Rep (KeyText p) (keyCompare userCompare) mem levels ∧
    ((levels 0).map Prod.snd).Perm (ws.map Write.entry)

theorem newMemTable_holds : Holds p userCompare newMemTable [] where
  valid _ h := absurd h List.not_mem_nil
  list := ⟨fun _ => [], SkipListRuns.new_rep [], List.Perm.refl _⟩

theorem add_spec (ho : Orders p userCompare) {mem : MemTable} {ws : List Write} (h : Holds p userCompare mem ws) {w : Write}
    (hw : w.Valid p) (hnew : ∀ w' ∈ ws, Apart userCompare w' w) :
    ∃ mem', add userCompare mem w.sequence w.type w.key w.value = .ok mem' ∧ Holds p userCompare mem' (ws ++ [w]) := by
  obtain ⟨hvalid, levels, hrep, hperm⟩ := h
  have hapart : ∀ e ∈ levels 0, keyCompare userCompare e.2 w.entry ≠ 0 := by
    intro e he
    obtain ⟨w', hw', heq⟩ := List.mem_map.mp (hperm.mem_iff.mp (List.mem_map_of_mem he))
    rw [← heq]
    exact entries_apart (hvalid w' hw') hw (hnew w' hw')
  obtain ⟨mem', levels', hinsert, hrep', hlevel⟩ :=
    SkipListRuns.insert_spec (keyCompare_orders ho) hrep (entry_keyText hw) hapart
  have hsplit := SkipListLevels.filter_append_of_before (hrep.before (keyCompare_orders ho) (entry_keyText hw))
  refine ⟨mem', ?_, ?_, levels', hrep', ?_⟩
  · unfold add
    simp only
    rw [if_pos (encodeEntry_length hw.key hw.value)]
    exact hinsert
  · intro w' hw'
    obtain hw' | hw' := List.mem_append.mp hw'
    · exact hvalid w' hw'
    · exact List.mem_singleton.mp hw' ▸ hw
  · have hmiddle : (levels' 0).Perm ((mem.nodes.length, w.entry) :: levels 0) := by
      rw [hlevel]
      exact List.perm_middle.trans (List.Perm.cons _ (List.Perm.of_eq hsplit))
    rw [List.map_append]
    exact (hmiddle.map Prod.snd).trans ((hperm.cons w.entry).trans (List.perm_append_singleton _ _).symm)

theorem adds_spec (ho : Orders p userCompare) {ws ws' : List Write} {mem : MemTable} (h : Holds p userCompare mem ws)
    (hvalid : ∀ w ∈ ws', w.Valid p) (hapart : (ws ++ ws').Pairwise (Apart userCompare)) :
    ∃ mem', adds userCompare mem ws' = .ok mem' ∧ Holds p userCompare mem' (ws ++ ws') := by
  induction ws' generalizing ws mem with
  | nil => exact ⟨mem, rfl, by rw [List.append_nil]; exact h⟩
  | cons w ws' ih =>
    obtain ⟨-, -, hcross⟩ := List.pairwise_append.mp hapart
    obtain ⟨mem1, hadd, hholds⟩ := add_spec ho h (hvalid w (List.mem_cons_self ..))
      (fun w' hw' => hcross w' hw' w (List.mem_cons_self ..))
    have hassoc : ws ++ w :: ws' = ws ++ [w] ++ ws' := by rw [List.append_assoc]; rfl
    rw [hassoc] at hapart ⊢
    obtain ⟨mem', hadds, hholds'⟩ := ih hholds (fun w' hw' => hvalid w' (List.mem_cons_of_mem _ hw')) hapart
    exact ⟨mem', by rw [adds, hadd, ok_bind, hadds], hholds'⟩

/-- The newest write of a key that a snapshot sees, if there is one. -/
def Newest (userCompare : List Byte → List Byte → Int) (ws : List Write) (key : List Byte) (snapshot : Nat) :
    Option Write → Prop :=
  First (fun a b => b.sequence < a.sequence)
    { w | w ∈ ws ∧ userCompare w.key key = 0 ∧ w.sequence ≤ snapshot }

def resultOf : Option Write → GetResult
  | none => .missing
  | some w =>
    match w.type with
    | .value => .found w.value
    | .deletion => .deleted

theorem get_at {mem : MemTable} {key : LookupKey} {x : Nat} {w : Write} (hw : w.Valid p)
    (hseek : iteratorSeek (keyCompare userCompare) mem key.memtableKey = .ok (some x)) (hx : mem.keyOf x = .ok w.entry) :
    get userCompare mem key = .ok (if userCompare w.key key.userKey = 0 then resultOf (some w) else .missing) := by
  have hand : (w.sequence * 256 + w.type.code) &&& 0xff = w.type.code := by
    have hcode : w.type.code < 256 := by cases w.type <;> decide
    rw [show (w.sequence * 256 + w.type.code) &&& 0xff = (w.sequence * 256 + w.type.code) % 256 from
      Nat.and_two_pow_sub_one_eq_mod _ 8]
    omega
  have huser : userKeyOf w.internalKey = w.key := by rw [Write.internalKey, userKeyOf_internalKeyOf]
  rw [get, hseek, ok_bind]
  simp only [hx, ok_bind, entry_slice hw, huser, tagOf_internalKey hw, hand, entrySlice_read hw.value, resultOf]
  split
  · cases w.type <;> rfl
  · rfl

theorem get_spec (ho : Orders p userCompare) {mem : MemTable} {ws : List Write} (h : Holds p userCompare mem ws)
    (hapart : ws.Pairwise (Apart userCompare)) {key : List Byte} (hkey : p key) (hlen : key.length + 8 < 4294967296)
    {snapshot : Nat} (hs : snapshot ≤ maxSequenceNumber) :
    ∃ lookup o, LookupKey.new key snapshot = .ok lookup ∧ Newest userCompare ws key snapshot o ∧
      get userCompare mem lookup = .ok (resultOf o) := by
  obtain ⟨hvalid, levels, hrep, hperm⟩ := h
  obtain ⟨tag, htag⟩ : ∃ tag, snapshot * 256 + 1 = tag := ⟨_, rfl⟩
  have htag64 : tag < 18446744073709551616 := htag ▸ tag_lt hs .value
  have hlookup := lookupKey_eq hs hlen
  rw [htag] at hlookup
  have hklen : (internalKeyOf key tag).length < 4294967296 := by rw [internalKeyOf_length]; exact hlen
  have htext : putLengthPrefixedSlice [] (internalKeyOf key tag) =
      encodeVarint32 ((internalKeyOf key tag).length % 4294967296) ++ (internalKeyOf key tag ++ []) := by
    rw [List.append_nil]
    rfl
  have hmem : KeyText p (putLengthPrefixedSlice [] (internalKeyOf key tag)) :=
    ⟨_, [], htext, hklen, by rw [userKeyOf_internalKeyOf]; exact hkey⟩
  have htextKey : textKey (putLengthPrefixedSlice [] (internalKeyOf key tag)) = internalKeyOf key tag := by
    rw [htext, textKey, entrySlice_read hklen]
  -- how the entry of a write compares with what is looked up
  have hcompare : ∀ w ∈ ws, keyCompare userCompare w.entry (putLengthPrefixedSlice [] (internalKeyOf key tag)) =
      if userCompare w.key key = 0 then tagCompare (w.sequence * 256 + w.type.code) tag else userCompare w.key key := by
    intro w hw
    rw [keyCompare_eq (entry_keyText (hvalid w hw)) hmem, textKey_entry (hvalid w hw), htextKey,
      internalCompare_write (hvalid w hw) key htag64]
  have hbehind : ∀ w ∈ ws, userCompare w.key key = 0 → w.sequence ≤ snapshot →
      w.entry ∈ { b ∈ SkipListRuns.keySet levels |
        ¬ keyCompare userCompare b (putLengthPrefixedSlice [] (internalKeyOf key tag)) < 0 } := by
    intro w hw hzero hle
    have hcode : w.type.code ≤ 1 := by cases w.type <;> decide
    refine ⟨hperm.mem_iff.mpr (List.mem_map_of_mem hw), ?_⟩
    rw [hcompare w hw, if_pos hzero, tagCompare]
    split_ifs <;> omega
  have hnone : SkipListRuns.IteratorAt levels none none := rfl
  obtain ⟨node, o', hseek, hat, hfirst⟩ := (SkipListRuns.iterator_walks (keyCompare_orders ho) hrep).seek _ hmem hnone
  change iteratorSeek (keyCompare userCompare) mem (putLengthPrefixedSlice [] (internalKeyOf key tag)) = .ok node at hseek
  cases o' with
  | none =>
    cases hat
    refine ⟨_, none, hlookup, ?_, ?_⟩
    · apply Set.eq_empty_of_forall_notMem
      rintro w ⟨hw, hzero, hle⟩
      exact Set.notMem_empty _ (hfirst ▸ hbehind w hw hzero hle)
    · rw [get]
      simp only [hseek, ok_bind]
      rfl
  | some text =>
    obtain ⟨x, rfl, hx⟩ := hat
    obtain ⟨⟨hin, hge⟩, hleast⟩ := hfirst
    obtain ⟨w, hw, rfl⟩ := List.mem_map.mp (hperm.mem_iff.mp hin)
    have hxkey := (hrep.linked 0 (by decide)).keyOf_eq hx
    have hget : get userCompare mem
        ⟨putLengthPrefixedSlice [] (internalKeyOf key tag), internalKeyOf key tag, key⟩ = _ :=
      get_at (hvalid w hw) hseek hxkey
    -- another write of the key that the snapshot sees stands behind this one
    have hlater : ∀ w' ∈ ws, userCompare w'.key key = 0 → w'.sequence ≤ snapshot → w'.entry ≠ w.entry →
        (if userCompare w.key w'.key = 0 then tagCompare (w.sequence * 256 + w.type.code) (w'.sequence * 256 + w'.type.code)
          else userCompare w.key w'.key) < 0 := by
      intro w' hw' hzero' hle' hne
      have hlt : keyCompare userCompare w.entry w'.entry < 0 := hleast _ (hbehind w' hw' hzero' hle') hne
      rwa [keyCompare_entry (hvalid w hw) (hvalid w' hw')] at hlt
    rw [hcompare w hw] at hge
    by_cases hzero : userCompare w.key key = 0
    · refine ⟨_, some w, hlookup, ⟨⟨hw, hzero, ?_⟩, ?_⟩, ?_⟩
      · rw [if_pos hzero, tagCompare] at hge
        have hcode : w.type.code ≤ 1 := by cases w.type <;> decide
        split_ifs at hge <;> omega
      · rintro w' ⟨hw', hzero', hle'⟩ hne
        have hboth := ho.zero_trans (hvalid w hw).holds hkey (hvalid w' hw').holds hzero
          ((ho.zero_iff (hvalid w' hw').holds hkey).mp hzero')
        have hseq : w.sequence ≠ w'.sequence := by
          obtain h | h := apart_of_ne hapart hw hw' (Ne.symm hne)
          · exact h hboth
          · exact (h ((ho.zero_iff (hvalid w hw).holds (hvalid w' hw').holds).mp hboth)).symm
        have hlt := hlater w' hw' hzero' hle' (fun he => hseq (entry_sequence (hvalid w' hw') (hvalid w hw) he).symm)
        have hcode : w.type.code ≤ 1 := by cases w.type <;> decide
        have hcode' : w'.type.code ≤ 1 := by cases w'.type <;> decide
        rw [if_pos hboth, tagCompare] at hlt
        split_ifs at hlt <;> omega
      · rw [hget, if_pos hzero]
    · refine ⟨_, none, hlookup, ?_, ?_⟩
      · apply Set.eq_empty_of_forall_notMem
        rintro w' ⟨hw', hzero', hle'⟩
        have hlt := hlater w' hw' hzero' hle' (fun he => hzero (entry_key (hvalid w' hw') (hvalid w hw) he ▸ hzero'))
        have hp := (hvalid w hw).holds
        have hp' := (hvalid w' hw').holds
        rw [if_neg hzero] at hge
        split_ifs at hlt with hboth
        · exact hzero (ho.zero_trans hp hp' hkey hboth hzero')
        · exact hge (ho.lt_of_lt_of_le hp hp' hkey hlt hzero'.le)
      · rw [hget, if_neg hzero]
        rfl

/-- Whatever is written, a lookup at any snapshot finds the newest write of its key that is not newer than
the snapshot, or that it is a deletion, or that there is none. -/
theorem adds_get_newest (ho : Orders p userCompare) {ws : List Write} (hvalid : ∀ w ∈ ws, w.Valid p)
    (hapart : ws.Pairwise (Apart userCompare)) :
    ∃ mem, adds userCompare newMemTable ws = .ok mem ∧
      ∀ key snapshot, p key → key.length + 8 < 4294967296 → snapshot ≤ maxSequenceNumber →
        ∃ lookup o, LookupKey.new key snapshot = .ok lookup ∧ Newest userCompare ws key snapshot o ∧
          get userCompare mem lookup = .ok (resultOf o) := by
  obtain ⟨mem, hadds, hholds⟩ := adds_spec ho newMemTable_holds hvalid hapart
  exact ⟨mem, hadds, fun key snapshot hkey hlen hs => get_spec ho hholds hapart hkey hlen hs⟩

/-- A key is written, overwritten and deleted, with another key in between. -/
theorem adds_get_newest_overwritten :
    ∃ mem, adds KeySeparators.sliceCompare newMemTable
        [⟨1, .value, [5], [1]⟩, ⟨2, .value, [6], [2]⟩, ⟨3, .value, [5], [3]⟩, ⟨4, .deletion, [5], []⟩] = .ok mem ∧
      ∀ key snapshot, key.length + 8 < 4294967296 → snapshot ≤ maxSequenceNumber →
        ∃ lookup o, LookupKey.new key snapshot = .ok lookup ∧
          Newest KeySeparators.sliceCompare
            [⟨1, .value, [5], [1]⟩, ⟨2, .value, [6], [2]⟩, ⟨3, .value, [5], [3]⟩, ⟨4, .deletion, [5], []⟩] key snapshot o ∧
          get KeySeparators.sliceCompare mem lookup = .ok (resultOf o) := by
  have hvalid : ∀ w ∈ [(⟨1, .value, [5], [1]⟩ : Write), ⟨2, .value, [6], [2]⟩, ⟨3, .value, [5], [3]⟩,
      ⟨4, .deletion, [5], []⟩], w.Valid fun _ => True := by
    intro w hw
    simp only [List.mem_cons, List.not_mem_nil, or_false] at hw
    obtain rfl | rfl | rfl | rfl := hw <;> exact ⟨by decide, by decide, by decide, trivial⟩
  obtain ⟨mem, hadds, hget⟩ := adds_get_newest KeySeparators.sliceCompare_orders hvalid (by
    unfold Apart
    decide)
  exact ⟨mem, hadds, fun key snapshot => hget key snapshot trivial⟩

end Runs

section Iterator

def entryOf (text : List Byte) : List Byte × List Byte :=
  match decodeEntry text with
  | .ok e => e
  | .error _ => ([], [])

theorem decodeEntry_eq {w : Write} (hw : w.Valid p) : decodeEntry w.entry = .ok (w.internalKey, w.value) := by
  rw [decodeEntry, entry_slice hw, ok_bind]
  simp only [entrySlice_read hw.value, ok_bind]

theorem encodeKey_keyText {k : List Byte} (hlen : k.length < 4294967296) (hp : p (userKeyOf k)) :
    KeyText p (encodeKey k) ∧ textKey (encodeKey k) = k := by
  have htext : encodeKey k = encodeVarint32 (k.length % 4294967296) ++ (k ++ []) := by
    rw [List.append_nil]
    rfl
  refine ⟨⟨k, [], htext, hlen, hp⟩, ?_⟩
  rw [htext, textKey, entrySlice_read hlen]

def entrySet (ws : List Write) : Set (List Byte × List Byte) := { e | ∃ w ∈ ws, e = (w.internalKey, w.value) }

theorem memTableIterator_walks (ho : Orders p userCompare) {mem : MemTable} {ws : List Write}
    (h : Holds p userCompare mem ws) :
    ∃ At, At none none ∧ KeyWalks (memTableIterator userCompare mem) (internalCompare userCompare)
      (fun k => k.length < 4294967296 ∧ p (userKeyOf k)) (entrySet ws) At := by
  obtain ⟨hvalid, levels, hrep, hperm⟩ := h
  have hof : ∀ w ∈ ws, entryOf w.entry = (w.internalKey, w.value) := by
    intro w hw
    rw [entryOf, decodeEntry_eq (hvalid w hw)]
  have hmem : ∀ text ∈ SkipListRuns.keySet levels, ∃ w ∈ ws, text = w.entry := by
    intro text htext
    obtain ⟨w, hw, rfl⟩ := List.mem_map.mp (hperm.mem_iff.mp htext)
    exact ⟨w, hw, rfl⟩
  have hwalks : KeyWalks (memTableIterator userCompare mem) (internalCompare userCompare)
      (fun k => k.length < 4294967296 ∧ p (userKeyOf k))
      (entryOf '' SkipListRuns.keySet levels)
      (fun node e => ∃ text, SkipListRuns.IteratorAt levels node text ∧ e = text.map entryOf) := by
    apply (SkipListRuns.iterator_walks (keyCompare_orders ho) hrep).map entryOf
    · intro text htext
      obtain ⟨w, hw, rfl⟩ := hmem text htext
      rw [hof w hw]
      exact decodeEntry_eq (hvalid w hw)
    · intro text htext text' htext'
      obtain ⟨w, hw, rfl⟩ := hmem text htext
      obtain ⟨w', hw', rfl⟩ := hmem text' htext'
      rw [hof w hw, hof w' hw', keyCompare_eq (entry_keyText (hvalid w hw)) (entry_keyText (hvalid w' hw')),
        textKey_entry (hvalid w hw), textKey_entry (hvalid w' hw')]
    · intro text htext k hk
      obtain ⟨w, hw, rfl⟩ := hmem text htext
      obtain ⟨hkeyText, htextKey⟩ := encodeKey_keyText hk.1 hk.2
      rw [hof w hw, keyCompare_eq (entry_keyText (hvalid w hw)) hkeyText, textKey_entry (hvalid w hw), htextKey]
    · exact fun k hk => (encodeKey_keyText hk.1 hk.2).1
  have hset : entryOf '' SkipListRuns.keySet levels = entrySet ws := by
    ext e
    constructor
    · rintro ⟨text, htext, rfl⟩
      obtain ⟨w, hw, rfl⟩ := hmem text htext
      exact ⟨w, hw, hof w hw⟩
    · rintro ⟨w, hw, rfl⟩
      exact ⟨w.entry, hperm.mem_iff.mpr (List.mem_map_of_mem hw), hof w hw⟩
  rw [hset] at hwalks
  exact ⟨_, ⟨none, rfl, rfl⟩, hwalks⟩

end Iterator

end RecordStore.MemTables
