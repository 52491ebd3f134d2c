import RecordStore.OrderedMap
import RecordStore.SortComparators

namespace RecordStore.BtreeSort

open RecordStore.Splice RecordStore.CFile RecordStore.ThreeWay RecordStore.OrderedMap RecordStore.CText
open RecordStore.CStrings RecordStore.Int32 RecordStore.Outcome RecordStore.RecordSchema
open RecordStore.RecordComparator RecordStore.RecordLayout RecordStore.ScratchCompare

def maxLineLen : Nat := 10000

/-- Return -1 if `a < b`, 1 if `a > b`. -/
def threeWay (a b : Int) : Int := if a < b then -1 else if a > b then 1 else 0

/-- The string at a pointer into `memory`, which has to hold its NUL. -/
def stringAt (memory : List Byte) (pos : Nat) : Except Fault (List Byte) :=
  if (0 : Byte) ∈ memory.drop pos then .ok (cstr (memory.drop pos)) else .error .memory

/-- A round of `Compare`. `floatCmp` compares the values of `atof`. -/
def compareValues (floatCmp : List Byte → List Byte → Int) : AttrType → List Byte → List Byte → Int
  | .int, a, b => threeWay (toInt32 (atoi a)) (toInt32 (atoi b))
  | .float, a, b => threeWay (floatCmp a b) 0
  | .string, a, b => threeWay (strcmp a b) 0

/-- What `strncpy` reads at `line + offset`: at most `n` bytes, and none after a NUL. The
terminator is put at index `n`, one past the buffer, where nothing is kept. -/
def copyAttribute (line : List Byte) (offset : Int) (n : Nat) : Except Fault (List Byte) :=
  if n = 0 ∨ (0 ≤ offset ∧ ((slice line offset.toNat n).length = n ∨ (0 : Byte) ∈ slice line offset.toNat n)) then
    .ok (cstr (slice line offset.toNat n))
  else .error .memory

def storeLine (line text : List Byte) : List Byte := splice line 0 (text ++ [0])

/-- The memory at the two pointers of `Compare` as long as the temporaries of `ToString` last. -/
def intact (a b : List Byte) : List Byte × List Byte := (a ++ [0], b ++ [0])

section Compare

variable (floatCmp : List Byte → List Byte → Int) (schema : Schema)

/-- The loop of `Compare` over the sort attributes, with the memory at `a_buf` and at `b_buf`;
behind the last attribute stands the counter. -/
def sortCompareLoop (a b : List Byte) : List Nat → Nat → Except Fault Int
  | [], pos => do
    let lastA ← stringAt a pos
    let lastB ← stringAt b pos
    .ok (threeWay (toInt32 (atoi lastA)) (toInt32 (atoi lastB)))
  | s :: sortAttrs, pos => do
    let attr ← entry schema.attrs s
    let aBuf ← stringAt a pos
    let bBuf ← stringAt b pos
    if compareValues floatCmp attr.type aBuf bBuf ≠ 0 then .ok (compareValues floatCmp attr.type aBuf bBuf)
    else sortCompareLoop a b sortAttrs (pos + attr.length + 1)

/-- `Compare` of `SortComparator`. The temporaries it points into are destroyed before it reads
them, so what it finds there is `seen`. -/
def sortCompare (seen : List Byte → List Byte → List Byte × List Byte) (a b : List Byte) : Except Fault Int :=
  sortCompareLoop floatCmp schema (seen a b).1 (seen a b).2 schema.sortAttrs 0

/-- What the tree sees of it. A fault leaves the program, so its value is never used. -/
def comparator (seen : List Byte → List Byte → List Byte × List Byte) (a b : List Byte) : Int :=
  match sortCompare floatCmp schema seen a b with
  | .ok c => c
  | .error _ => 0

end Compare

section Tree

variable (schema : Schema)

def keyLoop (line : List Byte) : List Nat → Nat → List Byte → Except Fault (List Byte)
  | [], _, key => .ok key
  | s :: sortAttrs, i, key => do
    let offset ← entry schema.dataOffset s
    let attr ← entry schema.attrs s
    let value ← copyAttribute line offset attr.length
    keyLoop line sortAttrs (i + 1) (if i > 0 then key ++ 0 :: value else value)

def getKey (line : List Byte) (uniqueCounter : Int) : Except Fault (List Byte) := do
  let key ← keyLoop schema line schema.sortAttrs 0 []
  .ok (key ++ 0 :: decimal uniqueCounter)

variable (tree : Store (List Byte) (List Byte))

/-- The loop of `insert_tree`. The counter is a `long`, and an `int` for `get_key`. -/
def insertLoop : List (List Byte) → List Byte → Nat → tree.Db → Except Fault tree.Db
  | [], _, _, db => .ok db
  | text :: texts, line, uniqueCounter, db => do
    let key ← getKey schema (storeLine line text) (toInt32 uniqueCounter)
    insertLoop texts (storeLine line text) (uniqueCounter + 1)
      (tree.put db key (cstr (storeLine line text)))

def insertTree (line input : List Byte) : Except Fault tree.Db :=
  insertLoop schema tree (fgetsLines maxLineLen input) line 0 tree.empty

/-- `retrieve_tree` writes each value with its terminator. -/
def retrieveTree (db : tree.Db) : List Byte := ((tree.entries db).map (fun e => e.2 ++ [0])).flatten

end Tree

/-- `main` for a schema that was read: what is written to the output file. `leveldb` opens an
empty map under a comparator, and `line` is what the array of `insert_tree` holds first. -/
def bsort (leveldb : (List Byte → List Byte → Int) → Store (List Byte) (List Byte))
    (floatCmp : List Byte → List Byte → Int) (schema : Schema)
    (seen : List Byte → List Byte → List Byte × List Byte) (line input : List Byte) : Except Fault (List Byte) := do
  let db ← insertTree schema (leveldb (comparator floatCmp schema seen)) line input
  .ok (retrieveTree (leveldb (comparator floatCmp schema seen)) db)

structure FixedLine (schema : Schema) (text : List Byte) : Prop where
  length : text.length = schema.recordSize
  noNul : (0 : Byte) ∉ text

/-- The key of a line: each sort attribute and a NUL, then the counter. -/
def keyOf (attrs : List Attribute) (text counter : List Byte) : List Nat → List Byte
  | [] => counter
  | s :: sortAttrs => attrValue attrs text s ++ 0 :: keyOf attrs text counter sortAttrs

theorem threeWay_eq_sign (a b : Int) : threeWay a b = (a - b).sign := by
  rw [threeWay]
  split
  case isTrue hlt => rw [Int.sign_eq_neg_one_of_neg (by omega)]
  case isFalse hlt =>
    split
    case isTrue hgt => rw [Int.sign_eq_one_of_pos (by omega)]
    case isFalse hgt => rw [show a - b = 0 by omega, Int.sign_zero]

theorem threeWay_eq_zero {a b : Int} : threeWay a b = 0 ↔ a = b := by
  rw [threeWay_eq_sign, Int.sign_eq_zero_iff_zero]
  omega

theorem cstr_of_noNul {s : List Byte} (h : (0 : Byte) ∉ s) : cstr s = s := by
  rw [cstr, List.takeWhile_eq_self_iff]
  intro b hb
  exact decide_eq_true (fun h0 => h (h0 ▸ hb))

theorem cstr_append_nul {s : List Byte} (h : (0 : Byte) ∉ s) (rest : List Byte) : cstr (s ++ 0 :: rest) = s := by
  rw [cstr, List.takeWhile_append_of_pos, List.takeWhile_cons_of_neg (by simp), List.append_nil]
  intro b hb
  exact decide_eq_true (fun h0 => h (h0 ▸ hb))

theorem storeLine_eq (line text : List Byte) :
    storeLine line text = text ++ 0 :: line.drop (text.length + 1) := by
  rw [storeLine, splice, List.take_zero, List.nil_append, List.append_assoc, Nat.zero_add, List.length_append]
  rfl

theorem FixedLine.holds {schema : Schema} {text : List Byte} (h : FixedLine schema text) : Holds schema text :=
  ⟨h.length, fun _ hmem => h.noNul (List.mem_of_mem_drop (List.mem_of_mem_take hmem))⟩

section Keys

variable {schema : Schema} {text : List Byte} (hb : Built schema) (hsize : schema.recordSize < 2 ^ 31)
  (ht : FixedLine schema text)

include hb hsize ht

theorem copyAttribute_eq {s : Nat} {attr : Attribute} (hs : schema.attrs[s]? = some attr) (line : List Byte) :
    copyAttribute (storeLine line text) (toInt32 (attrOffset schema.attrs s)) attr.length =
      .ok (attrValue schema.attrs text s) := by
  have hbound := attrOffset_bound hs
  rw [← hb.size] at hbound
  have hlen := ht.length
  have hvalue : attrValue schema.attrs text s = slice text (attrOffset schema.attrs s) attr.length := by
    rw [attrValue, attrLength_of hs]
  rw [copyAttribute, toInt32_of_inRange ⟨by omega, by omega⟩, Int.toNat_natCast, storeLine_eq,
    slice_append_of_le _ (by omega), ← hvalue, if_pos, cstr_of_noNul (ht.holds.noNul s)]
  exact .inr ⟨by omega, .inl (by rw [hvalue, slice_length_of_le (by omega)])⟩

theorem keyLoop_succ (line : List Byte) {sortAttrs : List Nat} (hs : ∀ s ∈ sortAttrs, s < schema.attrs.length)
    (i : Nat) (key counter : List Byte) :
    ∃ key', keyLoop schema (storeLine line text) sortAttrs (i + 1) key = .ok key' ∧
      key' ++ 0 :: counter = key ++ 0 :: keyOf schema.attrs text counter sortAttrs := by
  induction sortAttrs generalizing i key with
  | nil => exact ⟨key, rfl, rfl⟩
  | cons s sortAttrs ih =>
    have hattr := List.getElem?_eq_getElem (hs s (List.mem_cons_self ..))
    obtain ⟨key', hloop, hkey⟩ := ih (fun s' h' => hs s' (List.mem_cons_of_mem _ h')) (i + 1)
      (key ++ 0 :: attrValue schema.attrs text s)
    refine ⟨key', ?_, ?_⟩
    · rw [keyLoop, ← getAttr, getAttr_eq hb hattr, ok_bind, entry_eq_ok.mpr hattr, ok_bind,
        copyAttribute_eq hb hsize ht hattr, ok_bind, if_pos (Nat.succ_pos i), hloop]
    · rw [hkey, keyOf]
      simp

theorem getKey_eq (hsort : schema.sortAttrs ≠ []) (line : List Byte) (uniqueCounter : Int) :
    getKey schema (storeLine line text) uniqueCounter =
      .ok (keyOf schema.attrs text (decimal uniqueCounter) schema.sortAttrs) := by
  obtain ⟨s, sortAttrs, hcons⟩ := List.exists_cons_of_ne_nil hsort
  have hs := hb.sorts
  rw [hcons] at hs
  have hattr := List.getElem?_eq_getElem (hs s (List.mem_cons_self ..))
  obtain ⟨key', hloop, hkey⟩ := keyLoop_succ hb hsize ht line (fun s' h' => hs s' (List.mem_cons_of_mem _ h')) 0
    (attrValue schema.attrs text s) (decimal uniqueCounter)
  rw [getKey, hcons, keyLoop, ← getAttr, getAttr_eq hb hattr, ok_bind, entry_eq_ok.mpr hattr, ok_bind,
    copyAttribute_eq hb hsize ht hattr, ok_bind, if_neg (Nat.lt_irrefl 0), hloop, ok_bind, hkey, keyOf]

end Keys

section Walk

theorem stringAt_append {s : List Byte} (h : (0 : Byte) ∉ s) (pre rest : List Byte) :
    stringAt (pre ++ (s ++ 0 :: rest)) pre.length = .ok s := by
  rw [stringAt, List.drop_left, if_pos (by simp), cstr_append_nul h]

/-- The NUL behind a key is the one behind its counter. -/
theorem keyOf_nul (attrs : List Attribute) (text counter : List Byte) (sortAttrs : List Nat) :
    keyOf attrs text counter sortAttrs ++ [0] = keyOf attrs text (counter ++ [0]) sortAttrs := by
  induction sortAttrs with
  | nil => rfl
  | cons s sortAttrs ih => rw [keyOf, keyOf, List.append_assoc, List.cons_append, ih]

/-- What `Compare` finds on two lines and their numbers. -/
def lineCompare (floatCmp : List Byte → List Byte → Int) (schema : Schema) (x y : List Byte × Nat) : Int :=
  firstNonzero (schema.sortAttrs.map (fun s => compareValues floatCmp (attrType schema.attrs s)
    (attrValue schema.attrs x.1 s) (attrValue schema.attrs y.1 s)) ++ [threeWay x.2 y.2])

variable {schema : Schema} {x y : List Byte} (hb : Built schema) (hx : FixedLine schema x) (hy : FixedLine schema y)

include hb hx hy

/-- The walk over two keys stays aligned: `p` and `q` are the parts behind the pointers. -/
theorem sortCompareLoop_eq (floatCmp : List Byte → List Byte → Int) {cx cy : List Byte} (hcx : (0 : Byte) ∉ cx)
    (hcy : (0 : Byte) ∉ cy) {sortAttrs : List Nat} (hs : ∀ s ∈ sortAttrs, s < schema.attrs.length)
    {p q : List Byte} (hpq : p.length = q.length) :
    sortCompareLoop floatCmp schema (p ++ keyOf schema.attrs x (cx ++ [0]) sortAttrs)
        (q ++ keyOf schema.attrs y (cy ++ [0]) sortAttrs) sortAttrs p.length =
      .ok (firstNonzero (sortAttrs.map (fun s => compareValues floatCmp (attrType schema.attrs s)
        (attrValue schema.attrs x s) (attrValue schema.attrs y s)) ++
          [threeWay (toInt32 (atoi cx)) (toInt32 (atoi cy))])) := by
  induction sortAttrs generalizing p q with
  | nil =>
    rw [sortCompareLoop, keyOf, keyOf, stringAt_append hcx, ok_bind, hpq, stringAt_append hcy, ok_bind, List.map_nil,
      List.nil_append, firstNonzero, firstNonzero]
    split <;> simp_all
  | cons s sortAttrs ih =>
    have hlt := hs s (List.mem_cons_self ..)
    have hattr := List.getElem?_eq_getElem hlt
    have hlx := (SortComparators.holds_values hb hx.holds).length s
    have hly := (SortComparators.holds_values hb hy.holds).length s
    rw [attrLength_of hattr] at hlx hly
    -- behind the attribute and its NUL the pointers stand at the next one
    have hrest := @ih (fun s' h' => hs s' (List.mem_cons_of_mem _ h')) (p ++ attrValue schema.attrs x s ++ [0])
      (q ++ attrValue schema.attrs y s ++ [0]) (by simp only [List.length_append, hpq, hlx, hly])
    have hpos : (p ++ attrValue schema.attrs x s ++ [0]).length = p.length + schema.attrs[s].length + 1 := by
      rw [List.length_append, List.length_append, hlx]
      rfl
    rw [hpos] at hrest
    simp only [List.append_assoc, List.cons_append, List.nil_append] at hrest
    rw [sortCompareLoop, entry_eq_ok.mpr hattr, ok_bind, keyOf, keyOf, stringAt_append (hx.holds.noNul s), ok_bind,
      hpq, stringAt_append (hy.holds.noNul s), ok_bind, ← hpq, hrest, List.map_cons, List.cons_append,
      firstNonzero, attrType_of hattr]
    split <;> rfl

theorem sortCompare_eq (floatCmp : List Byte → List Byte → Int) {i j : Nat} (hi : i < 2 ^ 31) (hj : j < 2 ^ 31) :
    sortCompare floatCmp schema intact (keyOf schema.attrs x (decimal i) schema.sortAttrs)
      (keyOf schema.attrs y (decimal j) schema.sortAttrs) = .ok (lineCompare floatCmp schema (x, i) (y, j)) := by
  have hwalk := sortCompareLoop_eq hb hx hy floatCmp (zero_not_mem_decimal i) (zero_not_mem_decimal j) hb.sorts
    (p := []) (q := []) rfl
  rw [atoi_decimal (by omega) (by omega), atoi_decimal (by omega) (by omega), toInt32_of_inRange ⟨by omega, by omega⟩,
    toInt32_of_inRange ⟨by omega, by omega⟩] at hwalk
  rw [sortCompare, intact, keyOf_nul, keyOf_nul]
  exact hwalk

end Walk

section Insertion

/-- The entry of a line and its number. Without a sort attribute the key starts with the NUL
in front of the counter. -/
def entryOf (schema : Schema) (x : List Byte × Nat) : List Byte × List Byte :=
  (if schema.sortAttrs = [] then 0 :: decimal x.2 else keyOf schema.attrs x.1 (decimal x.2) schema.sortAttrs, x.1)

structure NumberedLine (schema : Schema) (x : List Byte × Nat) : Prop where
  fixed : FixedLine schema x.1
  number : x.2 < 2 ^ 31

theorem numberedLine_of_mem {schema : Schema} {texts : List (List Byte)} {x : List Byte × Nat}
    (htexts : ∀ text ∈ texts, FixedLine schema text) (hcount : texts.length < 2 ^ 31) (hx : x ∈ texts.zipIdx) :
    NumberedLine schema x := by
  obtain ⟨-, hlt, hget⟩ := List.mem_zipIdx hx
  exact ⟨htexts _ (hget ▸ List.getElem_mem _), by omega⟩

theorem numbers_ne (texts : List (List Byte)) : texts.zipIdx.Pairwise (fun x y => x.2 ≠ y.2) := by
  have hnodup : (texts.zipIdx.map Prod.snd).Nodup := by
    rw [List.zipIdx_map_snd]
    exact List.nodup_range'
  exact List.pairwise_map.mp hnodup

theorem lineCompare_ne_zero {floatCmp : List Byte → List Byte → Int} {schema : Schema} {x y : List Byte × Nat}
    (h : x.2 ≠ y.2) : lineCompare floatCmp schema x y ≠ 0 := by
  intro hzero
  have hlast := firstNonzero_eq_zero.mp hzero (threeWay x.2 y.2) (by simp)
  exact h (Int.ofNat_inj.mp (threeWay_eq_zero.mp hlast))

variable {schema : Schema} (hb : Built schema)

include hb

theorem sortCompare_entryOf (hsort : schema.sortAttrs ≠ []) (floatCmp : List Byte → List Byte → Int)
    {x y : List Byte × Nat} (hx : NumberedLine schema x) (hy : NumberedLine schema y) :
    sortCompare floatCmp schema intact (entryOf schema x).1 (entryOf schema y).1 =
      .ok (lineCompare floatCmp schema x y) := by
  rw [entryOf, entryOf, if_neg hsort, if_neg hsort]
  exact sortCompare_eq hb hx.fixed hy.fixed floatCmp hx.number hy.number

theorem comparator_entryOf (hsort : schema.sortAttrs ≠ []) (floatCmp : List Byte → List Byte → Int)
    {x y : List Byte × Nat} (hx : NumberedLine schema x) (hy : NumberedLine schema y) :
    comparator floatCmp schema intact (entryOf schema x).1 (entryOf schema y).1 = lineCompare floatCmp schema x y := by
  rw [comparator, sortCompare_entryOf hb hsort floatCmp hx hy]

variable (hsize : schema.recordSize < 2 ^ 31)

include hsize

theorem getKey_entryOf {x : List Byte × Nat} (hx : NumberedLine schema x) (line : List Byte) :
    getKey schema (storeLine line x.1) (toInt32 x.2) = .ok (entryOf schema x).1 := by
  have hnumber := hx.number
  rw [toInt32_of_inRange ⟨by omega, by omega⟩, entryOf]
  by_cases hsort : schema.sortAttrs = []
  · rw [if_pos hsort, getKey, hsort]
    rfl
  · rw [if_neg hsort, getKey_eq hb hsize hx.fixed hsort]

theorem insertLoop_eq (tree : Store (List Byte) (List Byte)) {texts : List (List Byte)} {uniqueCounter : Nat}
    (htexts : ∀ text ∈ texts, FixedLine schema text) (hcount : uniqueCounter + texts.length ≤ 2 ^ 31)
    (line : List Byte) (db : tree.Db) :
    insertLoop schema tree texts line uniqueCounter db =
      .ok (tree.puts db ((texts.zipIdx uniqueCounter).map (entryOf schema))) := by
  induction texts generalizing line uniqueCounter db with
  | nil => rfl
  | cons text texts ih =>
    have htext := htexts text (List.mem_cons_self ..)
    rw [List.length_cons] at hcount
    have hkey := getKey_entryOf hb hsize (x := (text, uniqueCounter)) ⟨htext, by simp only; omega⟩ line
    have hvalue : cstr (storeLine line text) = text := by
      rw [storeLine_eq, cstr_append_nul htext.noNul]
    rw [insertLoop, hkey, ok_bind, hvalue, ih (fun t ht => htexts t (List.mem_cons_of_mem _ ht)) (by omega)]
    rfl

end Insertion

end RecordStore.BtreeSort
