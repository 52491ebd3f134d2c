import RecordStore.BtreeSort

namespace RecordStore.KeyCollisions

open RecordStore.CFile RecordStore.OrderedMap RecordStore.CText RecordStore.CStrings RecordStore.Int32
open RecordStore.Outcome RecordStore.RecordSchema RecordStore.BtreeSort

/-- The keys of different lines compare as different, and the tree has an entry for each line. -/
structure KeepsLines (floatCmp : List Byte → List Byte → Int) (schema : Schema)
    (seen : List Byte → List Byte → List Byte × List Byte) (tree : Store (List Byte) (List Byte))
    (line input : List Byte) : Prop where
  keys : ∀ x ∈ (fgetsLines maxLineLen input).zipIdx, ∀ y ∈ (fgetsLines maxLineLen input).zipIdx, x.2 ≠ y.2 →
    ∃ keyX keyY cmp, (∀ array, getKey schema (storeLine array x.1) (toInt32 x.2) = .ok keyX) ∧
      (∀ array, getKey schema (storeLine array y.1) (toInt32 y.2) = .ok keyY) ∧
      sortCompare floatCmp schema seen keyX keyY = .ok cmp ∧ cmp ≠ 0
  entries : ∃ db, insertTree schema tree line input = .ok db ∧
    (tree.entries db).length = (fgetsLines maxLineLen input).length ∧
    ((tree.entries db).map Prod.snd).Perm (fgetsLines maxLineLen input)

theorem sortAttrLoop_length {schema schema' : Schema} {tokens : List (List Byte)}
    (h : sortAttrLoop schema tokens = .ok schema') :
    schema'.sortAttrs.length = schema.sortAttrs.length + tokens.length := by
  induction tokens generalizing schema with
  | nil =>
    cases h
    rfl
  | cons token tokens ih =>
    rw [sortAttrLoop] at h
    split at h
    case h_1 i _ =>
      rw [ih h, List.length_append, List.length_singleton, List.length_cons]
      omega
    case h_2 => cases h

theorem sortAttrs_eq_nil {attrs : List Attribute} {sortingAttr : List Byte} {schema : Schema}
    (h : setSchemaSortAttr (mkSchema attrs) sortingAttr = .ok schema) :
    schema.sortAttrs = [] ↔ strtok sortingAttr comma = [] := by
  have hlen := sortAttrLoop_length h
  rw [← List.length_eq_zero_iff, ← List.length_eq_zero_iff, hlen]
  exact iff_of_eq (congrArg (· = 0) (Nat.zero_add _))

/-- Both pointers of `Compare` lead to the second string: the block that the first one gave
back is the block that the second one gets. -/
def oneBlock (_ b : List Byte) : List Byte × List Byte := (b ++ [0], b ++ [0])

section Compare

variable {floatCmp : List Byte → List Byte → Int} {schema : Schema}

/-- Without a sort attribute `Compare` reads the empty string in front of the first NUL as the
counter. -/
theorem comparator_unsorted (hsort : schema.sortAttrs = []) (x y : List Byte × Nat) :
    comparator floatCmp schema intact (entryOf schema x).1 (entryOf schema y).1 = 0 := by
  rw [comparator, sortCompare, intact, entryOf, entryOf, hsort]
  rfl

theorem compareValues_self (hself : ∀ a, floatCmp a a = 0) (type : AttrType) (a : List Byte) :
    compareValues floatCmp type a a = 0 := by
  cases type with
  | int => rw [compareValues, threeWay_eq_zero]
  | float => rw [compareValues, threeWay_eq_zero, hself]
  | string => rw [compareValues, threeWay_eq_zero, strcmp_self]

theorem sortCompareLoop_self (hself : ∀ a, floatCmp a a = 0) {memory : List Byte} {sortAttrs : List Nat} {pos : Nat}
    {c : Int} (h : sortCompareLoop floatCmp schema memory memory sortAttrs pos = .ok c) : c = 0 := by
  induction sortAttrs generalizing pos with
  | nil =>
    obtain ⟨last, hlast, h⟩ := bind_eq_ok.mp h
    rw [hlast, ok_bind] at h
    rw [← Except.ok.inj h, threeWay_eq_zero]
  | cons s sortAttrs ih =>
    obtain ⟨attr, _, h⟩ := bind_eq_ok.mp h
    obtain ⟨buf, hbuf, h⟩ := bind_eq_ok.mp h
    rw [hbuf, ok_bind, compareValues_self hself, if_neg (not_not.mpr rfl)] at h
    exact ih h

theorem comparator_oneBlock (hself : ∀ a, floatCmp a a = 0) (a b : List Byte) :
    comparator floatCmp schema oneBlock a b = 0 := by
  rw [comparator]
  split
  case h_1 c h => exact sortCompareLoop_self hself h
  case h_2 => rfl

end Compare

section Tree

variable {floatCmp : List Byte → List Byte → Int} {schema : Schema}
  {seen : List Byte → List Byte → List Byte × List Byte} {tree : Store (List Byte) (List Byte)}
  {input : List Byte} (hb : Built schema) (hsize : schema.recordSize < 2 ^ 31)
  (hcount : (fgetsLines maxLineLen input).length < 2 ^ 31)
  (hlines : ∀ text ∈ fgetsLines maxLineLen input, FixedLine schema text) (line : List Byte)

include hb hsize hcount hlines

theorem insertTree_eq : insertTree schema tree line input =
    .ok (tree.puts tree.empty ((fgetsLines maxLineLen input).zipIdx.map (entryOf schema))) :=
  insertLoop_eq hb hsize tree hlines (by omega) line tree.empty

/-- With a sort attribute all lines are kept, whatever the attributes hold, if `Compare` can
read the keys. -/
theorem keepsLines_of_sorted (htree : Ordered (comparator floatCmp schema intact) tree)
    (hsort : schema.sortAttrs ≠ []) : KeepsLines floatCmp schema intact tree line input := by
  have hnumbered := fun x hx => numberedLine_of_mem (x := x) hlines hcount hx
  constructor
  case keys =>
    intro x hx y hy hxy
    exact ⟨_, _, _, getKey_entryOf hb hsize (hnumbered x hx), getKey_entryOf hb hsize (hnumbered y hy),
      sortCompare_entryOf hb hsort floatCmp (hnumbered x hx) (hnumbered y hy), lineCompare_ne_zero hxy⟩
  case entries =>
    have hne : ((fgetsLines maxLineLen input).zipIdx.map (entryOf schema)).Pairwise
        (fun e e' => comparator floatCmp schema intact e.1 e'.1 ≠ 0) := by
      rw [List.pairwise_map]
      apply List.Pairwise.imp_of_mem _ (numbers_ne _)
      intro x y hx hy hxy
      rw [comparator_entryOf hb hsort floatCmp (hnumbered x hx) (hnumbered y hy)]
      exact lineCompare_ne_zero hxy
    have hperm := htree.puts_empty_perm hne
    have hvalues : ((fgetsLines maxLineLen input).zipIdx.map (entryOf schema)).map Prod.snd =
        fgetsLines maxLineLen input := by
      rw [List.map_map]
      exact List.zipIdx_map_fst ..
    have hmap := hperm.map Prod.snd
    rw [hvalues] at hmap
    refine ⟨_, insertTree_eq hb hsize hcount hlines line, ?_, hmap⟩
    rw [hperm.length_eq, List.length_map, List.length_zipIdx]

variable (htree : Ordered (comparator floatCmp schema seen) tree)

include htree

theorem insertTree_of_equal
    (hzero : ∀ x y, comparator floatCmp schema seen (entryOf schema x).1 (entryOf schema y).1 = 0)
    {before : List (List Byte)} {text : List Byte} (heq : fgetsLines maxLineLen input = before ++ [text]) :
    ∃ db, insertTree schema tree line input = .ok db ∧ (tree.entries db).map Prod.snd = [text] := by
  refine ⟨_, insertTree_eq hb hsize hcount hlines line, ?_⟩
  have hall : ∀ e ∈ before.zipIdx.map (entryOf schema),
      comparator floatCmp schema seen e.1 (entryOf schema (text, before.length)).1 = 0 := by
    intro e he
    obtain ⟨x, _, rfl⟩ := List.mem_map.mp he
    exact hzero x _
  rw [heq, List.zipIdx_append, List.map_append, Nat.zero_add]
  exact congrArg (List.map Prod.snd) (htree.puts_of_equal hall)

theorem length_le_one_of_equal
    (hzero : ∀ x y, comparator floatCmp schema seen (entryOf schema x).1 (entryOf schema y).1 = 0)
    (h : KeepsLines floatCmp schema seen tree line input) : (fgetsLines maxLineLen input).length ≤ 1 := by
  obtain hnil | ⟨before, text, heq⟩ := List.eq_nil_or_concat' (fgetsLines maxLineLen input)
  · simp [hnil]
  · obtain ⟨db, hdb, hlast⟩ := insertTree_of_equal hb hsize hcount hlines line htree hzero heq
    obtain ⟨db', hdb', hlen, -⟩ := h.entries
    obtain rfl := Except.ok.inj (hdb.symm.trans hdb')
    rw [← hlen, ← List.length_map (f := Prod.snd), hlast, List.length_singleton]

theorem keepsLines_of_le_one (hle : (fgetsLines maxLineLen input).length ≤ 1) :
    KeepsLines floatCmp schema seen tree line input := by
  obtain hnil | ⟨before, text, heq⟩ := List.eq_nil_or_concat' (fgetsLines maxLineLen input)
  · refine ⟨?_, _, insertTree_eq hb hsize hcount hlines line, ?_⟩
    · simp [hnil]
    · rw [hnil]
      simp [Store.puts, htree.empty]
  · rw [heq, List.length_append, List.length_singleton] at hle
    obtain rfl : before = [] := List.length_eq_zero_iff.mp (by omega)
    rw [List.nil_append] at heq
    refine ⟨?_, _, insertTree_eq hb hsize hcount hlines line, ?_⟩
    · intro x hx y hy hxy
      rw [heq] at hx hy
      rw [List.mem_singleton.mp hx, List.mem_singleton.mp hy] at hxy
      exact absurd rfl hxy
    · have hnone : ∀ e ∈ ([] : List (List Byte × List Byte)),
          comparator floatCmp schema seen e.1 (entryOf schema (text, 0)).1 = 0 := by simp
      have hone := htree.puts_of_equal hnone
      rw [heq]
      exact ⟨congrArg List.length hone, List.Perm.of_eq (congrArg (List.map Prod.snd) hone)⟩

end Tree

/-- Whatever `Compare` finds at its pointers, no line is lost exactly when there is at most one
line. Could it read the keys, an attribute to sort on would be enough. -/
theorem keeps_lines_iff (floatCmp : List Byte → List Byte → Int) (hself : ∀ a, floatCmp a a = 0)
    (attrs : List Attribute) (sortingAttr : List Byte)
    (schema : Schema) (hschema : setSchemaSortAttr (mkSchema attrs) sortingAttr = .ok schema)
    (hsize : schema.recordSize < maxLineLen) (input : List Byte)
    (hcount : (fgetsLines maxLineLen input).length < 2 ^ 31)
    (hlines : ∀ text ∈ fgetsLines maxLineLen input, FixedLine schema text) (line : List Byte) :
    ((∀ seen tree, Ordered (comparator floatCmp schema seen) tree →
        KeepsLines floatCmp schema seen tree line input) ↔ (fgetsLines maxLineLen input).length ≤ 1) ∧
      ∀ tree, Ordered (comparator floatCmp schema intact) tree →
        (KeepsLines floatCmp schema intact tree line input ↔
          strtok sortingAttr comma ≠ [] ∨ (fgetsLines maxLineLen input).length ≤ 1) := by
  obtain ⟨hb, -⟩ := sortAttrLoop_built hschema (mkSchema_built attrs)
  have hsize' : schema.recordSize < 2 ^ 31 := by
    unfold maxLineLen at hsize
    omega
  refine ⟨⟨fun h => ?_, fun hle seen tree htree => ?_⟩, fun tree htree => ?_⟩
  · have hordered := listStore_ordered (V := List Byte) (comparator floatCmp schema oneBlock)
    exact length_le_one_of_equal hb hsize' hcount hlines line hordered
      (fun _ _ => comparator_oneBlock hself _ _) (h oneBlock _ hordered)
  · exact keepsLines_of_le_one hb hsize' hcount hlines line htree hle
  · by_cases hsort : schema.sortAttrs = []
    · have htoken := (sortAttrs_eq_nil hschema).mp hsort
      rw [htoken]
      refine ⟨fun h => .inr ?_, fun h => ?_⟩
      · exact length_le_one_of_equal hb hsize' hcount hlines line htree (comparator_unsorted hsort) h
      · exact keepsLines_of_le_one hb hsize' hcount hlines line htree (h.resolve_left (not_not.mpr rfl))
    · have htoken := (sortAttrs_eq_nil hschema).not.mp hsort
      exact iff_of_true (keepsLines_of_sorted hb hsize' hcount hlines line htree hsort) (.inl htoken)

section Letters

def letterAttrs : List Attribute := [⟨[97], .string, 20⟩]

def letterLine (c : Byte) : List Byte := List.replicate 20 c ++ [newline]

def twoLines : List Byte := letterLine 98 ++ letterLine 97

theorem fgetsLines_twoLines : fgetsLines maxLineLen twoLines = [letterLine 98, letterLine 97] := by
  decide

theorem twoLines_fixed {schema : Schema} (h : schema.recordSize = 21) :
    ∀ text ∈ fgetsLines maxLineLen twoLines, FixedLine schema text := by
  rw [fgetsLines_twoLines]
  intro text htext
  obtain rfl | htext := List.mem_cons.mp htext
  · exact ⟨h.symm, by decide⟩
  · rw [List.mem_singleton.mp htext]
    exact ⟨h.symm, by decide⟩

theorem keeps_lines_iff_letters :
    setSchemaSortAttr (mkSchema letterAttrs) [97] = .ok { mkSchema letterAttrs with sortAttrs := [0] } ∧
      ¬ (∀ seen tree, Ordered (comparator (fun _ _ => 0) { mkSchema letterAttrs with sortAttrs := [0] } seen) tree →
        KeepsLines (fun _ _ => 0) { mkSchema letterAttrs with sortAttrs := [0] } seen tree [] twoLines) ∧
      KeepsLines (fun _ _ => 0) { mkSchema letterAttrs with sortAttrs := [0] } intact
        (listStore (comparator (fun _ _ => 0) { mkSchema letterAttrs with sortAttrs := [0] } intact)) [] twoLines := by
  have htwo : (fgetsLines maxLineLen twoLines).length = 2 := by rw [fgetsLines_twoLines]; rfl
  obtain ⟨hany, hintact⟩ := keeps_lines_iff (fun _ _ => 0) (fun _ => rfl) letterAttrs [97] _ rfl (by decide) twoLines
    (by rw [htwo]; decide) (twoLines_fixed rfl) []
  refine ⟨rfl, fun h => ?_, (hintact _ (listStore_ordered _)).mpr (.inl (by decide))⟩
  have hle := hany.mp h
  omega

/-- Two keys of 22 bytes are in one block of the heap one after the other, and the second line
takes the place of the first. -/
theorem second_line_alone :
    setSchemaSortAttr (mkSchema letterAttrs) [97] = .ok { mkSchema letterAttrs with sortAttrs := [0] } ∧
      (∀ text ∈ fgetsLines maxLineLen twoLines, FixedLine { mkSchema letterAttrs with sortAttrs := [0] } text) ∧
      (∃ db, insertTree { mkSchema letterAttrs with sortAttrs := [0] }
          (listStore (comparator (fun _ _ => 0) { mkSchema letterAttrs with sortAttrs := [0] } oneBlock)) [] twoLines =
            .ok db ∧
        ((listStore (comparator (fun _ _ => 0) { mkSchema letterAttrs with sortAttrs := [0] } oneBlock)).entries db).map
          Prod.snd = [letterLine 97]) ∧
      ¬ KeepsLines (fun _ _ => 0) { mkSchema letterAttrs with sortAttrs := [0] } oneBlock
        (listStore (comparator (fun _ _ => 0) { mkSchema letterAttrs with sortAttrs := [0] } oneBlock)) [] twoLines := by
  have hschema : setSchemaSortAttr (mkSchema letterAttrs) [97] =
      .ok { mkSchema letterAttrs with sortAttrs := [0] } := rfl
  have hlines : ∀ text ∈ fgetsLines maxLineLen twoLines,
      FixedLine { mkSchema letterAttrs with sortAttrs := [0] } text := twoLines_fixed rfl
  have htwo : (fgetsLines maxLineLen twoLines).length = 2 := by rw [fgetsLines_twoLines]; rfl
  obtain ⟨hb, -⟩ := sortAttrLoop_built hschema (mkSchema_built letterAttrs)
  refine ⟨hschema, hlines, ?_, fun h => ?_⟩
  · have hbefore : fgetsLines maxLineLen twoLines = [letterLine 98] ++ [letterLine 97] := fgetsLines_twoLines
    exact insertTree_of_equal hb (by decide) (by omega) hlines [] (listStore_ordered _)
      (fun _ _ => comparator_oneBlock (fun _ => rfl) _ _) hbefore
  · have hle := length_le_one_of_equal hb (by decide) (by omega) hlines [] (listStore_ordered _)
      (fun _ _ => comparator_oneBlock (fun _ => rfl) _ _) h
    omega

end Letters

end RecordStore.KeyCollisions
