import RecordStore.BtreeSort

namespace RecordStore.StableTree

open RecordStore.CFile RecordStore.ThreeWay RecordStore.OrderedMap RecordStore.CText RecordStore.CStrings
open RecordStore.Int32 RecordStore.RecordSchema RecordStore.ProbeOrder RecordStore.RecordLayout
open RecordStore.SortComparators RecordStore.BtreeSort

variable {floatCmp : List Byte → List Byte → Int} {schema : Schema}

theorem threeWay_orders : Orders (fun _ : Int => True) threeWay where
  swap a b _ _ := by
    rw [threeWay_eq_sign, threeWay_eq_sign, Int.sign_neg_iff, Int.sign_pos_iff]
    omega
  trans a b c _ _ _ := by
    rw [threeWay_eq_sign, threeWay_eq_sign, threeWay_eq_sign, Int.sign_nonpos_iff, Int.sign_nonpos_iff,
      Int.sign_nonpos_iff]
    omega

/-- A round of the comparison of two lines with their numbers: on a sort attribute, or at the
end on the numbers. -/
def lineRound (floatCmp : List Byte → List Byte → Int) (schema : Schema) :
    Option Nat → List Byte × Nat → List Byte × Nat → Int
  | some s, x, y => compareValues floatCmp (attrType schema.attrs s) (attrValue schema.attrs x.1 s)
      (attrValue schema.attrs y.1 s)
  | none, x, y => threeWay x.2 y.2

theorem lineRound_orders (floatCmp : List Byte → List Byte → Int)
    (hfloat : ∀ s, attrType schema.attrs s ≠ .float) (round : Option Nat) :
    Orders (fun x => FixedLine schema x.1) (lineRound floatCmp schema round) := by
  cases round with
  | none => exact threeWay_orders.comap (fun x : List Byte × Nat => (x.2 : Int)) (fun _ _ => trivial)
  | some s =>
    cases htype : attrType schema.attrs s with
    | float => exact absurd htype (hfloat s)
    | int =>
      have hcmp : lineRound floatCmp schema (some s) = fun x y =>
          threeWay (toInt32 (atoi (attrValue schema.attrs x.1 s))) (toInt32 (atoi (attrValue schema.attrs y.1 s))) := by
        funext x y
        rw [lineRound, htype]
        rfl
      rw [hcmp]
      exact threeWay_orders.comap (fun x : List Byte × Nat => toInt32 (atoi (attrValue schema.attrs x.1 s)))
        (fun _ _ => trivial)
    | string =>
      have hcmp : lineRound floatCmp schema (some s) = fun x y =>
          (strcmp (attrValue schema.attrs x.1 s) (attrValue schema.attrs y.1 s)).sign := by
        funext x y
        rw [lineRound, htype, compareValues, threeWay_eq_sign, Int.sub_zero]
      rw [hcmp]
      exact (strcmp_orders.comap (fun x : List Byte × Nat => attrValue schema.attrs x.1 s)
        (fun _ hx => hx.holds.noNul s)).sign

theorem lineCompare_orders (hfloat : ∀ s, attrType schema.attrs s ≠ .float) :
    Orders (fun x => FixedLine schema x.1) (lineCompare floatCmp schema) := by
  have hlex := Orders.lex (l := schema.sortAttrs.map some ++ [none])
    (fun round _ => lineRound_orders floatCmp hfloat round)
  have hcmp : lineCompare floatCmp schema = fun x y =>
      firstNonzero ((schema.sortAttrs.map some ++ [none]).map (fun round => lineRound floatCmp schema round x y)) := by
    funext x y
    rw [lineCompare, List.map_append, List.map_map]
    rfl
  rwa [hcmp]

def IntsInRange (schema : Schema) (text : List Byte) : Prop :=
  ∀ s ∈ schema.sortAttrs, attrType schema.attrs s = .int → InRange (atoi (attrValue schema.attrs text s))

/-- Earlier in the order of the sort attributes, or the same there and earlier in the file. -/
def ComesBefore (floatCmp : List Byte → List Byte → Int) (schema : Schema) (x y : List Byte × Nat) : Prop :=
  Precedes floatCmp schema x.1 y.1 ∨ (SameTuple floatCmp schema x.1 y.1 ∧ x.2 < y.2)

theorem compareValues_eq {x y : List Byte} (hx : IntsInRange schema x) (hy : IntsInRange schema y) {s : Nat}
    (hs : s ∈ schema.sortAttrs) :
    compareValues floatCmp (attrType schema.attrs s) (attrValue schema.attrs x s) (attrValue schema.attrs y s) =
      (attrCmp floatCmp schema x y s).sign := by
  rw [attrCmp]
  cases htype : attrType schema.attrs s with
  | int =>
    rw [compareValues, valueCmp, toInt32_of_inRange (hx s hs htype), toInt32_of_inRange (hy s hs htype),
      threeWay_eq_sign]
  | float => rw [compareValues, valueCmp, threeWay_eq_sign, Int.sub_zero]
  | string => rw [compareValues, valueCmp, threeWay_eq_sign, Int.sub_zero]

theorem lineCompare_neg {x y : List Byte × Nat} (hx : IntsInRange schema x.1) (hy : IntsInRange schema y.1) :
    lineCompare floatCmp schema x y < 0 ↔ ComesBefore floatCmp schema x y := by
  have htuple : schema.sortAttrs.map (fun s => compareValues floatCmp (attrType schema.attrs s)
      (attrValue schema.attrs x.1 s) (attrValue schema.attrs y.1 s)) =
        (schema.sortAttrs.map (attrCmp floatCmp schema x.1 y.1)).map Int.sign := by
    rw [List.map_map]
    apply List.map_congr_left
    intro s hs
    exact compareValues_eq hx hy hs
  have hsign := firstNonzero_map_sign (schema.sortAttrs.map (attrCmp floatCmp schema x.1 y.1))
  rw [lineCompare, htuple, ComesBefore, precedes_iff, sameTuple_iff]
  by_cases hzero : firstNonzero (schema.sortAttrs.map (attrCmp floatCmp schema x.1 y.1)) = 0
  · rw [hzero, Int.sign_zero] at hsign
    rw [firstNonzero_append (firstNonzero_eq_zero.mp hsign), hzero]
    have hlast : firstNonzero [threeWay x.2 y.2] = threeWay x.2 y.2 := by
      rw [firstNonzero, firstNonzero]
      split <;> omega
    rw [hlast, threeWay_eq_sign, Int.sign_neg_iff]
    omega
  · have hne := hsign ▸ (Int.sign_eq_zero_iff_zero.not.mpr hzero)
    rw [firstNonzero_append_of_ne hne, hsign, Int.sign_neg_iff]
    omega

section Tree

variable {input : List Byte} (hb : Built schema) (htypes : ∀ attr ∈ schema.attrs, attr.type ≠ .float)
  (hsort : schema.sortAttrs ≠ []) (hcount : (fgetsLines maxLineLen input).length < 2 ^ 31)
  (hlines : ∀ text ∈ fgetsLines maxLineLen input, FixedLine schema text)

include hb htypes hsort hcount hlines

theorem keys_orders (floatCmp : List Byte → List Byte → Int) :
    Orders (fun k => k ∈ (fgetsLines maxLineLen input).zipIdx.map (fun x => (entryOf schema x).1))
      (comparator floatCmp schema intact) := by
  have hnumbered := fun x hx => numberedLine_of_mem (x := x) hlines hcount hx
  apply (lineCompare_orders (attrType_ne_float htypes)).of_image
  · exact fun x hx => (hnumbered x hx).fixed
  · exact fun x hx y hy => comparator_entryOf hb hsort floatCmp (hnumbered x hx) (hnumbered y hy)

theorem insertTree_sorts (floatCmp : List Byte → List Byte → Int) (hsize : schema.recordSize < maxLineLen)
    (hints : ∀ text ∈ fgetsLines maxLineLen input, IntsInRange schema text)
    {tree : Store (List Byte) (List Byte)} (htree : Ordered (comparator floatCmp schema intact) tree) (line : List Byte) :
    ∃ (db : tree.Db) (order : List (List Byte × Nat)), insertTree schema tree line input = .ok db ∧
      order.Perm (fgetsLines maxLineLen input).zipIdx ∧ tree.entries db = order.map (entryOf schema) ∧
      order.Pairwise (ComesBefore floatCmp schema) := by
  have hnumbered := fun x hx => numberedLine_of_mem (x := x) hlines hcount hx
  have hcmp := fun x hx y hy => comparator_entryOf hb hsort floatCmp (hnumbered x hx) (hnumbered y hy)
  have hsize' : schema.recordSize < 2 ^ 31 := by
    unfold maxLineLen at hsize
    omega
  have hne : (fgetsLines maxLineLen input).zipIdx.Pairwise (fun x y =>
      comparator floatCmp schema intact (entryOf schema x).1 (entryOf schema y).1 ≠ 0) := by
    apply List.Pairwise.imp_of_mem _ (numbers_ne _)
    intro x y hx hy hxy
    rw [hcmp x hx y hy]
    exact lineCompare_ne_zero hxy
  obtain ⟨order, hperm, hentries, hlt⟩ :=
    htree.exists_order (entryOf schema) hne (keys_orders hb htypes hsort hcount hlines floatCmp)
  refine ⟨_, order, insertLoop_eq hb hsize' tree hlines (by omega) line tree.empty, hperm, hentries, ?_⟩
  apply List.Pairwise.imp_of_mem _ hlt
  intro x y hx hy hxy
  have hx' := hperm.mem_iff.mp hx
  have hy' := hperm.mem_iff.mp hy
  have hintx := hints _ (List.fst_mem_of_mem_zipIdx hx')
  have hinty := hints _ (List.fst_mem_of_mem_zipIdx hy')
  rw [hcmp x hx' y hy'] at hxy
  exact (lineCompare_neg hintx hinty).mp hxy

end Tree

end RecordStore.StableTree
