import RecordStore.ComparatorOrder
import RecordStore.SilentLoss
import RecordStore.StableTree

namespace RecordStore.SortAgreement

open RecordStore.CFile RecordStore.ThreeWay RecordStore.OrderedMap RecordStore.CText RecordStore.CStrings
open RecordStore.Int32 RecordStore.Outcome RecordStore.RecordSchema RecordStore.RecordComparator
open RecordStore.ProbeOrder RecordStore.RecordLayout RecordStore.ScratchCompare RecordStore.SortComparators
open RecordStore.ComparatorOrder RecordStore.RecordFile RecordStore.KMerge RecordStore.MergePasses RecordStore.Msort
open RecordStore.ExternalSort RecordStore.SilentLoss RecordStore.BtreeSort RecordStore.StableTree

variable {floatCmp : List Byte → List Byte → Int} {schema : Schema}

/-- Records of fixed length, each ended by its newline, whose integers and their differences
are in the range of `int`. -/
structure Records (schema : Schema) (recs : List (List Byte)) : Prop where
  fixed : ∀ rec ∈ recs, FixedLine schema rec
  line : ∀ rec ∈ recs, EndsLine rec
  ints : ∀ a ∈ recs, ∀ b ∈ recs, Small (attrType schema.attrs) (attrValue schema.attrs a)
    (attrValue schema.attrs b) schema.sortAttrs

/-- `less` and `cmp` are what the comparators of `msort` return for the records; the scratch
arrays may have held anything. -/
structure Comparators (floatCmp : List Byte → List Byte → Int) (schema : Schema) (recs : List (List Byte))
    (less : List Byte → List Byte → Bool) (cmp : List Byte → List Byte → Int) : Prop where
  operator : ∀ a ∈ recs, ∀ b ∈ recs, ∃ scratch, recordLess floatCmp schema scratch a b = .ok (less a b)
  qsort : ∀ a ∈ recs, ∀ b ∈ recs, ∃ scratch, qsortCmp floatCmp schema scratch a b = .ok (cmp a b)

/-- Both files are the records one after the other, and they differ at most in the order of
records with the same sort attributes. -/
def SameFile (floatCmp : List Byte → List Byte → Int) (schema : Schema) (recs : List (List Byte))
    (out out' : List Byte) : Prop :=
  ∃ l l' : List (List Byte), out = l.flatten ∧ out' = l'.flatten ∧ l.Perm recs ∧ l'.Perm recs ∧
    List.Forall₂ (SameTuple floatCmp schema) l l'

def tupleCmp (floatCmp : List Byte → List Byte → Int) (schema : Schema) (a b : List Byte) : Int :=
  firstNonzero (schema.sortAttrs.map (attrCmp floatCmp schema a b))

theorem attrCmp_orders (floatCmp : List Byte → List Byte → Int) (hfloat : ∀ s, attrType schema.attrs s ≠ .float)
    (s : Nat) : Orders (Holds schema) (fun a b => attrCmp floatCmp schema a b s) := by
  unfold attrCmp
  cases htype : attrType schema.attrs s with
  | float => exact absurd htype (hfloat s)
  | int =>
    constructor
    · intro a b _ _
      rw [valueCmp, valueCmp]
      omega
    · intro a b c _ _ _
      rw [valueCmp, valueCmp, valueCmp]
      omega
  | string => exact strcmp_orders.comap (fun data => attrValue schema.attrs data s) (fun _ hx => hx.noNul s)

theorem tupleCmp_orders (floatCmp : List Byte → List Byte → Int) (hfloat : ∀ s, attrType schema.attrs s ≠ .float) :
    Orders (Holds schema) (tupleCmp floatCmp schema) :=
  Orders.lex (fun s _ => attrCmp_orders floatCmp hfloat s)

theorem tupleCmp_of_comesBefore {x y : List Byte × Nat} (h : ComesBefore floatCmp schema x y) :
    tupleCmp floatCmp schema x.1 y.1 ≤ 0 := by
  obtain h | ⟨h, -⟩ := h
  · exact (precedes_iff.mp h).le
  · exact (sameTuple_iff.mp h).le

section Comparing

variable {recs : List (List Byte)} {less : List Byte → List Byte → Bool} {cmp : List Byte → List Byte → Int}
  {a b : List Byte} (hb : Built schema) (hm : Matched schema) (hfloat : ∀ s, attrType schema.attrs s ≠ .float)
  (hrecs : Records schema recs)

include hb hm hfloat hrecs

theorem qsortCmp_tuple (floatCmp : List Byte → List Byte → Int) (scratch : Scratch) (ha : a ∈ recs) (hb' : b ∈ recs) :
    qsortCmp floatCmp schema scratch a b = .ok (tupleCmp floatCmp schema a b) := by
  rw [qsortCmp_rounds hb hm (hrecs.fixed a ha).holds (hrecs.fixed b hb').holds]
  congr 2
  apply List.map_congr_left
  intro s hs
  rw [roundCmp, attrCmp]
  cases htype : attrType schema.attrs s with
  | float => exact absurd htype (hfloat s)
  | int => exact toInt32_of_inRange (hrecs.ints a ha b hb' s hs htype).2.2
  | string => rfl

theorem Comparators.cmp_eq (h : Comparators floatCmp schema recs less cmp) (ha : a ∈ recs) (hb' : b ∈ recs) :
    cmp a b = tupleCmp floatCmp schema a b := by
  obtain ⟨scratch, hcmp⟩ := h.qsort a ha b hb'
  exact Except.ok.inj (hcmp.symm.trans (qsortCmp_tuple hb hm hfloat hrecs floatCmp scratch ha hb'))

theorem Comparators.less_eq (h : Comparators floatCmp schema recs less cmp) (ha : a ∈ recs) (hb' : b ∈ recs) :
    less a b = decide (tupleCmp floatCmp schema a b < 0) := by
  obtain ⟨scratch, hless⟩ := h.operator a ha b hb'
  exact Except.ok.inj (hless.symm.trans
    (recordLess_eq (qsortCmp_tuple hb hm hfloat hrecs floatCmp scratch ha hb')))

theorem comparators_tuple (floatCmp : List Byte → List Byte → Int) (scratch : Scratch) :
    Comparators floatCmp schema recs (fun a b => decide (tupleCmp floatCmp schema a b < 0))
      (tupleCmp floatCmp schema) where
  operator _ ha _ hb' := ⟨scratch, recordLess_eq (qsortCmp_tuple hb hm hfloat hrecs floatCmp scratch ha hb')⟩
  qsort _ ha _ hb' := ⟨scratch, qsortCmp_tuple hb hm hfloat hrecs floatCmp scratch ha hb'⟩

variable {qsort : (List Byte → List Byte → Int) → List (List Byte) → List (List Byte)}
  (hcmp : Comparators floatCmp schema recs less cmp)
  (hqsort : ∀ block, (qsort cmp block).Perm block ∧
    (Orders (fun a => a ∈ block) cmp → (qsort cmp block).Pairwise (fun a b => cmp a b ≤ 0)))

include hcmp hqsort

theorem passes_sorted {k n n' : Nat} {runs l : List (List Byte)} (hblocks : SortedBlocks (qsort cmp) n recs runs)
    (hpasses : Passes less k n runs n' l) (hn : recs.length ≤ n') :
    l.Perm recs ∧ l.Pairwise (fun a b => tupleCmp floatCmp schema a b ≤ 0) := by
  have horders := tupleCmp_orders floatCmp hfloat
  obtain ⟨less', hstrict, hless'⟩ := exists_strictWeakOrder horders
  have hholds : ∀ {a}, a ∈ recs → Holds schema a := fun ha => (hrecs.fixed _ ha).holds
  have hagree : ∀ a b, a ∈ recs → b ∈ recs → less a b = less' a b := by
    intro a b ha hb'
    rw [hcmp.less_eq hb hm hfloat hrecs ha hb', hless' a b (hholds ha) (hholds hb')]
  have hnot : ∀ {a b}, a ∈ recs → b ∈ recs → (less' b a = false ↔ tupleCmp floatCmp schema a b ≤ 0) := by
    intro a b ha hb'
    have hswap := horders.swap b a (hholds hb') (hholds ha)
    rw [hless' b a (hholds hb') (hholds ha), decide_eq_false_iff_not]
    omega
  have hqperm := fun block => (hqsort block).1
  have hsort : ∀ block : List (List Byte), (∀ a ∈ block, a ∈ recs) → Sorted less' (qsort cmp block) := by
    intro block hblock
    have horder := horders.of_image id (l := block) (fun a ha => hholds (hblock a ha))
      (fun a ha b hb' => hcmp.cmp_eq hb hm hfloat hrecs (hblock a ha) (hblock b hb'))
    rw [List.map_id] at horder
    apply List.Pairwise.imp_of_mem _ ((hqsort block).2 horder)
    intro a b ha hb' hle
    have ha := hblock a ((hqperm block).mem_iff.mp ha)
    have hb' := hblock b ((hqperm block).mem_iff.mp hb')
    rwa [hnot ha hb', ← hcmp.cmp_eq hb hm hfloat hrecs ha hb']
  have hruns := hblocks.perm hqperm
  have hperm := hpasses.perm.trans hruns
  have hblock := hblocks.blockSorted hqperm hsort (fun a ha => ha)
  have hpasses' := hpasses.congr hagree (fun a ha => hruns.mem_iff.mp ha)
  have hsorted := (hpasses'.blockSorted hstrict hblock).sorted (by rwa [hperm.length_eq])
  refine ⟨hperm, ?_⟩
  apply List.Pairwise.imp_of_mem _ hsorted
  exact fun ha hb' hlt => (hnot (hperm.mem_iff.mp ha) (hperm.mem_iff.mp hb')).mp hlt

/-- Whatever `msort` writes, when memory has room for a record, is sorted by the tuples. -/
theorem msort_tuples {fresh : Nat → Byte} {mem k fuel : Nat} {out : List Byte} (hrs : 0 < schema.recordSize)
    (hroom : schema.recordSize ≤ mem) (hk : 1 < k) (hfit : IntsFit schema.recordSize mem k recs.length)
    (hfuel : recs.length * k + recs.length + 1 < fuel)
    (hmsort : msort qsort cmp less fresh schema mem k recs.flatten fuel = .ok out) :
    ∃ l : List (List Byte), out = l.flatten ∧ l.Perm recs ∧
      l.Pairwise (fun a b => tupleCmp floatCmp schema a b ≤ 0) := by
  have hu : Uniform schema.recordSize recs := fun rec hrec => (hrecs.fixed rec hrec).length
  have hN : recs.flatten.length / schema.recordSize = recs.length := by
    rw [flatten_length hu, Nat.mul_div_cancel _ hrs]
  have hrecords := records_flatten hrs hu
  by_cases hshort : mem / schema.recordSize < recs.length * k
  · by_cases hbuf : mem / (k + 1) < schema.recordSize
    · rw [msort_exits hN hrs hroom hk hfit hshort hbuf (by omega)] at hmsort
      cases hmsort
    · obtain ⟨runs, n, l, hblocks, -, hout, hpasses, hn⟩ := @msort_passes qsort cmp less fresh schema mem k fuel
        recs.flatten (fun block => (hqsort block).1) hrs (Nat.not_lt.mp hbuf) hk (by rwa [hN]) (by rwa [hN])
      rw [hrecords] at hblocks
      rw [hN] at hn
      exact ⟨l, Except.ok.inj (hmsort.symm.trans hout),
        passes_sorted hb hm hfloat hrecs hcmp hqsort hblocks hpasses hn⟩
  · have hle : recs.length ≤ recs.length * k := Nat.le_mul_of_pos_right _ (by omega)
    obtain ⟨runs, hblocks, hout⟩ := @msort_one_run qsort cmp less fresh schema mem k fuel recs.flatten _ hN hrs hroom
      hfit.runLength hk hfit.bound (Nat.not_lt.mp hshort) (by omega)
    rw [hrecords] at hblocks
    exact ⟨runs, Except.ok.inj (hmsort.symm.trans hout),
      passes_sorted hb hm hfloat hrecs hcmp hqsort hblocks (Passes.refl (k := k)) (by omega)⟩

end Comparing

section Agreement

variable {recs : List (List Byte)} (hrecs : Records schema recs)

include hrecs

theorem sameFile_of_sorted (hfloat : ∀ s, attrType schema.attrs s ≠ .float) {l l' : List (List Byte)}
    (hl : l.Perm recs) (hl' : l'.Perm recs)
    (hs : l.Pairwise (fun a b => tupleCmp floatCmp schema a b ≤ 0))
    (hs' : l'.Pairwise (fun a b => tupleCmp floatCmp schema a b ≤ 0)) :
    SameFile floatCmp schema recs l.flatten l'.flatten := by
  refine ⟨l, l', rfl, rfl, hl, hl', ?_⟩
  have hholds : ∀ a ∈ l, Holds schema a := fun a ha => (hrecs.fixed a (hl.mem_iff.mp ha)).holds
  have hzero := (tupleCmp_orders floatCmp hfloat).forall₂_of_perm hholds (hl.trans hl'.symm) hs hs'
  exact hzero.imp (fun _ _ h => sameTuple_iff.mpr h)

theorem fgetsLines_records (hsize : schema.recordSize < maxLineLen) :
    fgetsLines maxLineLen recs.flatten = recs := by
  apply fgetsLines_flatten (by decide)
  exact fun rec hrec => ⟨hrecs.line rec hrec, by rwa [(hrecs.fixed rec hrec).length]⟩

/-- What `bsort` writes if `Compare` can read the keys: the records in order, each with a NUL
behind it. -/
theorem bsort_tuples (hb : Built schema) (htypes : ∀ attr ∈ schema.attrs, attr.type ≠ .float)
    (hsort : schema.sortAttrs ≠ []) (hsize : schema.recordSize < maxLineLen) (hcount : recs.length < 2 ^ 31)
    (floatCmp : List Byte → List Byte → Int)
    {leveldb : (List Byte → List Byte → Int) → Store (List Byte) (List Byte)}
    (hleveldb : Ordered (comparator floatCmp schema intact) (leveldb (comparator floatCmp schema intact)))
    (line : List Byte) :
    ∃ l : List (List Byte),
      bsort leveldb floatCmp schema intact line recs.flatten = .ok (l.map (fun r => r ++ [0])).flatten ∧
      l.Perm recs ∧ l.Pairwise (fun a b => tupleCmp floatCmp schema a b ≤ 0) := by
  have hlines := fgetsLines_records hrecs hsize
  obtain ⟨db, order, hinsert, hperm, hentries, hsorted⟩ := insertTree_sorts hb htypes hsort (by rwa [hlines])
    (by rw [hlines]; exact hrecs.fixed) floatCmp hsize
    (by rw [hlines]; exact fun a ha s hs htype => (hrecs.ints a ha a ha s hs htype).1) hleveldb line
  refine ⟨order.map Prod.fst, ?_, ?_, ?_⟩
  · rw [bsort, hinsert, ok_bind, retrieveTree, hentries, List.map_map, List.map_map]
    rfl
  · have hfst := hperm.map Prod.fst
    rwa [List.zipIdx_map_fst, hlines] at hfst
  · rw [List.pairwise_map]
    exact hsorted.imp tupleCmp_of_comesBefore

theorem not_sameFile (hrs : 0 < schema.recordSize) (hne : recs ≠ []) (values : List (List Byte)) (out : List Byte) :
    ¬ SameFile floatCmp schema recs (values.map (fun v => v ++ [0])).flatten out := by
  rintro ⟨l, -, heq, -, hl, -⟩
  cases values with
  | nil =>
    have hu : Uniform schema.recordSize recs := fun rec hrec => (hrecs.fixed rec hrec).length
    have hlen := congrArg List.length heq
    rw [flatten_length (hu.of_perm hl), hl.length_eq] at hlen
    exact absurd hlen (Nat.mul_pos (List.length_pos_iff.mpr hne) hrs).ne
  | cons value values =>
    -- no record has the first NUL
    have hmem : (0 : Byte) ∈ l.flatten := by
      rw [← heq]
      simp
    obtain ⟨rec, hrec, h0⟩ := List.mem_flatten.mp hmem
    exact (hrecs.fixed rec (hl.mem_iff.mp hrec)).noNul h0

theorem bsort_marks (hb : Built schema) (hsize : schema.recordSize < maxLineLen) (hcount : recs.length < 2 ^ 31)
    (floatCmp : List Byte → List Byte → Int) (seen : List Byte → List Byte → List Byte × List Byte)
    {leveldb : (List Byte → List Byte → Int) → Store (List Byte) (List Byte)}
    (hempty : ∀ c, (leveldb c).entries (leveldb c).empty = []) (line : List Byte) :
    ∃ values : List (List Byte), (recs = [] → values = []) ∧
      bsort leveldb floatCmp schema seen line recs.flatten = .ok (values.map (fun v => v ++ [0])).flatten := by
  have hlines := fgetsLines_records hrecs hsize
  have hsize' : schema.recordSize < 2 ^ 31 := by
    unfold maxLineLen at hsize
    omega
  obtain ⟨tree, htree⟩ : ∃ tree, tree = leveldb (comparator floatCmp schema seen) := ⟨_, rfl⟩
  have hinsert : insertTree schema tree line recs.flatten =
      .ok (tree.puts tree.empty (recs.zipIdx.map (entryOf schema))) := by
    rw [insertTree, hlines]
    exact insertLoop_eq hb hsize' tree hrecs.fixed (by omega) line tree.empty
  refine ⟨(tree.entries (tree.puts tree.empty (recs.zipIdx.map (entryOf schema)))).map Prod.snd, ?_, ?_⟩
  · rintro rfl
    subst htree
    exact congrArg (List.map Prod.snd) (hempty _)
  · rw [bsort, ← htree, hinsert, ok_bind, retrieveTree, List.map_map]
    rfl

end Agreement

/-- `bsort` and `msort` write the same file only if there is nothing to sort, whatever `Compare`
finds at its pointers: `bsort` puts a NUL behind each value. Could `Compare` read the keys, the
files without the NULs would agree. -/
theorem same_file_iff (floatCmp : List Byte → List Byte → Int) (attrs : List Attribute)
    (htypes : ∀ attr ∈ attrs, attr.type ≠ .float) (hshort : ∀ attr ∈ attrs, attr.length < 40) (m : Nat) (hm : 0 < m)
    (hlist : m ≤ attrs.length) (schema : Schema)
    (hschema : schema = { mkSchema attrs with sortAttrs := List.range m }) (hsize : schema.recordSize < maxLineLen)
    (recs : List (List Byte)) (hrecs : Records schema recs)
    (less : List Byte → List Byte → Bool) (cmp : List Byte → List Byte → Int)
    (hcmp : Comparators floatCmp schema recs less cmp)
    (qsort : (List Byte → List Byte → Int) → List (List Byte) → List (List Byte))
    (hqsort : ∀ block, (qsort cmp block).Perm block ∧
      (Orders (fun a => a ∈ block) cmp → (qsort cmp block).Pairwise (fun a b => cmp a b ≤ 0)))
    (seen : List Byte → List Byte → List Byte × List Byte)
    (leveldb : (List Byte → List Byte → Int) → Store (List Byte) (List Byte))
    (hempty : ∀ c, (leveldb c).entries (leveldb c).empty = [])
    (fresh : Nat → Byte) (mem k fuel : Nat) (hmem : 0 < mem) (hk : 1 < k)
    (hfit : IntsFit schema.recordSize mem k recs.length) (hfuel : recs.length * k + recs.length + 1 < fuel)
    (sorted : List Byte) (hmsort : msort qsort cmp less fresh schema mem k recs.flatten fuel = .ok sorted)
    (line : List Byte) :
    ∃ out, bsort leveldb floatCmp schema seen line recs.flatten = .ok out ∧
      (SameFile floatCmp schema recs out sorted ↔ recs = []) ∧
      (seen = intact →
        Ordered (comparator floatCmp schema intact) (leveldb (comparator floatCmp schema intact)) →
        schema.recordSize ≤ mem → ∃ l : List (List Byte), out = (l.map (fun r => r ++ [0])).flatten ∧
          SameFile floatCmp schema recs l.flatten sorted) := by
  have hattrs : schema.attrs = attrs := by rw [hschema]; rfl
  have hsorts : schema.sortAttrs = List.range m := by rw [hschema]
  have hb : Built schema := by
    subst hschema
    exact ⟨rfl, rfl, fun s hs => lt_of_lt_of_le (List.mem_range.mp hs) hlist⟩
  have hmatched : Matched schema := by
    constructor
    case lengths =>
      intro i s hs
      rw [hsorts] at hs
      obtain ⟨hi, rfl⟩ := List.getElem?_eq_some_iff.mp hs
      rw [List.length_range] at hi
      rw [List.getElem_range, hattrs]
      exact ⟨by omega, rfl⟩
    case short =>
      rw [hattrs]
      exact hshort
    case size =>
      unfold maxLineLen at hsize
      omega
  have htypes' : ∀ attr ∈ schema.attrs, attr.type ≠ .float := by rwa [hattrs]
  have hfloat := attrType_ne_float htypes'
  have hsort : schema.sortAttrs ≠ [] := by
    rw [hsorts, ne_eq, List.range_eq_nil]
    omega
  have hrs : 0 < schema.recordSize := by
    rw [hschema]
    exact recordSize_pos (List.ne_nil_of_length_pos (by omega))
  obtain ⟨values, hnil, hbsort⟩ := bsort_marks hrecs hb hsize (hfit.count hk) floatCmp seen hempty line
  refine ⟨_, hbsort, ⟨fun h => ?_, ?_⟩, ?_⟩
  · by_contra hne
    exact not_sameFile hrecs hrs hne values sorted h
  · rintro rfl
    obtain rfl := hnil rfl
    have hempty : sorted = [] := by
      by_cases hroom : schema.recordSize ≤ mem
      · obtain ⟨l', rfl, hperm', -⟩ :=
          msort_tuples hb hmatched hfloat hrecs hcmp hqsort hrs hroom hk hfit hfuel hmsort
        rw [List.Perm.eq_nil hperm', List.flatten_nil]
      · obtain ⟨fuel, rfl⟩ := Nat.exists_eq_succ_of_ne_zero (Nat.ne_zero_of_lt hfuel)
        rw [msort_no_room hrs hmem hk (Nat.not_le.mp hroom)] at hmsort
        exact (Except.ok.inj hmsort).symm
    exact ⟨[], [], rfl, hempty, List.Perm.nil, List.Perm.nil, List.Forall₂.nil⟩
  · rintro rfl hordered hroom
    obtain ⟨l, hbsort', hperm, hsorted⟩ :=
      bsort_tuples hrecs hb htypes' hsort hsize (hfit.count hk) floatCmp hordered line
    obtain ⟨l', rfl, hperm', hsorted'⟩ :=
      msort_tuples hb hmatched hfloat hrecs hcmp hqsort hrs hroom hk hfit hfuel hmsort
    refine ⟨l, Except.ok.inj (hbsort.symm.trans hbsort'), ?_⟩
    exact sameFile_of_sorted hrecs hfloat hperm hperm' hsorted hsorted'

section Letters

def letterSchema : Schema := { mkSchema [⟨[97], .string, 1⟩] with sortAttrs := List.range 1 }

def letterRecords (letters : List Byte) : List (List Byte) := letters.map (fun c => [c, newline])

theorem letterSchema_built : Built letterSchema :=
  ⟨rfl, rfl, fun _ hs => List.mem_range.mp hs⟩

theorem letterSchema_matched : Matched letterSchema :=
  matched_one (show (⟨[97], .string, 1⟩ : Attribute).length < scratchSize by decide)

theorem letterRecords_records {letters : List Byte} (h : ∀ c ∈ letters, c ≠ 0 ∧ c ≠ newline) :
    Records letterSchema (letterRecords letters) := by
  constructor
  case fixed =>
    intro rec hrec
    obtain ⟨c, hc, rfl⟩ := List.mem_map.mp hrec
    refine ⟨rfl, fun hmem => ?_⟩
    obtain he | he := List.mem_cons.mp hmem
    · exact (h c hc).1 he.symm
    · exact absurd (List.mem_singleton.mp he) (by decide)
  case line =>
    intro rec hrec
    obtain ⟨c, hc, rfl⟩ := List.mem_map.mp hrec
    exact ⟨[c], by simp [(h c hc).2.symm], rfl⟩
  case ints =>
    intro a _ b _ s hs htype
    rw [List.mem_singleton.mp hs] at htype
    cases htype

def letterCmp : List Byte → List Byte → Int := tupleCmp (fun _ _ => 0) letterSchema

theorem letterSchema_float : ∀ s, attrType letterSchema.attrs s ≠ .float := attrType_ne_float (by decide)

theorem letterRecords_comparators {letters : List Byte} (h : ∀ c ∈ letters, c ≠ 0 ∧ c ≠ newline) :
    Comparators (fun _ _ => 0) letterSchema (letterRecords letters) (fun a b => decide (letterCmp a b < 0)) letterCmp :=
  comparators_tuple letterSchema_built letterSchema_matched letterSchema_float (letterRecords_records h) _
    ⟨fun _ => List.replicate scratchSize 0, fun _ => List.replicate scratchSize 0, fun _ => List.length_replicate,
      fun _ => List.length_replicate⟩

theorem mergeSortBy_orders (cmp : List Byte → List Byte → Int) (block : List (List Byte)) :
    (mergeSortBy cmp block).Perm block ∧
      (Orders (fun a => a ∈ block) cmp → (mergeSortBy cmp block).Pairwise (fun a b => cmp a b ≤ 0)) :=
  ⟨List.mergeSort_perm .., pairwise_mergeSort_of_orders⟩

theorem msort_letters {letters : List Byte} (h : ∀ c ∈ letters, c ≠ 0 ∧ c ≠ newline) (hlen : letters.length ≤ 2) :
    ∃ sorted, msort mergeSortBy letterCmp (fun a b => decide (letterCmp a b < 0)) (fun _ => 0) letterSchema (8 : Nat)
      (2 : Nat) (letterRecords letters).flatten 8 = .ok sorted := by
  have hu : Uniform 2 (letterRecords letters) := fun rec hrec => ((letterRecords_records h).fixed rec hrec).length
  have hcount : (letterRecords letters).length = letters.length := List.length_map ..
  have hN : (letterRecords letters).flatten.length / letterSchema.recordSize = letters.length := by
    rw [flatten_length hu, hcount]
    exact Nat.mul_div_cancel _ (by decide)
  obtain ⟨runs, -, hmsort⟩ := @msort_one_run mergeSortBy letterCmp (fun a b => decide (letterCmp a b < 0)) (fun _ => 0)
    letterSchema 8 2 8 (letterRecords letters).flatten _ hN (by decide) (by decide) (by decide) (by decide) (by omega)
    (by show letters.length * 2 ≤ 4; omega) (by omega)
  exact ⟨_, hmsort⟩

theorem letters_fit {letters : List Byte} (hlen : letters.length ≤ 2) :
    IntsFit letterSchema.recordSize 8 2 (letterRecords letters).length := by
  have hcount : (letterRecords letters).length = letters.length := List.length_map ..
  exact IntsFit.of_square _ (by decide) (by decide) (by decide) (by omega)

theorem same_file_iff_two :
    ∃ sorted out, msort mergeSortBy letterCmp (fun a b => decide (letterCmp a b < 0)) (fun _ => 0) letterSchema
        (8 : Nat) (2 : Nat) (letterRecords [98, 97]).flatten 8 = .ok sorted ∧
      bsort listStore (fun _ _ => 0) letterSchema intact [] (letterRecords [98, 97]).flatten = .ok out ∧
      (SameFile (fun _ _ => 0) letterSchema (letterRecords [98, 97]) out sorted ↔ letterRecords [98, 97] = []) ∧
      ∃ l : List (List Byte), out = (l.map (fun r => r ++ [0])).flatten ∧
        SameFile (fun _ _ => 0) letterSchema (letterRecords [98, 97]) l.flatten sorted := by
  have hletters : ∀ c ∈ ([98, 97] : List Byte), c ≠ 0 ∧ c ≠ newline := by decide
  obtain ⟨sorted, hmsort⟩ := msort_letters hletters (by decide)
  obtain ⟨out, hbsort, hiff, hagree⟩ := same_file_iff (fun _ _ => 0) [⟨[97], .string, 1⟩] (by decide) (by decide) 1
    (by decide) (by decide) letterSchema rfl (by decide) _ (letterRecords_records hletters) _ letterCmp
    (letterRecords_comparators hletters) mergeSortBy (mergeSortBy_orders letterCmp) intact listStore
    (fun c => (listStore_ordered c).empty) (fun _ => 0) 8 2 8 (by decide) (by decide) (letters_fit (by decide))
    (by decide) sorted hmsort []
  exact ⟨sorted, out, hmsort, hbsort, hiff, hagree rfl (listStore_ordered _) (by decide)⟩

/-- The file of the one record `a` comes out of `msort` as it was, and out of `bsort` with a
NUL behind it. -/
theorem one_record_differs :
    msort mergeSortBy letterCmp (fun a b => decide (letterCmp a b < 0)) (fun _ => 0) letterSchema (8 : Nat) (2 : Nat)
        (letterRecords [97]).flatten 8 = .ok [97, 10] ∧
      bsort listStore (fun _ _ => 0) letterSchema intact [] (letterRecords [97]).flatten = .ok [97, 10, 0] ∧
      ¬ SameFile (fun _ _ => 0) letterSchema (letterRecords [97]) [97, 10, 0] [97, 10] := by
  have hletters : ∀ c ∈ ([97] : List Byte), c ≠ 0 ∧ c ≠ newline := by decide
  have hrecs := letterRecords_records hletters
  obtain ⟨sorted, hmsort⟩ := msort_letters hletters (by decide)
  obtain ⟨l', hl', hperm', -⟩ := msort_tuples letterSchema_built letterSchema_matched letterSchema_float hrecs
    (letterRecords_comparators hletters) (mergeSortBy_orders letterCmp) (by decide) (by decide) (by decide)
    (letters_fit (by decide)) (by decide) hmsort
  obtain ⟨l, hbsort, hperm, -⟩ := bsort_tuples hrecs letterSchema_built (by decide) (by decide) (by decide) (by decide)
    (fun _ _ => 0) (listStore_ordered _) []
  obtain rfl : l' = [[97, 10]] := List.perm_singleton.mp hperm'
  obtain rfl : l = [[97, 10]] := List.perm_singleton.mp hperm
  subst hl'
  exact ⟨hmsort, hbsort, not_sameFile hrecs (by decide) (by decide) [[97, 10]] [97, 10]⟩

end Letters

end RecordStore.SortAgreement
