import RecordStore.Blocks
import RecordStore.RecordFile
import RecordStore.ThreeWay

namespace RecordStore.BlockReading

open RecordStore.Splice RecordStore.CFile RecordStore.Outcome RecordStore.RecordFile RecordStore.Coding
open RecordStore.ThreeWay RecordStore.Cursors RecordStore.Blocks

/-- An entry of a block, and how many bytes of its key are those of the key before. -/
structure Piece where
  shared : Nat
  key : List Byte
  value : List Byte

def Piece.bytes (e : Piece) : List Byte := entryBytes e.shared e.key e.value

def pairOf (e : Piece) : List Byte × List Byte := (e.key, e.value)

def content (pieces : List Piece) : List Byte := (pieces.map Piece.bytes).flatten

def offset (pieces : List Piece) (i : Nat) : Nat := (content (pieces.take i)).length

def keyBefore (pieces : List Piece) : Nat → List Byte
  | 0 => []
  | i + 1 =>
    match pieces[i]? with
    | some e => e.key
    | none => []

structure Follows (last : List Byte) (e : Piece) : Prop where
  le_key : e.shared ≤ e.key.length
  le_last : e.shared ≤ last.length
  take : last.take e.shared = e.key.take e.shared

/-- The entries of a block, and which of them are restart points. -/
structure Layout (pieces : List Piece) (points : List Nat) : Prop where
  follows : ∀ {i e}, pieces[i]? = some e → Follows (keyBefore pieces i) e
  head : points[0]? = some 0
  sorted : points.Pairwise (· < ·)
  restart : ∀ r ∈ points, ∀ e, pieces[r]? = some e → e.shared = 0
  bound : ∀ r ∈ points, r < pieces.length ∨ r = 0

section Offsets

variable {pieces : List Piece}

theorem content_append (pieces pieces' : List Piece) : content (pieces ++ pieces') = content pieces ++ content pieces' := by
  rw [content, List.map_append, List.flatten_append, content, content]

theorem content_singleton (e : Piece) : content [e] = e.bytes := by
  rw [content, List.map_singleton, List.flatten_singleton]

theorem offset_zero (pieces : List Piece) : offset pieces 0 = 0 := rfl

theorem offset_length (pieces : List Piece) : offset pieces pieces.length = (content pieces).length := by
  rw [offset, List.take_length]

theorem offset_append {i : Nat} (hi : i ≤ pieces.length) (pieces' : List Piece) :
    offset (pieces ++ pieces') i = offset pieces i := by
  rw [offset, List.take_append_of_le_length hi, offset]

theorem keyBefore_append {i : Nat} (hi : i ≤ pieces.length) (pieces' : List Piece) :
    keyBefore (pieces ++ pieces') i = keyBefore pieces i := by
  cases i with
  | zero => rfl
  | succ i => rw [keyBefore, keyBefore, List.getElem?_append_left hi]

theorem entryBytes_pos (shared : Nat) (key value : List Byte) : 3 ≤ (entryBytes shared key value).length := by
  have hpos : ∀ v, 1 ≤ (encodeVarint32 v).length := by
    intro v
    unfold encodeVarint32
    split_ifs <;> simp
  have h1 := hpos (shared % 4294967296)
  have h2 := hpos ((key.length - shared) % 4294967296)
  have h3 := hpos (value.length % 4294967296)
  rw [entryBytes, List.length_append, List.length_append, List.length_append]
  omega

theorem offset_succ {i : Nat} {e : Piece} (h : pieces[i]? = some e) :
    offset pieces (i + 1) = offset pieces i + e.bytes.length := by
  rw [offset, List.take_add_one, h, content_append, List.length_append, Option.toList_some, content_singleton, offset]

theorem drop_content {i : Nat} {e : Piece} (h : pieces[i]? = some e) :
    (content pieces).drop (offset pieces i) = e.bytes ++ content (pieces.drop (i + 1)) := by
  obtain ⟨hi, rfl⟩ := List.getElem?_eq_some_iff.mp h
  have hsplit : pieces = pieces.take i ++ (pieces[i] :: pieces.drop (i + 1)) := by
    rw [List.cons_getElem_drop_succ, List.take_append_drop]
  have hcontent : content pieces = content (pieces.take i) ++ (pieces[i].bytes ++ content (pieces.drop (i + 1))) := by
    conv_lhs => rw [hsplit]
    rw [content_append]
    rfl
  rw [hcontent, offset]
  exact List.drop_left

theorem offset_lt {i j : Nat} (hij : i < j) (hj : j ≤ pieces.length) : offset pieces i < offset pieces j := by
  induction j with
  | zero => omega
  | succ j ih =>
    have hsucc := offset_succ (List.getElem?_eq_getElem (show j < pieces.length by omega))
    have hpos : 3 ≤ (pieces[j]).bytes.length := entryBytes_pos _ _ _
    obtain heq | hlt := (Nat.le_of_lt_succ hij).eq_or_lt
    · subst heq
      omega
    · have := ih hlt (by omega)
      omega

theorem offset_lt_iff {i j : Nat} (hi : i ≤ pieces.length) (hj : j ≤ pieces.length) :
    offset pieces i < offset pieces j ↔ i < j := by
  refine ⟨fun h => ?_, fun h => offset_lt h hj⟩
  by_contra hij
  obtain heq | hlt := (Nat.not_lt.mp hij).eq_or_lt
  · subst heq
    omega
  · have := offset_lt hlt hi
    omega

theorem offset_le_content {i : Nat} (hi : i ≤ pieces.length) : offset pieces i ≤ (content pieces).length := by
  obtain rfl | hlt := hi.eq_or_lt
  · exact (offset_length pieces).le
  · exact offset_length pieces ▸ (offset_lt hlt le_rfl).le

end Offsets

section Builder

variable {compare : List Byte → List Byte → Int} {restartInterval : Nat} {b : BlockBuilder} {pieces : List Piece}
  {points : List Nat}

theorem sharedLength_spec (last key : List Byte) : sharedLength last key ≤ last.length ∧
    sharedLength last key ≤ key.length ∧ last.take (sharedLength last key) = key.take (sharedLength last key) := by
  induction last generalizing key with
  | nil => exact ⟨Nat.zero_le _, Nat.zero_le _, rfl⟩
  | cons a last ih =>
    cases key with
    | nil => exact ⟨Nat.zero_le _, Nat.zero_le _, rfl⟩
    | cons a' key =>
      rw [sharedLength]
      split
      · rename_i heq
        obtain ⟨hlast, hkey, htake⟩ := ih key
        refine ⟨Nat.succ_le_succ hlast, Nat.succ_le_succ hkey, ?_⟩
        rw [List.take_succ_cons, List.take_succ_cons, htake, heq]
      · exact ⟨Nat.zero_le _, Nat.zero_le _, rfl⟩

/-- A builder that has these entries. -/
structure Rep (restartInterval : Nat) (b : BlockBuilder) (pieces : List Piece) (points : List Nat) : Prop where
  layout : Layout pieces points
  buffer : b.buffer = content pieces
  restarts : b.restarts = points.map (offset pieces)
  lastKey : b.lastKey = keyBefore pieces pieces.length
  counter : b.counter ≤ restartInterval
  first : pieces = [] → b.counter = 0
  finished : b.finished = false

theorem new_rep (restartInterval : Nat) : Rep restartInterval BlockBuilder.new [] [0] where
  layout := {
    follows := fun h => by cases h
    head := rfl
    sorted := List.pairwise_singleton _ _
    restart := fun r _ e he => by cases he
    bound := fun r hr => .inr (List.mem_singleton.mp hr) }
  buffer := rfl
  restarts := rfl
  lastKey := rfl
  counter := Nat.zero_le _
  first _ := rfl
  finished := rfl

theorem Layout.append (h : Layout pieces points) {e : Piece} (he : Follows (keyBefore pieces pieces.length) e)
    {points' : List Nat}
    (hpoints : points' = points ∨ (points' = points ++ [pieces.length] ∧ e.shared = 0 ∧ pieces ≠ [])) :
    Layout (pieces ++ [e]) points' := by
  constructor
  · intro i e' hget
    obtain hlt | hge := Nat.lt_or_ge i pieces.length
    · rw [List.getElem?_append_left hlt] at hget
      rw [keyBefore_append hlt.le]
      exact h.follows hget
    · obtain rfl : i = pieces.length := by
        have hlen := (List.getElem?_eq_some_iff.mp hget).1
        rw [List.length_append, List.length_singleton] at hlen
        omega
      rw [List.getElem?_concat_length] at hget
      obtain rfl := Option.some.inj hget
      rw [keyBefore_append le_rfl]
      exact he
  · obtain rfl | ⟨rfl, -, -⟩ := hpoints
    · exact h.head
    · exact List.getElem?_append_left (List.getElem?_eq_some_iff.mp h.head).1 ▸ h.head
  · obtain rfl | ⟨rfl, -, hne⟩ := hpoints
    · exact h.sorted
    · refine List.pairwise_append.mpr ⟨h.sorted, List.pairwise_singleton _ _, fun r hr r' hr' => ?_⟩
      rw [List.mem_singleton.mp hr']
      obtain hlt | rfl := h.bound r hr
      · exact hlt
      · exact List.length_pos_iff.mpr hne
  · intro r hr e' hget
    -- the first entry shares nothing with the one before, since there is none
    have hzero : ∀ r, r = 0 → ∀ e', (pieces ++ [e])[r]? = some e' → pieces = [] → e'.shared = 0 := by
      rintro r rfl e' hget rfl
      obtain rfl := Option.some.inj hget
      exact Nat.le_zero.mp he.le_last
    have hold : r ∈ points → e'.shared = 0 := by
      intro hr
      obtain hlt | h0 := h.bound r hr
      · rw [List.getElem?_append_left hlt] at hget
        exact h.restart r hr e' hget
      · by_cases hnil : pieces = []
        · exact hzero r h0 e' hget hnil
        · rw [List.getElem?_append_left (h0 ▸ List.length_pos_iff.mpr hnil)] at hget
          exact h.restart r hr e' hget
    obtain rfl | ⟨rfl, hshared, -⟩ := hpoints
    · exact hold hr
    · obtain hr | hr := List.mem_append.mp hr
      · exact hold hr
      · rw [List.mem_singleton.mp hr, List.getElem?_concat_length] at hget
        exact Option.some.inj hget ▸ hshared
  · intro r hr
    rw [List.length_append, List.length_singleton]
    obtain rfl | ⟨rfl, -, -⟩ := hpoints
    · exact (h.bound r hr).imp_left Nat.lt_succ_of_lt
    · obtain hr | hr := List.mem_append.mp hr
      · exact (h.bound r hr).imp_left Nat.lt_succ_of_lt
      · exact .inl (List.mem_singleton.mp hr ▸ Nat.lt_succ_self _)

theorem Rep.add (h : Rep restartInterval b pieces points) (hinterval : 1 ≤ restartInterval) {key value : List Byte}
    (hcompare : pieces = [] ∨ 0 < compare key (keyBefore pieces pieces.length))
    (hsize : (content pieces).length < 4294967296) :
    ∃ b' e points', b.add compare restartInterval key value = .ok b' ∧ pairOf e = (key, value) ∧
      Rep restartInterval b' (pieces ++ [e]) points' := by
  obtain ⟨shared, hshared⟩ : ∃ n, (if b.counter < restartInterval then sharedLength b.lastKey key else 0) = n :=
    ⟨_, rfl⟩
  obtain ⟨hlast, hkey, htake⟩ :
      shared ≤ b.lastKey.length ∧ shared ≤ key.length ∧ b.lastKey.take shared = key.take shared := by
    rw [← hshared]
    split
    · exact sharedLength_spec b.lastKey key
    · exact ⟨Nat.zero_le _, Nat.zero_le _, rfl⟩
  have hlastKey : b.lastKey.take shared ++ key.drop shared = key := by rw [htake, List.take_append_drop]
  have hguard : b.finished = false ∧ b.counter ≤ restartInterval ∧ (b.buffer = [] ∨ 0 < compare key b.lastKey) := by
    refine ⟨h.finished, h.counter, hcompare.imp (fun hnil => ?_) (fun hlt => h.lastKey ▸ hlt)⟩
    rw [h.buffer, hnil]
    rfl
  have hadd : b.add compare restartInterval key value =
      .ok ⟨b.buffer ++ entryBytes shared key value,
        if b.counter < restartInterval then b.restarts else b.restarts ++ [b.buffer.length % 4294967296],
        (if b.counter < restartInterval then b.counter else 0) + 1, false, key⟩ := by
    unfold BlockBuilder.add
    simp only [if_pos hguard, hshared, hlastKey, if_true]
  have hfollows : Follows (keyBefore pieces pieces.length) ⟨shared, key, value⟩ :=
    ⟨hkey, h.lastKey ▸ hlast, h.lastKey ▸ htake⟩
  have hold : ∀ r ∈ points, offset (pieces ++ [Piece.mk shared key value]) r = offset pieces r := by
    intro r hr
    exact offset_append ((h.layout.bound r hr).elim Nat.le_of_lt fun h0 => h0 ▸ Nat.zero_le _) _
  have hbuffer : b.buffer ++ entryBytes shared key value = content (pieces ++ [Piece.mk shared key value]) := by
    rw [content_append, content_singleton, h.buffer]
    rfl
  have hlast' : keyBefore (pieces ++ [Piece.mk shared key value]) (pieces ++ [Piece.mk shared key value]).length = key := by
    rw [List.length_append, List.length_singleton, keyBefore, List.getElem?_concat_length]
  by_cases hcounter : b.counter < restartInterval
  · refine ⟨_, ⟨shared, key, value⟩, points, hadd, rfl, h.layout.append hfollows (.inl rfl), hbuffer, ?_,
      hlast'.symm, ?_, fun hnil => absurd hnil (List.append_ne_nil_of_right_ne_nil _ (List.cons_ne_nil _ _)), rfl⟩
    · simp only [if_pos hcounter, h.restarts]
      exact List.map_congr_left fun r hr => (hold r hr).symm
    · simp only [if_pos hcounter]
      omega
  · rw [if_neg hcounter] at hshared
    have hne : pieces ≠ [] := by
      intro hnil
      have := h.first hnil
      omega
    have hlayout : Layout (pieces ++ [Piece.mk shared key value]) (points ++ [pieces.length]) :=
      h.layout.append hfollows (.inr ⟨rfl, hshared.symm, hne⟩)
    refine ⟨_, ⟨shared, key, value⟩, points ++ [pieces.length], hadd, rfl, hlayout, hbuffer, ?_, hlast'.symm, ?_,
      fun hnil => absurd hnil (List.append_ne_nil_of_right_ne_nil _ (List.cons_ne_nil _ _)), rfl⟩
    · simp only [if_neg hcounter, h.restarts, List.map_append, List.map_singleton]
      rw [offset_append le_rfl, offset_length, h.buffer, Nat.mod_eq_of_lt hsize]
      congr 1
      exact List.map_congr_left fun r hr => (hold r hr).symm
    · simp only [if_neg hcounter]
      omega

/-- What an entry takes up in a block at most, with a restart point. -/
def entrySize (e : List Byte × List Byte) : Nat := e.1.length + e.2.length + 19

theorem bytes_length_le (e : Piece) : e.bytes.length + 4 ≤ entrySize (pairOf e) := by
  have hle : ∀ v, (encodeVarint32 v).length ≤ 5 := by
    intro v
    unfold encodeVarint32
    split_ifs <;> simp
  have h1 := hle (e.shared % 4294967296)
  have h2 := hle ((e.key.length - e.shared) % 4294967296)
  have h3 := hle (e.value.length % 4294967296)
  simp only [Piece.bytes, entryBytes, entrySize, pairOf, List.length_append, List.length_drop]
  omega

theorem content_length_le (pieces : List Piece) :
    (content pieces).length + 4 * pieces.length ≤ ((pieces.map pairOf).map entrySize).sum := by
  induction pieces with
  | nil => exact le_rfl
  | cons e pieces ih =>
    have he := bytes_length_le e
    have hcons : content (e :: pieces) = e.bytes ++ content pieces := rfl
    rw [hcons, List.length_append, List.map_cons, List.map_cons, List.sum_cons, List.length_cons]
    omega

theorem Layout.points_length (h : Layout pieces points) : points.length ≤ pieces.length + 1 := by
  have hlt : ∀ r ∈ points, r < pieces.length + 1 := by
    intro r hr
    obtain h | h := h.bound r hr <;> omega
  have hsub : points ⊆ List.range (pieces.length + 1) := fun r hr => List.mem_range.mpr (hlt r hr)
  have hnodup : points.Nodup := h.sorted.imp fun hlt => Nat.ne_of_lt hlt
  have hle := (hnodup.subperm hsub).length_le
  rwa [List.length_range] at hle

theorem Rep.adds (h : Rep restartInterval b pieces points) (hinterval : 1 ≤ restartInterval)
    {entries : List (List Byte × List Byte)}
    (hsorted : (pieces.map pairOf ++ entries).Pairwise fun e e' => 0 < compare e'.1 e.1)
    (hsize : ((pieces.map pairOf ++ entries).map entrySize).sum < 4294967296) :
    ∃ b' pieces' points', b.adds compare restartInterval entries = .ok b' ∧
      pieces'.map pairOf = pieces.map pairOf ++ entries ∧ Rep restartInterval b' pieces' points' := by
  induction entries generalizing b pieces points with
  | nil => exact ⟨b, pieces, points, rfl, (List.append_nil _).symm, h⟩
  | cons entry entries ih =>
    obtain ⟨key, value⟩ := entry
    have hcompare : pieces = [] ∨ 0 < compare key (keyBefore pieces pieces.length) := by
      cases hlast : pieces.getLast? with
      | none => exact .inl (List.getLast?_eq_none_iff.mp hlast)
      | some last =>
        obtain ⟨init, rfl⟩ := List.getLast?_eq_some_iff.mp hlast
        right
        have hkey : keyBefore (init ++ [last]) (init ++ [last]).length = last.key := by
          rw [List.length_append, List.length_singleton, keyBefore, List.getElem?_concat_length]
        obtain ⟨-, -, hcross⟩ := List.pairwise_append.mp hsorted
        rw [hkey]
        exact hcross (pairOf last) (List.mem_map_of_mem (List.mem_append_right _ (List.mem_singleton_self _))) _
          (List.mem_cons_self ..)
    have hcontent : (content pieces).length < 4294967296 := by
      have hle := content_length_le pieces
      rw [List.map_append, List.sum_append] at hsize
      omega
    obtain ⟨b₁, e, points₁, hadd, he, hrep⟩ :
        ∃ b₁ e points₁, b.add compare restartInterval key value = .ok b₁ ∧ pairOf e = (key, value) ∧
          Rep restartInterval b₁ (pieces ++ [e]) points₁ := h.add hinterval hcompare hcontent
    have hassoc : pieces.map pairOf ++ (key, value) :: entries = (pieces ++ [e]).map pairOf ++ entries := by
      rw [List.map_append, List.append_assoc, List.map_singleton, he]
      rfl
    rw [hassoc] at hsorted hsize ⊢
    obtain ⟨b', pieces', points', hadds, heq, hrep'⟩ := ih hrep hsorted hsize
    exact ⟨b', pieces', points', by rw [BlockBuilder.adds, hadd, ok_bind, hadds], heq, hrep'⟩

end Builder

section Parsing

theorem varint_of_lt {b : Byte} (h : b.toNat < 128) (rest : List Byte) :
    getVarint32Ptr (b :: rest) = some (b.toNat, rest) := by
  rw [getVarint32Ptr, if_pos (and_128_of_lt h)]

theorem decodeEntry_eq {text : List Byte} (h : 3 ≤ text.length) :
    decodeEntry text = (do
      let (shared, p) ← getVarint32Ptr text
      let (nonShared, p) ← getVarint32Ptr p
      let (valueLength, p) ← getVarint32Ptr p
      if p.length < (nonShared + valueLength) % 4294967296 then none else some (shared, nonShared, valueLength, p)) := by
  obtain _ | ⟨x, _ | ⟨y, _ | ⟨z, rest⟩⟩⟩ := text
  · cases h
  · exact absurd h (by simp)
  · exact absurd h (by simp)
  rw [decodeEntry]
  split
  · rename_i hor
    have hx : x.toNat < 128 := lt_of_le_of_lt (Nat.left_le_or.trans Nat.left_le_or) hor
    have hy : y.toNat < 128 := lt_of_le_of_lt (Nat.right_le_or.trans Nat.left_le_or) hor
    have hz : z.toNat < 128 := lt_of_le_of_lt Nat.right_le_or hor
    simp [varint_of_lt hx, varint_of_lt hy, varint_of_lt hz]
  · simp only [Option.bind_eq_bind, Option.bind_some]

theorem decodeEntry_bytes {e : Piece} (hshared : e.shared ≤ e.key.length)
    (hsize : e.key.length + e.value.length < 4294967296) (rest : List Byte) :
    decodeEntry (e.bytes ++ rest) =
      some (e.shared, e.key.length - e.shared, e.value.length, e.key.drop e.shared ++ (e.value ++ rest)) := by
  have hread : ∀ v < 4294967296, ∀ rest, getVarint32Ptr (encodeVarint32 (v % 4294967296) ++ rest) = some (v, rest) := by
    intro v hv rest
    rw [Nat.mod_eq_of_lt hv]
    exact varint32_lawful.read v hv rest
  have hlen : 3 ≤ (e.bytes ++ rest).length := by
    rw [List.length_append]
    exact (entryBytes_pos _ _ _).trans (Nat.le_add_right ..)
  have htail : ¬ (e.key.drop e.shared ++ (e.value ++ rest)).length <
      (e.key.length - e.shared + e.value.length) % 4294967296 := by
    rw [List.length_append, List.length_append, List.length_drop, Nat.mod_eq_of_lt (by omega)]
    omega
  rw [decodeEntry_eq hlen, Piece.bytes, entryBytes]
  simp only [List.append_assoc]
  simp only [Option.bind_eq_bind, hread e.shared (by omega), hread (e.key.length - e.shared) (by omega),
    hread e.value.length (by omega), Option.bind_some, if_neg htail]

end Parsing

structure Image (pieces : List Piece) (points : List Nat) (data : List Byte) : Prop where
  layout : Layout pieces points
  data_eq : data =
    content pieces ++ ((points.map fun r => encodeFixed32 (offset pieces r)).flatten ++ encodeFixed32 points.length)
  size : data.length < 4294967296
  entries : ∀ e ∈ pieces, e.key.length + e.value.length < 4294967296

section Image

variable {pieces : List Piece} {points : List Nat} {data : List Byte}

theorem restarts_uniform (pieces : List Piece) (points : List Nat) :
    Uniform 4 (points.map fun r => encodeFixed32 (offset pieces r)) := by
  intro x hx
  obtain ⟨r, -, rfl⟩ := List.mem_map.mp hx
  exact encodeFixed_length 4 _

theorem restarts_length (pieces : List Piece) (points : List Nat) :
    ((points.map fun r => encodeFixed32 (offset pieces r)).flatten).length = points.length * 4 := by
  rw [flatten_length (restarts_uniform pieces points), List.length_map]

theorem Image.length (h : Image pieces points data) : data.length = (content pieces).length + points.length * 4 + 4 := by
  rw [h.data_eq, List.length_append, List.length_append, restarts_length, encodeFixed32, encodeFixed_length]
  omega

theorem Image.points_lt (h : Image pieces points data) : points.length < 4294967296 := by
  have := h.length
  have := h.size
  omega

theorem Image.numRestarts (h : Image pieces points data) : numRestartsOf data = points.length := by
  have hdrop : data.drop (data.length - 4) = encodeFixed32 points.length ++ [] := by
    rw [List.append_nil, h.length, h.data_eq, ← List.append_assoc]
    apply List.drop_left'
    rw [List.length_append, restarts_length, Nat.add_sub_cancel]
  rw [numRestartsOf, hdrop, decodeFixed32_encodeFixed32 h.points_lt]

theorem Image.points_pos (h : Image pieces points data) : 0 < points.length :=
  (List.getElem?_eq_some_iff.mp h.layout.head).1

theorem Image.new_eq (h : Image pieces points data) : Block.new data = ⟨data, data.length, (content pieces).length⟩ := by
  have hlen := h.length
  have hsize := h.size
  rw [Block.new, if_neg (by omega), h.numRestarts, if_neg (by omega)]
  congr 1
  omega

theorem Image.newIterator (h : Image pieces points data) : (Block.new data).newIterator =
    .ok (.block
      ⟨data, (content pieces).length, points.length, (content pieces).length, points.length, [], 0, 0, false⟩) := by
  have hlen := h.length
  have hpos := h.points_pos
  rw [h.new_eq, Block.newIterator, if_neg (by simp only; omega), if_neg (by rw [h.numRestarts]; omega), h.numRestarts]

theorem Image.take (h : Image pieces points data) : data.take (content pieces).length = content pieces := by
  rw [h.data_eq]
  exact List.take_left

theorem Image.drop_take (h : Image pieces points data) {i : Nat} {e : Piece} (he : pieces[i]? = some e) :
    (data.take (content pieces).length).drop (offset pieces i) = e.bytes ++ content (pieces.drop (i + 1)) := by
  rw [h.take, drop_content he]

end Image

section Iterator

variable {pieces : List Piece} {points : List Nat} {data : List Byte} {it : BlockIter} {i : Nat}

/-- The iterator is one over the block, and nothing has been wrong with it. -/
structure Over (pieces : List Piece) (points : List Nat) (data : List Byte) (it : BlockIter) : Prop where
  data : it.data = data
  restarts : it.restarts = (content pieces).length
  numRestarts : it.numRestarts = points.length
  intact : it.corrupt = false

/-- The next entry that is parsed is the `i`-th one. -/
structure Before (pieces : List Piece) (points : List Nat) (data : List Byte) (it : BlockIter) (i : Nat) : Prop where
  block : Over pieces points data it
  next : it.nextEntryOffset = offset pieces i
  index : it.restartIndex < points.length
  shares : ∀ e, pieces[i]? = some e → e.shared ≤ it.key.length ∧ it.key.take e.shared = e.key.take e.shared

structure AtEntry (pieces : List Piece) (points : List Nat) (data : List Byte) (it : BlockIter) (i : Nat) : Prop where
  block : Over pieces points data it
  current : it.current = offset pieces i
  next : it.nextEntryOffset = offset pieces (i + 1)
  index : it.restartIndex < points.length
  entry : ∃ e, pieces[i]? = some e ∧ it.key = e.key ∧ it.valueLength = e.value.length

structure Ended (pieces : List Piece) (points : List Nat) (data : List Byte) (it : BlockIter) : Prop where
  block : Over pieces points data it
  current : it.current = (content pieces).length

theorem Over.getRestartPoint (h : Over pieces points data it) (hi : Image pieces points data) {index r : Nat}
    (hr : points[index]? = some r) : it.getRestartPoint index = .ok (offset pieces r) := by
  obtain ⟨hindex, -⟩ := List.getElem?_eq_some_iff.mp hr
  have hlen := hi.length
  have hrange : r ≤ pieces.length := by
    obtain h | h := hi.layout.bound r (List.mem_of_getElem? hr) <;> omega
  have hoffset : offset pieces r < 4294967296 := by
    have := offset_le_content hrange
    have := hi.size
    omega
  have hpoint : slice ((points.map fun r => encodeFixed32 (offset pieces r)).flatten) (index * 4) (1 * 4) =
      encodeFixed32 (offset pieces r) := by
    rw [slice_flatten (restarts_uniform pieces points), slice, List.take_one, List.head?_drop, List.getElem?_map, hr]
    exact List.append_nil _
  have hdata : (data.drop ((content pieces).length + index * 4)).take 4 = encodeFixed32 (offset pieces r) := by
    rw [← hpoint, slice, hi.data_eq, List.drop_append, List.drop_of_length_le (Nat.le_add_right _ _), List.nil_append,
      Nat.add_sub_cancel_left, List.drop_append_of_le_length (by rw [restarts_length]; omega),
      List.take_append_of_le_length (by rw [List.length_drop, restarts_length]; omega)]
  have hdecode := decodeFixed32_encodeFixed32 hoffset []
  rw [List.append_nil, decodeFixed32, encodeFixed32, List.take_of_length_le (encodeFixed_length 4 _).le] at hdecode
  rw [BlockIter.getRestartPoint, h.data, h.restarts, h.numRestarts, if_pos hindex, if_pos (by omega), decodeFixed32, hdata,
    encodeFixed32, hdecode]

theorem Over.restartLoop (h : Over pieces points data it) (hi : Image pieces points data) (current : Nat) {fuel index : Nat}
    (hindex : index < points.length) (hfuel : points.length < index + fuel) :
    ∃ index' < points.length, it.restartLoop current fuel index = .ok index' := by
  induction fuel generalizing index with
  | zero => omega
  | succ fuel ih =>
    rw [BlockIter.restartLoop, h.numRestarts]
    split
    · rename_i hlt
      rw [h.getRestartPoint hi (List.getElem?_eq_getElem hlt), ok_bind]
      split
      · exact ih hlt (by omega)
      · exact ⟨index, hindex, rfl⟩
    · exact ⟨index, hindex, rfl⟩

theorem Over.seekToRestartPoint (h : Over pieces points data it) (hi : Image pieces points data) {index r : Nat}
    (hr : points[index]? = some r) :
    ∃ it', it.seekToRestartPoint index = .ok it' ∧ Before pieces points data it' r := by
  refine ⟨⟨it.data, it.restarts, it.numRestarts, it.current, index, [], offset pieces r, 0, it.corrupt⟩, ?_,
    ⟨h.data, h.restarts, h.numRestarts, h.intact⟩, rfl, (List.getElem?_eq_some_iff.mp hr).1, fun e he => ?_⟩
  · rw [BlockIter.seekToRestartPoint, h.getRestartPoint hi hr, ok_bind]
  rw [hi.layout.restart r (List.mem_of_getElem? hr) e he]
  exact ⟨Nat.zero_le _, rfl⟩

theorem Image.split (hi : Image pieces points data) {i : Nat} {e : Piece} (he : pieces[i]? = some e) :
    ∃ header rest tail : List Byte, e.bytes = header ++ (e.key.drop e.shared ++ e.value) ∧
      (data.take (content pieces).length).drop (offset pieces i) = e.bytes ++ rest ∧
      (content pieces).length =
        offset pieces i + (header.length + ((e.key.drop e.shared).length + (e.value.length + rest.length))) ∧
      data.drop (offset pieces i + header.length) = e.key.drop e.shared ++ (e.value ++ tail) := by
  obtain ⟨rest, hrest⟩ : ∃ rest, content (pieces.drop (i + 1)) = rest := ⟨_, rfl⟩
  obtain ⟨header, hheader⟩ : ∃ header, encodeVarint32 (e.shared % 4294967296) ++
      (encodeVarint32 ((e.key.length - e.shared) % 4294967296) ++ encodeVarint32 (e.value.length % 4294967296)) = header :=
    ⟨_, rfl⟩
  have hbytes : e.bytes = header ++ (e.key.drop e.shared ++ e.value) := by
    rw [← hheader, Piece.bytes, entryBytes]
    simp only [List.append_assoc]
  have hdrop := hi.drop_take he
  rw [hrest] at hdrop
  have hlt := (List.getElem?_eq_some_iff.mp he).1
  have hle := offset_le_content hlt.le
  have hcontent : (content pieces).drop (offset pieces i) = e.bytes ++ rest := by rw [← hrest]; exact drop_content he
  obtain ⟨trailer, htrailer⟩ : ∃ trailer, data = content pieces ++ trailer := ⟨_, hi.data_eq⟩
  refine ⟨header, rest, rest ++ trailer, hbytes, hdrop, ?_, ?_⟩
  · have hlen := congrArg List.length hcontent
    rw [List.length_drop, hbytes, List.length_append, List.length_append, List.length_append] at hlen
    omega
  · rw [htrailer, ← List.drop_drop, List.drop_append_of_le_length hle, hcontent, hbytes]
    simp only [List.append_assoc]
    exact List.drop_left

theorem Before.parse (h : Before pieces points data it i) (hi : Image pieces points data) {e : Piece}
    (he : pieces[i]? = some e) : ∃ it', it.parseNextKey = .ok (true, it') ∧ AtEntry pieces points data it' i := by
  have hfollows := hi.layout.follows he
  obtain ⟨hshared, htake⟩ := h.shares e he
  obtain ⟨header, rest, tail, hbytes, hdrop, hlen, hdata⟩ := hi.split he
  have hdecode := decodeEntry_bytes hfollows.le_key (hi.entries e (List.mem_of_getElem? he)) rest
  have hdelta : (e.key.drop e.shared).length = e.key.length - e.shared := List.length_drop
  have hpos : 3 ≤ e.bytes.length := entryBytes_pos _ _ _
  have hbyteslen := congrArg List.length hbytes
  rw [List.length_append, List.length_append] at hbyteslen
  have hstart : (content pieces).length - (e.key.drop e.shared ++ (e.value ++ rest)).length =
      offset pieces i + header.length := by
    rw [List.length_append, List.length_append]
    omega
  have hkey : it.key.take e.shared ++ (data.drop (offset pieces i + header.length)).take (e.key.length - e.shared) =
      e.key := by
    rw [hdata, ← hdelta, List.take_left, htake, List.take_append_drop]
  obtain ⟨index, hindex, hloop⟩ := h.block.restartLoop hi (offset pieces i) h.index
    (show points.length < it.restartIndex + (points.length + 1) by omega)
  have hsize := hi.length
  refine ⟨⟨it.data, it.restarts, it.numRestarts, offset pieces i, index, e.key,
    offset pieces i + header.length + (e.key.length - e.shared), e.value.length, it.corrupt⟩, ?_, ?_⟩
  · rw [BlockIter.parseNextKey]
    simp only [h.next, h.block.restarts, h.block.data, h.block.numRestarts, hdrop, hdecode, hstart]
    rw [if_neg (by omega), if_neg (by omega), if_pos (by omega), hloop, ok_bind, hkey]
  · refine ⟨⟨h.block.data, h.block.restarts, h.block.numRestarts, h.block.intact⟩, rfl, ?_, hindex, e, he, rfl, rfl⟩
    rw [offset_succ he, BlockIter.nextEntryOffset]
    simp only
    omega

theorem Before.parse_end (h : Before pieces points data it pieces.length) :
    ∃ it', it.parseNextKey = .ok (false, it') ∧ Ended pieces points data it' := by
  have hend : it.restarts ≤ it.nextEntryOffset := by rw [h.next, offset_length, h.block.restarts]
  refine ⟨{ it with current := it.restarts, restartIndex := it.numRestarts }, ?_,
    ⟨h.block.data, h.block.restarts, h.block.numRestarts, h.block.intact⟩, h.block.restarts⟩
  rw [BlockIter.parseNextKey]
  simp only [if_pos hend]

theorem AtEntry.before (h : AtEntry pieces points data it i) (hi : Image pieces points data) :
    Before pieces points data it (i + 1) := by
  obtain ⟨e, he, hkey, -⟩ := h.entry
  refine ⟨h.block, h.next, h.index, fun e' he' => ?_⟩
  have hfollows := hi.layout.follows he'
  rw [keyBefore, he] at hfollows
  exact ⟨hkey ▸ hfollows.le_last, hkey ▸ hfollows.take⟩

theorem AtEntry.valid (h : AtEntry pieces points data it i) : it.valid = true := by
  obtain ⟨e, he, -⟩ := h.entry
  have hlt := (List.getElem?_eq_some_iff.mp he).1
  rw [BlockIter.valid, h.current, h.block.restarts]
  exact decide_eq_true (offset_length pieces ▸ offset_lt hlt le_rfl)

theorem Ended.invalid (h : Ended pieces points data it) : it.valid = false := by
  rw [BlockIter.valid, h.current, h.block.restarts]
  exact decide_eq_false (lt_irrefl _)

theorem AtEntry.entry_eq (h : AtEntry pieces points data it i) (hi : Image pieces points data) {e : Piece}
    (he : pieces[i]? = some e) : it.entry = .ok (pairOf e) := by
  obtain ⟨e', he', hkey, hvalue⟩ := h.entry
  obtain rfl := Option.some.inj (he.symm.trans he')
  obtain ⟨header, rest, tail, hbytes, -, hlen, hdata⟩ := hi.split he
  have hbyteslen := congrArg List.length hbytes
  rw [List.length_append, List.length_append] at hbyteslen
  have hnext := h.next
  rw [offset_succ he, BlockIter.nextEntryOffset] at hnext
  have hoffset : it.valueOffset = offset pieces i + header.length + (e.key.drop e.shared).length := by omega
  have hsize := hi.length
  rw [BlockIter.entry, h.valid, if_pos rfl, h.block.data, if_pos (by omega), hvalue, hkey, hoffset, ← List.drop_drop,
    hdata, List.drop_left, List.take_left]
  rfl

end Iterator

end RecordStore.BlockReading
