import RecordStore.DbIterators
import RecordStore.MemTables
import RecordStore.Merging

namespace RecordStore.Snapshots

open RecordStore.CFile RecordStore.Outcome RecordStore.ThreeWay RecordStore.Cursors RecordStore.DbFormat RecordStore.Versions
open RecordStore.MemTables RecordStore.Merging RecordStore.DbIterators

variable {τ : Type}

/-- The internal iterators that are merged: over a memtable, or over what the files hold. -/
inductive Child (τ : Type) where
  | memTable (mem : MemTable) (node : Option Nat)
  | files (iter : τ)

section Definitions

variable (userCompare : List Byte → List Byte → Int) (filesIterator : Cursor Fault τ (List Byte) (List Byte × List Byte))

def Child.step (memTable : MemTable → Option Nat → Except Fault (Option Nat)) (files : τ → Except Fault τ) :
    Child τ → Except Fault (Child τ)
  | .memTable mem node => do
    let node ← memTable mem node
    .ok (.memTable mem node)
  | .files iter => do
    let iter ← files iter
    .ok (.files iter)

def childIterator : Cursor Fault (Child τ) (List Byte) (List Byte × List Byte) where
  valid
    | .memTable mem node => (memTableIterator userCompare mem).valid node
    | .files iter => filesIterator.valid iter
  entry
    | .memTable mem node => (memTableIterator userCompare mem).entry node
    | .files iter => filesIterator.entry iter
  seekToFirst := Child.step (fun mem => (memTableIterator userCompare mem).seekToFirst) filesIterator.seekToFirst
  seekToLast := Child.step (fun mem => (memTableIterator userCompare mem).seekToLast) filesIterator.seekToLast
  seek k := Child.step (fun mem => (memTableIterator userCompare mem).seek k) (filesIterator.seek k)
  next := Child.step (fun mem => (memTableIterator userCompare mem).next) filesIterator.next
  prev := Child.step (fun mem => (memTableIterator userCompare mem).prev) filesIterator.prev

/-- The children that `NewInternalIterator` collects: of the memtable, of the one that is being written to a file if
there is one, and of the files of the current version. -/
def childrenOf (mem : MemTable) (imm : Option MemTable) (files : List τ) : List (Child τ) :=
  .memTable mem none :: (imm.toList.map (fun imm => .memTable imm none) ++ files.map .files)

def newInternalIterator (mem : MemTable) (imm : Option MemTable) (files : List τ) : Merged (Child τ) :=
  newMergingIterator (childrenOf mem imm files)

/-- The functions of what `NewIterator` gives. -/
def snapshotIterator (sequence fuel : Nat) : Cursor Fault (DBIter (Merged (Child τ))) (List Byte) (List Byte × List Byte) :=
  dbIterator userCompare (mergedIterator (internalCompare userCompare) (childIterator userCompare filesIterator))
    sequence fuel

def newIterator (mem : MemTable) (imm : Option MemTable) (files : List τ) : DBIter (Merged (Child τ)) :=
  newDBIter (newInternalIterator mem imm files)

end Definitions

variable {p target : List Byte → Prop} {userCompare : List Byte → List Byte → Int} {ws : List Write} {sequence : Nat}

section Live

/-- The keys and values that a snapshot of these writes holds: of each key the newest write, if it is not a deletion. -/
def live (userCompare : List Byte → List Byte → Int) (ws : List Write) (sequence : Nat) : Set (List Byte × List Byte) :=
  { kv | ∃ w, Newest userCompare ws kv.1 sequence (some w) ∧ w.type = .value ∧ kv = (w.key, w.value) }

theorem keyOf_entry {w : Write} (hs : w.sequence ≤ maxSequenceNumber) :
    keyOf (w.internalKey, w.value) = ⟨w.key, w.sequence, w.type⟩ := by
  have heq : w.internalKey = internalKeyOf (ParsedInternalKey.mk w.key w.sequence w.type).userKey _ := rfl
  exact (keyOf_eq heq hs).2

theorem entrySet_finite (ws : List Write) : (entrySet ws).Finite := by
  have hset : entrySet ws = (fun w : Write => (w.internalKey, w.value)) '' { w | w ∈ ws } := by
    ext e
    exact ⟨fun ⟨w, hw, he⟩ => ⟨w, hw, he.symm⟩, fun ⟨w, hw, he⟩ => ⟨w, hw, he.symm⟩⟩
  rw [hset]
  exact (List.finite_toSet ws).image _

theorem entrySet_ncard (ws : List Write) : (entrySet ws).ncard ≤ ws.length := by
  have hset : entrySet ws = (ws.map fun w => (w.internalKey, w.value)).toFinset := by
    ext e
    rw [Finset.mem_coe, List.mem_toFinset, List.mem_map]
    exact ⟨fun ⟨w, hw, he⟩ => ⟨w, hw, he.symm⟩, fun ⟨w, hw, he⟩ => ⟨w, hw, he.symm⟩⟩
  rw [hset, Set.ncard_coe_finset]
  exact (List.toFinset_card_le _).trans (by rw [List.length_map])

theorem entrySet_apart (ho : Orders p userCompare) (hvalid : ∀ w ∈ ws, w.Valid p)
    (hapart : ws.Pairwise (Apart userCompare)) :
    ∀ a ∈ entrySet ws, ∀ b ∈ entrySet ws, a ≠ b → internalCompare userCompare a.1 b.1 ≠ 0 := by
  rintro _ ⟨w, hw, rfl⟩ _ ⟨w', hw', rfl⟩ hne
  have hw_ne : w ≠ w' := fun he => hne (by rw [he])
  have hentries : keyCompare userCompare w.entry w'.entry ≠ 0 := by
    obtain h | h := apart_of_ne hapart hw hw' hw_ne
    · exact entries_apart (hvalid w hw) (hvalid w' hw') h
    · have hzero := (keyCompare_orders ho).zero_iff (entry_keyText (hvalid w hw)) (entry_keyText (hvalid w' hw'))
      exact fun h0 => entries_apart (hvalid w' hw') (hvalid w hw) h (hzero.mp h0)
  rwa [keyCompare_eq (entry_keyText (hvalid w hw)) (entry_keyText (hvalid w' hw')), textKey_entry (hvalid w hw),
    textKey_entry (hvalid w' hw')] at hentries

theorem snapshot_entrySet (ho : Orders p userCompare) (hvalid : ∀ w ∈ ws, w.Valid p)
    (hapart : ws.Pairwise (Apart userCompare)) :
    snapshot userCompare sequence (entrySet ws) = live userCompare ws sequence := by
  have hkey : ∀ w ∈ ws, keyOf (w.internalKey, w.value) = ⟨w.key, w.sequence, w.type⟩ :=
    fun w hw => keyOf_entry (hvalid w hw).sequence
  have hsequence : ∀ w ∈ ws, ∀ w' ∈ ws, userCompare w'.key w.key = 0 → w' ≠ w → w'.sequence ≠ w.sequence := by
    intro w hw w' hw' hzero hne
    obtain h | h := apart_of_ne hapart hw' hw hne
    · exact h hzero
    · exact (h ((ho.zero_iff (hvalid w' hw').holds (hvalid w hw).holds).mp hzero)).symm
  have hnewer : ∀ w ∈ ws, ∀ w' ∈ ws, userCompare w'.key w.key = 0 → w' ≠ w →
      (Before userCompare (w.internalKey, w.value) (w'.internalKey, w'.value) ↔ w'.sequence < w.sequence) := by
    intro w hw w' hw' hzero hne
    have hzero' := (ho.zero_iff (hvalid w' hw').holds (hvalid w hw).holds).mp hzero
    have hseq := hsequence w hw w' hw' hzero hne
    have hcode : w.type.code ≤ 1 := by cases w.type <;> decide
    have hcode' : w'.type.code ≤ 1 := by cases w'.type <;> decide
    rw [Before, Write.internalKey.eq_1 w',
      internalCompare_write (hvalid w hw) w'.key (tag_lt (hvalid w' hw').sequence w'.type), if_pos hzero', tagCompare]
    split_ifs <;> omega
  ext kv
  constructor
  · rintro ⟨_, ⟨⟨w, hw, rfl⟩, hseen, hvalue, hnew⟩, rfl⟩
    simp only [userOf, Seen, IsValue, hkey w hw] at hseen hvalue hnew ⊢
    refine ⟨w, ⟨⟨hw, ho.self (hvalid w hw).holds, hseen⟩, ?_⟩, hvalue, rfl⟩
    rintro w' ⟨hw', hzero, hle⟩ hne
    rw [← hnewer w hw w' hw' hzero hne]
    have hseen' : (keyOf (w'.internalKey, w'.value)).sequence ≤ sequence := by rwa [hkey w' hw']
    have huser : userCompare (keyOf (w'.internalKey, w'.value)).userKey w.key = 0 := by rwa [hkey w' hw']
    refine hnew (w'.internalKey, w'.value) ⟨w', hw', rfl⟩ hseen' huser fun he => ?_
    have hsame := congrArg (fun e => (keyOf e).sequence) he
    simp only [hkey w hw, hkey w' hw'] at hsame
    exact hsequence w hw w' hw' hzero hne hsame
  · rintro ⟨w, ⟨⟨hw, hzero, hle⟩, hnew⟩, hvalue, rfl⟩
    refine ⟨(w.internalKey, w.value), ⟨⟨w, hw, rfl⟩, ?_, ?_, ?_⟩, ?_⟩
    · rwa [Seen, hkey w hw]
    · rwa [IsValue, hkey w hw]
    · rintro _ ⟨w', hw', rfl⟩ hseen' huser hne
      simp only [userOf, Seen, hkey w hw, hkey w' hw'] at hseen' huser
      have hne' : w' ≠ w := fun he => hne (by rw [he])
      exact (hnewer w hw w' hw' huser hne').mpr (hnew w' ⟨hw', huser, hseen'⟩ hne')
    · simp only [userOf, hkey w hw]

end Live

section Children

variable {filesIterator : Cursor Fault τ (List Byte) (List Byte × List Byte)} {children : List (Child τ)}
  {groups : List (List Write)}

def Target (p : List Byte → Prop) (k : List Byte) : Prop := k.length < 4294967296 ∧ p (userKeyOf k)

/-- An iterator that is at no entry yet goes through the entries of these writes. -/
def Shows (p : List Byte → Prop) (userCompare : List Byte → List Byte → Int) {σ : Type}
    (c : Cursor Fault σ (List Byte) (List Byte × List Byte)) (iter : σ) (ws : List Write) : Prop :=
  (∀ w ∈ ws, w.Valid p) ∧ ∃ At : σ → Option (List Byte × List Byte) → Prop, At iter none ∧
    KeyWalks c (internalCompare userCompare) (Target p) (entrySet ws) At

theorem memTable_shows (ho : Orders p userCompare) {mem : MemTable} (h : Holds p userCompare mem ws) :
    Shows p userCompare (childIterator userCompare filesIterator) (.memTable mem none) ws := by
  obtain ⟨At, hat, hwalks⟩ := memTableIterator_walks ho h
  refine ⟨h.valid, _, ⟨none, rfl, hat⟩, hwalks.onto (Child.memTable mem) (fun _ => rfl) (fun _ => rfl) ?_⟩
  intro op s s' hs
  cases op <;> simp only [Cursor.call] at hs <;> simp only [Cursor.call, childIterator, Child.step, hs, ok_bind]

theorem files_shows {iter : τ} (h : Shows p userCompare filesIterator iter ws) :
    Shows p userCompare (childIterator userCompare filesIterator) (.files iter) ws := by
  obtain ⟨hvalid, At, hat, hwalks⟩ := h
  refine ⟨hvalid, _, ⟨iter, rfl, hat⟩, hwalks.onto Child.files (fun _ => rfl) (fun _ => rfl) ?_⟩
  intro op s s' hs
  cases op <;> simp only [Cursor.call] at hs <;> simp only [Cursor.call, childIterator, Child.step, hs, ok_bind]

/-- A file as the list of its entries, which are in the order of their internal keys. -/
theorem list_shows (ho : Orders p userCompare) (hvalid : ∀ w ∈ ws, w.Valid p)
    (hsorted : (ws.map fun w => (w.internalKey, w.value)).Pairwise fun e e' => internalCompare userCompare e.1 e'.1 < 0) :
    Shows p userCompare (listCursor .assertFailed fun e k => decide (internalCompare userCompare e.1 k < 0))
      (ws.map fun w => (w.internalKey, w.value), ws.length) ws := by
  have hkeys : ∀ e ∈ ws.map (fun w => (w.internalKey, w.value)), p (userKeyOf e.1) := by
    intro e he
    obtain ⟨w, hw, rfl⟩ := List.mem_map.mp he
    rw [Write.internalKey, userKeyOf_internalKeyOf]
    exact (hvalid w hw).holds
  have hset : { e | e ∈ ws.map fun w => (w.internalKey, w.value) } = entrySet ws := by
    ext e
    refine List.mem_map.trans (exists_congr fun w => and_congr_right fun _ => eq_comm)
  have hwalks := entries_walks (internalCompare_orders ho) hkeys hsorted Fault.assertFailed
  rw [hset] at hwalks
  refine ⟨hvalid, _, ⟨rfl, ?_⟩, hwalks.fewer fun k hk => hk.2⟩
  rw [List.getElem?_eq_none (by rw [List.length_map])]

def groupSet (groups : List (List Write)) (i : Nat) : Set (List Byte × List Byte) :=
  { e | ∃ ws, groups[i]? = some ws ∧ e ∈ entrySet ws }

theorem groupSet_eq {i : Nat} (h : groups[i]? = some ws) : groupSet groups i = entrySet ws := by
  ext e
  constructor
  · rintro ⟨ws', h', he⟩
    obtain rfl := Option.some.inj (h.symm.trans h')
    exact he
  · exact fun he => ⟨ws, h, he⟩

theorem union_groupSet (groups : List (List Write)) : union groups.length (groupSet groups) = entrySet groups.flatten := by
  ext e
  constructor
  · rintro ⟨i, -, ws, hws, w, hw, rfl⟩
    exact ⟨w, List.mem_flatten.mpr ⟨ws, List.mem_of_getElem? hws, hw⟩, rfl⟩
  · rintro ⟨w, hw, rfl⟩
    obtain ⟨g, hg, hw⟩ := List.mem_flatten.mp hw
    obtain ⟨i, hi⟩ := List.mem_iff_getElem?.mp hg
    exact ⟨i, (List.getElem?_eq_some_iff.mp hi).1, g, hi, w, hw, rfl⟩

/-- Writes that leave the same entry have the same key and the same sequence number. -/
theorem same_entry {w w' : Write} (hw : w.Valid p) (hw' : w'.Valid p)
    (h : (w.internalKey, w.value) = (w'.internalKey, w'.value)) : w.key = w'.key ∧ w.sequence = w'.sequence := by
  have hsame := congrArg keyOf h
  rw [keyOf_entry hw.sequence, keyOf_entry hw'.sequence] at hsame
  exact ⟨congrArg ParsedInternalKey.userKey hsame, congrArg ParsedInternalKey.sequence hsame⟩

theorem groups_disjoint (ho : Orders p userCompare) (hvalid : ∀ w ∈ groups.flatten, w.Valid p)
    (hapart : groups.flatten.Pairwise (Apart userCompare)) {i j : Nat} (hij : i ≠ j) {e : List Byte × List Byte}
    (hi : e ∈ groupSet groups i) : e ∉ groupSet groups j := by
  rintro ⟨wsj, hj, w', hw', heq⟩
  obtain ⟨wsi, hi, w, hw, rfl⟩ := hi
  have hin : ∀ {k : Nat} {ws : List Write} {x : Write}, groups[k]? = some ws → x ∈ ws → x.Valid p :=
    fun hk hx => hvalid _ (List.mem_flatten.mpr ⟨_, List.mem_of_getElem? hk, hx⟩)
  obtain ⟨hkey, hseq⟩ := same_entry (hin hi hw) (hin hj hw') heq
  obtain ⟨-, hcross⟩ := List.pairwise_flatten.mp hapart
  have hself := ho.self (hin hi hw).holds
  obtain hlt | hlt := Nat.lt_or_gt_of_ne hij
  · exact lt_of_sorted hcross hi hj hlt w hw w' hw' (hkey ▸ hself) hseq
  · exact lt_of_sorted hcross hj hi hlt w' hw' w hw (hkey ▸ hself) hseq.symm

theorem valid_of_shows {σ : Type} {c : Cursor Fault σ (List Byte) (List Byte × List Byte)} {children : List σ}
    (h : List.Forall₂ (Shows p userCompare c) children groups) : ∀ w ∈ groups.flatten, w.Valid p := by
  intro w hw
  obtain ⟨g, hg, hw⟩ := List.mem_flatten.mp hw
  obtain ⟨i, hi, rfl⟩ := List.mem_iff_getElem.mp hg
  exact (h.get (h.length_eq ▸ hi) hi).1 w hw

theorem merges_of_shows (ho : Orders p userCompare) {σ : Type} {c : Cursor Fault σ (List Byte) (List Byte × List Byte)}
    {children : List σ} (h : List.Forall₂ (Shows p userCompare c) children groups)
    (hapart : groups.flatten.Pairwise (Apart userCompare)) :
    ∃ At : Nat → σ → Option (List Byte × List Byte) → Prop, Placed At (fun _ o => o = none) children ∧
      Merges (internalCompare userCompare) c (fun k => p (userKeyOf k)) (Target p) groups.length (groupSet groups)
        At := by
  have hlen := h.length_eq
  have hshows : ∀ i (hi : i < groups.length), Shows p userCompare c (children.get ⟨i, hlen ▸ hi⟩) groups[i] :=
    fun i hi => h.get (hlen ▸ hi) hi
  have hvalid := valid_of_shows h
  have hat : ∀ i, ∃ At : σ → Option (List Byte × List Byte) → Prop, (∀ s, children[i]? = some s → At s none) ∧
      (i < groups.length → KeyWalks c (internalCompare userCompare) (Target p) (groupSet groups i) At) := by
    intro i
    by_cases hi : i < groups.length
    · obtain ⟨-, At, hnone, hwalks⟩ := hshows i hi
      refine ⟨At, fun s hs => ?_, fun _ => groupSet_eq (List.getElem?_eq_getElem hi) ▸ hwalks⟩
      rw [List.getElem?_eq_getElem (hlen ▸ hi)] at hs
      exact Option.some.inj hs ▸ hnone
    · refine ⟨fun _ _ => True, fun _ _ => trivial, fun hi' => absurd hi' hi⟩
  choose At hnone hwalks using hat
  refine ⟨At, fun i s hs => ⟨none, hnone i s hs, rfl⟩, hwalks, internalCompare_orders ho, fun k hk => hk.2, ?_, ?_, ?_⟩
  · rw [union_groupSet]
    rintro _ ⟨w, hw, rfl⟩
    exact ⟨by rw [Write.internalKey, internalKeyOf_length]; exact (hvalid w hw).key,
      by rw [Write.internalKey, userKeyOf_internalKeyOf]; exact (hvalid w hw).holds⟩
  · rw [union_groupSet]
    exact entrySet_apart ho hvalid hapart
  · exact fun i _ j _ hij a ha => groups_disjoint ho hvalid hapart hij ha

theorem reads_of_shows (ho : Orders p userCompare) {σ : Type} {c : Cursor Fault σ (List Byte) (List Byte × List Byte)}
    {children : List σ} (h : List.Forall₂ (Shows p userCompare c) children groups)
    (hapart : groups.flatten.Pairwise (Apart userCompare)) :
    ∃ At : Merged σ → Option (List Byte × List Byte) → Prop, At (newMergingIterator children) none ∧
      Reads p (Target p) userCompare (mergedIterator (internalCompare userCompare) c) (entrySet groups.flatten) At := by
  have hvalid := valid_of_shows h
  obtain ⟨At, hplaced, hmerges⟩ := merges_of_shows ho h hapart
  obtain ⟨MergedAt, hat, hwalks⟩ := hmerges.new_walks h.length_eq hplaced
  rw [union_groupSet] at hwalks
  refine ⟨MergedAt, hat, hwalks, ho, ?_, entrySet_apart ho hvalid hapart, entrySet_finite _⟩
  rintro _ ⟨w, hw, rfl⟩
  exact ⟨⟨w.key, w.sequence, w.type⟩, rfl, (hvalid w hw).sequence, (hvalid w hw).holds⟩

end Children

section Iterators

variable {filesIterator : Cursor Fault τ (List Byte) (List Byte × List Byte)}

/-- An iterator over a snapshot goes where calls go in what the snapshot holds of all writes, wherever they are:
in the memtable, in the one that is being written to a file, or in files. -/
theorem iterator_shows_live (ho : Orders p userCompare) {mem : MemTable} {memWrites : List Write}
    (hmem : Holds p userCompare mem memWrites) {imm : Option MemTable} {immWrites : List (List Write)}
    (himm : List.Forall₂ (Holds p userCompare) imm.toList immWrites) {files : List τ} {fileWrites : List (List Write)}
    (hfiles : List.Forall₂ (Shows p userCompare filesIterator) files fileWrites)
    (hws : ws = (memWrites :: (immWrites ++ fileWrites)).flatten) (hapart : ws.Pairwise (Apart userCompare))
    (hs : sequence ≤ maxSequenceNumber) {fuel : Nat} (hfuel : ws.length ≤ fuel) {ops : List (Call (List Byte))}
    {o : Option (List Byte × List Byte)}
    (hmoves : Moves (fun a b => userCompare a.1 b.1 < 0) (fun a k => userCompare a.1 k < 0)
      (fun k => p k ∧ k.length + 8 < 4294967296) (live userCompare ws sequence) none ops o) :
    ∃ d, (snapshotIterator userCompare filesIterator sequence fuel).calls ops (newIterator mem imm files) = .ok d ∧
      (snapshotIterator userCompare filesIterator sequence fuel).valid d = o.isSome ∧
      ∀ kv, o = some kv → (snapshotIterator userCompare filesIterator sequence fuel).entry d = .ok kv := by
  subst hws
  have hshows : List.Forall₂ (Shows p userCompare (childIterator userCompare filesIterator)) (childrenOf mem imm files)
      (memWrites :: (immWrites ++ fileWrites)) := by
    refine .cons (memTable_shows ho hmem) (List.rel_append ?_ ?_)
    · exact List.forall₂_map_left_iff.mpr (himm.imp fun _ _ h => memTable_shows ho h)
    · exact List.forall₂_map_left_iff.mpr (hfiles.imp fun _ _ h => files_shows h)
  have hvalid := valid_of_shows hshows
  obtain ⟨At, hat, hreads⟩ := reads_of_shows ho hshows hapart
  have hwalks := hreads.snapshot_walks ((entrySet_ncard _).trans hfuel) hs
  have hin := hreads.snapshot_inOrder sequence
  rw [snapshot_entrySet ho hvalid hapart] at hwalks hin
  have htarget : ∀ k, p k ∧ k.length + 8 < 4294967296 → p k ∧ Target p (internalKeyOf k (sequence * 256 + 1)) := by
    intro k hk
    refine ⟨hk.1, ?_, by rw [userKeyOf_internalKeyOf]; exact hk.1⟩
    rw [internalKeyOf_length]
    exact hk.2
  have hnew : DbAt userCompare sequence (entrySet (memWrites :: (immWrites ++ fileWrites)).flatten) At
      (newIterator mem imm files) none := ⟨rfl, ⟨none, hat⟩, fun kv hkv => by cases hkv⟩
  obtain ⟨d, hcalls, hat'⟩ := (hwalks.fewer htarget).calls hin hnew hmoves
  refine ⟨d, hcalls, hwalks.valid hat', ?_⟩
  rintro kv rfl
  exact hwalks.entry hat'

def filedWrites : List Write := [⟨1, .value, [5], [1]⟩]

def olderWrites : List Write := [⟨2, .value, [6], [2]⟩]

def newerWrites : List Write := [⟨3, .value, [5], [3]⟩, ⟨4, .deletion, [6], []⟩]

def allWrites : List Write := newerWrites ++ (olderWrites ++ filedWrites)

theorem mem_writes {w : Write} : w ∈ allWrites ↔ w = ⟨3, .value, [5], [3]⟩ ∨ w = ⟨4, .deletion, [6], []⟩ ∨
    w = ⟨2, .value, [6], [2]⟩ ∨ w = ⟨1, .value, [5], [1]⟩ := by
  simp only [allWrites, newerWrites, olderWrites, filedWrites, List.cons_append, List.nil_append, List.mem_cons,
    List.not_mem_nil, or_false]

theorem writes_valid {w : Write} (hw : w ∈ allWrites) : w.Valid fun _ => True := by
  obtain rfl | rfl | rfl | rfl := mem_writes.mp hw <;> exact ⟨by decide, by decide, by decide, trivial⟩

theorem live_writes (kv : List Byte × List Byte) :
    kv ∈ live KeySeparators.sliceCompare allWrites 3 ↔ kv = ([5], [3]) ∨ kv = ([6], [2]) := by
  constructor
  · rintro ⟨w, ⟨⟨hw, -, hle⟩, hnew⟩, -, rfl⟩
    obtain rfl | rfl | rfl | rfl := mem_writes.mp hw
    · exact .inl rfl
    · exact absurd hle (by decide)
    · exact .inr rfl
    · exact absurd (hnew ⟨3, .value, [5], [3]⟩ (by decide) (by decide)) (by decide)
  · rintro (rfl | rfl)
    · refine ⟨⟨3, .value, [5], [3]⟩, ⟨by decide, ?_⟩, rfl, rfl⟩
      rintro w ⟨hw, hzero, hle⟩ hne
      obtain rfl | rfl | rfl | rfl := mem_writes.mp hw
      · exact absurd rfl hne
      · exact absurd hle (by decide)
      · exact absurd hzero (by decide)
      · decide
    · refine ⟨⟨2, .value, [6], [2]⟩, ⟨by decide, ?_⟩, rfl, rfl⟩
      rintro w ⟨hw, hzero, hle⟩ hne
      obtain rfl | rfl | rfl | rfl := mem_writes.mp hw
      · exact absurd hzero (by decide)
      · exact absurd hle (by decide)
      · exact absurd rfl hne
      · exact absurd hzero (by decide)

/-- The snapshot from its end backward, with the writes in two memtables and a file. -/
theorem iterator_shows_live_backward :
    ∃ mem imm, adds KeySeparators.sliceCompare newMemTable newerWrites = .ok mem ∧
      adds KeySeparators.sliceCompare newMemTable olderWrites = .ok imm ∧
      ∀ c, c = snapshotIterator KeySeparators.sliceCompare (listCursor .assertFailed fun e k =>
          decide (internalCompare KeySeparators.sliceCompare e.1 k < 0)) 3 4 →
        ∃ d, c.calls [.seekToLast, .prev]
            (newIterator mem (some imm) [(filedWrites.map fun w => (w.internalKey, w.value), 1)]) = .ok d ∧
          c.valid d = true ∧ c.entry d = .ok ([5], [3]) := by
  have ho := KeySeparators.sliceCompare_orders
  obtain ⟨mem, hmem, hholds⟩ := adds_spec ho newMemTable_holds
    (fun w (hw : w ∈ newerWrites) => writes_valid (List.mem_append_left _ hw)) (by unfold Apart; decide)
  obtain ⟨imm, himm, hholds'⟩ := adds_spec ho newMemTable_holds
    (fun w (hw : w ∈ olderWrites) => writes_valid (List.mem_append_right _ (List.mem_append_left _ hw)))
    (by unfold Apart; decide)
  have hfiled : ∀ w ∈ filedWrites, w.Valid fun _ => True :=
    fun w hw => writes_valid (List.mem_append_right _ (List.mem_append_right _ hw))
  have hlast : Last (fun a b => KeySeparators.sliceCompare a.1 b.1 < 0) (live KeySeparators.sliceCompare allWrites 3)
      (some ([6], [2])) := by
    refine ⟨(live_writes _).mpr (.inr rfl), fun b hb hne => ?_⟩
    obtain rfl := ((live_writes b).mp hb).resolve_right hne
    decide
  have hprev : Last (fun a b => KeySeparators.sliceCompare a.1 b.1 < 0)
      { b ∈ live KeySeparators.sliceCompare allWrites 3 | KeySeparators.sliceCompare b.1 [6] < 0 }
      (some ([5], [3])) := by
    refine ⟨⟨(live_writes _).mpr (.inl rfl), by decide⟩, fun b hb hne => ?_⟩
    obtain rfl := ((live_writes b).mp hb.1).resolve_left hne
    exact absurd hb.2 (by decide)
  have himm' : List.Forall₂ (Holds (fun _ => True) KeySeparators.sliceCompare) (some imm).toList [olderWrites] :=
    .cons hholds' .nil
  have hfiles := List.Forall₂.cons (list_shows ho hfiled (List.pairwise_singleton ..)) .nil
  have hapart : allWrites.Pairwise (Apart KeySeparators.sliceCompare) := by
    unfold Apart
    decide
  have hfuel : allWrites.length ≤ 4 := by decide
  obtain ⟨d, hcalls, hvalid, hentry⟩ := iterator_shows_live ho hholds himm' hfiles rfl hapart (by decide) hfuel
    (.cons (.seekToLast hlast) (.cons (.prev hprev) (.nil _)))
  refine ⟨mem, imm, hmem, himm, ?_⟩
  rintro _ rfl
  exact ⟨d, hcalls, hvalid, hentry _ rfl⟩

end Iterators

end RecordStore.Snapshots
