import RecordStore.Recovery

namespace RecordStore.DbReads

open RecordStore.CFile RecordStore.Outcome RecordStore.ThreeWay RecordStore.DbFormat RecordStore.MemTables
open RecordStore.WriteBatches RecordStore.WriteQueue RecordStore.Recovery

section Steps

/-- What is not found in one place is looked for in the next one. -/
def orNext (result : GetResult) (next : Except Fault GetResult) : Except Fault GetResult :=
  match result with
  | .missing => next
  | result => .ok result

/-- `DBImpl::Get`. `current` says what is in the files. -/
def dbGet (userCompare : List Byte → List Byte → Int) (current : LookupKey → Except Fault GetResult) (db : Db)
    (key : List Byte) (snapshot : Option Nat) : Except Fault GetResult := do
  let lkey ← LookupKey.new key (snapshot.getD db.lastSequence)
  let result ← MemTables.get userCompare db.current.mem lkey
  orNext result (match db.imm with
    | some g => MemTables.get userCompare g.mem lkey >>= fun result => orNext result (current lkey)
    | none => current lkey)

end Steps

variable {p : List Byte → Prop} {userCompare : List Byte → List Byte → Int}

section Writes

variable {ws ws' : List Write} {key : List Byte} {snapshot : Nat}

theorem orNext_some (w : Write) (next : Except Fault GetResult) :
    orNext (resultOf (some w)) next = .ok (resultOf (some w)) := by
  cases htype : w.type <;> simp only [resultOf, htype, orNext]

theorem stamped_apart (seq : Nat) (us : List Update) : (stamped seq us).Pairwise (Apart userCompare) := by
  induction us generalizing seq with
  | nil => exact .nil
  | cons u us ih =>
    refine .cons (fun w hw _ heq => ?_) (ih (seq + 1))
    obtain ⟨u', -, n, hle, -, rfl⟩ := mem_stamped hw
    rw [write_sequence, write_sequence] at heq
    omega

theorem newest_skip {o : Option Write} (hnone : Newest userCompare ws' key snapshot none)
    (h : Newest userCompare ws key snapshot o) : Newest userCompare (ws ++ ws') key snapshot o := by
  have hsame : { w | w ∈ ws ++ ws' ∧ userCompare w.key key = 0 ∧ w.sequence ≤ snapshot } =
      { w | w ∈ ws ∧ userCompare w.key key = 0 ∧ w.sequence ≤ snapshot } := by
    ext w
    refine ⟨fun ⟨hw, hseen⟩ => ?_, fun ⟨hw, hseen⟩ => ⟨List.mem_append_left _ hw, hseen⟩⟩
    obtain hw | hw := List.mem_append.mp hw
    · exact ⟨hw, hseen⟩
    · exact absurd (show w ∈ (∅ : Set Write) from hnone ▸ ⟨hw, hseen⟩) (Set.notMem_empty w)
  rw [Newest, hsame]
  exact h

theorem newest_append {w : Write} (h : Newest userCompare ws' key snapshot (some w))
    (holder : ∀ a ∈ ws, a.sequence < w.sequence) : Newest userCompare (ws ++ ws') key snapshot (some w) := by
  obtain ⟨⟨hw, hseen⟩, hfirst⟩ := h
  refine ⟨⟨List.mem_append_right _ hw, hseen⟩, fun a ⟨ha, haseen⟩ hne => ?_⟩
  obtain ha | ha := List.mem_append.mp ha
  · exact holder a ha
  · exact hfirst a ⟨ha, haseen⟩ hne

theorem newest_stamped {w : Write} {first : Nat} {us us' : List Update}
    (h : Newest userCompare (stamped (first + us.length) us') key snapshot (some w)) :
    Newest userCompare (stamped first (us ++ us')) key snapshot (some w) := by
  rw [stamped_append]
  refine newest_append h fun a ha => ?_
  obtain ⟨u, -, k, -, hlt, rfl⟩ := mem_stamped ha
  obtain ⟨u', -, k', hle, -, rfl⟩ := mem_stamped h.1.1
  rw [write_sequence, write_sequence]
  omega

theorem newest_stamped_skip {o : Option Write} {first : Nat} {us us' : List Update}
    (hnone : Newest userCompare (stamped (first + us.length) us') key snapshot none)
    (h : Newest userCompare (stamped first us) key snapshot o) :
    Newest userCompare (stamped first (us ++ us')) key snapshot o := by
  rw [stamped_append]
  exact newest_skip hnone h

end Writes

section Runs

variable {asked : List (WriteQueue.Writer × List Update)} {db : Db} {old mid new pending : List Update}

theorem dbGet_spec (ho : Orders p userCompare) (d : Stored p userCompare asked db old mid new pending) {key : List Byte}
    (hkey : p key) (hlen : key.length + 8 < 4294967296) {snapshot : Option Nat}
    (hs : snapshot.getD db.lastSequence ≤ maxSequenceNumber) (current : LookupKey → Except Fault GetResult) :
    ∃ lkey o, LookupKey.new key (snapshot.getD db.lastSequence) = .ok lkey ∧
      Newest userCompare (stamped (old.length + 1) (mid ++ new)) key (snapshot.getD db.lastSequence) o ∧
      dbGet userCompare current db key snapshot = match o with
        | some w => .ok (resultOf (some w))
        | none => current lkey := by
  have hfirst : (old ++ mid).length + 1 = old.length + 1 + mid.length := by
    rw [List.length_append]
    omega
  obtain ⟨lkey, o, hlkey, hnewest, hget⟩ := get_spec ho d.mem (stamped_apart ..) hkey hlen hs
  rw [hfirst] at hnewest
  cases o with
  | some w =>
    refine ⟨lkey, some w, hlkey, newest_stamped hnewest, ?_⟩
    rw [dbGet, hlkey, ok_bind, hget, ok_bind, orNext_some]
  | none =>
    have himm := d.imm
    cases hi : db.imm with
    | none =>
      rw [hi] at himm
      subst himm
      refine ⟨lkey, none, hlkey, hnewest, ?_⟩
      rw [dbGet, hlkey, ok_bind, hget, ok_bind, hi]
      rfl
    | some g =>
      rw [hi] at himm
      obtain ⟨lkey', o, hlkey', hnewest', hget'⟩ := get_spec ho himm.2 (stamped_apart ..) hkey hlen hs
      obtain rfl := Except.ok.inj (hlkey.symm.trans hlkey')
      refine ⟨lkey, o, hlkey, newest_stamped_skip hnewest hnewest', ?_⟩
      rw [dbGet, hlkey, ok_bind, hget, ok_bind, hi]
      simp only [hget', ok_bind]
      cases o with
      | none => rfl
      | some w => exact orNext_some w _

/-- Whatever has been written, logged and filed until then, a lookup finds the newest write of its key that its snapshot
sees, unless no memtable has one and the files are asked. -/
theorem lookups_find_newest (ho : Orders p userCompare) (h : Reachable p userCompare asked db) {key : List Byte}
    (hkey : p key) (hlen : key.length + 8 < 4294967296) {snapshot : Option Nat}
    (hs : ∀ s ∈ snapshot, s ≤ maxSequenceNumber) (current : LookupKey → Except Fault GetResult) :
    ∃ lkey filed ws o, LookupKey.new key (snapshot.getD db.lastSequence) = .ok lkey ∧
      (∃ older, List.Forall₂ (Holds p userCompare) db.files older ∧ older.flatten = filed) ∧
      stamped 1 ((updatesOf asked).take (insertedTo db)) = filed ++ ws ∧
      (∀ w, o = some w → Newest userCompare (filed ++ ws) key (snapshot.getD db.lastSequence) o) ∧
      (o = none → Newest userCompare ws key (snapshot.getD db.lastSequence) none) ∧
      dbGet userCompare current db key snapshot = match o with
        | some w => .ok (resultOf (some w))
        | none => current lkey := by
  obtain ⟨n, old, mid, new, pending, hinv, d⟩ := reachable_stored ho h
  have hroom := hinv.room
  have hall : (updatesOf asked).take (insertedTo db) = old ++ (mid ++ new) := by
    rw [← d.inserted, ← List.prefix_iff_eq_take.mp ((List.prefix_append ..).trans d.isPrefix), List.append_assoc]
  have hbound : snapshot.getD db.lastSequence ≤ maxSequenceNumber := by
    cases snapshot with
    | some s => exact hs s rfl
    | none =>
      have hle := updatesOf_take_le asked n
      rw [← hinv.lastSequence] at hle
      exact hle.trans hroom
  obtain ⟨lkey, o, hlkey, hnewest, hget⟩ := dbGet_spec ho d hkey hlen hbound current
  refine ⟨lkey, stamped 1 old, stamped (old.length + 1) (mid ++ new), o, hlkey, d.files, ?_, ?_, ?_, hget⟩
  · rw [hall, stamped_append, Nat.add_comm 1]
  · rintro w rfl
    rw [Nat.add_comm, ← stamped_append]
    rw [Nat.add_comm] at hnewest
    exact newest_stamped hnewest
  · rintro rfl
    exact hnewest

theorem newest_two {snapshot : Nat} {o : Option Write}
    (h : Newest KeySeparators.sliceCompare (stamped 1 [.put [5] [1], .delete [5]]) [5] snapshot o) :
    resultOf o = if snapshot = 0 then .missing else if snapshot = 1 then .found [1] else .deleted := by
  have hput : (⟨1, .value, [5], [1]⟩ : Write) ∈ stamped 1 [.put [5] [1], .delete [5]] := List.mem_cons_self ..
  have hdelete : (⟨2, .deletion, [5], []⟩ : Write) ∈ stamped 1 [.put [5] [1], .delete [5]] :=
    List.mem_cons_of_mem _ (List.mem_cons_self ..)
  cases o with
  | none =>
    have hzero : snapshot = 0 := by
      by_contra hne
      have hseen : (⟨1, .value, [5], [1]⟩ : Write) ∈ (∅ : Set Write) :=
        Eq.mp (congrArg (_ ∈ ·) h) ⟨hput, by decide, Nat.pos_of_ne_zero hne⟩
      exact Set.notMem_empty _ hseen
    rw [if_pos hzero]
    rfl
  | some w =>
    obtain ⟨⟨hw, -, hle⟩, hfirst⟩ := h
    obtain rfl | hw := List.mem_cons.mp hw
    · -- the put is the newest one as long as the deletion is not seen
      have hone : snapshot = 1 := by
        by_contra hne
        have hlater := hfirst _ ⟨hdelete, by decide, show 2 ≤ snapshot by change 1 ≤ snapshot at hle; omega⟩ (by decide)
        exact absurd hlater (by decide)
      rw [hone]
      rfl
    · obtain rfl := List.mem_singleton.mp hw
      change 2 ≤ snapshot at hle
      rw [if_neg (by omega), if_neg (by omega)]
      rfl

/-- A key is put and deleted. The first number sees the value and the last one the deletion; with number 0 the files are
asked. -/
theorem lookups_find_newest_logged :
    ∃ db, Reachable (fun _ => True) KeySeparators.sliceCompare twoAsked db ∧ ∀ current,
      dbGet KeySeparators.sliceCompare current db [5] (some 1) = .ok (.found [1]) ∧
      dbGet KeySeparators.sliceCompare current db [5] none = .ok .deleted ∧
      ∃ lkey, LookupKey.new [5] 0 = .ok lkey ∧ dbGet KeySeparators.sliceCompare current db [5] (some 0) = current lkey := by
  have ho := KeySeparators.sliceCompare_orders
  have hlen : ([5] : List Byte).length + 8 < 4294967296 := by decide
  obtain ⟨db, hdb, hidle, hwriters, himm, hfiles, -⟩ := two_inserted
  obtain ⟨n, hinv⟩ := hdb.inv ho
  have hqueue := hinv.writers
  rw [hwriters] at hqueue
  obtain rfl : n = 2 := Nat.le_antisymm hinv.le (List.drop_eq_nil_iff.mp (List.map_eq_nil_iff.mp hqueue.symm))
  have hlast : db.lastSequence = 2 := hinv.lastSequence
  have hget : ∀ current (snapshot : Option Nat), (∀ s ∈ snapshot, s ≤ maxSequenceNumber) →
      ∃ lkey o, LookupKey.new [5] (snapshot.getD 2) = .ok lkey ∧
        resultOf o = (if snapshot.getD 2 = 0 then .missing else if snapshot.getD 2 = 1 then .found [1] else .deleted) ∧
        (∀ w, o = some w → dbGet KeySeparators.sliceCompare current db [5] snapshot = .ok (resultOf o)) ∧
        (o = none → dbGet KeySeparators.sliceCompare current db [5] snapshot = current lkey) := by
    intro current snapshot hs
    obtain ⟨lkey, filed, ws, o, hlkey, ⟨older, holder, rfl⟩, hws, hsome, hnone, hget⟩ :=
      lookups_find_newest ho hdb trivial hlen hs current
    rw [hfiles, List.forall₂_nil_left_iff] at holder
    subst holder
    rw [insertedTo, hidle, hlast] at hws
    rw [hlast] at hlkey hsome hnone
    refine ⟨lkey, o, hlkey, newest_two ?_, fun w h => by subst h; exact hget, fun h => by subst h; exact hget⟩
    cases o with
    | none => exact hws ▸ hnone rfl
    | some w => exact hws ▸ hsome w rfl
  refine ⟨db, hdb, fun current => ⟨?_, ?_, ?_⟩⟩
  · obtain ⟨lkey, o, -, hresult, hget, -⟩ := hget current (some 1) (by simp [maxSequenceNumber])
    cases o with
    | none => cases hresult
    | some w => exact (hget w rfl).trans (congrArg Except.ok hresult)
  · obtain ⟨lkey, o, -, hresult, hget, -⟩ := hget current none (by simp)
    cases o with
    | none => cases hresult
    | some w => exact (hget w rfl).trans (congrArg Except.ok hresult)
  · obtain ⟨lkey, o, hlkey, hresult, -, hget⟩ := hget current (some 0) (by simp)
    cases o with
    | none => exact ⟨lkey, hlkey, hget rfl⟩
    | some w =>
      rw [resultOf] at hresult
      split at hresult <;> cases hresult

end Runs

end RecordStore.DbReads
