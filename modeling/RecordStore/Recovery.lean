import RecordStore.LogSoundness
import RecordStore.WriteQueue

namespace RecordStore.Recovery

open RecordStore.CFile RecordStore.Outcome RecordStore.ThreeWay RecordStore.DbFormat RecordStore.MemTables
open RecordStore.LogFormat RecordStore.WriteBatches RecordStore.WriteQueue

/-- What has been read of the logs: the memtables that have become files, the one that is being filled and the largest
sequence number. -/
structure Recovered where
  files : List MemTable
  mem : Option MemTable
  maxSequence : Nat

section Steps

def Recovered.insert (s : Recovered) (full : MemTable → Bool) (mem : MemTable) (lastSeq : Nat) : Recovered :=
  if full mem then ⟨s.files ++ [mem], none, max s.maxSequence lastSeq⟩
  else ⟨s.files, some mem, max s.maxSequence lastSeq⟩

/-- A round of the loop of `RecoverLogFile`, where errors are ignored. -/
def recoverRecord (userCompare : List Byte → List Byte → Int) (full : MemTable → Bool) (s : Recovered)
    (record : List Byte) : Except Fault Recovered :=
  if record.length < 12 then .ok s
  else do
    let (_, mem) ← insertInto userCompare record (s.mem.getD newMemTable)
    .ok (s.insert full mem (((sequenceOf record : Int) + count record - 1) % 18446744073709551616).toNat)

/-- The last memtable becomes a file, too. -/
def recoverLogFile (userCompare : List Byte → List Byte → Int) (full : MemTable → Bool) (s : Recovered)
    (file : List Byte) : Except Fault Recovered := do
  let (records, _) ← readRecords (file.length + 1) (Reader.new file true 0)
  let s ← records.foldlM (recoverRecord userCompare full) { s with mem := none }
  .ok ⟨s.files ++ s.mem.toList, none, s.maxSequence⟩

/-- The part of `DBImpl::Recover` that reads the logs: the files that there are then, and the last sequence number. -/
def recover (userCompare : List Byte → List Byte → Int) (full : MemTable → Bool) (manifest : Nat) (files : List MemTable)
    (logs : List (List Byte)) : Except Fault (List MemTable × Nat) := do
  let s ← logs.foldlM (recoverLogFile userCompare full) ⟨files, none, 0⟩
  let last ← if manifest < s.maxSequence then setLastSequence manifest s.maxSequence else .ok manifest
  .ok (s.files, last)

/-- The logs of the memtables that are not in files, the older one first. Of the last one some bytes are there. -/
def logsOf (db : Db) (m : Nat) : List (List Byte) :=
  db.imm.toList.map (fun g => g.log.dest) ++ [db.current.log.dest.take m]

end Steps

section Logs

variable {ends ends' : Nat → Prop}

/-- Batches one behind the other, the first one with this sequence number. Behind each the next number is one of `ends`. -/
inductive Batches (ends : Nat → Prop) : Nat → List (List Byte) → List Update → Prop where
  | nil (first : Nat) : Batches ends first [] []
  | cons {first : Nat} {batch : List Byte} {us : List Update} (h : Represents batch first us)
      (hend : ends (first + us.length)) {batches : List (List Byte)} {us' : List Update}
      (hrest : Batches ends (first + us.length) batches us') : Batches ends first (batch :: batches) (us ++ us')

theorem Batches.mono {first : Nat} {batches : List (List Byte)} {us : List Update} (h : Batches ends first batches us)
    (hle : ∀ seq, ends seq → ends' seq) : Batches ends' first batches us := by
  induction h with
  | nil first => exact .nil first
  | cons hbatch hend _ ih => exact .cons hbatch (hle _ hend) ih

theorem Batches.concat {first : Nat} {batches : List (List Byte)} {us : List Update} (h : Batches ends first batches us)
    {batch : List Byte} {us' : List Update} (h' : Represents batch (first + us.length) us')
    (hend' : ends (first + us.length + us'.length)) : Batches ends first (batches ++ [batch]) (us ++ us') := by
  induction h with
  | nil first =>
    rw [List.length_nil] at h' hend'
    exact (List.append_nil us') ▸ .cons h' hend' (.nil _)
  | cons hbatch hend _ ih =>
    rw [List.append_assoc]
    rw [List.length_append, ← Nat.add_assoc] at h' hend'
    exact .cons hbatch hend (ih h' hend')

theorem Batches.closed {first : Nat} {batches : List (List Byte)} {us : List Update} (h : Batches ends first batches us)
    (hfirst : ends first) : ends (first + us.length) := by
  induction h with
  | nil first => exact hfirst
  | cons _ hend _ ih =>
    rw [List.length_append, ← Nat.add_assoc]
    exact ih hend

theorem Batches.take {first : Nat} {batches : List (List Byte)} {us : List Update} (h : Batches ends first batches us)
    (k : Nat) : ∃ us', Batches ends first (batches.take k) us' ∧ us' <+: us := by
  induction h generalizing k with
  | nil first => exact ⟨[], by rw [List.take_nil]; exact .nil first, List.prefix_rfl⟩
  | cons hbatch hend _ ih =>
    cases k with
    | zero => exact ⟨[], .nil _, List.nil_prefix⟩
    | succ k =>
      obtain ⟨us', hbatches, hfront⟩ := ih k
      exact ⟨_, .cons hbatch hend hbatches, (List.prefix_append_right_inj _).mpr hfront⟩

def Logged (ends : Nat → Prop) (log : LogFormat.Writer) (first : Nat) (us : List Update) : Prop :=
  ∃ batches, addRecords LogFormat.Writer.new batches = .ok log ∧ Batches ends first batches us

theorem Logged.mono {log : LogFormat.Writer} {first : Nat} {us : List Update} (h : Logged ends log first us)
    (hle : ∀ seq, ends seq → ends' seq) : Logged ends' log first us := by
  obtain ⟨batches, hlog, hbatches⟩ := h
  exact ⟨batches, hlog, hbatches.mono hle⟩

theorem Logged.closed {log : LogFormat.Writer} {first : Nat} {us : List Update} (h : Logged ends log first us)
    (hfirst : ends first) : ends (first + us.length) := by
  obtain ⟨_, -, hbatches⟩ := h
  exact hbatches.closed hfirst

theorem addRecords_concat {batches : List (List Byte)} {batch : List Byte} {w w₁ w₂ : LogFormat.Writer}
    (h : addRecords w batches = .ok w₁) (h' : addRecord w₁ batch = .ok w₂) : addRecords w (batches ++ [batch]) = .ok w₂ := by
  induction batches generalizing w with
  | nil =>
    cases h
    rw [List.nil_append, addRecords, h', ok_bind, addRecords]
  | cons b batches ih =>
    rw [addRecords] at h
    obtain ⟨w', hw', hrest⟩ := bind_eq_ok.mp h
    rw [List.cons_append, addRecords, hw', ok_bind, ih hrest]

theorem Logged.add {log log' : LogFormat.Writer} {first : Nat} {us us' : List Update} (h : Logged ends log first us)
    {batch : List Byte} (hbatch : Represents batch (first + us.length) us') (hend : ends (first + us.length + us'.length))
    (hadd : addRecord log batch = .ok log') : Logged ends log' first (us ++ us') := by
  obtain ⟨batches, hlog, hbatches⟩ := h
  exact ⟨batches ++ [batch], addRecords_concat hlog hadd, hbatches.concat hbatch hend⟩

theorem readRecords_more {fuel : Nat} {r : Reader} {out : List (List Byte) × Reader} (h : readRecords fuel r = .ok out)
    (more : Nat) : readRecords (fuel + more) r = .ok out := by
  induction fuel generalizing r out with
  | zero => cases h
  | succ fuel ih =>
    rw [Nat.succ_add, readRecords]
    rw [readRecords] at h
    obtain ⟨⟨record, r'⟩, hread, h⟩ := bind_eq_ok.mp h
    rw [hread, ok_bind]
    cases record with
    | none => exact h
    | some record =>
      obtain ⟨⟨records, r''⟩, hrest, h⟩ := bind_eq_ok.mp h
      simp only [ih hrest, ok_bind]
      exact h

theorem readLog_spec {batches : List (List Byte)} {log : LogFormat.Writer}
    (h : addRecords LogFormat.Writer.new batches = .ok log) (m : Nat) :
    ∃ k r, readRecords ((log.dest.take m).length + 1) (Reader.new (log.dest.take m) true 0) = .ok (batches.take k, r) ∧
      (log.dest.length ≤ m → batches.take k = batches) := by
  obtain ⟨k, r, hread, -, hk⟩ := LogReading.readRecords_spec (Nat.zero_le _) h
    (show log.dest = LogFormat.Writer.new.dest ++ log.dest from rfl) (.inr ⟨rfl, rfl⟩)
    (LogReading.At.new (log.dest.take m) true)
  obtain ⟨fss, r', hread', -, -⟩ := LogSoundness.readRecords_spec ((log.dest.take m).length + 1)
    (r := Reader.new (log.dest.take m) true 0) rfl (Nat.lt_succ_self _)
  have hsame := readRecords_more hread ((log.dest.take m).length + 1)
  have hsame' := readRecords_more hread' (batches.length + 1)
  rw [Nat.add_comm] at hsame'
  obtain ⟨hrecords, -⟩ := Prod.mk.inj (Except.ok.inj (hsame'.symm.trans hsame))
  refine ⟨k, r', hrecords ▸ hread', fun hle => ?_⟩
  refine List.take_of_length_le ((hk batches.length le_rfl log (by rw [List.take_length]; exact h)).mpr ?_)
  exact hle.trans (Nat.le_add_left ..)

end Logs

section Records

variable {p : List Byte → Prop} {userCompare : List Byte → List Byte → Int} {ends : Nat → Prop} {manifest : Nat}
variable {s : Recovered} {us more : List Update}

/-- These updates are in the files and in the memtable. -/
structure Kept (p : List Byte → Prop) (userCompare : List Byte → List Byte → Int) (s : Recovered) (us : List Update) :
    Prop where
  tables : ∃ older newest, List.Forall₂ (Holds p userCompare) s.files older ∧
    Holds p userCompare (s.mem.getD newMemTable) newest ∧ (s.mem = none → newest = []) ∧
    stamped 1 us = older.flatten ++ newest
  room : us.length ≤ maxSequenceNumber

def Reaches (manifest maxSequence total : Nat) : Prop := max manifest maxSequence = max manifest total

theorem Reaches.step {maxSequence total : Nat} (h : Reaches manifest maxSequence total) (more : Nat) :
    Reaches manifest (max maxSequence (total + more)) (total + more) := by
  rw [Reaches] at h ⊢
  omega

theorem Kept.insert {mem : MemTable} {older : List (List Write)} {newest : List Write}
    (holder : List.Forall₂ (Holds p userCompare) s.files older) (hmem : Holds p userCompare mem newest)
    (hws : stamped 1 us = older.flatten ++ newest) (hroom : us.length ≤ maxSequenceNumber) (full : MemTable → Bool)
    (last : Nat) : Kept p userCompare (s.insert full mem last) us := by
  rw [Recovered.insert]
  split
  · refine ⟨⟨older ++ [newest], [], List.rel_append holder (.cons hmem .nil), newMemTable_holds, fun _ => rfl, ?_⟩, hroom⟩
    rw [hws, List.flatten_append, List.flatten_singleton, List.append_nil]
  · exact ⟨⟨older, newest, holder, hmem, nofun, hws⟩, hroom⟩

theorem recoverRecord_spec (ho : Orders p userCompare) (full : MemTable → Bool) (h : Kept p userCompare s us)
    (hlast : Reaches manifest s.maxSequence us.length) {record : List Byte} (hrep : Represents record (us.length + 1) more)
    (hkeys : ∀ u ∈ more, p u.key) (hroom : us.length + more.length ≤ maxSequenceNumber) :
    ∃ s', recoverRecord userCompare full s record = .ok s' ∧ Kept p userCompare s' (us ++ more) ∧
      Reaches manifest s'.maxSequence (us ++ more).length := by
  obtain ⟨⟨older, newest, holder, hmem, -, hws⟩, -⟩ := h
  have hlong : ¬record.length < 12 := Nat.not_lt.mpr hrep.length
  have hbelow : ∀ w ∈ newest, w.sequence < us.length + 1 := by
    intro w hw
    obtain ⟨u, -, n, -, hlt, rfl⟩ := mem_stamped (hws ▸ List.mem_append_right _ hw)
    rw [write_sequence]
    omega
  obtain ⟨mem, hinsert, hholds⟩ := insertInto_spec ho hmem hrep hbelow hkeys (by omega)
  have hseq : (((sequenceOf record : Int) + count record - 1) % 18446744073709551616).toNat = us.length + more.length := by
    rw [hrep.sequenceOf_eq, hrep.count_eq]
    rw [maxSequenceNumber] at hroom
    omega
  refine ⟨s.insert full mem (us.length + more.length), ?_, ?_, ?_⟩
  · rw [recoverRecord, if_neg hlong, hinsert, ok_bind]
    simp only [hseq]
  · refine Kept.insert holder hholds ?_ (by rwa [List.length_append]) full _
    rw [stamped_append, hws, List.append_assoc, Nat.add_comm 1]
  · rw [List.length_append, Recovered.insert]
    split <;> exact hlast.step more.length

theorem recoverRecords_spec (ho : Orders p userCompare) (full : MemTable → Bool) {first : Nat} {batches : List (List Byte)}
    (hbatches : Batches ends first batches more) (hfirst : first = us.length + 1) (h : Kept p userCompare s us)
    (hlast : Reaches manifest s.maxSequence us.length) (hkeys : ∀ u ∈ more, p u.key)
    (hroom : us.length + more.length ≤ maxSequenceNumber) :
    ∃ s', batches.foldlM (recoverRecord userCompare full) s = .ok s' ∧ Kept p userCompare s' (us ++ more) ∧
      Reaches manifest s'.maxSequence (us ++ more).length := by
  induction hbatches generalizing s us with
  | nil first => exact ⟨s, rfl, (List.append_nil us).symm ▸ h, (List.append_nil us).symm ▸ hlast⟩
  | cons hrep _ _ ih =>
    subst hfirst
    rw [List.length_append] at hroom
    obtain ⟨s₁, hrecord, h₁, hlast₁⟩ := recoverRecord_spec ho full h hlast hrep
      (fun u hu => hkeys u (List.mem_append_left _ hu)) (by omega)
    obtain ⟨s', hrest, h', hlast'⟩ := ih (by rw [List.length_append]; omega) h₁ hlast₁
      (fun u hu => hkeys u (List.mem_append_right _ hu)) (by rw [List.length_append]; omega)
    rw [List.append_assoc] at h' hlast'
    exact ⟨s', by rw [List.foldlM_cons, hrecord, ok_bind, hrest], h', hlast'⟩

/-- A log that ends anywhere adds the first of its updates, and all of them when it is there to its end. -/
theorem recoverLogFile_spec (ho : Orders p userCompare) (full : MemTable → Bool) (h : Kept p userCompare s us)
    (hnone : s.mem = none) (hlast : Reaches manifest s.maxSequence us.length) {log : LogFormat.Writer}
    (hlog : Logged ends log (us.length + 1) more) (hfirst : ends (us.length + 1)) (hkeys : ∀ u ∈ more, p u.key)
    (hroom : us.length + more.length ≤ maxSequenceNumber) (m : Nat) :
    ∃ s' more', recoverLogFile userCompare full s (log.dest.take m) = .ok s' ∧ s'.mem = none ∧
      Kept p userCompare s' (us ++ more') ∧ Reaches manifest s'.maxSequence (us ++ more').length ∧ more' <+: more ∧
      ends (us.length + 1 + more'.length) ∧ (log.dest.length ≤ m → more' = more) := by
  obtain ⟨batches, hadd, hbatches⟩ := hlog
  obtain ⟨k, r, hread, hwhole⟩ := readLog_spec hadd m
  obtain ⟨more', hbatches', hfront, hall⟩ :
      ∃ more', Batches ends (us.length + 1) (batches.take k) more' ∧ more' <+: more ∧
        (log.dest.length ≤ m → more' = more) := by
    by_cases hle : log.dest.length ≤ m
    · exact ⟨more, (hwhole hle).symm ▸ hbatches, List.prefix_rfl, fun _ => rfl⟩
    · obtain ⟨more', hbatches', hfront⟩ := hbatches.take k
      exact ⟨more', hbatches', hfront, fun h => absurd h hle⟩
  have hshort := hfront.length_le
  have hsame : ({ s with mem := none } : Recovered) = s := by rw [← hnone]
  obtain ⟨s₁, hfold, ⟨⟨older, newest, holder, hmem, hempty, hws⟩, hroom₁⟩, hlast₁⟩ :=
    recoverRecords_spec ho full hbatches' rfl h hlast (fun u hu => hkeys u (hfront.subset hu)) (by omega)
  refine ⟨⟨s₁.files ++ s₁.mem.toList, none, s₁.maxSequence⟩, more', ?_, rfl, ⟨?_, hroom₁⟩, hlast₁, hfront,
    hbatches'.closed hfirst, hall⟩
  · rw [recoverLogFile, hread, ok_bind, hsame]
    simp only [hfold, ok_bind]
  · cases hs : s₁.mem with
    | none =>
      rw [hempty hs, List.append_nil] at hws
      exact ⟨older, [], (List.append_nil s₁.files).symm ▸ holder, newMemTable_holds, fun _ => rfl,
        hws.trans (List.append_nil _).symm⟩
    | some mem =>
      rw [hs] at hmem
      refine ⟨older ++ [newest], [], List.rel_append holder (.cons hmem .nil), newMemTable_holds, fun _ => rfl, ?_⟩
      rw [hws, List.flatten_append, List.flatten_singleton, List.append_nil]

end Records

section Runs

variable {p : List Byte → Prop} {userCompare : List Byte → List Byte → Int}
variable {asked : List (WriteQueue.Writer × List Update)} {n : Nat} {us old mid new pending : List Update} {db db' : Db}

def loggedTo (db : Db) : Nat :=
  match db.stage with
  | .inserting updates _ _ => nextSequence db.lastSequence updates
  | .ending _ lastSequence _ => lastSequence
  | _ => db.lastSequence

def insertedTo (db : Db) : Nat :=
  match db.stage with
  | .ending _ lastSequence _ => lastSequence
  | _ => db.lastSequence

def Ends (asked : List (WriteQueue.Writer × List Update)) (seq : Nat) : Prop :=
  ∃ k, seq = (updatesOf (asked.take k)).length + 1

theorem Ends.append {seq : Nat} (h : Ends asked seq) (a : WriteQueue.Writer × List Update) : Ends (asked ++ [a]) seq := by
  obtain ⟨k, rfl⟩ := h
  refine ⟨min k asked.length, ?_⟩
  rw [List.take_append_of_le_length (Nat.min_le_right ..), ← List.take_take, List.take_length]

/-- The updates up to there are in the files (`old`), in the memtable that becomes a file (`mid`) and in the one that is
filled (`new`). These memtables have logs, and the group that is not inserted yet (`pending`) is in the last one. -/
structure Stored (p : List Byte → Prop) (userCompare : List Byte → List Byte → Int)
    (asked : List (WriteQueue.Writer × List Update)) (db : Db) (old mid new pending : List Update) : Prop where
  isPrefix : old ++ mid ++ new ++ pending <+: updatesOf asked
  filed : Ends asked (old.length + 1)
  manifest : old.length ≤ db.manifest
  switched : (old ++ mid).length ≤ db.lastSequence
  inserted : (old ++ mid ++ new).length = insertedTo db
  logged : (old ++ mid ++ new ++ pending).length = loggedTo db
  files : ∃ older, List.Forall₂ (Holds p userCompare) db.files older ∧ older.flatten = stamped 1 old
  imm : match db.imm with
    | none => mid = []
    | some g => Logged (Ends asked) g.log (old.length + 1) mid ∧ Holds p userCompare g.mem (stamped (old.length + 1) mid)
  log : Logged (Ends asked) db.current.log ((old ++ mid).length + 1) (new ++ pending)
  mem : Holds p userCompare db.current.mem (stamped ((old ++ mid).length + 1) new)

theorem new_stored : Stored p userCompare [] Db.new [] [] [] [] where
  isPrefix := List.prefix_rfl
  filed := ⟨0, rfl⟩
  manifest := le_rfl
  switched := le_rfl
  inserted := rfl
  logged := rfl
  files := ⟨[], .nil, rfl⟩
  imm := rfl
  log := ⟨[], rfl, .nil 1⟩
  mem := newMemTable_holds

theorem Stored.enqueue (d : Stored p userCompare asked db old mid new pending) (a : WriteQueue.Writer × List Update) :
    Stored p userCompare (asked ++ [a]) { db with writers := db.writers ++ [a.1] } old mid new pending := by
  have hfront : updatesOf asked <+: updatesOf (asked ++ [a]) := ⟨updatesOf [a], (updatesOf_append ..).symm⟩
  refine ⟨d.isPrefix.trans hfront, d.filed.append a, d.manifest, d.switched, d.inserted, d.logged, d.files, ?_,
    d.log.mono fun _ h => h.append a, d.mem⟩
  have himm := d.imm
  cases hs : db.imm with
  | none =>
    rw [hs] at himm
    exact himm
  | some g =>
    rw [hs] at himm
    exact ⟨himm.1.mono fun _ h => h.append a, himm.2⟩

theorem Stored.moved (d : Stored p userCompare asked db old mid new pending) {stage : Stage} {tmpBatch : List Byte}
    (hinserted : insertedTo { db with stage := stage } = insertedTo db)
    (hlogged : loggedTo { db with stage := stage } = loggedTo db) :
    Stored p userCompare asked { db with stage := stage, tmpBatch := tmpBatch } old mid new pending :=
  ⟨d.isPrefix, d.filed, d.manifest, d.switched, d.inserted.trans hinserted.symm, d.logged.trans hlogged.symm, d.files,
    d.imm, d.log, d.mem⟩

/-- No group is between the log and the memtable. -/
theorem Stored.pending_nil (d : Stored p userCompare asked db old mid new pending) (h : insertedTo db = loggedTo db) :
    pending = [] := by
  have hlen := d.logged
  rw [List.length_append, d.inserted, h] at hlen
  exact List.length_eq_zero_iff.mp (by omega)

theorem lead_stage (h : lead db = .ok db') : ∃ stage tmpBatch, db' = { db with stage := stage, tmpBatch := tmpBatch } ∧
    insertedTo { db with stage := stage } = db.lastSequence ∧ loggedTo { db with stage := stage } = db.lastSequence := by
  unfold lead at h
  split at h
  · cases h
  split at h
  · obtain rfl := Except.ok.inj h
    exact ⟨_, db.tmpBatch, rfl, rfl, rfl⟩
  · obtain ⟨⟨updates, group, own⟩, -, h⟩ := bind_eq_ok.mp h
    obtain rfl := Except.ok.inj h
    exact ⟨_, _, rfl, rfl, rfl⟩

theorem makingRoom_lastSequence {allowDelay force : Bool} (hstage : db.stage = .makingRoom allowDelay force) :
    insertedTo db = db.lastSequence ∧ loggedTo db = db.lastSequence := by
  rw [insertedTo, loggedTo, hstage]
  exact ⟨rfl, rfl⟩

theorem Stored.switch (d : Stored p userCompare asked db old mid new pending) (himm : db.imm = none)
    {allowDelay force : Bool} (hstage : db.stage = .makingRoom allowDelay force) (stage : Stage)
    (hinserted : stage = .makingRoom allowDelay false) :
    Stored p userCompare asked { db with current := Generation.new, imm := some db.current, stage := stage }
      old new [] [] := by
  have hat := makingRoom_lastSequence hstage
  obtain rfl := d.pending_nil (hat.1.trans hat.2.symm)
  have hmid := d.imm
  rw [himm] at hmid
  subst hmid hinserted
  obtain ⟨hfront, hfiled, hmanifest, -, hinserted, hlogged, hfiles, -, hlog, hmem⟩ := d
  simp only [List.append_nil] at hfront hinserted hlogged hlog hmem
  refine ⟨?_, hfiled, hmanifest, (hinserted.trans hat.1).le, ?_, ?_, hfiles, ⟨hlog, hmem⟩, ⟨[], rfl, .nil _⟩,
    newMemTable_holds⟩
  · simpa only [List.append_nil] using hfront
  · simp only [List.append_nil]
    exact hinserted.trans hat.1
  · simp only [List.append_nil]
    exact hlogged.trans hat.2

theorem Stored.makeRoom (d : Stored p userCompare asked db old mid new pending) {allowDelay force : Bool}
    (hstage : db.stage = .makingRoom allowDelay force) {level0 usage bufferSize : Nat}
    (h : makeRoom db allowDelay force level0 usage bufferSize = .ok db') :
    ∃ mid' new' pending', Stored p userCompare asked db' old mid' new' pending' := by
  have hat := makingRoom_lastSequence hstage
  unfold WriteQueue.makeRoom at h
  split at h
  · obtain rfl := Except.ok.inj h
    exact ⟨mid, new, pending, d.moved hat.1.symm hat.2.symm⟩
  split at h
  · obtain ⟨stage, tmpBatch, rfl, hinserted, hlogged⟩ := lead_stage h
    exact ⟨mid, new, pending, d.moved (hinserted.trans hat.1.symm) (hlogged.trans hat.2.symm)⟩
  split at h
  · obtain rfl := Except.ok.inj h
    exact ⟨mid, new, pending, d⟩
  split at h
  · obtain rfl := Except.ok.inj h
    exact ⟨mid, new, pending, d⟩
  split at h
  case isFalse => cases h
  case isTrue =>
    rename_i himm _ _
    obtain rfl := Except.ok.inj h
    exact ⟨new, [], [], d.switch (Option.not_isSome_iff_eq_none.mp himm) hstage _ rfl⟩

theorem updatesOf_take_front (n : Nat) : updatesOf (asked.take n) <+: updatesOf asked :=
  ⟨updatesOf (asked.drop n), by rw [← updatesOf_append, List.take_append_drop]⟩

/-- The updates in the memtables are those of the writers before the group, and the group is of the next ones. -/
theorem Stored.group (d : Stored p userCompare asked db old mid new pending) (h : Inv p userCompare asked n db)
    (hinserted : insertedTo db = db.lastSequence) : old ++ mid ++ new = updatesOf (asked.take n) := by
  have htake : updatesOf (asked.take n) <+: updatesOf asked := updatesOf_take_front n
  have hlen : (old ++ mid ++ new).length = (updatesOf (asked.take n)).length := by rw [d.inserted, hinserted, h.lastSequence]
  exact (List.prefix_of_prefix_length_le ((List.prefix_append ..).trans d.isPrefix) htake hlen.le).eq_of_length hlen

theorem updatesOf_group_front (n group : Nat) :
    updatesOf (asked.take n) ++ updatesOf ((asked.drop n).take group) <+: updatesOf asked := by
  rw [← updatesOf_take_add]
  exact updatesOf_take_front (n + group)

theorem first_of_group (hbefore : old ++ mid ++ new = updatesOf (asked.take n)) :
    (updatesOf (asked.take n)).length + 1 = (old ++ mid).length + 1 + new.length := by
  rw [← hbefore, @List.length_append _ (old ++ mid)]
  omega

theorem nextSequence_group (h : Inv p userCompare asked n db) {updates : List Byte} {group : Nat}
    (hgroup : Grouped asked n updates group) : nextSequence db.lastSequence updates =
      (updatesOf (asked.take n)).length + (updatesOf ((asked.drop n).take group)).length := by
  have hroom := h.room
  have hfront : updatesOf (asked.take n) ++ updatesOf ((asked.drop n).take group) <+: updatesOf asked :=
    updatesOf_group_front n group
  have hle := hfront.length_le
  rw [List.length_append] at hle
  rw [maxSequenceNumber] at hroom
  rw [nextSequence, h.lastSequence, hgroup.rep.count_eq]
  omega

theorem Stored.log_step (d : Stored p userCompare asked db old mid new pending) (h : Inv p userCompare asked n db)
    {updates : List Byte} {group : Nat} {own : Bool} (hstage : db.stage = .logging updates group own)
    {log : LogFormat.Writer}
    (hadd : addRecord db.current.log updates = .ok log) :
    Stored p userCompare asked
      { db with current := ⟨log, db.current.mem⟩, stage := .inserting updates group own }
      old mid new (updatesOf ((asked.drop n).take group)) := by
  have hat : insertedTo db = db.lastSequence ∧ loggedTo db = db.lastSequence := by
    rw [insertedTo, loggedTo, hstage]
    exact ⟨rfl, rfl⟩
  obtain rfl := d.pending_nil (hat.1.trans hat.2.symm)
  have hin := h.stage
  rw [hstage] at hin
  have hgroup := hin.1
  have hbefore := d.group h hat.1
  have hlog := d.log
  rw [List.append_nil] at hlog
  have hfirst := first_of_group hbefore
  have hend : Ends asked ((old ++ mid).length + 1 + new.length + (updatesOf ((asked.drop n).take group)).length) := by
    refine ⟨n + group, ?_⟩
    rw [← hfirst, updatesOf_take_add, List.length_append]
    omega
  refine ⟨hbefore ▸ updatesOf_group_front n group, d.filed, d.manifest, d.switched, ?_, ?_, d.files, d.imm,
    hlog.add (hfirst ▸ hgroup.rep) hend hadd, d.mem⟩
  · exact d.inserted.trans hat.1
  · rw [hbefore, List.length_append]
    exact (nextSequence_group h hgroup).symm

theorem Stored.insert_step (ho : Orders p userCompare) (d : Stored p userCompare asked db old mid new pending)
    (h : Inv p userCompare asked n db) {updates : List Byte} {group : Nat} {own : Bool}
    (hstage : db.stage = .inserting updates group own) {status : Status} {mem : MemTable}
    (hinsert : insertInto userCompare updates db.current.mem = .ok (status, mem)) :
    Stored p userCompare asked
      { db with
        current := ⟨db.current.log, mem⟩
        stage := .ending status (nextSequence db.lastSequence updates) group
        tmpBatch := if own then db.tmpBatch else clear }
      old mid (new ++ pending) [] := by
  have hat : insertedTo db = db.lastSequence ∧ loggedTo db = nextSequence db.lastSequence updates := by
    rw [insertedTo, loggedTo, hstage]
    exact ⟨rfl, rfl⟩
  have hin := h.stage
  rw [hstage] at hin
  have hgroup := hin.1
  have hbefore := d.group h hat.1
  have hnext := nextSequence_group h hgroup
  have hfront : updatesOf (asked.take n) ++ updatesOf ((asked.drop n).take group) <+: updatesOf asked :=
    updatesOf_group_front n group
  have hlogged := d.logged.trans hat.2
  have hall : old ++ mid ++ new ++ pending = updatesOf (asked.take n) ++ updatesOf ((asked.drop n).take group) := by
    have hlen : (old ++ mid ++ new ++ pending).length =
        (updatesOf (asked.take n) ++ updatesOf ((asked.drop n).take group)).length := by
      rw [hlogged, hnext, List.length_append]
    exact (List.prefix_of_prefix_length_le d.isPrefix hfront hlen.le).eq_of_length hlen
  rw [hbefore] at hall
  have hpending := List.append_cancel_left hall
  have hfirst := first_of_group hbefore
  have hrep := hgroup.rep
  rw [← hpending, hfirst] at hrep
  have hbelow : ∀ w ∈ stamped ((old ++ mid).length + 1) new, w.sequence < (old ++ mid).length + 1 + new.length := by
    intro w hw
    obtain ⟨u, -, k, -, hlt, rfl⟩ := mem_stamped hw
    rwa [write_sequence]
  have hkeys : ∀ u ∈ pending, p u.key := by
    rw [hpending]
    exact h.keys _ fun a ha => List.mem_of_mem_drop (List.mem_of_mem_take ha)
  have hroom : (old ++ mid).length + 1 + new.length + pending.length ≤ maxSequenceNumber + 1 := by
    have hle := d.isPrefix.length_le.trans h.room
    simp only [List.length_append] at hle ⊢
    omega
  obtain ⟨mem', hinsert', hholds⟩ := insertInto_spec ho d.mem hrep hbelow hkeys hroom
  obtain ⟨rfl, rfl⟩ := Prod.mk.inj (Except.ok.inj (hinsert.symm.trans hinsert'))
  refine ⟨?_, d.filed, d.manifest, d.switched, ?_, ?_, d.files, d.imm, ?_, ?_⟩
  · rw [List.append_nil, ← List.append_assoc]
    exact d.isPrefix
  · rw [← List.append_assoc, hlogged, insertedTo]
  · rw [List.append_nil, ← List.append_assoc, hlogged, loggedTo]
  · rw [List.append_nil]
    exact d.log
  · rw [stamped_append]
    exact hholds

theorem Stored.flush (d : Stored p userCompare asked db old mid new pending) {g : Generation} (himm : db.imm = some g) :
    Stored p userCompare asked
      { db with imm := none, files := db.files ++ [g.mem], prevLogNumber := 0, manifest := db.lastSequence }
      (old ++ mid) [] new pending := by
  obtain ⟨hfront, hfiled, -, hswitched, hinserted, hlogged, ⟨older, holder, hold⟩, hmid, hlog, hmem⟩ := d
  rw [himm] at hmid
  refine ⟨?_, ?_, hswitched, ?_, ?_, ?_, ⟨older ++ [_], List.rel_append holder (.cons hmid.2 .nil), ?_⟩, rfl, ?_, ?_⟩
  · rwa [List.append_nil]
  · rw [List.length_append, Nat.add_right_comm]
    exact hmid.1.closed hfiled
  · rwa [List.append_nil]
  · rwa [List.append_nil]
  · rwa [List.append_nil]
  · rw [List.flatten_append, List.flatten_singleton, hold, stamped_append, Nat.add_comm 1]
  · rwa [List.append_nil]
  · rwa [List.append_nil]

/-- What happens next keeps every update in a file or in a log. -/
theorem Stored.step (ho : Orders p userCompare) (d : Stored p userCompare asked db old mid new pending)
    (h : Inv p userCompare asked n db) {action : Action} (hother : ∀ w, action ≠ .enqueue w)
    (hstep : WriteQueue.step userCompare db action = .ok (some db')) :
    ∃ old' mid' new' pending', Stored p userCompare asked db' old' mid' new' pending' := by
  cases action with
  | enqueue w => exact absurd rfl (hother w)
  | start =>
    rw [WriteQueue.step] at hstep
    split at hstep
    · rename_i hidle _
      obtain rfl := Option.some.inj (Except.ok.inj hstep)
      exact ⟨old, mid, new, pending, d.moved (by rw [insertedTo, insertedTo, hidle]) (by rw [loggedTo, loggedTo, hidle])⟩
    · cases hstep
  | makeRoom level0 usage bufferSize =>
    rw [WriteQueue.step] at hstep
    split at hstep
    · rename_i hstage
      obtain ⟨db₁, hroom, hstep⟩ := bind_eq_ok.mp hstep
      obtain rfl := Option.some.inj (Except.ok.inj hstep)
      exact ⟨old, d.makeRoom hstage hroom⟩
    · cases hstep
  | log =>
    rw [WriteQueue.step] at hstep
    split at hstep
    · rename_i hstage
      obtain ⟨log, hadd, hstep⟩ := bind_eq_ok.mp hstep
      obtain rfl := Option.some.inj (Except.ok.inj hstep)
      exact ⟨old, mid, new, _, d.log_step h hstage hadd⟩
    · cases hstep
  | insert =>
    rw [WriteQueue.step] at hstep
    split at hstep
    · rename_i hstage
      obtain ⟨⟨status, mem⟩, hinsert, hstep⟩ := bind_eq_ok.mp hstep
      obtain rfl := Option.some.inj (Except.ok.inj hstep)
      exact ⟨old, mid, _, [], d.insert_step ho h hstage hinsert⟩
    · cases hstep
  | finish =>
    rw [WriteQueue.step] at hstep
    split at hstep
    · rename_i hstage
      obtain ⟨hlast, -⟩ := h.finish hstage
      rw [hlast, ok_bind] at hstep
      obtain rfl := Option.some.inj (Except.ok.inj hstep)
      have hinserted := d.inserted
      have hlogged := d.logged
      rw [insertedTo, hstage] at hinserted
      rw [loggedTo, hstage] at hlogged
      have hswitched := (List.prefix_append (old ++ mid) new).length_le
      rw [hinserted] at hswitched
      exact ⟨old, mid, new, pending, d.isPrefix, d.filed, d.manifest, hswitched, hinserted, hlogged, d.files, d.imm, d.log,
        d.mem⟩
    · cases hstep
  | flush =>
    rw [WriteQueue.step] at hstep
    split at hstep
    · rename_i himm
      obtain rfl := Option.some.inj (Except.ok.inj hstep)
      exact ⟨old ++ mid, [], new, pending, d.flush himm⟩
    · cases hstep

theorem reachable_stored (ho : Orders p userCompare) (h : Reachable p userCompare asked db) :
    ∃ n old mid new pending, Inv p userCompare asked n db ∧ Stored p userCompare asked db old mid new pending := by
  induction h with
  | new => exact ⟨0, [], [], [], [], new_inv, new_stored⟩
  | enqueue _ ha hroom hstep ih =>
    obtain ⟨n, old, mid, new, pending, h, d⟩ := ih
    rw [WriteQueue.step] at hstep
    obtain rfl := Option.some.inj (Except.ok.inj hstep)
    exact ⟨n, old, mid, new, pending, h.enqueue ha hroom, d.enqueue _⟩
  | step _ _ hother hstep ih =>
    obtain ⟨n, old, mid, new, pending, h, d⟩ := ih
    obtain ⟨r, hr, hinv⟩ := h.step ho hother
    obtain rfl := Except.ok.inj (hr.symm.trans hstep)
    obtain ⟨n', h'⟩ := hinv _ rfl
    obtain ⟨old', mid', new', pending', d'⟩ := d.step ho h hother hstep
    exact ⟨n', old', mid', new', pending', h', d'⟩

theorem lastSequence_le (h : Inv p userCompare asked n db) : db.lastSequence ≤ loggedTo db := by
  have hstage := h.stage
  rw [loggedTo]
  cases hs : db.stage with
  | idle | makingRoom | logging => exact le_rfl
  | inserting updates group own =>
    rw [hs] at hstage
    simp only
    rw [nextSequence_group h hstage.1, h.lastSequence]
    exact Nat.le_add_right ..
  | ending status lastSequence group =>
    rw [hs] at hstage
    simp only
    rw [hstage.2.2.1, updatesOf_take_add, List.length_append, h.lastSequence]
    exact Nat.le_add_right ..

theorem recover_spec (ho : Orders p userCompare) (d : Stored p userCompare asked db old mid new pending)
    (h : Inv p userCompare asked n db) (full : MemTable → Bool) (m : Nat) :
    ∃ tables last contents more, recover userCompare full db.manifest db.files (logsOf db m) = .ok (tables, last) ∧
      List.Forall₂ (Holds p userCompare) tables contents ∧ contents.flatten = stamped 1 (old ++ mid ++ more) ∧
      more <+: new ++ pending ∧ Ends asked ((old ++ mid ++ more).length + 1) ∧
      (db.current.log.dest.length ≤ m → more = new ++ pending) ∧ last = max db.manifest (old ++ mid ++ more).length := by
  obtain ⟨older, holder, hold⟩ := d.files
  have hkeys := h.keys asked fun _ ha => ha
  have hlength := d.isPrefix.length_le.trans h.room
  simp only [List.length_append] at hlength
  have hfiles : Kept p userCompare ⟨db.files, none, 0⟩ old :=
    ⟨⟨older, [], holder, newMemTable_holds, fun _ => rfl, hold.symm.trans (List.append_nil _).symm⟩, by omega⟩
  have hmanifest := d.manifest
  have hstart : Reaches db.manifest 0 old.length := by
    rw [Reaches]
    omega
  obtain ⟨s₁, hfirst, hnone₁, h₁, hends₁, hlast₁⟩ : ∃ s₁,
      (db.imm.toList.map fun g => g.log.dest).foldlM (recoverLogFile userCompare full) ⟨db.files, none, 0⟩ = .ok s₁ ∧
        s₁.mem = none ∧ Kept p userCompare s₁ (old ++ mid) ∧ Ends asked ((old ++ mid).length + 1) ∧
        Reaches db.manifest s₁.maxSequence (old ++ mid).length := by
    have himm := d.imm
    cases hs : db.imm with
    | none =>
      rw [hs] at himm
      subst himm
      rw [List.append_nil]
      exact ⟨_, rfl, rfl, hfiles, d.filed, hstart⟩
    | some g =>
      rw [hs] at himm
      have hkeys₁ : ∀ u ∈ mid, p u.key := fun u hu =>
        hkeys u (d.isPrefix.subset (List.mem_append_left _ (List.mem_append_left _ (List.mem_append_right _ hu))))
      obtain ⟨s₁, mid', hread, hnone, h₁, hlast₁, -, hends, hall⟩ :=
        recoverLogFile_spec ho full hfiles rfl hstart himm.1 d.filed hkeys₁ (by omega) g.log.dest.length
      obtain rfl := hall le_rfl
      rw [List.take_length] at hread
      rw [Nat.add_right_comm, ← List.length_append] at hends
      exact ⟨s₁, by simp only [Option.toList_some, List.map_cons, List.foldlM_cons, hread, ok_bind]; rfl, hnone, h₁, hends,
        hlast₁⟩
  have hkeys₂ : ∀ u ∈ new ++ pending, p u.key := by
    intro u hu
    refine hkeys u (d.isPrefix.subset ?_)
    rw [List.append_assoc]
    exact List.mem_append_right _ hu
  obtain ⟨s₂, more, hread, hnone₂, ⟨⟨contents, newest, htables, -, hempty, hws⟩, -⟩, hlast₂, hfront, hends, hall⟩ :=
    recoverLogFile_spec ho full h₁ hnone₁ hlast₁ d.log hends₁ hkeys₂ (by simp only [List.length_append]; omega) m
  rw [hempty hnone₂, List.append_nil] at hws
  rw [Nat.add_right_comm, ← List.length_append] at hends
  refine ⟨s₂.files, max db.manifest s₂.maxSequence, contents, more, ?_, htables, hws.symm, hfront, hends, hall, hlast₂⟩
  rw [recover, logsOf, List.foldlM_append, hfirst, ok_bind, List.foldlM_cons, hread, ok_bind, List.foldlM_nil, pure_bind]
  split
  · rename_i hlt
    rw [setLastSequence, if_pos hlt.le, ok_bind, Nat.max_eq_right hlt.le]
  · rename_i hnot
    rw [Nat.max_eq_left (Nat.not_lt.mp hnot)]
    rfl

theorem updatesOf_take_max {k : Nat} (h : (updatesOf (asked.take n)).length ≤ (updatesOf (asked.take k)).length) :
    updatesOf (asked.take (max k n)) = updatesOf (asked.take k) := by
  obtain hle | hle := Nat.le_total n k
  · rw [Nat.max_eq_left hle]
  · rw [Nat.max_eq_right hle]
    obtain ⟨more, rfl⟩ := Nat.exists_eq_add_of_le hle
    rw [updatesOf_take_add, List.length_append] at h
    rw [updatesOf_take_add, List.length_eq_zero_iff.mp (show (updatesOf ((asked.drop k).take more)).length = 0 by omega),
      List.append_nil]

theorem eq_updatesOf_take {k : Nat} (h : us <+: updatesOf asked)
    (hk : us.length + 1 = (updatesOf (asked.take k)).length + 1) : us = updatesOf (asked.take k) :=
  (List.prefix_of_prefix_length_le h (updatesOf_take_front k) (by omega)).eq_of_length (by omega)

/-- After a crash the logs are read, and the files that there are then hold the batches of the first of those that have
asked, in order and each as a whole. When the last log is there to its end, all that have been answered are among them. -/
theorem crash_keeps_answered (ho : Orders p userCompare) (h : Reachable p userCompare asked db) (full : MemTable → Bool)
    (m : Nat) :
    ∃ tables last contents n k filed,
      recover userCompare full db.manifest db.files (logsOf db m) = .ok (tables, last) ∧
      db.answers = (asked.take n).map (fun a => (a.1.id, Status.ok)) ∧
      List.Forall₂ (Holds p userCompare) tables contents ∧ contents.flatten = stamped 1 (updatesOf (asked.take k)) ∧
      (∃ older, List.Forall₂ (Holds p userCompare) db.files older ∧
        older.flatten = stamped 1 (updatesOf (asked.take filed))) ∧
      filed ≤ k ∧ (db.current.log.dest.length ≤ m → n ≤ k) ∧
      (updatesOf (asked.take filed)).length ≤ db.manifest ∧
      last = max db.manifest (updatesOf (asked.take k)).length := by
  obtain ⟨n, old, mid, new, pending, hinv, d⟩ := reachable_stored ho h
  obtain ⟨tables, last, contents, more, hrecover, htables, hcontents, hmore, ⟨k, hk⟩, hall, hlast⟩ :=
    recover_spec ho d hinv full m
  obtain ⟨filed, hfiled⟩ := d.filed
  have hfront : old ++ mid ++ more <+: updatesOf asked := by
    have happend := (List.prefix_append_right_inj (old ++ mid)).mpr hmore
    rw [← List.append_assoc] at happend
    exact happend.trans d.isPrefix
  have hold : old <+: updatesOf asked := by
    refine List.IsPrefix.trans ?_ hfront
    rw [List.append_assoc]
    exact List.prefix_append ..
  rw [eq_updatesOf_take hfront hk] at hcontents hlast
  obtain rfl := eq_updatesOf_take hold hfiled
  have hshort : (updatesOf (asked.take filed)).length ≤ (updatesOf (asked.take k)).length := by
    simp only [List.length_append] at hk
    omega
  have hanswered : db.current.log.dest.length ≤ m →
      (updatesOf (asked.take n)).length ≤ (updatesOf (asked.take k)).length := by
    intro hle
    have hlogged := d.logged
    have hle' := lastSequence_le hinv
    rw [hall hle, ← List.append_assoc, hlogged] at hk
    rw [← hinv.lastSequence]
    omega
  -- those that have been answered, or are in the files, are counted even where they have no updates
  by_cases hle : db.current.log.dest.length ≤ m
  · have hn := updatesOf_take_max (hanswered hle)
    have hmax := updatesOf_take_max (hn ▸ hshort)
    rw [← hn, ← hmax] at hcontents hlast
    exact ⟨tables, last, contents, n, _, filed, hrecover, hinv.answers, htables, hcontents, d.files, Nat.le_max_right ..,
      fun _ => (Nat.le_max_right ..).trans (Nat.le_max_left ..), d.manifest, hlast⟩
  · rw [← updatesOf_take_max hshort] at hcontents hlast
    exact ⟨tables, last, contents, n, _, filed, hrecover, hinv.answers, htables, hcontents, d.files, Nat.le_max_right ..,
      fun h => absurd h hle, d.manifest, hlast⟩

/-- One batch is in the memtable that becomes a file, and of the record of a second one the last byte is lost. -/
theorem crash_keeps_answered_logged :
    ∃ db, Reachable (fun _ => True) KeySeparators.sliceCompare
        [(⟨3, some (single (.put [5] [1])), false⟩, [.put [5] [1]]), (⟨7, none, false⟩, []),
          (⟨4, some (single (.delete [5])), false⟩, [.delete [5]])] db ∧
      db.imm.isSome ∧ db.current.log.dest.length = 22 ∧ ∃ tables last contents k,
        recover KeySeparators.sliceCompare (fun _ => false) db.manifest db.files (logsOf db 21) = .ok (tables, last) ∧
        List.Forall₂ (Holds (fun _ => True) KeySeparators.sliceCompare) tables contents ∧
        contents.flatten = stamped 1 (([[.put [5] [1]], [], [.delete [5]]].take k).flatten) := by
  have ho := KeySeparators.sliceCompare_orders
  have hnone : Asks (fun _ => True) (⟨7, none, false⟩, []) := rfl
  have hnew : Reachable (fun _ => True) KeySeparators.sliceCompare [] Db.new := .new
  have hput := hnew.enqueue (put_asks 3) (by decide) rfl
  have hlogged := ((hput.step .start nofun rfl).step (.makeRoom 0 0 4096) nofun rfl).step .log nofun rfl
  obtain ⟨status, mem, hinserted⟩ := hlogged.insert ho rfl
  have hforce := (hinserted.finish ho rfl).enqueue hnone (by decide) rfl
  have hfull := ((hforce.step .start nofun rfl).step (.makeRoom 0 0 4096) nofun rfl).step (.makeRoom 0 0 4096) nofun rfl
  have hdelete := (hfull.finish ho rfl).enqueue (delete_asks 4) (by decide) rfl
  have h := ((hdelete.step .start nofun rfl).step (.makeRoom 0 0 4096) nofun rfl).step .log nofun rfl
  obtain ⟨tables, last, contents, n, k, filed, hrecover, -, htables, hcontents, -⟩ :=
    crash_keeps_answered ho h (fun _ => false) 21
  refine ⟨_, h, rfl, rfl, tables, last, contents, k, hrecover, htables, ?_⟩
  rw [hcontents, updatesOf, List.map_take]
  rfl

end Runs

end RecordStore.Recovery
