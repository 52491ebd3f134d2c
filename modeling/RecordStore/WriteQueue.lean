import RecordStore.KeySeparators
import RecordStore.LogReading
import RecordStore.WriteBatches

namespace RecordStore.WriteQueue

open RecordStore.CFile RecordStore.Outcome RecordStore.Coding RecordStore.ThreeWay RecordStore.DbFormat RecordStore.MemTables
open RecordStore.WriteBatches

/-- `DBImpl::Writer`. A writer without a batch asks for a new memtable. -/
structure Writer where
  id : Nat
  batch : Option (List Byte)
  sync : Bool

/-- A memtable and the log file of what is added to it. -/
structure Generation where
  log : LogFormat.Writer
  mem : MemTable

def Generation.new : Generation := ⟨LogFormat.Writer.new, newMemTable⟩

/-- Where the writer at the front of the queue is in `Write`: it has not begun, it makes room, it has a batch to log and
to insert for itself and for some behind it, its own one or the temporary one, or it has a status for them. -/
inductive Stage where
  | idle
  | makingRoom (allowDelay force : Bool)
  | logging (updates : List Byte) (group : Nat) (own : Bool)
  | inserting (updates : List Byte) (group : Nat) (own : Bool)
  | ending (status : Status) (lastSequence group : Nat)

/-- The memtables that have become files are in `files`, the oldest one first, and `manifest` is the last sequence number
that is in the manifest then. -/
structure Db where
  current : Generation
  imm : Option Generation
  files : List MemTable
  lastSequence : Nat
  writers : List Writer
  stage : Stage
  answers : List (Nat × Status)
  tmpBatch : List Byte
  prevLogNumber : Nat
  manifest : Nat

def Db.new : Db := ⟨Generation.new, none, [], 0, [], .idle, [], clear, 0, 0⟩

section Steps

/-- `tmp_batch_` takes the place of the batch of the first writer. -/
def switchBatch (tmp result : List Byte) (own : Bool) : Except Fault (List Byte) :=
  if own then
    if count tmp = 0 then append tmp result else .error .assertFailed
  else .ok result

/-- The loop of `BuildBatchGroup`. `own` says that the batch so far is the one of the first writer. -/
def groupLoop (maxSize : Nat) (firstSync : Bool) (tmp : List Byte) :
    List Writer → Nat → List Byte → Bool → Nat → Except Fault (List Byte × Nat × Bool)
  | [], _, result, own, group => .ok (result, group, own)
  | w :: writers, size, result, own, group =>
    if w.sync && !firstSync then .ok (result, group, own)
    else
      match w.batch with
      | none => groupLoop maxSize firstSync tmp writers size result own (group + 1)
      | some batch =>
        if maxSize < size + batch.length then .ok (result, group, own)
        else do
          let result ← switchBatch tmp result own
          let result ← append result batch
          groupLoop maxSize firstSync tmp writers (size + batch.length) result false (group + 1)

/-- The batch, how many writers it is for, and whether it is the one of the first of them. -/
def buildBatchGroup (tmp : List Byte) : List Writer → Except Fault (List Byte × Nat × Bool)
  | [] => .error .assertFailed
  | first :: writers =>
    match first.batch with
    | none => .error .assertFailed
    | some batch =>
      let maxSize := if batch.length ≤ 131072 then batch.length + 131072 else 1048576
      groupLoop maxSize first.sync tmp writers batch.length batch true 1

/-- What goes on in the database. Of a round of `MakeRoomForWrite` the number of files at level 0, the size of the memtable
and its limit are given. -/
inductive Action where
  | enqueue (w : Writer)
  | start
  | makeRoom (level0 usage bufferSize : Nat)
  | log
  | insert
  | finish
  | flush

/-- There is room: the batches of a group are put together and get their sequence number. -/
def lead (db : Db) : Except Fault Db :=
  match db.writers with
  | [] => .error .assertFailed
  | w :: _ =>
    match w.batch with
    | none => .ok { db with stage := .ending .ok db.lastSequence 1 }
    | some _ => do
      let (updates, group, own) ← buildBatchGroup db.tmpBatch db.writers
      let updates := setSequence updates (db.lastSequence + 1)
      .ok { db with tmpBatch := if own then db.tmpBatch else updates, stage := .logging updates group own }

/-- A round of the loop of `MakeRoomForWrite`: a delay, room, a wait or a new memtable. -/
def makeRoom (db : Db) (allowDelay force : Bool) (level0 usage bufferSize : Nat) : Except Fault Db :=
  if allowDelay = true ∧ l0SlowdownWritesTrigger ≤ level0 then .ok { db with stage := .makingRoom false force }
  else if force = false ∧ usage ≤ bufferSize then lead db
  else if db.imm.isSome then .ok db
  else if l0StopWritesTrigger ≤ level0 then .ok db
  else if db.prevLogNumber = 0 then
    .ok { db with current := Generation.new, imm := some db.current, stage := .makingRoom allowDelay false }
  else .error .assertFailed

def nextSequence (lastSequence : Nat) (updates : List Byte) : Nat :=
  (((lastSequence : Int) + count updates) % 18446744073709551616).toNat

def setLastSequence (lastSequence s : Nat) : Except Fault Nat :=
  if lastSequence ≤ s then .ok s else .error .assertFailed

/-- The result is none where the action cannot happen. -/
def step (userCompare : List Byte → List Byte → Int) (db : Db) : Action → Except Fault (Option Db)
  | .enqueue w => .ok (some { db with writers := db.writers ++ [w] })
  | .start =>
    match db.stage, db.writers with
    | .idle, w :: _ => .ok (some { db with stage := .makingRoom w.batch.isSome w.batch.isNone })
    | _, _ => .ok none
  | .makeRoom level0 usage bufferSize =>
    match db.stage with
    | .makingRoom allowDelay force => do
      let db ← makeRoom db allowDelay force level0 usage bufferSize
      .ok (some db)
    | _ => .ok none
  | .log =>
    match db.stage with
    | .logging updates group own => do
      let log ← LogFormat.addRecord db.current.log updates
      .ok (some { db with current := ⟨log, db.current.mem⟩, stage := .inserting updates group own })
    | _ => .ok none
  | .insert =>
    match db.stage with
    | .inserting updates group own => do
      let (status, mem) ← insertInto userCompare updates db.current.mem
      .ok (some { db with
        current := ⟨db.current.log, mem⟩
        stage := .ending status (nextSequence db.lastSequence updates) group
        tmpBatch := if own then db.tmpBatch else clear })
    | _ => .ok none
  | .finish =>
    match db.stage with
    | .ending status lastSequence group => do
      let lastSequence ← setLastSequence db.lastSequence lastSequence
      .ok (some { db with
        lastSequence := lastSequence
        writers := db.writers.drop group
        stage := .idle
        answers := db.answers ++ (db.writers.take group).map fun w => (w.id, status) })
    | _ => .ok none
  | .flush =>
    match db.imm with
    | some g => .ok (some { db with
        imm := none
        files := db.files ++ [g.mem]
        prevLogNumber := 0
        manifest := db.lastSequence })
    | none => .ok none

end Steps

variable {p : List Byte → Prop} {userCompare : List Byte → List Byte → Int} {asked : List (Writer × List Update)} {db : Db}

section Groups

/-- A writer with a batch that holds these updates, or without a batch. -/
def Asks (p : List Byte → Prop) (a : Writer × List Update) : Prop :=
  match a.1.batch with
  | none => a.2 = []
  | some batch => (∃ seq, Represents batch seq a.2) ∧ ∀ u ∈ a.2, p u.key

def single (u : Update) : List Byte := encodeFixed64 0 ++ (encodeFixed32 1 ++ u.encode)

theorem single_represents {u : Update} (h : u.Valid) : Represents (single u) 0 [u] where
  rep_eq := by rw [single, List.map_singleton, List.flatten_singleton, List.length_singleton]
  sequence := by decide
  count := Nat.lt_of_sub_eq_succ rfl
  valid _ hu := List.mem_singleton.mp hu ▸ h

def updatesOf (asked : List (Writer × List Update)) : List Update := (asked.map Prod.snd).flatten

theorem updatesOf_append (as bs : List (Writer × List Update)) : updatesOf (as ++ bs) = updatesOf as ++ updatesOf bs := by
  rw [updatesOf, List.map_append, List.flatten_append, updatesOf, updatesOf]

theorem updatesOf_cons (a : Writer × List Update) (as : List (Writer × List Update)) :
    updatesOf (a :: as) = a.2 ++ updatesOf as := by
  rw [updatesOf, List.map_cons, List.flatten_cons, updatesOf]

theorem updatesOf_take_add (n k : Nat) :
    updatesOf (asked.take (n + k)) = updatesOf (asked.take n) ++ updatesOf ((asked.drop n).take k) := by
  rw [List.take_add, updatesOf_append]

theorem represents_length_le {rep : List Byte} {seq : Nat} {us : List Update} (h : Represents rep seq us) :
    us.length ≤ rep.length := by
  have hle : ∀ us : List Update, us.length ≤ ((us.map Update.encode).flatten).length := by
    intro us
    induction us with
    | nil => exact le_rfl
    | cons u us ih =>
      have hpos : 0 < u.encode.length := by cases u <;> exact Nat.succ_pos _
      rw [List.map_cons, List.flatten_cons, List.length_append, List.length_cons]
      omega
  have hrep := hle us
  rw [← h.drop_header, List.length_drop] at hrep
  omega

/-- The group is that of the first writers of the queue, and its batch holds their updates in order. -/
theorem groupLoop_spec (firstSync : Bool) {maxSize : Nat} (hmax : maxSize ≤ 1048576) {waiting : List (Writer × List Update)}
    (hasks : ∀ a ∈ waiting, Asks p a) (group : Nat) (own : Bool) {size seq : Nat} {result : List Byte} {us : List Update}
    (hrep : Represents result seq us) (hsize : us.length ≤ size) :
    ∃ result' k own',
      groupLoop maxSize firstSync clear (waiting.map Prod.fst) size result own group = .ok (result', group + k, own') ∧
      k ≤ waiting.length ∧ ∃ seq', Represents result' seq' (us ++ updatesOf (waiting.take k)) := by
  induction waiting generalizing group own size seq result us with
  | nil => exact ⟨result, 0, own, rfl, le_rfl, seq, (List.append_nil us).symm ▸ hrep⟩
  | cons a waiting ih =>
    obtain ⟨w, more⟩ := a
    have hrest : ∀ a ∈ waiting, Asks p a := fun a ha => hasks a (List.mem_cons_of_mem _ ha)
    have ha := hasks _ (List.mem_cons_self ..)
    have hstop : ∃ result' k own', (Except.ok (result, group, own) : Except Fault _) = .ok (result', group + k, own') ∧
        k ≤ ((w, more) :: waiting).length ∧
        ∃ seq', Represents result' seq' (us ++ updatesOf (((w, more) :: waiting).take k)) :=
      ⟨result, 0, own, rfl, Nat.zero_le _, seq, (List.append_nil us).symm ▸ hrep⟩
    rw [List.map_cons, groupLoop]
    split
    · exact hstop
    · cases hbatch : w.batch with
      | none =>
        simp only [Asks, hbatch] at ha
        subst ha
        obtain ⟨result', k, own', hloop, hk, seq', hrep'⟩ := ih hrest (group + 1) own hrep hsize
        refine ⟨result', k + 1, own', ?_, Nat.succ_le_succ hk, seq', ?_⟩
        · rw [show group + (k + 1) = group + 1 + k by omega]
          exact hloop
        · rwa [List.take_succ_cons, updatesOf_cons, List.nil_append]
      | some batch =>
        simp only [Asks, hbatch] at ha
        obtain ⟨⟨s, hbatchRep⟩, -⟩ := ha
        have hmore := represents_length_le hbatchRep
        simp only
        split
        · exact hstop
        · -- the batch so far, in the temporary one or in its place
          obtain ⟨result₁, seq₁, happend₁, hrep₁⟩ : ∃ result₁ seq₁,
              switchBatch clear result own = .ok result₁ ∧ Represents result₁ seq₁ us := by
            cases own with
            | false => exact ⟨result, seq, rfl, hrep⟩
            | true =>
              obtain ⟨result₁, happend, hrep₁⟩ := clear_represents.append hrep (by simp only [List.length_nil]; omega)
              have hcount : count clear = 0 := clear_represents.count_eq
              refine ⟨result₁, 0, ?_, hrep₁⟩
              rw [switchBatch, if_pos rfl, if_pos hcount, happend]
          obtain ⟨result₂, happend₂, hrep₂⟩ := hrep₁.append hbatchRep (show us.length + more.length < 2147483648 by omega)
          obtain ⟨result', k, own', hloop, hk, seq', hrep'⟩ := ih hrest (group + 1) false hrep₂
            (show (us ++ more).length ≤ size + batch.length by rw [List.length_append]; omega)
          refine ⟨result', k + 1, own', ?_, Nat.succ_le_succ hk, seq', ?_⟩
          · rw [happend₁, ok_bind, happend₂, ok_bind, show group + (k + 1) = group + 1 + k by omega]
            exact hloop
          · rwa [List.take_succ_cons, updatesOf_cons, ← List.append_assoc]

theorem buildBatchGroup_spec {waiting : List (Writer × List Update)} (hasks : ∀ a ∈ waiting, Asks p a)
    {w : Writer} {us : List Update} {rest : List (Writer × List Update)} (hwaiting : waiting = (w, us) :: rest)
    {batch : List Byte} (hbatch : w.batch = some batch) :
    ∃ result k own, buildBatchGroup clear (waiting.map Prod.fst) = .ok (result, k, own) ∧ k ≤ waiting.length ∧
      ∃ seq, Represents result seq (updatesOf (waiting.take k)) := by
  subst hwaiting
  have ha := hasks _ (List.mem_cons_self ..)
  simp only [Asks, hbatch] at ha
  obtain ⟨⟨s, hrep⟩, -⟩ := ha
  have hmax : (if batch.length ≤ 131072 then batch.length + 131072 else 1048576) ≤ 1048576 := by split <;> omega
  obtain ⟨result, k, own, hloop, hk, seq, hresult⟩ := groupLoop_spec w.sync hmax
    (fun a ha => hasks a (List.mem_cons_of_mem _ ha)) 1 true hrep (represents_length_le hrep)
  refine ⟨result, 1 + k, own, ?_, by rw [List.length_cons]; omega, seq, ?_⟩
  · simp only [List.map_cons, buildBatchGroup, hbatch]
    exact hloop
  · rwa [Nat.add_comm, List.take_succ_cons, updatesOf_cons]

end Groups

section Runs

/-- The memtables that nothing is added to, the oldest one first. -/
def olderTables (db : Db) : List MemTable := db.files ++ db.imm.toList.map Generation.mem

/-- The memtables hold these writes, the older ones in the older tables. -/
def Contents (p : List Byte → Prop) (userCompare : List Byte → List Byte → Int) (db : Db) (ws : List Write) : Prop :=
  ∃ older newest, List.Forall₂ (Holds p userCompare) (olderTables db) older ∧ Holds p userCompare db.current.mem newest ∧
    ws = older.flatten ++ newest

def writesOf (asked : List (Writer × List Update)) (n : Nat) : List Write := stamped 1 (updatesOf (asked.take n))

/-- A batch for the next writers in the queue, with its sequence number. -/
structure Grouped (asked : List (Writer × List Update)) (n : Nat) (updates : List Byte) (group : Nat) : Prop where
  le : n + group ≤ asked.length
  rep : Represents updates ((updatesOf (asked.take n)).length + 1) (updatesOf ((asked.drop n).take group))

def StageInv (p : List Byte → Prop) (userCompare : List Byte → List Byte → Int) (asked : List (Writer × List Update))
    (n : Nat) (db : Db) : Stage → Prop
  | .idle => Contents p userCompare db (writesOf asked n)
  | .makingRoom _ _ => n < asked.length ∧ Contents p userCompare db (writesOf asked n)
  | .logging updates group _ => Grouped asked n updates group ∧ Contents p userCompare db (writesOf asked n)
  | .inserting updates group _ => Grouped asked n updates group ∧ Contents p userCompare db (writesOf asked n)
  | .ending status lastSequence group => status = .ok ∧ n + group ≤ asked.length ∧
      lastSequence = (updatesOf (asked.take (n + group))).length ∧ Contents p userCompare db (writesOf asked (n + group))

def Stage.own : Stage → Bool
  | .logging _ _ own | .inserting _ _ own => own
  | _ => true

/-- The first `n` of those that have asked have been answered, and the others are in the queue. -/
structure Inv (p : List Byte → Prop) (userCompare : List Byte → List Byte → Int) (asked : List (Writer × List Update))
    (n : Nat) (db : Db) : Prop where
  le : n ≤ asked.length
  asks : ∀ a ∈ asked, Asks p a
  room : (updatesOf asked).length ≤ maxSequenceNumber
  writers : db.writers = (asked.drop n).map Prod.fst
  answers : db.answers = (asked.take n).map fun a => (a.1.id, Status.ok)
  lastSequence : db.lastSequence = (updatesOf (asked.take n)).length
  log : db.current.log.blockOffset ≤ LogFormat.blockSize
  tmpBatch : db.stage.own = true → db.tmpBatch = clear
  prevLogNumber : db.prevLogNumber = 0
  stage : StageInv p userCompare asked n db db.stage

/-- What a database can get to, and what has been asked of it until then. -/
inductive Reachable (p : List Byte → Prop) (userCompare : List Byte → List Byte → Int) :
    List (Writer × List Update) → Db → Prop where
  | new : Reachable p userCompare [] Db.new
  | enqueue {asked : List (Writer × List Update)} {db db' : Db} (h : Reachable p userCompare asked db)
      {a : Writer × List Update} (ha : Asks p a) (hroom : (updatesOf (asked ++ [a])).length ≤ maxSequenceNumber)
      (hstep : step userCompare db (.enqueue a.1) = .ok (some db')) : Reachable p userCompare (asked ++ [a]) db'
  | step {asked : List (Writer × List Update)} {db db' : Db} (h : Reachable p userCompare asked db) (action : Action)
      (hother : ∀ w, action ≠ .enqueue w) (hstep : WriteQueue.step userCompare db action = .ok (some db')) :
      Reachable p userCompare asked db'

variable {n : Nat}

theorem Grouped.mono {updates : List Byte} {group : Nat} (h : Grouped asked n updates group) (a : Writer × List Update) :
    Grouped (asked ++ [a]) n updates group := by
  have hle := h.le
  refine ⟨by rw [List.length_append]; omega, ?_⟩
  rw [List.take_append_of_le_length (by omega), List.drop_append_of_le_length (by omega),
    List.take_append_of_le_length (by rw [List.length_drop]; omega)]
  exact h.rep

theorem writesOf_append (h : n ≤ asked.length) (a : Writer × List Update) :
    writesOf (asked ++ [a]) n = writesOf asked n := by
  rw [writesOf, List.take_append_of_le_length h, writesOf]

theorem new_inv : Inv p userCompare [] 0 Db.new where
  le := le_rfl
  asks _ ha := absurd ha List.not_mem_nil
  room := Nat.zero_le _
  writers := rfl
  answers := rfl
  lastSequence := rfl
  log := Nat.zero_le _
  tmpBatch _ := rfl
  prevLogNumber := rfl
  stage := ⟨[], [], .nil, newMemTable_holds, rfl⟩

theorem Inv.enqueue (h : Inv p userCompare asked n db) {a : Writer × List Update} (ha : Asks p a)
    (hroom : (updatesOf (asked ++ [a])).length ≤ maxSequenceNumber) :
    Inv p userCompare (asked ++ [a]) n { db with writers := db.writers ++ [a.1] } := by
  have hle := h.le
  have hlen : (asked ++ [a]).length = asked.length + 1 := by rw [List.length_append, List.length_singleton]
  refine ⟨by omega, fun b hb => ?_, hroom, ?_, ?_, ?_, h.log, h.tmpBatch, h.prevLogNumber, ?_⟩
  · obtain hb | hb := List.mem_append.mp hb
    · exact h.asks b hb
    · exact List.mem_singleton.mp hb ▸ ha
  · rw [List.drop_append_of_le_length hle, List.map_append, h.writers]
    rfl
  · rw [List.take_append_of_le_length hle]
    exact h.answers
  · rw [List.take_append_of_le_length hle]
    exact h.lastSequence
  · have hstage := h.stage
    simp only
    cases hs : db.stage with
    | idle =>
      rw [hs] at hstage
      rw [StageInv, writesOf_append hle]
      exact hstage
    | makingRoom allowDelay force =>
      rw [hs] at hstage
      rw [StageInv, writesOf_append hle]
      exact ⟨by omega, hstage.2⟩
    | logging updates group own | inserting updates group own =>
      rw [hs] at hstage
      rw [StageInv, writesOf_append hle]
      exact ⟨hstage.1.mono a, hstage.2⟩
    | ending status lastSequence group =>
      rw [hs] at hstage
      obtain ⟨hok, hgroup, hlast, hcontents⟩ := hstage
      rw [StageInv, writesOf_append hgroup, List.take_append_of_le_length hgroup]
      exact ⟨hok, by omega, hlast, hcontents⟩

theorem Inv.waiting (h : Inv p userCompare asked n db) {w : Writer} {rest : List Writer} (hw : db.writers = w :: rest) :
    ∃ us others, asked.drop n = (w, us) :: others := by
  have hwriters := h.writers
  rw [hw] at hwriters
  cases hdrop : asked.drop n with
  | nil =>
    rw [hdrop] at hwriters
    cases hwriters
  | cons a others =>
    obtain ⟨w', us⟩ := a
    rw [hdrop, List.map_cons] at hwriters
    obtain ⟨rfl, -⟩ := List.cons.inj hwriters
    exact ⟨us, others, rfl⟩

theorem Inv.start (h : Inv p userCompare asked n db) (hidle : db.stage = .idle) {w : Writer} {rest : List Writer}
    (hw : db.writers = w :: rest) (allowDelay force : Bool) :
    Inv p userCompare asked n { db with stage := .makingRoom allowDelay force } := by
  obtain ⟨us, others, hdrop⟩ := h.waiting hw
  have hlt : n < asked.length := by
    have hlen := congrArg List.length hdrop
    rw [List.length_drop, List.length_cons] at hlen
    omega
  have hstage := h.stage
  rw [hidle] at hstage
  have htmp : db.tmpBatch = clear := h.tmpBatch (by rw [hidle]; rfl)
  exact ⟨h.le, h.asks, h.room, h.writers, h.answers, h.lastSequence, h.log, fun _ => htmp, h.prevLogNumber, hlt, hstage⟩

theorem sequence_lt {seq : Nat} (h : seq ≤ maxSequenceNumber) : seq + 1 < 18446744073709551616 := by
  rw [maxSequenceNumber] at h
  omega

theorem updatesOf_take_le (asked : List (Writer × List Update)) (n : Nat) :
    (updatesOf (asked.take n)).length ≤ (updatesOf asked).length := by
  have happend := updatesOf_append (asked.take n) (asked.drop n)
  rw [List.take_append_drop] at happend
  rw [happend, List.length_append]
  exact Nat.le_add_right ..

theorem Inv.lead (h : Inv p userCompare asked n db) {allowDelay force : Bool}
    (hstage : db.stage = .makingRoom allowDelay force) : ∃ db', lead db = .ok db' ∧ Inv p userCompare asked n db' := by
  have hat := h.stage
  rw [hstage] at hat
  obtain ⟨hlt, hcontents⟩ := hat
  obtain ⟨⟨w, us⟩, others, hdrop⟩ : ∃ a others, asked.drop n = a :: others := ⟨_, _, List.drop_eq_getElem_cons hlt⟩
  have hwriters : db.writers = w :: others.map Prod.fst := by rw [h.writers, hdrop, List.map_cons]
  have hasks : ∀ a ∈ asked.drop n, Asks p a := fun a ha => h.asks a (List.mem_of_mem_drop ha)
  have htmp : db.tmpBatch = clear := h.tmpBatch (by rw [hstage]; rfl)
  unfold WriteQueue.lead
  rw [hwriters]
  simp only
  cases hbatch : w.batch with
  | none =>
    have hnone := hasks _ (hdrop ▸ List.mem_cons_self ..)
    simp only [Asks, hbatch] at hnone
    have hsame : updatesOf (asked.take (n + 1)) = updatesOf (asked.take n) := by
      rw [updatesOf_take_add, hdrop, List.take_succ_cons, updatesOf_cons, hnone, List.take_zero]
      exact List.append_nil _
    refine ⟨_, rfl, h.le, h.asks, h.room, hwriters ▸ h.writers, h.answers, h.lastSequence, h.log, fun _ => htmp,
      h.prevLogNumber, rfl, hlt, ?_, ?_⟩
    · rw [hsame]
      exact h.lastSequence
    · rw [writesOf, hsame]
      exact hcontents
  | some batch =>
    obtain ⟨result, k, own, hbuild, hk, seq, hrep⟩ := buildBatchGroup_spec hasks hdrop hbatch
    rw [← h.writers, hwriters, ← htmp] at hbuild
    have hroom := h.room
    have hle := updatesOf_take_le asked n
    rw [List.length_drop] at hk
    have hgrouped : Grouped asked n (setSequence result (db.lastSequence + 1)) k := by
      refine ⟨by omega, ?_⟩
      rw [h.lastSequence]
      exact hrep.setSequence (sequence_lt (hle.trans hroom))
    exact ⟨{ db with
        writers := w :: others.map Prod.fst
        tmpBatch := if own then db.tmpBatch else setSequence result (db.lastSequence + 1)
        stage := .logging (setSequence result (db.lastSequence + 1)) k own },
      by rw [hbuild, ok_bind], h.le, h.asks, h.room, hwriters ▸ h.writers, h.answers, h.lastSequence, h.log,
      fun hown => (if_pos hown).trans htmp, h.prevLogNumber, hgrouped, hcontents⟩

theorem Inv.makeRoom (h : Inv p userCompare asked n db) {allowDelay force : Bool}
    (hstage : db.stage = .makingRoom allowDelay force) (level0 usage bufferSize : Nat) :
    ∃ db', makeRoom db allowDelay force level0 usage bufferSize = .ok db' ∧ Inv p userCompare asked n db' := by
  have hat := h.stage
  rw [hstage] at hat
  obtain ⟨hlt, hcontents⟩ := hat
  have htmp : db.tmpBatch = clear := h.tmpBatch (by rw [hstage]; rfl)
  unfold WriteQueue.makeRoom
  split
  · exact ⟨_, rfl, h.le, h.asks, h.room, h.writers, h.answers, h.lastSequence, h.log, fun _ => htmp, h.prevLogNumber,
      hlt, hcontents⟩
  split
  · exact h.lead hstage
  split
  · exact ⟨db, rfl, h⟩
  split
  · exact ⟨db, rfl, h⟩
  · rename_i himm _
    obtain ⟨older, newest, holder, hnewest, hws⟩ := hcontents
    have hnone : db.imm = none := by
      cases himm' : db.imm with
      | none => rfl
      | some g => exact absurd (by rw [himm']; rfl) himm
    have holder' : List.Forall₂ (Holds p userCompare) db.files older := by
      rw [olderTables, hnone] at holder
      exact List.append_nil db.files ▸ holder
    rw [if_pos h.prevLogNumber]
    refine ⟨_, rfl, h.le, h.asks, h.room, h.writers, h.answers, h.lastSequence, Nat.zero_le _, fun _ => htmp,
      h.prevLogNumber, hlt, older ++ [newest], [], ?_, newMemTable_holds, ?_⟩
    · exact List.rel_append holder' (.cons hnewest .nil)
    · rw [List.flatten_append, List.flatten_singleton, List.append_nil]
      exact hws

theorem Inv.log_step (h : Inv p userCompare asked n db) {updates : List Byte} {group : Nat} {own : Bool}
    (hstage : db.stage = .logging updates group own) :
    ∃ log, LogFormat.addRecord db.current.log updates = .ok log ∧
      Inv p userCompare asked n { db with current := ⟨log, db.current.mem⟩, stage := .inserting updates group own } := by
  obtain ⟨fs, offset, hadd, hplaced, -, -⟩ := LogFragments.addRecord_spec h.log updates
  have hat := h.stage
  rw [hstage] at hat
  have htmp := h.tmpBatch
  rw [hstage] at htmp
  exact ⟨_, hadd, h.le, h.asks, h.room, h.writers, h.answers, h.lastSequence, hplaced.offset_le h.log, htmp,
    h.prevLogNumber, hat.1, hat.2⟩

theorem Inv.keys (h : Inv p userCompare asked n db) (as : List (Writer × List Update)) (has : ∀ a ∈ as, a ∈ asked) :
    ∀ u ∈ updatesOf as, p u.key := by
  intro u hu
  obtain ⟨us, hus, hu⟩ := List.mem_flatten.mp hu
  obtain ⟨a, ha, rfl⟩ := List.mem_map.mp hus
  have hasks := h.asks a (has a ha)
  cases hbatch : a.1.batch with
  | none =>
    simp only [Asks, hbatch] at hasks
    rw [hasks] at hu
    cases hu
  | some batch =>
    simp only [Asks, hbatch] at hasks
    exact hasks.2 u hu

theorem Inv.insert_step (ho : Orders p userCompare) (h : Inv p userCompare asked n db) {updates : List Byte} {group : Nat}
    {own : Bool} (hstage : db.stage = .inserting updates group own) :
    ∃ status mem, insertInto userCompare updates db.current.mem = .ok (status, mem) ∧
      Inv p userCompare asked n { db with
        current := ⟨db.current.log, mem⟩
        stage := .ending status (nextSequence db.lastSequence updates) group
        tmpBatch := if own then db.tmpBatch else clear } := by
  have hat := h.stage
  rw [hstage] at hat
  obtain ⟨⟨hgroup, hrep⟩, older, newest, holder, hnewest, hws⟩ := hat
  have hroom := h.room
  have htotal := updatesOf_take_le asked (n + group)
  have hsplit : updatesOf (asked.take (n + group)) = updatesOf (asked.take n) ++ updatesOf ((asked.drop n).take group) :=
    updatesOf_take_add n group
  rw [hsplit, List.length_append] at htotal
  have hbelow : ∀ w ∈ newest, w.sequence < (updatesOf (asked.take n)).length + 1 := by
    intro w hw
    have hin : w ∈ writesOf asked n := hws ▸ List.mem_append_right _ hw
    obtain ⟨u, -, s, -, hlt, rfl⟩ := mem_stamped hin
    rw [write_sequence]
    omega
  have hkeys := h.keys ((asked.drop n).take group) fun a ha => List.mem_of_mem_drop (List.mem_of_mem_take ha)
  obtain ⟨mem, hinsert, hholds⟩ := insertInto_spec ho hnewest hrep hbelow hkeys (by omega)
  have htmp : (if own then db.tmpBatch else clear) = clear := by
    split
    · rename_i hown
      exact h.tmpBatch (by rw [hstage]; exact hown)
    · rfl
  refine ⟨.ok, mem, hinsert, h.le, h.asks, h.room, h.writers, h.answers, h.lastSequence, h.log, fun _ => htmp,
    h.prevLogNumber, rfl, hgroup, ?_, older,
    newest ++ stamped ((updatesOf (asked.take n)).length + 1) (updatesOf ((asked.drop n).take group)), holder, hholds, ?_⟩
  · rw [maxSequenceNumber] at hroom
    rw [h.lastSequence, nextSequence, hrep.count_eq, hsplit, List.length_append]
    omega
  · rw [writesOf, hsplit, stamped_append, ← writesOf, hws, List.append_assoc, Nat.add_comm 1]

theorem Inv.finish (h : Inv p userCompare asked n db) {status : Status} {lastSequence group : Nat}
    (hstage : db.stage = .ending status lastSequence group) :
    setLastSequence db.lastSequence lastSequence = .ok lastSequence ∧ Inv p userCompare asked (n + group)
      { db with
        lastSequence := lastSequence
        writers := db.writers.drop group
        stage := .idle
        answers := db.answers ++ (db.writers.take group).map fun w => (w.id, status) } := by
  have hat := h.stage
  have htmp : db.tmpBatch = clear := h.tmpBatch (by rw [hstage]; rfl)
  rw [hstage] at hat
  obtain ⟨rfl, hgroup, hlast, hcontents⟩ := hat
  have hle : db.lastSequence ≤ lastSequence := by
    rw [h.lastSequence, hlast, updatesOf_take_add, List.length_append]
    exact Nat.le_add_right ..
  refine ⟨if_pos hle, hgroup, h.asks, h.room, ?_, ?_, hlast, h.log, fun _ => htmp, h.prevLogNumber, hcontents⟩
  · simp only [h.writers, ← List.map_drop, List.drop_drop]
  · simp only [h.writers, h.answers, ← List.map_take, List.map_map, List.take_add, List.map_append]
    rfl

theorem Inv.flush (h : Inv p userCompare asked n db) {g : Generation} (himm : db.imm = some g) :
    Inv p userCompare asked n
      { db with imm := none, files := db.files ++ [g.mem], prevLogNumber := 0, manifest := db.lastSequence } := by
  have hkeep : ∀ {ws}, Contents p userCompare db ws → Contents p userCompare
      { db with imm := none, files := db.files ++ [g.mem], prevLogNumber := 0, manifest := db.lastSequence } ws := by
    rintro ws ⟨older, newest, holder, hnewest, hws⟩
    refine ⟨older, newest, ?_, hnewest, hws⟩
    rw [olderTables, himm] at holder
    rw [olderTables]
    exact (List.append_nil (db.files ++ [g.mem])).symm ▸ holder
  refine ⟨h.le, h.asks, h.room, h.writers, h.answers, h.lastSequence, h.log, h.tmpBatch, rfl, ?_⟩
  have hstage := h.stage
  simp only
  cases hs : db.stage with
  | idle =>
    rw [hs] at hstage
    exact hkeep hstage
  | makingRoom allowDelay force | logging updates group own | inserting updates group own =>
    rw [hs] at hstage
    exact ⟨hstage.1, hkeep hstage.2⟩
  | ending status lastSequence group =>
    rw [hs] at hstage
    exact ⟨hstage.1, hstage.2.1, hstage.2.2.1, hkeep hstage.2.2.2⟩

theorem Inv.step (ho : Orders p userCompare) (h : Inv p userCompare asked n db) {action : Action}
    (hother : ∀ w, action ≠ .enqueue w) :
    ∃ r, step userCompare db action = .ok r ∧ ∀ db' ∈ r, ∃ n', Inv p userCompare asked n' db' := by
  have hnone : ∃ r, (Except.ok none : Except Fault (Option Db)) = .ok r ∧ ∀ db' ∈ r, ∃ n', Inv p userCompare asked n' db' :=
    ⟨none, rfl, nofun⟩
  have hsome : ∀ {db' : Db} {n' : Nat}, Inv p userCompare asked n' db' →
      ∃ r, (Except.ok (some db') : Except Fault (Option Db)) = .ok r ∧ ∀ db' ∈ r, ∃ n', Inv p userCompare asked n' db' := by
    rintro db' n' h'
    exact ⟨some db', rfl, fun _ hsame => Option.mem_some.mp hsame ▸ ⟨n', h'⟩⟩
  cases action with
  | enqueue w => exact absurd rfl (hother w)
  | start =>
    rw [WriteQueue.step]
    split
    · rename_i w rest hidle hw
      exact hsome (h.start hidle hw w.batch.isSome w.batch.isNone)
    · exact hnone
  | makeRoom level0 usage bufferSize =>
    rw [WriteQueue.step]
    split
    · rename_i allowDelay force hstage
      obtain ⟨db', hroom, h'⟩ := h.makeRoom hstage level0 usage bufferSize
      rw [hroom, ok_bind]
      exact hsome h'
    · exact hnone
  | log =>
    rw [WriteQueue.step]
    split
    · rename_i updates group own hstage
      obtain ⟨log, hadd, h'⟩ := h.log_step hstage
      rw [hadd, ok_bind]
      exact hsome h'
    · exact hnone
  | insert =>
    rw [WriteQueue.step]
    split
    · rename_i updates group own hstage
      obtain ⟨status, mem, hinsert, h'⟩ := h.insert_step ho hstage
      rw [hinsert, ok_bind]
      exact hsome h'
    · exact hnone
  | finish =>
    rw [WriteQueue.step]
    split
    · rename_i status lastSequence group hstage
      obtain ⟨hlast, h'⟩ := h.finish hstage
      rw [hlast, ok_bind]
      exact hsome h'
    · exact hnone
  | flush =>
    rw [WriteQueue.step]
    split
    · rename_i g himm
      exact hsome (h.flush himm)
    · exact hnone

theorem Reachable.inv (ho : Orders p userCompare) (h : Reachable p userCompare asked db) :
    ∃ n, Inv p userCompare asked n db := by
  induction h with
  | new => exact ⟨0, new_inv⟩
  | enqueue _ ha hroom hstep ih =>
    obtain ⟨n, h⟩ := ih
    rw [WriteQueue.step] at hstep
    obtain rfl := Option.some.inj (Except.ok.inj hstep)
    exact ⟨n, h.enqueue ha hroom⟩
  | step _ _ hother hstep ih =>
    obtain ⟨n, h⟩ := ih
    obtain ⟨r, hr, hinv⟩ := h.step ho hother
    obtain rfl := Except.ok.inj (hr.symm.trans hstep)
    exact hinv _ rfl

theorem Reachable.insert (ho : Orders p userCompare) (h : Reachable p userCompare asked db) {updates : List Byte}
    {group : Nat} {own : Bool} (hstage : db.stage = .inserting updates group own) :
    ∃ status mem, Reachable p userCompare asked { db with
      current := ⟨db.current.log, mem⟩
      stage := .ending status (nextSequence db.lastSequence updates) group
      tmpBatch := if own then db.tmpBatch else clear } := by
  obtain ⟨n, hinv⟩ := h.inv ho
  obtain ⟨status, mem, hinsert, -⟩ := hinv.insert_step ho hstage
  refine ⟨status, mem, h.step .insert nofun ?_⟩
  simp only [WriteQueue.step, hstage, hinsert, ok_bind]

theorem Reachable.finish (ho : Orders p userCompare) (h : Reachable p userCompare asked db) {status : Status}
    {lastSequence group : Nat} (hstage : db.stage = .ending status lastSequence group) :
    Reachable p userCompare asked { db with
      lastSequence := lastSequence
      writers := db.writers.drop group
      stage := .idle
      answers := db.answers ++ (db.writers.take group).map fun w => (w.id, status) } := by
  obtain ⟨n, hinv⟩ := h.inv ho
  refine h.step .finish nofun ?_
  simp only [WriteQueue.step, hstage, (hinv.finish hstage).1, ok_bind]

/-- The writers that the one at the front has inserted the batch of. -/
def Stage.inserted : Stage → Nat
  | .ending _ _ group => group
  | _ => 0

theorem Inv.contents (h : Inv p userCompare asked n db) :
    n + db.stage.inserted ≤ asked.length ∧ Contents p userCompare db (writesOf asked (n + db.stage.inserted)) := by
  have hle := h.le
  have hstage := h.stage
  cases hs : db.stage with
  | idle =>
    rw [hs] at hstage
    exact ⟨hle, hstage⟩
  | makingRoom allowDelay force | logging updates group own | inserting updates group own =>
    rw [hs] at hstage
    exact ⟨hle, hstage.2⟩
  | ending status lastSequence group =>
    rw [hs] at hstage
    exact ⟨hstage.2.1, hstage.2.2.2⟩

/-- Whatever happens, the writers are answered in the order in which they have asked, and the updates of their batches are in
the memtables with the sequence numbers from 1 on, those of one generation before those of the next one. -/
theorem writes_served_in_order (ho : Orders p userCompare) (h : Reachable p userCompare asked db) :
    (∀ action, (∀ w, action ≠ .enqueue w) → ∃ r, step userCompare db action = .ok r) ∧
      ∃ n, n + db.stage.inserted ≤ asked.length ∧ db.writers = (asked.drop n).map Prod.fst ∧
        db.answers = (asked.take n).map (fun a => (a.1.id, Status.ok)) ∧
        db.lastSequence = (updatesOf (asked.take n)).length ∧
        Contents p userCompare db (stamped 1 (updatesOf (asked.take (n + db.stage.inserted)))) := by
  obtain ⟨n, hinv⟩ := h.inv ho
  refine ⟨fun action hother => ?_, n, hinv.contents.1, hinv.writers, hinv.answers, hinv.lastSequence, hinv.contents.2⟩
  obtain ⟨r, hr, -⟩ := hinv.step ho hother
  exact ⟨r, hr⟩

def twoAsked : List (Writer × List Update) :=
  [(⟨3, some (single (.put [5] [1])), false⟩, [.put [5] [1]]), (⟨4, some (single (.delete [5])), false⟩, [.delete [5]])]

theorem put_asks (id : Nat) : Asks (fun _ => True) (⟨id, some (single (.put [5] [1])), false⟩, [.put [5] [1]]) :=
  ⟨⟨0, single_represents ⟨by decide, by decide⟩⟩, fun _ _ => trivial⟩

theorem delete_asks (id : Nat) : Asks (fun _ => True) (⟨id, some (single (.delete [5])), false⟩, [.delete [5]]) :=
  ⟨⟨0, single_represents (by decide : (1 : Nat) + 8 < 4294967296)⟩, fun _ _ => trivial⟩

theorem two_inserted : ∃ db, Reachable (fun _ => True) KeySeparators.sliceCompare twoAsked db ∧ db.stage = .idle ∧
    db.writers = [] ∧ db.imm = none ∧ db.files = [] ∧ db.prevLogNumber = 0 ∧ db.current.log.dest.length = 27 := by
  have ho := KeySeparators.sliceCompare_orders
  have hnew : Reachable (fun _ => True) KeySeparators.sliceCompare [] Db.new := .new
  have hasked : Reachable _ _ twoAsked _ :=
    (hnew.enqueue (put_asks 3) (by decide) rfl).enqueue (delete_asks 4) (by decide) rfl
  have hlogged := ((hasked.step .start nofun rfl).step (.makeRoom 0 0 4096) nofun rfl).step .log nofun rfl
  obtain ⟨status, mem, hinserted⟩ := hlogged.insert ho rfl
  exact ⟨_, hinserted.finish ho rfl, rfl, rfl, rfl, rfl, rfl, rfl⟩

/-- A third writer has the memtable of the first two become a file. -/
theorem writes_served_in_order_together :
    ∃ db, Reachable (fun _ => True) KeySeparators.sliceCompare (twoAsked ++ [(⟨7, none, false⟩, [])]) db ∧
      db.files.length = 1 ∧ db.answers = [(3, .ok), (4, .ok), (7, .ok)] ∧ db.lastSequence = 2 ∧
      Contents (fun _ => True) KeySeparators.sliceCompare db (stamped 1 [.put [5] [1], .delete [5]]) := by
  have ho := KeySeparators.sliceCompare_orders
  obtain ⟨db, hdb, hidle, hwriters, himm, hfiles, hprev, -⟩ := two_inserted
  have hasks : Asks (fun _ => True) (⟨7, none, false⟩, []) := rfl
  have hasked := hdb.enqueue hasks (by decide) rfl
  obtain ⟨current, imm, files, lastSequence, writers, stage, answers, tmpBatch, prevLogNumber, manifest⟩ := db
  subst hidle hwriters himm hfiles hprev
  have hfull := ((hasked.step .start nofun rfl).step (.makeRoom 0 0 4096) nofun rfl).step (.makeRoom 0 0 4096) nofun rfl
  have hflushed := (hfull.finish ho rfl).step .flush nofun rfl
  obtain ⟨-, n, hle, hqueue, hanswers, hlast, hcontents⟩ := writes_served_in_order ho hflushed
  obtain rfl : n = 3 := Nat.le_antisymm hle (List.drop_eq_nil_iff.mp (List.map_eq_nil_iff.mp hqueue.symm))
  exact ⟨_, hflushed, rfl, hanswers, hlast, hcontents⟩

end Runs

end RecordStore.WriteQueue
