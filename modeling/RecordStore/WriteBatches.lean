import RecordStore.Int32
import RecordStore.MemTables

namespace RecordStore.WriteBatches

open RecordStore.CFile RecordStore.Outcome RecordStore.Coding RecordStore.Int32 RecordStore.ThreeWay RecordStore.PrefixCode
open RecordStore.DbFormat RecordStore.MemTables

inductive Status where
  | ok
  | corruption (message : String)
  deriving DecidableEq

def kHeader : Nat := 12

section Definitions

def count (rep : List Byte) : Int := toInt32 (decodeFixed32 (rep.drop 8))

def setCount (rep : List Byte) (n : Int) : List Byte :=
  rep.take 8 ++ (encodeFixed32 (n % 4294967296).toNat ++ rep.drop 12)

def sequenceOf (rep : List Byte) : Nat := decodeFixed64 rep

def setSequence (rep : List Byte) (seq : Nat) : List Byte := encodeFixed64 seq ++ rep.drop 8

def clear : List Byte := List.replicate kHeader 0

def put (rep key value : List Byte) : List Byte :=
  putLengthPrefixedSlice (putLengthPrefixedSlice (setCount rep (count rep + 1) ++ [1]) key) value

def delete (rep key : List Byte) : List Byte := putLengthPrefixedSlice (setCount rep (count rep + 1) ++ [0]) key

def append (dst src : List Byte) : Except Fault (List Byte) :=
  let dst := setCount dst (count dst + count src)
  if kHeader ≤ src.length then .ok (dst ++ src.drop kHeader) else .error .assertFailed

structure Handler (H : Type) where
  put : List Byte → List Byte → H → Except Fault H
  delete : List Byte → H → Except Fault H

variable {H : Type} (handler : Handler H)

/-- The loop of `Iterate`: what is wrong with the batch, if anything is, what has been found and the handler then. -/
def iterateLoop : Nat → List Byte → Nat → H → Except Fault (Option String × Nat × H)
  | _, [], found, h => .ok (none, found, h)
  | 0, _ :: _, _, _ => .error .outOfFuel
  | fuel + 1, tag :: input, found, h =>
    if tag = 1 then
      match getLengthPrefixedSlice input with
      | none => .ok (some "bad WriteBatch Put", found + 1, h)
      | some (key, input) =>
        match getLengthPrefixedSlice input with
        | none => .ok (some "bad WriteBatch Put", found + 1, h)
        | some (value, input) => do
          let h ← handler.put key value h
          iterateLoop fuel input (found + 1) h
    else if tag = 0 then
      match getLengthPrefixedSlice input with
      | none => .ok (some "bad WriteBatch Delete", found + 1, h)
      | some (key, input) => do
        let h ← handler.delete key h
        iterateLoop fuel input (found + 1) h
    else .ok (some "unknown WriteBatch tag", found + 1, h)

/-- Every round of the loop takes a byte at least. -/
def iterate (rep : List Byte) (h : H) : Except Fault (Status × H) :=
  if rep.length < kHeader then .ok (.corruption "malformed WriteBatch (too small)", h)
  else do
    let (failure, found, h) ← iterateLoop handler rep.length (rep.drop kHeader) 0 h
    match failure with
    | some message => .ok (.corruption message, h)
    | none => if (found : Int) ≠ count rep then .ok (.corruption "WriteBatch has wrong count", h) else .ok (.ok, h)

structure Inserter where
  sequence : Nat
  mem : MemTable

variable (userCompare : List Byte → List Byte → Int)

def memTableInserter : Handler Inserter where
  put key value inserter := do
    let mem ← add userCompare inserter.mem inserter.sequence .value key value
    .ok ⟨inserter.sequence + 1, mem⟩
  delete key inserter := do
    let mem ← add userCompare inserter.mem inserter.sequence .deletion key []
    .ok ⟨inserter.sequence + 1, mem⟩

def insertInto (rep : List Byte) (mem : MemTable) : Except Fault (Status × MemTable) := do
  let (status, inserter) ← iterate (memTableInserter userCompare) rep ⟨sequenceOf rep, mem⟩
  .ok (status, inserter.mem)

end Definitions

inductive Update where
  | put (key value : List Byte)
  | delete (key : List Byte)
  deriving DecidableEq

def Update.key : Update → List Byte
  | .put key _ => key
  | .delete key => key

def Update.Valid : Update → Prop
  | .put key value => key.length + 8 < 4294967296 ∧ value.length < 4294967296
  | .delete key => key.length + 8 < 4294967296

def Update.encode : Update → List Byte
  | .put key value => 1 :: (lengthPrefixed.encode key ++ lengthPrefixed.encode value)
  | .delete key => 0 :: lengthPrefixed.encode key

def Handler.handle {H : Type} (handler : Handler H) (h : H) : Update → Except Fault H
  | .put key value => handler.put key value h
  | .delete key => handler.delete key h

/-- A batch that holds these updates. -/
structure Represents (rep : List Byte) (seq : Nat) (updates : List Update) : Prop where
  rep_eq : rep = encodeFixed64 seq ++ (encodeFixed32 updates.length ++ (updates.map Update.encode).flatten)
  sequence : seq < 18446744073709551616
  count : updates.length < 2147483648
  valid : ∀ u ∈ updates, u.Valid

section Represents

variable {rep : List Byte} {seq : Nat} {updates : List Update}

theorem clear_represents : Represents clear 0 [] := ⟨by decide, by decide, by decide, fun u hu => absurd hu List.not_mem_nil⟩

theorem Represents.drop_eight (h : Represents rep seq updates) :
    rep.drop 8 = encodeFixed32 updates.length ++ (updates.map Update.encode).flatten := by
  rw [h.rep_eq]
  exact List.drop_left' (encodeFixed_length 8 seq)

theorem Represents.drop_header (h : Represents rep seq updates) :
    rep.drop kHeader = (updates.map Update.encode).flatten := by
  have hdrop : rep.drop kHeader = (rep.drop 8).drop 4 := by rw [List.drop_drop]; rfl
  rw [hdrop, h.drop_eight]
  exact List.drop_left' (encodeFixed_length 4 _)

theorem Represents.count_eq (h : Represents rep seq updates) : WriteBatches.count rep = updates.length := by
  have hcount := h.count
  rw [WriteBatches.count, h.drop_eight, decodeFixed32_encodeFixed32 (by omega)]
  unfold toInt32
  omega

theorem Represents.sequenceOf_eq (h : Represents rep seq updates) : sequenceOf rep = seq := by
  rw [sequenceOf, h.rep_eq, decodeFixed64_encodeFixed64 h.sequence]

theorem Represents.length (h : Represents rep seq updates) : kHeader ≤ rep.length := by
  rw [h.rep_eq, List.length_append, List.length_append, encodeFixed64, encodeFixed_length, encodeFixed32, encodeFixed_length]
  simp only [kHeader]
  omega

theorem Represents.setCount_append (h : Represents rep seq updates) (more : List Update)
    (hcount : updates.length + more.length < 2147483648) (hmore : ∀ u ∈ more, u.Valid) :
    Represents (setCount rep ((updates.length : Int) + more.length) ++ (more.map Update.encode).flatten) seq
      (updates ++ more) := by
  have htake : rep.take 8 = encodeFixed64 seq := by
    rw [h.rep_eq]
    exact List.take_left' (encodeFixed_length 8 seq)
  have hn : (((updates.length : Int) + more.length) % 4294967296).toNat = (updates ++ more).length := by
    rw [List.length_append]
    omega
  refine ⟨?_, h.sequence, by rw [List.length_append]; exact hcount, fun u hu => ?_⟩
  · rw [setCount, htake, hn, show rep.drop 12 = _ from h.drop_header, List.map_append, List.flatten_append]
    simp only [List.append_assoc]
  · exact (List.mem_append.mp hu).elim (h.valid u) (hmore u)

theorem Represents.put (h : Represents rep seq updates) (hcount : updates.length + 1 < 2147483648) {key value : List Byte}
    (hvalid : (Update.put key value).Valid) :
    Represents (WriteBatches.put rep key value) seq (updates ++ [.put key value]) := by
  have hset := h.setCount_append [.put key value] hcount fun u hu => List.mem_singleton.mp hu ▸ hvalid
  have heq : WriteBatches.put rep key value =
      setCount rep ((updates.length : Int) + 1) ++ ([Update.put key value].map Update.encode).flatten := by
    rw [WriteBatches.put, h.count_eq]
    simp [putLengthPrefixedSlice, putVarint32, Update.encode, lengthPrefixed]
  rw [heq]
  exact hset

theorem Represents.delete (h : Represents rep seq updates) (hcount : updates.length + 1 < 2147483648) {key : List Byte}
    (hvalid : (Update.delete key).Valid) : Represents (WriteBatches.delete rep key) seq (updates ++ [.delete key]) := by
  have hset := h.setCount_append [.delete key] hcount fun u hu => List.mem_singleton.mp hu ▸ hvalid
  have heq : WriteBatches.delete rep key =
      setCount rep ((updates.length : Int) + 1) ++ ([Update.delete key].map Update.encode).flatten := by
    rw [WriteBatches.delete, h.count_eq]
    simp [putLengthPrefixedSlice, putVarint32, Update.encode, lengthPrefixed]
  rw [heq]
  exact hset

theorem Represents.append (h : Represents rep seq updates) {src : List Byte} {seq' : Nat} {more : List Update}
    (hsrc : Represents src seq' more) (hcount : updates.length + more.length < 2147483648) :
    ∃ rep', WriteBatches.append rep src = .ok rep' ∧ Represents rep' seq (updates ++ more) := by
  refine ⟨_, ?_, h.setCount_append more hcount hsrc.valid⟩
  rw [WriteBatches.append, h.count_eq, hsrc.count_eq]
  simp only [if_pos hsrc.length, hsrc.drop_header]

theorem Represents.setSequence (h : Represents rep seq updates) {seq' : Nat} (hseq : seq' < 18446744073709551616) :
    Represents (WriteBatches.setSequence rep seq') seq' updates :=
  ⟨by rw [WriteBatches.setSequence, h.drop_eight], hseq, h.count, h.valid⟩

end Represents

section Iterate

variable {H : Type} {handler : Handler H}

theorem read_slice {value : List Byte} (h : value.length < 4294967296) (rest : List Byte) :
    getLengthPrefixedSlice (lengthPrefixed.encode value ++ rest) = some (value, rest) :=
  lengthPrefixed_lawful.read value h rest

theorem iterateLoop_encoded {updates : List Update} (hvalid : ∀ u ∈ updates, u.Valid) {fuel : Nat}
    (hfuel : ((updates.map Update.encode).flatten).length ≤ fuel) (found : Nat) (h : H) :
    iterateLoop handler fuel (updates.map Update.encode).flatten found h =
      (updates.foldlM handler.handle h).map fun h => (none, found + updates.length, h) := by
  induction updates generalizing fuel found h with
  | nil =>
    cases fuel <;> rfl
  | cons u updates ih =>
    have hu := hvalid u (List.mem_cons_self ..)
    have hrest : ∀ u' ∈ updates, u'.Valid := fun u' hu' => hvalid u' (List.mem_cons_of_mem _ hu')
    rw [List.map_cons, List.flatten_cons] at hfuel ⊢
    rw [List.length_append] at hfuel
    have hpos : 0 < u.encode.length := by cases u <;> exact Nat.succ_pos _
    obtain ⟨fuel, rfl⟩ : ∃ n, fuel = n + 1 := ⟨fuel - 1, by omega⟩
    -- the rest of the loop after the handler
    have hgo : ∀ r : Except Fault H,
        (r >>= fun h => iterateLoop handler fuel (updates.map Update.encode).flatten (found + 1) h) =
          (r >>= fun h => updates.foldlM handler.handle h).map
            fun h => (none, found + (u :: updates).length, h) := by
      intro r
      cases r with
      | error e => rfl
      | ok h =>
        have hcount : found + (u :: updates).length = found + 1 + updates.length := by rw [List.length_cons]; omega
        rw [hcount]
        exact ih hrest (by omega) (found + 1) h
    cases u with
    | put key value =>
      have hkey : key.length < 4294967296 := by have := hu.1; omega
      simp only [Update.encode, List.cons_append, List.append_assoc, iterateLoop, if_true, read_slice hkey, read_slice hu.2]
      exact hgo (handler.put key value h)
    | delete key =>
      have hkey : key.length < 4294967296 := by have : key.length + 8 < 4294967296 := hu; omega
      have htag : ¬ (0 : Byte) = 1 := by decide
      simp only [Update.encode, List.cons_append, iterateLoop, if_neg htag, if_true, read_slice hkey]
      exact hgo (handler.delete key h)

theorem Represents.iterate {rep : List Byte} {seq : Nat} {updates : List Update} (hrep : Represents rep seq updates)
    (h : H) :
    WriteBatches.iterate handler rep h =
      (updates.foldlM handler.handle h).map fun h => (.ok, h) := by
  have hfuel : ((updates.map Update.encode).flatten).length ≤ rep.length := by
    rw [← hrep.drop_header, List.length_drop]
    omega
  rw [WriteBatches.iterate, if_neg (Nat.not_lt.mpr hrep.length), hrep.drop_header, iterateLoop_encoded hrep.valid hfuel,
    Nat.zero_add]
  cases updates.foldlM handler.handle h with
  | error e => rfl
  | ok h =>
    simp only [Except.map, ok_bind, hrep.count_eq]
    simp

theorem iterateLoop_rest {fuel found : Nat} {input : List Byte} {u : Update} {failure : Option String} {found' : Nat}
    {more : List Update}
    (hloop : ∀ h : H, iterateLoop handler fuel input found h =
      (more.foldlM handler.handle h).map fun h => (failure, found', h)) (h : H) :
    (handler.handle h u >>= fun h => iterateLoop handler fuel input found h) =
      ((u :: more).foldlM handler.handle h).map fun h => (failure, found', h) := by
  rw [List.foldlM_cons]
  cases handler.handle h u with
  | error e => rfl
  | ok h => exact hloop h

/-- What the loop hands on, what it finds and what it says depend on the bytes only. -/
theorem iterateLoop_updates (fuel : Nat) {input : List Byte} (hfuel : input.length ≤ fuel) (found : Nat) :
    ∃ (failure : Option String) (found' : Nat) (more : List Update),
      ∀ {H : Type} (handler : Handler H) (h : H),
        iterateLoop handler fuel input found h =
          (more.foldlM handler.handle h).map fun h => (failure, found', h) := by
  induction fuel generalizing input found with
  | zero =>
    obtain rfl : input = [] := List.length_eq_zero_iff.mp (Nat.le_zero.mp hfuel)
    exact ⟨none, found, [], fun _ _ => rfl⟩
  | succ fuel ih =>
    cases input with
    | nil => exact ⟨none, found, [], fun _ _ => rfl⟩
    | cons tag input =>
      have hinput : input.length ≤ fuel := Nat.le_of_succ_le_succ hfuel
      -- the loop stops here, whoever the handler is
      have hstop : ∀ message : String, ∃ (failure : Option String) (found' : Nat) (more : List Update),
          ∀ {H : Type} (handler : Handler H)
            (h : H), (Except.ok (some message, found + 1, h) : Except Fault _) =
              (more.foldlM handler.handle h).map fun h => (failure, found', h) :=
        fun message => ⟨some message, found + 1, [], fun _ _ => rfl⟩
      simp only [iterateLoop]
      by_cases hput : tag = 1
      · simp only [if_pos hput]
        cases hkey : getLengthPrefixedSlice input with
        | none => exact hstop _
        | some found₁ =>
          obtain ⟨key, input₁⟩ := found₁
          have h₁ := getLengthPrefixedSlice_length hkey
          simp only
          cases hvalue : getLengthPrefixedSlice input₁ with
          | none => exact hstop _
          | some found₂ =>
            obtain ⟨value, input₂⟩ := found₂
            have h₂ := getLengthPrefixedSlice_length hvalue
            obtain ⟨failure, found', more, hmore⟩ := ih (show input₂.length ≤ fuel by omega) (found + 1)
            exact ⟨failure, found', .put key value :: more, fun handler h =>
              iterateLoop_rest (u := .put key value) (hmore handler) h⟩
      · simp only [if_neg hput]
        by_cases hdelete : tag = 0
        · simp only [if_pos hdelete]
          cases hkey : getLengthPrefixedSlice input with
          | none => exact hstop _
          | some found₁ =>
            obtain ⟨key, input₁⟩ := found₁
            have h₁ := getLengthPrefixedSlice_length hkey
            obtain ⟨failure, found', more, hmore⟩ := ih (show input₁.length ≤ fuel by omega) (found + 1)
            exact ⟨failure, found', .delete key :: more, fun handler h =>
              iterateLoop_rest (u := .delete key) (hmore handler) h⟩
        · simp only [if_neg hdelete]
          exact hstop _

/-- Whatever bytes a batch is made of, every handler gets the same updates and the outcome is the same for all. -/
theorem iterate_updates (rep : List Byte) :
    ∃ (status : Status) (updates : List Update),
      ∀ {H : Type} (handler : Handler H) (h : H),
        WriteBatches.iterate handler rep h =
          (updates.foldlM handler.handle h).map fun h => (status, h) := by
  by_cases hsmall : rep.length < kHeader
  · refine ⟨.corruption "malformed WriteBatch (too small)", [], fun _ h => ?_⟩
    rw [WriteBatches.iterate, if_pos hsmall]
    rfl
  · have hfuel : (rep.drop kHeader).length ≤ rep.length := by
      rw [List.length_drop]
      omega
    obtain ⟨failure, found, updates, hloop⟩ := iterateLoop_updates rep.length hfuel 0
    refine ⟨match failure with
      | some message => .corruption message
      | none => if (found : Int) ≠ WriteBatches.count rep then .corruption "WriteBatch has wrong count" else .ok,
      updates, fun handler h => ?_⟩
    rw [WriteBatches.iterate, if_neg hsmall, hloop]
    cases updates.foldlM handler.handle h with
    | error e => rfl
    | ok h =>
      simp only [Except.map, ok_bind]
      cases failure with
      | some message => rfl
      | none =>
        simp only
        split <;> rfl

end Iterate

section Programs

/-- How a program makes a batch. -/
inductive Program where
  | empty
  | put (program : Program) (key value : List Byte)
  | delete (program : Program) (key : List Byte)
  | append (program source : Program)

def Program.build : Program → Except Fault (List Byte)
  | .empty => .ok clear
  | .put program key value => do
    let rep ← program.build
    .ok (WriteBatches.put rep key value)
  | .delete program key => do
    let rep ← program.build
    .ok (WriteBatches.delete rep key)
  | .append program source => do
    let rep ← program.build
    let src ← source.build
    WriteBatches.append rep src

def Program.updates : Program → List Update
  | .empty => []
  | .put program key value => program.updates ++ [.put key value]
  | .delete program key => program.updates ++ [.delete key]
  | .append program source => program.updates ++ source.updates

theorem Program.build_represents (program : Program) (hcount : program.updates.length < 2147483648)
    (hvalid : ∀ u ∈ program.updates, u.Valid) : ∃ rep, program.build = .ok rep ∧ Represents rep 0 program.updates := by
  induction program with
  | empty => exact ⟨clear, rfl, clear_represents⟩
  | put program key value ih =>
    rw [updates, List.length_append] at hcount
    obtain ⟨rep, hbuild, hrep⟩ := ih (by omega) fun u hu => hvalid u (List.mem_append_left _ hu)
    refine ⟨_, by rw [build, hbuild, ok_bind], hrep.put hcount ?_⟩
    exact hvalid _ (List.mem_append_right _ (List.mem_singleton_self _))
  | delete program key ih =>
    rw [updates, List.length_append] at hcount
    obtain ⟨rep, hbuild, hrep⟩ := ih (by omega) fun u hu => hvalid u (List.mem_append_left _ hu)
    refine ⟨_, by rw [build, hbuild, ok_bind], hrep.delete hcount ?_⟩
    exact hvalid _ (List.mem_append_right _ (List.mem_singleton_self _))
  | append program source ih ih' =>
    rw [updates, List.length_append] at hcount
    obtain ⟨rep, hbuild, hrep⟩ := ih (by omega) fun u hu => hvalid u (List.mem_append_left _ hu)
    obtain ⟨src, hsource, hsrc⟩ := ih' (by omega) fun u hu => hvalid u (List.mem_append_right _ hu)
    obtain ⟨rep', happend, hrep'⟩ := hrep.append hsrc hcount
    exact ⟨rep', by rw [build, hbuild, ok_bind, hsource, ok_bind, happend], hrep'⟩

/-- A batch that a program has made and that got its sequence number hands on the updates of the program, to any
handler and in their order, and its count is theirs. -/
theorem batches_replay {program : Program} (hcount : program.updates.length < 2147483648)
    (hvalid : ∀ u ∈ program.updates, u.Valid) {seq : Nat} (hseq : seq < 18446744073709551616) :
    ∃ rep, program.build = .ok rep ∧ count (setSequence rep seq) = program.updates.length ∧
      sequenceOf (setSequence rep seq) = seq ∧
      ∀ {H : Type} (handler : Handler H)
        (h : H), iterate handler (setSequence rep seq) h =
          (program.updates.foldlM handler.handle h).map fun h => (.ok, h) := by
  obtain ⟨rep, hbuild, hrep⟩ := program.build_represents hcount hvalid
  have hset := hrep.setSequence hseq
  exact ⟨rep, hbuild, hset.count_eq, hset.sequenceOf_eq, fun _ h => hset.iterate h⟩

theorem batches_replay_appended :
    ∃ rep, (Program.append (.put .empty [5] [1]) (.delete .empty [5])).build = .ok rep ∧
      count (setSequence rep 7) = 2 ∧ sequenceOf (setSequence rep 7) = 7 ∧
      ∀ {H : Type} (handler : Handler H)
        (h : H), iterate handler (setSequence rep 7) h =
          ([Update.put [5] [1], .delete [5]].foldlM handler.handle h).map fun h => (.ok, h) := by
  have hvalid : ∀ u ∈ [Update.put [5] [1], .delete [5]], u.Valid := by
    intro u hu
    obtain rfl | hu := List.mem_cons.mp hu
    · exact ⟨by decide, by decide⟩
    · obtain rfl := List.mem_singleton.mp hu
      exact (by decide : (1 : Nat) + 8 < 4294967296)
  exact @batches_replay (.append (.put .empty [5] [1]) (.delete .empty [5])) (by decide) hvalid 7 (by decide)

end Programs

section Insert

variable {p : List Byte → Prop} {userCompare : List Byte → List Byte → Int}

def Update.write (seq : Nat) : Update → Write
  | .put key value => ⟨seq, .value, key, value⟩
  | .delete key => ⟨seq, .deletion, key, []⟩

/-- The writes that updates become. -/
def stamped : Nat → List Update → List Write
  | _, [] => []
  | seq, u :: updates => u.write seq :: stamped (seq + 1) updates

theorem write_sequence (seq : Nat) (u : Update) : (u.write seq).sequence = seq := by cases u <;> rfl

theorem stamped_append (seq : Nat) (us us' : List Update) :
    stamped seq (us ++ us') = stamped seq us ++ stamped (seq + us.length) us' := by
  induction us generalizing seq with
  | nil => rfl
  | cons u us ih =>
    rw [List.cons_append, stamped, stamped, ih, List.cons_append, List.length_cons]
    congr 3
    omega

theorem mem_stamped {seq : Nat} {us : List Update} {w : Write} (h : w ∈ stamped seq us) :
    ∃ u ∈ us, ∃ n, seq ≤ n ∧ n < seq + us.length ∧ w = u.write n := by
  induction us generalizing seq with
  | nil => cases h
  | cons u us ih =>
    obtain rfl | h := List.mem_cons.mp h
    · exact ⟨u, List.mem_cons_self .., seq, le_refl _, by rw [List.length_cons]; omega, rfl⟩
    · obtain ⟨u', hu', n, hle, hlt, rfl⟩ := ih h
      exact ⟨u', List.mem_cons_of_mem _ hu', n, by omega, by rw [List.length_cons]; omega, rfl⟩

theorem Update.Valid.write {u : Update} (h : u.Valid) (hp : p u.key) {seq : Nat} (hseq : seq ≤ maxSequenceNumber) :
    (u.write seq).Valid p := by
  cases u with
  | put key value => exact ⟨hseq, h.1, h.2, hp⟩
  | delete key => exact ⟨hseq, h, Nat.zero_lt_succ _, hp⟩

theorem handle_inserter (u : Update) (inserter : Inserter) :
    (memTableInserter userCompare).handle inserter u =
      (add userCompare inserter.mem (u.write inserter.sequence).sequence (u.write inserter.sequence).type
        (u.write inserter.sequence).key (u.write inserter.sequence).value >>= fun mem =>
          .ok ⟨inserter.sequence + 1, mem⟩) := by
  cases u <;> rfl

/-- The inserter adds a write for each update; the writes that are there have smaller sequence numbers. -/
theorem inserter_spec (ho : Orders p userCompare) {mem : MemTable} {ws : List Write} (h : Holds p userCompare mem ws)
    {seq : Nat} (hbelow : ∀ w ∈ ws, w.sequence < seq) {updates : List Update}
    (hvalid : ∀ u ∈ updates, u.Valid ∧ p u.key) (hseq : seq + updates.length ≤ maxSequenceNumber + 1) :
    ∃ mem', updates.foldlM ((memTableInserter userCompare).handle) (Inserter.mk seq mem) =
        .ok ⟨seq + updates.length, mem'⟩ ∧ Holds p userCompare mem' (ws ++ stamped seq updates) := by
  induction updates generalizing mem ws seq with
  | nil => exact ⟨mem, rfl, by rw [stamped, List.append_nil]; exact h⟩
  | cons u updates ih =>
    rw [List.length_cons] at hseq
    obtain ⟨hu, hp⟩ := hvalid u (List.mem_cons_self ..)
    have hnew : ∀ w' ∈ ws, Apart userCompare w' (u.write seq) := by
      intro w' hw' _ heq
      have hlt := hbelow w' hw'
      rw [heq, write_sequence] at hlt
      exact lt_irrefl _ hlt
    obtain ⟨mem₁, hadd, hholds⟩ := add_spec ho h (hu.write hp (by omega)) hnew
    have hbelow' : ∀ w ∈ ws ++ [u.write seq], w.sequence < seq + 1 := by
      intro w hw
      obtain hw | hw := List.mem_append.mp hw
      · exact Nat.lt_succ_of_lt (hbelow w hw)
      · rw [List.mem_singleton.mp hw, write_sequence]
        exact Nat.lt_succ_self seq
    obtain ⟨mem', hfold, hholds'⟩ :=
      ih hholds hbelow' (fun u' hu' => hvalid u' (List.mem_cons_of_mem _ hu')) (by omega)
    refine ⟨mem', ?_, by rwa [List.append_assoc] at hholds'⟩
    rw [List.foldlM_cons, handle_inserter]
    simp only [hadd, ok_bind, List.length_cons]
    rw [hfold, show seq + 1 + updates.length = seq + (updates.length + 1) by omega]

theorem insertInto_spec (ho : Orders p userCompare) {mem : MemTable} {ws : List Write} (h : Holds p userCompare mem ws)
    {rep : List Byte} {seq : Nat} {updates : List Update} (hrep : Represents rep seq updates)
    (hbelow : ∀ w ∈ ws, w.sequence < seq) (hkeys : ∀ u ∈ updates, p u.key)
    (hseq : seq + updates.length ≤ maxSequenceNumber + 1) :
    ∃ mem', insertInto userCompare rep mem = .ok (.ok, mem') ∧ Holds p userCompare mem' (ws ++ stamped seq updates) := by
  obtain ⟨mem', hfold, hholds⟩ := inserter_spec ho h hbelow (fun u hu => ⟨hrep.valid u hu, hkeys u hu⟩) hseq
  refine ⟨mem', ?_, hholds⟩
  rw [insertInto, hrep.sequenceOf_eq, hrep.iterate, hfold]
  rfl

end Insert

end RecordStore.WriteBatches
