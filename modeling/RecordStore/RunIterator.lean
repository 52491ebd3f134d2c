import RecordStore.RecordFile
import RecordStore.Outcome

namespace RecordStore.RunIterator

open RecordStore.Splice RecordStore.CFile RecordStore.RecordFile RecordStore.Outcome

/-- A part of a file of records, counted in records. -/
structure Run where
  start : Int
  length : Int
  deriving DecidableEq

structure Iterator where
  startPos : Int
  runLength : Int
  readBuf : List Byte
  pos : Nat
  bufNo : Nat
  recPerBuf : Nat
  deriving DecidableEq

/-- The constructor. `fresh` is what the memory of `new char[buf_size]` holds. -/
def newRunIterator (recordSize : Nat) (fresh : Nat → Byte) (bufSize : Nat) (run : Run) :
    Except Fault Iterator :=
  let recPerBuf := bufSize / recordSize
  if recPerBuf < 1 then .error .exit
  else .ok ⟨run.start, run.length, (List.range bufSize).map fresh, 0, 0, recPerBuf⟩

def hasNext (it : Iterator) : Bool := decide ((it.pos : Int) < it.runLength)

def refill (recordSize : Nat) (fp : File) (it : Iterator) : Except Fault (Iterator × File) :=
  let offset : Int := (it.startPos + it.bufNo * it.recPerBuf) * recordSize
  if offset < 0 then .error .exit
  else
    let (got, fp) := fread (fseekSet fp offset) (recordSize * it.recPerBuf)
    .ok ({ it with readBuf := splice it.readBuf 0 got, bufNo := it.bufNo + 1 }, fp)

def Iterator.advance (it : Iterator) : Iterator := { it with pos := it.pos + 1 }

/-- The record returned is a pointer into `read_buf`. -/
def next (recordSize : Nat) (fp : File) (it : Iterator) : Except Fault (Iterator × Nat × File) := do
  let (it, fp) ← if it.pos % it.recPerBuf = 0 then refill recordSize fp it else .ok (it, fp)
  .ok (it.advance, it.pos % it.recPerBuf * recordSize, fp)

/-- `it->has_next() ? it->next() : NULL`. -/
def fetch (recordSize : Nat) (fp : File) (it : Iterator) :
    Except Fault (Iterator × Option Nat × File) :=
  if hasNext it then do
    let (it, rec, fp) ← next recordSize fp it
    .ok (it, some rec, fp)
  else .ok (it, none, fp)

/-- The iterator reads `run`, a part of the records `recs` of the file, and has in its
buffer the block of the position before the next. A run without records may start anywhere. -/
structure Reading (rs : Nat) (recs run : List (List Byte)) (it : Iterator) : Prop where
  start : run ≠ [] → 0 ≤ it.startPos
  part : run = slice recs it.startPos.toNat run.length
  length : it.runLength.toNat = run.length
  perBuf : 0 < it.recPerBuf
  room : it.recPerBuf * rs ≤ it.readBuf.length
  filled : it.pos ≤ it.bufNo * it.recPerBuf
  behind : it.bufNo * it.recPerBuf < it.pos + it.recPerBuf
  loaded : ∀ p, p < it.bufNo * it.recPerBuf → it.bufNo * it.recPerBuf ≤ p + it.recPerBuf →
    ∀ r, run[p]? = some r → slice it.readBuf (p % it.recPerBuf * rs) rs = r

variable {rs : Nat} {recs run : List (List Byte)}

theorem newRunIterator_reading (fresh : Nat → Byte) {bufSize : Nat} (part : Run)
    (hbuf : 0 < bufSize / rs) (hstart : run ≠ [] → 0 ≤ part.start) (hlength : part.length.toNat = run.length)
    (hrun : run = slice recs part.start.toNat run.length) :
    ∃ it, newRunIterator rs fresh bufSize part = .ok it ∧ Reading rs recs run it ∧ it.pos = 0 := by
  refine ⟨_, if_neg (Nat.not_lt.mpr hbuf), ?_, rfl⟩
  constructor
  case start => exact hstart
  case part => exact hrun
  case length => exact hlength
  case perBuf => exact hbuf
  case room => simpa using Nat.div_mul_le_self bufSize rs
  case filled => exact Nat.zero_le _
  case behind => simpa using hbuf
  case loaded =>
    intro p hp
    simp at hp

theorem Reading.getElem? {it : Iterator} (h : Reading rs recs run it) {p : Nat} {r : List Byte}
    (hp : run[p]? = some r) : recs[it.startPos.toNat + p]? = some r := by
  have hlt := (List.getElem?_eq_some_iff.mp hp).1
  rw [h.part, getElem?_slice, if_pos hlt] at hp
  exact hp

def refilled (it : Iterator) (got : List Byte) : Iterator :=
  { it with readBuf := splice it.readBuf 0 got, bufNo := it.bufNo + 1 }

theorem refill_eq {it : Iterator} {fp : File} (hu : Uniform rs recs) (hfp : recs.flatten <+: fp.bytes)
    (hstart : 0 ≤ it.startPos) :
    ∃ fp' got, refill rs fp it = .ok (refilled it got, fp') ∧ fp'.bytes = fp.bytes ∧
      (slice recs (it.startPos.toNat + it.bufNo * it.recPerBuf) it.recPerBuf).flatten <+: got ∧
      got.length ≤ it.recPerBuf * rs := by
  have hoff : (it.startPos + it.bufNo * it.recPerBuf) * rs =
      (((it.startPos.toNat + it.bufNo * it.recPerBuf) * rs : Nat) : Int) := by
    push_cast
    rw [Int.toNat_of_nonneg hstart]
  refine ⟨(fread (fseekSet fp ((it.startPos + it.bufNo * it.recPerBuf) * rs)) (rs * it.recPerBuf)).2,
    slice fp.bytes ((it.startPos.toNat + it.bufNo * it.recPerBuf) * rs) (it.recPerBuf * rs), ?_, ?_, ?_, ?_⟩
  · rw [refill, if_neg (by rw [hoff]; omega), hoff, fseekSet_natCast, fread, Nat.mul_comm rs]
    rfl
  · exact fseekSet_bytes fp _
  · obtain ⟨tail, htail⟩ := hfp
    rw [← htail, ← slice_flatten hu]
    exact slice_isPrefix_append _ _ _ _
  · rw [slice_length]
    exact Nat.min_le_left ..

theorem Reading.pos_eq {it : Iterator} (h : Reading rs recs run it) (hpos : it.pos % it.recPerBuf = 0) :
    it.pos = it.bufNo * it.recPerBuf := by
  have hdm := Nat.div_add_mod' it.pos it.recPerBuf
  rw [hpos, Nat.add_zero] at hdm
  have hfilled := h.filled
  have hbehind := h.behind
  rw [← hdm] at hfilled hbehind ⊢
  rw [← Nat.succ_mul] at hbehind
  have hle := Nat.le_of_mul_le_mul_right hfilled h.perBuf
  have hlt := Nat.lt_of_mul_lt_mul_right hbehind
  rw [show it.pos / it.recPerBuf = it.bufNo by omega]

theorem refilled_loaded {it : Iterator} (hu : Uniform rs recs) (h : Reading rs recs run it) {j : Nat}
    (hj : j < it.recPerBuf) {r : List Byte} (hr : run[it.bufNo * it.recPerBuf + j]? = some r) {got : List Byte}
    (hgot : (slice recs (it.startPos.toNat + it.bufNo * it.recPerBuf) it.recPerBuf).flatten <+: got) :
    slice (refilled it got).readBuf (j * rs) rs = r := by
  have hblock : (slice recs (it.startPos.toNat + it.bufNo * it.recPerBuf) it.recPerBuf)[j]? = some r := by
    rw [getElem?_slice, if_pos hj, Nat.add_assoc]
    exact h.getElem? hr
  have hub : Uniform rs (slice recs (it.startPos.toNat + it.bufNo * it.recPerBuf) it.recPerBuf) :=
    fun r hr => hu r (List.mem_of_mem_drop (List.mem_of_mem_take hr))
  have hlen := flatten_length hub
  have hjl := (List.getElem?_eq_some_iff.mp hblock).1
  have hend := Nat.mul_le_mul_right rs (Nat.succ_le_of_lt hjl)
  rw [Nat.succ_mul, ← hlen] at hend
  have hrec := slice_record hub hblock
  have hle := hgot.length_le
  obtain ⟨tail, rfl⟩ := hgot
  apply List.ext_getElem?
  intro i
  rw [← hrec, getElem?_slice, getElem?_slice, refilled, getElem?_splice _ (Nat.zero_le _), Nat.zero_add,
    Nat.sub_zero, if_neg (Nat.not_lt_zero _)]
  by_cases hi : i < rs
  · rw [if_pos hi, if_pos hi, if_pos (by omega), List.getElem?_append_left (by omega)]
  · rw [if_neg hi, if_neg hi]

theorem refilled_reading {it : Iterator} (hu : Uniform rs recs) (h : Reading rs recs run it)
    (hpos : it.pos % it.recPerBuf = 0) {got : List Byte}
    (hgot : (slice recs (it.startPos.toNat + it.bufNo * it.recPerBuf) it.recPerBuf).flatten <+: got)
    (hfit : got.length ≤ it.recPerBuf * rs) :
    Reading rs recs run (refilled it got).advance := by
  have hat := h.pos_eq hpos
  have hperBuf := h.perBuf
  have hlen : got.length ≤ it.readBuf.length := hfit.trans h.room
  constructor
  case start => exact h.start
  case part => exact h.part
  case length => exact h.length
  case perBuf => exact h.perBuf
  case room =>
    show it.recPerBuf * rs ≤ (splice it.readBuf 0 _).length
    rw [splice_length (by omega)]
    exact h.room
  case filled =>
    simp only [Iterator.advance, refilled, Nat.succ_mul]
    omega
  case behind =>
    simp only [Iterator.advance, refilled, Nat.succ_mul]
    omega
  case loaded =>
    intro p hp hlow r hr
    simp only [Iterator.advance, refilled, Nat.succ_mul] at hp hlow
    obtain ⟨j, rfl⟩ := Nat.exists_eq_add_of_le (show it.bufNo * it.recPerBuf ≤ p by omega)
    have hj : j < it.recPerBuf := by omega
    have hmod : (it.bufNo * it.recPerBuf + j) % it.recPerBuf = j := by
      rw [Nat.mul_comm, Nat.mul_add_mod, Nat.mod_eq_of_lt hj]
    show slice _ ((it.bufNo * it.recPerBuf + j) % it.recPerBuf * rs) rs = r
    rw [hmod]
    exact refilled_loaded hu h hj hr hgot

theorem Reading.advance {it : Iterator} (h : Reading rs recs run it) (hpos : it.pos % it.recPerBuf ≠ 0) :
    Reading rs recs run it.advance := by
  have hne : it.pos ≠ it.bufNo * it.recPerBuf := fun he => hpos (he ▸ Nat.mul_mod_left ..)
  have hlt := Nat.lt_of_le_of_ne h.filled hne
  have hbehind := h.behind
  exact { h with filled := hlt, behind := by simp only [Iterator.advance]; omega }

theorem next_spec {it : Iterator} {fp : File} (hu : Uniform rs recs) (hfp : recs.flatten <+: fp.bytes)
    (h : Reading rs recs run it) {r : List Byte} (hr : run[it.pos]? = some r) :
    ∃ it' rec fp', next rs fp it = .ok (it', rec, fp') ∧ fp'.bytes = fp.bytes ∧
      Reading rs recs run it' ∧ it'.pos = it.pos + 1 ∧ slice it'.readBuf rec rs = r := by
  by_cases hpos : it.pos % it.recPerBuf = 0
  · have hne : run ≠ [] := List.ne_nil_of_mem (List.mem_of_getElem? hr)
    obtain ⟨fp', got, heq, hbytes, hgot, hfit⟩ := refill_eq hu hfp (h.start hne)
    have h' := refilled_reading hu h hpos hgot hfit
    refine ⟨_, it.pos % it.recPerBuf * rs, fp', ?_, hbytes, h', rfl, ?_⟩
    · rw [next, if_pos hpos, heq]
      rfl
    · have hbehind := h'.behind
      simp only [Iterator.advance, refilled] at hbehind
      exact h'.loaded it.pos h'.filled (by simp only [Iterator.advance, refilled]; omega) r hr
  · have h' := h.advance hpos
    refine ⟨_, it.pos % it.recPerBuf * rs, fp, ?_, rfl, h', rfl, ?_⟩
    · rw [next, if_neg hpos]
      rfl
    · exact h.loaded it.pos h'.filled h.behind.le r hr

/-- The iterator and the record it last gave stand before `rest`. -/
def Shows (rs : Nat) (recs : List (List Byte)) (c : Iterator × Option Nat) (rest : List (List Byte)) : Prop :=
  ∃ run, Reading rs recs run c.1 ∧
    match c.2 with
    | none => rest = []
    | some rec => rest = slice c.1.readBuf rec rs :: run.drop c.1.pos

theorem fetch_spec {it : Iterator} {fp : File} (hu : Uniform rs recs) (hfp : recs.flatten <+: fp.bytes)
    (h : Reading rs recs run it) :
    ∃ it' rec fp', fetch rs fp it = .ok (it', rec, fp') ∧ fp'.bytes = fp.bytes ∧
      Shows rs recs (it', rec) (run.drop it.pos) := by
  have hlength := h.length
  cases hr : run[it.pos]? with
  | none =>
    have hge := List.getElem?_eq_none_iff.mp hr
    refine ⟨it, none, fp, ?_, rfl, run, h, ?_⟩
    · rw [fetch, if_neg]
      simp only [hasNext, decide_eq_true_eq]
      omega
    · exact List.drop_eq_nil_of_le hge
  | some r =>
    obtain ⟨hlt, hget⟩ := List.getElem?_eq_some_iff.mp hr
    obtain ⟨it', rec, fp', hnext, hbytes, h', hpos, hrec⟩ := next_spec hu hfp h hr
    refine ⟨it', some rec, fp', ?_, hbytes, run, h', ?_⟩
    · rw [fetch, if_pos, hnext, ok_bind]
      simp only [hasNext, decide_eq_true_eq]
      omega
    · show run.drop it.pos = slice it'.readBuf rec rs :: run.drop it'.pos
      rw [hrec, hpos, List.drop_eq_getElem_cons hlt, hget]

end RecordStore.RunIterator
