import RecordStore.LogFormat

namespace RecordStore.LogFragments

open RecordStore.CFile RecordStore.Outcome RecordStore.Coding RecordStore.LogFormat

/-- A part of a record as it stands in the log, behind the zeros that fill up the block before it. -/
structure Fragment where
  pad : Nat
  type : RecordType
  data : List Byte

def Fragment.bytes (f : Fragment) : List Byte := List.replicate f.pad 0 ++ (header f.type f.data ++ f.data)

/-- Where the next header goes when `offset` bytes of a block are written. -/
def headerOffset (offset : Nat) : Nat := if blockSize - offset < headerSize then 0 else offset

structure Fits (offset : Nat) (f : Fragment) : Prop where
  offset_le : offset ≤ blockSize
  pad : f.pad = if blockSize - offset < headerSize then blockSize - offset else 0
  room : headerOffset offset + headerSize + f.data.length ≤ blockSize

/-- Fragments one behind the other, from one offset in a block to another. -/
inductive Placed : Nat → List Fragment → Nat → Prop
  | nil (offset : Nat) : Placed offset [] offset
  | cons {offset offset' : Nat} {f : Fragment} {fs : List Fragment} (hf : Fits offset f)
      (hrest : Placed (headerOffset offset + headerSize + f.data.length) fs offset') : Placed offset (f :: fs) offset'

/-- The types of the fragments of a record; `begins` says whether the first one is there. -/
inductive Chain : Bool → List Fragment → Prop
  | last {begins : Bool} {f : Fragment} (htype : f.type = fragmentType begins true) : Chain begins [f]
  | more {begins : Bool} {f : Fragment} {fs : List Fragment} (htype : f.type = fragmentType begins false)
      (hrest : Chain false fs) : Chain begins (f :: fs)

def payload (fs : List Fragment) : List Byte := (fs.map Fragment.data).flatten

def text (fs : List Fragment) : List Byte := (fs.map Fragment.bytes).flatten

@[simp] theorem payload_cons (f : Fragment) (fs : List Fragment) : payload (f :: fs) = f.data ++ payload fs := rfl

@[simp] theorem text_cons (f : Fragment) (fs : List Fragment) : text (f :: fs) = f.bytes ++ text fs := rfl

theorem header_length (t : RecordType) (data : List Byte) : (header t data).length = headerSize := by
  rw [header, List.length_append, encodeFixed32, encodeFixed_length]
  rfl

theorem Fragment.bytes_length (f : Fragment) : f.bytes.length = f.pad + (headerSize + f.data.length) := by
  rw [Fragment.bytes, List.length_append, List.length_append, List.length_replicate, header_length]

theorem Fits.data_le {offset : Nat} {f : Fragment} (h : Fits offset f) : f.data.length ≤ 0xffff := by
  have hroom := h.room
  unfold blockSize headerSize at hroom
  omega

theorem Placed.offset_le {offset offset' : Nat} {fs : List Fragment} (h : Placed offset fs offset')
    (hle : offset ≤ blockSize) : offset' ≤ blockSize := by
  induction h with
  | nil offset => exact hle
  | cons hf _ ih => exact ih hf.room

theorem emit_switchBlock {w : Writer} (hw : w.blockOffset ≤ blockSize) (t : RecordType) {data : List Byte}
    (hdata : headerOffset w.blockOffset + headerSize + data.length ≤ blockSize) :
    ∃ f : Fragment, f.type = t ∧ f.data = data ∧ Fits w.blockOffset f ∧
      emitPhysicalRecord (switchBlock w) t data =
        .ok ⟨w.dest ++ f.bytes, headerOffset w.blockOffset + headerSize + data.length⟩ := by
  have hlen : data.length ≤ 0xffff := by
    unfold blockSize headerSize at hdata
    omega
  by_cases hpad : blockSize - w.blockOffset < headerSize
  · refine ⟨⟨blockSize - w.blockOffset, t, data⟩, rfl, rfl, ⟨hw, (if_pos hpad).symm, hdata⟩, ?_⟩
    rw [headerOffset, if_pos hpad] at hdata ⊢
    rw [switchBlock, if_pos hpad, emitPhysicalRecord, if_pos ⟨hlen, hdata⟩, Fragment.bytes]
    simp only [List.append_assoc, Nat.zero_add]
  · refine ⟨⟨0, t, data⟩, rfl, rfl, ⟨hw, (if_neg hpad).symm, hdata⟩, ?_⟩
    rw [headerOffset, if_neg hpad] at hdata ⊢
    rw [switchBlock, if_neg hpad, emitPhysicalRecord, if_pos ⟨hlen, hdata⟩, Fragment.bytes]
    simp only [List.append_assoc, List.replicate_zero, List.nil_append, Nat.add_assoc]

/-- What is free for a fragment behind its header. -/
def available (offset : Nat) : Nat := blockSize - headerOffset offset - headerSize

theorem headerOffset_add_available (offset : Nat) :
    headerOffset offset + headerSize + available offset = blockSize := by
  unfold available headerOffset blockSize headerSize
  split <;> omega

/-- The rounds that the loop still makes at most: one may write an empty fragment. -/
def roundsBound (offset : Nat) (left : List Byte) : Nat :=
  left.length + 1 + (if available offset = 0 then 1 else 0)

theorem addRecordLoop_spec (fuel : Nat) (w : Writer) (begins : Bool) (left : List Byte)
    (hw : w.blockOffset ≤ blockSize) (hfuel : roundsBound w.blockOffset left ≤ fuel) :
    ∃ fs offset', addRecordLoop fuel w begins left = .ok ⟨w.dest ++ text fs, offset'⟩ ∧
      Placed w.blockOffset fs offset' ∧ Chain begins fs ∧ payload fs = left := by
  induction fuel generalizing w begins left with
  | zero =>
    unfold roundsBound at hfuel
    omega
  | succ fuel ih =>
    have havail := headerOffset_add_available w.blockOffset
    have hswitch : (switchBlock w).blockOffset = headerOffset w.blockOffset := by
      unfold switchBlock headerOffset
      split <;> rfl
    obtain ⟨n, hn⟩ : ∃ n, min left.length (available w.blockOffset) = n := ⟨_, rfl⟩
    have hlen : (left.take n).length = n := by
      rw [List.length_take]
      omega
    obtain ⟨f, htype, hdata, hfits, hemit⟩ := emit_switchBlock hw (fragmentType begins (left.length = n))
      (show headerOffset w.blockOffset + headerSize + (left.take n).length ≤ blockSize by omega)
    have hround : addRecordLoop (fuel + 1) w begins left =
        if 0 < left.length - n then
          addRecordLoop fuel ⟨w.dest ++ f.bytes, headerOffset w.blockOffset + headerSize + n⟩ false (left.drop n)
        else .ok ⟨w.dest ++ f.bytes, headerOffset w.blockOffset + headerSize + n⟩ := by
      have hn' : min left.length (blockSize - (switchBlock w).blockOffset - headerSize) = n := by
        rw [hswitch]
        exact hn
      rw [addRecordLoop, if_pos hw]
      simp only [hn', hemit, ok_bind, hlen]
    rw [hround]
    by_cases hmore : 0 < left.length - n
    · -- the block is full behind a fragment that is not the last one
      have hfull : n = available w.blockOffset := by omega
      have hB : headerOffset w.blockOffset + headerSize + n = blockSize := by omega
      have hnext : available blockSize ≠ 0 := by decide
      have hbound : roundsBound blockSize (left.drop n) ≤ fuel := by
        unfold roundsBound at hfuel ⊢
        rw [if_neg hnext, List.length_drop]
        split at hfuel <;> omega
      rw [if_pos hmore, hB]
      obtain ⟨fs, offset', hloop, hplaced, hchain, hpayload⟩ :=
        ih ⟨w.dest ++ f.bytes, blockSize⟩ false (left.drop n) le_rfl hbound
      refine ⟨f :: fs, offset', ?_, .cons hfits ?_, .more ?_ hchain, ?_⟩
      · rw [hloop, text_cons, List.append_assoc]
      · rw [hdata, hlen, hB]
        exact hplaced
      · rw [htype, decide_eq_false (by omega)]
      · rw [payload_cons, hpayload, hdata, List.take_append_drop]
    · have hall : n = left.length := by omega
      rw [if_neg hmore]
      refine ⟨[f], headerOffset w.blockOffset + headerSize + n, by simp [text], .cons hfits ?_, .last ?_, ?_⟩
      · rw [hdata, hlen]
        exact .nil _
      · rw [htype, decide_eq_true hall.symm]
      · rw [payload_cons, hdata, hall, List.take_length]
        exact List.append_nil _

theorem addRecord_spec {w : Writer} (hw : w.blockOffset ≤ blockSize) (slice : List Byte) :
    ∃ fs offset', addRecord w slice = .ok ⟨w.dest ++ text fs, offset'⟩ ∧ Placed w.blockOffset fs offset' ∧
      Chain true fs ∧ payload fs = slice := by
  apply addRecordLoop_spec _ w true slice hw
  unfold roundsBound
  split <;> omega

end RecordStore.LogFragments
