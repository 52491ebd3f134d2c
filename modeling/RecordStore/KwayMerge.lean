import RecordStore.RunIterator
import RecordStore.KMerge

namespace RecordStore.KwayMerge

open RecordStore.Splice RecordStore.CFile RecordStore.RecordFile RecordStore.Outcome
open RecordStore.RunIterator RecordStore.KMerge

/-- An entry of `buf` as a record: a pointer into the buffer of its iterator, or NULL. -/
def deref (recordSize : Nat) (c : Iterator × Option Nat) : Option (List Byte) :=
  c.2.map (fun rec => slice c.1.readBuf rec recordSize)

def fetchAll (recordSize : Nat) : File → List Iterator →
    Except Fault (List (Iterator × Option Nat) × File)
  | fp, [] => .ok ([], fp)
  | fp, it :: iterators => do
    let (it, rec, fp) ← fetch recordSize fp it
    let (buf, fp) ← fetchAll recordSize fp iterators
    .ok ((it, rec) :: buf, fp)

def mergeLoop (less : List Byte → List Byte → Bool) (recordSize : Nat) :
    Nat → List (Iterator × Option Nat) → File → File → Except Fault (File × File)
  | 0, _, _, _ => .error .outOfFuel
  | fuel + 1, buf, inFp, fp =>
    if buf.countP (fun c => c.2.isNone) = buf.length then .ok (inFp, fp)
    else
      match pickMin less (buf.map (deref recordSize)) 0 none with
      | none => .error .memory
      | some (minIdx, minRec) =>
        match buf[minIdx]? with
        | none => .error .memory
        | some c => do
          let fp := fwrite fp minRec
          let (it, rec, inFp) ← fetch recordSize inFp c.1
          mergeLoop less recordSize fuel (buf.set minIdx (it, rec)) inFp fp

def kwayMerge (less : List Byte → List Byte → Bool) (recordSize fuel : Nat) (iterators : List Iterator)
    (inFp fp : File) : Except Fault (File × File) := do
  let (buf, inFp) ← fetchAll recordSize inFp iterators
  mergeLoop less recordSize fuel buf inFp fp

section Pairs

variable {α β : Type} {R : α → β → Prop}

theorem forall₂_set {l : List α} {u : List β} (h : List.Forall₂ R l u) {a : α} {b : β} (hab : R a b) (i : Nat) :
    List.Forall₂ R (l.set i a) (u.set i b) := by
  induction h generalizing i with
  | nil => exact List.Forall₂.nil
  | cons hx hl ih =>
    cases i with
    | zero => exact List.Forall₂.cons hab hl
    | succ i => exact List.Forall₂.cons hx (ih i)

theorem forall₂_getElem? {l : List α} {u : List β} (h : List.Forall₂ R l u) {i : Nat} {b : β}
    (hb : u[i]? = some b) : ∃ a, l[i]? = some a ∧ R a b := by
  induction h generalizing i with
  | nil => cases hb
  | @cons x y l u hx hl ih =>
    cases i with
    | zero => exact ⟨x, rfl, by simpa using (Option.some.inj hb) ▸ hx⟩
    | succ i => exact ih (by simpa using hb)

end Pairs

variable {rs : Nat} {recs : List (List Byte)}

theorem deref_eq_head? {c : Iterator × Option Nat} {rest : List (List Byte)} (h : Shows rs recs c rest) :
    deref rs c = rest.head? := by
  obtain ⟨it, rec⟩ := c
  obtain ⟨run, -, h⟩ := h
  cases rec with
  | none =>
    obtain rfl : rest = [] := h
    rfl
  | some rec =>
    obtain rfl : rest = slice it.readBuf rec rs :: run.drop it.pos := h
    rfl

theorem map_deref_eq {buf : List (Iterator × Option Nat)} {rests : List (List (List Byte))}
    (h : List.Forall₂ (Shows rs recs) buf rests) : buf.map (deref rs) = rests.map List.head? := by
  induction h with
  | nil => rfl
  | cons hc _ ih => rw [List.map_cons, List.map_cons, deref_eq_head? hc, ih]

theorem fetchAll_spec {fp : File} (hu : Uniform rs recs) (hfp : recs.flatten <+: fp.bytes)
    {iterators : List Iterator} {runs : List (List (List Byte))}
    (h : List.Forall₂ (fun it run => Reading rs recs run it ∧ it.pos = 0) iterators runs) :
    ∃ buf fp', fetchAll rs fp iterators = .ok (buf, fp') ∧ fp'.bytes = fp.bytes ∧
      List.Forall₂ (Shows rs recs) buf runs := by
  induction h generalizing fp with
  | nil => exact ⟨[], fp, rfl, rfl, List.Forall₂.nil⟩
  | @cons it run iterators runs hit _ ih =>
    obtain ⟨it', rec, fp1, hfetch, hbytes1, hshows⟩ := fetch_spec hu hfp hit.1
    rw [hit.2, List.drop_zero] at hshows
    obtain ⟨buf, fp2, hrest, hbytes2, hbuf⟩ := ih (hbytes1 ▸ hfp)
    refine ⟨(it', rec) :: buf, fp2, ?_, hbytes2.trans hbytes1, List.Forall₂.cons hshows hbuf⟩
    simp only [fetchAll, hfetch, hrest, ok_bind]

theorem all_null_iff {buf : List (Iterator × Option Nat)} {rests : List (List (List Byte))}
    (h : List.Forall₂ (Shows rs recs) buf rests) :
    buf.countP (fun c => c.2.isNone) = buf.length ↔ ∀ rest ∈ rests, rest = [] := by
  rw [List.countP_eq_length]
  induction h with
  | nil => simp
  | @cons c rest buf rests hc _ ih =>
    have hhead := deref_eq_head? hc
    simp only [List.forall_mem_cons, ih]
    refine and_congr_left fun _ => ?_
    rw [← List.head?_eq_none_iff, ← hhead, deref, Option.map_eq_none_iff, Option.isNone_iff_eq_none]

theorem fetch_min {fp : File} (hu : Uniform rs recs) (hfp : recs.flatten <+: fp.bytes)
    {c : Iterator × Option Nat} {x : List Byte} {rest : List (List Byte)} (h : Shows rs recs c (x :: rest)) :
    ∃ it rec fp', fetch rs fp c.1 = .ok (it, rec, fp') ∧ fp'.bytes = fp.bytes ∧
      Shows rs recs (it, rec) rest := by
  obtain ⟨it, rec⟩ := c
  obtain ⟨run, hread, h⟩ := h
  cases rec with
  | none => cases h
  | some rec =>
    obtain ⟨-, rfl⟩ := List.cons.inj h
    exact fetch_spec hu hfp hread

theorem mergeLoop_spec (less : List Byte → List Byte → Bool) {fuel : Nat} {inFp fp : File} (hu : Uniform rs recs)
    (hin : recs.flatten <+: inFp.bytes) (hfp : fp.pos ≤ fp.bytes.length)
    {buf : List (Iterator × Option Nat)} {rests : List (List (List Byte))}
    (h : List.Forall₂ (Shows rs recs) buf rests) (hfuel : rests.flatten.length < fuel) :
    ∃ inFp' out, mergeLoop less rs fuel buf inFp fp = .ok (inFp', fwrite fp out.flatten) ∧
      inFp'.bytes = inFp.bytes ∧ Merges less rests out := by
  induction fuel generalizing inFp fp buf rests with
  | zero => omega
  | succ fuel ih =>
    rw [mergeLoop]
    by_cases hnull : buf.countP (fun c => c.2.isNone) = buf.length
    · rw [if_pos hnull]
      refine ⟨inFp, [], ?_, rfl, Merges.done ((all_null_iff h).mp hnull)⟩
      rw [List.flatten_nil, fwrite_nil hfp]
    · rw [if_neg hnull, map_deref_eq h]
      cases hp : pickMin less (rests.map List.head?) 0 none with
      | none =>
        refine absurd ((all_null_iff h).mpr ?_) hnull
        intro rest hrest
        exact List.head?_eq_none_iff.mp ((pickMin_eq_none hp).2 _ (List.mem_map_of_mem hrest))
      | some m =>
        obtain ⟨i, x⟩ := m
        obtain hnone | ⟨t, rfl, ht⟩ := pickMin_some hp
        · cases hnone
        obtain ⟨run, hrun, hhead⟩ : ∃ run, rests[0 + t]? = some run ∧ run.head? = some x := by
          rw [List.getElem?_map, Option.map_eq_some_iff] at ht
          simpa using ht
        obtain ⟨rest, rfl⟩ := List.head?_eq_some_iff.mp hhead
        obtain ⟨c, hc, hshows⟩ := forall₂_getElem? h hrun
        obtain ⟨it, rec, inFp1, hfetch, hbytes1, hshows'⟩ := fetch_min hu hin hshows
        have hlen : (rests.set (0 + t) rest).flatten.length < fuel := by
          obtain ⟨before, after, hsplit, -, hset⟩ := split_at hrun
          rw [hsplit] at hfuel
          rw [hset]
          simp only [List.flatten_append, List.flatten_cons, List.length_append, List.length_cons] at hfuel ⊢
          omega
        obtain ⟨inFp2, out, hloop, hbytes2, hm⟩ := ih (hbytes1 ▸ hin) (fwrite_pos_le hfp x)
          (forall₂_set h hshows' (0 + t)) hlen
        refine ⟨inFp2, x :: out, ?_, hbytes2.trans hbytes1, Merges.step hp hrun hm⟩
        simp only [hc]
        rw [hfetch, ok_bind, hloop, fwrite_fwrite hfp, List.flatten_cons]

theorem kwayMerge_spec (less : List Byte → List Byte → Bool) {fuel : Nat} {inFp fp : File} (hu : Uniform rs recs)
    (hin : recs.flatten <+: inFp.bytes) (hfp : fp.pos ≤ fp.bytes.length) {iterators : List Iterator}
    {runs : List (List (List Byte))}
    (h : List.Forall₂ (fun it run => Reading rs recs run it ∧ it.pos = 0) iterators runs)
    (hfuel : runs.flatten.length < fuel) :
    ∃ inFp' out, kwayMerge less rs fuel iterators inFp fp = .ok (inFp', fwrite fp out.flatten) ∧
      inFp'.bytes = inFp.bytes ∧ Merges less runs out := by
  obtain ⟨buf, fp1, hfetch, hbytes1, hbuf⟩ := fetchAll_spec hu hin h
  obtain ⟨fp2, out, hloop, hbytes2, hm⟩ := mergeLoop_spec less hu (hbytes1 ▸ hin) hfp hbuf hfuel
  refine ⟨fp2, out, ?_, hbytes2.trans hbytes1, hm⟩
  rw [kwayMerge, hfetch, ok_bind]
  exact hloop

end RecordStore.KwayMerge
