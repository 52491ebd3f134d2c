import RecordStore.HeapSession
import RecordStore.PageSlots

namespace RecordStore.LogicalPages

open RecordStore.CFile RecordStore.Outcome RecordStore.FixedRecord RecordStore.FixedPage
open RecordStore.PageBitmap RecordStore.HeapSession

variable {P S : Nat}

/-- A heap file without its machinery: the pages it has, each as it is now. -/
abbrev Pages (P S : Nat) := List (Page P S)

def firstFree (pages : Pages P S) : Option Nat :=
  pages.findIdx? (fun page => 0 < fixedLenPageFreeslots page)

def modifyPage (pages : Pages P S) (j : Nat) (f : Page P S → Except Fault (Page P S)) :
    Except Fault (Pages P S) :=
  match pages[j]? with
  | some page => (f page).map (fun page' => pages.set j page')
  | none => .error .assertFailed

/-- First fit: the first page with a free slot, or else a new page at the end. -/
def put (pages : Pages P S) (rec : Record) : Except Fault (Pages P S) :=
  match firstFree pages with
  | some j => modifyPage pages j (fun page => (addFixedLenPage page rec).map Prod.snd)
  | none => modifyPage (pages ++ [Page.blank P S]) pages.length
      (fun page => (addFixedLenPage page rec).map Prod.snd)

def step (beyond : Nat → Byte) (pages : Pages P S) : Op → Except Fault (Option Record × Pages P S)
  | .put rec => (put pages rec).map (fun pages' => (none, pages'))
  | .get rid n =>
    match pages[rid.pageId]? with
    | some page => (readFixedLenPage beyond page rid.slot n).map (fun r => (some r, pages))
    | none => .error .assertFailed
  | .update rid rec =>
    (modifyPage pages rid.pageId (fun page => writeFixedLenPage page rid.slot rec)).map
      (fun pages' => (none, pages'))
  | .delete rid =>
    (modifyPage pages rid.pageId (fun page => deleteFixedLenPage page rid.slot)).map
      (fun pages' => (none, pages'))

def run (beyond : Nat → Byte) : Pages P S → List Op → Except Fault (List (Option Record) × Pages P S)
  | pages, [] => .ok ([], pages)
  | pages, o :: os => do
    let (res, pages) ← step beyond pages o
    let (results, pages) ← run beyond pages os
    .ok (res :: results, pages)

theorem run_cons (beyond : Nat → Byte) (pages : Pages P S) (o : Op) (os : List Op) :
    run beyond pages (o :: os) = step beyond pages o >>= fun r =>
      run beyond r.2 os >>= fun rs => .ok (r.1 :: rs.1, rs.2) := rfl

theorem modifyPage_some {pages : Pages P S} {j : Nat} {page : Page P S} (hj : pages[j]? = some page)
    (f : Page P S → Except Fault (Page P S)) :
    modifyPage pages j f = (f page).map (fun page' => pages.set j page') := by
  simp [modifyPage, hj]

theorem firstFree_some {pages : Pages P S} {j : Nat} (hj : firstFree pages = some j) :
    ∃ page slot, pages[j]? = some page ∧ emptySlot page = some slot := by
  obtain ⟨hlt, hfree, -⟩ := List.findIdx?_eq_some_iff_getElem.mp hj
  obtain ⟨slot, hs⟩ := (freeslots_pos_iff _).mp (by simpa using hfree)
  exact ⟨pages[j], slot, List.getElem?_eq_getElem hlt, hs⟩

theorem modifyPage_eq_ok {pages pages' : Pages P S} {j : Nat} {f : Page P S → Except Fault (Page P S)}
    (h : modifyPage pages j f = .ok pages') :
    ∃ page page', pages[j]? = some page ∧ f page = .ok page' ∧ pages' = pages.set j page' := by
  cases hj : pages[j]? with
  | none =>
    rw [modifyPage, hj] at h
    cases h
  | some page =>
    rw [modifyPage_some hj] at h
    obtain ⟨page', hf, he⟩ := map_eq_ok.mp h
    exact ⟨page, page', rfl, hf, he.symm⟩

theorem modifyPage_length {pages pages' : Pages P S} {j : Nat} {f : Page P S → Except Fault (Page P S)}
    (h : modifyPage pages j f = .ok pages') : pages'.length = pages.length := by
  obtain ⟨page, page', -, -, rfl⟩ := modifyPage_eq_ok h
  exact List.length_set

theorem modifyPage_forall {Q : Page P S → Prop} {pages pages' : Pages P S} {j : Nat}
    {f : Page P S → Except Fault (Page P S)} (hall : ∀ page ∈ pages, Q page)
    (hf : ∀ {page page'}, Q page → f page = .ok page' → Q page') (h : modifyPage pages j f = .ok pages') :
    ∀ page ∈ pages', Q page := by
  obtain ⟨page, page', hj, hfp, rfl⟩ := modifyPage_eq_ok h
  intro q hq
  obtain hq | rfl := List.mem_or_eq_of_mem_set hq
  · exact hall q hq
  · exact hf (hall page (List.mem_of_getElem? hj)) hfp

section Length

variable {pages pages' : Pages P S} {rec : Record}

theorem put_length_of_some {j : Nat} (hff : firstFree pages = some j) (h : put pages rec = .ok pages') :
    pages'.length = pages.length := by
  rw [put, hff] at h
  exact modifyPage_length h

theorem put_length_of_none (hff : firstFree pages = none) (h : put pages rec = .ok pages') :
    pages'.length = pages.length + 1 := by
  rw [put, hff] at h
  rw [modifyPage_length h, List.length_append]
  rfl

theorem put_length (h : put pages rec = .ok pages') : pages'.length ≤ pages.length + 1 := by
  cases hff : firstFree pages with
  | some j => exact (put_length_of_some hff h).le.trans (Nat.le_succ _)
  | none => exact (put_length_of_none hff h).le

end Length

end RecordStore.LogicalPages
