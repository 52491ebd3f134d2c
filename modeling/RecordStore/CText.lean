import Mathlib.Data.List.TakeWhile
import RecordStore.CFile

namespace RecordStore.CText

open RecordStore.CFile

def newline : Byte := 10

def comma : Byte := 44

def cstr (mem : List Byte) : List Byte := mem.takeWhile (fun b => b ≠ 0)

/-- The tokens that successive calls of `strtok` deliver. Delimiters in a row count as one. -/
def strtok (line : List Byte) (delim : Byte) : List (List Byte) :=
  ((cstr line).splitOn delim).filter (fun token => token ≠ [])

/-- What `fgets(line, size, fp)` stores when `bs` is left of the file: at most `size - 1`
bytes, and none after a newline. -/
def fgetsLine (size : Nat) (bs : List Byte) : List Byte :=
  match (bs.take (size - 1)).findIdx? (fun b => b = newline) with
  | some i => bs.take (i + 1)
  | none => bs.take (size - 1)

/-- The lines of a `while (fgets(..))` loop. Every line takes a byte at least. -/
def fgetsLoop (size : Nat) : Nat → List Byte → List (List Byte)
  | 0, _ => []
  | _ + 1, [] => []
  | fuel + 1, b :: bs =>
    fgetsLine size (b :: bs) :: fgetsLoop size fuel ((b :: bs).drop (fgetsLine size (b :: bs)).length)

def fgetsLines (size : Nat) (bs : List Byte) : List (List Byte) := fgetsLoop size bs.length bs

theorem fgetsLine_append_drop (size : Nat) (bs : List Byte) :
    fgetsLine size bs ++ bs.drop (fgetsLine size bs).length = bs := by
  have htake : ∀ n, bs.take n ++ bs.drop (bs.take n).length = bs := by
    intro n
    rw [List.length_take]
    obtain hle | hle := Nat.le_total n bs.length
    · rw [Nat.min_eq_left hle, List.take_append_drop]
    · rw [Nat.min_eq_right hle, List.take_of_length_le hle, List.drop_length, List.append_nil]
  unfold fgetsLine
  split <;> exact htake _

theorem fgetsLine_length_pos {size : Nat} (hs : 2 ≤ size) (b : Byte) (bs : List Byte) :
    0 < (fgetsLine size (b :: bs)).length := by
  unfold fgetsLine
  split
  · simp
  · rw [List.length_take, List.length_cons]
    omega

theorem fgetsLines_length_le (size : Nat) (bs : List Byte) : (fgetsLines size bs).length ≤ bs.length := by
  have hloop : ∀ fuel bs, (fgetsLoop size fuel bs).length ≤ fuel := by
    intro fuel
    induction fuel with
    | zero => exact fun _ => le_rfl
    | succ fuel ih =>
      intro bs
      cases bs with
      | nil => exact Nat.zero_le _
      | cons b bs => exact Nat.succ_le_succ (ih _)
  exact hloop bs.length bs

theorem fgetsLoop_fuel {size : Nat} (hs : 2 ≤ size) (fuel fuel' : Nat) (bs : List Byte)
    (hf : bs.length ≤ fuel) (hf' : bs.length ≤ fuel') :
    fgetsLoop size fuel bs = fgetsLoop size fuel' bs := by
  induction fuel generalizing fuel' bs with
  | zero =>
    obtain rfl : bs = [] := List.length_eq_zero_iff.mp (by omega)
    cases fuel' <;> rfl
  | succ fuel ih =>
    cases bs with
    | nil => cases fuel' <;> rfl
    | cons b bs =>
      obtain ⟨fuel', rfl⟩ := Nat.exists_eq_succ_of_ne_zero (show fuel' ≠ 0 by rintro rfl; simp at hf')
      have hpos := fgetsLine_length_pos hs b bs
      have hlen := List.length_drop (l := b :: bs) (i := (fgetsLine size (b :: bs)).length)
      simp only [List.length_cons] at hf hf' hlen
      rw [fgetsLoop, fgetsLoop, ih fuel' _ (by omega) (by omega)]

theorem fgetsLine_append (size : Nat) {a : List Byte} (ha : a.getLast? = some newline) (b : List Byte) :
    fgetsLine size (a ++ b) = fgetsLine size a := by
  have htake : ∀ n ≤ a.length, (a ++ b).take n = a.take n := fun n hn =>
    List.take_append_of_le_length hn
  obtain hle | hlt := (Nat.lt_or_ge a.length (size - 1)).symm
  · rw [fgetsLine, fgetsLine, htake _ hle]
    cases hi : (a.take (size - 1)).findIdx? (fun b => b = newline) with
    | none => rfl
    | some i =>
      have hlen := (List.findIdx?_eq_some_iff_getElem.mp hi).1
      rw [List.length_take] at hlen
      exact htake _ (by omega)
  · have hmem : newline ∈ a := List.mem_of_getLast? ha
    obtain ⟨i, hi⟩ : ∃ i, a.findIdx? (fun b => b = newline) = some i := by
      rw [← Option.isSome_iff_exists, List.findIdx?_isSome, List.any_eq_true]
      exact ⟨newline, hmem, by simp⟩
    have hlen := (List.findIdx?_eq_some_iff_getElem.mp hi).1
    have hi' : ((a ++ b).take (size - 1)).findIdx? (fun b => b = newline) = some i := by
      rw [List.take_append, List.take_of_length_le hlt.le, List.findIdx?_append, hi]
      rfl
    rw [fgetsLine, fgetsLine, hi', List.take_of_length_le hlt.le, hi]
    exact htake _ hlen

theorem getLast?_drop {a : List Byte} {n : Nat} {b : Byte} (ha : a.getLast? = some b)
    (hn : n < a.length) : (a.drop n).getLast? = some b := by
  rw [List.getLast?_drop, if_neg (by omega), ha]

theorem fgetsLoop_append {size : Nat} (hs : 2 ≤ size) (b : List Byte) (fuel : Nat) (a : List Byte)
    (ha : a.getLast? = some newline) (hf : a.length ≤ fuel) :
    fgetsLoop size (fuel + b.length) (a ++ b) = fgetsLoop size fuel a ++ fgetsLines size b := by
  induction fuel generalizing a with
  | zero =>
    obtain rfl : a = [] := List.length_eq_zero_iff.mp (by omega)
    simp at ha
  | succ fuel ih =>
    cases a with
    | nil => simp at ha
    | cons x xs =>
      have hpos := fgetsLine_length_pos hs x xs
      have hline := fgetsLine_append size ha b
      have hle : (fgetsLine size (x :: xs)).length ≤ (x :: xs).length := by
        have := congrArg List.length (fgetsLine_append_drop size (x :: xs))
        rw [List.length_append] at this
        omega
      rw [show fuel + 1 + b.length = fuel + b.length + 1 by omega, List.cons_append, fgetsLoop,
        fgetsLoop, ← List.cons_append, hline, List.drop_append_of_le_length hle, List.cons_append]
      congr 1
      obtain heq | hlt := hle.eq_or_lt
      · rw [heq, List.drop_length, List.nil_append, fgetsLines,
          fgetsLoop_fuel hs _ b.length b (by omega) (by omega)]
        cases fuel <;> rfl
      · refine ih _ (getLast?_drop ha hlt) ?_
        rw [List.length_drop]
        omega

/-- The lines of two files, the first one ended by a newline, written one after the other. -/
theorem fgetsLines_append {size : Nat} (hs : 2 ≤ size) {a : List Byte}
    (ha : a.getLast? = some newline) (b : List Byte) :
    fgetsLines size (a ++ b) = fgetsLines size a ++ fgetsLines size b := by
  rw [fgetsLines, List.length_append, fgetsLoop_append hs b _ a ha le_rfl]
  rfl

/-- Text with one newline, at its end. -/
def EndsLine (line : List Byte) : Prop := ∃ text, newline ∉ text ∧ line = text ++ [newline]

theorem fgetsLines_line {size : Nat} {line : List Byte} (h : EndsLine line) (hlen : line.length < size) :
    fgetsLines size line = [line] := by
  obtain ⟨text, htext, rfl⟩ := h
  have hfind : ((text ++ [newline]).take (size - 1)).findIdx? (fun b => b = newline) = some text.length := by
    rw [List.take_of_length_le (by omega), List.findIdx?_append, List.findIdx?_eq_none_iff.mpr]
    · simp [List.findIdx?_cons]
    · intro b hb
      exact decide_eq_false (fun he => htext (he ▸ hb))
  have hline : fgetsLine size (text ++ [newline]) = text ++ [newline] := by
    rw [fgetsLine, hfind]
    exact List.take_of_length_le (by simp)
  rw [fgetsLines]
  cases hcons : text ++ [newline] with
  | nil => simp at hcons
  | cons b bs =>
    rw [hcons] at hline
    rw [List.length_cons, fgetsLoop, hline, List.drop_length]
    cases bs.length <;> rfl

theorem fgetsLines_flatten {size : Nat} (hs : 2 ≤ size) {lines : List (List Byte)}
    (h : ∀ line ∈ lines, EndsLine line ∧ line.length < size) : fgetsLines size lines.flatten = lines := by
  induction lines with
  | nil => rfl
  | cons line lines ih =>
    obtain ⟨hline, hlen⟩ := h line (List.mem_cons_self ..)
    have hlast : line.getLast? = some newline := by
      obtain ⟨text, -, rfl⟩ := hline
      exact List.getLast?_concat
    rw [List.flatten_cons, fgetsLines_append hs hlast, fgetsLines_line hline hlen,
      ih (fun l hl => h l (List.mem_cons_of_mem _ hl))]
    rfl

section Fields

theorem mem_intercalate {b sep : Byte} {fields : List (List Byte)} (hb : b ∈ [sep].intercalate fields) :
    b = sep ∨ ∃ f ∈ fields, b ∈ f := by
  induction fields with
  | nil => simp [List.intercalate] at hb
  | cons f fields ih =>
    cases fields with
    | nil =>
      right
      exact ⟨f, List.mem_cons_self .., by simpa [List.intercalate] using hb⟩
    | cons g fields =>
      rw [List.intercalate_cons_cons, List.mem_append, List.mem_append, List.mem_singleton] at hb
      obtain (hf | hsep) | hrest := hb
      · exact .inr ⟨f, List.mem_cons_self .., hf⟩
      · exact .inl hsep
      · obtain heq | ⟨x, hx, hbx⟩ := ih hrest
        · exact .inl heq
        · exact .inr ⟨x, List.mem_cons_of_mem _ hx, hbx⟩

theorem strtok_intercalate {delim : Byte} (hd : delim ≠ 0) {fields : List (List Byte)} (hne : fields ≠ [])
    (h : ∀ f ∈ fields, f ≠ [] ∧ (0 : Byte) ∉ f ∧ delim ∉ f) :
    strtok ([delim].intercalate fields) delim = fields := by
  have hcstr : cstr ([delim].intercalate fields) = [delim].intercalate fields := by
    refine List.takeWhile_eq_self_iff.mpr (fun b hb => decide_eq_true ?_)
    rintro rfl
    obtain heq | ⟨f, hf, h0⟩ := mem_intercalate hb
    · exact hd heq.symm
    · exact (h f hf).2.1 h0
  rw [strtok, hcstr, List.splitOn_intercalate delim (fun f hf => (h f hf).2.2) hne]
  exact List.filter_eq_self.mpr (fun f hf => decide_eq_true (h f hf).1)

def lineText (fields : List (List Byte)) : List Byte := [comma].intercalate fields ++ [newline]

def PlainField (f : List Byte) : Prop := f ≠ [] ∧ (0 : Byte) ∉ f ∧ comma ∉ f ∧ newline ∉ f

/-- The newline becomes part of the last field. -/
theorem lineText_concat (fields : List (List Byte)) (last : List Byte) :
    lineText (fields ++ [last]) = [comma].intercalate (fields ++ [last ++ [newline]]) := by
  induction fields with
  | nil => simp [lineText, List.intercalate]
  | cons f fields ih =>
    have hne (l : List Byte) : fields ++ [l] ≠ [] := by simp
    rw [lineText] at ih ⊢
    rw [List.cons_append, List.cons_append, List.intercalate_cons_of_ne_nil (hne _),
      List.intercalate_cons_of_ne_nil (hne _), List.append_assoc, ih]

theorem strtok_lineText {fields : List (List Byte)} {last : List Byte}
    (h : ∀ f ∈ fields ++ [last], PlainField f) :
    strtok (lineText (fields ++ [last])) comma = fields ++ [last ++ [newline]] := by
  rw [lineText_concat]
  refine strtok_intercalate (by decide) (by simp) (fun f hf => ?_)
  obtain hf | rfl := by simpa using hf
  · obtain ⟨hne, h0, hc, -⟩ := h f (List.mem_append_left _ hf)
    exact ⟨hne, h0, hc⟩
  · obtain ⟨-, h0, hc, -⟩ := h last (by simp)
    refine ⟨by simp, fun hm => h0 ?_, fun hm => hc ?_⟩ <;>
      exact (List.mem_append.mp hm).resolve_right (by decide)

theorem lineText_endsLine {fields : List (List Byte)} (h : ∀ f ∈ fields, PlainField f) :
    EndsLine (lineText fields) := by
  refine ⟨_, fun hm => ?_, rfl⟩
  obtain heq | ⟨f, hf, hnl⟩ := mem_intercalate hm
  · exact absurd heq (by decide)
  · exact (h f hf).2.2.2 hnl

end Fields

end RecordStore.CText
