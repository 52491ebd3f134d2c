import Mathlib.Tactic

namespace RecordStore.Splice

variable {α : Type}

/-- The `n` elements of `l` from position `off` on, fewer if the list ends before. -/
def slice (l : List α) (off n : Nat) : List α := (l.drop off).take n

/-- Overwrite `l` from position `off` on. Writing past the end extends the list. -/
def splice (l : List α) (off : Nat) (xs : List α) : List α :=
  l.take off ++ xs ++ l.drop (off + xs.length)

theorem slice_length (l : List α) (off n : Nat) :
    (slice l off n).length = min n (l.length - off) := by
  simp [slice]

theorem slice_length_of_le {l : List α} {off n : Nat} (h : off + n ≤ l.length) :
    (slice l off n).length = n := by
  rw [slice_length]
  omega

theorem getElem?_slice (l : List α) (off n i : Nat) :
    (slice l off n)[i]? = if i < n then l[off + i]? else none := by
  simp [slice, List.getElem?_take, List.getElem?_drop]

theorem getElem?_splice {l : List α} {off : Nat} (xs : List α) (h : off ≤ l.length) (i : Nat) :
    (splice l off xs)[i]? =
      if i < off then l[i]? else if i < off + xs.length then xs[i - off]? else l[i]? := by
  have ht : (l.take off).length = off := by simp [h]
  unfold splice
  rw [List.append_assoc, List.getElem?_append, ht]
  split
  case isTrue hi => simp [hi]
  case isFalse hi =>
    rw [List.getElem?_append]
    by_cases hx : i < off + xs.length
    · have hx' : i - off < xs.length := by omega
      simp [hx, hx']
    · have hx' : ¬ i - off < xs.length := by omega
      have he : off + xs.length + (i - off - xs.length) = i := by omega
      simp [hx, hx', List.getElem?_drop, he]

theorem splice_length {l : List α} {off : Nat} {xs : List α} (h : off + xs.length ≤ l.length) :
    (splice l off xs).length = l.length := by
  simp only [splice, List.length_append, List.length_take, List.length_drop]
  omega

theorem splice_end (l xs : List α) : splice l l.length xs = l ++ xs := by
  simp [splice]

theorem splice_append (a b b' d : List α) (h : b.length = b'.length) :
    splice (a ++ (b ++ d)) a.length b' = a ++ (b' ++ d) := by
  have hd : (a ++ (b ++ d)).drop (a.length + b'.length) = d := by
    rw [← h, ← List.append_assoc, ← List.length_append, List.drop_left]
  rw [splice, hd, List.take_left, List.append_assoc]

theorem slice_append_of_le {l : List α} {off n : Nat} (xs : List α) (h : off + n ≤ l.length) :
    slice (l ++ xs) off n = slice l off n := by
  rw [slice, slice, List.drop_append_of_le_length (by omega),
    List.take_append_of_le_length (by rw [List.length_drop]; omega)]

theorem slice_isPrefix_append (l xs : List α) (off n : Nat) : slice l off n <+: slice (l ++ xs) off n := by
  rw [slice, slice, List.drop_append, List.take_append]
  exact List.prefix_append _ _

theorem slice_append_last (l : List α) (x : α) {c : Nat} (hc : 0 < c) :
    slice (l ++ [x]) (l.length / c * c) c = slice l (l.length / c * c) c ++ [x] := by
  have hdm : l.length / c * c + l.length % c = l.length := Nat.div_add_mod' _ _
  have hm := Nat.mod_lt l.length hc
  have hle : (l.drop (l.length / c * c)).length ≤ c := by
    rw [List.length_drop]
    omega
  rw [slice, slice, List.drop_append_of_le_length (by omega), List.take_of_length_le hle,
    List.take_of_length_le]
  rw [List.length_append, List.length_drop, List.length_singleton]
  omega

theorem slice_append (a b d : List α) : slice (a ++ (b ++ d)) a.length b.length = b := by
  simp [slice]

theorem slice_splice_disjoint {l : List α} {off : Nat} (xs : List α) (h : off ≤ l.length)
    {o n : Nat} (hd : o + n ≤ off ∨ off + xs.length ≤ o) :
    slice (splice l off xs) o n = slice l o n := by
  apply List.ext_getElem?
  intro i
  rw [getElem?_slice, getElem?_slice, getElem?_splice xs h]
  by_cases hi : i < n
  · obtain hd | hd := hd
    · simp [hi, show o + i < off by omega]
    · simp [hi, show ¬ o + i < off by omega, show ¬ o + i < off + xs.length by omega]
  · simp [hi]

theorem slice_slice (l : List α) {off n o m : Nat} (h : o + m ≤ n) :
    slice (slice l off n) o m = slice l (off + o) m := by
  apply List.ext_getElem?
  intro i
  simp only [getElem?_slice]
  by_cases hi : i < m
  · rw [if_pos hi, if_pos hi, if_pos (by omega), Nat.add_assoc]
  · rw [if_neg hi, if_neg hi]

theorem slice_splice_inside {l : List α} {off : Nat} {xs : List α} (h : off ≤ l.length) {o m : Nat}
    (hin : o + m ≤ xs.length) : slice (splice l off xs) (off + o) m = slice xs o m := by
  apply List.ext_getElem?
  intro i
  rw [getElem?_slice, getElem?_slice, getElem?_splice xs h]
  by_cases hi : i < m
  · rw [if_pos hi, if_pos hi, if_neg (by omega), if_pos (by omega), Nat.add_assoc, Nat.add_sub_cancel_left]
  · rw [if_neg hi, if_neg hi]

section Outside

variable {l x x' : List α}

/-- The lists are the same but for the `n` elements from position `off` on. -/
def SameOutside (l l' : List α) (off n : Nat) : Prop :=
  ∀ k, ¬ (off ≤ k ∧ k < off + n) → l'[k]? = l[k]?

/-- A block that is replaced by another: the change is within what changed in the block. -/
theorem sameOutside_splice {base o n : Nat} (hlen : x'.length = x.length) (hbase : base + x.length ≤ l.length)
    (hx : slice l base x.length = x) :
    SameOutside l (splice l base x') (base + o) n ↔ SameOutside x x' o n := by
  have hin (k : Nat) (hk : k < x.length) : l[base + k]? = x[k]? := by
    have h := getElem?_slice l base x.length k
    rw [hx, if_pos hk] at h
    exact h.symm
  have hsplice (k : Nat) := getElem?_splice (l := l) x' (show base ≤ l.length by omega) k
  constructor
  · intro hsame k hk
    by_cases hlt : k < x.length
    · have h := hsame (base + k) (by omega)
      rwa [hsplice, if_neg (by omega), if_pos (by omega), Nat.add_sub_cancel_left, hin k hlt] at h
    · rw [List.getElem?_eq_none (by omega), List.getElem?_eq_none (by omega)]
  · intro hsame k hk
    rw [hsplice]
    by_cases hlo : k < base
    · rw [if_pos hlo]
    · by_cases hhi : k < base + x'.length
      · rw [if_neg hlo, if_pos hhi, hsame (k - base) (by omega), ← hin (k - base) (by omega),
          Nat.add_sub_cancel' (Nat.le_of_not_lt hlo)]
      · rw [if_neg hlo, if_neg hhi]

theorem sameOutside_group {n w i : Nat} (hx : x.length = n * w) (hx' : x'.length = n * w) :
    SameOutside x x' (i * w) w ↔ ∀ a < n, a ≠ i → slice x' (a * w) w = slice x (a * w) w := by
  constructor
  · intro hsame a _ hne
    apply List.ext_getElem?
    intro b
    rw [getElem?_slice, getElem?_slice]
    by_cases hb : b < w
    · rw [if_pos hb, if_pos hb]
      refine hsame _ (fun hin => hne ?_)
      have h1 : (a * w + b) / w = a := by
        rw [Nat.mul_comm, Nat.mul_add_div (by omega), Nat.div_eq_of_lt hb, Nat.add_zero]
      have h2 : (a * w + b) / w = i := by
        rw [Nat.div_eq_iff (by omega)]
        exact ⟨hin.1, by omega⟩
      exact h1.symm.trans h2
    · rw [if_neg hb, if_neg hb]
  · intro hgroups k hk
    by_cases hlt : k < n * w
    · have hw : 0 < w := Nat.pos_of_ne_zero (by rintro rfl; simp at hlt)
      have hdm := Nat.div_add_mod' k w
      have hm := Nat.mod_lt k hw
      have hne : k / w ≠ i := by
        rintro rfl
        omega
      have h := congrArg (fun l => l[k % w]?)
        (hgroups (k / w) ((Nat.div_lt_iff_lt_mul hw).mpr hlt) hne)
      simp only [getElem?_slice, if_pos hm, hdm] at h
      exact h
    · rw [List.getElem?_eq_none (by omega), List.getElem?_eq_none (by omega)]

end Outside

end RecordStore.Splice
