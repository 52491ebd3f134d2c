import RecordStore.BlockImage

namespace RecordStore.PageLayout

/-- The blocks of a heap file: the directories and the pages, in the order of
their numbers. -/
inductive Owner where
  | dir (d : Nat)
  | page (j : Nat)
  deriving DecidableEq

variable {c : Nat}

/-- The last of the directories for `n` pages has no room for another entry. -/
def LastFull (c n : Nat) : Prop := 0 < n ∧ n % c = 0

instance (c n : Nat) : Decidable (LastFull c n) := inferInstanceAs (Decidable (_ ∧ _))

/-- The blocks of a file with `n` pages and `c` entries in a directory. The page
that does not fit the last directory stands before the directory made for it. -/
def layout (c : Nat) : Nat → List Owner
  | 0 => [.dir 0]
  | n + 1 => layout c n ++ .page n :: (if LastFull c n then [.dir (n / c)] else [])

def numDirs (c n : Nat) : Nat := (n - 1) / c + 1

def position (c : Nat) : Owner → Nat
  | .dir 0 => 0
  | .dir (d + 1) => (layout c ((d + 1) * c)).length + 1
  | .page j => (layout c j).length

theorem LastFull.div_mul {n : Nat} (h : LastFull c n) : n / c * c = n :=
  Nat.div_mul_cancel (Nat.dvd_of_mod_eq_zero h.2)

theorem LastFull.div_pos {n : Nat} (h : LastFull c n) : 0 < n / c := by
  refine Nat.pos_of_ne_zero (fun h0 => ?_)
  have hmul := h.div_mul
  rw [h0, Nat.zero_mul] at hmul
  exact absurd h.1 (by omega)

theorem layout_succ_of_full {n : Nat} (h : LastFull c n) :
    layout c (n + 1) = layout c n ++ [.page n, .dir (n / c)] := by
  rw [layout, if_pos h]

theorem layout_succ_of_not_full {n : Nat} (h : ¬ LastFull c n) :
    layout c (n + 1) = layout c n ++ [.page n] := by
  rw [layout, if_neg h]

theorem numDirs_succ_of_full {n : Nat} (h : LastFull c n) :
    numDirs c n = n / c ∧ numDirs c (n + 1) = n / c + 1 := by
  obtain ⟨hn, hm⟩ := h
  refine ⟨?_, rfl⟩
  unfold numDirs
  obtain ⟨q, rfl⟩ : ∃ q, n = c * q := ⟨n / c, (Nat.mul_div_cancel' (Nat.dvd_of_mod_eq_zero hm)).symm⟩
  cases q with
  | zero => simp at hn
  | succ q =>
    have hc : 0 < c := Nat.pos_of_ne_zero (by rintro rfl; simp at hn)
    have h1 : c * (q + 1) - 1 = c - 1 + c * q := by
      rw [Nat.mul_succ]
      omega
    rw [h1, Nat.add_mul_div_left _ _ hc, Nat.div_eq_of_lt (by omega), Nat.mul_div_cancel_left _ hc]
    omega

theorem numDirs_succ_of_not_full {n : Nat} (h : ¬ LastFull c n) :
    numDirs c n = n / c + 1 ∧ numDirs c (n + 1) = n / c + 1 := by
  refine ⟨?_, rfl⟩
  unfold numDirs
  by_cases hn : n = 0
  · simp [hn]
  · have hm : n % c ≠ 0 := fun hm => h ⟨Nat.pos_of_ne_zero hn, hm⟩
    have hd := Nat.div_add_mod n c
    by_cases hc : c = 0
    · simp [hc]
    · have h1 : n - 1 = n % c - 1 + c * (n / c) := by omega
      have h2 : n % c - 1 < c := by
        have := Nat.mod_lt n (Nat.pos_of_ne_zero hc)
        omega
      rw [h1, Nat.add_mul_div_left _ _ (Nat.pos_of_ne_zero hc), Nat.div_eq_of_lt h2]
      omega

theorem page_mem_layout {n j : Nat} : .page j ∈ layout c n ↔ j < n := by
  induction n with
  | zero => simp [layout]
  | succ n ih =>
    by_cases h : LastFull c n
    · simp [layout_succ_of_full h, ih]
      omega
    · simp [layout_succ_of_not_full h, ih]
      omega

theorem dir_mem_layout {n d : Nat} : .dir d ∈ layout c n ↔ d < numDirs c n := by
  induction n with
  | zero => simp [layout, numDirs]
  | succ n ih =>
    by_cases h : LastFull c n
    · obtain ⟨h1, h2⟩ := numDirs_succ_of_full h
      simp [layout_succ_of_full h, ih, h1, h2]
      omega
    · obtain ⟨h1, h2⟩ := numDirs_succ_of_not_full h
      simp [layout_succ_of_not_full h, ih, h1, h2]

theorem layout_nodup (n : Nat) : (layout c n).Nodup := by
  induction n with
  | zero => simp [layout]
  | succ n ih =>
    have hp : .page n ∉ layout c n := by simp [page_mem_layout]
    by_cases h : LastFull c n
    · have hd : .dir (n / c) ∉ layout c n := by
        rw [dir_mem_layout, (numDirs_succ_of_full h).1]
        omega
      rw [layout_succ_of_full h]
      refine List.Nodup.append ih (by simp) ?_
      simp [List.disjoint_right, hp, hd]
    · rw [layout_succ_of_not_full h]
      refine List.Nodup.append ih (by simp) ?_
      simp [hp]

theorem position_dir_of_full {n : Nat} (h : LastFull c n) :
    position c (.dir (n / c)) = (layout c n).length + 1 := by
  obtain ⟨q, hq⟩ : ∃ q, n / c = q + 1 := Nat.exists_eq_succ_of_ne_zero h.div_pos.ne'
  rw [hq, position, ← hq, h.div_mul]

theorem layout_position {n : Nat} {o : Owner} (ho : o ∈ layout c n) :
    (layout c n)[position c o]? = some o := by
  induction n with
  | zero =>
    obtain rfl : o = .dir 0 := by simpa [layout] using ho
    simp [layout, position]
  | succ n ih =>
    by_cases hin : o ∈ layout c n
    · have hp := ih hin
      have hlt := (List.getElem?_eq_some_iff.mp hp).1
      rw [layout, List.getElem?_append_left hlt, hp]
    · by_cases h : LastFull c n
      · rw [layout_succ_of_full h] at ho ⊢
        have ho' : o = .page n ∨ o = .dir (n / c) := by simpa [hin] using ho
        obtain rfl | rfl := ho'
        · simp [position]
        · rw [position_dir_of_full h, List.getElem?_append_right (by omega)]
          simp
      · rw [layout_succ_of_not_full h] at ho ⊢
        obtain rfl : o = .page n := by simpa [hin] using ho
        simp [position]

theorem position_lt {n : Nat} {o : Owner} (ho : o ∈ layout c n) : position c o < (layout c n).length :=
  (List.getElem?_eq_some_iff.mp (layout_position ho)).1

theorem layout_length (n : Nat) : (layout c n).length = n + numDirs c n := by
  induction n with
  | zero => simp [layout, numDirs]
  | succ n ih =>
    by_cases h : LastFull c n
    · obtain ⟨h1, h2⟩ := numDirs_succ_of_full h
      rw [layout_succ_of_full h, List.length_append, ih, h1, h2]
      simp only [List.length_cons, List.length_nil]
      omega
    · obtain ⟨h1, h2⟩ := numDirs_succ_of_not_full h
      rw [layout_succ_of_not_full h, List.length_append, ih, h1, h2, List.length_singleton]
      omega

theorem layout_length_le (n : Nat) : (layout c n).length ≤ 2 * n + 1 := by
  induction n with
  | zero => simp [layout]
  | succ n ih =>
    rw [layout]
    split <;> simp only [List.length_append, List.length_cons, List.length_nil] <;> omega

end RecordStore.PageLayout
