import RecordStore.CFile

namespace RecordStore.RecordFile

open RecordStore.Splice RecordStore.CFile

variable {rs : Nat} {recs : List (List Byte)}

/-- The whole records of `rs` bytes at the start of `bytes`. -/
def records (rs : Nat) (bytes : List Byte) : List (List Byte) :=
  (List.range (bytes.length / rs)).map (fun i => slice bytes (i * rs) rs)

def Uniform (rs : Nat) (recs : List (List Byte)) : Prop := ∀ r ∈ recs, r.length = rs

theorem Uniform.append {recs' : List (List Byte)} (h : Uniform rs recs) (h' : Uniform rs recs') :
    Uniform rs (recs ++ recs') := by
  intro r hr
  obtain hr | hr := List.mem_append.mp hr
  · exact h r hr
  · exact h' r hr

theorem Uniform.of_perm {recs' : List (List Byte)} (h : Uniform rs recs) (hp : recs'.Perm recs) :
    Uniform rs recs' := fun r hr => h r (hp.mem_iff.mp hr)

theorem flatten_length (h : Uniform rs recs) : recs.flatten.length = recs.length * rs := by
  induction recs with
  | nil => simp
  | cons r recs ih =>
    have hr := h r (List.mem_cons_self ..)
    have ih := ih (fun r hr => h r (List.mem_cons_of_mem _ hr))
    rw [List.flatten_cons, List.length_append, hr, ih, List.length_cons, Nat.succ_mul, Nat.add_comm]

theorem slice_flatten (h : Uniform rs recs) (i n : Nat) :
    slice recs.flatten (i * rs) (n * rs) = (slice recs i n).flatten := by
  have hu : ∀ l, (∀ r ∈ l, r ∈ recs) → Uniform rs l := fun l hl r hr => h r (hl r hr)
  have hdrop : recs.flatten.drop (i * rs) = (recs.drop i).flatten := by
    obtain hle | hlt := Nat.le_total i recs.length
    · have hlen : (recs.take i).flatten.length = i * rs := by
        rw [flatten_length (hu _ (fun r hr => List.mem_of_mem_take hr)), List.length_take,
          Nat.min_eq_left hle]
      conv_lhs => rw [← List.take_append_drop i recs, List.flatten_append]
      rw [← hlen, List.drop_left]
    · rw [List.drop_eq_nil_of_le hlt, List.drop_eq_nil_of_le]
      · rfl
      · rw [flatten_length h]
        exact Nat.mul_le_mul_right _ hlt
  have htake : ∀ l : List (List Byte), Uniform rs l → l.flatten.take (n * rs) = (l.take n).flatten := by
    intro l hl
    obtain hle | hlt := Nat.le_total n l.length
    · have hlen : (l.take n).flatten.length = n * rs := by
        rw [flatten_length (fun r hr => hl r (List.mem_of_mem_take hr)), List.length_take,
          Nat.min_eq_left hle]
      conv_lhs => rw [← List.take_append_drop n l, List.flatten_append]
      rw [← hlen, List.take_left]
    · rw [List.take_of_length_le hlt, List.take_of_length_le]
      rw [flatten_length hl]
      exact Nat.mul_le_mul_right _ hlt
  rw [slice, hdrop, htake _ (hu _ (fun r hr => List.mem_of_mem_drop hr)), slice]

theorem slice_record (h : Uniform rs recs) {i : Nat} {r : List Byte} (hi : recs[i]? = some r) :
    slice recs.flatten (i * rs) rs = r := by
  have hs := slice_flatten h i 1
  obtain ⟨hlt, rfl⟩ := List.getElem?_eq_some_iff.mp hi
  rw [Nat.one_mul] at hs
  rw [hs, slice, List.drop_eq_getElem_cons hlt, List.take_succ_cons, List.take_zero,
    List.flatten_singleton]

theorem records_flatten (hrs : 0 < rs) (h : Uniform rs recs) : records rs recs.flatten = recs := by
  apply List.ext_getElem?
  intro i
  rw [records, flatten_length h, Nat.mul_div_cancel _ hrs, List.getElem?_map]
  cases hi : recs[i]? with
  | none =>
    have hle := List.getElem?_eq_none_iff.mp hi
    simp [hle]
  | some r =>
    have hlt := (List.getElem?_eq_some_iff.mp hi).1
    simp [hlt, slice_record h hi]

theorem records_uniform (rs : Nat) (bytes : List Byte) : Uniform rs (records rs bytes) := by
  intro r hr
  obtain ⟨i, hi, rfl⟩ := List.mem_map.mp hr
  have hi := List.mem_range.mp hi
  apply slice_length_of_le
  have h1 := Nat.mul_le_mul_right rs (Nat.succ_le_of_lt hi)
  have h2 := Nat.div_mul_le_self bytes.length rs
  rw [Nat.succ_mul] at h1
  omega

theorem records_length (rs : Nat) (bytes : List Byte) : (records rs bytes).length = bytes.length / rs := by
  simp [records]

theorem getElem?_records (rs : Nat) (bytes : List Byte) (i : Nat) :
    (records rs bytes)[i]? = if i < bytes.length / rs then some (slice bytes (i * rs) rs) else none := by
  rw [records, List.getElem?_map]
  split
  case isTrue hi => rw [List.getElem?_range hi, Option.map_some]
  case isFalse hi => rw [List.getElem?_eq_none (by simpa using hi), Option.map_none]

theorem records_drop (bytes : List Byte) (n : Nat) :
    records rs (bytes.drop (n * rs)) = (records rs bytes).drop n := by
  apply List.ext_getElem?
  intro i
  have hslice : slice (bytes.drop (n * rs)) (i * rs) rs = slice bytes ((n + i) * rs) rs := by
    rw [slice, List.drop_drop, ← Nat.add_mul, slice]
  have hlen : i < (bytes.length - n * rs) / rs ↔ n + i < bytes.length / rs := by
    rw [Nat.mul_comm, Nat.sub_mul_div, Nat.lt_sub_iff_add_lt, Nat.add_comm]
  rw [List.getElem?_drop, getElem?_records, getElem?_records, List.length_drop, hslice]
  exact if_congr hlen rfl rfl

theorem records_take (hrs : 0 < rs) (bytes : List Byte) (n : Nat) :
    records rs (bytes.take (n * rs)) = (records rs bytes).take n := by
  apply List.ext_getElem?
  intro i
  have hlen : i < (bytes.take (n * rs)).length / rs ↔ i < n ∧ i < bytes.length / rs := by
    rw [← Nat.succ_le_iff, Nat.le_div_iff_mul_le hrs, List.length_take, Nat.le_min,
      ← Nat.le_div_iff_mul_le hrs, ← Nat.le_div_iff_mul_le hrs, Nat.mul_div_cancel _ hrs]
    exact Iff.rfl
  rw [List.getElem?_take, getElem?_records, getElem?_records]
  by_cases hn : i < n
  · have hslice : slice (bytes.take (n * rs)) (i * rs) rs = slice bytes (i * rs) rs := by
      have hle := Nat.mul_le_mul_right rs (Nat.succ_le_of_lt hn)
      rw [Nat.succ_mul] at hle
      rw [slice, List.drop_take, List.take_take, Nat.min_eq_left (by omega), slice]
    rw [if_pos hn, hslice]
    exact if_congr (hlen.trans (and_iff_right hn)) rfl rfl
  · rw [if_neg hn, if_neg (fun h => hn (hlen.mp h).1)]

theorem flatten_records (hrs : 0 < rs) (bytes : List Byte) :
    (records rs bytes).flatten = bytes.take (bytes.length / rs * rs) := by
  have hu := records_uniform rs bytes
  have hlen := flatten_length hu
  rw [records_length] at hlen
  have hle := Nat.div_mul_le_self bytes.length rs
  apply List.ext_getElem?
  intro p
  by_cases hp : p < bytes.length / rs * rs
  · have hq : p / rs < bytes.length / rs := Nat.div_lt_of_lt_mul (by rwa [Nat.mul_comm])
    have hrec : (records rs bytes)[p / rs]? = some (slice bytes (p / rs * rs) rs) := by
      simp [records, hq]
    have hs := slice_record hu hrec
    have hm := Nat.mod_lt p hrs
    have hdm := Nat.div_add_mod' p rs
    have hget := congrArg (fun l => l[p % rs]?) hs
    simp only [getElem?_slice, if_pos hm, hdm] at hget
    rw [hget, List.getElem?_take, if_pos hp]
  · rw [List.getElem?_eq_none (by omega), List.getElem?_eq_none (by rw [List.length_take]; omega)]

end RecordStore.RecordFile
