import Mathlib.Data.List.Nodup
import RecordStore.Splice

namespace RecordStore.BlockImage

open RecordStore.Splice

variable {α ω : Type} {size : Nat}

/-- A file tiled by blocks. Each block has an owner, the owners stand in the
order of the blocks, and `content` says what the block of an owner holds. -/
def image (owners : List ω) (content : ω → List α) : List α :=
  owners.flatMap content

theorem image_append (os ps : List ω) (content : ω → List α) :
    image (os ++ ps) content = image os content ++ image ps content := by
  simp [image]

theorem image_length {owners : List ω} {content : ω → List α}
    (hs : ∀ o ∈ owners, (content o).length = size) :
    (image owners content).length = owners.length * size := by
  induction owners with
  | nil => simp [image]
  | cons o os ih =>
    have ho := hs o (by simp)
    have hr := ih (fun p hp => hs p (by simp [hp]))
    simp only [image, List.flatMap_cons, List.length_append, List.length_cons] at hr ⊢
    rw [ho, hr, Nat.succ_mul, Nat.add_comm]

theorem image_congr {owners : List ω} {f g : ω → List α} (h : ∀ o ∈ owners, f o = g o) :
    image owners f = image owners g := by
  induction owners with
  | nil => rfl
  | cons o os ih =>
    have ho := h o (by simp)
    have hr := ih (fun p hp => h p (by simp [hp]))
    simp only [image, List.flatMap_cons] at hr ⊢
    rw [ho, hr]

theorem image_split {owners : List ω} {content : ω → List α} {i : Nat} {o : ω}
    (hs : ∀ p ∈ owners, (content p).length = size) (ho : owners[i]? = some o) :
    ∃ before after, image owners content = before ++ (content o ++ after) ∧
      before.length = i * size ∧ before = image (owners.take i) content ∧
      after = image (owners.drop (i + 1)) content := by
  obtain ⟨hi, he⟩ := List.getElem?_eq_some_iff.mp ho
  have hsplit : owners = owners.take i ++ o :: owners.drop (i + 1) := by
    rw [← he, ← List.drop_eq_getElem_cons hi, List.take_append_drop]
  refine ⟨_, _, ?_, ?_, rfl, rfl⟩
  · conv_lhs => rw [hsplit, image_append]
    simp [image]
  · have hl := image_length (fun p hp => hs p (List.mem_of_mem_take (i := i) hp))
    rw [hl, List.length_take]
    congr 1
    omega

theorem slice_image {owners : List ω} {content : ω → List α} {i : Nat} {o : ω}
    (hs : ∀ p ∈ owners, (content p).length = size) (ho : owners[i]? = some o) :
    slice (image owners content) (i * size) size = content o := by
  obtain ⟨before, after, he, hb, -, -⟩ := image_split hs ho
  have hl := hs o (List.mem_of_getElem? ho)
  rw [he, ← hb]
  conv_lhs => rw [← hl]
  exact slice_append before (content o) after

theorem splice_image [DecidableEq ω] {owners : List ω} {content : ω → List α} {i : Nat} {o : ω}
    (hnd : owners.Nodup) (hs : ∀ p ∈ owners, (content p).length = size)
    (ho : owners[i]? = some o) {x : List α} (hx : x.length = size) :
    splice (image owners content) (i * size) x =
      image owners (Function.update content o x) := by
  obtain ⟨hi, he⟩ := List.getElem?_eq_some_iff.mp ho
  have hsplit : owners = owners.take i ++ o :: owners.drop (i + 1) := by
    rw [← he, ← List.drop_eq_getElem_cons hi, List.take_append_drop]
  obtain ⟨before, after, him, hb, hbe, haf⟩ := image_split hs ho
  have hl : (content o).length = x.length := (hs o (List.mem_of_getElem? ho)).trans hx.symm
  rw [hsplit, List.nodup_append, List.nodup_cons] at hnd
  obtain ⟨-, ⟨hafter, -⟩, hbefore⟩ := hnd
  have hub : image (owners.take i) (Function.update content o x) = before := by
    rw [hbe]
    refine image_congr (fun p hp => Function.update_of_ne ?_ _ _)
    exact hbefore p hp o (by simp)
  have hua : image (owners.drop (i + 1)) (Function.update content o x) = after := by
    rw [haf]
    refine image_congr (fun p hp => Function.update_of_ne ?_ _ _)
    rintro rfl
    exact hafter hp
  have hnew : image owners (Function.update content o x) = before ++ (x ++ after) := by
    conv_lhs => rw [hsplit, image_append]
    rw [hub, ← hua]
    simp [image]
  rw [hnew, him, ← hb, splice_append before (content o) x after hl]

end RecordStore.BlockImage
