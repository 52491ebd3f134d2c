import Mathlib.Data.List.Infix

namespace RecordStore.PrefixCode

variable {α β : Type}

/-- How a value is written, and how one is read from the front of a text. -/
structure Code (β α : Type) where
  encode : α → List β
  decode : List β → Option (α × List β)

/-- What is read is what was written, whatever follows it, and nothing is read from a text that ends
inside of a value. -/
structure Lawful (valid : α → Prop) (c : Code β α) : Prop where
  read : ∀ a, valid a → ∀ rest, c.decode (c.encode a ++ rest) = some (a, rest)
  cut : ∀ a, valid a → ∀ text, text <+: c.encode a → text ≠ c.encode a → c.decode text = none

theorem prefix_append_cases {text u v : List β} (h : text <+: u ++ v) :
    (text <+: u ∧ text ≠ u) ∨ ∃ t, text = u ++ t ∧ t <+: v := by
  obtain hle | hlt := Nat.lt_or_ge text.length u.length
  · left
    exact ⟨List.prefix_of_prefix_length_le h (List.prefix_append u v) hle.le, fun he => by
      rw [he] at hle
      exact Nat.lt_irrefl _ hle⟩
  · right
    obtain ⟨t, rfl⟩ := List.prefix_of_prefix_length_le (List.prefix_append u v) h hlt
    exact ⟨t, rfl, (List.prefix_append_right_inj u).mp h⟩

end RecordStore.PrefixCode
