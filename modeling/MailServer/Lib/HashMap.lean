import Mathlib

/-! # Hash maps built in one pass, and lists of distinct bounded keys

A map filled by inserting a list whose keys are pairwise distinct holds
exactly the pairs of the list, and has as many entries as the list. A list of
distinct keys below a bound is no longer than the bound, which is how a
counter stored in a fixed-width word is shown not to wrap.
-/

namespace Std.HashMap

variable {α β : Type} [BEq α] [Hashable α] [LawfulBEq α] [LawfulHashable α]

theorem getElem?_insertMany_empty_eq_some {l : List (α × β)}
    (hl : l.Pairwise (fun a b => (a.1 == b.1) = false)) {k : α} {v : β} :
    ((∅ : HashMap α β).insertMany l)[k]? = some v ↔ (k, v) ∈ l := by
  constructor
  · intro h
    cases hk : (l.map Prod.fst).contains k with
    | false =>
      rw [getElem?_insertMany_list_of_contains_eq_false hk, getElem?_empty] at h
      cases h
    | true =>
      obtain ⟨⟨k', v'⟩, hmem, rfl⟩ := List.mem_map.mp (List.contains_iff_mem.mp hk)
      rw [getElem?_insertMany_list_of_mem BEq.rfl hl hmem] at h
      cases h
      exact hmem
  · exact getElem?_insertMany_list_of_mem BEq.rfl hl

theorem getElem?_insertMany_eq_some {m : HashMap α β} {l : List (α × β)}
    (hl : l.Pairwise (fun a b => (a.1 == b.1) = false)) {k : α} {v : β} :
    (m.insertMany l)[k]? = some v ↔ (k, v) ∈ l ∨ (k ∉ l.map Prod.fst ∧ m[k]? = some v) := by
  cases hk : (l.map Prod.fst).contains k with
  | false =>
    rw [getElem?_insertMany_list_of_contains_eq_false hk]
    have hk' : k ∉ l.map Prod.fst := by simpa using hk
    constructor
    · exact fun h => Or.inr ⟨hk', h⟩
    · rintro (h | ⟨-, h⟩)
      · exact absurd (List.mem_map_of_mem (f := Prod.fst) h) hk'
      · exact h
  | true =>
    obtain ⟨⟨k', v'⟩, hmem, rfl⟩ := List.mem_map.mp (List.contains_iff_mem.mp hk)
    have hget := getElem?_insertMany_list_of_mem (m := m) BEq.rfl hl hmem
    rw [hget]
    constructor
    · rintro ⟨⟩
      exact Or.inl hmem
    · rintro (h | ⟨hn, -⟩)
      · rw [← hget, getElem?_insertMany_list_of_mem BEq.rfl hl h]
      · exact absurd (List.mem_map_of_mem (f := Prod.fst) hmem) hn

theorem mem_insertMany_empty {l : List (α × β)} {k : α} :
    k ∈ (∅ : HashMap α β).insertMany l ↔ ∃ v, (k, v) ∈ l := by
  simp only [mem_insertMany_list, not_mem_empty, false_or, List.contains_iff_mem,
    List.mem_map, Prod.exists, exists_and_right, exists_eq_right]

theorem size_insertMany_empty {l : List (α × β)}
    (hl : l.Pairwise (fun a b => (a.1 == b.1) = false)) :
    ((∅ : HashMap α β).insertMany l).size = l.length := by
  rw [size_insertMany_list hl (by simp), size_empty, Nat.zero_add]

end Std.HashMap

namespace List

theorem Nodup.length_le_of_mem_Icc {l : List ℕ} {a b : ℕ} (hl : l.Nodup)
    (hmem : ∀ x ∈ l, a ≤ x ∧ x ≤ b) : l.length ≤ b + 1 - a := by
  have hsub : l.toFinset ⊆ Finset.Icc a b := by
    intro x hx
    rw [Finset.mem_Icc]
    exact hmem x (List.mem_toFinset.mp hx)
  calc l.length = l.toFinset.card := (List.toFinset_card_of_nodup hl).symm
    _ ≤ (Finset.Icc a b).card := Finset.card_le_card hsub
    _ = b + 1 - a := Nat.card_Icc a b

end List
