import Mathlib

/-! # Sorted maps

A finite map kept as its entries in strictly increasing key order, the way an
ordered tree map is iterated. Only a key that is not yet present can be
inserted; inserting keys in increasing order appends them, so a map is rebuilt
entry by entry from its own iteration.
-/

namespace MailServer.Lib

/-- Entries sorted by strictly increasing keys. -/
structure SortedMap (κ β : Type) [LinearOrder κ] where
  entries : List (κ × β)
  sorted : entries.Pairwise (fun a b => a.1 < b.1)

namespace SortedMap

variable {κ β : Type} [LinearOrder κ]

def empty : SortedMap κ β := ⟨[], List.Pairwise.nil⟩

def single (k : κ) (v : β) : SortedMap κ β := ⟨[(k, v)], List.pairwise_singleton _ _⟩

def keys (m : SortedMap κ β) : List κ := m.entries.map Prod.fst

/-- Places an entry before the first larger key. -/
def insertSorted (k : κ) (v : β) : List (κ × β) → List (κ × β)
  | [] => [(k, v)]
  | a :: rest => if k < a.1 then (k, v) :: a :: rest else a :: insertSorted k v rest

theorem mem_insertSorted {k : κ} {v : β} {a : κ × β} {l : List (κ × β)} :
    a ∈ insertSorted k v l ↔ a = (k, v) ∨ a ∈ l := by
  induction l with
  | nil => simp [insertSorted]
  | cons b rest ih =>
    rw [insertSorted]
    split_ifs <;> simp [ih, or_left_comm]

theorem insertSorted_sorted {k : κ} {v : β} {l : List (κ × β)}
    (hl : l.Pairwise (fun a b => a.1 < b.1)) (hk : k ∉ l.map Prod.fst) :
    (insertSorted k v l).Pairwise (fun a b => a.1 < b.1) := by
  induction l with
  | nil => simp [insertSorted]
  | cons b rest ih =>
    obtain ⟨hb, hrest⟩ := List.pairwise_cons.mp hl
    have hkb : k ≠ b.1 := fun h => hk (by simp [h])
    rw [insertSorted]
    split_ifs with hlt
    · apply List.Pairwise.cons _ hl
      intro a ha
      rcases List.mem_cons.mp ha with rfl | ha
      · exact hlt
      · exact lt_trans hlt (hb a ha)
    · apply List.Pairwise.cons _ (ih hrest (fun h => hk (List.mem_cons_of_mem _ h)))
      intro a ha
      rcases mem_insertSorted.mp ha with rfl | ha
      · exact lt_of_le_of_ne (not_lt.mp hlt) (Ne.symm hkb)
      · exact hb a ha

theorem insertSorted_of_lt {k : κ} {v : β} {l : List (κ × β)} (h : ∀ a ∈ l, a.1 < k) :
    insertSorted k v l = l ++ [(k, v)] := by
  induction l with
  | nil => rfl
  | cons b rest ih =>
    have hb : ¬k < b.1 := not_lt.mpr (h b (by simp)).le
    rw [insertSorted, if_neg hb, ih (fun a ha => h a (List.mem_cons_of_mem _ ha)),
      List.cons_append]

/-- Inserts a key that is not present yet; a present key gives `none`. -/
def insertNew (m : SortedMap κ β) (k : κ) (v : β) : Option (SortedMap κ β) :=
  if hk : k ∈ m.keys then none else some ⟨insertSorted k v m.entries, insertSorted_sorted m.sorted hk⟩

theorem insertNew_of_lt {m : SortedMap κ β} {k : κ} (v : β) (h : ∀ a ∈ m.entries, a.1 < k) :
    ∃ m', m.insertNew k v = some m' ∧ m'.entries = m.entries ++ [(k, v)] := by
  have hk : k ∉ m.keys := by
    intro hk
    obtain ⟨a, ha, rfl⟩ := List.mem_map.mp hk
    exact lt_irrefl _ (h a ha)
  exact ⟨_, dif_neg hk, insertSorted_of_lt h⟩

theorem ext_entries {m m' : SortedMap κ β} (h : m.entries = m'.entries) : m = m' := by
  cases m
  cases m'
  congr

/-! ## Lookups -/

theorem lookup_eq_none_of_lt {l : List (κ × β)} {k : κ} (h : ∀ a ∈ l, k < a.1) :
    l.lookup k = none := by
  rw [List.lookup_eq_none_iff]
  intro a ha
  simpa using (h a ha).ne

theorem lookup_eq_some_iff_mem_of_sorted {l : List (κ × β)} (hl : l.Pairwise fun a b => a.1 < b.1)
    {k : κ} {v : β} : l.lookup k = some v ↔ (k, v) ∈ l := by
  induction l with
  | nil => simp
  | cons a l ih =>
    obtain ⟨k', v'⟩ := a
    rw [List.pairwise_cons] at hl
    by_cases hk : k = k'
    · subst hk
      have hnot : (k, v) ∉ l := fun hmem => lt_irrefl k (hl.1 (k, v) hmem)
      simp [hnot, eq_comm]
    · have hb : (k == k') = false := beq_eq_false_iff_ne.mpr hk
      simp [List.lookup_cons, hb, hk, ih hl.2]

theorem lookup_eq_some_iff_mem (m : SortedMap κ β) {k : κ} {v : β} :
    m.entries.lookup k = some v ↔ (k, v) ∈ m.entries :=
  lookup_eq_some_iff_mem_of_sorted m.sorted

end SortedMap

end MailServer.Lib
