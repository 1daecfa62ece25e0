import Mathlib.Data.List.Sort
import Mathlib.Data.List.Lex

/-! # Sorting by keys compared position after position

Lists compared lexicographically are ordered by the first position where they differ: two
lists whose first `n` entries differ compare as those entries do (`lt_iff_take_lt`), and so
do any two lists that agree with them on the first `n` entries (`lt_iff_lt_of_take_eq`).
Insertion sort reads its relation only on the items of the list, so two relations that
agree there sort it the same way (`insertionSort_congr`).
-/

namespace MailServer.Lib.Lex

section Take

variable {α : Type} [LinearOrder α]

theorem lt_iff_take_lt : ∀ (n : ℕ) {u v : List α}, u.take n ≠ v.take n →
    (u < v ↔ u.take n < v.take n)
  | 0, _, _, h => absurd rfl h
  | _ + 1, [], [], h => absurd rfl h
  | _ + 1, [], _ :: _, _ => by simp [List.nil_lt_cons]
  | _ + 1, _ :: _, [], _ => by simp [List.not_lt_nil]
  | n + 1, a :: u, b :: v, h => by
    rw [List.take_succ_cons, List.take_succ_cons] at h ⊢
    rw [List.cons_lt_cons_iff, List.cons_lt_cons_iff]
    by_cases hab : a = b
    · -- equal heads: the lists differ in their tails' first `n` entries
      subst hab
      have htail : u.take n ≠ v.take n := fun he => h (by rw [he])
      simp [lt_iff_take_lt n htail]
    · simp [hab]

theorem lt_iff_lt_of_take_eq {n : ℕ} {u v u' v' : List α} (hu : u.take n = u'.take n)
    (hv : v.take n = v'.take n) (h : u.take n ≠ v.take n) : u < v ↔ u' < v' := by
  have h' : u'.take n ≠ v'.take n := by rwa [← hu, ← hv]
  rw [lt_iff_take_lt n h, lt_iff_take_lt n h', hu, hv]

end Take

section Congr

variable {β : Type} {r s : β → β → Prop} [DecidableRel r] [DecidableRel s]

theorem orderedInsert_congr {a : β} {l : List β} (h : ∀ b ∈ l, r a b ↔ s a b) :
    l.orderedInsert r a = l.orderedInsert s a := by
  induction l with
  | nil => rfl
  | cons b l ih =>
    have hb : r a b ↔ s a b := h b List.mem_cons_self
    rw [List.orderedInsert_cons, List.orderedInsert_cons,
      ih fun c hc => h c (List.mem_cons_of_mem b hc)]
    by_cases hr : r a b
    · rw [if_pos hr, if_pos (hb.mp hr)]
    · rw [if_neg hr, if_neg (mt hb.mpr hr)]

theorem insertionSort_congr {l : List β} (h : ∀ a ∈ l, ∀ b ∈ l, r a b ↔ s a b) :
    l.insertionSort r = l.insertionSort s := by
  induction l with
  | nil => rfl
  | cons a l ih =>
    have htail : l.insertionSort r = l.insertionSort s :=
      ih fun b hb c hc => h b (List.mem_cons_of_mem a hb) c (List.mem_cons_of_mem a hc)
    rw [List.insertionSort_cons, List.insertionSort_cons, htail]
    exact orderedInsert_congr fun b hb =>
      h a List.mem_cons_self b (List.mem_cons_of_mem a ((List.mem_insertionSort s).mp hb))

end Congr

end MailServer.Lib.Lex
