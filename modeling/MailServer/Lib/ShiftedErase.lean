import Mathlib

/-! # Erasing positions one after another

Erasing the elements at the 1-based positions `p₀ < p₁ < …` of a list one after
another, from the front, moves every later element down by one place at each
erasure. Lowering each position by the number of positions before it
(`shiftDown`) makes the erasures hit exactly the elements at the original
positions: erasing `shiftDown (positions p l)` from `l` keeps the elements that do
not satisfy `p`, in their order.
-/

namespace List

variable {α : Type}

/-- Erases the element at each 1-based position in turn. -/
def eraseEach (ns : List ℕ) (l : List α) : List α :=
  ns.foldl (fun l n => l.eraseIdx (n - 1)) l

/-- Each position lowered by the number of positions before it. -/
def shiftDown (ps : List ℕ) : List ℕ :=
  ps.zipIdx.map fun p => p.1 - p.2

/-- The 1-based positions of the elements that satisfy `p`, in increasing order. -/
def positions (p : α → Bool) : List α → List ℕ
  | [] => []
  | a :: l => if p a then 1 :: (positions p l).map (· + 1) else (positions p l).map (· + 1)

theorem eraseEach_cons (n : ℕ) (ns : List ℕ) (l : List α) :
    eraseEach (n :: ns) l = eraseEach ns (l.eraseIdx (n - 1)) := rfl

theorem eraseEach_map_succ {ns : List ℕ} (hns : ∀ n ∈ ns, 1 ≤ n) (a : α) (l : List α) :
    eraseEach (ns.map (· + 1)) (a :: l) = a :: eraseEach ns l := by
  induction ns generalizing l with
  | nil => rfl
  | cons n ns ih =>
    obtain ⟨m, rfl⟩ : ∃ m, n = m + 1 := ⟨n - 1, by have := hns n mem_cons_self; omega⟩
    rw [map_cons, eraseEach_cons, Nat.add_sub_cancel, eraseIdx_cons_succ, eraseEach_cons,
      Nat.add_sub_cancel, ih (fun n hn => hns n (mem_cons_of_mem _ hn))]

theorem shiftDown_one_cons (ps : List ℕ) : shiftDown (1 :: ps.map (· + 1)) = 1 :: shiftDown ps := by
  simp [shiftDown, zipIdx_cons, zipIdx_succ, zipIdx_map]

theorem shiftDown_map_succ {ps : List ℕ} (h : ∀ x ∈ ps.zipIdx, x.2 ≤ x.1) :
    shiftDown (ps.map (· + 1)) = (shiftDown ps).map (· + 1) := by
  simp only [shiftDown, zipIdx_map, map_map]
  apply map_congr_left
  intro x hx
  have := h x hx
  simp only [Function.comp_apply, Prod.map_fst, Prod.map_snd, id_eq]
  omega

theorem mem_positions {p : α → Bool} {l : List α} {n : ℕ} :
    n ∈ positions p l ↔ ∃ i, ∃ h : i < l.length, p l[i] = true ∧ n = i + 1 := by
  induction l generalizing n with
  | nil => simp [positions]
  | cons a l ih =>
    have hsucc : n ∈ (positions p l).map (· + 1) ↔
        ∃ i, ∃ h : i < l.length, p l[i] = true ∧ n = i + 2 := by
      simp only [mem_map, ih]
      constructor
      · rintro ⟨m, ⟨i, hi, hp, rfl⟩, rfl⟩
        exact ⟨i, hi, hp, rfl⟩
      · rintro ⟨i, hi, hp, rfl⟩
        exact ⟨i + 1, ⟨i, hi, hp, rfl⟩, rfl⟩
    have hcons : (∃ i, ∃ h : i < (a :: l).length, p (a :: l)[i] = true ∧ n = i + 1) ↔
        (p a = true ∧ n = 1) ∨ ∃ i, ∃ h : i < l.length, p l[i] = true ∧ n = i + 2 := by
      constructor
      · rintro ⟨_ | i, hi, hp, rfl⟩
        · exact Or.inl ⟨hp, rfl⟩
        · exact Or.inr ⟨i, by simpa using hi, hp, rfl⟩
      · rintro (⟨hp, rfl⟩ | ⟨i, hi, hp, rfl⟩)
        · exact ⟨0, by simp, hp, rfl⟩
        · exact ⟨i + 1, by simpa using hi, hp, rfl⟩
    rw [hcons, positions]
    split_ifs with hp
    · rw [mem_cons, hsucc]
      simp [hp]
    · rw [hsucc]
      simp [hp]

theorem one_le_of_mem_positions {p : α → Bool} {l : List α} {n : ℕ} (h : n ∈ positions p l) :
    1 ≤ n := by
  obtain ⟨i, -, -, rfl⟩ := mem_positions.mp h
  omega

theorem pairwise_positions (p : α → Bool) (l : List α) : (positions p l).Pairwise (· < ·) := by
  induction l with
  | nil => exact Pairwise.nil
  | cons a l ih =>
    have hmap : ((positions p l).map (· + 1)).Pairwise (· < ·) :=
      pairwise_map.mpr (ih.imp fun h => by omega)
    rw [positions]
    split_ifs
    · refine Pairwise.cons (fun n hn => ?_) hmap
      obtain ⟨m, hm, rfl⟩ := mem_map.mp hn
      have := one_le_of_mem_positions hm
      omega
    · exact hmap

theorem length_positions_le (p : α → Bool) (l : List α) : (positions p l).length ≤ l.length := by
  induction l with
  | nil => exact le_refl _
  | cons a l ih =>
    rw [positions]
    split_ifs <;> simp <;> omega

theorem lt_of_getElem?_positions {p : α → Bool} {l : List α} {i q : ℕ}
    (h : (positions p l)[i]? = some q) : i < q := by
  induction l generalizing i q with
  | nil => simp [positions] at h
  | cons a l ih =>
    rw [positions] at h
    split_ifs at h
    · cases i with
      | zero =>
        simp only [getElem?_cons_zero, Option.some.injEq] at h
        omega
      | succ i =>
        rw [getElem?_cons_succ, getElem?_map] at h
        obtain ⟨q', hq', rfl⟩ := Option.map_eq_some_iff.mp h
        have := ih hq'
        omega
    · rw [getElem?_map] at h
      obtain ⟨q', hq', rfl⟩ := Option.map_eq_some_iff.mp h
      have := ih hq'
      omega

theorem one_le_of_mem_shiftDown_positions {p : α → Bool} {l : List α} {n : ℕ}
    (h : n ∈ shiftDown (positions p l)) : 1 ≤ n := by
  obtain ⟨x, hx, rfl⟩ := mem_map.mp h
  have := lt_of_getElem?_positions (mem_zipIdx_iff_getElem?.mp hx)
  omega

theorem eraseEach_shiftDown_positions (p : α → Bool) (l : List α) :
    eraseEach (shiftDown (positions p l)) l = l.filter (fun a => !p a) := by
  induction l with
  | nil => rfl
  | cons a l ih =>
    rw [positions]
    cases hp : p a
    · have hle : ∀ x ∈ (positions p l).zipIdx, x.2 ≤ x.1 :=
        fun x hx => (lt_of_getElem?_positions (mem_zipIdx_iff_getElem?.mp hx)).le
      rw [if_neg Bool.false_ne_true, shiftDown_map_succ hle,
        eraseEach_map_succ (fun n hn => one_le_of_mem_shiftDown_positions hn), ih]
      simp [hp]
    · rw [if_pos rfl, shiftDown_one_cons, eraseEach_cons, Nat.sub_self, eraseIdx_cons_zero, ih]
      simp [hp]

end List
