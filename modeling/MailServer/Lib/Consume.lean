import Mathlib.Data.List.Basic

/-! # Loops that may break

`for a in as { if !body(a) { break } }` over a list, where the body changes a state and says
whether to go on: `consume step s as` is the state after the loop and whether it ran to the
end. A loop over two lists one after the other is the loop over the first and, if it did
not break, the loop over the second (`consume_append_of_true`, `consume_append_of_false`);
items that leave the state as it is and go on can be dropped (`consume_append_of_fixed`),
and a body that only appends to the state runs to the end (`consume_of_append`).
A body that skips items while a counter is positive and then collects them until it holds
`n` of them (`SkipTake`) collects exactly the `n` items after the skipped ones
(`SkipTake.consume_eq`).
-/

namespace MailServer.Lib.Consume

variable {σ α : Type} (step : σ → α → σ × Bool)

/-- The state after the loop over the list, and whether the loop ran to the end. -/
def consume : σ → List α → σ × Bool
  | s, [] => (s, true)
  | s, a :: as => if (step s a).2 then consume (step s a).1 as else ((step s a).1, false)

variable {step}

@[simp] theorem consume_nil (s : σ) : consume step s [] = (s, true) := rfl

theorem consume_cons (s : σ) (a : α) (as : List α) :
    consume step s (a :: as) =
      if (step s a).2 then consume step (step s a).1 as else ((step s a).1, false) := rfl

theorem consume_cons_of_true {s s' : σ} {a : α} (h : step s a = (s', true)) (as : List α) :
    consume step s (a :: as) = consume step s' as := by
  rw [consume_cons, h, if_pos rfl]

theorem consume_cons_of_false {s s' : σ} {a : α} (h : step s a = (s', false)) (as : List α) :
    consume step s (a :: as) = (s', false) := by
  rw [consume_cons, h]
  rfl

theorem consume_append_of_true {s s' : σ} {xs : List α} (h : consume step s xs = (s', true))
    (ys : List α) : consume step s (xs ++ ys) = consume step s' ys := by
  induction xs generalizing s with
  | nil =>
    cases h
    rfl
  | cons a xs ih =>
    rw [consume_cons] at h
    rw [List.cons_append, consume_cons]
    by_cases hgo : (step s a).2
    · rw [if_pos hgo] at h ⊢
      exact ih h
    · rw [if_neg hgo] at h
      cases h

theorem consume_append_of_false {s s' : σ} {xs : List α} (h : consume step s xs = (s', false))
    (ys : List α) : consume step s (xs ++ ys) = (s', false) := by
  induction xs generalizing s with
  | nil => cases h
  | cons a xs ih =>
    rw [consume_cons] at h
    rw [List.cons_append, consume_cons]
    by_cases hgo : (step s a).2
    · rw [if_pos hgo] at h ⊢
      exact ih h
    · rw [if_neg hgo] at h ⊢
      exact h

theorem consume_append_of_fixed {s : σ} {xs : List α} (hfix : ∀ a ∈ xs, step s a = (s, true))
    (ys : List α) : consume step s (xs ++ ys) = consume step s ys := by
  induction xs with
  | nil => rfl
  | cons a xs ih =>
    rw [List.cons_append, consume_cons_of_true (hfix a List.mem_cons_self)]
    exact ih fun b hb => hfix b (List.mem_cons_of_mem a hb)

theorem consume_cons_congr {s s' : σ} {a : α} (h : step s a = step s' a) (as : List α) :
    consume step s (a :: as) = consume step s' (a :: as) := by
  rw [consume_cons, consume_cons, h]

theorem consume_of_append {β : Type} (mk : List β → σ) (f : α → β) {as : List α}
    (happend : ∀ out, ∀ a ∈ as, step (mk out) a = (mk (out ++ [f a]), true)) (out : List β) :
    consume step (mk out) as = (mk (out ++ as.map f), true) := by
  induction as generalizing out with
  | nil => simp
  | cons a as ih =>
    rw [consume_cons_of_true (happend out a List.mem_cons_self),
      ih (fun out b hb => happend out b (List.mem_cons_of_mem a hb))]
    simp

theorem consume_map {τ : Type} {step' : τ → α → τ × Bool} (g : σ → τ)
    (hcomm : ∀ s a, step' (g s) a = (g (step s a).1, (step s a).2)) (s : σ) (as : List α) :
    consume step' (g s) as = (g (consume step s as).1, (consume step s as).2) := by
  induction as generalizing s with
  | nil => rfl
  | cons a as ih =>
    rw [consume_cons, consume_cons, hcomm]
    by_cases hgo : (step s a).2
    · simp only [hgo, if_true, ih]
    · simp only [hgo, Bool.false_eq_true, if_false]

theorem consume_invariant {P : σ → Prop} {as : List α} (hstep : ∀ s, ∀ a ∈ as, P s → P (step s a).1)
    {s : σ} (hs : P s) : P (consume step s as).1 := by
  induction as generalizing s with
  | nil => exact hs
  | cons a as ih =>
    rw [consume_cons]
    have hs' := hstep s a List.mem_cons_self hs
    by_cases hgo : (step s a).2
    · rw [if_pos hgo]
      exact ih (fun t b hb => hstep t b (List.mem_cons_of_mem a hb)) hs'
    · rw [if_neg hgo]
      exact hs'

section SkipTake

variable {β : Type} (step) (mk : ℕ → List β → σ) (f : α → β) (n : ℕ)

/-- The body skips items while the counter of `mk` is positive, then collects the image of
each item under `f` and stops once it holds `n` of them. -/
structure SkipTake : Prop where
  skip : ∀ c out a, step (mk (c + 1) out) a = (mk c out, true)
  take : ∀ out a, step (mk 0 out) a = (mk 0 (out ++ [f a]), out.length + 1 != n)

variable {step mk f n}

theorem SkipTake.take_of_full (h : SkipTake step mk f n) {out : List β} (hfull : out.length + 1 = n)
    (a : α) : step (mk 0 out) a = (mk 0 (out ++ [f a]), false) := by
  rw [h.take]
  simp [hfull]

theorem SkipTake.take_of_room (h : SkipTake step mk f n) {out : List β} (hroom : out.length + 1 ≠ n)
    (a : α) : step (mk 0 out) a = (mk 0 (out ++ [f a]), true) := by
  rw [h.take]
  simp [hroom]

theorem SkipTake.consume_eq (h : SkipTake step mk f n) {out : List β} (hout : out.length < n)
    (c : ℕ) (as : List α) :
    (consume step (mk c out) as).1 =
      mk (c - as.length) (out ++ ((as.drop c).take (n - out.length)).map f) := by
  induction as generalizing c out with
  | nil => simp
  | cons a as ih =>
    cases c with
    | succ c =>
      rw [consume_cons_of_true (h.skip c out a), ih hout c]
      simp
    | zero =>
      by_cases hfull : out.length + 1 = n
      · -- the item fills the window: the loop stops with it
        rw [consume_cons_of_false (h.take_of_full hfull a)]
        have hk : n - out.length = 1 := by omega
        simp [hk]
      · have hk : n - out.length = n - (out ++ [f a]).length + 1 := by
          simp only [List.length_append, List.length_singleton]
          omega
        rw [consume_cons_of_true (h.take_of_room hfull a), ih (by simp; omega) 0, hk]
        simp

end SkipTake

end MailServer.Lib.Consume
