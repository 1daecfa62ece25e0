import Mathlib.Logic.Basic

/-! # Iterators as step functions

An iterator is modelled by its `next`, a step function `σ → Option α × σ` on the state of
what is left of it: the item, if any, and the state after the call, which may have moved
even when no item came. `Yields next s xs s'` says that from `s` it returns the items `xs`,
one call each, and is then in `s'`. Traces compose and split (`Yields.append`,
`Yields.of_append`).
-/

namespace MailServer.Lib.Iter

variable {σ α : Type}

/-- From `s`, the iterator returns the items `xs` and is then in `s'`. -/
inductive Yields (next : σ → Option α × σ) : σ → List α → σ → Prop
  | nil (s : σ) : Yields next s [] s
  | cons {s s₁ s₂ : σ} {a : α} {as : List α} :
      next s = (some a, s₁) → Yields next s₁ as s₂ → Yields next s (a :: as) s₂

/-- The iterator of a list. -/
def listNext : List α → Option α × List α
  | [] => (none, [])
  | a :: as => (some a, as)

/-- `let a = m(it)?;` then `k` on `a`: the first call that gives nothing ends the
computation, with the iterator where that call left it. -/
def andThen {β : Type} (m : σ → Option α × σ) (k : α → σ → Option β × σ) (s : σ) : Option β × σ :=
  match m s with
  | (some a, s) => k a s
  | (none, s) => (none, s)

theorem andThen_some {β : Type} {m : σ → Option α × σ} {k : α → σ → Option β × σ} {s s₁ : σ} {a : α}
    (h : m s = (some a, s₁)) : andThen m k s = k a s₁ := by
  simp [andThen, h]

variable {next : σ → Option α × σ}

theorem Yields.eq_of_nil {s s' : σ} (h : Yields next s [] s') : s' = s := by
  cases h
  rfl

theorem Yields.cons_inv {s s' : σ} {a : α} {as : List α} (h : Yields next s (a :: as) s') :
    ∃ s₁, next s = (some a, s₁) ∧ Yields next s₁ as s' := by
  cases h with
  | cons hs hrest => exact ⟨_, hs, hrest⟩

theorem Yields.append {s s₁ s₂ : σ} {xs ys : List α} (h : Yields next s xs s₁)
    (g : Yields next s₁ ys s₂) : Yields next s (xs ++ ys) s₂ := by
  induction h with
  | nil => exact g
  | cons hs _ ih => exact .cons hs (ih g)

theorem Yields.of_append {s s₂ : σ} {xs ys : List α} (h : Yields next s (xs ++ ys) s₂) :
    ∃ s₁, Yields next s xs s₁ ∧ Yields next s₁ ys s₂ := by
  induction xs generalizing s with
  | nil => exact ⟨s, .nil s, h⟩
  | cons x xs ih =>
    cases h with
    | cons hs hrest =>
      obtain ⟨s₁, h₁, h₂⟩ := ih hrest
      exact ⟨s₁, .cons hs h₁, h₂⟩

theorem yields_listNext (xs ys : List α) : Yields listNext (xs ++ ys) xs ys := by
  induction xs with
  | nil => exact .nil ys
  | cons x xs ih => exact .cons rfl ih

end MailServer.Lib.Iter
