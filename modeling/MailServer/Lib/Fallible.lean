import Mathlib.Logic.Basic

/-! # Rules for fallible computations and loops

Computations in `Except ε`: a bind that succeeds is taken apart into its two successful
halves, and a predicate that every successful step of a fold keeps holds of the fold's
result. A loop that records each item's failure and goes on is a plain fold; a predicate
that every step on an item of the list keeps holds of its result too.
-/

namespace MailServer.Lib.Fallible

variable {ε α β : Type}

@[simp] theorem ok_bind (a : α) (f : α → Except ε β) : (Except.ok a >>= f) = f a := rfl

@[simp] theorem map_ok (a : α) (f : α → β) : (Except.ok a : Except ε α).map f = .ok (f a) := rfl

@[simp] theorem ok_map (a : α) (f : α → β) : (f <$> (Except.ok a : Except ε α)) = .ok (f a) := rfl

theorem bind_eq_ok {x : Except ε α} {f : α → Except ε β} {b : β} :
    (x >>= f) = .ok b ↔ ∃ a, x = .ok a ∧ f a = .ok b := by
  cases x <;> simp [bind, Except.bind]

theorem map_eq_ok {x : Except ε α} {f : α → β} {b : β} :
    x.map f = .ok b ↔ ∃ a, x = .ok a ∧ f a = b := by
  cases x <;> simp [Except.map]

theorem foldlM_ok_invariant {P : β → Prop} {f : β → α → Except ε β}
    (hf : ∀ s a s', P s → f s a = .ok s' → P s') :
    ∀ (l : List α) (s s' : β), P s → l.foldlM f s = .ok s' → P s'
  | [], s, s', hs, h => by
    cases h
    exact hs
  | a :: l, s, s', hs, h => by
    obtain ⟨s₁, hs₁, h⟩ := bind_eq_ok.mp h
    exact foldlM_ok_invariant hf l s₁ s' (hf s a s₁ hs hs₁) h

theorem foldl_invariant {P : β → Prop} {f : β → α → β} {l : List α}
    (hf : ∀ s, ∀ a ∈ l, P s → P (f s a)) {s : β} (hs : P s) : P (l.foldl f s) := by
  induction l generalizing s with
  | nil => exact hs
  | cons a l ih =>
    exact ih (fun s' b hb => hf s' b (List.mem_cons_of_mem a hb)) (hf s a List.mem_cons_self hs)

end MailServer.Lib.Fallible
