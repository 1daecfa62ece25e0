import Mathlib.Data.List.Basic

/-! # Wildcard patterns

A wildcard pattern is a list of tokens: a letter that stands for itself, `any` for exactly
one letter and `star` for any word. `accepts p w` decides whether the word `w` is in the
language of `p`, a star trying every split point.

The lemmas are those a matcher with a single backtrack point rests on. A star that may
skip a suffix may skip any longer one (`accepts_star_drop_of_le`); a segment without stars
matches exactly the words of its own length (`accepts_append_of_starFree`); and so, once a
later star has been reached, retrying an earlier one cannot help
(`accepts_star_of_segment`). `SameLang` relates two patterns with one language: a run of
stars is one star.
-/

namespace MailServer.Lib.Glob

/-- A token of a wildcard pattern. -/
inductive Tok (α : Type) where
  | lit (a : α)
  | any
  | star
  deriving DecidableEq, Repr

variable {α : Type}

/-- The pattern has no star: it matches words of its own length only. -/
def StarFree (s : List (Tok α)) : Prop := .star ∉ s

namespace StarFree

variable {s r : List (Tok α)} {t : Tok α}

theorem nil : StarFree ([] : List (Tok α)) := List.not_mem_nil

theorem of_cons (hs : StarFree (t :: s)) : StarFree s :=
  fun h => hs (List.mem_cons_of_mem t h)

theorem ne_star (hs : StarFree (t :: s)) : t ≠ .star :=
  fun h => hs (h ▸ List.mem_cons_self)

theorem singleton (ht : t ≠ .star) : StarFree [t] := by
  simpa [StarFree] using ht.symm

theorem append (hs : StarFree s) (hr : StarFree r) : StarFree (s ++ r) := by
  simp only [StarFree, List.mem_append, not_or]
  exact ⟨hs, hr⟩

end StarFree

variable [DecidableEq α]

/-- Whether the pattern accepts the word. -/
def accepts : List (Tok α) → List α → Bool
  | [], w => w.isEmpty
  | .lit a :: p, w =>
    match w with
    | [] => false
    | b :: w => decide (a = b) && accepts p w
  | .any :: p, w =>
    match w with
    | [] => false
    | _ :: w => accepts p w
  | .star :: p, w => (List.range (w.length + 1)).any fun k => accepts p (w.drop k)

section Accepts

variable {p q s r : List (Tok α)} {w x y : List α} {t : Tok α} {a b : α}

@[simp] theorem accepts_nil_nil : accepts ([] : List (Tok α)) [] = true := rfl

@[simp] theorem accepts_nil_cons : accepts ([] : List (Tok α)) (b :: w) = false := rfl

@[simp] theorem accepts_lit_nil : accepts (.lit a :: p) [] = false := rfl

@[simp] theorem accepts_lit_cons : accepts (.lit a :: p) (b :: w) = (decide (a = b) && accepts p w) :=
  rfl

@[simp] theorem accepts_any_nil : accepts (.any :: p) [] = false := rfl

@[simp] theorem accepts_any_cons : accepts (.any :: p) (b :: w) = accepts p w := rfl

theorem accepts_star_iff :
    accepts (.star :: p) w = true ↔ ∃ k ≤ w.length, accepts p (w.drop k) = true := by
  simp only [accepts, List.any_eq_true, List.mem_range, Nat.lt_add_one_iff]

@[simp] theorem accepts_star_nil : accepts (.star :: p) [] = accepts p [] := by
  simp [accepts]

theorem accepts_star_cons :
    accepts (.star :: p) (b :: w) = (accepts p (b :: w) || accepts (.star :: p) w) := by
  apply Bool.eq_iff_iff.mpr
  simp only [Bool.or_eq_true, accepts_star_iff, List.length_cons]
  constructor
  · rintro ⟨k, hk, h⟩
    cases k with
    | zero => exact .inl h
    | succ k => exact .inr ⟨k, by omega, h⟩
  · rintro (h | ⟨k, hk, h⟩)
    · exact ⟨0, by omega, h⟩
    · exact ⟨k + 1, by omega, h⟩

theorem accepts_star_drop_iff {n : ℕ} :
    accepts (.star :: p) (w.drop n) = true ↔
      accepts p (w.drop n) = true ∨ n + 1 ≤ w.length ∧ accepts (.star :: p) (w.drop (n + 1)) = true := by
  by_cases hn : n < w.length
  · rw [List.drop_eq_getElem_cons hn, accepts_star_cons, Bool.or_eq_true]
    simp only [hn, true_and, Nat.succ_le_of_lt]
  · -- past the end both sides read the empty word
    rw [List.drop_eq_nil_of_le (by omega), accepts_star_nil]
    simp only [iff_self_or, and_imp]
    intro hle
    omega

theorem accepts_star_drop_of_le {i j : ℕ} (h : accepts (.star :: p) (w.drop j) = true)
    (hij : i ≤ j) : accepts (.star :: p) (w.drop i) = true := by
  obtain ⟨k, hk, hacc⟩ := accepts_star_iff.mp h
  rw [List.length_drop] at hk
  by_cases hj : j ≤ w.length
  · -- skip the `j - i` letters between the two positions as well
    refine accepts_star_iff.mpr ⟨j - i + k, by rw [List.length_drop]; omega, ?_⟩
    have hdrop : i + (j - i + k) = j + k := by omega
    rwa [List.drop_drop, hdrop, ← List.drop_drop]
  · -- past the end the star skipped nothing: skip the whole rest instead
    have hnil : w.drop j = [] := List.drop_eq_nil_of_le (by omega)
    refine accepts_star_iff.mpr ⟨w.length - i, Nat.le_of_eq List.length_drop.symm, ?_⟩
    rw [List.drop_drop, List.drop_eq_nil_of_le (by omega)]
    rwa [hnil, List.drop_nil] at hacc

theorem accepts_star_star : accepts (.star :: .star :: p) w = accepts (.star :: p) w := by
  apply Bool.eq_iff_iff.mpr
  simp only [accepts_star_iff, List.length_drop, List.drop_drop]
  constructor
  · rintro ⟨k, hk, j, hj, h⟩
    exact ⟨k + j, by omega, h⟩
  · rintro ⟨k, hk, h⟩
    exact ⟨0, by omega, k, by omega, by simpa using h⟩

theorem accepts_cons_cons_of_ne_star (ht : t ≠ .star) :
    accepts (t :: p) (b :: w) = (accepts [t] [b] && accepts p w) := by
  cases t with
  | lit a => simp
  | any => simp
  | star => exact absurd rfl ht

end Accepts

section StarFree

variable {p q s r : List (Tok α)} {w x y : List α} {t : Tok α}

theorem accepts_append_of_starFree (hs : StarFree s) (hx : x.length = s.length) :
    accepts (s ++ r) (x ++ y) = (accepts s x && accepts r y) := by
  induction s generalizing x with
  | nil =>
    rw [List.length_nil, List.length_eq_zero_iff] at hx
    subst hx
    simp
  | cons t s ih =>
    obtain _ | ⟨b, x⟩ := x
    · simp at hx
    · rw [List.cons_append, List.cons_append, accepts_cons_cons_of_ne_star hs.ne_star,
        ih hs.of_cons (by simpa using hx), accepts_cons_cons_of_ne_star (p := s) hs.ne_star,
        Bool.and_assoc]

theorem accepts_drop_of_starFree (hs : StarFree s) (h : accepts (s ++ r) x = true) :
    accepts r (x.drop s.length) = true := by
  induction s generalizing x with
  | nil => simpa using h
  | cons t s ih =>
    obtain _ | ⟨b, x⟩ := x
    · -- a letter or `any` has nothing to match in the empty word
      cases t with
      | star => exact absurd rfl hs.ne_star
      | _ => simp at h
    · rw [List.cons_append, accepts_cons_cons_of_ne_star hs.ne_star, Bool.and_eq_true] at h
      exact ih hs.of_cons h.2

/-- Once the matcher has passed a later star, an earlier star has nothing left to offer:
whatever the earlier star accepts from position `j` on, with the star-free segment `s`
between the two, the later star accepts from any position up to `j + s.length`. -/
theorem accepts_star_of_segment {i j : ℕ} (hs : StarFree s)
    (h : accepts (.star :: (s ++ .star :: q)) (w.drop j) = true) (hij : i ≤ j + s.length) :
    accepts (.star :: q) (w.drop i) = true := by
  obtain ⟨k, -, hk⟩ := accepts_star_iff.mp h
  have hrest := accepts_drop_of_starFree hs hk
  rw [List.drop_drop, List.drop_drop] at hrest
  exact accepts_star_drop_of_le hrest (by omega)

end StarFree

/-- Two patterns with one language. -/
def SameLang (p q : List (Tok α)) : Prop := ∀ w, accepts p w = accepts q w

namespace SameLang

variable {p q r : List (Tok α)}

theorem refl (p : List (Tok α)) : SameLang p p := fun _ => rfl

theorem symm (h : SameLang p q) : SameLang q p := fun w => (h w).symm

theorem trans (h : SameLang p q) (g : SameLang q r) : SameLang p r := fun w => (h w).trans (g w)

theorem cons (t : Tok α) (h : SameLang p q) : SameLang (t :: p) (t :: q) := by
  intro w
  cases t with
  | lit a => cases w <;> simp [h _]
  | any => cases w <;> simp [h _]
  | star => simp [accepts, h _]

theorem append (s : List (Tok α)) (h : SameLang p q) : SameLang (s ++ p) (s ++ q) := by
  induction s with
  | nil => exact h
  | cons t s ih => exact ih.cons t

theorem star_star (p : List (Tok α)) : SameLang (.star :: .star :: p) (.star :: p) :=
  fun _ => accepts_star_star

end SameLang

end MailServer.Lib.Glob
