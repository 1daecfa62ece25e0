import Mathlib.Logic.Relation
import Mathlib.Order.Basic

/-! # Step functions run with fuel

A loop is modelled by a step function that either moves to the next state of the loop
(`inl`) or leaves it with a result (`inr`). `run` takes at most `fuel` steps. A state
`Halts` with a result when it reaches a state whose step returns it; it then returns
that result once given enough fuel (`Halts.exists_run`), and no other result whatever
the fuel (`run_unique`).
-/

namespace MailServer.Lib.Machine

variable {σ ρ : Type} (step : σ → σ ⊕ ρ)

/-- At most `fuel` steps from `s`; `none` when the fuel runs out first. -/
def run : ℕ → σ → Option ρ
  | 0, _ => none
  | fuel + 1, s =>
    match step s with
    | .inl s' => run fuel s'
    | .inr r => some r

/-- `s` moves to `s'` in some number of steps. -/
def Reaches : σ → σ → Prop := Relation.ReflTransGen fun s s' => step s = .inl s'

/-- `s` leaves the loop with `r`. -/
def Halts (s : σ) (r : ρ) : Prop := ∃ s', Reaches step s s' ∧ step s' = .inr r

variable {step}

theorem run_of_inl {s s' : σ} (h : step s = .inl s') (fuel : ℕ) : run step (fuel + 1) s = run step fuel s' := by
  simp [run, h]

theorem run_of_inr {s : σ} {r : ρ} (h : step s = .inr r) (fuel : ℕ) : run step (fuel + 1) s = some r := by
  simp [run, h]

theorem run_mono {fuel : ℕ} {s : σ} {r : ρ} (h : run step fuel s = some r) :
    ∀ fuel', fuel ≤ fuel' → run step fuel' s = some r := by
  induction fuel generalizing s with
  | zero => simp [run] at h
  | succ fuel ih =>
    intro fuel' hle
    obtain ⟨fuel', rfl⟩ : ∃ k, fuel' = k + 1 := ⟨fuel' - 1, by omega⟩
    cases hs : step s with
    | inl s' =>
      rw [run_of_inl hs] at h ⊢
      exact ih h fuel' (by omega)
    | inr r' =>
      rw [run_of_inr hs] at h ⊢
      exact h

theorem run_unique {fuel fuel' : ℕ} {s : σ} {r r' : ρ} (h : run step fuel s = some r)
    (h' : run step fuel' s = some r') : r = r' := by
  have hmax := run_mono h (max fuel fuel') (Nat.le_max_left _ _)
  rw [run_mono h' (max fuel fuel') (Nat.le_max_right _ _)] at hmax
  exact Option.some.inj hmax.symm

theorem Reaches.single {s s' : σ} (h : step s = .inl s') : Reaches step s s' :=
  Relation.ReflTransGen.single h

theorem Reaches.trans {s s' s'' : σ} (h : Reaches step s s') (h' : Reaches step s' s'') : Reaches step s s'' :=
  Relation.ReflTransGen.trans h h'

theorem Halts.of_inr {s : σ} {r : ρ} (h : step s = .inr r) : Halts step s r :=
  ⟨s, Relation.ReflTransGen.refl, h⟩

theorem Halts.of_reaches {s s' : σ} {r : ρ} (h : Reaches step s s') (h' : Halts step s' r) : Halts step s r := by
  obtain ⟨s'', hreach, hstep⟩ := h'
  exact ⟨s'', h.trans hreach, hstep⟩

theorem Halts.exists_run {s : σ} {r : ρ} (h : Halts step s r) : ∃ fuel, run step fuel s = some r := by
  obtain ⟨s', hreach, hstep⟩ := h
  induction hreach using Relation.ReflTransGen.head_induction_on with
  | refl => exact ⟨1, run_of_inr hstep 0⟩
  | head hs _ ih =>
    obtain ⟨fuel, hrun⟩ := ih
    exact ⟨fuel + 1, (run_of_inl hs fuel).trans hrun⟩

end MailServer.Lib.Machine
