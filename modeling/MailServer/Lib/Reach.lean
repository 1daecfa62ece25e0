import Mathlib.Logic.Relation
import Mathlib.Data.Set.Insert

/-! # Reachability and the frontier of a walk

A graph is given by the successor list of each node. `Reach succ a b` says that `b` is
reached from `a` by zero or more edges. A walk from `start` that keeps the nodes it has
visited and a list of nodes still pending is described by `Frontier`: everything visited or
pending is reachable, `start` is one of them, and every successor of a visited node is
visited or pending. Popping a visited node, visiting a node (its successors become
pending) and absorbing everything reachable from a node keep the frontier, and once
nothing is pending the visited nodes are exactly the reachable ones, whatever order the
walk took.
-/

namespace MailServer.Lib.Graph

variable {α : Type} (succ : α → List α)

/-- `b` is reached from `a` by zero or more edges. -/
def Reach : α → α → Prop := Relation.ReflTransGen (fun a b => b ∈ succ a)

variable {succ} {a b c : α}

theorem Reach.refl (a : α) : Reach succ a a := Relation.ReflTransGen.refl

theorem Reach.trans (hab : Reach succ a b) (hbc : Reach succ b c) : Reach succ a c :=
  Relation.ReflTransGen.trans hab hbc

theorem Reach.tail (hab : Reach succ a b) (hc : c ∈ succ b) : Reach succ a c :=
  Relation.ReflTransGen.tail hab hc

theorem Reach.mem_of_closed {S : Set α} (hclosed : ∀ x ∈ S, ∀ y ∈ succ x, y ∈ S) (ha : a ∈ S)
    (h : Reach succ a b) : b ∈ S := by
  induction h with
  | refl => exact ha
  | tail _ hbc ih => exact hclosed _ ih _ hbc

theorem Reach.eq_of_nil (hnil : succ a = []) (h : Reach succ a b) : b = a :=
  Reach.mem_of_closed (S := {a}) (by simp [hnil]) rfl h

/-- The state of a walk from `start`: the nodes visited and the nodes still pending. -/
structure Frontier (succ : α → List α) (start : α) (done : Set α) (pending : List α) : Prop where
  done_reach : ∀ x ∈ done, Reach succ start x
  pending_reach : ∀ x ∈ pending, Reach succ start x
  covers_start : start ∈ done ∨ start ∈ pending
  closed : ∀ x ∈ done, ∀ y ∈ succ x, y ∈ done ∨ y ∈ pending

namespace Frontier

variable {start x : α} {done : Set α} {rest : List α}

theorem init (start : α) : Frontier succ start ∅ [start] where
  done_reach := by simp
  pending_reach := by simpa using Reach.refl start
  covers_start := by simp
  closed := by simp

theorem reach_head (h : Frontier succ start done (x :: rest)) : Reach succ start x :=
  h.pending_reach x List.mem_cons_self

theorem or_mem_shift {done' : Set α} (hsub : done ⊆ done') (hx : x ∈ done') {y : α}
    (h : y ∈ done ∨ y ∈ x :: rest) : y ∈ done' ∨ y ∈ rest := by
  rcases h with hy | hy
  · exact .inl (hsub hy)
  rcases List.mem_cons.mp hy with rfl | hy
  · exact .inl hx
  · exact .inr hy

theorem skip (h : Frontier succ start done (x :: rest)) (hx : x ∈ done) :
    Frontier succ start done rest where
  done_reach := h.done_reach
  pending_reach y hy := h.pending_reach y (List.mem_cons_of_mem x hy)
  covers_start := or_mem_shift subset_rfl hx h.covers_start
  closed y hy z hz := or_mem_shift subset_rfl hx (h.closed y hy z hz)

theorem visit (h : Frontier succ start done (x :: rest)) :
    Frontier succ start (insert x done) (succ x ++ rest) where
  done_reach y hy := by
    rcases Set.mem_insert_iff.mp hy with rfl | hy
    · exact h.reach_head
    · exact h.done_reach y hy
  pending_reach y hy := by
    rcases List.mem_append.mp hy with hy | hy
    · exact h.reach_head.tail hy
    · exact h.pending_reach y (List.mem_cons_of_mem x hy)
  covers_start :=
    (or_mem_shift (Set.subset_insert x done) (Set.mem_insert x done) h.covers_start).imp_right
      (List.mem_append_right _)
  closed y hy z hz := by
    rcases Set.mem_insert_iff.mp hy with rfl | hy
    · exact .inr (List.mem_append_left _ hz)
    · exact (or_mem_shift (Set.subset_insert x done) (Set.mem_insert x done)
        (h.closed y hy z hz)).imp_right (List.mem_append_right _)

theorem absorb (h : Frontier succ start done (x :: rest)) :
    Frontier succ start (done ∪ {y | Reach succ x y}) rest where
  done_reach y hy := by
    rcases hy with hy | hy
    · exact h.done_reach y hy
    · exact h.reach_head.trans hy
  pending_reach y hy := h.pending_reach y (List.mem_cons_of_mem x hy)
  covers_start := or_mem_shift Set.subset_union_left (.inr (Reach.refl x)) h.covers_start
  closed y hy z hz := by
    rcases hy with hy | hy
    · exact or_mem_shift Set.subset_union_left (.inr (Reach.refl x)) (h.closed y hy z hz)
    · exact .inl (.inr (hy.tail hz))

theorem exhausted (h : Frontier succ start done []) (y : α) : y ∈ done ↔ Reach succ start y := by
  have hstart : start ∈ done := h.covers_start.resolve_right List.not_mem_nil
  have hclosed : ∀ x ∈ done, ∀ z ∈ succ x, z ∈ done := fun x hx z hz =>
    (h.closed x hx z hz).resolve_right List.not_mem_nil
  exact ⟨h.done_reach y, Reach.mem_of_closed hclosed hstart⟩

end Frontier

end MailServer.Lib.Graph
