import Mathlib

/-! # Bracketed boolean filters

A boolean filter over leaves `L` is a formula: a leaf, or `and`, `or` or `not`
applied to a list of formulas. Written out as tokens it is in prefix form with
explicit brackets: an operator opens a group, `close` ends it, and a list of
formulas stands for their conjunction.

A filter means a subset of a universe `U` once each leaf has a set: `and`
intersects its arguments (`U` for none), `or` joins them, and `not` takes the
complement in `U` of their union. An evaluator that reads the tokens from left
to right folds each group's arguments with `Op.step` (`eval_append_singleton`).
-/

namespace MailServer.Lib.BoolFilter

/-- The operators that open a group. -/
inductive Op where
  | and
  | or
  | not
  deriving DecidableEq, Repr

/-- A filter: a leaf, or an operator applied to a list of filters. -/
inductive Formula (L : Type) where
  | leaf (l : L)
  | node (op : Op) (args : List (Formula L))
  deriving Repr

/-- A token of the bracketed form. -/
inductive Token (L : Type) where
  | leaf (l : L)
  | open (op : Op)
  | close
  deriving DecidableEq, Repr

namespace Formula

variable {L : Type}

/-- The bracketed form of a filter. -/
def tokens : Formula L → List (Token L)
  | leaf l => [.leaf l]
  | node op args => .open op :: args.flatMap tokens ++ [.close]

theorem induction {P : Formula L → Prop} (leaf : ∀ l, P (.leaf l))
    (node : ∀ op args, (∀ a ∈ args, P a) → P (.node op args)) : ∀ t, P t
  | .leaf l => leaf l
  | .node op args => node op args fun a _ => induction leaf node a

@[simp] theorem tokens_leaf (l : L) : (leaf l).tokens = [.leaf l] := by
  rw [tokens]

@[simp] theorem tokens_node (op : Op) (args : List (Formula L)) :
    (node op args).tokens = .open op :: args.flatMap tokens ++ [.close] := by
  rw [tokens]

end Formula

/-- Renames the leaves of a token. -/
def Token.map {L M : Type} (g : L → M) : Token L → Token M
  | .leaf l => .leaf (g l)
  | .open op => .open op
  | .close => .close

/-- Renames the leaves of a filter. -/
def Formula.map {L M : Type} (g : L → M) : Formula L → Formula M
  | .leaf l => .leaf (g l)
  | .node op args => .node op (args.map (Formula.map g))

/-- The bracketed form of a list of filters. -/
def tokensOf {L : Type} (ts : List (Formula L)) : List (Token L) := ts.flatMap Formula.tokens

@[simp] theorem tokensOf_nil {L : Type} : tokensOf ([] : List (Formula L)) = [] := rfl

@[simp] theorem tokensOf_cons {L : Type} (t : Formula L) (ts : List (Formula L)) :
    tokensOf (t :: ts) = t.tokens ++ tokensOf ts := rfl

section Read

variable {L : Type}

/-- Reads tokens back into filters. The stack holds one frame per open group: its operator
and the filters read before it; `acc` holds the filters of the current group, newest first. -/
def readTokens : List (Token L) → List (Op × List (Formula L)) → List (Formula L) →
    Option (List (Formula L))
  | [], [], acc => some acc.reverse
  | [], _ :: _, _ => none
  | .leaf l :: rest, stk, acc => readTokens rest stk (.leaf l :: acc)
  | .open op :: rest, stk, acc => readTokens rest ((op, acc) :: stk) []
  | .close :: _, [], _ => none
  | .close :: rest, (op, prev) :: stk, acc => readTokens rest stk (.node op acc.reverse :: prev)

/-- The filters a token list is the bracketed form of, if it is well bracketed. -/
def parse (ts : List (Token L)) : Option (List (Formula L)) := readTokens ts [] []

theorem readTokens_map {M : Type} (g : L → M) (ts : List (Token L))
    (stk : List (Op × List (Formula L))) (acc : List (Formula L)) :
    readTokens (ts.map (Token.map g)) (stk.map fun fr => (fr.1, fr.2.map (Formula.map g)))
        (acc.map (Formula.map g)) =
      (readTokens ts stk acc).map (List.map (Formula.map g)) := by
  induction ts generalizing stk acc with
  | nil =>
    cases stk with
    | nil => simp [readTokens]
    | cons fr stk => rfl
  | cons tok ts ih =>
    cases tok with
    | leaf l =>
      have h := ih stk (.leaf l :: acc)
      rw [List.map_cons, Formula.map] at h
      rw [List.map_cons, Token.map, readTokens, readTokens, h]
    | «open» op =>
      have h := ih ((op, acc) :: stk) []
      rw [List.map_cons, List.map_nil] at h
      rw [List.map_cons, Token.map, readTokens, readTokens, h]
    | close =>
      cases stk with
      | nil => rfl
      | cons fr stk =>
        have h := ih stk (.node fr.1 acc.reverse :: fr.2)
        rw [List.map_cons, Formula.map, List.map_reverse] at h
        rw [List.map_cons, Token.map, List.map_cons, readTokens, readTokens, h]

theorem parse_map {M : Type} (g : L → M) (ts : List (Token L)) :
    parse (ts.map (Token.map g)) = (parse ts).map (List.map (Formula.map g)) :=
  readTokens_map g ts [] []

end Read

section Eval

variable {α : Type} [DecidableEq α]

/-- An operator applied to the sets of its arguments. -/
def Op.eval (U : Finset α) : Op → List (Finset α) → Finset α
  | .and, ss => ss.foldr (· ∩ ·) U
  | .or, ss => ss.foldr (· ∪ ·) ∅
  | .not, ss => U \ ss.foldr (· ∪ ·) ∅

/-- How a left-to-right evaluator adds one more argument to a group. -/
def Op.step : Op → Finset α → Finset α → Finset α
  | .and, acc, s => acc ∩ s
  | .or, acc, s => acc ∪ s
  | .not, acc, s => acc \ s

/-- The meaning of a filter, given the universe and the sets of the leaves. -/
def Formula.eval {L : Type} (U : Finset α) (val : L → Finset α) : Formula L → Finset α
  | .leaf l => val l
  | .node op args => op.eval U (args.map (Formula.eval U val))

/-- A list of filters means their conjunction. -/
def evalList {L : Type} (U : Finset α) (val : L → Finset α) (ts : List (Formula L)) : Finset α :=
  Op.and.eval U (ts.map (Formula.eval U val))

/-- The meaning of a token list, if it is well bracketed. -/
def evalTokens {L : Type} (U : Finset α) (val : L → Finset α) (ts : List (Token L)) :
    Option (Finset α) :=
  (parse ts).map (evalList U val)

theorem Formula.eval_map {L M : Type} (U : Finset α) (val : M → Finset α) (g : L → M)
    (t : Formula L) : (t.map g).eval U val = t.eval U (val ∘ g) := by
  induction t using Formula.induction with
  | leaf l => rw [Formula.map, Formula.eval, Formula.eval, Function.comp_apply]
  | node op args ih =>
    rw [Formula.map, Formula.eval, Formula.eval, List.map_map]
    congr 1
    exact List.map_congr_left fun a ha => ih a ha

theorem evalTokens_map {L M : Type} (U : Finset α) (val : M → Finset α) (g : L → M)
    (ts : List (Token L)) :
    evalTokens U val (ts.map (Token.map g)) = evalTokens U (val ∘ g) ts := by
  rw [evalTokens, evalTokens, parse_map, Option.map_map]
  congr 1
  funext fs
  rw [Function.comp_apply, evalList, evalList, List.map_map]
  congr 1
  exact List.map_congr_left fun t _ => Formula.eval_map U val g t

@[simp] theorem Formula.eval_leaf {L : Type} (U : Finset α) (val : L → Finset α) (l : L) :
    (Formula.leaf l).eval U val = val l := by
  rw [Formula.eval]

@[simp] theorem Formula.eval_node {L : Type} (U : Finset α) (val : L → Finset α) (op : Op)
    (args : List (Formula L)) :
    (Formula.node op args).eval U val = op.eval U (args.map (Formula.eval U val)) := by
  rw [Formula.eval]

theorem Op.eval_subset (U : Finset α) (op : Op) {ss : List (Finset α)} (hss : ∀ s ∈ ss, s ⊆ U) :
    op.eval U ss ⊆ U := by
  cases op with
  | and =>
    induction ss with
    | nil => exact Finset.Subset.refl U
    | cons s ss ih =>
      exact Finset.inter_subset_left.trans (hss s (List.mem_cons_self ..))
  | or =>
    induction ss with
    | nil => exact Finset.empty_subset U
    | cons s ss ih =>
      exact Finset.union_subset (hss s (List.mem_cons_self ..))
        (ih fun s' hs' => hss s' (List.mem_cons_of_mem s hs'))
  | not => exact Finset.sdiff_subset

theorem Formula.eval_subset {L : Type} {U : Finset α} {val : L → Finset α} (t : Formula L)
    (hval : ∀ l, Token.leaf l ∈ t.tokens → val l ⊆ U) : t.eval U val ⊆ U := by
  induction t using Formula.induction with
  | leaf l =>
    rw [Formula.eval_leaf]
    exact hval l (by simp)
  | node op args ih =>
    rw [Formula.eval_node]
    apply Op.eval_subset
    intro s hs
    obtain ⟨a, ha, rfl⟩ := List.mem_map.mp hs
    refine ih a ha fun l hl => hval l ?_
    rw [Formula.tokens_node]
    exact List.mem_cons_of_mem _ (List.mem_append_left _ (List.mem_flatMap.mpr ⟨a, ha, hl⟩))

theorem foldr_union_append_singleton (ss : List (Finset α)) (s : Finset α) :
    (ss ++ [s]).foldr (· ∪ ·) ∅ = ss.foldr (· ∪ ·) ∅ ∪ s := by
  induction ss with
  | nil => simp
  | cons s' ss ih =>
    rw [List.cons_append, List.foldr_cons, List.foldr_cons, ih, Finset.union_assoc]

theorem Op.eval_append_singleton (U : Finset α) (op : Op) (ss : List (Finset α)) (s : Finset α) :
    op.eval U (ss ++ [s]) = op.step (op.eval U ss) s := by
  cases op with
  | and =>
    induction ss with
    | nil => simp [Op.eval, Op.step, Finset.inter_comm]
    | cons s' ss ih =>
      simp only [Op.eval, Op.step, List.cons_append, List.foldr_cons] at ih ⊢
      rw [ih, Finset.inter_assoc]
  | or =>
    simp only [Op.eval, Op.step]
    exact foldr_union_append_singleton ss s
  | not =>
    simp only [Op.eval, Op.step]
    rw [foldr_union_append_singleton, Finset.sdiff_union_distrib, Finset.sdiff_sdiff_left']

end Eval

end MailServer.Lib.BoolFilter
