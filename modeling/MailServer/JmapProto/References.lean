import Mathlib
import MailServer.Lib.Machine

/-! # `topological_sort` of the objects a `/set` request creates

An object created in a `/set` request may reference another object of the same request
by its creation id. `resolve_references` collects these references in a graph (child
id ↦ the ids it references) and `topological_sort` reorders `create` so that every
object comes after the objects it references. The sort first refuses a reference to an
id that `create` lacks; it then walks the graph depth first with an explicit stack of
iterators and no visited set: an entry is moved to the result when it is a leaf or when
its references are done, a missing entry meaning it was moved before. A stack deeper
than 1000 is taken for a cycle.

`Machine.step` is one pass of that loop. It walks the graph as the recursion `visit`
does, with its stack for the recursion's frames and `1000` less the stack's length for
the recursion's budget (`Machine.ends_visit`). The properties of the sort are proved
on `visit`: the result holds the entries of `create` (`perm_sortResult`), each after
those it references (`precedes_sortResult`); it is returned when no chain of keys is
longer than 1000 (`sortResult_of_chains`); a cycle is refused (`sortResult_of_cycle`).
On the graphs `resolve_references` builds, whose keys are creation ids, these are the
properties of the sort on `create` (`topologicalSort_of_created_keys`).
-/

namespace MailServer.JmapProto.References

open MailServer.Lib.Machine

/-! ## The model -/

/-- The `HashMap<String, Vec<String>>` of references: the ids each creation id
references, in the order `HashMap::keys` lists them. -/
structure Graph (α : Type) where
  entries : List (α × List α)
  nodup : (entries.map Prod.fst).Nodup

section Model

variable {α β : Type} [DecidableEq α]

/-- `HashMap::keys`. -/
def Graph.keys (graph : Graph α) : List α := graph.entries.map Prod.fst

/-- `HashMap::get`. -/
def Graph.get (graph : Graph α) (key : α) : Option (List α) :=
  (graph.entries.find? fun e => e.1 = key).map Prod.snd

/-- `VecMap::contains_key`. -/
def containsKey (create : List (α × β)) (key : α) : Bool := create.any fun e => e.1 = key

/-- `VecMap::remove_entry`: the first entry with the key, and the map without it. -/
def removeEntry : List (α × β) → α → Option ((α × β) × List (α × β))
  | [], _ => none
  | e :: rest, key =>
    if e.1 = key then some (e, rest)
    else (removeEntry rest key).map fun found => (found.1, e :: found.2)

/-- The errors of `topological_sort`. -/
inductive SortError (α : Type) where
  /-- `InvalidResultReference`: "Invalid reference to non-existing object {to_id:?} from {from_id:?}". -/
  | invalidResultReference (toId fromId : α)
  /-- `InvalidArguments`: "Cyclical references are not allowed." -/
  | cyclicalReferences
  deriving DecidableEq, Repr

/-- The check that all references exist: the first reference, in the order of the graph,
to an id that `create` lacks, with the id that holds it. -/
def missingReference (graph : Graph α) (create : List (α × β)) : Option (α × α) :=
  graph.entries.findSome? fun e => (e.2.find? fun toId => !containsKey create toId).map fun toId => (toId, e.1)

/-- The variables of the loop of `topological_sort`. -/
structure Machine (α β : Type) where
  it : List α
  itStack : List (List α × α)
  create : List (α × β)
  sortedCreate : List (α × β)

/-- What `topological_sort` returns once out of its loop: `sorted_create` with the items
left in `create` added. -/
def finish (create sortedCreate : List (α × β)) : Except (SortError α) (List (α × β)) :=
  .ok (sortedCreate ++ create)

/-- `create.remove_entry(from_id)` appended to `sorted_create`, the loop leaving (`break 'main`)
when `create` is then empty; the loop goes on with `it` and `it_stack`. -/
def Machine.place (m : Machine α β) (fromId : α) (it : List α) (itStack : List (List α × α)) :
    Machine α β ⊕ Except (SortError α) (List (α × β)) :=
  match removeEntry m.create fromId with
  | some (entry, create) =>
    if create.isEmpty then .inr (finish create (m.sortedCreate ++ [entry]))
    else .inl ⟨it, itStack, create, m.sortedCreate ++ [entry]⟩
  | none => .inl { m with it, itStack }

/-- One pass of the loop of `topological_sort`: the next id of `it`, or the frame popped
when `it` is done. -/
def Machine.step (graph : Graph α) (m : Machine α β) : Machine α β ⊕ Except (SortError α) (List (α × β)) :=
  match m.it with
  | fromId :: it =>
    match graph.get fromId with
    | some toIds =>
      let itStack := (it, fromId) :: m.itStack
      if 1000 < itStack.length then .inr (.error .cyclicalReferences)
      else .inl { m with it := toIds, itStack }
    | none => m.place fromId it m.itStack
  | [] =>
    match m.itStack with
    | (prevIt, fromId) :: itStack => m.place fromId prevIt itStack
    | [] => .inr (finish m.create m.sortedCreate)

/-- `topological_sort(create, graph)` with at most `fuel` passes of its loop. -/
def topologicalSort (fuel : ℕ) (graph : Graph α) (create : List (α × β)) :
    Option (Except (SortError α) (List (α × β))) :=
  match missingReference graph create with
  | some (toId, fromId) => some (.error (.invalidResultReference toId fromId))
  | none => run (Machine.step graph) fuel ⟨graph.keys, [], create, []⟩

end Model

/-! ## The walk as a recursion -/

/-- How a part of the walk ends: the loop goes on with (`create`, `sorted_create`), leaves
it because `create` became empty, or finds its stack too deep. -/
inductive Flow (σ : Type) where
  | next (s : σ)
  | stop (s : σ)
  | fail

/-- The rest of the walk, run when the part before goes on. -/
def Flow.bind {σ : Type} : Flow σ → (σ → Flow σ) → Flow σ
  | .next s, k => k s
  | .stop s, _ => .stop s
  | .fail, _ => .fail

section Walk

variable {α β : Type} [DecidableEq α]

/-- `Machine.place` on the pair (`create`, `sorted_create`). -/
def placeEntry (fromId : α) (s : List (α × β) × List (α × β)) : Flow (List (α × β) × List (α × β)) :=
  match removeEntry s.1 fromId with
  | some (entry, create) => if create.isEmpty then .stop (create, s.2 ++ [entry]) else .next (create, s.2 ++ [entry])
  | none => .next s

/-- The walk of the ids `ids` with `budget` more frames allowed on the stack: an id with
references is pushed, its references walked and the id then placed; any other id is placed. -/
def visit (graph : Graph α) :
    ℕ → List α → List (α × β) × List (α × β) → Flow (List (α × β) × List (α × β))
  | _, [], s => .next s
  | budget, x :: xs, s =>
    match graph.get x with
    | some deps =>
      if budget = 0 then .fail
      else ((visit graph (budget - 1) deps s).bind (placeEntry x)).bind fun s => visit graph budget xs s
    | none => (placeEntry x s).bind fun s => visit graph budget xs s
termination_by budget ids => (budget, ids.length)
decreasing_by
  all_goals first
    | (apply Prod.Lex.left; omega)
    | (apply Prod.Lex.right; simp)

/-- What the sort returns after the walk from the keys of the graph. -/
def sortResult (graph : Graph α) (create : List (α × β)) : Except (SortError α) (List (α × β)) :=
  match visit graph 1000 graph.keys (create, []) with
  | .next (create, sorted) | .stop (create, sorted) => finish create sorted
  | .fail => .error .cyclicalReferences

end Walk

/-! ## The loop walks as the recursion does -/

section Refinement

variable {α β : Type} [DecidableEq α] {graph : Graph α}

/-- Where the loop gets to from `m` when a part of the walk ends as `f`: back at the
frame of `m` with its iterator done, or out of the loop. -/
def Machine.Ends (graph : Graph α) (m : Machine α β) : Flow (List (α × β) × List (α × β)) → Prop
  | .next (create, sorted) => Reaches (Machine.step graph) m ⟨[], m.itStack, create, sorted⟩
  | .stop (create, sorted) => Halts (Machine.step graph) m (finish create sorted)
  | .fail => Halts (Machine.step graph) m (.error .cyclicalReferences)

theorem Machine.Ends.of_reaches {m m' : Machine α β} {f : Flow (List (α × β) × List (α × β))}
    (h : Reaches (Machine.step graph) m m') (hstack : m'.itStack = m.itStack) (h' : m'.Ends graph f) :
    m.Ends graph f := by
  cases f with
  | next s =>
    rw [Machine.Ends, hstack] at h'
    exact h.trans h'
  | stop s => exact Halts.of_reaches h h'
  | fail => exact Halts.of_reaches h h'

theorem Machine.place_of_placeEntry (m : Machine α β) (fromId : α) (it : List α) (itStack : List (List α × α)) :
    match placeEntry fromId (m.create, m.sortedCreate) with
    | .next (create, sorted) => m.place fromId it itStack = .inl ⟨it, itStack, create, sorted⟩
    | .stop (create, sorted) => m.place fromId it itStack = .inr (finish create sorted)
    | .fail => False := by
  unfold placeEntry Machine.place
  dsimp only
  cases removeEntry m.create fromId with
  | none => rfl
  | some found =>
    obtain ⟨entry, create⟩ := found
    dsimp only
    split_ifs <;> rfl

/-- Placing an id and going on with the walk `k`, from a loop state `m₀` that reaches
the pass `m` that places it. -/
theorem Machine.ends_place {m₀ m : Machine α β} {x : α} {it : List α} {itStack : List (List α × α)}
    (hreach : Reaches (Machine.step graph) m₀ m) (hstack : m₀.itStack = itStack)
    (hstep : m.step graph = m.place x it itStack)
    {k : List (α × β) × List (α × β) → Flow (List (α × β) × List (α × β))}
    (hk : ∀ create sorted, Machine.Ends graph ⟨it, itStack, create, sorted⟩ (k (create, sorted))) :
    m₀.Ends graph ((placeEntry x (m.create, m.sortedCreate)).bind k) := by
  have hplace := m.place_of_placeEntry x it itStack
  revert hplace
  cases placeEntry x (m.create, m.sortedCreate) with
  | next s =>
    obtain ⟨create, sorted⟩ := s
    intro hplace
    exact Machine.Ends.of_reaches (hreach.trans (Reaches.single (hstep.trans hplace))) hstack.symm
      (hk create sorted)
  | stop s =>
    obtain ⟨create, sorted⟩ := s
    intro hplace
    exact Halts.of_reaches hreach (Halts.of_inr (hstep.trans hplace))
  | fail => exact False.elim

/-- The loop from a state whose iterator holds `ids` and whose stack leaves `budget` frames
ends where the walk of `ids` with that budget ends. The induction follows `visit`: a pushed
id is the recursive call on its references, its frame popped when they are done. -/
theorem Machine.ends_visit :
    ∀ budget ids (s : List (α × β) × List (α × β)) (m : Machine α β), m.it = ids →
      m.itStack.length + budget = 1000 → (m.create, m.sortedCreate) = s → m.Ends graph (visit graph budget ids s) := by
  intro budget ids s
  induction budget, ids, s using visit.induct graph with
  | case1 budget s =>
    intro m hit _ hs
    obtain ⟨it, itStack, create, sorted⟩ := m
    cases hit
    cases hs
    rw [visit]
    exact Relation.ReflTransGen.refl
  | case2 x xs s deps hdeps =>
    intro m hit hdepth _
    rw [visit, hdeps]
    apply Halts.of_inr
    simp only [Machine.step, hit, hdeps]
    rw [if_pos (by simp only [List.length_cons]; omega)]
  | case3 budget x xs s deps hdeps hbudget ih₁ ih₂ =>
    intro m hit hdepth hs
    set m₁ : Machine α β := { m with it := deps, itStack := (xs, x) :: m.itStack }
    have hpush : m.step graph = .inl m₁ := by
      simp only [Machine.step, hit, hdeps]
      rw [if_neg (by simp only [List.length_cons]; omega)]
    have hends := ih₁ m₁ rfl (by simp only [m₁, List.length_cons]; omega) (by rw [← hs])
    rw [visit, hdeps]
    dsimp only
    rw [if_neg hbudget]
    revert hends
    cases visit graph (budget - 1) deps s with
    | next s₁ =>
      obtain ⟨create, sorted⟩ := s₁
      intro hends
      exact Machine.ends_place (m := ⟨[], (xs, x) :: m.itStack, create, sorted⟩)
        ((Reaches.single hpush).trans hends) rfl rfl
        (fun create sorted => ih₂ (create, sorted) _ rfl hdepth rfl)
    | stop s₁ => exact Halts.of_reaches (Reaches.single hpush)
    | fail => exact Halts.of_reaches (Reaches.single hpush)
  | case4 budget x xs s hnone ih₂ =>
    intro m hit hdepth hs
    have hstep : m.step graph = m.place x xs m.itStack := by
      simp only [Machine.step, hit, hnone]
    rw [visit, hnone, ← hs]
    dsimp only
    exact Machine.ends_place Relation.ReflTransGen.refl rfl hstep
      (fun create sorted => ih₂ (create, sorted) _ rfl hdepth rfl)

theorem halts_sortResult (graph : Graph α) (create : List (α × β)) :
    Halts (Machine.step graph) ⟨graph.keys, [], create, []⟩ (sortResult graph create) := by
  have hends : Machine.Ends graph ⟨graph.keys, [], create, []⟩ (visit graph 1000 graph.keys (create, [])) :=
    Machine.ends_visit 1000 graph.keys (create, []) _ rfl rfl rfl
  unfold sortResult
  revert hends
  cases visit graph 1000 graph.keys (create, []) with
  | next s =>
    obtain ⟨create', sorted⟩ := s
    intro hends
    exact Halts.of_reaches hends (Halts.of_inr rfl)
  | stop s =>
    obtain ⟨create', sorted⟩ := s
    exact id
  | fail => exact id

/-- What `topological_sort` returns: the missing reference it finds first, or the result
of the walk. -/
def expectedResult (graph : Graph α) (create : List (α × β)) : Except (SortError α) (List (α × β)) :=
  match missingReference graph create with
  | some (toId, fromId) => .error (.invalidResultReference toId fromId)
  | none => sortResult graph create

/-- `topological_sort` terminates: with enough passes of its loop it returns the expected
result, and no other result whatever the number of passes. -/
theorem topologicalSort_eq_expectedResult (graph : Graph α) (create : List (α × β)) :
    (∃ fuel, topologicalSort fuel graph create = some (expectedResult graph create)) ∧
      ∀ fuel r, topologicalSort fuel graph create = some r → r = expectedResult graph create := by
  unfold topologicalSort expectedResult
  cases missingReference graph create with
  | some missing =>
    obtain ⟨toId, fromId⟩ := missing
    exact ⟨⟨0, rfl⟩, fun _ r h => (Option.some.inj h).symm⟩
  | none =>
    obtain ⟨fuel, hrun⟩ := (halts_sortResult graph create).exists_run
    exact ⟨⟨fuel, hrun⟩, fun _ r h => run_unique h hrun⟩

end Refinement

/-! ## What the walk moves -/

section Moves

variable {α β : Type}

/-- `f` ends, if it does not fail, in a pair satisfying `P`. -/
def Flow.Holds {σ : Type} (P : σ → Prop) : Flow σ → Prop
  | .next s | .stop s => P s
  | .fail => True

theorem Flow.Holds.mono {σ : Type} {P Q : σ → Prop} (h : ∀ s, P s → Q s) :
    ∀ {f : Flow σ}, f.Holds P → f.Holds Q
  | .next s, hp | .stop s, hp => h s hp
  | .fail, _ => trivial

theorem Flow.Holds.bind {σ : Type} {P Q : σ → Prop} {f : Flow σ} {k : σ → Flow σ} (hf : f.Holds Q)
    (hk : ∀ s, Q s → (k s).Holds P) (hstop : ∀ s, Q s → P s) : (f.bind k).Holds P := by
  cases f with
  | next s => exact hk s hf
  | stop s => exact hstop s hf
  | fail => trivial

theorem Flow.Holds.bind_trans {σ : Type} {R : σ → σ → Prop} (htrans : ∀ a b c, R a b → R b c → R a c)
    {s : σ} {f : Flow σ} {k : σ → Flow σ} (hf : f.Holds (R s)) (hk : ∀ s', (k s').Holds (R s')) :
    (f.bind k).Holds (R s) :=
  hf.bind (fun s' hs' => (hk s').mono fun _ => htrans _ _ _ hs') fun _ => id

/-- `s'` is `s` with entries `moved` taken out of `create` and added to `sorted_create`. -/
def Moves (s s' : List (α × β) × List (α × β)) : Prop :=
  ∃ moved, s'.2 = s.2 ++ moved ∧ (moved ++ s'.1).Perm s.1

theorem Moves.refl (s : List (α × β) × List (α × β)) : Moves s s := ⟨[], by simp, List.Perm.refl _⟩

theorem Moves.trans {s₁ s₂ s₃ : List (α × β) × List (α × β)} (h₁ : Moves s₁ s₂) (h₂ : Moves s₂ s₃) :
    Moves s₁ s₃ := by
  obtain ⟨moved₁, hsorted₁, hperm₁⟩ := h₁
  obtain ⟨moved₂, hsorted₂, hperm₂⟩ := h₂
  refine ⟨moved₁ ++ moved₂, by rw [hsorted₂, hsorted₁, List.append_assoc], ?_⟩
  rw [List.append_assoc]
  exact (hperm₂.append_left moved₁).trans hperm₁

theorem Moves.perm_keys {s s' : List (α × β) × List (α × β)} (h : Moves s s') :
    ((s'.2 ++ s'.1).map Prod.fst).Perm ((s.2 ++ s.1).map Prod.fst) := by
  obtain ⟨moved, hsorted, hperm⟩ := h
  rw [hsorted, List.append_assoc]
  exact ((hperm.append_left s.2).map Prod.fst)

theorem Moves.keys_sorted {s s' : List (α × β) × List (α × β)} (h : Moves s s') {y : α}
    (hy : y ∈ s.2.map Prod.fst) : y ∈ s'.2.map Prod.fst := by
  obtain ⟨moved, hsorted, -⟩ := h
  rw [hsorted, List.map_append]
  exact List.mem_append_left _ hy

theorem Moves.keys_create {s s' : List (α × β) × List (α × β)} (h : Moves s s') {y : α}
    (hy : y ∈ s'.1.map Prod.fst) : y ∈ s.1.map Prod.fst := by
  obtain ⟨moved, -, hperm⟩ := h
  exact (hperm.map Prod.fst).subset (by rw [List.map_append]; exact List.mem_append_right _ hy)

end Moves

section Walked

variable {α β : Type} [DecidableEq α] {graph : Graph α}

theorem removeEntry_some {create rest : List (α × β)} {key : α} {entry : α × β}
    (h : removeEntry create key = some (entry, rest)) : entry.1 = key ∧ (entry :: rest).Perm create := by
  induction create generalizing rest with
  | nil => cases h
  | cons e create ih =>
    rw [removeEntry] at h
    split_ifs at h with he
    · cases h
      exact ⟨he, List.Perm.refl _⟩
    · obtain ⟨⟨found, rest'⟩, hrec, heq⟩ := Option.map_eq_some_iff.mp h
      obtain ⟨rfl, rfl⟩ := Prod.mk.inj heq
      obtain ⟨hkey, hperm⟩ := ih hrec
      exact ⟨hkey, (List.Perm.swap e _ rest').trans (hperm.cons e)⟩

theorem removeEntry_eq_none {create : List (α × β)} {key : α} :
    removeEntry create key = none ↔ key ∉ create.map Prod.fst := by
  induction create with
  | nil => simp [removeEntry]
  | cons e create ih =>
    rw [removeEntry]
    split_ifs with he
    · simp [he]
    · simp [ih, Ne.symm he]

theorem placeEntry_moves (x : α) (s : List (α × β) × List (α × β)) : (placeEntry x s).Holds (Moves s) := by
  unfold placeEntry
  cases hremove : removeEntry s.1 x with
  | none => exact Moves.refl s
  | some found =>
    obtain ⟨entry, create⟩ := found
    have hmoves : Moves s (create, s.2 ++ [entry]) := ⟨[entry], rfl, (removeEntry_some hremove).2⟩
    dsimp only
    split_ifs
    · exact hmoves
    · exact hmoves

theorem placeEntry_done (x : α) (s : List (α × β) × List (α × β)) :
    (placeEntry x s).Holds fun s' => x ∈ s'.2.map Prod.fst ∨ x ∉ s.1.map Prod.fst := by
  unfold placeEntry
  cases hremove : removeEntry s.1 x with
  | none => exact Or.inr (removeEntry_eq_none.mp hremove)
  | some found =>
    obtain ⟨entry, create⟩ := found
    have hkey := (removeEntry_some hremove).1
    have hdone : x ∈ (s.2 ++ [entry]).map Prod.fst := by simp [hkey]
    dsimp only
    split_ifs
    · exact Or.inl hdone
    · exact Or.inl hdone

theorem visit_moves : ∀ budget ids (s : List (α × β) × List (α × β)),
    (visit graph budget ids s).Holds (Moves s) := by
  intro budget ids s
  induction budget, ids, s using visit.induct graph with
  | case1 budget s =>
    rw [visit]
    exact Moves.refl s
  | case2 x xs s deps hdeps =>
    rw [visit, hdeps]
    trivial
  | case3 budget x xs s deps hdeps hbudget ih₁ ih₂ =>
    rw [visit, hdeps]
    dsimp only
    rw [if_neg hbudget]
    exact Flow.Holds.bind_trans (R := Moves) (fun _ _ _ => Moves.trans)
      (Flow.Holds.bind_trans (R := Moves) (fun _ _ _ => Moves.trans) ih₁ (placeEntry_moves x)) ih₂
  | case4 budget x xs s hnone ih₂ =>
    rw [visit, hnone]
    exact Flow.Holds.bind_trans (R := Moves) (fun _ _ _ => Moves.trans) (placeEntry_moves x s) ih₂

theorem Flow.bind_eq_next {σ : Type} {f : Flow σ} {k : σ → Flow σ} {s' : σ} (h : f.bind k = .next s') :
    ∃ s, f = .next s ∧ k s = .next s' := by
  cases f with
  | next s => exact ⟨s, rfl, h⟩
  | stop s => cases h
  | fail => cases h

theorem Moves.of_placeEntry {x : α} {s s' : List (α × β) × List (α × β)} (h : placeEntry x s = .next s') :
    Moves s s' := by
  have hmoves := placeEntry_moves x s
  rw [h] at hmoves
  exact hmoves

theorem Moves.of_visit {budget : ℕ} {ids : List α} {s s' : List (α × β) × List (α × β)}
    (h : visit graph budget ids s = .next s') : Moves s s' := by
  have hmoves : (visit graph budget ids s).Holds (Moves s) := visit_moves budget ids s
  rw [h] at hmoves
  exact hmoves

/-- `y`, if `create` held it in `s₀`, is in `sorted_create` in `s`. -/
def Placed (s₀ s : List (α × β) × List (α × β)) (y : α) : Prop :=
  y ∈ s₀.1.map Prod.fst → y ∈ s.2.map Prod.fst

theorem Placed.of_moves {s₀ s₁ s₂ : List (α × β) × List (α × β)} {y : α} (h₀₁ : Moves s₀ s₁)
    (h₁₂ : Moves s₁ s₂) (h : Placed s₁ s₂ y) : Placed s₀ s₂ y := by
  intro hy
  by_cases hy₁ : y ∈ s₁.1.map Prod.fst
  · exact h hy₁
  · -- moved out of `create` before `s₁`, so already in `sorted_create`
    have htotal : y ∈ (s₁.2 ++ s₁.1).map Prod.fst :=
      h₀₁.perm_keys.symm.subset (by rw [List.map_append]; exact List.mem_append_right _ hy)
    rw [List.map_append, List.mem_append] at htotal
    exact h₁₂.keys_sorted (htotal.resolve_right hy₁)

theorem visit_placed : ∀ budget ids (s s' : List (α × β) × List (α × β)),
    visit graph budget ids s = .next s' → ∀ y ∈ ids, Placed s s' y := by
  intro budget ids s
  induction budget, ids, s using visit.induct graph with
  | case1 budget s =>
    intro s' _ y hy
    cases hy
  | case2 x xs s deps hdeps =>
    intro s' h
    rw [visit, hdeps] at h
    cases h
  | case3 budget x xs s deps hdeps hbudget ih₁ ih₂ =>
    intro s' h
    rw [visit, hdeps] at h
    dsimp only at h
    rw [if_neg hbudget] at h
    obtain ⟨s₂, h₂, hrest⟩ := Flow.bind_eq_next h
    obtain ⟨s₁, h₁, hplace⟩ := Flow.bind_eq_next h₂
    have hmoves₁ := Moves.of_visit h₁
    have hmoves₂ := Moves.of_placeEntry hplace
    have hmoves₃ := Moves.of_visit hrest
    intro y hy
    rcases List.mem_cons.mp hy with rfl | hy
    · have hdone : Placed s₁ s₂ y := by
        have hdone := placeEntry_done y s₁
        rw [hplace] at hdone
        exact fun hmem => hdone.resolve_right (not_not.mpr hmem)
      exact Placed.of_moves hmoves₁ (hmoves₂.trans hmoves₃)
        (fun hmem => hmoves₃.keys_sorted (hdone hmem))
    · exact Placed.of_moves (hmoves₁.trans hmoves₂) hmoves₃ (ih₂ s₂ s' hrest y hy)
  | case4 budget x xs s hnone ih₂ =>
    intro s' h
    rw [visit, hnone] at h
    obtain ⟨s₂, hplace, hrest⟩ := Flow.bind_eq_next h
    have hmoves₂ := Moves.of_placeEntry hplace
    have hmoves₃ := Moves.of_visit hrest
    intro y hy
    rcases List.mem_cons.mp hy with rfl | hy
    · have hdone := placeEntry_done y s
      rw [hplace] at hdone
      exact fun hmem => hmoves₃.keys_sorted (hdone.resolve_right (not_not.mpr hmem))
    · exact Placed.of_moves hmoves₂ hmoves₃ (ih₂ s₂ s' hrest y hy)

/-- Every id in `sorted` comes after the ids it references. -/
def Ordered (graph : Graph α) (sorted : List (α × β)) : Prop :=
  ∀ x deps, graph.get x = some deps → ∀ p ∈ deps, ∀ l₁ v l₂, sorted = l₁ ++ (x, v) :: l₂ → p ∈ l₁.map Prod.fst

/-- The ids that the graph references are among `keys`. -/
def Targets (graph : Graph α) (keys : List α) : Prop :=
  ∀ x deps, graph.get x = some deps → ∀ p ∈ deps, p ∈ keys

theorem Ordered.nil : Ordered graph ([] : List (α × β)) := by
  intro x deps _ p _ l₁ v l₂ h
  simp at h

theorem Ordered.append_singleton {sorted : List (α × β)} {entry : α × β} (h : Ordered graph sorted)
    (hentry : ∀ deps, graph.get entry.1 = some deps → ∀ p ∈ deps, p ∈ sorted.map Prod.fst) :
    Ordered graph (sorted ++ [entry]) := by
  intro x deps hx p hp l₁ v l₂ hsplit
  rcases List.eq_nil_or_concat l₂ with rfl | ⟨l₂', last, rfl⟩
  · -- the entry just placed
    obtain ⟨rfl, hentry'⟩ := List.append_inj' hsplit rfl
    rw [List.singleton_inj] at hentry'
    subst hentry'
    exact hentry deps hx p hp
  · rw [List.concat_eq_append, ← List.cons_append, ← List.append_assoc] at hsplit
    exact h x deps hx p hp l₁ v l₂' (List.append_inj' hsplit rfl).1

theorem placeEntry_ordered {x : α} {s : List (α × β) × List (α × β)} (hord : Ordered graph s.2)
    (hx : ∀ deps, graph.get x = some deps → ∀ p ∈ deps, p ∈ s.2.map Prod.fst) :
    (placeEntry x s).Holds fun s' => Ordered graph s'.2 := by
  unfold placeEntry
  cases hremove : removeEntry s.1 x with
  | none => exact hord
  | some found =>
    obtain ⟨entry, create⟩ := found
    have hkey := (removeEntry_some hremove).1
    have hord' : Ordered graph (s.2 ++ [entry]) := hord.append_singleton (hkey ▸ hx)
    dsimp only
    split_ifs
    · exact hord'
    · exact hord'

theorem placeEntry_ne_fail (x : α) (s : List (α × β) × List (α × β)) : placeEntry x s ≠ .fail := by
  unfold placeEntry
  cases removeEntry s.1 x with
  | none => nofun
  | some found =>
    dsimp only
    split_ifs <;> nofun

theorem Targets.of_moves {s s' : List (α × β) × List (α × β)} (h : Moves s s')
    (ht : Targets graph ((s.2 ++ s.1).map Prod.fst)) : Targets graph ((s'.2 ++ s'.1).map Prod.fst) :=
  fun x deps hx p hp => h.perm_keys.symm.subset (ht x deps hx p hp)

theorem visit_ordered : ∀ budget ids (s : List (α × β) × List (α × β)),
    Targets graph ((s.2 ++ s.1).map Prod.fst) → Ordered graph s.2 →
      (visit graph budget ids s).Holds fun s' => Ordered graph s'.2 := by
  intro budget ids s
  induction budget, ids, s using visit.induct graph with
  | case1 budget s =>
    intro _ hord
    rw [visit]
    exact hord
  | case2 x xs s deps hdeps =>
    intro _ _
    rw [visit, hdeps]
    trivial
  | case3 budget x xs s deps hdeps hbudget ih₁ ih₂ =>
    intro htargets hord
    rw [visit, hdeps]
    dsimp only
    rw [if_neg hbudget]
    have hdeps₁ := ih₁ htargets hord
    cases h₁ : visit graph (budget - 1) deps s with
    | fail => trivial
    | stop s₁ =>
      rw [h₁] at hdeps₁
      exact hdeps₁
    | next s₁ =>
      rw [h₁] at hdeps₁
      have hmoves₁ := Moves.of_visit h₁
      have hx : ∀ deps', graph.get x = some deps' → ∀ p ∈ deps', p ∈ s₁.2.map Prod.fst := by
        intro deps' hdeps' p hp
        rw [hdeps] at hdeps'
        cases hdeps'
        have htotal := htargets x deps hdeps p hp
        rw [List.map_append, List.mem_append] at htotal
        rcases htotal with hsorted | hcreate
        · exact hmoves₁.keys_sorted hsorted
        · exact visit_placed _ _ _ _ h₁ p hp hcreate
      have hplaced := placeEntry_ordered hdeps₁ hx
      show ((placeEntry x s₁).bind fun s => visit graph budget xs s).Holds _
      cases h₂ : placeEntry x s₁ with
      | fail => exact absurd h₂ (placeEntry_ne_fail x s₁)
      | stop s₂ =>
        rw [h₂] at hplaced
        exact hplaced
      | next s₂ =>
        rw [h₂] at hplaced
        exact ih₂ s₂ (htargets.of_moves (hmoves₁.trans (Moves.of_placeEntry h₂))) hplaced
  | case4 budget x xs s hnone ih₂ =>
    intro htargets hord
    rw [visit, hnone]
    have hplaced := placeEntry_ordered (x := x) hord (fun deps hdeps => by rw [hnone] at hdeps; cases hdeps)
    cases h₂ : placeEntry x s with
    | fail => exact absurd h₂ (placeEntry_ne_fail x s)
    | stop s₂ =>
      rw [h₂] at hplaced
      exact hplaced
    | next s₂ =>
      rw [h₂] at hplaced
      exact ih₂ s₂ (htargets.of_moves (Moves.of_placeEntry h₂)) hplaced

/-! ## Chains and cycles -/

/-- `x` references `p`. -/
def Graph.Dep (graph : Graph α) (x p : α) : Prop := ∃ deps, graph.get x = some deps ∧ p ∈ deps

/-- A chain of keys of the graph, each referencing the next. -/
def KeyChain (graph : Graph α) (l : List α) : Prop := l.IsChain graph.Dep ∧ ∀ y ∈ l, (graph.get y).isSome

/-- `y` lies on a cycle of references. -/
def OnCycle (graph : Graph α) (y : α) : Prop := Relation.TransGen graph.Dep y y

/-- Every chain of keys from `y` has at most `budget` keys. -/
def Bounded (graph : Graph α) : ℕ → α → Prop
  | 0, y => graph.get y = none
  | budget + 1, y => ∀ deps, graph.get y = some deps → ∀ p ∈ deps, Bounded graph budget p

theorem bounded_of_keyChain : ∀ (budget : ℕ) (y : α),
    (∀ l, KeyChain graph (y :: l) → (y :: l).length ≤ budget) → Bounded graph budget y
  | 0, y, h => by
    cases hy : graph.get y with
    | none => exact hy
    | some deps =>
      have hone := h [] ⟨List.IsChain.singleton y, by simp [hy]⟩
      simp at hone
  | budget + 1, y, h => by
    intro deps hdeps p hp
    apply bounded_of_keyChain budget p
    intro l hl
    have hlong := h (p :: l) ⟨List.IsChain.cons_cons ⟨deps, hdeps, hp⟩ hl.1, by
      intro z hz
      rcases List.mem_cons.mp hz with rfl | hz
      · simp [hdeps]
      · exact hl.2 z hz⟩
    simp only [List.length_cons] at hlong ⊢
    omega

theorem visit_ne_fail : ∀ budget ids (s : List (α × β) × List (α × β)),
    (∀ y ∈ ids, Bounded graph budget y) → visit graph budget ids s ≠ .fail := by
  intro budget ids s
  induction budget, ids, s using visit.induct graph with
  | case1 budget s =>
    intro _
    rw [visit]
    nofun
  | case2 x xs s deps hdeps =>
    intro hbounded
    have hx : graph.get x = none := hbounded x List.mem_cons_self
    rw [hx] at hdeps
    cases hdeps
  | case3 budget x xs s deps hdeps hbudget ih₁ ih₂ =>
    intro hbounded
    obtain ⟨budget, rfl⟩ : ∃ b, budget = b + 1 := ⟨budget - 1, by omega⟩
    have hx : Bounded graph (budget + 1) x := hbounded x List.mem_cons_self
    rw [visit, hdeps]
    dsimp only
    rw [if_neg hbudget]
    have h₁ := ih₁ fun p hp => hx deps hdeps p hp
    cases hv : visit graph (budget + 1 - 1) deps s with
    | fail => exact absurd hv h₁
    | stop s₁ => nofun
    | next s₁ =>
      show ((placeEntry x s₁).bind fun s => visit graph (budget + 1) xs s) ≠ .fail
      cases h₂ : placeEntry x s₁ with
      | fail => exact absurd h₂ (placeEntry_ne_fail x s₁)
      | stop s₂ => nofun
      | next s₂ => exact ih₂ s₂ fun y hy => hbounded y (List.mem_cons_of_mem _ hy)
  | case4 budget x xs s hnone ih₂ =>
    intro hbounded
    rw [visit, hnone]
    cases h₂ : placeEntry x s with
    | fail => exact absurd h₂ (placeEntry_ne_fail x s)
    | stop s₂ => nofun
    | next s₂ => exact ih₂ s₂ fun y hy => hbounded y (List.mem_cons_of_mem _ hy)

theorem OnCycle.exists_dep {x : α} {deps : List α} (h : OnCycle graph x) (hx : graph.get x = some deps) :
    ∃ p ∈ deps, OnCycle graph p := by
  obtain ⟨p, ⟨deps', hdeps', hp⟩, hpx⟩ := Relation.TransGen.head'_iff.mp h
  rw [hx] at hdeps'
  obtain rfl := Option.some.inj hdeps'
  exact ⟨p, hp, Relation.TransGen.tail' hpx ⟨deps, hx, hp⟩⟩

theorem OnCycle.get_isSome {y : α} (h : OnCycle graph y) : (graph.get y).isSome := by
  obtain ⟨p, ⟨deps, hdeps, _⟩, _⟩ := Relation.TransGen.head'_iff.mp h
  simp [hdeps]

theorem OnCycle.referenced {y : α} (h : OnCycle graph y) : ∃ x deps, graph.get x = some deps ∧ y ∈ deps := by
  obtain ⟨x, _, deps, hdeps, hy⟩ := Relation.TransGen.tail'_iff.mp h
  exact ⟨x, deps, hdeps, hy⟩

theorem Graph.mem_of_get {x : α} {deps : List α} (h : graph.get x = some deps) : (x, deps) ∈ graph.entries := by
  unfold Graph.get at h
  obtain ⟨e, he, rfl⟩ := Option.map_eq_some_iff.mp h
  have hkey : e.1 = x := by simpa using List.find?_some he
  rw [← hkey]
  exact List.mem_of_find?_eq_some he

theorem Graph.get_of_mem {x : α} {deps : List α} (h : (x, deps) ∈ graph.entries) : graph.get x = some deps := by
  obtain ⟨entries, hnodup⟩ := graph
  unfold Graph.get
  dsimp only at h ⊢
  induction entries with
  | nil => cases h
  | cons e entries ih =>
    rw [List.map_cons, List.nodup_cons] at hnodup
    rcases List.mem_cons.mp h with rfl | h
    · simp
    · have hne : e.1 ≠ x := fun hex => hnodup.1 (hex ▸ List.mem_map_of_mem h)
      rw [List.find?_cons_of_neg (by simpa using hne)]
      exact ih hnodup.2 h

theorem Graph.mem_keys_of_isSome {x : α} (h : (graph.get x).isSome) : x ∈ graph.keys := by
  obtain ⟨deps, hdeps⟩ := Option.isSome_iff_exists.mp h
  exact List.mem_map_of_mem (Graph.mem_of_get hdeps)

theorem placeEntry_keeps (x : α) (s : List (α × β) × List (α × β)) :
    (placeEntry x s).Holds fun s' => ∀ y, y ≠ x → y ∈ s.1.map Prod.fst → y ∈ s'.1.map Prod.fst := by
  unfold placeEntry
  cases hremove : removeEntry s.1 x with
  | none => exact fun _ _ hy => hy
  | some found =>
    obtain ⟨entry, create⟩ := found
    obtain ⟨hkey, hperm⟩ := removeEntry_some hremove
    have hkeeps : ∀ y, y ≠ x → y ∈ s.1.map Prod.fst → y ∈ create.map Prod.fst := by
      intro y hne hy
      have hy' := (hperm.map Prod.fst).symm.subset hy
      rw [List.map_cons, List.mem_cons] at hy'
      exact hy'.resolve_left (hkey ▸ hne)
    dsimp only
    split_ifs
    · exact hkeeps
    · exact hkeeps

theorem placeEntry_stop {x : α} {s s' : List (α × β) × List (α × β)} (h : placeEntry x s = .stop s') :
    s'.1 = [] := by
  unfold placeEntry at h
  cases hremove : removeEntry s.1 x with
  | none =>
    rw [hremove] at h
    cases h
  | some found =>
    obtain ⟨entry, create⟩ := found
    rw [hremove] at h
    dsimp only at h
    split_ifs at h with hempty
    · cases h
      exact List.isEmpty_iff.mp hempty

theorem Flow.bind_eq_stop {σ : Type} {f : Flow σ} {k : σ → Flow σ} {s' : σ} (h : f.bind k = .stop s') :
    f = .stop s' ∨ ∃ s, f = .next s ∧ k s = .stop s' := by
  cases f with
  | next s => exact Or.inr ⟨s, rfl, h⟩
  | stop s => exact Or.inl h
  | fail => cases h

theorem visit_stop : ∀ budget ids (s s' : List (α × β) × List (α × β)),
    visit graph budget ids s = .stop s' → s'.1 = [] := by
  intro budget ids s
  induction budget, ids, s using visit.induct graph with
  | case1 budget s =>
    intro s' h
    rw [visit] at h
    cases h
  | case2 x xs s deps hdeps =>
    intro s' h
    rw [visit, hdeps] at h
    cases h
  | case3 budget x xs s deps hdeps hbudget ih₁ ih₂ =>
    intro s' h
    rw [visit, hdeps] at h
    dsimp only at h
    rw [if_neg hbudget] at h
    rcases Flow.bind_eq_stop h with h₂ | ⟨s₂, _, h₃⟩
    · rcases Flow.bind_eq_stop h₂ with h₁ | ⟨s₁, _, hplace⟩
      · exact ih₁ s' h₁
      · exact placeEntry_stop hplace
    · exact ih₂ s₂ s' h₃
  | case4 budget x xs s hnone ih₂ =>
    intro s' h
    rw [visit, hnone] at h
    rcases Flow.bind_eq_stop h with hplace | ⟨s₂, _, h₃⟩
    · exact placeEntry_stop hplace
    · exact ih₂ s₂ s' h₃

/-- Every id on a cycle is still in `create`. -/
def CycleKept (graph : Graph α) (s : List (α × β) × List (α × β)) : Prop :=
  ∀ y, OnCycle graph y → y ∈ s.1.map Prod.fst

theorem placeEntry_cycleKept {x : α} {s : List (α × β) × List (α × β)} (hcycle : ∃ y, OnCycle graph y)
    (hkept : CycleKept graph s) (hx : ¬ OnCycle graph x) :
    ∃ s', placeEntry x s = .next s' ∧ CycleKept graph s' := by
  have hkeeps := placeEntry_keeps x s
  cases h : placeEntry x s with
  | fail => exact absurd h (placeEntry_ne_fail x s)
  | stop s' =>
    rw [h] at hkeeps
    obtain ⟨y, hy⟩ := hcycle
    have hmem := hkeeps y (fun hyx => hx (hyx ▸ hy)) (hkept y hy)
    rw [placeEntry_stop h] at hmem
    cases hmem
  | next s' =>
    rw [h] at hkeeps
    exact ⟨s', rfl, fun y hy => hkeeps y (fun hyx => hx (hyx ▸ hy)) (hkept y hy)⟩

/-- With a cycle in the graph, a walk fails, or goes on having walked no id of a cycle:
an id of a cycle is never placed, so the walk never leaves early, and the walk from an
id of a cycle follows the cycle until its budget runs out. -/
theorem visit_of_cycle (hcycle : ∃ y, OnCycle graph y) : ∀ budget ids (s : List (α × β) × List (α × β)),
    CycleKept graph s → visit graph budget ids s = .fail ∨
      ∃ s', visit graph budget ids s = .next s' ∧ CycleKept graph s' ∧ ∀ y ∈ ids, ¬ OnCycle graph y := by
  intro budget ids s
  induction budget, ids, s using visit.induct graph with
  | case1 budget s =>
    intro hkept
    rw [visit]
    exact Or.inr ⟨s, rfl, hkept, fun _ hy => by cases hy⟩
  | case2 x xs s deps hdeps =>
    intro _
    rw [visit, hdeps]
    exact Or.inl rfl
  | case3 budget x xs s deps hdeps hbudget ih₁ ih₂ =>
    intro hkept
    rw [visit, hdeps]
    dsimp only
    rw [if_neg hbudget]
    rcases ih₁ hkept with h₁ | ⟨s₁, h₁, hkept₁, hdeps₁⟩
    · rw [h₁]
      exact Or.inl rfl
    · -- `x` references no id of a cycle, so lies on none
      have hx : ¬ OnCycle graph x := fun hx => by
        obtain ⟨p, hp, hpc⟩ := hx.exists_dep hdeps
        exact hdeps₁ p hp hpc
      obtain ⟨s₂, h₂, hkept₂⟩ := placeEntry_cycleKept hcycle hkept₁ hx
      rw [h₁]
      simp only [Flow.bind]
      rw [h₂]
      rcases ih₂ s₂ hkept₂ with h₃ | ⟨s₃, h₃, hkept₃, hxs⟩
      · exact Or.inl h₃
      · refine Or.inr ⟨s₃, h₃, hkept₃, fun y hy => ?_⟩
        rcases List.mem_cons.mp hy with rfl | hy
        · exact hx
        · exact hxs y hy
  | case4 budget x xs s hnone ih₂ =>
    intro hkept
    rw [visit, hnone]
    have hx : ¬ OnCycle graph x := fun hx => by simpa [hnone] using hx.get_isSome
    obtain ⟨s₂, h₂, hkept₂⟩ := placeEntry_cycleKept hcycle hkept hx
    rw [h₂]
    rcases ih₂ s₂ hkept₂ with h₃ | ⟨s₃, h₃, hkept₃, hxs⟩
    · exact Or.inl h₃
    · refine Or.inr ⟨s₃, h₃, hkept₃, fun y hy => ?_⟩
      rcases List.mem_cons.mp hy with rfl | hy
      · exact hx
      · exact hxs y hy

theorem missingReference_eq_none_iff {create : List (α × β)} :
    missingReference graph create = none ↔ Targets graph (create.map Prod.fst) := by
  unfold missingReference Targets
  rw [List.findSome?_eq_none_iff]
  constructor
  · intro h x deps hx p hp
    have hnone := h (x, deps) (Graph.mem_of_get hx)
    rw [Option.map_eq_none_iff, List.find?_eq_none] at hnone
    simpa [containsKey] using hnone p hp
  · intro h e he
    rw [Option.map_eq_none_iff, List.find?_eq_none]
    intro p hp
    simpa [containsKey] using h e.1 e.2 (Graph.get_of_mem he) p hp

theorem expectedResult_of_targets {create : List (α × β)} (h : Targets graph (create.map Prod.fst)) :
    expectedResult graph create = sortResult graph create := by
  unfold expectedResult
  rw [missingReference_eq_none_iff.mpr h]

/-- `sorted ++ rest` is ordered when `sorted` is and every key of the graph in `rest`
is in `sorted` too. -/
theorem Ordered.append {sorted rest : List (α × β)} (h : Ordered graph sorted)
    (hrest : ∀ x, (graph.get x).isSome → x ∈ rest.map Prod.fst → x ∈ sorted.map Prod.fst) :
    Ordered graph (sorted ++ rest) := by
  intro x deps hx p hp l₁ v l₂ hsplit
  have hsorted : x ∈ sorted.map Prod.fst → p ∈ sorted.map Prod.fst := by
    intro hxs
    obtain ⟨⟨x', v'⟩, hmem, hx'⟩ := List.mem_map.mp hxs
    dsimp only at hx'
    subst hx'
    obtain ⟨s₁, s₂, rfl⟩ := List.append_of_mem hmem
    have hp₁ := h x' deps hx p hp s₁ v' s₂ rfl
    rw [List.map_append]
    exact List.mem_append_left _ hp₁
  have hxkey : (graph.get x).isSome := by simp [hx]
  rcases List.append_eq_append_iff.mp hsplit with ⟨a', rfl, hrest'⟩ | ⟨c', hsorted', hc'⟩
  · -- `x` in `rest`
    have hxr : x ∈ rest.map Prod.fst := by simp [hrest']
    rw [List.map_append]
    exact List.mem_append_left _ (hsorted (hrest x hxkey hxr))
  · cases c' with
    | nil =>
      rw [List.append_nil] at hsorted'
      rw [List.nil_append] at hc'
      subst hsorted' hc'
      exact hsorted (hrest x hxkey (by simp))
    | cons d c'' =>
      obtain ⟨rfl, _⟩ := List.cons_eq_cons.mp hc'
      exact h x deps hx p hp l₁ v c'' hsorted'

theorem perm_sortResult {create m : List (α × β)} (h : sortResult graph create = .ok m) : m.Perm create := by
  have hmoves : (visit graph 1000 graph.keys (create, [])).Holds (Moves (create, [])) :=
    visit_moves 1000 graph.keys (create, [])
  have hfinish : ∀ c sorted : List (α × β), Moves (create, []) (c, sorted) → finish c sorted = .ok m →
      m.Perm create := by
    rintro c sorted ⟨moved, hsorted, hperm⟩ hfin
    cases hfin
    dsimp only at hsorted
    rw [hsorted, List.nil_append]
    exact hperm
  unfold sortResult at h
  cases hv : visit graph 1000 graph.keys (create, []) with
  | fail =>
    rw [hv] at h
    cases h
  | next s =>
    rw [hv] at h hmoves
    exact hfinish s.1 s.2 hmoves h
  | stop s =>
    rw [hv] at h hmoves
    exact hfinish s.1 s.2 hmoves h

/-- When every reference is to an id of `create`, the sort returns each entry after the
entries of the ids it references. -/
theorem precedes_sortResult {create m : List (α × β)} (htargets : Targets graph (create.map Prod.fst))
    (h : sortResult graph create = .ok m) : Ordered graph m := by
  have hord := visit_ordered 1000 graph.keys (create, []) (by simpa using htargets) Ordered.nil
  unfold sortResult at h
  cases hv : visit graph 1000 graph.keys (create, []) with
  | fail =>
    rw [hv] at h
    cases h
  | stop s =>
    obtain ⟨c, sorted⟩ := s
    rw [hv] at h hord
    obtain rfl : c = [] := visit_stop _ _ _ _ hv
    cases h
    rw [List.append_nil]
    exact hord
  | next s =>
    obtain ⟨c, sorted⟩ := s
    rw [hv] at h hord
    cases h
    have hmoves := Moves.of_visit hv
    refine hord.append fun x hx hxc => ?_
    exact visit_placed _ _ _ _ hv x (Graph.mem_keys_of_isSome hx) (hmoves.keys_create hxc)

theorem sortResult_of_chains (create : List (α × β)) (hchains : ∀ l, KeyChain graph l → l.length ≤ 1000) :
    ∃ m, sortResult graph create = .ok m := by
  have hne := visit_ne_fail 1000 graph.keys (create, []) fun y _ =>
    bounded_of_keyChain 1000 y fun l hl => hchains _ hl
  unfold sortResult
  cases hv : visit graph 1000 graph.keys (create, []) with
  | fail => exact absurd hv hne
  | next s => exact ⟨s.2 ++ s.1, rfl⟩
  | stop s => exact ⟨s.2 ++ s.1, rfl⟩

theorem sortResult_of_cycle {create : List (α × β)} (htargets : Targets graph (create.map Prod.fst))
    (hcycle : ∃ y, OnCycle graph y) : sortResult graph create = .error .cyclicalReferences := by
  have hkept : CycleKept graph (create, []) := fun y hy => by
    obtain ⟨x, deps, hx, hyx⟩ := hy.referenced
    exact htargets x deps hx y hyx
  unfold sortResult
  rcases visit_of_cycle hcycle 1000 graph.keys (create, []) hkept with hv | ⟨s, _, _, hkeys⟩
  · rw [hv]
  · obtain ⟨y, hy⟩ := hcycle
    exact absurd hy (hkeys y (Graph.mem_keys_of_isSome hy.get_isSome))

end Walked

/-! ## The chain `0 → 1 → ⋯ → n` -/

/-- The chain `0 → 1 → ⋯ → n`: each key `i < n` references `i + 1`, and `n` references nothing. -/
def chainGraph (n : ℕ) : Graph ℕ where
  entries := (List.range (n + 1)).map fun i => (i, if i < n then [i + 1] else [])
  nodup := by simp [List.map_map, Function.comp_def, List.nodup_range]

/-- The creation ids `0, …, n` of the chain. -/
def chainCreate (n : ℕ) : List (ℕ × Unit) := (List.range (n + 1)).map fun i => (i, ())

theorem chainGraph_dep {n x p : ℕ} (h : (chainGraph n).Dep x p) : x < n ∧ p = x + 1 := by
  obtain ⟨deps, hdeps, hp⟩ := h
  obtain ⟨i, _, hentry⟩ := List.mem_map.mp (Graph.mem_of_get hdeps)
  obtain ⟨rfl, rfl⟩ := Prod.mk.inj hentry
  split_ifs at hp with hlt
  · exact ⟨hlt, List.mem_singleton.mp hp⟩
  · cases hp

theorem length_le_of_isChain_succ : ∀ {l : List ℕ} {a n : ℕ}, (a :: l).IsChain (fun x p => p = x + 1) →
    (∀ y ∈ a :: l, y ≤ n) → (a :: l).length + a ≤ n + 1
  | [], a, n, _, hle => by
    have ha := hle a List.mem_cons_self
    simp only [List.length_singleton]
    omega
  | b :: l, a, n, hchain, hle => by
    rw [List.isChain_cons_cons] at hchain
    obtain ⟨rfl, hchain⟩ := hchain
    have ih := length_le_of_isChain_succ hchain fun y hy => hle y (List.mem_cons_of_mem _ hy)
    simp only [List.length_cons] at ih ⊢
    omega

theorem chainGraph_isChain_length {n : ℕ} {l : List ℕ} (hchain : l.IsChain (chainGraph n).Dep)
    (hbounds : ∀ y ∈ l, y ≤ n) : l.length ≤ n + 1 := by
  cases l with
  | nil => simp
  | cons y l =>
    have hlen := length_le_of_isChain_succ (hchain.imp fun _ _ h => (chainGraph_dep h).2) hbounds
    omega

theorem mem_chainCreate {n y : ℕ} : y ∈ (chainCreate n).map Prod.fst ↔ y ≤ n := by
  simp only [chainCreate, List.map_map, Function.comp_def, List.map_id', List.mem_range]
  omega

theorem chainGraph_targets (n : ℕ) : Targets (chainGraph n) ((chainCreate n).map Prod.fst) := by
  intro x deps hx p hp
  obtain ⟨hxn, rfl⟩ := chainGraph_dep ⟨deps, hx, hp⟩
  rw [mem_chainCreate]
  omega

/-! ## The sort -/

section Sorting

variable {α β : Type} [DecidableEq α]

/-- `topological_sort` returns, given enough passes of its loop, one result whatever the
fuel: a reference to an id that `create` lacks is refused; otherwise a cycle is refused,
and when every chain of keys has at most 1000 keys the entries of `create` are returned,
each after the entries of the ids it references. -/
theorem topologicalSort_sorts_create (graph : Graph α) (create : List (α × β)) :
    (∃ fuel r, topologicalSort fuel graph create = some r) ∧
    ∀ fuel r, topologicalSort fuel graph create = some r →
      (¬ Targets graph (create.map Prod.fst) → ∃ toId fromId, r = .error (.invalidResultReference toId fromId)) ∧
      (Targets graph (create.map Prod.fst) → (∃ y, OnCycle graph y) → r = .error .cyclicalReferences) ∧
      (Targets graph (create.map Prod.fst) → (∀ l, KeyChain graph l → l.length ≤ 1000) →
        ∃ m, r = .ok m ∧ m.Perm create ∧ Ordered graph m) := by
  obtain ⟨⟨fuel, hfuel⟩, hunique⟩ := topologicalSort_eq_expectedResult graph create
  refine ⟨⟨fuel, _, hfuel⟩, fun fuel' r h => ?_⟩
  obtain rfl := hunique fuel' r h
  refine ⟨fun hmissing => ?_, fun htargets hcycle => ?_, fun htargets hchains => ?_⟩
  · -- the check finds the missing reference
    unfold expectedResult
    cases hm : missingReference graph create with
    | none => exact absurd (missingReference_eq_none_iff.mp hm) hmissing
    | some found =>
      obtain ⟨toId, fromId⟩ := found
      exact ⟨toId, fromId, rfl⟩
  · rw [expectedResult_of_targets htargets]
    exact sortResult_of_cycle htargets hcycle
  · rw [expectedResult_of_targets htargets]
    obtain ⟨m, hm⟩ := sortResult_of_chains create hchains
    exact ⟨m, hm, perm_sortResult hm, precedes_sortResult htargets hm⟩

/-- On the graphs `resolve_references` builds, whose keys are creation ids, the restricted
graph is the whole graph: the sort returns, given enough passes of its loop, one result whatever
the fuel; a reference to an id that `create` lacks is refused; a cycle is refused; and when no
chain of creation ids, each referencing the next, is longer than 1000, the entries of `create`
are returned, each after the entries of the ids it references. -/
theorem topologicalSort_of_created_keys (graph : Graph α) (create : List (α × β))
    (hkeys : ∀ k ∈ graph.keys, k ∈ create.map Prod.fst) :
    (∃ fuel r, topologicalSort fuel graph create = some r) ∧
    ∀ fuel r, topologicalSort fuel graph create = some r →
      (¬ Targets graph (create.map Prod.fst) → ∃ toId fromId, r = .error (.invalidResultReference toId fromId)) ∧
      (Targets graph (create.map Prod.fst) → (∃ y, OnCycle graph y) → r = .error .cyclicalReferences) ∧
      (Targets graph (create.map Prod.fst) →
        (∀ l : List α, l.IsChain graph.Dep → (∀ y ∈ l, y ∈ create.map Prod.fst) → l.length ≤ 1000) →
        ∃ m, r = .ok m ∧ m.Perm create ∧ Ordered graph m) := by
  obtain ⟨hhalts, hresult⟩ := topologicalSort_sorts_create graph create
  refine ⟨hhalts, fun fuel r h => ?_⟩
  obtain ⟨hmissing, hcycle, hchains⟩ := hresult fuel r h
  refine ⟨hmissing, hcycle, fun htargets hcreated => hchains htargets fun l hl => ?_⟩
  exact hcreated l hl.1 fun y hy => hkeys y (Graph.mem_keys_of_isSome (hl.2 y hy))

theorem topologicalSort_of_created_keys_chain :
    (∀ k ∈ (chainGraph 2).keys, k ∈ (chainCreate 2).map Prod.fst) ∧
      ∃ fuel m, topologicalSort fuel (chainGraph 2) (chainCreate 2) = some (.ok m) ∧
        m.Perm (chainCreate 2) ∧ Ordered (chainGraph 2) m := by
  have hkeys : ∀ k ∈ (chainGraph 2).keys, k ∈ (chainCreate 2).map Prod.fst := by decide
  obtain ⟨⟨fuel, r, hr⟩, hresult⟩ := topologicalSort_of_created_keys (chainGraph 2) (chainCreate 2) hkeys
  obtain ⟨m, rfl, hperm, hord⟩ := (hresult fuel r hr).2.2 (chainGraph_targets 2) fun l hl hcreated =>
    (chainGraph_isChain_length hl fun y hy => mem_chainCreate.mp (hcreated y hy)).trans (by norm_num)
  exact ⟨hkeys, fuel, m, hr, hperm, hord⟩

end Sorting

end MailServer.JmapProto.References
