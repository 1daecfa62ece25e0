import MailServer.Lib.BoolFilter

/-! # `Store::filter` over the query filters

`Store::filter` reads a filter list from left to right with a stack of states:
`And`, `Or` and `Not` open a group, `End` closes it and hands its result to the
group around it, and the list itself is an `And`. The document ids of the
collection, needed to complement the results inside a `Not`, are fetched the
first time they are needed (`filterLoop_fetched`: fetching them up front gives
the same states).

After every result an empty `And` skips the filters up to the next `End`. The
skip does not count brackets: when the `And` group still holds a nested group,
it stops at that group's `End`, which then closes the `And` group instead, and
the rest of the list is read one level off. On lists whose nested `And` groups
hold only leaves, whose `And` and `Not` groups are not empty and whose leaves read
results within the document ids, the result is the meaning of the list
(`filter_eq_evalList`).
-/

namespace MailServer.Store.Query

set_option linter.dupNamespace false

open MailServer.Lib.BoolFilter

/-- `query::Operator`. -/
inductive Operator where
  | lowerThan
  | lowerEqualThan
  | greaterThan
  | greaterEqualThan
  | equal
  deriving DecidableEq, Repr

/-- `write::BitmapClass`, with the tag values of type `τ`; a text token is named
by its word. -/
inductive BitmapClass (τ : Type) where
  | documentIds
  | tag (field : UInt8) (value : τ)
  | text (field : UInt8) (token : String)
  deriving DecidableEq, Repr

/-- `query::Filter`, over documents of type `α`. -/
inductive Filter (α τ : Type) where
  | matchValue (field : UInt8) (op : Operator) (value : List UInt8)
  | hasText (field : UInt8) (text : String) (tokenize : Bool)
  | inBitmap (bitmapClass : BitmapClass τ)
  | documentSet (set : Finset α)
  | and
  | or
  | not
  | «end»
  deriving DecidableEq

/-- What `Store::filter` reads from the store of one account and collection: the
bitmaps, the index ranges (`range_to_bitmap`) and the words `WordTokenizer`
splits a text into, without repeats. -/
structure Store (α τ : Type) where
  getBitmap : BitmapClass τ → Option (Finset α)
  rangeToBitmap : UInt8 → Operator → List UInt8 → Option (Finset α)
  words : String → List String

variable {α τ : Type}

/-- Whether a filter is `End`. -/
def Filter.isEnd : Filter α τ → Bool
  | .end => true
  | _ => false

/-! ## Filter lists as formulas -/

/-- The leaf filters. -/
def Filter.IsLeaf : Filter α τ → Prop
  | .and | .or | .not | .end => False
  | _ => True

/-- The filter a token of a formula stands for. -/
def Filter.ofToken : Token (Filter α τ) → Filter α τ
  | .leaf filter => filter
  | .open .and => .and
  | .open .or => .or
  | .open .not => .not
  | .close => .end

/-- The filter list of a formula. -/
def filtersOf (t : Formula (Filter α τ)) : List (Filter α τ) := t.tokens.map Filter.ofToken

/-- The filter list of a list of formulas, read as their conjunction. -/
def filtersOfList (ts : List (Formula (Filter α τ))) : List (Filter α τ) :=
  (tokensOf ts).map Filter.ofToken

@[simp] theorem filtersOfList_nil : filtersOfList ([] : List (Formula (Filter α τ))) = [] := rfl

@[simp] theorem filtersOfList_cons (t : Formula (Filter α τ)) (ts : List (Formula (Filter α τ))) :
    filtersOfList (t :: ts) = filtersOf t ++ filtersOfList ts := by
  simp [filtersOfList, filtersOf]

@[simp] theorem filtersOf_leaf (filter : Filter α τ) : filtersOf (.leaf filter) = [filter] := by
  simp [filtersOf, Filter.ofToken]

@[simp] theorem filtersOf_node (op : Op) (args : List (Formula (Filter α τ))) :
    filtersOf (.node op args) = Filter.ofToken (.open op) :: filtersOfList args ++ [.end] := by
  simp [filtersOf, filtersOfList, tokensOf, Filter.ofToken]

theorem filtersOfList_eq_flatMap (ts : List (Formula (Filter α τ))) :
    filtersOfList ts = ts.flatMap filtersOf := by
  induction ts with
  | nil => rfl
  | cons t ts ih => rw [filtersOfList_cons, ih, List.flatMap_cons]

theorem filtersOf_subset_filtersOfList {t : Formula (Filter α τ)} {ts : List (Formula (Filter α τ))}
    (ht : t ∈ ts) : filtersOf t ⊆ filtersOfList ts := by
  rw [filtersOfList_eq_flatMap]
  exact fun _ hf => List.mem_flatMap.mpr ⟨t, ht, hf⟩

theorem filtersOfList_subset_node (op : Op) (args : List (Formula (Filter α τ))) :
    filtersOfList args ⊆ filtersOf (.node op args) := by
  rw [filtersOf_node]
  exact fun _ hf => List.mem_cons_of_mem _ (List.mem_append_left _ hf)

theorem filtersOf_ne_nil (t : Formula (Filter α τ)) : filtersOf t ≠ [] := by
  cases t with
  | leaf filter => simp
  | node op args => simp

theorem dropWhile_leaves {leaves : List (Formula (Filter α τ))}
    (hl : ∀ a ∈ leaves, ∃ filter, a = .leaf filter ∧ filter.IsLeaf) (rest : List (Filter α τ)) :
    (filtersOfList leaves ++ .end :: rest).dropWhile (fun f => !f.isEnd) = .end :: rest := by
  induction leaves with
  | nil => simp [Filter.isEnd]
  | cons a leaves ih =>
    obtain ⟨filter, rfl, hf⟩ := hl a (List.mem_cons_self ..)
    have hend : filter.isEnd = false := by
      cases filter <;> simp only [Filter.IsLeaf] at hf <;> rfl
    rw [filtersOfList_cons, filtersOf_leaf, List.singleton_append, List.cons_append, List.dropWhile_cons,
      if_pos (by simp [hend])]
    exact ih fun a' ha' => hl a' (List.mem_cons_of_mem _ ha')

/-- The formulas on which the `And` short-circuit only skips leaves and no group
is empty unless the empty group means the empty set: the leaves are leaf
filters, an `And` group holds one formula and then leaves, and a `Not` group is
not empty. -/
inductive Safe : Formula (Filter α τ) → Prop
  | leaf {filter : Filter α τ} : filter.IsLeaf → Safe (.leaf filter)
  | and {first : Formula (Filter α τ)} {rest : List (Formula (Filter α τ))} :
      Safe first → (∀ a ∈ rest, ∃ filter, a = .leaf filter ∧ filter.IsLeaf) →
      Safe (.node .and (first :: rest))
  | or {args : List (Formula (Filter α τ))} : (∀ a ∈ args, Safe a) → Safe (.node .or args)
  | not {args : List (Formula (Filter α τ))} : args ≠ [] → (∀ a ∈ args, Safe a) →
      Safe (.node .not args)

variable [DecidableEq α]

/-- `Store::get_bitmaps_intersection`, from the intersection so far: a missing
bitmap gives `None`, and an empty intersection stops the reads. -/
def bitmapsIntersectionFrom (store : Store α τ) (result : Option (Finset α)) :
    List (BitmapClass τ) → Option (Finset α)
  | [] => result
  | key :: keys =>
    match store.getBitmap key with
    | none => none
    | some bitmap =>
      match result with
      | some result =>
        if result ∩ bitmap = ∅ then some (result ∩ bitmap)
        else bitmapsIntersectionFrom store (some (result ∩ bitmap)) keys
      | none => bitmapsIntersectionFrom store (some bitmap) keys

/-- `Store::get_bitmaps_intersection`. -/
def getBitmapsIntersection (store : Store α τ) (keys : List (BitmapClass τ)) : Option (Finset α) :=
  bitmapsIntersectionFrom store none keys

/-- `State`: the operator of the group being read and its result so far. -/
structure State (α : Type) where
  op : Op
  bm : Option (Finset α)
  deriving DecidableEq

/-- The variables of the loop of `Store::filter`. -/
structure Machine (α : Type) where
  state : State α
  stack : List (State α)
  notMask : Finset α
  notFetch : Bool
  deriving DecidableEq

/-- What the first half of a pass of the loop does with a filter: a leaf or a
closed group gives a result to apply, an operator opens a group, and an `End`
outside every group stops the loop. -/
inductive Pass (α : Type) where
  | result (result : Option (Finset α)) (m : Machine α)
  | next (m : Machine α)
  | stop

/-- The result of a leaf filter, read from the store; the operators and `End`
are not leaves and read nothing. -/
def leafResult (store : Store α τ) : Filter α τ → Option (Finset α)
  | .matchValue field op value => store.rangeToBitmap field op value
  | .hasText field text tokenize =>
    if tokenize then getBitmapsIntersection store ((store.words text).map (.text field))
    else store.getBitmap (.text field text)
  | .inBitmap bitmapClass => store.getBitmap bitmapClass
  | .documentSet set => some set
  | .and | .or | .not | .end => none

/-- The first half of a pass of the loop of `Store::filter`. -/
def readFilter (store : Store α τ) (m : Machine α) : Filter α τ → Pass α
  | .and => .next { m with stack := m.state :: m.stack, state := ⟨.and, none⟩ }
  | .or => .next { m with stack := m.state :: m.stack, state := ⟨.or, none⟩ }
  | .not => .next { m with stack := m.state :: m.stack, state := ⟨.not, none⟩ }
  | .end =>
    match m.stack with
    | prevState :: stack => .result m.state.bm { m with state := prevState, stack }
    | [] => .stop
  | leaf => .result (leafResult store leaf) m

/-- The logical operation of a group on its result so far and one more result. -/
def applyOp (notMask : Finset α) (op : Op) : Option (Finset α) → Option (Finset α) → Option (Finset α)
  | some dest, some result =>
    match op with
    | .and => some (dest ∩ result)
    | .or => some (dest ∪ result)
    | .not => some (dest ∩ symmDiff result notMask)
  | some dest, none =>
    match op with
    | .and => some ∅
    | .or => some dest
    | .not => some dest
  | none, some result => some (if op = .not then symmDiff result notMask else result)
  | none, none => some (if op = .not then notMask else ∅)

/-- The second half of a pass: fetch the document ids the first time a `Not`
needs them, then apply the result. -/
def applyResult (store : Store α τ) (result : Option (Finset α)) (m : Machine α) : Machine α :=
  let m := if m.state.op = .not ∧ m.notFetch = false then
      { m with notMask := (store.getBitmap .documentIds).getD ∅, notFetch := true }
    else m
  { m with state := { m.state with bm := applyOp m.notMask m.state.op m.state.bm result } }

/-- The `And` short-circuit: the group's result is empty. -/
def shortCircuit (m : Machine α) : Prop :=
  m.state.op = .and ∧ m.state.bm.getD ∅ = ∅

instance (m : Machine α) : Decidable (shortCircuit m) :=
  inferInstanceAs (Decidable (_ ∧ _))

/-- The loop of `Store::filter`. -/
def filterLoop (store : Store α τ) (filters : List (Filter α τ)) (m : Machine α) : Machine α :=
  match filters with
  | [] => m
  | filter :: filters =>
    match readFilter store m filter with
    | .stop => m
    | .next m => filterLoop store filters m
    | .result result m =>
      let m := applyResult store result m
      if shortCircuit m then filterLoop store (filters.dropWhile fun f => !f.isEnd) m
      else filterLoop store filters m
termination_by filters.length
decreasing_by
  all_goals simp only [List.length_cons]
  all_goals first
    | exact Nat.lt_succ_self _
    | exact Nat.lt_succ_of_le (List.length_dropWhile_le _ _)

/-- The machine the loop starts from: an `And` with no result. -/
def Machine.init : Machine α := ⟨⟨.and, none⟩, [], ∅, false⟩

/-- `Store::filter`: the result set of a filter list. -/
def filter (store : Store α τ) (filters : List (Filter α τ)) : Finset α :=
  if filters = [] then (store.getBitmap .documentIds).getD ∅
  else ((filterLoop store filters Machine.init).state.bm).getD ∅

/-! ## Steps of the loop -/

/-- The rest of a pass once the result is applied: the `And` short-circuit, then
the next pass. -/
def resume (store : Store α τ) (m : Machine α) (filters : List (Filter α τ)) : Machine α :=
  if shortCircuit m then filterLoop store (filters.dropWhile fun f => !f.isEnd) m
  else filterLoop store filters m

theorem filterLoop_stop {store : Store α τ} {m : Machine α} {filter : Filter α τ}
    (h : readFilter store m filter = .stop) (filters : List (Filter α τ)) :
    filterLoop store (filter :: filters) m = m := by
  rw [filterLoop, h]

theorem filterLoop_next {store : Store α τ} {m m' : Machine α} {filter : Filter α τ}
    (h : readFilter store m filter = .next m') (filters : List (Filter α τ)) :
    filterLoop store (filter :: filters) m = filterLoop store filters m' := by
  rw [filterLoop, h]

theorem filterLoop_result {store : Store α τ} {m m' : Machine α} {filter : Filter α τ}
    {result : Option (Finset α)} (h : readFilter store m filter = .result result m')
    (filters : List (Filter α τ)) :
    filterLoop store (filter :: filters) m = resume store (applyResult store result m') filters := by
  rw [filterLoop, h]
  rfl

/-! ## The document ids, fetched once -/

/-- The document ids of the collection: the universe of every result. -/
def documentIds (store : Store α τ) : Finset α := (store.getBitmap .documentIds).getD ∅

/-- The machine with the document ids already fetched. -/
def Machine.fetched (U : Finset α) (m : Machine α) : Machine α := { m with notMask := U, notFetch := true }

/-- A fetched mask is the document ids. -/
def Machine.FetchInv (U : Finset α) (m : Machine α) : Prop := m.notFetch = true → m.notMask = U

theorem readFilter_fetched (store : Store α τ) (U : Finset α) (m : Machine α) (filter : Filter α τ) :
    readFilter store (m.fetched U) filter =
      match readFilter store m filter with
      | .result result m' => .result result (m'.fetched U)
      | .next m' => .next (m'.fetched U)
      | .stop => .stop := by
  cases filter with
  | «end» =>
    cases hs : m.stack with
    | nil => simp [readFilter, Machine.fetched, hs]
    | cons prevState stack => simp [readFilter, Machine.fetched, hs]
  | _ => simp [readFilter, Machine.fetched]

theorem readFilter_fetchInv {store : Store α τ} {U : Finset α} {m : Machine α} {filter : Filter α τ}
    (hm : m.FetchInv U) :
    (∀ result m', readFilter store m filter = .result result m' → m'.FetchInv U) ∧
      (∀ m', readFilter store m filter = .next m' → m'.FetchInv U) := by
  cases filter with
  | «end» =>
    cases hs : m.stack with
    | nil => simp [readFilter, hs]
    | cons prevState stack =>
      simp only [readFilter, hs, Pass.result.injEq, reduceCtorEq, false_implies, implies_true,
        and_true]
      rintro _ _ ⟨-, rfl⟩
      exact hm
  | and | or | not =>
    simp only [readFilter, reduceCtorEq, false_implies, implies_true, Pass.next.injEq, true_and]
    rintro _ rfl
    exact hm
  | _ =>
    simp only [readFilter, Pass.result.injEq, reduceCtorEq, false_implies, implies_true, and_true]
    rintro _ _ ⟨-, rfl⟩
    exact hm

theorem applyOp_of_ne_not {op : Op} (hop : op ≠ .not) (mask mask' : Finset α)
    (bm result : Option (Finset α)) : applyOp mask op bm result = applyOp mask' op bm result := by
  cases op with
  | not => exact absurd rfl hop
  | _ => cases bm <;> cases result <;> rfl

theorem applyResult_fetched (store : Store α τ) (result : Option (Finset α)) {m : Machine α}
    (hm : m.FetchInv (documentIds store)) :
    (applyResult store result m).fetched (documentIds store) =
      applyResult store result (m.fetched (documentIds store)) := by
  unfold applyResult
  by_cases hfetch : m.state.op = .not ∧ m.notFetch = false
  · simp [hfetch, Machine.fetched, documentIds]
  · rw [if_neg hfetch]
    simp only [Machine.fetched, Bool.true_eq_false, and_false, if_false]
    by_cases hop : m.state.op = .not
    · have hnotFetch : m.notFetch = true := by simpa [hop] using hfetch
      rw [hm hnotFetch]
    · rw [applyOp_of_ne_not hop m.notMask (documentIds store)]

theorem applyResult_fetchInv (store : Store α τ) (result : Option (Finset α)) {m : Machine α}
    (hm : m.FetchInv (documentIds store)) : (applyResult store result m).FetchInv (documentIds store) := by
  unfold applyResult
  split_ifs
  · intro _
    rfl
  · exact hm

/-- Fetching the document ids lazily reads the list as fetching them up front
does: the two runs go through the same states. -/
theorem filterLoop_fetched (store : Store α τ) (filters : List (Filter α τ)) (m : Machine α) :
    m.FetchInv (documentIds store) →
      (filterLoop store filters m).fetched (documentIds store) =
        filterLoop store filters (m.fetched (documentIds store)) := by
  fun_induction filterLoop store filters m with
  | case1 m =>
    intro _
    rw [filterLoop]
  | case2 m filter filters h =>
    intro _
    have h' := readFilter_fetched store (documentIds store) m filter
    rw [h] at h'
    rw [filterLoop_stop h']
  | case3 m filter filters m' h ih =>
    intro hm
    have h' := readFilter_fetched store (documentIds store) m filter
    rw [h] at h'
    rw [filterLoop_next h', ih ((readFilter_fetchInv hm).2 m' h)]
  | case4 m filter filters result m' h _ hshort ih =>
    intro hm
    have h' := readFilter_fetched store (documentIds store) m filter
    rw [h] at h'
    have hm' := (readFilter_fetchInv hm).1 result m' h
    rw [filterLoop_result h', resume, ← applyResult_fetched store result hm']
    have hshort' : shortCircuit ((applyResult store result m').fetched (documentIds store)) := hshort
    rw [if_pos hshort', ih (applyResult_fetchInv store result hm')]
  | case5 m filter filters result m' h _ hshort ih =>
    intro hm
    have h' := readFilter_fetched store (documentIds store) m filter
    rw [h] at h'
    have hm' := (readFilter_fetchInv hm).1 result m' h
    rw [filterLoop_result h', resume, ← applyResult_fetched store result hm']
    have hshort' : ¬ shortCircuit ((applyResult store result m').fetched (documentIds store)) := hshort
    rw [if_neg hshort', ih (applyResult_fetchInv store result hm')]

/-- The set of a leaf: its result, with `None` read as the empty set. -/
def leafSet (store : Store α τ) (filter : Filter α τ) : Finset α := (leafResult store filter).getD ∅

/-- Every leaf of a filter list reads a set within the document ids. -/
def LeavesIn (store : Store α τ) (filters : List (Filter α τ)) : Prop :=
  ∀ filter ∈ filters, leafSet store filter ⊆ documentIds store

theorem LeavesIn.mono {store : Store α τ} {filters filters' : List (Filter α τ)}
    (h : LeavesIn store filters) (hsub : filters' ⊆ filters) : LeavesIn store filters' :=
  fun filter hf => h filter (hsub hf)

@[simp] theorem leavesIn_append {store : Store α τ} {filters filters' : List (Filter α τ)} :
    LeavesIn store (filters ++ filters') ↔ LeavesIn store filters ∧ LeavesIn store filters' := by
  simp only [LeavesIn, List.mem_append, or_imp, forall_and]

/-! ## A group's result -/

/-- The result a group holds after the results `rs` of its arguments. -/
def groupBm (U : Finset α) (op : Op) (rs : List (Finset α)) : Option (Finset α) :=
  if rs = [] then none else some (op.eval U rs)

/-- A result within `U`. -/
def BmIn (U : Finset α) (bm : Option (Finset α)) : Prop := ∀ d, bm = some d → d ⊆ U

theorem groupBm_in {U : Finset α} (op : Op) {rs : List (Finset α)} (hrs : ∀ s ∈ rs, s ⊆ U) :
    BmIn U (groupBm U op rs) := by
  intro d hd
  unfold groupBm at hd
  split_ifs at hd
  cases hd
  exact Op.eval_subset U op hrs

theorem applyOp_none {U : Finset α} (op : Op) {bm : Option (Finset α)} (hbm : BmIn U bm) :
    applyOp U op bm none = applyOp U op bm (some ∅) := by
  cases bm with
  | none => cases op <;> simp [applyOp, symmDiff_of_le (Finset.empty_subset U)]
  | some dest =>
    have hdest := hbm dest rfl
    cases op <;> simp [applyOp, symmDiff_of_le (Finset.empty_subset U), Finset.inter_eq_left.mpr hdest]

theorem applyOp_groupBm {U : Finset α} (op : Op) {rs : List (Finset α)} (hrs : ∀ s ∈ rs, s ⊆ U)
    {r : Finset α} (hr : r ⊆ U) :
    applyOp U op (groupBm U op rs) (some r) = groupBm U op (rs ++ [r]) := by
  by_cases hnil : rs = []
  · subst hnil
    cases op <;> simp [groupBm, applyOp, Op.eval, Finset.inter_eq_left.mpr hr, symmDiff_of_le hr]
  · have heval := Op.eval_subset U op hrs
    rw [groupBm, if_neg hnil, groupBm, if_neg (by simp), Op.eval_append_singleton]
    cases op with
    | and => rfl
    | or => rfl
    | not =>
      simp only [applyOp, Op.step, symmDiff_of_le hr, Option.some.injEq]
      rw [← Finset.inter_sdiff_assoc, Finset.inter_eq_left.mpr heval]

theorem applyOp_first {U : Finset α} (op : Op) {r : Finset α} (hr : r ⊆ U) :
    applyOp U op none (some r) = groupBm U op [r] :=
  applyOp_groupBm op (fun _ hs => absurd hs List.not_mem_nil) hr

theorem eval_and_append_of_empty {U : Finset α} {xs : List (Finset α)} (h : Op.and.eval U xs = ∅)
    (ys : List (Finset α)) : Op.and.eval U (xs ++ ys) = ∅ := by
  induction ys using List.reverseRecOn with
  | nil => rw [List.append_nil, h]
  | append_singleton ys y ih =>
    rw [← List.append_assoc, Op.eval_append_singleton, ih, Op.step, Finset.empty_inter]

/-! ## Reading a formula -/

/-- The meaning of a formula over the store: a set of document ids. -/
def meaning (store : Store α τ) (t : Formula (Filter α τ)) : Finset α :=
  t.eval (documentIds store) (leafSet store)

/-- Reading the filters of `t` from a machine with the document ids fetched
hands the meaning of `t` to the group being read, as a leaf with that set would. -/
def Frames (store : Store α τ) (t : Formula (Filter α τ)) : Prop :=
  ∀ (state : State α) (stack : List (State α)) (rest : List (Filter α τ)),
    BmIn (documentIds store) state.bm →
    filterLoop store (filtersOf t ++ rest) ⟨state, stack, documentIds store, true⟩ =
      resume store ⟨⟨state.op, applyOp (documentIds store) state.op state.bm (some (meaning store t))⟩,
        stack, documentIds store, true⟩ rest

section Frames

variable {store : Store α τ}

theorem readFilter_leaf {m : Machine α} {filter : Filter α τ} (hf : filter.IsLeaf) :
    readFilter store m filter = .result (leafResult store filter) m := by
  cases filter <;> simp only [Filter.IsLeaf] at hf <;> rfl

theorem readFilter_open (m : Machine α) (op : Op) :
    readFilter store m (Filter.ofToken (.open op)) =
      .next { m with stack := m.state :: m.stack, state := ⟨op, none⟩ } := by
  cases op <;> rfl

theorem readFilter_end_cons {m : Machine α} {prevState : State α} {stack : List (State α)}
    (h : m.stack = prevState :: stack) :
    readFilter store m .end = .result m.state.bm { m with state := prevState, stack } := by
  simp [readFilter, h]

theorem applyResult_of_fetched (result : Option (Finset α)) (state : State α) (stack : List (State α))
    (U : Finset α) :
    applyResult store result ⟨state, stack, U, true⟩ =
      ⟨⟨state.op, applyOp U state.op state.bm result⟩, stack, U, true⟩ := by
  simp [applyResult]

theorem leafSet_subset {filter : Filter α τ}
    (hleaf : filter.IsLeaf → ∀ s, leafResult store filter = some s → s ⊆ documentIds store) :
    leafSet store filter ⊆ documentIds store := by
  unfold leafSet
  cases h : leafResult store filter with
  | none => exact Finset.empty_subset _
  | some s =>
    by_cases hf : filter.IsLeaf
    · exact hleaf hf s h
    · cases filter <;> simp only [Filter.IsLeaf, not_true_eq_false] at hf <;> cases h

theorem applyOp_leafResult {U : Finset α} (op : Op) {bm : Option (Finset α)} (hbm : BmIn U bm)
    (filter : Filter α τ) :
    applyOp U op bm (leafResult store filter) = applyOp U op bm (some (leafSet store filter)) := by
  unfold leafSet
  cases leafResult store filter with
  | none => exact applyOp_none op hbm
  | some s => rfl

theorem filterLoop_dropWhile_top {m : Machine α} (hm : m.stack = []) (filters : List (Filter α τ)) :
    filterLoop store (filters.dropWhile fun f => !f.isEnd) m = m := by
  induction filters with
  | nil => rw [List.dropWhile_nil, filterLoop]
  | cons f filters ih =>
    rw [List.dropWhile_cons]
    split
    · exact ih
    · rename_i hf
      have hend : f = .end := by
        cases f <;> simp_all [Filter.isEnd]
      subst hend
      exact filterLoop_stop (by simp [readFilter, hm]) filters

theorem frames_leaf {filter : Filter α τ} (hf : filter.IsLeaf) : Frames store (.leaf filter) := by
  intro state stack rest hbm
  rw [filtersOf_leaf, List.singleton_append, filterLoop_result (readFilter_leaf hf),
    applyResult_of_fetched, applyOp_leafResult state.op hbm, meaning, Formula.eval_leaf]

theorem groupBm_meaning {op : Op} {args : List (Formula (Filter α τ))} (hnil : args ≠ []) :
    groupBm (documentIds store) op (args.map (meaning store)) = some (meaning store (.node op args)) := by
  rw [groupBm, if_neg (by simpa using hnil), meaning, Formula.eval_node]
  rfl

theorem meaning_subset {t : Formula (Filter α τ)} (hsub : LeavesIn store (filtersOf t)) :
    meaning store t ⊆ documentIds store :=
  Formula.eval_subset t fun filter hf => hsub filter (by rw [filtersOf]; exact List.mem_map_of_mem hf)

theorem filterLoop_args {op : Op} (hop : op ≠ .and) {args : List (Formula (Filter α τ))}
    (hargs : ∀ a ∈ args, Frames store a) (hsub : LeavesIn store (filtersOfList args)) :
    ∀ (rs : List (Finset α)) (stack : List (State α)) (rest : List (Filter α τ)),
      (∀ s ∈ rs, s ⊆ documentIds store) →
      filterLoop store (filtersOfList args ++ rest)
          ⟨⟨op, groupBm (documentIds store) op rs⟩, stack, documentIds store, true⟩ =
        filterLoop store rest ⟨⟨op, groupBm (documentIds store) op (rs ++ args.map (meaning store))⟩,
          stack, documentIds store, true⟩ := by
  induction args with
  | nil =>
    intro rs stack rest _
    simp
  | cons a args ih =>
    intro rs stack rest hrs
    rw [filtersOfList_cons, leavesIn_append] at hsub
    have hframe := hargs a (List.mem_cons_self ..)
    have ha := meaning_subset hsub.1
    rw [filtersOfList_cons, List.append_assoc, hframe _ _ _ (groupBm_in op hrs),
      applyOp_groupBm op hrs ha, resume, if_neg (fun h => hop h.1)]
    have hrs' : ∀ s ∈ rs ++ [meaning store a], s ⊆ documentIds store := by
      intro s hs
      rcases List.mem_append.mp hs with hs | hs
      · exact hrs s hs
      · rw [List.mem_singleton.mp hs]
        exact ha
    rw [ih (fun a' ha' => hargs a' (List.mem_cons_of_mem _ ha')) hsub.2 _ stack rest hrs']
    simp

theorem frames_group {op : Op} (hop : op ≠ .and) {args : List (Formula (Filter α τ))}
    (hne : op = .not → args ≠ []) (hargs : ∀ a ∈ args, Frames store a)
    (hsub : LeavesIn store (filtersOfList args)) : Frames store (.node op args) := by
  intro state stack rest hbm
  simp only [filtersOf_node, List.cons_append, List.append_assoc, List.nil_append]
  rw [filterLoop_next (readFilter_open _ op)]
  dsimp only
  have hgroup := filterLoop_args hop hargs hsub [] (state :: stack) (.end :: rest) (by simp)
  rw [List.nil_append] at hgroup
  rw [show (none : Option (Finset α)) = groupBm (documentIds store) op [] from rfl, hgroup,
    filterLoop_result (readFilter_end_cons rfl), applyResult_of_fetched]
  dsimp only
  by_cases hnil : args = []
  · -- only an `Or` may be empty, and it means the empty set
    subst hnil
    have hor : op = .or := by
      cases op with
      | and => exact absurd rfl hop
      | or => rfl
      | not => exact absurd rfl (hne rfl)
    subst hor
    rw [List.map_nil, show groupBm (documentIds store) Op.or [] = none from rfl,
      applyOp_none state.op hbm, meaning, Formula.eval_node]
    rfl
  · rw [groupBm_meaning hnil]

/-- After its first argument an `And` group holds leaves: an empty result skips
them, and otherwise they are intersected one by one. -/
theorem resume_andLeaves {leaves : List (Formula (Filter α τ))}
    (hl : ∀ a ∈ leaves, ∃ filter, a = .leaf filter ∧ filter.IsLeaf)
    (hsub : LeavesIn store (filtersOfList leaves)) :
    ∀ (rs : List (Finset α)) (stack : List (State α)) (rest : List (Filter α τ)), rs ≠ [] →
      (∀ s ∈ rs, s ⊆ documentIds store) →
      resume store ⟨⟨.and, groupBm (documentIds store) .and rs⟩, stack, documentIds store, true⟩
          (filtersOfList leaves ++ .end :: rest) =
        filterLoop store (.end :: rest)
          ⟨⟨.and, groupBm (documentIds store) .and (rs ++ leaves.map (meaning store))⟩, stack,
            documentIds store, true⟩ := by
  induction leaves with
  | nil =>
    intro rs stack rest _ _
    rw [resume, List.map_nil, List.append_nil, filtersOfList_nil, List.nil_append]
    split
    · rw [List.dropWhile_cons, if_neg (by simp [Filter.isEnd])]
    · rfl
  | cons a leaves ih =>
    intro rs stack rest hnil hrs
    obtain ⟨filter, rfl, hf⟩ := hl a (List.mem_cons_self ..)
    rw [filtersOfList_cons, filtersOf_leaf, leavesIn_append] at hsub
    have hfilter : leafSet store filter ⊆ documentIds store := hsub.1 filter (List.mem_singleton_self _)
    have hl' : ∀ a ∈ leaves, ∃ filter, a = .leaf filter ∧ filter.IsLeaf :=
      fun a' ha' => hl a' (List.mem_cons_of_mem _ ha')
    by_cases hshort : shortCircuit
        (⟨⟨.and, groupBm (documentIds store) .and rs⟩, stack, documentIds store, true⟩ : Machine α)
    · -- the group is empty already: the leaves are skipped and change nothing
      have hempty : Op.and.eval (documentIds store) rs = ∅ := by
        simpa [shortCircuit, groupBm, hnil] using hshort
      rw [resume, if_pos hshort, dropWhile_leaves hl rest]
      simp only [groupBm, hnil, if_false, List.append_eq_nil_iff, false_and,
        eval_and_append_of_empty hempty, hempty]
    · rw [resume, if_neg hshort, filtersOfList_cons, filtersOf_leaf, List.singleton_append,
        List.cons_append, filterLoop_result (readFilter_leaf hf), applyResult_of_fetched,
        applyOp_leafResult .and (groupBm_in .and hrs), applyOp_groupBm .and hrs hfilter]
      have hrs' : ∀ s ∈ rs ++ [leafSet store filter], s ⊆ documentIds store := by
        intro s hs
        rcases List.mem_append.mp hs with hs | hs
        · exact hrs s hs
        · rw [List.mem_singleton.mp hs]
          exact hfilter
      rw [ih hl' hsub.2 _ stack rest (by simp) hrs']
      simp [meaning]

/-- An `And` group of one formula and then leaves hands its meaning to the group
around it. -/
theorem frames_and {first : Formula (Filter α τ)} {leaves : List (Formula (Filter α τ))}
    (hfirst : Frames store first) (hl : ∀ a ∈ leaves, ∃ filter, a = .leaf filter ∧ filter.IsLeaf)
    (hsub : LeavesIn store (filtersOfList (first :: leaves))) :
    Frames store (.node .and (first :: leaves)) := by
  rw [filtersOfList_cons, leavesIn_append] at hsub
  have hmeaning := meaning_subset hsub.1
  intro state stack rest hbm
  simp only [filtersOf_node, filtersOfList_cons, List.cons_append, List.append_assoc,
    List.nil_append]
  rw [filterLoop_next (readFilter_open _ .and)]
  dsimp only
  rw [hfirst ⟨.and, none⟩ (state :: stack) _ (by simp [BmIn])]
  dsimp only
  rw [applyOp_first .and hmeaning, resume_andLeaves hl hsub.2 _ _ _ (by simp) (by simpa using hmeaning),
    filterLoop_result (readFilter_end_cons rfl), applyResult_of_fetched]
  dsimp only
  rw [List.singleton_append, ← List.map_cons, groupBm_meaning (List.cons_ne_nil _ _)]

theorem frames_of_safe {t : Formula (Filter α τ)} (ht : Safe t) (hsub : LeavesIn store (filtersOf t)) :
    Frames store t := by
  induction ht with
  | leaf hf => exact frames_leaf hf
  | and _ hl ih =>
    have hargs := hsub.mono (filtersOfList_subset_node _ _)
    exact frames_and (ih (hargs.mono (filtersOf_subset_filtersOfList List.mem_cons_self))) hl hargs
  | or _ ih =>
    have hargs := hsub.mono (filtersOfList_subset_node _ _)
    exact frames_group (by decide) (fun h => by cases h)
      (fun a ha => ih a ha (hargs.mono (filtersOf_subset_filtersOfList ha))) hargs
  | not hne _ ih =>
    have hargs := hsub.mono (filtersOfList_subset_node _ _)
    exact frames_group (by decide) (fun _ => hne)
      (fun a ha => ih a ha (hargs.mono (filtersOf_subset_filtersOfList ha))) hargs

/-- At the top of the list, after its first formula: an empty result ends the
loop, and otherwise each formula is intersected in. -/
theorem resume_top {ts : List (Formula (Filter α τ))} (hts : ∀ t ∈ ts, Frames store t)
    (hsub : LeavesIn store (filtersOfList ts)) :
    ∀ rs : List (Finset α), rs ≠ [] → (∀ s ∈ rs, s ⊆ documentIds store) →
      resume store ⟨⟨.and, groupBm (documentIds store) .and rs⟩, [], documentIds store, true⟩
          (filtersOfList ts) =
        ⟨⟨.and, groupBm (documentIds store) .and (rs ++ ts.map (meaning store))⟩, [],
          documentIds store, true⟩ := by
  induction ts with
  | nil =>
    intro rs _ _
    rw [resume, filtersOfList_nil, List.map_nil, List.append_nil]
    split
    · rw [List.dropWhile_nil, filterLoop]
    · rw [filterLoop]
  | cons t ts ih =>
    intro rs hnil hrs
    by_cases hshort : shortCircuit
        (⟨⟨.and, groupBm (documentIds store) .and rs⟩, [], documentIds store, true⟩ : Machine α)
    · have hempty : Op.and.eval (documentIds store) rs = ∅ := by
        simpa [shortCircuit, groupBm, hnil] using hshort
      rw [resume, if_pos hshort, filterLoop_dropWhile_top rfl]
      simp only [groupBm, hnil, if_false, List.append_eq_nil_iff, false_and,
        eval_and_append_of_empty hempty, hempty]
    · rw [filtersOfList_cons, leavesIn_append] at hsub
      have ht := meaning_subset hsub.1
      rw [resume, if_neg hshort, filtersOfList_cons, hts t (List.mem_cons_self ..) _ _ _ (groupBm_in .and hrs),
        applyOp_groupBm .and hrs ht]
      have hrs' : ∀ s ∈ rs ++ [meaning store t], s ⊆ documentIds store := by
        intro s hs
        rcases List.mem_append.mp hs with hs | hs
        · exact hrs s hs
        · rw [List.mem_singleton.mp hs]
          exact ht
      rw [ih (fun t' ht' => hts t' (List.mem_cons_of_mem _ ht')) hsub.2 _ (by simp) hrs']
      simp

end Frames

/-! ## The result of `Store::filter` -/

/-- On the safe shapes `Store::filter` returns the meaning of the list: the
intersection of its formulas' meanings, within the document ids, when every leaf
of the list reads a result within them. -/
theorem filter_eq_evalList (store : Store α τ) (ts : List (Formula (Filter α τ)))
    (hts : ∀ t ∈ ts, Safe t)
    (hleaves : ∀ filter ∈ filtersOfList ts, filter.IsLeaf →
      ∀ s, leafResult store filter = some s → s ⊆ documentIds store) :
    filter store (filtersOfList ts) = evalList (documentIds store) (leafSet store) ts := by
  have hsub : LeavesIn store (filtersOfList ts) := fun filter hf => leafSet_subset (hleaves filter hf)
  have hframes : ∀ t ∈ ts, Frames store t := fun t ht =>
    frames_of_safe (hts t ht) (hsub.mono (filtersOf_subset_filtersOfList ht))
  cases ts with
  | nil => simp [filter, evalList, Op.eval, documentIds]
  | cons t ts =>
    have hne : filtersOfList (t :: ts) ≠ [] := by
      rw [filtersOfList_cons]
      exact fun h => filtersOf_ne_nil t (List.append_eq_nil_iff.mp h).1
    have hfetch := filterLoop_fetched store (filtersOfList (t :: ts)) Machine.init (fun h => by cases h)
    have hstate : (filterLoop store (filtersOfList (t :: ts)) Machine.init).state =
        (filterLoop store (filtersOfList (t :: ts)) (Machine.init.fetched (documentIds store))).state := by
      rw [← hfetch]
      rfl
    rw [filter, if_neg hne, hstate, filtersOfList_cons]
    have hfirst := hframes t (List.mem_cons_self ..) ⟨.and, none⟩ [] (filtersOfList ts) (by simp [BmIn])
    rw [filtersOfList_cons, leavesIn_append] at hsub
    have ht := meaning_subset hsub.1
    rw [Machine.init, Machine.fetched]
    dsimp only
    rw [hfirst]
    dsimp only
    rw [applyOp_first .and ht,
      resume_top (fun t' ht' => hframes t' (List.mem_cons_of_mem _ ht')) hsub.2 _ (by simp)
        (by simpa using ht),
      List.singleton_append, ← List.map_cons, groupBm, if_neg (by simp)]
    rfl

/-- A collection of the documents `1, 2, 3` with no other bitmap. -/
def threeDocuments : Store ℕ ℕ :=
  ⟨fun key => if key = .documentIds then some {1, 2, 3} else none, fun _ _ _ => none, fun _ => []⟩

theorem filter_eq_evalList_not :
    filter threeDocuments (filtersOfList [.leaf (.documentSet {1, 2}), .node .not [.leaf (.documentSet {2})]]) =
      evalList (documentIds threeDocuments) (leafSet threeDocuments)
        [.leaf (.documentSet {1, 2}), .node .not [.leaf (.documentSet {2})]] := by
  refine filter_eq_evalList threeDocuments _ ?_ ?_
  · intro t ht
    simp only [List.mem_cons, List.not_mem_nil, or_false] at ht
    rcases ht with rfl | rfl
    · exact .leaf trivial
    · exact .not (List.cons_ne_nil _ _) fun a ha => by rw [List.mem_singleton.mp ha]; exact .leaf trivial
  · intro filter hf _ s hs
    have hlist : filtersOfList [.leaf (.documentSet {1, 2}), .node .not [.leaf (.documentSet {2})]] =
        ([.documentSet {1, 2}, .not, .documentSet {2}, .end] : List (Filter ℕ ℕ)) := by
      simp [Filter.ofToken]
    rw [hlist] at hf
    simp only [List.mem_cons, List.not_mem_nil, or_false] at hf
    rcases hf with rfl | rfl | rfl | rfl <;> simp only [leafResult, Option.some.injEq, reduceCtorEq] at hs <;>
      subst hs <;> decide

/-- The `And` short-circuit stops at the `End` of a nested group. In
`Or(And(∅, Or(A), B), C)` the empty `And` skips to the `End` of `Or(A)`, which
closes the `And`; the `End` of the `And` then closes the `Or` with `B` in it,
and `C` is intersected at the top. -/
theorem filter_skips_into_nested_group (store : Store α τ) (A B C : Finset α) :
    filter store (filtersOfList [.node .or [.node .and [.leaf (.documentSet ∅),
        .node .or [.leaf (.documentSet A)], .leaf (.documentSet B)], .leaf (.documentSet C)]]) =
      B ∩ C ∧
    evalList (documentIds store) (leafSet store) [.node .or [.node .and [.leaf (.documentSet ∅),
        .node .or [.leaf (.documentSet A)], .leaf (.documentSet B)], .leaf (.documentSet C)]] =
      C ∩ documentIds store := by
  constructor
  · have hlist : filtersOfList [.node .or [.node .and [.leaf (.documentSet ∅),
        .node .or [.leaf (.documentSet A)], .leaf (.documentSet B)], .leaf (.documentSet C)]] =
        ([.or, .and, .documentSet ∅, .or, .documentSet A, .end, .documentSet B, .end, .documentSet C,
          .end] : List (Filter α τ)) := by
      simp [Filter.ofToken]
    rw [hlist, filter, if_neg (List.cons_ne_nil _ _)]
    by_cases hB : B = ∅
    · subst hB
      simp [filterLoop, readFilter, applyResult, applyOp, shortCircuit, leafResult, Filter.isEnd,
        Machine.init]
    · by_cases hBC : B ∩ C = ∅ <;>
        simp [filterLoop, readFilter, applyResult, applyOp, shortCircuit, leafResult, Filter.isEnd,
          Machine.init, hB, hBC]
  · simp [evalList, Op.eval, leafSet, leafResult]

end MailServer.Store.Query
