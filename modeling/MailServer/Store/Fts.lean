import MailServer.Lib.BoolFilter

/-! # Splitting a filter into full-text and store groups

`into_filter_group` cuts a bracketed filter list into the runs that the full-text index
answers and the items that the store answers. A run starts at a full-text item and takes
every full-text item after it and every group opened inside it. The operator of the last
store group opened before the run (`logical_op`) is copied in front of the run, with an
`End` after it. A store item that stops a run inside a group the run opened sends the tail
of the run back out as store items.

The run is kept as a stack, last item first. The split never panics, and a filter without
full-text items passes through unchanged, with its meaning (`intoFilterGroup_returns`). But a
remembered operator outlives the group it came from, and then changes what a run means.
-/

namespace MailServer.Store.Fts

open MailServer.Lib.BoolFilter

/-- How `into_filter_group` sees a filter item. -/
inductive FilterType where
  | and
  | or
  | not
  | «end»
  | store
  | fts
  deriving DecidableEq, Repr

/-- One element of the split filter. -/
inductive FilterGroup (T : Type) where
  | fts (items : List T)
  | store (item : T)
  deriving DecidableEq, Repr

/-- A filter item: `filterType` is `filter_type`, and `ofFilterType` is the item's
`From<FilterType>`, which builds the operators and the `End` that the split inserts. -/
class FilterItem (T : Type) where
  filterType : T → FilterType
  ofFilterType : FilterType → T

open FilterItem

/-- `And`, `Or` and `Not`: the types that open a group. -/
def FilterType.isOperator : FilterType → Bool
  | .and | .or | .not => true
  | _ => false

/-- An item of this type as a token of the bracketed form, `leaf` being the item. -/
def FilterType.token {L : Type} (leaf : L) : FilterType → Token L
  | .and => .open .and
  | .or => .open .or
  | .not => .open .not
  | .end => .close
  | .store | .fts => .leaf leaf

section Split

variable {T : Type} [FilterItem T]

/-- Where the loop over a run stops. -/
structure Run (T : Type) where
  /-- the run, last item first -/
  ftsRev : List T
  /-- the groups opened in the run and not yet closed -/
  depth : ℕ
  storeItem : Option T
  /-- the items left for the outer loop -/
  rest : List T

/-- The loop that extends a run (`for item in iter.by_ref()`): an operator opens a group,
an `End` closes one the run opened, a full-text item joins, and any other item stops the
run. -/
def takeRun : List T → List T → ℕ → Run T
  | [], ftsRev, depth => ⟨ftsRev, depth, none, []⟩
  | item :: iter, ftsRev, depth =>
    match filterType item, depth with
    | .and, _ | .or, _ | .not, _ => takeRun iter (item :: ftsRev) (depth + 1)
    | .end, d + 1 => takeRun iter (item :: ftsRev) d
    | .fts, _ => takeRun iter (item :: ftsRev) depth
    | _, _ => ⟨ftsRev, depth, some item, iter⟩

/-- The loop `while depth > 0 { fts.pop().unwrap() … }`: moves the tail of a run out as
store items, in the order they are popped, until `depth` operators have moved. `none` is the
panic of `unwrap` on an empty run. -/
def popBack : List T → ℕ → Option (List T × List (FilterGroup T))
  | ftsRev, 0 => some (ftsRev, [])
  | [], _ + 1 => none
  | item :: ftsRev, depth + 1 =>
    (popBack ftsRev (if (filterType item).isOperator then depth else depth + 1)).map
      fun r => (r.1, .store item :: r.2)

/-- The groups a run adds once its loop has stopped. -/
def runGroups (run : Run T) (inLogicalOp : Bool) : Option (List (FilterGroup T)) :=
  let ftsRev := if inLogicalOp then ofFilterType .end :: run.ftsRev else run.ftsRev
  if 0 < run.depth then
    (popBack ftsRev run.depth).map fun r =>
      .fts r.1.reverse :: r.2 ++ run.storeItem.toList.map .store
  else some (.fts ftsRev.reverse :: run.storeItem.toList.map .store)

/-- The operator a store item leaves for the next run (`logical_op`). -/
def nextLogicalOp (item : T) (logicalOp : Option T) : Option T :=
  match filterType item with
  | .and | .or => some item
  | .not => some (ofFilterType .and)
  | _ => logicalOp

theorem takeRun_rest_length (iter ftsRev : List T) (depth : ℕ) :
    (takeRun iter ftsRev depth).rest.length ≤ iter.length := by
  fun_induction takeRun iter ftsRev depth <;> simp_all <;> omega

/-- The outer loop of `into_filter_group`. -/
def intoFilterGroupFrom (iter : List T) (logicalOp : Option T) (filter : List (FilterGroup T)) :
    Option (List (FilterGroup T)) :=
  match iter with
  | [] => some filter
  | item :: iter =>
    if filterType item = .fts then
      -- `logical_op.take()` opens the run
      let run := takeRun iter (item :: logicalOp.toList) 0
      match runGroups run logicalOp.isSome with
      | none => none
      | some groups => intoFilterGroupFrom run.rest none (filter ++ groups)
    else intoFilterGroupFrom iter (nextLogicalOp item logicalOp) (filter ++ [.store item])
termination_by iter.length
decreasing_by
  · exact Nat.lt_succ_of_le (takeRun_rest_length ..)
  · exact Nat.lt_succ_self _

/-- `into_filter_group`; `none` is a panic. -/
def intoFilterGroup (f : List T) : Option (List (FilterGroup T)) :=
  intoFilterGroupFrom f none []

theorem intoFilterGroupFrom_nil (logicalOp : Option T) (filter : List (FilterGroup T)) :
    intoFilterGroupFrom [] logicalOp filter = some filter := by
  rw [intoFilterGroupFrom]

theorem intoFilterGroupFrom_store {item : T} (h : filterType item ≠ .fts) (iter : List T)
    (logicalOp : Option T) (filter : List (FilterGroup T)) :
    intoFilterGroupFrom (item :: iter) logicalOp filter =
      intoFilterGroupFrom iter (nextLogicalOp item logicalOp) (filter ++ [.store item]) := by
  rw [intoFilterGroupFrom, if_neg h]

theorem intoFilterGroupFrom_fts {item : T} (h : filterType item = .fts) (iter : List T)
    (logicalOp : Option T) (filter : List (FilterGroup T)) :
    intoFilterGroupFrom (item :: iter) logicalOp filter =
      (runGroups (takeRun iter (item :: logicalOp.toList) 0) logicalOp.isSome).bind
        fun groups =>
          intoFilterGroupFrom (takeRun iter (item :: logicalOp.toList) 0).rest none (filter ++ groups) := by
  rw [intoFilterGroupFrom, if_pos h]
  dsimp only
  cases runGroups (takeRun iter (item :: logicalOp.toList) 0) logicalOp.isSome <;> rfl

/-! ## The split never panics

`fts.pop().unwrap()` runs at most `depth` times past a non-operator, and every group the
run still has open was opened by an operator that is still in the run. -/

/-- The operators in a run. -/
def opCount (ftsRev : List T) : ℕ := ftsRev.countP fun item => (filterType item).isOperator

theorem opCount_cons (item : T) (ftsRev : List T) :
    opCount (item :: ftsRev) =
      opCount ftsRev + if (filterType item).isOperator then 1 else 0 := by
  rw [opCount, List.countP_cons, opCount]

theorem le_opCount_cons (item : T) (ftsRev : List T) : opCount ftsRev ≤ opCount (item :: ftsRev) := by
  rw [opCount_cons]
  exact Nat.le_add_right _ _

theorem takeRun_depth_le {iter ftsRev : List T} {depth : ℕ} (h : depth ≤ opCount ftsRev) :
    (takeRun iter ftsRev depth).depth ≤ opCount (takeRun iter ftsRev depth).ftsRev := by
  fun_induction takeRun iter ftsRev depth with
  | case1 => exact h
  | case2 item iter ftsRev depth hop ih
  | case3 item iter ftsRev depth hop ih
  | case4 item iter ftsRev depth hop ih =>
    apply ih
    rw [opCount_cons, hop]
    simp [FilterType.isOperator, h]
  | case5 item iter ftsRev d hend ih =>
    exact ih (Nat.le_of_succ_le (h.trans (le_opCount_cons item ftsRev)))
  | case6 item iter ftsRev depth hfts ih =>
    exact ih (h.trans (le_opCount_cons item ftsRev))
  | case7 => exact h

theorem popBack_isSome {ftsRev : List T} {depth : ℕ} (h : depth ≤ opCount ftsRev) :
    (popBack ftsRev depth).isSome := by
  induction ftsRev generalizing depth with
  | nil =>
    cases depth with
    | zero => rfl
    | succ d => simp [opCount] at h
  | cons item ftsRev ih =>
    cases depth with
    | zero => rfl
    | succ d =>
      rw [popBack, Option.isSome_map]
      apply ih
      rw [opCount_cons] at h
      by_cases hop : (filterType item).isOperator <;> simp [hop] at h ⊢ <;> omega

theorem runGroups_isSome {run : Run T} (h : run.depth ≤ opCount run.ftsRev) (inLogicalOp : Bool) :
    (runGroups run inLogicalOp).isSome := by
  rw [runGroups]
  split
  · rw [Option.isSome_map]
    apply popBack_isSome
    split
    · exact h.trans (le_opCount_cons _ _)
    · exact h
  · rfl

theorem intoFilterGroupFrom_isSome (iter : List T) (logicalOp : Option T)
    (filter : List (FilterGroup T)) : (intoFilterGroupFrom iter logicalOp filter).isSome := by
  fun_induction intoFilterGroupFrom iter logicalOp filter with
  | case1 => rfl
  | case2 logicalOp filter item iter hfts run hnone =>
    have hsome : (runGroups run logicalOp.isSome).isSome :=
      runGroups_isSome (takeRun_depth_le (Nat.zero_le _)) _
    rw [hnone] at hsome
    exact absurd hsome Bool.false_ne_true
  | case3 logicalOp filter item iter hfts run groups hgroups ih => exact ih
  | case4 logicalOp filter item iter hfts ih => exact ih

theorem intoFilterGroup_isSome (f : List T) : (intoFilterGroup f).isSome :=
  intoFilterGroupFrom_isSome f none []

theorem intoFilterGroup_of_store {f : List T} (h : ∀ item ∈ f, filterType item ≠ .fts) :
    intoFilterGroup f = some (f.map .store) := by
  suffices ∀ logicalOp filter, intoFilterGroupFrom f logicalOp filter = some (filter ++ f.map .store) by
    rw [intoFilterGroup]
    simpa using this none []
  induction f with
  | nil => exact fun logicalOp filter => by rw [intoFilterGroupFrom_nil, List.map_nil, List.append_nil]
  | cons item f ih =>
    intro logicalOp filter
    rw [intoFilterGroupFrom_store (h item (List.mem_cons_self ..)),
      ih (fun item' h' => h item' (List.mem_cons_of_mem item h')), List.map_cons, List.append_assoc,
      List.singleton_append]

end Split

/-! ## What a split filter means

The reference reading of a filter list is `Store::filter`'s: the list is the implicit `And`
of its items. The split is read the same way with one placeholder leaf per full-text run,
standing for the run's own meaning, as `email_query` evaluates it. -/

section Meaning

variable {T : Type} [FilterItem T] {α : Type} [DecidableEq α]

/-- An item as a token, the item itself being the leaf. -/
def toToken (item : T) : Token T := (filterType item).token item

/-- A group as a token: a run is one placeholder leaf. -/
def FilterGroup.token : FilterGroup T → Token (FilterGroup T)
  | .fts items => .leaf (.fts items)
  | .store item => (filterType item).token (.store item)

/-- The reference meaning of a filter list, if it is well bracketed. -/
def meaning (U : Finset α) (val : T → Finset α) (f : List T) : Option (Finset α) :=
  evalTokens U val (f.map toToken)

/-- The set a placeholder stands for: a run read as an implicit-`And` list (empty if it is
not well bracketed); a store leaf stands for its own set. -/
def groupVal (U : Finset α) (val : T → Finset α) : FilterGroup T → Finset α
  | .fts items => (meaning U val items).getD ∅
  | .store item => val item

/-- The meaning of a split filter. -/
def splitMeaning (U : Finset α) (val : T → Finset α) (groups : List (FilterGroup T)) :
    Option (Finset α) :=
  evalTokens U (groupVal U val) (groups.map FilterGroup.token)

theorem token_store (item : T) :
    (FilterGroup.store item).token = (toToken item).map FilterGroup.store := by
  rw [FilterGroup.token, toToken]
  cases filterType item <;> rfl

theorem intoFilterGroup_of_store_meaning {f : List T} (h : ∀ item ∈ f, filterType item ≠ .fts)
    (U : Finset α) (val : T → Finset α) :
    (intoFilterGroup f).bind (splitMeaning U val) = meaning U val f := by
  have hmap : (f.map FilterGroup.store).map FilterGroup.token =
      (f.map toToken).map (Token.map FilterGroup.store) := by
    simp only [List.map_map]
    exact List.map_congr_left fun item _ => token_store item
  rw [intoFilterGroup_of_store h, Option.bind_some, splitMeaning, hmap, evalTokens_map, meaning]
  rfl

/-- `into_filter_group` returns on every filter, and passes a filter without full-text items
through, one store item per item, with the meaning it had. -/
theorem intoFilterGroup_returns (f : List T) :
    (intoFilterGroup f).isSome ∧
      ((∀ item ∈ f, filterType item ≠ .fts) →
        intoFilterGroup f = some (f.map .store) ∧
          ∀ (U : Finset α) (val : T → Finset α),
            (intoFilterGroup f).bind (splitMeaning U val) = meaning U val f) :=
  ⟨intoFilterGroup_isSome f, fun h => ⟨intoFilterGroup_of_store h, intoFilterGroup_of_store_meaning h⟩⟩

end Meaning

/-- Items tagged with a number, which the split does not read, so that two full-text items
can stand for different sets. -/
instance : FilterItem (FilterType × ℕ) := ⟨Prod.fst, fun t => (t, 0)⟩

theorem intoFilterGroup_returns_and :
    (intoFilterGroup [(FilterType.and, 0), (.store, 1), (.store, 2), (.end, 0)]).isSome ∧
      ((∀ item ∈ [(FilterType.and, 0), (.store, 1), (.store, 2), (.end, 0)], filterType item ≠ .fts) →
        intoFilterGroup [(FilterType.and, 0), (.store, 1), (.store, 2), (.end, 0)] =
            some ([(FilterType.and, 0), (.store, 1), (.store, 2), (.end, 0)].map .store) ∧
          ∀ (U : Finset ℕ) (val : FilterType × ℕ → Finset ℕ),
            (intoFilterGroup [(FilterType.and, 0), (.store, 1), (.store, 2), (.end, 0)]).bind
                (splitMeaning U val) =
              meaning U val [(FilterType.and, 0), (.store, 1), (.store, 2), (.end, 0)]) :=
  intoFilterGroup_returns _

/-! ## Where the split changes the meaning -/

section Divergence

variable {T : Type} [FilterItem T] {α : Type} [DecidableEq α]

/-- The operator of a store group that is already closed still opens the next run: after
`Or(a)`, the run `x y` of the top level is read as `Or(x, y)`. -/
theorem intoFilterGroup_reuses_closed_operator (o a e x y : T)
    (ho : filterType o = .or) (ha : filterType a = .store) (he : filterType e = .end)
    (hx : filterType x = .fts) (hy : filterType y = .fts)
    (hend : filterType (ofFilterType .end : T) = .end)
    (U : Finset α) (val : T → Finset α) (hval : ∀ item, val item ⊆ U) :
    intoFilterGroup [o, a, e, x, y] =
        some [.store o, .store a, .store e, .fts [o, x, y, ofFilterType .end]] ∧
      meaning U val [o, a, e, x, y] = some (val a ∩ (val x ∩ val y)) ∧
      splitMeaning U val [.store o, .store a, .store e, .fts [o, x, y, ofFilterType .end]] =
        some (val a ∩ (val x ∪ val y)) := by
  refine ⟨?_, ?_, ?_⟩
  · rw [intoFilterGroup, intoFilterGroupFrom_store (by simp [ho]),
      intoFilterGroupFrom_store (by simp [ha]), intoFilterGroupFrom_store (by simp [he]),
      intoFilterGroupFrom_fts hx]
    simp [nextLogicalOp, ho, ha, he, takeRun, hy, runGroups, intoFilterGroupFrom_nil]
  · simp [meaning, evalTokens, parse, readTokens, toToken, FilterType.token, ho, ha, he, hx, hy,
      evalList, Op.eval]
    rw [Finset.inter_eq_left.mpr (hval y)]
  · simp [splitMeaning, evalTokens, parse, readTokens, groupVal, meaning, toToken,
      FilterGroup.token, FilterType.token, ho, ha, he, hx, hy, hend, evalList, Op.eval]
    rw [Finset.inter_eq_left.mpr (Finset.union_subset (hval x) (hval y))]

theorem intoFilterGroup_reuses_closed_operator_types :
    let val : FilterType × ℕ → Finset ℕ := fun item =>
      if item.2 = 1 then {1, 2} else if item.2 = 2 then {1} else if item.2 = 3 then {2} else ∅
    intoFilterGroup [(FilterType.or, 0), (.store, 1), (.end, 0), (.fts, 2), (.fts, 3)] =
        some [.store (.or, 0), .store (.store, 1), .store (.end, 0),
          .fts [(.or, 0), (.fts, 2), (.fts, 3), (.end, 0)]] ∧
      meaning {1, 2} val [(FilterType.or, 0), (.store, 1), (.end, 0), (.fts, 2), (.fts, 3)] =
        some (val (.store, 1) ∩ (val (.fts, 2) ∩ val (.fts, 3))) ∧
      splitMeaning {1, 2} val [.store (.or, 0), .store (.store, 1), .store (.end, 0),
          .fts [(.or, 0), (.fts, 2), (.fts, 3), (.end, 0)]] =
        some (val (.store, 1) ∩ (val (.fts, 2) ∪ val (.fts, 3))) :=
  intoFilterGroup_reuses_closed_operator (FilterType.or, 0) (.store, 1) (.end, 0) (.fts, 2) (.fts, 3)
    rfl rfl rfl rfl rfl rfl _ _ fun item => by
      split_ifs <;> decide

end Divergence

end MailServer.Store.Fts
