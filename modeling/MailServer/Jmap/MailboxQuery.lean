import MailServer.Store.Sort
import MailServer.Lib.AssocList

/-! # Mailbox queries sorted as a tree

`Mailbox/query` with `sortAsTree` (jmap/src/mailbox/query.rs) sorts the results, then walks
the tree of the account's mailboxes from the root, depth first, with an explicit stack: on
entering a mailbox it scans the sorted ids for its children, hands each child it meets to
`Pagination::add` and enters it; once the scan is over it enters the children outside the
results one by one. The walk makes at most `ids.len() * 10 * mailbox_max_depth` passes.

What the walk hands to `add` does not depend on the pagination: it is `treeOrder`
(`sortAsTree_eq_feed`). That order holds results only, each once (`treeOrder_nodup`), and a
result comes after its parent whenever the parent is a result (`treeOrder_parent_first`).
-/

namespace MailServer.Jmap.MailboxQuery

open MailServer.Lib.Consume MailServer.Lib.AssocList MailServer.Store.Pagination
  MailServer.Store.Pagination.Pagination MailServer.Store.Sort

variable {κ : Type}

/-- The JMAP id of a mailbox in the tree: its document id plus one, 0 standing for the root. -/
def jmapOf (documentId : UInt32) : ℕ := documentId.toNat + 1

theorem jmapOf_injective : Function.Injective jmapOf := by
  intro a b h
  exact UInt32.toNat_inj.mp (by simpa [jmapOf] using h)

/-! ## The walk -/

/-- The walk besides the pagination: the children of the mailboxes not entered yet, the stack of
children still to visit with what is left of their scan of the sorted ids, and `jmap_id`, the
mailbox entered next. -/
structure TreeWalk where
  tree : List (ℕ × List ℕ)
  stack : List (List ℕ × List UInt32)
  jmapId : ℕ

/-- `let (mut children, mut it) = ...`: the children of `jmap_id`, taken out of the tree, with a
new scan of the sorted ids; when it has none there, the frame on top of the stack. -/
def frameOf (ids : List UInt32) (w : TreeWalk) : Option ((List ℕ × List UInt32) × TreeWalk) :=
  match w.tree.lookup w.jmapId with
  | some children => some ((children, ids), { w with tree := w.tree.filter fun e => e.1 ≠ w.jmapId })
  | none =>
    match w.stack with
    | frame :: stack => some (frame, { w with stack })
    | [] => none

/-- `while let Some(&id) = it.next()`: the first id of the scan that is a child, and the scan
after it. -/
def findChild (children : List ℕ) : List UInt32 → Option (UInt32 × List UInt32)
  | [] => none
  | id :: it => if jmapOf id ∈ children then some (id, it) else findChild children it

/-- What one pass of the loop `'outer` does. -/
inductive Pass where
  /-- Neither children nor frames are left: `break`. -/
  | stop
  /-- A child is handed to `add`; the walk goes on from it when `add` does. -/
  | visit (w : TreeWalk) (documentId : UInt32)
  /-- The walk goes on without calling `add`. -/
  | next (w : TreeWalk)

/-- One pass of the walk: a child met by the scan is visited and entered next, with its frame
pushed back; when the scan is over, one of the children left is entered. -/
def pass (ids : List UInt32) (w : TreeWalk) : Pass :=
  match frameOf ids w with
  | none => .stop
  | some ((children, it), w) =>
    match findChild children it with
    | some (id, it) =>
      .visit { w with jmapId := jmapOf id, stack := (children.erase (jmapOf id), it) :: w.stack } id
    | none =>
      match children with
      | jmapId :: children => .next { w with jmapId, stack := (children, []) :: w.stack }
      | [] => .next w

/-- One pass of `'outer` with the pagination, which ends the loop when `add` returns false. -/
def treeStep (ids : List UInt32) (st : TreeWalk × Pagination κ) (_ : Unit) :
    (TreeWalk × Pagination κ) × Bool :=
  match pass ids st.1 with
  | .stop => (st, false)
  | .visit w documentId =>
    let added := st.2.add 0 documentId
    ((w, added.1), added.2)
  | .next w => ((w, st.2), true)

/-- The sort as a tree: `for _ in 0..bound` passes of the walk from the root. -/
def sortAsTree (ids : List UInt32) (tree : List (ℕ × List ℕ)) (bound : ℕ) (paginate : Pagination κ) :
    Pagination κ :=
  (consume (treeStep ids) (⟨tree, [], 0⟩, paginate) (List.replicate bound ())).1.2

/-- `Mailbox/query` sorted as a tree: the walk over the sorted ids for
`ids.len() * 10 * mailbox_max_depth` passes, then `build`. -/
def querySortAsTree (ids : List UInt32) (tree : List (ℕ × List ℕ)) (maxDepth : ℕ) (paginate : Pagination κ) :
    SortedResultSet :=
  (sortAsTree ids tree (ids.length * 10 * maxDepth) paginate).build

/-- The documents the walk hands to `add` in `n` passes, when `add` never ends it. -/
def treeOrder (ids : List UInt32) : ℕ → TreeWalk → List UInt32
  | 0, _ => []
  | n + 1, w =>
    match pass ids w with
    | .stop => []
    | .visit w documentId => documentId :: treeOrder ids n w
    | .next w => treeOrder ids n w

theorem treeOrder_succ (ids : List UInt32) (n : ℕ) (w : TreeWalk) :
    treeOrder ids (n + 1) w =
      match pass ids w with
      | .stop => []
      | .visit w documentId => documentId :: treeOrder ids n w
      | .next w => treeOrder ids n w := rfl

/-- The walk with the pagination is `add` over `treeOrder`: the pagination only decides where
the loop ends. -/
theorem consume_treeStep (ids : List UInt32) (n : ℕ) (w : TreeWalk) (pg : Pagination κ) :
    (consume (treeStep ids) (w, pg) (List.replicate n ())).1.2 =
      (feed pg (unprefixed (treeOrder ids n w))).1 := by
  induction n generalizing w pg with
  | zero => rfl
  | succ n ih =>
    rw [List.replicate_succ, consume_cons, treeOrder_succ]
    cases hpass : pass ids w with
    | stop => simp [treeStep, hpass, unprefixed, feed]
    | visit w' d =>
      have hfeed : feed pg (unprefixed (d :: treeOrder ids n w')) =
          if (pg.add 0 d).2 then feed (pg.add 0 d).1 (unprefixed (treeOrder ids n w'))
          else ((pg.add 0 d).1, false) :=
        consume_cons _ _ _
      rw [hfeed]
      by_cases hgo : (pg.add 0 d).2
      · simp [treeStep, hpass, hgo, ih]
      · simp [treeStep, hpass, hgo]
    | next w' => simpa [treeStep, hpass] using ih w' pg

theorem sortAsTree_eq_feed (ids : List UInt32) (tree : List (ℕ × List ℕ)) (bound : ℕ)
    (pg : Pagination κ) :
    sortAsTree ids tree bound pg = (feed pg (unprefixed (treeOrder ids bound ⟨tree, [], 0⟩))).1 :=
  consume_treeStep ids bound _ pg

/-! ## One pass, case by case -/

theorem findChild_eq_some {children : List ℕ} {it : List UInt32} {d : UInt32} {rest : List UInt32} :
    findChild children it = some (d, rest) ↔
      ∃ pre, it = pre ++ d :: rest ∧ (∀ x ∈ pre, jmapOf x ∉ children) ∧ jmapOf d ∈ children := by
  induction it with
  | nil => simp [findChild]
  | cons x it ih =>
    by_cases hx : jmapOf x ∈ children
    · simp only [findChild, if_pos hx, Option.some.injEq, Prod.mk.injEq]
      constructor
      · rintro ⟨rfl, rfl⟩
        exact ⟨[], rfl, by simp, hx⟩
      · rintro ⟨pre, hit, hpre, hd⟩
        cases pre with
        | nil => simpa using hit
        | cons y pre =>
          simp only [List.cons_append, List.cons.injEq] at hit
          exact absurd (hit.1 ▸ hx) (hpre y List.mem_cons_self)
    · rw [findChild, if_neg hx, ih]
      constructor
      · rintro ⟨pre, rfl, hpre, hd⟩
        refine ⟨x :: pre, rfl, ?_, hd⟩
        intro y hy
        rcases List.mem_cons.mp hy with rfl | hy
        · exact hx
        · exact hpre y hy
      · rintro ⟨pre, hit, hpre, hd⟩
        cases pre with
        | nil =>
          simp only [List.nil_append, List.cons.injEq] at hit
          exact absurd (hit.1 ▸ hd) hx
        | cons y pre =>
          simp only [List.cons_append, List.cons.injEq] at hit
          exact ⟨pre, hit.2, fun z hz => hpre z (List.mem_cons_of_mem y hz), hd⟩

theorem findChild_eq_none {children : List ℕ} {it : List UInt32} :
    findChild children it = none ↔ ∀ x ∈ it, jmapOf x ∉ children := by
  induction it with
  | nil => simp [findChild]
  | cons x it ih =>
    by_cases hx : jmapOf x ∈ children
    · simp [findChild, hx]
    · simp [findChild, hx, ih]

theorem frameOf_eq_some {ids : List UInt32} {w w₀ : TreeWalk} {frame : List ℕ × List UInt32}
    (h : frameOf ids w = some (frame, w₀)) :
    (w.tree.lookup w.jmapId = some frame.1 ∧ frame.2 = ids ∧
      w₀ = { w with tree := w.tree.filter fun e => e.1 ≠ w.jmapId }) ∨
    (w.tree.lookup w.jmapId = none ∧ w.stack = frame :: w₀.stack ∧ w₀ = { w with stack := w₀.stack }) := by
  unfold frameOf at h
  cases hlook : w.tree.lookup w.jmapId with
  | some children =>
    rw [hlook] at h
    cases h
    exact .inl ⟨rfl, rfl, rfl⟩
  | none =>
    rw [hlook] at h
    cases hstack : w.stack with
    | nil => simp [hstack] at h
    | cons f stack =>
      simp only [hstack, Option.some.injEq, Prod.mk.injEq] at h
      obtain ⟨rfl, rfl⟩ := h
      exact .inr ⟨rfl, rfl, rfl⟩

theorem pass_eq_visit {ids : List UInt32} {w w' : TreeWalk} {d : UInt32} (h : pass ids w = .visit w' d) :
    ∃ children it w₀ pre rest, frameOf ids w = some ((children, it), w₀) ∧ it = pre ++ d :: rest ∧
      (∀ x ∈ pre, jmapOf x ∉ children) ∧ jmapOf d ∈ children ∧
      w' = { w₀ with jmapId := jmapOf d, stack := (children.erase (jmapOf d), rest) :: w₀.stack } := by
  unfold pass at h
  cases hframe : frameOf ids w with
  | none => simp [hframe] at h
  | some r =>
    obtain ⟨⟨children, it⟩, w₀⟩ := r
    rw [hframe] at h
    dsimp only at h
    cases hfind : findChild children it with
    | some r =>
      obtain ⟨id, rest⟩ := r
      rw [hfind] at h
      cases h
      obtain ⟨pre, hit, hpre, hd⟩ := findChild_eq_some.mp hfind
      exact ⟨children, it, w₀, pre, rest, rfl, hit, hpre, hd, rfl⟩
    | none =>
      rw [hfind] at h
      cases children <;> simp at h

theorem pass_eq_next {ids : List UInt32} {w w' : TreeWalk} (h : pass ids w = .next w') :
    ∃ children it w₀, frameOf ids w = some ((children, it), w₀) ∧ (∀ x ∈ it, jmapOf x ∉ children) ∧
      ((children = [] ∧ w' = w₀) ∨
        ∃ c cs, children = c :: cs ∧ w' = { w₀ with jmapId := c, stack := (cs, []) :: w₀.stack }) := by
  unfold pass at h
  cases hframe : frameOf ids w with
  | none => simp [hframe] at h
  | some r =>
    obtain ⟨⟨children, it⟩, w₀⟩ := r
    rw [hframe] at h
    dsimp only at h
    cases hfind : findChild children it with
    | some r =>
      rw [hfind] at h
      simp at h
    | none =>
      rw [hfind] at h
      refine ⟨children, it, w₀, rfl, findChild_eq_none.mp hfind, ?_⟩
      cases children with
      | nil =>
        cases h
        exact .inl ⟨rfl, rfl⟩
      | cons c cs =>
        cases h
        exact .inr ⟨c, cs, rfl, rfl⟩

/-! ## Children visited once -/

/-- The children not visited yet: those of the mailboxes not entered, and those on the stack. -/
def pending (w : TreeWalk) : List ℕ := (w.tree.map Prod.snd).flatten ++ (w.stack.map Prod.fst).flatten

theorem pending_push (w : TreeWalk) (j : ℕ) (frame : List ℕ × List UInt32) :
    (pending { w with jmapId := j, stack := frame :: w.stack }).Perm (frame.1 ++ pending w) := by
  simp only [pending, List.map_cons, List.flatten_cons]
  exact List.perm_append_comm_assoc _ _ _

theorem values_perm_filter {tree : List (ℕ × List ℕ)} (hkeys : (keys tree).Nodup) {k : ℕ}
    {children : List ℕ} (hlook : tree.lookup k = some children) :
    (tree.map Prod.snd).flatten.Perm (children ++ ((tree.filter fun e => e.1 ≠ k).map Prod.snd).flatten) := by
  induction tree with
  | nil => simp at hlook
  | cons e tree ih =>
    obtain ⟨q, v⟩ := e
    simp only [keys_cons, List.nodup_cons] at hkeys
    rw [lookup_cons] at hlook
    by_cases hq : k = q
    · subst hq
      simp only [if_true, Option.some.injEq] at hlook
      subst hlook
      have hnone : tree.filter (fun e => e.1 ≠ k) = tree := by
        refine List.filter_eq_self.mpr fun e he => ?_
        have hne : e.1 ≠ k := fun h => hkeys.1 (by rw [← h]; exact List.mem_map_of_mem he)
        simpa using hne
      rw [List.filter_cons_of_neg (by simp), hnone]
      simp
    · rw [if_neg hq] at hlook
      have hkeep : ((q, v) :: tree).filter (fun e => e.1 ≠ k) = (q, v) :: tree.filter fun e => e.1 ≠ k :=
        List.filter_cons_of_pos (by simpa using Ne.symm hq)
      rw [hkeep, List.map_cons, List.flatten_cons, List.map_cons, List.flatten_cons]
      exact ((ih hkeys.2 hlook).append_left v).trans (List.perm_append_comm_assoc _ _ _)

theorem keys_filter_nodup {tree : List (ℕ × List ℕ)} (hkeys : (keys tree).Nodup) (k : ℕ) :
    (keys (tree.filter fun e => e.1 ≠ k)).Nodup :=
  (keys_filter_sublist tree _).nodup hkeys

theorem pending_frameOf {ids : List UInt32} {w w₀ : TreeWalk} {frame : List ℕ × List UInt32}
    (hkeys : (keys w.tree).Nodup) (h : frameOf ids w = some (frame, w₀)) :
    (pending w).Perm (frame.1 ++ pending w₀) ∧ (keys w₀.tree).Nodup := by
  rcases frameOf_eq_some h with ⟨hlook, -, rfl⟩ | ⟨-, hstack, hw₀⟩
  · refine ⟨?_, keys_filter_nodup hkeys w.jmapId⟩
    rw [pending, pending, ← List.append_assoc]
    exact (values_perm_filter hkeys hlook).append_right _
  · have htree : w₀.tree = w.tree := by rw [hw₀]
    refine ⟨?_, htree ▸ hkeys⟩
    rw [pending, pending, hstack, List.map_cons, List.flatten_cons, htree]
    exact List.perm_append_comm_assoc _ _ _

theorem pending_visit {ids : List UInt32} {w w' : TreeWalk} {d : UInt32} (hkeys : (keys w.tree).Nodup)
    (h : pass ids w = .visit w' d) : (pending w).Perm (jmapOf d :: pending w') ∧ (keys w'.tree).Nodup := by
  obtain ⟨children, it, w₀, pre, rest, hframe, -, -, hd, rfl⟩ := pass_eq_visit h
  obtain ⟨hperm, hkeys₀⟩ := pending_frameOf hkeys hframe
  refine ⟨hperm.trans ?_, hkeys₀⟩
  exact ((List.perm_cons_erase hd).append_right _).trans
    ((pending_push w₀ (jmapOf d) (children.erase (jmapOf d), rest)).symm.cons _)

theorem pending_next {ids : List UInt32} {w w' : TreeWalk} (hkeys : (keys w.tree).Nodup)
    (h : pass ids w = .next w') : (pending w').Subperm (pending w) ∧ (keys w'.tree).Nodup := by
  obtain ⟨children, it, w₀, hframe, -, hnext⟩ := pass_eq_next h
  obtain ⟨hperm, hkeys₀⟩ := pending_frameOf hkeys hframe
  rcases hnext with ⟨rfl, rfl⟩ | ⟨c, cs, rfl, rfl⟩
  · exact ⟨(List.sublist_append_right _ _).subperm.trans hperm.symm.subperm, hkeys₀⟩
  · -- the entered child leaves the pending children
    refine ⟨(pending_push w₀ c (cs, [])).subperm.trans ?_, hkeys₀⟩
    exact ((List.sublist_cons_self c cs).append_right _).subperm.trans hperm.symm.subperm

theorem treeOrder_subperm (ids : List UInt32) :
    ∀ (n : ℕ) (w : TreeWalk), (keys w.tree).Nodup → ((treeOrder ids n w).map jmapOf).Subperm (pending w) := by
  intro n
  induction n with
  | zero => exact fun _ _ => by simp [treeOrder]
  | succ n ih =>
    intro w hkeys
    rw [treeOrder_succ]
    cases hpass : pass ids w with
    | stop => simp
    | visit w' d =>
      obtain ⟨hperm, hkeys'⟩ := pending_visit hkeys hpass
      exact ((List.subperm_cons _).mpr (ih w' hkeys')).trans hperm.symm.subperm
    | next w' =>
      obtain ⟨hsub, hkeys'⟩ := pending_next hkeys hpass
      exact (ih w' hkeys').trans hsub

/-! ## Each pass makes progress -/

/-- What is left of the walk: two passes for each pending child (one meets it, one drops its
frame), one for each mailbox still in the tree and one for each frame on the stack. -/
def budget (w : TreeWalk) : ℕ := 2 * (pending w).length + w.tree.length + w.stack.length

theorem budget_frameOf {ids : List UInt32} {w w₀ : TreeWalk} {frame : List ℕ × List UInt32}
    (hkeys : (keys w.tree).Nodup) (h : frameOf ids w = some (frame, w₀)) :
    budget w₀ + 2 * frame.1.length < budget w := by
  have hlen : (pending w).length = frame.1.length + (pending w₀).length := by
    rw [(pending_frameOf hkeys h).1.length_eq, List.length_append]
  rcases frameOf_eq_some h with ⟨hlook, -, rfl⟩ | ⟨-, hstack, hw₀⟩
  · have htree : (w.tree.filter fun e => e.1 ≠ w.jmapId).length < w.tree.length :=
      List.length_filter_lt_length_iff_exists.mpr ⟨_, mem_of_lookup_eq_some hlook, by simp⟩
    simp only [budget] at hlen ⊢
    omega
  · have htree : w₀.tree = w.tree := by rw [hw₀]
    simp only [budget, hstack, List.length_cons, htree]
    omega

/-- What one pass that does not stop changes: it leaves mailboxes of the tree other than the one
it entered, each pending child stays pending unless it is entered next, and the budget drops. -/
structure Moves (w w' : TreeWalk) : Prop where
  tree_keys : ∀ p ∈ keys w'.tree, p ∈ keys w.tree ∧ p ≠ w.jmapId
  pending_mem : ∀ x ∈ pending w, x ∈ pending w' ∨ x = w'.jmapId
  budget_lt : budget w' < budget w

theorem keys_frameOf {ids : List UInt32} {w w₀ : TreeWalk} {frame : List ℕ × List UInt32}
    (h : frameOf ids w = some (frame, w₀)) : ∀ p ∈ keys w₀.tree, p ∈ keys w.tree ∧ p ≠ w.jmapId := by
  intro p hp
  rcases frameOf_eq_some h with ⟨-, -, rfl⟩ | ⟨hlook, -, hw₀⟩
  · obtain ⟨e, he, rfl⟩ := List.mem_map.mp hp
    obtain ⟨he, hne⟩ := List.mem_filter.mp he
    exact ⟨List.mem_map_of_mem he, by simpa using hne⟩
  · have htree : w₀.tree = w.tree := by rw [hw₀]
    rw [htree] at hp
    refine ⟨hp, fun hpj => ?_⟩
    obtain ⟨v, hv⟩ := lookup_of_mem hp
    rw [hpj, hlook] at hv
    cases hv

theorem Moves.of_visit {ids : List UInt32} {w w' : TreeWalk} {d : UInt32} (hkeys : (keys w.tree).Nodup)
    (h : pass ids w = .visit w' d) : Moves w w' := by
  obtain ⟨children, it, w₀, pre, rest, hframe, -, -, hd, rfl⟩ := pass_eq_visit h
  have hbudget := budget_frameOf hkeys hframe
  have hperm := pending_push w₀ (jmapOf d) (children.erase (jmapOf d), rest)
  refine ⟨fun p hp => keys_frameOf hframe p hp, fun x hx => ?_, ?_⟩
  · -- a pending child is the one visited, or still pending
    rcases List.mem_append.mp ((pending_frameOf hkeys hframe).1.mem_iff.mp hx) with hx | hx
    · by_cases hxd : x = jmapOf d
      · exact .inr hxd
      · exact .inl (hperm.mem_iff.mpr (List.mem_append_left _ ((List.mem_erase_of_ne hxd).mpr hx)))
    · exact .inl (hperm.mem_iff.mpr (List.mem_append_right _ hx))
  · have hlen : (children.erase (jmapOf d)).length + 1 = children.length := by
      rw [List.length_erase_of_mem hd]
      exact Nat.sub_add_cancel (List.length_pos_of_mem hd)
    simp only [budget, hperm.length_eq, List.length_append, List.length_cons] at hbudget ⊢
    omega

theorem Moves.of_next {ids : List UInt32} {w w' : TreeWalk} (hkeys : (keys w.tree).Nodup)
    (h : pass ids w = .next w') : Moves w w' := by
  obtain ⟨children, it, w₀, hframe, -, hnext⟩ := pass_eq_next h
  have hbudget := budget_frameOf hkeys hframe
  have hpend := (pending_frameOf hkeys hframe).1
  rcases hnext with ⟨rfl, rfl⟩ | ⟨c, cs, rfl, rfl⟩
  · refine ⟨keys_frameOf hframe, fun x hx => .inl (by simpa using hpend.mem_iff.mp hx), ?_⟩
    omega
  · have hperm := pending_push w₀ c (cs, [])
    refine ⟨fun p hp => keys_frameOf hframe p hp, fun x hx => ?_, ?_⟩
    · -- a pending child is the one entered, or still pending
      rcases List.mem_append.mp (hpend.mem_iff.mp hx) with hx | hx
      · rcases List.mem_cons.mp hx with hx | hx
        · exact .inr hx
        · exact .inl (hperm.mem_iff.mpr (List.mem_append_left _ hx))
      · exact .inl (hperm.mem_iff.mpr (List.mem_append_right _ hx))
    · simp only [budget, hperm.length_eq, List.length_append, List.length_cons] at hbudget ⊢
      omega

/-- The walk stops once neither the mailbox it entered last has children left nor the stack has
frames. -/
theorem pass_eq_stop {ids : List UInt32} {w : TreeWalk} (h : pass ids w = .stop) :
    w.tree.lookup w.jmapId = none ∧ w.stack = [] := by
  unfold pass at h
  cases hframe : frameOf ids w with
  | some r =>
    obtain ⟨⟨children, it⟩, w₀⟩ := r
    rw [hframe] at h
    dsimp only at h
    cases hfind : findChild children it with
    | some r => simp [hfind] at h
    | none => cases children <;> simp [hfind] at h
  | none =>
    unfold frameOf at hframe
    cases hlook : w.tree.lookup w.jmapId with
    | some children => simp [hlook] at hframe
    | none =>
      cases hstack : w.stack with
      | nil => exact ⟨rfl, rfl⟩
      | cons f stack => simp [hlook, hstack] at hframe

/-! ## The invariant of the walk -/

/-- The tree of an account's mailboxes: each parent once, and each mailbox under one parent,
once. -/
structure TreeOk (tree : List (ℕ × List ℕ)) : Prop where
  keys_nodup : (keys tree).Nodup
  children_nodup : (tree.map Prod.snd).flatten.Nodup

theorem TreeOk.parent_unique {tree : List (ℕ × List ℕ)} (h : TreeOk tree) {c p p' : ℕ}
    (hp : c ∈ (tree.lookup p).getD []) (hp' : c ∈ (tree.lookup p').getD []) : p = p' := by
  by_contra hne
  cases hl : tree.lookup p with
  | none => simp [hl] at hp
  | some cs =>
    rw [hl, Option.getD_some] at hp
    have hperm := values_perm_filter h.keys_nodup hl
    have hnd := hperm.nodup_iff.mp h.children_nodup
    have hl' : (tree.filter fun e => e.1 ≠ p).lookup p' = tree.lookup p' := by
      rw [lookup_filter_ne, if_neg (Ne.symm hne)]
    cases hl'' : tree.lookup p' with
    | none => simp [hl''] at hp'
    | some cs' =>
      rw [hl'', Option.getD_some] at hp'
      rw [hl''] at hl'
      have hmem : c ∈ ((tree.filter fun e => e.1 ≠ p).map Prod.snd).flatten :=
        List.mem_flatten.mpr ⟨cs', List.mem_map.mpr ⟨(p', cs'), mem_of_lookup_eq_some hl', rfl⟩, hp'⟩
      exact List.disjoint_of_nodup_append hnd hp hmem

/-- The mailboxes below the root of the tree. -/
inductive Below (tree : List (ℕ × List ℕ)) : ℕ → Prop
  | root {c : ℕ} : c ∈ (tree.lookup 0).getD [] → Below tree c
  | child {p c : ℕ} : Below tree p → c ∈ (tree.lookup p).getD [] → Below tree c

theorem Below.of_parent {tree : List (ℕ × List ℕ)} {p c : ℕ} (hp : p = 0 ∨ Below tree p)
    (hc : c ∈ (tree.lookup p).getD []) : Below tree c := by
  rcases hp with rfl | hp
  · exact .root hc
  · exact .child hp hc

section Inv

variable (orig : List (ℕ × List ℕ)) (ids : List UInt32)

/-- A mailbox whose children may be visited: the root, a mailbox outside the results, or a
result already handed to `add`. -/
def Cleared (out : List UInt32) (p : ℕ) : Prop :=
  p = 0 ∨ (∀ d ∈ ids, jmapOf d ≠ p) ∨ ∃ d ∈ out, jmapOf d = p

/-- A frame of the walk: children of a cleared mailbox in the original tree, with a scan within
the sorted ids that still has ahead every child among the results. -/
structure FrameOk (out : List UInt32) (frame : List ℕ × List UInt32) : Prop where
  parent : ∃ p, Cleared ids out p ∧ (p = 0 ∨ Below orig p) ∧ ∀ c ∈ frame.1, c ∈ (orig.lookup p).getD []
  scan : ∀ d ∈ frame.2, d ∈ ids
  ahead : ∀ d ∈ ids, jmapOf d ∈ frame.1 → d ∈ frame.2

/-- The invariant of the walk, given what it handed to `add` so far. -/
structure TreeInv (out : List UInt32) (w : TreeWalk) : Prop where
  tree_orig : ∀ p children, w.tree.lookup p = some children → orig.lookup p = some children
  keys_nodup : (keys w.tree).Nodup
  pending_nodup : (pending w).Nodup
  frames : ∀ f ∈ w.stack, FrameOk orig ids out f
  current : Cleared ids out w.jmapId
  current_below : w.jmapId = 0 ∨ Below orig w.jmapId

variable {orig ids}

theorem Cleared.mono {out : List UInt32} {p : ℕ} (h : Cleared ids out p) (more : List UInt32) :
    Cleared ids (out ++ more) p := by
  rcases h with h | h | ⟨d, hd, hp⟩
  · exact .inl h
  · exact .inr (.inl h)
  · exact .inr (.inr ⟨d, List.mem_append_left more hd, hp⟩)

theorem FrameOk.mono {out : List UInt32} {f : List ℕ × List UInt32} (h : FrameOk orig ids out f)
    (more : List UInt32) : FrameOk orig ids (out ++ more) f := by
  obtain ⟨⟨p, hp, hbelow, hsub⟩, hscan, hahead⟩ := h
  exact ⟨⟨p, hp.mono more, hbelow, hsub⟩, hscan, hahead⟩

theorem TreeInv.initial (h : TreeOk orig) : TreeInv orig ids [] ⟨orig, [], 0⟩ where
  tree_orig _ _ hl := hl
  keys_nodup := h.keys_nodup
  pending_nodup := by simpa [pending] using h.children_nodup
  frames := by simp
  current := .inl rfl
  current_below := .inl rfl

theorem TreeInv.frameOf {out : List UInt32} {w w₀ : TreeWalk} {frame : List ℕ × List UInt32}
    (h : TreeInv orig ids out w) (hf : frameOf ids w = some (frame, w₀)) :
    FrameOk orig ids out frame ∧ TreeInv orig ids out w₀ ∧ (frame.1 ++ pending w₀).Nodup := by
  obtain ⟨hperm, hkeys₀⟩ := pending_frameOf h.keys_nodup hf
  have hnd : (frame.1 ++ pending w₀).Nodup := hperm.nodup_iff.mp h.pending_nodup
  have hnd₀ : (pending w₀).Nodup := (List.sublist_append_right _ _).nodup hnd
  rcases frameOf_eq_some hf with ⟨hlook, hscan, rfl⟩ | ⟨-, hstack, hw₀⟩
  · -- the children of the mailbox entered: its parent is cleared, its scan starts afresh
    refine ⟨⟨⟨w.jmapId, h.current, h.current_below, fun c hc => ?_⟩, fun d hd => hscan ▸ hd,
      fun d hd _ => hscan ▸ hd⟩, ⟨fun p cs hl => ?_, hkeys₀, hnd₀, h.frames, h.current, h.current_below⟩, hnd⟩
    · rw [h.tree_orig _ _ hlook, Option.getD_some]
      exact hc
    · apply h.tree_orig
      rw [lookup_filter_ne] at hl
      by_cases hp : p = w.jmapId
      · simp [hp] at hl
      · simpa [hp] using hl
  · have htree : w₀.tree = w.tree := by rw [hw₀]
    have hjmap : w₀.jmapId = w.jmapId := by rw [hw₀]
    refine ⟨h.frames frame (by simp [hstack]), ⟨fun p cs hl => h.tree_orig p cs (htree ▸ hl),
      hkeys₀, hnd₀, fun f hf => h.frames f (by simp [hstack, hf]), hjmap ▸ h.current,
      hjmap ▸ h.current_below⟩, hnd⟩

theorem TreeInv.visit {out : List UInt32} {w w' : TreeWalk} {d : UInt32} (h : TreeInv orig ids out w)
    (hp : pass ids w = .visit w' d) :
    TreeInv orig ids (out ++ [d]) w' ∧ d ∈ ids ∧ Below orig (jmapOf d) ∧
      ∃ p, Cleared ids out p ∧ jmapOf d ∈ (orig.lookup p).getD [] := by
  obtain ⟨children, it, w₀, pre, rest, hframe, hit, hpre, hd, rfl⟩ := pass_eq_visit hp
  obtain ⟨⟨⟨p, hpc, hpbelow, hsub⟩, hscan, hahead⟩, h₀, hnd⟩ := h.frameOf hframe
  have hchildren : children.Nodup := (List.sublist_append_left _ _).nodup hnd
  have hdids : d ∈ ids := hscan d (by simp [hit])
  have hbelow : Below orig (jmapOf d) := Below.of_parent hpbelow (hsub _ hd)
  refine ⟨⟨h₀.tree_orig, h₀.keys_nodup, ?_, ?_, .inr (.inr ⟨d, by simp, rfl⟩), .inr hbelow⟩, hdids, hbelow,
    p, hpc, hsub _ hd⟩
  · -- the child leaves the frame's children
    have hsubl : (children.erase (jmapOf d) ++ pending w₀).Sublist (children ++ pending w₀) :=
      List.erase_sublist.append_right _
    exact (pending_push w₀ _ _).nodup_iff.mpr (hsubl.nodup hnd)
  · intro f hf
    rcases List.mem_cons.mp hf with rfl | hf
    · -- the frame pushed back: the children left are still ahead of the scan
      refine ⟨⟨p, hpc.mono [d], hpbelow, fun c hc => hsub c (List.mem_of_mem_erase hc)⟩,
        fun x hx => hscan x (by simp [hit, hx]), fun x hx hxc => ?_⟩
      obtain ⟨hne, hxc⟩ := (hchildren.mem_erase_iff).mp hxc
      have hxit : x ∈ it := hahead x hx hxc
      rw [hit] at hxit
      rcases List.mem_append.mp hxit with hxpre | hxrest
      · exact absurd hxc (hpre x hxpre)
      · rcases List.mem_cons.mp hxrest with rfl | hxrest
        · exact absurd rfl hne
        · exact hxrest
    · exact (h₀.frames f hf).mono [d]

theorem TreeInv.next {out : List UInt32} {w w' : TreeWalk} (h : TreeInv orig ids out w)
    (hp : pass ids w = .next w') : TreeInv orig ids out w' := by
  obtain ⟨children, it, w₀, hframe, hnone, hnext⟩ := pass_eq_next hp
  obtain ⟨⟨⟨p, hpc, hpbelow, hsub⟩, -, hahead⟩, h₀, hnd⟩ := h.frameOf hframe
  rcases hnext with ⟨-, rfl⟩ | ⟨c, cs, rfl, rfl⟩
  · exact h₀
  · -- the scan is over, so no child left is a result
    have hout : ∀ d ∈ ids, jmapOf d ∉ c :: cs := fun d hd hdc => hnone d (hahead d hd hdc) hdc
    refine ⟨h₀.tree_orig, h₀.keys_nodup, ?_, ?_,
      .inr (.inl fun d hd hdc => hout d hd (by rw [hdc]; exact List.mem_cons_self)),
      .inr (Below.of_parent hpbelow (hsub c List.mem_cons_self))⟩
    · exact (pending_push w₀ c (cs, [])).nodup_iff.mpr (((List.sublist_cons_self c cs).append_right _).nodup hnd)
    · intro f hf
      rcases List.mem_cons.mp hf with rfl | hf
      · exact ⟨⟨p, hpc, hpbelow, fun x hx => hsub x (List.mem_cons_of_mem c hx)⟩, by simp,
          fun d hd hdc => absurd (List.mem_cons_of_mem c hdc) (hout d hd)⟩
      · exact h₀.frames f hf

theorem treeOrder_cleared (n : ℕ) :
    ∀ (w : TreeWalk) (out : List UInt32), TreeInv orig ids out w →
      ∀ (before : List UInt32) (d : UInt32) (after : List UInt32), treeOrder ids n w = before ++ d :: after →
        d ∈ ids ∧ Below orig (jmapOf d) ∧
          ∃ p, Cleared ids (out ++ before) p ∧ jmapOf d ∈ (orig.lookup p).getD [] := by
  induction n with
  | zero =>
    intro w out _ before d after h
    simp [treeOrder] at h
  | succ n ih =>
    intro w out hinv before d after h
    rw [treeOrder_succ] at h
    cases hpass : pass ids w with
    | stop =>
      rw [hpass] at h
      simp at h
    | visit w' d₀ =>
      rw [hpass] at h
      obtain ⟨hinv', hd₀, hbelow, p, hp, hpd⟩ := hinv.visit hpass
      cases before with
      | nil =>
        obtain ⟨rfl, -⟩ := List.cons.inj h
        exact ⟨hd₀, hbelow, p, by simpa using hp, hpd⟩
      | cons e before =>
        obtain ⟨he, h⟩ := List.cons.inj h
        obtain ⟨hd, hdbelow, p, hp, hpd⟩ := ih w' (out ++ [d₀]) hinv' before d after h
        exact ⟨hd, hdbelow, p, by simpa [he] using hp, hpd⟩
    | next w' =>
      rw [hpass] at h
      exact ih w' out (hinv.next hpass) before d after h

/-! ### Every result below the root is reached -/

theorem Below.mem_children {c : ℕ} (h : Below orig c) :
    ∃ p, (p = 0 ∨ Below orig p) ∧ c ∈ (orig.lookup p).getD [] := by
  cases h with
  | root hc => exact ⟨0, .inl rfl, hc⟩
  | child hp hc => exact ⟨_, .inr hp, hc⟩

theorem mem_pending_initial {p c : ℕ} (hc : c ∈ (orig.lookup p).getD []) : c ∈ pending ⟨orig, [], 0⟩ := by
  cases hl : orig.lookup p with
  | none => simp [hl] at hc
  | some cs =>
    rw [hl, Option.getD_some] at hc
    simp only [pending, List.map_nil, List.flatten_nil, List.append_nil]
    exact List.mem_flatten.mpr ⟨cs, List.mem_map.mpr ⟨(p, cs), mem_of_lookup_eq_some hl, rfl⟩, hc⟩

theorem Cleared.mem_out {out : List UInt32} {d : UInt32} (h : Cleared ids out (jmapOf d)) (hd : d ∈ ids) :
    d ∈ out := by
  rcases h with h | h | ⟨e, he, hed⟩
  · simp [jmapOf] at h
  · exact absurd rfl (h d hd)
  · exact jmapOf_injective hed ▸ he

variable (orig ids) in
/-- What the walk has still to reach: every result below the root not handed to `add` is pending,
and every mailbox below the root whose children are still in the tree is pending, or entered next;
the root's are only there before the first pass. -/
structure Reaches (out : List UInt32) (w : TreeWalk) : Prop where
  results : ∀ d ∈ ids, Below orig (jmapOf d) → d ∈ out ∨ jmapOf d ∈ pending w
  root : 0 ∈ keys w.tree → w.jmapId = 0
  entered : ∀ p ∈ keys w.tree, Below orig p → p ∈ pending w ∨ p = w.jmapId

theorem Reaches.initial : Reaches orig ids [] ⟨orig, [], 0⟩ where
  results d _ hd := by
    obtain ⟨p, -, hc⟩ := hd.mem_children
    exact .inr (mem_pending_initial hc)
  root _ := rfl
  entered p _ hp := by
    obtain ⟨q, -, hc⟩ := hp.mem_children
    exact .inl (mem_pending_initial hc)

/-- A pass that does not stop keeps what is still to reach: the child it enters next is a result
only if it handed it to `add`. -/
theorem Reaches.step {out out' : List UInt32} {w w' : TreeWalk} (h : Reaches orig ids out w)
    (hm : Moves w w') (hinv : TreeInv orig ids out' w') (hout : ∀ d ∈ out, d ∈ out') :
    Reaches orig ids out' w' where
  results d hd hbelow := by
    rcases h.results d hd hbelow with hdo | hpend
    · exact .inl (hout d hdo)
    · rcases hm.pending_mem _ hpend with hpend | hnext
      · exact .inr hpend
      · exact .inl ((hnext ▸ hinv.current).mem_out hd)
  root h0 := by
    obtain ⟨h0, hne⟩ := hm.tree_keys 0 h0
    exact absurd (h.root h0).symm hne
  entered p hp hbelow := by
    obtain ⟨hp, hne⟩ := hm.tree_keys p hp
    exact (h.entered p hp hbelow).resolve_right hne |> hm.pending_mem p

theorem TreeInv.parent_key {out : List UInt32} {w : TreeWalk} (h : TreeInv orig ids out w) (htree : TreeOk orig)
    (hstack : w.stack = []) {c p : ℕ} (hc : c ∈ pending w) (hp : c ∈ (orig.lookup p).getD []) :
    w.tree.lookup p = some ((orig.lookup p).getD []) := by
  simp only [pending, hstack, List.map_nil, List.flatten_nil, List.append_nil] at hc
  obtain ⟨cs, hcs, hccs⟩ := List.mem_flatten.mp hc
  obtain ⟨⟨q, cs⟩, hqcs, rfl⟩ := List.mem_map.mp hcs
  have hlook : w.tree.lookup q = some cs := (lookup_eq_some_iff_mem h.keys_nodup).mpr hqcs
  have horig := h.tree_orig q cs hlook
  have hpq : p = q := htree.parent_unique hp (by rw [horig]; exact hccs)
  rw [hpq, hlook, horig, Option.getD_some]

/-- Once the walk stops, no mailbox below the root is pending: by induction on the path from the
root, the parent of a pending one would still have its children in the tree. -/
theorem Reaches.stop {out : List UInt32} {w : TreeWalk} (h : Reaches orig ids out w)
    (hinv : TreeInv orig ids out w) (htree : TreeOk orig) (hstop : pass ids w = .stop) {c : ℕ}
    (hc : Below orig c) : c ∉ pending w := by
  obtain ⟨hlook, hstack⟩ := pass_eq_stop hstop
  have hparent : ∀ {x p : ℕ}, x ∈ pending w → x ∈ (orig.lookup p).getD [] → p ∈ keys w.tree ∧ p ≠ w.jmapId := by
    intro x p hx hp
    have hkey := hinv.parent_key htree hstack hx hp
    refine ⟨mem_keys_of_lookup hkey, fun hpj => ?_⟩
    rw [hpj, hlook] at hkey
    cases hkey
  induction hc with
  | root hc =>
    intro hpend
    obtain ⟨h0, hne⟩ := hparent hpend hc
    exact hne (h.root h0).symm
  | child hp hc ih =>
    intro hpend
    obtain ⟨hkey, hne⟩ := hparent hpend hc
    exact ih ((h.entered _ hkey hp).resolve_right hne)

theorem treeOrder_reaches (htree : TreeOk orig) (n : ℕ) :
    ∀ (w : TreeWalk) (out : List UInt32), TreeInv orig ids out w → Reaches orig ids out w → budget w < n →
      ∀ d ∈ ids, Below orig (jmapOf d) → d ∈ out ∨ d ∈ treeOrder ids n w := by
  induction n with
  | zero => exact fun _ _ _ _ hb => absurd hb (Nat.not_lt_zero _)
  | succ n ih =>
    intro w out hinv hr hb d hd hbelow
    rw [treeOrder_succ]
    cases hpass : pass ids w with
    | stop =>
      exact .inl ((hr.results d hd hbelow).resolve_right (hr.stop hinv htree hpass hbelow))
    | visit w' d₀ =>
      have hm := Moves.of_visit hinv.keys_nodup hpass
      have hinv' := (hinv.visit hpass).1
      have hr' := hr.step hm hinv' fun e he => List.mem_append_left _ he
      rcases ih w' (out ++ [d₀]) hinv' hr' (by have := hm.budget_lt; omega) d hd hbelow with hdo | hdo
      · rcases List.mem_append.mp hdo with hdo | hdo
        · exact .inl hdo
        · exact .inr (by simp_all)
      · exact .inr (List.mem_cons_of_mem d₀ hdo)
    | next w' =>
      have hm := Moves.of_next hinv.keys_nodup hpass
      have hinv' := hinv.next hpass
      exact ih w' out hinv' (hr.step hm hinv' fun _ he => he) (by have := hm.budget_lt; omega) d hd hbelow

end Inv

/-! ## The order of the walk -/

theorem treeOrder_nodup {tree : List (ℕ × List ℕ)} (htree : TreeOk tree) (ids : List UInt32) (n : ℕ) :
    (treeOrder ids n ⟨tree, [], 0⟩).Nodup ∧ ∀ d ∈ treeOrder ids n ⟨tree, [], 0⟩, d ∈ ids := by
  constructor
  · have hsub := treeOrder_subperm ids n ⟨tree, [], 0⟩ htree.keys_nodup
    have hnd : (pending ⟨tree, [], 0⟩).Nodup := by simpa [pending] using htree.children_nodup
    obtain ⟨l, hperm, hsubl⟩ := hsub
    exact (hperm.nodup_iff.mp (hsubl.nodup hnd)).of_map jmapOf
  · intro d hd
    obtain ⟨before, after, h⟩ := List.append_of_mem hd
    exact (treeOrder_cleared n _ [] (TreeInv.initial htree) before d after h).1

theorem treeOrder_parent_first {tree : List (ℕ × List ℕ)} (htree : TreeOk tree) (ids : List UInt32)
    (n : ℕ) {before after : List UInt32} {d : UInt32} (h : treeOrder ids n ⟨tree, [], 0⟩ = before ++ d :: after)
    {p : ℕ} (hp : jmapOf d ∈ (tree.lookup p).getD []) (hresult : ∃ e ∈ ids, jmapOf e = p) :
    ∃ e ∈ before, jmapOf e = p := by
  obtain ⟨-, -, q, hq, hqd⟩ := treeOrder_cleared n _ [] (TreeInv.initial htree) before d after h
  have hpq : p = q := htree.parent_unique hp hqd
  rw [List.nil_append] at hq
  rcases hq with hroot | hnot | hout
  · obtain ⟨e, -, he⟩ := hresult
    simp [jmapOf] at he
    omega
  · obtain ⟨e, he, hep⟩ := hresult
    exact absurd (hep.trans hpq) (hnot e he)
  · exact hpq ▸ hout

theorem budget_initial (tree : List (ℕ × List ℕ)) :
    budget ⟨tree, [], 0⟩ = 2 * (tree.map Prod.snd).flatten.length + tree.length := by
  simp [budget, pending]

/-- With more passes than the budget, the walk hands to `add` exactly the results below the
root. -/
theorem mem_treeOrder_iff {tree : List (ℕ × List ℕ)} (htree : TreeOk tree) (ids : List UInt32) {n : ℕ}
    (hn : budget ⟨tree, [], 0⟩ < n) (d : UInt32) :
    d ∈ treeOrder ids n ⟨tree, [], 0⟩ ↔ d ∈ ids ∧ Below tree (jmapOf d) := by
  constructor
  · intro hd
    obtain ⟨before, after, h⟩ := List.append_of_mem hd
    obtain ⟨hids, hbelow, -⟩ := treeOrder_cleared n _ [] (TreeInv.initial htree) before d after h
    exact ⟨hids, hbelow⟩
  · rintro ⟨hd, hbelow⟩
    exact (treeOrder_reaches htree n _ [] (TreeInv.initial htree) Reaches.initial hn d hd hbelow).resolve_left
      List.not_mem_nil

/-- With more passes than the budget, the walk over distinct results, all below the root, hands
each of them to `add`. -/
theorem treeOrder_perm {tree : List (ℕ × List ℕ)} (htree : TreeOk tree) {ids : List UInt32} (hnd : ids.Nodup)
    (hbelow : ∀ d ∈ ids, Below tree (jmapOf d)) {n : ℕ} (hn : budget ⟨tree, [], 0⟩ < n) :
    (treeOrder ids n ⟨tree, [], 0⟩).Perm ids := by
  refine (List.perm_ext_iff_of_nodup (treeOrder_nodup htree ids n).1 hnd).mpr fun d => ?_
  rw [mem_treeOrder_iff htree ids hn]
  exact ⟨And.left, fun hd => ⟨hd, hbelow d hd⟩⟩

/-- `Mailbox/query` sorted as a tree, given more passes than twice the children of the tree and
its parents: the pagination is fed the results below the root, each once, each after its parent
when the parent is a result. -/
theorem querySortAsTree_walks_tree {tree : List (ℕ × List ℕ)} (htree : TreeOk tree) (ids : List UInt32)
    {maxDepth : ℕ}
    (hpasses : 2 * (tree.map Prod.snd).flatten.length + tree.length < ids.length * 10 * maxDepth)
    (pg : Pagination κ) :
    ∃ order : List UInt32, querySortAsTree ids tree maxDepth pg = (feed pg (unprefixed order)).1.build ∧
      order.Nodup ∧ (∀ d, d ∈ order ↔ d ∈ ids ∧ Below tree (jmapOf d)) ∧
      ∀ before d after, order = before ++ d :: after → ∀ p, jmapOf d ∈ (tree.lookup p).getD [] →
        (∃ e ∈ ids, jmapOf e = p) → ∃ e ∈ before, jmapOf e = p := by
  have hn : budget ⟨tree, [], 0⟩ < ids.length * 10 * maxDepth := by rwa [budget_initial]
  refine ⟨treeOrder ids (ids.length * 10 * maxDepth) ⟨tree, [], 0⟩, by rw [querySortAsTree, sortAsTree_eq_feed],
    (treeOrder_nodup htree ids _).1, mem_treeOrder_iff htree ids hn, ?_⟩
  intro before d after h p hp hresult
  exact treeOrder_parent_first htree ids _ h hp hresult

/-- Mailbox 2 under mailbox 0, sorted before it: the walk still hands 0 to `add` first. -/
theorem querySortAsTree_walks_tree_example :
    ∃ order : List UInt32, querySortAsTree [2, 0] [(0, [1, 2]), (1, [3])] 1 (new 2 0 none 0 : Pagination Unit) =
        (feed (new 2 0 none 0 : Pagination Unit) (unprefixed order)).1.build ∧
      order.Nodup ∧ (∀ d, d ∈ order ↔ d ∈ [2, 0] ∧ Below [(0, [1, 2]), (1, [3])] (jmapOf d)) ∧
      ∀ before d after, order = before ++ d :: after → ∀ p, jmapOf d ∈ ([(0, [1, 2]), (1, [3])].lookup p).getD [] →
        (∃ e ∈ [2, 0], jmapOf e = p) → ∃ e ∈ before, jmapOf e = p :=
  querySortAsTree_walks_tree ⟨by decide, by decide⟩ [2, 0] (by decide) _

/-! ## The bound on the passes -/

theorem pass_pop_empty (ids : List UInt32) {tree : List (ℕ × List ℕ)} {j : ℕ} (hj : tree.lookup j = none)
    (rest : List (List ℕ × List UInt32)) : pass ids ⟨tree, ([], []) :: rest, j⟩ = .next ⟨tree, rest, j⟩ := by
  simp [pass, frameOf, hj, findChild]

theorem pass_pop_pick (ids : List UInt32) {tree : List (ℕ × List ℕ)} {j : ℕ} (hj : tree.lookup j = none)
    (c : ℕ) (cs : List ℕ) (rest : List (List ℕ × List UInt32)) :
    pass ids ⟨tree, (c :: cs, []) :: rest, j⟩ = .next ⟨tree, (cs, []) :: rest, c⟩ := by
  simp [pass, frameOf, hj, findChild]

/-- Children without children of their own, entered after the scan, cost a pass each and hand
nothing to `add`. -/
theorem treeOrder_drain (ids : List UInt32) {tree : List (ℕ × List ℕ)} (rest : List (List ℕ × List UInt32))
    (n : ℕ) (cs : List ℕ) :
    ∀ j, tree.lookup j = none → (∀ c ∈ cs, tree.lookup c = none) →
      ∃ j', tree.lookup j' = none ∧
        treeOrder ids (cs.length + 1 + n) ⟨tree, (cs, []) :: rest, j⟩ = treeOrder ids n ⟨tree, rest, j'⟩ := by
  induction cs with
  | nil =>
    intro j hj _
    refine ⟨j, hj, ?_⟩
    rw [List.length_nil, Nat.zero_add, Nat.add_comm, treeOrder_succ, pass_pop_empty ids hj]
  | cons c cs ih =>
    intro j hj hcs
    obtain ⟨j', hj', heq⟩ := ih c (hcs c List.mem_cons_self) fun x hx => hcs x (List.mem_cons_of_mem c hx)
    refine ⟨j', hj', ?_⟩
    rw [List.length_cons, show cs.length + 1 + 1 + n = (cs.length + 1 + n) + 1 by omega, treeOrder_succ,
      pass_pop_pick ids hj]
    exact heq

theorem treeOrder_prefix (ids : List UInt32) (k : ℕ) :
    ∀ (n : ℕ) (w : TreeWalk), treeOrder ids n w <+: treeOrder ids (n + k) w := by
  intro n
  induction n with
  | zero => exact fun _ => List.nil_prefix
  | succ n ih =>
    intro w
    rw [Nat.add_right_comm, treeOrder_succ, treeOrder_succ]
    cases pass ids w with
    | stop => exact List.prefix_refl _
    | visit w' d => exact (List.prefix_cons_inj d).mpr (ih w')
    | next w' => exact ih w'

theorem lookup_filter_of_none {tree : List (ℕ × List ℕ)} {x : ℕ} (hx : tree.lookup x = none) (k : ℕ) :
    (tree.filter fun e => e.1 ≠ k).lookup x = none := by
  rw [lookup_filter_ne]
  split_ifs <;> simp [hx]

section TwoResults

variable {tree : List (ℕ × List ℕ)} {a b : UInt32} {root leaves : List ℕ}

/-- Two results `a` then `b` at the root, where the children of `a` are outside the results and
have no children: the first pass hands `a` to `add`, and the second enters `a`. -/
theorem pass_two_results (htree : TreeOk tree) (hroot : tree.lookup 0 = some root) (ha : jmapOf a ∈ root)
    (hb : jmapOf b ∈ root) (hleaves : tree.lookup (jmapOf a) = some leaves) :
    pass [a, b] ⟨tree, [], 0⟩ =
        .visit ⟨tree.filter (fun e => e.1 ≠ 0), [(root.erase (jmapOf a), [b])], jmapOf a⟩ a ∧
      pass [a, b] ⟨tree.filter (fun e => e.1 ≠ 0), [(root.erase (jmapOf a), [b])], jmapOf a⟩ =
        match leaves with
        | c :: cs => .next ⟨(tree.filter fun e => e.1 ≠ 0).filter fun e => e.1 ≠ jmapOf a,
            [(cs, []), (root.erase (jmapOf a), [b])], c⟩
        | [] => .next ⟨(tree.filter fun e => e.1 ≠ 0).filter fun e => e.1 ≠ jmapOf a,
            [(root.erase (jmapOf a), [b])], jmapOf a⟩ := by
  have ha0 : jmapOf a ≠ 0 := by simp [jmapOf]
  have hnot : ∀ {d : UInt32}, jmapOf d ∈ root → jmapOf d ∉ leaves := fun {d} hd hl =>
    ha0 (htree.parent_unique (show jmapOf d ∈ (tree.lookup (jmapOf a)).getD [] by simpa [hleaves] using hl)
      (show jmapOf d ∈ (tree.lookup 0).getD [] by simpa [hroot] using hd))
  have hlook : (tree.filter fun e => e.1 ≠ 0).lookup (jmapOf a) = some leaves := by
    rw [lookup_filter_ne, if_neg ha0, hleaves]
  constructor
  · simp [pass, frameOf, hroot, findChild, ha]
  · have hfind : findChild leaves [a, b] = none := by simp [findChild, hnot ha, hnot hb]
    cases leaves with
    | nil => simp only [pass, frameOf, hlook, hfind]
    | cons c cs => simp only [pass, frameOf, hlook, hfind]

theorem treeOrder_after_first (htree : TreeOk tree) (hroot : tree.lookup 0 = some root) (ha : jmapOf a ∈ root)
    (hb : jmapOf b ∈ root) (hleaves : tree.lookup (jmapOf a) = some leaves)
    (hleaf : ∀ c ∈ leaves, tree.lookup c = none) :
    treeOrder [a, b] (leaves.length + 1)
      ⟨tree.filter (fun e => e.1 ≠ 0), [(root.erase (jmapOf a), [b])], jmapOf a⟩ = [] := by
  rw [treeOrder_succ, (pass_two_results htree hroot ha hb hleaves).2]
  cases leaves with
  | nil => rfl
  | cons c cs =>
    dsimp only
    have hnone : ∀ x, tree.lookup x = none →
        ((tree.filter fun e => e.1 ≠ 0).filter fun e => e.1 ≠ jmapOf a).lookup x = none :=
      fun x hx => lookup_filter_of_none (lookup_filter_of_none hx 0) (jmapOf a)
    obtain ⟨j', -, heq⟩ := treeOrder_drain [a, b] [(root.erase (jmapOf a), [b])] 0 cs c
      (hnone c (hleaf c List.mem_cons_self)) fun x hx => hnone x (hleaf x (List.mem_cons_of_mem c hx))
    rw [List.length_cons, ← Nat.add_zero (cs.length + 1), heq]
    rfl

theorem treeOrder_two_results (htree : TreeOk tree) (hroot : tree.lookup 0 = some root) (ha : jmapOf a ∈ root)
    (hb : jmapOf b ∈ root) (hleaves : tree.lookup (jmapOf a) = some leaves)
    (hleaf : ∀ c ∈ leaves, tree.lookup c = none) {n : ℕ} (hn : 0 < n) (hle : n ≤ leaves.length + 2) :
    treeOrder [a, b] n ⟨tree, [], 0⟩ = [a] := by
  obtain ⟨m, rfl⟩ : ∃ m, n = m + 1 := ⟨n - 1, by omega⟩
  rw [treeOrder_succ, (pass_two_results htree hroot ha hb hleaves).1]
  have hpre := treeOrder_prefix [a, b] (leaves.length + 1 - m) m
    ⟨tree.filter (fun e => e.1 ≠ 0), [(root.erase (jmapOf a), [b])], jmapOf a⟩
  rw [show m + (leaves.length + 1 - m) = leaves.length + 1 by omega,
    treeOrder_after_first htree hroot ha hb hleaves hleaf, List.prefix_nil] at hpre
  dsimp only
  rw [hpre]

end TwoResults

/-- The walk spends a pass on every mailbox it enters, results or not, but its passes are counted
from the results: with two results `a` and then `b` at the root, and `20 * mailbox_max_depth - 2`
children of `a` or more outside the results and without children, `b` never reaches `add`,
whatever the pagination. -/
theorem querySortAsTree_misses_result {tree : List (ℕ × List ℕ)} {a b : UInt32} {root leaves : List ℕ}
    (htree : TreeOk tree) (hroot : tree.lookup 0 = some root) (ha : jmapOf a ∈ root) (hb : jmapOf b ∈ root)
    (hleaves : tree.lookup (jmapOf a) = some leaves) (hleaf : ∀ c ∈ leaves, tree.lookup c = none)
    {maxDepth : ℕ} (hdepth : 0 < maxDepth) (hmany : 20 * maxDepth ≤ leaves.length + 2) (pg : Pagination κ) :
    querySortAsTree [a, b] tree maxDepth pg = (pg.add 0 a).1.build := by
  have horder : treeOrder [a, b] ([a, b].length * 10 * maxDepth) ⟨tree, [], 0⟩ = [a] :=
    treeOrder_two_results htree hroot ha hb hleaves hleaf (by simp; omega) (by simp; omega)
  rw [querySortAsTree, sortAsTree_eq_feed, horder]
  have hfeed : feed pg (unprefixed [a]) =
      if (pg.add 0 a).2 then feed (pg.add 0 a).1 [] else ((pg.add 0 a).1, false) :=
    consume_cons _ _ _
  rw [hfeed]
  split_ifs <;> rfl

/-- Results 0 and 1 at the root, with 18 children of 0 outside the results, and a mailbox depth
of 1: the 20 passes end before mailbox 1 is met. -/
theorem querySortAsTree_misses_result_example :
    querySortAsTree [0, 1]
        [(0, [1, 2]), (1, [3, 4, 5, 6, 7, 8, 9, 10, 11, 12, 13, 14, 15, 16, 17, 18, 19, 20])] 1
        (new 10 0 none 0 : Pagination Unit) =
      ((new 10 0 none 0 : Pagination Unit).add 0 0).1.build :=
  querySortAsTree_misses_result ⟨by decide, by decide⟩ (show _ = some [1, 2] from rfl) (by decide) (by decide)
    (show _ = some [3, 4, 5, 6, 7, 8, 9, 10, 11, 12, 13, 14, 15, 16, 17, 18, 19, 20] from rfl) (by decide)
    (by decide) (by decide) _

end MailServer.Jmap.MailboxQuery
