import MailServer.Jmap.MailboxSet
import MailServer.Jmap.MailboxQuery

/-! # The mailbox tree of `Mailbox/query`

With `filterAsTree` or `sortAsTree`, `Mailbox/query` (jmap/src/mailbox/query.rs) reads every
mailbox of the account and fills two maps in one loop: `hierarchy`, from each mailbox to its
parent, and `tree`, from each parent to its children (`mailboxTree`). The hierarchy is the parent
function the parent walk of `Mailbox/set` follows (`lookup_hierarchy`); the tree holds exactly the
stored mailboxes under their parents (`treeOf_mailboxTree`), and the theorems below hold of every
list with that content (`TreeOf`), whatever order the hash maps and sets keep.

`filter_as_tree` keeps a result when the walk up `hierarchy` meets the root within
`mailbox_max_depth` steps through results only: what it keeps has its parent at the root or kept
(`filterAsTree_parent`), and so lies below the root. The walk of `sortAsTree`, given enough passes,
then hands each mailbox kept to the pagination once, after its parent. Without the filter the same
holds of a mailbox set that `Mailbox/set` keeps well formed, since there every chain of parents ends
at the root.
-/

namespace MailServer.Jmap.MailboxTree

open MailServer.Lib.AssocList MailServer.Lib.Forest MailServer.Jmap.MailboxSet
  MailServer.Jmap.MailboxQuery MailServer.Store.Pagination MailServer.Store.Pagination.Pagination
  MailServer.Store.Sort

variable {κ : Type}

/-! ## Building the maps -/

/-- `tree.entry(parent_id).or_insert_with(AHashSet::default).insert(document_id + 1)`. -/
def insertChild (tree : List (ℕ × List ℕ)) (parentId child : ℕ) : List (ℕ × List ℕ) :=
  insert tree parentId (((tree.lookup parentId).getD []).insert child)

/-- One mailbox of `get_properties`, its parent read as `Object.parentId` reads it, recorded in
`hierarchy` and in `tree`. -/
def addMailbox (maps : List (ℕ × ℕ) × List (ℕ × List ℕ)) (e : ℕ × Object) :
    List (ℕ × ℕ) × List (ℕ × List ℕ) :=
  (insert maps.1 (e.1 + 1) e.2.parentId, insertChild maps.2 e.2.parentId (e.1 + 1))

/-- The loop over the mailboxes of the account: `(hierarchy, tree)`. -/
def mailboxTree (docs : List (ℕ × Object)) : List (ℕ × ℕ) × List (ℕ × List ℕ) :=
  docs.foldl addMailbox ([], [])

theorem mailboxTree_append (docs : List (ℕ × Object)) (e : ℕ × Object) :
    mailboxTree (docs ++ [e]) = addMailbox (mailboxTree docs) e := by
  simp [mailboxTree]

theorem lookup_insertChild (tree : List (ℕ × List ℕ)) (parentId child p : ℕ) :
    (insertChild tree parentId child).lookup p =
      if p = parentId then some (((tree.lookup parentId).getD []).insert child) else tree.lookup p :=
  lookup_insert _ _ _ _

theorem keys_nodup_insertChild {tree : List (ℕ × List ℕ)} (h : (keys tree).Nodup) (parentId child : ℕ) :
    (keys (insertChild tree parentId child)).Nodup :=
  nodup_keys_insert h _ _

theorem lookup_hierarchy {docs : List (ℕ × Object)} (hnd : (keys docs).Nodup) (k : ℕ) :
    (mailboxTree docs).1.lookup k = Mailboxes.up ⟨docs⟩ k := by
  induction docs using List.reverseRecOn generalizing k with
  | nil => cases k <;> rfl
  | append_singleton docs e ih =>
    rw [keys_append_new, List.nodup_append] at hnd
    have he : e.1 ∉ keys docs := fun h => hnd.2.2 _ h _ (List.mem_singleton_self _) rfl
    rw [mailboxTree_append, addMailbox, lookup_insert]
    cases k with
    | zero =>
      rw [if_neg (Nat.zero_ne_add_one e.1), ih hnd.1 0]
      rfl
    | succ d =>
      have hget : (⟨docs ++ [e]⟩ : Mailboxes).get d = if d = e.1 then some e.2 else (⟨docs⟩ : Mailboxes).get d :=
        lookup_append_new he _ _
      rw [Mailboxes.up_succ, hget, ih hnd.1, Mailboxes.up_succ]
      by_cases hd : d = e.1 <;> simp [hd]

theorem mem_tree_iff (docs : List (ℕ × Object)) (p c : ℕ) :
    c ∈ ((mailboxTree docs).2.lookup p).getD [] ↔ ∃ d obj, (d, obj) ∈ docs ∧ c = d + 1 ∧ obj.parentId = p := by
  induction docs using List.reverseRecOn with
  | nil => simp [mailboxTree]
  | append_singleton docs e ih =>
    rw [mailboxTree_append, addMailbox, lookup_insertChild]
    obtain ⟨d₀, obj₀⟩ := e
    by_cases hp : p = obj₀.parentId
    · subst hp
      simp only [if_true, Option.getD_some, List.mem_insert_iff, ih, List.mem_append, List.mem_singleton]
      constructor
      · rintro (rfl | ⟨d, obj, hmem, rfl, hpar⟩)
        · exact ⟨d₀, obj₀, .inr rfl, rfl, rfl⟩
        · exact ⟨d, obj, .inl hmem, rfl, hpar⟩
      · rintro ⟨d, obj, hmem | hmem, rfl, hpar⟩
        · exact .inr ⟨d, obj, hmem, rfl, hpar⟩
        · obtain ⟨rfl, rfl⟩ := Prod.mk.inj hmem
          exact .inl rfl
    · rw [if_neg hp, ih]
      constructor
      · rintro ⟨d, obj, hmem, hc, hpar⟩
        exact ⟨d, obj, List.mem_append_left _ hmem, hc, hpar⟩
      · rintro ⟨d, obj, hmem, hc, hpar⟩
        rcases List.mem_append.mp hmem with hmem | hmem
        · exact ⟨d, obj, hmem, hc, hpar⟩
        · obtain ⟨-, rfl⟩ := Prod.mk.inj (List.mem_singleton.mp hmem)
          exact absurd hpar.symm hp

theorem mailboxTree_entries (docs : List (ℕ × Object)) :
    (keys (mailboxTree docs).2).Nodup ∧
      ∀ p cs, (mailboxTree docs).2.lookup p = some cs → cs.Nodup ∧ cs ≠ [] := by
  induction docs using List.reverseRecOn with
  | nil => simp [mailboxTree]
  | append_singleton docs e ih =>
    obtain ⟨hkeys, hvals⟩ := ih
    rw [mailboxTree_append, addMailbox]
    refine ⟨keys_nodup_insertChild hkeys _ _, fun p cs hl => ?_⟩
    rw [lookup_insertChild] at hl
    split_ifs at hl with hp
    · cases hl
      refine ⟨?_, List.ne_nil_of_mem List.mem_insert_self⟩
      cases hl' : (mailboxTree docs).2.lookup e.2.parentId with
      | none => simp
      | some cs' => exact (hvals _ cs' hl').1.insert
    · exact hvals p cs hl

/-! ## A tree of the stored mailboxes -/

/-- A list of parents with their children that holds the stored mailboxes under their parents:
each parent once with a child at least, and each mailbox once. -/
structure TreeOf (s : Mailboxes) (tree : List (ℕ × List ℕ)) : Prop where
  ok : TreeOk tree
  nonempty : ∀ p cs, tree.lookup p = some cs → cs ≠ []
  children : ∀ p c, c ∈ (tree.lookup p).getD [] ↔ ∃ d obj, s.get d = some obj ∧ c = d + 1 ∧ obj.parentId = p

theorem treeOf_mailboxTree {s : Mailboxes} (hnd : s.ids.Nodup) : TreeOf s (mailboxTree s.docs).2 := by
  obtain ⟨hkeys, hvals⟩ := mailboxTree_entries s.docs
  have hchildren : ∀ p c, c ∈ ((mailboxTree s.docs).2.lookup p).getD [] ↔
      ∃ d obj, s.get d = some obj ∧ c = d + 1 ∧ obj.parentId = p := by
    intro p c
    rw [mem_tree_iff]
    simp only [Mailboxes.get, lookup_eq_some_iff_mem hnd]
  refine ⟨⟨hkeys, nodup_flatten_values hkeys (fun p cs hl => (hvals p cs hl).1) ?_⟩,
    fun p cs hl => (hvals p cs hl).2, hchildren⟩
  intro p p' cs cs' hl hl' hne c hc hc'
  obtain ⟨d, obj, hobj, rfl, hpar⟩ := (hchildren p c).mp (by rw [hl]; exact hc)
  obtain ⟨d', obj', hobj', hdd, hpar'⟩ := (hchildren p' (d + 1)).mp (by rw [hl']; exact hc')
  obtain rfl : d = d' := Nat.succ_injective hdd
  rw [hobj, Option.some.injEq] at hobj'
  subst hobj'
  exact hne (hpar.symm.trans hpar')

section TreeOf

variable {s : Mailboxes} {tree : List (ℕ × List ℕ)}

theorem TreeOf.below_of_rooted (ht : TreeOf s tree) {v : ℕ} (h : Rooted s.up (· = 0) v) :
    v = 0 ∨ Below tree v := by
  induction h with
  | root hv => exact .inl hv
  | @up v w hup _ ih =>
    cases v with
    | zero => cases hup
    | succ d =>
      rw [Mailboxes.up_succ] at hup
      obtain ⟨obj, hobj, hw⟩ := Option.map_eq_some_iff.mp hup
      exact .inr (Below.of_parent ih ((ht.children w (d + 1)).mpr ⟨d, obj, hobj, rfl, hw⟩))

theorem TreeOf.budget_le (ht : TreeOf s tree) : budget ⟨tree, [], 0⟩ ≤ 3 * s.ids.length := by
  rw [budget_initial]
  have hchildren : (tree.map Prod.snd).flatten.length ≤ s.ids.length := by
    have hsub : (tree.map Prod.snd).flatten ⊆ s.ids.map (· + 1) := by
      intro c hc
      obtain ⟨cs, hcs, hccs⟩ := List.mem_flatten.mp hc
      obtain ⟨⟨p, cs⟩, hmem, rfl⟩ := List.mem_map.mp hcs
      have hl : tree.lookup p = some cs := (lookup_eq_some_iff_mem ht.ok.keys_nodup).mpr hmem
      obtain ⟨d, obj, hobj, rfl, -⟩ := (ht.children p c).mp (by rw [hl]; exact hccs)
      exact List.mem_map_of_mem (mem_keys_of_lookup hobj)
    simpa using (ht.ok.children_nodup.subperm hsub).length_le
  have hparents : tree.length ≤ s.ids.length := by
    have hsub : keys tree ⊆ s.docs.map fun e => e.2.parentId := by
      intro p hp
      obtain ⟨cs, hl⟩ := lookup_of_mem hp
      obtain ⟨c, hc⟩ := List.exists_mem_of_ne_nil cs (ht.nonempty p cs hl)
      obtain ⟨d, obj, hobj, -, hpar⟩ := (ht.children p c).mp (by rw [hl]; exact hc)
      exact List.mem_map.mpr ⟨(d, obj), mem_of_lookup_eq_some hobj, hpar⟩
    simpa [keys, Mailboxes.ids] using (ht.ok.keys_nodup.subperm hsub).length_le
  omega

end TreeOf

/-! ## `filter_as_tree` -/

/-- The walk up `hierarchy` from one result, for at most `mailbox_max_depth` steps: kept when it
meets the root, dropped at a parent outside the results or at a mailbox without a parent. -/
def keepsInTree (hierarchy : List (ℕ × ℕ)) (results : List UInt32) : ℕ → ℕ → Bool
  | 0, _ => false
  | depth + 1, jmapId =>
    match hierarchy.lookup jmapId with
    | some parentId =>
      if parentId = 0 then true
      else if parentId - 1 ∉ results.map UInt32.toNat then false
      else keepsInTree hierarchy results depth parentId
    | none => false

/-- `filtered_ids`: the results the walk keeps, in ascending order. -/
def filterAsTree (hierarchy : List (ℕ × ℕ)) (maxDepth : ℕ) (results : Bitmap) : Bitmap :=
  ⟨results.ids.filter fun documentId => keepsInTree hierarchy results.ids maxDepth (jmapOf documentId),
    results.sorted.sublist List.filter_sublist⟩

/-- The results, the total and the pagination after `filter_as_tree`: when it dropped some, the
results kept, with the total and the page limit brought down to their number. -/
def applyFilterAsTree (hierarchy : List (ℕ × ℕ)) (maxDepth : ℕ) (results : Bitmap) (total : Option ℕ)
    (paginate : Option (Pagination κ)) : Bitmap × Option ℕ × Option (Pagination κ) :=
  let filtered := filterAsTree hierarchy maxDepth results
  if filtered.len ≠ results.len then
    (filtered, total.map fun _ => filtered.len,
      paginate.map fun pg => if pg.limit > filtered.len then { pg with limit := filtered.len } else pg)
  else (results, total, paginate)

section Filter

variable {hierarchy : List (ℕ × ℕ)} {results : List UInt32}

theorem keepsInTree_succ (depth jmapId : ℕ) :
    keepsInTree hierarchy results (depth + 1) jmapId = true ↔
      ∃ p, hierarchy.lookup jmapId = some p ∧
        (p = 0 ∨ p ≠ 0 ∧ p - 1 ∈ results.map UInt32.toNat ∧ keepsInTree hierarchy results depth p = true) := by
  simp only [keepsInTree]
  cases hierarchy.lookup jmapId with
  | none => simp
  | some p =>
    simp only [Option.some.injEq, exists_eq_left']
    by_cases hp : p = 0
    · simp [hp]
    · by_cases hr : p - 1 ∈ results.map UInt32.toNat
      · simp only [hr, hp, not_true_eq_false, if_false, false_or, ne_eq, not_false_eq_true, true_and]
      · simp only [hr, hp, not_false_eq_true, if_true, false_or, false_and, and_false]
        simp

theorem keepsInTree_mono : ∀ (depth jmapId : ℕ), keepsInTree hierarchy results depth jmapId = true →
    keepsInTree hierarchy results (depth + 1) jmapId = true
  | 0, _, h => by simp [keepsInTree] at h
  | depth + 1, jmapId, h => by
    obtain ⟨p, hl, hp⟩ := (keepsInTree_succ depth jmapId).mp h
    refine (keepsInTree_succ (depth + 1) jmapId).mpr ⟨p, hl, ?_⟩
    rcases hp with hp | ⟨hp, hr, hk⟩
    · exact .inl hp
    · exact .inr ⟨hp, hr, keepsInTree_mono depth p hk⟩

theorem filterAsTree_parent {maxDepth : ℕ} {results : Bitmap} {d : UInt32}
    (hd : d ∈ (filterAsTree hierarchy maxDepth results).ids) :
    ∃ p, hierarchy.lookup (jmapOf d) = some p ∧
      (p = 0 ∨ ∃ e ∈ (filterAsTree hierarchy maxDepth results).ids, jmapOf e = p) := by
  obtain ⟨-, hkeep⟩ := List.mem_filter.mp hd
  cases maxDepth with
  | zero => simp [keepsInTree] at hkeep
  | succ depth =>
    obtain ⟨p, hl, hp⟩ := (keepsInTree_succ depth _).mp hkeep
    refine ⟨p, hl, ?_⟩
    rcases hp with hp | ⟨hp, hr, hk⟩
    · exact .inl hp
    · -- the parent is a result, kept with one step less
      obtain ⟨e, he, hep⟩ := List.mem_map.mp hr
      have hjmap : jmapOf e = p := by simp only [jmapOf]; omega
      exact .inr ⟨e, List.mem_filter.mpr ⟨he, by rw [hjmap]; exact keepsInTree_mono depth p hk⟩, hjmap⟩

/-- Where every mailbox of the hierarchy is a child of its parent in the tree, what the walk keeps
is below the root. -/
theorem below_of_keepsInTree {tree : List (ℕ × List ℕ)}
    (hcons : ∀ j p, hierarchy.lookup j = some p → j ∈ (tree.lookup p).getD []) :
    ∀ (depth jmapId : ℕ), keepsInTree hierarchy results depth jmapId = true → Below tree jmapId
  | 0, _, h => by simp [keepsInTree] at h
  | depth + 1, jmapId, h => by
    obtain ⟨p, hl, hp⟩ := (keepsInTree_succ depth jmapId).mp h
    rcases hp with rfl | ⟨-, -, hk⟩
    · exact .root (hcons _ _ hl)
    · exact .child (below_of_keepsInTree hcons depth p hk) (hcons _ _ hl)

end Filter

theorem TreeOf.mem_of_hierarchy {s : Mailboxes} {tree : List (ℕ × List ℕ)} (ht : TreeOf s tree)
    (hnd : s.ids.Nodup) {j p : ℕ} (h : (mailboxTree s.docs).1.lookup j = some p) :
    j ∈ (tree.lookup p).getD [] := by
  rw [lookup_hierarchy hnd] at h
  cases j with
  | zero => cases h
  | succ d =>
    obtain ⟨obj, hobj, hp⟩ := Option.map_eq_some_iff.mp h
    exact (ht.children p (d + 1)).mpr ⟨d, obj, hobj, rfl, hp⟩

/-- Mailbox 1 under the top-level mailbox 0. -/
def nestedMailboxes : Mailboxes := ⟨[(0, [(.parentId, .id 0)]), (1, [(.parentId, .id 1)])]⟩

/-- Both mailboxes as results. -/
def nestedResults : Bitmap := ⟨[0, 1], by decide⟩

/-- `filter_as_tree` keeps no mailbox with an ancestor outside what it keeps: every ancestor of a
mailbox kept is the root or kept. -/
theorem filterAsTree_ancestors {s : Mailboxes} (hnd : s.ids.Nodup) {maxDepth : ℕ} {results : Bitmap} {d : UInt32}
    (hd : d ∈ (filterAsTree (mailboxTree s.docs).1 maxDepth results).ids) {a : ℕ}
    (ha : Ancestor s.up (jmapOf d) a) :
    a = 0 ∨ ∃ e ∈ (filterAsTree (mailboxTree s.docs).1 maxDepth results).ids, jmapOf e = a := by
  have hstep : ∀ {e : UInt32} {b : ℕ}, e ∈ (filterAsTree (mailboxTree s.docs).1 maxDepth results).ids →
      s.up (jmapOf e) = some b → b = 0 ∨ ∃ e' ∈ (filterAsTree (mailboxTree s.docs).1 maxDepth results).ids, jmapOf e' = b := by
    intro e b he hup
    obtain ⟨p, hl, hp⟩ := filterAsTree_parent he
    rw [lookup_hierarchy hnd, hup, Option.some.injEq] at hl
    exact hl ▸ hp
  induction ha with
  | single hup => exact hstep hd hup
  | tail _ hup ih =>
    rcases ih with rfl | ⟨e, he, rfl⟩
    · cases hup
    · exact hstep he hup

/-- With a depth of 2, mailbox 1 is kept, and so is its parent, mailbox 0. -/
theorem filterAsTree_ancestors_example :
    1 = 0 ∨ ∃ e ∈ (filterAsTree (mailboxTree nestedMailboxes.docs).1 2 nestedResults).ids, jmapOf e = 1 :=
  filterAsTree_ancestors (by decide)
    (show (1 : UInt32) ∈ (filterAsTree (mailboxTree nestedMailboxes.docs).1 2 nestedResults).ids by decide)
    (.single (show nestedMailboxes.up (jmapOf 1) = some 1 by decide))

/-! ## The walk over the mailbox tree -/

/-- The walk of `sortAsTree` over a mailbox set that `Mailbox/set` keeps well formed, given three
passes for each stored mailbox: the pagination is fed every result once, each after its parent
when the parent is a result. -/
theorem querySortAsTree_wellFormed {s : Mailboxes} (hwf : WellFormed s) {tree : List (ℕ × List ℕ)}
    (ht : TreeOf s tree) {ids : List UInt32} (hnd : ids.Nodup) (hids : ∀ d ∈ ids, d.toNat ∈ s.ids)
    {maxDepth : ℕ} (hpasses : 3 * s.ids.length < ids.length * 10 * maxDepth) (pg : Pagination κ) :
    ∃ order : List UInt32, querySortAsTree ids tree maxDepth pg = (feed pg (unprefixed order)).1.build ∧
      order.Perm ids ∧ ∀ before d after, order = before ++ d :: after → ∀ obj, s.get d.toNat = some obj →
        ∀ e ∈ ids, jmapOf e = obj.parentId → e ∈ before := by
  have hn : budget ⟨tree, [], 0⟩ < ids.length * 10 * maxDepth := ht.budget_le.trans_lt hpasses
  have hbelow : ∀ d ∈ ids, Below tree (jmapOf d) := by
    intro d hd
    obtain ⟨obj, hobj⟩ := Mailboxes.get_of_mem_ids (hids d hd)
    exact (ht.below_of_rooted (hwf.rooted _ obj hobj)).resolve_left (Nat.succ_ne_zero _)
  refine ⟨_, by rw [querySortAsTree, sortAsTree_eq_feed], treeOrder_perm ht.ok hnd hbelow hn, ?_⟩
  intro before d after h obj hobj e he hep
  have hchild : jmapOf d ∈ (tree.lookup (jmapOf e)).getD [] :=
    (ht.children _ _).mpr ⟨d.toNat, obj, hobj, rfl, hep.symm⟩
  obtain ⟨e', he', hee'⟩ := treeOrder_parent_first ht.ok ids _ h hchild ⟨e, he, rfl⟩
  exact jmapOf_injective hee' ▸ he'

/-- The inbox that `Mailbox/set` creates in an empty account, alone in the results. -/
theorem querySortAsTree_wellFormed_example :
    let s := (mailboxSet exampleConfig freshId exampleCaller (fun _ => false) ⟨[]⟩ exampleRequest).1
    ∃ order : List UInt32, querySortAsTree [1] (mailboxTree s.docs).2 1 (new 1 0 none 0 : Pagination Unit) =
        (feed (new 1 0 none 0 : Pagination Unit) (unprefixed order)).1.build ∧
      order.Perm [1] ∧ ∀ before d after, order = before ++ d :: after → ∀ obj, s.get d.toNat = some obj →
        ∀ e ∈ [1], jmapOf e = obj.parentId → e ∈ before :=
  have hwf := WellFormed.of_run freshId_not_mem WellFormed.empty
    (.single (.set exampleCaller (fun _ => false) exampleRequest (by decide) (by decide)))
  querySortAsTree_wellFormed hwf (treeOf_mailboxTree hwf.nodup) (by decide)
    (by simp only [List.mem_singleton, forall_eq]; decide) (by decide) _

/-- `Mailbox/query` with `filterAsTree` and `sortAsTree`, given three passes for each stored
mailbox: whatever the sort, the pagination is fed every mailbox the filter keeps once, each with
its parent at the root or fed before it. -/
theorem querySortAsTree_filterAsTree {s : Mailboxes} (hnd : s.ids.Nodup) {tree : List (ℕ × List ℕ)}
    (ht : TreeOf s tree) (results : Bitmap) {maxDepth : ℕ} {ids : List UInt32}
    (hids : ids.Perm (filterAsTree (mailboxTree s.docs).1 maxDepth results).ids)
    (hpasses : 3 * s.ids.length < ids.length * 10 * maxDepth) (pg : Pagination κ) :
    ∃ order : List UInt32, querySortAsTree ids tree maxDepth pg = (feed pg (unprefixed order)).1.build ∧
      order.Perm ids ∧ ∀ before d after, order = before ++ d :: after →
        ∃ obj, s.get d.toNat = some obj ∧ (obj.parentId = 0 ∨ ∃ e ∈ before, jmapOf e = obj.parentId) := by
  set filtered := filterAsTree (mailboxTree s.docs).1 maxDepth results with hfiltered
  have hn : budget ⟨tree, [], 0⟩ < ids.length * 10 * maxDepth := ht.budget_le.trans_lt hpasses
  have hidsnd : ids.Nodup := hids.nodup_iff.mpr (results.sorted.sublist List.filter_sublist).nodup
  have hbelow : ∀ d ∈ ids, Below tree (jmapOf d) := by
    intro d hd
    obtain ⟨-, hkeep⟩ := List.mem_filter.mp (hids.mem_iff.mp hd)
    exact below_of_keepsInTree (fun j p hl => ht.mem_of_hierarchy hnd hl) _ _ hkeep
  refine ⟨_, by rw [querySortAsTree, sortAsTree_eq_feed], treeOrder_perm ht.ok hidsnd hbelow hn, ?_⟩
  intro before d after h
  have hd : d ∈ filtered.ids := hids.mem_iff.mp ((treeOrder_perm ht.ok hidsnd hbelow hn).mem_iff.mp (by simp [h]))
  obtain ⟨p, hl, hp⟩ := filterAsTree_parent hd
  rw [lookup_hierarchy hnd] at hl
  obtain ⟨obj, hobj, rfl⟩ := Option.map_eq_some_iff.mp hl
  refine ⟨obj, hobj, ?_⟩
  rcases hp with hp | ⟨e, he, hep⟩
  · exact .inl hp
  · have hchild : jmapOf d ∈ (tree.lookup (jmapOf e)).getD [] :=
      (ht.children _ _).mpr ⟨d.toNat, obj, hobj, rfl, hep.symm⟩
    exact .inr (hep ▸ treeOrder_parent_first ht.ok ids _ h hchild ⟨e, hids.mem_iff.mpr he, rfl⟩)

/-- Both mailboxes are results and kept with a depth of 2; sorted child first, the walk feeds
the parent first. -/
theorem querySortAsTree_filterAsTree_example :
    ∃ order : List UInt32,
      querySortAsTree [1, 0] (mailboxTree nestedMailboxes.docs).2 2 (new 2 0 none 0 : Pagination Unit) =
        (feed (new 2 0 none 0 : Pagination Unit) (unprefixed order)).1.build ∧
      order.Perm [1, 0] ∧ ∀ before d after, order = before ++ d :: after →
        ∃ obj, nestedMailboxes.get d.toNat = some obj ∧ (obj.parentId = 0 ∨ ∃ e ∈ before, jmapOf e = obj.parentId) :=
  querySortAsTree_filterAsTree (by decide) (treeOf_mailboxTree (by decide)) nestedResults (by decide) (by decide) _

end MailServer.Jmap.MailboxTree
