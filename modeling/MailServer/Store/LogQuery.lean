import MailServer.Store.ChangeLog

/-! # `Store::changes`: a range of the change log

`Store::changes` iterates the log keys of a collection between two change ids,
in ascending order, and deserializes each entry into one list. It records the
last change id read and, as `from_change_id`, the first id read since the list
was last empty; when the list ends empty both ids fall back to the query's.

Because the list was empty just before `from_change_id`, the entries from there
to `to_change_id` alone rebuild the same result: the inclusive range query that
`/changes` uses to resume a cut-off answer returns what the first query did
(`storeChanges_rangeInclusive`).
-/

namespace MailServer.Store.LogQuery

open MailServer.Store.ChangeLog

/-- `query::log::Query`. -/
inductive Query where
  | all
  | since (changeId : UInt64)
  | sinceInclusive (changeId : UInt64)
  | rangeInclusive (fromChangeId toChangeId : UInt64)
  deriving DecidableEq, Repr

/-- `query::log::Changes`: the folded changes of a range, and the first and last
change ids that built them. -/
structure Changelog where
  changes : List Change
  fromChangeId : UInt64
  toChangeId : UInt64
  deriving DecidableEq, Repr

/-- `Changes::default`. -/
def Changelog.default : Changelog := ⟨[], 0, 0⟩

/-- `u64::MAX`. -/
def u64Max : UInt64 := 0xFFFFFFFFFFFFFFFF

/-- The callback of `Store::changes` for the log entry `changeId ↦ value`;
`none` for an entry that does not deserialize (`corrupted_key`). -/
def iterateStep (isInclusive : Bool) (fromChangeId : UInt64) (changelog : Changelog)
    (changeId : UInt64) (value : List UInt8) : Option Changelog :=
  if isInclusive || changeId != fromChangeId then
    let fromId := if changelog.changes.isEmpty then changeId else changelog.fromChangeId
    (deserialize changelog.changes value).map fun changes => ⟨changes, fromId, changeId⟩
  else some changelog

/-- `Store::iterate` over the log entries in range, in ascending order. -/
def iterate (isInclusive : Bool) (fromChangeId : UInt64) :
    Changelog → List (UInt64 × List UInt8) → Option Changelog
  | changelog, [] => some changelog
  | changelog, (changeId, value) :: rest =>
    (iterateStep isInclusive fromChangeId changelog changeId value).bind
      fun changelog => iterate isInclusive fromChangeId changelog rest

/-- The bounds of a query: whether the first change id is read, and the range. -/
def Query.bounds : Query → Bool × UInt64 × UInt64
  | .all => (true, 0, u64Max)
  | .since changeId => (false, changeId, u64Max)
  | .sinceInclusive changeId => (true, changeId, u64Max)
  | .rangeInclusive fromChangeId toChangeId => (true, fromChangeId, toChangeId)

/-- The end of `Store::changes`: an empty answer takes the query's change ids. -/
def patchEmpty (fromChangeId toChangeId : UInt64) (changelog : Changelog) : Changelog :=
  if changelog.changes.isEmpty then
    { changelog with
      fromChangeId := fromChangeId
      toChangeId := if toChangeId != u64Max then toChangeId else fromChangeId }
  else changelog

/-- `Store::changes` over the log of one collection, sorted by change id. -/
def storeChanges (log : List (UInt64 × List UInt8)) (query : Query) : Option Changelog :=
  let (isInclusive, fromChangeId, toChangeId) := query.bounds
  (iterate isInclusive fromChangeId Changelog.default
      (log.filter fun e => fromChangeId ≤ e.1 ∧ e.1 ≤ toChangeId)).map
    (patchEmpty fromChangeId toChangeId)

theorem storeChanges_all (log : List (UInt64 × List UInt8)) :
    storeChanges log .all =
      (iterate true 0 Changelog.default (log.filter fun e => 0 ≤ e.1 ∧ e.1 ≤ u64Max)).map
        (patchEmpty 0 u64Max) := rfl

theorem storeChanges_since (log : List (UInt64 × List UInt8)) (c : UInt64) :
    storeChanges log (.since c) =
      (iterate false c Changelog.default (log.filter fun e => c ≤ e.1 ∧ e.1 ≤ u64Max)).map
        (patchEmpty c u64Max) := rfl

theorem storeChanges_range (log : List (UInt64 × List UInt8)) (f t : UInt64) :
    storeChanges log (.rangeInclusive f t) =
      (iterate true f Changelog.default (log.filter fun e => f ≤ e.1 ∧ e.1 ≤ t)).map
        (patchEmpty f t) := rfl

@[simp] theorem patchEmpty_changes (f t : UInt64) (changelog : Changelog) :
    (patchEmpty f t changelog).changes = changelog.changes := by
  unfold patchEmpty
  split <;> rfl

theorem patchEmpty_of_nil {changelog : Changelog} (h : changelog.changes = []) (f t : UInt64) :
    patchEmpty f t changelog = ⟨[], f, if t != u64Max then t else f⟩ := by
  simp [patchEmpty, h]

theorem storeChanges_all_of_nil {log : List (UInt64 × List UInt8)} {R : Changelog}
    (h : storeChanges log .all = some R) (hR : R.changes = []) : R = ⟨[], 0, 0⟩ := by
  rw [storeChanges_all, Option.map_eq_some_iff] at h
  obtain ⟨R', -, rfl⟩ := h
  rw [patchEmpty_changes] at hR
  rw [patchEmpty_of_nil hR]
  rfl

theorem storeChanges_since_of_nil {log : List (UInt64 × List UInt8)} {c : UInt64} {R : Changelog}
    (h : storeChanges log (.since c) = some R) (hR : R.changes = []) : R = ⟨[], c, c⟩ := by
  rw [storeChanges_since, Option.map_eq_some_iff] at h
  obtain ⟨R', -, rfl⟩ := h
  rw [patchEmpty_changes] at hR
  rw [patchEmpty_of_nil hR]
  rfl

theorem patchEmpty_of_ne_nil {changelog : Changelog} (h : changelog.changes ≠ []) (f t : UInt64) :
    patchEmpty f t changelog = changelog := by
  simp [patchEmpty, List.isEmpty_iff, h]

/-! ## Iterating the entries -/

theorem iterate_cons (b : Bool) (f : UInt64) (changelog : Changelog) (changeId : UInt64)
    (value : List UInt8) (rest : List (UInt64 × List UInt8)) :
    iterate b f changelog ((changeId, value) :: rest) =
      (iterateStep b f changelog changeId value).bind fun c => iterate b f c rest := rfl

theorem iterate_true (f g : UInt64) : iterate true f = iterate true g := by
  funext changelog es
  induction es generalizing changelog with
  | nil => rfl
  | cons e es ih =>
    obtain ⟨changeId, value⟩ := e
    simp only [iterate_cons, iterateStep, Bool.true_or, if_true, ih]

theorem iterate_false (f : UInt64) (changelog : Changelog) (es : List (UInt64 × List UInt8)) :
    iterate false f changelog es = iterate true f changelog (es.filter fun e => e.1 ≠ f) := by
  induction es generalizing changelog with
  | nil => rfl
  | cons e es ih =>
    obtain ⟨changeId, value⟩ := e
    by_cases h : changeId = f
    · simp [iterate_cons, iterateStep, h, ih]
    · simp [iterate_cons, iterateStep, h, ih]

theorem iterateStep_of_changes_nil {c c' : Changelog} (hc : c.changes = []) (hc' : c'.changes = [])
    (f changeId : UInt64) (value : List UInt8) :
    iterateStep true f c changeId value = iterateStep true f c' changeId value := by
  simp [iterateStep, hc, hc']

theorem iterate_toChangeId {f : UInt64} :
    ∀ {changelog R : Changelog} {es : List (UInt64 × List UInt8)} (hes : es ≠ []),
      iterate true f changelog es = some R → R.toChangeId = (es.getLast hes).1
  | _, _, [], hes, _ => absurd rfl hes
  | changelog, R, (changeId, value) :: rest, _, h => by
    rw [iterate_cons] at h
    obtain ⟨c, hc, hrest⟩ := Option.bind_eq_some_iff.mp h
    cases rest with
    | nil =>
      cases hrest
      simp only [iterateStep, Bool.true_or, if_true, Option.map_eq_some_iff] at hc
      obtain ⟨_, _, rfl⟩ := hc
      rfl
    | cons e rest =>
      rw [List.getLast_cons (List.cons_ne_nil e rest)]
      exact iterate_toChangeId (List.cons_ne_nil e rest) hrest

/-- Where `from_change_id` comes from. Either the list was never empty before an
entry and the starting id stays, or it is the id of an entry `e` before which the
list was empty, and the entries from `e` on rebuild the result from any empty
list. -/
theorem iterate_fromChangeId {f : UInt64} :
    ∀ {changelog R : Changelog} {es : List (UInt64 × List UInt8)}, iterate true f changelog es = some R →
      ((changelog.changes ≠ [] ∨ es = []) ∧ R.fromChangeId = changelog.fromChangeId ∧
          ∀ X, iterate true f { changelog with fromChangeId := X } es = some { R with fromChangeId := X }) ∨
      ∃ pre e post, es = pre ++ e :: post ∧ R.fromChangeId = e.1 ∧
          ∀ c : Changelog, c.changes = [] → iterate true f c (e :: post) = some R
  | changelog, R, [], h => by
    cases h
    exact Or.inl ⟨Or.inr rfl, rfl, fun X => rfl⟩
  | changelog, R, (changeId, value) :: rest, h => by
    rw [iterate_cons] at h
    obtain ⟨c, hc, hrest⟩ := Option.bind_eq_some_iff.mp h
    have hstep := hc
    simp only [iterateStep, Bool.true_or, if_true, Option.map_eq_some_iff] at hstep
    obtain ⟨changes, hdes, rfl⟩ := hstep
    rcases iterate_fromChangeId hrest with ⟨-, hfrom, hX⟩ | ⟨pre, e, post, hsplit, hfrom, hpost⟩
    · by_cases hnil : changelog.changes = []
      · -- the list was empty before this entry: the range starts here
        right
        refine ⟨[], (changeId, value), rest, rfl, by simpa [hnil] using hfrom, fun c' hc' => ?_⟩
        rw [iterate_cons, iterateStep_of_changes_nil hc' hnil, hc, Option.bind_some]
        exact hrest
      · left
        refine ⟨Or.inl hnil, by simpa [hnil] using hfrom, fun X => ?_⟩
        rw [iterate_cons]
        simp only [iterateStep, Bool.true_or, if_true, hdes, Option.map_some, Option.bind_some]
        simpa [hnil] using hX X
    · right
      exact ⟨(changeId, value) :: pre, e, post, by rw [hsplit]; rfl, hfrom, hpost⟩

/-! ## Ranges of a sorted log -/

/-- The log of a collection: its change ids strictly increase. -/
def Sorted (log : List (UInt64 × List UInt8)) : Prop :=
  log.Pairwise fun a b => a.1 < b.1

theorem exists_append_filter_lt {log : List (UInt64 × List UInt8)} (hs : Sorted log) (c : UInt64) :
    ∃ A, log = A ++ log.filter fun e => c < e.1 := by
  induction log with
  | nil => exact ⟨[], rfl⟩
  | cons e log ih =>
    obtain ⟨he, hs'⟩ := List.pairwise_cons.mp hs
    by_cases hc : c < e.1
    · -- every later entry is after `e`, so after `c`
      refine ⟨[], ?_⟩
      rw [List.nil_append, List.filter_eq_self.mpr]
      intro x hx
      rcases List.mem_cons.mp hx with rfl | hx
      · simpa using hc
      · simpa using UInt64.lt_trans hc (he x hx)
    · obtain ⟨A, hA⟩ := ih hs'
      exact ⟨e :: A, by rw [List.filter_cons, if_neg (by simpa using hc), List.cons_append, ← hA]⟩

theorem le_getLast_of_mem {l : List (UInt64 × List UInt8)} (hs : Sorted l) (hl : l ≠ [])
    {x : UInt64 × List UInt8} (hx : x ∈ l) : x.1 ≤ (l.getLast hl).1 := by
  have hsplit := List.dropLast_append_getLast hl
  rw [← hsplit] at hx hs
  rcases List.mem_append.mp hx with hx | hx
  · exact UInt64.le_of_lt ((List.pairwise_append.mp hs).2.2 x hx _ List.mem_cons_self)
  · rw [List.mem_singleton.mp hx]
    exact UInt64.le_refl _

/-- In a sorted log, the entries between the first and the last id of a suffix
are that suffix. -/
theorem filter_range_suffix {A post : List (UInt64 × List UInt8)} {e : UInt64 × List UInt8}
    (hs : Sorted (A ++ e :: post)) :
    (A ++ e :: post).filter (fun x => e.1 ≤ x.1 ∧ x.1 ≤ ((e :: post).getLast (List.cons_ne_nil e post)).1) =
      e :: post := by
  obtain ⟨-, hpost, hA⟩ := List.pairwise_append.mp hs
  have hA' : ∀ x ∈ A, ¬ e.1 ≤ x.1 := fun x hx => UInt64.not_le.mpr (hA x hx e List.mem_cons_self)
  rw [List.filter_append, List.filter_eq_nil_iff.mpr (fun x hx => by simp [hA' x hx]), List.nil_append,
    List.filter_eq_self]
  intro x hx
  have hle : e.1 ≤ x.1 := by
    rcases List.mem_cons.mp hx with rfl | hx
    · exact UInt64.le_refl _
    · exact UInt64.le_of_lt ((List.pairwise_cons.mp hpost).1 x hx)
  simpa [hle] using le_getLast_of_mem hpost (List.cons_ne_nil e post) hx

/-! ## Resuming from the range -/

theorem le_u64Max (x : UInt64) : x ≤ u64Max := by
  rw [UInt64.le_iff_toNat_le]
  have := x.toNat_lt
  simp only [u64Max, UInt64.reduceToNat]
  omega

/-- `Query::All` and `Query::Since` read a suffix of a sorted log; with a non-empty
answer, nothing is patched after the iteration. -/
theorem iterate_of_storeChanges {log : List (UInt64 × List UInt8)} (hs : Sorted log) {q : Query}
    (hq : q = .all ∨ ∃ c, q = .since c) {R : Changelog} (h : storeChanges log q = some R)
    (hne : R.changes ≠ []) : ∃ A es, log = A ++ es ∧ iterate true 0 Changelog.default es = some R := by
  rcases hq with rfl | ⟨c, rfl⟩
  · rw [storeChanges_all, Option.map_eq_some_iff] at h
    obtain ⟨R', hit, rfl⟩ := h
    rw [patchEmpty_changes] at hne
    rw [patchEmpty_of_ne_nil hne]
    refine ⟨[], log, rfl, ?_⟩
    rwa [List.filter_eq_self.mpr (fun e _ => by simp [le_u64Max])] at hit
  · rw [storeChanges_since, Option.map_eq_some_iff] at h
    obtain ⟨R', hit, rfl⟩ := h
    rw [patchEmpty_changes] at hne
    rw [patchEmpty_of_ne_nil hne]
    obtain ⟨A, hA⟩ := exists_append_filter_lt hs c
    refine ⟨A, _, hA, ?_⟩
    have hfilter : ((log.filter fun e => c ≤ e.1 ∧ e.1 ≤ u64Max).filter fun e => e.1 ≠ c) =
        log.filter fun e => c < e.1 := by
      rw [List.filter_filter]
      apply List.filter_congr
      intro e _
      have := le_u64Max e.1
      rw [Bool.eq_iff_iff]
      simp only [Bool.and_eq_true, decide_eq_true_eq]
      grind
    rwa [iterate_false, iterate_true c 0, hfilter] at hit

/-- The inclusive range from `from_change_id` to `to_change_id` of a non-empty
answer to `Query::All` or `Query::Since` returns that answer again. -/
theorem storeChanges_rangeInclusive {log : List (UInt64 × List UInt8)} (hs : Sorted log) {q : Query}
    (hq : q = .all ∨ ∃ c, q = .since c) {R : Changelog} (h : storeChanges log q = some R)
    (hne : R.changes ≠ []) :
    R.fromChangeId ≤ R.toChangeId ∧
      storeChanges log (.rangeInclusive R.fromChangeId R.toChangeId) = some R := by
  obtain ⟨A, es, hlog, hit⟩ := iterate_of_storeChanges hs hq h hne
  rcases iterate_fromChangeId hit with ⟨hcases, -, -⟩ | ⟨pre, e, post, hsplit, hfrom, hpost⟩
  · -- from the default the list was empty, so the entries were none: the answer is empty
    have hes : es = [] := hcases.resolve_left (fun h' => h' rfl)
    subst hes
    cases hit
    exact absurd rfl hne
  · have hrun := hpost Changelog.default rfl
    have hto := iterate_toChangeId (List.cons_ne_nil e post) hrun
    have hsorted : Sorted ((A ++ pre) ++ e :: post) := by
      rw [List.append_assoc, ← hsplit, ← hlog]
      exact hs
    have hpost_sorted : Sorted (e :: post) := (List.pairwise_append.mp hsorted).2.1
    refine ⟨?_, ?_⟩
    · rw [hfrom, hto]
      exact le_getLast_of_mem hpost_sorted _ List.mem_cons_self
    · have hlog' : log = (A ++ pre) ++ e :: post := by rw [List.append_assoc, ← hsplit, hlog]
      rw [storeChanges_range, hfrom, hto, hlog', filter_range_suffix hsorted, iterate_true e.1 0, hrun, Option.map_some,
        patchEmpty_of_ne_nil hne]

/-- A non-empty answer to `Query::All` or `Query::Since` ends at the last entry
of the log. -/
theorem storeChanges_toChangeId {log : List (UInt64 × List UInt8)} (hs : Sorted log) {q : Query}
    (hq : q = .all ∨ ∃ c, q = .since c) {R : Changelog} (h : storeChanges log q = some R)
    (hne : R.changes ≠ []) : log.getLast?.map Prod.fst = some R.toChangeId := by
  obtain ⟨A, es, hlog, hit⟩ := iterate_of_storeChanges hs hq h hne
  have hes : es ≠ [] := by
    rintro rfl
    cases hit
    exact hne rfl
  rw [iterate_toChangeId hes hit, hlog, List.getLast?_append_of_ne_nil _ hes,
    List.getLast?_eq_some_getLast hes, Option.map_some]

/-! ## Logs written by `Changes::serialize` -/

/-- The log of a collection as the writer stores it: each change id with its
serialized entry. -/
def encodeLog (entries : List (UInt64 × Changes)) : List (UInt64 × List UInt8) :=
  entries.map fun e => (e.1, serialize e.2)

/-- How many ids the entries of a log hold. -/
def idCount (entries : List (UInt64 × Changes)) : ℕ :=
  (entries.flatMap fun e => e.2.toList).length

theorem filter_encodeLog (entries : List (UInt64 × Changes)) (p : UInt64 → Bool) :
    (encodeLog entries).filter (fun e => p e.1) = encodeLog (entries.filter fun e => p e.1) := by
  simp [encodeLog, List.filter_map, Function.comp_def]

theorem idCount_filter_le (entries : List (UInt64 × Changes)) (p : UInt64 × Changes → Bool) :
    idCount (entries.filter p) ≤ idCount entries := by
  induction entries with
  | nil => exact Nat.le_refl 0
  | cons e entries ih =>
    simp only [idCount] at ih ⊢
    rw [List.filter_cons]
    split <;> simp only [List.flatMap_cons, List.length_append] <;> omega

theorem iterate_encodeLog (b : Bool) (f : UInt64) :
    ∀ (changelog : Changelog) (entries : List (UInt64 × Changes)),
      ∃ R, iterate b f changelog (encodeLog entries) = some R ∧
        R.changes.length ≤ changelog.changes.length + idCount entries
  | changelog, [] => ⟨changelog, rfl, Nat.le_add_right _ _⟩
  | changelog, (changeId, c) :: entries => by
    have hcount : idCount ((changeId, c) :: entries) = c.toList.length + idCount entries := by
      simp [idCount]
    by_cases hread : (b || changeId != f) = true
    · obtain ⟨R, hR, hlen⟩ := iterate_encodeLog b f
        ⟨c.toList.foldl applyChange changelog.changes,
          if changelog.changes.isEmpty then changeId else changelog.fromChangeId, changeId⟩ entries
      refine ⟨R, ?_, ?_⟩
      · simp only [encodeLog, List.map_cons] at hR ⊢
        rw [iterate_cons, iterateStep, if_pos hread, deserialize_serialize, Option.map_some,
          Option.bind_some]
        exact hR
      · have := length_foldl_applyChange_le c.toList changelog.changes
        simp only at hlen
        omega
    · obtain ⟨R, hR, hlen⟩ := iterate_encodeLog b f changelog entries
      refine ⟨R, ?_, by omega⟩
      simp only [encodeLog, List.map_cons] at hR ⊢
      rw [iterate_cons, iterateStep, if_neg hread, Option.bind_some]
      exact hR

/-- `Store::changes` on a serialized log answers every query, with at most as
many changes as the log has ids. -/
theorem storeChanges_encodeLog (entries : List (UInt64 × Changes)) (q : Query) :
    ∃ R, storeChanges (encodeLog entries) q = some R ∧ R.changes.length ≤ idCount entries := by
  rcases hb : q.bounds with ⟨b, f, t⟩
  obtain ⟨R, hR, hlen⟩ := iterate_encodeLog b f Changelog.default
    (entries.filter fun e => f ≤ e.1 ∧ e.1 ≤ t)
  refine ⟨patchEmpty f t R, ?_, ?_⟩
  · unfold storeChanges
    rw [hb]
    dsimp only
    rw [filter_encodeLog (p := fun x => decide (f ≤ x ∧ x ≤ t)), hR]
    rfl
  · rw [patchEmpty_changes]
    have := idCount_filter_le entries (fun e => decide (f ≤ e.1 ∧ e.1 ≤ t))
    simp only [Changelog.default, List.length_nil, Nat.zero_add] at hlen
    omega

end MailServer.Store.LogQuery
