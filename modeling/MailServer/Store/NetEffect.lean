import MailServer.Store.ChangeLog

/-! # The net effect of a range of the change log

A history of a collection is a list of entries, each consistent with the ids
live before it: its inserts are new ids, its updates, child updates and deletes
are of live ids. What `Store::changes` should return for such a history is, for
every id, its net change: `Insert` for an id created in the range, `Delete` for
one that was live before it and is gone, `Delete` then `Insert` for one deleted
and created again, and otherwise one `Update`, one `ChildUpdate` or nothing.

The proof follows one id at a time. `Track` is what the history did to that id
so far; the list of the id's changes is always `Track.expected` of it, and each
allowed change moves both in step (`applyChange_expected`).
-/

namespace MailServer.Store.NetEffect

open MailServer.Store.ChangeLog

/-! ## The net change of one id -/

/-- The changes the list should hold for `x`: whether it was live before the
range and after it, and whether the range deleted, updated or child-updated it. -/
def netChange (x : UInt64) (before after deleted updated childUpdated : Bool) : List Change :=
  match before, after with
  | false, true => [.insert x]
  | false, false => []
  | true, false => [.delete x]
  | true, true =>
    if deleted then [.delete x, .insert x]
    else if updated then [.update x]
    else if childUpdated then [.childUpdate x]
    else []

/-- What the changes of the range so far did to one id. An id that was live and
is gone was deleted. -/
structure Track where
  start : Bool
  live : Bool
  deleted : Bool
  updated : Bool
  childUpdated : Bool
  deleted_of_gone : start = true → live = false → deleted = true

/-- An id before the range. -/
def Track.init (live : Bool) : Track where
  start := live
  live := live
  deleted := false
  updated := false
  childUpdated := false
  deleted_of_gone := fun h1 h2 => by rw [h1] at h2; cases h2

/-- One change of the id. -/
def Track.step (t : Track) : Change → Track
  | .insert _ => { t with live := true, deleted_of_gone := fun _ h => by cases h }
  | .update _ => { t with updated := true }
  | .childUpdate _ => { t with childUpdated := true }
  | .delete _ => { t with live := false, deleted := true, deleted_of_gone := fun _ _ => rfl }

/-- A change the id's state allows: an insert of an id that is not live, any
other change of a live one. -/
def Track.allows (t : Track) : Change → Bool
  | .insert _ => !t.live
  | .update _ | .childUpdate _ | .delete _ => t.live

/-- Every change of `ops` allowed when it comes. -/
def Track.allowsAll : Track → List Change → Bool
  | _, [] => true
  | t, c :: cs => t.allows c && (t.step c).allowsAll cs

/-- The five facts a track records. -/
def Track.view (t : Track) : Bool × Bool × Bool × Bool × Bool :=
  (t.start, t.live, t.deleted, t.updated, t.childUpdated)

def Track.expected (x : UInt64) (t : Track) : List Change :=
  netChange x t.start t.live t.deleted t.updated t.childUpdated

theorem Track.expected_of_view {t : Track} {a b c d e : Bool} (h : t.view = (a, b, c, d, e))
    (x : UInt64) : t.expected x = netChange x a b c d e := by
  simp only [Track.view, Prod.mk.injEq] at h
  simp [Track.expected, h]

theorem Track.allowsAll_append (t : Track) (a b : List Change) :
    t.allowsAll (a ++ b) = (t.allowsAll a && (a.foldl Track.step t).allowsAll b) := by
  induction a generalizing t with
  | nil => simp [Track.allowsAll]
  | cons c a ih => simp [Track.allowsAll, ih, Bool.and_assoc]

@[simp] theorem Track.expected_init (x : UInt64) (live : Bool) : (Track.init live).expected x = [] := by
  cases live <;> rfl

/-- The step lemma: an allowed change of `x` turns the list `x`'s track expects
into the one it expects after the change. -/
theorem applyChange_expected (x : UInt64) (t : Track) (c : Change) (hc : c.id = x)
    (ha : t.allows c = true) : applyChange (t.expected x) c = (t.step c).expected x := by
  obtain ⟨start, live, deleted, updated, childUpdated, hinv⟩ := t
  revert hinv ha
  cases c with
  | insert i =>
    cases hc
    cases start <;> cases live <;> cases deleted <;> simp [Track.allows, Track.step, Track.expected,
      netChange, applyChange]
  | update i =>
    cases hc
    cases start <;> cases live <;> cases deleted <;> cases updated <;> cases childUpdated <;>
      simp [Track.allows, Track.step, Track.expected, netChange, applyChange, updateStep,
        updateScan]
  | childUpdate i =>
    cases hc
    cases start <;> cases live <;> cases deleted <;> cases updated <;> cases childUpdated <;>
      simp [Track.allows, Track.step, Track.expected, netChange, applyChange, updateStep,
        updateScan]
  | delete i =>
    cases hc
    cases start <;> cases live <;> cases deleted <;> cases updated <;> cases childUpdated <;>
      simp [Track.allows, Track.step, Track.expected, netChange, applyChange, deleteStep,
        deleteScan]

/-- The run lemma: along changes of `x` each allowed when it comes, the list of
`x`'s changes stays the one its track expects. -/
theorem foldl_applyChange_expected (x : UInt64) :
    ∀ (ops : List Change) (t : Track), (∀ c ∈ ops, c.id = x) → t.allowsAll ops = true →
      ops.foldl applyChange (t.expected x) = (ops.foldl Track.step t).expected x
  | [], _, _, _ => rfl
  | c :: ops, t, hid, ha => by
    simp only [Track.allowsAll, Bool.and_eq_true] at ha
    rw [List.foldl_cons, applyChange_expected x t c (hid c List.mem_cons_self) ha.1, List.foldl_cons]
    exact foldl_applyChange_expected x ops (t.step c) (fun c' h => hid c' (List.mem_cons_of_mem _ h)) ha.2

/-! ## Histories -/

/-- The ids live after an entry: its inserts are added, its deletes removed. -/
def liveAfter (c : Changes) (live : UInt64 → Bool) (y : UInt64) : Bool :=
  (live y || decide (y ∈ c.inserts)) && !decide (y ∈ c.deletes)

/-- An entry that the ids live before it allow: it inserts new ids, and updates,
child-updates and deletes live ones. -/
def Consistent (c : Changes) (live : UInt64 → Bool) : Prop :=
  (∀ y ∈ c.inserts, live y = false) ∧ (∀ y ∈ c.updates, live y = true) ∧
    (∀ y ∈ c.childUpdates, live y = true) ∧ (∀ y ∈ c.deletes, live y = true)

/-- A history from the live ids `live`: each entry consistent with the ids the
entries before it leave live. -/
def History : (UInt64 → Bool) → List Changes → Prop
  | _, [] => True
  | live, c :: cs => Consistent c live ∧ History (liveAfter c live) cs

/-- The ids live after a history. -/
def liveAfterAll : (UInt64 → Bool) → List Changes → UInt64 → Bool
  | live, [] => live
  | live, c :: cs => liveAfterAll (liveAfter c live) cs

def deletedIn (entries : List Changes) (x : UInt64) : Bool :=
  entries.any fun c => decide (x ∈ c.deletes)

def updatedIn (entries : List Changes) (x : UInt64) : Bool :=
  entries.any fun c => decide (x ∈ c.updates)

def childUpdatedIn (entries : List Changes) (x : UInt64) : Bool :=
  entries.any fun c => decide (x ∈ c.childUpdates)

theorem ofId_map_of_nodup {l : List UInt64} (hl : l.Nodup) (f : UInt64 → Change)
    (hf : ∀ y, (f y).id = y) (x : UInt64) : ofId x (l.map f) = if x ∈ l then [f x] else [] := by
  induction l with
  | nil => rfl
  | cons y l ih =>
    obtain ⟨hy, hl⟩ := List.nodup_cons.mp hl
    rw [List.map_cons, ofId_cons, hf, ih hl]
    by_cases hyx : y = x
    · subst hyx
      simp [hy]
    · simp [hyx, Ne.symm hyx]

theorem ofId_toList (c : Changes) (x : UInt64) :
    ofId x c.toList =
      (if x ∈ c.inserts then [.insert x] else []) ++ (if x ∈ c.updates then [.update x] else []) ++
        (if x ∈ c.childUpdates then [.childUpdate x] else []) ++
        (if x ∈ c.deletes then [.delete x] else []) := by
  simp only [Changes.toList, ofId_append]
  rw [ofId_map_of_nodup c.inserts_nodup _ (fun _ => rfl), ofId_map_of_nodup c.updates_nodup _ (fun _ => rfl),
    ofId_map_of_nodup c.childUpdates_nodup _ (fun _ => rfl), ofId_map_of_nodup c.deletes_nodup _ (fun _ => rfl)]

/-- One consistent entry: its changes of `x` are allowed, and the track records
what the entry did to `x`. -/
theorem entry_track {c : Changes} {live : UInt64 → Bool} (hc : Consistent c live) (x : UInt64)
    (t : Track) (ht : t.live = live x) :
    t.allowsAll (ofId x c.toList) = true ∧
      ((ofId x c.toList).foldl Track.step t).view =
        (t.start, liveAfter c live x, t.deleted || decide (x ∈ c.deletes),
          t.updated || decide (x ∈ c.updates), t.childUpdated || decide (x ∈ c.childUpdates)) := by
  obtain ⟨hI, hU, hC, hD⟩ := hc
  rw [ofId_toList]
  cases hlive : live x with
  | false =>
    have hxU : x ∉ c.updates := fun h => by simp [hU x h] at hlive
    have hxC : x ∉ c.childUpdates := fun h => by simp [hC x h] at hlive
    have hxD : x ∉ c.deletes := fun h => by simp [hD x h] at hlive
    by_cases hxI : x ∈ c.inserts <;>
      simp [hxI, hxU, hxC, hxD, Track.allowsAll, Track.allows, Track.step, Track.view,
        liveAfter, ht, hlive]
  | true =>
    have hxI : x ∉ c.inserts := fun h => by simp [hI x h] at hlive
    by_cases hxU : x ∈ c.updates <;> by_cases hxC : x ∈ c.childUpdates <;>
      by_cases hxD : x ∈ c.deletes <;>
      simp [hxI, hxU, hxC, hxD, Track.allowsAll, Track.allows, Track.step, Track.view,
        liveAfter, ht, hlive]

/-- The run lemma over a history: every change of `x` is allowed when it comes,
and the track records what the history did to `x`. -/
theorem history_track (x : UInt64) :
    ∀ (live : UInt64 → Bool) (entries : List Changes) (t : Track), History live entries →
      t.live = live x →
      t.allowsAll (ofId x (entries.flatMap Changes.toList)) = true ∧
        ((ofId x (entries.flatMap Changes.toList)).foldl Track.step t).view =
          (t.start, liveAfterAll live entries x, t.deleted || deletedIn entries x,
            t.updated || updatedIn entries x, t.childUpdated || childUpdatedIn entries x)
  | live, [], t, _, ht => by
    simp [Track.allowsAll, Track.view, liveAfterAll, deletedIn, updatedIn, childUpdatedIn, ht]
  | live, c :: cs, t, ⟨hc, hcs⟩, ht => by
    obtain ⟨ha, hview⟩ := entry_track hc x t ht
    have ht1 : ((ofId x c.toList).foldl Track.step t).live = liveAfter c live x :=
      congrArg (fun v => v.2.1) hview
    obtain ⟨ha', hview'⟩ := history_track x (liveAfter c live) cs _ hcs ht1
    rw [List.flatMap_cons, ofId_append, Track.allowsAll_append, List.foldl_append, ha, ha', hview']
    simp only [Track.view, Prod.mk.injEq] at hview
    simp [liveAfterAll, deletedIn, updatedIn, childUpdatedIn, hview, Bool.or_assoc]

theorem netChange_nodup (x : UInt64) (before after deleted updated childUpdated : Bool) :
    (netChange x before after deleted updated childUpdated).Nodup := by
  unfold netChange
  split
  · simp
  · simp
  · simp
  · split_ifs <;> simp

theorem nodup_of_ofId {l : List Change} (h : ∀ x, (ofId x l).Nodup) : l.Nodup := by
  rw [List.nodup_iff_count_le_one]
  intro c
  have hc := List.nodup_iff_count_le_one.mp (h c.id) c
  rwa [ofId, List.count_filter (by simp)] at hc

/-- `Store::changes` over the serialized entries of a history returns, for every
id, its net change, and no change twice. -/
theorem foldDeserialize_netChange (live : UInt64 → Bool) (entries : List Changes)
    (h : History live entries) :
    ∃ changes, foldDeserialize (entries.map serialize) [] = some changes ∧ changes.Nodup ∧
      ∀ x, ofId x changes = netChange x (live x) (liveAfterAll live entries x) (deletedIn entries x)
        (updatedIn entries x) (childUpdatedIn entries x) := by
  have hx : ∀ x, ofId x ((entries.flatMap Changes.toList).foldl applyChange []) =
      netChange x (live x) (liveAfterAll live entries x) (deletedIn entries x) (updatedIn entries x)
        (childUpdatedIn entries x) := by
    intro x
    obtain ⟨ha, hview⟩ := history_track x live entries (Track.init (live x)) h rfl
    have hid : ∀ c ∈ ofId x (entries.flatMap Changes.toList), c.id = x := fun c hc => by
      simpa using (List.mem_filter.mp hc).2
    rw [ofId_foldl_applyChange, ofId_nil, ← Track.expected_init x (live x),
      foldl_applyChange_expected x _ _ hid ha, Track.expected_of_view hview]
    simp [Track.init]
  refine ⟨_, foldDeserialize_map_serialize entries [], nodup_of_ofId fun x => ?_, hx⟩
  rw [hx]
  exact netChange_nodup _ _ _ _ _ _

/-- The history from the live id `7` that inserts `5` and updates `7`, then
updates `5` and deletes `7`. -/
theorem foldDeserialize_netChange_insert_delete :
    let entries : List Changes :=
      [⟨[5], [7], [], [], by decide, by decide, by decide, by decide, by decide⟩,
        ⟨[], [5], [7], [], by decide, by decide, by decide, by decide, by decide⟩]
    History (fun y => decide (y = 7)) entries ∧
      ∃ changes, foldDeserialize (entries.map serialize) [] = some changes ∧ changes.Nodup ∧
        ∀ x, ofId x changes = netChange x (decide (x = 7)) (liveAfterAll (fun y => decide (y = 7)) entries x)
          (deletedIn entries x) (updatedIn entries x) (childUpdatedIn entries x) := by
  intro entries
  have h : History (fun y => decide (y = 7)) entries := by
    simp [entries, History, Consistent, liveAfter]
  exact ⟨h, foldDeserialize_netChange _ _ h⟩

end MailServer.Store.NetEffect
