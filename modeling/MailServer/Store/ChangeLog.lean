import MailServer.Utils.Leb128

/-! # The change log of a collection

`Changes::serialize` (in `write::log`) writes one change of a collection as four
LEB128 counts and then the inserted, updated, child-updated and deleted ids.
`Changes::deserialize` (in `query::log`) folds such an entry into the list of
changes read so far: an update of an id inserted in the range is dropped, an
earlier update of the id is moved to the back, a delete cancels an insert of the
range or replaces an update.

Reading back what was written applies the entry's ids one by one, in the order
inserts, updates, child updates, deletes (`deserialize_serialize`), and each id's
part of the list only depends on the changes of that id (`ofId_foldl_applyChange`).
-/

namespace MailServer.Store.ChangeLog

open MailServer.Utils.Leb128

/-- `query::log::Change`. -/
inductive Change where
  | insert (id : UInt64)
  | update (id : UInt64)
  | childUpdate (id : UInt64)
  | delete (id : UInt64)
  deriving DecidableEq, Repr

/-- `Change::id`. -/
def Change.id : Change → UInt64
  | .insert id | .update id | .childUpdate id | .delete id => id

@[simp] theorem Change.id_insert (id : UInt64) : (Change.insert id).id = id := rfl
@[simp] theorem Change.id_update (id : UInt64) : (Change.update id).id = id := rfl
@[simp] theorem Change.id_childUpdate (id : UInt64) : (Change.childUpdate id).id = id := rfl
@[simp] theorem Change.id_delete (id : UInt64) : (Change.delete id).id = id := rfl

/-- `write::log::Changes`: the ids one change of a collection inserts, updates,
child-updates and deletes. Each is an `AHashSet`, here the list of its distinct
elements in iteration order; a set in memory holds fewer than `usize::MAX`
elements in all. -/
structure Changes where
  inserts : List UInt64
  updates : List UInt64
  deletes : List UInt64
  childUpdates : List UInt64
  inserts_nodup : inserts.Nodup
  updates_nodup : updates.Nodup
  deletes_nodup : deletes.Nodup
  childUpdates_nodup : childUpdates.Nodup
  length_lt : inserts.length + updates.length + childUpdates.length + deletes.length < 2 ^ 64

/-- `Serialize for &Changes`: the four counts, then the ids of each set. -/
def serialize (c : Changes) : List UInt8 :=
  toLeb128Bytes (UInt64.ofNat c.inserts.length) ++ toLeb128Bytes (UInt64.ofNat c.updates.length) ++
    toLeb128Bytes (UInt64.ofNat c.childUpdates.length) ++
    toLeb128Bytes (UInt64.ofNat c.deletes.length) ++
    [c.inserts, c.updates, c.childUpdates, c.deletes].flatMap fun list => list.flatMap toLeb128Bytes

/-! ## `Changes::deserialize` -/

/-- The scan of `'update_outer` over the changes read so far: `none` when it
meets an `Insert` of `id` (`continue 'update_outer`), otherwise the changes
without the first `Update` or `ChildUpdate` of `id`, and whether that one was an
`Update`. -/
def updateScan (id : UInt64) : List Change → Option (List Change × Bool)
  | [] => some ([], false)
  | c :: cs =>
    let keep := (updateScan id cs).map fun r => (c :: r.1, r.2)
    match c with
    | .insert i => if i = id then none else keep
    | .update i => if i = id then some (cs, true) else keep
    | .childUpdate i => if i = id then some (cs, false) else keep
    | .delete _ => keep

/-- One round of `'update_outer` for `id`; `isChildUpdate` is
`change_pos >= total_updates`, and a removed `Update` makes it `false`. -/
def updateStep (changes : List Change) (id : UInt64) (isChildUpdate : Bool) : List Change :=
  match updateScan id changes with
  | none => changes
  | some (changes, wasUpdate) =>
    changes ++ [if !(isChildUpdate && !wasUpdate) then .update id else .childUpdate id]

/-- The scan `'delete_inner`: the changes without the first `Insert`, `Update`
or `ChildUpdate` of `id`, and whether a `Delete` is still pushed (not after an
`Insert` is removed: `continue 'delete_outer`). -/
def deleteScan (id : UInt64) : List Change → List Change × Bool
  | [] => ([], true)
  | c :: cs =>
    let keep := (c :: (deleteScan id cs).1, (deleteScan id cs).2)
    match c with
    | .insert i => if i = id then (cs, false) else keep
    | .update i | .childUpdate i => if i = id then (cs, true) else keep
    | .delete _ => keep

/-- One round of `'delete_outer` for `id`. -/
def deleteStep (changes : List Change) (id : UInt64) : List Change :=
  if (deleteScan id changes).2 then (deleteScan id changes).1 ++ [.delete id]
  else (deleteScan id changes).1

/-- `for pos in 0..n { let id = bytes_it.next_leb128()?; … }`: `n` ids read in
turn, each folded into the changes with its position. -/
def readEach (step : List Change → ℕ → UInt64 → List Change) :
    ℕ → ℕ → List UInt8 → List Change → Option (List UInt8 × List Change)
  | 0, _, bytes, changes => some (bytes, changes)
  | n + 1, pos, bytes, changes =>
    match nextLeb128 bytes with
    | none => none
    | some (id, bytes) => readEach step n (pos + 1) bytes (step changes pos id)

/-- `Changes::deserialize`: the entry `bytes` folded into `changes`; `none` when
the bytes end early. The `total_* > 0` guards of the source only skip loops that
would run zero times. -/
def deserialize (changes : List Change) (bytes : List UInt8) : Option (List Change) := do
  let (totalInserts, bytes) ← nextLeb128 bytes
  let (totalUpdates, bytes) ← nextLeb128 bytes
  let (totalChildUpdates, bytes) ← nextLeb128 bytes
  let (totalDeletes, bytes) ← nextLeb128 bytes
  let (bytes, changes) ← readEach (fun cs _ id => cs ++ [.insert id]) totalInserts.toNat 0 bytes changes
  let (bytes, changes) ← readEach (fun cs pos id => updateStep cs id (decide (totalUpdates.toNat ≤ pos)))
    (totalUpdates.toNat + totalChildUpdates.toNat) 0 bytes changes
  let (_, changes) ← readEach (fun cs _ id => deleteStep cs id) totalDeletes.toNat 0 bytes changes
  return changes

/-- The log entries of a range deserialized in turn into one list, as
`Store::changes` does from an empty list. -/
def foldDeserialize : List (List UInt8) → List Change → Option (List Change)
  | [], changes => some changes
  | bytes :: rest, changes => (deserialize changes bytes).bind (foldDeserialize rest)

/-! ## The entry as a sequence of single changes -/

/-- What one id of an entry does to the list, as `deserialize` applies it. -/
def applyChange (changes : List Change) : Change → List Change
  | .insert id => changes ++ [.insert id]
  | .update id => updateStep changes id false
  | .childUpdate id => updateStep changes id true
  | .delete id => deleteStep changes id

/-- The ids of an entry in the order `deserialize` reads them. -/
def Changes.toList (c : Changes) : List Change :=
  c.inserts.map .insert ++ c.updates.map .update ++ c.childUpdates.map .childUpdate ++
    c.deletes.map .delete

theorem toList_foldl (c : Changes) (changes : List Change) :
    c.toList.foldl applyChange changes =
      c.deletes.foldl deleteStep (c.childUpdates.foldl (fun cs id => updateStep cs id true)
        (c.updates.foldl (fun cs id => updateStep cs id false)
          (c.inserts.foldl (fun cs id => cs ++ [.insert id]) changes))) := by
  simp only [Changes.toList, List.foldl_append, List.foldl_map, applyChange]

/-! ## Reading back what was written -/

/-- Reading `ids.length` ids from their encodings folds them in, with their
positions from `pos`. -/
theorem readEach_flatMap (step : List Change → ℕ → UInt64 → List Change) (ids : List UInt64)
    (pos : ℕ) (rest : List UInt8) (changes : List Change) :
    readEach step ids.length pos (ids.flatMap toLeb128Bytes ++ rest) changes =
      some (rest, (ids.zipIdx pos).foldl (fun cs p => step cs p.2 p.1) changes) := by
  induction ids generalizing pos changes with
  | nil => rfl
  | cons id ids ih =>
    rw [List.length_cons, readEach, List.flatMap_cons, List.append_assoc, nextLeb128_toLeb128Bytes]
    dsimp only
    rw [ih, List.zipIdx_cons, List.foldl_cons]

theorem foldl_zipIdx_of_forall {g : List Change → UInt64 × ℕ → List Change}
    {f : List Change → UInt64 → List Change} (ids : List UInt64) (pos : ℕ)
    (h : ∀ cs id p, pos ≤ p → p < pos + ids.length → g cs (id, p) = f cs id) (changes : List Change) :
    (ids.zipIdx pos).foldl g changes = ids.foldl f changes := by
  rw [List.foldl_ext _ (fun cs p => f cs p.1), ← List.foldl_map (f := Prod.fst) (g := f),
    List.zipIdx_map_fst]
  intro cs p hp
  have hbound := List.mem_zipIdx hp
  exact h cs p.1 p.2 hbound.1 hbound.2.1

theorem toNat_ofNat_length {l : List UInt64} (h : l.length < 2 ^ 64) :
    (UInt64.ofNat l.length).toNat = l.length := by
  rw [UInt64.toNat_ofNat', Nat.mod_eq_of_lt h]

/-- `deserialize` reads back what `serialize` wrote, as the entry's ids applied
one by one. -/
theorem deserialize_serialize (c : Changes) (changes : List Change) :
    deserialize changes (serialize c) = some (c.toList.foldl applyChange changes) := by
  have hlen := c.length_lt
  have hI := toNat_ofNat_length (l := c.inserts) (by omega)
  have hU := toNat_ofNat_length (l := c.updates) (by omega)
  have hC := toNat_ofNat_length (l := c.childUpdates) (by omega)
  have hD := toNat_ofNat_length (l := c.deletes) (by omega)
  have hupd : ((c.updates ++ c.childUpdates).zipIdx 0).foldl
      (fun cs p => updateStep cs p.1 (decide (c.updates.length ≤ p.2)))
        (c.inserts.foldl (fun cs id => cs ++ [.insert id]) changes) =
      c.childUpdates.foldl (fun cs id => updateStep cs id true)
        (c.updates.foldl (fun cs id => updateStep cs id false)
          (c.inserts.foldl (fun cs id => cs ++ [.insert id]) changes)) := by
    rw [List.zipIdx_append, List.foldl_append,
      foldl_zipIdx_of_forall (f := fun cs id => updateStep cs id false) c.updates 0
        (fun cs id p _ hp => by rw [decide_eq_false (by omega)]),
      foldl_zipIdx_of_forall (f := fun cs id => updateStep cs id true) c.childUpdates _
        (fun cs id p hp _ => by rw [decide_eq_true (by omega)])]
  simp only [deserialize, serialize, List.flatMap_cons, List.flatMap_nil, List.append_nil,
    List.append_assoc, nextLeb128_toLeb128Bytes, hI, hU, hC, hD, Option.pure_def, Option.bind_eq_bind,
    Option.bind_some]
  rw [readEach_flatMap, Option.bind_some]
  rw [← List.length_append, ← List.append_assoc, ← List.flatMap_append, readEach_flatMap, Option.bind_some]
  rw [← List.append_nil (List.flatMap toLeb128Bytes c.deletes), readEach_flatMap, Option.bind_some]
  dsimp only
  rw [foldl_zipIdx_of_forall (f := fun cs id => cs ++ [.insert id]) c.inserts 0 (fun _ _ _ _ _ => rfl),
    hupd, foldl_zipIdx_of_forall (f := deleteStep) c.deletes 0 (fun _ _ _ _ _ => rfl), toList_foldl]

/-! ## Each id on its own -/

/-- The changes of id `x`, in order. -/
def ofId (x : UInt64) (changes : List Change) : List Change :=
  changes.filter fun c => c.id = x

@[simp] theorem ofId_nil (x : UInt64) : ofId x [] = [] := rfl

@[simp] theorem ofId_append (x : UInt64) (a b : List Change) :
    ofId x (a ++ b) = ofId x a ++ ofId x b :=
  List.filter_append a b

theorem ofId_cons (x : UInt64) (c : Change) (cs : List Change) :
    ofId x (c :: cs) = if c.id = x then c :: ofId x cs else ofId x cs := by
  by_cases h : c.id = x <;> simp [ofId, h]

@[simp] theorem ofId_singleton (x : UInt64) (c : Change) :
    ofId x [c] = if c.id = x then [c] else [] := by
  by_cases h : c.id = x <;> simp [ofId, h]

theorem ofId_updateScan_ne {id x : UInt64} (h : id ≠ x) :
    ∀ {cs : List Change} {r : List Change × Bool}, updateScan id cs = some r → ofId x r.1 = ofId x cs
  | [], r, hs => by
    simp only [updateScan, Option.some.injEq] at hs
    rw [← hs]
  | c :: cs, r, hs => by
    have keep : ∀ r', updateScan id cs = some r' → ofId x (c :: r'.1) = ofId x (c :: cs) := by
      intro r' hr'
      rw [ofId_cons, ofId_cons, ofId_updateScan_ne h hr']
    cases c with
    | insert i =>
      by_cases hi : i = id
      · simp [updateScan, hi] at hs
      · simp only [updateScan, hi, if_false, Option.map_eq_some_iff] at hs
        obtain ⟨r', hr', rfl⟩ := hs
        exact keep r' hr'
    | update i =>
      by_cases hi : i = id
      · simp only [updateScan, hi, if_true, Option.some.injEq] at hs
        rw [← hs, ofId_cons, if_neg (by simp [Change.id, hi, h])]
      · simp only [updateScan, hi, if_false, Option.map_eq_some_iff] at hs
        obtain ⟨r', hr', rfl⟩ := hs
        exact keep r' hr'
    | childUpdate i =>
      by_cases hi : i = id
      · simp only [updateScan, hi, if_true, Option.some.injEq] at hs
        rw [← hs, ofId_cons, if_neg (by simp [Change.id, hi, h])]
      · simp only [updateScan, hi, if_false, Option.map_eq_some_iff] at hs
        obtain ⟨r', hr', rfl⟩ := hs
        exact keep r' hr'
    | delete i =>
      simp only [updateScan, Option.map_eq_some_iff] at hs
      obtain ⟨r', hr', rfl⟩ := hs
      exact keep r' hr'

theorem updateScan_ofId (id : UInt64) :
    ∀ cs : List Change, updateScan id (ofId id cs) = (updateScan id cs).map fun r => (ofId id r.1, r.2)
  | [] => rfl
  | c :: cs => by
    have ih := updateScan_ofId id cs
    cases c with
    | insert i =>
      by_cases hi : i = id
      · simp [ofId_cons, updateScan, Change.id, hi]
      · simp [ofId_cons, updateScan, Change.id, hi, ih, Option.map_map, Function.comp_def]
    | update i =>
      by_cases hi : i = id
      · simp [ofId_cons, updateScan, Change.id, hi]
      · simp [ofId_cons, updateScan, Change.id, hi, ih, Option.map_map, Function.comp_def]
    | childUpdate i =>
      by_cases hi : i = id
      · simp [ofId_cons, updateScan, Change.id, hi]
      · simp [ofId_cons, updateScan, Change.id, hi, ih, Option.map_map, Function.comp_def]
    | delete i =>
      by_cases hi : i = id
      · simp [ofId_cons, updateScan, Change.id, hi, ih, Option.map_map, Function.comp_def]
      · simp [ofId_cons, updateScan, Change.id, hi, ih, Option.map_map, Function.comp_def]

theorem ofId_deleteScan_ne {id x : UInt64} (h : id ≠ x) :
    ∀ cs : List Change, ofId x (deleteScan id cs).1 = ofId x cs
  | [] => rfl
  | c :: cs => by
    have keep : ofId x (c :: (deleteScan id cs).1) = ofId x (c :: cs) := by
      rw [ofId_cons, ofId_cons, ofId_deleteScan_ne h cs]
    cases c with
    | insert i =>
      by_cases hi : i = id
      · simp [deleteScan, hi, ofId_cons, h]
      · simpa [deleteScan, hi] using keep
    | update i =>
      by_cases hi : i = id
      · simp [deleteScan, hi, ofId_cons, h]
      · simpa [deleteScan, hi] using keep
    | childUpdate i =>
      by_cases hi : i = id
      · simp [deleteScan, hi, ofId_cons, h]
      · simpa [deleteScan, hi] using keep
    | delete i => simpa [deleteScan] using keep

theorem deleteScan_ofId (id : UInt64) :
    ∀ cs : List Change, deleteScan id (ofId id cs) = (ofId id (deleteScan id cs).1, (deleteScan id cs).2)
  | [] => rfl
  | c :: cs => by
    have ih := deleteScan_ofId id cs
    cases c with
    | insert i =>
      by_cases hi : i = id
      · simp [deleteScan, hi, ofId_cons, Change.id]
      · simp [deleteScan, hi, ofId_cons, Change.id, ih]
    | update i =>
      by_cases hi : i = id
      · simp [deleteScan, hi, ofId_cons, Change.id]
      · simp [deleteScan, hi, ofId_cons, Change.id, ih]
    | childUpdate i =>
      by_cases hi : i = id
      · simp [deleteScan, hi, ofId_cons, Change.id]
      · simp [deleteScan, hi, ofId_cons, Change.id, ih]
    | delete i =>
      by_cases hi : i = id
      · simp [deleteScan, hi, ofId_cons, Change.id, ih]
      · simp [deleteScan, hi, ofId_cons, Change.id, ih]

theorem ofId_updateStep (cs : List Change) (id x : UInt64) (isChildUpdate : Bool) :
    ofId x (updateStep cs id isChildUpdate) =
      if id = x then updateStep (ofId x cs) id isChildUpdate else ofId x cs := by
  by_cases h : id = x
  · subst h
    rw [if_pos rfl, updateStep, updateStep, updateScan_ofId]
    cases hs : updateScan id cs with
    | none => rfl
    | some r =>
      obtain ⟨r, wasUpdate⟩ := r
      dsimp only [Option.map_some]
      rw [ofId_append]
      congr 1
      split <;> simp [ofId, Change.id]
  · rw [if_neg h, updateStep]
    cases hs : updateScan id cs with
    | none => rfl
    | some r =>
      rw [ofId_append, ofId_updateScan_ne h hs, ofId_singleton, if_neg (by split <;> exact h),
        List.append_nil]

theorem ofId_deleteStep (cs : List Change) (id x : UInt64) :
    ofId x (deleteStep cs id) = if id = x then deleteStep (ofId x cs) id else ofId x cs := by
  by_cases h : id = x
  · subst h
    rw [if_pos rfl, deleteStep, deleteStep, deleteScan_ofId]
    split <;> simp
  · rw [if_neg h, deleteStep]
    split <;> simp [ofId_deleteScan_ne h, h]

/-- A change of one id leaves the changes of every other id alone, and acts on
those of its own id as on a list of them only. -/
theorem ofId_applyChange (cs : List Change) (c : Change) (x : UInt64) :
    ofId x (applyChange cs c) = if c.id = x then applyChange (ofId x cs) c else ofId x cs := by
  cases c with
  | insert id => by_cases h : id = x <;> simp [applyChange, h]
  | update id => exact ofId_updateStep cs id x false
  | childUpdate id => exact ofId_updateStep cs id x true
  | delete id => exact ofId_deleteStep cs id x

theorem ofId_foldl_applyChange (x : UInt64) (ops cs : List Change) :
    ofId x (ops.foldl applyChange cs) = (ofId x ops).foldl applyChange (ofId x cs) := by
  induction ops generalizing cs with
  | nil => rfl
  | cons c ops ih =>
    rw [List.foldl_cons, ih, ofId_applyChange, ofId_cons]
    by_cases h : c.id = x
    · rw [if_pos h, if_pos h, List.foldl_cons]
    · rw [if_neg h, if_neg h]

/-! ## Lengths -/

theorem length_updateScan {id : UInt64} :
    ∀ {cs : List Change} {r : List Change × Bool}, updateScan id cs = some r → r.1.length ≤ cs.length
  | [], r, h => by
    simp only [updateScan, Option.some.injEq] at h
    rw [← h]
  | c :: cs, r, h => by
    have keep : ∀ r', updateScan id cs = some r' → (c :: r'.1).length ≤ (c :: cs).length :=
      fun r' hr' => Nat.succ_le_succ (length_updateScan hr')
    cases c with
    | insert i =>
      by_cases hi : i = id
      · simp [updateScan, hi] at h
      · simp only [updateScan, hi, if_false, Option.map_eq_some_iff] at h
        obtain ⟨r', hr', rfl⟩ := h
        exact keep r' hr'
    | update i =>
      by_cases hi : i = id
      · simp only [updateScan, hi, if_true, Option.some.injEq] at h
        rw [← h, List.length_cons]
        exact Nat.le_succ _
      · simp only [updateScan, hi, if_false, Option.map_eq_some_iff] at h
        obtain ⟨r', hr', rfl⟩ := h
        exact keep r' hr'
    | childUpdate i =>
      by_cases hi : i = id
      · simp only [updateScan, hi, if_true, Option.some.injEq] at h
        rw [← h, List.length_cons]
        exact Nat.le_succ _
      · simp only [updateScan, hi, if_false, Option.map_eq_some_iff] at h
        obtain ⟨r', hr', rfl⟩ := h
        exact keep r' hr'
    | delete i =>
      simp only [updateScan, Option.map_eq_some_iff] at h
      obtain ⟨r', hr', rfl⟩ := h
      exact keep r' hr'

theorem length_deleteScan (id : UInt64) : ∀ cs : List Change, (deleteScan id cs).1.length ≤ cs.length
  | [] => Nat.le_refl 0
  | c :: cs => by
    have keep := Nat.succ_le_succ (length_deleteScan id cs)
    cases c with
    | insert i => by_cases hi : i = id <;> simp [deleteScan, hi, keep]
    | update i => by_cases hi : i = id <;> simp [deleteScan, hi, keep]
    | childUpdate i => by_cases hi : i = id <;> simp [deleteScan, hi, keep]
    | delete i => simpa [deleteScan] using keep

theorem length_applyChange_le (cs : List Change) (c : Change) :
    (applyChange cs c).length ≤ cs.length + 1 := by
  have hupdate : ∀ id b, (updateStep cs id b).length ≤ cs.length + 1 := by
    intro id b
    unfold updateStep
    split
    · exact Nat.le_succ _
    · rename_i r wasUpdate hr
      rw [List.length_append, List.length_singleton]
      exact Nat.succ_le_succ (length_updateScan hr)
  cases c with
  | insert id => simp [applyChange]
  | update id => exact hupdate id false
  | childUpdate id => exact hupdate id true
  | delete id =>
    have := length_deleteScan id cs
    simp only [applyChange, deleteStep]
    split <;> simp <;> omega

theorem length_foldl_applyChange_le (ops cs : List Change) :
    (ops.foldl applyChange cs).length ≤ cs.length + ops.length := by
  induction ops generalizing cs with
  | nil => simp
  | cons c ops ih =>
    rw [List.foldl_cons, List.length_cons]
    have := length_applyChange_le cs c
    have := ih (applyChange cs c)
    omega

theorem foldDeserialize_map_serialize (entries : List Changes) (changes : List Change) :
    foldDeserialize (entries.map serialize) changes =
      some ((entries.flatMap Changes.toList).foldl applyChange changes) := by
  induction entries generalizing changes with
  | nil => rfl
  | cons c entries ih =>
    rw [List.map_cons, foldDeserialize, deserialize_serialize, Option.bind_some, ih,
      List.flatMap_cons, List.foldl_append]

end MailServer.Store.ChangeLog
