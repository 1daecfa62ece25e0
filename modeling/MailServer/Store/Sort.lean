import MailServer.Store.Pagination
import Mathlib.Data.List.Sort
import Mathlib.Data.List.Lex
import Mathlib.Data.Prod.Lex

/-! # Sorting query results

`Store::sort` (store/src/query/sort.rs) hands the documents of a query's result set to a
`Pagination` in the order of the comparators, and stops as soon as `Pagination::add` asks.
A sort by one field walks the field's index, giving each result the first time it meets
it, and then gives the results that the index lacks in ascending order. A sort by one
document set gives the results in the set, then the others (or the other way round).
A sort by several comparators ranks every result for each comparator, one after the other,
and sorts the results by their ranks and then by document id; a field whose ranks are all
distinct ends the ranking early. Without comparators the results are given in ascending
order, and with a prefix key (the thread of an email) each is given with its prefix, once
per prefix when `prefix_unique` is set.
-/

namespace MailServer.Store.Sort

set_option linter.dupNamespace false

open MailServer.Lib.Consume MailServer.Store.Pagination MailServer.Store.Pagination.Pagination

/-- A `RoaringBitmap` of document ids: its members in ascending order. -/
structure Bitmap where
  ids : List UInt32
  sorted : ids.Pairwise (· < ·)

namespace Bitmap

/-- `RoaringBitmap::len`. -/
def len (b : Bitmap) : ℕ := b.ids.length

/-- `RoaringBitmap::is_empty`. -/
def isEmpty (b : Bitmap) : Bool := b.ids.isEmpty

/-- `RoaringBitmap::contains`. -/
def contains (b : Bitmap) (d : UInt32) : Bool := b.ids.contains d

/-- `RoaringBitmap::remove`: the bitmap without the document, and whether it held it. -/
def remove (b : Bitmap) (d : UInt32) : Bitmap × Bool :=
  (⟨b.ids.erase d, b.sorted.sublist List.erase_sublist⟩, b.contains d)

/-- `&`: the members of the first that the second holds. -/
def and (a b : Bitmap) : Bitmap := ⟨a.ids.filter b.contains, a.sorted.sublist List.filter_sublist⟩

theorem pairwise_lt_of_le {l : List UInt32} (hle : l.Pairwise (· ≤ ·)) (hnd : l.Nodup) :
    l.Pairwise (· < ·) :=
  (hle.and hnd).imp fun h => UInt32.lt_of_le_of_ne h.1 h.2

/-- `^`: the members of exactly one of the two, in ascending order. -/
def xor (a b : Bitmap) : Bitmap :=
  ⟨(a.ids.filter (!b.contains ·) ++ b.ids.filter (!a.contains ·)).insertionSort (· ≤ ·),
    by
      refine pairwise_lt_of_le (List.pairwise_insertionSort _ _) ((List.perm_insertionSort _ _).nodup_iff.mpr ?_)
      refine List.nodup_append.mpr ⟨?_, ?_, ?_⟩
      · exact (a.sorted.sublist List.filter_sublist).imp (fun h => UInt32.ne_of_lt h)
      · exact (b.sorted.sublist List.filter_sublist).imp (fun h => UInt32.ne_of_lt h)
      · intro x hx y hy hxy
        subst hxy
        simp only [List.mem_filter, contains, Bool.not_eq_eq_eq_not, Bool.not_true] at hx hy
        have hmem := List.contains_iff_mem.mpr hx.1
        rw [hy.2] at hmem
        cases hmem⟩

theorem ext {a b : Bitmap} (h : a.ids = b.ids) : a = b := by
  cases a
  cases b
  cases h
  rfl

theorem nodup (b : Bitmap) : b.ids.Nodup := b.sorted.imp fun h => UInt32.ne_of_lt h

@[simp] theorem remove_ids (b : Bitmap) (d : UInt32) : (b.remove d).1.ids = b.ids.erase d := rfl

@[simp] theorem remove_removed (b : Bitmap) (d : UInt32) : (b.remove d).2 = decide (d ∈ b.ids) := by
  simp [remove, contains]

theorem mem_and {a b : Bitmap} {d : UInt32} : d ∈ (a.and b).ids ↔ d ∈ a.ids ∧ d ∈ b.ids := by
  simp [and, contains]

theorem xor_and_ids (a s : Bitmap) : (a.xor (a.and s)).ids = a.ids.filter fun d => !s.contains d := by
  have hnone : (a.and s).ids.filter (fun d => !a.contains d) = [] := by
    rw [List.filter_eq_nil_iff]
    intro d hd
    simp [contains, (mem_and.mp hd).1]
  have hout : a.ids.filter (fun d => !(a.and s).contains d) = a.ids.filter fun d => !s.contains d :=
    List.filter_congr fun d hd => by simp [contains, mem_and, hd]
  simp only [xor, hnone, hout, List.append_nil]
  exact List.Pairwise.insertionSort_eq ((a.sorted.sublist List.filter_sublist).imp UInt32.le_of_lt)

theorem and_append_xor_perm (a s : Bitmap) : ((a.and s).ids ++ (a.xor (a.and s)).ids).Perm a.ids := by
  rw [xor_and_ids]
  exact List.filter_append_perm _ _

end Bitmap

/-- `query::Comparator`. -/
inductive Comparator where
  | field (field : UInt8) (ascending : Bool)
  | documentSet (set : Bitmap) (ascending : Bool)

/-- `query::ResultSet`. -/
structure ResultSet where
  accountId : UInt32
  collection : UInt8
  results : Bitmap

/-- What `Store::sort` reads from the store, with prefix keys of type `κ`. -/
structure Store (κ : Type) where
  /-- The keys of the index of a field of an account's collection, in ascending key order,
  each as the indexed value and the document id. -/
  index : UInt32 → UInt8 → UInt8 → List (List UInt8 × UInt32)
  /-- `get_value` of the prefix key with the document id set. -/
  getValue : κ → UInt32 → Option UInt32

variable {κ : Type}

/-- The keys `Store::iterate` walks over a field's index, in the comparator's direction. -/
def Store.iterateIndex (store : Store κ) (rs : ResultSet) (field : UInt8) (ascending : Bool) :
    List (List UInt8 × UInt32) :=
  let keys := store.index rs.accountId rs.collection field
  if ascending then keys else keys.reverse

/-- `*id as u32`: the document id in the low 32 bits of a sorted id. -/
def documentIdOf (id : UInt64) : UInt32 := id.toUInt32

/-! ## One comparator -/

/-- One key of the index walk of a sort by one field: a document still among the results is
taken out of them and given to `add`. -/
def fieldStep (st : Pagination κ × Bitmap) (key : List UInt8 × UInt32) : (Pagination κ × Bitmap) × Bool :=
  let (results, removed) := st.2.remove key.2
  if !removed then ((st.1, results), true)
  else
    let (pg, more) := st.1.add 0 key.2
    ((pg, results), more)

/-- The documents given with no prefix. -/
def unprefixed (docs : List UInt32) : List (UInt32 × UInt32) := docs.map fun d => (0, d)

/-- A sort by one field: the index walk, then the results the index lacks. -/
def sortByField (store : Store κ) (rs : ResultSet) (field : UInt8) (ascending : Bool)
    (pg : Pagination κ) : Pagination κ :=
  let ((pg, results), _) := consume fieldStep (pg, rs.results) (store.iterateIndex rs field ascending)
  -- add remaining items not present in the index
  if !results.isEmpty && !pg.isFull then (feed pg (unprefixed results.ids)).1 else pg

/-- A sort by one document set: the results in the set first when ascending, last otherwise. -/
def sortBySet (rs : ResultSet) (set : Bitmap) (ascending : Bool) (pg : Pagination κ) : Pagination κ :=
  let inSet := rs.results.and set
  let notInSet := rs.results.xor inSet
  let sets := if ascending then [inSet, notInSet] else [notInSet, inSet]
  (feed pg (unprefixed (sets.flatMap Bitmap.ids))).1

/-- The prefixes looked up after a sort by one comparator: each id gets the prefix stored for
its document, when there is one. -/
def withPrefixes (store : Store κ) (prefixKey : Option κ) (result : SortedResultSet) :
    SortedResultSet :=
  match prefixKey with
  | none => result
  | some key =>
    { result with
      ids := result.ids.map fun id =>
        match store.getValue key (documentIdOf id) with
        | some prefixId => id ||| (prefixId.toUInt64 <<< 32)
        | none => id }

/-- The sort by one comparator. -/
def sortOne (store : Store κ) (rs : ResultSet) (comparator : Comparator) (pg : Pagination κ) :
    SortedResultSet :=
  let sorted := match comparator with
    | .field field ascending => sortByField store rs field ascending pg
    | .documentSet set ascending => sortBySet rs set ascending pg
  withPrefixes store pg.prefixKey sorted.build

/-! ## Documents with their prefixes -/

/-- One document of the sorts that look up prefixes as they go: with a prefix key, a document
without a stored prefix is skipped, and with `prefix_unique` so is one whose prefix was seen. -/
def prefixStep (store : Store κ) (st : Pagination κ × List UInt32) (documentId : UInt32) :
    (Pagination κ × List UInt32) × Bool :=
  let (pg, seen) := st
  match pg.prefixKey with
  | none =>
    let (pg, more) := pg.add 0 documentId
    ((pg, seen), more)
  | some key =>
    match store.getValue key documentId with
    | none => ((pg, seen), true)
    | some prefixId =>
      if pg.prefixUnique && prefixId ∈ seen then ((pg, seen), true)
      else
        let seen := if pg.prefixUnique then prefixId :: seen else seen
        let (pg, more) := pg.add prefixId documentId
        ((pg, seen), more)

/-- The sorted documents given with their prefixes until `add` asks to stop. -/
def feedPrefixed (store : Store κ) (pg : Pagination κ) (docs : List UInt32) : Pagination κ :=
  (consume (prefixStep store) (pg, []) docs).1.1

/-- The sort without comparators: the results in ascending order. -/
def sortPlain (store : Store κ) (rs : ResultSet) (pg : Pagination κ) : SortedResultSet :=
  (feedPrefixed store pg rs.results.ids).build

/-! ## Several comparators -/

/-- `[0u32; 4]`. -/
def noRanks : List ℕ := [0, 0, 0, 0]

/-- `sorted_ids.entry(document_id).or_insert([0u32; 4])[pos] = idx`. -/
def setRank (sortedIds : List (UInt32 × List ℕ)) (documentId : UInt32) (pos idx : ℕ) :
    List (UInt32 × List ℕ) :=
  if documentId ∈ sortedIds.map Prod.fst then
    sortedIds.map fun e => if e.1 = documentId then (e.1, e.2.set pos idx) else e
  else sortedIds ++ [(documentId, noRanks.set pos idx)]

/-- The ranks `idx` given to all the documents of a list. -/
def setRanks (sortedIds : List (UInt32 × List ℕ)) (docs : List UInt32) (pos idx : ℕ) :
    List (UInt32 × List ℕ) :=
  docs.foldl (fun sortedIds d => setRank sortedIds d pos idx) sortedIds

/-- The walk over a field's index when ranking by several comparators: the results not yet
ranked, the last value met, whether two results shared a value, the current rank, and the
ranks given so far. -/
structure RankWalk where
  results : Bitmap
  prevData : List UInt8
  hasGroupedIds : Bool
  idx : ℕ
  sortedIds : List (UInt32 × List ℕ)

/-- One key of that walk: a result not yet ranked gets the rank of its value, a new rank when
the value differs from the last; the walk stops once every result is ranked. -/
def rankStep (pos : ℕ) (w : RankWalk) (key : List UInt8 × UInt32) : RankWalk × Bool :=
  let (results, removed) := w.results.remove key.2
  if removed then
    let w := if key.1 != w.prevData then { w with idx := w.idx + 1, prevData := key.1 }
      else { w with hasGroupedIds := true }
    let w := { w with results, sortedIds := setRank w.sortedIds key.2 pos w.idx }
    (w, !w.results.isEmpty)
  else ({ w with results }, true)

/-- A field comparator at position `pos`: the ranks, and whether the ranking stops there,
which it does when every result met the index and no two shared a value. -/
def rankField (store : Store κ) (rs : ResultSet) (pos : ℕ) (field : UInt8) (ascending : Bool)
    (sortedIds : List (UInt32 × List ℕ)) : List (UInt32 × List ℕ) × Bool :=
  let w := (consume (rankStep pos) ⟨rs.results, [], false, 0, sortedIds⟩
    (store.iterateIndex rs field ascending)).1
  if !w.results.isEmpty then (setRanks w.sortedIds w.results.ids pos (w.idx + 1), false)
  else (w.sortedIds, !w.hasGroupedIds)

/-- A document set comparator at position `pos`: rank 0 for the documents first in its
order, 1 for the others. -/
def rankSet (rs : ResultSet) (pos : ℕ) (set : Bitmap) (ascending : Bool)
    (sortedIds : List (UInt32 × List ℕ)) : List (UInt32 × List ℕ) :=
  let inSet := rs.results.and set
  let notInSet := rs.results.xor inSet
  let sets := if ascending then [(inSet, 0), (notInSet, 1)] else [(notInSet, 0), (inSet, 1)]
  sets.foldl (fun sortedIds s => setRanks sortedIds s.1.ids pos s.2) sortedIds

/-- The loop over the comparators from position `pos`. -/
def rankLoop (store : Store κ) (rs : ResultSet) :
    ℕ → List Comparator → List (UInt32 × List ℕ) → List (UInt32 × List ℕ)
  | _, [], sortedIds => sortedIds
  | pos, .field field ascending :: comparators, sortedIds =>
    let (sortedIds, stop) := rankField store rs pos field ascending sortedIds
    if stop then sortedIds else rankLoop store rs (pos + 1) comparators sortedIds
  | pos, .documentSet set ascending :: comparators, sortedIds =>
    rankLoop store rs (pos + 1) comparators (rankSet rs pos set ascending sortedIds)

/-- The ranks of every result under the first four comparators. -/
def rankComparators (store : Store κ) (rs : ResultSet) (comparators : List Comparator) :
    List (UInt32 × List ℕ) :=
  rankLoop store rs 0 (comparators.take 4) []

/-- The order of `sort_by`: by ranks, compared position after position, then by document id. -/
def entryKey (e : UInt32 × List ℕ) : List ℕ ×ₗ ℕ := toLex (e.2, e.1.toNat)

/-- `sorted_ids.sort_by(..)`. -/
def sortEntries (sortedIds : List (UInt32 × List ℕ)) : List (UInt32 × List ℕ) :=
  sortedIds.insertionSort fun a b => entryKey a ≤ entryKey b

/-- The sort by several comparators. -/
def sortByRanks (store : Store κ) (rs : ResultSet) (comparators : List Comparator)
    (pg : Pagination κ) : SortedResultSet :=
  (feedPrefixed store pg ((sortEntries (rankComparators store rs comparators)).map Prod.fst)).build

/-! ## `Store::sort` -/

/-- `Store::sort`. -/
def sort (store : Store κ) (rs : ResultSet) (comparators : List Comparator) (pg : Pagination κ) :
    SortedResultSet :=
  if rs.results.len = 0 then ⟨pg.position, [], true⟩
  else
    let pg := { pg with limit := if pg.limit = 0 then rs.results.len else min rs.results.len pg.limit }
    match comparators with
    | [comparator] => if !pg.prefixUnique then sortOne store rs comparator pg else sortPlain store rs pg
    | [] => sortPlain store rs pg
    | comparators => sortByRanks store rs comparators pg

/-! ## The sort by one field -/

/-- The results met by the walk over a field's index, in the order met, and the results the
index lacks. -/
def indexWalk : Bitmap → List (List UInt8 × UInt32) → List UInt32 × Bitmap
  | results, [] => ([], results)
  | results, key :: keys =>
    let (rest, removed) := results.remove key.2
    let (docs, left) := indexWalk rest keys
    (if removed then key.2 :: docs else docs, left)

/-- The order of a sort by one field: the results in the order their first keys come in the
walk, then those the index lacks, in ascending order. -/
def fieldOrder (keys : List (List UInt8 × UInt32)) (results : Bitmap) : List UInt32 :=
  (indexWalk results keys).1 ++ (indexWalk results keys).2.ids

theorem indexWalk_cons (results : Bitmap) (key : List UInt8 × UInt32) (keys : List (List UInt8 × UInt32)) :
    indexWalk results (key :: keys) =
      (if key.2 ∈ results.ids then key.2 :: (indexWalk (results.remove key.2).1 keys).1
        else (indexWalk (results.remove key.2).1 keys).1, (indexWalk (results.remove key.2).1 keys).2) := by
  simp [indexWalk]

theorem fieldOrder_perm (keys : List (List UInt8 × UInt32)) (results : Bitmap) :
    (fieldOrder keys results).Perm results.ids := by
  induction keys generalizing results with
  | nil => simp [fieldOrder, indexWalk]
  | cons key keys ih =>
    have hrest := ih (results.remove key.2).1
    simp only [fieldOrder, indexWalk_cons] at hrest ⊢
    by_cases hmem : key.2 ∈ results.ids
    · rw [if_pos hmem, List.cons_append]
      exact ((hrest.cons key.2).trans (by simp)).trans (List.perm_cons_erase hmem).symm
    · rw [if_neg hmem]
      simpa [List.erase_of_not_mem hmem] using hrest

/-- The walk of `Store::sort` gives `add` the results in the order of `indexWalk`, and breaks
when `add` asks; when it does not, it leaves the results the index lacks. -/
theorem consume_fieldStep (pg : Pagination κ) (results : Bitmap) (keys : List (List UInt8 × UInt32)) :
    (consume fieldStep (pg, results) keys).1.1 = (feed pg (unprefixed (indexWalk results keys).1)).1 ∧
      (consume fieldStep (pg, results) keys).2 = (feed pg (unprefixed (indexWalk results keys).1)).2 ∧
      ((feed pg (unprefixed (indexWalk results keys).1)).2 = true →
        (consume fieldStep (pg, results) keys).1.2 = (indexWalk results keys).2) := by
  induction keys generalizing pg results with
  | nil => simp [indexWalk, feed, unprefixed]
  | cons key keys ih =>
    rw [indexWalk_cons]
    by_cases hmem : key.2 ∈ results.ids
    · -- a result: `add` decides whether the walk goes on
      have hstep : fieldStep (pg, results) key =
          (((pg.add 0 key.2).1, (results.remove key.2).1), (pg.add 0 key.2).2) := by
        simp [fieldStep, hmem]
      have hfeed : feed pg (unprefixed (key.2 :: (indexWalk (results.remove key.2).1 keys).1)) =
          if (pg.add 0 key.2).2 then feed (pg.add 0 key.2).1 (unprefixed (indexWalk (results.remove key.2).1 keys).1)
          else ((pg.add 0 key.2).1, false) :=
        consume_cons _ _ _
      rw [if_pos hmem, hfeed, consume_cons, hstep]
      by_cases hgo : (pg.add 0 key.2).2
      · simpa [hgo] using ih (pg.add 0 key.2).1 (results.remove key.2).1
      · simp [hgo]
    · -- not a result: the walk goes on with `add` untouched
      have hstep : fieldStep (pg, results) key = ((pg, (results.remove key.2).1), true) := by
        simp [fieldStep, hmem]
      rw [if_neg hmem, consume_cons_of_true hstep]
      exact ih pg (results.remove key.2).1

theorem feed_append_of_true {pg pg' : Pagination κ} {xs : List (UInt32 × UInt32)}
    (h : feed pg xs = (pg', true)) (ys : List (UInt32 × UInt32)) :
    feed pg (xs ++ ys) = feed pg' ys :=
  consume_append_of_true h ys

theorem feed_append_of_false {pg pg' : Pagination κ} {xs : List (UInt32 × UInt32)}
    (h : feed pg xs = (pg', false)) (ys : List (UInt32 × UInt32)) :
    feed pg (xs ++ ys) = (pg', false) :=
  consume_append_of_false h ys

theorem sortByField_eq (store : Store κ) (rs : ResultSet) (field : UInt8) (ascending : Bool)
    (pg : Pagination κ) :
    sortByField store rs field ascending pg =
      let walk := consume fieldStep (pg, rs.results) (store.iterateIndex rs field ascending)
      if !walk.1.2.isEmpty && !walk.1.1.isFull then (feed walk.1.1 (unprefixed walk.1.2.ids)).1
      else walk.1.1 :=
  rfl

theorem hasAnchor_sortByField (store : Store κ) (rs : ResultSet) (field : UInt8) (ascending : Bool)
    (pg : Pagination κ) : (sortByField store rs field ascending pg).hasAnchor = pg.hasAnchor := by
  have hwalk : (consume fieldStep (pg, rs.results) (store.iterateIndex rs field ascending)).1.1.hasAnchor =
      pg.hasAnchor := by
    refine consume_invariant (P := fun st : Pagination κ × Bitmap => st.1.hasAnchor = pg.hasAnchor) ?_ rfl
    intro st key _ hst
    simp only [fieldStep]
    split_ifs <;> simp [hst]
  rw [sortByField_eq]
  dsimp only
  split_ifs
  · rw [hasAnchor_feed, hwalk]
  · exact hwalk

/-- Where `add` breaks only with a full page, the index walk followed by the results the index
lacks is the loop over the whole order of the field. -/
theorem sortByField_eq_feed (store : Store κ) (rs : ResultSet) (field : UInt8) (ascending : Bool)
    {pg : Pagination κ} (h : Room pg) :
    sortByField store rs field ascending pg =
      (feed pg (unprefixed (fieldOrder (store.iterateIndex rs field ascending) rs.results))).1 := by
  rw [sortByField_eq, fieldOrder, unprefixed, List.map_append, ← unprefixed, ← unprefixed]
  dsimp only
  set keys := store.iterateIndex rs field ascending
  obtain ⟨hpg, hgo, hrest⟩ := consume_fieldStep pg rs.results keys
  set f := feed pg (unprefixed (indexWalk rs.results keys).1) with hf
  have hroom := feed_room h (unprefixed (indexWalk rs.results keys).1)
  rw [← hf] at hroom
  rw [hpg]
  cases hcont : f.2 with
  | true =>
    rw [if_pos hcont] at hroom
    have hfeed : feed pg (unprefixed (indexWalk rs.results keys).1) = (f.1, true) := Prod.ext rfl hcont
    rw [feed_append_of_true hfeed, hrest hcont, hroom.isFull]
    by_cases hempty : (indexWalk rs.results keys).2.isEmpty
    · have hnil : (indexWalk rs.results keys).2.ids = [] := List.isEmpty_iff.mp hempty
      simp [hempty, hnil, unprefixed, feed]
    · simp [hempty]
  | false =>
    rw [if_neg (by simp [hcont])] at hroom
    have hfeed : feed pg (unprefixed (indexWalk rs.results keys).1) = (f.1, false) := Prod.ext rfl hcont
    rw [feed_append_of_false hfeed, hroom]
    simp

/-- In a mode where `add` keeps every document, the walk moves each result it meets from the
bitmap to the ids, so together they always hold as many as at the start. -/
structure PushWalk (n : ℕ) (st : Pagination κ × Bitmap) : Prop where
  pushes : Pushes st.1
  count : st.2.len + st.1.ids.length = n
  apart : ∀ d ∈ st.2.ids, packId 0 d ∉ st.1.ids

theorem PushWalk.step {n : ℕ} {st : Pagination κ × Bitmap} (h : PushWalk n st)
    (key : List UInt8 × UInt32) : PushWalk n (fieldStep st key).1 := by
  by_cases hmem : key.2 ∈ st.2.ids
  · -- a result: it leaves the bitmap and its id joins the ids
    have hstep : (fieldStep st key).1 = ((st.1.add 0 key.2).1, (st.2.remove key.2).1) := by
      simp [fieldStep, hmem]
    obtain ⟨hids, hpushes⟩ := h.pushes.add 0 key.2
    have hlen := List.length_erase_of_mem hmem
    have hpos := List.length_pos_of_mem hmem
    rw [hstep]
    refine ⟨hpushes, ?_, ?_⟩
    · have hcount := h.count
      simp only [Bitmap.len, Bitmap.remove_ids, hids, List.length_append, List.length_singleton] at hcount ⊢
      omega
    · intro d hd
      rw [Bitmap.remove_ids, st.2.nodup.mem_erase_iff] at hd
      rw [hids, List.mem_append, List.mem_singleton, not_or]
      exact ⟨h.apart d hd.2, packId_ne hd.1⟩
  · -- not a result: nothing changes
    have hstep : (fieldStep st key).1 = (st.1, (st.2.remove key.2).1) := by
      simp [fieldStep, hmem]
    have hsame : (st.2.remove key.2).1 = st.2 := Bitmap.ext (List.erase_of_not_mem hmem)
    rw [hstep, hsame]
    exact h

theorem PushWalk.walk {n : ℕ} {st : Pagination κ × Bitmap} (h : PushWalk n st)
    (keys : List (List UInt8 × UInt32)) : PushWalk n (consume fieldStep st keys).1 :=
  consume_invariant (fun _ key _ hst => hst.step key) h

/-- With a negative position and no anchor, when the index holds exactly `limit` results the
results it lacks are never given: the page is cut from the indexed results alone. -/
theorem sortByField_neg (store : Store κ) (rs : ResultSet) (field : UInt8) (ascending : Bool)
    {pg : Pagination κ} (hanchor : pg.hasAnchor = false) (hpos : pg.position < 0)
    (hfull : pg.ids.length + (indexWalk rs.results (store.iterateIndex rs field ascending)).1.length =
      pg.limit) :
    sortByField store rs field ascending pg =
      { pg with ids := pg.ids ++
          (unprefixed (indexWalk rs.results (store.iterateIndex rs field ascending)).1).map idOf } := by
  rw [sortByField_eq]
  dsimp only
  set keys := store.iterateIndex rs field ascending
  obtain ⟨hpg, -, -⟩ := consume_fieldStep pg rs.results keys
  rw [feed_noAnchor_neg hanchor hpos] at hpg
  have hisFull : ({ pg with ids := pg.ids ++ (unprefixed (indexWalk rs.results keys).1).map idOf } :
      Pagination κ).isFull = true := by
    simp [Pagination.isFull, unprefixed, ← hfull]
  rw [hpg, hisFull]
  simp

/-- With a negative offset, once the anchor stops the walk the results not yet given are
given all the same, each marking the anchor as not found: unless the anchor fills the page
or is the last result, the anchor is lost. -/
theorem sortByField_anchor_lost (store : Store κ) (rs : ResultSet) (field : UInt8) (ascending : Bool)
    {pg : Pagination κ} (hanchor : pg.hasAnchor = true) (hoff : pg.anchorOffset < 0)
    (hfound : pg.anchorFound = false) (hids : pg.ids = []) {before after : List UInt32}
    (hwalk : (indexWalk rs.results (store.iterateIndex rs field ascending)).1 =
      before ++ pg.anchor :: after)
    (hbefore : pg.anchor ∉ before) (hroom : before.length + 1 ≠ pg.limit)
    (hlast : before.length + 1 < rs.results.len) :
    (sortByField store rs field ascending pg).anchorFound = false := by
  rw [sortByField_eq]
  dsimp only
  set keys := store.iterateIndex rs field ascending
  obtain ⟨hpg, -, -⟩ := consume_fieldStep pg rs.results keys
  set pg₂ : Pagination κ :=
    { pg with
      position := pg.anchorOffset, anchorFound := true,
      ids := pg.ids ++ (unprefixed before).map idOf ++ [packId 0 pg.anchor] }
  have hfeed : feed pg (unprefixed (indexWalk rs.results keys).1) = (pg₂, false) := by
    have hbefore' : ∀ e ∈ unprefixed before, e.2 ≠ pg.anchor := by
      intro e he
      obtain ⟨d, hd, rfl⟩ := List.mem_map.mp he
      exact fun h => hbefore (h ▸ hd)
    rw [hwalk, unprefixed, List.map_append, List.map_cons, ← unprefixed, ← unprefixed,
      feed_anchor_neg hanchor hoff hfound hbefore' 0 (unprefixed after)]
  rw [hfeed] at hpg
  set walk := consume fieldStep (pg, rs.results) keys
  have hinv : PushWalk rs.results.len walk.1 :=
    PushWalk.walk ⟨.inr ⟨hanchor, hoff⟩, by simp [hids, Bitmap.len], by simp [hids]⟩ keys
  have hcount := hinv.count
  rw [hpg] at hcount
  simp only [pg₂, hids, List.nil_append, List.length_append, List.length_map, unprefixed,
    List.length_singleton] at hcount
  have hleft : walk.1.2.ids ≠ [] := by
    intro hnil
    have hzero : walk.1.2.len = 0 := by simp [Bitmap.len, hnil]
    omega
  have hnot : ∀ e ∈ unprefixed walk.1.2.ids, e.2 ≠ pg.anchor := by
    intro e he heq
    obtain ⟨d, hd, rfl⟩ := List.mem_map.mp he
    have happart := hinv.apart d hd
    rw [hpg] at happart
    apply happart
    have hd' : d = pg.anchor := heq
    simp [pg₂, hd']
  have hlen₂ : pg₂.ids.length = before.length + 1 := by simp [pg₂, hids, unprefixed]
  have hnotFull : pg₂.isFull = false := beq_false_of_ne (hlen₂ ▸ hroom)
  have hcond : (!walk.1.2.isEmpty && !walk.1.1.isFull) = true := by
    have hnonempty : walk.1.2.isEmpty = false := by
      simpa [Bitmap.isEmpty, List.isEmpty_iff] using hleft
    rw [hpg, hnotFull, hnonempty]
    rfl
  rw [if_pos hcond, hpg]
  have hanchor₂ : pg₂.hasAnchor = true := hanchor
  have hoff₂ : pg₂.anchorOffset < 0 := hoff
  exact anchorFound_feed_neg hanchor₂ hoff₂ (by simpa [unprefixed] using hleft) hnot

/-! ## Sorts that look up prefixes -/

theorem documentIdOf_packId (prefixId documentId : UInt32) :
    documentIdOf (packId prefixId documentId) = documentId := by
  apply UInt32.toNat_inj.mp
  rw [documentIdOf, UInt64.toNat_toUInt32, toNat_packId]
  have := documentId.toNat_lt
  omega

theorem withPrefixes_foundAnchor (store : Store κ) (prefixKey : Option κ) (result : SortedResultSet) :
    (withPrefixes store prefixKey result).foundAnchor = result.foundAnchor := by
  cases prefixKey <;> rfl

/-! The sort by one comparator carries the prefix key along without reading it, and looks up
the prefixes once the page is built. -/

theorem fieldStep_withPrefixKey (key : κ) (st : Pagination κ × Bitmap) (k : List UInt8 × UInt32) :
    fieldStep (st.1.withPrefixKey key, st.2) k =
      (((fieldStep st k).1.1.withPrefixKey key, (fieldStep st k).1.2), (fieldStep st k).2) := by
  unfold fieldStep
  dsimp only
  split <;> simp [add_withPrefixKey]

theorem sortByField_withPrefixKey (store : Store κ) (rs : ResultSet) (field : UInt8) (ascending : Bool)
    (pg : Pagination κ) (key : κ) :
    sortByField store rs field ascending (pg.withPrefixKey key) =
      (sortByField store rs field ascending pg).withPrefixKey key := by
  have hwalk := @consume_map _ _ fieldStep _ fieldStep (fun st => (st.1.withPrefixKey key, st.2))
    (fieldStep_withPrefixKey key) (pg, rs.results) (store.iterateIndex rs field ascending)
  have hfull : ∀ pg : Pagination κ, (pg.withPrefixKey key).isFull = pg.isFull := fun _ => rfl
  unfold sortByField
  rw [hwalk]
  dsimp only
  rw [hfull]
  split
  · rw [feed_withPrefixKey]
  · rfl

theorem sortBySet_withPrefixKey (rs : ResultSet) (set : Bitmap) (ascending : Bool) (pg : Pagination κ)
    (key : κ) : sortBySet rs set ascending (pg.withPrefixKey key) = (sortBySet rs set ascending pg).withPrefixKey key := by
  simp only [sortBySet, feed_withPrefixKey]

theorem sortOne_withPrefixKey (store : Store κ) (rs : ResultSet) (comparator : Comparator)
    {pg : Pagination κ} (hkey : pg.prefixKey = none) (key : κ) :
    sortOne store rs comparator (pg.withPrefixKey key) = withPrefixes store (some key) (sortOne store rs comparator pg) := by
  cases comparator <;>
    simp only [sortOne, sortByField_withPrefixKey, sortBySet_withPrefixKey, hkey] <;> rfl

theorem prefixStep_ids (store : Store κ) (st : Pagination κ × List UInt32) (documentId : UInt32) :
    ((prefixStep store st documentId).1.1.ids.map documentIdOf).Sublist
      (st.1.ids.map documentIdOf ++ [documentId]) := by
  obtain ⟨pg, seen⟩ := st
  have hadd : ∀ prefixId : UInt32, ((pg.add prefixId documentId).1.ids.map documentIdOf).Sublist
      (pg.ids.map documentIdOf ++ [documentId]) := by
    intro prefixId
    rcases add_ids pg prefixId documentId with h | h <;> rw [h]
    · exact List.sublist_append_left _ _
    · simp [documentIdOf_packId]
  cases hkey : pg.prefixKey with
  | none => simpa [prefixStep, hkey] using hadd 0
  | some key =>
    cases hval : store.getValue key documentId with
    | none => simp [prefixStep, hkey, hval]
    | some prefixId =>
      by_cases hskip : (pg.prefixUnique && decide (prefixId ∈ seen)) = true
      · simp [prefixStep, hkey, hval, hskip]
      · simpa [prefixStep, hkey, hval, hskip] using hadd prefixId

theorem consume_prefixStep_ids (store : Store κ) (st : Pagination κ × List UInt32) (docs : List UInt32) :
    ((consume (prefixStep store) st docs).1.1.ids.map documentIdOf).Sublist
      (st.1.ids.map documentIdOf ++ docs) := by
  induction docs generalizing st with
  | nil => simp
  | cons d docs ih =>
    have hstep := prefixStep_ids store st d
    rw [consume_cons]
    split_ifs
    · refine (ih _).trans ?_
      simpa using hstep.append (List.Sublist.refl docs)
    · exact hstep.trans (by simp)

theorem feedPrefixed_of_none (store : Store κ) {pg : Pagination κ} (hkey : pg.prefixKey = none)
    (docs : List UInt32) : feedPrefixed store pg docs = (feed pg (unprefixed docs)).1 := by
  have hgen : ∀ (pg : Pagination κ) (seen : List UInt32), pg.prefixKey = none →
      (consume (prefixStep store) (pg, seen) docs).1.1 = (feed pg (unprefixed docs)).1 ∧
        (consume (prefixStep store) (pg, seen) docs).1.2 = seen := by
    induction docs with
    | nil => simp [unprefixed, feed]
    | cons d docs ih =>
      intro pg seen hkey
      have hstep : prefixStep store (pg, seen) d = (((pg.add 0 d).1, seen), (pg.add 0 d).2) := by
        simp [prefixStep, hkey]
      have hfeed : feed pg (unprefixed (d :: docs)) =
          if (pg.add 0 d).2 then feed (pg.add 0 d).1 (unprefixed docs) else ((pg.add 0 d).1, false) :=
        consume_cons _ _ _
      rw [consume_cons, hstep, hfeed]
      by_cases hgo : (pg.add 0 d).2
      · simpa [hgo] using ih (pg.add 0 d).1 seen (by simp [hkey])
      · simp [hgo]
  exact (hgen pg [] hkey).1

/-! ## `Store::sort` by its comparators -/

/-- The limit `Store::sort` sets: every result when the pagination had none, and never more
than there are. -/
def sortLimit (total limit : ℕ) : ℕ := if limit = 0 then total else min total limit

theorem sortLimit_pos {total : ℕ} (htotal : total ≠ 0) (limit : ℕ) : 0 < sortLimit total limit := by
  unfold sortLimit
  split_ifs <;> omega

theorem sort_of_isEmpty (store : Store κ) {rs : ResultSet} (hempty : rs.results.len = 0)
    (comparators : List Comparator) (pg : Pagination κ) :
    sort store rs comparators pg = ⟨pg.position, [], true⟩ := by
  simp [sort, hempty]

theorem sort_one (store : Store κ) {rs : ResultSet} (hne : rs.results.len ≠ 0) (comparator : Comparator)
    {pg : Pagination κ} (hunique : pg.prefixUnique = false) :
    sort store rs [comparator] pg =
      sortOne store rs comparator { pg with limit := sortLimit rs.results.len pg.limit } := by
  simp [sort, hne, hunique, sortLimit]

theorem sort_one_new (store : Store κ) {rs : ResultSet} (hne : rs.results.len ≠ 0)
    (comparator : Comparator) (limit : ℕ) (position : Int) (anchor : Option UInt32) (anchorOffset : Int) :
    sort store rs [comparator] (new limit position anchor anchorOffset : Pagination κ) =
      sortOne store rs comparator (new (sortLimit rs.results.len limit) position anchor anchorOffset) := by
  rw [sort_one store hne comparator (by cases anchor <;> rfl)]
  cases anchor <;> rfl

theorem sort_one_of_unique (store : Store κ) {rs : ResultSet} (hne : rs.results.len ≠ 0)
    (comparator : Comparator) {pg : Pagination κ} (hunique : pg.prefixUnique = true) :
    sort store rs [comparator] pg = sortPlain store rs { pg with limit := sortLimit rs.results.len pg.limit } := by
  simp [sort, hne, hunique, sortLimit]

theorem sort_nil (store : Store κ) {rs : ResultSet} (hne : rs.results.len ≠ 0) (pg : Pagination κ) :
    sort store rs [] pg = sortPlain store rs { pg with limit := sortLimit rs.results.len pg.limit } := by
  simp [sort, hne, sortLimit]

theorem sort_many (store : Store κ) {rs : ResultSet} (hne : rs.results.len ≠ 0)
    {comparators : List Comparator} (hmany : 2 ≤ comparators.length) (pg : Pagination κ) :
    sort store rs comparators pg =
      sortByRanks store rs comparators { pg with limit := sortLimit rs.results.len pg.limit } := by
  match comparators, hmany with
  | _ :: _ :: _, _ => simp [sort, hne, sortLimit]

/-- With a prefix key, a sort by one comparator gives the page it gives without one, each id
with the prefix stored for its document. -/
theorem sort_withPrefixKey (store : Store κ) {rs : ResultSet} (hne : rs.results.len ≠ 0)
    (comparator : Comparator) {pg : Pagination κ} (hunique : pg.prefixUnique = false)
    (hkey : pg.prefixKey = none) (key : κ) :
    sort store rs [comparator] (pg.withPrefixKey key) =
      withPrefixes store (some key) (sort store rs [comparator] pg) := by
  have hunique' : (pg.withPrefixKey key).prefixUnique = false := hunique
  rw [sort_one store hne comparator hunique', sort_one store hne comparator hunique]
  exact @sortOne_withPrefixKey κ store rs comparator { pg with limit := sortLimit rs.results.len pg.limit } hkey key

/-- A store whose field 0 indexes documents 3 and then 1, and whose threads are the parity of
the document id. -/
def exampleStore : Store Unit :=
  ⟨fun _ _ field => if field = 0 then [([1], 3), ([2], 1)] else [], fun _ d => some (d % 2)⟩

/-- The documents 1, 2 and 3. -/
def exampleResults : ResultSet := ⟨0, 0, ⟨[1, 2, 3], by decide⟩⟩

/-- A sort by one field, without an anchor and from a nonnegative position, returns the page of
the field's order; with a prefix key, the same page with the prefixes looked up. -/
theorem sort_field_window (store : Store κ) {rs : ResultSet} (hne : rs.results.len ≠ 0)
    (field : UInt8) (ascending : Bool) (limit : ℕ) {position : Int} (hpos : 0 ≤ position) :
    sort store rs [.field field ascending] (new limit position none 0 : Pagination κ) =
        window (sortLimit rs.results.len limit) position
          ((fieldOrder (store.iterateIndex rs field ascending) rs.results).map (packId 0)) ∧
      ∀ key : κ, sort store rs [.field field ascending] ((new limit position none 0 : Pagination κ).withPrefixKey key) =
        withPrefixes store (some key) (window (sortLimit rs.results.len limit) position
          ((fieldOrder (store.iterateIndex rs field ascending) rs.results).map (packId 0))) := by
  have hlimit := sortLimit_pos hne limit
  have hroom : Room (new (sortLimit rs.results.len limit) position none 0 : Pagination κ) :=
    ⟨.inl ⟨rfl, hpos⟩, by simpa [new] using hlimit⟩
  have hwindow : sort store rs [.field field ascending] (new limit position none 0 : Pagination κ) =
      window (sortLimit rs.results.len limit) position
        ((fieldOrder (store.iterateIndex rs field ascending) rs.results).map (packId 0)) := by
    rw [sort_one_new store hne, sortOne, sortByField_eq_feed store rs field ascending hroom,
      build_feed_noAnchor hlimit]
    simp [withPrefixes, new, unprefixed, idOf, Function.comp_def]
  refine ⟨hwindow, fun key => ?_⟩
  rw [sort_withPrefixKey store hne _ rfl rfl, hwindow]

theorem sort_field_window_example :
    sort exampleStore exampleResults [.field 0 true] (new 2 1 none 0 : Pagination Unit) =
        window (sortLimit exampleResults.results.len 2) 1
          ((fieldOrder (exampleStore.iterateIndex exampleResults 0 true) exampleResults.results).map (packId 0)) ∧
      ∀ key : Unit, sort exampleStore exampleResults [.field 0 true]
          ((new 2 1 none 0 : Pagination Unit).withPrefixKey key) =
        withPrefixes exampleStore (some key) (window (sortLimit exampleResults.results.len 2) 1
          ((fieldOrder (exampleStore.iterateIndex exampleResults 0 true) exampleResults.results).map (packId 0))) :=
  sort_field_window exampleStore (by decide) 0 true 2 (by decide)

/-- With a negative position and no anchor, when the index of the field holds exactly as many
results as the page, a sort by that field cuts the page from the indexed results alone: the
results the index lacks are never returned. -/
theorem sort_field_neg_position (store : Store κ) {rs : ResultSet} (hne : rs.results.len ≠ 0)
    (field : UInt8) (ascending : Bool) (limit : ℕ) {position : Int} (hpos : position < 0)
    (hfull : (indexWalk rs.results (store.iterateIndex rs field ascending)).1.length =
      sortLimit rs.results.len limit) :
    sort store rs [.field field ascending] (new limit position none 0 : Pagination κ) =
        window (sortLimit rs.results.len limit) position
          ((indexWalk rs.results (store.iterateIndex rs field ascending)).1.map (packId 0)) ∧
      ∀ key : κ, sort store rs [.field field ascending] ((new limit position none 0 : Pagination κ).withPrefixKey key) =
        withPrefixes store (some key) (window (sortLimit rs.results.len limit) position
          ((indexWalk rs.results (store.iterateIndex rs field ascending)).1.map (packId 0))) := by
  suffices hwindow : sort store rs [.field field ascending] (new limit position none 0 : Pagination κ) =
      window (sortLimit rs.results.len limit) position
        ((indexWalk rs.results (store.iterateIndex rs field ascending)).1.map (packId 0)) by
    refine ⟨hwindow, fun key => ?_⟩
    rw [sort_withPrefixKey store hne _ rfl rfl, hwindow]
  have hlimit := sortLimit_pos hne limit
  rw [sort_one_new store hne]
  set pg : Pagination κ := new (sortLimit rs.results.len limit) position none 0
  have hwalk : pg.ids.length + (indexWalk rs.results (store.iterateIndex rs field ascending)).1.length =
      pg.limit := by simpa [pg, new] using hfull
  rw [sortOne, sortByField_neg store rs field ascending rfl hpos hwalk,
    build_of_neg rfl (by simp [pg, new, Int.not_le.mpr hpos]) hpos hlimit]
  have hstart : startIndex (indexWalk rs.results (store.iterateIndex rs field ascending)).1.length position ≤
      (indexWalk rs.results (store.iterateIndex rs field ascending)).1.length := by
    rw [startIndex, if_neg (Int.not_le.mpr hpos)]
    omega
  simp [withPrefixes, window, pg, new, unprefixed, idOf, Function.comp_def, hstart]

theorem sort_field_neg_position_example :
    sort exampleStore exampleResults [.field 0 true] (new 2 (-1) none 0 : Pagination Unit) =
        window (sortLimit exampleResults.results.len 2) (-1)
          ((indexWalk exampleResults.results (exampleStore.iterateIndex exampleResults 0 true)).1.map (packId 0)) ∧
      ∀ key : Unit, sort exampleStore exampleResults [.field 0 true]
          ((new 2 (-1) none 0 : Pagination Unit).withPrefixKey key) =
        withPrefixes exampleStore (some key) (window (sortLimit exampleResults.results.len 2) (-1)
          ((indexWalk exampleResults.results (exampleStore.iterateIndex exampleResults 0 true)).1.map (packId 0))) :=
  sort_field_neg_position exampleStore (by decide) 0 true 2 (by decide) (by decide)

/-- With a negative anchor offset, a sort by one field loses the anchor whenever the index
holds it and it neither fills the page nor is the last result. -/
theorem sort_field_anchor_not_found (store : Store κ) {rs : ResultSet} (field : UInt8)
    (ascending : Bool) (limit : ℕ) (position : Int) {anchorOffset : Int} (hoff : anchorOffset < 0)
    {anchor : UInt32} {before after : List UInt32}
    (hwalk : (indexWalk rs.results (store.iterateIndex rs field ascending)).1 =
      before ++ anchor :: after)
    (hbefore : anchor ∉ before) (hroom : before.length + 1 ≠ limit)
    (hlast : before.length + 1 < rs.results.len) :
    (sort store rs [.field field ascending]
        (new limit position (some anchor) anchorOffset : Pagination κ)).foundAnchor = false ∧
      ∀ key : κ, (sort store rs [.field field ascending]
        ((new limit position (some anchor) anchorOffset : Pagination κ).withPrefixKey key)).foundAnchor = false := by
  have hne : rs.results.len ≠ 0 := by omega
  suffices hlost : (sort store rs [.field field ascending]
      (new limit position (some anchor) anchorOffset : Pagination κ)).foundAnchor = false by
    refine ⟨hlost, fun key => ?_⟩
    rw [sort_withPrefixKey store hne _ rfl rfl, withPrefixes_foundAnchor, hlost]
  rw [sort_one_new store hne, sortOne, withPrefixes_foundAnchor, build_foundAnchor]
  set pg : Pagination κ := new (sortLimit rs.results.len limit) position (some anchor) anchorOffset
  have hroom' : before.length + 1 ≠ pg.limit := by
    simp only [pg, new, sortLimit]
    split_ifs <;> omega
  have hanchor : pg.hasAnchor = true := rfl
  have hoff' : pg.anchorOffset < 0 := hoff
  rw [sortByField_anchor_lost store rs field ascending hanchor hoff' rfl rfl hwalk hbefore hroom' hlast,
    hasAnchor_sortByField, hanchor]
  rfl

theorem sort_field_anchor_not_found_example :
    (sort exampleStore exampleResults [.field 0 true]
        (new 5 0 (some 1) (-1) : Pagination Unit)).foundAnchor = false ∧
      ∀ key : Unit, (sort exampleStore exampleResults [.field 0 true]
        ((new 5 0 (some 1) (-1) : Pagination Unit).withPrefixKey key)).foundAnchor = false :=
  sort_field_anchor_not_found exampleStore 0 true 5 0 (by decide)
    (show (indexWalk exampleResults.results (exampleStore.iterateIndex exampleResults 0 true)).1 =
      [3] ++ 1 :: [] by decide) (by decide) (by decide) (by decide)

/-- With `prefix_unique` set (an email query that collapses threads), a sort by a single
comparator ignores it: the documents come out in ascending order, whatever the comparator. -/
theorem sort_unique_ascending (store : Store κ) (rs : ResultSet) (comparator : Comparator)
    {pg : Pagination κ} (hunique : pg.prefixUnique = true) (hids : pg.ids = []) :
    ((sort store rs [comparator] pg).ids.map documentIdOf).Pairwise (· < ·) := by
  by_cases hempty : rs.results.len = 0
  · simp [sort_of_isEmpty store hempty]
  rw [sort_one_of_unique store hempty comparator hunique, sortPlain, feedPrefixed]
  set st := consume (prefixStep store) ({ pg with limit := sortLimit rs.results.len pg.limit }, [])
    rs.results.ids
  have hfed := consume_prefixStep_ids store ({ pg with limit := sortLimit rs.results.len pg.limit }, [])
    rs.results.ids
  have hnil : ({ pg with limit := sortLimit rs.results.len pg.limit } : Pagination κ).ids.map documentIdOf = [] := by
    simp [hids]
  rw [hnil, List.nil_append] at hfed
  exact rs.results.sorted.sublist (((build_ids_sublist st.1.1).map documentIdOf).trans hfed)

theorem sort_unique_ascending_example :
    ((sort exampleStore exampleResults [.field 0 true]
      ((new 2 0 none 0 : Pagination Unit).withPrefixUnique true)).ids.map documentIdOf).Pairwise (· < ·) :=
  sort_unique_ascending exampleStore exampleResults (.field 0 true) rfl rfl

end MailServer.Store.Sort
