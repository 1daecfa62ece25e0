import MailServer.Lib.Consume
import Mathlib.Algebra.Group.Nat.Defs

/-! # Pagination of sorted query results

`Pagination` (store/src/query/sort.rs) takes the sorted documents one at a time
(`Pagination::add`) and says when it has enough; `Pagination::build` then cuts the page
that the query returns.

Without an anchor the page is the window a JMAP query asks for: the ids from `position`
on, counted from the end when `position` is negative, at most `limit` of them
(`build_feed_noAnchor`), although `add` stops the sort as soon as the window is full.
With an anchor, `found_anchor` holds exactly when the sorted documents hold the anchor
(`foundAnchor_build_feed`). With a nonnegative `anchorOffset` the ids are the window from
the anchor's index plus the offset, but the position returned is the request's `position`
and not that index (`build_feed_anchor`). With a negative offset the window starts one
place after the anchor's index plus the offset, and ends at the anchor
(`build_feed_anchor_neg`).
-/

namespace MailServer.Store.Pagination

set_option linter.dupNamespace false

open MailServer.Lib.Consume

/-- The id of a document in a sorted result: its prefix (the thread of an email) in the
high 32 bits, the document id in the low ones. -/
def packId (prefixId documentId : UInt32) : UInt64 :=
  (prefixId.toUInt64 <<< 32) ||| documentId.toUInt64

theorem toNat_packId (prefixId documentId : UInt32) :
    (packId prefixId documentId).toNat = prefixId.toNat * 2 ^ 32 + documentId.toNat := by
  have hd : documentId.toNat < 2 ^ 32 := documentId.toNat_lt
  have hp : prefixId.toNat < 2 ^ 32 := prefixId.toNat_lt
  simp only [packId, UInt64.toNat_or, UInt64.toNat_shiftLeft, UInt32.toNat_toUInt64]
  rw [show (32 : UInt64).toNat % 64 = 32 from rfl, Nat.mod_eq_of_lt (by omega),
    ← Nat.shiftLeft_add_eq_or_of_lt hd, Nat.shiftLeft_eq]

theorem packId_ne {p p' d d' : UInt32} (hd : d ≠ d') : packId p d ≠ packId p' d' := by
  intro h
  have hnat := congrArg UInt64.toNat h
  rw [toNat_packId, toNat_packId] at hnat
  have hmod := congrArg (· % 2 ^ 32) hnat
  simp only [Nat.mul_add_mod_self_right] at hmod
  rw [Nat.mod_eq_of_lt d.toNat_lt, Nat.mod_eq_of_lt d'.toNat_lt] at hmod
  exact hd (UInt32.toNat_inj.mp hmod)

/-- The id of a sorted document given as its prefix and document id. -/
def idOf (e : UInt32 × UInt32) : UInt64 := packId e.1 e.2

/-- `Pagination`; the prefix key and `prefix_unique` are read by `Store::sort` alone. -/
structure Pagination (κ : Type) where
  requestedPosition : Int
  position : Int
  limit : ℕ
  anchor : UInt32
  anchorOffset : Int
  hasAnchor : Bool
  anchorFound : Bool
  ids : List UInt64
  prefixKey : Option κ
  prefixUnique : Bool

/-- `SortedResultSet`. -/
structure SortedResultSet where
  position : Int
  ids : List UInt64
  foundAnchor : Bool
  deriving DecidableEq, Repr

namespace Pagination

variable {κ : Type}

/-- `Pagination::new`. -/
def new (limit : ℕ) (position : Int) (anchor : Option UInt32) (anchorOffset : Int) :
    Pagination κ :=
  let (hasAnchor, anchor) := (anchor.map fun anchor => (true, anchor)).getD (false, 0)
  { requestedPosition := position, position, limit, anchor, anchorOffset, hasAnchor,
    anchorFound := false, ids := [], prefixKey := none, prefixUnique := false }

/-- `Pagination::with_prefix_key`. -/
def withPrefixKey (pg : Pagination κ) (prefixKey : κ) : Pagination κ :=
  { pg with prefixKey := some prefixKey }

/-- `Pagination::with_prefix_unique`. -/
def withPrefixUnique (pg : Pagination κ) (prefixUnique : Bool) : Pagination κ :=
  { pg with prefixUnique }

/-- `Pagination::add`: the state after taking the document, and whether the sort goes on. -/
def add (pg : Pagination κ) (prefixId documentId : UInt32) : Pagination κ × Bool :=
  let id := packId prefixId documentId
  if !pg.hasAnchor then
    if pg.position ≥ 0 then
      if pg.position > 0 then
        ({ pg with position := pg.position - 1 }, true)
      else
        let pg := { pg with ids := pg.ids ++ [id] }
        (pg, pg.ids.length != pg.limit)
    else
      ({ pg with ids := pg.ids ++ [id] }, true)
  else if pg.anchorOffset ≥ 0 then
    -- documents before the anchor are passed over; the anchor and those after it count
    if !pg.anchorFound && documentId != pg.anchor then
      (pg, true)
    else
      let pg := { pg with anchorFound := true }
      if pg.anchorOffset > 0 then
        ({ pg with anchorOffset := pg.anchorOffset - 1 }, true)
      else
        let pg := { pg with ids := pg.ids ++ [id] }
        (pg, pg.ids.length != pg.limit)
  else
    let pg := { pg with anchorFound := documentId == pg.anchor, ids := pg.ids ++ [id] }
    if pg.anchorFound then ({ pg with position := pg.anchorOffset }, false) else (pg, true)

@[simp] theorem add_hasAnchor (pg : Pagination κ) (prefixId documentId : UInt32) :
    (pg.add prefixId documentId).1.hasAnchor = pg.hasAnchor := by
  simp only [add]
  split_ifs <;> rfl

@[simp] theorem add_prefixKey (pg : Pagination κ) (prefixId documentId : UInt32) :
    (pg.add prefixId documentId).1.prefixKey = pg.prefixKey := by
  simp only [add]
  split_ifs <;> rfl

theorem add_withPrefixKey (pg : Pagination κ) (key : κ) (prefixId documentId : UInt32) :
    (pg.withPrefixKey key).add prefixId documentId =
      ((pg.add prefixId documentId).1.withPrefixKey key, (pg.add prefixId documentId).2) := by
  unfold add withPrefixKey
  dsimp only
  split_ifs <;> rfl

/-- `add` on a document given as its prefix and document id. -/
def addPair (pg : Pagination κ) (e : UInt32 × UInt32) : Pagination κ × Bool := pg.add e.1 e.2

/-- `Pagination::is_full`. -/
def isFull (pg : Pagination κ) : Bool := pg.ids.length == pg.limit

/-- `Pagination::build`. -/
def build (pg : Pagination κ) : SortedResultSet :=
  let result : SortedResultSet := ⟨0, pg.ids, !pg.hasAnchor || pg.anchorFound⟩
  if result.foundAnchor then
    if !pg.hasAnchor && pg.requestedPosition ≥ 0 then
      { result with position := if pg.position = 0 then pg.requestedPosition else 0 }
    else if pg.position ≥ 0 then
      { result with position := pg.position }
    else
      let position := pg.position.natAbs
      let startOffset := if position < result.ids.length then result.ids.length - position else 0
      let endOffset :=
        if pg.limit > 0 then min (startOffset + pg.limit) result.ids.length else result.ids.length
      { result with position := startOffset, ids := (result.ids.take endOffset).drop startOffset }
  else
    result

theorem build_foundAnchor (pg : Pagination κ) :
    pg.build.foundAnchor = (!pg.hasAnchor || pg.anchorFound) := by
  unfold build
  dsimp only
  split_ifs <;> rfl

theorem add_of_neg (pg : Pagination κ) (hanchor : pg.hasAnchor = false) (hpos : pg.position < 0)
    (prefixId documentId : UInt32) :
    pg.add prefixId documentId = ({ pg with ids := pg.ids ++ [packId prefixId documentId] }, true) := by
  simp [add, hanchor, Int.not_le.mpr hpos]

theorem add_of_ne_anchor (pg : Pagination κ) (hanchor : pg.hasAnchor = true) (hoff : 0 ≤ pg.anchorOffset)
    (hfound : pg.anchorFound = false) {documentId : UInt32} (hne : documentId ≠ pg.anchor)
    (prefixId : UInt32) : pg.add prefixId documentId = (pg, true) := by
  simp [add, hanchor, hoff, hfound, hne]

/-- Once the anchor is met, with a nonnegative offset, `add` goes on as if it had been met
before. -/
theorem add_anchor (pg : Pagination κ) (hanchor : pg.hasAnchor = true) (hoff : 0 ≤ pg.anchorOffset)
    (prefixId : UInt32) :
    pg.add prefixId pg.anchor = ({ pg with anchorFound := true } : Pagination κ).add prefixId pg.anchor := by
  simp [add, hanchor, hoff]

/-- With a negative offset, a document other than the anchor is kept and the anchor is
marked as not found. -/
theorem add_neg_of_ne_anchor (pg : Pagination κ) (hanchor : pg.hasAnchor = true)
    (hoff : pg.anchorOffset < 0) {documentId : UInt32} (hne : documentId ≠ pg.anchor)
    (prefixId : UInt32) :
    pg.add prefixId documentId =
      ({ pg with anchorFound := false, ids := pg.ids ++ [packId prefixId documentId] }, true) := by
  simp [add, hanchor, Int.not_le.mpr hoff, hne]

/-- With a negative offset, the anchor is kept, the offset becomes the position and the sort
stops. -/
theorem add_neg_anchor (pg : Pagination κ) (hanchor : pg.hasAnchor = true) (hoff : pg.anchorOffset < 0)
    (prefixId : UInt32) :
    pg.add prefixId pg.anchor =
      ({ pg with
          position := pg.anchorOffset, anchorFound := true,
          ids := pg.ids ++ [packId prefixId pg.anchor] }, false) := by
  simp [add, hanchor, Int.not_le.mpr hoff]

theorem add_skip (pg : Pagination κ) (hanchor : pg.hasAnchor = false) (hpos : 0 < pg.position)
    (prefixId documentId : UInt32) :
    pg.add prefixId documentId = ({ pg with position := pg.position - 1 }, true) := by
  simp [add, hanchor, hpos, Int.le_of_lt hpos]

/-- Without an anchor, at position zero the document is kept, and the sort stops once `limit`
are kept. -/
theorem add_keep (pg : Pagination κ) (hanchor : pg.hasAnchor = false) (hpos : pg.position = 0)
    (prefixId documentId : UInt32) :
    pg.add prefixId documentId =
      ({ pg with ids := pg.ids ++ [packId prefixId documentId] }, pg.ids.length + 1 != pg.limit) := by
  simp [add, hanchor, hpos]

theorem add_of_found (pg : Pagination κ) (hanchor : pg.hasAnchor = true) (hoff : 0 ≤ pg.anchorOffset)
    {documentId : UInt32} (hfound : pg.anchorFound = true ∨ documentId = pg.anchor) (prefixId : UInt32) :
    pg.add prefixId documentId = ({ pg with anchorFound := true } : Pagination κ).add prefixId documentId := by
  rcases hfound with hfound | rfl
  · simp [add, hanchor, hoff, hfound]
  · simp [add, hanchor, hoff]

theorem add_found_skip (pg : Pagination κ) (hanchor : pg.hasAnchor = true) (hfound : pg.anchorFound = true)
    (hoff : 0 < pg.anchorOffset) (prefixId documentId : UInt32) :
    pg.add prefixId documentId = ({ pg with anchorOffset := pg.anchorOffset - 1 }, true) := by
  simp [add, hanchor, hfound, hoff, Int.le_of_lt hoff]

/-- Past the anchor, at offset zero the document is kept, and the sort stops once `limit`
are kept. -/
theorem add_found_keep (pg : Pagination κ) (hanchor : pg.hasAnchor = true) (hfound : pg.anchorFound = true)
    (hoff : pg.anchorOffset = 0) (prefixId documentId : UInt32) :
    pg.add prefixId documentId =
      ({ pg with ids := pg.ids ++ [packId prefixId documentId] }, pg.ids.length + 1 != pg.limit) := by
  simp [add, hanchor, hfound, hoff]

/-- Without an anchor and with a nonnegative position, `add` skips `position` documents
and then keeps them until `limit` are kept. -/
theorem skipTake_noAnchor (pg : Pagination κ) (hanchor : pg.hasAnchor = false) :
    SkipTake (addPair (κ := κ))
      (fun c out => { pg with position := (c : Int), ids := out }) idOf pg.limit where
  skip c out e := by
    have hc : (0 : Int) < c + 1 := by omega
    have hc' : (0 : Int) ≤ c + 1 := by omega
    simp [addPair, add, hanchor, hc, hc']
  take out e := by simp [addPair, add, hanchor, idOf]

/-- Past the anchor, with a nonnegative offset, `add` skips `anchorOffset` documents and then
keeps them until `limit` are kept. -/
theorem skipTake_anchor (pg : Pagination κ) (hanchor : pg.hasAnchor = true) :
    SkipTake (addPair (κ := κ))
      (fun c out => { pg with anchorOffset := (c : Int), anchorFound := true, ids := out })
      idOf pg.limit where
  skip c out e := by
    have hc : (0 : Int) < c + 1 := by omega
    have hc' : (0 : Int) ≤ c + 1 := by omega
    simp [addPair, add, hanchor, hc, hc']
  take out e := by simp [addPair, add, hanchor, idOf]

theorem add_ids (pg : Pagination κ) (prefixId documentId : UInt32) :
    (pg.add prefixId documentId).1.ids = pg.ids ∨
      (pg.add prefixId documentId).1.ids = pg.ids ++ [packId prefixId documentId] := by
  simp only [add]
  split_ifs <;> simp

theorem build_ids_sublist (pg : Pagination κ) : pg.build.ids.Sublist pg.ids := by
  unfold build
  dsimp only
  split_ifs <;> dsimp only
  all_goals first
    | exact List.Sublist.refl _
    | exact (List.drop_sublist _ _).trans (List.take_sublist _ _)

/-- The modes in which `add` asks to stop only once the page is full (no anchor and a
nonnegative position, or an anchor and a nonnegative offset), with room left on the page. -/
structure Room (pg : Pagination κ) : Prop where
  mode : pg.hasAnchor = false ∧ 0 ≤ pg.position ∨ pg.hasAnchor = true ∧ 0 ≤ pg.anchorOffset
  room : pg.ids.length < pg.limit

theorem Room.isFull {pg : Pagination κ} (h : Room pg) : pg.isFull = false :=
  beq_false_of_ne (Nat.ne_of_lt h.room)

theorem room_or_full (pg : Pagination κ) (hroom : pg.ids.length < pg.limit) (id : UInt64) :
    (pg.ids ++ [id]).length < pg.limit ∨ pg.ids.length + 1 = pg.limit := by
  simp only [List.length_append, List.length_singleton]
  omega

theorem Room.add {pg : Pagination κ} (h : Room pg) (prefixId documentId : UInt32) :
    if (pg.add prefixId documentId).2 then Room (pg.add prefixId documentId).1
    else (pg.add prefixId documentId).1.isFull = true := by
  have hroom := h.room
  rcases h.mode with ⟨hanchor, hpos⟩ | ⟨hanchor, hoff⟩
  · rcases Int.lt_or_eq_of_le hpos with hpos | hpos
    · rw [add_skip pg hanchor hpos]
      exact ⟨.inl ⟨hanchor, by simp only; omega⟩, hroom⟩
    · rw [add_keep pg hanchor hpos.symm]
      rcases room_or_full pg hroom (packId prefixId documentId) with hleft | hfull
      · have hne : pg.ids.length + 1 ≠ pg.limit := by simp at hleft; omega
        simpa [hne] using (⟨.inl ⟨hanchor, by omega⟩, hleft⟩ :
          Room { pg with ids := pg.ids ++ [packId prefixId documentId] })
      · simp [hfull, Pagination.isFull]
  · by_cases hskip : pg.anchorFound = false ∧ documentId ≠ pg.anchor
    · rw [add_of_ne_anchor pg hanchor hoff hskip.1 hskip.2]
      exact h
    · have hfound : pg.anchorFound = true ∨ documentId = pg.anchor := by
        cases hf : pg.anchorFound <;> simp_all
      rw [add_of_found pg hanchor hoff hfound]
      set q : Pagination κ := { pg with anchorFound := true }
      rcases Int.lt_or_eq_of_le hoff with hoff | hoff
      · rw [add_found_skip q hanchor rfl hoff]
        exact ⟨.inr ⟨hanchor, by simp only [q]; omega⟩, hroom⟩
      · rw [add_found_keep q hanchor rfl hoff.symm]
        rcases room_or_full q hroom (packId prefixId documentId) with hleft | hfull
        · have hne : q.ids.length + 1 ≠ q.limit := by simp at hleft; omega
          simpa [hne] using (⟨.inr ⟨hanchor, by simp only [q]; omega⟩, hleft⟩ :
            Room { q with ids := q.ids ++ [packId prefixId documentId] })
        · simp [hfull, Pagination.isFull]

/-- The modes in which `add` keeps every document it is given: no anchor and a negative
position, or an anchor and a negative offset. -/
def Pushes (pg : Pagination κ) : Prop :=
  pg.hasAnchor = false ∧ pg.position < 0 ∨ pg.hasAnchor = true ∧ pg.anchorOffset < 0

theorem Pushes.add {pg : Pagination κ} (h : Pushes pg) (prefixId documentId : UInt32) :
    (pg.add prefixId documentId).1.ids = pg.ids ++ [packId prefixId documentId] ∧
      Pushes (pg.add prefixId documentId).1 := by
  rcases h with ⟨hanchor, hpos⟩ | ⟨hanchor, hoff⟩
  · rw [add_of_neg pg hanchor hpos]
    exact ⟨rfl, .inl ⟨hanchor, hpos⟩⟩
  · by_cases hd : documentId = pg.anchor
    · subst hd
      rw [add_neg_anchor pg hanchor hoff]
      exact ⟨rfl, .inr ⟨hanchor, hoff⟩⟩
    · rw [add_neg_of_ne_anchor pg hanchor hoff hd]
      exact ⟨rfl, .inr ⟨hanchor, hoff⟩⟩

end Pagination

open Pagination

variable {κ : Type}

/-- The sorted documents, as pairs of prefix and document id, given to `add` until it asks
to stop. -/
def feed (pg : Pagination κ) (docs : List (UInt32 × UInt32)) : Pagination κ × Bool :=
  consume addPair pg docs

theorem feed_withPrefixKey (pg : Pagination κ) (key : κ) (docs : List (UInt32 × UInt32)) :
    feed (pg.withPrefixKey key) docs = ((feed pg docs).1.withPrefixKey key, (feed pg docs).2) :=
  @consume_map _ _ addPair _ addPair (fun pg => pg.withPrefixKey key) (fun pg e => add_withPrefixKey pg key e.1 e.2)
    pg docs

theorem feed_room {pg : Pagination κ} (h : Room pg) (docs : List (UInt32 × UInt32)) :
    if (feed pg docs).2 then Room (feed pg docs).1 else (feed pg docs).1.isFull = true := by
  induction docs generalizing pg with
  | nil => simpa [feed] using h
  | cons e docs ih =>
    have hstep := h.add e.1 e.2
    have hcons : feed pg (e :: docs) =
        if (pg.add e.1 e.2).2 then feed (pg.add e.1 e.2).1 docs else ((pg.add e.1 e.2).1, false) :=
      consume_cons _ _ _
    rw [hcons]
    by_cases hgo : (pg.add e.1 e.2).2
    · rw [if_pos hgo] at hstep ⊢
      exact ih hstep
    · rw [if_neg hgo] at hstep ⊢
      simpa using hstep

/-! ## The page a query asks for -/

/-- The index of the first id of the page: `position`, counted from the end when it is
negative, and never before the first result. -/
def startIndex (total : ℕ) (position : Int) : ℕ :=
  if 0 ≤ position then position.toNat else total - min position.natAbs total

/-- The page of a query without an anchor: at most `limit` ids from the start index on,
and the index of the first of them, or 0 past the end of the results. -/
def window (limit : ℕ) (position : Int) (ids : List UInt64) : SortedResultSet :=
  let start := startIndex ids.length position
  ⟨if start ≤ ids.length then start else 0, (ids.drop start).take limit, true⟩

/-- The page of a query whose anchor has index `i`: at most `limit` ids from `i` plus the
offset on, never before the first result, and the index of the first of them. -/
def anchorWindow (limit : ℕ) (i : ℕ) (anchorOffset : Int) (ids : List UInt64) : SortedResultSet :=
  let start := ((i : Int) + anchorOffset).toNat
  ⟨start, (ids.drop start).take limit, true⟩

/-! ## Feeding the sorted documents -/

theorem feed_noAnchor_neg {pg : Pagination κ} (hanchor : pg.hasAnchor = false) (hpos : pg.position < 0)
    (docs : List (UInt32 × UInt32)) :
    feed pg docs = ({ pg with ids := pg.ids ++ docs.map idOf }, true) := by
  have hstep : ∀ (out : List UInt64), ∀ e ∈ docs,
      addPair ({ pg with ids := out } : Pagination κ) e = ({ pg with ids := out ++ [idOf e] }, true) :=
    fun out e _ => add_of_neg { pg with ids := out } hanchor hpos e.1 e.2
  exact consume_of_append (fun out => { pg with ids := out }) idOf hstep pg.ids

theorem feed_neg_of_ne_anchor {pg : Pagination κ} (hanchor : pg.hasAnchor = true)
    (hoff : pg.anchorOffset < 0) (hfound : pg.anchorFound = false) {docs : List (UInt32 × UInt32)}
    (hdocs : ∀ e ∈ docs, e.2 ≠ pg.anchor) :
    feed pg docs = ({ pg with ids := pg.ids ++ docs.map idOf }, true) := by
  have hstep : ∀ (out : List UInt64), ∀ e ∈ docs,
      addPair ({ pg with ids := out } : Pagination κ) e = ({ pg with ids := out ++ [idOf e] }, true) := by
    intro out e he
    rw [addPair, add_neg_of_ne_anchor { pg with ids := out } hanchor hoff (hdocs e he), ← hfound]
    rfl
  exact consume_of_append (fun out => { pg with ids := out }) idOf hstep pg.ids

/-- With a negative offset, the documents up to the anchor are kept, and the anchor stops the
loop with the position set to the offset. -/
theorem feed_anchor_neg {pg : Pagination κ} (hanchor : pg.hasAnchor = true) (hoff : pg.anchorOffset < 0)
    (hfound : pg.anchorFound = false) {before : List (UInt32 × UInt32)}
    (hbefore : ∀ e ∈ before, e.2 ≠ pg.anchor) (prefixId : UInt32) (after : List (UInt32 × UInt32)) :
    feed pg (before ++ (prefixId, pg.anchor) :: after) =
      ({ pg with
          position := pg.anchorOffset, anchorFound := true,
          ids := pg.ids ++ before.map idOf ++ [packId prefixId pg.anchor] }, false) := by
  rw [feed, consume_append_of_true (feed_neg_of_ne_anchor hanchor hoff hfound hbefore),
    consume_cons_of_false (add_neg_anchor { pg with ids := pg.ids ++ before.map idOf } hanchor hoff prefixId)]

/-- With a negative offset, documents other than the anchor leave it not found, whatever it
was before them. -/
theorem anchorFound_feed_neg {pg : Pagination κ} (hanchor : pg.hasAnchor = true)
    (hoff : pg.anchorOffset < 0) {docs : List (UInt32 × UInt32)} (hne : docs ≠ [])
    (hdocs : ∀ e ∈ docs, e.2 ≠ pg.anchor) : (feed pg docs).1.anchorFound = false := by
  obtain ⟨e, docs, rfl⟩ := List.exists_cons_of_ne_nil hne
  have hfirst := add_neg_of_ne_anchor pg hanchor hoff (hdocs e List.mem_cons_self) e.1
  set q : Pagination κ := { pg with anchorFound := false, ids := pg.ids ++ [packId e.1 e.2] }
  have hq : q.hasAnchor = true := hanchor
  have hqo : q.anchorOffset < 0 := hoff
  rw [feed, consume_cons_of_true hfirst, ← feed,
    feed_neg_of_ne_anchor hq hqo rfl fun x hx => hdocs x (List.mem_cons_of_mem e hx)]

/-- The slice `ids[start..end]` of `build` for a negative position is the window of `limit` ids
from `start`. -/
theorem drop_take_min (ids : List UInt64) (start limit : ℕ) :
    (ids.take (min (start + limit) ids.length)).drop start = (ids.drop start).take limit := by
  rw [List.drop_take, List.take_eq_take_iff, List.length_drop]
  omega

/-- A negative position, once the anchor is found or when there is none: `build` cuts at most
`limit` ids counted from the end. -/
theorem build_of_neg {pg : Pagination κ} (hfound : (!pg.hasAnchor || pg.anchorFound) = true)
    (hreq : (!pg.hasAnchor && decide (pg.requestedPosition ≥ 0)) = false) (hpos : pg.position < 0)
    (hlimit : 0 < pg.limit) :
    pg.build = ⟨startIndex pg.ids.length pg.position,
      (pg.ids.drop (startIndex pg.ids.length pg.position)).take pg.limit, true⟩ := by
  have hstart : (if pg.position.natAbs < pg.ids.length then pg.ids.length - pg.position.natAbs else 0) =
      startIndex pg.ids.length pg.position := by
    rw [startIndex, if_neg (Int.not_le.mpr hpos)]
    split_ifs <;> omega
  simp only [build, hfound, hreq, hlimit, if_true, Bool.false_eq_true, if_false,
    Int.not_le.mpr hpos, hstart, drop_take_min]

/-- Without an anchor, the sort's documents, taken until `add` asks to stop, give the page of
the query. -/
theorem build_feed_noAnchor {limit : ℕ} (hlimit : 0 < limit) (position : Int)
    (docs : List (UInt32 × UInt32)) :
    (feed (new limit position none 0 : Pagination κ) docs).1.build =
      window limit position (docs.map idOf) := by
  set pg : Pagination κ := new limit position none 0 with hpg
  have hanchor : pg.hasAnchor = false := rfl
  by_cases hpos : 0 ≤ position
  · -- a nonnegative position is counted down, then the window is filled
    obtain ⟨q, rfl⟩ := Int.eq_ofNat_of_zero_le hpos
    have hmk : pg = { pg with position := (q : Int), ids := [] } := rfl
    have hlen : ([] : List UInt64).length < pg.limit := by simpa [hpg, new] using hlimit
    have hfeed := (skipTake_noAnchor pg hanchor).consume_eq hlen q docs
    rw [← hmk] at hfeed
    rw [feed, hfeed]
    have hq : startIndex docs.length (q : Int) = q := by simp [startIndex]
    simp only [window, List.length_map, hq, build,
      List.nil_append, List.length_nil, Nat.sub_zero, List.map_drop, List.map_take]
    simp [hpg, new, Nat.sub_eq_zero_iff_le]
  · -- a negative position keeps every document, and `build` cuts the window
    have hneg : position < 0 := Int.not_le.mp hpos
    rw [feed_noAnchor_neg hanchor hneg, build_of_neg rfl (by simp [hpg, new, hneg]) hneg hlimit]
    have hstart : startIndex docs.length position ≤ docs.length := by
      rw [startIndex, if_neg hpos]
      omega
    simp [window, hstart, hpg, new]

theorem build_feed_noAnchor_example :
    (feed (new 2 1 none 0 : Pagination Unit) [(0, 5), (0, 7), (0, 9)]).1.build =
      window 2 1 ([(0, 5), (0, 7), (0, 9)].map idOf) :=
  build_feed_noAnchor (by decide) 1 _

/-! ## Anchors -/

theorem exists_first_anchor {docs : List (UInt32 × UInt32)} {anchor : UInt32}
    (h : ∃ e ∈ docs, e.2 = anchor) :
    ∃ before prefixId after, docs = before ++ (prefixId, anchor) :: after ∧
      ∀ e ∈ before, e.2 ≠ anchor := by
  obtain ⟨e, hfind⟩ : ∃ e, docs.find? (fun e => e.2 == anchor) = some e := by
    apply Option.isSome_iff_exists.mp
    rw [List.find?_isSome]
    simpa using h
  obtain ⟨he, before, after, rfl, hbefore⟩ := List.find?_eq_some_iff_append.mp hfind
  rw [beq_iff_eq] at he
  subst he
  exact ⟨before, e.1, after, rfl, fun x hx => by simpa using hbefore x hx⟩

theorem hasAnchor_feed (pg : Pagination κ) (docs : List (UInt32 × UInt32)) :
    (feed pg docs).1.hasAnchor = pg.hasAnchor := by
  refine consume_invariant (P := fun s : Pagination κ => s.hasAnchor = pg.hasAnchor) ?_ rfl
  intro s e _ hs
  rw [← hs, addPair, add_hasAnchor]

theorem feed_append_of_ne_anchor {pg : Pagination κ} (hanchor : pg.hasAnchor = true)
    (hoff : 0 ≤ pg.anchorOffset) (hfound : pg.anchorFound = false) {before : List (UInt32 × UInt32)}
    (hbefore : ∀ e ∈ before, e.2 ≠ pg.anchor) (docs : List (UInt32 × UInt32)) :
    feed pg (before ++ docs) = feed pg docs :=
  consume_append_of_fixed (fun e he => add_of_ne_anchor pg hanchor hoff hfound (hbefore e he) e.1) docs

theorem anchorFound_feed (pg : Pagination κ) (hanchor : pg.hasAnchor = true) (hoff : 0 ≤ pg.anchorOffset)
    (hfound : pg.anchorFound = true) (docs : List (UInt32 × UInt32)) : (feed pg docs).1.anchorFound = true := by
  refine (consume_invariant (P := fun s : Pagination κ =>
    s.hasAnchor = true ∧ 0 ≤ s.anchorOffset ∧ s.anchorFound = true) ?_ ⟨hanchor, hoff, hfound⟩).2.2
  rintro s e - ⟨hs, hso, hsf⟩
  unfold addPair add
  simp only [hs, hso, hsf]
  split_ifs <;> simp_all
  omega

/-- With a nonnegative offset, the ids are the page from the anchor's index plus the offset.
With a nonnegative position the position returned is the request's, not that index; with a
negative one `build` cuts the page again from its end, as for a query without an anchor. -/
theorem build_feed_anchor {limit : ℕ} (hlimit : 0 < limit) (position : Int)
    (anchor : UInt32) (anchorOffset : ℕ) {before : List (UInt32 × UInt32)}
    (hbefore : ∀ e ∈ before, e.2 ≠ anchor) (prefixId : UInt32) (after : List (UInt32 × UInt32)) :
    (feed (new limit position (some anchor) anchorOffset : Pagination κ)
        (before ++ (prefixId, anchor) :: after)).1.build =
      if 0 ≤ position then
        { anchorWindow limit before.length anchorOffset
            ((before ++ (prefixId, anchor) :: after).map idOf) with position }
      else
        window limit position (anchorWindow limit before.length anchorOffset
          ((before ++ (prefixId, anchor) :: after).map idOf)).ids := by
  set pg : Pagination κ := new limit position (some anchor) anchorOffset with hpg
  have hanchor : pg.hasAnchor = true := rfl
  rw [feed_append_of_ne_anchor hanchor (by simp [hpg, new]) rfl hbefore]
  -- from the anchor on, `add` runs as if the anchor had been found already
  have hfrom : feed pg ((prefixId, anchor) :: after) =
      feed { pg with anchorOffset := (anchorOffset : Int), anchorFound := true, ids := [] }
        ((prefixId, anchor) :: after) :=
    consume_cons_congr (add_anchor pg hanchor (by simp [hpg, new]) prefixId) after
  have hlen : ([] : List UInt64).length < pg.limit := hlimit
  rw [hfrom, feed, (skipTake_anchor pg hanchor).consume_eq hlen anchorOffset]
  have hstart : ((before.length : Int) + (anchorOffset : Int)).toNat =
      (before.map idOf).length + anchorOffset := by
    rw [List.length_map]
    omega
  split_ifs with hpos
  · simp only [build, anchorWindow, hanchor, hstart, List.map_append, List.drop_length_add_append]
    simp [hpg, new, hpos]
  · -- `build` cuts the page again from its end
    rw [build_of_neg rfl rfl (Int.not_le.mp hpos) hlimit]
    have hle : ∀ total, startIndex total position ≤ total := fun total => by
      rw [startIndex, if_neg hpos]
      omega
    simp only [window, anchorWindow, hstart, List.map_append, List.drop_length_add_append]
    simp [hle, hpg, new, List.map_drop, List.map_take]

theorem build_feed_anchor_example :
    (feed (new 2 (-1) (some 7) (0 : ℕ) : Pagination Unit) ([(0, 5)] ++ (0, 7) :: [(0, 9), (0, 11)])).1.build =
      if 0 ≤ (-1 : Int) then
        { anchorWindow 2 [(0, 5)].length (0 : ℕ)
            (([(0, 5)] ++ (0, 7) :: [(0, 9), (0, 11)] : List (UInt32 × UInt32)).map idOf) with position := -1 }
      else
        window 2 (-1) (anchorWindow 2 [(0, 5)].length (0 : ℕ)
          (([(0, 5)] ++ (0, 7) :: [(0, 9), (0, 11)] : List (UInt32 × UInt32)).map idOf)).ids :=
  build_feed_anchor (by decide) (-1) 7 0 (by simp) 0 _

/-- With a negative offset, the page is cut as if the anchor were one place further and the
results ended with it. -/
theorem build_feed_anchor_neg {limit : ℕ} (hlimit : 0 < limit) (position : Int) (anchor : UInt32)
    {anchorOffset : Int} (hoff : anchorOffset < 0) {before : List (UInt32 × UInt32)}
    (hbefore : ∀ e ∈ before, e.2 ≠ anchor) (prefixId : UInt32) (after : List (UInt32 × UInt32)) :
    (feed (new limit position (some anchor) anchorOffset : Pagination κ)
        (before ++ (prefixId, anchor) :: after)).1.build =
      anchorWindow limit (before.length + 1) anchorOffset ((before ++ [(prefixId, anchor)]).map idOf) := by
  set pg : Pagination κ := new limit position (some anchor) anchorOffset with hpg
  have hanchor : pg.hasAnchor = true := rfl
  show (feed pg (before ++ (prefixId, pg.anchor) :: after)).1.build = _
  rw [feed_anchor_neg hanchor hoff rfl hbefore prefixId after, build_of_neg rfl rfl hoff hlimit]
  have hstart : startIndex (before.length + 1) anchorOffset =
      ((((before.length + 1 : ℕ) : Int) + anchorOffset).toNat) := by
    rw [startIndex, if_neg (Int.not_le.mpr hoff)]
    omega
  simp [anchorWindow, hpg, new, idOf, hstart]

theorem build_feed_anchor_neg_example :
    (feed (new 3 0 (some 7) (-1) : Pagination Unit) ([(0, 5)] ++ (0, 7) :: [(0, 9), (0, 11)])).1.build =
      anchorWindow 3 ([(0, 5)].length + 1) (-1) (([(0, 5)] ++ [(0, 7)] : List (UInt32 × UInt32)).map idOf) :=
  build_feed_anchor_neg (by decide) 0 7 (by decide) (by simp) 0 _

/-- With an anchor, `found_anchor` holds exactly when the sorted documents hold the anchor,
whatever the offset. -/
theorem foundAnchor_build_feed (limit : ℕ) (position : Int) (anchor : UInt32) (anchorOffset : Int)
    (docs : List (UInt32 × UInt32)) :
    (feed (new limit position (some anchor) anchorOffset : Pagination κ) docs).1.build.foundAnchor =
      true ↔ ∃ e ∈ docs, e.2 = anchor := by
  set pg : Pagination κ := new limit position (some anchor) anchorOffset with hpg
  have hanchor : pg.hasAnchor = true := rfl
  have hpga : pg.anchor = anchor := rfl
  rw [build_foundAnchor, hasAnchor_feed, hanchor, Bool.not_true, Bool.false_or]
  constructor
  · intro hfound
    by_contra hnone
    have hne : ∀ e ∈ docs, e.2 ≠ pg.anchor := fun e he hea => hnone ⟨e, he, hea⟩
    by_cases hoff : 0 ≤ anchorOffset
    · -- nothing is the anchor, so nothing changes
      have hfix := feed_append_of_ne_anchor hanchor hoff rfl hne []
      rw [List.append_nil] at hfix
      rw [hfix] at hfound
      cases hfound
    · rw [feed_neg_of_ne_anchor hanchor (Int.not_le.mp hoff) rfl hne] at hfound
      cases hfound
  · intro h
    obtain ⟨before, prefixId, after, rfl, hbefore⟩ := exists_first_anchor h
    rw [← hpga] at hbefore
    by_cases hoff : 0 ≤ anchorOffset
    · rw [feed_append_of_ne_anchor hanchor hoff rfl hbefore, feed,
        consume_cons_congr (add_anchor pg hanchor hoff prefixId), ← feed]
      exact anchorFound_feed { pg with anchorFound := true } hanchor hoff rfl _
    · rw [← hpga, feed_anchor_neg hanchor (Int.not_le.mp hoff) rfl hbefore prefixId after]

end MailServer.Store.Pagination
