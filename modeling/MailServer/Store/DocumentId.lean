import Mathlib

/-! # Document ids assigned by a RocksDB write transaction

A batch creates a document with `DocumentId { document_id: u32::MAX }` followed by the
`DocumentIds` bitmap operation. When `RocksDBTransaction::commit` meets that operation with
the id still `u32::MAX`, it reads the ids of the `DocumentIds` bitmap through the
transaction, so with the ids created before in the same batch, and draws the new id with
`random_available_id`: one of the first 100 candidates, the ids missing below the largest
id followed by the ids after it. Its increments are `u32` ones and wrap, as the workspace
builds with `overflow-checks = false`.

While the largest id stays below `u32::MAX - 100`, every candidate is free, is not `u32::MAX`
and is at most the largest id plus 100 (`availableIds_fresh`); a batch creating `k`
documents then gets `k` distinct free ids as long as the largest id plus `100 k` stays below
`u32::MAX` (`commit_assigns_fresh`). Past that, the candidates reach `u32::MAX` itself, and
once `u32::MAX` is in the bitmap `last_id = id + 1` wraps to `0` and the candidates start
again from the first live ids (`commit_reuses_live_id`).
-/

namespace MailServer.Store.DocumentId

/-- `u32::MAX`, the document id of a document not created yet. -/
def u32Max : UInt32 := 0xFFFFFFFF

/-- `RoaringBitmap::insert` on the ids in ascending order. -/
def insertId (id : UInt32) : List UInt32 → List UInt32
  | [] => [id]
  | x :: ids => if id < x then id :: x :: ids else if id = x then x :: ids else x :: insertId id ids

theorem mem_insertId {id y : UInt32} {ids : List UInt32} : y ∈ insertId id ids ↔ y = id ∨ y ∈ ids := by
  induction ids with
  | nil => simp [insertId]
  | cons x ids ih =>
    rw [insertId]
    split_ifs with hlt heq
    · simp
    · subst heq
      simp
    · rw [List.mem_cons, ih, List.mem_cons]
      exact or_left_comm

theorem insertId_sorted {id : UInt32} {ids : List UInt32} (h : ids.Pairwise (· < ·)) :
    (insertId id ids).Pairwise (· < ·) := by
  induction ids with
  | nil => simp [insertId]
  | cons x ids ih =>
    rw [List.pairwise_cons] at h
    rw [insertId]
    split_ifs with hlt heq
    · refine List.Pairwise.cons (fun y hy => ?_) (List.Pairwise.cons h.1 h.2)
      rcases List.mem_cons.mp hy with rfl | hy
      · exact hlt
      · have hxy := h.1 y hy
        rw [UInt32.lt_iff_toNat_lt] at hlt hxy ⊢
        omega
    · exact List.Pairwise.cons h.1 h.2
    · -- `id` goes after `x`
      have hxid : x < id := by
        rw [UInt32.lt_iff_toNat_lt] at hlt ⊢
        have hne : id.toNat ≠ x.toNat := fun h => heq (UInt32.toNat_inj.mp h)
        omega
      refine List.Pairwise.cons (fun y hy => ?_) (ih h.2)
      rcases mem_insertId.mp hy with rfl | hy
      · exact hxid
      · exact h.1 y hy

theorem insertId_of_lt {id : UInt32} {ids : List UInt32} (h : ∀ x ∈ ids, x < id) : insertId id ids = ids ++ [id] := by
  induction ids with
  | nil => rfl
  | cons x ids ih =>
    have hx := h x List.mem_cons_self
    have hnlt : ¬ id < x := by
      rw [UInt32.lt_iff_toNat_lt] at hx ⊢
      omega
    have hne : id ≠ x := fun hxid => by
      rw [hxid, UInt32.lt_iff_toNat_lt] at hx
      omega
    rw [insertId, if_neg hnlt, if_neg hne, ih fun y hy => h y (List.mem_cons_of_mem _ hy)]
    rfl

/-- A `RoaringBitmap` of document ids, listed as `iter` yields them: in ascending order. -/
structure Bitmap where
  ids : List UInt32
  sorted : ids.Pairwise (· < ·)

/-- `RoaringBitmap::insert`. -/
def Bitmap.insert (bitmap : Bitmap) (id : UInt32) : Bitmap := ⟨insertId id bitmap.ids, insertId_sorted bitmap.sorted⟩

/-- `RoaringBitmap::remove`. -/
def Bitmap.remove (bitmap : Bitmap) (id : UInt32) : Bitmap :=
  ⟨bitmap.ids.erase id, bitmap.sorted.sublist (List.erase_sublist)⟩

/-- The bitmap of the ids of a list. -/
def Bitmap.ofList (ids : List UInt32) : Bitmap := ids.foldr (fun id bitmap => bitmap.insert id) ⟨[], List.Pairwise.nil⟩

theorem Bitmap.mem_ofList {id : UInt32} {ids : List UInt32} : id ∈ (Bitmap.ofList ids).ids ↔ id ∈ ids := by
  induction ids with
  | nil => simp [Bitmap.ofList]
  | cons a ids ih =>
    change id ∈ insertId a (Bitmap.ofList ids).ids ↔ _
    rw [mem_insertId, ih, List.mem_cons]

/-- `last_id..id`. -/
def idRange (lastId id : UInt32) : List UInt32 :=
  (List.range' lastId.toNat (id.toNat - lastId.toNat)).map UInt32.ofNat

/-- One pass of `for id in self.iter()`: the ids of the gap before `id` are pushed, then
`last_id = id + 1`. -/
def gapStep (acc : List UInt32 × UInt32) (id : UInt32) : List UInt32 × UInt32 :=
  (acc.1 ++ idRange acc.2 id, id + 1)

/-- The `while available_ids.len() < 100` loop: `count` more ids from `last_id` on. -/
def padIds (lastId : UInt32) : ℕ → List UInt32
  | 0 => []
  | count + 1 => lastId :: padIds (lastId + 1) count

/-- `available_ids` once both loops are done. -/
def availableIds (ids : List UInt32) : List UInt32 :=
  let (gaps, lastId) := ids.foldl gapStep ([], 0)
  gaps ++ padIds lastId (100 - gaps.length)

/-- `random_available_id`: the candidate at `gen_range(0..available_ids.len())`, the draw
`choice` taken into that range. -/
def randomAvailableId (bitmap : Bitmap) (choice : ℕ) : UInt32 :=
  (availableIds bitmap.ids).getD (choice % (availableIds bitmap.ids).length) 0

/-- The `BitmapClass` of a bitmap operation: `DocumentIds`, or a class whose keys lie in
another subspace. -/
inductive BitmapClass where
  | documentIds
  | other
  deriving DecidableEq, Repr

/-- The operations of a batch for one account and collection, as `commit` reads them for
document ids. -/
inductive Operation where
  | documentId (documentId : UInt32)
  | bitmap (bitmapClass : BitmapClass) (set : Bool)
  /-- A value, index or log write: it neither reads nor writes `DocumentIds`. -/
  | other
  deriving DecidableEq, Repr

/-- `BatchBuilder::create_document`. -/
def createDocument : List Operation := [.documentId u32Max, .bitmap .documentIds true]

/-- The variables of `commit` that document ids depend on. -/
structure Txn where
  documentId : UInt32
  /-- The keys of `DocumentIds` as the transaction reads them. -/
  documentIds : Bitmap
  /-- The document ids pushed to `result`. -/
  assigned : List UInt32

/-- One operation of `commit`; `choices n` is the draw of the `n`-th created document. -/
def commitOp (choices : ℕ → ℕ) (txn : Txn) : Operation → Txn
  | .documentId documentId => { txn with documentId }
  | .bitmap bitmapClass set =>
    let txn :=
      if set && bitmapClass = .documentIds && txn.documentId = u32Max then
        let documentId := randomAvailableId txn.documentIds (choices txn.assigned.length)
        { txn with documentId, assigned := txn.assigned ++ [documentId] }
      else txn
    match bitmapClass with
    | .documentIds =>
      if set then { txn with documentIds := txn.documentIds.insert txn.documentId }
      else { txn with documentIds := txn.documentIds.remove txn.documentId }
    | .other => txn
  | .other => txn

/-- `RocksDBTransaction::commit` from the ids of `DocumentIds` before the batch. -/
def commit (choices : ℕ → ℕ) (documentIds : Bitmap) (ops : List Operation) : Txn :=
  ops.foldl (commitOp choices) ⟨u32Max, documentIds, []⟩

/-! ## The candidates -/

theorem toNat_u32Max : u32Max.toNat = 2 ^ 32 - 1 := rfl

theorem toNat_add_one {x : UInt32} (h : x ≠ u32Max) : (x + 1).toNat = x.toNat + 1 := by
  have hx := x.toNat_lt
  have hne : x.toNat ≠ 2 ^ 32 - 1 := fun h' => h (UInt32.toNat_inj.mp (h'.trans toNat_u32Max.symm))
  rw [UInt32.toNat_add, UInt32.toNat_one, Nat.mod_eq_of_lt (by omega)]

theorem mem_idRange {v a b : UInt32} (h : v ∈ idRange a b) : a ≤ v ∧ v < b := by
  obtain ⟨n, hn, rfl⟩ := List.mem_map.mp h
  rw [List.mem_range'_1] at hn
  have hb := b.toNat_lt
  rw [UInt32.le_iff_toNat_le, UInt32.lt_iff_toNat_lt, UInt32.toNat_ofNat', Nat.mod_eq_of_lt (by omega)]
  omega

theorem mem_padIds {v : UInt32} : ∀ {lastId : UInt32} {count : ℕ}, v ∈ padIds lastId count →
    ∃ i < count, v.toNat = (lastId.toNat + i) % 2 ^ 32
  | _, 0, hv => by simp [padIds] at hv
  | lastId, count + 1, hv => by
    rw [padIds, List.mem_cons] at hv
    rcases hv with rfl | hv
    · exact ⟨0, by omega, (Nat.mod_eq_of_lt v.toNat_lt).symm⟩
    · obtain ⟨i, hi, hvi⟩ := mem_padIds hv
      refine ⟨i + 1, by omega, ?_⟩
      rw [hvi, UInt32.toNat_add, UInt32.toNat_one, Nat.mod_add_mod]
      ring_nf

theorem fst_foldl_gapStep (ids : List UInt32) (gaps : List UInt32) (lastId : UInt32) :
    (ids.foldl gapStep (gaps, lastId)).1 = gaps ++ (ids.foldl gapStep ([], lastId)).1 := by
  induction ids generalizing gaps lastId with
  | nil => simp
  | cons id ids ih =>
    simp only [List.foldl_cons, gapStep]
    rw [ih (gaps ++ _), ih ([] ++ _), List.nil_append, List.append_assoc]

theorem mem_gaps {v : UInt32} : ∀ {ids : List UInt32} {lastId : UInt32}, ids.Pairwise (· < ·) →
    (∀ id ∈ ids, lastId ≤ id ∧ id ≠ u32Max) → v ∈ (ids.foldl gapStep ([], lastId)).1 →
      lastId ≤ v ∧ v ∉ ids ∧ ∃ id ∈ ids, v < id
  | [], _, _, _, hv => by simp at hv
  | id :: ids, lastId, hsorted, hids, hv => by
    rw [List.pairwise_cons] at hsorted
    obtain ⟨hlast, hmax⟩ := hids id List.mem_cons_self
    have hsucc := toNat_add_one hmax
    rw [List.foldl_cons, gapStep, fst_foldl_gapStep, List.nil_append, List.mem_append] at hv
    rcases hv with hv | hv
    · -- a gap before `id`
      obtain ⟨hlv, hvid⟩ := mem_idRange hv
      refine ⟨hlv, fun hmem => ?_, id, List.mem_cons_self, hvid⟩
      rcases List.mem_cons.mp hmem with rfl | hmem
      · rw [UInt32.lt_iff_toNat_lt] at hvid
        omega
      · have hidv := hsorted.1 v hmem
        rw [UInt32.lt_iff_toNat_lt] at hvid hidv
        omega
    · -- a gap after `id`, from `last_id = id + 1` on
      have hrest : ∀ x ∈ ids, id + 1 ≤ x ∧ x ≠ u32Max := fun x hx => by
        refine ⟨?_, (hids x (List.mem_cons_of_mem _ hx)).2⟩
        have hidx := hsorted.1 x hx
        rw [UInt32.lt_iff_toNat_lt] at hidx
        rw [UInt32.le_iff_toNat_le, hsucc]
        omega
      obtain ⟨hlv, hvids, x, hx, hvx⟩ := mem_gaps hsorted.2 hrest hv
      rw [UInt32.le_iff_toNat_le, hsucc] at hlv
      rw [UInt32.le_iff_toNat_le] at hlast
      refine ⟨by rw [UInt32.le_iff_toNat_le]; omega, fun hmem => ?_, x, List.mem_cons_of_mem _ hx, hvx⟩
      rcases List.mem_cons.mp hmem with rfl | hmem
      · omega
      · exact hvids hmem

theorem lt_snd_foldl_gapStep : ∀ {ids : List UInt32} {acc : List UInt32 × UInt32}, ids.Pairwise (· < ·) →
    (∀ id ∈ ids, id ≠ u32Max) → ∀ id ∈ ids, id < (ids.foldl gapStep acc).2
  | [], _, _, _, _, hid => by simp at hid
  | [x], acc, _, hmax, id, hid => by
    rw [List.mem_singleton] at hid
    subst hid
    rw [List.foldl_cons, List.foldl_nil, gapStep, UInt32.lt_iff_toNat_lt, toNat_add_one (hmax id List.mem_cons_self)]
    omega
  | x :: y :: ids, acc, hsorted, hmax, id, hid => by
    rw [List.pairwise_cons] at hsorted
    have hlast := @lt_snd_foldl_gapStep (y :: ids) (gapStep acc x) hsorted.2
      fun z hz => hmax z (List.mem_cons_of_mem _ hz)
    rw [List.foldl_cons]
    rcases List.mem_cons.mp hid with rfl | hid
    · have hxy := hsorted.1 y List.mem_cons_self
      have hy := hlast y List.mem_cons_self
      rw [UInt32.lt_iff_toNat_lt] at hxy hy ⊢
      omega
    · exact hlast id hid

theorem snd_foldl_gapStep_le {bound : ℕ} : ∀ {ids : List UInt32} {acc : List UInt32 × UInt32},
    (∀ id ∈ ids, id ≠ u32Max ∧ id.toNat + 1 ≤ bound) → acc.2.toNat ≤ bound →
      (ids.foldl gapStep acc).2.toNat ≤ bound
  | [], _, _, hacc => hacc
  | id :: ids, acc, hids, _ => by
    obtain ⟨hmax, hid⟩ := hids id List.mem_cons_self
    rw [List.foldl_cons]
    apply snd_foldl_gapStep_le fun x hx => hids x (List.mem_cons_of_mem _ hx)
    rw [gapStep, toNat_add_one hmax]
    exact hid

/-- Below `u32::MAX - 100`, every candidate is a free id other than `u32::MAX`, at most 100
above the largest id. -/
theorem availableIds_fresh {ids : List UInt32} (hsorted : ids.Pairwise (· < ·)) {maxId : ℕ}
    (hmax : ∀ id ∈ ids, id.toNat ≤ maxId) (hbound : maxId + 100 < 2 ^ 32 - 1) :
    ∀ v ∈ availableIds ids, v ∉ ids ∧ v ≠ u32Max ∧ v.toNat ≤ maxId + 100 := by
  intro v hv
  have hne : ∀ id ∈ ids, id ≠ u32Max := fun id hid hmaxid => by
    have := hmax id hid
    rw [hmaxid, toNat_u32Max] at this
    omega
  have hvmax : v.toNat ≤ maxId + 100 → v ≠ u32Max := fun hle hvmaxid => by
    rw [hvmaxid, toNat_u32Max] at hle
    omega
  unfold availableIds at hv
  rcases hfold : ids.foldl gapStep ([], 0) with ⟨gaps, lastId⟩
  rw [hfold] at hv
  dsimp only at hv
  rw [List.mem_append] at hv
  rcases hv with hgap | hpad
  · -- a gap lies below an id
    have hids : ∀ id ∈ ids, (0 : UInt32) ≤ id ∧ id ≠ u32Max := fun id hid =>
      ⟨by rw [UInt32.le_iff_toNat_le]; exact Nat.zero_le _, hne id hid⟩
    obtain ⟨-, hvids, id, hid, hvid⟩ := mem_gaps hsorted hids (by rw [hfold]; exact hgap)
    have hle := hmax id hid
    rw [UInt32.lt_iff_toNat_lt] at hvid
    exact ⟨hvids, hvmax (by omega), by omega⟩
  · -- padding from `last_id`, above every id and at most one above the largest
    obtain ⟨i, hi, hvi⟩ := mem_padIds hpad
    have hlast : lastId.toNat ≤ maxId + 1 := by
      have hle := @snd_foldl_gapStep_le _ ids ([], 0)
        (fun id hid => ⟨hne id hid, Nat.succ_le_succ (hmax id hid)⟩) (Nat.zero_le _)
      rw [hfold] at hle
      exact hle
    have hvnat : v.toNat = lastId.toNat + i := by
      rw [hvi, Nat.mod_eq_of_lt (by omega)]
    refine ⟨fun hmem => ?_, hvmax (by omega), by omega⟩
    have hvlt := @lt_snd_foldl_gapStep ids ([], 0) hsorted hne v hmem
    rw [hfold] at hvlt
    dsimp only at hvlt
    rw [UInt32.lt_iff_toNat_lt] at hvlt
    omega

theorem length_padIds (lastId : UInt32) (count : ℕ) : (padIds lastId count).length = count := by
  induction count generalizing lastId with
  | zero => rfl
  | succ count ih => rw [padIds, List.length_cons, ih]

theorem length_availableIds (ids : List UInt32) : 100 ≤ (availableIds ids).length := by
  unfold availableIds
  rcases ids.foldl gapStep ([], 0) with ⟨gaps, lastId⟩
  dsimp only
  rw [List.length_append, length_padIds]
  omega

theorem randomAvailableId_mem (bitmap : Bitmap) (choice : ℕ) :
    randomAvailableId bitmap choice ∈ availableIds bitmap.ids := by
  have hlen := length_availableIds bitmap.ids
  unfold randomAvailableId
  rw [List.getD_eq_getElem _ _ (Nat.mod_lt _ (by omega))]
  exact List.getElem_mem _

/-! ## One batch -/

theorem foldl_createDocument (choices : ℕ → ℕ) (txn : Txn) :
    createDocument.foldl (commitOp choices) txn =
      ⟨randomAvailableId txn.documentIds (choices txn.assigned.length),
        txn.documentIds.insert (randomAvailableId txn.documentIds (choices txn.assigned.length)),
        txn.assigned ++ [randomAvailableId txn.documentIds (choices txn.assigned.length)]⟩ := rfl

/-- Every operation but a `DocumentIds` one. -/
def Operation.keepsDocumentIds : Operation → Bool
  | .bitmap .documentIds _ => false
  | _ => true

theorem foldl_keepsDocumentIds (choices : ℕ → ℕ) : ∀ (ops : List Operation) (txn : Txn),
    (∀ op ∈ ops, op.keepsDocumentIds) →
      (ops.foldl (commitOp choices) txn).documentIds = txn.documentIds ∧
        (ops.foldl (commitOp choices) txn).assigned = txn.assigned
  | [], _, _ => ⟨rfl, rfl⟩
  | op :: ops, txn, hops => by
    have hstep : (commitOp choices txn op).documentIds = txn.documentIds ∧
        (commitOp choices txn op).assigned = txn.assigned := by
      have hop := hops op List.mem_cons_self
      cases op with
      | documentId documentId => exact ⟨rfl, rfl⟩
      | bitmap bitmapClass set =>
        cases bitmapClass with
        | documentIds => simp [Operation.keepsDocumentIds] at hop
        | other => cases set <;> exact ⟨rfl, rfl⟩
      | other => exact ⟨rfl, rfl⟩
    obtain ⟨hids, hassigned⟩ := foldl_keepsDocumentIds choices ops (commitOp choices txn op)
      fun o ho => hops o (List.mem_cons_of_mem _ ho)
    rw [List.foldl_cons]
    exact ⟨hids.trans hstep.1, hassigned.trans hstep.2⟩

/-- After `j` documents created from `bitmap`: the ids drawn are distinct, free and not
`u32::MAX`, and `DocumentIds` holds the ids of `bitmap` and those drawn, none above
`maxId + 100 j`. -/
structure Fresh (bitmap : Bitmap) (maxId j : ℕ) (txn : Txn) : Prop where
  length : txn.assigned.length = j
  nodup : txn.assigned.Nodup
  fresh : ∀ id ∈ txn.assigned, id ∉ bitmap.ids ∧ id ≠ u32Max
  mem : ∀ id, id ∈ txn.documentIds.ids ↔ id ∈ bitmap.ids ∨ id ∈ txn.assigned
  le : ∀ id ∈ txn.documentIds.ids, id.toNat ≤ maxId + 100 * j

section Fresh

variable {bitmap : Bitmap} {maxId j : ℕ} {txn : Txn}

theorem Fresh.init (hmax : ∀ id ∈ bitmap.ids, id.toNat ≤ maxId) : Fresh bitmap maxId 0 ⟨u32Max, bitmap, []⟩ where
  length := rfl
  nodup := List.nodup_nil
  fresh := fun _ hid => by cases hid
  mem := fun _ => by simp
  le := fun id hid => by simpa using hmax id hid

theorem Fresh.of_eq {txn' : Txn} (h : Fresh bitmap maxId j txn) (hids : txn'.documentIds = txn.documentIds)
    (hassigned : txn'.assigned = txn.assigned) : Fresh bitmap maxId j txn' := by
  obtain ⟨hlength, hnodup, hfresh, hmem, hle⟩ := h
  rw [← hids, ← hassigned] at *
  exact ⟨hlength, hnodup, hfresh, hmem, hle⟩

theorem Fresh.create (h : Fresh bitmap maxId j txn) (hbound : maxId + 100 * (j + 1) < 2 ^ 32 - 1)
    (choices : ℕ → ℕ) : Fresh bitmap maxId (j + 1) (createDocument.foldl (commitOp choices) txn) := by
  rw [foldl_createDocument]
  set v := randomAvailableId txn.documentIds (choices txn.assigned.length)
  obtain ⟨hvfree, hvmax, hvle⟩ :=
    availableIds_fresh txn.documentIds.sorted h.le (by omega) v (randomAvailableId_mem _ _)
  have hvbitmap : v ∉ bitmap.ids := fun hv => hvfree ((h.mem v).mpr (Or.inl hv))
  have hvassigned : v ∉ txn.assigned := fun hv => hvfree ((h.mem v).mpr (Or.inr hv))
  constructor
  · rw [List.length_append, h.length, List.length_singleton]
  · rw [List.nodup_append]
    refine ⟨h.nodup, List.nodup_singleton v, fun a ha b hb hab => ?_⟩
    rw [List.mem_singleton] at hb
    subst hab hb
    exact hvassigned ha
  · intro id hid
    rcases List.mem_append.mp hid with hid | hid
    · exact h.fresh id hid
    · rw [List.mem_singleton.mp hid]
      exact ⟨hvbitmap, hvmax⟩
  · intro id
    change id ∈ insertId v txn.documentIds.ids ↔ _
    rw [mem_insertId, h.mem, List.mem_append, List.mem_singleton, or_comm, or_assoc]
  · intro id hid
    change id ∈ insertId v txn.documentIds.ids at hid
    rcases mem_insertId.mp hid with rfl | hid
    · omega
    · have := h.le id hid
      omega

theorem Fresh.run (choices : ℕ → ℕ) : ∀ (docs : List (List Operation)) (j : ℕ) (txn : Txn),
    Fresh bitmap maxId j txn → (∀ rest ∈ docs, ∀ op ∈ rest, op.keepsDocumentIds) →
      maxId + 100 * (j + docs.length) < 2 ^ 32 - 1 →
        Fresh bitmap maxId (j + docs.length) ((docs.flatMap (createDocument ++ ·)).foldl (commitOp choices) txn)
  | [], j, txn, h, _, _ => h
  | rest :: docs, j, txn, h, hdocs, hbound => by
    rw [List.length_cons] at hbound ⊢
    have hcreated := h.create (by omega) choices
    obtain ⟨hids, hassigned⟩ := foldl_keepsDocumentIds choices rest _ (hdocs rest List.mem_cons_self)
    have hwritten := hcreated.of_eq hids hassigned
    have hrun := Fresh.run choices docs (j + 1) _ hwritten (fun r hr => hdocs r (List.mem_cons_of_mem _ hr))
      (by omega)
    rw [List.flatMap_cons, List.foldl_append, List.foldl_append, ← Nat.add_assoc, Nat.add_right_comm]
    exact hrun

end Fresh

/-- A batch creating `k` documents on ids at most `maxId`, with `maxId + 100 k` below
`u32::MAX`, gets `k` distinct ids, none of them live and none `u32::MAX`, whatever the draws. -/
theorem commit_assigns_fresh (choices : ℕ → ℕ) {bitmap : Bitmap} {maxId : ℕ}
    (hmax : ∀ id ∈ bitmap.ids, id.toNat ≤ maxId) {docs : List (List Operation)}
    (hdocs : ∀ rest ∈ docs, ∀ op ∈ rest, op.keepsDocumentIds) (hbound : maxId + 100 * docs.length < 2 ^ 32 - 1) :
    (commit choices bitmap (docs.flatMap (createDocument ++ ·))).assigned.length = docs.length ∧
      (commit choices bitmap (docs.flatMap (createDocument ++ ·))).assigned.Nodup ∧
      ∀ id ∈ (commit choices bitmap (docs.flatMap (createDocument ++ ·))).assigned, id ∉ bitmap.ids ∧ id ≠ u32Max := by
  have hrun := Fresh.run choices docs 0 _ (Fresh.init hmax) hdocs (by omega)
  rw [Nat.zero_add] at hrun
  exact ⟨hrun.length, hrun.nodup, hrun.fresh⟩

/-! ## Past `u32::MAX` -/

theorem upTo_sorted (m : UInt32) : ((List.range (m.toNat + 1)).map UInt32.ofNat).Pairwise (· < ·) := by
  rw [List.pairwise_map]
  refine List.pairwise_lt_range.imp_of_mem fun {a b} ha hb hab => ?_
  have hm := m.toNat_lt
  rw [List.mem_range] at ha hb
  rw [UInt32.lt_iff_toNat_lt, UInt32.toNat_ofNat', UInt32.toNat_ofNat', Nat.mod_eq_of_lt (by omega),
    Nat.mod_eq_of_lt (by omega)]
  exact hab

/-- The ids `0, …, m`. -/
def Bitmap.upTo (m : UInt32) : Bitmap := ⟨(List.range (m.toNat + 1)).map UInt32.ofNat, upTo_sorted m⟩

theorem upTo_ids (m : UInt32) : (Bitmap.upTo m).ids = (List.range' 0 (m.toNat + 1)).map UInt32.ofNat := by
  rw [← List.range_eq_range']
  rfl

theorem foldl_gapStep_run (gaps : List UInt32) : ∀ (count start : ℕ), start + count ≤ 2 ^ 32 →
    ((List.range' start count).map UInt32.ofNat).foldl gapStep (gaps, UInt32.ofNat start) =
      (gaps, UInt32.ofNat (start + count))
  | 0, start, _ => rfl
  | count + 1, start, hle => by
    have hstep : gapStep (gaps, UInt32.ofNat start) (UInt32.ofNat start) = (gaps, UInt32.ofNat (start + 1)) := by
      simp [gapStep, idRange, UInt32.ofNat_add]
    rw [List.range'_succ, List.map_cons, List.foldl_cons, hstep, foldl_gapStep_run gaps count (start + 1) (by omega),
      Nat.add_assoc, Nat.add_comm 1 count]

theorem gapStep_jump (gaps : List UInt32) {start next : ℕ} (hle : start ≤ next) (hnext : next < 2 ^ 32) :
    gapStep (gaps, UInt32.ofNat start) (UInt32.ofNat next) =
      (gaps ++ (List.range' start (next - start)).map UInt32.ofNat, UInt32.ofNat (next + 1)) := by
  rw [gapStep, idRange, UInt32.toNat_ofNat', UInt32.toNat_ofNat', Nat.mod_eq_of_lt (by omega),
    Nat.mod_eq_of_lt hnext, UInt32.ofNat_add]
  rfl

theorem getD_padIds {d : UInt32} : ∀ {lastId : UInt32} {count i : ℕ}, i < count →
    (padIds lastId count).getD i d = lastId + UInt32.ofNat i
  | _, 0, _, hi => absurd hi (Nat.not_lt_zero _)
  | lastId, count + 1, 0, _ => by simp [padIds]
  | lastId, count + 1, i + 1, hi => by
    rw [padIds, List.getD_cons_succ, getD_padIds (by omega), UInt32.ofNat_add, add_assoc, add_comm 1]
    rfl

/-- `0, …, m` followed by `t` ids from `m + 100`: the bitmap after `t` draws of the last
candidate. -/
def upToThen (m : UInt32) (t : ℕ) : List UInt32 :=
  (Bitmap.upTo m).ids ++ (List.range' (m.toNat + 100) t).map UInt32.ofNat

theorem getD_availableIds_upToThen (m : UInt32) : ∀ t, m.toNat + 100 + t ≤ 2 ^ 32 →
    (availableIds (upToThen m t)).getD 99 0 = UInt32.ofNat (m.toNat + 100 + t) ∧
      (availableIds (upToThen m t)).length = 100
  | 0, hle => by
    have hfold : (upToThen m 0).foldl gapStep ([], 0) = ([], UInt32.ofNat (m.toNat + 1)) := by
      rw [upToThen, List.range'_zero, List.map_nil, List.append_nil, upTo_ids,
        show (0 : UInt32) = UInt32.ofNat 0 from rfl, foldl_gapStep_run [] (m.toNat + 1) 0 (by omega), Nat.zero_add]
    rw [availableIds, hfold]
    dsimp only
    rw [List.length_nil, Nat.sub_zero, List.nil_append, getD_padIds (by norm_num), length_padIds,
      ← UInt32.ofNat_add]
    exact ⟨rfl, rfl⟩
  | t + 1, hle => by
    have hfold : (upToThen m (t + 1)).foldl gapStep ([], 0) =
        ((List.range' (m.toNat + 1) 99).map UInt32.ofNat, UInt32.ofNat (m.toNat + 100 + (t + 1))) := by
      rw [upToThen, List.foldl_append, upTo_ids, show (0 : UInt32) = UInt32.ofNat 0 from rfl,
        foldl_gapStep_run [] (m.toNat + 1) 0 (by omega), Nat.zero_add, List.range'_succ, List.map_cons,
        List.foldl_cons, gapStep_jump [] (by omega) (by omega), List.nil_append,
        show m.toNat + 100 - (m.toNat + 1) = 99 by omega,
        foldl_gapStep_run _ t (m.toNat + 100 + 1) (by omega)]
      congr 2
      omega
    have hgaps : ((List.range' (m.toNat + 1) 99).map UInt32.ofNat).length = 99 := by simp
    rw [availableIds, hfold]
    dsimp only
    rw [hgaps, List.getD_append_right _ _ _ _ (by rw [hgaps]), hgaps, List.length_append, hgaps, length_padIds,
      getD_padIds (by norm_num), Nat.sub_self, show UInt32.ofNat 0 = 0 from rfl, add_zero]
    exact ⟨rfl, rfl⟩

/-- After `t` documents created from `0, …, m` with the last candidate drawn each time, the
ids drawn are `m + 100, …, m + 99 + t`. -/
theorem commit_upTo_run (m : UInt32) : ∀ t, m.toNat + 100 + t ≤ 2 ^ 32 →
    ((List.replicate t createDocument).flatten.foldl (commitOp fun _ => 99) ⟨u32Max, Bitmap.upTo m, []⟩).documentIds.ids =
        upToThen m t ∧
      ((List.replicate t createDocument).flatten.foldl (commitOp fun _ => 99) ⟨u32Max, Bitmap.upTo m, []⟩).assigned =
        (List.range' (m.toNat + 100) t).map UInt32.ofNat
  | 0, _ => ⟨by simp [upToThen], rfl⟩
  | t + 1, hle => by
    obtain ⟨hids, hassigned⟩ := commit_upTo_run m t (by omega)
    rw [List.replicate_succ', List.flatten_append, List.flatten_singleton, List.foldl_append, foldl_createDocument]
    set txn := (List.replicate t createDocument).flatten.foldl (commitOp fun _ => 99) ⟨u32Max, Bitmap.upTo m, []⟩
    have hdraw : randomAvailableId txn.documentIds 99 = UInt32.ofNat (m.toNat + 100 + t) := by
      obtain ⟨hget, hlen⟩ := getD_availableIds_upToThen m t (by omega)
      rw [randomAvailableId, hids, hlen]
      exact hget
    have habove : ∀ x ∈ upToThen m t, x < UInt32.ofNat (m.toNat + 100 + t) := by
      intro x hx
      rw [upToThen, Bitmap.upTo, List.mem_append, List.mem_map, List.mem_map] at hx
      rw [UInt32.lt_iff_toNat_lt, UInt32.toNat_ofNat', Nat.mod_eq_of_lt (by omega)]
      rcases hx with ⟨n, hn, rfl⟩ | ⟨n, hn, rfl⟩
      · rw [List.mem_range] at hn
        rw [UInt32.toNat_ofNat', Nat.mod_eq_of_lt (by omega)]
        omega
      · rw [List.mem_range'_1] at hn
        rw [UInt32.toNat_ofNat', Nat.mod_eq_of_lt (by omega)]
        omega
    refine ⟨?_, ?_⟩
    · change insertId (randomAvailableId txn.documentIds 99) txn.documentIds.ids = upToThen m (t + 1)
      rw [hdraw, hids, insertId_of_lt habove, upToThen, upToThen, List.range'_concat, Nat.one_mul,
        List.map_append, List.append_assoc]
      rfl
    · change txn.assigned ++ [randomAvailableId txn.documentIds 99] = _
      rw [hdraw, hassigned, List.range'_concat, Nat.one_mul, List.map_append]
      rfl

/-- From the ids `0, …, m`, with `m` below `u32::MAX - 100` as the bound of a single draw asks,
a batch creating `2^32 - 99 - m` documents, drawing the last candidate each time, hands out
`m + 100, …, u32::MAX`, the id `u32::MAX` included, and then the live id `0`: once `u32::MAX`
is in the bitmap, `last_id = id + 1` wraps to `0`. -/
theorem commit_reuses_live_id (m : UInt32) (hm : m.toNat + 100 < 2 ^ 32 - 1) :
    (commit (fun _ => 99) (Bitmap.upTo m) (List.replicate (2 ^ 32 - 99 - m.toNat) createDocument).flatten).assigned =
        (List.range' (m.toNat + 100) (2 ^ 32 - 100 - m.toNat)).map UInt32.ofNat ++ [0] ∧
      u32Max ∈ (commit (fun _ => 99) (Bitmap.upTo m)
        (List.replicate (2 ^ 32 - 99 - m.toNat) createDocument).flatten).assigned ∧
      (0 : UInt32) ∈ (Bitmap.upTo m).ids := by
  obtain ⟨hids, hassigned⟩ := commit_upTo_run m (2 ^ 32 - 100 - m.toNat) (by omega)
  have hlast : (commit (fun _ => 99) (Bitmap.upTo m) (List.replicate (2 ^ 32 - 99 - m.toNat) createDocument).flatten).assigned =
      (List.range' (m.toNat + 100) (2 ^ 32 - 100 - m.toNat)).map UInt32.ofNat ++ [0] := by
    rw [commit, show 2 ^ 32 - 99 - m.toNat = 2 ^ 32 - 100 - m.toNat + 1 by omega, List.replicate_succ',
      List.flatten_append, List.flatten_singleton, List.foldl_append, foldl_createDocument]
    change _ ++ [randomAvailableId _ 99] = _
    obtain ⟨hget, hlen⟩ := getD_availableIds_upToThen m (2 ^ 32 - 100 - m.toNat) (by omega)
    rw [hassigned, randomAvailableId, hids, hlen, Nat.mod_eq_of_lt (by norm_num), hget,
      show m.toNat + 100 + (2 ^ 32 - 100 - m.toNat) = 2 ^ 32 by omega]
    rfl
  refine ⟨hlast, ?_, ?_⟩
  · -- `u32::MAX` is the last id of the run
    rw [hlast, List.mem_append, List.mem_map]
    refine Or.inl ⟨2 ^ 32 - 1, ?_, rfl⟩
    rw [List.mem_range'_1]
    omega
  · exact List.mem_map.mpr ⟨0, List.mem_range.mpr (Nat.succ_pos _), rfl⟩

theorem commit_reuses_live_id_top :
    (0xFFFFFF99 : UInt32).toNat + 100 < 2 ^ 32 - 1 ∧
    ((commit (fun _ => 99) (Bitmap.upTo 0xFFFFFF99)
        (List.replicate (2 ^ 32 - 99 - (0xFFFFFF99 : UInt32).toNat) createDocument).flatten).assigned =
        (List.range' ((0xFFFFFF99 : UInt32).toNat + 100) (2 ^ 32 - 100 - (0xFFFFFF99 : UInt32).toNat)).map
          UInt32.ofNat ++ [0] ∧
      u32Max ∈ (commit (fun _ => 99) (Bitmap.upTo 0xFFFFFF99)
        (List.replicate (2 ^ 32 - 99 - (0xFFFFFF99 : UInt32).toNat) createDocument).flatten).assigned ∧
      (0 : UInt32) ∈ (Bitmap.upTo 0xFFFFFF99).ids) :=
  ⟨by decide, commit_reuses_live_id 0xFFFFFF99 (by decide)⟩

end MailServer.Store.DocumentId
