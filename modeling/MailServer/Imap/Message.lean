import MailServer.Lib.HashMap

/-! # The selected-mailbox state of an IMAP session

`fetch_messages` reads the uid every message has in the mailbox and numbers the
messages in uid order; `append_messages` extends that numbering after the
session's own APPEND, COPY or MOVE. A state is `WellFormed` when its two maps,
its sequence numbers and its counters describe one numbering. The rebuild keeps
it; the extension keeps every part of it except the uid-to-message map, which
it fills with the uid in place of the message id.
-/

namespace MailServer.Imap.Message
open Std

/-- `ImapId` of `common/src/lib.rs`. -/
structure ImapId where
  uid : UInt32
  seqnum : UInt32
  deriving DecidableEq, Repr

/-- `ImapUidToId`: a message added by the session, with the uid it was given. -/
structure ImapUidToId where
  uid : UInt32
  id : UInt32
  deriving DecidableEq, Repr

/-- `UidMailbox`: one mailbox a message belongs to, and its uid there. -/
structure UidMailbox where
  mailboxId : UInt32
  uid : UInt32
  deriving DecidableEq, Repr

/-- `MailboxState` of `common/src/lib.rs`, without `next_state`, which neither
`fetch_messages` nor `append_messages` reads. -/
structure MailboxState where
  uidNext : UInt32
  uidValidity : UInt32
  uidMax : UInt32
  idToImap : HashMap UInt32 ImapId
  uidToId : HashMap UInt32 UInt32
  totalMessages : ℕ
  modseq : Option UInt64

/-- The numbering the selected mailbox must carry: the maps are inverse to each
other, the sequence numbers are `1..total_messages` in uid order, and the
counters agree with the maps. -/
structure MailboxState.WellFormed (st : MailboxState) : Prop where
  uidToId_of_idToImap : ∀ (m : UInt32) (v : ImapId), st.idToImap[m]? = some v → st.uidToId[v.uid]? = some m
  idToImap_of_uidToId : ∀ u : UInt32, u ∈ st.uidToId → ∃ (m : UInt32) (v : ImapId), st.idToImap[m]? = some v ∧ v.uid = u
  seqnum_mem_Icc : ∀ (m : UInt32) (v : ImapId), st.idToImap[m]? = some v →
    1 ≤ v.seqnum.toNat ∧ v.seqnum.toNat ≤ st.totalMessages
  seqnum_surj : ∀ s, 1 ≤ s → s ≤ st.totalMessages →
    ∃ (m : UInt32) (v : ImapId), st.idToImap[m]? = some v ∧ v.seqnum.toNat = s
  seqnum_lt_of_uid_lt : ∀ (m₁ : UInt32) (v₁ : ImapId) (m₂ : UInt32) (v₂ : ImapId), st.idToImap[m₁]? = some v₁ →
    st.idToImap[m₂]? = some v₂ → v₁.uid < v₂.uid → v₁.seqnum < v₂.seqnum
  totalMessages_eq : st.totalMessages = st.idToImap.size
  uid_le_uidMax : ∀ (m : UInt32) (v : ImapId), st.idToImap[m]? = some v → v.uid ≤ st.uidMax
  uidMax_mem : st.uidMax = 0 ∨ ∃ (m : UInt32) (v : ImapId), st.idToImap[m]? = some v ∧ v.uid = st.uidMax
  uidNext_eq : st.uidNext = st.uidMax + 1

/-! ## `fetch_messages` -/

/-- One message of the first loop: its uid in the mailbox, if it is still
there, is recorded in the `BTreeMap` keyed by uid. -/
def uidMapInsert (mailboxId : UInt32) (uidMap : TreeMap UInt32 UInt32)
    (entry : UInt32 × List UidMailbox) : TreeMap UInt32 UInt32 :=
  match entry.2.find? (fun item => item.mailboxId == mailboxId) with
  | some item => uidMap.insert item.uid entry.1
  | none => uidMap

/-- The `uid_map` of `fetch_messages`, from the `MailboxIds` property of each
message of the mailbox. -/
def collectUids (mailboxId : UInt32) (props : List (UInt32 × List UidMailbox)) :
    TreeMap UInt32 UInt32 :=
  props.foldl (uidMapInsert mailboxId) ∅

/-- The variables of the numbering loop of `fetch_messages`. -/
structure Numbering where
  uidMax : UInt32
  idToImap : HashMap UInt32 ImapId
  uidToId : HashMap UInt32 UInt32

/-- One turn of the numbering loop, on the `enumerate`d entry `((uid, id), seqnum)`. -/
def Numbering.step (acc : Numbering) (entry : (UInt32 × UInt32) × ℕ) : Numbering where
  uidMax := if entry.1.1 > acc.uidMax then entry.1.1 else acc.uidMax
  idToImap := acc.idToImap.insert entry.1.2 ⟨entry.1.1, UInt32.ofNat entry.2 + 1⟩
  uidToId := acc.uidToId.insert entry.1.1 entry.1.2

/-- `SessionData::fetch_messages`, with the uid validity and the last change id
read from the store as arguments. -/
def fetchMessages (mailboxId uidValidity : UInt32) (modseq : Option UInt64)
    (props : List (UInt32 × List UidMailbox)) : MailboxState :=
  let n := (collectUids mailboxId props).toList.zipIdx.foldl Numbering.step ⟨0, ∅, ∅⟩
  { uidNext := n.uidMax + 1
    uidValidity
    uidMax := n.uidMax
    idToImap := n.idToImap
    uidToId := n.uidToId
    totalMessages := n.idToImap.size
    modseq }

/-! ### The uid map -/

/-- What the first loop keeps of the messages it has read: every recorded
message is one of them, with a nonzero uid, and no message is recorded twice. -/
def UidMapInv (done : List UInt32) (t : TreeMap UInt32 UInt32) : Prop :=
  (∀ k v : UInt32, t[k]? = some v → v ∈ done ∧ k ≠ 0) ∧
    ∀ k₁ k₂ v : UInt32, t[k₁]? = some v → t[k₂]? = some v → k₁ = k₂

theorem getElem?_uidMap_insert (t : TreeMap UInt32 UInt32) (k a v : UInt32) :
    (t.insert k v)[a]? = if k = a then some v else t[a]? := by
  simp only [TreeMap.getElem?_insert, Std.compare_eq_iff_eq]

theorem uidMapInv_step (mailboxId : UInt32) {done : List UInt32} {t : TreeMap UInt32 UInt32}
    (h : UidMapInv done t) (entry : UInt32 × List UidMailbox) (hnew : entry.1 ∉ done)
    (hnz : ∀ item ∈ entry.2, item.mailboxId = mailboxId → item.uid ≠ 0) :
    UidMapInv (done ++ [entry.1]) (uidMapInsert mailboxId t entry) := by
  obtain ⟨hval, hinj⟩ := h
  unfold uidMapInsert
  split
  · rename_i item hfind
    have hitem : item.uid ≠ 0 :=
      hnz item (List.mem_of_find?_eq_some hfind) (by simpa using List.find?_some hfind)
    refine ⟨fun k v hk => ?_, fun k₁ k₂ v hk₁ hk₂ => ?_⟩
    · rw [getElem?_uidMap_insert] at hk
      split at hk
      · rename_i hkeq
        cases hk
        exact ⟨by simp, hkeq ▸ hitem⟩
      · exact ⟨List.mem_append_left _ (hval k v hk).1, (hval k v hk).2⟩
    · rw [getElem?_uidMap_insert] at hk₁ hk₂
      split at hk₁ <;> split at hk₂
      · rename_i h₁ h₂
        exact h₁.symm.trans h₂
      · cases hk₁
        exact absurd (hval k₂ _ hk₂).1 hnew
      · cases hk₂
        exact absurd (hval k₁ _ hk₁).1 hnew
      · exact hinj k₁ k₂ v hk₁ hk₂
  · exact ⟨fun k v hk => ⟨List.mem_append_left _ (hval k v hk).1, (hval k v hk).2⟩, hinj⟩

theorem uidMapInv_foldl (mailboxId : UInt32) (props : List (UInt32 × List UidMailbox)) :
    ∀ (done : List UInt32) (t : TreeMap UInt32 UInt32), UidMapInv done t →
      (done ++ props.map Prod.fst).Nodup →
      (∀ p ∈ props, ∀ item ∈ p.2, item.mailboxId = mailboxId → item.uid ≠ 0) →
      UidMapInv (done ++ props.map Prod.fst) (props.foldl (uidMapInsert mailboxId) t) := by
  induction props with
  | nil => intro done t h _ _; simpa using h
  | cons entry rest ih =>
    intro done t h hnodup hnz
    have hnew : entry.1 ∉ done := by
      intro hmem
      exact (List.nodup_append.mp hnodup).2.2 entry.1 hmem entry.1 (by simp) rfl
    have := ih (done ++ [entry.1]) _
      (uidMapInv_step mailboxId h entry hnew (hnz entry (by simp)))
      (by simpa using hnodup) (fun p hp => hnz p (List.mem_cons_of_mem _ hp))
    simpa using this

/-- The facts the numbering loop needs about the `uid_map`, read as its list of
`(uid, message id)` entries in iteration order. -/
structure UidList (L : List (UInt32 × UInt32)) : Prop where
  uid_lt : L.Pairwise (fun a b => a.1 < b.1)
  id_ne : L.Pairwise (fun a b => a.2 ≠ b.2)
  uid_ne_zero : ∀ p ∈ L, p.1 ≠ 0

theorem collectUids_toList (mailboxId : UInt32) (props : List (UInt32 × List UidMailbox))
    (hids : (props.map Prod.fst).Nodup)
    (huid : ∀ p ∈ props, ∀ item ∈ p.2, item.mailboxId = mailboxId → item.uid ≠ 0) :
    UidList (collectUids mailboxId props).toList := by
  have hinv : UidMapInv (props.map Prod.fst) (collectUids mailboxId props) := by
    have h := uidMapInv_foldl mailboxId props [] ∅
      ⟨fun k v hk => by simp at hk, fun k₁ k₂ v hk => by simp at hk⟩ (by simpa using hids) huid
    rwa [List.nil_append] at h
  have hmem : ∀ {p}, p ∈ (collectUids mailboxId props).toList →
      (collectUids mailboxId props)[p.1]? = some p.2 :=
    fun hp => TreeMap.mem_toList_iff_getElem?_eq_some.mp hp
  have huid_lt : (collectUids mailboxId props).toList.Pairwise (fun a b => a.1 < b.1) :=
    (TreeMap.ordered_keys_toList (t := collectUids mailboxId props)).imp
      fun h => compareOfLessAndEq_eq_lt.mp h
  refine ⟨huid_lt, huid_lt.imp_of_mem fun ha hb hlt heq => ?_, fun p hp => (hinv.1 _ _ (hmem hp)).2⟩
  have := hinv.2 _ _ _ (hmem ha) (heq ▸ hmem hb)
  exact absurd hlt (this ▸ UInt32.lt_irrefl _)

/-! ### The numbering loop -/

/-- The entry the numbering loop writes into `id_to_imap` for an enumerated
`uid_map` entry. -/
def seqEntry (entry : (UInt32 × UInt32) × ℕ) : UInt32 × ImapId :=
  (entry.1.2, ⟨entry.1.1, UInt32.ofNat entry.2 + 1⟩)

/-- The running `uid_max` of the numbering loop. -/
def maxUid (start : UInt32) (L : List (UInt32 × UInt32)) : UInt32 :=
  L.foldl (fun acc p => if p.1 > acc then p.1 else acc) start

theorem le_maxUid (start : UInt32) (L : List (UInt32 × UInt32)) :
    start ≤ maxUid start L ∧ ∀ p ∈ L, p.1 ≤ maxUid start L := by
  induction L generalizing start with
  | nil => simp [maxUid]
  | cons p rest ih =>
    obtain ⟨h₁, h₂⟩ := ih (if p.1 > start then p.1 else start)
    have hp : start ≤ (if p.1 > start then p.1 else start) ∧
        p.1 ≤ (if p.1 > start then p.1 else start) := by
      split <;> grind
    refine ⟨UInt32.le_trans hp.1 h₁, fun q hq => ?_⟩
    rcases List.mem_cons.mp hq with rfl | hq
    · exact UInt32.le_trans hp.2 h₁
    · exact h₂ q hq

theorem maxUid_eq_or_mem (start : UInt32) (L : List (UInt32 × UInt32)) :
    maxUid start L = start ∨ ∃ p ∈ L, p.1 = maxUid start L := by
  induction L generalizing start with
  | nil => simp [maxUid]
  | cons p rest ih =>
    show maxUid (if p.1 > start then p.1 else start) rest = start ∨
      ∃ q ∈ p :: rest, q.1 = maxUid (if p.1 > start then p.1 else start) rest
    rcases ih (if p.1 > start then p.1 else start) with h | ⟨q, hq, hqe⟩
    · rw [h]
      split
      · exact Or.inr ⟨p, by simp, rfl⟩
      · exact Or.inl rfl
    · exact Or.inr ⟨q, List.mem_cons_of_mem _ hq, hqe⟩

theorem numbering_foldl (L : List (UInt32 × UInt32)) (n : ℕ) (acc : Numbering) :
    (L.zipIdx n).foldl Numbering.step acc =
      ⟨maxUid acc.uidMax L, acc.idToImap.insertMany ((L.zipIdx n).map seqEntry),
        acc.uidToId.insertMany L⟩ := by
  induction L generalizing n acc with
  | nil => simp [maxUid]
  | cons p rest ih =>
    obtain ⟨u, m⟩ := p
    rw [List.zipIdx_cons, List.foldl_cons, ih]
    simp [Numbering.step, maxUid, seqEntry, HashMap.insertMany_cons]

theorem mem_seqEntries {L : List (UInt32 × UInt32)} {m : UInt32} {v : ImapId} :
    (m, v) ∈ L.zipIdx.map seqEntry ↔
      ∃ i, ∃ h : i < L.length, L[i].2 = m ∧ v = ⟨L[i].1, UInt32.ofNat i + 1⟩ := by
  simp only [List.mem_map, List.mem_zipIdx_iff_getElem?, List.getElem?_eq_some_iff, seqEntry,
    Prod.mk.injEq, Prod.exists]
  constructor
  · rintro ⟨u, m', i, ⟨hi, hL⟩, rfl, rfl⟩
    exact ⟨i, hi, by simp [hL], by simp [hL]⟩
  · rintro ⟨i, hi, rfl, rfl⟩
    exact ⟨L[i].1, L[i].2, i, ⟨hi, rfl⟩, rfl, rfl⟩

/-- A list of distinct nonzero uids has fewer than `2 ^ 32` entries, so the
enumeration index of the loop fits the `u32` sequence number. -/
theorem UidList.length_lt {L : List (UInt32 × UInt32)} (hL : UidList L) : L.length < 2 ^ 32 := by
  have hnodup : (L.map (fun p => p.1.toNat)).Nodup :=
    List.pairwise_map.mpr (hL.uid_lt.imp fun h => Nat.ne_of_lt (UInt32.lt_iff_toNat_lt.mp h))
  have hle := hnodup.length_le_of_mem_Icc (a := 1) (b := 2 ^ 32 - 1) fun x hx => by
    obtain ⟨p, hp, rfl⟩ := List.mem_map.mp hx
    have hne : p.1.toNat ≠ 0 := fun h => hL.uid_ne_zero p hp (UInt32.toNat_inj.mp (by simpa using h))
    have := p.1.toNat_lt
    omega
  rw [List.length_map] at hle
  omega

theorem seqnum_toNat {i : ℕ} (h : i + 1 < 2 ^ 32) : (UInt32.ofNat i + 1).toNat = i + 1 := by
  simp only [UInt32.toNat_add, UInt32.toNat_ofNat', UInt32.reduceToNat]
  omega

theorem UidList.seqEntries_distinct {L : List (UInt32 × UInt32)} (hL : UidList L) :
    (L.zipIdx.map seqEntry).Pairwise (fun a b => (a.1 == b.1) = false) := by
  have h : (L.zipIdx.map Prod.fst).Pairwise (fun a b => a.2 ≠ b.2) := by
    rw [List.zipIdx_map_fst]
    exact hL.id_ne
  exact List.pairwise_map.mpr ((List.pairwise_map.mp h).imp fun h => beq_eq_false_iff_ne.mpr h)

theorem UidList.getElem?_seqEntries {L : List (UInt32 × UInt32)} (hL : UidList L) {m : UInt32}
    {v : ImapId} :
    ((∅ : HashMap UInt32 ImapId).insertMany (L.zipIdx.map seqEntry))[m]? = some v ↔
      ∃ i, ∃ h : i < L.length, L[i].2 = m ∧ v = ⟨L[i].1, UInt32.ofNat i + 1⟩ := by
  rw [HashMap.getElem?_insertMany_empty_eq_some hL.seqEntries_distinct, mem_seqEntries]

/-- The state the numbering loop builds from a uid list with distinct uids,
distinct message ids and no zero uid is well formed. -/
theorem wellFormed_of_uidList {L : List (UInt32 × UInt32)} (hL : UidList L)
    (uidValidity : UInt32) (modseq : Option UInt64) :
    MailboxState.WellFormed
      { uidNext := maxUid 0 L + 1, uidValidity, uidMax := maxUid 0 L,
        idToImap := (∅ : HashMap UInt32 ImapId).insertMany (L.zipIdx.map seqEntry),
        uidToId := (∅ : HashMap UInt32 UInt32).insertMany L,
        totalMessages := ((∅ : HashMap UInt32 ImapId).insertMany (L.zipIdx.map seqEntry)).size,
        modseq } := by
  have hlen := hL.length_lt
  have hids := hL.seqEntries_distinct
  have huids : L.Pairwise (fun a b => (a.1 == b.1) = false) :=
    hL.uid_lt.imp fun h => beq_eq_false_iff_ne.mpr (UInt32.ne_of_lt h)
  have hsize : ((∅ : HashMap UInt32 ImapId).insertMany (L.zipIdx.map seqEntry)).size = L.length := by
    rw [HashMap.size_insertMany_empty hids, List.length_map, List.length_zipIdx]
  have hget : ∀ m v, ((∅ : HashMap UInt32 ImapId).insertMany (L.zipIdx.map seqEntry))[m]? = some v ↔
      ∃ i, ∃ h : i < L.length, L[i].2 = m ∧ v = ⟨L[i].1, UInt32.ofNat i + 1⟩ :=
    fun m v => hL.getElem?_seqEntries
  have hentry : ∀ i (h : i < L.length),
      ((∅ : HashMap UInt32 ImapId).insertMany (L.zipIdx.map seqEntry))[L[i].2]? =
        some ⟨L[i].1, UInt32.ofNat i + 1⟩ := fun i h => (hget _ _).mpr ⟨i, h, rfl, rfl⟩
  have hmax := le_maxUid 0 L
  constructor
  · intro m v hv
    obtain ⟨i, hi, rfl, rfl⟩ := (hget m v).mp hv
    exact (HashMap.getElem?_insertMany_empty_eq_some huids).mpr (List.getElem_mem hi)
  · intro u hu
    obtain ⟨m, hm⟩ := HashMap.mem_insertMany_empty.mp hu
    obtain ⟨i, hi, hLi⟩ := List.mem_iff_getElem.mp hm
    exact ⟨m, _, hLi ▸ hentry i hi, by simp⟩
  · intro m v hv
    obtain ⟨i, hi, rfl, rfl⟩ := (hget m v).mp hv
    dsimp only
    rw [hsize, seqnum_toNat (by omega)]
    omega
  · intro s hs₁ hs₂
    dsimp only at hs₂
    rw [hsize] at hs₂
    refine ⟨_, _, hentry (s - 1) (by omega), ?_⟩
    rw [seqnum_toNat (by omega)]
    omega
  · intro m₁ v₁ m₂ v₂ h₁ h₂ hlt
    obtain ⟨i, hi, rfl, rfl⟩ := (hget _ _).mp h₁
    obtain ⟨j, hj, rfl, rfl⟩ := (hget _ _).mp h₂
    have hij : i < j := by
      by_contra hji
      rcases Nat.lt_or_eq_of_le (Nat.le_of_not_lt hji) with hji | rfl
      · exact UInt32.lt_asymm hlt (List.pairwise_iff_getElem.mp hL.uid_lt j i hj hi hji)
      · exact UInt32.lt_irrefl _ hlt
    rw [UInt32.lt_iff_toNat_lt, seqnum_toNat (by omega), seqnum_toNat (by omega)]
    omega
  · rfl
  · intro m v hv
    obtain ⟨i, hi, rfl, rfl⟩ := (hget m v).mp hv
    exact hmax.2 _ (List.getElem_mem hi)
  · rcases maxUid_eq_or_mem 0 L with h | ⟨p, hp, hpe⟩
    · exact Or.inl h
    · obtain ⟨i, hi, rfl⟩ := List.mem_iff_getElem.mp hp
      exact Or.inr ⟨_, _, hentry i hi, hpe⟩
  · rfl

/-- `fetch_messages` builds a well-formed state from every listing of the
mailbox's messages (distinct message ids, as read from the mailbox's bitmap),
provided no message has uid zero here. -/
theorem fetchMessages_wellFormed (mailboxId uidValidity : UInt32) (modseq : Option UInt64)
    (props : List (UInt32 × List UidMailbox)) (hids : (props.map Prod.fst).Nodup)
    (huid : ∀ p ∈ props, ∀ item ∈ p.2, item.mailboxId = mailboxId → item.uid ≠ 0) :
    (fetchMessages mailboxId uidValidity modseq props).WellFormed := by
  simp only [fetchMessages, numbering_foldl]
  exact wellFormed_of_uidList (collectUids_toList mailboxId props hids huid) uidValidity modseq

/-! ## `append_messages` -/

/-- One appended message: the message count grows and the new message takes the
next sequence number. The uid map is written with the uid as its value. -/
def appendStep (acc : UInt32 × MailboxState) (id : ImapUidToId) : UInt32 × MailboxState :=
  let st := acc.2
  (id.uid, { st with
    totalMessages := st.totalMessages + 1
    uidToId := st.uidToId.insert id.uid id.uid
    idToImap := st.idToImap.insert id.id ⟨id.uid, UInt32.ofNat (st.totalMessages + 1)⟩ })

/-- `SelectedMailbox::append_messages`: applied only when the change that added
the messages is newer than the state; returns the uid validity. -/
def appendMessages (mailbox : MailboxState) (ids : List ImapUidToId) (modseq : Option UInt64) :
    UInt32 × MailboxState :=
  if modseq.getD 0 > mailbox.modseq.getD 0 then
    let r := ids.foldl appendStep (0, mailbox)
    (mailbox.uidValidity, { r.2 with uidMax := r.1, uidNext := r.1 + 1 })
  else
    (mailbox.uidValidity, mailbox)

/-! ### What the append loop writes -/

/-- The entry the append loop writes into `id_to_imap` for an appended message
enumerated from sequence number `total_messages + 1`. -/
def appendEntry (e : ImapUidToId × ℕ) : UInt32 × ImapId :=
  (e.1.id, ⟨e.1.uid, UInt32.ofNat e.2⟩)

theorem appendStep_foldl (ids : List ImapUidToId) (u : UInt32) (st : MailboxState) :
    ids.foldl appendStep (u, st) =
      ((ids.getLast?.map ImapUidToId.uid).getD u,
        { st with
          totalMessages := st.totalMessages + ids.length
          uidToId := st.uidToId.insertMany (ids.map fun i => (i.uid, i.uid))
          idToImap := st.idToImap.insertMany ((ids.zipIdx (st.totalMessages + 1)).map appendEntry) }) := by
  induction ids generalizing u st with
  | nil => simp
  | cons i rest ih =>
    rw [List.foldl_cons, appendStep, ih]
    simp only [List.getLast?_cons, Option.map_some, Option.getD_some, Option.getD_map,
      List.length_cons, List.map_cons, List.zipIdx_cons, HashMap.insertMany_cons, appendEntry]
    refine Prod.ext rfl ?_
    simp only [MailboxState.mk.injEq, and_true, true_and]
    omega

/-- With a newer change id, `append_messages` numbers the new messages after the
existing ones and leaves `uid_max` at the last appended uid. -/
theorem appendMessages_of_lt {st : MailboxState} {modseq : Option UInt64}
    (hmod : st.modseq.getD 0 < modseq.getD 0) (ids : List ImapUidToId) :
    appendMessages st ids modseq =
      (st.uidValidity,
        { st with
          uidMax := (ids.getLast?.map ImapUidToId.uid).getD 0
          uidNext := (ids.getLast?.map ImapUidToId.uid).getD 0 + 1
          totalMessages := st.totalMessages + ids.length
          uidToId := st.uidToId.insertMany (ids.map fun i => (i.uid, i.uid))
          idToImap := st.idToImap.insertMany ((ids.zipIdx (st.totalMessages + 1)).map appendEntry) }) := by
  rw [appendMessages, if_pos hmod, appendStep_foldl]

theorem mem_appendEntries {ids : List ImapUidToId} {k : ℕ} {m : UInt32} {v : ImapId} :
    (m, v) ∈ (ids.zipIdx k).map appendEntry ↔
      ∃ j, ∃ h : j < ids.length, ids[j].id = m ∧ v = ⟨ids[j].uid, UInt32.ofNat (k + j)⟩ := by
  constructor
  · intro h
    obtain ⟨⟨i, s⟩, hmem, heq⟩ := List.mem_map.mp h
    obtain ⟨hks, hget⟩ := List.mk_mem_zipIdx_iff_le_and_getElem?_sub.mp hmem
    obtain ⟨hj, rfl⟩ := List.getElem?_eq_some_iff.mp hget
    simp only [appendEntry, Prod.mk.injEq] at heq
    obtain ⟨rfl, rfl⟩ := heq
    exact ⟨s - k, hj, rfl, by rw [Nat.add_sub_cancel' hks]⟩
  · rintro ⟨j, hj, rfl, rfl⟩
    exact List.mem_map.mpr ⟨(ids[j], k + j),
      List.mk_add_mem_zipIdx_iff_getElem?.mpr (List.getElem?_eq_getElem hj), rfl⟩

/-- Every uid of a well-formed state with no zero uid is one of `1..uid_max`,
and they are distinct, so there are at most `uid_max` messages. -/
theorem MailboxState.WellFormed.totalMessages_le_uidMax {st : MailboxState} (hwf : st.WellFormed)
    (hpos : ∀ (m : UInt32) (v : ImapId), st.idToImap[m]? = some v → v.uid ≠ 0) :
    st.totalMessages ≤ st.uidMax.toNat := by
  have hnodup : (st.idToImap.toList.map fun p => p.2.uid.toNat).Nodup := by
    refine List.pairwise_map.mpr (HashMap.distinct_keys_toList.imp_of_mem fun ha hb hne heq => ?_)
    have h₁ := hwf.uidToId_of_idToImap _ _ (HashMap.mem_toList_iff_getElem?_eq_some.mp ha)
    have h₂ := hwf.uidToId_of_idToImap _ _ (HashMap.mem_toList_iff_getElem?_eq_some.mp hb)
    rw [UInt32.toNat_inj.mp heq, h₂] at h₁
    rw [Option.some.inj h₁] at hne
    simp at hne
  have hle := hnodup.length_le_of_mem_Icc (a := 1) (b := st.uidMax.toNat) fun x hx => by
    obtain ⟨p, hp, rfl⟩ := List.mem_map.mp hx
    have hget := HashMap.mem_toList_iff_getElem?_eq_some.mp hp
    have hne : p.2.uid.toNat ≠ 0 := fun h => hpos _ _ hget (UInt32.toNat_inj.mp (by simpa using h))
    have := UInt32.le_iff_toNat_le.mp (hwf.uid_le_uidMax _ _ hget)
    omega
  rw [List.length_map, HashMap.length_toList] at hle
  rw [hwf.totalMessages_eq]
  omega

/-- The messages a session appends: new messages, with strictly increasing uids
above every uid the mailbox already has. -/
structure FreshAppend (st : MailboxState) (ids : List ImapUidToId) : Prop where
  ne_nil : ids ≠ []
  uid_lt : ids.Pairwise (fun a b => a.uid < b.uid)
  uidMax_lt : ∀ i ∈ ids, st.uidMax < i.uid
  id_nodup : (ids.map ImapUidToId.id).Nodup
  id_not_mem : ∀ i ∈ ids, i.id ∉ st.idToImap

section Append

variable {st : MailboxState} {ids : List ImapUidToId}

theorem FreshAppend.entries_distinct (hf : FreshAppend st ids) (k : ℕ) :
    ((ids.zipIdx k).map appendEntry).Pairwise (fun a b => (a.1 == b.1) = false) := by
  have h : ((ids.zipIdx k).map Prod.fst).Pairwise (fun a b => a.id ≠ b.id) := by
    rw [List.zipIdx_map_fst]
    exact List.pairwise_map.mp hf.id_nodup
  exact List.pairwise_map.mpr ((List.pairwise_map.mp h).imp fun h => beq_eq_false_iff_ne.mpr h)

theorem FreshAppend.uids_distinct (hf : FreshAppend st ids) :
    (ids.map fun i => (i.uid, i.uid)).Pairwise (fun a b => (a.1 == b.1) = false) :=
  List.pairwise_map.mpr (hf.uid_lt.imp fun h => beq_eq_false_iff_ne.mpr (UInt32.ne_of_lt h))

/-- The appended uids are distinct and lie strictly between `uid_max` and
`2 ^ 32`, so with no zero uid the new count still fits a `u32`. -/
theorem FreshAppend.total_add_length_lt (hf : FreshAppend st ids) (hwf : st.WellFormed)
    (hpos : ∀ (m : UInt32) (v : ImapId), st.idToImap[m]? = some v → v.uid ≠ 0) :
    st.totalMessages + ids.length < 2 ^ 32 := by
  have hold := hwf.totalMessages_le_uidMax hpos
  have hnodup : (ids.map fun i => i.uid.toNat).Nodup :=
    List.pairwise_map.mpr (hf.uid_lt.imp fun h => Nat.ne_of_lt (UInt32.lt_iff_toNat_lt.mp h))
  have hle := hnodup.length_le_of_mem_Icc (a := st.uidMax.toNat + 1) (b := 2 ^ 32 - 1) fun x hx => by
    obtain ⟨i, hi, rfl⟩ := List.mem_map.mp hx
    have := UInt32.lt_iff_toNat_lt.mp (hf.uidMax_lt i hi)
    have := i.uid.toNat_lt
    omega
  rw [List.length_map] at hle
  have := st.uidMax.toNat_lt
  omega

/-- The `id_to_imap` map after an append: the appended messages, numbered from
`total_messages + 1`, and the old messages unchanged. -/
theorem FreshAppend.getElem?_idToImap (hf : FreshAppend st ids) {m : UInt32} {v : ImapId} :
    (st.idToImap.insertMany ((ids.zipIdx (st.totalMessages + 1)).map appendEntry))[m]? = some v ↔
      (∃ j, ∃ h : j < ids.length, ids[j].id = m ∧
        v = ⟨ids[j].uid, UInt32.ofNat (st.totalMessages + 1 + j)⟩) ∨ st.idToImap[m]? = some v := by
  rw [HashMap.getElem?_insertMany_eq_some (hf.entries_distinct _), mem_appendEntries]
  constructor
  · rintro (h | ⟨-, h⟩)
    · exact Or.inl h
    · exact Or.inr h
  · rintro (h | h)
    · exact Or.inl h
    · refine Or.inr ⟨fun hm => ?_, h⟩
      obtain ⟨⟨m', v'⟩, hmem, rfl⟩ := List.mem_map.mp hm
      obtain ⟨j, hj, rfl, -⟩ := mem_appendEntries.mp hmem
      exact hf.id_not_mem _ (List.getElem_mem hj) (HashMap.mem_iff_isSome_getElem?.mpr (by simp [h]))

/-- The `uid_to_id` map after an append: each appended uid maps to itself, and
the old uids, all below the appended ones, keep their message. -/
theorem FreshAppend.getElem?_uidToId (hf : FreshAppend st ids) (u : UInt32) :
    (st.uidToId.insertMany (ids.map fun i => (i.uid, i.uid)))[u]? =
      if ∃ i ∈ ids, i.uid = u then some u else st.uidToId[u]? := by
  split
  · rename_i h
    obtain ⟨i, hi, rfl⟩ := h
    exact HashMap.getElem?_insertMany_list_of_mem BEq.rfl hf.uids_distinct
      (List.mem_map.mpr ⟨i, hi, rfl⟩)
  · rename_i h
    refine HashMap.getElem?_insertMany_list_of_contains_eq_false ?_
    simpa using h

/-- The last appended uid, which `append_messages` leaves in `uid_max`, is the
largest appended uid. -/
theorem FreshAppend.lastUid (hf : FreshAppend st ids) :
    ∃ j, ∃ h : j < ids.length, ids[j].uid = (ids.getLast?.map ImapUidToId.uid).getD 0 ∧
      ∀ i ∈ ids, i.uid ≤ (ids.getLast?.map ImapUidToId.uid).getD 0 := by
  obtain ⟨ys, x, hxs⟩ := (List.eq_nil_or_concat ids).resolve_left hf.ne_nil
  rw [List.concat_eq_append] at hxs
  have hsorted := hf.uid_lt
  rw [hxs, List.pairwise_append] at hsorted
  subst hxs
  refine ⟨ys.length, by simp, by simp, fun i hi => ?_⟩
  rcases List.mem_append.mp hi with hi | hi
  · simpa using UInt32.le_of_lt (hsorted.2.2 i hi x (by simp))
  · simp only [List.mem_singleton] at hi
    subst hi
    simp

theorem seqnum_toNat_of_lt {n : ℕ} (h : n < 2 ^ 32) : (UInt32.ofNat n).toNat = n := by
  rw [UInt32.toNat_ofNat']
  exact Nat.mod_eq_of_lt h

/-- An append newer than the state, of new messages whose message ids equal
their uids, keeps the state well formed. -/
theorem FreshAppend.wellFormed (hf : FreshAppend st ids) (hwf : st.WellFormed)
    (hpos : ∀ (m : UInt32) (v : ImapId), st.idToImap[m]? = some v → v.uid ≠ 0)
    (hid : ∀ i ∈ ids, i.id = i.uid) :
    MailboxState.WellFormed
      { st with
        uidMax := (ids.getLast?.map ImapUidToId.uid).getD 0
        uidNext := (ids.getLast?.map ImapUidToId.uid).getD 0 + 1
        totalMessages := st.totalMessages + ids.length
        uidToId := st.uidToId.insertMany (ids.map fun i => (i.uid, i.uid))
        idToImap := st.idToImap.insertMany ((ids.zipIdx (st.totalMessages + 1)).map appendEntry) } := by
  have hbound := hf.total_add_length_lt hwf hpos
  obtain ⟨jl, hjl, hlast, hle_last⟩ := hf.lastUid
  have hold_lt : ∀ (m : UInt32) (v : ImapId), st.idToImap[m]? = some v → ∀ i ∈ ids, v.uid < i.uid :=
    fun m v hv i hi => UInt32.lt_of_le_of_lt (hwf.uid_le_uidMax m v hv) (hf.uidMax_lt i hi)
  have hseq : ∀ j, j < ids.length →
      (UInt32.ofNat (st.totalMessages + 1 + j)).toNat = st.totalMessages + 1 + j :=
    fun j hj => seqnum_toNat_of_lt (by omega)
  have hnew : ∀ j (h : j < ids.length),
      (st.idToImap.insertMany ((ids.zipIdx (st.totalMessages + 1)).map appendEntry))[ids[j].id]? =
        some ⟨ids[j].uid, UInt32.ofNat (st.totalMessages + 1 + j)⟩ :=
    fun j h => hf.getElem?_idToImap.mpr (Or.inl ⟨j, h, rfl, rfl⟩)
  have hkept : ∀ (m : UInt32) (v : ImapId), st.idToImap[m]? = some v →
      (st.idToImap.insertMany ((ids.zipIdx (st.totalMessages + 1)).map appendEntry))[m]? = some v :=
    fun m v hv => hf.getElem?_idToImap.mpr (Or.inr hv)
  constructor
  · intro m v hv
    dsimp only at hv ⊢
    rw [hf.getElem?_uidToId]
    rcases hf.getElem?_idToImap.mp hv with ⟨j, hj, rfl, rfl⟩ | hv
    · rw [if_pos ⟨ids[j], List.getElem_mem hj, rfl⟩, hid _ (List.getElem_mem hj)]
    · rw [if_neg fun ⟨i, hi, heq⟩ => UInt32.lt_irrefl _ (heq ▸ hold_lt m v hv i hi)]
      exact hwf.uidToId_of_idToImap m v hv
  · intro u hu
    dsimp only at hu ⊢
    rcases HashMap.mem_insertMany_list.mp hu with hu | hu
    · obtain ⟨m, v, hv, rfl⟩ := hwf.idToImap_of_uidToId u hu
      exact ⟨m, v, hkept m v hv, rfl⟩
    · obtain ⟨⟨u', u''⟩, hmem, rfl⟩ := List.mem_map.mp (List.contains_iff_mem.mp hu)
      obtain ⟨i, hi, heq⟩ := List.mem_map.mp hmem
      obtain ⟨j, hj, rfl⟩ := List.getElem_of_mem hi
      simp only [Prod.mk.injEq] at heq
      exact ⟨_, _, hnew j hj, heq.1⟩
  · intro m v hv
    dsimp only at hv ⊢
    rcases hf.getElem?_idToImap.mp hv with ⟨j, hj, rfl, rfl⟩ | hv
    · rw [hseq j hj]
      omega
    · have := hwf.seqnum_mem_Icc m v hv
      omega
  · intro s hs₁ hs₂
    dsimp only at hs₂ ⊢
    by_cases hs : s ≤ st.totalMessages
    · obtain ⟨m, v, hv, hvs⟩ := hwf.seqnum_surj s hs₁ hs
      exact ⟨m, v, hkept m v hv, hvs⟩
    · refine ⟨_, _, hnew (s - st.totalMessages - 1) (by omega), ?_⟩
      rw [hseq _ (by omega)]
      omega
  · intro m₁ v₁ m₂ v₂ h₁ h₂ hlt
    dsimp only at h₁ h₂
    rcases hf.getElem?_idToImap.mp h₁ with ⟨j₁, hj₁, rfl, rfl⟩ | h₁ <;>
      rcases hf.getElem?_idToImap.mp h₂ with ⟨j₂, hj₂, rfl, rfl⟩ | h₂
    · -- two appended messages: the list is sorted by uid
      have hij : j₁ < j₂ := by
        by_contra hji
        rcases Nat.lt_or_eq_of_le (Nat.le_of_not_lt hji) with hji | rfl
        · exact UInt32.lt_asymm hlt (List.pairwise_iff_getElem.mp hf.uid_lt j₂ j₁ hj₂ hj₁ hji)
        · exact UInt32.lt_irrefl _ hlt
      rw [UInt32.lt_iff_toNat_lt, hseq j₁ hj₁, hseq j₂ hj₂]
      omega
    · exact absurd (hold_lt _ _ h₂ _ (List.getElem_mem hj₁)) (UInt32.lt_asymm hlt)
    · have := hwf.seqnum_mem_Icc _ _ h₁
      rw [UInt32.lt_iff_toNat_lt, hseq j₂ hj₂]
      omega
    · exact hwf.seqnum_lt_of_uid_lt _ _ _ _ h₁ h₂ hlt
  · dsimp only
    rw [HashMap.size_insertMany_list (hf.entries_distinct _), hwf.totalMessages_eq,
      List.length_map, List.length_zipIdx]
    intro a ha
    apply Bool.eq_false_iff.mpr
    intro hc
    obtain ⟨⟨a', v'⟩, hmem, rfl⟩ := List.mem_map.mp (List.contains_iff_mem.mp hc)
    obtain ⟨j, hj, rfl, -⟩ := mem_appendEntries.mp hmem
    exact hf.id_not_mem _ (List.getElem_mem hj) ha
  · intro m v hv
    dsimp only at hv ⊢
    rcases hf.getElem?_idToImap.mp hv with ⟨j, hj, rfl, rfl⟩ | hv
    · exact hle_last _ (List.getElem_mem hj)
    · exact UInt32.le_of_lt (hlast ▸ hold_lt m v hv _ (List.getElem_mem hjl))
  · exact Or.inr ⟨_, _, hnew jl hjl, hlast⟩
  · rfl

/-- After an append newer than the state, the state is well formed exactly when
every appended message id equals its uid: `append_messages` maps each appended
uid to itself in `uid_to_id`, not to the message. -/
theorem appendMessages_wellFormed_iff (hf : FreshAppend st ids) (hwf : st.WellFormed)
    (hpos : ∀ (m : UInt32) (v : ImapId), st.idToImap[m]? = some v → v.uid ≠ 0)
    {modseq : Option UInt64} (hmod : st.modseq.getD 0 < modseq.getD 0) :
    (appendMessages st ids modseq).2.WellFormed ↔ ∀ i ∈ ids, i.id = i.uid := by
  rw [appendMessages_of_lt hmod]
  refine ⟨fun h i hi => ?_, hf.wellFormed hwf hpos⟩
  obtain ⟨j, hj, rfl⟩ := List.getElem_of_mem hi
  have hget := h.uidToId_of_idToImap _ _ (hf.getElem?_idToImap.mpr (Or.inl ⟨j, hj, rfl, rfl⟩))
  dsimp only at hget
  rw [hf.getElem?_uidToId, if_pos ⟨_, hi, rfl⟩] at hget
  exact (Option.some.inj hget).symm

end Append

theorem fetchMessages_nil (mailboxId uidValidity : UInt32) (modseq : Option UInt64) :
    fetchMessages mailboxId uidValidity modseq [] =
      { uidNext := 1, uidValidity, uidMax := 0, idToImap := ∅, uidToId := ∅,
        totalMessages := 0, modseq } := by
  have h : (∅ : TreeMap UInt32 UInt32).toList = [] :=
    List.isEmpty_iff.mp (by rw [TreeMap.isEmpty_toList]; exact TreeMap.isEmpty_emptyc)
  simp [fetchMessages, collectUids, h]

/-- Appending message 5 with uid 1 to an empty selected mailbox leaves
`uid_to_id` mapping uid 1 to 1, while `id_to_imap` holds message 5 at uid 1: the
state is no longer well formed. -/
theorem appendMessages_maps_uid_to_uid :
    (appendMessages (fetchMessages 1 7 none []) [⟨1, 5⟩] (some 1)).2.idToImap[(5 : UInt32)]? =
        some ⟨1, 1⟩ ∧
      (appendMessages (fetchMessages 1 7 none []) [⟨1, 5⟩] (some 1)).2.uidToId[(1 : UInt32)]? =
        some 1 ∧
      ¬ (appendMessages (fetchMessages 1 7 none []) [⟨1, 5⟩] (some 1)).2.WellFormed := by
  have hf : FreshAppend (fetchMessages 1 7 none []) [⟨1, 5⟩] := by
    rw [fetchMessages_nil]
    exact ⟨by simp, by simp, by simp, by simp, by simp⟩
  have hwf := fetchMessages_wellFormed 1 7 none [] (by simp) (by simp)
  refine ⟨?_, ?_, fun h => ?_⟩
  · rw [fetchMessages_nil, appendMessages_of_lt (by decide)]
    simp [appendEntry]
  · rw [fetchMessages_nil, appendMessages_of_lt (by decide)]
    simp
  · have := (appendMessages_wellFormed_iff hf hwf (by simp [fetchMessages_nil])
      (by simp [fetchMessages_nil])).mp h ⟨1, 5⟩ (by simp)
    exact absurd this (by decide)

end MailServer.Imap.Message
