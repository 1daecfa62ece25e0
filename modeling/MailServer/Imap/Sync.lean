import MailServer.Imap.Message
import MailServer.ImapProto.Expunge

/-! # Keeping an IMAP client's view in step with the mailbox

`synchronize_messages` compares the account's last change id with the selected
state's. When they differ it fetches the mailbox again, drops from the selected
numbering the messages whose uid is gone, records them as deletions and keeps
the fetched state as the next one; the numbering is not renumbered, so every
deletion keeps the sequence number the client knows. `write_mailbox_changes`
synchronizes once more, writes the deletions as EXPUNGE lines (or one VANISHED
line), then EXISTS, and installs the next state.

Over any run of store changes and synchronizations (`run`), the selected state
keeps `SyncInv` against the last store fetched; from it, the client that applies
the lines to its list of uids keeps exactly the uids still in the mailbox, and the
session ends on the state `fetch_messages` builds from the store.
-/

namespace MailServer.Imap.Message

/-- The client's view of a state: the uids in sequence-number order. -/
def MailboxState.view (st : MailboxState) : List UInt32 :=
  ((st.idToImap.toList.map Prod.snd).mergeSort fun a b => decide (a.seqnum ≤ b.seqnum)).map
    ImapId.uid

end MailServer.Imap.Message

namespace MailServer.Imap.Sync

open Std MailServer.Imap.Message MailServer.ImapProto.Expunge

/-- `NextMailboxState`: the state the next write installs, and the messages found
deleted since the client's view was written. -/
structure NextMailboxState where
  nextState : MailboxState
  deletions : List ImapId

/-- The selected mailbox's `MailboxState` with its `next_state`. -/
structure SelectedState where
  state : MailboxState
  next : Option NextMailboxState

/-! ## `synchronize_messages` and `write_mailbox_changes` -/

/-- One turn of the loop of `synchronize_messages` over the old `id_to_imap`: a message whose
uid the new state lacks becomes a deletion and leaves `uid_to_id`; the others are kept. -/
def pruneStep (newState : MailboxState)
    (acc : List ImapId × HashMap UInt32 ImapId × HashMap UInt32 UInt32) (entry : UInt32 × ImapId) :
    List ImapId × HashMap UInt32 ImapId × HashMap UInt32 UInt32 :=
  if !newState.uidToId.contains entry.2.uid then
    (acc.1 ++ [entry.2], acc.2.1, acc.2.2.erase entry.2.uid)
  else (acc.1, acc.2.1.insert entry.1 entry.2, acc.2.2)

/-- `SessionData::synchronize_messages`, given the change id `get_modseq` reads and the state
`fetch_messages` builds; the mailbox cache it refreshes is not modelled. -/
def synchronizeMessages (modseq : Option UInt64) (newState : MailboxState)
    (mailbox : SelectedState) : Option UInt64 × SelectedState :=
  if mailbox.state.modseq ≠ modseq then
    let r := mailbox.state.idToImap.toList.foldl (pruneStep newState)
      ((mailbox.next.map NextMailboxState.deletions).getD [], ∅, mailbox.state.uidToId)
    (modseq, ⟨{ mailbox.state with idToImap := r.2.1, uidToId := r.2.2, modseq := newState.modseq },
      some ⟨newState, r.1⟩⟩)
  else (modseq, mailbox)

/-- The EXPUNGE or VANISHED lines for the deletions, by sequence number or by uid. -/
def deletionLines (isQresync : Bool) (deletions : List ImapId) : List Line :=
  if deletions ≠ [] then
    expungeResponse isQresync
      ((deletions.map fun id => if isQresync then id.uid else id.seqnum).mergeSort
        fun a b => decide (a ≤ b))
  else []

/-- `SessionData::write_mailbox_changes`: the lines it writes and the selected state it leaves. -/
def writeMailboxChanges (isQresync : Bool) (modseq : Option UInt64) (newState : MailboxState)
    (mailbox : SelectedState) : Option UInt64 × List Line × SelectedState :=
  let r := synchronizeMessages modseq newState mailbox
  match r.2.next with
  | none => (r.1, [], r.2)
  | some next =>
    let expunged := deletionLines isQresync next.deletions
    let lines := if expunged ≠ [] ∨ saturatingSub next.nextState.uidMax r.2.state.uidMax > 0 then
        expunged ++ [.existsCount next.nextState.totalMessages]
      else expunged
    (r.1, lines, ⟨next.nextState, none⟩)

/-! ## The store and a session run -/

/-- The selected mailbox as the store holds it: the id and the uid of each of its messages,
the account's last email change id, and a bound on every uid the mailbox has given out. -/
structure Store where
  messages : List (UInt32 × UInt32)
  modseq : Option UInt64
  uidBound : ℕ

namespace Store

def uids (s : Store) : List UInt32 := s.messages.map Prod.snd

/-- The `MailboxIds` of each message, as `fetch_messages` reads them. -/
def props (mailboxId : UInt32) (s : Store) : List (UInt32 × List UidMailbox) :=
  s.messages.map fun m => (m.1, [⟨mailboxId, m.2⟩])

def fetch (mailboxId uidValidity : UInt32) (s : Store) : MailboxState :=
  fetchMessages mailboxId uidValidity s.modseq (s.props mailboxId)

/-- Distinct message ids, and distinct nonzero uids below the bound. -/
structure Valid (s : Store) : Prop where
  ids_nodup : (s.messages.map Prod.fst).Nodup
  uids_nodup : s.uids.Nodup
  bound_pos : 0 < s.uidBound
  uid_pos : ∀ u ∈ s.uids, 0 < u.toNat
  uid_lt : ∀ u ∈ s.uids, u.toNat < s.uidBound

end Store

/-- A change of the account's emails. -/
inductive Change
  | add (id uid : UInt32)
  | remove (id : UInt32)
  | other

/-- The store after a change with the given change id: a message enters the mailbox with its
uid, leaves it, or the change touches other data. -/
def Change.apply (changeId : UInt64) (s : Store) : Change → Store
  | .add id uid => ⟨s.messages ++ [(id, uid)], some changeId, uid.toNat + 1⟩
  | .remove id => ⟨s.messages.filter (·.1 ≠ id), some changeId, s.uidBound⟩
  | .other => { s with modseq := some changeId }

/-- Change ids grow, and a message enters with an id not in the mailbox and a uid above every
uid the mailbox has given out. -/
def Change.Admissible (changeId : UInt64) (s : Store) : Change → Prop
  | .add id uid => s.modseq.getD 0 < changeId ∧ s.uidBound ≤ uid.toNat ∧ id ∉ s.messages.map Prod.fst
  | _ => s.modseq.getD 0 < changeId

inductive Event
  | change (changeId : UInt64) (c : Change)
  | sync

/-- A session run: the store changes and the calls of `synchronize_messages`, in order. -/
def run (mailboxId uidValidity : UInt32) : Store × SelectedState → List Event → Store × SelectedState
  | p, [] => p
  | p, .change changeId c :: es => run mailboxId uidValidity (c.apply changeId p.1, p.2) es
  | p, .sync :: es =>
    run mailboxId uidValidity
      (p.1, (synchronizeMessages p.1.modseq (p.1.fetch mailboxId uidValidity) p.2).2) es

/-- Every change of the run is admissible in the store it meets. -/
def Admissible : Store → List Event → Prop
  | _, [] => True
  | s, .change changeId c :: es => c.Admissible changeId s ∧ Admissible (c.apply changeId s) es
  | s, .sync :: es => Admissible s es

/-! ## What `fetch_messages` reads from the store -/

namespace Store

variable (mailboxId uidValidity : UInt32)

/-- The uid list of `fetch_messages` on the store: its `uid_map` in uid order. -/
def uidList (s : Store) : List (UInt32 × UInt32) := (collectUids mailboxId (s.props mailboxId)).toList

theorem uidMapInsert_single (t : TreeMap UInt32 UInt32) (m u : UInt32) :
    uidMapInsert mailboxId t (m, [⟨mailboxId, u⟩]) = t.insert u m := by
  simp [uidMapInsert]

theorem getElem?_foldl_uidMapInsert {l : List (UInt32 × UInt32)} (hl : (l.map Prod.snd).Nodup)
    (t : TreeMap UInt32 UInt32) (u m : UInt32) :
    ((l.map fun p => (p.1, [(⟨mailboxId, p.2⟩ : UidMailbox)])).foldl (uidMapInsert mailboxId) t)[u]? =
        some m ↔ (m, u) ∈ l ∨ (u ∉ l.map Prod.snd ∧ t[u]? = some m) := by
  induction l generalizing t with
  | nil => simp
  | cons p l ih =>
    obtain ⟨m', u'⟩ := p
    obtain ⟨hu', hl'⟩ := List.nodup_cons.mp hl
    rw [List.map_cons, List.foldl_cons, uidMapInsert_single, ih hl', getElem?_uidMap_insert]
    by_cases hu : u' = u
    · subst hu
      have hnot : ∀ m, (m, u') ∉ l := fun m hm => hu' (List.mem_map.mpr ⟨_, hm, rfl⟩)
      simp [hnot, hu', eq_comm]
    · have hne : ∀ m, (m, u) ≠ (m', u') := fun m h => hu (Prod.mk.inj h).2.symm
      simp [hu, Ne.symm hu, hne]

theorem mem_uidList {s : Store} (hs : s.uids.Nodup) {u m : UInt32} :
    (u, m) ∈ s.uidList mailboxId ↔ (m, u) ∈ s.messages := by
  rw [uidList, TreeMap.mem_toList_iff_getElem?_eq_some, collectUids, props,
    getElem?_foldl_uidMapInsert mailboxId hs]
  simp

theorem Valid.props_ids_nodup {s : Store} (hs : s.Valid) : ((s.props mailboxId).map Prod.fst).Nodup := by
  simpa [props, Function.comp_def] using hs.ids_nodup

theorem Valid.props_uid_ne_zero {s : Store} (hs : s.Valid) :
    ∀ p ∈ s.props mailboxId, ∀ item ∈ p.2, item.mailboxId = mailboxId → item.uid ≠ 0 := by
  intro p hp item hitem _
  obtain ⟨q, hq, rfl⟩ := List.mem_map.mp hp
  rw [List.mem_singleton] at hitem
  subst hitem
  have hpos := hs.uid_pos q.2 (List.mem_map_of_mem hq)
  intro h
  simp only at h
  simp [h] at hpos

theorem uidList_uidList {s : Store} (hs : s.Valid) : UidList (s.uidList mailboxId) :=
  collectUids_toList mailboxId _ (hs.props_ids_nodup mailboxId) (hs.props_uid_ne_zero mailboxId)

theorem Valid.wellFormed {s : Store} (hs : s.Valid) : (s.fetch mailboxId uidValidity).WellFormed :=
  fetchMessages_wellFormed mailboxId uidValidity _ _ (hs.props_ids_nodup mailboxId)
    (hs.props_uid_ne_zero mailboxId)

theorem mem_uidList_fst {s : Store} (hs : s.uids.Nodup) {u : UInt32} :
    u ∈ (s.uidList mailboxId).map Prod.fst ↔ u ∈ s.uids := by
  simp only [List.mem_map, Prod.exists, exists_and_right, exists_eq_right, uids]
  constructor
  · rintro ⟨m, hm⟩
    exact ⟨m, (mem_uidList mailboxId hs).mp hm⟩
  · rintro ⟨m, hm⟩
    exact ⟨m, (mem_uidList mailboxId hs).mpr hm⟩

theorem contains_uidToId_fetch {s : Store} (hs : s.uids.Nodup) (u : UInt32) :
    (s.fetch mailboxId uidValidity).uidToId.contains u = decide (u ∈ s.uids) := by
  simp only [fetch, fetchMessages, numbering_foldl, HashMap.contains_insertMany_list,
    HashMap.contains_empty, Bool.false_or]
  rw [Bool.eq_iff_iff, List.contains_iff_mem, decide_eq_true_iff]
  exact mem_uidList_fst mailboxId hs

theorem getElem?_idToImap_fetch {s : Store} (hs : s.Valid) {m : UInt32} {v : ImapId} :
    (s.fetch mailboxId uidValidity).idToImap[m]? = some v ↔
      ∃ i, ∃ h : i < (s.uidList mailboxId).length, (s.uidList mailboxId)[i].2 = m ∧
        v = ⟨(s.uidList mailboxId)[i].1, UInt32.ofNat i + 1⟩ := by
  simp only [fetch, fetchMessages, numbering_foldl]
  exact (uidList_uidList mailboxId hs).getElem?_seqEntries

end Store

namespace Store

variable {mailboxId uidValidity : UInt32}

theorem fetch_congr {F s : Store} (hm : F.messages = s.messages) (hq : F.modseq = s.modseq) :
    F.fetch mailboxId uidValidity = s.fetch mailboxId uidValidity := by
  simp only [fetch, props, hm, hq]

theorem uid_mem_of_getElem?_idToImap {s : Store} (hs : s.Valid) {m : UInt32} {v : ImapId}
    (h : (s.fetch mailboxId uidValidity).idToImap[m]? = some v) : v.uid ∈ s.uids := by
  obtain ⟨i, hi, -, rfl⟩ := (getElem?_idToImap_fetch mailboxId uidValidity hs).mp h
  exact (mem_uidList_fst mailboxId hs.uids_nodup).mp (List.mem_map_of_mem (List.getElem_mem hi))

theorem eq_of_getElem?_idToImap {s : Store} (hs : s.Valid) {m₁ m₂ : UInt32} {v : ImapId}
    (h₁ : (s.fetch mailboxId uidValidity).idToImap[m₁]? = some v)
    (h₂ : (s.fetch mailboxId uidValidity).idToImap[m₂]? = some v) : m₁ = m₂ := by
  have hwf := hs.wellFormed mailboxId uidValidity
  have e₁ := hwf.uidToId_of_idToImap _ _ h₁
  rw [hwf.uidToId_of_idToImap _ _ h₂] at e₁
  exact (Option.some.inj e₁).symm

theorem Valid.apply {s : Store} (hs : s.Valid) {changeId : UInt64} {c : Change}
    (hc : c.Admissible changeId s) : (c.apply changeId s).Valid := by
  cases c with
  | add id uid =>
    obtain ⟨-, hbound, hid⟩ := hc
    have hnew : ∀ u ∈ s.uids, u ≠ uid := fun u hu h => by
      have := hs.uid_lt u hu
      rw [h] at this
      omega
    refine ⟨?_, ?_, by simp [Change.apply], ?_, ?_⟩
    · rw [Change.apply, List.map_append]
      refine List.nodup_append.mpr ⟨hs.ids_nodup, List.nodup_singleton _, fun a ha b hb => ?_⟩
      rw [List.map_singleton, List.mem_singleton] at hb
      subst hb
      exact fun h => hid (h ▸ ha)
    · rw [Change.apply, uids, List.map_append]
      refine List.nodup_append.mpr ⟨hs.uids_nodup, List.nodup_singleton _, fun a ha b hb => ?_⟩
      rw [List.map_singleton, List.mem_singleton] at hb
      subst hb
      exact hnew a ha
    · simp only [Change.apply, uids, List.map_append, List.mem_append, List.map_cons, List.map_nil,
        List.mem_singleton]
      rintro u (hu | rfl)
      · exact hs.uid_pos u hu
      · have := hs.bound_pos
        omega
    · simp only [Change.apply, uids, List.map_append, List.mem_append, List.map_cons, List.map_nil,
        List.mem_singleton]
      rintro u (hu | rfl)
      · have := hs.uid_lt u hu
        omega
      · omega
  | remove id =>
    have hsub : (s.messages.filter (·.1 ≠ id)).Sublist s.messages := List.filter_sublist
    exact ⟨hs.ids_nodup.sublist (hsub.map _), hs.uids_nodup.sublist (hsub.map _), hs.bound_pos,
      fun u hu => hs.uid_pos u ((hsub.map _).subset hu), fun u hu => hs.uid_lt u ((hsub.map _).subset hu)⟩
  | other => exact ⟨hs.ids_nodup, hs.uids_nodup, hs.bound_pos, hs.uid_pos, hs.uid_lt⟩

end Store

/-! ## One synchronization -/

section Prune

variable (newState : MailboxState)

theorem foldl_pruneStep_deletions (entries : List (UInt32 × ImapId))
    (acc : List ImapId × HashMap UInt32 ImapId × HashMap UInt32 UInt32) :
    (entries.foldl (pruneStep newState) acc).1 =
      acc.1 ++ (entries.filter fun e => !newState.uidToId.contains e.2.uid).map Prod.snd := by
  induction entries generalizing acc with
  | nil => simp
  | cons e entries ih =>
    rw [List.foldl_cons, ih, pruneStep]
    by_cases h : newState.uidToId.contains e.2.uid <;> simp [h]

theorem foldl_pruneStep_idToImap (entries : List (UInt32 × ImapId))
    (acc : List ImapId × HashMap UInt32 ImapId × HashMap UInt32 UInt32) :
    (entries.foldl (pruneStep newState) acc).2.1 =
      acc.2.1.insertMany (entries.filter fun e => newState.uidToId.contains e.2.uid) := by
  induction entries generalizing acc with
  | nil => simp
  | cons e entries ih =>
    obtain ⟨k, v⟩ := e
    rw [List.foldl_cons, ih, pruneStep]
    by_cases h : newState.uidToId.contains v.uid <;> simp [h, HashMap.insertMany_cons]

variable {modseq : Option UInt64} {mailbox : SelectedState}

theorem synchronizeMessages_of_eq (h : mailbox.state.modseq = modseq) :
    (synchronizeMessages modseq newState mailbox).2 = mailbox := by
  rw [synchronizeMessages, if_neg (not_not.mpr h)]

theorem synchronizeMessages_next (h : mailbox.state.modseq ≠ modseq) :
    (synchronizeMessages modseq newState mailbox).2.next = some ⟨newState,
      (mailbox.next.map NextMailboxState.deletions).getD [] ++
        (mailbox.state.idToImap.toList.filter fun e => !newState.uidToId.contains e.2.uid).map
          Prod.snd⟩ := by
  rw [synchronizeMessages, if_pos h]
  dsimp only
  rw [foldl_pruneStep_deletions]

theorem synchronizeMessages_uidMax :
    (synchronizeMessages modseq newState mailbox).2.state.uidMax = mailbox.state.uidMax := by
  unfold synchronizeMessages
  split_ifs <;> rfl

theorem synchronizeMessages_modseq (h : mailbox.state.modseq ≠ modseq) :
    (synchronizeMessages modseq newState mailbox).2.state.modseq = newState.modseq := by
  rw [synchronizeMessages, if_pos h]

theorem getElem?_synchronizeMessages (h : mailbox.state.modseq ≠ modseq) (m : UInt32) (v : ImapId) :
    (synchronizeMessages modseq newState mailbox).2.state.idToImap[m]? = some v ↔
      mailbox.state.idToImap[m]? = some v ∧ newState.uidToId.contains v.uid = true := by
  have hdistinct : (mailbox.state.idToImap.toList.filter fun e =>
      newState.uidToId.contains e.2.uid).Pairwise (fun a b => (a.1 == b.1) = false) :=
    HashMap.distinct_keys_toList.sublist List.filter_sublist
  rw [synchronizeMessages, if_pos h]
  simp only
  rw [foldl_pruneStep_idToImap, HashMap.getElem?_insertMany_empty_eq_some hdistinct, List.mem_filter,
    HashMap.mem_toList_iff_getElem?_eq_some]

end Prune

/-! ## Store changes -/

namespace Change

variable {changeId : UInt64} {s : Store}

theorem modseq_apply (c : Change) : (c.apply changeId s).modseq = some changeId := by
  cases c <;> rfl

theorem Admissible.modseq_lt {c : Change} (hc : c.Admissible changeId s) : s.modseq.getD 0 < changeId := by
  cases c with
  | add => exact hc.1
  | remove | other => exact hc

theorem Admissible.bound_le {c : Change} (hc : c.Admissible changeId s) :
    s.uidBound ≤ (c.apply changeId s).uidBound := by
  cases c with
  | add => exact Nat.le_succ_of_le hc.2.1
  | remove | other => exact Nat.le_refl _

theorem Admissible.mem_uids {c : Change} (hc : c.Admissible changeId s) {u : UInt32}
    (hu : u ∈ (c.apply changeId s).uids) : u ∈ s.uids ∨ s.uidBound ≤ u.toNat := by
  cases c with
  | add id uid =>
    simp only [apply, Store.uids, List.map_append, List.mem_append, List.map_cons, List.map_nil,
      List.mem_singleton] at hu
    rcases hu with hu | rfl
    · exact Or.inl hu
    · exact Or.inr hc.2.1
  | remove id => exact Or.inl ((List.filter_sublist.map _).subset hu)
  | other => exact Or.inl hu

end Change

/-! ## The session invariant -/

/-- What a session keeps against the client's view `fetch s0`, with `F` the store of the last
fetch that found a change, at first `s0`: the selected numbering is the view's restricted to
the uids of `F`, the deletions are the view's messages whose uid `F` lacks, each once, the next
state is `F`'s, and the store has not changed since `F` unless its change id has. -/
structure SyncInv (mailboxId uidValidity : UInt32) (s0 F s : Store) (sel : SelectedState) :
    Prop where
  valid : s.Valid
  modseq_le : F.modseq.getD 0 ≤ s.modseq.getD 0
  messages_eq : F.modseq = s.modseq → F.messages = s.messages
  uid_lt : ∀ u ∈ s0.uids, u.toNat < s.uidBound
  gone : ∀ u ∈ s0.uids, u ∉ F.uids → u ∉ s.uids
  state_modseq : sel.state.modseq = F.modseq
  state_uidMax : sel.state.uidMax = (s0.fetch mailboxId uidValidity).uidMax
  idToImap : ∀ (m : UInt32) (v : ImapId), sel.state.idToImap[m]? = some v ↔
    (s0.fetch mailboxId uidValidity).idToImap[m]? = some v ∧ v.uid ∈ F.uids
  deletions_nodup : ((sel.next.map NextMailboxState.deletions).getD []).Nodup
  mem_deletions : ∀ v : ImapId, v ∈ (sel.next.map NextMailboxState.deletions).getD [] ↔
    (∃ m : UInt32, (s0.fetch mailboxId uidValidity).idToImap[m]? = some v) ∧ v.uid ∉ F.uids
  next : sel.next.map NextMailboxState.nextState = some (F.fetch mailboxId uidValidity) ∨
    sel.next = none ∧ sel.state = F.fetch mailboxId uidValidity

section Invariant

variable {mailboxId uidValidity : UInt32} {s0 F s : Store} {sel : SelectedState}

theorem syncInv_init (hs0 : s0.Valid) :
    SyncInv mailboxId uidValidity s0 s0 s0 ⟨s0.fetch mailboxId uidValidity, none⟩ where
  valid := hs0
  modseq_le := UInt64.le_refl _
  messages_eq := fun _ => rfl
  uid_lt := hs0.uid_lt
  gone := fun _ hu hnot => absurd hu hnot
  state_modseq := rfl
  state_uidMax := rfl
  idToImap := fun _ _ => ⟨fun h => ⟨h, Store.uid_mem_of_getElem?_idToImap hs0 h⟩, fun h => h.1⟩
  deletions_nodup := List.nodup_nil
  mem_deletions := fun _ =>
    ⟨fun h => absurd h List.not_mem_nil,
      fun ⟨⟨_, hm⟩, hnot⟩ => absurd (Store.uid_mem_of_getElem?_idToImap hs0 hm) hnot⟩
  next := Or.inr ⟨rfl, rfl⟩

theorem SyncInv.change (h : SyncInv mailboxId uidValidity s0 F s sel) {changeId : UInt64}
    {c : Change} (hc : c.Admissible changeId s) :
    SyncInv mailboxId uidValidity s0 F (c.apply changeId s) sel where
  valid := h.valid.apply hc
  modseq_le := by
    rw [Change.modseq_apply, Option.getD_some]
    exact UInt64.le_of_lt (UInt64.lt_of_le_of_lt h.modseq_le hc.modseq_lt)
  messages_eq := by
    intro hF
    have hle := h.modseq_le
    rw [Change.modseq_apply] at hF
    rw [hF, Option.getD_some] at hle
    exact absurd (UInt64.lt_of_le_of_lt hle hc.modseq_lt) (UInt64.lt_irrefl _)
  uid_lt := fun u hu => Nat.lt_of_lt_of_le (h.uid_lt u hu) hc.bound_le
  gone := by
    intro u hu hF hnew
    rcases hc.mem_uids hnew with hold | hbound
    · exact h.gone u hu hF hold
    · have := h.uid_lt u hu
      omega
  state_modseq := h.state_modseq
  state_uidMax := h.state_uidMax
  idToImap := h.idToImap
  deletions_nodup := h.deletions_nodup
  mem_deletions := h.mem_deletions
  next := h.next

/-- A synchronization that finds the change id unchanged keeps the state, and the store is
still the one last fetched. -/
theorem SyncInv.sync_of_eq (h : SyncInv mailboxId uidValidity s0 F s sel)
    (heq : sel.state.modseq = s.modseq) : SyncInv mailboxId uidValidity s0 s s sel := by
  have hq : F.modseq = s.modseq := h.state_modseq ▸ heq
  have hm : F.messages = s.messages := h.messages_eq hq
  have huids : F.uids = s.uids := by rw [Store.uids, hm, Store.uids]
  have hfetch : F.fetch mailboxId uidValidity = s.fetch mailboxId uidValidity := Store.fetch_congr hm hq
  exact { valid := h.valid
          modseq_le := UInt64.le_refl _
          messages_eq := fun _ => rfl
          uid_lt := h.uid_lt
          gone := fun _ _ hu => hu
          state_modseq := heq
          state_uidMax := h.state_uidMax
          idToImap := huids ▸ h.idToImap
          deletions_nodup := h.deletions_nodup
          mem_deletions := huids ▸ h.mem_deletions
          next := hfetch ▸ h.next }

theorem mem_droppedEntries {newState : MailboxState} {idToImap : HashMap UInt32 ImapId} {v : ImapId} :
    v ∈ (idToImap.toList.filter fun e => !newState.uidToId.contains e.2.uid).map Prod.snd ↔
      ∃ m : UInt32, idToImap[m]? = some v ∧ newState.uidToId.contains v.uid = false := by
  simp only [List.mem_map, List.mem_filter, HashMap.mem_toList_iff_getElem?_eq_some, Prod.exists,
    exists_and_right, exists_eq_right, Bool.not_eq_true']

/-- A synchronization that finds a new change id prunes the numbering to the fetched store and
adds the messages it drops to the deletions. -/
theorem SyncInv.sync_of_ne (h : SyncInv mailboxId uidValidity s0 F s sel) (hs0 : s0.Valid)
    (hne : sel.state.modseq ≠ s.modseq) :
    SyncInv mailboxId uidValidity s0 s s
      (synchronizeMessages s.modseq (s.fetch mailboxId uidValidity) sel).2 := by
  have hcontains := Store.contains_uidToId_fetch mailboxId uidValidity h.valid.uids_nodup
  have hF : ∀ (m : UInt32) (v : ImapId), (s0.fetch mailboxId uidValidity).idToImap[m]? = some v →
      v.uid ∈ s.uids → v.uid ∈ F.uids := fun m v hm hs =>
    by_contra fun hF => h.gone _ (Store.uid_mem_of_getElem?_idToImap hs0 hm) hF hs
  have hnext := synchronizeMessages_next (s.fetch mailboxId uidValidity) hne
  have hdropped : ∀ v : ImapId, v ∈ (sel.state.idToImap.toList.filter fun e =>
      !(s.fetch mailboxId uidValidity).uidToId.contains e.2.uid).map Prod.snd ↔
        ∃ m : UInt32, sel.state.idToImap[m]? = some v ∧ v.uid ∉ s.uids := by
    intro v
    rw [mem_droppedEntries]
    simp [hcontains]
  refine { valid := h.valid
           modseq_le := UInt64.le_refl _
           messages_eq := fun _ => rfl
           uid_lt := h.uid_lt
           gone := fun _ _ hu => hu
           state_modseq := ?_
           state_uidMax := (synchronizeMessages_uidMax _).trans h.state_uidMax
           idToImap := ?_
           deletions_nodup := ?_
           mem_deletions := ?_
           next := ?_ }
  · rw [synchronizeMessages_modseq _ hne]
    rfl
  · intro m v
    rw [getElem?_synchronizeMessages _ hne, h.idToImap, hcontains, decide_eq_true_iff]
    constructor
    · rintro ⟨⟨hm, -⟩, hs⟩
      exact ⟨hm, hs⟩
    · rintro ⟨hm, hs⟩
      exact ⟨⟨hm, hF m v hm hs⟩, hs⟩
  · rw [hnext, Option.map_some, Option.getD_some]
    have hentries : sel.state.idToImap.toList.Nodup :=
      HashMap.distinct_keys_toList.imp fun hab heq => by simp [heq] at hab
    refine List.nodup_append.mpr ⟨h.deletions_nodup, ?_, ?_⟩
    · refine (hentries.filter _).map_on fun x hx y hy hxy => ?_
      have hx' := HashMap.mem_toList_iff_getElem?_eq_some.mp (List.mem_filter.mp hx).1
      have hy' := HashMap.mem_toList_iff_getElem?_eq_some.mp (List.mem_filter.mp hy).1
      rw [hxy] at hx'
      exact Prod.ext (Store.eq_of_getElem?_idToImap hs0 ((h.idToImap _ _).mp hx').1
        ((h.idToImap _ _).mp hy').1) hxy
    · rintro a ha b hb rfl
      obtain ⟨m, hm, -⟩ := (hdropped a).mp hb
      exact ((h.mem_deletions a).mp ha).2 ((h.idToImap m a).mp hm).2
  · intro v
    rw [hnext, Option.map_some, Option.getD_some, List.mem_append, h.mem_deletions, hdropped]
    constructor
    · rintro (⟨⟨m, hm⟩, hvF⟩ | ⟨m, hm, hvs⟩)
      · exact ⟨⟨m, hm⟩, h.gone _ (Store.uid_mem_of_getElem?_idToImap hs0 hm) hvF⟩
      · exact ⟨⟨m, ((h.idToImap m v).mp hm).1⟩, hvs⟩
    · rintro ⟨⟨m, hm⟩, hvs⟩
      by_cases hvF : v.uid ∈ F.uids
      · exact Or.inr ⟨m, (h.idToImap m v).mpr ⟨hm, hvF⟩, hvs⟩
      · exact Or.inl ⟨⟨m, hm⟩, hvF⟩
  · left
    rw [hnext]
    rfl

theorem SyncInv.sync (h : SyncInv mailboxId uidValidity s0 F s sel) (hs0 : s0.Valid) :
    SyncInv mailboxId uidValidity s0 s s
      (synchronizeMessages s.modseq (s.fetch mailboxId uidValidity) sel).2 := by
  by_cases heq : sel.state.modseq = s.modseq
  · rw [synchronizeMessages_of_eq _ heq]
    exact h.sync_of_eq heq
  · exact h.sync_of_ne hs0 heq

theorem SyncInv.run (h : SyncInv mailboxId uidValidity s0 F s sel) (hs0 : s0.Valid)
    {events : List Event} (hadm : Admissible s events) :
    ∃ F', SyncInv mailboxId uidValidity s0 F' (run mailboxId uidValidity (s, sel) events).1
      (run mailboxId uidValidity (s, sel) events).2 := by
  induction events generalizing F s sel with
  | nil => exact ⟨F, h⟩
  | cons e es ih =>
    cases e with
    | change changeId c => exact ih (h.change hadm.1) hadm.2
    | sync => exact ih (h.sync hs0) hadm

end Invariant

/-! ## The client's view of a fetched state -/

section View

variable {mailboxId uidValidity : UInt32}

theorem idToImap_fetch (s : Store) :
    (s.fetch mailboxId uidValidity).idToImap =
      (∅ : HashMap UInt32 ImapId).insertMany ((s.uidList mailboxId).zipIdx.map seqEntry) := by
  simp [Store.fetch, fetchMessages, numbering_foldl, Store.uidList]

theorem mem_seqEntries_snd {L : List (UInt32 × UInt32)} {v : ImapId} :
    v ∈ (L.zipIdx.map seqEntry).map Prod.snd ↔
      ∃ i, ∃ h : i < L.length, v = ⟨L[i].1, UInt32.ofNat i + 1⟩ := by
  constructor
  · intro h
    obtain ⟨⟨m, w⟩, hm, rfl⟩ := List.mem_map.mp h
    obtain ⟨i, hi, -, rfl⟩ := mem_seqEntries.mp hm
    exact ⟨i, hi, rfl⟩
  · rintro ⟨i, hi, rfl⟩
    exact List.mem_map.mpr ⟨_, mem_seqEntries.mpr ⟨i, hi, rfl, rfl⟩, rfl⟩

theorem toList_idToImap_fetch_perm {s : Store} (hs : s.Valid) :
    (s.fetch mailboxId uidValidity).idToImap.toList.Perm ((s.uidList mailboxId).zipIdx.map seqEntry) := by
  have hL := Store.uidList_uidList mailboxId hs
  have h₁ : (s.fetch mailboxId uidValidity).idToImap.toList.Nodup :=
    HashMap.distinct_keys_toList.imp fun hab heq => by simp [heq] at hab
  have h₂ : ((s.uidList mailboxId).zipIdx.map seqEntry).Nodup :=
    hL.seqEntries_distinct.imp fun hab heq => by simp [heq] at hab
  refine (List.perm_ext_iff_of_nodup h₁ h₂).mpr fun e => ?_
  rw [HashMap.mem_toList_iff_getElem?_eq_some, idToImap_fetch,
    HashMap.getElem?_insertMany_empty_eq_some hL.seqEntries_distinct]

theorem pairwise_seqnum_seqEntries {L : List (UInt32 × UInt32)} (hL : UidList L) :
    ((L.zipIdx.map seqEntry).map Prod.snd).Pairwise
      (fun a b => decide (a.seqnum ≤ b.seqnum) = true) := by
  have hlen := hL.length_lt
  rw [List.pairwise_iff_getElem]
  intro i j hi hj hij
  simp only [List.length_map, List.length_zipIdx] at hi hj
  simp only [List.getElem_map, List.getElem_zipIdx, seqEntry, Nat.zero_add, decide_eq_true_eq,
    UInt32.le_iff_toNat_le, seqnum_toNat (show i + 1 < 2 ^ 32 by omega),
    seqnum_toNat (show j + 1 < 2 ^ 32 by omega)]
  omega

theorem view_fetch {s : Store} (hs : s.Valid) :
    (s.fetch mailboxId uidValidity).view = (s.uidList mailboxId).map Prod.fst := by
  have hL := Store.uidList_uidList mailboxId hs
  have hlen := hL.length_lt
  have hsorted := List.pairwise_mergeSort
    (fun a b c (hab : decide (a.seqnum ≤ b.seqnum) = true) (hbc : decide (b.seqnum ≤ c.seqnum) = true) =>
      decide_eq_true (UInt32.le_trans (of_decide_eq_true hab) (of_decide_eq_true hbc)))
    (fun a b => by
      rcases UInt32.le_total a.seqnum b.seqnum with h | h <;> simp [h])
    ((s.fetch mailboxId uidValidity).idToImap.toList.map Prod.snd)
  have hentries : (s.fetch mailboxId uidValidity).idToImap.toList.Perm
      ((s.uidList mailboxId).zipIdx.map seqEntry) := toList_idToImap_fetch_perm hs
  have hperm := (List.mergeSort_perm _ (fun a b => decide (a.seqnum ≤ b.seqnum))).trans
    (hentries.map Prod.snd)
  have hsame : ∀ a b, a ∈ ((s.fetch mailboxId uidValidity).idToImap.toList.map Prod.snd).mergeSort
      (fun a b => decide (a.seqnum ≤ b.seqnum)) →
      b ∈ ((s.uidList mailboxId).zipIdx.map seqEntry).map Prod.snd →
      decide (a.seqnum ≤ b.seqnum) = true → decide (b.seqnum ≤ a.seqnum) = true → a = b := by
    intro a b ha hb hab hba
    obtain ⟨i, hi, rfl⟩ := mem_seqEntries_snd.mp (hperm.subset ha)
    obtain ⟨j, hj, rfl⟩ := mem_seqEntries_snd.mp hb
    simp only [decide_eq_true_eq, UInt32.le_iff_toNat_le, seqnum_toNat (show i + 1 < 2 ^ 32 by omega),
      seqnum_toNat (show j + 1 < 2 ^ 32 by omega)] at hab hba
    obtain rfl : i = j := by omega
    rfl
  rw [MailboxState.view, hperm.eq_of_pairwise hsame hsorted (pairwise_seqnum_seqEntries hL)]
  simp only [List.map_map]
  conv_rhs => rw [← List.zipIdx_map_fst 0 (s.uidList mailboxId), List.map_map]
  rfl

end View

/-! ## The lines written for the deletions -/

theorem pairwise_lt_mergeSort {l : List UInt32} (hl : l.Nodup) :
    (l.mergeSort fun a b => decide (a ≤ b)).Pairwise (· < ·) := by
  have hle := List.pairwise_mergeSort
    (fun a b c (hab : decide (a ≤ b) = true) (hbc : decide (b ≤ c) = true) =>
      decide_eq_true (UInt32.le_trans (of_decide_eq_true hab) (of_decide_eq_true hbc)))
    (fun a b => by rcases UInt32.le_total a b with h | h <;> simp [h]) l
  have hne := List.nodup_iff_pairwise_ne.mp
    ((List.mergeSort_perm l fun a b => decide (a ≤ b)).nodup_iff.mpr hl)
  refine (hle.and hne).imp ?_
  rintro a b ⟨hab, hne⟩
  have hab := of_decide_eq_true hab
  rw [UInt32.le_iff_toNat_le] at hab
  rw [UInt32.lt_iff_toNat_lt]
  have : a.toNat ≠ b.toNat := fun h => hne (UInt32.toNat_inj.mp h)
  omega

theorem existsCount_not_mem_deletionLines (isQresync : Bool) (deletions : List ImapId) (n : ℕ) :
    Line.existsCount n ∉ deletionLines isQresync deletions := by
  unfold deletionLines expungeResponse
  split_ifs <;> simp

theorem deletionLines_eq_nil_iff (isQresync : Bool) (deletions : List ImapId) :
    deletionLines isQresync deletions = [] ↔ deletions = [] := by
  unfold deletionLines expungeResponse
  by_cases hd : deletions = []
  · simp [hd]
  · have hsorted : ∀ ids : List UInt32, ids.mergeSort (fun a b => decide (a ≤ b)) = [] ↔ ids = [] :=
      fun ids => by rw [← List.length_eq_zero_iff, List.length_mergeSort, List.length_eq_zero_iff]
    cases isQresync <;> simp [hd, hsorted]

section Deletions

variable {mailboxId uidValidity : UInt32} {s0 : Store} {S : List UInt32} {D : List ImapId}

/-- The deletions a session has recorded against the view `fetch s0`, when the store now has
the uids `S`: each message of the view whose uid is gone, once. -/
structure Deleted (mailboxId uidValidity : UInt32) (s0 : Store) (S : List UInt32)
    (D : List ImapId) : Prop where
  nodup : D.Nodup
  mem : ∀ v : ImapId, v ∈ D ↔
    (∃ m : UInt32, (s0.fetch mailboxId uidValidity).idToImap[m]? = some v) ∧ v.uid ∉ S

theorem Deleted.mem_iff (hD : Deleted mailboxId uidValidity s0 S D) (hs0 : s0.Valid) {v : ImapId} :
    v ∈ D ↔ ∃ i, ∃ h : i < (s0.uidList mailboxId).length,
      v = ⟨(s0.uidList mailboxId)[i].1, UInt32.ofNat i + 1⟩ ∧ (s0.uidList mailboxId)[i].1 ∉ S := by
  rw [hD.mem]
  constructor
  · rintro ⟨⟨m, hm⟩, hS⟩
    obtain ⟨i, hi, -, rfl⟩ := (Store.getElem?_idToImap_fetch mailboxId uidValidity hs0).mp hm
    exact ⟨i, hi, rfl, hS⟩
  · rintro ⟨i, hi, rfl, hS⟩
    exact ⟨⟨_, (Store.getElem?_idToImap_fetch mailboxId uidValidity hs0).mpr ⟨i, hi, rfl, rfl⟩⟩, hS⟩

theorem Deleted.ne_nil_iff (hD : Deleted mailboxId uidValidity s0 S D) (hs0 : s0.Valid) :
    D ≠ [] ↔ ∃ u ∈ (s0.uidList mailboxId).map Prod.fst, u ∉ S := by
  constructor
  · intro hne
    obtain ⟨v, hv⟩ := List.exists_mem_of_ne_nil D hne
    obtain ⟨i, hi, -, hS⟩ := (hD.mem_iff hs0).mp hv
    exact ⟨_, List.mem_map_of_mem (List.getElem_mem hi), hS⟩
  · rintro ⟨u, hu, hS⟩
    obtain ⟨p, hp, rfl⟩ := List.mem_map.mp hu
    obtain ⟨i, hi, rfl⟩ := List.mem_iff_getElem.mp hp
    exact List.ne_nil_of_mem ((hD.mem_iff hs0).mpr ⟨i, hi, rfl, hS⟩)

theorem Deleted.mem_of_nil (hD : Deleted mailboxId uidValidity s0 S []) (hs0 : s0.Valid) {u : UInt32}
    (hu : u ∈ (s0.uidList mailboxId).map Prod.fst) : u ∈ S := by
  obtain ⟨i, hi, rfl⟩ := List.mem_iff_getElem.mp hu
  by_contra hS
  simp only [List.getElem_map] at hS
  exact List.not_mem_nil ((hD.mem_iff hs0).mpr ⟨i, by simpa using hi, rfl, hS⟩)

/-- The sorted sequence numbers of the deletions are the positions of the gone uids in the
view. -/
theorem Deleted.seqnums_eq_positions (hD : Deleted mailboxId uidValidity s0 S D) (hs0 : s0.Valid) :
    ((D.map ImapId.seqnum).mergeSort fun a b => decide (a ≤ b)).map UInt32.toNat =
      List.positions (fun u => decide (u ∉ S)) ((s0.uidList mailboxId).map Prod.fst) := by
  have hlen := (Store.uidList_uidList mailboxId hs0).length_lt
  have hinj : ∀ v ∈ D, ∀ w ∈ D, v.seqnum = w.seqnum → v = w := by
    intro v hv w hw hvw
    obtain ⟨i, hi, rfl, -⟩ := (hD.mem_iff hs0).mp hv
    obtain ⟨j, hj, rfl, -⟩ := (hD.mem_iff hs0).mp hw
    rw [← UInt32.toNat_inj, seqnum_toNat (show i + 1 < 2 ^ 32 by omega),
      seqnum_toNat (show j + 1 < 2 ^ 32 by omega)] at hvw
    obtain rfl : i = j := by omega
    rfl
  have hsorted := pairwise_lt_mergeSort (hD.nodup.map_on hinj)
  apply List.Pairwise.eq_of_mem_iff (r := (· < ·))
  · exact List.pairwise_map.mpr (hsorted.imp UInt32.lt_iff_toNat_lt.mp)
  · exact List.pairwise_positions _ _
  · intro x
    rw [List.mem_map, List.mem_positions]
    simp only [(List.mergeSort_perm _ _).mem_iff, List.mem_map, List.length_map, List.getElem_map,
      decide_eq_true_eq]
    constructor
    · rintro ⟨_, ⟨v, hv, rfl⟩, rfl⟩
      obtain ⟨i, hi, rfl, hS⟩ := (hD.mem_iff hs0).mp hv
      exact ⟨i, hi, hS, seqnum_toNat (by omega)⟩
    · rintro ⟨i, hi, hS, rfl⟩
      exact ⟨_, ⟨_, (hD.mem_iff hs0).mpr ⟨i, hi, rfl, hS⟩, rfl⟩, seqnum_toNat (by omega)⟩

theorem Deleted.foldl_applyLine (hD : Deleted mailboxId uidValidity s0 S D) (hs0 : s0.Valid) :
    (deletionLines false D).foldl applyLine ((s0.uidList mailboxId).map Prod.fst) =
      ((s0.uidList mailboxId).map Prod.fst).filter (· ∈ S) := by
  have hpos := hD.seqnums_eq_positions hs0
  have hlen : ((D.map ImapId.seqnum).mergeSort fun a b => decide (a ≤ b)).length ≤ 2 ^ 32 := by
    have h₁ := congrArg List.length hpos
    have h₂ := List.length_positions_le (fun u => decide (u ∉ S)) ((s0.uidList mailboxId).map Prod.fst)
    have h₃ := (Store.uidList_uidList mailboxId hs0).length_lt
    simp only [List.length_map] at h₁ h₂
    omega
  have hlines : deletionLines false D =
      expungeResponse false ((D.map ImapId.seqnum).mergeSort fun a b => decide (a ≤ b)) := by
    simp only [deletionLines, Bool.false_eq_true, if_false]
    split_ifs with hne
    · rfl
    · rw [not_not.mp hne]
      simp [expungeResponse]
  rw [hlines, foldl_applyLine_expungeResponse hlen, hpos, List.eraseEach_shiftDown_positions]
  simp

theorem Deleted.any_vanishes (hD : Deleted mailboxId uidValidity s0 S D) (hs0 : s0.Valid)
    (u : UInt32) :
    (deletionLines true D).any (Line.vanishes u) = true ↔
      u ∈ (s0.uidList mailboxId).map Prod.fst ∧ u ∉ S := by
  have hL := Store.uidList_uidList mailboxId hs0
  by_cases hnil : D = []
  · subst hnil
    simp only [deletionLines, ne_eq, not_true_eq_false, if_false, List.any_nil, Bool.false_eq_true,
      false_iff, not_and, not_not]
    exact fun hu => hD.mem_of_nil hs0 hu
  have hfst : ((s0.uidList mailboxId).map Prod.fst).Nodup :=
    List.pairwise_map.mpr (hL.uid_lt.imp fun h => UInt32.ne_of_lt h)
  have hinj : ∀ v ∈ D, ∀ w ∈ D, v.uid = w.uid → v = w := by
    intro v hv w hw hvw
    obtain ⟨i, hi, rfl, -⟩ := (hD.mem_iff hs0).mp hv
    obtain ⟨j, hj, rfl, -⟩ := (hD.mem_iff hs0).mp hw
    have hi' : i < ((s0.uidList mailboxId).map Prod.fst).length := by simpa using hi
    have hj' : j < ((s0.uidList mailboxId).map Prod.fst).length := by simpa using hj
    have hvw' : ((s0.uidList mailboxId).map Prod.fst)[i] = ((s0.uidList mailboxId).map Prod.fst)[j] := by
      simpa using hvw
    have hij : i = j := hfst.getElem_inj_iff.mp hvw'
    subst hij
    rfl
  have hids : ((D.map fun id => if true = true then id.uid else id.seqnum).mergeSort
      fun a b => decide (a ≤ b)).Pairwise (· < ·) := by
    simp only [if_true]
    exact pairwise_lt_mergeSort (hD.nodup.map_on hinj)
  rw [deletionLines, if_pos hnil, any_vanishes_expungeResponse hids, (List.mergeSort_perm _ _).mem_iff]
  simp only [if_true, List.mem_map]
  constructor
  · rintro ⟨v, hv, rfl⟩
    obtain ⟨i, hi, rfl, hS⟩ := (hD.mem_iff hs0).mp hv
    exact ⟨⟨(s0.uidList mailboxId)[i], List.getElem_mem hi, rfl⟩, hS⟩
  · rintro ⟨⟨p, hp, rfl⟩, hS⟩
    obtain ⟨i, hi, rfl⟩ := List.mem_iff_getElem.mp hp
    exact ⟨_, (hD.mem_iff hs0).mpr ⟨i, hi, rfl, hS⟩, rfl⟩

end Deletions

/-! ## Writing the changes -/

section Write

variable {mailboxId uidValidity : UInt32} {s0 F s : Store} {sel : SelectedState}

theorem SyncInv.deleted (h : SyncInv mailboxId uidValidity s0 F s sel) :
    Deleted mailboxId uidValidity s0 F.uids ((sel.next.map NextMailboxState.deletions).getD []) :=
  ⟨h.deletions_nodup, h.mem_deletions⟩

theorem writeMailboxChanges_of_none {isQresync : Bool} {modseq : Option UInt64}
    {newState : MailboxState} {mailbox : SelectedState}
    (h : (synchronizeMessages modseq newState mailbox).2.next = none) :
    writeMailboxChanges isQresync modseq newState mailbox =
      ((synchronizeMessages modseq newState mailbox).1, [],
        (synchronizeMessages modseq newState mailbox).2) := by
  simp only [writeMailboxChanges, h]

theorem writeMailboxChanges_of_some {isQresync : Bool} {modseq : Option UInt64}
    {newState : MailboxState} {mailbox : SelectedState} {next : NextMailboxState}
    (h : (synchronizeMessages modseq newState mailbox).2.next = some next) :
    writeMailboxChanges isQresync modseq newState mailbox =
      ((synchronizeMessages modseq newState mailbox).1,
        if deletionLines isQresync next.deletions ≠ [] ∨
            saturatingSub next.nextState.uidMax (synchronizeMessages modseq newState mailbox).2.state.uidMax > 0
          then deletionLines isQresync next.deletions ++ [.existsCount next.nextState.totalMessages]
          else deletionLines isQresync next.deletions,
        ⟨next.nextState, none⟩) := by
  simp only [writeMailboxChanges, h]

/-- What `write_mailbox_changes` writes from a state that keeps the invariant: the EXPUNGE lines
take the client's view to the uids still in the store, the VANISHED line names the others, the
EXISTS count is the store's, and the state left is the store's fetched state. -/
theorem writeMailboxChanges_of_syncInv (hs0 : s0.Valid) (h : SyncInv mailboxId uidValidity s0 F s sel)
    (isQresync : Bool) :
    let w := writeMailboxChanges isQresync s.modseq (s.fetch mailboxId uidValidity) sel
    let view := (s0.uidList mailboxId).map Prod.fst
    (isQresync = false → w.2.1.foldl applyLine view = view.filter (· ∈ s.uids)) ∧
    (∀ n, Line.existsCount n ∈ w.2.1 → n = (s.fetch mailboxId uidValidity).totalMessages) ∧
    ((∃ n, Line.existsCount n ∈ w.2.1) ↔ (∃ u ∈ view, u ∉ s.uids) ∨
      (s0.fetch mailboxId uidValidity).uidMax < (s.fetch mailboxId uidValidity).uidMax) ∧
    (isQresync = true → ∀ u, w.2.1.any (Line.vanishes u) = true ↔ u ∈ view ∧ u ∉ s.uids) ∧
    w.2.2 = ⟨s.fetch mailboxId uidValidity, none⟩ := by
  have h₁ := h.sync hs0
  have hD := h₁.deleted
  dsimp only
  cases hn : (synchronizeMessages s.modseq (s.fetch mailboxId uidValidity) sel).2.next with
  | none =>
    rw [writeMailboxChanges_of_none hn]
    rw [hn] at hD
    have hstate : (synchronizeMessages s.modseq (s.fetch mailboxId uidValidity) sel).2.state =
        s.fetch mailboxId uidValidity := by
      rcases h₁.next with hsome | ⟨-, hst⟩
      · rw [hn] at hsome
        cases hsome
      · exact hst
    have hkept : ∀ u ∈ (s0.uidList mailboxId).map Prod.fst, u ∈ s.uids := fun u hu =>
      hD.mem_of_nil hs0 hu
    have huidMax : (s.fetch mailboxId uidValidity).uidMax = (s0.fetch mailboxId uidValidity).uidMax := by
      rw [← hstate]
      exact h₁.state_uidMax
    refine ⟨fun _ => ?_, fun n hn => absurd hn List.not_mem_nil, ?_, fun _ u => ?_, ?_⟩
    · exact (List.filter_eq_self.mpr fun u hu => decide_eq_true (hkept u hu)).symm
    · rw [huidMax]
      exact iff_of_false (fun ⟨_, hn⟩ => List.not_mem_nil hn)
        (not_or.mpr ⟨fun ⟨u, hu, hS⟩ => hS (hkept u hu), UInt32.lt_irrefl _⟩)
    · simp only [List.any_nil, Bool.false_eq_true, false_iff, not_and, not_not]
      exact hkept u
    · generalize (synchronizeMessages s.modseq (s.fetch mailboxId uidValidity) sel).2 = r at hstate hn ⊢
      obtain ⟨st, nx⟩ := r
      simp only at hstate hn
      rw [hstate, hn]
  | some next =>
    rw [writeMailboxChanges_of_some hn]
    have hsome := hn
    rw [hsome] at hD
    have hnext : next.nextState = s.fetch mailboxId uidValidity := by
      rcases h₁.next with hmap | ⟨hnone, -⟩
      · rw [hsome, Option.map_some] at hmap
        exact Option.some.inj hmap
      · rw [hsome] at hnone
        cases hnone
    rw [Option.map_some, Option.getD_some] at hD
    have hcond : (deletionLines isQresync next.deletions ≠ [] ∨ saturatingSub next.nextState.uidMax
          (synchronizeMessages s.modseq (s.fetch mailboxId uidValidity) sel).2.state.uidMax > 0) ↔
        (∃ u ∈ (s0.uidList mailboxId).map Prod.fst, u ∉ s.uids) ∨
          (s0.fetch mailboxId uidValidity).uidMax < (s.fetch mailboxId uidValidity).uidMax := by
      rw [ne_eq, deletionLines_eq_nil_iff, ← ne_eq, hD.ne_nil_iff hs0, saturatingSub_pos_iff, hnext,
        h₁.state_uidMax]
    refine ⟨fun hq => ?_, fun n hn => ?_, ?_, fun hq u => ?_, by rw [hnext]⟩
    · subst hq
      split_ifs
      · rw [List.foldl_append, hD.foldl_applyLine hs0]
        rfl
      · exact hD.foldl_applyLine hs0
    · split_ifs at hn
      · rcases List.mem_append.mp hn with hn | hn
        · exact absurd hn (existsCount_not_mem_deletionLines _ _ _)
        · rw [List.mem_singleton, Line.existsCount.injEq] at hn
          rw [hn, hnext]
      · exact absurd hn (existsCount_not_mem_deletionLines _ _ _)
    · rw [← hcond]
      split_ifs with hc
      · exact iff_of_true ⟨_, List.mem_append_right _ (List.mem_singleton_self _)⟩ hc
      · exact iff_of_false (fun ⟨n, hn⟩ => existsCount_not_mem_deletionLines _ _ n hn) hc
    · subst hq
      split_ifs
      · rw [List.any_append, Bool.or_eq_true, hD.any_vanishes hs0]
        simp [Line.vanishes]
      · exact hD.any_vanishes hs0 u

/-- IMAP untagged updates keep the client in step: after any admissible run of store changes
and synchronizations from the view `fetch s0`, the lines `write_mailbox_changes` writes take the
client's view to the uids still in the mailbox (EXPUNGE) or name the gone ones (VANISHED); EXISTS
is written exactly when a uid of the view is gone or the largest uid grew, with the final count;
and the session is left on the final store's fetched state. -/
theorem writeMailboxChanges_view (mailboxId uidValidity : UInt32) (s0 : Store) (hs0 : s0.Valid)
    (events : List Event) (hadm : Admissible s0 events) (isQresync : Bool) :
    let r := run mailboxId uidValidity (s0, ⟨s0.fetch mailboxId uidValidity, none⟩) events
    let w := writeMailboxChanges isQresync r.1.modseq (r.1.fetch mailboxId uidValidity) r.2
    let view := (s0.fetch mailboxId uidValidity).view
    (isQresync = false → w.2.1.foldl applyLine view = view.filter (· ∈ r.1.uids)) ∧
    (∀ n, Line.existsCount n ∈ w.2.1 → n = (r.1.fetch mailboxId uidValidity).totalMessages) ∧
    ((∃ n, Line.existsCount n ∈ w.2.1) ↔ (∃ u ∈ view, u ∉ r.1.uids) ∨
      (s0.fetch mailboxId uidValidity).uidMax < (r.1.fetch mailboxId uidValidity).uidMax) ∧
    (isQresync = true → ∀ u, w.2.1.any (Line.vanishes u) = true ↔ u ∈ view ∧ u ∉ r.1.uids) ∧
    w.2.2 = ⟨r.1.fetch mailboxId uidValidity, none⟩ := by
  intro r w view
  have hinit : SyncInv mailboxId uidValidity s0 s0 s0 ⟨s0.fetch mailboxId uidValidity, none⟩ :=
    syncInv_init hs0
  obtain ⟨F, hrun⟩ := hinit.run hs0 hadm
  have hview : view = (s0.uidList mailboxId).map Prod.fst := view_fetch hs0
  rw [hview]
  exact writeMailboxChanges_of_syncInv hs0 hrun isQresync

theorem writeMailboxChanges_view_remove_add :
    let s0 : Store := ⟨[(10, 1), (11, 2), (12, 3)], some 5, 4⟩
    let r := run 0 1 (s0, ⟨s0.fetch 0 1, none⟩)
      [.change 6 (.remove 11), .sync, .change 7 (.add 13 4), .sync, .change 8 (.remove 12)]
    let w := writeMailboxChanges false r.1.modseq (r.1.fetch 0 1) r.2
    w.2.1.foldl applyLine (s0.fetch 0 1).view = (s0.fetch 0 1).view.filter (· ∈ r.1.uids) ∧
      ∃ n, Line.existsCount n ∈ w.2.1 := by
  have h := writeMailboxChanges_view 0 1 ⟨[(10, 1), (11, 2), (12, 3)], some 5, 4⟩
    ⟨by simp, by simp [Store.uids], by decide, by simp [Store.uids], by simp [Store.uids]⟩
    [.change 6 (.remove 11), .sync, .change 7 (.add 13 4), .sync, .change 8 (.remove 12)]
    (by simp [Admissible, Change.Admissible, Change.apply]) false
  exact ⟨h.1 rfl, h.2.2.1.mpr (Or.inr (by decide))⟩

end Write

end MailServer.Imap.Sync
