import Mathlib

/-! # Concurrent UID assignment

`assign_imap_uid` takes a mailbox's next UID with one atomic `add_and_get` on the
mailbox's `EmailIds` counter. The operation that asked for it (`email_ingest`, IMAP
COPY and MOVE, JMAP `Email/copy` and `Email/set`) writes the message into the mailbox
with that UID in a later batch of its own, and that batch asserts nothing about the
mailbox. A writer is a thread of these two atomic steps; a schedule interleaves the
writers and the expunges of other sessions.

Over every schedule the UIDs that the members and the waiting writers hold stay
distinct and at most the counter. But a writer that took its UID first can write
last, and its message then enters the mailbox below a UID that is already there.
-/

namespace MailServer.Jmap.ImapUid

/-- Where a writer is: before `assign_imap_uid`, holding the UID it was given, or after
its batch was written. -/
inductive Stage
  | start
  | assigned (uid : UInt32)
  | written
  deriving DecidableEq, Repr

/-- One of the concurrent operations that add a message to the mailbox. -/
structure Writer where
  messageId : UInt32
  stage : Stage
  deriving DecidableEq, Repr

/-- The mailbox as the store holds it: its `EmailIds` counter, and its members with
their UIDs in the order their batches were written. -/
structure Mailbox where
  emailIds : ℕ
  members : List (UInt32 × UInt32)
  deriving DecidableEq, Repr

/-- `assign_imap_uid`: `add_and_get(EmailIds, 1)`, read back as `last_counter_id() as u32`. -/
def assignImapUid (m : Mailbox) : Mailbox × UInt32 :=
  ({ m with emailIds := m.emailIds + 1 }, UInt32.ofNat (m.emailIds + 1))

/-- A writer's batch: the message enters the mailbox with its UID. -/
def writeBatch (m : Mailbox) (messageId uid : UInt32) : Mailbox :=
  { m with members := m.members ++ [(messageId, uid)] }

/-- Another session removes a message from the mailbox. -/
def expunge (m : Mailbox) (messageId : UInt32) : Mailbox :=
  { m with members := m.members.filter (·.1 ≠ messageId) }

structure World where
  mailbox : Mailbox
  writers : List Writer

inductive Event
  | writer (i : ℕ)
  | expunge (messageId : UInt32)

/-- Writer `i` takes its next atomic step. -/
def World.stepWriter (w : World) (i : ℕ) : World :=
  match w.writers[i]? with
  | some ⟨id, .start⟩ =>
    let r := assignImapUid w.mailbox
    ⟨r.1, w.writers.set i ⟨id, .assigned r.2⟩⟩
  | some ⟨id, .assigned uid⟩ => ⟨writeBatch w.mailbox id uid, w.writers.set i ⟨id, .written⟩⟩
  | _ => w

def World.step (w : World) : Event → World
  | .writer i => w.stepWriter i
  | .expunge id => { w with mailbox := expunge w.mailbox id }

def run (w : World) (es : List Event) : World := es.foldl World.step w

theorem run_cons (w : World) (e : Event) (es : List Event) :
    run w (e :: es) = run (w.step e) es := rfl

/-! ## What one step does -/

section Steps

variable {w : World} {i : ℕ} {id uid : UInt32}

theorem stepWriter_start (h : w.writers[i]? = some ⟨id, .start⟩) :
    w.stepWriter i = ⟨⟨w.mailbox.emailIds + 1, w.mailbox.members⟩,
      w.writers.set i ⟨id, .assigned (UInt32.ofNat (w.mailbox.emailIds + 1))⟩⟩ := by
  simp only [World.stepWriter, h, assignImapUid]

theorem stepWriter_assigned (h : w.writers[i]? = some ⟨id, .assigned uid⟩) :
    w.stepWriter i = ⟨⟨w.mailbox.emailIds, w.mailbox.members ++ [(id, uid)]⟩,
      w.writers.set i ⟨id, .written⟩⟩ := by
  simp only [World.stepWriter, h, writeBatch]

theorem stepWriter_of_idle (h : ∀ id, w.writers[i]? ≠ some ⟨id, .start⟩)
    (h' : ∀ id uid, w.writers[i]? ≠ some ⟨id, .assigned uid⟩) : w.stepWriter i = w := by
  unfold World.stepWriter
  split
  · rename_i id he
    exact absurd he (h id)
  · rename_i id uid he
    exact absurd he (h' id uid)
  · rfl

/-- Everything a writer's step can meet: a writer about to take its UID, one about to write,
or nothing to do. -/
theorem stepWriter_cases (w : World) (i : ℕ) :
    (∃ id, w.writers[i]? = some ⟨id, .start⟩) ∨
      (∃ id uid, w.writers[i]? = some ⟨id, .assigned uid⟩) ∨ w.stepWriter i = w := by
  rcases h : w.writers[i]? with _ | ⟨id, _ | uid | _⟩
  · exact Or.inr (Or.inr (stepWriter_of_idle (by simp [h]) (by simp [h])))
  · exact Or.inl ⟨id, rfl⟩
  · exact Or.inr (Or.inl ⟨id, uid, rfl⟩)
  · exact Or.inr (Or.inr (stepWriter_of_idle (by simp [h]) (by simp [h])))

theorem emailIds_step (w : World) (e : Event) :
    (w.step e).mailbox.emailIds = w.mailbox.emailIds ∨
      (w.step e).mailbox.emailIds = w.mailbox.emailIds + 1 := by
  cases e with
  | writer i =>
    rcases stepWriter_cases w i with ⟨id, h⟩ | ⟨id, uid, h⟩ | h
    · exact Or.inr (by rw [World.step, stepWriter_start h])
    · exact Or.inl (by rw [World.step, stepWriter_assigned h])
    · exact Or.inl (by rw [World.step, h])
  | expunge id => exact Or.inl rfl

theorem emailIds_le_run (w : World) (es : List Event) :
    w.mailbox.emailIds ≤ (run w es).mailbox.emailIds := by
  induction es generalizing w with
  | nil => exact Nat.le_refl _
  | cons e es ih =>
    rw [run_cons]
    have := ih (w.step e)
    rcases emailIds_step w e with h | h <;> omega

end Steps

/-! ## The UIDs in play stay distinct -/

/-- The UID a writer holds between its two steps. -/
def Writer.held : Writer → Option UInt32
  | ⟨_, .assigned uid⟩ => some uid
  | _ => none

/-- The UIDs of the members and of the writers waiting to write. -/
def World.held (w : World) : List UInt32 :=
  w.mailbox.members.map Prod.snd ++ w.writers.filterMap Writer.held

/-- Every UID in play is distinct from the others, nonzero and at most the counter. -/
structure World.Fresh (w : World) : Prop where
  nodup : w.held.Nodup
  pos : ∀ u ∈ w.held, 0 < u.toNat
  le_counter : ∀ u ∈ w.held, u.toNat ≤ w.mailbox.emailIds

section Fresh

variable {α β : Type}

theorem filterMap_cons_toList (f : α → Option β) (a : α) (l : List α) :
    (a :: l).filterMap f = (f a).toList ++ l.filterMap f := by
  cases h : f a <;> simp [h]

theorem filterMap_set_perm {l : List α} {i : ℕ} {y : α} (h : l[i]? = some y) (x : α)
    (f : α → Option β) :
    ((l.set i x).filterMap f ++ (f y).toList).Perm ((f x).toList ++ l.filterMap f) := by
  obtain ⟨hi, rfl⟩ := List.getElem?_eq_some_iff.mp h
  have hl : l = l.take i ++ l[i] :: l.drop (i + 1) := by
    rw [List.getElem_cons_drop, List.take_append_drop]
  rw [List.set_eq_take_cons_drop x hi]
  conv_rhs => rw [hl]
  simp only [List.filterMap_append, filterMap_cons_toList, List.append_assoc]
  exact (List.perm_append_comm_assoc _ _ _).trans
    ((List.perm_append_comm.append_left _).append_left _)

variable {w : World} {i : ℕ} {id uid : UInt32}

theorem held_stepWriter_start (h : w.writers[i]? = some ⟨id, .start⟩) :
    (w.stepWriter i).held.Perm (UInt32.ofNat (w.mailbox.emailIds + 1) :: w.held) := by
  have hp := filterMap_set_perm h ⟨id, .assigned (UInt32.ofNat (w.mailbox.emailIds + 1))⟩
    Writer.held
  simp only [Writer.held, Option.toList_none, List.append_nil, Option.toList_some,
    List.singleton_append] at hp
  rw [stepWriter_start h, World.held, World.held]
  exact (hp.append_left _).trans List.perm_middle

theorem held_stepWriter_assigned (h : w.writers[i]? = some ⟨id, .assigned uid⟩) :
    (w.stepWriter i).held.Perm w.held := by
  have hp := filterMap_set_perm h ⟨id, .written⟩ Writer.held
  simp only [Writer.held, Option.toList_none, List.nil_append, Option.toList_some] at hp
  rw [stepWriter_assigned h, World.held, World.held, List.map_append, List.map_singleton,
    List.append_assoc]
  exact (List.perm_append_left_iff _).mpr (List.perm_append_comm.trans hp)

theorem held_expunge_sublist (w : World) (id : UInt32) :
    (w.step (.expunge id)).held.Sublist w.held := by
  simp only [World.step, World.held, expunge]
  exact (List.filter_sublist.map _).append_right _

theorem World.Fresh.step (hw : w.Fresh) (e : Event) (hb : (w.step e).mailbox.emailIds < 2 ^ 32) :
    (w.step e).Fresh := by
  cases e with
  | writer i =>
    simp only [World.step] at hb ⊢
    cases hi : w.writers[i]? with
    | none => rwa [stepWriter_of_idle (by simp [hi]) (by simp [hi])]
    | some wr =>
      obtain ⟨id, stage⟩ := wr
      cases stage with
      | start =>
        have hp := held_stepWriter_start hi
        rw [stepWriter_start hi] at hb
        have hnew : (UInt32.ofNat (w.mailbox.emailIds + 1)).toNat = w.mailbox.emailIds + 1 :=
          UInt32.toNat_ofNat_of_lt' hb
        have hnot : UInt32.ofNat (w.mailbox.emailIds + 1) ∉ w.held := fun hu => by
          have := hw.le_counter _ hu
          omega
        refine ⟨hp.nodup_iff.mpr (List.nodup_cons.mpr ⟨hnot, hw.nodup⟩), fun u hu => ?_,
          fun u hu => ?_⟩
        · rcases List.mem_cons.mp (hp.subset hu) with rfl | hu
          · omega
          · exact hw.pos u hu
        · rw [stepWriter_start hi]
          rcases List.mem_cons.mp (hp.subset hu) with rfl | hu
          · exact Nat.le_of_eq hnew
          · exact Nat.le_succ_of_le (hw.le_counter u hu)
      | assigned uid =>
        have hp := held_stepWriter_assigned hi
        refine ⟨hp.nodup_iff.mpr hw.nodup, fun u hu => hw.pos u (hp.subset hu), fun u hu => ?_⟩
        rw [stepWriter_assigned hi]
        exact hw.le_counter u (hp.subset hu)
      | written => rwa [stepWriter_of_idle (by simp [hi]) (by simp [hi])]
  | expunge id =>
    have hs := held_expunge_sublist w id
    exact ⟨hs.nodup hw.nodup, fun u hu => hw.pos u (hs.subset hu),
      fun u hu => hw.le_counter u (hs.subset hu)⟩

/-- Over any schedule whose counter stays within a `u32`, the UIDs in play stay fresh: no
two members, and no member and waiting writer, share a UID. -/
theorem run_keeps_uids_fresh (hw : w.Fresh) (es : List Event) (hb : (run w es).mailbox.emailIds < 2 ^ 32) :
    (run w es).Fresh := by
  induction es generalizing w with
  | nil => exact hw
  | cons e es ih =>
    rw [run_cons] at hb ⊢
    exact ih (hw.step e (Nat.lt_of_le_of_lt (emailIds_le_run _ es) hb)) hb

theorem run_keeps_uids_fresh_two_writers :
    (run ⟨⟨0, []⟩, [⟨5, .start⟩, ⟨6, .start⟩]⟩
      [.writer 0, .writer 1, .writer 1, .expunge 6, .writer 0]).Fresh :=
  run_keeps_uids_fresh ⟨by decide, by simp [World.held, Writer.held], by simp [World.held, Writer.held]⟩ _
    (by decide)

end Fresh

/-! ## A writer that took its UID first can write last -/

/-- From any state, two writers that both take their UIDs before either writes, and write in
the other order, leave the first writer's message entering the mailbox below the UID of a
message that was already a member. -/
theorem run_writes_below_member (w : World) {i j : ℕ} (hij : i ≠ j) {a b : UInt32}
    (hi : w.writers[i]? = some ⟨a, .start⟩) (hj : w.writers[j]? = some ⟨b, .start⟩)
    (hb : w.mailbox.emailIds + 2 < 2 ^ 32) :
    let before := run w [.writer i, .writer j, .writer j]
    let after := run w [.writer i, .writer j, .writer j, .writer i]
    (b, UInt32.ofNat (w.mailbox.emailIds + 2)) ∈ before.mailbox.members ∧
    after.mailbox.members = before.mailbox.members ++ [(a, UInt32.ofNat (w.mailbox.emailIds + 1))] ∧
    UInt32.ofNat (w.mailbox.emailIds + 1) < UInt32.ofNat (w.mailbox.emailIds + 2) := by
  intro before after
  -- the two writers take the UIDs `c + 1` and `c + 2`, then the second one writes first
  have h₁ := stepWriter_start hi
  have hj₁ : (w.stepWriter i).writers[j]? = some ⟨b, .start⟩ := by
    simp only [h₁, List.getElem?_set_ne hij, hj]
  have h₂ := stepWriter_start hj₁
  have hj₂ : ((w.stepWriter i).stepWriter j).writers[j]? =
      some ⟨b, .assigned (UInt32.ofNat (w.mailbox.emailIds + 1 + 1))⟩ := by
    rw [h₂]
    simp only [List.getElem?_set_self (List.getElem?_eq_some_iff.mp hj₁).1]
    simp only [h₁]
  have h₃ := stepWriter_assigned hj₂
  have hi₃ : (((w.stepWriter i).stepWriter j).stepWriter j).writers[i]? =
      some ⟨a, .assigned (UInt32.ofNat (w.mailbox.emailIds + 1))⟩ := by
    rw [h₃]
    simp only [List.getElem?_set_ne (Ne.symm hij)]
    rw [h₂]
    simp only [List.getElem?_set_ne (Ne.symm hij)]
    rw [h₁]
    simp only [List.getElem?_set_self (List.getElem?_eq_some_iff.mp hi).1]
  have hbefore : before = ((w.stepWriter i).stepWriter j).stepWriter j := rfl
  have hafter : after = before.stepWriter i := rfl
  refine ⟨?_, ?_, ?_⟩
  · rw [hbefore, h₃]
    exact List.mem_append_right _ (List.mem_singleton_self _)
  · rw [hafter, hbefore, stepWriter_assigned hi₃]
  · rw [UInt32.lt_iff_toNat_lt,
      UInt32.toNat_ofNat_of_lt' (show w.mailbox.emailIds + 1 < 2 ^ 32 by omega),
      UInt32.toNat_ofNat_of_lt' (show w.mailbox.emailIds + 2 < 2 ^ 32 from hb)]
    omega

theorem run_writes_below_member_two_writers :
    let w : World := ⟨⟨0, []⟩, [⟨5, .start⟩, ⟨6, .start⟩]⟩
    let before := run w [.writer 0, .writer 1, .writer 1]
    let after := run w [.writer 0, .writer 1, .writer 1, .writer 0]
    (6, UInt32.ofNat (w.mailbox.emailIds + 2)) ∈ before.mailbox.members ∧
    after.mailbox.members = before.mailbox.members ++ [(5, UInt32.ofNat (w.mailbox.emailIds + 1))] ∧
    UInt32.ofNat (w.mailbox.emailIds + 1) < UInt32.ofNat (w.mailbox.emailIds + 2) :=
  run_writes_below_member _ (by decide) rfl rfl (by decide)

end MailServer.Jmap.ImapUid
