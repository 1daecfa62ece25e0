import MailServer.Imap.Message
import MailServer.Store.LogQuery

/-! # IMAP STORE with UNCHANGEDSINCE

`SessionData::store` reads the email change log once, from the mod-sequence the
client gave (`Query::from_modseq`). Every message of the sequence set that changed
since then leaves the set and goes into the MODIFIED response code. The STORE then
re-reads each remaining message's keywords, applies the operation and writes them
back in a batch that asserts only that the keywords are still the ones it read. It
retries up to `MAX_RETRIES` times when that assertion fails.

The log read and the writes are separate steps of the store, so other sessions can
commit in between. A message that another session changes after the log read is
still written, whatever its mod-sequence is by then.
-/

namespace MailServer.Imap.Op.Store

open MailServer.Imap.Message MailServer.Store.ChangeLog MailServer.Store.LogQuery

/-- `FromModSeq for Query`. -/
def fromModseq (modseq : UInt64) : Query :=
  if modseq > 0 then .since (modseq - 1) else .all

/-- `ToModSeq for Option<u64>`: a message's mod-sequence is its last change id plus one. -/
def toModseq : Option UInt64 → UInt64
  | some modseq => modseq + 1
  | none => 0

/-- `MAX_RETRIES`. -/
def maxRetries : ℕ := 10

/-- `Id::from_parts`: the thread id in the high half, the document id in the low half. -/
def fromParts (prefixId docId : UInt32) : UInt64 :=
  (prefixId.toUInt64 <<< 32) ||| docId.toUInt64

/-! ## `TagManager` -/

inductive LastTag
  | set
  | update
  | none
  deriving DecidableEq, Repr

/-- `TagManager` over the keywords of a message. `read` is the value it was built from: its
hash is what `update_batch` asserts. -/
structure TagManager (κ : Type) where
  read : List κ
  current : List κ
  added : List κ
  removed : List κ
  last : LastTag
  deriving DecidableEq, Repr

section Tags

variable {κ : Type} [DecidableEq κ]

def TagManager.new (current : List κ) : TagManager κ := ⟨current, current, [], [], .none⟩

def TagManager.set (t : TagManager κ) (tags : List κ) : TagManager κ :=
  match t.last with
  | .none =>
    { t with
      added := tags.filter (· ∉ t.current)
      removed := t.current.filter (· ∉ tags)
      current := tags
      last := .set }
  | _ => t

/-- `Vec::swap_remove`: the last element takes the place of the removed one. -/
def swapRemove (l : List κ) (index : ℕ) : List κ :=
  match l.getLast? with
  | some last => (l.set index last).dropLast
  | none => l

def TagManager.update (t : TagManager κ) (tag : κ) (add : Bool) : TagManager κ :=
  match t.last with
  | .set => t
  | _ =>
    let t' :=
      if add then
        if tag ∉ t.current then { t with added := t.added ++ [tag], current := t.current ++ [tag] }
        else t
      else
        match t.current.idxOf? tag with
        | some index => { t with current := swapRemove t.current index, removed := t.removed ++ [tag] }
        | none => t
    { t' with last := .update }

def TagManager.hasChanges (t : TagManager κ) : Bool := !t.added.isEmpty || !t.removed.isEmpty

@[simp] theorem read_set (t : TagManager κ) (tags : List κ) : (t.set tags).read = t.read := by
  unfold TagManager.set
  split <;> rfl

@[simp] theorem read_update (t : TagManager κ) (tag : κ) (add : Bool) :
    (t.update tag add).read = t.read := by
  unfold TagManager.update
  split
  · rfl
  · split_ifs
    · rfl
    · rfl
    · split <;> rfl

/-- `store::Operation`. -/
inductive Operation
  | set
  | add
  | clear
  deriving DecidableEq, Repr

/-- The keywords of one message after the STORE's operation. -/
def applyOperation (operation : Operation) (setKeywords : List κ) (keywords : TagManager κ) :
    TagManager κ :=
  match operation with
  | .set => keywords.set setKeywords
  | .add => setKeywords.foldl (fun t keyword => t.update keyword true) keywords
  | .clear => setKeywords.foldl (fun t keyword => t.update keyword false) keywords

theorem read_foldl_update (l : List κ) (add : Bool) (t : TagManager κ) :
    (l.foldl (fun t keyword => t.update keyword add) t).read = t.read := by
  induction l generalizing t with
  | nil => rfl
  | cons k l ih => rw [List.foldl_cons, ih, read_update]

@[simp] theorem read_applyOperation (operation : Operation) (setKeywords : List κ)
    (t : TagManager κ) : (applyOperation operation setKeywords t).read = t.read := by
  cases operation with
  | set => exact read_set t setKeywords
  | add => exact read_foldl_update setKeywords true t
  | clear => exact read_foldl_update setKeywords false t

end Tags

/-! ## The UNCHANGEDSINCE filter -/

/-- The filter's state: the messages still to store, the MODIFIED ids, and whether a
message of the set was destroyed. -/
structure Filtered where
  ids : List (UInt32 × ImapId)
  modified : List UInt32
  unchangedFailed : Bool

/-- `AHashMap::remove` on the messages to store, kept as a list of distinct keys. -/
def removeId (ids : List (UInt32 × ImapId)) (id : UInt32) : Option ImapId × List (UInt32 × ImapId) :=
  ((ids.find? (·.1 = id)).map Prod.snd, ids.filter (·.1 ≠ id))

/-- One change of the log: a message of the set that it names moves to MODIFIED. -/
def filterStep (isUid : Bool) (f : Filtered) (change : Change) : Filtered :=
  -- `(id & u32::MAX as u64) as u32`: the document id of `Id::from_parts`
  let id := (change.id &&& 0xFFFFFFFF).toUInt32
  match removeId f.ids id with
  | (some imapId, ids) =>
    if isUid then ⟨ids, f.modified ++ [imapId.uid], f.unchangedFailed⟩
    else ⟨ids, f.modified ++ [imapId.seqnum], f.unchangedFailed || change matches .delete _⟩
  | (none, _) => f

/-! ## The account and the STORE session -/

/-- The properties of an email that the STORE reads and writes. -/
structure Email (κ : Type) where
  keywords : List κ
  threadId : UInt32
  cid : UInt64
  deriving DecidableEq, Repr

/-- The account's emails, the next change id `assign_change_id` hands out, and the email
change log. -/
structure Account (κ : Type) where
  emails : List (UInt32 × Email κ)
  nextChangeId : UInt64
  log : List (UInt64 × Changes)

/-- The arguments of the STORE, with its sequence set already resolved: the messages of the
mailbox it names (`sequence_to_ids`) and the ids it names that are missing
(`sequence_expand_missing`). -/
structure Request (κ : Type) where
  ids : List (UInt32 × ImapId)
  missing : List UInt32
  isUid : Bool
  unchangedSince : Option UInt64
  operation : Operation
  keywords : List κ

/-- Where the STORE is: before the log read, about to read the next message's keywords, about
to write them, or finished. -/
inductive Phase (κ : Type)
  | filter
  | read
  | write (keywords : TagManager κ) (threadId : UInt32)
  | done

/-- The STORE's local state. `changeId` is `changelog.change_id`, `u64::MAX` until the first
write; `updated` is what `changelog.log_update` collects; `failed` is a NO response. -/
structure Session (κ : Type) where
  phase : Phase κ
  ids : List (UInt32 × ImapId)
  tryCount : ℕ
  changeId : UInt64
  modified : List UInt32
  unchangedFailed : Bool
  updated : List UInt64
  failed : Bool

/-- What another session commits to an email: new keywords, or a change that leaves them
(`none`, such as a change of its mailboxes); or its destruction. -/
inductive Other (κ : Type)
  | update (id : UInt32) (keywords : Option (List κ))
  | destroy (id : UInt32)

inductive Event (κ : Type)
  | store
  | other (o : Other κ)

section Session

variable {κ : Type} [DecidableEq κ]

def Account.email (a : Account κ) (id : UInt32) : Option (Email κ) :=
  (a.emails.find? (·.1 = id)).map Prod.snd

/-- `assign_change_id`. -/
def Account.assignChangeId (a : Account κ) : Account κ × UInt64 :=
  ({ a with nextChangeId := a.nextChangeId + 1 }, a.nextChangeId)

def Account.modify (a : Account κ) (id : UInt32) (f : Email κ → Email κ) : Account κ :=
  { a with emails := a.emails.map fun e => if e.1 = id then (e.1, f e.2) else e }

/-- A log entry that updates one id. -/
def logUpdate (id : UInt64) : Changes :=
  ⟨[], [id], [], [], List.nodup_nil, List.nodup_singleton id, List.nodup_nil, List.nodup_nil,
    by simp⟩

/-- A log entry that deletes one id. -/
def logDelete (id : UInt64) : Changes :=
  ⟨[], [], [id], [], List.nodup_nil, List.nodup_nil, List.nodup_singleton id, List.nodup_nil,
    by simp⟩

/-- Another session's batch: it takes a change id, writes it as the email's `Cid` and logs
the change. -/
def otherStep (a : Account κ) : Other κ → Account κ
  | .update id keywords =>
    match a.email id with
    | none => a
    | some email =>
      let r := a.assignChangeId
      { r.1.modify id (fun e => { e with keywords := keywords.getD e.keywords, cid := r.2 }) with
        log := r.1.log ++ [(r.2, logUpdate (fromParts email.threadId id))] }
  | .destroy id =>
    match a.email id with
    | none => a
    | some email =>
      let r := a.assignChangeId
      { r.1 with
        emails := r.1.emails.filter (·.1 ≠ id)
        log := r.1.log ++ [(r.2, logDelete (fromParts email.threadId id))] }

def Session.init (req : Request κ) : Session κ := ⟨.filter, req.ids, 0, u64Max, [], false, [], false⟩

/-- The change id of a write: the first one takes a new change id (`changelog.change_id ==
u64::MAX`), the later ones reuse it. -/
def takeChangeId (a : Account κ) (changeId : UInt64) : Account κ × UInt64 :=
  if changeId = u64Max then a.assignChangeId else (a, changeId)

/-- One atomic step of the STORE against the account. -/
def storeStep (req : Request κ) (a : Account κ) (s : Session κ) : Account κ × Session κ :=
  match s.phase with
  | .filter =>
    if s.ids = [] then (a, { s with phase := .done })
    else
      match req.unchangedSince with
      | none => (a, { s with phase := .read })
      | some unchangedSince =>
        match storeChanges (encodeLog a.log) (fromModseq unchangedSince) with
        | none => (a, { s with phase := .done })
        | some changelog =>
          let f := changelog.changes.foldl (filterStep req.isUid) ⟨s.ids, req.missing, false⟩
          (a, { s with
            phase := .read, ids := f.ids, modified := f.modified, unchangedFailed := f.unchangedFailed })
  | .read =>
    match s.ids with
    | [] => (a, { s with phase := .done })
    | (id, _) :: rest =>
      match a.email id with
      -- `continue 'outer`: the message is gone
      | none => (a, { s with ids := rest, tryCount := 0 })
      | some email =>
        let keywords := applyOperation req.operation req.keywords (TagManager.new email.keywords)
        if keywords.hasChanges then (a, { s with phase := .write keywords email.threadId })
        else (a, { s with ids := rest, tryCount := 0 })
  | .write keywords threadId =>
    match s.ids with
    | [] => (a, { s with phase := .done })
    | (id, _) :: rest =>
      let r := takeChangeId a s.changeId
      -- `assert_value` on the keywords read
      if (r.1.email id).map Email.keywords = some keywords.read then
        (r.1.modify id fun e => { e with keywords := keywords.current, cid := r.2 },
          { s with
            phase := .read, ids := rest, tryCount := 0, changeId := r.2
            updated := s.updated ++ [fromParts threadId id] })
      else if s.tryCount < maxRetries then
        (r.1, { s with phase := .read, tryCount := s.tryCount + 1, changeId := r.2 })
      else
        (r.1, { s with phase := .read, ids := rest, tryCount := 0, changeId := r.2, failed := true })
  | .done => (a, s)

def step (req : Request κ) (p : Account κ × Session κ) : Event κ → Account κ × Session κ
  | .store => storeStep req p.1 p.2
  | .other o => (otherStep p.1 o, p.2)

/-- A schedule of the STORE's steps and other sessions' batches. -/
def run (req : Request κ) (p : Account κ × Session κ) (es : List (Event κ)) : Account κ × Session κ :=
  es.foldl (step req) p

/-! ## What each step does -/

omit [DecidableEq κ] in
theorem find?_map_modify (l : List (UInt32 × Email κ)) (id x : UInt32) (f : Email κ → Email κ) :
    ((l.map fun e => if e.1 = id then (e.1, f e.2) else e).find? (·.1 = x)).map Prod.snd =
      if x = id then ((l.find? (·.1 = x)).map Prod.snd).map f else (l.find? (·.1 = x)).map Prod.snd := by
  have hfst : ((fun e : UInt32 × Email κ => decide (e.1 = x)) ∘
      fun e => if e.1 = id then (e.1, f e.2) else e) = fun e => decide (e.1 = x) := by
    funext e
    by_cases h : e.1 = id <;> simp [h]
  rw [List.find?_map, hfst]
  cases hf : l.find? (·.1 = x) with
  | none => simp
  | some e =>
    have hx : e.1 = x := by simpa using List.find?_some hf
    subst hx
    by_cases h : e.1 = id <;> simp [h]

omit [DecidableEq κ] in
theorem email_modify (a : Account κ) (id : UInt32) (f : Email κ → Email κ) (x : UInt32) :
    (a.modify id f).email x = if x = id then (a.email x).map f else a.email x :=
  find?_map_modify a.emails id x f

omit [DecidableEq κ] in
@[simp] theorem email_modify_self (a : Account κ) (id : UInt32) (f : Email κ → Email κ) :
    (a.modify id f).email id = (a.email id).map f := by
  rw [email_modify, if_pos rfl]

omit [DecidableEq κ] in
@[simp] theorem email_assignChangeId (a : Account κ) : a.assignChangeId.1.email = a.email := rfl

omit [DecidableEq κ] in
@[simp] theorem email_setLog (a : Account κ) (log : List (UInt64 × Changes)) :
    ({ a with log := log } : Account κ).email = a.email := rfl

omit [DecidableEq κ] in
/-- Another session's update of an email present in the account: the email gets the keywords
and, as its `Cid`, the next change id. -/
theorem otherStep_update {a : Account κ} {id : UInt32} {email : Email κ} (h : a.email id = some email)
    (keywords : Option (List κ)) :
    (otherStep a (.update id keywords)).email id =
        some { email with keywords := keywords.getD email.keywords, cid := a.nextChangeId } ∧
      (otherStep a (.update id keywords)).nextChangeId = a.nextChangeId + 1 := by
  simp only [otherStep, h]
  refine ⟨?_, rfl⟩
  rw [email_setLog, email_modify_self, email_assignChangeId, h]
  rfl

/-- The first step of a STORE of a nonempty set with UNCHANGEDSINCE reads the log once and
runs the filter over it, leaving the account as it is. -/
theorem storeStep_init_since {req : Request κ} {a : Account κ} (h : req.ids ≠ []) {m : UInt64}
    (hm : req.unchangedSince = some m) {R : Changelog}
    (hR : storeChanges (encodeLog a.log) (fromModseq m) = some R) :
    let f := R.changes.foldl (filterStep req.isUid) ⟨req.ids, req.missing, false⟩
    storeStep req a (Session.init req) =
      (a, ⟨.read, f.ids, 0, u64Max, f.modified, f.unchangedFailed, [], false⟩) := by
  simp only [storeStep, Session.init, h, if_false, hm, hR]

theorem ids_storeStep_init_of_nil (req : Request κ) (a : Account κ) (h : req.ids = []) :
    (storeStep req a (Session.init req)).2.ids = [] := by
  simp [storeStep, Session.init, h]

theorem storeStep_read (req : Request κ) {a : Account κ} {s : Session κ} (hp : s.phase = .read)
    {id : UInt32} {imapId : ImapId} {rest : List (UInt32 × ImapId)} (hids : s.ids = (id, imapId) :: rest)
    {email : Email κ} (he : a.email id = some email)
    (hch : (applyOperation req.operation req.keywords (TagManager.new email.keywords)).hasChanges) :
    storeStep req a s = (a, { s with
      phase := .write (applyOperation req.operation req.keywords (TagManager.new email.keywords))
        email.threadId }) := by
  simp only [storeStep, hp, hids, he, hch, if_true]

theorem storeStep_write (req : Request κ) {a : Account κ} {s : Session κ} {keywords : TagManager κ}
    {threadId : UInt32} (hp : s.phase = .write keywords threadId) {id : UInt32} {imapId : ImapId}
    {rest : List (UInt32 × ImapId)} (hids : s.ids = (id, imapId) :: rest)
    (hk : ((takeChangeId a s.changeId).1.email id).map Email.keywords = some keywords.read) :
    storeStep req a s =
      ((takeChangeId a s.changeId).1.modify id
          (fun e => { e with keywords := keywords.current, cid := (takeChangeId a s.changeId).2 }),
        { s with
          phase := .read, ids := rest, tryCount := 0, changeId := (takeChangeId a s.changeId).2
          updated := s.updated ++ [fromParts threadId id] }) := by
  simp only [storeStep, hp, hids, hk, if_true]

omit [DecidableEq κ] in
@[simp] theorem takeChangeId_u64Max (a : Account κ) :
    takeChangeId a u64Max = a.assignChangeId := if_pos rfl

/-! ## A change between the log read and the write -/

/-- UNCHANGEDSINCE is checked against the log once, before the writes: when another session
changes a message after the log read, the STORE still writes it, although its mod-sequence
at the write is past the client's `m`, and MODIFIED stays what the log read gave. This holds
for every account and every STORE whose log read keeps the message. -/
theorem store_writes_after_concurrent_change (req : Request κ) (a : Account κ) {m : UInt64}
    (hm : req.unchangedSince = some m) {x : UInt32} {imapId : ImapId}
    {rest : List (UInt32 × ImapId)} (hkept : (storeStep req a (Session.init req)).2.ids = (x, imapId) :: rest)
    {email : Email κ} (hx : a.email x = some email) (kw : List κ)
    (hch : (applyOperation req.operation req.keywords (TagManager.new kw)).hasChanges)
    (hle : m ≤ a.nextChangeId) (hmax : a.nextChangeId < u64Max) :
    let before := run req (a, Session.init req) [.store, .other (.update x (some kw)), .store]
    let after := run req (a, Session.init req) [.store, .other (.update x (some kw)), .store, .store]
    (before.1.email x).map (fun e => toModseq (some e.cid)) = some (a.nextChangeId + 1) ∧
      m < a.nextChangeId + 1 ∧
      (after.1.email x).map Email.keywords =
        some (applyOperation req.operation req.keywords (TagManager.new kw)).current ∧
      some after.2.modified = (storeChanges (encodeLog a.log) (fromModseq m)).map fun R =>
        (R.changes.foldl (filterStep req.isUid) ⟨req.ids, req.missing, false⟩).modified := by
  intro before after
  have hne : req.ids ≠ [] := fun h => by
    rw [ids_storeStep_init_of_nil req a h] at hkept
    cases hkept
  obtain ⟨R, hR, -⟩ := storeChanges_encodeLog a.log (fromModseq m)
  have hf := storeStep_init_since hne hm hR
  set f := R.changes.foldl (filterStep req.isUid) ⟨req.ids, req.missing, false⟩
  rw [hf] at hkept
  -- the other session's update, between the log read and the STORE's read of `x`
  obtain ⟨hx₂, hnext₂⟩ := otherStep_update hx (some kw)
  set a₂ := otherStep a (.update x (some kw))
  set s₁ : Session κ := ⟨.read, f.ids, 0, u64Max, f.modified, f.unchangedFailed, [], false⟩
  have h₃ := storeStep_read req (s := s₁) rfl hkept hx₂ hch
  set tags := applyOperation req.operation req.keywords (TagManager.new kw)
  set s₃ : Session κ := { s₁ with phase := .write tags email.threadId }
  have hbefore : before = (a₂, s₃) := by
    change step req (step req (step req (a, Session.init req) .store) (.other _)) .store = _
    simp only [step, hf]
    exact h₃
  have hk : ((takeChangeId a₂ s₃.changeId).1.email x).map Email.keywords = some tags.read := by
    simp [s₃, s₁, tags, hx₂, TagManager.new]
  have h₄ := storeStep_write req (s := s₃) rfl hkept hk
  have hafter : after = step req before .store := rfl
  refine ⟨?_, ?_, ?_, ?_⟩
  · rw [hbefore, hx₂]
    rfl
  · -- no wrap: the other session's change id is below `u64::MAX`
    have h₁ := UInt64.le_iff_toNat_le.mp hle
    have h₂ := UInt64.lt_iff_toNat_lt.mp hmax
    have hmax' : u64Max.toNat = 2 ^ 64 - 1 := rfl
    rw [UInt64.lt_iff_toNat_lt, UInt64.toNat_add, UInt64.toNat_one, Nat.mod_eq_of_lt (by omega)]
    omega
  · rw [hafter, hbefore, step, h₄]
    simp [s₃, s₁, hx₂]
  · rw [hafter, hbefore, step, h₄, hR]
    rfl

end Session

/-- Message `7` has mod-sequence `6` when the STORE `+FLAGS (1)` with UNCHANGEDSINCE `6`
reads the log; another session then sets its keywords to `2` at change id `10`, and the
STORE still adds keyword `1`. -/
theorem store_writes_after_concurrent_change_add :
    let req : Request ℕ := ⟨[(7, ⟨1, 1⟩)], [], false, some 6, .add, [1]⟩
    let a : Account ℕ := ⟨[(7, ⟨[], 3, 5⟩)], 10, []⟩
    let before := run req (a, Session.init req) [.store, .other (.update 7 (some [2])), .store]
    let after := run req (a, Session.init req) [.store, .other (.update 7 (some [2])), .store, .store]
    (before.1.email 7).map (fun e => toModseq (some e.cid)) = some (a.nextChangeId + 1) ∧
      6 < a.nextChangeId + 1 ∧
      (after.1.email 7).map Email.keywords =
        some (applyOperation req.operation req.keywords (TagManager.new [2])).current ∧
      some after.2.modified = (storeChanges (encodeLog a.log) (fromModseq 6)).map fun R =>
        (R.changes.foldl (filterStep req.isUid) ⟨req.ids, req.missing, false⟩).modified :=
  store_writes_after_concurrent_change _ _ rfl
    (by decide : (storeStep _ _ _).2.ids = [((7 : UInt32), (⟨1, 1⟩ : ImapId))]) rfl [2] (by decide)
    (by decide) (by decide)

end MailServer.Imap.Op.Store
