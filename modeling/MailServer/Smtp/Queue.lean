import Mathlib

/-! # Queue quotas of the SMTP spool

`Message::queue` reserves one unit of every quota key of a message, `+1` on a
count key and `+size` on a size key, in the batch that stores the message.
`Message::release_quota` gives back the keys of the domains and recipients that
are done, and `Message::remove` gives back the keys the message still holds. The
store counter of a key is the sum of the `AtomicAdd` deltas written to it.

`save_changes` calls `release_quota` on a batch that it then shadows with a new
one: the message is stored without the released keys, but their deltas are
never written. Over a message's life the counter of such a key keeps the unit it
reserved.
-/

namespace MailServer.Smtp.Queue

/-- `QuotaKey`: a quota counter held by the message, and the domain or recipient
it was charged for (`(domain_idx + 1) << 32` or `rcpt_idx + 1`, `0` for the sender). -/
inductive QuotaKey where
  | size (key : List UInt8) (id : UInt64)
  | count (key : List UInt8) (id : UInt64)
  deriving DecidableEq, Repr

/-- `Status`, without the host responses and errors, which nothing here reads. -/
inductive Status where
  | scheduled
  | completed
  | temporaryFailure
  | permanentFailure
  deriving DecidableEq, Repr

/-- `Status::Completed(_) | Status::PermanentFailure(_)`: a delivery that is over. -/
def Status.isDone : Status → Bool
  | .completed | .permanentFailure => true
  | .scheduled | .temporaryFailure => false

structure Domain where
  status : Status
  deriving DecidableEq, Repr

structure Recipient where
  domainIdx : ℕ
  status : Status
  deriving DecidableEq, Repr

/-- The fields of `Message` that the spool functions read or write. -/
structure Message where
  queueId : UInt64
  blobHash : List UInt8
  size : ℕ
  domains : List Domain
  recipients : List Recipient
  quotaKeys : List QuotaKey
  deriving DecidableEq, Repr

/-- The two counter classes of the queue subspace. -/
inductive QuotaClass where
  | quotaCount (key : List UInt8)
  | quotaSize (key : List UInt8)
  deriving DecidableEq, Repr

/-- The blob keys a queued message touches. -/
inductive BlobOp where
  | reserve (hash : List UInt8) (untilTime : UInt64)
  | linkId (hash : List UInt8) (id : UInt64)
  | commit (hash : List UInt8)
  deriving DecidableEq, Repr

/-- The operations of a `BatchBuilder` written by the spool functions. -/
inductive Operation where
  | add (cls : QuotaClass) (delta : ℤ)
  | setEvent (due queueId : UInt64)
  | clearEvent (due queueId : UInt64)
  | setMessage (message : Message)
  | clearMessage (queueId : UInt64)
  | setBlob (op : BlobOp)
  | clearBlob (op : BlobOp)
  deriving DecidableEq, Repr

/-- The counter class a quota key charges. -/
def QuotaKey.cls : QuotaKey → QuotaClass
  | .size key _ => .quotaSize key
  | .count key _ => .quotaCount key

def QuotaKey.id : QuotaKey → UInt64
  | .size _ id | .count _ id => id

/-- What one quota key reserves: one message, or the message's size. -/
def QuotaKey.amount (size : ℕ) : QuotaKey → ℤ
  | .size _ _ => size
  | .count _ _ => 1

/-! ## The spool functions -/

/-- The quota batch of `Message::queue`, written together with the message, its
first event, the blob link and the blob commit, and the release of the blob
reservation. -/
def queueBatch (m : Message) (due reserveUntil : UInt64) : List Operation :=
  m.quotaKeys.map (fun k => .add k.cls (k.amount m.size)) ++
    [.setEvent due m.queueId, .clearBlob (.reserve m.blobHash reserveUntil),
      .setBlob (.linkId m.blobHash m.queueId), .setBlob (.commit m.blobHash), .setMessage m]

/-- The ids of the domains and recipients whose delivery is over. -/
def quotaIds (m : Message) : List UInt64 :=
  ((m.domains.zipIdx.filter fun d => d.1.status.isDone).map fun d =>
      UInt64.ofNat (d.2 + 1) <<< 32) ++
    (m.recipients.zipIdx.filter fun r => r.1.status.isDone).map fun r => UInt64.ofNat (r.2 + 1)

/-- `Message::release_quota`: the keys charged for a finished domain or
recipient are given back on `batch` and dropped from the message. -/
def releaseQuota (m : Message) (batch : List Operation) : Message × List Operation :=
  if m.quotaKeys.isEmpty then (m, batch)
  else if (quotaIds m).isEmpty then (m, batch)
  else
    ({ m with quotaKeys := m.quotaKeys.filter fun k => k.id ∉ quotaIds m },
      batch ++ (m.quotaKeys.filter fun k => k.id ∈ quotaIds m).map
        fun k => .add k.cls (-k.amount m.size))

/-- `Message::save_changes`: the message it stores and the batch it writes. The
batch `release_quota` fills is the first `batch`, shadowed by the second one
before the write. -/
def saveChanges (m : Message) (prevEvent nextEvent : Option UInt64) :
    Message × List Operation :=
  let released := releaseQuota m []
  let m := released.1
  let events := match prevEvent, nextEvent with
    | some prev, some next => [Operation.clearEvent prev m.queueId, .setEvent next m.queueId]
    | _, _ => []
  (m, events ++ [.setMessage m])

/-- `Message::remove`: every quota key still held is given back, and the blob
link, the event and the message are cleared. -/
def remove (m : Message) (prevEvent : UInt64) : List Operation :=
  m.quotaKeys.map (fun k => .add k.cls (-k.amount m.size)) ++
    [.clearBlob (.linkId m.blobHash m.queueId), .clearEvent prevEvent m.queueId,
      .clearMessage m.queueId]

/-! ## A message's life in the queue -/

/-- One delivery round: the statuses the attempt leaves on every domain and
recipient, and the events `save_changes` moves the message between. -/
structure Round where
  domainStatus : ℕ → Status
  recipientStatus : ℕ → Status
  prevEvent : Option UInt64
  nextEvent : Option UInt64

def Round.apply (r : Round) (m : Message) : Message :=
  { m with
    domains := m.domains.mapIdx fun i d => { d with status := r.domainStatus i }
    recipients := m.recipients.mapIdx fun i rcpt => { rcpt with status := r.recipientStatus i } }

/-- The rounds of delivery: each attempt is saved with `save_changes`, and the
next round loads the message it stored. -/
def runRounds (m : Message) : List Round → Message × List Operation
  | [] => (m, [])
  | r :: rs =>
    let saved := saveChanges (r.apply m) r.prevEvent r.nextEvent
    let rest := runRounds saved.1 rs
    (rest.1, saved.2 ++ rest.2)

/-- Every batch written for a message: queued, saved after each round, removed. -/
def lifetime (m : Message) (due reserveUntil : UInt64) (rounds : List Round) (lastDue : UInt64) :
    List Operation :=
  queueBatch m due reserveUntil ++ (runRounds m rounds).2 ++ remove (runRounds m rounds).1 lastDue

/-- The value of the store counter `c` after the operations `ops`: the sum of
their deltas on `c`. -/
def counter (ops : List Operation) (c : QuotaClass) : ℤ :=
  (ops.map fun
    | .add c' delta => if c' = c then delta else 0
    | _ => 0).sum

/-- What the quota keys of `m` on counter `c` hold. -/
def held (m : Message) (c : QuotaClass) : ℤ :=
  ((m.quotaKeys.filter fun k => k.cls = c).map (QuotaKey.amount m.size)).sum

@[simp] theorem counter_nil (c : QuotaClass) : counter [] c = 0 := rfl

@[simp] theorem counter_append (a b : List Operation) (c : QuotaClass) :
    counter (a ++ b) c = counter a c + counter b c := by
  simp [counter]

@[simp] theorem counter_cons_add (c' c : QuotaClass) (d : ℤ) (ops : List Operation) :
    counter (.add c' d :: ops) c = (if c' = c then d else 0) + counter ops c := by
  simp [counter]

theorem counter_keys (keys : List QuotaKey) (f : QuotaKey → ℤ) (c : QuotaClass) :
    counter (keys.map fun k => .add k.cls (f k)) c = ((keys.filter fun k => k.cls = c).map f).sum := by
  induction keys with
  | nil => simp
  | cons k keys ih =>
    rw [List.map_cons, counter_cons_add, ih, List.filter_cons]
    by_cases hk : k.cls = c
    · simp [hk]
    · simp [hk]

theorem counter_eq_zero {ops : List Operation} (h : ∀ op ∈ ops, ∀ c' d, op ≠ .add c' d)
    (c : QuotaClass) : counter ops c = 0 := by
  induction ops with
  | nil => rfl
  | cons op ops ih =>
    have hop : counter [op] c = 0 := by
      cases op with
      | add c' d => exact absurd rfl (h _ (List.mem_cons_self) c' d)
      | _ => rfl
    rw [← List.singleton_append, counter_append, hop, ih fun op' hop' => h op' (List.mem_cons_of_mem _ hop'),
      add_zero]

theorem sum_neg_amount (size : ℕ) (l : List QuotaKey) :
    (l.map fun k => -k.amount size).sum = -(l.map (QuotaKey.amount size)).sum := by
  rw [List.sum_neg, List.map_map]
  rfl

theorem counter_queueBatch (m : Message) (due reserveUntil : UInt64) (c : QuotaClass) :
    counter (queueBatch m due reserveUntil) c = held m c := by
  rw [queueBatch, counter_append, counter_keys, counter_eq_zero (by simp), add_zero, held]

theorem counter_remove (m : Message) (prevEvent : UInt64) (c : QuotaClass) :
    counter (remove m prevEvent) c = -held m c := by
  rw [remove, counter_append, counter_keys, counter_eq_zero (by simp), add_zero, held,
    sum_neg_amount]

theorem counter_saveChanges (m : Message) (prevEvent nextEvent : Option UInt64) (c : QuotaClass) :
    counter (saveChanges m prevEvent nextEvent).2 c = 0 := by
  unfold saveChanges
  split <;> simp [counter]

theorem counter_runRounds (m : Message) (rounds : List Round) (c : QuotaClass) :
    counter (runRounds m rounds).2 c = 0 := by
  induction rounds generalizing m with
  | nil => rfl
  | cons r rs ih => rw [runRounds, counter_append, counter_saveChanges, ih, add_zero]

/-- Over a message's life each counter keeps what the keys dropped by
`save_changes` held: they are reserved by `queue`, never given back by the
rounds, and no longer held when `remove` gives back the rest. -/
theorem counter_lifetime (m : Message) (due reserveUntil lastDue : UInt64) (rounds : List Round)
    (c : QuotaClass) :
    counter (lifetime m due reserveUntil rounds lastDue) c = held m c - held (runRounds m rounds).1 c := by
  rw [lifetime, counter_append, counter_append, counter_queueBatch, counter_runRounds,
    counter_remove]
  omega

/-- One recipient, one count key charged for it, and one round in which the
recipient is delivered: the key's counter ends one unit up. -/
theorem lifetime_keeps_released_count :
    counter (lifetime ⟨1, [], 100, [⟨.scheduled⟩], [⟨0, .scheduled⟩], [.count [107] 1]⟩ 0 0
      [⟨fun _ => .completed, fun _ => .completed, some 0, some 1⟩] 0) (.quotaCount [107]) = 1 := by
  rw [counter_lifetime]
  decide

end MailServer.Smtp.Queue
