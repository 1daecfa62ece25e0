import Mathlib

/-! # Threading of ingested emails

`email_ingest` walks the headers of a message backwards and collects the ids of its
Message-ID, In-Reply-To, References and Resent-Message-ID headers and the thread name of a
Subject. When it found ids, `find_or_merge_thread` searches the stored emails whose Subject
key is that thread name (`"!"` for the empty one) and that share one of the ids; no result
gives a new thread, one thread is joined, and several are merged into the one with most
results. `index_headers` then stores the message's own keys, read by a second backwards walk
of the same headers.

Over every run of ingests and deletions in which the keys searched with are the keys stored,
two stored emails with one Subject key and a shared reference stay in one thread
(`threadLaw_of_reaches`). But the two walks pick the Subject differently: the ingest takes
the first Subject from the end whose thread name is not empty, the index the first Subject
from the end whatever its thread name. A message whose last Subject has an empty thread name
and an earlier one has not is searched under one key and stored under another, and the same
message ingested twice lands in two threads (`ingest_twice_splits_thread`).
-/

namespace MailServer.Jmap.Thread

/-! ## Headers -/

/-- The header names the two walks read; every other header is `other`. -/
inductive HeaderName
  | messageId
  | inReplyTo
  | references
  | resentMessageId
  | subject
  | other
  deriving DecidableEq, Repr

/-- A parsed header value, as far as the two walks look at it. -/
inductive HeaderValue
  | text (s : String)
  | textList (l : List String)
  | other
  deriving DecidableEq, Repr

/-- A header of the message's root part. -/
structure Header where
  name : HeaderName
  value : HeaderValue
  deriving DecidableEq, Repr

/-- `HeaderValue::visit_text`: the texts the visitor is called with, in order. -/
def HeaderValue.visitText : HeaderValue → List String
  | .text s => [s]
  | .textList l => l
  | .other => []

/-- The text both walks take a Subject from: the text, the first of a list, or `""`. -/
def HeaderValue.subjectText : HeaderValue → String
  | .text s => s
  | .textList (s :: _) => s
  | _ => ""

/-- `MAX_ID_LENGTH`. -/
def maxIdLength : ℕ := 100

/-- `MAX_SORT_FIELD_LENGTH`. -/
def maxSortFieldLength : ℕ := 255

/-- `INBOX_ID`. -/
def inboxId : ℕ := 0

/-- `u32::MAX`, the vote's start value. -/
def u32Max : ℕ := 4294967295

/-- The loop of `trim_text` over `char_indices`, from byte offset `i`: a char is kept when the
next char starts at or below `length`. -/
def trimChars (length : ℕ) : ℕ → List Char → List Char
  | _, [] => []
  | _, [_] => []
  | i, c :: d :: cs =>
    if i + c.utf8Size ≤ length then c :: trimChars length (i + c.utf8Size) (d :: cs) else []

/-- `trim_text` on a `&str`: a string of `length` bytes or more is cut before the last char
that starts at or below `length`. -/
def trimText (s : String) (length : ℕ) : String :=
  if s.utf8ByteSize < length then s else String.ofList (trimChars length 0 s.toList)

/-! ## The keys `email_ingest` searches with -/

/-- What the ingest's walk keeps: the first Message-ID, the references, the thread name. -/
structure IngestKeys where
  messageId : String
  references : List String
  subject : String
  deriving DecidableEq, Repr

/-- The visitor of a Message-ID: a non-empty short id is a reference, and the first one is
the message's id. -/
def IngestKeys.visitMessageId (k : IngestKeys) (id : String) : IngestKeys :=
  if id ≠ "" ∧ id.utf8ByteSize < maxIdLength then
    { k with messageId := if k.messageId = "" then id else k.messageId,
             references := k.references ++ [id] }
  else k

/-- The visitor of In-Reply-To, References and Resent-Message-ID. -/
def IngestKeys.visitReference (k : IngestKeys) (id : String) : IngestKeys :=
  if id ≠ "" ∧ id.utf8ByteSize < maxIdLength then { k with references := k.references ++ [id] }
  else k

/-- One header of the ingest's walk. A Subject is read while the thread name kept so far is
empty, so the walk keeps the first non-empty one from the end. -/
def IngestKeys.header (threadName : String → String) (k : IngestKeys) (h : Header) :
    IngestKeys :=
  match h.name with
  | .messageId => h.value.visitText.foldl IngestKeys.visitMessageId k
  | .inReplyTo | .references | .resentMessageId => h.value.visitText.foldl IngestKeys.visitReference k
  | .subject =>
    if k.subject = "" then
      { k with subject := trimText (threadName h.value.subjectText) maxSortFieldLength }
    else k
  | .other => k

/-- The keys of `email_ingest`, from the headers walked backwards. -/
def ingestKeys (threadName : String → String) (headers : List Header) : IngestKeys :=
  headers.reverse.foldl (IngestKeys.header threadName) ⟨"", [], ""⟩

/-! ## The keys `index_headers` stores -/

/-- What the index's walk stores: the Message-ID values, the References values, and the
Subject value once `seen_headers` marks the Subject. -/
structure IndexKeys where
  messageIds : List String
  references : List String
  subject : Option String
  deriving DecidableEq, Repr

/-- The ids of a header that the index stores: every short one, the empty one included. -/
def Header.ids (h : Header) : List String :=
  h.value.visitText.filter fun id => id.utf8ByteSize < maxIdLength

/-- One header of the index's walk. Only the first Subject from the end is indexed, under
`"!"` when its thread name is empty. -/
def IndexKeys.header (threadName : String → String) (k : IndexKeys) (h : Header) : IndexKeys :=
  match h.name with
  | .messageId => { k with messageIds := k.messageIds ++ h.ids, references := k.references ++ h.ids }
  | .inReplyTo | .references | .resentMessageId => { k with references := k.references ++ h.ids }
  | .subject =>
    match k.subject with
    | none =>
      let name := threadName h.value.subjectText
      { k with subject := some (if name ≠ "" then trimText name maxSortFieldLength else "!") }
    | some _ => k
  | .other => k

/-- The keys of `index_headers`, from the headers walked backwards. -/
def indexHeaders (threadName : String → String) (headers : List Header) : IndexKeys :=
  headers.reverse.foldl (IndexKeys.header threadName) ⟨[], [], none⟩

/-- The Subject value stored for the message: a message without a Subject is indexed under
`"!"`. -/
def IndexKeys.subjectValue (k : IndexKeys) : String := k.subject.getD "!"

/-! ## The store -/

/-- A stored email: the keys `index_headers` wrote for it, the mailboxes the duplicate check
reads, and its `ThreadId`. -/
structure Email where
  documentId : ℕ
  mailboxIds : List ℕ
  messageIds : List String
  references : List String
  subject : String
  threadId : ℕ
  deriving DecidableEq, Repr

/-- The Subject key `find_or_merge_thread` searches: the thread name, `"!"` for the empty one. -/
def subjectKey (threadName : String) : String := if threadName ≠ "" then threadName else "!"

/-- The search of `find_or_merge_thread`, `Subject = key AND (References = r₁ OR ...)`, its
results in ascending document id as the bitmap yields them. -/
def searchThread (emails : List Email) (key : String) (references : List String) : List Email :=
  (emails.filter fun e => e.subject = key ∧ ∃ r ∈ references, r ∈ e.references).mergeSort
    fun a b => a.documentId ≤ b.documentId

/-- `VecMap::get_mut_or_insert` followed by the write of the new count: a new thread goes to
the end. -/
def setCount : List (ℕ × ℕ) → ℕ → ℕ → List (ℕ × ℕ)
  | [], t, c => [(t, c)]
  | (t', c') :: counts, t, c => if t' = t then (t', c) :: counts else (t', c') :: setCount counts t c

/-- One result of the vote: count its thread, and a thread whose count passes the best so far
becomes the choice. The accumulator is `(thread_counts, thread_id, thread_count)`. -/
def countStep (acc : List (ℕ × ℕ) × ℕ × ℕ) (t : ℕ) : List (ℕ × ℕ) × ℕ × ℕ :=
  let tc := (acc.1.lookup t).getD 0 + 1
  if tc > acc.2.2 then (setCount acc.1 t tc, t, tc) else (setCount acc.1 t tc, acc.2.1, acc.2.2)

/-- The vote of `find_or_merge_thread` over the results' threads, from `u32::MAX`. -/
def countThreads (threadIds : List ℕ) : List (ℕ × ℕ) × ℕ × ℕ :=
  threadIds.foldl countStep ([], u32Max, 0)

/-- The batch of `find_or_merge_thread`: every email of a result's thread other than the
chosen one moves to it, through the `ThreadId` tag bitmap, so also emails that did not
match the search. -/
def moveThreads (emails : List Email) (threadIds : List ℕ) (threadId : ℕ) : List Email :=
  emails.map fun e =>
    if e.threadId ∈ threadIds ∧ e.threadId ≠ threadId then { e with threadId := threadId } else e

/-- `find_or_merge_thread`: the thread to join, if any, and the emails after its batch. The
cache of thread ids is taken as up to date and the batch as written at its first try, as
it is when ingests run one at a time. -/
def findOrMergeThread (emails : List Email) (threadName : String) (references : List String) :
    Option ℕ × List Email :=
  let results := searchThread emails (subjectKey threadName) references
  if results = [] then (none, emails)
  else
    let threadIds := results.map Email.threadId
    if threadIds.length = 1 then (threadIds.head?, emails)
    else
      let (counts, threadId, _) := countThreads threadIds
      if threadId = u32Max then (none, emails)
      else if counts.length = 1 then (some threadId, emails)
      else (some threadId, moveThreads emails threadIds threadId)

/-- `IngestSource`. -/
inductive IngestSource
  | smtp
  | jmap
  | imap
  deriving DecidableEq, Repr

/-- What an ingest is told: the source and mailboxes of `IngestEmail`, and the document ids
the store's batch gives the new email and, when it needs one, the new Thread. -/
structure IngestParams where
  source : IngestSource
  mailboxIds : List ℕ
  documentId : ℕ
  newThreadId : ℕ
  deriving DecidableEq, Repr

/-- `email_ingest`, as far as threading goes: the duplicate check of SMTP deliveries, the
thread lookup, and the new email stored with the keys of `index_headers`. -/
def ingest (threadName : String → String) (emails : List Email) (p : IngestParams)
    (headers : List Header) : List Email :=
  let keys := ingestKeys threadName headers
  -- an SMTP delivery whose Message-ID is already in its first mailbox is dropped
  if p.source = .smtp ∧ keys.messageId ≠ "" ∧
      ∃ e ∈ emails, keys.messageId ∈ e.messageIds ∧ p.mailboxIds.headD inboxId ∈ e.mailboxIds then
    emails
  else
    let (threadId, emails) :=
      if keys.references ≠ [] then findOrMergeThread emails keys.subject keys.references
      else (none, emails)
    let index := indexHeaders threadName headers
    emails ++ [{ documentId := p.documentId, mailboxIds := p.mailboxIds,
                 messageIds := index.messageIds, references := index.references,
                 subject := index.subjectValue, threadId := threadId.getD p.newThreadId }]

/-- `emails_tombstone`: the emails go, with their keys. -/
def emailsTombstone (emails : List Email) (documentIds : List ℕ) : List Email :=
  emails.filter fun e => e.documentId ∉ documentIds

/-! ## What the two walks read -/

section Walks

variable {σ α β : Type}

theorem foldl_append_flatMap (f : σ → α → σ) (p : σ → List β) (g : α → List β)
    (hf : ∀ k a, p (f k a) = p k ++ g a) (l : List α) (k : σ) :
    p (l.foldl f k) = p k ++ l.flatMap g := by
  induction l generalizing k with
  | nil => simp
  | cons a l ih => rw [List.foldl_cons, ih, hf, List.flatMap_cons, List.append_assoc]

theorem foldl_append_filter (f : σ → α → σ) (p : σ → List α) (q : α → Bool)
    (hf : ∀ k a, p (f k a) = p k ++ [a].filter q) (l : List α) (k : σ) :
    p (l.foldl f k) = p k ++ l.filter q := by
  induction l generalizing k with
  | nil => simp
  | cons a l ih =>
    rw [List.foldl_cons, ih, hf, List.append_assoc, ← List.filter_append, List.singleton_append]

theorem foldl_eq_of_step (f : σ → α → σ) (p : σ → β) (hf : ∀ k a, p (f k a) = p k)
    (l : List α) (k : σ) : p (l.foldl f k) = p k := by
  induction l generalizing k with
  | nil => rfl
  | cons a l ih => rw [List.foldl_cons, ih, hf]

end Walks

/-- The ids a header adds to the References values of the index. -/
def Header.references (h : Header) : List String :=
  match h.name with
  | .messageId | .inReplyTo | .references | .resentMessageId => h.ids
  | .subject | .other => []

/-- The thread names of the Subject headers of a walk, in the walk's order. -/
def subjectNames (threadName : String → String) (l : List Header) : List String :=
  l.filterMap fun h => if h.name = .subject then some (threadName h.value.subjectText) else none

section Keys

variable (threadName : String → String)

theorem IngestKeys.references_visitMessageId (k : IngestKeys) (id : String) :
    (k.visitMessageId id).references =
      k.references ++ [id].filter fun id => id ≠ "" ∧ id.utf8ByteSize < maxIdLength := by
  unfold IngestKeys.visitMessageId
  split_ifs with h <;> simp [h]

theorem IngestKeys.references_visitReference (k : IngestKeys) (id : String) :
    (k.visitReference id).references =
      k.references ++ [id].filter fun id => id ≠ "" ∧ id.utf8ByteSize < maxIdLength := by
  unfold IngestKeys.visitReference
  split_ifs with h <;> simp [h]

theorem IngestKeys.subject_visitMessageId (k : IngestKeys) (id : String) :
    (k.visitMessageId id).subject = k.subject := by
  unfold IngestKeys.visitMessageId
  split_ifs <;> rfl

theorem IngestKeys.subject_visitReference (k : IngestKeys) (id : String) :
    (k.visitReference id).subject = k.subject := by
  unfold IngestKeys.visitReference
  split_ifs <;> rfl

theorem IngestKeys.references_header (k : IngestKeys) (h : Header) :
    (IngestKeys.header threadName k h).references = k.references ++ h.references.filter (· ≠ "") := by
  have hids : (h.value.visitText.filter fun id => id ≠ "" ∧ id.utf8ByteSize < maxIdLength) =
      h.ids.filter (· ≠ "") := by
    simp [Header.ids, List.filter_filter]
  cases hn : h.name with
  | messageId =>
    simp only [IngestKeys.header, Header.references, hn]
    rw [foldl_append_filter _ _ _ IngestKeys.references_visitMessageId, hids]
  | inReplyTo | references | resentMessageId =>
    simp only [IngestKeys.header, Header.references, hn]
    rw [foldl_append_filter _ _ _ IngestKeys.references_visitReference, hids]
  | subject =>
    simp only [IngestKeys.header, Header.references, hn, List.filter_nil, List.append_nil]
    split <;> rfl
  | other => simp [IngestKeys.header, Header.references, hn]

theorem IndexKeys.references_header (k : IndexKeys) (h : Header) :
    (IndexKeys.header threadName k h).references = k.references ++ h.references := by
  cases hn : h.name <;> simp [IndexKeys.header, Header.references, hn]
  all_goals split <;> rfl

theorem references_indexHeaders (headers : List Header) :
    (indexHeaders threadName headers).references = headers.reverse.flatMap Header.references := by
  rw [indexHeaders, foldl_append_flatMap _ _ _ (IndexKeys.references_header threadName)]
  rfl

theorem references_ingestKeys (headers : List Header) :
    (ingestKeys threadName headers).references =
      (indexHeaders threadName headers).references.filter (· ≠ "") := by
  rw [ingestKeys, foldl_append_flatMap _ _ _ (IngestKeys.references_header threadName),
    references_indexHeaders, List.filter_flatMap]
  rfl

theorem IngestKeys.subject_header_of_ne {h : Header} (hn : h.name ≠ .subject) (k : IngestKeys) :
    (IngestKeys.header threadName k h).subject = k.subject := by
  cases hn' : h.name with
  | messageId =>
    simp only [IngestKeys.header, hn']
    exact foldl_eq_of_step _ _ IngestKeys.subject_visitMessageId _ _
  | inReplyTo | references | resentMessageId =>
    simp only [IngestKeys.header, hn']
    exact foldl_eq_of_step _ _ IngestKeys.subject_visitReference _ _
  | subject => exact absurd hn' hn
  | other => simp [IngestKeys.header, hn']

/-- The ingest's walk keeps the first thread name from the end that is not empty once
trimmed, and `""` when there is none. -/
theorem IngestKeys.subject_foldl (l : List Header) (k : IngestKeys) :
    (l.foldl (IngestKeys.header threadName) k).subject =
      if k.subject = "" then
        (((subjectNames threadName l).map (trimText · maxSortFieldLength)).find? (· ≠ "")).getD ""
      else k.subject := by
  induction l generalizing k with
  | nil => split_ifs with hk <;> simp [subjectNames, hk]
  | cons h l ih =>
    rw [List.foldl_cons, ih]
    cases hn : h.name with
    | subject =>
      simp only [IngestKeys.header, hn, subjectNames, List.filterMap_cons, if_true,
        List.map_cons, List.find?_cons]
      by_cases hk : k.subject = ""
      · by_cases ht : trimText (threadName h.value.subjectText) maxSortFieldLength = ""
        · simp [hk, ht]
        · simp [hk, ht]
      · simp [hk]
    | messageId | inReplyTo | references | resentMessageId | other =>
      simp [IngestKeys.subject_header_of_ne threadName (hn ▸ by decide : h.name ≠ .subject),
        subjectNames, hn]

/-- The index's walk keeps the first Subject from the end, under `"!"` for an empty thread
name. -/
theorem IndexKeys.subject_foldl (l : List Header) (k : IndexKeys) :
    (l.foldl (IndexKeys.header threadName) k).subject =
      k.subject.or ((subjectNames threadName l).head?.map fun name =>
        if name ≠ "" then trimText name maxSortFieldLength else "!") := by
  induction l generalizing k with
  | nil => simp [subjectNames]
  | cons h l ih =>
    rw [List.foldl_cons, ih]
    cases hn : h.name with
    | subject =>
      cases hk : k.subject <;> simp [IndexKeys.header, hn, hk, subjectNames]
    | messageId | inReplyTo | references | resentMessageId | other =>
      simp [IndexKeys.header, hn, subjectNames]

theorem subject_ingestKeys (headers : List Header) :
    (ingestKeys threadName headers).subject =
      (((subjectNames threadName headers.reverse).map (trimText · maxSortFieldLength)).find?
        (· ≠ "")).getD "" := by
  rw [ingestKeys, IngestKeys.subject_foldl, if_pos rfl]

theorem subjectValue_indexHeaders (headers : List Header) :
    (indexHeaders threadName headers).subjectValue =
      ((subjectNames threadName headers.reverse).head?.map fun name =>
        if name ≠ "" then trimText name maxSortFieldLength else "!").getD "!" := by
  rw [IndexKeys.subjectValue, indexHeaders, IndexKeys.subject_foldl, Option.none_or]

end Keys

/-- `trim_text` at `MAX_SORT_FIELD_LENGTH` empties no thread name: a string that long has a
second char, and the first one is kept. -/
theorem trimText_eq_empty_iff {s : String} : trimText s maxSortFieldLength = "" ↔ s = "" := by
  constructor
  · intro h
    by_contra hs
    unfold trimText at h
    split_ifs at h with hlt
    · exact hs h
    · rcases hcs : s.toList with _ | ⟨c, _ | ⟨d, cs⟩⟩
      · exact hs (String.toList_eq_nil_iff.mp hcs)
      · -- one char is at most four bytes
        have hsingle : s = String.singleton c := by
          rw [String.singleton_eq_ofList, ← hcs, String.ofList_toList]
        have hsize := c.utf8Size_le_four
        rw [hsingle, String.utf8ByteSize_singleton] at hlt
        simp only [maxSortFieldLength] at hlt
        omega
      · have hsize := c.utf8Size_le_four
        rw [hcs, trimChars, if_pos (by simp only [maxSortFieldLength]; omega)] at h
        simp at h
  · rintro rfl
    decide

/-! ## When the keys searched with are the keys stored -/

/-- The keys `email_ingest` searches with are the keys `index_headers` stores for the same
message: the Subject key is the stored Subject value, and every stored reference is searched. -/
structure KeysAgree (threadName : String → String) (headers : List Header) : Prop where
  subject : subjectKey (ingestKeys threadName headers).subject =
    (indexHeaders threadName headers).subjectValue
  references : ∀ r ∈ (indexHeaders threadName headers).references,
    r ∈ (ingestKeys threadName headers).references

/-- The keys agree when no stored id is empty and the last Subject has an empty thread name
only when every Subject has. -/
theorem keysAgree_of_subjectNames {threadName : String → String} {headers : List Header}
    (hids : ∀ h ∈ headers, "" ∉ h.references)
    (hsubj : (subjectNames threadName headers.reverse).head? = some "" →
      ∀ name ∈ subjectNames threadName headers.reverse, name = "") :
    KeysAgree threadName headers where
  subject := by
    rw [subject_ingestKeys, subjectValue_indexHeaders]
    cases hnames : subjectNames threadName headers.reverse with
    | nil => decide
    | cons name rest =>
      by_cases hname : name = ""
      · -- no Subject has a thread name: the ingest keeps `""` and searches under `"!"`
        have hall := hsubj (by rw [hnames, hname]; rfl)
        rw [hnames] at hall
        have hnone : ((name :: rest).map (trimText · maxSortFieldLength)).find? (· ≠ "") = none := by
          rw [List.find?_eq_none]
          intro t ht
          obtain ⟨n, hn, rfl⟩ := List.mem_map.mp ht
          simp [trimText_eq_empty_iff, hall n hn]
        rw [hnone, Option.getD_none, hname]
        rfl
      · -- the last Subject is the first non-empty one, and trimming keeps it non-empty
        have htrim : trimText name maxSortFieldLength ≠ "" := trimText_eq_empty_iff.not.mpr hname
        simp [hname, htrim, subjectKey]
  references := by
    intro r hr
    rw [references_ingestKeys, List.mem_filter]
    refine ⟨hr, ?_⟩
    rw [references_indexHeaders, List.mem_flatMap] at hr
    obtain ⟨h, hh, hr⟩ := hr
    have hne := hids h (List.mem_reverse.mp hh)
    simp only [ne_eq, decide_not, Bool.not_eq_eq_eq_not, Bool.not_true, decide_eq_false_iff_not]
    rintro rfl
    exact hne hr

/-! ## The threading law -/

/-- Two stored emails the threading links: one Subject key and a shared reference. -/
def Linked (e₁ e₂ : Email) : Prop :=
  e₁.subject = e₂.subject ∧ ∃ r ∈ e₁.references, r ∈ e₂.references

theorem Linked.symm {e₁ e₂ : Email} (h : Linked e₁ e₂) : Linked e₂ e₁ := by
  obtain ⟨hs, r, hr₁, hr₂⟩ := h
  exact ⟨hs.symm, r, hr₂, hr₁⟩

/-- Every two linked stored emails are in one thread. -/
def ThreadLaw (emails : List Email) : Prop :=
  ∀ e₁ ∈ emails, ∀ e₂ ∈ emails, Linked e₁ e₂ → e₁.threadId = e₂.threadId

/-- What every step keeps: the law, and no thread is `u32::MAX`, the value the vote starts
from and reads as "no thread". -/
structure ThreadInv (emails : List Email) : Prop where
  law : ThreadLaw emails
  ne_max : ∀ e ∈ emails, e.threadId ≠ u32Max

section Law

variable {emails : List Email}

theorem ThreadInv.nil : ThreadInv [] :=
  ⟨fun _ h => absurd h List.not_mem_nil, fun _ h => absurd h List.not_mem_nil⟩

theorem ThreadInv.filter (h : ThreadInv emails) (q : Email → Bool) : ThreadInv (emails.filter q) :=
  ⟨fun e₁ he₁ e₂ he₂ => h.law e₁ (List.mem_of_mem_filter he₁) e₂ (List.mem_of_mem_filter he₂),
    fun e he => h.ne_max e (List.mem_of_mem_filter he)⟩

theorem ThreadLaw.relabel (h : ThreadLaw emails) (f : ℕ → ℕ) :
    ThreadLaw (emails.map fun e => { e with threadId := f e.threadId }) := by
  intro e₁ he₁ e₂ he₂ hlink
  obtain ⟨a₁, ha₁, rfl⟩ := List.mem_map.mp he₁
  obtain ⟨a₂, ha₂, rfl⟩ := List.mem_map.mp he₂
  exact congrArg f (h a₁ ha₁ a₂ ha₂ hlink)

theorem moveThreads_eq_map (emails : List Email) (threadIds : List ℕ) (threadId : ℕ) :
    moveThreads emails threadIds threadId =
      emails.map fun e => { e with threadId := if e.threadId ∈ threadIds then threadId else e.threadId } := by
  refine List.map_congr_left fun e _ => ?_
  by_cases hmem : e.threadId ∈ threadIds
  · by_cases heq : e.threadId = threadId
    · -- the chosen thread's own emails stay where they are
      rw [if_neg (fun h => h.2 heq), if_pos hmem, ← heq]
    · rw [if_pos ⟨hmem, heq⟩, if_pos hmem]
  · rw [if_neg (fun h => hmem h.1), if_neg hmem]

theorem ThreadInv.moveThreads (h : ThreadInv emails) (threadIds : List ℕ) {threadId : ℕ}
    (hmax : threadId ≠ u32Max) : ThreadInv (moveThreads emails threadIds threadId) := by
  rw [moveThreads_eq_map]
  refine ⟨h.law.relabel fun t => if t ∈ threadIds then threadId else t, ?_⟩
  intro e he
  obtain ⟨a, ha, rfl⟩ := List.mem_map.mp he
  dsimp only
  split_ifs
  · exact hmax
  · exact h.ne_max a ha

end Law

/-! ## The vote -/

theorem countStep_fst (acc : List (ℕ × ℕ) × ℕ × ℕ) (t : ℕ) :
    (countStep acc t).1 = setCount acc.1 t ((acc.1.lookup t).getD 0 + 1) := by
  unfold countStep
  dsimp only
  split_ifs <;> rfl

theorem countStep_choice (acc : List (ℕ × ℕ) × ℕ × ℕ) (t : ℕ) :
    (countStep acc t).2.1 = t ∨ (countStep acc t).2.1 = acc.2.1 := by
  unfold countStep
  dsimp only
  split_ifs
  · exact .inl rfl
  · exact .inr rfl

theorem mem_keys_setCount (counts : List (ℕ × ℕ)) (t c t' : ℕ) :
    t' ∈ (setCount counts t c).map Prod.fst ↔ t' = t ∨ t' ∈ counts.map Prod.fst := by
  induction counts with
  | nil => simp [setCount]
  | cons entry counts ih =>
    obtain ⟨t₀, c₀⟩ := entry
    by_cases h : t₀ = t
    · subst h
      simp [setCount]
    · simp only [setCount, if_neg h, List.map_cons, List.mem_cons, ih]
      tauto

theorem mem_keys_foldl_countStep (l : List ℕ) (acc : List (ℕ × ℕ) × ℕ × ℕ) {t : ℕ}
    (ht : t ∈ acc.1.map Prod.fst ∨ t ∈ l) : t ∈ (l.foldl countStep acc).1.map Prod.fst := by
  induction l generalizing acc with
  | nil => simpa using ht
  | cons t' l ih =>
    rw [List.foldl_cons]
    apply ih
    rw [countStep_fst, mem_keys_setCount]
    rcases ht with ht | ht
    · exact .inl (.inr ht)
    · rcases List.mem_cons.mp ht with rfl | ht
      · exact .inl (.inl rfl)
      · exact .inr ht

theorem choice_foldl_countStep (l : List ℕ) (acc : List (ℕ × ℕ) × ℕ × ℕ) :
    (l.foldl countStep acc).2.1 = acc.2.1 ∨ (l.foldl countStep acc).2.1 ∈ l := by
  induction l generalizing acc with
  | nil => exact .inl rfl
  | cons t l ih =>
    rw [List.foldl_cons]
    rcases ih (countStep acc t) with h | h
    · rcases countStep_choice acc t with h' | h'
      · exact .inr (by rw [h, h']; exact List.mem_cons_self)
      · exact .inl (h.trans h')
    · exact .inr (List.mem_cons_of_mem t h)

theorem countThreads_choice_mem {l : List ℕ} (hl : l ≠ []) : (countThreads l).2.1 ∈ l := by
  obtain ⟨t, l, rfl⟩ := List.exists_cons_of_ne_nil hl
  have hfirst : countStep ([], u32Max, 0) t = ([(t, 1)], t, 1) := rfl
  rw [countThreads, List.foldl_cons, hfirst]
  rcases choice_foldl_countStep l ([(t, 1)], t, 1) with h | h
  · exact h ▸ List.mem_cons_self
  · exact List.mem_cons_of_mem t h

theorem mem_keys_countThreads {l : List ℕ} {t : ℕ} (ht : t ∈ l) :
    t ∈ (countThreads l).1.map Prod.fst :=
  mem_keys_foldl_countStep l _ (.inr ht)

/-! ## `find_or_merge_thread` -/

theorem mem_searchThread {emails : List Email} {key : String} {references : List String}
    {e : Email} :
    e ∈ searchThread emails key references ↔
      e ∈ emails ∧ e.subject = key ∧ ∃ r ∈ references, r ∈ e.references := by
  simp [searchThread, List.mem_mergeSort]

/-- What a thread lookup gives back, for a Subject key and references: the emails after its
batch keep the invariant, each of them that the search matches is in the thread returned,
and that thread is not `u32::MAX`. -/
structure Found (key : String) (references : List String) (found : Option ℕ)
    (emails : List Email) : Prop where
  inv : ThreadInv emails
  of_match : ∀ e ∈ emails, e.subject = key → (∃ r ∈ references, r ∈ e.references) →
    found = some e.threadId
  ne_max : ∀ t ∈ found, t ≠ u32Max

section Found

variable {emails : List Email}

theorem Found.none_of_nil (h : ThreadInv emails) (key : String) : Found key [] none emails :=
  ⟨h, fun _ _ _ ⟨_, hr, _⟩ => absurd hr List.not_mem_nil, fun t ht => (Option.not_mem_none t ht).elim⟩

/-- `find_or_merge_thread` finds the thread of every stored email its search matches: none
when there is none, the one result's, the only thread of the results, or the thread every
other thread of the results is merged into. -/
theorem findOrMergeThread_found (hinv : ThreadInv emails) (threadName : String)
    (references : List String) :
    Found (subjectKey threadName) references (findOrMergeThread emails threadName references).1
      (findOrMergeThread emails threadName references).2 := by
  have hres := fun e => @mem_searchThread emails (subjectKey threadName) references e
  unfold findOrMergeThread
  generalize searchThread emails (subjectKey threadName) references = results at hres
  dsimp only
  have hmatch : ∀ e ∈ emails, e.subject = subjectKey threadName →
      (∃ r ∈ references, r ∈ e.references) → e.threadId ∈ results.map Email.threadId :=
    fun e he hs hr => List.mem_map_of_mem ((hres e).mpr ⟨he, hs, hr⟩)
  have hstored : ∀ e ∈ results, e ∈ emails := fun e he => ((hres e).mp he).1
  by_cases hnil : results = []
  · -- no result: no stored email matches
    rw [if_pos hnil]
    refine ⟨hinv, fun e he hs hr => ?_, fun t ht => (Option.not_mem_none t ht).elim⟩
    have hmem := hmatch e he hs hr
    rw [hnil] at hmem
    exact absurd hmem List.not_mem_nil
  rw [if_neg hnil]
  by_cases hone : (results.map Email.threadId).length = 1
  · -- one result: its thread
    rw [if_pos hone]
    rw [List.length_map] at hone
    obtain ⟨r, rfl⟩ := List.length_eq_one_iff.mp hone
    refine ⟨hinv, fun e he hs hr => ?_, fun t ht => ?_⟩
    · have hmem := hmatch e he hs hr
      rw [List.map_singleton, List.mem_singleton] at hmem
      rw [hmem]
      rfl
    · rw [List.map_singleton, List.head?_cons, Option.mem_some_iff] at ht
      rw [← ht]
      exact hinv.ne_max r (hstored r List.mem_cons_self)
  rw [if_neg hone]
  have hchoice := countThreads_choice_mem (l := results.map Email.threadId) (by simpa using hnil)
  have hkeys := fun t (ht : t ∈ results.map Email.threadId) => mem_keys_countThreads ht
  generalize countThreads (results.map Email.threadId) = vote at hchoice hkeys
  obtain ⟨counts, threadId, count⟩ := vote
  dsimp only at hchoice hkeys ⊢
  have hmax : threadId ≠ u32Max := by
    obtain ⟨e, he, rfl⟩ := List.mem_map.mp hchoice
    exact hinv.ne_max e (hstored e he)
  rw [if_neg hmax]
  by_cases hcount : counts.length = 1
  · -- the results are all in one thread, the choice
    rw [if_pos hcount]
    obtain ⟨⟨k, c⟩, rfl⟩ := List.length_eq_one_iff.mp hcount
    have hall : ∀ t ∈ results.map Email.threadId, t = k := fun t ht => by
      simpa using hkeys t ht
    refine ⟨hinv, fun e he hs hr => ?_, fun t ht => ?_⟩
    · rw [hall _ hchoice, hall _ (hmatch e he hs hr)]
    · rw [Option.mem_some_iff] at ht
      exact ht ▸ hmax
  · -- several threads: every one of them moves to the choice
    rw [if_neg hcount]
    refine ⟨hinv.moveThreads _ hmax, fun e he hs hr => ?_, fun t ht => ?_⟩
    · rw [moveThreads_eq_map] at he
      obtain ⟨a, ha, rfl⟩ := List.mem_map.mp he
      have hmem := hmatch a ha hs hr
      simp only [if_pos hmem]
    · rw [Option.mem_some_iff] at ht
      exact ht ▸ hmax

/-- A new email stored under the key it was looked up with, with no reference that was not
searched, in the thread found or else a new one, keeps the invariant. -/
theorem Found.append {key : String} {references : List String} {found : Option ℕ}
    (hf : Found key references found emails) {n : Email} (hsubj : n.subject = key)
    (hrefs : ∀ r ∈ n.references, r ∈ references) {t : ℕ} (ht : t ≠ u32Max)
    (hn : n.threadId = found.getD t) : ThreadInv (emails ++ [n]) := by
  have hnew : ∀ e ∈ emails, Linked e n → e.threadId = n.threadId := by
    rintro e he ⟨hs, r, hr, hrn⟩
    rw [hn, hf.of_match e he (hs.trans hsubj) ⟨r, hrefs r hrn, hr⟩]
    rfl
  constructor
  · intro e₁ he₁ e₂ he₂ hlink
    rw [List.mem_append, List.mem_singleton] at he₁ he₂
    rcases he₁ with he₁ | rfl <;> rcases he₂ with he₂ | rfl
    · exact hf.inv.law e₁ he₁ e₂ he₂ hlink
    · exact hnew e₁ he₁ hlink
    · exact (hnew e₂ he₂ hlink.symm).symm
    · rfl
  · intro e he
    rw [List.mem_append, List.mem_singleton] at he
    rcases he with he | rfl
    · exact hf.inv.ne_max e he
    · rw [hn]
      cases hfound : found with
      | none => exact ht
      | some t' => exact hf.ne_max t' hfound

end Found

/-! ## Runs -/

section Runs

variable {threadName : String → String} {emails emails' : List Email}

theorem lookup_found (hinv : ThreadInv emails) (keys : IngestKeys) :
    Found (subjectKey keys.subject) keys.references
      (if keys.references ≠ [] then findOrMergeThread emails keys.subject keys.references
        else (none, emails)).1
      (if keys.references ≠ [] then findOrMergeThread emails keys.subject keys.references
        else (none, emails)).2 := by
  split_ifs with hrefs
  · exact findOrMergeThread_found hinv _ _
  · rw [not_not.mp hrefs]
    exact Found.none_of_nil hinv _

/-- An ingest whose keys agree keeps the invariant, whatever id the store gives a new
Thread other than `u32::MAX`. -/
theorem ThreadInv.ingest (hinv : ThreadInv emails) {p : IngestParams} {headers : List Header}
    (hkeys : KeysAgree threadName headers) (hmax : p.newThreadId ≠ u32Max) :
    ThreadInv (ingest threadName emails p headers) := by
  have hfound := lookup_found hinv (ingestKeys threadName headers)
  unfold Thread.ingest
  dsimp only
  split
  · -- a duplicate is dropped
    exact hinv
  generalize (if (ingestKeys threadName headers).references ≠ [] then
      findOrMergeThread emails (ingestKeys threadName headers).subject
        (ingestKeys threadName headers).references else (none, emails)) = lookup at hfound ⊢
  obtain ⟨found, emails'⟩ := lookup
  dsimp only at hfound ⊢
  refine hfound.append ?_ ?_ hmax ?_
  · exact hkeys.subject.symm
  · exact hkeys.references
  · rfl

/-- One step of an account: an ingest whose keys agree, or the deletion of emails. -/
inductive Step (threadName : String → String) : List Email → List Email → Prop
  | ingest {emails : List Email} (p : IngestParams) (headers : List Header)
      (hkeys : KeysAgree threadName headers) (hmax : p.newThreadId ≠ u32Max) :
      Step threadName emails (ingest threadName emails p headers)
  | tombstone {emails : List Email} (documentIds : List ℕ) :
      Step threadName emails (emailsTombstone emails documentIds)

theorem ThreadInv.step (hinv : ThreadInv emails) (h : Step threadName emails emails') :
    ThreadInv emails' := by
  cases h with
  | ingest p headers hkeys hmax => exact hinv.ingest hkeys hmax
  | tombstone documentIds => exact hinv.filter _

theorem ThreadInv.reaches (hinv : ThreadInv emails)
    (h : Relation.ReflTransGen (Step threadName) emails emails') : ThreadInv emails' := by
  induction h with
  | refl => exact hinv
  | tail _ hstep ih => exact ih.step hstep

/-- From an empty account, after every run of ingests whose keys agree and of deletions,
every two linked emails are in one thread. -/
theorem threadLaw_of_reaches (h : Relation.ReflTransGen (Step threadName) [] emails) :
    ThreadLaw emails :=
  (ThreadInv.nil.reaches h).law

/-- A message, and a reply to it under the same Subject. -/
def greeting : List Header := [⟨.messageId, .text "a"⟩, ⟨.subject, .text "Hello"⟩]
def greetingReply : List Header :=
  [⟨.messageId, .text "b"⟩, ⟨.inReplyTo, .text "a"⟩, ⟨.subject, .text "Hello"⟩]

theorem threadLaw_of_reaches_reply :
    ThreadLaw (ingest id (ingest id [] ⟨.jmap, [inboxId], 0, 0⟩ greeting) ⟨.jmap, [inboxId], 1, 1⟩
      greetingReply) :=
  threadLaw_of_reaches (.tail (.single (.ingest _ _ (keysAgree_of_subjectNames (by decide) (by decide))
    (by decide))) (.ingest _ _ (keysAgree_of_subjectNames (by decide) (by decide)) (by decide)))

end Runs

/-! ## A message whose last Subject has no thread name -/

/-- A Message-ID, then a Subject with a thread name, then a last Subject without one. -/
def repeatedSubject : List Header :=
  [⟨.messageId, .text "a"⟩, ⟨.subject, .text "Hello"⟩, ⟨.subject, .text ""⟩]

/-- The ingest searches the message under `"Hello"` and the index stores it under `"!"`, so the
same message ingested twice from an empty account lands in two threads, though the two
emails have one Subject key and one reference. -/
theorem ingest_twice_splits_thread (threadName : String → String)
    (hHello : threadName "Hello" = "Hello") (hEmpty : threadName "" = "") :
    subjectKey (ingestKeys threadName repeatedSubject).subject ≠
        (indexHeaders threadName repeatedSubject).subjectValue ∧
      ¬ThreadLaw (ingest threadName (ingest threadName [] ⟨.jmap, [inboxId], 0, 0⟩ repeatedSubject)
        ⟨.jmap, [inboxId], 1, 1⟩ repeatedSubject) := by
  have hnames : subjectNames threadName repeatedSubject.reverse = ["", "Hello"] := by
    simp [subjectNames, repeatedSubject, HeaderValue.subjectText, hHello, hEmpty]
  have hsubject : (ingestKeys threadName repeatedSubject).subject = "Hello" := by
    rw [subject_ingestKeys, hnames]
    decide
  have hvalue : (indexHeaders threadName repeatedSubject).subjectValue = "!" := by
    rw [subjectValue_indexHeaders, hnames]
    decide
  have hrefs : (indexHeaders threadName repeatedSubject).references = ["a"] := by
    rw [references_indexHeaders]
    decide
  have hkeyRefs : (ingestKeys threadName repeatedSubject).references = ["a"] := by
    rw [references_ingestKeys, hrefs]
    decide
  refine ⟨by rw [hsubject, hvalue]; decide, fun hlaw => ?_⟩
  simp [Thread.ingest, hsubject, hvalue, hrefs, hkeyRefs, findOrMergeThread, searchThread,
    subjectKey] at hlaw
  have hsame := hlaw _ List.mem_cons_self _ (List.mem_cons_of_mem _ List.mem_cons_self)
    ⟨rfl, "a", List.mem_cons_self, List.mem_cons_self⟩
  exact Nat.zero_ne_one hsame

/-- The identity as thread name keeps `"Hello"` and `""`, as `mail_parser`'s `thread_name` does. -/
theorem ingest_twice_splits_thread_id :
    subjectKey (ingestKeys id repeatedSubject).subject ≠
        (indexHeaders id repeatedSubject).subjectValue ∧
      ¬ThreadLaw (ingest id (ingest id [] ⟨.jmap, [inboxId], 0, 0⟩ repeatedSubject)
        ⟨.jmap, [inboxId], 1, 1⟩ repeatedSubject) :=
  ingest_twice_splits_thread id rfl rfl

end MailServer.Jmap.Thread
