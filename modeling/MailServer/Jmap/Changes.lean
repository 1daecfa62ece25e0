import MailServer.Store.LogQuery

/-! # JMAP `/changes` and its pages

`ChangesLookup::changes` answers from the change log of the collection the
request names. With a `maxChanges` smaller than the answer it sends the last
`maxChanges` changes and an intermediate state `(from, to, items_sent)`; a
request from that state recomputes the same range, drops what was sent, and
sends the next block from the back.

A client that resubmits each `newState` while `hasMoreChanges` gets, in at most
one page per id of the log, every change of the unlimited answer once, and ends
in the unlimited answer's state (`paginate_changes`). That state is the last
change id of the log when the answer has changes, but the starting state when
the range folds to no change.
-/

namespace MailServer.Jmap.Changes

open MailServer.Utils.Leb128 MailServer.Store.ChangeLog MailServer.Store.LogQuery

/-- `jmap_proto::types::state::State`. -/
inductive State where
  | initial
  | exact (changeId : UInt64)
  | intermediate (fromId toId : UInt64) (itemsSent : ℕ)
  deriving DecidableEq, Repr

/-- The bytes of `Display for State` before their base32 text: a tag, then LEB128
numbers; an intermediate state keeps `to_id - from_id`. -/
def State.toBytes : State → List UInt8
  | .initial => [110]
  | .exact changeId => 115 :: toLeb128Bytes changeId
  | .intermediate fromId toId itemsSent =>
    114 :: (toLeb128Bytes fromId ++ toLeb128Bytes (toId - fromId) ++
      toLeb128Bytes (UInt64.ofNat itemsSent))

/-- `u64::saturating_add`. -/
def saturatingAdd (a b : UInt64) : UInt64 :=
  if a.toNat + b.toNat < 2 ^ 64 then a + b else u64Max

/-- `JsonObjectParser for State` on the bytes of a token (`n`, `s`, `r`). -/
def State.parse : List UInt8 → Option State
  | [] => none
  | tag :: rest =>
    if tag = 110 then some .initial
    else if tag = 115 then (nextLeb128 rest).map fun r => .exact r.1
    else if tag = 114 then do
      let (fromId, rest) ← nextLeb128 rest
      let (toId, rest) ← nextLeb128 rest
      let (itemsSent, _) ← nextLeb128 rest
      if 0 < itemsSent then some (.intermediate fromId (saturatingAdd fromId toId) itemsSent.toNat)
      else none
    else none

/-- The data types of `/changes` (`RequestArguments`). -/
inductive RequestArguments where
  | email
  | mailbox
  | thread
  | identity
  | emailSubmission
  | quota
  deriving DecidableEq, Repr

/-- The collections whose logs `/changes` reads. -/
inductive Collection where
  | email
  | mailbox
  | thread
  | identity
  | emailSubmission
  deriving DecidableEq, Repr

/-- A `ChangesRequest` on one account. -/
structure ChangesRequest where
  arguments : RequestArguments
  sinceState : State
  maxChanges : Option ℕ

/-- The properties `updated_properties` names for a mailbox whose counts changed. -/
inductive Property where
  | totalEmails
  | unreadEmails
  | totalThreads
  | unreadThreads
  deriving DecidableEq, Repr

/-- A `ChangesResponse` on one account. -/
structure ChangesResponse where
  oldState : State
  newState : State
  hasMoreChanges : Bool
  created : List UInt64
  updated : List UInt64
  destroyed : List UInt64
  updatedProperties : Option (List Property)

/-- What the access token says of the request's account. -/
structure AccessToken where
  hasAccess : Collection → Bool
  isMember : Bool

inductive ChangesError where
  | forbidden
  | cannotCalculateChanges
  | corruptedKey
  deriving DecidableEq, Repr

/-- The collection of a request, after its access check. -/
def collectionOf (token : AccessToken) : RequestArguments → Except ChangesError Collection
  | .email => if token.hasAccess .email then .ok .email else .error .forbidden
  | .mailbox => if token.hasAccess .mailbox then .ok .mailbox else .error .forbidden
  | .thread => if token.hasAccess .email then .ok .thread else .error .forbidden
  | .identity => if token.isMember then .ok .identity else .error .forbidden
  | .emailSubmission => if token.isMember then .ok .emailSubmission else .error .forbidden
  | .quota => if token.isMember then .error .cannotCalculateChanges else .error .forbidden

/-- `changes_`: a store query, whose failure is a corrupted key. -/
def fetch (log : List (UInt64 × List UInt8)) (query : Query) : Except ChangesError Changelog :=
  match storeChanges log query with
  | some changelog => .ok changelog
  | none => .error .corruptedKey

/-- The changelog to answer from and how many of its changes earlier pages sent;
`none` for an empty collection asked from `Initial`. From an intermediate state
the range is recomputed and the changes already sent, at its end, dropped. -/
def loadChangelog (log : List (UInt64 × List UInt8)) :
    State → Except ChangesError (Option (ℕ × Changelog))
  | .initial => do
    let changelog ← fetch log .all
    if changelog.changes.isEmpty && changelog.fromChangeId == 0 then return none
    return some (0, changelog)
  | .exact changeId => do
    return some (0, ← fetch log (.since changeId))
  | .intermediate fromId toId itemsSent => do
    let changelog ← fetch log (.rangeInclusive fromId toId)
    if itemsSent ≥ changelog.changes.length then
      return some (0, ← fetch log (.since toId))
    return some (itemsSent,
      { changelog with changes := changelog.changes.take (changelog.changes.length - itemsSent) })

/-- The `max_changes` in force: `changes_max_results` caps the request's. -/
def effectiveMaxChanges (changesMaxResults : ℕ) (maxChanges : Option ℕ) : ℕ :=
  if 0 < changesMaxResults ∧ changesMaxResults < maxChanges.getD 0 then changesMaxResults
  else maxChanges.getD 0

/-- The lists the response loop fills, and whether a direct update was seen. -/
structure Collected where
  created : List UInt64
  updated : List UInt64
  destroyed : List UInt64
  itemsChanged : Bool

def collectStep (collected : Collected) : Change → Collected
  | .insert item => { collected with created := collected.created ++ [item] }
  | .update item => { collected with itemsChanged := true, updated := collected.updated ++ [item] }
  | .delete item => { collected with destroyed := collected.destroyed ++ [item] }
  | .childUpdate item => { collected with updated := collected.updated ++ [item] }

/-- The loop over the changes sent. -/
def collect (changes : List Change) : Collected :=
  changes.foldl collectStep ⟨[], [], [], false⟩

/-- The response to a request from `sinceState` once the changelog is loaded:
the first changes are dropped, and the page is the last `max_changes`. -/
def respond (collection : Collection) (sinceState : State) (maxChanges itemsSent : ℕ)
    (changelog : Changelog) : ChangesResponse :=
  let hasMoreChanges := decide (0 < maxChanges ∧ maxChanges < changelog.changes.length)
  let page := if hasMoreChanges then changelog.changes.drop (changelog.changes.length - maxChanges)
    else changelog.changes
  let collected := collect page
  { oldState := sinceState
    newState := if hasMoreChanges then
        .intermediate changelog.fromChangeId changelog.toChangeId (itemsSent + maxChanges)
      else .exact changelog.toChangeId
    hasMoreChanges
    created := collected.created
    updated := collected.updated
    destroyed := collected.destroyed
    updatedProperties :=
      if !collected.updated.isEmpty && !collected.itemsChanged && collection = .mailbox then
        some [.totalEmails, .unreadEmails, .totalThreads, .unreadThreads]
      else none }

/-- `ChangesLookup::changes` for `Server`, on the logs of one account. -/
def changes (changesMaxResults : ℕ) (logs : Collection → List (UInt64 × List UInt8))
    (token : AccessToken) (request : ChangesRequest) : Except ChangesError ChangesResponse := do
  let collection ← collectionOf token request.arguments
  let maxChanges := effectiveMaxChanges changesMaxResults request.maxChanges
  match ← loadChangelog (logs collection) request.sinceState with
  | none => return ⟨request.sinceState, .initial, false, [], [], [], none⟩
  | some (itemsSent, changelog) =>
    return respond collection request.sinceState maxChanges itemsSent changelog

/-- A client paging through `/changes`: while `hasMoreChanges`, the token of each
`newState` is the next request's `sinceState`. `none` when a call fails, a token
does not parse or the fuel runs out. -/
def paginate (call : State → Except ChangesError ChangesResponse) : ℕ → State → Option (List ChangesResponse)
  | 0, _ => none
  | fuel + 1, sinceState =>
    match call sinceState with
    | .error _ => none
    | .ok response =>
      if response.hasMoreChanges then
        ((State.parse response.newState.toBytes).bind (paginate call fuel)).map (response :: ·)
      else some [response]

/-! ## The state token -/

/-- The states a token carries exactly: an intermediate range in order, with a
positive count that fits a `usize`. -/
def State.Valid : State → Prop
  | .initial | .exact _ => True
  | .intermediate fromId toId itemsSent => fromId ≤ toId ∧ 0 < itemsSent ∧ itemsSent < 2 ^ 64

theorem saturatingAdd_sub {a b : UInt64} (h : a ≤ b) : saturatingAdd a (b - a) = b := by
  have hle := UInt64.le_iff_toNat_le.mp h
  have hsub : (b - a).toNat = b.toNat - a.toNat := UInt64.toNat_sub_of_le _ _ h
  have hb := b.toNat_lt
  unfold saturatingAdd
  rw [if_pos (by rw [hsub]; omega)]
  apply UInt64.toNat_inj.mp
  rw [UInt64.toNat_add, hsub, Nat.add_sub_cancel' hle, Nat.mod_eq_of_lt hb]

theorem State.parse_toBytes (s : State) (hs : s.Valid) : State.parse s.toBytes = some s := by
  cases s with
  | initial => rfl
  | exact changeId =>
    have hread := nextLeb128_toLeb128Bytes changeId []
    rw [List.append_nil] at hread
    simp [State.toBytes, State.parse, hread]
  | intermediate fromId toId itemsSent =>
    obtain ⟨hle, hpos, hlt⟩ := hs
    have hk : (UInt64.ofNat itemsSent).toNat = itemsSent := by
      rw [UInt64.toNat_ofNat', Nat.mod_eq_of_lt hlt]
    have hk0 : 0 < UInt64.ofNat itemsSent := by
      rw [UInt64.lt_iff_toNat_lt, hk]
      exact hpos
    have hread := nextLeb128_toLeb128Bytes (UInt64.ofNat itemsSent) []
    rw [List.append_nil] at hread
    simp [State.toBytes, State.parse, List.append_assoc, nextLeb128_toLeb128Bytes, hread, hk0, hk,
      saturatingAdd_sub hle]

/-! ## One call -/

/-- The id a change puts in `created`. -/
def Change.createdId : Change → Option UInt64
  | .insert id => some id
  | _ => none

/-- The id a change puts in `updated`. -/
def Change.updatedId : Change → Option UInt64
  | .update id | .childUpdate id => some id
  | _ => none

/-- The id a change puts in `destroyed`. -/
def Change.destroyedId : Change → Option UInt64
  | .delete id => some id
  | _ => none

theorem foldl_collectStep (changes : List Change) (acc : Collected) :
    (changes.foldl collectStep acc).created = acc.created ++ changes.filterMap Change.createdId ∧
      (changes.foldl collectStep acc).updated = acc.updated ++ changes.filterMap Change.updatedId ∧
      (changes.foldl collectStep acc).destroyed = acc.destroyed ++ changes.filterMap Change.destroyedId := by
  induction changes generalizing acc with
  | nil => simp
  | cons c changes ih =>
    obtain ⟨h1, h2, h3⟩ := ih (collectStep acc c)
    rw [List.foldl_cons, h1, h2, h3]
    cases c <;> simp [collectStep, List.filterMap_cons, Change.createdId, Change.updatedId, Change.destroyedId]

theorem collect_created (changes : List Change) :
    (collect changes).created = changes.filterMap Change.createdId :=
  (foldl_collectStep changes _).1

theorem collect_updated (changes : List Change) :
    (collect changes).updated = changes.filterMap Change.updatedId :=
  (foldl_collectStep changes _).2.1

theorem collect_destroyed (changes : List Change) :
    (collect changes).destroyed = changes.filterMap Change.destroyedId :=
  (foldl_collectStep changes _).2.2

theorem length_filterMap_ids (changes : List Change) :
    (changes.filterMap Change.createdId).length + (changes.filterMap Change.updatedId).length +
      (changes.filterMap Change.destroyedId).length = changes.length := by
  induction changes with
  | nil => rfl
  | cons c changes ih =>
    cases c <;> simp [List.filterMap_cons, Change.createdId, Change.updatedId, Change.destroyedId] <;> omega

theorem fetch_of_storeChanges {log : List (UInt64 × List UInt8)} {q : Query} {R : Changelog}
    (h : storeChanges log q = some R) : fetch log q = .ok R := by
  simp [fetch, h]

theorem loadChangelog_initial {log : List (UInt64 × List UInt8)} {R : Changelog}
    (h : storeChanges log .all = some R) :
    loadChangelog log .initial =
      .ok (if R.changes.isEmpty && R.fromChangeId == 0 then none else some (0, R)) := by
  simp only [loadChangelog, fetch_of_storeChanges h, bind, Except.bind, pure, Except.pure]
  split <;> rfl

theorem loadChangelog_exact {log : List (UInt64 × List UInt8)} {c : UInt64} {R : Changelog}
    (h : storeChanges log (.since c) = some R) : loadChangelog log (.exact c) = .ok (some (0, R)) := by
  simp only [loadChangelog, fetch_of_storeChanges h]
  rfl

/-- From an intermediate state with changes left, the range is read again and
the `itemsSent` changes at its end are dropped. -/
theorem loadChangelog_intermediate {log : List (UInt64 × List UInt8)} {f t : UInt64} {R : Changelog}
    (h : storeChanges log (.rangeInclusive f t) = some R) {itemsSent : ℕ}
    (hsent : itemsSent < R.changes.length) :
    loadChangelog log (.intermediate f t itemsSent) =
      .ok (some (itemsSent, { R with changes := R.changes.take (R.changes.length - itemsSent) })) := by
  simp only [loadChangelog, fetch_of_storeChanges h, bind, Except.bind, pure, Except.pure]
  rw [if_neg (Nat.not_le.mpr hsent)]

theorem changes_of_load (changesMaxResults : ℕ) {logs : Collection → List (UInt64 × List UInt8)}
    {token : AccessToken} {arguments : RequestArguments} {collection : Collection}
    (hcoll : collectionOf token arguments = .ok collection) {s : State}
    {loaded : Option (ℕ × Changelog)} (hload : loadChangelog (logs collection) s = .ok loaded)
    (maxChanges : Option ℕ) :
    changes changesMaxResults logs token ⟨arguments, s, maxChanges⟩ =
      .ok (match loaded with
        | none => ⟨s, .initial, false, [], [], [], none⟩
        | some (itemsSent, changelog) =>
          respond collection s (effectiveMaxChanges changesMaxResults maxChanges) itemsSent changelog) := by
  simp only [changes, hcoll, hload, bind, Except.bind]
  cases loaded <;> rfl

theorem effectiveMaxChanges_none (changesMaxResults : ℕ) :
    effectiveMaxChanges changesMaxResults none = 0 := by
  simp [effectiveMaxChanges]

theorem effectiveMaxChanges_some {m : ℕ} (hm : 0 < m) (changesMaxResults : ℕ) :
    0 < effectiveMaxChanges changesMaxResults (some m) ∧
      effectiveMaxChanges changesMaxResults (some m) ≤ m := by
  unfold effectiveMaxChanges
  split
  · rename_i h
    simp only [Option.getD_some] at h
    omega
  · simp only [Option.getD_some]
    omega

/-! ## The response -/

/-- The changes a response sends: the last `maxChanges` when there are more. -/
def sentPage (maxChanges : ℕ) (changes : List Change) : List Change :=
  if 0 < maxChanges ∧ maxChanges < changes.length then changes.drop (changes.length - maxChanges)
  else changes

theorem respond_hasMoreChanges (collection : Collection) (s : State) (maxChanges itemsSent : ℕ)
    (R : Changelog) :
    (respond collection s maxChanges itemsSent R).hasMoreChanges =
      decide (0 < maxChanges ∧ maxChanges < R.changes.length) := rfl

theorem respond_newState (collection : Collection) (s : State) (maxChanges itemsSent : ℕ)
    (R : Changelog) :
    (respond collection s maxChanges itemsSent R).newState =
      if 0 < maxChanges ∧ maxChanges < R.changes.length then
        .intermediate R.fromChangeId R.toChangeId (itemsSent + maxChanges)
      else .exact R.toChangeId := by
  simp [respond]

theorem respond_ids (collection : Collection) (s : State) (maxChanges itemsSent : ℕ) (R : Changelog) :
    (respond collection s maxChanges itemsSent R).created =
        (sentPage maxChanges R.changes).filterMap Change.createdId ∧
      (respond collection s maxChanges itemsSent R).updated =
        (sentPage maxChanges R.changes).filterMap Change.updatedId ∧
      (respond collection s maxChanges itemsSent R).destroyed =
        (sentPage maxChanges R.changes).filterMap Change.destroyedId := by
  refine ⟨?_, ?_, ?_⟩ <;>
    simp [respond, sentPage, collect_created, collect_updated, collect_destroyed]

theorem respond_size (collection : Collection) (s : State) (maxChanges itemsSent : ℕ) (R : Changelog) :
    (respond collection s maxChanges itemsSent R).created.length +
        (respond collection s maxChanges itemsSent R).updated.length +
        (respond collection s maxChanges itemsSent R).destroyed.length =
      (sentPage maxChanges R.changes).length := by
  obtain ⟨hc, hu, hd⟩ := respond_ids collection s maxChanges itemsSent R
  rw [hc, hu, hd, length_filterMap_ids]

/-! ## Paging through the answer -/

theorem paginate_last {call : State → Except ChangesError ChangesResponse} {s : State}
    {r : ChangesResponse} (h : call s = .ok r) (hr : r.hasMoreChanges = false) (fuel : ℕ) :
    paginate call (fuel + 1) s = some [r] := by
  simp [paginate, h, hr]

theorem paginate_more {call : State → Except ChangesError ChangesResponse} {s s' : State}
    {r : ChangesResponse} (h : call s = .ok r) (hr : r.hasMoreChanges = true)
    (hparse : State.parse r.newState.toBytes = some s') (fuel : ℕ) :
    paginate call (fuel + 1) s = (paginate call fuel s').map (r :: ·) := by
  simp [paginate, h, hr, hparse]

/-- `pages` send the changes `rest` of the answer `R`: their ids are those of
blocks that make up `rest`, each page holds at most `maxChanges` ids, and the
last ends in `R`'s last change id. -/
def PagesOf (maxChanges : ℕ) (R : Changelog) (rest : List Change) (pages : List ChangesResponse) :
    Prop :=
  ∃ blocks : List (List Change),
    pages.map ChangesResponse.created = blocks.map (·.filterMap Change.createdId) ∧
    pages.map ChangesResponse.updated = blocks.map (·.filterMap Change.updatedId) ∧
    pages.map ChangesResponse.destroyed = blocks.map (·.filterMap Change.destroyedId) ∧
    blocks.flatten.Perm rest ∧
    (∀ r ∈ pages, r.created.length + r.updated.length + r.destroyed.length ≤ maxChanges) ∧
    pages.getLast?.map ChangesResponse.newState = some (.exact R.toChangeId)

theorem PagesOf.single {maxChanges : ℕ} {R : Changelog} {rest : List Change} {r : ChangesResponse}
    (hc : r.created = rest.filterMap Change.createdId) (hu : r.updated = rest.filterMap Change.updatedId)
    (hd : r.destroyed = rest.filterMap Change.destroyedId) (hlen : rest.length ≤ maxChanges)
    (hnew : r.newState = .exact R.toChangeId) : PagesOf maxChanges R rest [r] := by
  refine ⟨[rest], by simp [hc], by simp [hu], by simp [hd], by simp, ?_, by simp [hnew]⟩
  intro r' hr'
  rw [List.mem_singleton.mp hr', hc, hu, hd, length_filterMap_ids]
  exact hlen

theorem PagesOf.cons {maxChanges : ℕ} {R : Changelog} {rest : List Change} {pages : List ChangesResponse}
    (hpages : PagesOf maxChanges R (rest.take (rest.length - maxChanges)) pages) {r : ChangesResponse}
    (hc : r.created = (rest.drop (rest.length - maxChanges)).filterMap Change.createdId)
    (hu : r.updated = (rest.drop (rest.length - maxChanges)).filterMap Change.updatedId)
    (hd : r.destroyed = (rest.drop (rest.length - maxChanges)).filterMap Change.destroyedId) :
    PagesOf maxChanges R rest (r :: pages) := by
  obtain ⟨blocks, hpc, hpu, hpd, hperm, hsizes, hlast⟩ := hpages
  refine ⟨rest.drop (rest.length - maxChanges) :: blocks, by simp [hc, hpc], by simp [hu, hpu],
    by simp [hd, hpd], ?_, ?_, ?_⟩
  · -- the page and the blocks after it make up what is left
    have hswap := (List.Perm.append_left (rest.drop (rest.length - maxChanges)) hperm).trans
      List.perm_append_comm
    rwa [List.take_append_drop, ← List.flatten_cons] at hswap
  · intro r' hr'
    rcases List.mem_cons.mp hr' with rfl | hr'
    · rw [hc, hu, hd, length_filterMap_ids, List.length_drop]
      omega
    · exact hsizes r' hr'
  · obtain ⟨x, hx, hxnew⟩ := Option.map_eq_some_iff.mp hlast
    rw [List.getLast?_cons, hx]
    simp [hxnew]

theorem flatMap_eq_filterMap_flatten {pages : List ChangesResponse} {blocks : List (List Change)}
    {f : ChangesResponse → List UInt64} {g : Change → Option UInt64}
    (h : pages.map f = blocks.map (·.filterMap g)) : pages.flatMap f = blocks.flatten.filterMap g := by
  rw [List.flatMap_def, h, List.filterMap_flatten]

theorem PagesOf.perm {maxChanges : ℕ} {R : Changelog} {rest : List Change} {pages : List ChangesResponse}
    (h : PagesOf maxChanges R rest pages) :
    (pages.flatMap ChangesResponse.created).Perm (rest.filterMap Change.createdId) ∧
      (pages.flatMap ChangesResponse.updated).Perm (rest.filterMap Change.updatedId) ∧
      (pages.flatMap ChangesResponse.destroyed).Perm (rest.filterMap Change.destroyedId) := by
  obtain ⟨blocks, hpc, hpu, hpd, hperm, -, -⟩ := h
  rw [flatMap_eq_filterMap_flatten hpc, flatMap_eq_filterMap_flatten hpu, flatMap_eq_filterMap_flatten hpd]
  exact ⟨hperm.filterMap _, hperm.filterMap _, hperm.filterMap _⟩

section Pages

variable {changesMaxResults : ℕ} {logs : Collection → List (UInt64 × List UInt8)} {token : AccessToken}
  {arguments : RequestArguments} {collection : Collection} {m : ℕ}

theorem paginate_last_page (hcoll : collectionOf token arguments = .ok collection) {R : Changelog}
    {s : State} {itemsSent : ℕ} {rest : List Change}
    (hload : loadChangelog (logs collection) s = .ok (some (itemsSent, { R with changes := rest })))
    (hlast : ¬ effectiveMaxChanges changesMaxResults (some m) < rest.length) (fuel : ℕ) :
    ∃ pages, paginate (fun s => changes changesMaxResults logs token ⟨arguments, s, some m⟩) (fuel + 1) s =
        some pages ∧ PagesOf (effectiveMaxChanges changesMaxResults (some m)) R rest pages := by
  have hcall := changes_of_load changesMaxResults hcoll hload (some m)
  obtain ⟨hc, hu, hd⟩ := respond_ids collection s (effectiveMaxChanges changesMaxResults (some m)) itemsSent
    { R with changes := rest }
  have hpage : sentPage (effectiveMaxChanges changesMaxResults (some m)) rest = rest := by
    simp [sentPage, hlast]
  have hr := respond_hasMoreChanges collection s (effectiveMaxChanges changesMaxResults (some m)) itemsSent
    { R with changes := rest }
  have hnew := respond_newState collection s (effectiveMaxChanges changesMaxResults (some m)) itemsSent
    { R with changes := rest }
  simp only [hlast, and_false, decide_false, if_false] at hr hnew
  rw [hpage] at hc hu hd
  exact ⟨_, paginate_last hcall hr fuel, PagesOf.single hc hu hd (by omega) hnew⟩

/-- The run lemma of paging: from a state whose load leaves `itemsSent` changes of
`R` sent, enough calls send the rest, from the back. -/
theorem paginate_from (hcoll : collectionOf token arguments = .ok collection) {R : Changelog}
    (hrange : storeChanges (logs collection) (.rangeInclusive R.fromChangeId R.toChangeId) = some R)
    (hle : R.fromChangeId ≤ R.toChangeId) (hsize : R.changes.length < 2 ^ 64)
    (hm : 0 < effectiveMaxChanges changesMaxResults (some m)) :
    ∀ fuel itemsSent s, loadChangelog (logs collection) s =
        .ok (some (itemsSent, { R with changes := R.changes.take (R.changes.length - itemsSent) })) →
      R.changes.length ≤ itemsSent + (fuel + 1) * effectiveMaxChanges changesMaxResults (some m) →
      itemsSent < R.changes.length →
      ∃ pages, paginate (fun s => changes changesMaxResults logs token ⟨arguments, s, some m⟩) (fuel + 1) s =
          some pages ∧
        PagesOf (effectiveMaxChanges changesMaxResults (some m)) R
          (R.changes.take (R.changes.length - itemsSent)) pages := by
  intro fuel
  induction fuel with
  | zero =>
    intro itemsSent s hload hfuel _
    exact paginate_last_page hcoll hload (by rw [List.length_take]; omega) 0
  | succ fuel ih =>
    intro itemsSent s hload hfuel hsent
    set m' := effectiveMaxChanges changesMaxResults (some m)
    set rest := R.changes.take (R.changes.length - itemsSent) with hrest
    have hlen : rest.length = R.changes.length - itemsSent := by
      rw [hrest, List.length_take]
      omega
    by_cases hmore : m' < rest.length
    · -- a full page from the back, then the pages from the next state
      have hcall := changes_of_load changesMaxResults hcoll hload (some m)
      obtain ⟨hc, hu, hd⟩ := respond_ids collection s m' itemsSent { R with changes := rest }
      have hpage : sentPage m' rest = rest.drop (rest.length - m') := by
        simp [sentPage, hm, hmore]
      have hr := respond_hasMoreChanges collection s m' itemsSent { R with changes := rest }
      have hnew := respond_newState collection s m' itemsSent { R with changes := rest }
      simp only [hm, hmore, and_self, decide_true, if_true] at hr hnew
      have hparse : State.parse (respond collection s m' itemsSent { R with changes := rest }).newState.toBytes =
          some (.intermediate R.fromChangeId R.toChangeId (itemsSent + m')) := by
        rw [hnew]
        exact State.parse_toBytes _ ⟨hle, by omega, by omega⟩
      obtain ⟨pages, hp, hpages⟩ := ih (itemsSent + m') _
        (loadChangelog_intermediate hrange (by omega)) (by rw [Nat.succ_mul] at hfuel; omega) (by omega)
      have htake : R.changes.take (R.changes.length - (itemsSent + m')) = rest.take (rest.length - m') := by
        rw [hrest, List.take_take, hlen]
        congr 1
        omega
      rw [htake] at hpages
      rw [hpage] at hc hu hd
      exact ⟨_, by rw [paginate_more hcall hr hparse, hp]; rfl, PagesOf.cons hpages hc hu hd⟩
    · exact paginate_last_page hcoll hload hmore (fuel + 1)

end Pages

/-- Paging through `/changes` from `Initial` or `Exact` with `maxChanges = m ≥ 1`,
over a sorted log written by `Changes::serialize`: the pages end within one call
per id of the log, each holds at most `m` ids, together they hold the ids of the
unlimited answer, and the last ends in its state. That state is `Exact` of the
log's last change id when the answer has changes, and the starting state when it
has none. -/
theorem paginate_changes (changesMaxResults : ℕ) (logs : Collection → List (UInt64 × List UInt8))
    (token : AccessToken) (arguments : RequestArguments) (collection : Collection)
    (hcoll : collectionOf token arguments = .ok collection) (entries : List (UInt64 × Changes))
    (hlog : logs collection = encodeLog entries) (hsorted : entries.Pairwise fun a b => a.1 < b.1)
    (hsize : idCount entries < 2 ^ 64) (s : State) (hs : s = .initial ∨ ∃ c, s = .exact c)
    (m : ℕ) (hm : 0 < m) :
    ∃ single pages,
      changes changesMaxResults logs token ⟨arguments, s, none⟩ = .ok single ∧
      paginate (fun s' => changes changesMaxResults logs token ⟨arguments, s', some m⟩)
        (idCount entries + 1) s = some pages ∧
      (∀ r ∈ pages, r.created.length + r.updated.length + r.destroyed.length ≤ m) ∧
      (pages.flatMap ChangesResponse.created).Perm single.created ∧
      (pages.flatMap ChangesResponse.updated).Perm single.updated ∧
      (pages.flatMap ChangesResponse.destroyed).Perm single.destroyed ∧
      pages.getLast?.map ChangesResponse.newState = some single.newState ∧
      single.newState = if single.created ++ single.updated ++ single.destroyed = [] then s
        else .exact ((entries.getLast?.map Prod.fst).getD 0) := by
  have hsorted' : Sorted (logs collection) := by
    rw [hlog, Sorted, encodeLog, List.pairwise_map]
    exact hsorted
  obtain ⟨hm'pos, hm'le⟩ := effectiveMaxChanges_some hm changesMaxResults
  obtain ⟨q, hq, hqs⟩ : ∃ q : Query, (q = .all ∨ ∃ c, q = .since c) ∧
      ((s = .initial ∧ q = .all) ∨ ∃ c, s = .exact c ∧ q = .since c) := by
    rcases hs with rfl | ⟨c, rfl⟩
    · exact ⟨.all, Or.inl rfl, Or.inl ⟨rfl, rfl⟩⟩
    · exact ⟨.since c, Or.inr ⟨c, rfl⟩, Or.inr ⟨c, rfl, rfl⟩⟩
  obtain ⟨R, hR, hRlen⟩ := storeChanges_encodeLog entries q
  rw [← hlog] at hR
  by_cases hne : R.changes = []
  · -- the range folds to no change: one page, which keeps the starting state
    rcases hqs with ⟨rfl, rfl⟩ | ⟨c, rfl, rfl⟩
    · have hload : loadChangelog (logs collection) .initial = .ok none := by
        rw [loadChangelog_initial hR, storeChanges_all_of_nil hR hne]
        rfl
      have hcall := changes_of_load changesMaxResults hcoll hload
      refine ⟨_, _, hcall none, paginate_last (hcall (some m)) rfl (idCount entries), ?_⟩
      simp
    · have hload := loadChangelog_exact hR
      rw [storeChanges_since_of_nil hR hne] at hload
      have hcall := changes_of_load changesMaxResults hcoll hload
      refine ⟨_, _, hcall none, paginate_last (hcall (some m)) (by simp [respond]) (idCount entries), ?_⟩
      simp [respond, collect]
  · have hload : loadChangelog (logs collection) s = .ok (some (0, R)) := by
      rcases hqs with ⟨rfl, rfl⟩ | ⟨c, rfl, rfl⟩
      · rw [loadChangelog_initial hR]
        simp [hne]
      · exact loadChangelog_exact hR
    obtain ⟨hle, hrange⟩ := storeChanges_rangeInclusive hsorted' hq hR hne
    have hfull : { R with changes := R.changes.take (R.changes.length - 0) } = R := by simp
    have hfuel := Nat.le_mul_of_pos_right (idCount entries + 1) hm'pos
    obtain ⟨pages, hp, hpages⟩ := paginate_from hcoll hrange hle (by omega) hm'pos (idCount entries) 0 s
      (by rw [hfull]; exact hload) (by omega) (List.length_pos_iff.mpr hne)
    rw [Nat.sub_zero, List.take_length] at hpages
    have hsingle := changes_of_load changesMaxResults hcoll hload none
    rw [effectiveMaxChanges_none] at hsingle
    obtain ⟨hc, hu, hd⟩ := respond_ids collection s 0 0 R
    have hpage : sentPage 0 R.changes = R.changes := by simp [sentPage]
    have hnew : (respond collection s 0 0 R).newState = .exact R.toChangeId := by
      simp [respond_newState]
    obtain ⟨pc, pu, pd⟩ := hpages.perm
    obtain ⟨-, -, -, -, -, hsizes, hlast⟩ := hpages
    refine ⟨_, pages, hsingle, hp, fun r hr => (hsizes r hr).trans hm'le, ?_, ?_, ?_, ?_, ?_⟩
    · rw [hc, hpage]
      exact pc
    · rw [hu, hpage]
      exact pu
    · rw [hd, hpage]
      exact pd
    · rw [hlast, hnew]
    · have hids : (respond collection s 0 0 R).created ++ (respond collection s 0 0 R).updated ++
          (respond collection s 0 0 R).destroyed ≠ [] := by
        intro h
        have hsize := respond_size collection s 0 0 R
        rw [hpage, ← List.length_append, ← List.length_append, h] at hsize
        exact hne (List.length_eq_zero_iff.mp hsize.symm)
      have hlastId : entries.getLast?.map Prod.fst = some R.toChangeId := by
        have hlastLog := storeChanges_toChangeId hsorted' hq hR hne
        rwa [hlog, encodeLog, List.getLast?_map, Option.map_map] at hlastLog
      rw [if_neg hids, hnew, hlastId]
      rfl

/-- Two entries after `Exact 2`, paged one id at a time. -/
theorem paginate_changes_two_entries :
    let entries : List (UInt64 × Changes) :=
      [(3, ⟨[5, 6], [], [], [], by decide, by decide, by decide, by decide, by decide⟩),
        (4, ⟨[], [5], [], [], by decide, by decide, by decide, by decide, by decide⟩)]
    let logs : Collection → List (UInt64 × List UInt8) := fun _ => encodeLog entries
    let token : AccessToken := ⟨fun _ => true, true⟩
    ∃ single pages,
      changes 0 logs token ⟨.email, .exact 2, none⟩ = .ok single ∧
      paginate (fun s' => changes 0 logs token ⟨.email, s', some 1⟩) (idCount entries + 1) (.exact 2) =
        some pages ∧
      (∀ r ∈ pages, r.created.length + r.updated.length + r.destroyed.length ≤ 1) ∧
      (pages.flatMap ChangesResponse.created).Perm single.created ∧
      (pages.flatMap ChangesResponse.updated).Perm single.updated ∧
      (pages.flatMap ChangesResponse.destroyed).Perm single.destroyed ∧
      pages.getLast?.map ChangesResponse.newState = some single.newState ∧
      single.newState = if single.created ++ single.updated ++ single.destroyed = [] then .exact 2
        else .exact ((entries.getLast?.map Prod.fst).getD 0) :=
  paginate_changes 0 _ _ .email .email rfl _ rfl (by decide) (by decide) (.exact 2) (Or.inr ⟨2, rfl⟩)
    1 (by decide)

/-- From `Exact 0`, a log that inserts id 5 at change 1 and deletes it at change 2
folds to no change: the paging ends in `Exact 0`, not in `Exact 2`. -/
theorem paginate_insert_delete_keeps_state :
    let entries : List (UInt64 × Changes) :=
      [(1, ⟨[5], [], [], [], by decide, by decide, by decide, by decide, by decide⟩),
        (2, ⟨[], [], [5], [], by decide, by decide, by decide, by decide, by decide⟩)]
    let logs : Collection → List (UInt64 × List UInt8) := fun _ => encodeLog entries
    let token : AccessToken := ⟨fun _ => true, true⟩
    (paginate (fun s' => changes 0 logs token ⟨.email, s', some 1⟩) (idCount entries + 1) (.exact 0)).map
        (fun pages => pages.getLast?.map ChangesResponse.newState) = some (some (.exact 0)) ∧
      entries.getLast?.map Prod.fst = some 2 := by
  with_unfolding_all decide

end MailServer.Jmap.Changes
