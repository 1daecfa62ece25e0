import MailServer.Store.FtsIndex
import MailServer.Store.Query

/-! # Full-text queries (`Store::fts_query`, `Store::get_postings`)

`get_postings` reads the postings of a list of tokens, each from the store or, for a token the
query names more than once, from a cache filled on its first read. As a union it returns the
documents that hold one of the tokens in its field. As an intersection (an exact phrase) it
keeps the documents of the first token, with the token's positions as candidates, and then
the documents where each later token, at place `i` of the phrase, has a position `i` after
one of the candidates (`mem_getPostings_exact`).

Each later token is checked against the first token's positions on its own, so the tokens
need not follow one and the same occurrence of the first token: over documents indexed by
`fts_index` a document where the phrase is split between two occurrences of its first word
is returned too (`mem_getPostings_ofDocuments`).

`fts_query` is a second copy of the stack machine of `Store::filter`, its leaves read by
`get_postings` with the cache threaded through. The cache holds what the store holds, so a
leaf reads the same whatever the cache (`leafResult_of_cacheInv`), and the loop goes through
the states `Store::filter` goes through on the same list (`queryLoop_eq_filterLoop`): the same
`And` short-circuit, stopping at the first `End` at any depth.
-/

namespace MailServer.Store.FtsQuery

open MailServer.Lib MailServer.Store.Postings MailServer.Store.FtsIndex
open MailServer.Store.Query (Machine State Pass applyOp shortCircuit)

/-- `FtsTokenized`: a filter of the query with its text read into tokens by the tokenizer of its
language, each token of a phrase with the `TokenType` it is looked up with. -/
inductive FtsTokenized (H : Type) where
  | exact (tokens : List (H × UInt8))
  | contains (field : UInt8) (tokens : List (H × Option H))
  | keyword (field : UInt8) (token : H)
  | and
  | or
  | not
  | «end»
  deriving DecidableEq

variable {H : Type}

/-- The tokens a filter adds to `token_count`, once each time it names one. -/
def FtsTokenized.hashes : FtsTokenized H → List H
  | .exact tokens => tokens.map Prod.fst
  | .contains _ tokens => tokens.flatMap fun token => token.1 :: token.2.toList
  | .keyword _ token => [token]
  | .and | .or | .not | .end => []

/-- Whether a filter is `End`. -/
def FtsTokenized.isEnd : FtsTokenized H → Bool
  | .end => true
  | _ => false

/-- The variables of `get_postings` that the visit of a document changes: `result_bm`, the `bm`
of the token being read, and `position_candidates`. -/
structure Scan where
  resultBm : Finset ℕ
  bm : Finset ℕ
  candidates : List (ℕ × List UInt32)

variable [DecidableEq H]

/-- `token_count`. -/
def tokenCount (filters : List (FtsTokenized H)) (token : H) : ℕ :=
  (filters.flatMap FtsTokenized.hashes).count token

/-- The body of both loops of `get_postings` over the documents of a token, the one over the
cached postings and the callback of the one over the store: the visit of one document. -/
def visit (tp : TermIndexPacker) (isIntersect : Bool) (numTokens pos : ℕ) (field : UInt8)
    (s : Scan) (entry : ℕ × List UInt8) : Scan :=
  if hasField entry.2 field then
    if isIntersect then
      if pos = 0 then
        { s with
          candidates :=
            if 1 < numTokens then (entry.1, positions tp entry.2) :: s.candidates else s.candidates
          bm := insert entry.1 s.bm }
      else if (s.candidates.lookup entry.1).any
          (fun candidates => matchesPositions tp entry.2 candidates (UInt32.ofNat pos)) then
        { s with bm := insert entry.1 s.bm }
      else s
    else { s with resultBm := insert entry.1 s.resultBm }
  else s

/-- The postings `get_postings` reads for a token, and the cache after: from the cache for a
token the query names more than once once it is cached, and else from the store, cached when
the query names the token more than once. -/
def fetchPostings (index : FtsIndex H) (tokenCount : H → ℕ)
    (cache : List (H × List (ℕ × List UInt8))) (token : H) :
    List (ℕ × List UInt8) × List (H × List (ℕ × List UInt8)) :=
  if 1 < tokenCount token then
    match cache.lookup token with
    | some entries => (entries, cache)
    | none => ((index.entries token).entries, (token, (index.entries token).entries) :: cache)
  else ((index.entries token).entries, cache)

/-- A result, `None` when it is empty. -/
def nonEmpty (bm : Finset ℕ) : Option (Finset ℕ) := if bm = ∅ then none else some bm

/-- The loop of `get_postings` over the tokens, from the token at `pos`. -/
def postingsLoop (tp : TermIndexPacker) (index : FtsIndex H) (tokenCount : H → ℕ)
    (isIntersect : Bool) (numTokens : ℕ) :
    ℕ → List (H × UInt8) → Scan → List (H × List (ℕ × List UInt8)) →
      Option (Finset ℕ) × List (H × List (ℕ × List UInt8))
  | _, [], s, cache => (nonEmpty s.resultBm, cache)
  | pos, (token, field) :: tokens, s, cache =>
    let (entries, cache) := fetchPostings index tokenCount cache token
    let s := entries.foldl (visit tp isIntersect numTokens pos field) { s with bm := ∅ }
    if isIntersect then
      let resultBm := if pos = 0 then s.bm else s.resultBm ∩ s.bm
      if resultBm = ∅ then (none, cache)
      else postingsLoop tp index tokenCount isIntersect numTokens (pos + 1) tokens
        { s with resultBm } cache
    else postingsLoop tp index tokenCount isIntersect numTokens (pos + 1) tokens s cache

/-- `Store::get_postings`. -/
def getPostings (tp : TermIndexPacker) (index : FtsIndex H) (tokenCount : H → ℕ)
    (cache : List (H × List (ℕ × List UInt8))) (tokens : List (H × UInt8)) (isIntersect : Bool) :
    Option (Finset ℕ) × List (H × List (ℕ × List UInt8)) :=
  postingsLoop tp index tokenCount isIntersect tokens.length 0 tokens ⟨∅, ∅, []⟩ cache

/-- The loop of a `Contains` filter over its words, each read with its stem as a union; an
empty read ends the loop. -/
def containsLoop (tp : TermIndexPacker) (index : FtsIndex H) (tokenCount : H → ℕ) (field : UInt8) :
    Finset ℕ → List (H × List (ℕ × List UInt8)) → List (H × Option H) →
      Option (Finset ℕ) × List (H × List (ℕ × List UInt8))
  | result, cache, [] => (nonEmpty result, cache)
  | result, cache, (token, stemmedToken) :: tokens =>
    match getPostings tp index tokenCount cache
        [(token, TokenType.word field), (stemmedToken.getD token, TokenType.stemmed field)] false with
    | (some b, cache) =>
      if b = ∅ then (nonEmpty result, cache)
      else if result ≠ ∅ then
        if result ∩ b = ∅ then (nonEmpty (result ∩ b), cache)
        else containsLoop tp index tokenCount field (result ∩ b) cache tokens
      else containsLoop tp index tokenCount field b cache tokens
    | (none, cache) => (nonEmpty result, cache)

/-- The result of a leaf filter of `fts_query`, and the cache after. -/
def leafResult (tp : TermIndexPacker) (index : FtsIndex H) (tokenCount : H → ℕ)
    (cache : List (H × List (ℕ × List UInt8))) :
    FtsTokenized H → Option (Finset ℕ) × List (H × List (ℕ × List UInt8))
  | .exact tokens => getPostings tp index tokenCount cache tokens true
  | .contains field tokens => containsLoop tp index tokenCount field ∅ cache tokens
  | .keyword field token => getPostings tp index tokenCount cache [(token, TokenType.word field)] false
  | .and | .or | .not | .end => (none, cache)

/-! ## The loop of `fts_query` -/

section Loop

variable {α C : Type} [DecidableEq α]

/-- The first half of a pass of the loop of `fts_query`; a leaf is read by `readLeaf`, with the
cache `c`. -/
def readFilter (readLeaf : C → FtsTokenized H → Option (Finset α) × C) (m : Machine α) (c : C) :
    FtsTokenized H → Pass α × C
  | .and => (.next { m with stack := m.state :: m.stack, state := ⟨.and, none⟩ }, c)
  | .or => (.next { m with stack := m.state :: m.stack, state := ⟨.or, none⟩ }, c)
  | .not => (.next { m with stack := m.state :: m.stack, state := ⟨.not, none⟩ }, c)
  | .end =>
    match m.stack with
    | prevState :: stack => (.result m.state.bm { m with state := prevState, stack }, c)
    | [] => (.stop, c)
  | leaf =>
    let (result, c) := readLeaf c leaf
    (.result result m, c)

/-- The second half of a pass: fetch the document ids the first time a `Not` needs them, then
apply the result. -/
def applyResult (documentIds : Option (Finset α)) (result : Option (Finset α)) (m : Machine α) :
    Machine α :=
  let m := if m.state.op = .not ∧ m.notFetch = false then
      { m with notMask := documentIds.getD ∅, notFetch := true }
    else m
  { m with state := { m.state with bm := applyOp m.notMask m.state.op m.state.bm result } }

/-- The loop of `fts_query`. -/
def queryLoop (documentIds : Option (Finset α)) (readLeaf : C → FtsTokenized H → Option (Finset α) × C)
    (filters : List (FtsTokenized H)) (m : Machine α) (c : C) : Machine α × C :=
  match filters with
  | [] => (m, c)
  | filter :: filters =>
    match readFilter readLeaf m c filter with
    | (.stop, c) => (m, c)
    | (.next m, c) => queryLoop documentIds readLeaf filters m c
    | (.result result m, c) =>
      let m := applyResult documentIds result m
      if shortCircuit m then queryLoop documentIds readLeaf (filters.dropWhile fun f => !f.isEnd) m c
      else queryLoop documentIds readLeaf filters m c
termination_by filters.length
decreasing_by
  all_goals simp only [List.length_cons]
  all_goals first
    | exact Nat.lt_succ_self _
    | exact Nat.lt_succ_of_le (List.length_dropWhile_le _ _)

end Loop

/-- `Store::fts_query`, over the index of a collection and its document ids. -/
def ftsQuery (tp : TermIndexPacker) (index : FtsIndex H) (documentIds : Option (Finset ℕ))
    (filters : List (FtsTokenized H)) : Finset ℕ :=
  ((queryLoop documentIds (leafResult tp index (tokenCount filters)) filters Machine.init []).1.state.bm).getD ∅

/-! ## The cache -/

section Cache

variable {index : FtsIndex H} {tokenCount : H → ℕ} {cache : List (H × List (ℕ × List UInt8))}

/-- The cache holds, for each token it has, the postings the store holds. -/
def CacheInv (index : FtsIndex H) (cache : List (H × List (ℕ × List UInt8))) : Prop :=
  ∀ token entries, cache.lookup token = some entries → entries = (index.entries token).entries

theorem cacheInv_nil (index : FtsIndex H) : CacheInv index [] := by
  intro token entries h
  cases h

/-- Whichever way a token is read, its postings are the store's, and the cache still holds
what the store holds. -/
theorem fetchPostings_spec (hcache : CacheInv index cache) (token : H) :
    (fetchPostings index tokenCount cache token).1 = (index.entries token).entries ∧
      CacheInv index (fetchPostings index tokenCount cache token).2 := by
  unfold fetchPostings
  split_ifs
  · cases hlook : cache.lookup token with
    | some entries => exact ⟨hcache token entries hlook, hcache⟩
    | none =>
      refine ⟨rfl, fun t entries ht => ?_⟩
      by_cases htok : t = token
      · subst htok
        simp only [List.lookup_cons_self, Option.some.injEq] at ht
        exact ht.symm
      · have hb : (t == token) = false := beq_eq_false_iff_ne.mpr htok
        simp only [List.lookup_cons, hb] at ht
        exact hcache t entries ht
  · exact ⟨rfl, hcache⟩

end Cache

/-! ## The visits of a token's documents -/

/-- The positions of a token in a document that holds it in its field: what
`position_candidates` keeps for the document after the first token of a phrase. -/
def anchorPositions (tp : TermIndexPacker) (entries : List (ℕ × List UInt8)) (field : UInt8)
    (d : ℕ) : Option (List UInt32) :=
  match entries.lookup d with
  | some bytes => if hasField bytes field then some (positions tp bytes) else none
  | none => none

section Visit

variable {tp : TermIndexPacker} {numTokens pos : ℕ} {field : UInt8}

theorem visit_union (s : Scan) (entry : ℕ × List UInt8) :
    visit tp false numTokens pos field s entry =
      if hasField entry.2 field then { s with resultBm := insert entry.1 s.resultBm } else s := by
  simp [visit]

theorem visit_first (s : Scan) (entry : ℕ × List UInt8) :
    visit tp true numTokens 0 field s entry =
      if hasField entry.2 field then
        { s with
          candidates :=
            if 1 < numTokens then (entry.1, positions tp entry.2) :: s.candidates else s.candidates
          bm := insert entry.1 s.bm }
      else s := by
  simp [visit]

theorem visit_later (hpos : pos ≠ 0) (s : Scan) (entry : ℕ × List UInt8) :
    visit tp true numTokens pos field s entry =
      if hasField entry.2 field ∧ (s.candidates.lookup entry.1).any
          (fun candidates => matchesPositions tp entry.2 candidates (UInt32.ofNat pos)) then
        { s with bm := insert entry.1 s.bm }
      else s := by
  by_cases hf : hasField entry.2 field <;> simp [visit, hpos, hf]

theorem mem_foldl_visit_union (entries : List (ℕ × List UInt8)) (s : Scan) (d : ℕ) :
    d ∈ (entries.foldl (visit tp false numTokens pos field) s).resultBm ↔
      d ∈ s.resultBm ∨ ∃ bytes, (d, bytes) ∈ entries ∧ hasField bytes field = true := by
  induction entries generalizing s with
  | nil => simp
  | cons entry entries ih =>
    obtain ⟨d', bytes'⟩ := entry
    rw [List.foldl_cons, ih, visit_union]
    by_cases hf : hasField bytes' field = true
    · simp only [hf, if_true, Finset.mem_insert, List.mem_cons, Prod.mk.injEq]
      grind
    · simp only [hf, List.mem_cons, Prod.mk.injEq]
      grind

theorem foldl_visit_first (entries : List (ℕ × List UInt8)) (s : Scan) :
    (entries.foldl (visit tp true numTokens 0 field) s).resultBm = s.resultBm ∧
      ∀ d, d ∈ (entries.foldl (visit tp true numTokens 0 field) s).bm ↔
        d ∈ s.bm ∨ ∃ bytes, (d, bytes) ∈ entries ∧ hasField bytes field = true := by
  induction entries generalizing s with
  | nil => simp
  | cons entry entries ih =>
    obtain ⟨d', bytes'⟩ := entry
    obtain ⟨hres, hbm⟩ := ih (visit tp true numTokens 0 field s (d', bytes'))
    have hv := @visit_first tp numTokens field s (d', bytes')
    rw [List.foldl_cons]
    by_cases hf : hasField bytes' field = true
    · rw [if_pos hf] at hv
      rw [hv] at hres hbm ⊢
      refine ⟨hres, fun d => ?_⟩
      rw [hbm]
      simp only [Finset.mem_insert, List.mem_cons, Prod.mk.injEq]
      grind
    · rw [if_neg hf] at hv
      rw [hv] at hres hbm ⊢
      refine ⟨hres, fun d => ?_⟩
      rw [hbm]
      simp only [List.mem_cons, Prod.mk.injEq]
      grind

/-- After the first token of a phrase of more than one token, the candidates of a document are
the token's positions in it, when it holds the token in its field. -/
theorem lookup_foldl_visit_first (hn : 1 < numTokens) (entries : List (ℕ × List UInt8))
    (hsorted : entries.Pairwise fun a b => a.1 < b.1) (s : Scan) (d : ℕ) :
    (entries.foldl (visit tp true numTokens 0 field) s).candidates.lookup d =
      (anchorPositions tp entries field d).or (s.candidates.lookup d) := by
  induction entries generalizing s with
  | nil => simp [anchorPositions]
  | cons entry entries ih =>
    obtain ⟨d', bytes'⟩ := entry
    rw [List.pairwise_cons] at hsorted
    rw [List.foldl_cons, ih hsorted.2]
    by_cases hd : d = d'
    · -- the later documents have larger ids: only this one sets the candidates of `d`
      subst hd
      have hlater : entries.lookup d = none :=
        SortedMap.lookup_eq_none_of_lt fun a ha => hsorted.1 a ha
      by_cases hf : hasField bytes' field = true <;> simp [anchorPositions, hlater, visit_first, hf, hn]
    · have hb : (d == d') = false := beq_eq_false_iff_ne.mpr hd
      by_cases hf : hasField bytes' field = true <;>
        simp [anchorPositions, visit_first, hf, hn, List.lookup_cons, hb]

/-- A later token of a phrase keeps the documents that hold it in its field at its place
after one of the candidates. -/
theorem foldl_visit_later (hpos : pos ≠ 0) (entries : List (ℕ × List UInt8)) (s : Scan) :
    (entries.foldl (visit tp true numTokens pos field) s).resultBm = s.resultBm ∧
      (entries.foldl (visit tp true numTokens pos field) s).candidates = s.candidates ∧
      ∀ d, d ∈ (entries.foldl (visit tp true numTokens pos field) s).bm ↔
        d ∈ s.bm ∨ ∃ bytes, (d, bytes) ∈ entries ∧ hasField bytes field = true ∧
          (s.candidates.lookup d).any
            (fun candidates => matchesPositions tp bytes candidates (UInt32.ofNat pos)) = true := by
  induction entries generalizing s with
  | nil => simp
  | cons entry entries ih =>
    obtain ⟨d', bytes'⟩ := entry
    obtain ⟨hres, hcand, hbm⟩ := ih (visit tp true numTokens pos field s (d', bytes'))
    have hv := @visit_later tp numTokens _ field hpos s (d', bytes')
    rw [List.foldl_cons]
    by_cases hkeep : hasField bytes' field = true ∧ (s.candidates.lookup d').any
        (fun candidates => matchesPositions tp bytes' candidates (UInt32.ofNat pos)) = true
    · rw [if_pos hkeep] at hv
      rw [hv] at hres hcand hbm ⊢
      refine ⟨hres, hcand, fun d => ?_⟩
      rw [hbm]
      simp only [Finset.mem_insert, List.mem_cons, Prod.mk.injEq]
      grind
    · rw [if_neg hkeep] at hv
      rw [hv] at hres hcand hbm ⊢
      refine ⟨hres, hcand, fun d => ?_⟩
      rw [hbm]
      simp only [List.mem_cons, Prod.mk.injEq]
      grind

end Visit

/-! ## `get_postings` -/

/-- What `get_postings` checks of the token at `pos` of a phrase in document `d`: the document
holds it in its field, at `pos` after one of the candidates, the positions of the first token
`t0` where the document holds it in its field `f0`. -/
def Follows (tp : TermIndexPacker) (index : FtsIndex H) (t0 : H) (f0 : UInt8) (pos : ℕ) (token : H)
    (field : UInt8) (d : ℕ) : Prop :=
  ∃ bytes, (index.entries token).entries.lookup d = some bytes ∧ hasField bytes field = true ∧
    (anchorPositions tp (index.entries t0).entries f0 d).any
      (fun candidates => matchesPositions tp bytes candidates (UInt32.ofNat pos)) = true

/-- Every token of the phrase from `pos` on follows the first in document `d`. -/
def FollowsAll (tp : TermIndexPacker) (index : FtsIndex H) (t0 : H) (f0 : UInt8) :
    ℕ → List (H × UInt8) → ℕ → Prop
  | _, [], _ => True
  | pos, (token, field) :: tokens, d =>
    Follows tp index t0 f0 pos token field d ∧ FollowsAll tp index t0 f0 (pos + 1) tokens d

section GetPostings

variable {tp : TermIndexPacker} {index : FtsIndex H} {tokenCount : H → ℕ} {numTokens : ℕ}

theorem isSome_anchorPositions_iff (entries : SortedMap ℕ (List UInt8)) (field : UInt8) (d : ℕ) :
    (anchorPositions tp entries.entries field d).isSome ↔
      ∃ bytes, (d, bytes) ∈ entries.entries ∧ hasField bytes field = true := by
  simp only [← SortedMap.lookup_eq_some_iff_mem, anchorPositions]
  cases entries.entries.lookup d with
  | none => simp
  | some bytes => by_cases hf : hasField bytes field = true <;> simp [hf]

theorem getD_nonEmpty (bm : Finset ℕ) : (nonEmpty bm).getD ∅ = bm := by
  unfold nonEmpty
  split_ifs with h
  · exact h.symm
  · rfl

/-- The later tokens of a phrase, from `pos` on: a document is returned when it is in the
result so far and every token follows the first in it. -/
theorem mem_postingsLoop_later {t0 : H} {f0 : UInt8} (tokens : List (H × UInt8)) :
    ∀ {pos : ℕ} {s : Scan} {cache : List (H × List (ℕ × List UInt8))}, CacheInv index cache →
      0 < pos → (tokens ≠ [] → ∀ d, s.candidates.lookup d = anchorPositions tp (index.entries t0).entries f0 d) →
      ∀ d, d ∈ ((postingsLoop tp index tokenCount true numTokens pos tokens s cache).1).getD ∅ ↔
        d ∈ s.resultBm ∧ FollowsAll tp index t0 f0 pos tokens d := by
  induction tokens with
  | nil =>
    intro pos s cache _ _ _ d
    simp [postingsLoop, FollowsAll, getD_nonEmpty]
  | cons token tokens ih =>
    obtain ⟨token, field⟩ := token
    intro pos s cache hcache hpos hcand d
    have hcand' := hcand (List.cons_ne_nil _ _)
    have hpos' : pos ≠ 0 := Nat.pos_iff_ne_zero.mp hpos
    obtain ⟨hentries, hcache'⟩ := @fetchPostings_spec _ _ _ tokenCount _ hcache token
    obtain ⟨hres, hcands, hbm⟩ := @foldl_visit_later tp numTokens _ field hpos'
      (index.entries token).entries { s with bm := ∅ }
    have hkeep : ∀ d, d ∈ ((index.entries token).entries.foldl (visit tp true numTokens pos field)
        { s with bm := ∅ }).bm ↔ Follows tp index t0 f0 pos token field d := by
      intro d
      rw [hbm]
      simp only [Finset.notMem_empty, false_or, hcand' d, Follows, SortedMap.lookup_eq_some_iff_mem]
    simp only [postingsLoop]
    generalize fetchPostings index tokenCount cache token = fetched at hentries hcache' ⊢
    obtain ⟨entries, cache'⟩ := fetched
    dsimp only at hentries hcache' ⊢
    subst hentries
    rw [if_pos trivial, if_neg hpos']
    split_ifs with hempty
    · -- no document is left
      simp only [Option.getD_none, Finset.notMem_empty, false_iff, not_and, FollowsAll]
      intro hd hfollows _
      have hin := Finset.mem_inter.mpr ⟨hres ▸ hd, (hkeep d).mpr hfollows⟩
      rw [hempty] at hin
      exact Finset.notMem_empty d hin
    · rw [ih hcache' (Nat.succ_pos pos) (fun _ d => by rw [hcands]; exact hcand' d)]
      simp only [Finset.mem_inter, hres, hkeep, FollowsAll, and_assoc]

/-- An exact phrase: a document is returned when it holds the first token in its field and
every later token follows the first in it. -/
theorem mem_getPostings_exact {cache : List (H × List (ℕ × List UInt8))} (hcache : CacheInv index cache)
    (t0 : H) (f0 : UInt8) (tokens : List (H × UInt8)) (d : ℕ) :
    d ∈ ((getPostings tp index tokenCount cache ((t0, f0) :: tokens) true).1).getD ∅ ↔
      (anchorPositions tp (index.entries t0).entries f0 d).isSome ∧
        FollowsAll tp index t0 f0 1 tokens d := by
  obtain ⟨hentries, hcache'⟩ := @fetchPostings_spec _ _ _ tokenCount _ hcache t0
  obtain ⟨-, hbm⟩ := @foldl_visit_first tp (tokens.length + 1) f0
    (index.entries t0).entries ⟨∅, ∅, []⟩
  have hanchor : ∀ d, d ∈ ((index.entries t0).entries.foldl (visit tp true (tokens.length + 1) 0 f0)
      ⟨∅, ∅, []⟩).bm ↔ (anchorPositions tp (index.entries t0).entries f0 d).isSome := by
    intro d
    rw [hbm, isSome_anchorPositions_iff]
    simp
  unfold getPostings
  simp only [postingsLoop, List.length_cons]
  generalize fetchPostings index tokenCount cache t0 = fetched at hentries hcache' ⊢
  obtain ⟨entries, cache'⟩ := fetched
  dsimp only at hentries hcache' ⊢
  subst hentries
  simp only [if_true]
  split_ifs with hempty
  · simp only [Option.getD_none, Finset.notMem_empty, false_iff, not_and]
    intro hsome _
    have hin := (hanchor d).mpr hsome
    rw [hempty] at hin
    exact Finset.notMem_empty d hin
  · rw [mem_postingsLoop_later tokens hcache' Nat.one_pos (fun hne d => ?_), hanchor]
    have hn : 1 < tokens.length + 1 := Nat.succ_lt_succ (List.length_pos_of_ne_nil hne)
    rw [lookup_foldl_visit_first hn _ (index.entries t0).sorted]
    simp

theorem cacheInv_postingsLoop (isIntersect : Bool) (tokens : List (H × UInt8)) :
    ∀ {pos : ℕ} {s : Scan} {cache : List (H × List (ℕ × List UInt8))}, CacheInv index cache →
      CacheInv index (postingsLoop tp index tokenCount isIntersect numTokens pos tokens s cache).2 := by
  induction tokens with
  | nil => intro pos s cache hcache; exact hcache
  | cons token tokens ih =>
    obtain ⟨token, field⟩ := token
    intro pos s cache hcache
    obtain ⟨-, hcache'⟩ := @fetchPostings_spec _ _ _ tokenCount _ hcache token
    simp only [postingsLoop]
    generalize fetchPostings index tokenCount cache token = fetched at hcache' ⊢
    obtain ⟨entries, cache'⟩ := fetched
    dsimp only at hcache' ⊢
    split_ifs <;> first | exact hcache' | exact ih hcache'

/-- Two runs over caches that hold what the store holds return the same: the cache saves reads
and changes no result. -/
theorem postingsLoop_congr {tokenCount' : H → ℕ} (isIntersect : Bool) (tokens : List (H × UInt8)) :
    ∀ {pos : ℕ} {s : Scan} {cache cache' : List (H × List (ℕ × List UInt8))},
      CacheInv index cache → CacheInv index cache' →
      (postingsLoop tp index tokenCount isIntersect numTokens pos tokens s cache).1 =
        (postingsLoop tp index tokenCount' isIntersect numTokens pos tokens s cache').1 := by
  induction tokens with
  | nil => intro pos s cache cache' _ _; rfl
  | cons token tokens ih =>
    obtain ⟨token, field⟩ := token
    intro pos s cache cache' hcache hcache'
    obtain ⟨hentries, hnext⟩ := @fetchPostings_spec _ _ _ tokenCount _ hcache token
    obtain ⟨hentries', hnext'⟩ := @fetchPostings_spec _ _ _ tokenCount' _ hcache' token
    simp only [postingsLoop]
    generalize fetchPostings index tokenCount cache token = fetched at hentries hnext ⊢
    generalize fetchPostings index tokenCount' cache' token = fetched' at hentries' hnext' ⊢
    obtain ⟨entries, next⟩ := fetched
    obtain ⟨entries', next'⟩ := fetched'
    dsimp only at hentries hnext hentries' hnext' ⊢
    subst hentries hentries'
    split_ifs <;> first | rfl | exact ih hnext hnext'

theorem cacheInv_getPostings {cache : List (H × List (ℕ × List UInt8))} (hcache : CacheInv index cache)
    (tokens : List (H × UInt8)) (isIntersect : Bool) :
    CacheInv index (getPostings tp index tokenCount cache tokens isIntersect).2 :=
  cacheInv_postingsLoop isIntersect tokens hcache

theorem getPostings_congr {tokenCount' : H → ℕ} {cache cache' : List (H × List (ℕ × List UInt8))}
    (hcache : CacheInv index cache) (hcache' : CacheInv index cache') (tokens : List (H × UInt8))
    (isIntersect : Bool) :
    (getPostings tp index tokenCount cache tokens isIntersect).1 =
      (getPostings tp index tokenCount' cache' tokens isIntersect).1 :=
  postingsLoop_congr isIntersect tokens hcache hcache'

theorem cacheInv_containsLoop (field : UInt8) (tokens : List (H × Option H)) :
    ∀ {result : Finset ℕ} {cache : List (H × List (ℕ × List UInt8))}, CacheInv index cache →
      CacheInv index (containsLoop tp index tokenCount field result cache tokens).2 := by
  induction tokens with
  | nil => intro result cache hcache; exact hcache
  | cons token tokens ih =>
    obtain ⟨token, stemmedToken⟩ := token
    intro result cache hcache
    have hnext := @cacheInv_getPostings _ _ tp _ tokenCount _ hcache
      [(token, TokenType.word field), (stemmedToken.getD token, TokenType.stemmed field)] false
    rw [containsLoop]
    generalize getPostings tp index tokenCount cache
      [(token, TokenType.word field), (stemmedToken.getD token, TokenType.stemmed field)] false =
        fetched at hnext ⊢
    obtain ⟨result', cache'⟩ := fetched
    cases result' with
    | none => exact hnext
    | some b =>
      dsimp only
      split_ifs <;> first | exact hnext | exact ih hnext

theorem containsLoop_congr {tokenCount' : H → ℕ} (field : UInt8) (tokens : List (H × Option H)) :
    ∀ {result : Finset ℕ} {cache cache' : List (H × List (ℕ × List UInt8))},
      CacheInv index cache → CacheInv index cache' →
      (containsLoop tp index tokenCount field result cache tokens).1 =
        (containsLoop tp index tokenCount' field result cache' tokens).1 := by
  induction tokens with
  | nil => intro result cache cache' _ _; rfl
  | cons token tokens ih =>
    obtain ⟨token, stemmedToken⟩ := token
    intro result cache cache' hcache hcache'
    have hsame := @getPostings_congr _ _ tp _ tokenCount tokenCount' _ _
      hcache hcache' [(token, TokenType.word field), (stemmedToken.getD token, TokenType.stemmed field)] false
    have hnext := @cacheInv_getPostings _ _ tp _ tokenCount _ hcache
      [(token, TokenType.word field), (stemmedToken.getD token, TokenType.stemmed field)] false
    have hnext' := @cacheInv_getPostings _ _ tp _ tokenCount' _ hcache'
      [(token, TokenType.word field), (stemmedToken.getD token, TokenType.stemmed field)] false
    rw [containsLoop, containsLoop]
    generalize getPostings tp index tokenCount cache
      [(token, TokenType.word field), (stemmedToken.getD token, TokenType.stemmed field)] false =
        fetched at hsame hnext ⊢
    generalize getPostings tp index tokenCount' cache'
      [(token, TokenType.word field), (stemmedToken.getD token, TokenType.stemmed field)] false =
        fetched' at hsame hnext' ⊢
    obtain ⟨result₁, next⟩ := fetched
    obtain ⟨result₂, next'⟩ := fetched'
    dsimp only at hsame
    subst hsame
    cases result₁ with
    | none => rfl
    | some b =>
      dsimp only
      split_ifs <;> first | rfl | exact ih hnext hnext'

theorem cacheInv_leafResult {cache : List (H × List (ℕ × List UInt8))} (hcache : CacheInv index cache)
    (leaf : FtsTokenized H) : CacheInv index (leafResult tp index tokenCount cache leaf).2 := by
  cases leaf with
  | exact tokens => exact cacheInv_getPostings hcache tokens true
  | contains field tokens => exact cacheInv_containsLoop field tokens hcache
  | keyword field token => exact cacheInv_getPostings hcache _ false
  | and | or | not | «end» => exact hcache

/-- What a leaf filter returns, whatever the cache it is read with: its result read from the
store alone. -/
def leafValue (tp : TermIndexPacker) (index : FtsIndex H) (leaf : FtsTokenized H) : Option (Finset ℕ) :=
  (leafResult tp index (fun _ => 0) [] leaf).1

theorem leafResult_of_cacheInv {cache : List (H × List (ℕ × List UInt8))} (hcache : CacheInv index cache)
    (leaf : FtsTokenized H) : (leafResult tp index tokenCount cache leaf).1 = leafValue tp index leaf := by
  cases leaf with
  | exact tokens => exact getPostings_congr hcache (cacheInv_nil index) tokens true
  | contains field tokens => exact containsLoop_congr field tokens hcache (cacheInv_nil index)
  | keyword field token => exact getPostings_congr hcache (cacheInv_nil index) _ false
  | and | or | not | «end» => rfl

theorem leafValue_keyword (tp : TermIndexPacker) (index : FtsIndex H) (field : UInt8) (token : H) :
    leafValue tp index (.keyword field token) =
      nonEmpty (((index.entries token).entries.filter fun entry =>
        hasField entry.2 (TokenType.word field)).map Prod.fst).toFinset := by
  have hfetch : fetchPostings index (fun _ => 0) [] token = ((index.entries token).entries, []) := rfl
  simp only [leafValue, leafResult, getPostings, postingsLoop, hfetch, List.length_singleton]
  rw [if_neg Bool.false_ne_true]
  change nonEmpty _ = nonEmpty _
  congr 1
  ext d
  rw [mem_foldl_visit_union]
  simp

end GetPostings

/-! ## Phrases over indexed documents -/

/-- The later tokens of a phrase as `get_postings` reads them in a document's token map `m`, from
`pos` on: each token is in the map with its field, at its place after some position of the first
token's postings `p0`. -/
def FollowsIn (m : List (H × Postings)) (p0 : Postings) : ℕ → List (H × UInt8) → Prop
  | _, [] => True
  | pos, (token, field) :: phrase =>
    (∃ p, m.lookup token = some p ∧ field ∈ p.fields ∧
      ∃ q ∈ p0.postings, q + UInt32.ofNat pos ∈ p.postings) ∧
    FollowsIn m p0 (pos + 1) phrase

section Documents

variable {tp : TermIndexPacker} {tokenCount : H → ℕ} {documents : List (ℕ × List (FtsIndex.Part H))}
  {hsorted : documents.Pairwise fun a b => a.1 < b.1}

/-- The candidates of an indexed document are the first token's positions in it, when the
document holds the token in its field. -/
theorem anchorPositions_ofDocuments (htp : tp.Lawful)
    (hfields : ∀ document ∈ documents, ∀ part ∈ document.2, part.field < 127)
    (hlen : ∀ document ∈ documents, (wordStream document.2).length ≤ 2 ^ 32) (t0 : H) (f0 : UInt8)
    {d : ℕ} {parts : List (FtsIndex.Part H)} (hd : documents.lookup d = some parts) :
    anchorPositions tp ((FtsIndex.ofDocuments tp documents hsorted).entries t0).entries f0 d =
      ((ftsIndexTokens parts).lookup t0).bind fun p0 =>
        if f0 ∈ p0.fields then some p0.postings else none := by
  have hmem := (SortedMap.lookup_eq_some_iff_mem_of_sorted hsorted).mp hd
  unfold anchorPositions
  rw [lookup_ofDocuments, hd, Option.bind_some]
  cases hp : (ftsIndexTokens parts).lookup t0 with
  | none => rfl
  | some p0 =>
    have hsep := noSeparator_ftsIndexTokens (hfields _ hmem) t0 p0 hp
    simp only [Option.map_some, Option.bind_some]
    rw [hasField_serialize p0 hsep, positions_serialize htp p0 hsep (pairwise_postings (hlen _ hmem) hp)]
    by_cases hf : f0 ∈ p0.fields <;> simp [hf]

/-- A later token follows the first in an indexed document when the document holds it in its
field at its place after some position of the first. -/
theorem follows_ofDocuments_iff (htp : tp.Lawful)
    (hfields : ∀ document ∈ documents, ∀ part ∈ document.2, part.field < 127)
    (hlen : ∀ document ∈ documents, (wordStream document.2).length ≤ 2 ^ 32)
    {d : ℕ} {parts : List (FtsIndex.Part H)} (hd : documents.lookup d = some parts) {t0 : H} {f0 : UInt8}
    {p0 : Postings} (hp0 : (ftsIndexTokens parts).lookup t0 = some p0) (hf0 : f0 ∈ p0.fields)
    {pos : ℕ} (hpos : (wordStream parts).length + pos ≤ 2 ^ 32) (token : H) (field : UInt8) :
    Follows tp (FtsIndex.ofDocuments tp documents hsorted) t0 f0 pos token field d ↔
      ∃ p, (ftsIndexTokens parts).lookup token = some p ∧ field ∈ p.fields ∧
        ∃ q ∈ p0.postings, q + UInt32.ofNat pos ∈ p.postings := by
  have hmem := (SortedMap.lookup_eq_some_iff_mem_of_sorted hsorted).mp hd
  have hsorted0 := pairwise_postings (hlen _ hmem) hp0
  have hk : ∀ q ∈ p0.postings, q.toNat + (UInt32.ofNat pos).toNat < 2 ^ 32 := by
    intro q hq
    have hq' := toNat_lt_of_mem_postings hp0 hq
    have hpos' : (UInt32.ofNat pos).toNat ≤ pos := by
      rw [UInt32.toNat_ofNat']
      exact Nat.mod_le _ _
    omega
  unfold Follows
  rw [anchorPositions_ofDocuments htp hfields hlen t0 f0 hd, hp0, Option.bind_some, if_pos hf0,
    lookup_ofDocuments, hd, Option.bind_some]
  constructor
  · rintro ⟨bytes, hbytes, hfield, hmatch⟩
    obtain ⟨p, hp, rfl⟩ := Option.map_eq_some_iff.mp hbytes
    have hsep := noSeparator_ftsIndexTokens (hfields _ hmem) token p hp
    rw [hasField_serialize p hsep, decide_eq_true_iff] at hfield
    rw [Option.any_some, matchesPositions_serialize htp p hsep (pairwise_postings (hlen _ hmem) hp)
      _ _ (hsorted0.imp UInt32.le_of_lt) hk] at hmatch
    exact ⟨p, hp, hfield, hmatch⟩
  · rintro ⟨p, hp, hfield, hmatch⟩
    have hsep := noSeparator_ftsIndexTokens (hfields _ hmem) token p hp
    refine ⟨p.serialize tp, by rw [hp]; rfl, by rw [hasField_serialize p hsep, decide_eq_true_iff]; exact hfield, ?_⟩
    rw [Option.any_some, matchesPositions_serialize htp p hsep (pairwise_postings (hlen _ hmem) hp)
      _ _ (hsorted0.imp UInt32.le_of_lt) hk]
    exact hmatch

theorem followsAll_ofDocuments_iff (htp : tp.Lawful)
    (hfields : ∀ document ∈ documents, ∀ part ∈ document.2, part.field < 127)
    (hlen : ∀ document ∈ documents, (wordStream document.2).length ≤ 2 ^ 32)
    {d : ℕ} {parts : List (FtsIndex.Part H)} (hd : documents.lookup d = some parts) {t0 : H} {f0 : UInt8}
    {p0 : Postings} (hp0 : (ftsIndexTokens parts).lookup t0 = some p0) (hf0 : f0 ∈ p0.fields)
    (phrase : List (H × UInt8)) :
    ∀ {pos : ℕ}, (wordStream parts).length + pos + phrase.length ≤ 2 ^ 32 + 1 →
      (FollowsAll tp (FtsIndex.ofDocuments tp documents hsorted) t0 f0 pos phrase d ↔
        FollowsIn (ftsIndexTokens parts) p0 pos phrase) := by
  induction phrase with
  | nil => intro pos _; exact Iff.rfl
  | cons token phrase ih =>
    obtain ⟨token, field⟩ := token
    intro pos hbound
    rw [FollowsAll, FollowsIn, follows_ofDocuments_iff htp hfields hlen hd hp0 hf0
      (by simp only [List.length_cons] at hbound; omega), ih (by simp only [List.length_cons] at hbound; omega)]

/-- Over documents indexed by `fts_index`, an exact phrase returns the documents that hold its
first token in its field and every later token in its field, at its place after some position of
the first: not necessarily after the same one. -/
theorem mem_getPostings_ofDocuments (htp : tp.Lawful)
    (hfields : ∀ document ∈ documents, ∀ part ∈ document.2, part.field < 127)
    {t0 : H} {f0 : UInt8} {phrase : List (H × UInt8)}
    (hlen : ∀ document ∈ documents, (wordStream document.2).length + phrase.length ≤ 2 ^ 32)
    {cache : List (H × List (ℕ × List UInt8))}
    (hcache : CacheInv (FtsIndex.ofDocuments tp documents hsorted) cache) (d : ℕ) :
    d ∈ ((getPostings tp (FtsIndex.ofDocuments tp documents hsorted) tokenCount cache
        ((t0, f0) :: phrase) true).1).getD ∅ ↔
      ∃ parts, documents.lookup d = some parts ∧ ∃ p0, (ftsIndexTokens parts).lookup t0 = some p0 ∧
        f0 ∈ p0.fields ∧ FollowsIn (ftsIndexTokens parts) p0 1 phrase := by
  have hlen' : ∀ document ∈ documents, (wordStream document.2).length ≤ 2 ^ 32 :=
    fun document h => Nat.le_of_add_right_le (hlen document h)
  rw [mem_getPostings_exact hcache]
  cases hd : documents.lookup d with
  | none => simp [anchorPositions, lookup_ofDocuments, hd]
  | some parts =>
    have hmem := (SortedMap.lookup_eq_some_iff_mem_of_sorted hsorted).mp hd
    rw [anchorPositions_ofDocuments htp hfields hlen' t0 f0 hd]
    cases hp0 : (ftsIndexTokens parts).lookup t0 with
    | none => simp [hp0]
    | some p0 =>
      by_cases hf0 : f0 ∈ p0.fields
      · have hbound := hlen _ hmem
        dsimp only at hbound
        rw [Option.bind_some, if_pos hf0,
          followsAll_ofDocuments_iff htp hfields hlen' hd hp0 hf0 phrase (by omega)]
        simp [hp0, hf0]
      · simp [hp0, hf0]

end Documents

/-! ## Queries -/

theorem ftsQuery_exact (tp : TermIndexPacker) (index : FtsIndex H) (documentIds : Option (Finset ℕ))
    (tokens : List (H × UInt8)) :
    ftsQuery tp index documentIds [.exact tokens] =
      ((getPostings tp index (tokenCount [.exact tokens]) [] tokens true).1).getD ∅ := by
  unfold ftsQuery
  rw [queryLoop]
  simp only [readFilter, leafResult]
  obtain ⟨result, cache⟩ := getPostings tp index (tokenCount [.exact tokens]) [] tokens true
  cases result <;> simp [applyResult, applyOp, Machine.init, queryLoop]

/-- One document, `1 2 1 4 3` in the body: its first word comes back after the second. -/
def splitPhrase : List (FtsIndex.Part ℕ) :=
  [.text 0 [(1, none), (2, none), (1, none), (4, none), (3, none)]]

/-- The exact phrase `1 2 3` returns the document `1 2 1 4 3`, in which it does not occur: `2`
follows the first `1` and `3` follows the second. -/
theorem ftsQuery_matches_split_phrase (tp : TermIndexPacker) (htp : tp.Lawful) :
    ftsQuery tp (FtsIndex.ofDocuments tp [(0, splitPhrase)] (List.pairwise_singleton _ _)) (some {0})
        [.exact [(1, 0), (2, 0), (3, 0)]] = {0} ∧
      ¬∃ p, PhraseAt (wordStream splitPhrase) [1, 2, 3] 0 p := by
  constructor
  · rw [ftsQuery_exact]
    ext d
    rw [mem_getPostings_ofDocuments htp (by decide) (by decide) (cacheInv_nil _), Finset.mem_singleton]
    constructor
    · rintro ⟨parts, hd, -⟩
      by_contra hne
      have hb : (d == 0) = false := beq_eq_false_iff_ne.mpr hne
      simp [List.lookup_cons, hb] at hd
    · rintro rfl
      exact ⟨splitPhrase, rfl, _, rfl, by decide, ⟨_, rfl, by decide, 0, by decide, by decide⟩,
        ⟨_, rfl, by decide, 2, by decide, by decide⟩, trivial⟩
  · rintro ⟨p, hp⟩
    have h0 := hp 0 (by decide)
    have h1 := hp 1 (by decide)
    have h2 := hp 2 (by decide)
    have hstream : wordStream splitPhrase = [some (1, 0), some (2, 0), some (1, 0), some (4, 0),
        some (3, 0), none, none, none, none, none, none, none, none, none, none] := rfl
    rw [hstream] at h0 h1 h2
    -- the first word is at position 0 or 2, and no later word fits either
    have hlt : p < 15 := by
      by_contra hge
      rw [List.getElem?_eq_none (by simp only [List.length_cons, List.length_nil]; omega)] at h0
      cases h0
    revert h0 h1 h2
    interval_cases p <;> decide

theorem ftsQuery_matches_split_phrase_wide :
    TermIndexPacker.Lawful ⟨.wide, .wide, .wide⟩ ∧
      (ftsQuery ⟨.wide, .wide, .wide⟩
          (FtsIndex.ofDocuments ⟨.wide, .wide, .wide⟩ [(0, splitPhrase)] (List.pairwise_singleton _ _))
          (some {0}) [.exact [(1, 0), (2, 0), (3, 0)]] = {0} ∧
        ¬∃ p, PhraseAt (wordStream splitPhrase) [1, 2, 3] 0 p) := by
  have htp : TermIndexPacker.Lawful ⟨.wide, .wide, .wide⟩ :=
    ⟨BitPacker.wide_lawful 32, BitPacker.wide_lawful 128, BitPacker.wide_lawful 256⟩
  exact ⟨htp, ftsQuery_matches_split_phrase _ htp⟩

/-! ## `fts_query` runs as `Store::filter` -/

section Simulation

variable {α C : Type} [DecidableEq α]

/-- The filter of `Store::filter` that reads as a full-text filter does: an operator or `End` as
itself, and a leaf as the bitmap of a tag that names it. -/
def FtsTokenized.toFilter : FtsTokenized H → Query.Filter α (FtsTokenized H)
  | .and => .and
  | .or => .or
  | .not => .not
  | .end => .end
  | leaf => .inBitmap (.tag 0 leaf)

/-- The store of `Store::filter` whose bitmap for the tag of a leaf is the leaf's result. -/
def leafStore (documentIds : Option (Finset α)) (result : FtsTokenized H → Option (Finset α)) :
    Query.Store α (FtsTokenized H) where
  getBitmap
    | .documentIds => documentIds
    | .tag _ leaf => result leaf
    | .text _ _ => none
  rangeToBitmap _ _ _ := none
  words _ := []

omit [DecidableEq H] [DecidableEq α] in
theorem isEnd_toFilter (f : FtsTokenized H) : (f.toFilter (α := α)).isEnd = f.isEnd := by
  cases f <;> rfl

omit [DecidableEq H] [DecidableEq α] in
theorem dropWhile_map_toFilter (filters : List (FtsTokenized H)) :
    (filters.dropWhile fun f => !f.isEnd).map (FtsTokenized.toFilter (α := α)) =
      (filters.map FtsTokenized.toFilter).dropWhile fun f => !f.isEnd := by
  induction filters with
  | nil => rfl
  | cons f filters ih =>
    simp only [List.dropWhile_cons, List.map_cons, isEnd_toFilter]
    split
    · exact ih
    · rfl

omit [DecidableEq H] in
/-- A pass of `fts_query` reads a filter as `Store::filter` reads its image, when every leaf reads
what the store holds for its tag. -/
theorem readFilter_toFilter {readLeaf : C → FtsTokenized H → Option (Finset α) × C}
    {result : FtsTokenized H → Option (Finset α)} {c : C}
    (hread : ∀ leaf, (readLeaf c leaf).1 = result leaf) (documentIds : Option (Finset α))
    (m : Machine α) (f : FtsTokenized H) :
    Query.readFilter (leafStore documentIds result) m f.toFilter = (readFilter readLeaf m c f).1 := by
  cases f with
  | «end» => cases hs : m.stack <;> simp [Query.readFilter, readFilter, FtsTokenized.toFilter, hs]
  | and | or | not => rfl
  | exact tokens => simp [Query.readFilter, readFilter, FtsTokenized.toFilter, Query.leafResult, leafStore, hread]
  | contains field tokens =>
    simp [Query.readFilter, readFilter, FtsTokenized.toFilter, Query.leafResult, leafStore, hread]
  | keyword field token =>
    simp [Query.readFilter, readFilter, FtsTokenized.toFilter, Query.leafResult, leafStore, hread]

omit [DecidableEq H] [DecidableEq α] in
theorem readFilter_inv {readLeaf : C → FtsTokenized H → Option (Finset α) × C} {Inv : C → Prop}
    (hinv : ∀ c leaf, Inv c → Inv (readLeaf c leaf).2) {c : C} (hc : Inv c) (m : Machine α)
    (f : FtsTokenized H) : Inv (readFilter readLeaf m c f).2 := by
  cases f with
  | «end» => cases hs : m.stack <;> simp only [readFilter, hs] <;> exact hc
  | and | or | not => exact hc
  | exact tokens => exact hinv c _ hc
  | contains field tokens => exact hinv c _ hc
  | keyword field token => exact hinv c _ hc

omit [DecidableEq H] in
/-- `fts_query` goes through the states `Store::filter` goes through on the images of its
filters, when every leaf reads what the store holds for its tag whatever the cache, among those
that `Inv` holds of. -/
theorem queryLoop_eq_filterLoop (documentIds : Option (Finset α))
    (readLeaf : C → FtsTokenized H → Option (Finset α) × C) (Inv : C → Prop)
    (result : FtsTokenized H → Option (Finset α))
    (hread : ∀ c leaf, Inv c → (readLeaf c leaf).1 = result leaf ∧ Inv (readLeaf c leaf).2)
    (filters : List (FtsTokenized H)) (m : Machine α) (c : C) :
    Inv c → (queryLoop documentIds readLeaf filters m c).1 =
      Query.filterLoop (leafStore documentIds result) (filters.map FtsTokenized.toFilter) m := by
  fun_induction queryLoop documentIds readLeaf filters m c with
  | case1 m c =>
    intro _
    rw [List.map_nil, Query.filterLoop]
  | case2 m c filter filters c' h =>
    intro hc
    have h' := readFilter_toFilter (fun leaf => (hread c leaf hc).1) documentIds m filter
    rw [h] at h'
    rw [List.map_cons, Query.filterLoop_stop h']
  | case3 m c filter filters m' c' h ih =>
    intro hc
    have h' := readFilter_toFilter (fun leaf => (hread c leaf hc).1) documentIds m filter
    have hc' := readFilter_inv (fun c leaf hc => (hread c leaf hc).2) hc m filter
    rw [h] at h' hc'
    rw [List.map_cons, Query.filterLoop_next h', ih hc']
  | case4 m c filter filters r m' c' h m'' hshort ih =>
    intro hc
    have h' := readFilter_toFilter (fun leaf => (hread c leaf hc).1) documentIds m filter
    have hc' := readFilter_inv (fun c leaf hc => (hread c leaf hc).2) hc m filter
    rw [h] at h' hc'
    have hshort' : shortCircuit (Query.applyResult (leafStore documentIds result) r m') := hshort
    rw [List.map_cons, Query.filterLoop_result h', Query.resume, if_pos hshort',
      ← dropWhile_map_toFilter]
    exact ih hc'
  | case5 m c filter filters r m' c' h m'' hshort ih =>
    intro hc
    have h' := readFilter_toFilter (fun leaf => (hread c leaf hc).1) documentIds m filter
    have hc' := readFilter_inv (fun c leaf hc => (hread c leaf hc).2) hc m filter
    rw [h] at h' hc'
    have hshort' : ¬shortCircuit (Query.applyResult (leafStore documentIds result) r m') := hshort
    rw [List.map_cons, Query.filterLoop_result h', Query.resume, if_neg hshort']
    exact ih hc'

end Simulation

/-- `Store::fts_query` on a list that is not empty is `Store::filter` on its image, each leaf
standing for what it returns. -/
theorem ftsQuery_eq_filter (tp : TermIndexPacker) (index : FtsIndex H) (documentIds : Option (Finset ℕ))
    {filters : List (FtsTokenized H)} (hne : filters ≠ []) :
    ftsQuery tp index documentIds filters =
      Query.filter (leafStore documentIds (leafValue tp index)) (filters.map FtsTokenized.toFilter) := by
  rw [ftsQuery, Query.filter, if_neg (by simpa using hne),
    queryLoop_eq_filterLoop documentIds _ (CacheInv index) (leafValue tp index)
      (fun _ leaf hc => ⟨leafResult_of_cacheInv hc leaf, cacheInv_leafResult hc leaf⟩) filters _ _
      (cacheInv_nil index)]

/-- The filter a token of a formula stands for. -/
def FtsTokenized.ofToken : BoolFilter.Token (FtsTokenized H) → FtsTokenized H
  | .leaf filter => filter
  | .open .and => .and
  | .open .or => .or
  | .open .not => .not
  | .close => .end

/-- The filter list of a list of formulas, read as their conjunction. -/
def filtersOfList (ts : List (BoolFilter.Formula (FtsTokenized H))) : List (FtsTokenized H) :=
  (BoolFilter.tokensOf ts).map FtsTokenized.ofToken

/-- Keywords in the body: `1` in no document, `2` and `3` in document `1`, `4` in document `2`. -/
def keywordIndex : FtsIndex ℕ where
  entries
    | 2 | 3 => SortedMap.single 1 [0, 0xFF]
    | 4 => SortedMap.single 2 [0, 0xFF]
    | _ => SortedMap.empty

/-- The `And` short-circuit stops at the `End` of a nested group. In `Or(And(1, Or(2), 3), 4)`
the keyword `1` finds nothing, and the empty `And` skips to the `End` of `Or(2)`, which closes the
`And`; the `End` of the `And` then closes the `Or` with `3` in it, and `4` is intersected at the
top: no document, where the formula means document `2`. -/
theorem ftsQuery_skips_into_nested_group (tp : TermIndexPacker) :
    ftsQuery tp keywordIndex (some {1, 2}) (filtersOfList [.node .or [.node .and [.leaf (.keyword 0 1),
        .node .or [.leaf (.keyword 0 2)], .leaf (.keyword 0 3)], .leaf (.keyword 0 4)]]) = ∅ ∧
      BoolFilter.evalList {1, 2} (fun leaf => (leafValue tp keywordIndex leaf).getD ∅)
        [.node .or [.node .and [.leaf (.keyword 0 1), .node .or [.leaf (.keyword 0 2)],
          .leaf (.keyword 0 3)], .leaf (.keyword 0 4)]] = {2} := by
  have h1 : leafValue tp keywordIndex (.keyword 0 1) = none := by rw [leafValue_keyword]; decide
  have h2 : leafValue tp keywordIndex (.keyword 0 2) = some {1} := by rw [leafValue_keyword]; decide
  have h3 : leafValue tp keywordIndex (.keyword 0 3) = some {1} := by rw [leafValue_keyword]; decide
  have h4 : leafValue tp keywordIndex (.keyword 0 4) = some {2} := by rw [leafValue_keyword]; decide
  constructor
  · rw [ftsQuery_eq_filter _ _ _ (by simp [filtersOfList])]
    simp [filtersOfList, FtsTokenized.ofToken, FtsTokenized.toFilter, Query.filter, Query.filterLoop,
      Query.readFilter, Query.applyResult, applyOp, shortCircuit, Query.leafResult, Query.Filter.isEnd,
      leafStore, Machine.init, h1, h3, h4]
  · simp [BoolFilter.evalList, BoolFilter.Op.eval, h1, h2, h3, h4]

end MailServer.Store.FtsQuery
