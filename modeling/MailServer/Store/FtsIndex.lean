import MailServer.Lib.SortedMap
import MailServer.Store.Postings

/-! # Indexing a document (`Store::fts_index`)

`fts_index` reads the parts of a document in two loops with one running position. The first
loop indexes the `Tokenize` parts, each word at the next position and ten positions left free
after the part, and the `Keyword` parts, as a field with no position; it keeps the `Text`
parts, which the second loop reads once the language is known, each word at the next position
and its stem as a field with no position. Every token gets a `Postings` entry: the fields it
was met in and its positions.

The positions are those of the document read as one stream (`wordStream`): the words of the
`Tokenize` parts, then those of the `Text` parts. `IndexInv` is what both loops keep against the
stream read so far; from it the positions of every token are strictly increasing
(`pairwise_postings`).
-/

set_option linter.dupNamespace false

namespace MailServer.Store.FtsIndex

open MailServer.Store.Postings MailServer.Lib

/-- `TokenType::word`. -/
def TokenType.word (field : UInt8) : UInt8 := field

/-- `TokenType::stemmed`. -/
def TokenType.stemmed (field : UInt8) : UInt8 := (1 : UInt8) <<< 7 ||| field

/-- A field below `127` is not the separator `0xFF`, neither as a word's field nor as a
stem's. -/
theorem stemmed_ne_separator {field : UInt8} (h : field < 127) : TokenType.stemmed field ≠ 0xFF := by
  intro heq
  have hlt : field.toNat < 127 := UInt8.lt_iff_toNat_lt.mp h
  have hor : (TokenType.stemmed field).toNat = field.toNat + 2 ^ 7 := by
    rw [TokenType.stemmed, UInt8.toNat_or, show ((1 : UInt8) <<< 7).toNat = 2 ^ 7 by decide,
      Nat.or_comm, Nat.or_two_pow_eq_add_of_lt (by omega)]
  rw [heq, show (0xFF : UInt8).toNat = 255 from rfl] at hor
  omega

theorem word_ne_separator {field : UInt8} (h : field < 127) : TokenType.word field ≠ 0xFF := by
  rintro rfl
  exact absurd h (by decide)

/-- A part of an `FtsDocument` (`Text`), its text read by the tokenizer its type names: the
stemmer for a `Text` part (each word with its stem, if it has one), `WordTokenizer` for a
`Tokenize` part; a `Keyword` part is its whole text, `none` when that is empty. -/
inductive Part (H : Type) where
  | text (field : UInt8) (words : List (H × Option H))
  | tokenize (field : UInt8) (words : List H)
  | keyword (field : UInt8) (value : Option H)

variable {H : Type}

/-- `u8::from` of the part's field. -/
def Part.field : Part H → UInt8
  | .text field _ | .tokenize field _ | .keyword field _ => field

/-- `Postings::default()`. -/
def emptyPostings : Postings := ⟨[], [], List.nodup_nil⟩

/-- The variables of the loops of `fts_index`: the token map, its entries in the order their
tokens were first met, and the running position. -/
structure IndexState (H : Type) where
  tokens : List (H × Postings)
  position : ℕ

variable [DecidableEq H]

/-- `tokens.entry(token).or_default()`, then `f` on the entry. -/
def upsert (tokens : List (H × Postings)) (token : H) (f : Postings → Postings) :
    List (H × Postings) :=
  match tokens with
  | [] => [(token, f emptyPostings)]
  | (t, p) :: tokens => if t = token then (t, f p) :: tokens else (t, p) :: upsert tokens token f

/-- A word at the running position. -/
def IndexState.word (s : IndexState H) (field : UInt8) (token : H) : IndexState H where
  tokens := upsert s.tokens token fun p => p.insert (TokenType.word field) (UInt32.ofNat s.position)
  position := s.position + 1

/-- A field with no position: a keyword, or a stem. -/
def IndexState.keyword (s : IndexState H) (field : UInt8) (token : H) : IndexState H where
  tokens := upsert s.tokens token fun p => p.insertKeyword field
  position := s.position

/-- The ten positions left free after a part. -/
def IndexState.gap (s : IndexState H) : IndexState H := { s with position := s.position + 10 }

/-- A word of a `Text` part: the word at the running position, and its stem as a stemmed
field. -/
def IndexState.textWord (s : IndexState H) (field : UInt8) : H × Option H → IndexState H
  | (word, none) => s.word field word
  | (word, some stemmed) => (s.word field word).keyword (TokenType.stemmed field) stemmed

/-- The first loop of `fts_index` on one part: a `Tokenize` or `Keyword` part is indexed at once,
and a `Text` part is kept for the second loop. -/
def indexPart (acc : IndexState H × List (UInt8 × List (H × Option H))) :
    Part H → IndexState H × List (UInt8 × List (H × Option H))
  | .text field words => (acc.1, acc.2 ++ [(field, words)])
  | .tokenize field words => ((words.foldl (fun s word => s.word field word) acc.1).gap, acc.2)
  | .keyword field value =>
    match value with
    | some token => (acc.1.keyword (TokenType.word field) token, acc.2)
    | none => acc

/-- The second loop of `fts_index` on one kept `Text` part. -/
def indexText (s : IndexState H) (text : UInt8 × List (H × Option H)) : IndexState H :=
  (text.2.foldl (fun s word => s.textWord text.1 word) s).gap

/-- The token map `fts_index` serializes for a document. -/
def ftsIndexTokens (parts : List (Part H)) : List (H × Postings) :=
  let (s, texts) := parts.foldl indexPart (⟨[], 0⟩, [])
  (texts.foldl indexText s).tokens

/-! ## The document as a stream of words -/

/-- The positions a part takes: its words in its field, then ten free positions. -/
def partStream (field : UInt8) (words : List H) : List (Option (H × UInt8)) :=
  words.map (fun word => some (word, field)) ++ List.replicate 10 none

/-- The positions of a part in the first loop. -/
def Part.tokenizeStream : Part H → List (Option (H × UInt8))
  | .tokenize field words => partStream field words
  | _ => []

/-- A `Text` part, kept by the first loop for the second. -/
def Part.textOf : Part H → Option (UInt8 × List (H × Option H))
  | .text field words => some (field, words)
  | _ => none

/-- The positions of a kept `Text` part in the second loop. -/
def textStream (text : UInt8 × List (H × Option H)) : List (Option (H × UInt8)) :=
  partStream text.1 (text.2.map Prod.fst)

/-- The document read as `fts_index` numbers it: the words of the `Tokenize` parts, then those
of the `Text` parts, in their fields, each part followed by ten free positions. -/
def wordStream (parts : List (Part H)) : List (Option (H × UInt8)) :=
  parts.flatMap Part.tokenizeStream ++ (parts.filterMap Part.textOf).flatMap textStream

/-! ## The token map -/

theorem lookup_upsert (tokens : List (H × Postings)) (token : H) (f : Postings → Postings) (t : H) :
    (upsert tokens token f).lookup t =
      if t = token then some (f ((tokens.lookup token).getD emptyPostings)) else tokens.lookup t := by
  induction tokens with
  | nil => by_cases h : t = token <;> simp [upsert, h]
  | cons e tokens ih =>
    obtain ⟨k, p⟩ := e
    by_cases hk : k = token
    · subst hk
      by_cases h : t = k
      · subst h
        simp [upsert]
      · have hb : (t == k) = false := beq_eq_false_iff_ne.mpr h
        simp [upsert, List.lookup_cons, hb, h]
    · have hb' : (token == k) = false := beq_eq_false_iff_ne.mpr (Ne.symm hk)
      by_cases h : t = k
      · subst h
        simp [upsert, hk]
      · have hb : (t == k) = false := beq_eq_false_iff_ne.mpr h
        simp [upsert, List.lookup_cons, hk, hb, hb', ih]

/-- An entry grows: it keeps its fields and its positions. -/
def Grows (p p' : Postings) : Prop := (∀ x ∈ p.fields, x ∈ p'.fields) ∧ ∀ q ∈ p.postings, q ∈ p'.postings

theorem mem_insertField_iff {fields : List UInt8} {field x : UInt8} :
    x ∈ insertField fields field ↔ x = field ∨ x ∈ fields := by
  unfold insertField
  split_ifs with h
  · constructor
    · exact Or.inr
    · rintro (rfl | hx)
      · exact h
      · exact hx
  · rw [List.mem_append, List.mem_singleton, or_comm]

theorem grows_insert (p : Postings) (field : UInt8) (q : UInt32) : Grows p (p.insert field q) :=
  ⟨fun _ hx => mem_insertField_iff.mpr (.inr hx), fun _ hq => List.mem_append_left _ hq⟩

theorem grows_insertKeyword (p : Postings) (field : UInt8) : Grows p (p.insertKeyword field) :=
  ⟨fun _ hx => mem_insertField_iff.mpr (.inr hx), fun _ hq => hq⟩

theorem lookup_upsert_grows {tokens : List (H × Postings)} {token : H} {f : Postings → Postings}
    (hf : ∀ p, Grows p (f p)) {t : H} {p : Postings} (hp : tokens.lookup t = some p) :
    ∃ p', (upsert tokens token f).lookup t = some p' ∧ Grows p p' := by
  rw [lookup_upsert]
  split_ifs with h
  · subst h
    exact ⟨_, rfl, by rw [hp]; exact hf p⟩
  · exact ⟨p, hp, fun _ hx => hx, fun _ hq => hq⟩

/-! ## What the loops keep -/

/-- What the loops of `fts_index` keep against the stream of positions read so far: the running
position is its length; every word of it is in its token's postings, in its field and at its
position; and every token's positions are below the running position, strictly increasing. -/
structure IndexInv (stream : List (Option (H × UInt8))) (s : IndexState H) : Prop where
  position : s.position = stream.length
  mem : ∀ q token field, stream[q]? = some (some (token, field)) →
    ∃ p, s.tokens.lookup token = some p ∧ TokenType.word field ∈ p.fields ∧
      UInt32.ofNat q ∈ p.postings
  sorted : ∀ token p, s.tokens.lookup token = some p →
    ∃ qs : List ℕ, p.postings = qs.map UInt32.ofNat ∧ qs.Pairwise (· < ·) ∧ ∀ q ∈ qs, q < s.position

namespace IndexInv

variable {stream : List (Option (H × UInt8))} {s : IndexState H}

theorem start : IndexInv [] (⟨[], 0⟩ : IndexState H) where
  position := rfl
  mem := by simp
  sorted := by simp

theorem mem_of_grows {tokens : List (H × Postings)}
    (hgrows : ∀ t p, s.tokens.lookup t = some p → ∃ p', tokens.lookup t = some p' ∧ Grows p p')
    (hs : IndexInv stream s) {q : ℕ} {token : H} {field : UInt8}
    (hq : stream[q]? = some (some (token, field))) :
    ∃ p, tokens.lookup token = some p ∧ TokenType.word field ∈ p.fields ∧ UInt32.ofNat q ∈ p.postings := by
  obtain ⟨p, hp, hfield, hpos⟩ := hs.mem q token field hq
  obtain ⟨p', hp', hf, hpost⟩ := hgrows token p hp
  exact ⟨p', hp', hf _ hfield, hpost _ hpos⟩

theorem word (hs : IndexInv stream s) (field : UInt8) (token : H) :
    IndexInv (stream ++ [some (token, field)]) (s.word field token) where
  position := by simp [IndexState.word, hs.position]
  mem q t f hq := by
    rcases Nat.lt_or_ge q stream.length with hlt | hge
    · -- a word read before: its entry only grew
      rw [List.getElem?_append_left hlt] at hq
      exact hs.mem_of_grows (fun _ _ hp => lookup_upsert_grows (fun p => grows_insert p _ _) hp) hq
    · -- the new word, at the running position
      rw [List.getElem?_append_right hge, List.getElem?_singleton] at hq
      split_ifs at hq with hzero
      obtain ⟨rfl, rfl⟩ : token = t ∧ field = f := by simpa using hq
      have hq' : q = s.position := by rw [hs.position]; omega
      refine ⟨_, (lookup_upsert _ _ _ token).trans (if_pos rfl), ?_, ?_⟩
      · exact mem_insertField_iff.mpr (.inl rfl)
      · rw [hq']
        exact List.mem_append_right _ (List.mem_singleton_self _)
  sorted t p hp := by
    rw [IndexState.word, lookup_upsert] at hp
    split_ifs at hp with ht
    · -- the token's positions so far, then the running position above them all
      obtain rfl := Option.some.inj hp
      obtain ⟨qs, hqs, hsorted, hlt⟩ : ∃ qs : List ℕ,
          ((s.tokens.lookup token).getD emptyPostings).postings = qs.map UInt32.ofNat ∧
            qs.Pairwise (· < ·) ∧ ∀ q ∈ qs, q < s.position := by
        cases hlook : s.tokens.lookup token with
        | none => exact ⟨[], rfl, List.Pairwise.nil, by simp⟩
        | some p => exact hs.sorted token p hlook
      refine ⟨qs ++ [s.position], by simp [Postings.insert, hqs], ?_, ?_⟩
      · exact List.pairwise_append.mpr ⟨hsorted, List.pairwise_singleton _ _,
          fun a ha b hb => by rw [List.mem_singleton.mp hb]; exact hlt a ha⟩
      · intro q hq
        rcases List.mem_append.mp hq with hq | hq
        · exact Nat.lt_succ_of_lt (hlt q hq)
        · rw [List.mem_singleton.mp hq]
          exact Nat.lt_succ_self _
    · obtain ⟨qs, hqs, hsorted, hlt⟩ := hs.sorted t p hp
      exact ⟨qs, hqs, hsorted, fun q hq => Nat.lt_succ_of_lt (hlt q hq)⟩

theorem keyword (hs : IndexInv stream s) (field : UInt8) (token : H) :
    IndexInv stream (s.keyword field token) where
  position := hs.position
  mem _ _ _ hq :=
    hs.mem_of_grows (fun _ _ hp => lookup_upsert_grows (fun p => grows_insertKeyword p _) hp) hq
  sorted t p hp := by
    rw [IndexState.keyword, lookup_upsert] at hp
    split_ifs at hp with ht
    · -- a keyword adds a field and no position
      obtain rfl := Option.some.inj hp
      cases hlook : s.tokens.lookup token with
      | none => exact ⟨[], rfl, List.Pairwise.nil, by simp⟩
      | some p => exact hs.sorted token p hlook
    · exact hs.sorted t p hp

theorem gap (hs : IndexInv stream s) : IndexInv (stream ++ List.replicate 10 none) s.gap where
  position := by simp [IndexState.gap, hs.position]
  mem q t f hq := by
    rcases Nat.lt_or_ge q stream.length with hlt | hge
    · rw [List.getElem?_append_left hlt] at hq
      exact hs.mem q t f hq
    · -- the free positions hold no word
      rw [List.getElem?_append_right hge, List.getElem?_replicate] at hq
      split_ifs at hq
      cases hq
  sorted t p hp := by
    obtain ⟨qs, hqs, hsorted, hlt⟩ := hs.sorted t p hp
    exact ⟨qs, hqs, hsorted, fun q hq => Nat.lt_add_right 10 (hlt q hq)⟩

theorem textWord (hs : IndexInv stream s) (field : UInt8) (word : H × Option H) :
    IndexInv (stream ++ [some (word.1, field)]) (s.textWord field word) := by
  obtain ⟨token, _ | stemmed⟩ := word
  · exact hs.word field token
  · exact (hs.word field token).keyword _ stemmed

theorem words (field : UInt8) (words : List H) :
    ∀ {stream : List (Option (H × UInt8))} {s : IndexState H}, IndexInv stream s →
      IndexInv (stream ++ words.map fun word => some (word, field))
        (words.foldl (fun s word => s.word field word) s) := by
  induction words with
  | nil => intro stream s hs; simpa using hs
  | cons word words ih =>
    intro stream s hs
    rw [List.foldl_cons, List.map_cons, ← List.singleton_append, ← List.append_assoc]
    exact ih (hs.word field word)

theorem textWords (field : UInt8) (words : List (H × Option H)) :
    ∀ {stream : List (Option (H × UInt8))} {s : IndexState H}, IndexInv stream s →
      IndexInv (stream ++ words.map fun word => some (word.1, field))
        (words.foldl (fun s word => s.textWord field word) s) := by
  induction words with
  | nil => intro stream s hs; simpa using hs
  | cons word words ih =>
    intro stream s hs
    rw [List.foldl_cons, List.map_cons, ← List.singleton_append, ← List.append_assoc]
    exact ih (hs.textWord field word)

theorem parts (parts : List (Part H)) :
    ∀ {stream : List (Option (H × UInt8))} {acc : IndexState H × List (UInt8 × List (H × Option H))},
      IndexInv stream acc.1 →
        IndexInv (stream ++ parts.flatMap Part.tokenizeStream) (parts.foldl indexPart acc).1 ∧
          (parts.foldl indexPart acc).2 = acc.2 ++ parts.filterMap Part.textOf := by
  induction parts with
  | nil => intro stream acc hs; simpa using hs
  | cons part parts ih =>
    intro stream acc hs
    have hpart : IndexInv (stream ++ part.tokenizeStream) (indexPart acc part).1 ∧
        (indexPart acc part).2 = acc.2 ++ part.textOf.toList := by
      cases part with
      | text field words => exact ⟨by simpa [Part.tokenizeStream, indexPart] using hs, rfl⟩
      | tokenize field words =>
        refine ⟨?_, by simp [indexPart, Part.textOf]⟩
        rw [Part.tokenizeStream, partStream, ← List.append_assoc]
        exact (IndexInv.words field words hs).gap
      | keyword field value =>
        rw [show (Part.keyword field value).tokenizeStream = [] from rfl, List.append_nil]
        cases value with
        | none => exact ⟨hs, by simp [indexPart, Part.textOf]⟩
        | some token => exact ⟨hs.keyword _ token, by simp [indexPart, Part.textOf]⟩
    obtain ⟨hinv, htexts⟩ := ih hpart.1
    rw [List.foldl_cons, List.flatMap_cons, ← List.append_assoc]
    refine ⟨hinv, ?_⟩
    rw [htexts, hpart.2, List.append_assoc, List.filterMap_cons]
    cases part.textOf <;> rfl

theorem texts (texts : List (UInt8 × List (H × Option H))) :
    ∀ {stream : List (Option (H × UInt8))} {s : IndexState H}, IndexInv stream s →
      IndexInv (stream ++ texts.flatMap textStream) (texts.foldl indexText s) := by
  induction texts with
  | nil => intro stream s hs; simpa using hs
  | cons text texts ih =>
    intro stream s hs
    rw [List.foldl_cons, List.flatMap_cons, ← List.append_assoc]
    apply ih
    rw [textStream, partStream, indexText, ← List.append_assoc, List.map_map]
    exact (IndexInv.textWords text.1 text.2 hs).gap

end IndexInv

theorem indexInv_ftsIndexTokens (parts : List (Part H)) :
    ∃ s : IndexState H, s.tokens = ftsIndexTokens parts ∧ IndexInv (wordStream parts) s := by
  obtain ⟨hfirst, htexts⟩ := @IndexInv.parts _ _ parts [] (⟨[], 0⟩, []) IndexInv.start
  refine ⟨_, rfl, ?_⟩
  have hsecond := IndexInv.texts (parts.foldl indexPart (⟨[], 0⟩, [])).2 hfirst
  rw [htexts] at hsecond ⊢
  simpa [wordStream] using hsecond

/-- While the stream fits the `u32` positions, every token's positions are strictly
increasing. -/
theorem pairwise_postings {parts : List (Part H)} (hlen : (wordStream parts).length ≤ 2 ^ 32)
    {token : H} {p : Postings} (hp : (ftsIndexTokens parts).lookup token = some p) :
    p.postings.Pairwise (· < ·) := by
  obtain ⟨s, hs, hinv⟩ := indexInv_ftsIndexTokens parts
  rw [← hs] at hp
  obtain ⟨qs, hqs, hsorted, hlt⟩ := hinv.sorted token p hp
  rw [hqs, List.pairwise_map]
  refine hsorted.imp_of_mem fun {a b} ha hb hab => ?_
  have hb' : b < 2 ^ 32 := by have := hlt b hb; rw [hinv.position] at this; omega
  rw [UInt32.lt_iff_toNat_lt, UInt32.toNat_ofNat', UInt32.toNat_ofNat', Nat.mod_eq_of_lt hb',
    Nat.mod_eq_of_lt (by omega)]
  exact hab

theorem toNat_lt_of_mem_postings {parts : List (Part H)} {token : H} {p : Postings}
    (hp : (ftsIndexTokens parts).lookup token = some p) {q : UInt32} (hq : q ∈ p.postings) :
    q.toNat < (wordStream parts).length := by
  obtain ⟨s, hs, hinv⟩ := indexInv_ftsIndexTokens parts
  rw [← hs] at hp
  obtain ⟨qs, hqs, -, hlt⟩ := hinv.sorted token p hp
  rw [hqs, List.mem_map] at hq
  obtain ⟨q', hq', rfl⟩ := hq
  rw [UInt32.toNat_ofNat', ← hinv.position]
  exact Nat.lt_of_le_of_lt (Nat.mod_le _ _) (hlt q' hq')

/-- The phrase occurs in the stream from position `p` on, in `field`: its `i`-th word is the
word at position `p + i`. -/
def PhraseAt (stream : List (Option (H × UInt8))) (phrase : List H) (field : UInt8) (p : ℕ) : Prop :=
  ∀ i (hi : i < phrase.length), stream[p + i]? = some (some (phrase[i], field))

/-! ## The fields -/

/-- No entry has the separator `0xFF` among its fields. -/
def NoSeparator (tokens : List (H × Postings)) : Prop :=
  ∀ token p, tokens.lookup token = some p → 0xFF ∉ p.fields

theorem noSeparator_upsert {tokens : List (H × Postings)} (hs : NoSeparator tokens) {field : UInt8}
    (hfield : field ≠ 0xFF) (token : H) {f : Postings → Postings}
    (hf : ∀ p, (f p).fields = insertField p.fields field) : NoSeparator (upsert tokens token f) := by
  intro t p hp
  rw [lookup_upsert] at hp
  split_ifs at hp
  · obtain rfl := Option.some.inj hp
    rw [hf, mem_insertField_iff, not_or]
    refine ⟨hfield.symm, ?_⟩
    cases hlook : tokens.lookup token with
    | none => exact List.not_mem_nil
    | some p => exact hs token p hlook
  · exact hs t p hp

theorem noSeparator_word {s : IndexState H} (hs : NoSeparator s.tokens) {field : UInt8}
    (hfield : field < 127) (token : H) : NoSeparator (s.word field token).tokens :=
  noSeparator_upsert hs (word_ne_separator hfield) token fun _ => rfl

theorem noSeparator_keyword {s : IndexState H} (hs : NoSeparator s.tokens) {field : UInt8}
    (hfield : field ≠ 0xFF) (token : H) : NoSeparator (s.keyword field token).tokens :=
  noSeparator_upsert hs hfield token fun _ => rfl

theorem noSeparator_textWord {s : IndexState H} (hs : NoSeparator s.tokens) {field : UInt8}
    (hfield : field < 127) (word : H × Option H) : NoSeparator (s.textWord field word).tokens := by
  obtain ⟨token, _ | stemmed⟩ := word
  · exact noSeparator_word hs hfield token
  · exact noSeparator_keyword (noSeparator_word hs hfield token) (stemmed_ne_separator hfield) stemmed

theorem noSeparator_words {field : UInt8} (hfield : field < 127) (words : List H) :
    ∀ {s : IndexState H}, NoSeparator s.tokens →
      NoSeparator (words.foldl (fun s word => s.word field word) s).tokens := by
  induction words with
  | nil => intro s hs; exact hs
  | cons word words ih =>
    intro s hs
    exact ih (noSeparator_word hs hfield word)

theorem noSeparator_textWords {field : UInt8} (hfield : field < 127) (words : List (H × Option H)) :
    ∀ {s : IndexState H}, NoSeparator s.tokens →
      NoSeparator (words.foldl (fun s word => s.textWord field word) s).tokens := by
  induction words with
  | nil => intro s hs; exact hs
  | cons word words ih =>
    intro s hs
    exact ih (noSeparator_textWord hs hfield word)

/-- With every field of the document below `127`, no token has the separator among its
fields. -/
theorem noSeparator_ftsIndexTokens {parts : List (Part H)} (hfields : ∀ part ∈ parts, part.field < 127) :
    NoSeparator (ftsIndexTokens parts) := by
  have hfirst : ∀ (parts : List (Part H)) (acc : IndexState H × List (UInt8 × List (H × Option H))),
      (∀ part ∈ parts, part.field < 127) → NoSeparator acc.1.tokens →
        (∀ text ∈ acc.2, text.1 < 127) →
        NoSeparator (parts.foldl indexPart acc).1.tokens ∧
          ∀ text ∈ (parts.foldl indexPart acc).2, text.1 < 127 := by
    intro parts
    induction parts with
    | nil => intro acc _ hs htexts; exact ⟨hs, htexts⟩
    | cons part parts ih =>
      intro acc hfields hs htexts
      have hpart := hfields part (List.mem_cons_self ..)
      apply ih _ (fun part' h => hfields part' (List.mem_cons_of_mem _ h))
      · cases part with
        | text field words => exact hs
        | tokenize field words => exact noSeparator_words hpart words hs
        | keyword field value =>
          cases value with
          | none => exact hs
          | some token => exact noSeparator_keyword hs (word_ne_separator hpart) token
      · cases part with
        | text field words =>
          intro text htext
          rcases List.mem_append.mp htext with htext | htext
          · exact htexts text htext
          · rw [List.mem_singleton.mp htext]
            exact hpart
        | tokenize field words => exact htexts
        | keyword field value => cases value <;> exact htexts
  have hsecond : ∀ (texts : List (UInt8 × List (H × Option H))) (s : IndexState H),
      (∀ text ∈ texts, text.1 < 127) → NoSeparator s.tokens →
        NoSeparator (texts.foldl indexText s).tokens := by
    intro texts
    induction texts with
    | nil => intro s _ hs; exact hs
    | cons text texts ih =>
      intro s htexts hs
      exact ih _ (fun t h => htexts t (List.mem_cons_of_mem _ h))
        (noSeparator_textWords (htexts text (List.mem_cons_self ..)) text.2 hs)
  obtain ⟨hs, htexts⟩ := hfirst parts (⟨[], 0⟩, []) hfields (by simp [NoSeparator]) (by simp)
  exact hsecond _ _ htexts hs

/-! ## The index of a collection -/

/-- The `FtsIndex` values of one account and collection, in the order `get_postings` iterates
them: for each token, the documents that hold it, by increasing id, with their serialized
postings. -/
structure FtsIndex (H : Type) where
  entries : H → SortedMap ℕ (List UInt8)

/-- The index after `fts_index` ran on each document of a collection, by increasing id. -/
def FtsIndex.ofDocuments (tp : TermIndexPacker) (documents : List (ℕ × List (Part H)))
    (hsorted : documents.Pairwise fun a b => a.1 < b.1) : FtsIndex H where
  entries token :=
    ⟨documents.filterMap fun document =>
        ((ftsIndexTokens document.2).lookup token).map fun p => (document.1, p.serialize tp),
      by
        rw [List.pairwise_filterMap]
        refine hsorted.imp fun {a b} hab => ?_
        intro x hx y hy
        obtain ⟨p, -, rfl⟩ := Option.map_eq_some_iff.mp hx
        obtain ⟨p', -, rfl⟩ := Option.map_eq_some_iff.mp hy
        exact hab⟩

theorem entries_ofDocuments (tp : TermIndexPacker) (documents : List (ℕ × List (Part H)))
    (hsorted : documents.Pairwise fun a b => a.1 < b.1) (token : H) :
    ((FtsIndex.ofDocuments tp documents hsorted).entries token).entries =
      documents.filterMap fun document =>
        ((ftsIndexTokens document.2).lookup token).map fun p => (document.1, p.serialize tp) :=
  rfl

theorem lookup_ofDocuments (tp : TermIndexPacker) (documents : List (ℕ × List (Part H)))
    (hsorted : documents.Pairwise fun a b => a.1 < b.1) (token : H) (d : ℕ) :
    ((FtsIndex.ofDocuments tp documents hsorted).entries token).entries.lookup d =
      (documents.lookup d).bind fun parts =>
        ((ftsIndexTokens parts).lookup token).map (·.serialize tp) := by
  induction documents with
  | nil => rfl
  | cons document documents ih =>
    obtain ⟨d', parts⟩ := document
    have htail := ih hsorted.of_cons
    have hlater : documents.lookup d' = none :=
      SortedMap.lookup_eq_none_of_lt fun _ ha => List.rel_of_pairwise_cons hsorted ha
    rw [entries_ofDocuments] at htail ⊢
    rw [List.filterMap_cons]
    by_cases hd : d = d'
    · subst hd
      cases hp : (ftsIndexTokens parts).lookup token with
      | none => simp [hp, htail, hlater]
      | some p => simp [hp]
    · have hb : (d == d') = false := beq_eq_false_iff_ne.mpr hd
      cases (ftsIndexTokens parts).lookup token <;> simp [List.lookup_cons, hb, htail]

end MailServer.Store.FtsIndex
