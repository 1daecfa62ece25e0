import MailServer.ImapProto.Protocol

/-! # `parse_sequence_set`

The parser reads a sequence set byte by byte, keeping where the current token starts,
the number before a `:` and three flags (`*` read, `:` read, `$` read). A comma, or the
last byte of the input, ends an item: the item is then pushed as a range, `*`, `$` or a
number, and a single item is returned unwrapped.

On every list of items of the RFC 9051 grammar with `$` the parser returns the items in
order (`parseSequenceSet_itemsBytes`), which is how it reads back what
`serialize_sequence` writes (`MailServer.ImapProto.RoundTrip`). It also accepts bytes outside
the grammar: a `$` after digits makes the item a saved search whatever the digits
(`parseSequenceSet_digits_savedSearch`).
-/

namespace MailServer.ImapProto.Parser

open MailServer.ImapProto.Protocol MailServer.ImapProto.Expunge

/-- The errors of `parse_sequence_set` and `parse_number`; the sequence-set messages
also quote the input. -/
inductive SequenceError where
  /-- "Invalid sequence set {:?}, parse error." -/
  | parseError
  /-- "Invalid sequence set {:?}, number expected before ':'." -/
  | numberExpected
  /-- "Invalid sequence set {:?}, ':' appears multiple times." -/
  | colonRepeated
  /-- "Invalid sequence set {:?}, invalid use of '*'." -/
  | invalidWildcard
  /-- "Invalid sequence set {:?}, '*' appears multiple times." -/
  | wildcardRepeated
  /-- "Invalid sequence set {:?}, unexpected token after '$'." -/
  | unexpectedAfterSavedSearch
  /-- "Invalid sequence set {:?}, found invalid character '{}' at position {}." -/
  | invalidCharacter (ch : UInt8) (pos : ℕ)
  /-- "Invalid sequence set {:?}, expected number." -/
  | expectedNumber
  /-- "Expected a number, found {:?}." -/
  | notANumber (bytes : List UInt8)
  /-- "Invalid empty sequence set." -/
  | empty
  deriving DecidableEq, Repr

/-- `u8::is_ascii_digit`. -/
def isAsciiDigit (ch : UInt8) : Bool := 48 ≤ ch && ch ≤ 57

/-- The digits loop of `u32::from_str`: `None` at a byte that is not a digit or when the
value overflows. -/
def digitsValue (digits : List UInt8) : Option ℕ :=
  digits.foldl (fun acc ch => acc.bind fun value =>
    if isAsciiDigit ch ∧ 10 * value + (ch.toNat - 48) < 2 ^ 32 then some (10 * value + (ch.toNat - 48))
    else none) (some 0)

/-- `u32::from_str`: a lone sign is refused and a leading `+` is skipped. -/
def fromStrU32 (src : List UInt8) : Option UInt32 :=
  match src with
  | [] => none
  | ch :: rest =>
    if (ch = 43 ∨ ch = 45) ∧ rest = [] then none
    else ((if ch = 43 then digitsValue rest else digitsValue src)).map UInt32.ofNat

/-- `parse_number::<u32>`. The bytes it is given are those the loop has read since a token
started, all digits or `$`, so `str::from_utf8` does not fail on them. -/
def parseNumber (value : List UInt8) : Except SequenceError UInt32 :=
  match fromStrU32 value with
  | some n => .ok n
  | none => .error (.notANumber value)

/-- `value.get(start..stop)`. -/
def slice (value : List UInt8) (start stop : ℕ) : Option (List UInt8) :=
  if start ≤ stop ∧ stop ≤ value.length then some ((value.drop start).take (stop - start)) else none

/-- The variables of the loop of `parse_sequence_set`. -/
structure Scan where
  sequenceSet : List Sequence
  rangeStart : Option UInt32
  tokenStart : Option ℕ
  isWildcard : Bool
  isRange : Bool
  isSavedSearch : Bool

/-- The variables before the first byte, and after each item is pushed. -/
def Scan.clean (sequenceSet : List Sequence) : Scan := ⟨sequenceSet, none, none, false, false, false⟩

/-- What the `match ch` of a pass makes of a byte: the loop goes on, with `add_token` set
by a comma, or the function returns. -/
inductive Pass where
  | next (s : Scan) (addToken : Bool)
  | done (result : Except SequenceError Sequence)

/-- The `match ch` of a pass of the loop of `parse_sequence_set`. -/
def readChar (value : List UInt8) (s : Scan) (pos : ℕ) (ch : UInt8) : Pass :=
  if ch = 44 then .next s true
  else if ch = 58 then
    if !s.isRange then
      match s.tokenStart with
      | some fromPos =>
        match slice value fromPos pos with
        | none => .done (.error .parseError)
        | some bytes =>
          match parseNumber bytes with
          | .error e => .done (.error e)
          | .ok n => .next { s with rangeStart := some n, tokenStart := none, isRange := true } false
      | none =>
        if s.isWildcard then .next { s with isWildcard := false, isRange := true } false
        else .done (.error .numberExpected)
    else .done (.error .colonRepeated)
  else if ch = 42 then
    if !s.isWildcard then
      if value.length = 1 then .done (.ok (.range none none))
      else if s.tokenStart = none then .next { s with isWildcard := true } false
      else .done (.error .invalidWildcard)
    else .done (.error .wildcardRepeated)
  else if ch = 36 then
    if (value[pos + 1]?).all (· == 44) then .next { s with isSavedSearch := true } false
    else .done (.error .unexpectedAfterSavedSearch)
  else if isAsciiDigit ch then
    if s.isWildcard then .done (.error .invalidWildcard)
    else .next (if s.tokenStart = none then { s with tokenStart := some pos } else s) false
  else .done (.error (.invalidCharacter ch pos))

/-- `parse_number` of the token read so far, which ends before `stop`. -/
def tokenNumber (value : List UInt8) (tokenStart : Option ℕ) (stop : ℕ) : Except SequenceError UInt32 :=
  match tokenStart with
  | none => .error .expectedNumber
  | some fromPos =>
    match slice value fromPos stop with
    | none => .error .parseError
    | some bytes => parseNumber bytes

/-- `sequence_set.push(item)`, after which `token_start` is cleared. -/
def Scan.push (s : Scan) (item : Sequence) : Scan :=
  { s with sequenceSet := s.sequenceSet ++ [item], tokenStart := none }

/-- Pushing the item read so far, whose bytes end before `stop`. -/
def pushToken (value : List UInt8) (s : Scan) (stop : ℕ) : Except SequenceError Scan :=
  if s.isRange then
    let «end» : Except SequenceError (Option UInt32) :=
      if !s.isWildcard then (tokenNumber value s.tokenStart stop).map some else .ok none
    «end».map fun e =>
      { s.push (.range s.rangeStart e) with isWildcard := false, isRange := false, rangeStart := none }
  else if s.isWildcard then .ok { s.push (.range none none) with isWildcard := false }
  else if s.isSavedSearch then .ok { s.push .savedSearch with isSavedSearch := false }
  else (tokenNumber value s.tokenStart stop).map fun n => s.push (.number n)

/-- The end of a pass: a comma or the last byte pushes the item; the token then ends at
the comma, or after the last byte. -/
def pushItem (value : List UInt8) (s : Scan) (pos : ℕ) (addToken : Bool) : Except SequenceError Scan :=
  if addToken || pos == value.length - 1 then pushToken value s (if !addToken then pos + 1 else pos)
  else .ok s

/-- The loop of `parse_sequence_set` over the bytes from position `pos` on. -/
def parseLoop (value : List UInt8) : List UInt8 → ℕ → Scan → Except SequenceError (Sequence ⊕ Scan)
  | [], _, s => .ok (.inr s)
  | ch :: rest, pos, s =>
    match readChar value s pos ch with
    | .done result => result.map .inl
    | .next s addToken =>
      match pushItem value s pos addToken with
      | .error e => .error e
      | .ok s => parseLoop value rest (pos + 1) s

/-- `parse_sequence_set`. -/
def parseSequenceSet (value : List UInt8) : Except SequenceError Sequence :=
  match parseLoop value value 0 (.clean []) with
  | .error e => .error e
  | .ok (.inl sequence) => .ok sequence
  | .ok (.inr s) =>
    match s.sequenceSet with
    | [item] => .ok item
    | [] => .error .empty
    | items => .ok (.list items)

/-! ## Reading the bytes of an item -/

/-- The passes over bytes that neither end an item nor the input: each byte is only read. -/
def readChars (value : List UInt8) : List UInt8 → ℕ → Scan → Option Scan
  | [], _, s => some s
  | ch :: rest, pos, s =>
    match readChar value s pos ch with
    | .next s false => readChars value rest (pos + 1) s
    | _ => none

theorem readChars_cons_eq_some {value rest : List UInt8} {ch : UInt8} {pos : ℕ} {s s' : Scan}
    (h : readChars value (ch :: rest) pos s = some s') :
    ∃ s₁, readChar value s pos ch = .next s₁ false ∧ readChars value rest (pos + 1) s₁ = some s' := by
  rw [readChars] at h
  split at h
  · exact ⟨_, ‹_›, h⟩
  · cases h

theorem readChars_cons_of_next {value rest : List UInt8} {ch : UInt8} {pos : ℕ} {s s₁ : Scan}
    (h : readChar value s pos ch = .next s₁ false) :
    readChars value (ch :: rest) pos s = readChars value rest (pos + 1) s₁ := by
  rw [readChars, h]

theorem readChars_append (value xs ys : List UInt8) (pos : ℕ) (s : Scan) :
    readChars value (xs ++ ys) pos s = (readChars value xs pos s).bind (readChars value ys (pos + xs.length)) := by
  induction xs generalizing pos s with
  | nil => rfl
  | cons ch xs ih =>
    rw [List.cons_append, readChars, readChars]
    split
    · rw [ih, List.length_cons, Nat.add_assoc, Nat.add_comm 1]
    · rfl

theorem pushItem_of_lt {value : List UInt8} {s : Scan} {pos : ℕ} (h : pos + 1 < value.length) :
    pushItem value s pos false = .ok s := by
  have hne : pos ≠ value.length - 1 := by omega
  simp [pushItem, hne]

theorem pushItem_last {value : List UInt8} {s : Scan} {pos : ℕ} (h : pos + 1 = value.length) :
    pushItem value s pos false = pushToken value s (pos + 1) := by
  have heq : pos = value.length - 1 := by omega
  simp [pushItem, heq]

theorem pushItem_comma (value : List UInt8) (s : Scan) (pos : ℕ) :
    pushItem value s pos true = pushToken value s pos := by
  simp [pushItem]

theorem parseLoop_readChars {value bytes : List UInt8} {pos : ℕ} {s s' : Scan}
    (h : readChars value bytes pos s = some s') (hlt : pos + bytes.length < value.length) (tail : List UInt8) :
    parseLoop value (bytes ++ tail) pos s = parseLoop value tail (pos + bytes.length) s' := by
  induction bytes generalizing pos s with
  | nil =>
    cases h
    rfl
  | cons ch rest ih =>
    obtain ⟨s₁, hread, hrest⟩ := readChars_cons_eq_some h
    simp only [List.length_cons] at hlt
    rw [List.cons_append, parseLoop, hread]
    dsimp only
    rw [pushItem_of_lt (by omega)]
    dsimp only
    rw [ih hrest (by omega), List.length_cons]
    congr 1
    omega

theorem parseLoop_readChars_last {value bytes : List UInt8} {pos : ℕ} {s s' : Scan}
    (h : readChars value bytes pos s = some s') (hne : bytes ≠ []) (hlen : pos + bytes.length = value.length) :
    parseLoop value bytes pos s = (pushToken value s' value.length).map .inr := by
  obtain ⟨init, last, rfl⟩ := List.eq_nil_or_concat bytes |>.resolve_left hne
  rw [List.concat_eq_append] at h hlen ⊢
  rw [readChars_append] at h
  obtain ⟨s₁, hinit, hlast⟩ := Option.bind_eq_some_iff.mp h
  obtain ⟨s₂, hread, hnil⟩ := readChars_cons_eq_some hlast
  cases hnil
  simp only [List.length_append, List.length_singleton] at hlen
  rw [parseLoop_readChars hinit (by omega), parseLoop, hread]
  dsimp only
  rw [pushItem_last (by omega), show pos + init.length + 1 = value.length by omega]
  generalize pushToken value s' value.length = pushed
  cases pushed <;> rfl

theorem parseLoop_readChars_comma {value bytes : List UInt8} {pos : ℕ} {s s' : Scan}
    (h : readChars value bytes pos s = some s') (hlt : pos + bytes.length < value.length) (tail : List UInt8) :
    parseLoop value (bytes ++ 44 :: tail) pos s =
      match pushToken value s' (pos + bytes.length) with
      | .error e => .error e
      | .ok s'' => parseLoop value tail (pos + bytes.length + 1) s'' := by
  rw [parseLoop_readChars h hlt, parseLoop]
  simp only [readChar, if_true, pushItem_comma]

/-! ## The grammar -/

/-- The value of a run of decimal digits. -/
def decimalValue (digits : List UInt8) : ℕ := digits.foldl (fun value d => 10 * value + (d.toNat - 48)) 0

/-- A decimal `u32`: a non-empty run of digits whose value fits in 32 bits. -/
structure IsNumber (digits : List UInt8) : Prop where
  ne_nil : digits ≠ []
  isDigit : ∀ d ∈ digits, isAsciiDigit d = true
  lt : decimalValue digits < 2 ^ 32

/-- An item of the sequence-set grammar of RFC 9051 with `$`: the saved search, `*`, a
number, or two ends joined by `:`, an end being `*` (`none`) or a number. -/
inductive Item where
  | savedSearch
  | wildcard
  | number (digits : List UInt8)
  | range (first second : Option (List UInt8))

/-- The bytes of an item. -/
def Item.bytes : Item → List UInt8
  | .savedSearch => [36]
  | .wildcard => [42]
  | .number digits => digits
  | .range first second => first.getD [42] ++ 58 :: second.getD [42]

/-- The numbers of an item are decimal `u32`s. -/
def Item.WellFormed : Item → Prop
  | .number digits => IsNumber digits
  | .range first second => (∀ digits ∈ first, IsNumber digits) ∧ (∀ digits ∈ second, IsNumber digits)
  | _ => True

/-- The value of a decimal `u32`. -/
def numberOf (digits : List UInt8) : UInt32 := UInt32.ofNat (decimalValue digits)

/-- The `Sequence` an item stands for. -/
def Item.sequence : Item → Sequence
  | .savedSearch => .savedSearch
  | .wildcard => .range none none
  | .number digits => .number (numberOf digits)
  | .range first second => .range (first.map numberOf) (second.map numberOf)

/-- The bytes of a comma-separated list of items. -/
def itemsBytes (items : List Item) : List UInt8 := [44].intercalate (items.map Item.bytes)

/-- The sequence a list of items stands for: a single item unwrapped. -/
def itemsSequence : List Item → Sequence
  | [item] => item.sequence
  | items => .list (items.map Item.sequence)

/-- The sequence sets of the grammar: non-empty comma-separated lists of items. -/
def InGrammar (value : List UInt8) : Prop :=
  ∃ items : List Item, items ≠ [] ∧ (∀ item ∈ items, item.WellFormed) ∧ value = itemsBytes items

/-! ## Numbers -/

theorem foldl_digitsValue_none (digits : List UInt8) :
    digits.foldl (fun acc ch => acc.bind fun value =>
      if isAsciiDigit ch ∧ 10 * value + (ch.toNat - 48) < 2 ^ 32 then some (10 * value + (ch.toNat - 48))
      else none) none = none := by
  induction digits with
  | nil => rfl
  | cons d ds ih => exact ih

theorem le_foldl_decimal (digits : List UInt8) (value : ℕ) :
    value ≤ digits.foldl (fun value d => 10 * value + (d.toNat - 48)) value := by
  induction digits generalizing value with
  | nil => exact le_refl _
  | cons d ds ih => exact le_trans (show value ≤ 10 * value + (d.toNat - 48) by omega) (ih _)

/-- Reading digits with the overflow check gives their value when it fits: every value on
the way is at most the last. -/
theorem foldl_digitsValue_some {digits : List UInt8} (hd : ∀ d ∈ digits, isAsciiDigit d = true)
    (value : ℕ) (hlt : digits.foldl (fun value d => 10 * value + (d.toNat - 48)) value < 2 ^ 32) :
    digits.foldl (fun acc ch => acc.bind fun value =>
      if isAsciiDigit ch ∧ 10 * value + (ch.toNat - 48) < 2 ^ 32 then some (10 * value + (ch.toNat - 48))
      else none) (some value) = some (digits.foldl (fun value d => 10 * value + (d.toNat - 48)) value) := by
  induction digits generalizing value with
  | nil => rfl
  | cons d ds ih =>
    have hstep : 10 * value + (d.toNat - 48) < 2 ^ 32 :=
      lt_of_le_of_lt (le_foldl_decimal ds _) hlt
    simp only [List.foldl_cons, Option.bind_some, hd d List.mem_cons_self, true_and, if_pos hstep]
    exact ih (fun d' hd' => hd d' (List.mem_cons_of_mem _ hd')) _ hlt

theorem parseNumber_of_isNumber {digits : List UInt8} (h : IsNumber digits) :
    parseNumber digits = .ok (numberOf digits) := by
  obtain ⟨hne, hd, hlt⟩ := h
  obtain ⟨d, ds, rfl⟩ := List.exists_cons_of_ne_nil hne
  have hdig := hd d List.mem_cons_self
  have hsign : ¬ (d = 43 ∨ d = 45) := by
    simp only [isAsciiDigit, Bool.and_eq_true, decide_eq_true_eq, UInt8.le_iff_toNat_le] at hdig
    rintro (rfl | rfl) <;> simp at hdig
  have hplus : d ≠ 43 := fun h => hsign (Or.inl h)
  have hminus : d ≠ 45 := fun h => hsign (Or.inr h)
  simp only [parseNumber, fromStrU32, hplus, hminus, or_self, false_and, if_false, digitsValue,
    foldl_digitsValue_some hd 0 hlt, Option.map_some]
  rfl

theorem slice_of_drop {value bytes rest : List UInt8} {start : ℕ} (h : value.drop start = bytes ++ rest)
    (hne : bytes ≠ []) : slice value start (start + bytes.length) = some bytes := by
  have hlen : start + bytes.length ≤ value.length := by
    have := congrArg List.length h
    have hpos := List.length_pos_of_ne_nil hne
    simp only [List.length_drop, List.length_append] at this
    omega
  simp [slice, hlen, h]

theorem tokenNumber_of_drop {value digits rest : List UInt8} {start : ℕ} (h : value.drop start = digits ++ rest)
    (hn : IsNumber digits) : tokenNumber value (some start) (start + digits.length) = .ok (numberOf digits) := by
  rw [tokenNumber, slice_of_drop h hn.ne_nil]
  exact parseNumber_of_isNumber hn

/-! ## The passes over the bytes of an item -/

section Passes

variable {value : List UInt8} {s : Scan} {pos : ℕ}

theorem readChar_digit {ch : UInt8} (hd : isAsciiDigit ch = true) (hw : s.isWildcard = false) :
    readChar value s pos ch =
      .next (if s.tokenStart = none then { s with tokenStart := some pos } else s) false := by
  have hb := hd
  simp only [isAsciiDigit, Bool.and_eq_true, decide_eq_true_eq, UInt8.le_iff_toNat_le] at hb
  have h44 : ch ≠ 44 := by rintro rfl; simp at hb
  have h58 : ch ≠ 58 := by rintro rfl; simp at hb
  have h42 : ch ≠ 42 := by rintro rfl; simp at hb
  have h36 : ch ≠ 36 := by rintro rfl; simp at hb
  simp [readChar, h44, h58, h42, h36, hd, hw]

theorem readChar_colon_number {t : ℕ} {bytes : List UInt8} {n : UInt32} (hr : s.isRange = false)
    (ht : s.tokenStart = some t) (hslice : slice value t pos = some bytes) (hnum : parseNumber bytes = .ok n) :
    readChar value s pos 58 = .next { s with rangeStart := some n, tokenStart := none, isRange := true } false := by
  simp [readChar, hr, ht, hslice, hnum]

theorem readChar_colon_wildcard (hr : s.isRange = false) (ht : s.tokenStart = none) (hw : s.isWildcard = true) :
    readChar value s pos 58 = .next { s with isWildcard := false, isRange := true } false := by
  simp [readChar, hr, ht, hw]

theorem readChar_star (hw : s.isWildcard = false) (hlen : value.length ≠ 1) (ht : s.tokenStart = none) :
    readChar value s pos 42 = .next { s with isWildcard := true } false := by
  simp [readChar, hw, hlen, ht]

theorem readChar_dollar (h : (value[pos + 1]?).all (· == 44) = true) :
    readChar value s pos 36 = .next { s with isSavedSearch := true } false := by
  simp only [readChar, h]
  rfl

theorem readChars_digits {digits : List UInt8} (hd : ∀ d ∈ digits, isAsciiDigit d = true)
    (hw : s.isWildcard = false) (ht : s.tokenStart ≠ none) : readChars value digits pos s = some s := by
  induction digits generalizing pos with
  | nil => rfl
  | cons d ds ih =>
    rw [readChars_cons_of_next (by rw [readChar_digit (hd d List.mem_cons_self) hw, if_neg ht])]
    exact ih (fun d' hd' => hd d' (List.mem_cons_of_mem _ hd'))

theorem readChars_number {digits : List UInt8} (hd : ∀ d ∈ digits, isAsciiDigit d = true) (hne : digits ≠ [])
    (hw : s.isWildcard = false) (ht : s.tokenStart = none) :
    readChars value digits pos s = some { s with tokenStart := some pos } := by
  obtain ⟨d, ds, rfl⟩ := List.exists_cons_of_ne_nil hne
  rw [readChars_cons_of_next (by rw [readChar_digit (hd d List.mem_cons_self) hw, if_pos ht])]
  exact readChars_digits (fun d' hd' => hd d' (List.mem_cons_of_mem _ hd')) hw (by simp)

end Passes

/-! ## Reading an item -/

theorem drop_of_drop_append {value xs ys : List UInt8} {pos : ℕ} (h : value.drop pos = xs ++ ys) :
    value.drop (pos + xs.length) = ys := by
  rw [← List.drop_drop, h, List.drop_left]

theorem getElem?_succ_of_drop {value rest : List UInt8} {ch : UInt8} {pos : ℕ} (h : value.drop pos = ch :: rest) :
    value[pos + 1]? = rest.head? := by
  rw [← List.getElem?_drop, h]
  cases rest <;> rfl

theorem Item.bytes_range (first second : Option (List UInt8)) :
    (Item.range first second).bytes = (first.getD [42] ++ [58]) ++ second.getD [42] := by
  simp [Item.bytes]

theorem Item.bytes_ne_nil {item : Item} (h : item.WellFormed) : item.bytes ≠ [] := by
  cases item with
  | number digits => exact h.ne_nil
  | range first second => simp [Item.bytes]
  | savedSearch | wildcard => simp [Item.bytes]

theorem length_getD_pos {bound : Option (List UInt8)} (h : ∀ digits ∈ bound, IsNumber digits) :
    0 < (bound.getD [42]).length := by
  cases bound with
  | none => exact Nat.one_pos
  | some digits => exact List.length_pos_of_ne_nil (h digits rfl).ne_nil

/-- Reading one end of a range and the colon after it: `*`, or a number, which becomes the
start of the range. -/
theorem readChars_rangeStart {value rest : List UInt8} {pos : ℕ} {first : Option (List UInt8)}
    (hwf : ∀ digits ∈ first, IsNumber digits) (acc : List Sequence)
    (hdrop : value.drop pos = first.getD [42] ++ 58 :: rest) (hone : value.length ≠ 1) :
    readChars value (first.getD [42] ++ [58]) pos (Scan.clean acc) =
      some { Scan.clean acc with rangeStart := first.map numberOf, isRange := true } := by
  rw [readChars_append]
  cases first with
  | none =>
    rw [Option.getD_none, readChars_cons_of_next (readChar_star rfl hone rfl)]
    exact readChars_cons_of_next (readChar_colon_wildcard (s := { Scan.clean acc with isWildcard := true })
      rfl rfl rfl)
  | some digits =>
    have hn := hwf digits rfl
    rw [Option.getD_some, readChars_number hn.isDigit hn.ne_nil rfl rfl, Option.bind_some]
    exact readChars_cons_of_next
      (readChar_colon_number rfl rfl (slice_of_drop hdrop hn.ne_nil) (parseNumber_of_isNumber hn))

theorem readChars_rangeEnd {value rest : List UInt8} {pos : ℕ} {second : Option (List UInt8)}
    (hwf : ∀ digits ∈ second, IsNumber digits) (acc : List Sequence) (start : Option UInt32)
    (hdrop : value.drop pos = second.getD [42] ++ rest) (hone : value.length ≠ 1) :
    ∃ s', readChars value (second.getD [42]) pos
        { Scan.clean acc with rangeStart := start, isRange := true } = some s' ∧
      pushToken value s' (pos + (second.getD [42]).length) =
        .ok (Scan.clean (acc ++ [.range start (second.map numberOf)])) := by
  cases second with
  | none =>
    refine ⟨_, readChars_cons_of_next (readChar_star rfl hone rfl), ?_⟩
    rfl
  | some digits =>
    have hn := hwf digits rfl
    rw [Option.getD_some] at hdrop
    refine ⟨_, readChars_number hn.isDigit hn.ne_nil rfl rfl, ?_⟩
    simp [pushToken, tokenNumber_of_drop hdrop hn, Scan.push, Scan.clean, Except.map]

/-- Reading the bytes of a well-formed item, followed by a comma or the end of the input,
leaves the scan from which the comma or the last byte pushes the item's sequence. -/
theorem Item.read {item : Item} (hwf : item.WellFormed) (acc : List Sequence) {value rest : List UInt8}
    {pos : ℕ} (hdrop : value.drop pos = item.bytes ++ rest) (hnext : rest.head?.all (· == 44) = true)
    (hone : item = .wildcard → value.length ≠ 1) :
    ∃ s', readChars value item.bytes pos (Scan.clean acc) = some s' ∧
      pushToken value s' (pos + item.bytes.length) = .ok (Scan.clean (acc ++ [item.sequence])) := by
  cases item with
  | savedSearch =>
    have hdollar : (value[pos + 1]?).all (· == 44) = true := by
      rwa [getElem?_succ_of_drop hdrop]
    exact ⟨_, readChars_cons_of_next (readChar_dollar hdollar), rfl⟩
  | wildcard => exact ⟨_, readChars_cons_of_next (readChar_star rfl (hone rfl) rfl), rfl⟩
  | number digits =>
    simp only [Item.bytes] at hdrop ⊢
    refine ⟨_, readChars_number hwf.isDigit hwf.ne_nil rfl rfl, ?_⟩
    simp [pushToken, tokenNumber_of_drop hdrop hwf, Scan.push, Scan.clean, Item.sequence, Except.map]
  | range first second =>
    rw [Item.bytes_range, List.append_assoc] at hdrop
    have hlong : value.length ≠ 1 := by
      have hlen := congrArg List.length hdrop
      have hfirst := length_getD_pos hwf.1
      simp only [List.length_drop, List.length_append, List.length_cons, List.length_nil] at hlen
      omega
    have hstart := readChars_rangeStart hwf.1 acc
      (by rw [hdrop, List.append_assoc, List.singleton_append]) hlong
    obtain ⟨s', hread, hpush⟩ := readChars_rangeEnd hwf.2 acc (first.map numberOf)
      (drop_of_drop_append hdrop) hlong
    refine ⟨s', ?_, ?_⟩
    · rw [Item.bytes_range, readChars_append, hstart, Option.bind_some]
      exact hread
    · rw [Item.bytes_range, List.length_append, ← Nat.add_assoc]
      exact hpush

/-! ## Reading a list of items -/

theorem itemsBytes_singleton (item : Item) : itemsBytes [item] = item.bytes := by
  simp [itemsBytes]

theorem itemsBytes_cons_cons (item item' : Item) (items : List Item) :
    itemsBytes (item :: item' :: items) = item.bytes ++ 44 :: itemsBytes (item' :: items) := by
  simp [itemsBytes, List.intercalate_cons_cons]

/-- The bytes from `pos` on that follow `xs`: `pos + xs.length` is inside the input when
more bytes follow. -/
theorem length_of_drop_append {value xs ys : List UInt8} {pos : ℕ} (h : value.drop pos = xs ++ ys)
    (hne : xs ++ ys ≠ []) : pos + xs.length + ys.length = value.length := by
  have hlen := congrArg List.length h
  have hpos : pos < value.length := by
    by_contra hge
    exact hne (h ▸ List.drop_eq_nil_of_le (Nat.le_of_not_lt hge))
  simp only [List.length_drop, List.length_append] at hlen
  omega

/-- The loop over a comma-separated list of well-formed items pushes the sequence of each,
in order, and never returns early. The induction is on the items; each one is read by
`Item.read`, the comma after it pushes it and the last byte pushes the last one. -/
theorem parseLoop_itemsBytes {value : List UInt8} :
    ∀ {items : List Item} (acc : List Sequence) (pos : ℕ), items ≠ [] → (∀ item ∈ items, item.WellFormed) →
      (∀ item ∈ items, item = .wildcard → value.length ≠ 1) → value.drop pos = itemsBytes items →
      parseLoop value (itemsBytes items) pos (Scan.clean acc) =
        .ok (.inr (Scan.clean (acc ++ items.map Item.sequence)))
  | [], _, _, hne, _, _, _ => absurd rfl hne
  | [item], acc, pos, _, hwf, hone, hdrop => by
    have hwf₁ := hwf item List.mem_cons_self
    rw [itemsBytes_singleton] at hdrop ⊢
    have hdrop' : value.drop pos = item.bytes ++ [] := by rw [List.append_nil]; exact hdrop
    obtain ⟨s', hread, hpush⟩ := Item.read hwf₁ acc hdrop' rfl (hone item List.mem_cons_self)
    have hlen := length_of_drop_append hdrop' (by rw [List.append_nil]; exact Item.bytes_ne_nil hwf₁)
    rw [List.length_nil, Nat.add_zero] at hlen
    rw [parseLoop_readChars_last hread (Item.bytes_ne_nil hwf₁) hlen, ← hlen, hpush]
    rfl
  | item :: item' :: items, acc, pos, _, hwf, hone, hdrop => by
    have hwf₁ := hwf item List.mem_cons_self
    rw [itemsBytes_cons_cons] at hdrop ⊢
    obtain ⟨s', hread, hpush⟩ := Item.read hwf₁ acc hdrop rfl (hone item List.mem_cons_self)
    have hlen := length_of_drop_append hdrop (by simp)
    have htail : value.drop (pos + (item.bytes ++ [44]).length) = itemsBytes (item' :: items) :=
      drop_of_drop_append (by rw [hdrop, List.append_assoc, List.singleton_append])
    rw [parseLoop_readChars_comma hread (by simp only [List.length_cons] at hlen; omega), hpush]
    dsimp only
    rw [List.length_append, List.length_singleton, ← Nat.add_assoc] at htail
    rw [parseLoop_itemsBytes (acc ++ [item.sequence]) _ (List.cons_ne_nil _ _)
      (fun i hi => hwf i (List.mem_cons_of_mem _ hi)) (fun i hi => hone i (List.mem_cons_of_mem _ hi)) htail]
    simp

/-- Every non-empty comma-separated list of well-formed items is parsed to the sequence of
its items, in order, a single item unwrapped. -/
theorem parseSequenceSet_itemsBytes {items : List Item} (hne : items ≠ []) (hwf : ∀ item ∈ items, item.WellFormed) :
    parseSequenceSet (itemsBytes items) = .ok (itemsSequence items) := by
  by_cases hstar : items = [.wildcard]
  · -- the input `*` returns from its first pass
    subst hstar
    rfl
  have hone : ∀ item ∈ items, item = .wildcard → (itemsBytes items).length ≠ 1 := by
    rintro item hitem rfl
    match items, hstar, hitem with
    | [item], hstar, hitem =>
      rw [List.mem_singleton] at hitem
      exact absurd (by rw [hitem]) hstar
    | item :: item' :: items, _, _ =>
      rw [itemsBytes_cons_cons, List.length_append, List.length_cons]
      have := List.length_pos_of_ne_nil (Item.bytes_ne_nil (hwf item List.mem_cons_self))
      omega
  rw [parseSequenceSet, parseLoop_itemsBytes [] 0 hne hwf hone List.drop_zero]
  match items, hne with
  | [_], _ => rfl
  | _ :: _ :: _, _ => rfl

/-! ## Digits before a saved search -/

/-- The `$` arm of the loop reads only the byte after it, so a number before it is dropped
and the saved search is pushed alone. -/
theorem readChars_digits_dollar {digits : List UInt8} (hne : digits ≠ []) (hd : ∀ d ∈ digits, isAsciiDigit d = true) :
    readChars (digits ++ [36]) (digits ++ [36]) 0 (Scan.clean []) =
      some { Scan.clean [] with tokenStart := some 0, isSavedSearch := true } := by
  have hlast : (digits ++ [36])[digits.length + 1]? = none :=
    List.getElem?_eq_none (by simp)
  rw [readChars_append, readChars_number hd hne rfl rfl, Option.bind_some, Nat.zero_add]
  exact readChars_cons_of_next (readChar_dollar (by rw [hlast]; rfl))

/-- The bytes of an item that is not the saved search hold a byte that is neither a digit
nor `$`; the saved search itself has no digit before it. -/
theorem not_itemsBytes_digits_dollar {digits : List UInt8} (hne : digits ≠ [])
    (hd : ∀ d ∈ digits, isAsciiDigit d = true) {items : List Item} (hwf : ∀ item ∈ items, item.WellFormed) :
    digits ++ [36] ≠ itemsBytes items := by
  intro heq
  have hbad : ∀ x, isAsciiDigit x = false → x ≠ 36 → x ∉ itemsBytes items := by
    intro x hx h36 hmem
    rw [← heq, List.mem_append, List.mem_singleton] at hmem
    rcases hmem with hmem | rfl
    · rw [hd x hmem] at hx
      cases hx
    · exact h36 rfl
  match items, hwf, heq, hbad with
  | [], _, heq, _ => simp [itemsBytes] at heq
  | item :: item' :: items, _, _, hbad =>
    exact hbad 44 (by decide) (by decide) (by rw [itemsBytes_cons_cons]; simp)
  | [item], hwf, heq, hbad =>
    rw [itemsBytes_singleton] at heq hbad
    cases item with
    | savedSearch =>
      have hlen := congrArg List.length heq
      simp only [Item.bytes, List.length_append, List.length_singleton] at hlen
      exact hne (List.eq_nil_of_length_eq_zero (by omega))
    | wildcard => exact hbad 42 (by decide) (by decide) (by simp [Item.bytes])
    | number ds =>
      have hdig := (hwf _ List.mem_cons_self).isDigit 36
        (by rw [show ds = digits ++ [36] from heq.symm]; simp)
      exact absurd hdig (by decide)
    | range first second => exact hbad 58 (by decide) (by decide) (by simp [Item.bytes])

theorem parseSequenceSet_digits_savedSearch {digits : List UInt8} (hne : digits ≠ [])
    (hd : ∀ d ∈ digits, isAsciiDigit d = true) :
    parseSequenceSet (digits ++ [36]) = .ok .savedSearch ∧ ¬ InGrammar (digits ++ [36]) := by
  constructor
  · rw [parseSequenceSet, parseLoop_readChars_last (readChars_digits_dollar hne hd) (by simp) (by simp)]
    rfl
  · rintro ⟨items, -, hwf, heq⟩
    exact not_itemsBytes_digits_dollar hne hd hwf heq

theorem parseSequenceSet_digits_savedSearch_one :
    ([49] : List UInt8) ≠ [] ∧ (∀ d ∈ ([49] : List UInt8), isAsciiDigit d = true) ∧
      parseSequenceSet [49, 36] = .ok .savedSearch ∧ ¬ InGrammar [49, 36] := by
  have hd : ∀ d ∈ ([49] : List UInt8), isAsciiDigit d = true := fun d hd => by
    rw [List.mem_singleton.mp hd]
    rfl
  exact ⟨List.cons_ne_nil _ _, hd, parseSequenceSet_digits_savedSearch (List.cons_ne_nil _ _) hd⟩

end MailServer.ImapProto.Parser
