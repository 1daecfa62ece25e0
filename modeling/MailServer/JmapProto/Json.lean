import Mathlib

/-! # `Parser`: decoding and skipping JSON strings

After the opening quote of a string, `next_token` hands the parser to the value's
`JsonObjectParser`: `String::parse` decodes the string and `Ignore::parse` only
skips it with `Parser::skip_string`, which is how `skip_token` passes over the
values of unknown properties.

JSON ends a string at the first quote that no backslash escapes, a backslash
escaping exactly the next byte (`closingQuote`). `String::parse` stops there
(`parseEscaped_closingQuote`). `skip_string` only looks at the byte before each
quote: it stops at the same place while no backslash is itself escaped
(`ignoreParse_of_stringParse`), and reads past the end of a string whose last
escape is `\\`.

`next_token` reads a string value with `String::parse`. That decodes each `\u` escape
on its own, so a character outside the Basic Multilingual Plane, which RFC 8259 escapes
as a surrogate pair, is refused (`nextTokenString_surrogateEscape`).
-/

namespace MailServer.JmapProto.Json

/-- The fields of `Parser` that reading a string uses: the whole input, the
bytes left in the iterator, the position and `is_eof`. -/
structure Parser where
  bytes : List UInt8
  iter : List UInt8
  pos : ℕ
  isEof : Bool
  deriving DecidableEq, Repr

/-- A `NotJson` error: its message and the position its details name. -/
structure JsonError where
  message : String
  pos : ℕ
  deriving DecidableEq, Repr

/-- `Parser::error`. -/
def Parser.error (p : Parser) (message : String) : JsonError := ⟨message, p.pos⟩

/-- `Parser::error_unterminated`. -/
def Parser.errorUnterminated (p : Parser) : JsonError := p.error "Unterminated string"

/-- `Parser::error_utf8`. -/
def Parser.errorUtf8 (p : Parser) : JsonError := p.error "Invalid UTF-8 sequence"

/-- `Parser::next_char`: the position moves on also at the end of the input. -/
def Parser.nextChar (p : Parser) : Option UInt8 × Parser :=
  (p.iter.head?, { p with iter := p.iter.tail, pos := p.pos + 1 })

theorem Parser.length_iter_nextChar {p p' : Parser} {ch : UInt8} (h : p.nextChar = (some ch, p')) :
    p'.iter.length < p.iter.length := by
  simp only [Parser.nextChar, Prod.mk.injEq] at h
  obtain ⟨hhead, rfl⟩ := h
  cases hi : p.iter with
  | nil => simp [hi] at hhead
  | cons c rest => simp

/-! ## The two readers -/

set_option linter.unusedVariables false in
/-- The loop of `Parser::skip_string`, after the byte `lastCh`. -/
def skipStringFrom (lastCh : UInt8) (p : Parser) : Bool × Parser :=
  match h : p.nextChar with
  | (none, p') => (false, p')
  | (some ch, p') =>
    if ch = 34 ∧ lastCh ≠ 92 then (true, { p' with isEof := true })
    else skipStringFrom ch p'
termination_by p.iter.length
decreasing_by exact Parser.length_iter_nextChar h

/-- `Parser::skip_string`. -/
def skipString (p : Parser) : Bool × Parser := skipStringFrom 0 p

/-- `JsonObjectParser for Ignore`, with the parser it leaves. -/
def ignoreParse (p : Parser) : Except JsonError Parser :=
  match skipString p with
  | (true, p') => .ok p'
  | (false, p') => .error p'.errorUnterminated

/-- `String::from_utf8` and `str::from_utf8`. -/
def fromUtf8 (bytes : List UInt8) : Option String := String.fromUTF8? ⟨bytes.toArray⟩

/-- The byte that an escape other than `\u` stands for. -/
def unescape (ch : UInt8) : UInt8 :=
  match ch with
  | 34 => 34
  | 92 => 92
  | 110 => 10
  | 116 => 9
  | 114 => 13
  | 98 => 8
  | 102 => 12
  | 47 => 47
  | _ => ch

/-- `char::to_digit(16)`. -/
def hexDigit (ch : UInt8) : Option ℕ :=
  if 48 ≤ ch ∧ ch ≤ 57 then some (ch.toNat - 48)
  else if 97 ≤ ch ∧ ch ≤ 102 then some (ch.toNat - 87)
  else if 65 ≤ ch ∧ ch ≤ 70 then some (ch.toNat - 55)
  else none

/-- The digits loop of `from_str_radix`. -/
def hexValue (digits : List UInt8) : Option ℕ :=
  digits.foldl (fun acc ch => acc.bind fun value => (hexDigit ch).map (value * 16 + ·)) (some 0)

/-- `u32::from_str_radix(_, 16)` on four bytes, which cannot overflow: a lone
sign is refused and a leading `+` is skipped. -/
def fromStrRadix16 (src : List UInt8) : Option ℕ :=
  match src with
  | [] => none
  | ch :: rest =>
    if (ch = 43 ∨ ch = 45) ∧ rest = [] then none
    else if ch = 43 then hexValue rest
    else hexValue src

/-- The four bytes after `\u`, which `String::parse` takes from the iterator
directly (the position moves on once all four are read), decoded to the UTF-8
bytes of the code point they name. -/
def readUnicode (p : Parser) : Except JsonError (List UInt8 × Parser) :=
  match p.iter with
  | a :: b :: c :: d :: rest =>
    let p := { p with iter := rest, pos := p.pos + 4 }
    match fromUtf8 [a, b, c, d] with
    | none => .error p.errorUtf8
    | some codeStr =>
      match fromStrRadix16 [a, b, c, d] with
      | none => .error (p.error ("Invalid unicode sequence " ++ codeStr))
      | some code =>
        if code.isValidChar then .ok (String.utf8EncodeChar (Char.ofNat code), p)
        else .error (p.error ("Invalid unicode sequence " ++ codeStr))
  | _ => .error (p.error "Incomplete unicode sequence")

theorem readUnicode_ok {p q : Parser} {code : List UInt8} (h : readUnicode p = .ok (code, q)) :
    ∃ a b c d value, p.iter = a :: b :: c :: d :: q.iter ∧ q.pos = p.pos + 4 ∧
      q.bytes = p.bytes ∧ q.isEof = p.isEof ∧ fromStrRadix16 [a, b, c, d] = some value := by
  unfold readUnicode at h
  split at h
  · rename_i a b c d rest hi
    split at h
    · cases h
    · split at h
      · cases h
      · rename_i value hvalue
        split at h
        · cases h
          exact ⟨a, b, c, d, value, hi, rfl, rfl, rfl, hvalue⟩
        · cases h
  · cases h

/-- What one pass of the escape loop of `String::parse` leads to: the loop goes
on with its flag, buffer and parser, or the parse is done. -/
inductive Scan where
  | next (isEscaped : Bool) (buf : List UInt8) (p : Parser)
  | done (result : Except JsonError (String × Parser))

/-- One pass of the loop of `String::parse` after its first backslash, on the
byte `ch` just read. -/
def escapedStep (isEscaped : Bool) (buf : List UInt8) (ch : UInt8) (p : Parser) : Scan :=
  if ch = 92 ∧ isEscaped = false then .next true buf p
  else if ch = 34 ∧ isEscaped = false then
    .done (match fromUtf8 buf with
      | some s => .ok (s, { p with isEof := true })
      | none => .error p.errorUtf8)
  else if isEscaped = false then .next false (buf ++ [ch]) p
  else if ch = 117 then
    match readUnicode p with
    | .error e => .done (.error e)
    | .ok (code, p) => .next false (buf ++ code) p
  else .next false (buf ++ [unescape ch]) p

theorem escapedStep_next_length {isEscaped isEscaped' : Bool} {buf buf' : List UInt8} {ch : UInt8}
    {p q : Parser} (h : escapedStep isEscaped buf ch p = .next isEscaped' buf' q) :
    q.iter.length ≤ p.iter.length := by
  unfold escapedStep at h
  split_ifs at h
  · cases h
    exact Nat.le_refl _
  · cases h
    exact Nat.le_refl _
  · -- `\u` reads four more bytes
    split at h
    · cases h
    · rename_i code p' hu
      cases h
      obtain ⟨a, b, c, d, -, hi, -⟩ := readUnicode_ok hu
      simp only [hi, List.length_cons]
      omega
  · cases h
    exact Nat.le_refl _

set_option linter.unusedVariables false in
/-- The loop of `String::parse` once a backslash was read; `buf` holds the bytes
decoded so far. -/
def parseEscaped (isEscaped : Bool) (buf : List UInt8) (p : Parser) :
    Except JsonError (String × Parser) :=
  match h : p.nextChar with
  | (none, p') => .error p'.errorUnterminated
  | (some ch, p') =>
    match hs : escapedStep isEscaped buf ch p' with
    | .done result => result
    | .next isEscaped buf p'' => parseEscaped isEscaped buf p''
termination_by p.iter.length
decreasing_by
  exact Nat.lt_of_le_of_lt (escapedStep_next_length hs) (Parser.length_iter_nextChar h)

/-- `bytes[start..stop]`; every slice `String::parse` takes is in range. -/
def byteSlice (bytes : List UInt8) (start stop : ℕ) : List UInt8 :=
  (bytes.drop start).take (stop - start)

set_option linter.unusedVariables false in
/-- The loop of `String::parse` before any backslash: a string without escapes
is the slice of the input up to its closing quote. -/
def parsePlain (startPos : ℕ) (p : Parser) : Except JsonError (String × Parser) :=
  match h : p.nextChar with
  | (none, p') => .error p'.errorUnterminated
  | (some ch, p') =>
    if ch = 92 then parseEscaped true (byteSlice p'.bytes startPos (p'.pos - 1)) p'
    else if ch = 34 then
      match fromUtf8 (byteSlice p'.bytes startPos (p'.pos - 1)) with
      | some s => .ok (s, { p' with isEof := true })
      | none => .error p'.errorUtf8
    else parsePlain startPos p'
termination_by p.iter.length
decreasing_by exact Parser.length_iter_nextChar h

/-- `JsonObjectParser for String`. -/
def stringParse (p : Parser) : Except JsonError (String × Parser) := parsePlain p.pos p

/-! ## Where a JSON string ends -/

/-- The bytes of a string up to and including the first quote that no backslash
escapes, a backslash escaping exactly the next byte; `escaped` says the byte
before was an escaping backslash. -/
def closingQuote (escaped : Bool) : List UInt8 → Option ℕ
  | [] => none
  | ch :: rest =>
    if escaped then (closingQuote false rest).map (· + 1)
    else if ch = 34 then some 1
    else if ch = 92 then (closingQuote true rest).map (· + 1)
    else (closingQuote false rest).map (· + 1)

theorem closingQuote_plain {ch : UInt8} (h34 : ch ≠ 34) (h92 : ch ≠ 92) (rest : List UInt8) :
    closingQuote false (ch :: rest) = (closingQuote false rest).map (· + 1) := by
  simp [closingQuote, h34, h92]

theorem closingQuote_cons {escaped : Bool} {ch : UInt8} (h : ¬ (ch = 34 ∧ escaped = false))
    (rest : List UInt8) :
    closingQuote escaped (ch :: rest) = (closingQuote (decide (ch = 92) && !escaped) rest).map (· + 1) := by
  cases escaped with
  | true => simp [closingQuote]
  | false =>
    have h34 : ch ≠ 34 := fun h34 => h ⟨h34, rfl⟩
    by_cases h92 : ch = 92 <;> simp [closingQuote, h34, h92]

theorem hexDigit_plain {ch : UInt8} {value : ℕ} (h : hexDigit ch = some value) : ch ≠ 34 ∧ ch ≠ 92 := by
  have h34 : hexDigit 34 = none := by decide
  have h92 : hexDigit 92 = none := by decide
  constructor
  · rintro rfl
    rw [h34] at h
    cases h
  · rintro rfl
    rw [h92] at h
    cases h

theorem foldl_hexValue_none (digits : List UInt8) :
    digits.foldl (fun acc ch => acc.bind fun value => (hexDigit ch).map (value * 16 + ·)) none = none := by
  induction digits with
  | nil => rfl
  | cons ch digits ih => exact ih

theorem plain_of_foldl_hexValue {value : ℕ} (digits : List UInt8) :
    ∀ acc, digits.foldl (fun acc ch => acc.bind fun value => (hexDigit ch).map (value * 16 + ·)) acc =
      some value → ∀ x ∈ digits, x ≠ 34 ∧ x ≠ 92 := by
  induction digits with
  | nil => intro _ _ x hx; cases hx
  | cons ch digits ih =>
    intro acc h x hx
    rw [List.foldl_cons] at h
    rcases List.mem_cons.mp hx with rfl | hx
    · cases hd : hexDigit x with
      | none => simp [hd, foldl_hexValue_none] at h
      | some d => exact hexDigit_plain hd
    · exact ih _ h x hx

/-- The bytes of a number that `from_str_radix` accepts are neither quotes nor
backslashes. -/
theorem plain_of_fromStrRadix16 {src : List UInt8} {value : ℕ} (h : fromStrRadix16 src = some value) :
    ∀ x ∈ src, x ≠ 34 ∧ x ≠ 92 := by
  unfold fromStrRadix16 at h
  split at h
  · cases h
  · rename_i ch rest
    split_ifs at h with hsign h43
    · intro x hx
      rcases List.mem_cons.mp hx with rfl | hx
      · rw [h43]
        decide
      · exact plain_of_foldl_hexValue rest _ h x hx
    · exact plain_of_foldl_hexValue _ _ h

theorem closingQuote_unicode {a b c d : UInt8} {value : ℕ} (h : fromStrRadix16 [a, b, c, d] = some value)
    (rest : List UInt8) :
    closingQuote false (a :: b :: c :: d :: rest) = (closingQuote false rest).map (· + 4) := by
  have hplain := plain_of_fromStrRadix16 h
  obtain ⟨ha, ha'⟩ := hplain a (by simp)
  obtain ⟨hb, hb'⟩ := hplain b (by simp)
  obtain ⟨hc, hc'⟩ := hplain c (by simp)
  obtain ⟨hd, hd'⟩ := hplain d (by simp)
  rw [closingQuote_plain ha ha', closingQuote_plain hb hb', closingQuote_plain hc hc',
    closingQuote_plain hd hd']
  simp only [Option.map_map, Function.comp_def, Nat.add_assoc]

/-! ## Reading bytes -/

/-- `q` is `p` after `n` more bytes were read. -/
structure Parser.Reads (p : Parser) (n : ℕ) (q : Parser) : Prop where
  bytes_eq : q.bytes = p.bytes
  iter_eq : q.iter = p.iter.drop n
  pos_eq : q.pos = p.pos + n

theorem Parser.Reads.refl (p : Parser) : p.Reads 0 p := ⟨rfl, List.drop_zero.symm, rfl⟩

theorem Parser.Reads.trans {p q r : Parser} {m n : ℕ} (h₁ : p.Reads m q) (h₂ : q.Reads n r) :
    p.Reads (m + n) r := by
  constructor
  · rw [h₂.bytes_eq, h₁.bytes_eq]
  · rw [h₂.iter_eq, h₁.iter_eq, List.drop_drop]
  · rw [h₂.pos_eq, h₁.pos_eq, Nat.add_assoc]

theorem Parser.Reads.setEof {p q : Parser} {n : ℕ} (h : p.Reads n q) (isEof : Bool) :
    p.Reads n { q with isEof } :=
  ⟨h.bytes_eq, h.iter_eq, h.pos_eq⟩

theorem Parser.Reads.eq {p q q' : Parser} {n : ℕ} (h : p.Reads n q) (h' : p.Reads n q')
    (heof : q.isEof = q'.isEof) : q = q' := by
  cases q with
  | mk bytes iter pos isEof =>
    cases q' with
    | mk bytes' iter' pos' isEof' =>
      have hb := h.bytes_eq.trans h'.bytes_eq.symm
      have hi := h.iter_eq.trans h'.iter_eq.symm
      have hp := h.pos_eq.trans h'.pos_eq.symm
      simp only at hb hi hp heof
      rw [hb, hi, hp, heof]

theorem Parser.nextChar_none {p p' : Parser} (h : p.nextChar = (none, p')) : p.iter = [] := by
  simp only [Parser.nextChar, Prod.mk.injEq, List.head?_eq_none_iff] at h
  exact h.1

theorem Parser.nextChar_cons {p : Parser} {b : UInt8} {rest : List UInt8} (hp : p.iter = b :: rest) :
    p.nextChar = (some b, { p with iter := rest, pos := p.pos + 1 }) := by
  simp [Parser.nextChar, hp]

theorem Parser.nextChar_some {p p' : Parser} {ch : UInt8} (h : p.nextChar = (some ch, p')) :
    p.iter = ch :: p'.iter ∧ p.Reads 1 p' ∧ p'.isEof = p.isEof := by
  simp only [Parser.nextChar, Prod.mk.injEq] at h
  obtain ⟨hhead, rfl⟩ := h
  cases hi : p.iter with
  | nil => simp [hi] at hhead
  | cons c rest =>
    simp only [hi, List.head?_cons, Option.some.injEq] at hhead
    subst hhead
    exact ⟨by simp, ⟨rfl, by simp [hi], rfl⟩, rfl⟩

/-! ## `skip_string` -/

theorem skipStringFrom_some {lastCh ch : UInt8} {p p' : Parser} (h : p.nextChar = (some ch, p')) :
    skipStringFrom lastCh p =
      if ch = 34 ∧ lastCh ≠ 92 then (true, { p' with isEof := true }) else skipStringFrom ch p' := by
  rw [skipStringFrom]
  split
  · rename_i heq
    rw [h] at heq
    cases heq
  · rename_i heq
    rw [h] at heq
    cases heq
    rfl

/-- On a string in which no backslash escapes another, `skip_string` stops right
after the quote that ends it in JSON. The flag of `closingQuote` is whether the
byte before was a backslash. -/
theorem skipStringFrom_closingQuote (lastCh : UInt8) (p : Parser) :
    ∀ (escaped : Bool) (n : ℕ), (escaped = true ↔ lastCh = 92) →
      closingQuote escaped p.iter = some n → ¬ [92, 92] <:+: lastCh :: p.iter.take n →
      ∃ q, skipStringFrom lastCh p = (true, q) ∧ p.Reads n q ∧ q.isEof = true := by
  fun_induction skipStringFrom lastCh p with
  | case1 lastCh p p' h =>
    intro escaped n _ hq _
    rw [Parser.nextChar_none h, closingQuote] at hq
    cases hq
  | case2 lastCh p ch p' h hend =>
    intro escaped n hesc hq _
    obtain ⟨hi, hread, -⟩ := Parser.nextChar_some h
    have hplain : escaped = false := by
      cases escaped with
      | false => rfl
      | true => exact absurd (hesc.mp rfl) hend.2
    rw [hi, hplain, hend.1] at hq
    simp only [closingQuote, if_true, Bool.false_eq_true, if_false, Option.some.injEq] at hq
    subst hq
    exact ⟨_, rfl, hread.setEof true, rfl⟩
  | case3 lastCh p ch p' h hnot ih =>
    intro escaped n hesc hq hbs
    obtain ⟨hi, hread, -⟩ := Parser.nextChar_some h
    rw [hi] at hq hbs
    have hgo : ¬ (ch = 34 ∧ escaped = false) := by
      rintro ⟨h34, hplain⟩
      exact hnot ⟨h34, fun h92 => by simp [hesc.mpr h92] at hplain⟩
    rw [closingQuote_cons hgo] at hq
    obtain ⟨n', hq', rfl⟩ := Option.map_eq_some_iff.mp hq
    rw [List.take_succ_cons] at hbs
    have hesc' : (decide (ch = 92) && !escaped) = true ↔ ch = 92 := by
      constructor
      · intro hb
        simpa using (Bool.and_eq_true _ _).mp hb |>.1
      · intro h92
        cases escaped with
        | false => simp [h92]
        | true =>
          rw [hesc.mp rfl, h92] at hbs
          exact absurd ⟨[], p'.iter.take n', rfl⟩ hbs
    obtain ⟨q, hskip, hr, heof⟩ :=
      ih _ n' hesc' hq' (fun hin => hbs (hin.trans (List.infix_cons_iff.mpr (Or.inr (List.infix_refl _)))))
    refine ⟨q, hskip, ?_, heof⟩
    rw [Nat.add_comm]
    exact hread.trans hr

theorem ignoreParse_ok {p q : Parser} (h : ignoreParse p = .ok q) : skipString p = (true, q) := by
  unfold ignoreParse at h
  split at h
  · rename_i p' hskip
    cases h
    exact hskip
  · cases h

theorem pos_lt_skipStringFrom (lastCh : UInt8) (p : Parser) :
    ∀ q, skipStringFrom lastCh p = (true, q) → p.pos < q.pos := by
  fun_induction skipStringFrom lastCh p with
  | case1 lastCh p p' h =>
    intro q hq
    cases hq
  | case2 lastCh p ch p' h hend =>
    intro q hq
    cases hq
    rw [(Parser.nextChar_some h).2.1.pos_eq]
    omega
  | case3 lastCh p ch p' h hnot ih =>
    intro q hq
    have := ih q hq
    rw [(Parser.nextChar_some h).2.1.pos_eq] at this
    omega

/-! ## `String::parse` -/

theorem escapedStep_done {isEscaped : Bool} {buf : List UInt8} {ch : UInt8} {p q : Parser} {s : String}
    (h : escapedStep isEscaped buf ch p = .done (.ok (s, q))) :
    ch = 34 ∧ isEscaped = false ∧ q = { p with isEof := true } := by
  unfold escapedStep at h
  split_ifs at h with h92 h34
  · split at h
    · cases h
      exact ⟨h34.1, h34.2, rfl⟩
    · cases h
  · split at h <;> cases h

/-- One pass of the escape loop that goes on reads `k` more bytes and moves the
escape flag as JSON does. -/
theorem escapedStep_next {isEscaped isEscaped' : Bool} {buf buf' : List UInt8} {ch : UInt8}
    {p q : Parser} (h : escapedStep isEscaped buf ch p = .next isEscaped' buf' q) :
    ∃ k, p.Reads k q ∧ q.isEof = p.isEof ∧
      closingQuote isEscaped (ch :: p.iter) = (closingQuote isEscaped' q.iter).map (· + (k + 1)) := by
  have hgo : ¬ (ch = 34 ∧ isEscaped = false) := by
    rintro ⟨rfl, rfl⟩
    simp [escapedStep] at h
  rw [closingQuote_cons hgo]
  unfold escapedStep at h
  split_ifs at h
  · rename_i h92
    cases h
    exact ⟨0, .refl p, rfl, by simp [h92.1, h92.2]⟩
  · rename_i h92 hplain
    cases h
    have h92' : ch ≠ 92 := fun h92' => h92 ⟨h92', hplain⟩
    exact ⟨0, .refl p, rfl, by simp [h92', hplain]⟩
  · -- `\u` and its four digits
    rename_i hplain hu
    split at h
    · cases h
    · rename_i code p' hcode
      cases h
      obtain ⟨a, b, c, d, value, hi, hpos, hbytes, heof, hvalue⟩ := readUnicode_ok hcode
      refine ⟨4, ⟨hbytes, by simp [hi], hpos⟩, heof, ?_⟩
      have hesc : isEscaped = true := by simpa using hplain
      rw [hi, hu, hesc]
      simp only [Bool.not_true, Bool.and_false]
      rw [closingQuote_unicode hvalue, Option.map_map]
      simp only [Function.comp_def, Nat.add_assoc]
  · rename_i hplain _
    cases h
    have hesc : isEscaped = true := by simpa using hplain
    exact ⟨0, .refl p, rfl, by simp [hesc]⟩

/-- `String::parse` after a backslash stops right after the quote that ends the
string in JSON. -/
theorem parseEscaped_closingQuote (isEscaped : Bool) (buf : List UInt8) (p : Parser) :
    ∀ s q, parseEscaped isEscaped buf p = .ok (s, q) →
      ∃ n, closingQuote isEscaped p.iter = some n ∧ p.Reads n q ∧ q.isEof = true := by
  fun_induction parseEscaped isEscaped buf p with
  | case1 isEscaped buf p p' h =>
    intro s q hr
    cases hr
  | case2 isEscaped buf p ch p' h result hs =>
    intro s q hr
    subst hr
    obtain ⟨rfl, rfl, rfl⟩ := escapedStep_done hs
    obtain ⟨hi, hread, -⟩ := Parser.nextChar_some h
    exact ⟨1, by simp [hi, closingQuote], hread.setEof true, rfl⟩
  | case3 isEscaped buf p ch p' h isEscaped' buf' p'' hs ih =>
    intro s q hr
    obtain ⟨n, hq, hread, heof⟩ := ih s q hr
    obtain ⟨k, hk, -, hcq⟩ := escapedStep_next hs
    obtain ⟨hi, h1, -⟩ := Parser.nextChar_some h
    refine ⟨n + (k + 1), by rw [hi, hcq, hq]; rfl, ?_, heof⟩
    have hr := (h1.trans hk).trans hread
    rwa [show 1 + k + n = n + (k + 1) by omega] at hr

theorem parsePlain_closingQuote (startPos : ℕ) (p : Parser) :
    ∀ s q, parsePlain startPos p = .ok (s, q) →
      ∃ n, closingQuote false p.iter = some n ∧ p.Reads n q ∧ q.isEof = true := by
  fun_induction parsePlain startPos p with
  | case1 p p' h =>
    intro s q hr
    cases hr
  | case2 p p' h =>
    intro s q hr
    obtain ⟨n, hq, hread, heof⟩ := parseEscaped_closingQuote true _ p' s q hr
    obtain ⟨hi, h1, -⟩ := Parser.nextChar_some h
    refine ⟨1 + n, ?_, h1.trans hread, heof⟩
    rw [hi]
    simp [closingQuote, hq, Nat.add_comm]
  | case3 p p' s' hs h _ =>
    intro s q hr
    cases hr
    obtain ⟨hi, hread, -⟩ := Parser.nextChar_some h
    exact ⟨1, by simp [hi, closingQuote], hread.setEof true, rfl⟩
  | case4 p p' hs h _ =>
    intro s q hr
    cases hr
  | case5 p ch p' h h92 h34 ih =>
    intro s q hr
    obtain ⟨n, hq, hread, heof⟩ := ih s q hr
    obtain ⟨hi, h1, -⟩ := Parser.nextChar_some h
    refine ⟨n + 1, by rw [hi, closingQuote_plain h34 h92, hq]; rfl, ?_, heof⟩
    rw [Nat.add_comm]
    exact h1.trans hread

theorem stringParse_closingQuote {p q : Parser} {s : String} (h : stringParse p = .ok (s, q)) :
    ∃ n, closingQuote false p.iter = some n ∧ p.Reads n q ∧ q.isEof = true :=
  parsePlain_closingQuote p.pos p s q h

/-! ## The two readers compared -/

/-- Where no backslash of a string escapes another, `Ignore::parse` leaves the
parser where `String::parse` does. -/
theorem ignoreParse_of_stringParse {p q : Parser} {s : String} (h : stringParse p = .ok (s, q))
    (hbs : ¬ [92, 92] <:+: p.iter.take (q.pos - p.pos)) : ignoreParse p = .ok q := by
  obtain ⟨n, hq, hread, heof⟩ := stringParse_closingQuote h
  have hn : q.pos - p.pos = n := by
    rw [hread.pos_eq]
    omega
  rw [hn] at hbs
  have hbs' : ¬ [92, 92] <:+: 0 :: p.iter.take n := by
    intro hin
    rcases List.infix_cons_iff.mp hin with hpre | hin
    · simp at hpre
    · exact hbs hin
  obtain ⟨q', hskip, hread', heof'⟩ := skipStringFrom_closingQuote 0 p false n (by decide) hq hbs'
  have hq' : q' = q := hread'.eq hread (heof'.trans heof.symm)
  unfold ignoreParse skipString
  rw [hskip, hq']

theorem ignoreParse_of_stringParse_quote :
    ignoreParse ⟨[97, 92, 34, 98, 34], [97, 92, 34, 98, 34], 0, false⟩ =
      .ok ⟨[97, 92, 34, 98, 34], [], 5, true⟩ :=
  @ignoreParse_of_stringParse _ _ "a\"b" (by with_unfolding_all decide) (by decide)

theorem parsePlain_backslash {startPos : ℕ} {p p' : Parser} (h : p.nextChar = (some 92, p')) :
    parsePlain startPos p = parseEscaped true (byteSlice p'.bytes startPos (p'.pos - 1)) p' := by
  rw [parsePlain]
  split
  · rename_i heq
    rw [h] at heq
    cases heq
  · rename_i heq
    rw [h] at heq
    cases heq
    rfl

theorem parseEscaped_next {isEscaped isEscaped' : Bool} {buf buf' : List UInt8} {ch : UInt8}
    {p p' q : Parser} (h : p.nextChar = (some ch, p'))
    (hs : escapedStep isEscaped buf ch p' = .next isEscaped' buf' q) :
    parseEscaped isEscaped buf p = parseEscaped isEscaped' buf' q := by
  rw [parseEscaped]
  split
  · rename_i heq
    rw [h] at heq
    cases heq
  · rename_i heq
    rw [h] at heq
    cases heq
    split
    · rename_i hs'
      rw [hs] at hs'
      cases hs'
    · rename_i hs'
      rw [hs] at hs'
      cases hs'
      rfl

theorem parseEscaped_done {isEscaped : Bool} {buf : List UInt8} {ch : UInt8} {p p' : Parser}
    {result : Except JsonError (String × Parser)} (h : p.nextChar = (some ch, p'))
    (hs : escapedStep isEscaped buf ch p' = .done result) : parseEscaped isEscaped buf p = result := by
  rw [parseEscaped]
  split
  · rename_i heq
    rw [h] at heq
    cases heq
  · rename_i heq
    rw [h] at heq
    cases heq
    split
    · rename_i hs'
      rw [hs] at hs'
      cases hs'
      rfl
    · rename_i hs'
      rw [hs] at hs'
      cases hs'

theorem fromUtf8_backslash : fromUtf8 [92] = some "\\" := by decide

/-- After an escaped backslash, `String::parse` ends the string at the next quote
and `Ignore::parse` reads on past it. -/
theorem ignoreParse_overruns_escaped_backslash (p : Parser) (rest : List UInt8)
    (hp : p.iter = 92 :: 92 :: 34 :: rest) :
    stringParse p = .ok ("\\", { p with iter := rest, pos := p.pos + 3, isEof := true }) ∧
      ∀ q, ignoreParse p = .ok q → p.pos + 3 < q.pos := by
  have h₁ : p.nextChar = (some 92, { p with iter := 92 :: 34 :: rest, pos := p.pos + 1 }) := by
    simp [Parser.nextChar, hp]
  have h₂ : Parser.nextChar { p with iter := 92 :: 34 :: rest, pos := p.pos + 1 } =
      (some 92, { p with iter := 34 :: rest, pos := p.pos + 2 }) := by
    simp [Parser.nextChar]
  have h₃ : Parser.nextChar { p with iter := 34 :: rest, pos := p.pos + 2 } =
      (some 34, { p with iter := rest, pos := p.pos + 3 }) := by
    simp [Parser.nextChar]
  constructor
  · have hs₂ : escapedStep true [] 92 { p with iter := 34 :: rest, pos := p.pos + 2 } =
        .next false [92] { p with iter := 34 :: rest, pos := p.pos + 2 } := by
      simp [escapedStep, unescape]
    have hs₃ : escapedStep false [92] 34 { p with iter := rest, pos := p.pos + 3 } =
        .done (.ok ("\\", { p with iter := rest, pos := p.pos + 3, isEof := true })) := by
      simp [escapedStep, fromUtf8_backslash]
    have hslice : byteSlice p.bytes p.pos (p.pos + 1 - 1) = [] := by
      simp [byteSlice]
    rw [stringParse, parsePlain_backslash h₁]
    dsimp only
    rw [hslice, parseEscaped_next h₂ hs₂, parseEscaped_done h₃ hs₃]
  · intro q hq
    have hskip := ignoreParse_ok hq
    rw [skipString, skipStringFrom_some h₁, if_neg (by decide), skipStringFrom_some h₂,
      if_neg (by decide), skipStringFrom_some h₃, if_neg (by decide)] at hskip
    exact pos_lt_skipStringFrom 34 _ q hskip

theorem ignoreParse_overruns_escaped_backslash_at_x :
    stringParse ⟨[92, 92, 34, 120, 34], [92, 92, 34, 120, 34], 0, false⟩ =
        .ok ("\\", ⟨[92, 92, 34, 120, 34], [120, 34], 3, true⟩) ∧
      ∀ q, ignoreParse ⟨[92, 92, 34, 120, 34], [92, 92, 34, 120, 34], 0, false⟩ = .ok q → 3 < q.pos :=
  ignoreParse_overruns_escaped_backslash ⟨[92, 92, 34, 120, 34], [92, 92, 34, 120, 34], 0, false⟩
    [120, 34] rfl

/-! ## `next_token` on a string -/

/-- `Parser::new`. -/
def Parser.new (bytes : List UInt8) : Parser := ⟨bytes, bytes, 0, false⟩

/-- The `b'"'` arm of `Parser::next_token` for `T = String`, entered after the opening
quote: `String::parse`, then `skip_string` unless the parse stopped at the closing quote. -/
def stringToken (p : Parser) : Except JsonError (String × Parser) :=
  match stringParse { p with isEof := false } with
  | .error e => .error e
  | .ok (value, q) =>
    if q.isEof then .ok (value, q)
    else
      match skipString q with
      | (true, q') => .ok (value, q')
      | (false, q') => .error q'.errorUnterminated

/-- `Parser::new(bytes).next_token::<String>()` on an input that opens a string, the value
of `Token::String` or the error; the other arms of `next_token` are not modelled (`none`). -/
def nextTokenString (bytes : List UInt8) : Option (Except JsonError String) :=
  match (Parser.new bytes).nextChar with
  | (some 34, p) => some ((stringToken p).map Prod.fst)
  | _ => none

/-! ## Characters outside the Basic Multilingual Plane

RFC 8259 (section 7) escapes such a character as the two `\u` escapes of its UTF-16
surrogate pair, as encoders that write only ASCII do. `String::parse` decodes each
`\u` escape on its own with `char::from_u32`, which has no character for a surrogate, so
the first escape of the pair is refused. -/

/-- An uppercase hexadecimal digit. -/
def hexByte (n : ℕ) : UInt8 := if n < 10 then UInt8.ofNat (48 + n) else UInt8.ofNat (55 + n)

/-- The escape `\uXXXX` of a UTF-16 code unit. -/
def unicodeEscape (unit : ℕ) : List UInt8 :=
  [92, 117, hexByte (unit / 4096 % 16), hexByte (unit / 256 % 16), hexByte (unit / 16 % 16), hexByte (unit % 16)]

/-- The first code unit of the UTF-16 encoding of a character outside the Basic Multilingual Plane. -/
def highSurrogate (c : Char) : ℕ := 0xD800 + (c.toNat - 0x10000) / 0x400

/-- The second code unit of the UTF-16 encoding of a character outside the Basic Multilingual Plane. -/
def lowSurrogate (c : Char) : ℕ := 0xDC00 + (c.toNat - 0x10000) % 0x400

/-- A character outside the Basic Multilingual Plane escaped as its surrogate pair:
`\uD83D\uDE00` for U+1F600. -/
def surrogateEscape (c : Char) : List UInt8 := unicodeEscape (highSurrogate c) ++ unicodeEscape (lowSurrogate c)

example : surrogateEscape (Char.ofNat 0x1F600) = [92, 117, 68, 56, 51, 68, 92, 117, 68, 69, 48, 48] := by
  decide

theorem hexDigit_hexByte {n : ℕ} (h : n < 16) : hexDigit (hexByte n) = some n := by
  interval_cases n <;> rfl

theorem hexByte_ne_sign {n : ℕ} (h : n < 16) : hexByte n ≠ 43 ∧ hexByte n ≠ 45 := by
  interval_cases n <;> decide

theorem fromStrRadix16_unicodeEscape {unit : ℕ} (h : unit < 0x10000) :
    fromStrRadix16 ((unicodeEscape unit).drop 2) = some unit := by
  have h16 : ∀ k, k % 16 < 16 := fun k => Nat.mod_lt _ (by decide)
  obtain ⟨hplus, hminus⟩ := hexByte_ne_sign (h16 (unit / 4096))
  simp only [unicodeEscape, List.drop_succ_cons, List.drop_zero, fromStrRadix16, hplus, hminus, or_self,
    false_and, if_false, hexValue, List.foldl_cons, List.foldl_nil, hexDigit_hexByte (h16 _),
    Option.bind_some, Option.map_some, Option.some.injEq]
  omega

theorem highSurrogate_bounds {c : Char} (hc : 0x10000 ≤ c.toNat) :
    0xD800 ≤ highSurrogate c ∧ highSurrogate c ≤ 0xDFFF := by
  have hvalid := c.valid
  simp only [UInt32.isValidChar, Nat.isValidChar] at hvalid
  have hlt : c.toNat < 0x110000 := by
    rcases hvalid with h | ⟨-, h⟩
    · exact absurd h (by simp only [Char.toNat] at hc; omega)
    · exact h
  simp only [highSurrogate]
  omega

theorem readUnicode_surrogate {p : Parser} {unit : ℕ} {rest : List UInt8} (hunit : 0xD800 ≤ unit ∧ unit ≤ 0xDFFF)
    (hp : p.iter = (unicodeEscape unit).drop 2 ++ rest) : ∃ e, readUnicode p = .error e := by
  have hvalue : fromStrRadix16 ((unicodeEscape unit).drop 2) = some unit := fromStrRadix16_unicodeEscape (by omega)
  have hinvalid : ¬ unit.isValidChar := by
    simp only [Nat.isValidChar]
    omega
  simp only [unicodeEscape, List.drop_succ_cons, List.drop_zero] at hvalue hp
  unfold readUnicode
  rw [hp]
  dsimp only [List.cons_append]
  split
  · exact ⟨_, rfl⟩
  · rw [hvalue]
    dsimp only
    rw [if_neg hinvalid]
    exact ⟨_, rfl⟩

theorem parsePlain_plain {startPos : ℕ} {pre rest : List UInt8} (hpre : ∀ ch ∈ pre, ch ≠ 34 ∧ ch ≠ 92) :
    ∀ {p : Parser}, p.iter = pre ++ rest →
      parsePlain startPos p = parsePlain startPos { p with iter := rest, pos := p.pos + pre.length } := by
  induction pre with
  | nil =>
    intro p hp
    simp only [List.nil_append] at hp
    simp only [← hp, List.length_nil, Nat.add_zero]
  | cons ch pre ih =>
    intro p hp
    obtain ⟨h34, h92⟩ := hpre ch List.mem_cons_self
    have hnext : p.nextChar = (some ch, { p with iter := pre ++ rest, pos := p.pos + 1 }) := by
      simp [Parser.nextChar, hp]
    rw [parsePlain]
    split
    · rename_i heq
      rw [hnext] at heq
      cases heq
    · rename_i ch' p' heq
      rw [hnext] at heq
      cases heq
      rw [if_neg h92, if_neg h34, ih (fun c hc => hpre c (List.mem_cons_of_mem _ hc)) rfl]
      simp only [List.length_cons]
      congr 2
      omega

/-- A string whose first escape is a character outside the Basic Multilingual Plane,
written as its surrogate pair, is refused: `next_token` returns an error where RFC 8259
reads the character. -/
theorem nextTokenString_surrogateEscape {c : Char} (hc : 0x10000 ≤ c.toNat) {pre : List UInt8}
    (hpre : ∀ ch ∈ pre, ch ≠ 34 ∧ ch ≠ 92) (rest : List UInt8) :
    ∃ e, nextTokenString (34 :: pre ++ surrogateEscape c ++ rest) = some (.error e) := by
  set bytes := 34 :: pre ++ surrogateEscape c ++ rest
  set p₁ : Parser := ⟨bytes, pre ++ surrogateEscape c ++ rest, 1, false⟩
  set p₂ : Parser := ⟨bytes, surrogateEscape c ++ rest, 1 + pre.length, false⟩
  set p₃ : Parser := ⟨bytes, 117 :: (unicodeEscape (highSurrogate c)).drop 2 ++ unicodeEscape (lowSurrogate c) ++ rest,
    1 + pre.length + 1, false⟩
  set p₄ : Parser := ⟨bytes, (unicodeEscape (highSurrogate c)).drop 2 ++ unicodeEscape (lowSurrogate c) ++ rest,
    1 + pre.length + 1 + 1, false⟩
  have h₁ : (Parser.new bytes).nextChar = (some 34, p₁) := by
    simp [Parser.new, Parser.nextChar, bytes, p₁]
  have h₂ : p₂.nextChar = (some 92, p₃) := by
    simp [Parser.nextChar, p₂, p₃, surrogateEscape, unicodeEscape]
  have h₃ : p₃.nextChar = (some 117, p₄) := by
    simp [Parser.nextChar, p₃, p₄]
  obtain ⟨e, he⟩ := readUnicode_surrogate (highSurrogate_bounds hc)
    (show p₄.iter = (unicodeEscape (highSurrogate c)).drop 2 ++ (unicodeEscape (lowSurrogate c) ++ rest) from
      List.append_assoc _ _ _)
  have hstep : escapedStep true (byteSlice p₃.bytes 1 (p₃.pos - 1)) 117 p₄ = .done (.error e) := by
    simp [escapedStep, he]
  have hplain : parsePlain 1 { p₁ with isEof := false } = parsePlain 1 p₂ :=
    parsePlain_plain hpre (show p₁.iter = pre ++ (surrogateEscape c ++ rest) from List.append_assoc _ _ _)
  have hparse : stringParse { p₁ with isEof := false } = .error e := by
    rw [stringParse]
    show parsePlain 1 { p₁ with isEof := false } = _
    rw [hplain, parsePlain_backslash h₂]
    exact parseEscaped_done h₃ hstep
  refine ⟨e, ?_⟩
  rw [nextTokenString, h₁]
  show some ((stringToken p₁).map Prod.fst) = _
  rw [stringToken, hparse]
  rfl

theorem nextTokenString_surrogateEscape_grinningFace :
    0x10000 ≤ (Char.ofNat 0x1F600).toNat ∧ (∀ ch ∈ ([] : List UInt8), ch ≠ 34 ∧ ch ≠ 92) ∧
      ∃ e, nextTokenString (34 :: [] ++ surrogateEscape (Char.ofNat 0x1F600) ++ [34]) = some (.error e) := by
  have hc : 0x10000 ≤ (Char.ofNat 0x1F600).toNat := by decide
  have hpre : ∀ ch ∈ ([] : List UInt8), ch ≠ 34 ∧ ch ≠ 92 := fun ch hch => absurd hch List.not_mem_nil
  exact ⟨hc, hpre, nextTokenString_surrogateEscape hc hpre [34]⟩

example : nextTokenString [34, 92, 117, 68, 56, 51, 68, 92, 117, 68, 69, 48, 48, 34] =
    some (.error ⟨"Invalid unicode sequence D83D", 7⟩) := by
  with_unfolding_all decide

/-! ## Values read through `next_unescaped`

`Id`, `State` and the other identifiers of JMAP are read from the bytes of a string one at
a time with `Parser::next_unescaped`, which drops a backslash before the byte it escapes and
sets `is_eof` at the closing quote, and are refused with `Parser::error_value`. The arm of
`next_token` that calls them is `stringArm`, of which `stringToken` is the case `T = String`. -/

/-- The errors of a `JsonObjectParser` that reads through `next_unescaped`: the parser's
`NotJson` errors, and the `InvalidArguments` error of `error_value` with the position it
names (its message also quotes the value, which the model leaves out). -/
inductive ValueError where
  | notJson (e : JsonError)
  | invalidArguments (pos : ℕ)
  deriving DecidableEq, Repr

/-- `Parser::error_value`: the rest of the string is skipped first. -/
def Parser.errorValue (p : Parser) : ValueError :=
  if p.isEof then .invalidArguments p.pos
  else
    match skipString p with
    | (true, q) => .invalidArguments q.pos
    | (false, q) => .notJson q.errorUnterminated

/-- `Parser::next_unescaped`. -/
def Parser.nextUnescaped (p : Parser) : Except JsonError (Option UInt8 × Parser) :=
  match p.nextChar with
  | (some 34, q) => .ok (none, { q with isEof := true })
  | (some 92, q) =>
    match q.nextChar with
    | (some ch, r) => .ok (some ch, r)
    | (none, r) => .error r.errorUnterminated
  | (some ch, q) => .ok (some ch, q)
  | (none, q) => if q.isEof then .ok (none, q) else .error q.errorUnterminated

theorem Parser.length_iter_nextUnescaped {p q : Parser} {ch : UInt8}
    (h : p.nextUnescaped = .ok (some ch, q)) : q.iter.length < p.iter.length := by
  unfold Parser.nextUnescaped at h
  split at h
  · cases h
  · rename_i q' hq'
    split at h
    · rename_i r hr
      cases h
      exact (Parser.length_iter_nextChar hr).trans (Parser.length_iter_nextChar hq')
    · cases h
  · rename_i ch' q' _ _ hq'
    cases h
    exact Parser.length_iter_nextChar hq'
  · split at h <;> cases h

theorem Parser.nextUnescaped_plain {p : Parser} {ch : UInt8} {rest : List UInt8}
    (hp : p.iter = ch :: rest) (h34 : ch ≠ 34) (h92 : ch ≠ 92) :
    p.nextUnescaped = .ok (some ch, { p with iter := rest, pos := p.pos + 1 }) := by
  have hnext : p.nextChar = (some ch, { p with iter := rest, pos := p.pos + 1 }) := by
    simp [Parser.nextChar, hp]
  rw [Parser.nextUnescaped, hnext]
  split
  · rename_i heq
    cases heq
    exact absurd rfl h34
  · rename_i heq
    cases heq
    exact absurd rfl h92
  · rename_i heq
    cases heq
    rfl
  · rename_i heq
    cases heq

theorem Parser.nextUnescaped_quote {p : Parser} {rest : List UInt8} (hp : p.iter = 34 :: rest) :
    p.nextUnescaped = .ok (none, { p with iter := rest, pos := p.pos + 1, isEof := true }) := by
  have hnext : p.nextChar = (some 34, { p with iter := rest, pos := p.pos + 1 }) := by
    simp [Parser.nextChar, hp]
  rw [Parser.nextUnescaped, hnext]
  rfl

/-- The `b'"'` arm of `Parser::next_token` for a `T: JsonObjectParser` whose `parse` is given,
entered after the opening quote; `lift` makes the parser's own errors errors of `T::parse`. -/
def stringArm {ε α : Type} (lift : JsonError → ε) (parse : Parser → Except ε (α × Parser)) (p : Parser) :
    Except ε (α × Parser) :=
  match parse { p with isEof := false } with
  | .error e => .error e
  | .ok (value, q) =>
    if q.isEof then .ok (value, q)
    else
      match skipString q with
      | (true, q') => .ok (value, q')
      | (false, q') => .error (lift q'.errorUnterminated)

/-- `Parser::new(bytes).next_token::<T>()` on an input that opens a string, with the `parse`
of `T`; the other arms of `next_token` are not modelled (`none`). -/
def nextTokenValue {α : Type} (parse : Parser → Except ValueError (α × Parser)) (bytes : List UInt8) :
    Option (Except ValueError α) :=
  match (Parser.new bytes).nextChar with
  | (some 34, p) => some ((stringArm .notJson parse p).map Prod.fst)
  | _ => none

theorem nextTokenValue_of_parse {α : Type} {parse : Parser → Except ValueError (α × Parser)} {v : α}
    {bytes : List UInt8} {q : Parser}
    (hparse : parse { Parser.new (34 :: bytes) with iter := bytes, pos := 1 } = .ok (v, q))
    (heof : q.isEof = true) :
    nextTokenValue parse (34 :: bytes) = some (.ok v) := by
  have hnext : (Parser.new (34 :: bytes)).nextChar =
      (some 34, { Parser.new (34 :: bytes) with iter := bytes, pos := 1 }) := rfl
  rw [nextTokenValue, hnext]
  simp only [stringArm, Parser.new] at hparse ⊢
  rw [hparse]
  simp [heof, Except.map]

/-- A parse that stops right before the closing quote gives the token of its value too:
`skip_string` reads the quote. -/
theorem nextTokenValue_of_parse_at_quote {α : Type} {parse : Parser → Except ValueError (α × Parser)} {v : α}
    {bytes rest : List UInt8} {q : Parser}
    (hparse : parse { Parser.new (34 :: bytes) with iter := bytes, pos := 1 } = .ok (v, q))
    (hq : q.iter = 34 :: rest) :
    nextTokenValue parse (34 :: bytes) = some (.ok v) := by
  have hnext : (Parser.new (34 :: bytes)).nextChar =
      (some 34, { Parser.new (34 :: bytes) with iter := bytes, pos := 1 }) := rfl
  have hskip : skipString q = (true, { q with iter := rest, pos := q.pos + 1, isEof := true }) := by
    rw [skipString, skipStringFrom_some (Parser.nextChar_cons hq), if_pos ⟨rfl, by decide⟩]
  rw [nextTokenValue, hnext]
  simp only [stringArm, Parser.new] at hparse ⊢
  rw [hparse]
  by_cases heof : q.isEof
  · simp [heof, Except.map]
  · simp [heof, hskip, Except.map]

end MailServer.JmapProto.Json
