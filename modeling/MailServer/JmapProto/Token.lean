import MailServer.JmapProto.Json

/-! # `Parser::next_token`

The tokenizer of the JMAP request parser: punctuation with the nesting depth it tracks,
the three literals, strings through a value's `JsonObjectParser`, and numbers. A number is
read by a loop that takes digits, `-`, `+`, `.`, `e` and `E` in any order, keeps only a
sign flag and a float flag, and stops at a delimiter or at whitespace; an integer's value
is accumulated with saturating arithmetic, a float's text is handed to `fast_float`
(`parseFloat` here, a parameter).

The string arm is the one of `Json`. On digits, signs and a delimiter the number arm returns
the saturated digits with the sign of any `-` (`nextToken_intChars`), also on a text that is
not a JSON number (`nextToken_minus_after_first`).
-/

namespace MailServer.JmapProto.NextToken

open MailServer.JmapProto.Json

/-! ## The model -/

/-- `MAX_NESTED_LEVELS`. -/
def maxNestedLevels : ℕ := 16

/-- The state of `Parser` that `next_token` reads and writes around the one that reading a
string uses: the byte a number left over, and the depths of arrays and objects. -/
structure Lexer where
  parser : Parser
  nextCh : Option UInt8
  depthArray : ℕ
  depthDict : ℕ
  deriving DecidableEq, Repr

/-- `Parser::new`. -/
def Lexer.new (bytes : List UInt8) : Lexer := ⟨Parser.new bytes, none, 0, 0⟩

/-- `Token<T>`, with `F` for `f64`. -/
inductive Token (α F : Type) where
  | colon
  | comma
  | dictStart
  | dictEnd
  | arrayStart
  | arrayEnd
  | integer (k : ℤ)
  | float (x : F)
  | boolean (b : Bool)
  | string (value : α)
  | null
  deriving DecidableEq, Repr

/-- `i64::MAX`. -/
def i64Max : ℕ := 2 ^ 63 - 1

/-- `num.saturating_mul(10).saturating_add((ch - b'0') as i64)` on the non-negative `num`. -/
def saturatingDigit (num : ℕ) (ch : UInt8) : ℕ := min (min (num * 10) i64Max + (ch - 48).toNat) i64Max

/-- A decimal digit. -/
def isDigit (ch : UInt8) : Bool := 48 ≤ ch && ch ≤ 57

/-- `{:?}` of `char::from(ch)`: the character in single quotes, escaped as
`char::escape_debug` escapes the Latin-1 characters (the controls, the no-break space and
the soft hyphen as `\u{..}`). -/
def charDebug (ch : UInt8) : String :=
  let escaped :=
    if ch = 0 then "\\0" else if ch = 9 then "\\t" else if ch = 10 then "\\n"
    else if ch = 13 then "\\r" else if ch = 39 then "\\\x27" else if ch = 92 then "\\\\"
    else if ch < 32 ∨ (127 ≤ ch ∧ ch ≤ 160) ∨ ch = 173 then
      "\\u\x7b" ++ String.ofList (Nat.toDigits 16 ch.toNat) ++ "\x7d"
    else String.singleton (Char.ofNat ch.toNat)
  "\x27" ++ escaped ++ "\x27"

/-- `num`, `is_float` and `is_negative` of the number loop. -/
structure NumberScan where
  num : ℕ
  isFloat : Bool
  isNegative : Bool
  deriving DecidableEq, Repr

/-- What a byte does in the number loop. -/
inductive NumberStep where
  | next (sc : NumberScan)
  | delimiter
  | whitespace
  | unexpected
  deriving DecidableEq, Repr

/-- The `match ch` of the number loop. -/
def numberStep (sc : NumberScan) (ch : UInt8) : NumberStep :=
  if ch = 45 then .next { sc with isNegative := true }
  else if isDigit ch then .next (if !sc.isFloat then { sc with num := saturatingDigit sc.num ch } else sc)
  else if ch = 44 ∨ ch = 93 ∨ ch = 125 then .delimiter
  else if ch = 43 then .next sc
  else if ch = 46 ∨ ch = 101 ∨ ch = 69 then .next { sc with isFloat := true }
  else if ch = 32 ∨ ch = 13 ∨ ch = 9 ∨ ch = 10 then .whitespace
  else .unexpected

set_option linter.unusedVariables false in
/-- The number loop from the byte `ch`: a delimiter is kept in `next_ch` for the next token. -/
def numberLoop (ch : UInt8) (sc : NumberScan) (lx : Lexer) : Except JsonError (NumberScan × Lexer) :=
  match numberStep sc ch with
  | .delimiter => .ok (sc, { lx with nextCh := some ch })
  | .whitespace => .ok (sc, lx)
  | .unexpected => .error (lx.parser.error ("Unexpected character " ++ charDebug ch))
  | .next sc' =>
    match h : lx.parser.nextChar with
    | (some ch', p') => numberLoop ch' sc' { lx with parser := p' }
    | (none, p') => .error p'.errorUnterminated
termination_by lx.parser.iter.length
decreasing_by exact Parser.length_iter_nextChar h

/-- `bytes.get(start..stop).unwrap_or_default()`. -/
def getSlice (bytes : List UInt8) (start stop : ℕ) : List UInt8 :=
  if start ≤ stop ∧ stop ≤ bytes.length then byteSlice bytes start stop else []

/-- The number arm of `next_token`, entered with the number's first byte read. The text of
a float holds only bytes the loop took, none of which `{:?}` escapes. -/
def numberToken {α F : Type} (parseFloat : List UInt8 → Option F) (ch : UInt8) (lx : Lexer) :
    Except JsonError (Token α F × Lexer) :=
  match numberLoop ch ⟨0, false, false⟩ lx with
  | .error e => .error e
  | .ok (sc, lx') =>
    if !sc.isFloat then .ok (.integer (if !sc.isNegative then (sc.num : ℤ) else -(sc.num : ℤ)), lx')
    else
      let text := getSlice lx'.parser.bytes (lx.parser.pos - 1) (lx'.parser.pos - 1)
      match parseFloat text with
      | some x => .ok (.float x, lx')
      | none => .error (lx'.parser.error
          ("Failed to parse number \"" ++ String.ofList (text.map fun b => Char.ofNat b.toNat) ++ "\""))

/-- The arms of `true`, `false` and `null`: the next bytes are compared without moving the
position, which moves on only when they match. -/
def literalArm {α F : Type} (word : List UInt8) (token : Token α F) (lx : Lexer) :
    Except ValueError (Token α F × Lexer) :=
  if lx.parser.iter.take word.length = word then
    .ok (token, { lx with parser :=
      { lx.parser with iter := lx.parser.iter.drop word.length, pos := lx.parser.pos + word.length } })
  else .error (.notJson (lx.parser.error "Invalid JSON token"))

section NextToken

variable {α F : Type} (parse : Parser → Except ValueError (α × Parser)) (parseFloat : List UInt8 → Option F)

set_option linter.unusedVariables false in
/-- The loop of `next_token` from the byte `ch`: whitespace is passed over. -/
def nextTokenFrom (ch : UInt8) (lx : Lexer) : Except ValueError (Token α F × Lexer) :=
  if ch = 34 then
    match stringArm .notJson parse lx.parser with
    | .ok (value, p) => .ok (.string value, { lx with parser := p })
    | .error e => .error e
  else if ch = 44 then .ok (.comma, lx)
  else if ch = 58 then .ok (.colon, lx)
  else if ch = 91 then
    if lx.depthArray + lx.depthDict < maxNestedLevels then .ok (.arrayStart, { lx with depthArray := lx.depthArray + 1 })
    else .error (.notJson (lx.parser.error "Too many nested objects"))
  else if ch = 93 then
    if lx.depthArray ≠ 0 then .ok (.arrayEnd, { lx with depthArray := lx.depthArray - 1 })
    else .error (.notJson (lx.parser.error "Unexpected array end"))
  else if ch = 123 then
    if lx.depthArray + lx.depthDict < maxNestedLevels then .ok (.dictStart, { lx with depthDict := lx.depthDict + 1 })
    else .error (.notJson (lx.parser.error "Too many nested objects"))
  else if ch = 125 then
    if lx.depthDict ≠ 0 then .ok (.dictEnd, { lx with depthDict := lx.depthDict - 1 })
    else .error (.notJson (lx.parser.error "Unexpected dictionary end"))
  else if isDigit ch ∨ ch = 45 ∨ ch = 43 then
    match numberToken parseFloat ch lx with
    | .ok r => .ok r
    | .error e => .error (.notJson e)
  else if ch = 116 then literalArm [114, 117, 101] (.boolean true) lx
  else if ch = 102 then literalArm [97, 108, 115, 101] (.boolean false) lx
  else if ch = 110 then literalArm [117, 108, 108] .null lx
  else if ch = 32 ∨ ch = 9 ∨ ch = 13 ∨ ch = 10 then
    match h : lx.parser.nextChar with
    | (some ch', p') => nextTokenFrom ch' { lx with parser := p' }
    | (none, p') => .error (.notJson (p'.error "Unexpected EOF"))
  else .error (.notJson (lx.parser.error ("Unexpected character " ++ charDebug ch)))
termination_by lx.parser.iter.length
decreasing_by exact Parser.length_iter_nextChar h

/-- `Parser::next_token`: the byte a number left over comes first. -/
def nextToken (lx : Lexer) : Except ValueError (Token α F × Lexer) :=
  match lx.nextCh with
  | some ch => nextTokenFrom parse parseFloat ch { lx with nextCh := none }
  | none =>
    match lx.parser.nextChar with
    | (some ch, p) => nextTokenFrom parse parseFloat ch { lx with parser := p }
    | (none, p) => .error (.notJson (p.error "Unexpected EOF"))

end NextToken

/-! ## Numbers made of digits and signs -/

/-- A byte of an integer's text in the number loop: a digit or a sign. -/
def intChar (ch : UInt8) : Bool := isDigit ch || ch == 45 || ch == 43

/-- A byte that ends a number: a delimiter, kept for the next token, or whitespace. -/
def numberEnd (ch : UInt8) : Bool :=
  ch == 44 || ch == 93 || ch == 125 || ch == 32 || ch == 13 || ch == 9 || ch == 10

/-- The lexer after the byte that ends a number. -/
def afterNumber (ch : UInt8) (lx : Lexer) : Lexer :=
  if ch = 44 ∨ ch = 93 ∨ ch = 125 then { lx with nextCh := some ch } else lx

/-- The saturated value of the digits `cs` after `num`. -/
def saturatingDigits (num : ℕ) (cs : List UInt8) : ℕ := cs.foldl saturatingDigit num

/-- The value of the digits `cs` after `v`. -/
def decimalValue (v : ℕ) (cs : List UInt8) : ℕ := cs.foldl (fun v c => v * 10 + (c - 48).toNat) v

theorem saturatingDigits_min (cs : List UInt8) (v : ℕ) :
    saturatingDigits (min v i64Max) cs = min (decimalValue v cs) i64Max := by
  induction cs generalizing v with
  | nil => rfl
  | cons c cs ih =>
    have hstep : saturatingDigit (min v i64Max) c = min (v * 10 + (c - 48).toNat) i64Max := by
      unfold saturatingDigit i64Max
      omega
    simp only [saturatingDigits, decimalValue, List.foldl_cons] at ih ⊢
    rw [hstep, ih]

theorem numberStep_intChar {sc : NumberScan} {c : UInt8} (hf : sc.isFloat = false) (hc : intChar c) :
    numberStep sc c =
      .next ⟨if isDigit c then saturatingDigit sc.num c else sc.num, false, sc.isNegative || decide (45 = c)⟩ := by
  obtain ⟨num, isFloat, isNegative⟩ := sc
  simp only at hf
  subst hf
  simp only [intChar, Bool.or_eq_true, beq_iff_eq] at hc
  rcases hc with (hd | rfl) | rfl
  · have h45 : c ≠ 45 := by
      rintro rfl
      simp [isDigit] at hd
    simp [numberStep, hd, h45, Ne.symm h45]
  · simp [numberStep, isDigit]
  · simp [numberStep, isDigit]

theorem numberLoop_next {c c' : UInt8} {sc sc' : NumberScan} {lx : Lexer} {p' : Parser}
    (h : numberStep sc c = .next sc') (hn : lx.parser.nextChar = (some c', p')) :
    numberLoop c sc lx = numberLoop c' sc' { lx with parser := p' } := by
  rw [numberLoop, h]
  dsimp only
  split
  · rename_i heq
    rw [hn] at heq
    cases heq
    rfl
  · rename_i heq
    rw [hn] at heq
    cases heq

theorem numberLoop_end {c : UInt8} (hc : numberEnd c) (sc : NumberScan) (lx : Lexer) :
    numberLoop c sc lx = .ok (sc, afterNumber c lx) := by
  simp only [numberEnd, Bool.or_eq_true, beq_iff_eq] at hc
  rw [numberLoop]
  rcases hc with (((((h | h) | h) | h) | h) | h) | h <;> subst h <;> rfl

/-- The number loop over digits and signs up to a byte that ends the number: the digits
are accumulated with saturation, and any `-` makes the number negative. -/
theorem numberLoop_intChars {d : UInt8} (hd : numberEnd d) {rest : List UInt8} (cs : List UInt8)
    (hcs : ∀ c ∈ cs, intChar c) :
    ∀ (c : UInt8) (sc : NumberScan) (lx : Lexer), intChar c → sc.isFloat = false →
      lx.parser.iter = cs ++ d :: rest →
      numberLoop c sc lx = .ok (⟨saturatingDigits sc.num ((c :: cs).filter isDigit), false,
        sc.isNegative || (c :: cs).contains 45⟩,
        afterNumber d { lx with parser := { lx.parser with iter := rest, pos := lx.parser.pos + cs.length + 1 } }) := by
  induction cs with
  | nil =>
    intro c sc lx hc hf hiter
    have hn : lx.parser.nextChar = (some d, { lx.parser with iter := rest, pos := lx.parser.pos + 1 }) := by
      simp [Parser.nextChar, hiter]
    rw [numberLoop_next (numberStep_intChar hf hc) hn, numberLoop_end hd]
    by_cases hdig : isDigit c <;> simp [hdig, saturatingDigits]
  | cons c' cs ih =>
    intro c sc lx hc hf hiter
    have hn : lx.parser.nextChar = (some c', { lx.parser with iter := cs ++ d :: rest, pos := lx.parser.pos + 1 }) := by
      simp [Parser.nextChar, hiter]
    rw [numberLoop_next (numberStep_intChar hf hc) hn,
      ih (fun c'' hc'' => hcs c'' (List.mem_cons_of_mem _ hc'')) c' _ _ (hcs c' List.mem_cons_self) rfl rfl]
    have hnum : saturatingDigits (if isDigit c then saturatingDigit sc.num c else sc.num)
        ((c' :: cs).filter isDigit) = saturatingDigits sc.num ((c :: c' :: cs).filter isDigit) := by
      by_cases hdig : isDigit c <;> simp [hdig, saturatingDigits]
    have hneg : (sc.isNegative || decide (45 = c) || (c' :: cs).contains 45) =
        (sc.isNegative || (c :: c' :: cs).contains 45) := by
      simp only [List.contains_cons, Bool.or_assoc]
      rfl
    have hpos : lx.parser.pos + 1 + cs.length + 1 = lx.parser.pos + (c' :: cs).length + 1 := by
      simp only [List.length_cons]
      omega
    simp only [hnum, hneg, hpos]

/-! ## The JSON grammar of numbers (RFC 8259, section 6) -/

/-- `1*DIGIT`. -/
def isDigits (cs : List UInt8) : Bool := !cs.isEmpty && cs.all isDigit

/-- `int`: a zero, or digits that do not start with a zero. -/
def isJsonInt (cs : List UInt8) : Bool := cs == [48] || (isDigits cs && cs.head? != some 48)

/-- `[ exp ]`, where `exp = e [ minus / plus ] 1*DIGIT`. -/
def isJsonExp : List UInt8 → Bool
  | [] => true
  | e :: cs =>
    (e == 101 || e == 69) &&
      match cs with
      | s :: ds => if s = 43 ∨ s = 45 then isDigits ds else isDigits cs
      | [] => false

/-- `[ frac ] [ exp ]`, where `frac = decimal-point 1*DIGIT`. -/
def isJsonFracExp : List UInt8 → Bool
  | 46 :: cs => isDigits (cs.takeWhile isDigit) && isJsonExp (cs.dropWhile isDigit)
  | cs => isJsonExp cs

/-- `number = [ minus ] int [ frac ] [ exp ]`. -/
def isJsonNumber (cs : List UInt8) : Bool :=
  let unsigned := if cs.head? = some 45 then cs.tail else cs
  isJsonInt (unsigned.takeWhile isDigit) && isJsonFracExp (unsigned.dropWhile isDigit)

example : isJsonNumber [45, 48, 46, 53, 101, 43, 49] = true := by decide
example : isJsonNumber [48, 49] = false := by decide

section Integers

variable {α F : Type} (parse : Parser → Except ValueError (α × Parser)) (parseFloat : List UInt8 → Option F)

/-- A token made of digits and signs up to a byte that ends it is the integer of its digits,
saturated to `i64::MAX`, negated when a `-` stands anywhere in it. -/
theorem nextTokenFrom_intChars {c d : UInt8} {cs rest : List UInt8} (hc : intChar c)
    (hcs : ∀ c ∈ cs, intChar c) (hd : numberEnd d) (lx : Lexer) (hiter : lx.parser.iter = cs ++ d :: rest) :
    nextTokenFrom parse parseFloat c lx =
      .ok (.integer (if (c :: cs).contains 45 then -(saturatingDigits 0 ((c :: cs).filter isDigit) : ℕ)
        else (saturatingDigits 0 ((c :: cs).filter isDigit) : ℕ)),
        afterNumber d { lx with parser := { lx.parser with iter := rest, pos := lx.parser.pos + cs.length + 1 } }) := by
  have hnum : isDigit c ∨ c = 45 ∨ c = 43 := by
    simpa [intChar, or_assoc] using hc
  have hother : c ≠ 34 ∧ c ≠ 44 ∧ c ≠ 58 ∧ c ≠ 91 ∧ c ≠ 93 ∧ c ≠ 123 ∧ c ≠ 125 := by
    rcases hnum with hd | rfl | rfl
    · refine ⟨?_, ?_, ?_, ?_, ?_, ?_, ?_⟩ <;> rintro rfl <;> simp [isDigit] at hd
    · decide
    · decide
  obtain ⟨h34, h44, h58, h91, h93, h123, h125⟩ := hother
  rw [nextTokenFrom, if_neg h34, if_neg h44, if_neg h58, if_neg h91, if_neg h93, if_neg h123,
    if_neg h125, if_pos hnum, numberToken, numberLoop_intChars hd cs hcs c ⟨0, false, false⟩ lx hc rfl hiter]
  cases (c :: cs).contains 45 <;> rfl

/-- A token made of digits and signs up to a byte that ends it is the integer of its digits,
saturated to `i64::MAX`, negated when a `-` stands anywhere in it. -/
theorem nextToken_intChars {c d : UInt8} {cs : List UInt8} (hc : intChar c) (hcs : ∀ c ∈ cs, intChar c)
    (hd : numberEnd d) (rest : List UInt8) :
    (nextToken parse parseFloat (Lexer.new (c :: cs ++ d :: rest))).map Prod.fst =
      .ok (.integer (if (c :: cs).contains 45 then -(min (decimalValue 0 ((c :: cs).filter isDigit)) i64Max : ℕ)
        else (min (decimalValue 0 ((c :: cs).filter isDigit)) i64Max : ℕ))) := by
  have hstart : nextToken parse parseFloat (Lexer.new (c :: cs ++ d :: rest)) =
      nextTokenFrom parse parseFloat c
        ⟨{ Parser.new (c :: cs ++ d :: rest) with iter := cs ++ d :: rest, pos := 1 }, none, 0, 0⟩ := rfl
  have hmin := saturatingDigits_min ((c :: cs).filter isDigit) 0
  rw [Nat.min_eq_left (by unfold i64Max; omega)] at hmin
  rw [hstart, nextTokenFrom_intChars parse parseFloat hc hcs hd _ rfl, hmin]
  rfl

/-- A '-' after the first digit does not make a JSON number, yet the token is the negated
value of all the digits. -/
theorem nextToken_minus_after_first {a b : List UInt8} (ha : a ≠ []) (hda : ∀ c ∈ a, isDigit c)
    (hdb : ∀ c ∈ b, isDigit c) {d : UInt8} (hd : numberEnd d) (rest : List UInt8) :
    isJsonNumber (a ++ 45 :: b) = false ∧
    (nextToken parse parseFloat (Lexer.new (a ++ 45 :: b ++ d :: rest))).map Prod.fst =
      .ok (.integer (-(min (decimalValue 0 (a ++ b)) i64Max : ℕ))) := by
  obtain ⟨c, cs, rfl⟩ := List.exists_cons_of_ne_nil ha
  have hc := hda c List.mem_cons_self
  have hc45 : c ≠ 45 := by
    rintro rfl
    simp [isDigit] at hc
  constructor
  · -- the integer part stops at the '-', which neither a fraction nor an exponent starts with
    have htake : (c :: cs ++ 45 :: b).takeWhile isDigit = c :: cs :=
      List.takeWhile_append_of_pos hda |>.trans (by simp [isDigit])
    have hdrop : (c :: cs ++ 45 :: b).dropWhile isDigit = 45 :: b := by
      rw [List.dropWhile_append_of_pos hda]
      simp [isDigit]
    have hhead : ¬ (c :: cs ++ 45 :: b).head? = some 45 := by
      simpa using hc45
    have hfrac : isJsonFracExp (45 :: b) = false := rfl
    simp only [isJsonNumber]
    rw [if_neg hhead, htake, hdrop, hfrac, Bool.and_false]
  · have hint : ∀ x ∈ cs ++ 45 :: b, intChar x := by
      intro x hx
      rcases List.mem_append.mp hx with hx | hx
      · simp [intChar, hda x (List.mem_cons_of_mem _ hx)]
      · rcases List.mem_cons.mp hx with rfl | hx
        · decide
        · simp [intChar, hdb x hx]
    have h := nextToken_intChars parse parseFloat (by simp [intChar, hc] : intChar c)
      hint hd rest
    have hfilter : (c :: (cs ++ 45 :: b)).filter isDigit = c :: cs ++ b := by
      rw [← List.cons_append, List.filter_append, List.filter_eq_self.mpr hda, List.filter_cons,
        List.filter_eq_self.mpr hdb]
      simp [isDigit]
    rw [hfilter] at h
    simpa using h

theorem nextToken_minus_after_first_oneMinusTwo :
    isJsonNumber ([49] ++ 45 :: [50]) = false ∧
    (nextToken (F := Unit) (fun p => (stringParse p).mapError .notJson) (fun _ => none)
      (Lexer.new ([49] ++ 45 :: [50] ++ 44 :: []))).map Prod.fst = .ok (.integer (-12)) := by
  have h := nextToken_minus_after_first (F := Unit) (fun p => (stringParse p).mapError .notJson)
    (fun _ => none) (a := [49]) (b := [50]) (by simp) (by simp [isDigit]) (by simp [isDigit]) (d := 44) (by decide) []
  exact ⟨h.1, h.2.trans rfl⟩

end Integers


end MailServer.JmapProto.NextToken
