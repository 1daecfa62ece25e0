import Mathlib
import MailServer.Lib.SortedMap

/-! # The configuration file reader

`Config::parse` reads the server's subset of TOML into one map from dotted keys
to strings: `[table]` and `[[array]]` headers, `key = value` lines, quoted,
triple-quoted and bare values, arrays and inline tables nested up to
`MAX_NEST_LEVEL`. The reader walks a character iterator and keeps only the
current line number besides the keys it has read. Its loops over arrays and
inline tables continue after a nested value, which always reads at least one
character (`value_consumes`), so the model only continues on a shorter input.
-/

namespace MailServer.Utils.ConfigParser

open MailServer.Lib

def maxNestLevel : ℕ := 10

/-- `{:04}`. -/
def pad4 (n : ℕ) : String := String.leftpad 4 '0' (toString n)

/-- `char::escape_debug` for ASCII; other characters are printed as they are. -/
def escapeDebug (quote c : Char) : String :=
  if c = '\x00' then "\\0"
  else if c = '\t' then "\\t"
  else if c = '\r' then "\\r"
  else if c = '\n' then "\\n"
  else if c = '\\' ∨ c = quote then String.ofList ['\\', c]
  else if c.val < 32 ∨ c.val = 127 then
    "\\u\x7b" ++ String.ofList (Nat.toDigits 16 c.toNat) ++ "\x7d"
  else String.singleton c

/-- `{:?}` of a `char`. -/
def debugChar (c : Char) : String := "'" ++ escapeDebug '\'' c ++ "'"

/-- `{:?}` of a `String`. -/
def debugString (s : String) : String :=
  "\"" ++ String.join (s.toList.map (escapeDebug '"')) ++ "\""

/-- `{:?}` of a `&[char]`. -/
def debugChars (cs : List Char) : String := "[" ++ ", ".intercalate (cs.map debugChar) ++ "]"

/-- `char::is_alphanumeric` on ASCII. -/
def isAlphanumeric (c : Char) : Bool := c.isAlphanum

/-- `'a'..='z' | '.' | 'A'..='Z' | '0'..='9' | '_' | '-'`: a character of a bare key. -/
def isKeyChar (c : Char) : Bool := c.isAlphanum || c = '.' || c = '_' || c = '-'

/-- A character of an unquoted value. -/
def isBareChar (c : Char) : Bool := isAlphanumeric c || c = '.' || c = '+' || c = '-'

/-- The reader: the characters not read yet, the current line and the keys read so far. -/
structure TomlParser where
  keys : SortedMap String String
  iter : List Char
  line : ℕ

namespace TomlParser

/-- Drops `\r`, and blanks when `skipWsp`; a line feed is read only when `allowLf`. -/
def nextChar : TomlParser → Bool → Bool → Except String (Char × TomlParser)
  | ⟨_, [], line⟩, _, _ => .error ("Unexpected EOF at line: " ++ toString line)
  | ⟨keys, ch :: rest, line⟩, skipWsp, allowLf =>
    if ch = '\r' ∨ (skipWsp = true ∧ (ch = ' ' ∨ ch = '\t')) then
      nextChar ⟨keys, rest, line⟩ skipWsp allowLf
    else if ch = '\n' then
      if allowLf then .ok (ch, ⟨keys, rest, line + 1⟩)
      else .error ("Unexpected end of line at line: " ++ toString line)
    else .ok (ch, ⟨keys, rest, line⟩)
termination_by p => p.iter.length

/-- Reads up to and including the next line feed. -/
def skipLine : TomlParser → TomlParser
  | ⟨keys, [], line⟩ => ⟨keys, [], line⟩
  | ⟨keys, ch :: rest, line⟩ =>
    if ch = '\n' then ⟨keys, rest, line + 1⟩ else skipLine ⟨keys, rest, line⟩
termination_by p => p.iter.length

theorem skipLine_le (p : TomlParser) : (skipLine p).iter.length ≤ p.iter.length := by
  fun_induction skipLine p with
  | case1 => exact le_refl _
  | case2 => exact Nat.le_succ _
  | case3 _ _ _ _ _ ih => exact Nat.le_succ_of_le ih

theorem skipLine_lt {p : TomlParser} {ch : Char} {rest : List Char} (hp : p.iter = ch :: rest) :
    (skipLine p).iter.length < p.iter.length := by
  rcases p with ⟨keys, iter, line⟩
  subst hp
  rw [skipLine]
  split
  · exact Nat.lt_succ_self _
  · exact Nat.lt_succ_of_le (skipLine_le _)

/-- Skips blank lines, blanks and comments; `true` when a character is left. -/
def seekNextChar : TomlParser → Bool × TomlParser
  | ⟨keys, [], line⟩ => (false, ⟨keys, [], line⟩)
  | ⟨keys, ch :: rest, line⟩ =>
    if ch = '\n' then seekNextChar ⟨keys, rest, line + 1⟩
    else if ch = '\r' ∨ ch = ' ' ∨ ch = '\t' then seekNextChar ⟨keys, rest, line⟩
    else if ch = '#' then seekNextChar (skipLine ⟨keys, rest, line⟩)
    else (true, ⟨keys, ch :: rest, line⟩)
termination_by p => p.iter.length
decreasing_by
  · exact Nat.lt_succ_self _
  · exact Nat.lt_succ_self _
  · exact Nat.lt_succ_of_le (skipLine_le _)

theorem seekNextChar_le (p : TomlParser) : (seekNextChar p).2.iter.length ≤ p.iter.length := by
  fun_induction seekNextChar p with
  | case1 | case5 => exact le_refl _
  | case2 _ _ _ ih | case3 _ _ _ _ _ _ ih => exact Nat.le_succ_of_le ih
  | case4 _ _ _ _ _ ih => exact Nat.le_succ_of_le (le_trans ih (skipLine_le _))

theorem seekNextChar_le_of {p p' : TomlParser} {b : Bool} (hs : seekNextChar p = (b, p')) :
    p'.iter.length ≤ p.iter.length := by
  have h := seekNextChar_le p
  rwa [hs] at h

theorem nextChar_lt {p q : TomlParser} {skipWsp allowLf : Bool} {ch : Char}
    (h : nextChar p skipWsp allowLf = .ok (ch, q)) :
    q.iter.length < p.iter.length ∧ q.keys = p.keys := by
  fun_induction nextChar p skipWsp allowLf with
  | case1 | case4 => simp at h
  | case2 =>
    rename_i ih
    obtain ⟨hlt, hkeys⟩ := ih h
    exact ⟨Nat.lt_succ_of_lt hlt, hkeys⟩
  | case3 | case5 =>
    simp only [Except.ok.injEq, Prod.mk.injEq] at h
    rw [← h.2]
    exact ⟨Nat.lt_succ_self _, rfl⟩

theorem lt_of_nextChar {p p' q : TomlParser} {skipWsp allowLf : Bool} {ch : Char}
    (hnext : nextChar p skipWsp allowLf = .ok (ch, p')) (hq : q.iter.length ≤ p'.iter.length) :
    q.iter.length < p.iter.length :=
  lt_of_le_of_lt hq (nextChar_lt hnext).1

/-- The quoted part of a key after its `"`: a backslash is dropped, and a `"` after it
stays in the key. -/
def quotedKey : TomlParser → String → Char → Except String (String × TomlParser)
  | ⟨keys, [], line⟩, key, _ => .ok (key, ⟨keys, [], line⟩)
  | ⟨keys, ch :: rest, line⟩, key, lastCh =>
    if ch = '\\' then quotedKey ⟨keys, rest, line⟩ key ch
    else if ch = '"' ∧ lastCh ≠ '\\' then .ok (key, ⟨keys, rest, line⟩)
    else if ch = '\n' then
      .error ("Unexpected end of line while parsing quoted key at line: " ++ toString line)
    else quotedKey ⟨keys, rest, line⟩ (key.push ch) ch
termination_by p => p.iter.length

theorem quotedKey_le {p q : TomlParser} {key key' : String} {lastCh : Char}
    (h : quotedKey p key lastCh = .ok (key', q)) : q.iter.length ≤ p.iter.length ∧ q.keys = p.keys := by
  fun_induction quotedKey p key lastCh with
  | case1 | case3 =>
    simp only [Except.ok.injEq, Prod.mk.injEq] at h
    rw [← h.2]
    exact ⟨by simp, rfl⟩
  | case2 | case5 =>
    rename_i ih
    obtain ⟨hle, hkeys⟩ := ih h
    exact ⟨Nat.le_succ_of_le hle, hkeys⟩
  | case4 => simp at h

set_option linter.unusedVariables false in
/-- The loop of `key`, with the key's length on entry: it stops at `=`, or at `,` and `}` in
an inline table, once the key is not empty. -/
def keyLoop : TomlParser → String → ℕ → Bool → Except String ((String × Char) × TomlParser)
  | ⟨_, [], line⟩, _, _, _ => .error ("Unexpected EOF at line: " ++ toString line)
  | ⟨keys, ch :: rest, line⟩, key, startKeyLen, inCurly =>
    if ch = '=' ∨ (inCurly = true ∧ (ch = ',' ∨ ch = '}')) then
      if startKeyLen ≠ key.utf8ByteSize then .ok ((key, ch), ⟨keys, rest, line⟩)
      else .error ("Empty key at line: " ++ toString line)
    else if isKeyChar ch then keyLoop ⟨keys, rest, line⟩ (key.push ch) startKeyLen inCurly
    else if ch = '"' then
      match hq : quotedKey ⟨keys, rest, line⟩ key '\x00' with
      | .error e => .error e
      | .ok (key', p') => keyLoop p' key' startKeyLen inCurly
    else if ch = ' ' ∨ ch = '\t' ∨ ch = '\r' then keyLoop ⟨keys, rest, line⟩ key startKeyLen inCurly
    else if ch = '\n' then
      if startKeyLen = key.utf8ByteSize then keyLoop ⟨keys, rest, line + 1⟩ key startKeyLen inCurly
      else
        .error ("Unexpected end of line while parsing key " ++ debugString key ++ " at line: " ++
          toString line)
    else
      .error ("Unexpected character " ++ debugChar ch ++ " found in key at line " ++
        toString line ++ ".")
termination_by p => p.iter.length
decreasing_by
  · exact Nat.lt_succ_self _
  · exact Nat.lt_succ_of_le (quotedKey_le hq).1
  · exact Nat.lt_succ_self _
  · exact Nat.lt_succ_self _

def key (p : TomlParser) (key : String) (inCurly : Bool) : Except String ((String × Char) × TomlParser) :=
  keyLoop p key key.utf8ByteSize inCurly

theorem keyLoop_lt {p q : TomlParser} {key k : String} {startKeyLen : ℕ} {inCurly : Bool} {c : Char}
    (h : keyLoop p key startKeyLen inCurly = .ok ((k, c), q)) :
    q.iter.length < p.iter.length ∧ q.keys = p.keys := by
  fun_induction keyLoop p key startKeyLen inCurly with
  | case1 | case3 | case5 | case9 | case10 => simp at h
  | case2 =>
    simp only [Except.ok.injEq, Prod.mk.injEq] at h
    rw [← h.2]
    exact ⟨Nat.lt_succ_self _, rfl⟩
  | case4 | case7 | case8 =>
    rename_i ih
    obtain ⟨hlt, hkeys⟩ := ih h
    exact ⟨Nat.lt_succ_of_lt hlt, hkeys⟩
  | case6 =>
    rename_i hq _ _ ih
    obtain ⟨hlt, hkeys⟩ := ih h
    obtain ⟨hle, hkeys'⟩ := quotedKey_le hq
    exact ⟨Nat.lt_succ_of_lt (lt_of_lt_of_le hlt hle), hkeys.trans hkeys'⟩

/-- `insert_key`: a key already read is an error. -/
def insertKey (p : TomlParser) (key value : String) : Except String TomlParser :=
  match p.keys.insertNew key value with
  | some keys => .ok { p with keys }
  | none => .error ("Duplicate key " ++ debugString key ++ " at line " ++ toString p.line ++ ".")

theorem insertKey_iter {p q : TomlParser} {key value : String} (h : insertKey p key value = .ok q) :
    q.iter = p.iter := by
  unfold insertKey at h
  split at h
  · cases h
    rfl
  · cases h

set_option linter.unusedVariables false in
/-- The loop of a quoted value after its first character. A backslash that does not follow
a backslash is dropped, `t`, `r` and `n` after a backslash are control characters, and the
quote ends the value unless it follows a backslash. -/
def basicString (p : TomlParser) (qch lastCh : Char) (value : String) :
    Except String (String × TomlParser) :=
  match h : nextChar p false true with
  | .error e => .error e
  | .ok (ch, p') =>
    if ch = '\\' ∧ lastCh ≠ '\\' then basicString p' qch ch value
    else if ch = 't' ∧ lastCh = '\\' then basicString p' qch ch (value.push '\t')
    else if ch = 'r' ∧ lastCh = '\\' then basicString p' qch ch (value.push '\r')
    else if ch = 'n' ∧ lastCh = '\\' then basicString p' qch ch (value.push '\n')
    else if ch ≠ qch ∨ lastCh = '\\' then basicString p' qch ch (value.push ch)
    else .ok (value, p')
termination_by p.iter.length
decreasing_by all_goals exact (nextChar_lt h).1

set_option linter.unusedVariables false in
/-- The loop of a triple-quoted value: it ends at the third quote in a row, and the two
quotes before it, one byte each, are cut from the value. -/
def multilineString (p : TomlParser) (qch lastCh prevLastCh : Char) (value : String) :
    Except String (String × TomlParser) :=
  match h : nextChar p false true with
  | .error e => .error e
  | .ok (ch, p') =>
    if ch = qch ∧ lastCh = qch ∧ prevLastCh = qch then
      .ok (String.ofList value.toList.dropLast.dropLast, p')
    else multilineString p' qch ch lastCh (value.push ch)
termination_by p.iter.length
decreasing_by exact (nextChar_lt h).1

/-- A quoted value after its opening quote: two more quotes open a triple-quoted value,
whose first line feed is skipped, and one more closes an empty value. -/
def quotedValue (p : TomlParser) (qch : Char) : Except String (String × TomlParser) :=
  match p.iter with
  | c :: rest =>
    if c = qch then
      match rest with
      | c' :: rest' =>
        if c' = qch then
          if rest'.head? = some '\n' then
            multilineString { p with iter := rest'.tail, line := p.line + 1 } qch '\x00' '\x00' ""
          else multilineString { p with iter := rest' } qch '\x00' '\x00' ""
        else .ok ("", { p with iter := rest })
      | [] => .ok ("", { p with iter := rest })
    else basicString p qch '\x00' ""
  | [] => basicString p qch '\x00' ""

set_option linter.unusedVariables false in
/-- The rest of an unquoted value: characters are taken while the next one is alphanumeric,
`.`, `+` or `-`. -/
def bareValue (p : TomlParser) (value : String) : Except String (String × TomlParser) :=
  match p.iter with
  | ch :: _ =>
    if isBareChar ch then
      match h : nextChar p true false with
      | .error e => .error e
      | .ok (c, p') => bareValue p' (value.push c)
    else .ok (value, p)
  | [] => .ok (value, p)
termination_by p.iter.length
decreasing_by exact (nextChar_lt h).1

set_option linter.unusedVariables false in
/-- After a value: comments and, unless a line feed ends the value, blank lines are skipped
up to one of `stopChars`. -/
def trailing (p : TomlParser) (stopChars : List Char) : Except String (Char × TomlParser) :=
  match h : nextChar p true true with
  | .error e => .error e
  | .ok (ch, p') =>
    if ch = '#' then
      if '\n' ∈ stopChars then .ok ('\n', skipLine p') else trailing (skipLine p') stopChars
    else if ch ∈ stopChars then .ok (ch, p')
    else if ch = '\n' then trailing p' stopChars
    else
      .error ("Expected " ++ debugChars stopChars ++ " but found " ++ debugChar ch ++
        " in value at line " ++ toString p'.line ++ ".")
termination_by p.iter.length
decreasing_by
  · exact lt_of_le_of_lt (skipLine_le _) (nextChar_lt h).1
  · exact (nextChar_lt h).1

theorem basicString_lt {p q : TomlParser} {qch lastCh : Char} {value v : String}
    (h : basicString p qch lastCh value = .ok (v, q)) : q.iter.length < p.iter.length := by
  fun_induction basicString p qch lastCh value with
  | case1 => simp at h
  | case7 =>
    simp only [Except.ok.injEq, Prod.mk.injEq] at h
    rw [← h.2]
    exact lt_of_nextChar ‹_› (le_refl _)
  | case2 | case3 | case4 | case5 | case6 =>
    rename_i ih
    exact lt_of_nextChar ‹_› (ih h).le

theorem multilineString_lt {p q : TomlParser} {qch lastCh prevLastCh : Char} {value v : String}
    (h : multilineString p qch lastCh prevLastCh value = .ok (v, q)) :
    q.iter.length < p.iter.length := by
  fun_induction multilineString p qch lastCh prevLastCh value with
  | case1 => simp at h
  | case2 =>
    simp only [Except.ok.injEq, Prod.mk.injEq] at h
    rw [← h.2]
    exact lt_of_nextChar ‹_› (le_refl _)
  | case3 =>
    rename_i ih
    exact lt_of_nextChar ‹_› (ih h).le

theorem quotedValue_lt {p q : TomlParser} {qch : Char} {v : String}
    (h : quotedValue p qch = .ok (v, q)) : q.iter.length < p.iter.length := by
  rcases p with ⟨keys, _ | ⟨c, rest⟩, line⟩
  · exact basicString_lt h
  · unfold quotedValue at h
    dsimp only at h
    split_ifs at h with hc
    · split at h
      · split_ifs at h
        · exact lt_trans (multilineString_lt h) (by simp; omega)
        · exact lt_trans (multilineString_lt h) (by simp)
        · simp only [Except.ok.injEq, Prod.mk.injEq] at h
          rw [← h.2]
          simp
      · simp only [Except.ok.injEq, Prod.mk.injEq] at h
        rw [← h.2]
        simp
    · exact basicString_lt h

theorem bareValue_le {p q : TomlParser} {value v : String}
    (h : bareValue p value = .ok (v, q)) : q.iter.length ≤ p.iter.length := by
  fun_induction bareValue p value with
  | case1 => simp at h
  | case2 =>
    rename_i ih
    exact (lt_of_nextChar ‹_› (ih h)).le
  | case3 | case4 =>
    simp only [Except.ok.injEq, Prod.mk.injEq] at h
    rw [← h.2]

theorem trailing_lt {p q : TomlParser} {stopChars : List Char} {ch : Char}
    (h : trailing p stopChars = .ok (ch, q)) : q.iter.length < p.iter.length := by
  fun_induction trailing p stopChars with
  | case1 | case6 => simp at h
  | case2 =>
    simp only [Except.ok.injEq, Prod.mk.injEq] at h
    rw [← h.2]
    exact lt_of_nextChar ‹_› (skipLine_le _)
  | case4 =>
    simp only [Except.ok.injEq, Prod.mk.injEq] at h
    rw [← h.2]
    exact lt_of_nextChar ‹_› (le_refl _)
  | case3 =>
    rename_i ih
    exact lt_of_nextChar ‹_› (le_trans (ih h).le (skipLine_le _))
  | case5 =>
    rename_i ih
    exact lt_of_nextChar ‹_› (ih h).le

set_option linter.unusedVariables false in
mutual

/-- `value`: reads one value for `key` and returns the stop character after it. -/
def value (p : TomlParser) (key : String) (stopChars : List Char) (nestLevel : ℕ) :
    Except String (Char × TomlParser) :=
  if nestLevel = maxNestLevel then
    .error ("Too many nested structures at line " ++ toString p.line ++ ".")
  else
    match h : nextChar p true false with
    | .error e => .error e
    | .ok (ch, p1) =>
      if ch = '[' then
        match arrayValues (seekNextChar p1).2 key 0 nestLevel with
        | .error e => .error e
        | .ok p2 => trailing p2 stopChars
      else if ch = '{' then
        match tableValues p1 key nestLevel with
        | .error e => .error e
        | .ok p2 => trailing p2 stopChars
      else if ch = '\'' ∨ ch = '"' then
        match quotedValue p1 ch with
        | .error e => .error e
        | .ok (v, p2) =>
          match insertKey p2 key v with
          | .error e => .error e
          | .ok p3 => trailing p3 stopChars
      else if isBareChar ch then
        match bareValue p1 (String.singleton ch) with
        | .error e => .error e
        | .ok (v, p2) =>
          match insertKey p2 key v with
          | .error e => .error e
          | .ok p3 => trailing p3 stopChars
      else if ch ∈ stopChars then .ok (ch, p1)
      else
        .error ("Expected " ++ debugChars stopChars ++ " but found " ++ debugChar ch ++
          " in value at line " ++ toString p1.line ++ ".")
termination_by (p.iter.length, 0)
decreasing_by
  · exact Prod.Lex.left _ _ (lt_of_le_of_lt (seekNextChar_le _) (nextChar_lt h).1)
  · exact Prod.Lex.left _ _ (nextChar_lt h).1

/-- The items of an array, from the one at `arrayPos` on. -/
def arrayValues (p : TomlParser) (key : String) (arrayPos nestLevel : ℕ) :
    Except String TomlParser :=
  match value p (key ++ "." ++ pad4 arrayPos) [',', ']'] (nestLevel + 1) with
  | .error e => .error e
  | .ok (ch, p') =>
    if ch = ',' then
      if hlt : p'.iter.length < p.iter.length then
        arrayValues (seekNextChar p').2 key (arrayPos + 1) nestLevel
      else .error "value read nothing"
    else if ch = ']' then .ok p'
    else
      .error ("Unexpected character " ++ debugChar ch ++ " found in array for property " ++
        debugString key ++ " at line " ++ toString p'.line ++ ".")
termination_by (p.iter.length, 1)
decreasing_by
  · exact Prod.Lex.right _ (by decide)
  · exact Prod.Lex.left _ _ (lt_of_le_of_lt (seekNextChar_le _) hlt)

/-- The entries of an inline table; a key without a value is set to the empty string. -/
def tableValues (p : TomlParser) (key : String) (nestLevel : ℕ) : Except String TomlParser :=
  match hk : TomlParser.key p (key ++ ".") true with
  | .error e => .error e
  | .ok ((subKey, stopChar), p1) =>
    if stopChar = '=' then
      match value (seekNextChar p1).2 subKey [',', '}'] (nestLevel + 1) with
      | .error e => .error e
      | .ok (ch, p2) =>
        if ch = ',' then
          if hlt : p2.iter.length < p.iter.length then
            tableValues (seekNextChar p2).2 key nestLevel
          else .error "value read nothing"
        else if ch = '}' then .ok p2
        else
          .error ("Unexpected character " ++ debugChar ch ++
            " found in inline table for property " ++ debugString key ++ " at line " ++
            toString p2.line ++ ".")
    else
      match h2 : (if subKey.utf8ByteSize > (key ++ ".").utf8ByteSize then insertKey p1 subKey ""
          else .ok p1) with
      | .error e => .error e
      | .ok p2 =>
        -- `key` stops only at `=`, `,` or `}`
        if stopChar = ',' then tableValues p2 key nestLevel else .ok p2
termination_by (p.iter.length, 1)
decreasing_by
  · exact Prod.Lex.left _ _ (lt_of_le_of_lt (seekNextChar_le _) (keyLoop_lt hk).1)
  · exact Prod.Lex.left _ _ (lt_of_le_of_lt (seekNextChar_le _) hlt)
  · have hiter : p2.iter = p1.iter := by
      split at h2
      · exact insertKey_iter h2
      · cases h2
        rfl
    exact Prod.Lex.left _ _ (hiter ▸ (keyLoop_lt hk).1)

end

/-- Every value, array or inline table read from an input shorter than `n` reads at least
one character. -/
def Consumes (n : ℕ) : Prop :=
  ∀ p : TomlParser, p.iter.length < n →
    (∀ key stopChars nestLevel ch q, value p key stopChars nestLevel = .ok (ch, q) →
      q.iter.length < p.iter.length) ∧
    (∀ key arrayPos nestLevel q, arrayValues p key arrayPos nestLevel = .ok q →
      q.iter.length < p.iter.length) ∧
    (∀ key nestLevel q, tableValues p key nestLevel = .ok q → q.iter.length < p.iter.length)

theorem value_lt_of_consumes {n : ℕ} (hn : Consumes n) {p q : TomlParser} (hp : p.iter.length ≤ n)
    {key : String} {stopChars : List Char} {nestLevel : ℕ} {ch : Char}
    (h : value p key stopChars nestLevel = .ok (ch, q)) : q.iter.length < p.iter.length := by
  rw [value] at h
  split at h
  · simp at h
  split at h
  · simp at h
  rename_i c p1 hnext
  have hp1 : p1.iter.length < p.iter.length := (nextChar_lt hnext).1
  have hseek : (seekNextChar p1).2.iter.length < p.iter.length :=
    lt_of_le_of_lt (seekNextChar_le _) hp1
  split at h
  · split at h
    · simp at h
    rename_i p2 harr
    have h2 := (hn _ (lt_of_lt_of_le hseek hp)).2.1 _ _ _ _ harr
    exact lt_trans (trailing_lt h) (lt_trans h2 hseek)
  split at h
  · split at h
    · simp at h
    rename_i p2 htab
    have h2 := (hn _ (lt_of_lt_of_le hp1 hp)).2.2 _ _ _ htab
    exact lt_trans (trailing_lt h) (lt_trans h2 hp1)
  split at h
  · split at h
    · simp at h
    rename_i v p2 hquoted
    split at h
    · simp at h
    rename_i p3 hins
    have h3 := trailing_lt h
    rw [insertKey_iter hins] at h3
    exact lt_trans h3 (lt_trans (quotedValue_lt hquoted) hp1)
  split at h
  · split at h
    · simp at h
    rename_i v p2 hbare
    split at h
    · simp at h
    rename_i p3 hins
    have h3 := trailing_lt h
    rw [insertKey_iter hins] at h3
    exact lt_trans h3 (lt_of_le_of_lt (bareValue_le hbare) hp1)
  split at h
  · simp only [Except.ok.injEq, Prod.mk.injEq] at h
    rw [← h.2]
    exact hp1
  · simp at h

theorem arrayValues_lt_of_consumes {n : ℕ} (hn : Consumes n) {p q : TomlParser}
    (hp : p.iter.length ≤ n) {key : String} {arrayPos nestLevel : ℕ}
    (h : arrayValues p key arrayPos nestLevel = .ok q) : q.iter.length < p.iter.length := by
  rw [arrayValues] at h
  split at h
  · simp at h
  rename_i ch p' hvalue
  have hp' := value_lt_of_consumes hn hp hvalue
  split at h
  · have hseek := lt_of_le_of_lt (seekNextChar_le p') hp'
    exact lt_trans ((hn _ (lt_of_lt_of_le hseek hp)).2.1 _ _ _ _ h) hseek
  split at h
  · cases h
    exact hp'
  · simp at h

theorem tableValues_lt_of_consumes {n : ℕ} (hn : Consumes n) {p q : TomlParser}
    (hp : p.iter.length ≤ n) {key : String} {nestLevel : ℕ}
    (h : tableValues p key nestLevel = .ok q) : q.iter.length < p.iter.length := by
  rw [tableValues] at h
  split at h
  · simp at h
  rename_i subKey stopChar p1 hkey
  have hp1 : p1.iter.length < p.iter.length := (keyLoop_lt hkey).1
  split at h
  · split at h
    · simp at h
    rename_i ch p2 hvalue
    have hseek := lt_of_le_of_lt (seekNextChar_le p1) hp1
    have hp2 := lt_trans (value_lt_of_consumes hn (le_trans hseek.le hp) hvalue) hseek
    split at h
    · have hseek2 := lt_of_le_of_lt (seekNextChar_le p2) hp2
      exact lt_trans ((hn _ (lt_of_lt_of_le hseek2 hp)).2.2 _ _ _ h) hseek2
    split at h
    · cases h
      exact hp2
    · simp at h
  split at h
  · simp at h
  rename_i p2 hins
  have hiter : p2.iter = p1.iter := by
    split at hins
    · exact insertKey_iter hins
    · cases hins
      rfl
  have hp2 : p2.iter.length < p.iter.length := hiter ▸ hp1
  split at h
  · exact lt_trans ((hn _ (lt_of_lt_of_le hp2 hp)).2.2 _ _ _ h) hp2
  · cases h
    exact hp2

theorem consumes (n : ℕ) : Consumes n := by
  induction n with
  | zero => exact fun p hp => absurd hp (Nat.not_lt_zero _)
  | succ n ih =>
    intro p hp
    have hp' : p.iter.length ≤ n := Nat.le_of_lt_succ hp
    exact ⟨fun _ _ _ _ _ h => value_lt_of_consumes ih hp' h,
      fun _ _ _ _ h => arrayValues_lt_of_consumes ih hp' h,
      fun _ _ _ h => tableValues_lt_of_consumes ih hp' h⟩

theorem value_consumes {p q : TomlParser} {key : String} {stopChars : List Char} {nestLevel : ℕ}
    {ch : Char} (h : value p key stopChars nestLevel = .ok (ch, q)) :
    q.iter.length < p.iter.length :=
  (consumes _ p (Nat.lt_succ_self _)).1 _ _ _ _ _ h

section Reading

variable {keys : SortedMap String String} {rest : List Char} {line : ℕ}

theorem nextChar_of_plain {ch : Char} {skipWsp allowLf : Bool} (hcr : ch ≠ '\r') (hlf : ch ≠ '\n')
    (hw : skipWsp = true → ch ≠ ' ' ∧ ch ≠ '\t') :
    nextChar ⟨keys, ch :: rest, line⟩ skipWsp allowLf = .ok (ch, ⟨keys, rest, line⟩) := by
  have hskip : ¬(ch = '\r' ∨ skipWsp = true ∧ (ch = ' ' ∨ ch = '\t')) := by
    rintro (h | ⟨hs, h | h⟩)
    · exact hcr h
    · exact (hw hs).1 h
    · exact (hw hs).2 h
  rw [nextChar, if_neg hskip, if_neg hlf]

theorem nextChar_lf {skipWsp : Bool} :
    nextChar ⟨keys, '\n' :: rest, line⟩ skipWsp true = .ok ('\n', ⟨keys, rest, line + 1⟩) := by
  have hskip : ¬('\n' = '\r' ∨ skipWsp = true ∧ ('\n' = ' ' ∨ '\n' = '\t')) := by
    rintro (h | ⟨-, h | h⟩) <;> revert h <;> decide
  rw [nextChar, if_neg hskip, if_pos rfl, if_pos rfl]

theorem nextChar_blank {allowLf : Bool} :
    nextChar ⟨keys, ' ' :: rest, line⟩ true allowLf = nextChar ⟨keys, rest, line⟩ true allowLf := by
  rw [nextChar, if_pos (Or.inr ⟨rfl, Or.inl rfl⟩)]

theorem nextChar_spaced {ch : Char} (hcr : ch ≠ '\r') (hlf : ch ≠ '\n') (hsp : ch ≠ ' ')
    (htab : ch ≠ '\t') :
    nextChar ⟨keys, ' ' :: ch :: rest, line⟩ true false = .ok (ch, ⟨keys, rest, line⟩) := by
  rw [nextChar_blank]
  exact nextChar_of_plain hcr hlf (fun _ => ⟨hsp, htab⟩)

theorem nextChar_raw {ch : Char} (hcr : ch ≠ '\r') :
    nextChar ⟨keys, ch :: rest, line⟩ false true =
      .ok (ch, ⟨keys, rest, if ch = '\n' then line + 1 else line⟩) := by
  by_cases hlf : ch = '\n'
  · subst hlf
    rw [if_pos rfl]
    exact nextChar_lf
  · rw [if_neg hlf]
    exact nextChar_of_plain hcr hlf (fun h => absurd h Bool.false_ne_true)

theorem seekNextChar_of_plain {ch : Char} (hlf : ch ≠ '\n') (hcr : ch ≠ '\r') (hsp : ch ≠ ' ')
    (htab : ch ≠ '\t') (hhash : ch ≠ '#') :
    seekNextChar ⟨keys, ch :: rest, line⟩ = (true, ⟨keys, ch :: rest, line⟩) := by
  have hblank : ¬(ch = '\r' ∨ ch = ' ' ∨ ch = '\t') := by
    rintro (h | h | h)
    · exact hcr h
    · exact hsp h
    · exact htab h
  rw [seekNextChar, if_neg hlf, if_neg hblank, if_neg hhash]

theorem nextChar_eof {skipWsp allowLf : Bool} :
    nextChar ⟨keys, [], line⟩ skipWsp allowLf = .error ("Unexpected EOF at line: " ++ toString line) := by
  rw [nextChar]

theorem basicString_eof {qch lastCh : Char} {value : String} :
    basicString ⟨keys, [], line⟩ qch lastCh value =
      .error ("Unexpected EOF at line: " ++ toString line) := by
  rw [basicString]
  split
  · rename_i he
    rw [nextChar_eof] at he
    cases he
    rfl
  · rename_i he
    rw [nextChar_eof] at he
    cases he

theorem isBareChar_plain {ch : Char} (h : isBareChar ch = true) :
    ch ≠ '\r' ∧ ch ≠ '\n' ∧ ch ≠ ' ' ∧ ch ≠ '\t' := by
  refine ⟨?_, ?_, ?_, ?_⟩ <;> rintro rfl <;> revert h <;> decide

theorem isKeyChar_not_stop {ch : Char} (h : isKeyChar ch = true) (inCurly : Bool) :
    ¬(ch = '=' ∨ inCurly = true ∧ (ch = ',' ∨ ch = '}')) := by
  rintro (rfl | ⟨-, rfl | rfl⟩) <;> revert h <;> decide

theorem keyLoop_keyChars {cs : List Char} (hcs : ∀ c ∈ cs, isKeyChar c = true) (key : String)
    (startKeyLen : ℕ) (inCurly : Bool) :
    keyLoop ⟨keys, cs ++ rest, line⟩ key startKeyLen inCurly =
      keyLoop ⟨keys, rest, line⟩ (key ++ String.ofList cs) startKeyLen inCurly := by
  induction cs generalizing key with
  | nil => rw [List.nil_append, String.ofList_nil, String.append_empty]
  | cons c cs ih =>
    have hc := hcs c List.mem_cons_self
    rw [List.cons_append, keyLoop, if_neg (isKeyChar_not_stop hc inCurly), if_pos hc,
      ih (fun x hx => hcs x (List.mem_cons_of_mem _ hx))]
    congr 1
    apply String.ext
    simp

theorem keyLoop_assign {key : String} {startKeyLen : ℕ} {inCurly : Bool}
    (hkey : startKeyLen ≠ key.utf8ByteSize) :
    keyLoop ⟨keys, ' ' :: '=' :: rest, line⟩ key startKeyLen inCurly =
      .ok ((key, '='), ⟨keys, rest, line⟩) := by
  have hstop : ¬(' ' = '=' ∨ inCurly = true ∧ (' ' = ',' ∨ ' ' = '}')) := by
    rintro (h | ⟨-, h | h⟩) <;> revert h <;> decide
  rw [keyLoop, if_neg hstop, if_neg (by decide), if_neg (by decide), if_pos (Or.inl rfl), keyLoop,
    if_pos (Or.inl rfl), if_pos hkey]

theorem bareValue_chars {cs : List Char} (hcs : ∀ c ∈ cs, isBareChar c = true) {d : Char}
    (hd : isBareChar d = false) (value : String) :
    bareValue ⟨keys, cs ++ d :: rest, line⟩ value =
      .ok (value ++ String.ofList cs, ⟨keys, d :: rest, line⟩) := by
  induction cs generalizing value with
  | nil =>
    rw [List.nil_append, bareValue]
    simp [hd]
  | cons c cs ih =>
    have hc := hcs c List.mem_cons_self
    obtain ⟨hcr, hlf, hsp, htab⟩ := isBareChar_plain hc
    rw [List.cons_append, bareValue]
    simp only [hc, if_true]
    rw [nextChar_of_plain hcr hlf (fun _ => ⟨hsp, htab⟩)]
    dsimp only
    rw [ih (fun x hx => hcs x (List.mem_cons_of_mem _ hx))]
    congr 2
    apply String.ext
    simp

theorem trailing_lf {stopChars : List Char} (h : '\n' ∈ stopChars) :
    trailing ⟨keys, '\n' :: rest, line⟩ stopChars = .ok ('\n', ⟨keys, rest, line + 1⟩) := by
  rw [trailing]
  split
  · rename_i he
    rw [nextChar_lf] at he
    cases he
  · rename_i he
    rw [nextChar_lf] at he
    cases he
    rw [if_neg (by decide), if_pos h]

theorem insertKey_of_lt {key value : String} {iter : List Char}
    (h : ∀ a ∈ keys.entries, a.1 < key) :
    ∃ keys', insertKey ⟨keys, iter, line⟩ key value = .ok ⟨keys', iter, line⟩ ∧
      keys'.entries = keys.entries ++ [(key, value)] := by
  obtain ⟨keys', hins, hentries⟩ := keys.insertNew_of_lt value h
  exact ⟨keys', by simp [insertKey, hins], hentries⟩

theorem basicString_of_nextChar {p p' : TomlParser} {ch qch lastCh : Char} {value : String}
    (hnext : nextChar p false true = .ok (ch, p')) :
    basicString p qch lastCh value =
      if ch = '\\' ∧ lastCh ≠ '\\' then basicString p' qch ch value
      else if ch = 't' ∧ lastCh = '\\' then basicString p' qch ch (value.push '\t')
      else if ch = 'r' ∧ lastCh = '\\' then basicString p' qch ch (value.push '\r')
      else if ch = 'n' ∧ lastCh = '\\' then basicString p' qch ch (value.push '\n')
      else if ch ≠ qch ∨ lastCh = '\\' then basicString p' qch ch (value.push ch)
      else .ok (value, p') := by
  rw [basicString]
  split
  · rename_i he
    rw [hnext] at he
    cases he
  · rename_i he
    rw [hnext] at he
    cases he
    rfl

theorem basicString_skip {qch lastCh : Char} {value : String} (hlast : lastCh ≠ '\\') :
    basicString ⟨keys, '\\' :: rest, line⟩ qch lastCh value =
      basicString ⟨keys, rest, line⟩ qch '\\' value := by
  rw [basicString_of_nextChar (nextChar_of_plain (by decide) (by decide) (by simp)),
    if_pos ⟨rfl, hlast⟩]

/-- A character that is neither a dropped backslash, nor an escape letter after a backslash,
nor the closing quote is kept. -/
theorem basicString_push (c qch lastCh : Char) {value : String} (hcr : c ≠ '\r')
    (hskip : c = '\\' → lastCh = '\\') (hesc : lastCh = '\\' → c ≠ 't' ∧ c ≠ 'r' ∧ c ≠ 'n')
    (hq : c ≠ qch ∨ lastCh = '\\') :
    basicString ⟨keys, c :: rest, line⟩ qch lastCh value =
      basicString ⟨keys, rest, if c = '\n' then line + 1 else line⟩ qch c (value.push c) := by
  rw [basicString_of_nextChar (nextChar_raw hcr), if_neg (fun h => h.2 (hskip h.1)),
    if_neg (fun h => (hesc h.2).1 h.1), if_neg (fun h => (hesc h.2).2.1 h.1),
    if_neg (fun h => (hesc h.2).2.2 h.1), if_pos hq]

theorem basicString_close {qch lastCh : Char} {value : String} (hlast : lastCh ≠ '\\')
    (hcr : qch ≠ '\r') (hlf : qch ≠ '\n') (hbs : qch ≠ '\\') :
    basicString ⟨keys, qch :: rest, line⟩ qch lastCh value = .ok (value, ⟨keys, rest, line⟩) := by
  rw [basicString_of_nextChar (nextChar_of_plain hcr hlf (by simp)), if_neg (fun h => hbs h.1),
    if_neg (fun h => hlast h.2), if_neg (fun h => hlast h.2), if_neg (fun h => hlast h.2),
    if_neg (by simp [hlast])]

/-- `\\` followed by the quote: the second backslash is kept, and the quote after it, taken
as escaped, is kept too. -/
theorem basicString_backslashes_quote {qch lastCh : Char} {value : String} (hlast : lastCh ≠ '\\')
    (hcr : qch ≠ '\r') (hbs : qch ≠ '\\') (hesc : qch ≠ 't' ∧ qch ≠ 'r' ∧ qch ≠ 'n') :
    basicString ⟨keys, '\\' :: '\\' :: qch :: rest, line⟩ qch lastCh value =
      basicString ⟨keys, rest, if qch = '\n' then line + 1 else line⟩ qch qch
        ((value.push '\\').push qch) := by
  rw [basicString_skip hlast,
    basicString_push '\\' qch '\\' (by decide) (fun _ => rfl)
      (fun _ => ⟨by decide, by decide, by decide⟩) (Or.inr rfl),
    if_neg (by decide), basicString_push qch qch '\\' hcr (fun h => absurd h hbs) (fun _ => hesc)
      (Or.inr rfl)]

theorem multilineString_of_nextChar {p p' : TomlParser} {ch qch lastCh prevLastCh : Char}
    {value : String} (hnext : nextChar p false true = .ok (ch, p')) :
    multilineString p qch lastCh prevLastCh value =
      if ch = qch ∧ lastCh = qch ∧ prevLastCh = qch then
        .ok (String.ofList value.toList.dropLast.dropLast, p')
      else multilineString p' qch ch lastCh (value.push ch) := by
  rw [multilineString]
  split
  · rename_i he
    rw [hnext] at he
    cases he
  · rename_i he
    rw [hnext] at he
    cases he
    rfl

theorem multilineString_push (c qch lastCh prevLastCh : Char) {value : String} (hcr : c ≠ '\r')
    (hno : ¬(c = qch ∧ lastCh = qch ∧ prevLastCh = qch)) :
    multilineString ⟨keys, c :: rest, line⟩ qch lastCh prevLastCh value =
      multilineString ⟨keys, rest, if c = '\n' then line + 1 else line⟩ qch c lastCh (value.push c) := by
  rw [multilineString_of_nextChar (nextChar_raw hcr), if_neg hno]

theorem multilineString_close {qch : Char} {value : String} (hcr : qch ≠ '\r') (hlf : qch ≠ '\n') :
    multilineString ⟨keys, qch :: rest, line⟩ qch qch qch value =
      .ok (String.ofList value.toList.dropLast.dropLast, ⟨keys, rest, line⟩) := by
  rw [multilineString_of_nextChar (nextChar_of_plain hcr hlf (by simp)), if_pos ⟨rfl, rfl, rfl⟩]

theorem value_quoted {p p1 p2 p3 : TomlParser} {key v : String} {stopChars : List Char}
    {nestLevel : ℕ} {c : Char} (hnest : nestLevel ≠ maxNestLevel)
    (hnext : nextChar p true false = .ok (c, p1)) (hc : c = '\'' ∨ c = '"')
    (hq : quotedValue p1 c = .ok (v, p2)) (hins : insertKey p2 key v = .ok p3) :
    value p key stopChars nestLevel = trailing p3 stopChars := by
  have hb : c ≠ '[' ∧ c ≠ '{' := by
    constructor <;> rintro rfl <;> rcases hc with h | h <;> revert h <;> decide
  rw [value, if_neg hnest]
  split
  · rename_i he
    rw [hnext] at he
    cases he
  · rename_i he
    rw [hnext] at he
    cases he
    simp only [if_neg hb.1, if_neg hb.2, if_pos hc, hq, hins]

theorem value_quoted_error {p p1 : TomlParser} {key e : String} {stopChars : List Char}
    {nestLevel : ℕ} {c : Char} (hnest : nestLevel ≠ maxNestLevel)
    (hnext : nextChar p true false = .ok (c, p1)) (hc : c = '\'' ∨ c = '"')
    (hq : quotedValue p1 c = .error e) : value p key stopChars nestLevel = .error e := by
  have hb : c ≠ '[' ∧ c ≠ '{' := by
    constructor <;> rintro rfl <;> rcases hc with h | h <;> revert h <;> decide
  rw [value, if_neg hnest]
  split
  · rename_i he
    rw [hnext] at he
    cases he
  · rename_i he
    rw [hnext] at he
    cases he
    simp only [if_neg hb.1, if_neg hb.2, if_pos hc, hq]

theorem value_bare {p p1 p2 p3 : TomlParser} {key v : String} {stopChars : List Char}
    {nestLevel : ℕ} {c : Char} (hnest : nestLevel ≠ maxNestLevel)
    (hnext : nextChar p true false = .ok (c, p1)) (hc : isBareChar c = true)
    (hb : bareValue p1 (String.singleton c) = .ok (v, p2)) (hins : insertKey p2 key v = .ok p3) :
    value p key stopChars nestLevel = trailing p3 stopChars := by
  have hne : c ≠ '[' ∧ c ≠ '{' ∧ ¬(c = '\'' ∨ c = '"') := by
    refine ⟨?_, ?_, ?_⟩
    · rintro rfl
      revert hc
      decide
    · rintro rfl
      revert hc
      decide
    · rintro (rfl | rfl) <;> revert hc <;> decide
  rw [value, if_neg hnest]
  split
  · rename_i he
    rw [hnext] at he
    cases he
  · rename_i he
    rw [hnext] at he
    cases he
    simp only [if_neg hne.1, if_neg hne.2.1, if_neg hne.2.2, hc, if_true, hb, hins]

theorem quotedValue_basic {p : TomlParser} {qch : Char} (h : p.iter.head? ≠ some qch) :
    quotedValue p qch = basicString p qch '\x00' "" := by
  rcases p with ⟨keys, _ | ⟨c, rest⟩, line⟩
  · rfl
  · have hc : c ≠ qch := fun hc => h (by simp [hc])
    simp [quotedValue, hc]

theorem quotedValue_empty {qch c : Char} (hc : c ≠ qch) :
    quotedValue ⟨keys, qch :: c :: rest, line⟩ qch = .ok ("", ⟨keys, c :: rest, line⟩) := by
  simp [quotedValue, hc]

theorem quotedValue_multiline {qch : Char} {iter : List Char} (h : iter.head? ≠ some '\n') :
    quotedValue ⟨keys, qch :: qch :: iter, line⟩ qch =
      multilineString ⟨keys, iter, line⟩ qch '\x00' '\x00' "" := by
  simp [quotedValue, h]

end Reading

end TomlParser

/-- The locals of `Config::parse` that live from one line to the next. -/
structure TableState where
  tableName : String
  lastArrayName : String
  lastArrayPos : ℕ

open TomlParser

set_option linter.unusedVariables false in
/-- The loop of a `[table]` or `[[array]]` header after its first character. An array header
ends at its first `]` and gets the next index of its array as its last part. -/
def tableHeader (p : TomlParser) (s : TableState) (isArray inQuote : Bool) (lastCh : Char) :
    Except String (TomlParser × TableState) :=
  match h : nextChar p (!inQuote) false with
  | .error e => .error e
  | .ok (ch, p') =>
    if ch = '"' ∧ (inQuote = false ∨ lastCh ≠ '\\') then tableHeader p' s isArray (!inQuote) ch
    else if ch = '\\' ∧ inQuote = true then tableHeader p' s isArray inQuote ch
    else if ch = ']' ∧ inQuote = false then
      if s.tableName.isEmpty then .error ("Empty table name at line " ++ toString p'.line ++ ".")
      else if isArray then
        let pos := if s.tableName = s.lastArrayName then s.lastArrayPos + 1 else 0
        tableHeader p' ⟨s.tableName ++ "." ++ pad4 pos, s.tableName, pos⟩ false inQuote ch
      else .ok (p', s)
    else if inQuote = false then
      if isAlphanumeric ch ∨ ch ∈ ['.', '-', '_'] then
        tableHeader p' { s with tableName := s.tableName.push ch.toLower } isArray inQuote ch
      else
        .error ("Unexpected character " ++ debugChar ch ++ " at line " ++ toString p'.line ++ ".")
    else tableHeader p' { s with tableName := s.tableName.push ch } isArray inQuote ch
termination_by p.iter.length
decreasing_by all_goals exact (nextChar_lt h).1

theorem tableHeader_lt {p q : TomlParser} {s s' : TableState} {isArray inQuote : Bool}
    {lastCh : Char} (h : tableHeader p s isArray inQuote lastCh = .ok (q, s')) :
    q.iter.length < p.iter.length := by
  fun_induction tableHeader p s isArray inQuote lastCh with
  | case6 =>
    simp only [Except.ok.injEq, Prod.mk.injEq] at h
    rw [← h.1]
    exact lt_of_nextChar ‹_› (le_refl _)
  | case1 | case4 | case8 => simp at h
  | case2 | case3 | case5 | case7 | case9 =>
    rename_i ih
    exact lt_of_nextChar ‹_› (ih h).le

set_option linter.unusedVariables false in
/-- The loop of `Config::parse`: a header, a `key = value` line or a comment at a time. -/
def parseLines (p : TomlParser) (s : TableState) : Except String TomlParser :=
  match hs : seekNextChar p with
  | (false, p') => .ok p'
  | (true, p') =>
    match hp : p'.iter with
    | [] => .error ""
    | ch :: _ =>
      if ch = '[' then
        match h1 : nextChar p' true false with
        | .error e => .error e
        | .ok (_, p1) =>
          match h2 : nextChar p1 true false with
          | .error e => .error e
          | .ok (c, p2) =>
            match h3 : tableHeader p2 { s with tableName := if c = '[' then "" else String.singleton c }
                (decide (c = '[')) false '\x00' with
            | .error e => .error e
            | .ok (p3, s') => parseLines (skipLine p3) s'
      else if ch.isAlphanum ∨ ch = '"' then
        match h1 : TomlParser.key p' (if s.tableName.isEmpty then "" else s.tableName ++ ".") false with
        | .error e => .error e
        | .ok ((k, _), p1) =>
          match h2 : value p1 k ['\n'] 0 with
          | .error e => .error e
          | .ok (_, p2) => parseLines p2 s
      else if ch = '#' then parseLines (skipLine p') s
      else .error ("Unexpected character " ++ debugChar ch ++ " at line " ++ toString p'.line ++ ".")
termination_by p.iter.length
decreasing_by
  all_goals have hseek : p'.iter.length ≤ p.iter.length := seekNextChar_le_of hs
  · exact lt_of_le_of_lt (skipLine_le _) (lt_trans (tableHeader_lt h3)
      (lt_trans (nextChar_lt h2).1 (lt_of_lt_of_le (nextChar_lt h1).1 hseek)))
  · exact lt_trans (value_consumes h2) (lt_of_lt_of_le (keyLoop_lt h1).1 hseek)
  · exact lt_of_lt_of_le (skipLine_lt hp) hseek

theorem parseLines_keyLine {p p' p1 : TomlParser} {s : TableState} {c : Char} {tail : List Char}
    {k : String} {stop : Char} (hs : seekNextChar p = (true, p')) (hp' : p'.iter = c :: tail)
    (hc : c.isAlphanum = true) (hname : s.tableName = "")
    (hkey : TomlParser.key p' "" false = .ok ((k, stop), p1)) :
    parseLines p s = (value p1 k ['\n'] 0).bind fun r => parseLines r.2 s := by
  have hbracket : c ≠ '[' := by
    rintro rfl
    revert hc
    decide
  rw [parseLines]
  split
  · rename_i he
    rw [hs] at he
    cases he
  rename_i p'' he
  rw [hs] at he
  cases he
  split
  · rename_i he
    rw [hp'] at he
    cases he
  rename_i c' tail' he
  rw [hp'] at he
  cases he
  rw [if_neg hbracket, if_pos (Or.inl hc)]
  have htablePart : (if s.tableName.isEmpty = true then "" else s.tableName ++ ".") = "" := by
    simp [hname]
  split
  · rename_i he
    rw [htablePart, hkey] at he
    cases he
  rename_i k' stop' p1' he
  rw [htablePart, hkey] at he
  cases he
  split <;> rename_i he <;> rw [he] <;> rfl

theorem parseLines_end {keys : SortedMap String String} {line : ℕ} (s : TableState) :
    parseLines ⟨keys, [], line⟩ s = .ok ⟨keys, [], line⟩ := by
  have hs : seekNextChar ⟨keys, [], line⟩ = (false, ⟨keys, [], line⟩) := by rw [seekNextChar]
  rw [parseLines]
  split
  · rename_i he
    rw [hs] at he
    cases he
    rfl
  · rename_i he
    rw [hs] at he
    cases he

/-- The configuration's keys; its warnings and errors are filled in by the readers of the
keys, not by the parser. -/
structure Config where
  keys : SortedMap String String

def Config.parse (config : Config) (toml : String) : Except String Config := do
  let p ← parseLines ⟨config.keys, toml.toList, 1⟩ ⟨"", "", 0⟩
  return ⟨p.keys⟩

def Config.new (toml : String) : Except String Config := Config.parse ⟨SortedMap.empty⟩ toml

end MailServer.Utils.ConfigParser
