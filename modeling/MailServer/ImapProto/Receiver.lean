import MailServer.ImapProto.RoundTrip
import MailServer.Utils.ConfigParser

/-! # The IMAP request receiver

`Receiver::parse` reads a client's bytes one at a time through an eight-state machine: the
tag, the command name (with a `UID` prefix), then arguments as atoms, quoted strings and
literals, up to the line feed that ends the request. It returns the request, an error (which
resets the receiver for the next request), a request for a synchronising literal, or, when the
bytes run out, a request for more data; the receiver keeps its state between calls.

One byte is one `step`; `parse` runs steps to the first result or to the end of the bytes.
`feed` runs the receiver over a whole stream, calling `parse` again after every result.

* The driver of the receiver's tests moves to the next chunk on `NeedsLiteral` as on
  `NeedsMoreData`, and so drops what follows a literal's header in the same chunk
  (`drive_drops_literal_data`); a driver that goes on after `NeedsLiteral` gives the same results however the stream is cut
  (`driveAll_flatten`).
* Atom bytes are held in the buffer with no check of the request limit
  (`parse_atom_unbounded`).
* A literal `{n}` or `{n+}` with `n < 2 ^ 32` and a quoted string written by `quoted_string`
  are read back as the argument they carry (`parse_literalString`, `parse_nonSyncLiteral`,
  `parse_quotedString`); a literal of `2 ^ 32` bytes or more is refused, since its size is
  read as a `u32` (`parse_literal_size_overflow`).
-/

set_option linter.dupNamespace false

namespace MailServer.ImapProto.Receiver

open MailServer.ImapProto.Parser MailServer.ImapProto.RoundTrip MailServer.Utils.ConfigParser

/-! ## Requests -/

/-- `Token`. -/
inductive Token where
  | argument (value : List UInt8)
  | parenthesisOpen
  | parenthesisClose
  | bracketOpen
  | bracketClose
  | lt
  | gt
  | dot
  | nil
  deriving DecidableEq, Repr

/-- `State`. -/
inductive State where
  | start
  | tag
  | command (isUid : Bool)
  | argument (lastCh : UInt8)
  | argumentQuoted (escaped : Bool)
  | literal (nonSync : Bool)
  | literalSeek (size : UInt32) (nonSync : Bool)
  | literalData (remaining : UInt32)
  deriving DecidableEq, Repr

/-- `CommandParser`: the command a name stands for, and whether the command's arguments
split at brackets, angle brackets and dots. -/
class CommandParser (T : Type) extends Inhabited T where
  parse : List UInt8 → Bool → Option T
  tokenizeBrackets : T → Bool

/-- `Request`. -/
structure Request (T : Type) where
  tag : String
  command : T
  tokens : List Token
  deriving DecidableEq, Repr

/-- `Default for Request`. -/
instance {T : Type} [Inhabited T] : Inhabited (Request T) := ⟨⟨"", default, []⟩⟩

/-- `Error`. A parse error is the `trc::Error` that `Error::err` builds: its `Id` is the tag
of the request, if one was read, and its `Details` the message; its type (`BAD`) and code
(`PARSE`) are the same for every error and are left out. -/
inductive Error where
  | needsMoreData
  | needsLiteral (size : UInt32)
  | error (tag : Option String) (message : String)
  deriving DecidableEq, Repr

/-- `Receiver`. The two sizes are `usize`s; `current_request_size` stays at most
`max_request_size`, so their sums are taken without wrapping. -/
structure Receiver (T : Type) where
  buf : List UInt8
  request : Request T
  state : State
  maxRequestSize : ℕ
  currentRequestSize : ℕ
  startState : State
  deriving DecidableEq, Repr

/-! ## Bytes -/

/-- `u8::is_ascii_whitespace`: space, tab, line feed, form feed and carriage return. -/
def isAsciiWhitespace (ch : UInt8) : Bool := ch = 32 || ch = 9 || ch = 10 || ch = 12 || ch = 13

/-- `u8::is_ascii_alphanumeric`. -/
def isAsciiAlphanumeric (ch : UInt8) : Bool :=
  isAsciiDigit ch || (65 ≤ ch && ch ≤ 90) || (97 ≤ ch && ch ≤ 122)

/-- `u8::to_ascii_uppercase`. -/
def toAsciiUppercase (ch : UInt8) : UInt8 := if 97 ≤ ch && ch ≤ 122 then ch - 32 else ch

/-- `u8::to_ascii_lowercase`. -/
def toAsciiLowercase (ch : UInt8) : UInt8 := if 65 ≤ ch && ch ≤ 90 then ch + 32 else ch

/-- `<[u8]>::eq_ignore_ascii_case`. -/
def eqIgnoreAsciiCase (a b : List UInt8) : Bool := a.map toAsciiLowercase == b.map toAsciiLowercase

/-- `String::from_utf8`. -/
def fromUtf8 (bytes : List UInt8) : Option String := String.fromUTF8? ⟨bytes.toArray⟩

/-- `String::from_utf8_lossy` on a command buffer, which holds only ASCII letters and digits:
each byte is its own character. -/
def asciiString (bytes : List UInt8) : String := String.ofList (bytes.map fun b => Char.ofNat b.toNat)

/-- `ch as char` of a byte. -/
def byteChar (ch : UInt8) : Char := Char.ofNat ch.toNat

/-- The message of both size checks of `push_argument` and `push_token`. -/
def exceedsLimit (maxRequestSize : ℕ) : String :=
  "Request exceeds maximum limit of " ++ toString maxRequestSize ++ " bytes."

/-- The tokens of the delimiters `push_token` is called with: parentheses always, brackets,
angle brackets and dots when the command tokenizes them. -/
def delimiterToken (tokenizeBrackets : Bool) (ch : UInt8) : Option Token :=
  if ch = 40 then some .parenthesisOpen
  else if ch = 41 then some .parenthesisClose
  else if !tokenizeBrackets then none
  else if ch = 91 then some .bracketOpen
  else if ch = 93 then some .bracketClose
  else if ch = 60 then some .lt
  else if ch = 62 then some .gt
  else if ch = 46 then some .dot
  else none

/-! ## The receiver -/

section Receiver

variable {T : Type} [CommandParser T]

/-- `Receiver::default`. -/
def Receiver.default : Receiver T := ⟨[], Inhabited.default, .start, 25 * 1024 * 1024, 0, .start⟩

/-- `Receiver::new`. -/
def Receiver.new : Receiver T := Receiver.default

/-- `Receiver::with_max_request_size`. -/
def Receiver.withMaxRequestSize (maxRequestSize : ℕ) : Receiver T :=
  { Receiver.default with maxRequestSize }

@[simp] theorem Receiver.withMaxRequestSize_buf (maxRequestSize : ℕ) :
    (Receiver.withMaxRequestSize maxRequestSize : Receiver T).buf = [] := rfl

@[simp] theorem Receiver.withMaxRequestSize_maxRequestSize (maxRequestSize : ℕ) :
    (Receiver.withMaxRequestSize maxRequestSize : Receiver T).maxRequestSize = maxRequestSize := rfl

@[simp] theorem Receiver.withMaxRequestSize_currentRequestSize (maxRequestSize : ℕ) :
    (Receiver.withMaxRequestSize maxRequestSize : Receiver T).currentRequestSize = 0 := rfl

/-- `Receiver::error_reset`: the request is dropped, and the receiver waits for the next one
from its start state. -/
def Receiver.errorReset (r : Receiver T) (message : String) : Error × Receiver T :=
  (.error (if r.request.tag.isEmpty then none else some r.request.tag) message,
    { r with request := Inhabited.default, buf := [], state := r.startState, currentRequestSize := 0 })

/-- `Receiver::push_argument`: the buffer, if not empty, becomes an argument and counts
towards the limit; an empty quoted string is `NIL`. -/
def Receiver.pushArgument (r : Receiver T) (inQuote : Bool) : Except (Error × Receiver T) (Receiver T) :=
  if !r.buf.isEmpty then
    if r.currentRequestSize + r.buf.length > r.maxRequestSize then
      .error (r.errorReset (exceedsLimit r.maxRequestSize))
    else
      .ok { r with
        currentRequestSize := r.currentRequestSize + r.buf.length
        buf := []
        request := { r.request with tokens := r.request.tokens ++ [.argument r.buf] } }
  else if inQuote then
    .ok { r with request := { r.request with tokens := r.request.tokens ++ [.nil] } }
  else .ok r

/-- `Receiver::push_token`: a delimiter counts one byte towards the limit. -/
def Receiver.pushToken (r : Receiver T) (token : Token) : Except (Error × Receiver T) (Receiver T) :=
  if r.currentRequestSize + 1 > r.maxRequestSize then .error (r.errorReset (exceedsLimit r.maxRequestSize))
  else
    .ok { r with
      currentRequestSize := r.currentRequestSize + 1
      request := { r.request with tokens := r.request.tokens ++ [token] } }

/-- What one pass of the loop of `parse` leaves: the receiver, and the result `parse`
returns after this byte, if it returns. -/
abbrev Step (T : Type) := Receiver T × Option (Except Error (Request T))

/-- An error returned by `parse`, with the receiver the error left. -/
def fail (e : Error × Receiver T) : Step T := (e.2, some (.error e.1))

/-- A call made with `?`: its error is returned, and the loop goes on from what it leaves
otherwise. -/
def tryThen (x : Except (Error × Receiver T) (Receiver T)) (k : Receiver T → Step T) : Step T :=
  match x with
  | .error e => fail e
  | .ok r => k r

/-- The end of a request: `parse` returns it and the receiver waits for the next one. -/
def Receiver.finish (r : Receiver T) : Step T :=
  ({ r with state := r.startState, currentRequestSize := 0, request := Inhabited.default }, some (.ok r.request))

/-- The `Tag` state. -/
def stepTag (r : Receiver T) (ch : UInt8) : Step T :=
  if ch = 32 then
    if r.buf.isEmpty then (r, none)
    else
      match fromUtf8 r.buf with
      | some tag => ({ r with request := { r.request with tag := tag }, buf := [], state := .command false }, none)
      | none => fail (r.errorReset "Tag is not a valid UTF-8 string.")
  else if ch = 9 ∨ ch = 13 then (r, none)
  else if ch = 10 then
    fail (r.errorReset ("Missing command after tag " ++ debugString ((fromUtf8 r.buf).getD "") ++
      ", found CRLF instead."))
  else if r.buf.length < 128 then ({ r with buf := r.buf ++ [ch] }, none)
  else fail (r.errorReset "Tag too long.")

/-- The `Command` state: the name is read in upper case; `UID` is a prefix. -/
def stepCommand (r : Receiver T) (isUid : Bool) (ch : UInt8) : Step T :=
  if isAsciiAlphanumeric ch then
    if r.buf.length < 15 then ({ r with buf := r.buf ++ [toAsciiUppercase ch] }, none)
    else fail (r.errorReset "Command too long")
  else if isAsciiWhitespace ch then
    if r.buf.isEmpty then (r, none)
    else if !eqIgnoreAsciiCase r.buf [85, 73, 68] then
      match CommandParser.parse r.buf isUid with
      | none => fail (r.errorReset ("Unrecognized command '" ++ asciiString r.buf ++ "'."))
      | some command =>
        let r := { r with request := { r.request with command := command }, buf := [] }
        if ch ≠ 10 then ({ r with state := .argument 32 }, none)
        else r.finish
    else ({ r with buf := [], state := .command true }, none)
  else fail (r.errorReset ("Invalid character " ++ debugChar (byteChar ch) ++ " in command name."))

/-- The `Argument` state. A quote or a brace opens a string or a literal only after
whitespace (a brace also after a lone `~`); every other byte that is neither a delimiter nor
whitespace is kept in the buffer. -/
def stepArgument (r : Receiver T) (lastCh ch : UInt8) : Step T :=
  if ch = 34 ∧ isAsciiWhitespace lastCh then
    tryThen (r.pushArgument false) fun r => ({ r with state := .argumentQuoted false }, none)
  else if ch = 123 ∧ (isAsciiWhitespace lastCh ∨ (lastCh = 126 ∧ r.buf.length = 1)) then
    if lastCh ≠ 126 then tryThen (r.pushArgument false) fun r => ({ r with state := .literal false }, none)
    else ({ r with buf := [], state := .literal false }, none)
  else
    match delimiterToken (CommandParser.tokenizeBrackets r.request.command) ch with
    | some token => tryThen (r.pushArgument false) fun r => tryThen (r.pushToken token) fun r => (r, none)
    | none =>
      if ch = 10 then tryThen (r.pushArgument false) Receiver.finish
      else if isAsciiWhitespace ch then
        tryThen (r.pushArgument false) fun r => ({ r with state := .argument ch }, none)
      else ({ r with buf := r.buf ++ [ch], state := .argument ch }, none)

/-- The `ArgumentQuoted` state: a backslash escapes the next byte, and is kept before it
unless that byte is a quote or a backslash. -/
def stepQuoted (r : Receiver T) (escaped : Bool) (ch : UInt8) : Step T :=
  if ch = 34 then
    if !escaped then tryThen (r.pushArgument true) fun r => ({ r with state := .argument 32 }, none)
    else if r.buf.length < 1024 then ({ r with buf := r.buf ++ [ch], state := .argumentQuoted false }, none)
    else fail (r.errorReset "Quoted argument too long.")
  else if ch = 92 then
    ({ r with buf := if escaped then r.buf ++ [ch] else r.buf, state := .argumentQuoted !escaped }, none)
  else if ch = 10 then fail (r.errorReset "Unterminated quoted argument.")
  else if r.buf.length < 1024 then
    ({ r with buf := r.buf ++ (if escaped then [92, ch] else [ch]), state := .argumentQuoted false }, none)
  else fail (r.errorReset "Quoted argument too long.")

/-- The `Literal` state: the digits of the size, an optional `+`, and the closing brace,
where the size is read as a `u32` and checked against the limit. The buffer holds only
digits here, so `str::from_utf8(..).unwrap()` does not fail. -/
def stepLiteral (r : Receiver T) (nonSync : Bool) (ch : UInt8) : Step T :=
  if ch = 125 then
    if !r.buf.isEmpty then
      match fromStrU32 r.buf with
      | none => fail (r.errorReset "Literal size is not a valid number.")
      | some size =>
        if r.currentRequestSize + size.toNat > r.maxRequestSize then
          fail (r.errorReset ("Literal exceeds the maximum request size of " ++ toString r.maxRequestSize ++
            " bytes."))
        else ({ r with state := .literalSeek size nonSync, buf := [] }, none)
    else fail (r.errorReset "Invalid empty literal.")
  else if ch = 43 then
    if !r.buf.isEmpty then ({ r with state := .literal true }, none)
    else fail (r.errorReset "Invalid non-sync literal.")
  else if isAsciiDigit ch then
    if !nonSync then ({ r with buf := r.buf ++ [ch] }, none)
    else fail (r.errorReset "Invalid literal.")
  else fail (r.errorReset ("Invalid character " ++ debugChar (byteChar ch) ++ " in literal."))

/-- The `LiteralSeek` state: whitespace up to the line feed, after which a synchronising
literal asks for its data. An empty literal is `NIL`. -/
def stepLiteralSeek (r : Receiver T) (size : UInt32) (nonSync : Bool) (ch : UInt8) : Step T :=
  if ch = 10 then
    let next : Receiver T → Step T := fun r => if !nonSync then (r, some (.error (.needsLiteral size))) else (r, none)
    if size > 0 then next { r with state := .literalData size }
    else tryThen ({ r with state := .argument 32 }.pushToken .nil) next
  else if !isAsciiWhitespace ch then fail (r.errorReset "Expected CRLF after literal, found an invalid char.")
  else (r, none)

/-- The `LiteralData` state: the data is kept as it is, whatever its bytes. -/
def stepLiteralData (r : Receiver T) (remaining : UInt32) (ch : UInt8) : Step T :=
  let r := { r with buf := r.buf ++ [ch] }
  if remaining > 1 then ({ r with state := .literalData (remaining - 1) }, none)
  else tryThen (r.pushArgument false) fun r => ({ r with state := .argument 32 }, none)

/-- One pass of the loop of `Receiver::parse`. -/
def step (r : Receiver T) (ch : UInt8) : Step T :=
  match r.state with
  | .start => if !isAsciiWhitespace ch then ({ r with buf := r.buf ++ [ch], state := .tag }, none) else (r, none)
  | .tag => stepTag r ch
  | .command isUid => stepCommand r isUid ch
  | .argument lastCh => stepArgument r lastCh ch
  | .argumentQuoted escaped => stepQuoted r escaped ch
  | .literal nonSync => stepLiteral r nonSync ch
  | .literalSeek size nonSync => stepLiteralSeek r size nonSync ch
  | .literalData remaining => stepLiteralData r remaining ch

/-- `Receiver::parse`: the result, the receiver, and the bytes the iterator has left. -/
def parse (r : Receiver T) : List UInt8 → Except Error (Request T) × Receiver T × List UInt8
  | [] => (.error .needsMoreData, r, [])
  | ch :: rest =>
    match step r ch with
    | (r', none) => parse r' rest
    | (r', some result) => (result, r', rest)

/-- Whether a result is a request for more data. -/
def isNeedsMoreData : Except Error (Request T) → Bool
  | .error .needsMoreData => true
  | _ => false

/-- Whether a result is a request for a literal's data. -/
def isNeedsLiteral : Except Error (Request T) → Bool
  | .error (.needsLiteral _) => true
  | _ => false

/-- The receiver over a stream, byte by byte: the results of the steps in order, up to the
first that `stop` names, which ends the run. -/
def feedWith (stop : Except Error (Request T) → Bool) (r : Receiver T) :
    List UInt8 → Receiver T × List (Except Error (Request T))
  | [] => (r, [])
  | ch :: rest =>
    match step r ch with
    | (r', none) => feedWith stop r' rest
    | (r', some result) =>
      if stop result then (r', [])
      else
        let t := feedWith stop r' rest
        (t.1, result :: t.2)

/-- The receiver over a whole stream: every result it gives, with `parse` called again after
each one, and the receiver at the end. -/
def feed (r : Receiver T) (bytes : List UInt8) : Receiver T × List (Except Error (Request T)) :=
  feedWith (fun _ => false) r bytes

/-! ## The writers

What `protocol::quoted_string` and `protocol::literal_string` write, and the header of a
non-synchronising literal. -/

/-- The escape `quoted_string` writes for one byte: a backslash before a quote or a
backslash. -/
def quoteByte (c : UInt8) : List UInt8 := if c = 92 ∨ c = 34 then [92, c] else [c]

/-- `quoted_string`. -/
def quotedString (text : String) : List UInt8 := 34 :: (asBytes text).flatMap quoteByte ++ [34]

/-- `literal_string`. -/
def literalString (text : List UInt8) : List UInt8 := 123 :: asBytes (toString text.length) ++ [125, 13, 10] ++ text

/-- The header of a literal of `n` bytes: `{n}`, or `{n+}` for a non-synchronising one, and
the line end. -/
def literalHeader (nonSync : Bool) (n : ℕ) : List UInt8 :=
  123 :: asBytes (toString n) ++ (if nonSync then [43] else []) ++ [125, 13, 10]

/-! ## Drivers

A driver calls `parse` on a chunk's iterator until it asks for more data; a result that
`stop` names also moves it to the next chunk, and every other result is kept. -/

theorem length_parse_le (r : Receiver T) (bytes : List UInt8) : (parse r bytes).2.2.length ≤ bytes.length := by
  induction bytes generalizing r with
  | nil => exact le_refl _
  | cons ch rest ih =>
    rw [parse]
    split
    · exact Nat.le_succ_of_le (ih _)
    · exact Nat.le_succ _

theorem length_lt_of_parse {r r' : Receiver T} {bytes rest : List UInt8} {result : Except Error (Request T)}
    (h : parse r bytes = (result, r', rest)) (hmore : ¬ isNeedsMoreData result = true) :
    rest.length < bytes.length := by
  cases bytes with
  | nil =>
    cases h
    exact absurd rfl hmore
  | cons ch bytes =>
    rw [parse] at h
    split at h
    · -- no result at this byte: the rest of the call reads at most the rest of the bytes
      rename_i r₁ _
      have hle := length_parse_le r₁ bytes
      rw [h] at hle
      exact Nat.lt_succ_of_le hle
    · cases h
      exact Nat.lt_succ_self _

-- `h` and `hmore` are read only by `decreasing_by`, which the linter does not see
set_option linter.unusedVariables false in
/-- The calls a driver makes on one chunk. -/
def driveChunkWith (stop : Except Error (Request T) → Bool) (r : Receiver T) (bytes : List UInt8) :
    Receiver T × List (Except Error (Request T)) :=
  match h : parse r bytes with
  | (result, r', rest) =>
    if hmore : isNeedsMoreData result then (r', [])
    else if stop result then (r', [])
    else
      let t := driveChunkWith stop r' rest
      (t.1, result :: t.2)
termination_by bytes.length
decreasing_by exact length_lt_of_parse h hmore

/-! ## What a step can return

A step returns a request, an error made by `error_reset`, or a request for a literal; only the
end of the bytes asks for more data. -/

/-- No result of the step is a request for more data. -/
def Quiet (s : Step T) : Prop := ∀ result ∈ s.2, isNeedsMoreData result = false

omit [CommandParser T] in
theorem quiet_none (r : Receiver T) : Quiet ((r, none) : Step T) := by
  intro result h
  cases h

theorem quiet_fail_errorReset (r : Receiver T) (message : String) : Quiet (fail (r.errorReset message)) := by
  intro result h
  cases h
  rfl

theorem quiet_finish (r : Receiver T) : Quiet r.finish := by
  intro result h
  cases h
  rfl

theorem quiet_tryThen_pushArgument (r : Receiver T) (inQuote : Bool) {k : Receiver T → Step T}
    (hk : ∀ r', Quiet (k r')) : Quiet (tryThen (r.pushArgument inQuote) k) := by
  unfold Receiver.pushArgument
  split_ifs
  · exact quiet_fail_errorReset _ _
  all_goals exact hk _

theorem quiet_tryThen_pushToken (r : Receiver T) (token : Token) {k : Receiver T → Step T}
    (hk : ∀ r', Quiet (k r')) : Quiet (tryThen (r.pushToken token) k) := by
  unfold Receiver.pushToken
  split_ifs
  · exact quiet_fail_errorReset _ _
  · exact hk _

theorem quiet_stepTag (r : Receiver T) (ch : UInt8) : Quiet (stepTag r ch) := by
  unfold stepTag
  repeat' split
  all_goals first | exact quiet_none _ | exact quiet_fail_errorReset _ _

theorem quiet_stepCommand (r : Receiver T) (isUid : Bool) (ch : UInt8) : Quiet (stepCommand r isUid ch) := by
  unfold stepCommand
  repeat' split
  all_goals first | exact quiet_none _ | exact quiet_fail_errorReset _ _ | exact quiet_finish _

theorem quiet_stepArgument (r : Receiver T) (lastCh ch : UInt8) : Quiet (stepArgument r lastCh ch) := by
  unfold stepArgument
  repeat' split
  all_goals first
    | exact quiet_none _
    | exact quiet_tryThen_pushArgument _ _ fun _ => quiet_none _
    | exact quiet_tryThen_pushArgument _ _ quiet_finish
    | exact quiet_tryThen_pushArgument _ _ fun _ => quiet_tryThen_pushToken _ _ fun _ => quiet_none _

theorem quiet_stepQuoted (r : Receiver T) (escaped : Bool) (ch : UInt8) : Quiet (stepQuoted r escaped ch) := by
  unfold stepQuoted
  repeat' split
  all_goals first
    | exact quiet_none _
    | exact quiet_fail_errorReset _ _
    | exact quiet_tryThen_pushArgument _ _ fun _ => quiet_none _

theorem quiet_stepLiteral (r : Receiver T) (nonSync : Bool) (ch : UInt8) : Quiet (stepLiteral r nonSync ch) := by
  unfold stepLiteral
  repeat' split
  all_goals first | exact quiet_none _ | exact quiet_fail_errorReset _ _

theorem quiet_stepLiteralSeek (r : Receiver T) (size : UInt32) (nonSync : Bool) (ch : UInt8) :
    Quiet (stepLiteralSeek r size nonSync ch) := by
  have hnext : ∀ r' : Receiver T,
      Quiet (if !nonSync then (r', some (.error (.needsLiteral size))) else (r', none)) := by
    intro r' result h
    split at h
    · cases h
      rfl
    · cases h
  unfold stepLiteralSeek
  dsimp only
  by_cases hlf : ch = 10
  · rw [if_pos hlf]
    by_cases hsize : size > 0
    · rw [if_pos hsize]
      exact hnext _
    · rw [if_neg hsize]
      exact quiet_tryThen_pushToken _ _ hnext
  · rw [if_neg hlf]
    split
    · exact quiet_fail_errorReset _ _
    · exact quiet_none _

theorem quiet_stepLiteralData (r : Receiver T) (remaining : UInt32) (ch : UInt8) :
    Quiet (stepLiteralData r remaining ch) := by
  unfold stepLiteralData
  split
  · exact quiet_none _
  · exact quiet_tryThen_pushArgument _ _ fun _ => quiet_none _

theorem quiet_step (r : Receiver T) (ch : UInt8) : Quiet (step r ch) := by
  unfold step
  split
  · split
    · exact quiet_none _
    · exact quiet_none _
  · exact quiet_stepTag _ _
  · exact quiet_stepCommand _ _ _
  · exact quiet_stepArgument _ _ _
  · exact quiet_stepQuoted _ _ _
  · exact quiet_stepLiteral _ _ _
  · exact quiet_stepLiteralSeek _ _ _ _
  · exact quiet_stepLiteralData _ _ _

/-! ## Drivers and the stream -/

section Feed

variable {stop : Except Error (Request T) → Bool} {r r' : Receiver T} {ch : UInt8}

theorem feedWith_cons_none (rest : List UInt8) (h : step r ch = (r', none)) :
    feedWith stop r (ch :: rest) = feedWith stop r' rest := by
  simp only [feedWith, h]

theorem feedWith_cons_some (rest : List UInt8) {result : Except Error (Request T)} (h : step r ch = (r', some result)) :
    feedWith stop r (ch :: rest) =
      if stop result then (r', []) else ((feedWith stop r' rest).1, result :: (feedWith stop r' rest).2) := by
  simp only [feedWith, h]

/-- A call of `parse` is the run over the bytes it reads: nothing before its result, and the
result last. -/
theorem feedWith_of_parse {bytes rest : List UInt8} {result : Except Error (Request T)}
    (h : parse r bytes = (result, r', rest)) :
    feedWith stop r bytes =
      if isNeedsMoreData result then (r', [])
      else if stop result then (r', [])
      else ((feedWith stop r' rest).1, result :: (feedWith stop r' rest).2) := by
  induction bytes generalizing r with
  | nil =>
    cases h
    rfl
  | cons ch bytes ih =>
    rw [parse] at h
    split at h
    · rename_i r₁ hstep
      rw [feedWith_cons_none _ hstep]
      exact ih h
    · rename_i r₁ result₁ hstep
      cases h
      have hquiet : isNeedsMoreData result = false := quiet_step r ch result (by rw [hstep]; rfl)
      rw [feedWith_cons_some _ hstep, hquiet, if_neg Bool.false_ne_true]

/-- The calls a driver makes on a chunk are the run over the chunk, up to the first result
that moves it to the next chunk. -/
theorem driveChunkWith_eq (bytes : List UInt8) : driveChunkWith stop r bytes = feedWith stop r bytes := by
  -- on the length of the chunk: each call that goes on has read at least one byte
  induction hn : bytes.length using Nat.strong_induction_on generalizing r bytes with
  | _ n ih =>
    rw [driveChunkWith]
    split
    rename_i result r' rest h
    rw [feedWith_of_parse h]
    by_cases hmore : isNeedsMoreData result = true
    · simp only [hmore, dif_pos, if_pos]
    · by_cases hstop : stop result = true
      · simp only [hmore, hstop, dif_neg, if_pos, Bool.false_eq_true, not_false_eq_true, ite_self]
      · have hlt := length_lt_of_parse h hmore
        simp only [hmore, hstop, dif_neg, if_neg, Bool.false_eq_true, not_false_eq_true]
        rw [ih rest.length (hn ▸ hlt) rest rfl]

end Feed

/-- A driver over the chunks of a stream, one receiver for all of them. -/
def driveWith (stop : Except Error (Request T) → Bool) (r : Receiver T) :
    List (List UInt8) → Receiver T × List (Except Error (Request T))
  | [] => (r, [])
  | chunk :: chunks =>
    let s := driveChunkWith stop r chunk
    let t := driveWith stop s.1 chunks
    (t.1, s.2 ++ t.2)

/-- The driver of the receiver's tests: the next chunk on `NeedsMoreData` or
`NeedsLiteral`, every request and error kept. -/
def drive (r : Receiver T) (chunks : List (List UInt8)) : Receiver T × List (Except Error (Request T)) :=
  driveWith isNeedsLiteral r chunks

/-- A driver that goes on reading a chunk after `NeedsLiteral`. -/
def driveAll (r : Receiver T) (chunks : List (List UInt8)) : Receiver T × List (Except Error (Request T)) :=
  driveWith (fun _ => false) r chunks

section Split

variable {r : Receiver T}

theorem feed_cons (ch : UInt8) (rest : List UInt8) :
    feed r (ch :: rest) = ((feed (step r ch).1 rest).1, (step r ch).2.toList ++ (feed (step r ch).1 rest).2) := by
  rcases h : step r ch with ⟨r₁, _ | result⟩
  · exact feedWith_cons_none rest h
  · exact feedWith_cons_some rest h

/-- The stream cut in two: the run over the second part starts where the first left the
receiver. -/
theorem feed_append (a b : List UInt8) :
    feed r (a ++ b) = ((feed (feed r a).1 b).1, (feed r a).2 ++ (feed (feed r a).1 b).2) := by
  induction a generalizing r with
  | nil => rfl
  | cons ch a ih => simp only [List.cons_append, feed_cons, ih, List.append_assoc]

theorem driveAll_eq_feed (chunks : List (List UInt8)) : driveAll r chunks = feed r chunks.flatten := by
  induction chunks generalizing r with
  | nil => rfl
  | cons chunk chunks ih =>
    have hchunk : driveChunkWith (fun _ => false) r chunk = feed r chunk := driveChunkWith_eq chunk
    simp only [driveAll] at ih
    simp only [driveAll, driveWith, hchunk, ih, List.flatten_cons, feed_append]

/-- However the stream is cut into chunks, a driver that goes on after `NeedsLiteral` gives
the same results, and leaves the receiver in the same state, as on the whole stream. -/
theorem driveAll_flatten (chunks : List (List UInt8)) : driveAll r chunks = driveAll r [chunks.flatten] := by
  rw [driveAll_eq_feed, driveAll_eq_feed, List.flatten_singleton]

end Split

end Receiver

/-! ## The IMAP commands -/

/-- `Command`. -/
inductive Command where
  | capability
  | noop
  | logout
  | startTls
  | authenticate
  | login
  | enable
  | select
  | examine
  | create
  | delete
  | rename
  | subscribe
  | unsubscribe
  | list
  | «namespace»
  | status
  | append
  | idle
  | close
  | unselect
  | expunge (isUid : Bool)
  | search (isUid : Bool)
  | fetch (isUid : Bool)
  | store (isUid : Bool)
  | copy (isUid : Bool)
  | move (isUid : Bool)
  | lsub
  | check
  | sort (isUid : Bool)
  | thread (isUid : Bool)
  | setAcl
  | deleteAcl
  | getAcl
  | listRights
  | myRights
  | unauthenticate
  | id
  deriving DecidableEq, Repr

/-- The names `Command::parse` matches, with the command each stands for. -/
def commandNames (uid : Bool) : List (List UInt8 × Command) :=
  [(asBytes "CAPABILITY", .capability), (asBytes "NOOP", .noop), (asBytes "LOGOUT", .logout),
    (asBytes "STARTTLS", .startTls), (asBytes "AUTHENTICATE", .authenticate), (asBytes "LOGIN", .login),
    (asBytes "ENABLE", .enable), (asBytes "SELECT", .select), (asBytes "EXAMINE", .examine),
    (asBytes "CREATE", .create), (asBytes "DELETE", .delete), (asBytes "RENAME", .rename),
    (asBytes "SUBSCRIBE", .subscribe), (asBytes "UNSUBSCRIBE", .unsubscribe), (asBytes "LIST", .list),
    (asBytes "NAMESPACE", .namespace), (asBytes "STATUS", .status), (asBytes "APPEND", .append),
    (asBytes "IDLE", .idle), (asBytes "CLOSE", .close), (asBytes "UNSELECT", .unselect),
    (asBytes "EXPUNGE", .expunge uid), (asBytes "SEARCH", .search uid), (asBytes "FETCH", .fetch uid),
    (asBytes "STORE", .store uid), (asBytes "COPY", .copy uid), (asBytes "MOVE", .move uid),
    (asBytes "SORT", .sort uid), (asBytes "THREAD", .thread uid), (asBytes "LSUB", .lsub),
    (asBytes "CHECK", .check), (asBytes "SETACL", .setAcl), (asBytes "DELETEACL", .deleteAcl),
    (asBytes "GETACL", .getAcl), (asBytes "LISTRIGHTS", .listRights), (asBytes "MYRIGHTS", .myRights),
    (asBytes "UNAUTHENTICATE", .unauthenticate), (asBytes "ID", .id)]

/-- `Command::parse`. -/
def Command.parse (value : List UInt8) (uid : Bool) : Option Command := (commandNames uid).lookup value

/-- `Command::tokenize_brackets`: only `FETCH` splits its arguments at brackets. -/
def Command.tokenizeBrackets : Command → Bool
  | .fetch _ => true
  | _ => false

/-- `CommandParser for Command`; `Noop` is the default command. -/
instance : CommandParser Command where
  default := .noop
  parse := Command.parse
  tokenizeBrackets := Command.tokenizeBrackets

/-! ## Reading a request, byte by byte

One lemma per kind of byte in each state, then runs over the parts of a request: the tag,
the command name, an atom, a literal's header and data, a quoted string, and the line end. -/

section Steps

variable {T : Type} [CommandParser T] {r r' : Receiver T} {ch : UInt8}

theorem ne_of_isAsciiWhitespace (hch : isAsciiWhitespace ch = false) :
    ch ≠ 32 ∧ ch ≠ 9 ∧ ch ≠ 10 ∧ ch ≠ 12 ∧ ch ≠ 13 := by
  simp only [isAsciiWhitespace, Bool.or_eq_false_iff, decide_eq_false_iff_not] at hch
  obtain ⟨⟨⟨⟨h32, h9⟩, h10⟩, h12⟩, h13⟩ := hch
  exact ⟨h32, h9, h10, h12, h13⟩

theorem pushArgument_nil (hbuf : r.buf = []) : r.pushArgument false = .ok r := by
  simp [Receiver.pushArgument, hbuf]

theorem pushArgument_nil_quoted (hbuf : r.buf = []) :
    r.pushArgument true = .ok { r with request := { r.request with tokens := r.request.tokens ++ [.nil] } } := by
  simp [Receiver.pushArgument, hbuf]

theorem pushArgument_of_le (inQuote : Bool) (hne : r.buf ≠ [])
    (hle : r.currentRequestSize + r.buf.length ≤ r.maxRequestSize) :
    r.pushArgument inQuote = .ok { r with
      currentRequestSize := r.currentRequestSize + r.buf.length
      buf := []
      request := { r.request with tokens := r.request.tokens ++ [.argument r.buf] } } := by
  have hgt : ¬ r.currentRequestSize + r.buf.length > r.maxRequestSize := by omega
  simp [Receiver.pushArgument, hne, hgt]

theorem step_start (hs : r.state = .start) (hch : isAsciiWhitespace ch = false) :
    step r ch = ({ r with buf := r.buf ++ [ch], state := .tag }, none) := by
  simp [step, hs, hch]

theorem step_tag_push (hs : r.state = .tag) (hch : isAsciiWhitespace ch = false) (hlen : r.buf.length < 128) :
    step r ch = ({ r with buf := r.buf ++ [ch] }, none) := by
  obtain ⟨h32, h9, h10, -, h13⟩ := ne_of_isAsciiWhitespace hch
  simp [step, stepTag, hs, h32, h9, h10, h13, hlen]

theorem step_tag_space {tag : String} (hs : r.state = .tag) (hne : r.buf ≠ []) (htag : fromUtf8 r.buf = some tag) :
    step r 32 = ({ r with request := { r.request with tag := tag }, buf := [], state := .command false }, none) := by
  simp [step, stepTag, hs, hne, htag]

theorem step_command_push {isUid : Bool} (hs : r.state = .command isUid) (hch : isAsciiAlphanumeric ch = true)
    (hlen : r.buf.length < 15) : step r ch = ({ r with buf := r.buf ++ [toAsciiUppercase ch] }, none) := by
  simp [step, stepCommand, hs, hch, hlen]

theorem step_command_space {isUid : Bool} {command : T} (hs : r.state = .command isUid) (hne : r.buf ≠ [])
    (huid : eqIgnoreAsciiCase r.buf [85, 73, 68] = false) (hcmd : CommandParser.parse r.buf isUid = some command) :
    step r 32 = ({ r with request := { r.request with command := command }, buf := [], state := .argument 32 }, none) := by
  simp [step, stepCommand, hs, hne, huid, hcmd, isAsciiAlphanumeric, isAsciiDigit, isAsciiWhitespace]

/-- A byte the `Argument` state keeps in the buffer, whatever the command and the byte before
it: not a quote, a brace, a delimiter or whitespace. -/
def isAtomChar (ch : UInt8) : Bool := !([34, 123, 40, 41, 91, 93, 60, 62, 46].contains ch) && !isAsciiWhitespace ch

theorem delimiterToken_of_isAtomChar (brackets : Bool) (hch : isAtomChar ch = true) :
    delimiterToken brackets ch = none := by
  simp only [isAtomChar, Bool.and_eq_true, Bool.not_eq_true', List.contains_eq_mem, decide_eq_false_iff_not,
    List.mem_cons, List.not_mem_nil, or_false, not_or] at hch
  obtain ⟨⟨-, -, h40, h41, h91, h93, h60, h62, h46⟩, -⟩ := hch
  simp [delimiterToken, h40, h41, h91, h93, h60, h62, h46]

theorem step_argument_atom {lastCh : UInt8} (hs : r.state = .argument lastCh) (hch : isAtomChar ch = true) :
    step r ch = ({ r with buf := r.buf ++ [ch], state := .argument ch }, none) := by
  have hdelim := delimiterToken_of_isAtomChar (CommandParser.tokenizeBrackets r.request.command) hch
  simp only [isAtomChar, Bool.and_eq_true, Bool.not_eq_true', List.contains_eq_mem, decide_eq_false_iff_not,
    List.mem_cons, List.not_mem_nil, or_false, not_or] at hch
  obtain ⟨⟨h34, h123, -⟩, hws⟩ := hch
  have h10 := (ne_of_isAsciiWhitespace hws).2.2.1
  simp [step, stepArgument, hs, h34, h123, hdelim, h10, hws]

theorem step_argument_quote {lastCh : UInt8} (hs : r.state = .argument lastCh)
    (hlast : isAsciiWhitespace lastCh = true) (hbuf : r.buf = []) :
    step r 34 = ({ r with state := .argumentQuoted false }, none) := by
  simp [step, stepArgument, hs, hlast, tryThen, pushArgument_nil hbuf]

theorem step_argument_brace {lastCh : UInt8} (hs : r.state = .argument lastCh)
    (hlast : isAsciiWhitespace lastCh = true) (hbuf : r.buf = []) :
    step r 123 = ({ r with state := .literal false }, none) := by
  have h126 : lastCh ≠ 126 := by
    rintro rfl
    exact absurd hlast (by decide)
  simp [step, stepArgument, hs, hlast, h126, tryThen, pushArgument_nil hbuf]

theorem step_argument_cr {lastCh : UInt8} (hs : r.state = .argument lastCh) (hbuf : r.buf = []) :
    step r 13 = ({ r with state := .argument 13 }, none) := by
  have hdelim : delimiterToken (CommandParser.tokenizeBrackets r.request.command) 13 = none := by
    cases CommandParser.tokenizeBrackets r.request.command <;> rfl
  simp [step, stepArgument, hs, hdelim, tryThen, pushArgument_nil hbuf, isAsciiWhitespace]

theorem step_argument_lf {lastCh : UInt8} (hs : r.state = .argument lastCh) (hbuf : r.buf = []) :
    step r 10 = r.finish := by
  have hdelim : delimiterToken (CommandParser.tokenizeBrackets r.request.command) 10 = none := by
    cases CommandParser.tokenizeBrackets r.request.command <;> rfl
  simp [step, stepArgument, hs, hdelim, tryThen, pushArgument_nil hbuf]

theorem step_quoted_plain (hs : r.state = .argumentQuoted false) (h34 : ch ≠ 34) (h92 : ch ≠ 92) (h10 : ch ≠ 10)
    (hlen : r.buf.length < 1024) : step r ch = ({ r with buf := r.buf ++ [ch], state := .argumentQuoted false }, none) := by
  simp [step, stepQuoted, hs, h34, h92, h10, hlen]

theorem step_quoted_backslash (hs : r.state = .argumentQuoted false) :
    step r 92 = ({ r with state := .argumentQuoted true }, none) := by
  simp [step, stepQuoted, hs]

theorem step_quoted_escapedQuote (hs : r.state = .argumentQuoted true) (hlen : r.buf.length < 1024) :
    step r 34 = ({ r with buf := r.buf ++ [34], state := .argumentQuoted false }, none) := by
  simp [step, stepQuoted, hs, hlen]

theorem step_quoted_escapedBackslash (hs : r.state = .argumentQuoted true) :
    step r 92 = ({ r with buf := r.buf ++ [92], state := .argumentQuoted false }, none) := by
  simp [step, stepQuoted, hs]

theorem step_quoted_close (hs : r.state = .argumentQuoted false) :
    step r 34 = tryThen (r.pushArgument true) fun r => ({ r with state := .argument 32 }, none) := by
  simp [step, stepQuoted, hs]

theorem step_literal_digit (hs : r.state = .literal false) (hd : isAsciiDigit ch = true) :
    step r ch = ({ r with buf := r.buf ++ [ch] }, none) := by
  have h125 : ch ≠ 125 := by
    rintro rfl
    exact absurd hd (by decide)
  have h43 : ch ≠ 43 := by
    rintro rfl
    exact absurd hd (by decide)
  simp [step, stepLiteral, hs, hd, h125, h43]

theorem step_literal_plus {nonSync : Bool} (hs : r.state = .literal nonSync) (hne : r.buf ≠ []) :
    step r 43 = ({ r with state := .literal true }, none) := by
  simp [step, stepLiteral, hs, hne]

theorem step_literal_close {nonSync : Bool} {size : UInt32} (hs : r.state = .literal nonSync) (hne : r.buf ≠ [])
    (hsize : fromStrU32 r.buf = some size) (hmax : r.currentRequestSize + size.toNat ≤ r.maxRequestSize) :
    step r 125 = ({ r with state := .literalSeek size nonSync, buf := [] }, none) := by
  have hgt : ¬ r.currentRequestSize + size.toNat > r.maxRequestSize := by omega
  simp [step, stepLiteral, hs, hne, hsize, hgt]

theorem step_literal_close_invalid {nonSync : Bool} (hs : r.state = .literal nonSync) (hne : r.buf ≠ [])
    (hsize : fromStrU32 r.buf = none) :
    step r 125 = fail (r.errorReset "Literal size is not a valid number.") := by
  simp [step, stepLiteral, hs, hne, hsize]

theorem step_literalSeek_cr {size : UInt32} {nonSync : Bool} (hs : r.state = .literalSeek size nonSync) :
    step r 13 = (r, none) := by
  simp [step, stepLiteralSeek, hs, isAsciiWhitespace]

theorem step_literalSeek_lf {size : UInt32} {nonSync : Bool} (hs : r.state = .literalSeek size nonSync)
    (hsize : 0 < size) :
    step r 10 = ({ r with state := .literalData size }, if nonSync then none else some (.error (.needsLiteral size))) := by
  cases nonSync <;> simp [step, stepLiteralSeek, hs, hsize]

theorem step_literalData_more {remaining : UInt32} (hs : r.state = .literalData remaining) (hrem : 1 < remaining) :
    step r ch = ({ r with buf := r.buf ++ [ch], state := .literalData (remaining - 1) }, none) := by
  simp [step, stepLiteralData, hs, hrem]

theorem step_literalData_last {remaining : UInt32} (hs : r.state = .literalData remaining) (hrem : ¬ 1 < remaining) :
    step r ch = tryThen ({ r with buf := r.buf ++ [ch] }.pushArgument false) fun r => ({ r with state := .argument 32 }, none) := by
  simp [step, stepLiteralData, hs, hrem]

theorem step_literalData_end {remaining : UInt32} (hs : r.state = .literalData remaining) (hrem : ¬ 1 < remaining)
    (hmax : r.currentRequestSize + (r.buf ++ [ch]).length ≤ r.maxRequestSize) :
    step r ch = ({ r with
      buf := []
      currentRequestSize := r.currentRequestSize + (r.buf ++ [ch]).length
      request := { r.request with tokens := r.request.tokens ++ [.argument (r.buf ++ [ch])] }
      state := .argument 32 }, none) := by
  rw [step_literalData_last hs hrem, pushArgument_of_le false (by simp) hmax]
  rfl

theorem step_quoted_close_argument (hs : r.state = .argumentQuoted false)
    (hmax : r.currentRequestSize + r.buf.length ≤ r.maxRequestSize) :
    step r 34 = ({ r with
      buf := []
      currentRequestSize := r.currentRequestSize + r.buf.length
      request := { r.request with tokens := r.request.tokens ++ [if r.buf = [] then .nil else .argument r.buf] }
      state := .argument 32 }, none) := by
  rw [step_quoted_close hs]
  by_cases hbuf : r.buf = []
  · rw [pushArgument_nil_quoted hbuf]
    simp only [tryThen, hbuf, if_pos, List.length_nil, Nat.add_zero]
  · rw [pushArgument_of_le true hbuf hmax]
    simp only [tryThen, hbuf, if_neg, not_false_eq_true]

end Steps

/-! ## Runs over the parts of a request -/

section Runs

variable {T : Type} [CommandParser T] {r r' : Receiver T}

theorem feed_cons_of_none {ch : UInt8} (rest : List UInt8) (h : step r ch = (r', none)) :
    feed r (ch :: rest) = feed r' rest :=
  feedWith_cons_none rest h

/-- What follows a part of the stream that gives no result is read from where the part left
the receiver. -/
theorem feed_append_of_silent {a : List UInt8} (h : feed r a = (r', [])) (b : List UInt8) :
    feed r (a ++ b) = feed r' b := by
  rw [feed_append, h]
  rfl

theorem feed_append_silent {r₂ : Receiver T} {a b : List UInt8} (h₁ : feed r a = (r', [])) (h₂ : feed r' b = (r₂, [])) :
    feed r (a ++ b) = (r₂, []) := by
  rw [feed_append_of_silent h₁, h₂]

theorem step_of_silent {ch : UInt8} {rest : List UInt8} (h : feed r (ch :: rest) = (r', [])) :
    ∃ r₁, step r ch = (r₁, none) ∧ feed r₁ rest = (r', []) := by
  rw [feed_cons] at h
  rcases hs : step r ch with ⟨r₁, _ | result⟩
  · rw [hs] at h
    exact ⟨r₁, rfl, Prod.ext (congrArg Prod.fst h) (congrArg Prod.snd h)⟩
  · rw [hs] at h
    simp at h

theorem parse_append_of_silent {a : List UInt8} (h : feed r a = (r', [])) (b : List UInt8) :
    parse r (a ++ b) = parse r' b := by
  induction a generalizing r with
  | nil =>
    cases h
    rfl
  | cons ch a ih =>
    obtain ⟨r₁, hstep, hrest⟩ := step_of_silent h
    rw [List.cons_append, parse, hstep]
    exact ih hrest

theorem parse_of_silent_step {r'' : Receiver T} {a : List UInt8} {ch : UInt8} {result : Except Error (Request T)}
    (h : feed r a = (r', [])) (hstep : step r' ch = (r'', some result)) (rest : List UInt8) :
    parse r (a ++ ch :: rest) = (result, r'', rest) := by
  rw [parse_append_of_silent h, parse, hstep]

/-! ### The tag and the command name -/

theorem fromUtf8_asBytes (s : String) : fromUtf8 (asBytes s) = some s := by
  have hbytes : (⟨(asBytes s).toArray⟩ : ByteArray) = s.toByteArray := by
    simp [asBytes]
  rw [fromUtf8, hbytes, String.fromUTF8?, dif_pos s.isValidUTF8]
  rfl

/-- A tag the receiver reads as it is written: not empty, at most 128 bytes, and with no
whitespace, which would end it or be skipped. -/
structure ValidTag (tag : String) : Prop where
  ne_nil : asBytes tag ≠ []
  length_le : (asBytes tag).length ≤ 128
  not_whitespace : ∀ b ∈ asBytes tag, isAsciiWhitespace b = false

theorem feed_tagBytes (bs : List UInt8) (hbs : ∀ b ∈ bs, isAsciiWhitespace b = false) :
    ∀ r : Receiver T, r.state = .tag → r.buf.length + bs.length ≤ 128 →
      feed r bs = ({ r with buf := r.buf ++ bs }, []) := by
  induction bs with
  | nil =>
    intro r _ _
    simp only [List.append_nil]
    rfl
  | cons b bs ih =>
    intro r hs hlen
    simp only [List.length_cons] at hlen
    have hlen' : (r.buf ++ [b]).length + bs.length ≤ 128 := by
      simp only [List.length_append, List.length_singleton]
      omega
    rw [feed_cons_of_none _ (step_tag_push hs (hbs b List.mem_cons_self) (by omega)),
      ih (fun b' hb' => hbs b' (List.mem_cons_of_mem _ hb')) { r with buf := r.buf ++ [b] } hs hlen']
    simp only [List.append_assoc, List.singleton_append]

theorem feed_tag {tag : String} (htag : ValidTag tag) (hs : r.state = .start) (hbuf : r.buf = []) :
    feed r (asBytes tag ++ [32]) = ({ r with request := { r.request with tag := tag }, state := .command false }, []) := by
  obtain ⟨b, bs, hbytes⟩ := List.exists_cons_of_ne_nil htag.ne_nil
  have hb : isAsciiWhitespace b = false := htag.not_whitespace b (by simp [hbytes])
  have hbs : ∀ b' ∈ bs, isAsciiWhitespace b' = false := fun b' h => htag.not_whitespace b' (by simp [hbytes, h])
  have hlen := htag.length_le
  have hutf8 : fromUtf8 (b :: bs) = some tag := hbytes ▸ fromUtf8_asBytes tag
  rw [hbytes] at hlen ⊢
  have hlen' : (r.buf ++ [b]).length + bs.length ≤ 128 := by
    simp only [hbuf, List.nil_append, List.length_cons, List.length_nil] at hlen ⊢
    omega
  have hrun := feed_tagBytes bs hbs { r with buf := r.buf ++ [b], state := .tag } rfl hlen'
  rw [List.cons_append, feed_cons_of_none _ (step_start hs hb), feed_append_of_silent hrun,
    feed_cons_of_none _ (step_tag_space rfl (by simp) (by simpa [hbuf] using hutf8))]
  simp [hbuf]
  rfl

/-- What the receiver needs of a command name: at most 15 letters or digits, in upper case,
and not `UID`. -/
structure CommandName (name : List UInt8) : Prop where
  ne_nil : name ≠ []
  length_le : name.length ≤ 15
  upper : ∀ b ∈ name, isAsciiAlphanumeric b = true ∧ toAsciiUppercase b = b
  not_uid : eqIgnoreAsciiCase name [85, 73, 68] = false

theorem feed_nameBytes {isUid : Bool} (bs : List UInt8)
    (hbs : ∀ b ∈ bs, isAsciiAlphanumeric b = true ∧ toAsciiUppercase b = b) :
    ∀ r : Receiver T, r.state = .command isUid → r.buf.length + bs.length ≤ 15 →
      feed r bs = ({ r with buf := r.buf ++ bs }, []) := by
  induction bs with
  | nil =>
    intro r _ _
    simp only [List.append_nil]
    rfl
  | cons b bs ih =>
    intro r hs hlen
    simp only [List.length_cons] at hlen
    obtain ⟨halnum, hupper⟩ := hbs b List.mem_cons_self
    have hlen' : (r.buf ++ [b]).length + bs.length ≤ 15 := by
      simp only [List.length_append, List.length_singleton]
      omega
    rw [feed_cons_of_none _ (step_command_push hs halnum (by omega)), hupper,
      ih (fun b' hb' => hbs b' (List.mem_cons_of_mem _ hb')) { r with buf := r.buf ++ [b] } hs hlen']
    simp only [List.append_assoc, List.singleton_append]

theorem feed_name {name : List UInt8} {command : T} (hname : CommandName name)
    (hcmd : CommandParser.parse name false = some command) (hs : r.state = .command false) (hbuf : r.buf = []) :
    feed r (name ++ [32]) =
      ({ r with request := { r.request with command := command }, state := .argument 32 }, []) := by
  have hrun := feed_nameBytes name hname.upper r hs (by simpa [hbuf] using hname.length_le)
  rw [feed_append_of_silent hrun, feed_cons_of_none _ (step_command_space (r := { r with buf := r.buf ++ name }) hs
    (by simpa [hbuf] using hname.ne_nil) (by simpa [hbuf] using hname.not_uid) (by simpa [hbuf] using hcmd))]
  simp [hbuf]
  rfl

/-- A request's tag and command name, each followed by a space. -/
def requestPrefix (tag : String) (name : List UInt8) : List UInt8 := asBytes tag ++ 32 :: (name ++ [32])

theorem feed_requestPrefix {tag : String} {name : List UInt8} {command : T} (htag : ValidTag tag)
    (hname : CommandName name) (hcmd : CommandParser.parse name false = some command)
    (hs : r.state = .start) (hbuf : r.buf = []) :
    feed r (requestPrefix tag name) =
      ({ r with request := { r.request with tag := tag, command := command }, state := .argument 32 }, []) := by
  have hhead : requestPrefix tag name = (asBytes tag ++ [32]) ++ (name ++ [32]) := by
    simp [requestPrefix]
  rw [hhead, feed_append_of_silent (feed_tag htag hs hbuf),
    feed_name (r := { r with request := { r.request with tag := tag }, state := .command false }) hname hcmd rfl hbuf]

/-! ### Atoms and the end of the line -/

theorem feed_atom (atom : List UInt8) (hatom : ∀ ch ∈ atom, isAtomChar ch = true) :
    ∀ (r : Receiver T) (lastCh : UInt8), r.state = .argument lastCh →
      ∃ lastCh', feed r atom = ({ r with buf := r.buf ++ atom, state := .argument lastCh' }, []) := by
  induction atom with
  | nil =>
    intro r lastCh hs
    refine ⟨lastCh, ?_⟩
    simp only [List.append_nil, ← hs]
    rfl
  | cons ch atom ih =>
    intro r lastCh hs
    rw [feed_cons_of_none _ (step_argument_atom hs (hatom ch List.mem_cons_self))]
    obtain ⟨lastCh', hrun⟩ :=
      ih (fun ch' h => hatom ch' (List.mem_cons_of_mem _ h)) { r with buf := r.buf ++ [ch], state := .argument ch } ch rfl
    exact ⟨lastCh', by rw [hrun]; simp⟩

theorem parse_crlf {lastCh : UInt8} (hs : r.state = .argument lastCh) (hbuf : r.buf = []) :
    parse r [13, 10] =
      (.ok r.request, { r with state := r.startState, currentRequestSize := 0, request := Inhabited.default }, []) := by
  rw [parse, step_argument_cr hs hbuf]
  dsimp only
  rw [parse, step_argument_lf (r := { r with state := .argument 13 }) rfl hbuf]
  rfl

theorem feed_singleton_of_none {ch : UInt8} (h : step r ch = (r', none)) : feed r [ch] = (r', []) := by
  rw [feed_cons_of_none [] h]
  rfl

/-! ### Literals -/

theorem asBytes_toString (n : ℕ) : asBytes (toString n) = (Nat.toDigits 10 n).map Char.toUInt8 := by
  rw [asBytes_eq_flatMap, Nat.toString_eq_repr, Nat.toList_repr, flatMap_toDigits]

theorem isAsciiDigit_of_mem_toString {n : ℕ} {d : UInt8} (hd : d ∈ asBytes (toString n)) : isAsciiDigit d = true := by
  rw [asBytes_toString] at hd
  obtain ⟨c, hc, rfl⟩ := List.mem_map.mp hd
  exact isAsciiDigit_toUInt8 (isDigit_of_mem_toDigits hc)

theorem asBytes_toString_ne_nil (n : ℕ) : asBytes (toString n) ≠ [] := by
  rw [asBytes_toString, ne_eq, List.map_eq_nil_iff]
  exact Nat.toDigits_ne_nil

theorem decimalValue_toString (n : ℕ) : decimalValue (asBytes (toString n)) = n := by
  rw [asBytes_toString, decimalValue, foldl_map_toUInt8 (fun c hc => isDigit_of_mem_toDigits hc),
    Nat.ofDigitChars_ten_toDigits]

theorem fromStrU32_toString {n : ℕ} (hn : n < 2 ^ 32) : fromStrU32 (asBytes (toString n)) = some (UInt32.ofNat n) := by
  have hnum : IsNumber (asBytes (toString n)) :=
    ⟨asBytes_toString_ne_nil n, fun _ hd => isAsciiDigit_of_mem_toString hd, by rw [decimalValue_toString]; exact hn⟩
  have h := parseNumber_of_isNumber hnum
  rw [parseNumber] at h
  split at h
  · rename_i m hm
    cases h
    rw [hm, numberOf, decimalValue_toString]
  · cases h

/-- Where the digits loop of `u32::from_str` ends with a value, it is the digits' value and
below `2 ^ 32`. -/
theorem foldl_digitsValue_eq_some {digits : List UInt8} {value v : ℕ} (hvalue : value < 2 ^ 32)
    (h : digits.foldl (fun acc ch => acc.bind fun value =>
      if isAsciiDigit ch ∧ 10 * value + (ch.toNat - 48) < 2 ^ 32 then some (10 * value + (ch.toNat - 48))
      else none) (some value) = some v) :
    v < 2 ^ 32 ∧ v = digits.foldl (fun value d => 10 * value + (d.toNat - 48)) value := by
  induction digits generalizing value with
  | nil =>
    cases h
    exact ⟨hvalue, rfl⟩
  | cons d ds ih =>
    rw [List.foldl_cons, Option.bind_some] at h
    split_ifs at h with hstep
    · exact ih hstep.2 h
    · rw [foldl_digitsValue_none] at h
      cases h

theorem ne_sign_of_isAsciiDigit {d : UInt8} (hd : isAsciiDigit d = true) : d ≠ 43 ∧ d ≠ 45 := by
  constructor <;> rintro rfl <;> exact absurd hd (by decide)

theorem fromStrU32_toString_overflow {n : ℕ} (hn : 2 ^ 32 ≤ n) : fromStrU32 (asBytes (toString n)) = none := by
  obtain ⟨d, ds, hbytes⟩ := List.exists_cons_of_ne_nil (asBytes_toString_ne_nil n)
  have hd : isAsciiDigit d = true := isAsciiDigit_of_mem_toString (by rw [hbytes]; exact List.mem_cons_self)
  obtain ⟨hplus, hminus⟩ := ne_sign_of_isAsciiDigit hd
  have hvalue : decimalValue (d :: ds) = n := hbytes ▸ decimalValue_toString n
  rw [hbytes, fromStrU32, if_neg (by tauto), if_neg hplus]
  cases hv : digitsValue (d :: ds) with
  | none => rfl
  | some v =>
    obtain ⟨hlt, heq⟩ := foldl_digitsValue_eq_some (by norm_num) hv
    rw [decimalValue] at hvalue
    omega

theorem toNat_ofNat_of_lt {n : ℕ} (h : n < 2 ^ 32) : (UInt32.ofNat n).toNat = n :=
  UInt32.toNat_ofNat_of_lt' h

theorem feed_literalDigits (ds : List UInt8) (hds : ∀ d ∈ ds, isAsciiDigit d = true) :
    ∀ r : Receiver T, r.state = .literal false → feed r ds = ({ r with buf := r.buf ++ ds }, []) := by
  induction ds with
  | nil =>
    intro r _
    simp only [List.append_nil]
    rfl
  | cons d ds ih =>
    intro r hs
    rw [feed_cons_of_none _ (step_literal_digit hs (hds d List.mem_cons_self)),
      ih (fun d' hd' => hds d' (List.mem_cons_of_mem _ hd')) { r with buf := r.buf ++ [d] } hs]
    simp only [List.append_assoc, List.singleton_append]

theorem feed_literalSize {lastCh : UInt8} (n : ℕ) (hs : r.state = .argument lastCh)
    (hlast : isAsciiWhitespace lastCh = true) (hbuf : r.buf = []) :
    feed r (123 :: asBytes (toString n)) =
      ({ r with state := .literal false, buf := r.buf ++ asBytes (toString n) }, []) :=
  (feed_cons_of_none _ (step_argument_brace hs hlast hbuf)).trans
    (feed_literalDigits _ (fun _ hd => isAsciiDigit_of_mem_toString hd) _ rfl)

/-- The header of a literal up to the line feed: the size is read and checked against the
limit at the closing brace, and the carriage return is skipped. -/
theorem feed_literalOpen {lastCh : UInt8} {n : ℕ} (nonSync : Bool) (hs : r.state = .argument lastCh)
    (hlast : isAsciiWhitespace lastCh = true) (hbuf : r.buf = []) (hn : n < 2 ^ 32)
    (hmax : r.currentRequestSize + n ≤ r.maxRequestSize) :
    feed r (123 :: asBytes (toString n) ++ (if nonSync then [43] else []) ++ [125, 13]) =
      ({ r with state := .literalSeek (UInt32.ofNat n) nonSync, buf := [] }, []) := by
  have hne : r.buf ++ asBytes (toString n) ≠ [] := by
    rw [hbuf, List.nil_append]
    exact asBytes_toString_ne_nil n
  have hsize : fromStrU32 (r.buf ++ asBytes (toString n)) = some (UInt32.ofNat n) := by
    rw [hbuf, List.nil_append]
    exact fromStrU32_toString hn
  have hplus : feed { r with state := .literal false, buf := r.buf ++ asBytes (toString n) }
      (if nonSync then [43] else []) =
      ({ r with state := .literal nonSync, buf := r.buf ++ asBytes (toString n) }, []) := by
    cases nonSync
    · rfl
    · exact feed_singleton_of_none (step_literal_plus rfl hne)
  have hclose : feed { r with state := .literal nonSync, buf := r.buf ++ asBytes (toString n) } [125, 13] =
      ({ r with state := .literalSeek (UInt32.ofNat n) nonSync, buf := [] }, []) :=
    (feed_cons_of_none _ (step_literal_close rfl hne hsize (by rw [toNat_ofNat_of_lt hn]; exact hmax))).trans
      (feed_singleton_of_none (step_literalSeek_cr rfl))
  exact feed_append_silent (feed_append_silent (feed_literalSize n hs hlast hbuf) hplus) hclose

theorem one_lt_ofNat {k : ℕ} (hk : k + 2 < 2 ^ 32) : (1 : UInt32) < UInt32.ofNat (k + 2) := by
  rw [UInt32.lt_iff_toNat_lt, toNat_ofNat_of_lt hk]
  simp

theorem ofNat_succ_sub_one {k : ℕ} (hk : k + 1 < 2 ^ 32) : UInt32.ofNat (k + 1) - 1 = UInt32.ofNat k := by
  have h₁ := toNat_ofNat_of_lt hk
  have h₀ := toNat_ofNat_of_lt (show k < 2 ^ 32 by omega)
  apply UInt32.toNat_inj.mp
  rw [UInt32.toNat_sub_of_le _ _ (by rw [UInt32.le_iff_toNat_le, h₁]; simp), h₁, h₀]
  simp

theorem ofNat_pos {n : ℕ} (hpos : 0 < n) (hlt : n < 2 ^ 32) : 0 < UInt32.ofNat n := by
  rw [UInt32.lt_iff_toNat_lt, toNat_ofNat_of_lt hlt]
  simpa using hpos

theorem feed_literalData (v : List UInt8) (hv : v ≠ []) (hlt : v.length < 2 ^ 32) :
    ∀ r : Receiver T, r.state = .literalData (UInt32.ofNat v.length) →
      r.currentRequestSize + (r.buf ++ v).length ≤ r.maxRequestSize →
      feed r v = ({ r with
        buf := []
        currentRequestSize := r.currentRequestSize + (r.buf ++ v).length
        request := { r.request with tokens := r.request.tokens ++ [.argument (r.buf ++ v)] }
        state := .argument 32 }, []) := by
  induction v with
  | nil => exact absurd rfl hv
  | cons c v ih =>
    intro r hs hmax
    cases v with
    | nil =>
      exact feed_singleton_of_none (step_literalData_end hs (show ¬ (1 : UInt32) < UInt32.ofNat 1 by decide) hmax)
    | cons d v =>
      have hlt' : (d :: v).length < 2 ^ 32 := by
        simp only [List.length_cons] at hlt ⊢
        omega
      have hmore : step r c = _ := step_literalData_more hs (one_lt_ofNat (by simpa using hlt))
      have hstate : ({ r with buf := r.buf ++ [c], state := .literalData (UInt32.ofNat (c :: d :: v).length - 1) } :
          Receiver T).state = .literalData (UInt32.ofNat (d :: v).length) := by
        simp only [List.length_cons]
        rw [ofNat_succ_sub_one (by simpa using hlt)]
      rw [feed_cons_of_none _ hmore, ih (List.cons_ne_nil d v) hlt' _ hstate (by simpa using hmax)]
      simp

/-! ### Quoted strings -/

theorem feed_quoteByte {c : UInt8} (hs : r.state = .argumentQuoted false) (h10 : c ≠ 10) (hlen : r.buf.length < 1024) :
    feed r (quoteByte c) = ({ r with buf := r.buf ++ [c], state := .argumentQuoted false }, []) := by
  unfold quoteByte
  by_cases h92 : c = 92
  · -- an escaped backslash
    subst h92
    rw [if_pos (by decide)]
    exact (feed_cons_of_none _ (step_quoted_backslash hs)).trans
      (feed_singleton_of_none (step_quoted_escapedBackslash rfl))
  · by_cases h34 : c = 34
    · -- an escaped quote
      subst h34
      rw [if_pos (by decide)]
      exact (feed_cons_of_none _ (step_quoted_backslash hs)).trans
        (feed_singleton_of_none (step_quoted_escapedQuote rfl hlen))
    · rw [if_neg (by tauto)]
      exact feed_singleton_of_none (step_quoted_plain hs h34 h92 h10 hlen)

theorem feed_quotedBody (t : List UInt8) (ht : ∀ c ∈ t, c ≠ 10) :
    ∀ r : Receiver T, r.state = .argumentQuoted false → r.buf.length + t.length ≤ 1024 →
      feed r (t.flatMap quoteByte) = ({ r with buf := r.buf ++ t, state := .argumentQuoted false }, []) := by
  induction t with
  | nil =>
    intro r hs _
    simp only [List.flatMap_nil, List.append_nil, ← hs]
    rfl
  | cons c t ih =>
    intro r hs hlen
    simp only [List.length_cons] at hlen
    have hlen' : (r.buf ++ [c]).length + t.length ≤ 1024 := by
      simp only [List.length_append, List.length_singleton]
      omega
    have hrest := ih (fun c' hc' => ht c' (List.mem_cons_of_mem _ hc'))
      { r with buf := r.buf ++ [c], state := .argumentQuoted false } rfl hlen'
    rw [List.flatMap_cons, feed_append_silent (feed_quoteByte hs (ht c List.mem_cons_self) (by omega)) hrest]
    simp

theorem asBytes_eq_nil_iff (s : String) : asBytes s = [] ↔ s = "" := by
  rw [asBytes_eq_flatMap, List.flatMap_eq_nil_iff, ← String.toList_eq_nil_iff]
  constructor
  · intro h
    cases hs : s.toList with
    | nil => rfl
    | cons c cs => exact absurd (h c (by simp [hs])) String.utf8EncodeChar_ne_nil
  · intro h c hc
    simp [h] at hc

theorem length_le_length_flatMap_quoteByte (t : List UInt8) : t.length ≤ (t.flatMap quoteByte).length := by
  induction t with
  | nil => exact le_refl _
  | cons c t ih =>
    have hc : 1 ≤ (quoteByte c).length := by
      unfold quoteByte
      split <;> simp
    simp only [List.flatMap_cons, List.length_append, List.length_cons]
    omega

theorem feed_quotedString {lastCh : UInt8} {text : String} (hs : r.state = .argument lastCh)
    (hlast : isAsciiWhitespace lastCh = true) (hbuf : r.buf = []) (hlf : ∀ c ∈ asBytes text, c ≠ 10)
    (hlen : (asBytes text).length ≤ 1024) (hmax : r.currentRequestSize + (asBytes text).length ≤ r.maxRequestSize) :
    feed r (quotedString text) = ({ r with
      currentRequestSize := r.currentRequestSize + (asBytes text).length
      request := { r.request with
        tokens := r.request.tokens ++ [if text = "" then .nil else .argument (asBytes text)] }
      state := .argument 32 }, []) := by
  have hbody := feed_quotedBody (asBytes text) hlf { r with state := .argumentQuoted false } rfl
    (by simpa [hbuf] using hlen)
  have hclose := step_quoted_close_argument (r := { r with buf := r.buf ++ asBytes text, state := .argumentQuoted false })
    rfl (by simpa [hbuf] using hmax)
  rw [quotedString, List.cons_append, feed_cons_of_none _ (step_argument_quote hs hlast hbuf),
    feed_append_silent hbody (feed_singleton_of_none hclose)]
  simp [hbuf, asBytes_eq_nil_iff]

end Runs

/-! ## Whole requests

From a fresh receiver: the tag and the command name, one argument, and the line end. -/

section Requests

variable {T : Type} [CommandParser T] {tag : String} {name : List UInt8} {command : T}

theorem feed_withMaxRequestSize_prefix (maxRequestSize : ℕ) (htag : ValidTag tag) (hname : CommandName name)
    (hcmd : CommandParser.parse name false = some command) :
    feed (Receiver.withMaxRequestSize maxRequestSize : Receiver T) (requestPrefix tag name) =
      ({ (Receiver.withMaxRequestSize maxRequestSize : Receiver T) with
        request := ⟨tag, command, []⟩, state := .argument 32 }, []) :=
  feed_requestPrefix htag hname hcmd rfl rfl

/-- A synchronising literal: `NeedsLiteral` after its header, then the request once the data
and the line end come. -/
theorem parse_literalString {maxRequestSize : ℕ} (htag : ValidTag tag) (hname : CommandName name)
    (hcmd : CommandParser.parse name false = some command) {v : List UInt8} (hv : v ≠ []) (hlt : v.length < 2 ^ 32)
    (hmax : v.length ≤ maxRequestSize) :
    ∃ r, parse (Receiver.withMaxRequestSize maxRequestSize : Receiver T) (requestPrefix tag name ++ literalString v ++ [13, 10]) =
        (.error (.needsLiteral (UInt32.ofNat v.length)), r, v ++ [13, 10]) ∧
      parse r (v ++ [13, 10]) = (.ok ⟨tag, command, [.argument v]⟩, Receiver.withMaxRequestSize maxRequestSize, []) := by
  have hpre := feed_withMaxRequestSize_prefix maxRequestSize htag hname hcmd
  have hopen := feed_literalOpen (r := { (Receiver.withMaxRequestSize maxRequestSize : Receiver T) with
    request := ⟨tag, command, []⟩, state := .argument 32 }) false rfl (by decide) rfl hlt (by simpa using hmax)
  have hlf := step_literalSeek_lf (r := { (Receiver.withMaxRequestSize maxRequestSize : Receiver T) with
    request := ⟨tag, command, []⟩, state := .literalSeek (UInt32.ofNat v.length) false, buf := [] }) rfl
    (ofNat_pos (List.length_pos_of_ne_nil hv) hlt)
  have hbytes : requestPrefix tag name ++ literalString v ++ [13, 10] =
      (requestPrefix tag name ++ (123 :: asBytes (toString v.length) ++ (if false then [43] else []) ++ [125, 13])) ++
        10 :: (v ++ [13, 10]) := by
    simp [literalString]
  refine ⟨{ (Receiver.withMaxRequestSize maxRequestSize : Receiver T) with
    request := ⟨tag, command, []⟩, state := .literalData (UInt32.ofNat v.length), buf := [] }, ?_, ?_⟩
  · rw [hbytes]
    exact parse_of_silent_step (feed_append_silent hpre hopen) hlf _
  · -- the data, then the line end
    have hdata := feed_literalData v hv hlt { (Receiver.withMaxRequestSize maxRequestSize : Receiver T) with
      request := ⟨tag, command, []⟩, state := .literalData (UInt32.ofNat v.length), buf := [] } rfl (by simpa using hmax)
    rw [parse_append_of_silent hdata, parse_crlf rfl rfl]
    rfl

theorem parse_nonSyncLiteral {maxRequestSize : ℕ} (htag : ValidTag tag) (hname : CommandName name)
    (hcmd : CommandParser.parse name false = some command) {v : List UInt8} (hv : v ≠ []) (hlt : v.length < 2 ^ 32)
    (hmax : v.length ≤ maxRequestSize) :
    parse (Receiver.withMaxRequestSize maxRequestSize : Receiver T)
        (requestPrefix tag name ++ literalHeader true v.length ++ v ++ [13, 10]) =
      (.ok ⟨tag, command, [.argument v]⟩, Receiver.withMaxRequestSize maxRequestSize, []) := by
  have hpre := feed_withMaxRequestSize_prefix maxRequestSize htag hname hcmd
  have hopen := feed_literalOpen (r := { (Receiver.withMaxRequestSize maxRequestSize : Receiver T) with
    request := ⟨tag, command, []⟩, state := .argument 32 }) true rfl (by decide) rfl hlt (by simpa using hmax)
  have hlf := step_literalSeek_lf (r := { (Receiver.withMaxRequestSize maxRequestSize : Receiver T) with
    request := ⟨tag, command, []⟩, state := .literalSeek (UInt32.ofNat v.length) true, buf := [] }) rfl
    (ofNat_pos (List.length_pos_of_ne_nil hv) hlt)
  have hdata := feed_literalData v hv hlt { (Receiver.withMaxRequestSize maxRequestSize : Receiver T) with
    request := ⟨tag, command, []⟩, state := .literalData (UInt32.ofNat v.length), buf := [] } rfl (by simpa using hmax)
  have hbytes : requestPrefix tag name ++ literalHeader true v.length ++ v ++ [13, 10] =
      (requestPrefix tag name ++ (123 :: asBytes (toString v.length) ++ (if true then [43] else []) ++ [125, 13]) ++
        [10] ++ v) ++ [13, 10] := by
    simp [literalHeader]
  rw [hbytes, parse_append_of_silent (feed_append_silent (feed_append_silent (feed_append_silent hpre hopen)
    (feed_singleton_of_none hlf)) hdata), parse_crlf rfl rfl]
  rfl

theorem parse_quotedString {maxRequestSize : ℕ} (htag : ValidTag tag) (hname : CommandName name)
    (hcmd : CommandParser.parse name false = some command) {text : String} (hlf : ∀ c ∈ asBytes text, c ≠ 10)
    (hlen : (asBytes text).length ≤ 1024) (hmax : (asBytes text).length ≤ maxRequestSize) :
    parse (Receiver.withMaxRequestSize maxRequestSize : Receiver T) (requestPrefix tag name ++ quotedString text ++ [13, 10]) =
      (.ok ⟨tag, command, [if text = "" then .nil else .argument (asBytes text)]⟩,
        Receiver.withMaxRequestSize maxRequestSize, []) := by
  have hpre := feed_withMaxRequestSize_prefix maxRequestSize htag hname hcmd
  have hquoted := feed_quotedString (r := { (Receiver.withMaxRequestSize maxRequestSize : Receiver T) with
    request := ⟨tag, command, []⟩, state := .argument 32 }) rfl (by decide) rfl hlf hlen (by simpa using hmax)
  rw [parse_append_of_silent (feed_append_silent hpre hquoted), parse_crlf rfl rfl]
  rfl

end Requests

/-! ## The IMAP commands' names -/

theorem mem_of_lookup {l : List (List UInt8 × Command)} {name : List UInt8} {command : Command}
    (h : l.lookup name = some command) : (name, command) ∈ l := by
  induction l with
  | nil => cases h
  | cons e l ih =>
    obtain ⟨k, c⟩ := e
    by_cases hk : name = k
    · subst hk
      simp only [List.lookup, beq_self_eq_true, Option.some.injEq] at h
      subst h
      exact List.mem_cons_self
    · have hbeq : (name == k) = false := beq_false_of_ne hk
      have hrest : l.lookup name = some command := by
        simpa only [List.lookup, hbeq] using h
      exact List.mem_cons_of_mem _ (ih hrest)

theorem commandNames_wellFormed : ∀ uid : Bool, ∀ e ∈ commandNames uid,
    e.1 ≠ [] ∧ e.1.length ≤ 15 ∧ (∀ b ∈ e.1, isAsciiAlphanumeric b = true ∧ toAsciiUppercase b = b) ∧
      eqIgnoreAsciiCase e.1 [85, 73, 68] = false := by
  -- the bytes of a name are checked with `List.all`: deciding `∀ b ∈ name` directly would go
  -- through every value of `UInt8`
  have hall : ∀ uid : Bool, ∀ e ∈ commandNames uid, e.1 ≠ [] ∧ e.1.length ≤ 15 ∧
      e.1.all (fun b => isAsciiAlphanumeric b && toAsciiUppercase b == b) = true ∧
      eqIgnoreAsciiCase e.1 [85, 73, 68] = false := by
    decide
  intro uid e he
  obtain ⟨hne, hlen, hupper, huid⟩ := hall uid e he
  refine ⟨hne, hlen, fun b hb => ?_, huid⟩
  simpa using List.all_eq_true.mp hupper b hb

theorem commandName_of_parse {name : List UInt8} {uid : Bool} {command : Command}
    (h : Command.parse name uid = some command) : CommandName name := by
  obtain ⟨hne, hlen, hupper, huid⟩ := commandNames_wellFormed uid _ (mem_of_lookup h)
  exact ⟨hne, hlen, hupper, huid⟩

/-- The tests' driver on a synchronising literal sent with its data: the data after
`NeedsLiteral` is dropped with the rest of the chunk, so the request is lost, while the same
bytes cut after the literal's header give it. -/
theorem drive_drops_literal_data :
    (drive (Receiver.new : Receiver Command) [asBytes "a LOGIN {1}\r\nx\r\n"]).2 = [] ∧
      (drive (Receiver.new : Receiver Command) [asBytes "a LOGIN {1}\r\n", asBytes "x\r\n"]).2 =
        [.ok ⟨"a", .login, [.argument [120]]⟩] := by
  simp only [drive, driveWith, driveChunkWith_eq]
  decide

theorem parse_login : Command.parse (asBytes "LOGIN") false = some .login := by
  decide

theorem validTag_a : ValidTag "a" := by
  have h : asBytes "a" = [97] := by decide
  exact ⟨by simp [h], by simp [h], by simp only [h, List.mem_singleton, forall_eq]; decide⟩

/-! ## The limit and the arguments -/

/-- Atom bytes sent with no line end are all held in the buffer, and none of them counts
towards the request's size: `push_argument` checks the limit only when the atom ends. -/
theorem parse_atom_unbounded (maxRequestSize : ℕ) (atom : List UInt8) (hatom : ∀ ch ∈ atom, isAtomChar ch = true) :
    ∃ r, parse (Receiver.withMaxRequestSize maxRequestSize : Receiver Command) (asBytes "a LOGIN " ++ atom) =
      (.error .needsMoreData, r, []) ∧ r.buf = atom ∧ r.currentRequestSize = 0 := by
  have hhead : asBytes "a LOGIN " = requestPrefix "a" (asBytes "LOGIN") := by decide
  have hpre := feed_withMaxRequestSize_prefix (T := Command) maxRequestSize validTag_a
    (commandName_of_parse parse_login) parse_login
  obtain ⟨lastCh, hrun⟩ := feed_atom atom hatom { (Receiver.withMaxRequestSize maxRequestSize : Receiver Command) with
    request := ⟨"a", Command.login, []⟩, state := .argument 32 } 32 rfl
  refine ⟨{ (Receiver.withMaxRequestSize maxRequestSize : Receiver Command) with
    request := ⟨"a", Command.login, []⟩, state := .argument lastCh, buf := atom }, ?_, rfl, rfl⟩
  rw [hhead, ← List.append_nil (requestPrefix "a" (asBytes "LOGIN") ++ atom),
    parse_append_of_silent (feed_append_silent hpre hrun)]
  rfl

/-- Twice the limit of 1024 bytes, and one more, held for one request. -/
theorem parse_atom_unbounded_twoKiB :
    ∃ r, parse (Receiver.withMaxRequestSize 1024 : Receiver Command) (asBytes "a LOGIN " ++ List.replicate 2049 120) =
      (.error .needsMoreData, r, []) ∧ r.buf = List.replicate 2049 120 ∧ r.currentRequestSize = 0 :=
  parse_atom_unbounded 1024 _ fun ch hch => by
    rw [List.eq_of_mem_replicate hch]
    rfl

/-- A literal's size is read as a `u32`: a literal of `2 ^ 32` bytes or more is refused at its
closing brace, whatever the limit. -/
theorem parse_literal_size_overflow (tag : String) (htag : ValidTag tag) (name : List UInt8) (command : Command)
    (hname : Command.parse name false = some command) (maxRequestSize : ℕ) (v : List UInt8) (hv : 2 ^ 32 ≤ v.length) :
    parse (Receiver.withMaxRequestSize maxRequestSize : Receiver Command) (requestPrefix tag name ++ literalString v ++ [13, 10]) =
      (.error (.error (some tag) "Literal size is not a valid number."), Receiver.withMaxRequestSize maxRequestSize,
        [13, 10] ++ v ++ [13, 10]) := by
  have hpre := feed_withMaxRequestSize_prefix (T := Command) maxRequestSize htag (commandName_of_parse hname) hname
  have hsize := feed_literalSize (r := { (Receiver.withMaxRequestSize maxRequestSize : Receiver Command) with
    request := ⟨tag, command, []⟩, state := .argument 32 }) v.length rfl (by decide) rfl
  have hclose := step_literal_close_invalid (r := { (Receiver.withMaxRequestSize maxRequestSize : Receiver Command) with
      request := ⟨tag, command, []⟩, state := .literal false, buf := [] ++ asBytes (toString v.length) }) rfl
    (by simpa using asBytes_toString_ne_nil v.length) (by simpa using fromStrU32_toString_overflow hv)
  have hempty : tag.isEmpty = false := by
    have hne : tag ≠ "" := fun h => htag.ne_nil ((asBytes_eq_nil_iff tag).mpr h)
    simpa [String.isEmpty_iff] using hne
  have hbytes : requestPrefix tag name ++ literalString v ++ [13, 10] =
      (requestPrefix tag name ++ 123 :: asBytes (toString v.length)) ++ 125 :: ([13, 10] ++ v ++ [13, 10]) := by
    simp [literalString]
  rw [hbytes, parse_of_silent_step (feed_append_silent hpre hsize) hclose]
  simp only [Receiver.errorReset, hempty]
  rfl

/-- A literal of `2 ^ 32` bytes under a limit of `2 ^ 33`. -/
theorem parse_literal_size_overflow_fourGiB :
    parse (Receiver.withMaxRequestSize (2 ^ 33) : Receiver Command)
        (requestPrefix "a" (asBytes "LOGIN") ++ literalString (List.replicate (2 ^ 32) 120) ++ [13, 10]) =
      (.error (.error (some "a") "Literal size is not a valid number."), Receiver.withMaxRequestSize (2 ^ 33),
        [13, 10] ++ List.replicate (2 ^ 32) 120 ++ [13, 10]) :=
  parse_literal_size_overflow "a" validTag_a _ .login parse_login _ _ (List.length_replicate ..).ge

/-- After a tag without whitespace and a command name: a literal `{n}` or `{n+}` of fewer than
`2 ^ 32` bytes within the limit, and a string written by `quoted_string` with no line end, of at
most 1024 bytes once quoted and within the limit, are read back as the argument they carry. -/
theorem parse_arguments_exact (tag : String) (htag : ValidTag tag) (name : List UInt8) (command : Command)
    (hname : Command.parse name false = some command) (maxRequestSize : ℕ) :
    (∀ v : List UInt8, v ≠ [] → v.length < 2 ^ 32 → v.length ≤ maxRequestSize →
      (∃ r, parse (Receiver.withMaxRequestSize maxRequestSize : Receiver Command)
            (requestPrefix tag name ++ literalString v ++ [13, 10]) =
            (.error (.needsLiteral (UInt32.ofNat v.length)), r, v ++ [13, 10]) ∧
          parse r (v ++ [13, 10]) =
            (.ok ⟨tag, command, [.argument v]⟩, Receiver.withMaxRequestSize maxRequestSize, [])) ∧
        parse (Receiver.withMaxRequestSize maxRequestSize : Receiver Command)
            (requestPrefix tag name ++ literalHeader true v.length ++ v ++ [13, 10]) =
          (.ok ⟨tag, command, [.argument v]⟩, Receiver.withMaxRequestSize maxRequestSize, [])) ∧
      ∀ text : String, (∀ c ∈ asBytes text, c ≠ 13 ∧ c ≠ 10) → (quotedString text).length ≤ 1024 →
        (asBytes text).length ≤ maxRequestSize →
        parse (Receiver.withMaxRequestSize maxRequestSize : Receiver Command)
            (requestPrefix tag name ++ quotedString text ++ [13, 10]) =
          (.ok ⟨tag, command, [if text = "" then .nil else .argument (asBytes text)]⟩,
            Receiver.withMaxRequestSize maxRequestSize, []) := by
  have hcmd := commandName_of_parse hname
  refine ⟨fun v hv hlt hmax => ⟨parse_literalString htag hcmd hname hv hlt hmax,
    parse_nonSyncLiteral htag hcmd hname hv hlt hmax⟩, fun text hcrlf hquoted htext => ?_⟩
  have hlen : (asBytes text).length ≤ 1024 := by
    have hbody := length_le_length_flatMap_quoteByte (asBytes text)
    simp only [quotedString, List.length_cons, List.length_append] at hquoted
    omega
  exact parse_quotedString htag hcmd hname (fun c hc => (hcrlf c hc).2) hlen htext

/-- A literal holding a quote, a line end and a parenthesis, and a quoted string with an
escaped quote and an escaped backslash. -/
theorem parse_arguments_exact_login :
    (∃ r, parse (Receiver.withMaxRequestSize 1024 : Receiver Command)
          (requestPrefix "a" (asBytes "LOGIN") ++ literalString [34, 13, 10, 40] ++ [13, 10]) =
          (.error (.needsLiteral (UInt32.ofNat [34, 13, 10, 40].length)), r, [34, 13, 10, 40] ++ [13, 10]) ∧
        parse r ([34, 13, 10, 40] ++ [13, 10]) =
          (.ok ⟨"a", .login, [.argument [34, 13, 10, 40]]⟩, Receiver.withMaxRequestSize 1024, [])) ∧
      parse (Receiver.withMaxRequestSize 1024 : Receiver Command)
          (requestPrefix "a" (asBytes "LOGIN") ++ literalHeader true [34, 13, 10, 40].length ++ [34, 13, 10, 40] ++
            [13, 10]) =
        (.ok ⟨"a", .login, [.argument [34, 13, 10, 40]]⟩, Receiver.withMaxRequestSize 1024, []) ∧
      parse (Receiver.withMaxRequestSize 1024 : Receiver Command)
          (requestPrefix "a" (asBytes "LOGIN") ++ quotedString "say \"hi\\" ++ [13, 10]) =
        (.ok ⟨"a", .login, [if "say \"hi\\" = "" then .nil else .argument (asBytes "say \"hi\\")]⟩,
          Receiver.withMaxRequestSize 1024, []) := by
  have htext : asBytes "say \"hi\\" = [115, 97, 121, 32, 34, 104, 105, 92] := by decide
  have hliteral := (parse_arguments_exact "a" validTag_a _ .login parse_login 1024).1 [34, 13, 10, 40]
    (by decide) (by decide) (by decide)
  exact ⟨hliteral.1, hliteral.2, (parse_arguments_exact "a" validTag_a _ .login parse_login 1024).2 _
    (by rw [htext]; simp) (by decide) (by rw [htext]; decide)⟩

end MailServer.ImapProto.Receiver
