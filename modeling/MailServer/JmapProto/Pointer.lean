import MailServer.JmapProto.Token

/-! # `JSONPointer`: the paths of JMAP result references

`JsonObjectParser for JSONPointer` reads the string of a result reference's `path` one byte
at a time. Each reference token is classified while it is read: digits make a number,
accumulated in `num` with saturation, a lone `*` a wildcard, anything else a string, with
`~0` and `~1` unescaped to `~` and `/`; a number or wildcard that turns out to be the start
of a string is copied from the input into the string's buffer. A `/` or the closing quote
pushes the token onto the path.

`num` is cleared only when a number is pushed. A token that starts with digits and goes
on as a string leaves them in `num`, and the next number is read after them
(`nextTokenPointer_carries_digits`): `/1a/5` gives the number 15. What the parser returns
for every list of tokens is `readTokens` (`nextTokenPointer_tokens`), which threads that
leftover value from token to token.
-/

namespace MailServer.JmapProto.Pointer

open MailServer.JmapProto.Json MailServer.JmapProto.NextToken

/-! ## The model -/

/-- `JSONPointer`. -/
inductive JSONPointer where
  | root
  | wildcard
  | string (s : String)
  | number (n : ℕ)
  | path (ps : List JSONPointer)
  deriving Repr

/-- `TokenType`. -/
inductive TokenType where
  | unknown
  | number
  | string
  | wildcard
  | escaped
  deriving DecidableEq, Repr

/-- The locals of the parse loop: `path`, `num`, `buf`, `token` and `start_pos`. -/
structure PointerScan where
  path : List JSONPointer
  num : ℕ
  buf : List UInt8
  token : TokenType
  startPos : ℕ

/-- `u64::MAX`. -/
def u64Max : ℕ := 2 ^ 64 - 1

/-- `num.saturating_mul(10).saturating_add((ch - b'0') as u64)`. -/
def pushDigit (num : ℕ) (ch : UInt8) : ℕ := min (min (num * 10) u64Max + (ch - 48).toNat) u64Max

/-- The value of `path` returned at the closing quote. -/
def JSONPointer.ofPath (path : List JSONPointer) : JSONPointer :=
  match path with
  | [p] => p
  | [] => .root
  | _ => .path path

/-- The `match token` of the `b'/' | b'"'` arm: the token read so far is pushed onto the
path; an empty token counts only after a `/`. -/
def pushToken (posMarker : ℕ) (st : PointerScan) (p : Parser) : Except JsonError PointerScan :=
  match st.token with
  | .string =>
    match fromUtf8 st.buf with
    | some s => .ok { st with path := st.path ++ [.string s], buf := [] }
    | none => .error p.errorUtf8
  | .number => .ok { st with path := st.path ++ [.number st.num], num := 0 }
  | .wildcard => .ok { st with path := st.path ++ [.wildcard] }
  | .unknown => if posMarker ≠ st.startPos then .ok { st with path := st.path ++ [.string ""] } else .ok st
  | .escaped => .ok st

/-- What a byte does to the parse loop. -/
inductive PointerStep where
  | next (st : PointerScan) (p : Parser)
  | done (r : Except JsonError (JSONPointer × Parser))

/-- The `b'/' | b'"'` arm. -/
def endToken (posMarker : ℕ) (st : PointerScan) (ch : UInt8) (p : Parser) : PointerStep :=
  match pushToken posMarker st p with
  | .error e => .done (.error e)
  | .ok st' =>
    if ch = 47 then .next { st' with token := .unknown, startPos := p.pos } p
    else .done (.ok (JSONPointer.ofPath st'.path, { p with isEof := true }))

/-- The start of the `(_, _)` arm: a number or a wildcard read so far is copied into `buf`
from the input, as the start of a string. -/
def copiedBuf (st : PointerScan) (p : Parser) : List UInt8 :=
  if (st.token = .number ∨ st.token = .wildcard) ∧ st.startPos < p.pos - 1 then
    st.buf ++ getSlice p.bytes st.startPos (p.pos - 1)
  else st.buf

/-- The `(_, _)` arm: the byte starts an escape, or is pushed (the byte after a backslash
in its place). -/
def otherByte (st : PointerScan) (ch : UInt8) (p : Parser) : PointerStep :=
  if ch = 126 ∧ st.token ≠ .escaped then .next { st with buf := copiedBuf st p, token := .escaped } p
  else if ch = 92 then
    .next { st with buf := copiedBuf st p ++ [p.nextChar.1.getD 92], token := .string } p.nextChar.2
  else .next { st with buf := copiedBuf st p ++ [ch], token := .string } p

/-- The `match (ch, &token)` of the parse loop, after `ch` was read. -/
def pointerStep (posMarker : ℕ) (st : PointerScan) (ch : UInt8) (p : Parser) : PointerStep :=
  if isDigit ch ∧ (st.token = .unknown ∨ st.token = .number) then
    .next { st with num := pushDigit st.num ch, token := .number } p
  else if ch = 42 ∧ st.token = .unknown then .next { st with token := .wildcard } p
  else if ch = 48 ∧ st.token = .escaped then .next { st with buf := st.buf ++ [126], token := .string } p
  else if ch = 49 ∧ st.token = .escaped then .next { st with buf := st.buf ++ [47], token := .string } p
  else if ch = 47 ∨ ch = 34 then endToken posMarker st ch p
  else otherByte st ch p

theorem pointerStep_length {posMarker : ℕ} {st st' : PointerScan} {ch : UInt8} {p p' : Parser}
    (h : pointerStep posMarker st ch p = .next st' p') : p'.iter.length ≤ p.iter.length := by
  unfold pointerStep endToken otherByte at h
  split_ifs at h <;> (try split at h) <;> cases h <;> simp [Parser.nextChar]

set_option linter.unusedVariables false in
/-- The parse loop; `posMarker` is where `next_token` left `pos_marker`, at the start of
the string. -/
def pointerLoop (posMarker : ℕ) (st : PointerScan) (p : Parser) : Except JsonError (JSONPointer × Parser) :=
  match h : p.nextChar with
  | (none, q) => .error q.errorUnterminated
  | (some ch, q) =>
    match hs : pointerStep posMarker st ch q with
    | .next st' q' => pointerLoop posMarker st' q'
    | .done r => r
termination_by p.iter.length
decreasing_by exact Nat.lt_of_le_of_lt (pointerStep_length hs) (Parser.length_iter_nextChar h)

/-- `JsonObjectParser for JSONPointer`. -/
def pointerParse (p : Parser) : Except ValueError (JSONPointer × Parser) :=
  match pointerLoop p.pos ⟨[], 0, [], .unknown, p.pos⟩ p with
  | .ok r => .ok r
  | .error e => .error (.notJson e)

/-- `Parser::new(bytes).next_token::<JSONPointer>()` on a string. -/
def nextTokenPointer (bytes : List UInt8) : Option (Except ValueError JSONPointer) :=
  nextTokenValue pointerParse bytes

/-! ## Reference tokens and what the parser makes of them -/

/-- The UTF-8 bytes of a string. -/
def bytesOf (s : String) : List UInt8 := s.toByteArray.data.toList

/-- RFC 6901's escaping of a reference token: `~` as `~0` and `/` as `~1`. -/
def escapeBytes (u : List UInt8) : List UInt8 :=
  u.flatMap fun b => if b = 126 then [126, 48] else if b = 47 then [126, 49] else [b]

/-- The bytes of the pointer of the reference tokens `ts`. -/
def pointerBytes (ts : List String) : List UInt8 := ts.flatMap fun t => 47 :: escapeBytes (bytesOf t)

/-- The class the unescaped bytes `u` of a token leave the parser in. -/
def tokenClass (u : List UInt8) : TokenType :=
  if u = [] then .unknown else if u = [42] then .wildcard else if u.all isDigit then .number else .string

/-- `num` after the bytes `u` of a token, from `c`: the token's leading digits are added. -/
def numAfter (c : ℕ) (u : List UInt8) : ℕ := (u.takeWhile isDigit).foldl pushDigit c

/-- The locals after the unescaped bytes `u` of the token that starts at `startPos`. -/
def scanOf (path : List JSONPointer) (c startPos : ℕ) (u : List UInt8) : PointerScan :=
  ⟨path, numAfter c u, if tokenClass u = .string then u else [], tokenClass u, startPos⟩

/-- What the parser pushes for the token `t` when the tokens before it left `num = c`, and
the `num` it leaves. -/
def readToken (c : ℕ) (t : String) : JSONPointer × ℕ :=
  match tokenClass (bytesOf t) with
  | .unknown => (.string "", c)
  | .number => (.number (numAfter c (bytesOf t)), 0)
  | .wildcard => (.wildcard, c)
  | _ => (.string t, numAfter c (bytesOf t))

/-- What the parser pushes for the tokens `ts`. -/
def readTokens (c : ℕ) : List String → List JSONPointer
  | [] => []
  | t :: ts => (readToken c t).1 :: readTokens (readToken c t).2 ts

theorem fromUtf8_bytesOf (s : String) : fromUtf8 (bytesOf s) = some s := by
  have hbytes : (⟨(bytesOf s).toArray⟩ : ByteArray) = s.toByteArray := by
    simp [bytesOf]
  rw [fromUtf8, hbytes, String.fromUTF8?, dif_pos s.isValidUTF8]
  rfl

theorem escapeBytes_append (u v : List UInt8) : escapeBytes (u ++ v) = escapeBytes u ++ escapeBytes v :=
  List.flatMap_append

theorem escapeBytes_of_plain {u : List UInt8} (h : ∀ b ∈ u, b ≠ 126 ∧ b ≠ 47) : escapeBytes u = u := by
  induction u with
  | nil => rfl
  | cons b u ih =>
    obtain ⟨h126, h47⟩ := h b List.mem_cons_self
    rw [escapeBytes, List.flatMap_cons, if_neg h126, if_neg h47, ← escapeBytes,
      ih fun b' hb' => h b' (List.mem_cons_of_mem _ hb')]
    rfl

theorem eq_nil_of_tokenClass_unknown {u : List UInt8} (h : tokenClass u = .unknown) : u = [] := by
  unfold tokenClass at h
  split_ifs at h with h0
  exact h0

theorem tokenClass_ne_escaped (u : List UInt8) : tokenClass u ≠ .escaped := by
  unfold tokenClass
  split_ifs <;> simp

theorem escapeBytes_of_class {u : List UInt8} (h : tokenClass u = .number ∨ tokenClass u = .wildcard) :
    escapeBytes u = u ∧ u ≠ [] := by
  unfold tokenClass at h
  split_ifs at h with h0 h42 hall
  · simp at h
  · subst h42
    exact ⟨rfl, List.cons_ne_nil _ _⟩
  · refine ⟨escapeBytes_of_plain fun b hb => ?_, h0⟩
    have hd := List.all_eq_true.mp hall b hb
    constructor <;> rintro rfl <;> simp [isDigit] at hd
  · simp at h

theorem takeWhile_append_singleton (u : List UInt8) (b : UInt8) :
    (u ++ [b]).takeWhile isDigit = if u.all isDigit ∧ isDigit b then u ++ [b] else u.takeWhile isDigit := by
  induction u with
  | nil => by_cases hb : isDigit b <;> simp [hb]
  | cons a u ih =>
    by_cases ha : isDigit a
    · simp only [List.cons_append, List.takeWhile_cons, ha, ih, List.all_cons, Bool.true_and, if_true]
      split_ifs <;> rfl
    · simp [ha]

theorem scanOf_digit {path : List JSONPointer} {c s : ℕ} {u : List UInt8} {b : UInt8} (hb : isDigit b)
    (hu : tokenClass u = .unknown ∨ tokenClass u = .number) :
    { scanOf path c s u with num := pushDigit (scanOf path c s u).num b, token := .number } =
      scanOf path c s (u ++ [b]) := by
  have hall : u.all isDigit := by
    unfold tokenClass at hu
    split_ifs at hu with h0 h42 hall
    · simp [h0]
    · simp at hu
    · exact hall
    · simp at hu
  have hclass : tokenClass (u ++ [b]) = .number := by
    unfold tokenClass
    rw [if_neg (by simp), if_neg, if_pos (by simp [hall, hb])]
    intro h42
    cases u with
    | nil =>
      simp only [List.nil_append, List.cons.injEq, and_true] at h42
      simp [h42, isDigit] at hb
    | cons a u => simp at h42
  simp only [scanOf, numAfter, hclass, takeWhile_append_singleton, hall, hb, and_self, if_true,
    List.foldl_append, List.foldl_cons, List.foldl_nil, reduceCtorEq, if_false]
  have htake : u.takeWhile isDigit = u := List.takeWhile_eq_self_iff.mpr (List.all_eq_true.mp hall)
  rw [htake]
  cases hu with
  | inl h => simp [h]
  | inr h => simp [h]

theorem scanOf_other {path : List JSONPointer} {c s : ℕ} {u : List UInt8} {b : UInt8}
    (hdigit : ¬ (isDigit b ∧ (tokenClass u = .unknown ∨ tokenClass u = .number)))
    (hstar : ¬ (b = 42 ∧ tokenClass u = .unknown)) :
    { scanOf path c s u with buf := u ++ [b], token := .string } = scanOf path c s (u ++ [b]) := by
  have hnum : ¬ (u.all isDigit ∧ isDigit b) := by
    rintro ⟨hall, hb⟩
    apply hdigit ⟨hb, ?_⟩
    unfold tokenClass
    split_ifs with h0 h42
    · exact .inl rfl
    · subst h42
      simp [isDigit] at hall
    · exact .inr rfl
  have hclass : tokenClass (u ++ [b]) = .string := by
    unfold tokenClass
    rw [if_neg (by simp), if_neg, if_neg (by simpa using hnum)]
    intro h42
    cases u with
    | nil =>
      simp only [List.nil_append, List.cons.injEq, and_true] at h42
      exact hstar ⟨h42, by simp [tokenClass]⟩
    | cons a u => simp at h42
  simp only [scanOf, numAfter, hclass, takeWhile_append_singleton, if_neg hnum, if_true]

/-! ## Reading a token -/

/-- `p` has read the bytes `w` of the token that starts at `startPos`. -/
structure Scanned (p : Parser) (startPos : ℕ) (w : List UInt8) : Prop where
  drop_eq : p.bytes.drop startPos = w ++ p.iter
  pos_eq : p.pos = startPos + w.length

theorem Scanned.nextChar {p q : Parser} {s : ℕ} {w : List UInt8} {b : UInt8} (h : Scanned p s w)
    (hq : p.nextChar = (some b, q)) : Scanned q s (w ++ [b]) := by
  obtain ⟨hi, hread, -⟩ := Parser.nextChar_some hq
  constructor
  · rw [hread.bytes_eq, h.drop_eq, hi]
    simp
  · rw [hread.pos_eq, h.pos_eq]
    simp [Nat.add_assoc]

theorem getSlice_of_scanned {q : Parser} {s : ℕ} {w : List UInt8} {b : UInt8} (h : Scanned q s (w ++ [b])) :
    getSlice q.bytes s (q.pos - 1) = w := by
  have hpos : q.pos - 1 = s + w.length := by
    rw [h.pos_eq]
    simp
  have hlen := congrArg List.length h.drop_eq
  simp only [List.length_drop, List.length_append, List.length_cons, List.length_nil] at hlen
  rw [getSlice, hpos, if_pos ⟨by omega, by omega⟩, byteSlice, h.drop_eq]
  simp

theorem copiedBuf_scanOf {path : List JSONPointer} {c s : ℕ} {u : List UInt8} {b : UInt8} {q : Parser}
    (h : Scanned q s (escapeBytes u ++ [b])) : copiedBuf (scanOf path c s u) q = u := by
  by_cases hclass : tokenClass u = .number ∨ tokenClass u = .wildcard
  · obtain ⟨hesc, hne⟩ := escapeBytes_of_class hclass
    rw [hesc] at h
    have hlt : s < q.pos - 1 := by
      rw [h.pos_eq]
      simp only [List.length_append, List.length_cons, List.length_nil]
      have := List.length_pos_iff.mpr hne
      omega
    have hbuf : (scanOf path c s u).buf = [] := by
      rcases hclass with hc | hc <;> simp [scanOf, hc]
    have hstart : (scanOf path c s u).startPos = s := rfl
    rw [copiedBuf, if_pos ⟨hclass, hlt⟩, hbuf, hstart, getSlice_of_scanned h, List.nil_append]
  · rw [copiedBuf, if_neg (fun h' => hclass h'.1)]
    by_cases hs : tokenClass u = .string
    · simp [scanOf, hs]
    · have hu : tokenClass u = .unknown := by
        have := tokenClass_ne_escaped u
        cases h' : tokenClass u <;> simp_all
      simp [scanOf, eq_nil_of_tokenClass_unknown hu]

/-! ## One step of the loop -/

section Steps

variable {m : ℕ} {st : PointerScan} {ch : UInt8} {p : Parser}

theorem pointerStep_of_digit (h : isDigit ch ∧ (st.token = .unknown ∨ st.token = .number)) :
    pointerStep m st ch p = .next { st with num := pushDigit st.num ch, token := .number } p := by
  rw [pointerStep, if_pos h]

theorem pointerStep_star (h : st.token = .unknown) :
    pointerStep m st 42 p = .next { st with token := .wildcard } p := by
  rw [pointerStep, if_neg (by simp [isDigit]), if_pos ⟨rfl, h⟩]

theorem pointerStep_escapeZero (h : st.token = .escaped) :
    pointerStep m st 48 p = .next { st with buf := st.buf ++ [126], token := .string } p := by
  rw [pointerStep, if_neg (by simp [h]), if_neg (fun h' => absurd h'.1 (by decide)), if_pos ⟨rfl, h⟩]

theorem pointerStep_escapeOne (h : st.token = .escaped) :
    pointerStep m st 49 p = .next { st with buf := st.buf ++ [47], token := .string } p := by
  rw [pointerStep, if_neg (by simp [h]), if_neg (fun h' => absurd h'.1 (by decide)),
    if_neg (fun h' => absurd h'.1 (by decide)), if_pos ⟨rfl, h⟩]

theorem pointerStep_of_other (hdigit : ¬ (isDigit ch ∧ (st.token = .unknown ∨ st.token = .number)))
    (hstar : ¬ (ch = 42 ∧ st.token = .unknown)) (hesc : st.token ≠ .escaped) (hend : ¬ (ch = 47 ∨ ch = 34)) :
    pointerStep m st ch p = otherByte st ch p := by
  rw [pointerStep, if_neg hdigit, if_neg hstar, if_neg (fun h => hesc h.2), if_neg (fun h => hesc h.2),
    if_neg hend]

theorem otherByte_tilde (hesc : st.token ≠ .escaped) :
    otherByte st 126 p = .next { st with buf := copiedBuf st p, token := .escaped } p := by
  rw [otherByte, if_pos ⟨rfl, hesc⟩]

theorem otherByte_plain (h126 : ch ≠ 126) (h92 : ch ≠ 92) :
    otherByte st ch p = .next { st with buf := copiedBuf st p ++ [ch], token := .string } p := by
  rw [otherByte, if_neg (fun h => h126 h.1), if_neg h92]

theorem pointerStep_of_end (hend : ch = 47 ∨ ch = 34) (hesc : st.token ≠ .escaped) :
    pointerStep m st ch p = endToken m st ch p := by
  have hdigit : ¬ (isDigit ch ∧ (st.token = .unknown ∨ st.token = .number)) := by
    rintro ⟨hd, -⟩
    rcases hend with rfl | rfl <;> simp [isDigit] at hd
  have hstar : ¬ (ch = 42 ∧ st.token = .unknown) := by
    rintro ⟨rfl, -⟩
    simp at hend
  rw [pointerStep, if_neg hdigit, if_neg hstar, if_neg (fun h => hesc h.2), if_neg (fun h => hesc h.2),
    if_pos hend]

theorem pointerLoop_next {st2 : PointerScan} {q q2 : Parser} (h : p.nextChar = (some ch, q))
    (hs : pointerStep m st ch q = .next st2 q2) : pointerLoop m st p = pointerLoop m st2 q2 := by
  rw [pointerLoop]
  split
  · rename_i heq
    rw [h] at heq
    cases heq
  · rename_i ch1 q1 heq
    rw [h] at heq
    cases heq
    split
    · rename_i st3 q3 hs3
      rw [hs] at hs3
      cases hs3
      rfl
    · rename_i r hs3
      rw [hs] at hs3
      cases hs3

theorem pointerLoop_done {q : Parser} {r : Except JsonError (JSONPointer × Parser)}
    (h : p.nextChar = (some ch, q)) (hs : pointerStep m st ch q = .done r) : pointerLoop m st p = r := by
  rw [pointerLoop]
  split
  · rename_i heq
    rw [h] at heq
    cases heq
  · rename_i ch1 q1 heq
    rw [h] at heq
    cases heq
    split
    · rename_i st3 q3 hs3
      rw [hs] at hs3
      cases hs3
    · rename_i r3 hs3
      rw [hs] at hs3
      cases hs3
      rfl

end Steps

theorem Scanned.advance {p : Parser} {s : ℕ} {w x rest : List UInt8} (h : Scanned p s w)
    (hp : p.iter = x ++ rest) : Scanned { p with iter := rest, pos := p.pos + x.length } s (w ++ x) :=
  ⟨by simp [h.drop_eq, hp], by simp [h.pos_eq, Nat.add_assoc]⟩

section Token

variable (m : ℕ) (path : List JSONPointer) (c s : ℕ)

/-- An escape `~0` or `~1` in a token: the `~` switches to `Escaped`, the digit after it
appends the unescaped byte. -/
theorem pointerLoop_escape {u : List UInt8} {b e : UInt8} (hb : b = 126 ∧ e = 48 ∨ b = 47 ∧ e = 49)
    {p : Parser} {more : List UInt8} (hp : p.iter = 126 :: e :: more) (hscan : Scanned p s (escapeBytes u)) :
    pointerLoop m (scanOf path c s u) p =
      pointerLoop m (scanOf path c s (u ++ [b])) { p with iter := more, pos := p.pos + 2 } := by
  have hesc : (scanOf path c s u).token ≠ .escaped := tokenClass_ne_escaped u
  have hn1 := Parser.nextChar_cons hp
  have hscan1 := hscan.nextChar hn1
  have hs1 : pointerStep m (scanOf path c s u) 126 { p with iter := e :: more, pos := p.pos + 1 } =
      .next { scanOf path c s u with buf := u, token := .escaped } { p with iter := e :: more, pos := p.pos + 1 } := by
    rw [pointerStep_of_other (by simp [isDigit]) (by simp) hesc (by decide), otherByte_tilde hesc,
      copiedBuf_scanOf hscan1]
  have hn2 : Parser.nextChar { p with iter := e :: more, pos := p.pos + 1 } =
      (some e, { p with iter := more, pos := p.pos + 2 }) := Parser.nextChar_cons rfl
  have hs2 : pointerStep m { scanOf path c s u with buf := u, token := .escaped } e
      { p with iter := more, pos := p.pos + 2 } =
      .next (scanOf path c s (u ++ [b])) { p with iter := more, pos := p.pos + 2 } := by
    rcases hb with ⟨rfl, rfl⟩ | ⟨rfl, rfl⟩
    · rw [pointerStep_escapeZero rfl]
      exact congrArg₂ _ (scanOf_other (by simp [isDigit]) (by simp)) rfl
    · rw [pointerStep_escapeOne rfl]
      exact congrArg₂ _ (scanOf_other (by simp [isDigit]) (by simp)) rfl
  rw [pointerLoop_next hn1 hs1, pointerLoop_next hn2 hs2]

theorem pointerLoop_plain {u : List UInt8} {b : UInt8} (hb : b ∉ [34, 92, 126, 47]) {p : Parser}
    {more : List UInt8} (hp : p.iter = b :: more) (hscan : Scanned p s (escapeBytes u)) :
    pointerLoop m (scanOf path c s u) p =
      pointerLoop m (scanOf path c s (u ++ [b])) { p with iter := more, pos := p.pos + 1 } := by
  simp only [List.mem_cons, List.not_mem_nil, or_false, not_or] at hb
  obtain ⟨h34, h92, h126, h47⟩ := hb
  have hesc : (scanOf path c s u).token ≠ .escaped := tokenClass_ne_escaped u
  have hn := Parser.nextChar_cons hp
  apply pointerLoop_next hn
  by_cases hdigit : isDigit b ∧ (tokenClass u = .unknown ∨ tokenClass u = .number)
  · rw [pointerStep_of_digit hdigit]
    exact congrArg₂ _ (scanOf_digit hdigit.1 hdigit.2) rfl
  by_cases hstar : b = 42 ∧ tokenClass u = .unknown
  · obtain ⟨rfl, hu⟩ := hstar
    obtain rfl := eq_nil_of_tokenClass_unknown hu
    rw [pointerStep_star hu]
    rfl
  · rw [pointerStep_of_other hdigit hstar hesc (by simp [h47, h34]), otherByte_plain h126 h92,
      copiedBuf_scanOf (hscan.nextChar hn)]
    exact congrArg₂ _ (scanOf_other hdigit hstar) rfl

theorem pointerLoop_escaped (v : List UInt8) (hv : ∀ b ∈ v, b ≠ 34 ∧ b ≠ 92) :
    ∀ (u : List UInt8) (p : Parser) (more : List UInt8), p.iter = escapeBytes v ++ more →
      Scanned p s (escapeBytes u) →
      pointerLoop m (scanOf path c s u) p =
        pointerLoop m (scanOf path c s (u ++ v)) { p with iter := more, pos := p.pos + (escapeBytes v).length } := by
  induction v with
  | nil =>
    intro u p more hp _
    simp only [escapeBytes, List.flatMap_nil, List.nil_append] at hp
    subst hp
    simp [escapeBytes]
  | cons b v ih =>
    intro u p more hp hscan
    obtain ⟨h34, h92⟩ := hv b List.mem_cons_self
    have hrest := ih fun b' hb' => hv b' (List.mem_cons_of_mem _ hb')
    have hsplit : escapeBytes (b :: v) = escapeBytes [b] ++ escapeBytes v := escapeBytes_append [b] v
    have hstep : ∃ p1 : Parser, pointerLoop m (scanOf path c s u) p = pointerLoop m (scanOf path c s (u ++ [b])) p1 ∧
        p1 = { p with iter := escapeBytes v ++ more, pos := p.pos + (escapeBytes [b]).length } := by
      by_cases h126 : b = 126
      · subst h126
        exact ⟨_, pointerLoop_escape m path c s (.inl ⟨rfl, rfl⟩) hp hscan, rfl⟩
      by_cases h47 : b = 47
      · subst h47
        exact ⟨_, pointerLoop_escape m path c s (.inr ⟨rfl, rfl⟩) hp hscan, rfl⟩
      have hplain : escapeBytes [b] = [b] := escapeBytes_of_plain (by simp [h126, h47])
      have hp1 : p.iter = b :: (escapeBytes v ++ more) := by
        rw [hp, hsplit, hplain]
        rfl
      refine ⟨_, pointerLoop_plain m path c s (by simp [h34, h92, h126, h47]) hp1 hscan, ?_⟩
      rw [hplain]
      rfl
    obtain ⟨p1, hloop, rfl⟩ := hstep
    rw [hsplit, List.append_assoc] at hp
    have hscan1 : Scanned { p with iter := escapeBytes v ++ more, pos := p.pos + (escapeBytes [b]).length } s
        (escapeBytes (u ++ [b])) := by
      rw [escapeBytes_append]
      exact hscan.advance hp
    rw [hloop, hrest (u ++ [b]) _ more rfl hscan1, List.append_assoc, hsplit, List.length_append,
      Nat.add_assoc]
    rfl

end Token

/-! ## Reading a pointer -/

theorem Scanned.start {p : Parser} (h : p.bytes.drop p.pos = p.iter) : Scanned p p.pos [] :=
  ⟨h, by simp⟩

theorem Scanned.drop_pos {p : Parser} {s : ℕ} {w : List UInt8} (h : Scanned p s w) :
    p.bytes.drop p.pos = p.iter := by
  rw [h.pos_eq, ← List.drop_drop, h.drop_eq, List.drop_left]

section Push

variable (m : ℕ) (path : List JSONPointer) (c s : ℕ)

/-- At a `/` or at the closing quote, the token read so far is pushed as `readToken` says,
and `num` is left as `readToken` says. -/
theorem pushToken_scanOf (t : String) (hm : m ≠ s) (q : Parser) :
    pushToken m (scanOf path c s (bytesOf t)) q =
      .ok ⟨path ++ [(readToken c t).1], (readToken c t).2, [], tokenClass (bytesOf t), s⟩ := by
  have hesc := tokenClass_ne_escaped (bytesOf t)
  unfold pushToken readToken
  cases hc : tokenClass (bytesOf t) with
  | unknown => simp [scanOf, eq_nil_of_tokenClass_unknown hc, numAfter, tokenClass, hm]
  | number => simp [scanOf, hc]
  | string => simp [scanOf, hc, fromUtf8_bytesOf]
  | wildcard =>
    have h42 : bytesOf t = [42] := by
      unfold tokenClass at hc
      split_ifs at hc with h0 h42
      exact h42
    simp [scanOf, numAfter, h42, isDigit, tokenClass]
  | escaped => exact absurd hc hesc

theorem pointerLoop_slash (t : String) (hm : m ≠ s) {p : Parser} {more : List UInt8}
    (hp : p.iter = 47 :: more) :
    pointerLoop m (scanOf path c s (bytesOf t)) p =
      pointerLoop m (scanOf (path ++ [(readToken c t).1]) (readToken c t).2 (p.pos + 1) [])
        { p with iter := more, pos := p.pos + 1 } := by
  apply pointerLoop_next (Parser.nextChar_cons hp)
  rw [pointerStep_of_end (.inl rfl) (tokenClass_ne_escaped _), endToken, pushToken_scanOf m path c s t hm]
  rfl

theorem pointerLoop_quote (t : String) (hm : m ≠ s) {p : Parser} {more : List UInt8}
    (hp : p.iter = 34 :: more) :
    pointerLoop m (scanOf path c s (bytesOf t)) p =
      .ok (JSONPointer.ofPath (path ++ [(readToken c t).1]),
        { p with iter := more, pos := p.pos + 1, isEof := true }) := by
  apply pointerLoop_done (Parser.nextChar_cons hp)
  rw [pointerStep_of_end (.inr rfl) (tokenClass_ne_escaped _), endToken, pushToken_scanOf m path c s t hm]
  rfl

end Push

/-- The tokens of a pointer after its first `/`, read up to the closing quote: the path
gets `readTokens`, threading the `num` each token leaves to the next. -/
theorem pointerLoop_tokens (m : ℕ) (after : List UInt8) (ts : List String) :
    ∀ (t : String) (path : List JSONPointer) (c : ℕ) (p : Parser),
      (∀ t' ∈ t :: ts, ∀ b ∈ bytesOf t', b ≠ 34 ∧ b ≠ 92) →
      p.iter = escapeBytes (bytesOf t) ++ pointerBytes ts ++ 34 :: after →
      p.bytes.drop p.pos = p.iter → m < p.pos →
      ∃ q : Parser, pointerLoop m (scanOf path c p.pos []) p =
        .ok (JSONPointer.ofPath (path ++ readTokens c (t :: ts)), q) ∧ q.isEof = true := by
  induction ts with
  | nil =>
    intro t path c p hvalid hp hdrop hm
    have hp' : p.iter = escapeBytes (bytesOf t) ++ 34 :: after := by simpa [pointerBytes] using hp
    refine ⟨{ p with iter := after, pos := p.pos + (escapeBytes (bytesOf t)).length + 1, isEof := true }, ?_, rfl⟩
    rw [pointerLoop_escaped m path c p.pos (bytesOf t) (hvalid t List.mem_cons_self) [] p _ hp'
      (Scanned.start hdrop), List.nil_append, pointerLoop_quote m path c p.pos t (by omega) rfl]
    rfl
  | cons t' ts ih =>
    intro t path c p hvalid hp hdrop hm
    have hp' : p.iter = escapeBytes (bytesOf t) ++ 47 :: (escapeBytes (bytesOf t') ++ pointerBytes ts ++ 34 :: after) := by
      simpa [pointerBytes] using hp
    have hscan := (Scanned.start hdrop).advance hp'
    obtain ⟨q, hq, heof⟩ := ih t' (path ++ [(readToken c t).1]) (readToken c t).2
      { p with iter := escapeBytes (bytesOf t') ++ pointerBytes ts ++ 34 :: after,
               pos := p.pos + (escapeBytes (bytesOf t)).length + 1 }
      (fun t'' ht'' => hvalid t'' (List.mem_cons_of_mem _ ht'')) rfl
      (by simpa [Nat.add_assoc] using (hscan.advance (x := [47]) rfl).drop_pos)
      (show m < p.pos + _ + 1 by omega)
    refine ⟨q, ?_, heof⟩
    rw [pointerLoop_escaped m path c p.pos (bytesOf t) (hvalid t List.mem_cons_self) [] p _ hp'
      (Scanned.start hdrop), List.nil_append, pointerLoop_slash m path c p.pos t (by omega) rfl, hq,
      List.append_assoc]
    rfl

/-- The first `/` of a pointer comes where `next_token` left `pos_marker`, so it pushes
nothing. -/
theorem pointerLoop_first (rest : List UInt8) :
    pointerLoop 1 ⟨[], 0, [], .unknown, 1⟩ { Parser.new (34 :: 47 :: rest) with iter := 47 :: rest, pos := 1 } =
      pointerLoop 1 (scanOf [] 0 2 []) { Parser.new (34 :: 47 :: rest) with iter := rest, pos := 2 } := by
  apply pointerLoop_next (Parser.nextChar_cons rfl)
  rw [pointerStep_of_end (.inl rfl) (by decide), endToken]
  rfl

/-- `JsonObjectParser for JSONPointer` on the quoted pointer of any non-empty list of
reference tokens without `"` or `\`: the tokens are read as `readTokens` says. -/
theorem nextTokenPointer_tokens (t : String) (ts : List String)
    (hvalid : ∀ t' ∈ t :: ts, ∀ b ∈ bytesOf t', b ≠ 34 ∧ b ≠ 92) :
    nextTokenPointer (34 :: pointerBytes (t :: ts) ++ [34]) =
      some (.ok (JSONPointer.ofPath (readTokens 0 (t :: ts)))) := by
  have hbytes : 34 :: pointerBytes (t :: ts) ++ [34] =
      34 :: 47 :: (escapeBytes (bytesOf t) ++ pointerBytes ts ++ [34]) := by
    simp [pointerBytes]
  obtain ⟨q, hq, heof⟩ := pointerLoop_tokens 1 [] ts t [] 0
    { Parser.new (34 :: 47 :: (escapeBytes (bytesOf t) ++ pointerBytes ts ++ [34])) with
      iter := escapeBytes (bytesOf t) ++ pointerBytes ts ++ [34], pos := 2 }
    hvalid rfl rfl (show 1 < 2 by decide)
  rw [hbytes, nextTokenPointer]
  refine nextTokenValue_of_parse ?_ heof
  unfold pointerParse
  dsimp only
  rw [pointerLoop_first, hq, List.nil_append]

theorem bytes_of_number {t : String} (h : tokenClass (bytesOf t) = .number) :
    ∀ b ∈ bytesOf t, b ≠ 34 ∧ b ≠ 92 := by
  intro b hb
  unfold tokenClass at h
  split_ifs at h with h0 h42 hall
  have hd := List.all_eq_true.mp hall b hb
  constructor <;> rintro rfl <;> simp [isDigit] at hd

/-- A token that starts with digits and goes on as a string leaves its digits in `num`,
and the number token after it is read after them. -/
theorem nextTokenPointer_carries_digits (t1 t2 : String) (h1 : tokenClass (bytesOf t1) = .string)
    (h2 : tokenClass (bytesOf t2) = .number) (hvalid : ∀ b ∈ bytesOf t1, b ≠ 34 ∧ b ≠ 92) :
    nextTokenPointer (34 :: pointerBytes [t1, t2] ++ [34]) =
      some (.ok (.path [.string t1, .number (numAfter (numAfter 0 (bytesOf t1)) (bytesOf t2))])) := by
  have hvalid' : ∀ t ∈ [t1, t2], ∀ b ∈ bytesOf t, b ≠ 34 ∧ b ≠ 92 := by
    simp only [List.mem_cons, List.not_mem_nil, or_false]
    rintro t (rfl | rfl)
    · exact hvalid
    · exact bytes_of_number h2
  rw [nextTokenPointer_tokens t1 [t2] hvalid']
  simp [readTokens, readToken, h1, h2, JSONPointer.ofPath]

/-- `/1a/5` is read as the string `1a` and the number 15. -/
theorem nextTokenPointer_carries_digits_oneA :
    nextTokenPointer (34 :: pointerBytes ["1a", "5"] ++ [34]) =
      some (.ok (.path [.string "1a", .number 15])) := by
  have hbytes : bytesOf "1a" = [49, 97] := by decide
  have h := nextTokenPointer_carries_digits "1a" "5" (by decide) (by decide) (by simp [hbytes])
  have h15 : numAfter (numAfter 0 (bytesOf "1a")) (bytesOf "5") = 15 := by decide
  rw [h15] at h
  exact h

end MailServer.JmapProto.Pointer
