import MailServer.Lib.Glob

/-! # Glob patterns (`utils::glob`)

`GlobPattern::compile` turns a pattern text into a list of `PatternChar`s: a run of
unescaped `*` becomes one `WildcardMany`, an unescaped `?` a `WildcardSingle`, a
backslash makes the next character literal, and every other character stands for itself,
lower-cased when the pattern is compiled for `to_lower`. `GlobPattern::matches` is the star
algorithm with a single backtrack point: four cursors, the positions in the pattern and in
the value and the pair to resume from after the most recent star.

The loop decides the language of `Lib.Glob` for every list of `PatternChar`s
(`matches_eq_accepts`). Before each pass it keeps `LoopInv`, under which the answer is
that of the current cursor or of the restart point; each pass lowers `Cursor.measure`, so
the loop ends before `passBound`. `compile` gives a pattern with the language of the
text's own reading `globToks` (`sameLang_compile`): escaped characters are lower-cased with
the others.
-/

namespace MailServer.Utils.Glob

open MailServer.Lib.Glob

/-- The Unicode case functions of Rust's standard library that `GlobPattern` calls:
`char::is_uppercase`, `char::to_lowercase` (which may give several characters) and
`str::to_lowercase` (which lowers a final sigma by its context). The model takes them as
parameters. -/
structure CaseMap where
  isUppercase : Char → Bool
  toLowercase : Char → List Char
  strToLowercase : String → String

/-- The case maps on ASCII text, where Rust's agree with `Char.toLower`. -/
def CaseMap.ascii : CaseMap where
  isUppercase := Char.isUpper
  toLowercase c := [c.toLower]
  strToLowercase := String.map Char.toLower

/-- `PatternChar`, without the `match_pos` fields: `compile` sets them to 0 and `matches`
never reads them. -/
inductive PatternChar where
  | wildcardMany (num : ℕ)
  | wildcardSingle
  | char (c : Char)
  deriving DecidableEq, Repr

/-- The token a pattern character stands for. -/
def PatternChar.tok : PatternChar → Tok Char
  | .wildcardMany _ => .star
  | .wildcardSingle => .any
  | .char c => .lit c

/-- The tokens of a compiled pattern. -/
def tokens (pattern : List PatternChar) : List (Tok Char) := pattern.map PatternChar.tok

structure GlobPattern where
  pattern : List PatternChar
  toLower : Bool
  deriving DecidableEq, Repr

/-! ## `compile` -/

section Compile

variable (cm : CaseMap) (toLower : Bool)

/-- The `while let Some('*') = str.peek()` loop after a `*`: `num`, one more for each
further star, and the characters after the run. -/
def starRun : ℕ → List Char → ℕ × List Char
  | num, '*' :: rest => starRun (num + 1) rest
  | num, rest => (num, rest)

theorem length_starRun_le (num : ℕ) (chars : List Char) :
    (starRun num chars).2.length ≤ chars.length := by
  fun_induction starRun num chars with
  | case1 num rest ih => simp only [List.length_cons]; omega
  | case2 num rest => exact Nat.le_refl _

/-- The `_` arm: the character, or the characters of its lower case when the pattern is
compiled for `to_lower` and the character is upper case. -/
def literalChars (c : Char) : List PatternChar :=
  if toLower && cm.isUppercase c then (cm.toLowercase c).map .char else [.char c]

/-- The loop of `compile` over the characters left, with `is_escaped`. -/
def compileChars : List Char → Bool → List PatternChar
  | [], _ => []
  | '*' :: rest, false =>
    .wildcardMany (starRun 1 rest).1 :: compileChars (starRun 1 rest).2 false
  | '?' :: rest, false => .wildcardSingle :: compileChars rest false
  | '\\' :: rest, false => compileChars rest true
  | c :: rest, _ => literalChars cm toLower c ++ compileChars rest false
termination_by chars => chars.length
decreasing_by
  all_goals simp only [List.length_cons]
  · have := length_starRun_le 1 rest
    omega
  all_goals omega

/-- `GlobPattern::compile`. -/
def GlobPattern.compile (pattern : String) : GlobPattern :=
  { pattern := compileChars cm toLower pattern.toList false, toLower := toLower }

end Compile

/-! ## `matches` -/

/-- The cursors of `GlobPattern::matches`: `px` and `nx` in the pattern and the value, and
`next_px`, `next_nx`, where to resume after the most recent star (none yet while `next_nx`
is 0). -/
structure Cursor where
  px : ℕ
  nx : ℕ
  nextPx : ℕ
  nextNx : ℕ
  deriving DecidableEq, Repr

section Matches

variable (pattern : List PatternChar) (value : List Char)

/-- The `match self.pattern.get(px)` of the loop body: the cursor of the next pass where an
arm `continue`s, `none` where it falls through. -/
def advance (c : Cursor) : Option Cursor :=
  match pattern[c.px]? with
  | some (.char ch) =>
    if value[c.nx]? = some ch then some { c with px := c.px + 1, nx := c.nx + 1 } else none
  | some .wildcardSingle =>
    if c.nx < value.length then some { c with px := c.px + 1, nx := c.nx + 1 } else none
  | some (.wildcardMany _) =>
    some { c with nextPx := c.px, nextNx := c.nx + 1, px := c.px + 1 }
  | none => none

/-- After a fall-through: resume after the most recent star, or `return false`. -/
def restart (c : Cursor) : Option Cursor :=
  if 0 < c.nextNx ∧ c.nextNx ≤ value.length then some { c with px := c.nextPx, nx := c.nextNx }
  else none

/-- One pass of the loop body: the cursor of the next pass, or `none` for `return false`. -/
def matchStep (c : Cursor) : Option Cursor :=
  match advance pattern value c with
  | some c' => some c'
  | none => restart value c

/-- The `while` loop, for at most `fuel` passes. -/
def matchLoop : ℕ → Cursor → Bool
  | 0, _ => false
  | fuel + 1, c =>
    if c.px < pattern.length ∨ c.nx < value.length then
      match matchStep pattern value c with
      | some c' => matchLoop fuel c'
      | none => false
    else true

end Matches

/-- More passes than the loop makes on a pattern and a value of these lengths: one more
than `Cursor.measure` at the start (`matchLoop_eq_accepts`). -/
def passBound (patternLen valueLen : ℕ) : ℕ :=
  (valueLen + 3) * (patternLen + 2) + patternLen + 1

/-- The value as `matches` reads it: lower-cased by `str::to_lowercase` for `to_lower`. -/
def caseValue (cm : CaseMap) (toLower : Bool) (value : String) : List Char :=
  if toLower then (cm.strToLowercase value).toList else value.toList

/-- `GlobPattern::matches`. -/
def GlobPattern.matches (cm : CaseMap) (g : GlobPattern) (value : String) : Bool :=
  let value := caseValue cm g.toLower value
  matchLoop g.pattern value (passBound g.pattern.length value.length) ⟨0, 0, 0, 0⟩

/-! ## The loop decides the language -/

section Lists

variable {α : Type} {l : List α} {i j : ℕ} {a : α}

theorem drop_eq_cons (h : l[i]? = some a) : l.drop i = a :: l.drop (i + 1) := by
  rw [List.drop_eq_getElem?_toList_append, h]
  rfl

theorem length_extract (hj : j ≤ l.length) : (l.extract i j).length = j - i := by
  simp only [List.extract_eq_take_drop, List.length_take, List.length_drop]
  omega

theorem extract_succ (hij : i ≤ j) (h : l[j]? = some a) :
    l.extract i (j + 1) = l.extract i j ++ [a] := by
  rw [List.extract_eq_take_drop, List.extract_eq_take_drop, show j + 1 - i = j - i + 1 by omega,
    List.take_add_one, List.getElem?_drop, show i + (j - i) = j by omega, h]
  rfl

theorem drop_eq_extract_append (hij : i ≤ j) : l.drop i = l.extract i j ++ l.drop j := by
  have h := List.take_append_drop (j - i) (l.drop i)
  rw [List.drop_drop, show i + (j - i) = j by omega] at h
  rw [List.extract_eq_take_drop, h]

end Lists

section Loop

variable {pattern : List PatternChar} {value : List Char} {c c' : Cursor}

theorem tokens_append (p q : List PatternChar) : tokens (p ++ q) = tokens p ++ tokens q :=
  List.map_append

@[simp] theorem length_tokens : (tokens pattern).length = pattern.length := List.length_map _

theorem getElem?_tokens {i : ℕ} : (tokens pattern)[i]? = pattern[i]?.map PatternChar.tok :=
  List.getElem?_map

/-- The answer from a cursor: from where it stands, or else from its restart point. -/
def Resumes (pattern : List PatternChar) (value : List Char) (c : Cursor) : Prop :=
  accepts ((tokens pattern).drop c.px) (value.drop c.nx) = true ∨
    (0 < c.nextNx ∧ c.nextNx ≤ value.length ∧
      accepts ((tokens pattern).drop c.nextPx) (value.drop c.nextNx) = true)

/-- Since the star at `next_px` the pattern has had no star, and it has matched the value
letter for letter from `next_nx - 1` on. -/
def Segment (pattern : List PatternChar) (value : List Char) (c : Cursor) : Prop :=
  c.nextPx < c.px ∧ c.nextNx - 1 + (c.px - (c.nextPx + 1)) = c.nx ∧
    StarFree ((tokens pattern).extract (c.nextPx + 1) c.px) ∧
    accepts ((tokens pattern).extract (c.nextPx + 1) c.px)
      (value.extract (c.nextNx - 1) c.nx) = true

/-- What holds before every pass of the loop. -/
structure LoopInv (pattern : List PatternChar) (value : List Char) (c : Cursor) : Prop where
  px_le : c.px ≤ pattern.length
  nx_le : c.nx ≤ value.length
  accepts_iff : accepts (tokens pattern) value = true ↔ Resumes pattern value c
  /-- After a star, the restart point is that star: the loop has just resumed there, or has
  gone on from it through a segment without stars. -/
  star : 0 < c.nextNx → (tokens pattern)[c.nextPx]? = some .star ∧
    (c.px = c.nextPx ∧ c.nx = c.nextNx ∨ Segment pattern value c)

/-- How far the restart point has come: `next_nx`, one more when the loop has just resumed
at the star, since its next pass moves `next_nx` on. -/
def Cursor.resumePos (c : Cursor) : ℕ :=
  c.nextNx + if c.px = c.nextPx ∧ 0 < c.nextNx then 1 else 0

/-- Lowered by every pass: the restart point moves on, or else `px` does. -/
def Cursor.measure (patternLen valueLen : ℕ) (c : Cursor) : ℕ :=
  (valueLen + 3 - c.resumePos) * (patternLen + 2) + (patternLen - c.px)

theorem Cursor.resumePos_of_lt (h : 0 < c.nextNx → c.nextPx < c.px) : c.resumePos = c.nextNx := by
  unfold Cursor.resumePos
  rw [if_neg (fun hc => absurd (h hc.2) (by omega)), Nat.add_zero]

theorem Cursor.measure_lt_of_px {n m : ℕ} (h : c'.resumePos = c.resumePos) (hpx : c.px < c'.px)
    (hle : c'.px ≤ n) : c'.measure n m < c.measure n m := by
  unfold Cursor.measure
  rw [h]
  omega

theorem Cursor.measure_lt_of_resumePos {n m : ℕ} (h : c.resumePos < c'.resumePos)
    (hle : c'.resumePos ≤ m + 2) : c'.measure n m < c.measure n m := by
  unfold Cursor.measure
  have hlt : m + 3 - c'.resumePos + 1 ≤ m + 3 - c.resumePos := by omega
  calc (m + 3 - c'.resumePos) * (n + 2) + (n - c'.px)
      < (m + 3 - c'.resumePos + 1) * (n + 2) := by rw [Nat.succ_mul]; omega
    _ ≤ (m + 3 - c.resumePos) * (n + 2) := Nat.mul_le_mul_right _ hlt
    _ ≤ _ := Nat.le_add_right _ _

theorem advance_eq_some (h : advance pattern value c = some c') :
    (∃ t b, (tokens pattern)[c.px]? = some t ∧ t ≠ .star ∧ value[c.nx]? = some b ∧
        accepts [t] [b] = true ∧ c' = { c with px := c.px + 1, nx := c.nx + 1 }) ∨
      ((tokens pattern)[c.px]? = some .star ∧
        c' = { c with nextPx := c.px, nextNx := c.nx + 1, px := c.px + 1 }) := by
  unfold advance at h
  rw [getElem?_tokens]
  cases hp : pattern[c.px]? with
  | none => simp [hp] at h
  | some pc =>
    cases pc with
    | char ch =>
      simp only [hp] at h
      split_ifs at h with hv
      cases h
      exact .inl ⟨.lit ch, ch, rfl, by simp, hv, by simp, rfl⟩
    | wildcardSingle =>
      simp only [hp] at h
      split_ifs at h with hv
      cases h
      exact .inl ⟨.any, value[c.nx], rfl, by simp, List.getElem?_eq_getElem hv, by simp, rfl⟩
    | wildcardMany n =>
      simp only [hp, Option.some.injEq] at h
      subst h
      exact .inr ⟨rfl, rfl⟩

theorem accepts_drop_of_advance_eq_none (hcond : c.px < pattern.length ∨ c.nx < value.length)
    (h : advance pattern value c = none) :
    accepts ((tokens pattern).drop c.px) (value.drop c.nx) = false := by
  unfold advance at h
  cases hp : pattern[c.px]? with
  | none =>
    have hpx : pattern.length ≤ c.px := List.getElem?_eq_none_iff.mp hp
    rw [List.drop_eq_nil_of_le (by simpa using hpx),
      drop_eq_cons (List.getElem?_eq_getElem (by omega : c.nx < value.length))]
    rfl
  | some pc =>
    have ht : (tokens pattern)[c.px]? = some pc.tok := by rw [getElem?_tokens, hp]; rfl
    rw [drop_eq_cons ht]
    cases pc with
    | char ch =>
      simp only [hp] at h
      split_ifs at h with hv
      cases hn : value[c.nx]? with
      | none =>
        have hnil : value.drop c.nx = [] := List.drop_eq_nil_of_le (List.getElem?_eq_none_iff.mp hn)
        rw [hnil]
        rfl
      | some b =>
        have hb : ch ≠ b := fun e => hv (e ▸ hn)
        rw [drop_eq_cons hn]
        simp [PatternChar.tok, hb]
    | wildcardSingle =>
      simp only [hp] at h
      split_ifs at h with hv
      have hnil : value.drop c.nx = [] := List.drop_eq_nil_of_le (by omega)
      rw [hnil]
      rfl
    | wildcardMany n => simp [hp] at h

theorem advance_ne_none_of_star (h : (tokens pattern)[c.px]? = some .star) :
    advance pattern value c ≠ none := by
  rw [getElem?_tokens, Option.map_eq_some_iff] at h
  obtain ⟨pc, hp, ht⟩ := h
  cases pc with
  | wildcardMany n => simp [advance, hp]
  | wildcardSingle => cases ht
  | char ch => cases ht

namespace LoopInv

theorem start : LoopInv pattern value ⟨0, 0, 0, 0⟩ where
  px_le := Nat.zero_le _
  nx_le := Nat.zero_le _
  accepts_iff := by simp [Resumes]
  star := fun h => absurd h (Nat.lt_irrefl 0)

theorem segment_of_ne_star (hi : LoopInv pattern value c) (hpos : 0 < c.nextNx)
    (ht : (tokens pattern)[c.px]? ≠ some .star) : Segment pattern value c := by
  obtain ⟨hstar, hat | hseg⟩ := hi.star hpos
  · exact absurd (hat.1 ▸ hstar) ht
  · exact hseg

theorem resumePos_le (hi : LoopInv pattern value c) : c.resumePos ≤ c.nx + 1 := by
  unfold Cursor.resumePos
  by_cases hpos : 0 < c.nextNx
  · obtain ⟨-, hat | hseg⟩ := hi.star hpos
    · rw [if_pos ⟨hat.1, hpos⟩]
      omega
    · have := hseg.1
      have := hseg.2.1
      rw [if_neg (fun h => by omega)]
      omega
  · rw [if_neg (fun h => hpos h.2)]
    omega

/-- At a star, the restart point adds nothing to the answer from the cursor: whatever the
earlier star accepts, this one does. -/
theorem resumes_iff_of_star (hi : LoopInv pattern value c)
    (ht : (tokens pattern)[c.px]? = some .star) :
    Resumes pattern value c ↔ accepts ((tokens pattern).drop c.px) (value.drop c.nx) = true := by
  refine ⟨?_, .inl⟩
  rintro (h | ⟨hpos, -, h⟩)
  · exact h
  obtain ⟨hstar, ⟨hp, hn⟩ | ⟨hlt, heq, hfree, -⟩⟩ := hi.star hpos
  · rwa [hp, hn]
  · -- from the earlier star: that star, the segment, and this star
    rw [drop_eq_cons hstar, drop_eq_extract_append (by omega : c.nextPx + 1 ≤ c.px),
      drop_eq_cons ht] at h
    rw [drop_eq_cons ht]
    have hlen := length_extract (l := tokens pattern) (i := c.nextPx + 1)
      (by simpa using hi.px_le)
    exact accepts_star_of_segment hfree h (by omega)

theorem advance_letter (hi : LoopInv pattern value c) {t : Tok Char} {b : Char}
    (ht : (tokens pattern)[c.px]? = some t) (hstar : t ≠ .star) (hb : value[c.nx]? = some b)
    (htb : accepts [t] [b] = true) :
    LoopInv pattern value { c with px := c.px + 1, nx := c.nx + 1 } ∧
      Cursor.measure pattern.length value.length { c with px := c.px + 1, nx := c.nx + 1 } <
        c.measure pattern.length value.length := by
  have hpx : c.px < pattern.length := by simpa using (List.getElem?_eq_some_iff.mp ht).1
  have hnx : c.nx < value.length := (List.getElem?_eq_some_iff.mp hb).1
  have hne : (tokens pattern)[c.px]? ≠ some .star := by rw [ht]; simpa using hstar
  have hstep : accepts ((tokens pattern).drop c.px) (value.drop c.nx) =
      accepts ((tokens pattern).drop (c.px + 1)) (value.drop (c.nx + 1)) := by
    rw [drop_eq_cons ht, drop_eq_cons hb, accepts_cons_cons_of_ne_star hstar, htb, Bool.true_and]
  have hlt : 0 < c.nextNx → c.nextPx < c.px := fun hpos => (hi.segment_of_ne_star hpos hne).1
  refine ⟨⟨hpx, hnx, ?_, ?_⟩, ?_⟩
  · rw [hi.accepts_iff]
    unfold Resumes
    rw [hstep]
  · intro hpos
    obtain ⟨hlt', heq, hfree, hacc⟩ := hi.segment_of_ne_star hpos hne
    refine ⟨(hi.star hpos).1, .inr ⟨by dsimp only; omega, by dsimp only; omega, ?_, ?_⟩⟩
    · dsimp only
      rw [extract_succ (by omega) ht]
      exact hfree.append (.singleton hstar)
    · dsimp only
      have hlen₁ := length_extract (l := tokens pattern) (i := c.nextPx + 1)
        (by simpa using hi.px_le)
      have hlen₂ := length_extract (l := value) (i := c.nextNx - 1) hi.nx_le
      rw [extract_succ (by omega) ht, extract_succ (by omega) hb,
        accepts_append_of_starFree hfree (by omega), hacc, htb]
      rfl
  · refine Cursor.measure_lt_of_px ?_ (by dsimp only; omega) (by dsimp only; omega)
    rw [Cursor.resumePos_of_lt hlt, Cursor.resumePos_of_lt (by dsimp only; omega)]

theorem advance_star (hi : LoopInv pattern value c) (ht : (tokens pattern)[c.px]? = some .star) :
    LoopInv pattern value { c with nextPx := c.px, nextNx := c.nx + 1, px := c.px + 1 } ∧
      Cursor.measure pattern.length value.length
          { c with nextPx := c.px, nextNx := c.nx + 1, px := c.px + 1 } <
        c.measure pattern.length value.length := by
  have hpx : c.px < pattern.length := by simpa using (List.getElem?_eq_some_iff.mp ht).1
  have hnx := hi.nx_le
  refine ⟨⟨hpx, hnx, ?_, fun _ => ⟨ht, .inr ⟨?_, ?_, ?_, ?_⟩⟩⟩, ?_⟩
  · -- the star skips nothing, or skips a letter and is tried again from there
    rw [hi.accepts_iff, hi.resumes_iff_of_star ht, drop_eq_cons ht, accepts_star_drop_iff]
    unfold Resumes
    dsimp only
    rw [drop_eq_cons ht]
    simp only [Nat.zero_lt_succ, true_and]
  · dsimp only
    omega
  · dsimp only
    omega
  · simpa using StarFree.nil
  · simp
  · -- the restart point moves to `nx + 1`, or stays and `px` moves on
    have hle := hi.resumePos_le
    have hnew : Cursor.resumePos { c with nextPx := c.px, nextNx := c.nx + 1, px := c.px + 1 } =
        c.nx + 1 := Cursor.resumePos_of_lt (fun _ => by dsimp only; omega)
    rcases Nat.lt_or_eq_of_le hle with hlt | heq
    · exact Cursor.measure_lt_of_resumePos (by omega) (by omega)
    · exact Cursor.measure_lt_of_px (by omega) (by dsimp only; omega) (by dsimp only; omega)

theorem restart (hi : LoopInv pattern value c) (hcond : c.px < pattern.length ∨ c.nx < value.length)
    (hadv : advance pattern value c = none) (hpos : 0 < c.nextNx) (hle : c.nextNx ≤ value.length) :
    LoopInv pattern value { c with px := c.nextPx, nx := c.nextNx } ∧
      Cursor.measure pattern.length value.length { c with px := c.nextPx, nx := c.nextNx } <
        c.measure pattern.length value.length := by
  have hstar := (hi.star hpos).1
  have hnp : c.nextPx < pattern.length := by simpa using (List.getElem?_eq_some_iff.mp hstar).1
  have hfail := accepts_drop_of_advance_eq_none hcond hadv
  have hne : (tokens pattern)[c.px]? ≠ some .star := fun h => advance_ne_none_of_star h hadv
  refine ⟨⟨Nat.le_of_lt hnp, hle, ?_, fun _ => ⟨hstar, .inl ⟨rfl, rfl⟩⟩⟩, ?_⟩
  · rw [hi.accepts_iff]
    unfold Resumes
    dsimp only
    simp only [hfail, Bool.false_eq_true, false_or, hpos, hle, true_and, or_self]
  · have hold : c.resumePos = c.nextNx :=
      Cursor.resumePos_of_lt fun hpos => (hi.segment_of_ne_star hpos hne).1
    have hnew : Cursor.resumePos { c with px := c.nextPx, nx := c.nextNx } = c.nextNx + 1 := by
      unfold Cursor.resumePos
      dsimp only
      rw [if_pos ⟨rfl, hpos⟩]
    exact Cursor.measure_lt_of_resumePos (by omega) (by omega)

theorem matchStep_some (hi : LoopInv pattern value c)
    (hcond : c.px < pattern.length ∨ c.nx < value.length) (h : matchStep pattern value c = some c') :
    LoopInv pattern value c' ∧
      c'.measure pattern.length value.length < c.measure pattern.length value.length := by
  unfold matchStep at h
  cases hadv : advance pattern value c with
  | some c₁ =>
    rw [hadv, Option.some.injEq] at h
    subst h
    obtain ⟨t, b, ht, hstar, hb, htb, rfl⟩ | ⟨ht, rfl⟩ := advance_eq_some hadv
    · exact hi.advance_letter ht hstar hb htb
    · exact hi.advance_star ht
  | none =>
    rw [hadv] at h
    unfold Glob.restart at h
    split_ifs at h with hr
    cases h
    exact hi.restart hcond hadv hr.1 hr.2

theorem accepts_of_matchStep_none (hi : LoopInv pattern value c)
    (hcond : c.px < pattern.length ∨ c.nx < value.length) (h : matchStep pattern value c = none) :
    accepts (tokens pattern) value = false := by
  unfold matchStep at h
  cases hadv : advance pattern value c with
  | some c₁ => rw [hadv] at h; cases h
  | none =>
    rw [hadv] at h
    unfold Glob.restart at h
    split_ifs at h with hr
    have hfail := accepts_drop_of_advance_eq_none hcond hadv
    rw [Bool.eq_false_iff]
    intro hacc
    rcases hi.accepts_iff.mp hacc with h₁ | ⟨hpos, hle, -⟩
    · rw [hfail] at h₁
      cases h₁
    · exact hr ⟨hpos, hle⟩

theorem accepts_of_done (hi : LoopInv pattern value c)
    (hcond : ¬(c.px < pattern.length ∨ c.nx < value.length)) :
    accepts (tokens pattern) value = true := by
  have hpx : pattern.length ≤ c.px := by omega
  have hnx : value.length ≤ c.nx := by omega
  refine hi.accepts_iff.mpr (.inl ?_)
  have hp : (tokens pattern).drop c.px = [] := List.drop_eq_nil_of_le (by simpa using hpx)
  rw [hp, List.drop_eq_nil_of_le hnx]
  rfl

end LoopInv

/-- The loop, from a cursor that keeps the invariant and with more passes left than its
measure, answers whether the pattern accepts the value. -/
theorem matchLoop_eq_accepts {fuel : ℕ} (hi : LoopInv pattern value c)
    (hfuel : c.measure pattern.length value.length < fuel) :
    matchLoop pattern value fuel c = accepts (tokens pattern) value := by
  induction fuel generalizing c with
  | zero => exact absurd hfuel (Nat.not_lt_zero _)
  | succ fuel ih =>
    rw [matchLoop]
    by_cases hcond : c.px < pattern.length ∨ c.nx < value.length
    · rw [if_pos hcond]
      cases hstep : matchStep pattern value c with
      | none => exact (hi.accepts_of_matchStep_none hcond hstep).symm
      | some c' =>
        obtain ⟨hi', hlt⟩ := hi.matchStep_some hcond hstep
        exact ih hi' (by omega)
    · rw [if_neg hcond]
      exact (hi.accepts_of_done hcond).symm

theorem matches_eq_accepts (cm : CaseMap) (g : GlobPattern) (value : String) :
    g.matches cm value = accepts (tokens g.pattern) (caseValue cm g.toLower value) := by
  unfold GlobPattern.matches
  apply matchLoop_eq_accepts LoopInv.start
  simp [Cursor.measure, Cursor.resumePos, passBound]

end Loop

/-! ## The language of a pattern text -/

/-- The reading of a pattern text: `*` stands for any word, `?` for one character, a
backslash makes the next character literal, and every other character stands for itself. -/
def globToks : List Char → List (Tok Char)
  | [] => []
  | '\\' :: c :: rest => .lit c :: globToks rest
  | '*' :: rest => .star :: globToks rest
  | '?' :: rest => .any :: globToks rest
  | c :: rest => .lit c :: globToks rest

/-- The text ends in a backslash that escapes nothing. -/
def endsInEscape : List Char → Bool
  | [] => false
  | ['\\'] => true
  | '\\' :: _ :: rest => endsInEscape rest
  | _ :: rest => endsInEscape rest

section Case

variable (cm : CaseMap) (toLower : Bool)

/-- A token of a pattern compiled for `to_lower`: a literal upper-case character stands for
the characters of its lower case. -/
def caseTok : Tok Char → List (Tok Char)
  | .lit c => if toLower && cm.isUppercase c then (cm.toLowercase c).map .lit else [.lit c]
  | t => [t]

/-- The tokens of a pattern compiled for `to_lower`. -/
def caseToks (toks : List (Tok Char)) : List (Tok Char) := toks.flatMap (caseTok cm toLower)

theorem caseToks_cons (t : Tok Char) (toks : List (Tok Char)) :
    caseToks cm toLower (t :: toks) = caseTok cm toLower t ++ caseToks cm toLower toks :=
  List.flatMap_cons

theorem caseToks_false (toks : List (Tok Char)) : caseToks cm false toks = toks := by
  induction toks with
  | nil => rfl
  | cons t toks ih =>
    rw [caseToks_cons, ih]
    cases t <;> simp [caseTok]

theorem tokens_literalChars (c : Char) :
    tokens (literalChars cm toLower c) = caseTok cm toLower (.lit c) := by
  unfold literalChars tokens
  rw [caseTok]
  by_cases hc : (toLower && cm.isUppercase c) = true
  · rw [if_pos hc, if_pos hc, List.map_map]
    rfl
  · rw [if_neg hc, if_neg hc]
    rfl

theorem globToks_cons_of_ne {c : Char} (rest : List Char) (h₁ : c ≠ '\\') (h₂ : c ≠ '*')
    (h₃ : c ≠ '?') : globToks (c :: rest) = .lit c :: globToks rest :=
  globToks.eq_5 c rest (fun _ _ h _ => h₁ h) h₂ h₃

theorem endsInEscape_cons_of_ne {c : Char} (rest : List Char) (h : c ≠ '\\') :
    endsInEscape (c :: rest) = endsInEscape rest := by
  cases rest <;> simp [endsInEscape, h]

/-- The rest of a run of stars changes neither the language after a star nor whether the
text ends in a lone backslash. -/
theorem sameLang_starRun (num : ℕ) (rest : List Char) :
    SameLang (.star :: caseToks cm toLower (globToks rest))
        (.star :: caseToks cm toLower (globToks (starRun num rest).2)) ∧
      endsInEscape (starRun num rest).2 = endsInEscape rest := by
  fun_induction starRun num rest with
  | case1 num rest ih =>
    have hg : globToks ('*' :: rest) = .star :: globToks rest := rfl
    refine ⟨?_, ih.2.trans (endsInEscape_cons_of_ne rest (by decide)).symm⟩
    rw [hg, caseToks_cons]
    exact (SameLang.star_star _).trans ih.1
  | case2 num rest => exact ⟨SameLang.refl _, rfl⟩

/-- The loop of `compile`, from a state with a backslash pending or not, gives a pattern with
the language of what it reads. -/
theorem sameLang_compileChars (chars : List Char) (isEscaped : Bool)
    (h : endsInEscape (if isEscaped then '\\' :: chars else chars) = false) :
    SameLang (tokens (compileChars cm toLower chars isEscaped))
      (caseToks cm toLower (globToks (if isEscaped then '\\' :: chars else chars))) := by
  fun_induction compileChars cm toLower chars isEscaped with
  | case1 isEscaped =>
    cases isEscaped
    · exact SameLang.refl _
    · simp [endsInEscape] at h
  | case2 rest ih =>
    have hrun := sameLang_starRun cm toLower 1 rest
    have hg : globToks ('*' :: rest) = .star :: globToks rest := rfl
    simp only [Bool.false_eq_true, if_false] at h ih ⊢
    rw [endsInEscape_cons_of_ne rest (by decide)] at h
    rw [hg, caseToks_cons]
    exact ((ih (hrun.2.trans h)).cons .star).trans hrun.1.symm
  | case3 rest ih =>
    have hg : globToks ('?' :: rest) = .any :: globToks rest := rfl
    simp only [Bool.false_eq_true, if_false] at h ih ⊢
    rw [endsInEscape_cons_of_ne rest (by decide)] at h
    rw [hg, caseToks_cons]
    exact (ih h).cons .any
  | case4 rest ih => exact ih h
  | case5 c rest isEscaped hstar hques hback ih =>
    have hg : globToks (if isEscaped then '\\' :: c :: rest else c :: rest) =
        .lit c :: globToks rest := by
      cases isEscaped
      · exact globToks_cons_of_ne rest (hback rfl) (hstar rfl) (hques rfl)
      · rfl
    have he : endsInEscape (if isEscaped then '\\' :: c :: rest else c :: rest) =
        endsInEscape rest := by
      cases isEscaped
      · exact endsInEscape_cons_of_ne rest (hback rfl)
      · rfl
    simp only [Bool.false_eq_true, if_false] at ih
    rw [hg, caseToks_cons, tokens_append, tokens_literalChars]
    exact SameLang.append _ (ih (he ▸ h))

/-- `compile` gives a pattern with the language of the text's reading, every literal
lower-cased for `to_lower`, escaped ones too. -/
theorem sameLang_compile (p : String) (hp : endsInEscape p.toList = false) :
    SameLang (tokens (GlobPattern.compile cm toLower p).pattern)
      (caseToks cm toLower (globToks p.toList)) :=
  sameLang_compileChars cm toLower p.toList false hp

end Case

/-- Glob matching decides the language of the pattern text: as read, for a pattern compiled
without `to_lower`; for `to_lower`, with every literal of the pattern lower-cased by
`char::to_lowercase`, escaped ones included, against the value lower-cased by
`str::to_lowercase`. -/
theorem compile_matches_iff (cm : CaseMap) (p v : String) (hp : endsInEscape p.toList = false) :
    ((GlobPattern.compile cm false p).matches cm v = true ↔
        accepts (globToks p.toList) v.toList = true) ∧
      ((GlobPattern.compile cm true p).matches cm v = true ↔
        accepts (caseToks cm true (globToks p.toList)) (cm.strToLowercase v).toList = true) := by
  constructor
  · have h := sameLang_compile cm false p hp (caseValue cm false v)
    rw [caseToks_false] at h
    rw [matches_eq_accepts]
    exact iff_of_eq (congrArg (· = true) h)
  · have h := sameLang_compile cm true p hp (caseValue cm true v)
    rw [matches_eq_accepts]
    exact iff_of_eq (congrArg (· = true) h)

theorem compile_matches_iff_log :
    endsInEscape "*.LOG".toList = false ∧
      (((GlobPattern.compile CaseMap.ascii false "*.LOG").matches CaseMap.ascii "mail.log" = true ↔
          accepts (globToks "*.LOG".toList) "mail.log".toList = true) ∧
        ((GlobPattern.compile CaseMap.ascii true "*.LOG").matches CaseMap.ascii "mail.log" = true ↔
          accepts (caseToks CaseMap.ascii true (globToks "*.LOG".toList))
            (CaseMap.ascii.strToLowercase "mail.log").toList = true)) :=
  ⟨by decide, compile_matches_iff CaseMap.ascii "*.LOG" "mail.log" (by decide)⟩

/-- An escaped upper-case letter is lower-cased as well: `\A` compiled for `to_lower` matches
`a`, which the text's reading does not accept when only unescaped characters are
lower-cased, the escaped `A` then standing for itself. -/
theorem compile_lowers_escaped :
    (GlobPattern.compile CaseMap.ascii true "\\A").matches CaseMap.ascii "a" = true ∧
      accepts (globToks "\\A".toList) (CaseMap.ascii.strToLowercase "a").toList = false := by
  have hc : GlobPattern.compile CaseMap.ascii true "\\A" = ⟨[.char 'a'], true⟩ := by
    simp [GlobPattern.compile, compileChars, literalChars, CaseMap.ascii]
  constructor
  · rw [hc]
    with_unfolding_all decide
  · with_unfolding_all decide

end MailServer.Utils.Glob
