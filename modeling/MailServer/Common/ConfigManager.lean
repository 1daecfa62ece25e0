import Mathlib
import MailServer.Utils.ConfigParser

/-! # Writing the local configuration file

`ConfigManager::update_local` writes the local settings as `key = value` lines and
chooses one of four forms for each value: bare when it reads as a boolean or a
number, between `'''` when it holds a line feed or is long and needs escaping, in
double quotes with `"` and `\` escaped when it needs escaping, and in plain double
quotes otherwise. `Config::new` reads the file back. The map comes back whole for
the values the reader can give back (`readsBack`); a value that ends in a backslash
makes the whole file unreadable.
-/

namespace MailServer.Common.ConfigManager

open MailServer.Lib MailServer.Utils.ConfigParser TomlParser

section Float

/-- The states of a scan of `Number ::= (Digit+ | Digit+ '.' Digit* | Digit* '.' Digit+) Exp?`
with `Exp ::= [eE] Sign? Digit+`, the grammar of `f64::from_str`. -/
inductive NumberState
  | start
  | intDigits
  | dot
  | fracDigits
  | exp
  | expSign
  | expDigits
  deriving DecidableEq, Repr

def numberStep : NumberState → Char → Option NumberState
  | .start, c => if c.isDigit then some .intDigits else if c = '.' then some .dot else none
  | .intDigits, c =>
    if c.isDigit then some .intDigits
    else if c = '.' then some .fracDigits
    else if c = 'e' ∨ c = 'E' then some .exp
    else none
  | .dot, c => if c.isDigit then some .fracDigits else none
  | .fracDigits, c =>
    if c.isDigit then some .fracDigits else if c = 'e' ∨ c = 'E' then some .exp else none
  | .exp, c => if c = '+' ∨ c = '-' then some .expSign else if c.isDigit then some .expDigits else none
  | .expSign, c => if c.isDigit then some .expDigits else none
  | .expDigits, c => if c.isDigit then some .expDigits else none

def NumberState.accepting : NumberState → Bool
  | .intDigits | .fracDigits | .expDigits => true
  | _ => false

def isNumber (cs : List Char) : Bool :=
  match cs.foldlM numberStep .start with
  | some s => s.accepting
  | none => false

/-- `inf`, `infinity` and `nan`, in any case. -/
def isInfNan (cs : List Char) : Bool :=
  cs.map Char.toLower ∈ [['i', 'n', 'f'], ['i', 'n', 'f', 'i', 'n', 'i', 't', 'y'], ['n', 'a', 'n']]

/-- `value.parse::<f64>().is_ok()`: an optional sign, then a number, `inf`, `infinity` or
`nan`. -/
def parsesAsF64 (value : String) : Bool :=
  match value.toList with
  | [] => false
  | c :: rest =>
    let body := if c = '+' ∨ c = '-' then rest else c :: rest
    !body.isEmpty && (isNumber body || isInfNan body)

theorem isBareChar_of_isDigit {c : Char} (h : c.isDigit = true) : isBareChar c = true := by
  simp [isBareChar, isAlphanumeric, Char.isAlphanum, h]

theorem numberStep_char {s s' : NumberState} {c : Char} (h : numberStep s c = some s') :
    c.isDigit = true ∨ c = '.' ∨ c = 'e' ∨ c = 'E' ∨ c = '+' ∨ c = '-' := by
  cases s <;> simp only [numberStep] at h <;> split_ifs at h <;> first | (cases h; done) | tauto

theorem isBareChar_of_numberStep {s s' : NumberState} {c : Char} (h : numberStep s c = some s') :
    isBareChar c = true := by
  rcases numberStep_char h with h | rfl | rfl | rfl | rfl | rfl
  · exact isBareChar_of_isDigit h
  all_goals decide

theorem isBareChar_of_foldlM {cs : List Char} {s s' : NumberState}
    (h : cs.foldlM numberStep s = some s') : ∀ c ∈ cs, isBareChar c = true := by
  induction cs generalizing s with
  | nil => simp
  | cons c cs ih =>
    rw [List.foldlM_cons] at h
    cases hstep : numberStep s c with
    | none => simp [hstep] at h
    | some s'' =>
      rw [hstep] at h
      intro x hx
      rcases List.mem_cons.mp hx with rfl | hx
      · exact isBareChar_of_numberStep hstep
      · exact ih h x hx

theorem isAlphanum_of_toLower {c : Char} (h : c.toLower.isAlpha = true) : c.isAlphanum = true := by
  unfold Char.toLower at h
  split_ifs at h with hc
  · simp only [Char.isAlphanum, Char.isAlpha, Char.isUpper, Bool.or_eq_true, decide_eq_true_eq]
    exact Or.inl (Or.inl hc)
  · simp [Char.isAlphanum, h]

theorem infNan_isAlpha {l : List Char}
    (hl : l ∈ [['i', 'n', 'f'], ['i', 'n', 'f', 'i', 'n', 'i', 't', 'y'], ['n', 'a', 'n']])
    {d : Char} (hd : d ∈ l) : d.isAlpha = true := by
  simp only [List.mem_cons, List.not_mem_nil, or_false] at hl
  rcases hl with rfl | rfl | rfl <;> simp only [List.mem_cons, List.not_mem_nil, or_false] at hd <;>
    rcases hd with rfl | rfl | rfl | rfl | rfl | rfl | rfl | rfl <;> decide

theorem isBareChar_of_isInfNan {cs : List Char} (h : isInfNan cs = true) :
    ∀ c ∈ cs, isBareChar c = true := by
  intro c hc
  have hlower : c.toLower.isAlpha = true :=
    infNan_isAlpha (of_decide_eq_true h) (List.mem_map_of_mem hc)
  simp [isBareChar, isAlphanumeric, isAlphanum_of_toLower hlower]

theorem parsesAsF64_bare {value : String} (h : parsesAsF64 value = true) :
    value.toList ≠ [] ∧ ∀ c ∈ value.toList, isBareChar c = true := by
  unfold parsesAsF64 at h
  split at h
  · cases h
  rename_i c rest hvalue
  rw [hvalue]
  refine ⟨List.cons_ne_nil _ _, ?_⟩
  simp only [Bool.and_eq_true, Bool.not_eq_true', Bool.or_eq_true] at h
  have hbody : ∀ x ∈ (if c = '+' ∨ c = '-' then rest else c :: rest), isBareChar x = true := by
    rcases h.2 with h | h
    · unfold isNumber at h
      split at h
      · exact isBareChar_of_foldlM ‹_›
      · cases h
    · exact isBareChar_of_isInfNan h
  split_ifs at hbody with hsign
  · intro x hx
    rcases List.mem_cons.mp hx with rfl | hx
    · rcases hsign with rfl | rfl <;> decide
    · exact hbody x hx
  · exact hbody

end Float

section Writer

/-- The scan of `update_local` for `"` or `\` (`needs_escape`) and for line feeds (`has_lf`);
it stops once it has seen both. -/
def scanValue : List Char → Bool → Bool → Bool × Bool
  | [], needsEscape, hasLf => (needsEscape, hasLf)
  | ch :: rest, needsEscape, hasLf =>
    if ch = '"' ∨ ch = '\\' then
      if hasLf then (true, hasLf) else scanValue rest true hasLf
    else if ch = '\n' then
      if needsEscape then (needsEscape, true) else scanValue rest needsEscape true
    else scanValue rest needsEscape hasLf

/-- The four forms `update_local` writes a value in. -/
inductive Encoding
  | bare
  | raw
  | escaped
  | quoted
  deriving DecidableEq, Repr

def encoding (value : String) : Encoding :=
  if value = "true" ∨ value = "false" ∨ parsesAsF64 value = true then .bare
  else
    let (needsEscape, hasLf) := scanValue value.toList false false
    if hasLf = true ∨ (value.utf8ByteSize > 50 ∧ needsEscape = true) then .raw
    else if needsEscape = true then .escaped
    else .quoted

/-- A backslash before every `\` and `"`. -/
def escapeChar (ch : Char) : List Char := if ch = '\\' ∨ ch = '"' then ['\\', ch] else [ch]

def writeValue (value : String) : String :=
  match encoding value with
  | .bare => value
  | .raw => "\'\'\'" ++ value ++ "\'\'\'"
  | .escaped => "\"" ++ String.ofList (value.toList.flatMap escapeChar) ++ "\""
  | .quoted => "\"" ++ value ++ "\""

/-- The text `update_local` writes to the local configuration file. -/
def updateLocal (map : SortedMap String String) : String :=
  String.join (map.entries.map fun (key, value) => key ++ " = " ++ writeValue value ++ "\n")

theorem scanValue_eq (cs : List Char) (needsEscape hasLf : Bool) :
    scanValue cs needsEscape hasLf =
      (needsEscape || cs.any (fun c => c = '"' || c = '\\'), hasLf || cs.any (· = '\n')) := by
  induction cs generalizing needsEscape hasLf with
  | nil => simp [scanValue]
  | cons c cs ih =>
    rw [scanValue]
    by_cases hesc : c = '"' ∨ c = '\\'
    · rw [if_pos hesc]
      cases hasLf
      · rw [if_neg Bool.false_ne_true, ih]
        rcases hesc with rfl | rfl <;> simp
      · rcases hesc with rfl | rfl <;> simp
    · rw [if_neg hesc]
      by_cases hnl : c = '\n'
      · subst hnl
        rw [if_pos rfl]
        cases needsEscape
        · rw [if_neg Bool.false_ne_true, ih]
          simp
        · simp
      · rw [if_neg hnl, ih]
        simp only [not_or] at hesc
        simp [hesc.1, hesc.2, hnl]

end Writer

section Reading

variable {keys : SortedMap String String} {rest : List Char}

/-- Whether the reader gives back a value written in double quotes with `escapeChar`: no
`\r`, and no backslash at the end or before a character that is escaped itself or that
the reader takes as an escape letter. -/
def escapedReadsBack : List Char → Bool
  | [] => true
  | c :: rest =>
    if c = '\\' then
      match rest with
      | [] => false
      | d :: rest' =>
        !(d = '\\' || d = '"' || d = 't' || d = 'r' || d = 'n' || d = '\r') && escapedReadsBack rest'
    else c ≠ '\r' && escapedReadsBack rest

/-- The reader undoes `escapeChar` on the values of `escapedReadsBack`, and the last character
it reads is not a backslash. -/
theorem basicString_escaped {v : List Char} (hv : escapedReadsBack v = true) {lastCh : Char}
    (hlast : lastCh ≠ '\\') (value : String) (line : ℕ) (tail : List Char) :
    ∃ lastCh' line', lastCh' ≠ '\\' ∧
      basicString ⟨keys, v.flatMap escapeChar ++ tail, line⟩ '"' lastCh value =
        basicString ⟨keys, tail, line'⟩ '"' lastCh' (value ++ String.ofList v) := by
  induction v using escapedReadsBack.induct generalizing lastCh value line with
  | case1 =>
    refine ⟨lastCh, line, hlast, ?_⟩
    rw [List.flatMap_nil, List.nil_append, String.ofList_nil, String.append_empty]
  | case2 => simp [escapedReadsBack] at hv
  | case3 d rest' ih =>
    simp [escapedReadsBack] at hv
    obtain ⟨⟨⟨⟨⟨⟨hbs, hq⟩, ht⟩, hr⟩, hn⟩, hcr⟩, hrest⟩ := hv
    have hstream : ('\\' :: d :: rest').flatMap escapeChar ++ tail =
        '\\' :: '\\' :: d :: (rest'.flatMap escapeChar ++ tail) := by
      simp [escapeChar, hbs, hq]
    rw [hstream, basicString_skip hlast,
      basicString_push '\\' '"' '\\' (by decide) (fun _ => rfl)
        (fun _ => ⟨by decide, by decide, by decide⟩) (Or.inl (by decide)),
      if_neg (by decide),
      basicString_push d '"' '\\' hcr (fun h => absurd h hbs) (fun _ => ⟨ht, hr, hn⟩) (Or.inl hq)]
    obtain ⟨lastCh', line', hlast', h⟩ :=
      ih hrest hbs ((value.push '\\').push d) (if d = '\n' then line + 1 else line)
    refine ⟨lastCh', line', hlast', h.trans ?_⟩
    congr 1
    apply String.ext
    simp
  | case4 c rest' hc ih =>
    unfold escapedReadsBack at hv
    rw [if_neg hc, Bool.and_eq_true, decide_eq_true_eq] at hv
    obtain ⟨hcr, hrest⟩ := hv
    by_cases hq : c = '"'
    · subst hq
      have hstream : ('"' :: rest').flatMap escapeChar ++ tail =
          '\\' :: '"' :: (rest'.flatMap escapeChar ++ tail) := by
        simp [escapeChar]
      rw [hstream, basicString_skip hlast,
        basicString_push '"' '"' '\\' (by decide) (fun h => absurd h (by decide))
          (fun _ => ⟨by decide, by decide, by decide⟩) (Or.inr rfl),
        if_neg (by decide)]
      obtain ⟨lastCh', line', hlast', h⟩ := ih hrest (show '"' ≠ '\\' by decide) (value.push '"') line
      refine ⟨lastCh', line', hlast', h.trans ?_⟩
      congr 1
      apply String.ext
      simp
    · have hstream : (c :: rest').flatMap escapeChar ++ tail =
          c :: (rest'.flatMap escapeChar ++ tail) := by
        simp [escapeChar, hc, hq]
      rw [hstream, basicString_push c '"' lastCh hcr (fun h => absurd h hc) (fun h => absurd h hlast)
        (Or.inl hq)]
      obtain ⟨lastCh', line', hlast', h⟩ :=
        ih hrest hc (value.push c) (if c = '\n' then line + 1 else line)
      refine ⟨lastCh', line', hlast', h.trans ?_⟩
      congr 1
      apply String.ext
      simp

/-- Whether no three `q` stand in a row, counting the two characters read before. -/
def noTriple (q : Char) : Char → Char → List Char → Bool
  | _, _, [] => true
  | prev, last, c :: rest => !(c = q && last = q && prev = q) && noTriple q last c rest

/-- The reader gives back a triple-quoted value with no `\r`, no three quotes in a row and
no quote at its end. -/
theorem multilineString_raw {v : List Char} {q prev last : Char} (hcr : '\r' ∉ v)
    (hq : q ≠ '\r' ∧ q ≠ '\n') (hv : noTriple q prev last v = true) (hend : v.getLast?.getD last ≠ q)
    (value : String) (line : ℕ) :
    ∃ line', multilineString ⟨keys, v ++ q :: q :: q :: rest, line⟩ q last prev value =
      .ok (value ++ String.ofList v, ⟨keys, rest, line'⟩) := by
  induction v generalizing prev last value line with
  | nil =>
    have hlast : last ≠ q := hend
    refine ⟨line, ?_⟩
    rw [List.nil_append, multilineString_push q q last prev hq.1 (fun h => hlast h.2.1),
      if_neg hq.2, multilineString_push q q q last hq.1 (fun h => hlast h.2.2), if_neg hq.2,
      multilineString_close hq.1 hq.2]
    congr 2
    apply String.ext
    simp
  | cons c v ih =>
    rw [noTriple, Bool.and_eq_true] at hv
    obtain ⟨hwindow, hv⟩ := hv
    have hno : ¬(c = q ∧ last = q ∧ prev = q) := by
      rintro ⟨h1, h2, h3⟩
      simp [h1, h2, h3] at hwindow
    have hc : c ≠ '\r' := fun h => hcr (h ▸ List.mem_cons_self)
    rw [List.cons_append, multilineString_push c q last prev hc hno]
    obtain ⟨line', h⟩ := ih (fun h => hcr (List.mem_cons_of_mem _ h)) hv
      (by rwa [List.getLast?_cons, Option.getD_some] at hend) (value.push c)
      (if c = '\n' then line + 1 else line)
    refine ⟨line', h.trans ?_⟩
    congr 2
    apply String.ext
    simp

/-- The conditions of a triple-quoted value: no leading line feed, which the reader would
skip, and those of `multilineString_raw`. -/
def rawReadsBack (v : List Char) : Bool :=
  v.head? != some '\n' && !v.contains '\r' && noTriple '\'' '\x00' '\x00' v &&
    v.getLast? != some '\''

/-- Whether `Config::new` gives back a value from what `update_local` writes for it. -/
def readsBack (v : String) : Bool :=
  match encoding v with
  | .bare => true
  | .raw => rawReadsBack v.toList
  | .escaped => escapedReadsBack v.toList
  | .quoted => !v.toList.contains '\r'

theorem encoding_bare {v : String} (h : encoding v = .bare) :
    v.toList ≠ [] ∧ ∀ c ∈ v.toList, isBareChar c = true := by
  unfold encoding at h
  split_ifs at h with hb
  · rcases hb with rfl | rfl | hf
    · simp [isBareChar, isAlphanumeric]
    · simp [isBareChar, isAlphanumeric]
    · exact parsesAsF64_bare hf
  · simp only [scanValue_eq] at h
    split_ifs at h

theorem encoding_escaped {v : String} (h : encoding v = .escaped) : v.toList ≠ [] := by
  unfold encoding at h
  split_ifs at h
  simp only [scanValue_eq, Bool.false_or] at h
  split_ifs at h with h1 h2
  rintro hv
  simp [hv] at h2

theorem encoding_quoted {v : String} (h : encoding v = .quoted) :
    ∀ c ∈ v.toList, c ≠ '"' ∧ c ≠ '\\' ∧ c ≠ '\n' := by
  unfold encoding at h
  split_ifs at h
  simp only [scanValue_eq, Bool.false_or] at h
  split_ifs at h with h1 h2
  intro c hc
  simp only [not_or, List.any_eq_true, not_exists, not_and, Bool.or_eq_true, decide_eq_true_eq]
    at h1 h2
  refine ⟨fun he => ?_, fun he => ?_, fun he => h1.1 c hc he⟩
  · exact absurd (Or.inl he) (by simpa using h2 c hc)
  · exact absurd (Or.inr he) (by simpa using h2 c hc)

theorem flatMap_escapeChar_of_plain {v : List Char} (h : ∀ c ∈ v, c ≠ '\\' ∧ c ≠ '"') :
    v.flatMap escapeChar = v := by
  induction v with
  | nil => rfl
  | cons c v ih =>
    have hc := h c List.mem_cons_self
    rw [List.flatMap_cons, ih (fun x hx => h x (List.mem_cons_of_mem _ hx))]
    simp [escapeChar, hc.1, hc.2]

theorem escapedReadsBack_of_plain {v : List Char} (h : ∀ c ∈ v, c ≠ '\\' ∧ c ≠ '\r') :
    escapedReadsBack v = true := by
  induction v with
  | nil => rfl
  | cons c v ih =>
    have hc := h c List.mem_cons_self
    unfold escapedReadsBack
    rw [if_neg hc.1, ih (fun x hx => h x (List.mem_cons_of_mem _ hx))]
    simp [hc.2]

theorem head_flatMap_escapeChar {v : List Char} (hv : v ≠ []) (tail : List Char) :
    (v.flatMap escapeChar ++ tail).head? ≠ some '"' := by
  obtain ⟨c, cs, rfl⟩ := List.exists_cons_of_ne_nil hv
  rw [List.flatMap_cons, escapeChar]
  split_ifs with hc
  · simp
  · simp only [not_or] at hc
    simp [hc.2]

theorem value_stored {key v : String} {c : Char} {p p1 : TomlParser} {line : ℕ}
    (hkeys : ∀ a ∈ keys.entries, a.1 < key) (hnext : nextChar p true false = .ok (c, p1))
    (hc : c = '\'' ∨ c = '"') (hq : quotedValue p1 c = .ok (v, ⟨keys, '\n' :: rest, line⟩)) :
    ∃ keys' line', TomlParser.value p key ['\n'] 0 = .ok ('\n', ⟨keys', rest, line'⟩) ∧
      keys'.entries = keys.entries ++ [(key, v)] := by
  obtain ⟨keys', hins, hentries⟩ : ∃ keys', insertKey ⟨keys, '\n' :: rest, line⟩ key v =
      .ok ⟨keys', '\n' :: rest, line⟩ ∧ keys'.entries = keys.entries ++ [(key, v)] :=
    insertKey_of_lt hkeys
  exact ⟨keys', line + 1, by rw [value_quoted (by decide) hnext hc hq hins, trailing_lf (by simp)],
    hentries⟩

theorem toList_writeValue_raw {v : String} (h : encoding v = .raw) :
    (writeValue v).toList = '\'' :: '\'' :: '\'' :: (v.toList ++ ['\'', '\'', '\'']) := by
  simp [writeValue, h]

theorem toList_writeValue_escaped {v : String} (h : encoding v = .escaped) :
    (writeValue v).toList = '"' :: (v.toList.flatMap escapeChar ++ ['"']) := by
  simp [writeValue, h]

theorem toList_writeValue_quoted {v : String} (h : encoding v = .quoted) :
    (writeValue v).toList = '"' :: (v.toList ++ ['"']) := by
  simp [writeValue, h]

/-- Reading `text` as the value of `key`, up to the end of its line, stores `v` after the keys
read so far. -/
def ReadsValue (keys : SortedMap String String) (key v : String) (text rest : List Char)
    (line : ℕ) : Prop :=
  ∃ keys' line', TomlParser.value ⟨keys, text ++ '\n' :: rest, line⟩ key ['\n'] 0 =
      .ok ('\n', ⟨keys', rest, line'⟩) ∧ keys'.entries = keys.entries ++ [(key, v)]

section Encodings

variable {key v : String} (hkeys : ∀ a ∈ keys.entries, a.1 < key) (line : ℕ)
include hkeys

theorem readsValue_bare (h : encoding v = .bare) :
    ReadsValue keys key v (' ' :: (writeValue v).toList) rest line := by
  obtain ⟨hne, hbare⟩ := encoding_bare h
  obtain ⟨c, cs, hcs⟩ := List.exists_cons_of_ne_nil hne
  have hc := hbare c (by simp [hcs])
  obtain ⟨hcr, hlf, hsp, htab⟩ := isBareChar_plain hc
  have hnext : nextChar ⟨keys, ' ' :: c :: (cs ++ '\n' :: rest), line⟩ true false =
      .ok (c, ⟨keys, cs ++ '\n' :: rest, line⟩) := nextChar_spaced hcr hlf hsp htab
  have hb : bareValue ⟨keys, cs ++ '\n' :: rest, line⟩ (String.singleton c) =
      .ok (String.singleton c ++ String.ofList cs, ⟨keys, '\n' :: rest, line⟩) :=
    bareValue_chars (fun x hx => hbare x (by simp [hcs, hx])) (by decide) _
  have hv : String.singleton c ++ String.ofList cs = v := String.ext (by simp [hcs])
  rw [hv] at hb
  obtain ⟨keys', hins, hentries⟩ : ∃ keys', insertKey ⟨keys, '\n' :: rest, line⟩ key v =
      .ok ⟨keys', '\n' :: rest, line⟩ ∧ keys'.entries = keys.entries ++ [(key, v)] :=
    insertKey_of_lt hkeys
  refine ⟨keys', line + 1, ?_, hentries⟩
  have htext : (' ' :: (writeValue v).toList) ++ '\n' :: rest = ' ' :: c :: (cs ++ '\n' :: rest) := by
    simp [writeValue, h, hcs]
  rw [htext, value_bare (by decide) hnext hc hb hins, trailing_lf (by simp)]

theorem readsValue_raw (h : encoding v = .raw) (hv : rawReadsBack v.toList = true) :
    ReadsValue keys key v (' ' :: (writeValue v).toList) rest line := by
  simp only [rawReadsBack, Bool.and_eq_true, bne_iff_ne, ne_eq, Bool.not_eq_true'] at hv
  obtain ⟨⟨⟨hhead, hcr⟩, htriple⟩, hlast⟩ := hv
  have hcr' : '\r' ∉ v.toList := by simpa using hcr
  have hiter : (v.toList ++ '\'' :: '\'' :: '\'' :: '\n' :: rest).head? ≠ some '\n' := by
    cases hl : v.toList with
    | nil => simp
    | cons c cs => simpa [hl] using hhead
  have hend : v.toList.getLast?.getD '\x00' ≠ '\'' := by
    cases hl : v.toList.getLast? with
    | none => decide
    | some c => simpa [hl] using hlast
  obtain ⟨line', hread⟩ : ∃ line', multilineString ⟨keys, v.toList ++ '\'' :: '\'' :: '\'' ::
      '\n' :: rest, line⟩ '\'' '\x00' '\x00' "" =
      .ok ("" ++ String.ofList v.toList, ⟨keys, '\n' :: rest, line'⟩) :=
    multilineString_raw hcr' ⟨by decide, by decide⟩ htriple hend "" line
  rw [String.empty_append, String.ofList_toList] at hread
  have hnext : nextChar ⟨keys, ' ' :: '\'' :: '\'' :: '\'' :: (v.toList ++ '\'' :: '\'' :: '\'' ::
      '\n' :: rest), line⟩ true false = .ok ('\'', ⟨keys, '\'' :: '\'' :: (v.toList ++ '\'' ::
      '\'' :: '\'' :: '\n' :: rest), line⟩) :=
    nextChar_spaced (by decide) (by decide) (by decide) (by decide)
  have htext : (' ' :: (writeValue v).toList) ++ '\n' :: rest = ' ' :: '\'' :: '\'' :: '\'' ::
      (v.toList ++ '\'' :: '\'' :: '\'' :: '\n' :: rest) := by
    simp [toList_writeValue_raw h]
  rw [ReadsValue, htext]
  exact value_stored hkeys hnext (Or.inl rfl) (by rw [quotedValue_multiline hiter]; exact hread)

theorem readsValue_escapeChar (hne : v.toList ≠ []) (hv : escapedReadsBack v.toList = true) :
    ReadsValue keys key v (' ' :: '"' :: (v.toList.flatMap escapeChar ++ ['"'])) rest line := by
  obtain ⟨lastCh', line', hlast', hread⟩ :=
    basicString_escaped hv (show '\x00' ≠ '\\' by decide) "" line ('"' :: '\n' :: rest)
  rw [basicString_close hlast' (by decide) (by decide) (by decide), String.empty_append,
    String.ofList_toList] at hread
  have hnext : nextChar ⟨keys, ' ' :: '"' :: (v.toList.flatMap escapeChar ++ '"' :: '\n' :: rest),
      line⟩ true false = .ok ('"', ⟨keys, v.toList.flatMap escapeChar ++ '"' :: '\n' :: rest, line⟩) :=
    nextChar_spaced (by decide) (by decide) (by decide) (by decide)
  have htext : (' ' :: '"' :: (v.toList.flatMap escapeChar ++ ['"'])) ++ '\n' :: rest =
      ' ' :: '"' :: (v.toList.flatMap escapeChar ++ '"' :: '\n' :: rest) := by
    simp
  rw [ReadsValue, htext]
  exact value_stored hkeys hnext (Or.inr rfl)
    (by rw [quotedValue_basic (head_flatMap_escapeChar hne _)]; exact hread)

theorem readsValue_escaped (h : encoding v = .escaped) (hv : escapedReadsBack v.toList = true) :
    ReadsValue keys key v (' ' :: (writeValue v).toList) rest line := by
  rw [toList_writeValue_escaped h]
  exact readsValue_escapeChar hkeys line (encoding_escaped h) hv

theorem readsValue_quoted (h : encoding v = .quoted) (hv : (!v.toList.contains '\r') = true) :
    ReadsValue keys key v (' ' :: (writeValue v).toList) rest line := by
  have hplain := encoding_quoted h
  rw [toList_writeValue_quoted h]
  by_cases hne : v.toList = []
  · -- `""`: the second quote closes the empty value
    have hv0 : v = "" := String.toList_eq_nil_iff.mp hne
    subst hv0
    have hnext : nextChar ⟨keys, ' ' :: '"' :: '"' :: '\n' :: rest, line⟩ true false =
        .ok ('"', ⟨keys, '"' :: '\n' :: rest, line⟩) :=
      nextChar_spaced (by decide) (by decide) (by decide) (by decide)
    rw [hne, List.nil_append]
    exact value_stored hkeys hnext (Or.inr rfl) (quotedValue_empty (by decide))
  · have hcr : '\r' ∉ v.toList := by simpa using hv
    have hflat : v.toList.flatMap escapeChar = v.toList :=
      flatMap_escapeChar_of_plain (fun c hc => ⟨(hplain c hc).2.1, (hplain c hc).1⟩)
    have hesc : escapedReadsBack v.toList = true :=
      escapedReadsBack_of_plain (fun c hc => ⟨(hplain c hc).2.1, fun h => hcr (h ▸ hc)⟩)
    rw [← hflat]
    exact readsValue_escapeChar hkeys line hne hesc

theorem readsValue_writeValue (h : readsBack v = true) :
    ReadsValue keys key v (' ' :: (writeValue v).toList) rest line := by
  cases henc : encoding v <;> rw [readsBack, henc] at h
  · exact readsValue_bare hkeys line henc
  · exact readsValue_raw hkeys line henc h
  · exact readsValue_escaped hkeys line henc h
  · exact readsValue_quoted hkeys line henc h

end Encodings

/-- The keys `update_local` is given: not empty, starting with an ASCII letter or digit, and
over `[A-Za-z0-9._-]`. -/
def isKey (k : String) : Bool :=
  match k.toList with
  | [] => false
  | c :: cs => c.isAlphanum && cs.all isKeyChar

theorem parseLines_assign {k : String} (hk : isKey k = true) (text : List Char) (line : ℕ) :
    parseLines ⟨keys, k.toList ++ ' ' :: '=' :: text, line⟩ ⟨"", "", 0⟩ =
      (TomlParser.value ⟨keys, text, line⟩ k ['\n'] 0).bind fun r => parseLines r.2 ⟨"", "", 0⟩ := by
  unfold isKey at hk
  split at hk
  · cases hk
  rename_i c cs hcs
  rw [Bool.and_eq_true, List.all_eq_true] at hk
  obtain ⟨hc, hchars⟩ := hk
  have hbare : isBareChar c = true := by simp [isBareChar, isAlphanumeric, hc]
  obtain ⟨hcr, hlf, hsp, htab⟩ := isBareChar_plain hbare
  have hhash : c ≠ '#' := by
    rintro rfl
    revert hc
    decide
  have hkeyChars : ∀ x ∈ k.toList, isKeyChar x = true := by
    rw [hcs]
    intro x hx
    rcases List.mem_cons.mp hx with rfl | hx
    · simp [isKeyChar, hc]
    · exact hchars x hx
  have hlen : "".utf8ByteSize ≠ k.utf8ByteSize := by
    rw [String.utf8ByteSize_empty, ne_comm, ne_eq, String.utf8ByteSize_eq_zero_iff,
      ← String.toList_eq_nil_iff, hcs]
    exact List.cons_ne_nil _ _
  have hkey : TomlParser.key ⟨keys, k.toList ++ ' ' :: '=' :: text, line⟩ "" false =
      .ok ((k, '='), ⟨keys, text, line⟩) := by
    rw [TomlParser.key, keyLoop_keyChars hkeyChars, String.empty_append, String.ofList_toList,
      keyLoop_assign hlen]
  have hs : seekNextChar ⟨keys, k.toList ++ ' ' :: '=' :: text, line⟩ =
      (true, ⟨keys, k.toList ++ ' ' :: '=' :: text, line⟩) := by
    rw [hcs]
    exact seekNextChar_of_plain hlf hcr hsp htab hhash
  have hiter : (⟨keys, k.toList ++ ' ' :: '=' :: text, line⟩ : TomlParser).iter =
      c :: (cs ++ ' ' :: '=' :: text) := by
    simp [hcs]
  exact parseLines_keyLine hs hiter hc rfl hkey

theorem parseLines_entry {k v : String} (hk : isKey k = true) (hv : readsBack v = true)
    (hkeys : ∀ a ∈ keys.entries, a.1 < k) (more : List Char) (line : ℕ) :
    ∃ keys' line', parseLines ⟨keys, (k ++ " = " ++ writeValue v ++ "\n").toList ++ more, line⟩
        ⟨"", "", 0⟩ = parseLines ⟨keys', more, line'⟩ ⟨"", "", 0⟩ ∧
      keys'.entries = keys.entries ++ [(k, v)] := by
  obtain ⟨keys', line', hval, hentries⟩ : ReadsValue keys k v (' ' :: (writeValue v).toList) more line :=
    readsValue_writeValue hkeys line hv
  have htext : (k ++ " = " ++ writeValue v ++ "\n").toList ++ more =
      k.toList ++ ' ' :: '=' :: ((' ' :: (writeValue v).toList) ++ '\n' :: more) := by
    simp
  refine ⟨keys', line', ?_, hentries⟩
  rw [htext, parseLines_assign hk, hval]
  rfl

end Reading

section RoundTrip

/-- The lines `update_local` writes for `entries`, read after `keys`, add the entries in order;
the induction is on the entries, one line each. -/
theorem parseLines_updateLocal (keys : SortedMap String String) (entries : List (String × String))
    (hvalid : ∀ e ∈ entries, isKey e.1 = true ∧ readsBack e.2 = true)
    (hsorted : (keys.entries ++ entries).Pairwise (fun a b => a.1 < b.1)) (line : ℕ) :
    ∃ keys' line', parseLines ⟨keys, (String.join (entries.map fun (key, value) =>
        key ++ " = " ++ writeValue value ++ "\n")).toList, line⟩ ⟨"", "", 0⟩ = .ok ⟨keys', [], line'⟩ ∧
      keys'.entries = keys.entries ++ entries := by
  induction entries generalizing keys line with
  | nil => exact ⟨keys, line, parseLines_end _, (List.append_nil _).symm⟩
  | cons e entries ih =>
    obtain ⟨k, v⟩ := e
    have hk := hvalid (k, v) List.mem_cons_self
    have hkeys : ∀ a ∈ keys.entries, a.1 < k :=
      fun a ha => (List.pairwise_append.mp hsorted).2.2 a ha (k, v) List.mem_cons_self
    obtain ⟨keys', line', hstep, hentries⟩ := parseLines_entry hk.1 hk.2 hkeys
      (String.join (entries.map fun (key, value) => key ++ " = " ++ writeValue value ++ "\n")).toList line
    have hsorted' : (keys'.entries ++ entries).Pairwise (fun a b => a.1 < b.1) := by
      rw [hentries, List.append_assoc]
      exact hsorted
    obtain ⟨keys'', line'', hrun, hentries'⟩ :=
      ih keys' (fun e he => hvalid e (List.mem_cons_of_mem _ he)) hsorted' line'
    refine ⟨keys'', line'', ?_, by rw [hentries', hentries, List.append_assoc, List.singleton_append]⟩
    rw [List.map_cons, String.join_cons, String.toList_append]
    exact hstep.trans hrun

/-- `Config::new` reads back the map `update_local` writes, when every key is one the reader
takes and every value one it gives back. -/
theorem configNew_updateLocal (m : SortedMap String String)
    (hvalid : ∀ e ∈ m.entries, isKey e.1 = true ∧ readsBack e.2 = true) :
    Config.new (updateLocal m) = .ok ⟨m⟩ := by
  obtain ⟨keys', line', hrun, hentries⟩ :=
    parseLines_updateLocal SortedMap.empty m.entries hvalid m.sorted 1
  have hm : keys' = m := SortedMap.ext_entries hentries
  rw [Config.new, Config.parse, updateLocal, hrun, hm]
  rfl

/-- Four settings, one for each way `update_local` writes a value. -/
def exampleSettings : SortedMap String String :=
  ⟨[("server.banner", "one\ntwo"), ("server.greeting", "\"hi\""), ("server.hostname", "mx.example.org"),
    ("server.port", "25")], by decide⟩

theorem configNew_updateLocal_example : Config.new (updateLocal exampleSettings) = .ok ⟨exampleSettings⟩ :=
  configNew_updateLocal exampleSettings (by decide)

/-- A value that ends in a backslash, written in double quotes, ends in `\\"`: the reader takes
the closing quote as escaped and reads on to the end of the file. -/
theorem configNew_trailingBackslash {k w : String} (hk : isKey k = true)
    (hw : escapedReadsBack w.toList = true) (henc : encoding (w ++ "\\") = .escaped) :
    ∃ n : ℕ, Config.new (updateLocal (SortedMap.single k (w ++ "\\"))) =
      .error ("Unexpected EOF at line: " ++ toString n) := by
  have htext : (updateLocal (SortedMap.single k (w ++ "\\"))).toList = k.toList ++ ' ' :: '=' ::
      ' ' :: '"' :: (w.toList.flatMap escapeChar ++ ['\\', '\\', '"', '\n']) := by
    simp [updateLocal, SortedMap.single, toList_writeValue_escaped henc, escapeChar]
  obtain ⟨lastCh', line', hlast', hread⟩ : ∃ lastCh' line', lastCh' ≠ '\\' ∧
      basicString ⟨SortedMap.empty, w.toList.flatMap escapeChar ++ ['\\', '\\', '"', '\n'], 1⟩
        '"' '\x00' "" =
      basicString ⟨SortedMap.empty, ['\\', '\\', '"', '\n'], line'⟩ '"' lastCh'
        ("" ++ String.ofList w.toList) :=
    basicString_escaped hw (by decide) "" 1 _
  rw [basicString_backslashes_quote hlast' (by decide) (by decide) ⟨by decide, by decide, by decide⟩,
    if_neg (by decide), basicString_push '\n' '"' '"' (by decide) (fun h => absurd h (by decide))
      (fun h => absurd h (by decide)) (Or.inl (by decide)), if_pos rfl, basicString_eof] at hread
  have hhead : (w.toList.flatMap escapeChar ++ ['\\', '\\', '"', '\n']).head? ≠ some '"' := by
    have hsplit : w.toList.flatMap escapeChar ++ ['\\', '\\', '"', '\n'] =
        (w.toList ++ ['\\']).flatMap escapeChar ++ ['"', '\n'] := by
      simp [escapeChar]
    rw [hsplit]
    exact head_flatMap_escapeChar (by simp) _
  have hnext : nextChar ⟨SortedMap.empty, ' ' :: '"' :: (w.toList.flatMap escapeChar ++
      ['\\', '\\', '"', '\n']), 1⟩ true false =
      .ok ('"', ⟨SortedMap.empty, w.toList.flatMap escapeChar ++ ['\\', '\\', '"', '\n'], 1⟩) :=
    nextChar_spaced (by decide) (by decide) (by decide) (by decide)
  have hvalue : TomlParser.value ⟨SortedMap.empty, ' ' :: '"' :: (w.toList.flatMap escapeChar ++
      ['\\', '\\', '"', '\n']), 1⟩ k ['\n'] 0 =
      .error ("Unexpected EOF at line: " ++ toString (line' + 1)) :=
    value_quoted_error (by decide) hnext (Or.inr rfl) (by rw [quotedValue_basic hhead]; exact hread)
  refine ⟨line' + 1, ?_⟩
  rw [Config.new, Config.parse, htext, parseLines_assign hk, hvalue]
  rfl

/-- `a = "\\\\"`, the line written for a single backslash, cannot be read back. -/
theorem configNew_trailingBackslash_a :
    ∃ n : ℕ, Config.new (updateLocal (SortedMap.single "a" ("" ++ "\\"))) =
      .error ("Unexpected EOF at line: " ++ toString n) :=
  configNew_trailingBackslash (by decide) (by decide) (by decide)

end RoundTrip

end MailServer.Common.ConfigManager
