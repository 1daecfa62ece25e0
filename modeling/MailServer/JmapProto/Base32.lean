import MailServer.JmapProto.Json
import MailServer.Utils.Base32Stream
import MailServer.Utils.Leb128

/-! # `JsonBase32Reader`: Base32 read from a JSON string

`JsonBase32Reader` takes its symbols through `Parser::next_unescaped`; the closing quote and
an error both give no symbol. On a string whose symbols hold no quote or backslash, the
parser returns them one by one and is left before the closing quote (`yields_unescapedSymbol`),
so the reader returns the bytes the symbols encode (`JsonBase32Reader.yields_encodeBlocks`),
and `next_leb128` reads the numbers those bytes hold.
-/

namespace MailServer.JmapProto.Base32

open MailServer.Lib.Iter MailServer.JmapProto.Json MailServer.Utils.Base32Custom

/-- `Parser::next_unescaped` as `map_byte` uses it: the byte read, nothing at the closing
quote or on an error, and the parser after the call either way. -/
def unescapedSymbol (p : Parser) : Option UInt8 × Parser :=
  match p.nextChar with
  | (some 34, q) => (none, { q with isEof := true })
  | (some 92, q) => q.nextChar
  | (some ch, q) => (some ch, q)
  | (none, q) => (none, q)

theorem unescapedSymbol_of_nextUnescaped {p q : Parser} {x : Option UInt8} (h : p.nextUnescaped = .ok (x, q)) :
    unescapedSymbol p = (x, q) := by
  unfold Parser.nextUnescaped at h
  unfold unescapedSymbol
  rcases hc : p.nextChar with ⟨_ | ch, q'⟩
  · -- nothing read: `next_unescaped` stops there only at the end of the stream
    simp only [hc] at h ⊢
    split_ifs at h
    cases h
    rfl
  · by_cases h34 : ch = 34
    · -- the closing quote
      subst h34
      simp only [hc] at h ⊢
      cases h
      rfl
    · by_cases h92 : ch = 92
      · -- the byte after a backslash, which `next_unescaped` returns as it is
        subst h92
        simp only [hc] at h ⊢
        rcases hc' : q'.nextChar with ⟨_ | ch', r⟩ <;> simp only [hc', reduceCtorEq] at h ⊢
        cases h
        rfl
      · -- any other byte is itself
        simp only [hc] at h ⊢
        cases h
        rfl

/-- `JsonBase32Reader`. -/
abbrev JsonBase32Reader := Base32Iter Parser

/-- `JsonBase32Reader::new`. -/
def JsonBase32Reader.new (p : Parser) : JsonBase32Reader := ⟨p, 0, 0⟩

/-- `Iterator for JsonBase32Reader`. -/
def JsonBase32Reader.next (r : JsonBase32Reader) : Option UInt8 × JsonBase32Reader :=
  Base32Iter.next unescapedSymbol r

theorem yields_unescapedSymbol (syms : List UInt8) (hsyms : ∀ b ∈ syms, b ≠ 34 ∧ b ≠ 92) :
    ∀ (p : Parser) (rest : List UInt8), p.iter = syms ++ rest →
      Yields unescapedSymbol p syms { p with iter := rest, pos := p.pos + syms.length } := by
  induction syms with
  | nil =>
    intro p rest hp
    simp only [List.nil_append] at hp
    simp [← hp]
    exact .nil _
  | cons b syms ih =>
    intro p rest hp
    obtain ⟨h34, h92⟩ := hsyms b List.mem_cons_self
    have hstep := unescapedSymbol_of_nextUnescaped (Parser.nextUnescaped_plain hp h34 h92)
    have hrest := ih (fun b' hb' => hsyms b' (List.mem_cons_of_mem _ hb'))
      { p with iter := syms ++ rest, pos := p.pos + 1 } rest rfl
    refine .cons hstep ?_
    simpa [Nat.add_assoc, Nat.add_comm 1] using hrest

theorem symbol_ne_quote : ∀ c < 32, symbol (UInt8.ofNat c) ≠ 34 ∧ symbol (UInt8.ofNat c) ≠ 92 := by
  decide

theorem mem_encodeBlocks_ne {ch : UInt8} {bytes : List UInt8} (h : ch ∈ encodeBlocks bytes) :
    ch ≠ 34 ∧ ch ≠ 92 := by
  obtain ⟨c, hc, rfl⟩ := mem_encodeBlocks h
  have hk : c.toNat < 32 := by simpa [UInt8.lt_iff_toNat_lt] using hc
  simpa using symbol_ne_quote c.toNat hk

/-- A reader on a string that holds the symbols of `bytes` returns `bytes`, and leaves the
parser where the symbols end. -/
theorem JsonBase32Reader.yields_encodeBlocks (bytes : List UInt8) (p : Parser) (rest : List UInt8)
    (hp : p.iter = encodeBlocks bytes ++ rest) :
    ∃ lastByte pos, Yields JsonBase32Reader.next (JsonBase32Reader.new p) bytes
      ⟨{ p with iter := rest, pos := p.pos + (encodeBlocks bytes).length }, lastByte, pos⟩ :=
  Base32Iter.yields_encodeBlocks bytes rfl 0
    (yields_unescapedSymbol _ (fun _ hb => mem_encodeBlocks_ne hb) p rest hp)

end MailServer.JmapProto.Base32

namespace MailServer.Utils.Base32Custom

/-- `Base32Writer::push_char`: the character goes to the text as it is. -/
def Base32Writer.pushChar (w : Base32Writer) (ch : UInt8) : Base32Writer := { w with result := w.result ++ [ch] }

/-- `Leb128Writer::write_leb128` on a `Base32Writer`: `to_leb128_writer` writes the bytes of
the value one by one. -/
def Base32Writer.writeLeb128 (w : Base32Writer) (value : ℕ) : Base32Writer :=
  w.write (MailServer.Utils.Leb128.toLeb128BytesNat value)

theorem Base32Writer.writeLeb128_writeLeb128 (w : Base32Writer) (a b : ℕ) :
    (w.writeLeb128 a).writeLeb128 b =
      w.write (MailServer.Utils.Leb128.toLeb128BytesNat a ++ MailServer.Utils.Leb128.toLeb128BytesNat b) :=
  (Base32Writer.write_append w _ _).symm

/-- A character, then bytes written from the start of a block: the character and the
symbols of the bytes. -/
theorem Base32Writer.finalize_pushChar (ch : UInt8) (bytes : List UInt8) :
    ((Base32Writer.new.pushChar ch).write bytes).finalize = ch :: encodeBlocks bytes :=
  Base32Writer.finalize_write rfl bytes

end MailServer.Utils.Base32Custom
