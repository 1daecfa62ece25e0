import MailServer.JmapProto.Base32
import MailServer.Jmap.Changes

/-! # The text of a JMAP `State`

`Display for State` writes a tag character (`n`, `s` or `r`) as it is, then the state's
numbers as LEB128 through the Base32 writer; an intermediate state keeps `to_id - from_id`.
`JsonObjectParser for State` reads the tag with `next_unescaped` and the numbers through a
`JsonBase32Reader` on the same parser.

Every state the token can carry is read back from its quoted text
(`nextTokenState_display`). The text is the tag followed by the Base32 symbols of the bytes
of the byte-level model `State.toBytes` (`State.display_eq`).
-/

namespace MailServer.Jmap.Changes

open MailServer.Utils.Base32Custom MailServer.Utils.Leb128

/-- `Display for State`. -/
def State.display : State → List UInt8
  | .initial => (Base32Writer.new.pushChar 110).finalize
  | .exact changeId => ((Base32Writer.new.pushChar 115).writeLeb128 changeId.toNat).finalize
  | .intermediate fromId toId itemsSent =>
    ((((Base32Writer.new.pushChar 114).writeLeb128 fromId.toNat).writeLeb128 (toId - fromId).toNat).writeLeb128
      itemsSent).finalize

theorem State.display_eq (s : State) (hs : s.Valid) :
    s.display = (s.toBytes.headD 0) :: encodeBlocks s.toBytes.tail := by
  cases s with
  | initial => rfl
  | exact changeId =>
    rw [State.display, Base32Writer.writeLeb128, Base32Writer.finalize_pushChar, State.toBytes, toLeb128Bytes_eq]
    rfl
  | intermediate fromId toId itemsSent =>
    obtain ⟨-, -, hlt⟩ := hs
    have hitems : (UInt64.ofNat itemsSent).toNat = itemsSent := by
      rw [UInt64.toNat_ofNat', Nat.mod_eq_of_lt hlt]
    rw [State.display, Base32Writer.writeLeb128_writeLeb128, Base32Writer.writeLeb128,
      ← Base32Writer.write_append, Base32Writer.finalize_pushChar, State.toBytes, toLeb128Bytes_eq,
      toLeb128Bytes_eq, toLeb128Bytes_eq, hitems]
    simp only [List.headD_cons, List.tail_cons, List.append_assoc]

end MailServer.Jmap.Changes

namespace MailServer.JmapProto.State

open MailServer.Lib.Iter MailServer.JmapProto.Json MailServer.JmapProto.Base32
open MailServer.Utils.Base32Custom MailServer.Utils.Leb128 MailServer.Jmap.Changes

/-- `JsonObjectParser for State`: the three numbers of an intermediate state are all read
before any of them is looked at. -/
def stateParse (p : Parser) : Except ValueError (State × Parser) :=
  match p.nextUnescaped with
  | .error e => .error (.notJson e)
  | .ok (none, q) => .error q.errorValue
  | .ok (some tag, q) =>
    if tag = 110 then .ok (.initial, q)
    else if tag = 115 then
      match Unsigned.u64.nextLeb128 JsonBase32Reader.next (JsonBase32Reader.new q) with
      | (some changeId, r) => .ok (.exact (UInt64.ofNat changeId), r.bytes)
      | (none, r) => .error r.bytes.errorValue
    else if tag = 114 then
      let (fromId, r) := Unsigned.u64.nextLeb128 JsonBase32Reader.next (JsonBase32Reader.new q)
      let (toId, r) := Unsigned.u64.nextLeb128 JsonBase32Reader.next r
      let (itemsSent, r) := Unsigned.usize.nextLeb128 JsonBase32Reader.next r
      match fromId, toId, itemsSent with
      | some fromId, some toId, some itemsSent =>
        if 0 < itemsSent then
          .ok (.intermediate (UInt64.ofNat fromId) (saturatingAdd (UInt64.ofNat fromId) (UInt64.ofNat toId))
            itemsSent, r.bytes)
        else .error r.bytes.errorValue
      | _, _, _ => .error r.bytes.errorValue
    else .error q.errorValue

/-- `Parser::new(bytes).next_token::<State>()` on a string. -/
def nextTokenState (bytes : List UInt8) : Option (Except ValueError State) :=
  nextTokenValue stateParse bytes

/-! ## Reading it back -/

theorem nextUnescaped_tag {tag : UInt8} (htag : tag = 110 ∨ tag = 115 ∨ tag = 114) (bytes : List UInt8) :
    Parser.nextUnescaped { Parser.new (34 :: tag :: bytes) with iter := tag :: bytes, pos := 1 } =
      .ok (some tag, { Parser.new (34 :: tag :: bytes) with iter := bytes, pos := 2 }) :=
  Parser.nextUnescaped_plain rfl (by rcases htag with rfl | rfl | rfl <;> decide)
    (by rcases htag with rfl | rfl | rfl <;> decide)

/-- The reader on the symbols of `bytes` followed by the closing quote: it returns `bytes`
and leaves the parser before the quote. -/
theorem yields_symbols (tag : UInt8) (bytes : List UInt8) :
    ∃ r : JsonBase32Reader, r.bytes.iter = [34] ∧
      Yields JsonBase32Reader.next
        (JsonBase32Reader.new { Parser.new (34 :: tag :: (encodeBlocks bytes ++ [34])) with
          iter := encodeBlocks bytes ++ [34], pos := 2 }) bytes r := by
  obtain ⟨lastByte, pos, h⟩ := JsonBase32Reader.yields_encodeBlocks bytes
    { Parser.new (34 :: tag :: (encodeBlocks bytes ++ [34])) with iter := encodeBlocks bytes ++ [34], pos := 2 }
    [34] rfl
  exact ⟨_, rfl, h⟩

/-- Every state the token carries, `Initial`, `Exact` of any change id, or an intermediate
range in order with a positive count that fits a `usize`, is read back from its quoted
text. -/
theorem nextTokenState_display (s : State) (hs : s.Valid) :
    nextTokenState (34 :: s.display ++ [34]) = some (.ok s) := by
  rw [State.display_eq s hs, nextTokenState]
  cases s with
  | initial =>
    simp only [State.toBytes, List.headD_cons, List.tail_cons, List.cons_append]
    have hparse : stateParse { Parser.new (34 :: 110 :: (encodeBlocks [] ++ [34])) with
          iter := 110 :: (encodeBlocks [] ++ [34]), pos := 1 } =
        .ok (.initial, { Parser.new (34 :: 110 :: (encodeBlocks [] ++ [34])) with
          iter := encodeBlocks [] ++ [34], pos := 2 }) := by
      rw [stateParse, nextUnescaped_tag (.inl rfl) _]
      rfl
    exact nextTokenValue_of_parse_at_quote hparse rfl
  | exact changeId =>
    simp only [State.toBytes, List.headD_cons, List.tail_cons, List.cons_append]
    obtain ⟨r, hr, hy⟩ := yields_symbols 115 (toLeb128Bytes changeId)
    rw [toLeb128Bytes_eq] at hy
    have hread := Unsigned.u64.nextLeb128_of_yields changeId.toNat_lt hy
    refine nextTokenValue_of_parse_at_quote ?_ hr
    rw [stateParse, nextUnescaped_tag (.inr (.inl rfl)) _]
    simp only [toLeb128Bytes_eq, hread, UInt64.ofNat_toNat]
    rfl
  | intermediate fromId toId itemsSent =>
    obtain ⟨hle, hpos, hlt⟩ := hs
    have hitems : (UInt64.ofNat itemsSent).toNat = itemsSent := by
      rw [UInt64.toNat_ofNat', Nat.mod_eq_of_lt hlt]
    simp only [State.toBytes, List.headD_cons, List.tail_cons, List.cons_append]
    obtain ⟨r, hr, hy⟩ := yields_symbols 114
      (toLeb128Bytes fromId ++ toLeb128Bytes (toId - fromId) ++ toLeb128Bytes (UInt64.ofNat itemsSent))
    rw [toLeb128Bytes_eq, toLeb128Bytes_eq, toLeb128Bytes_eq, hitems, List.append_assoc] at hy
    obtain ⟨r₁, h₁, hy⟩ := Unsigned.u64.nextLeb128_of_yields_append fromId.toNat_lt hy
    obtain ⟨r₂, h₂, hy⟩ := Unsigned.u64.nextLeb128_of_yields_append (toId - fromId).toNat_lt hy
    have h₃ := Unsigned.usize.nextLeb128_of_yields (show itemsSent < 2 ^ 64 from hlt) hy
    refine nextTokenValue_of_parse_at_quote ?_ hr
    rw [stateParse, nextUnescaped_tag (.inr (.inr rfl)) _]
    simp only [toLeb128Bytes_eq, hitems, List.append_assoc, h₁, h₂, h₃, UInt64.ofNat_toNat,
      saturatingAdd_sub hle, if_pos hpos]
    rfl

/-- The intermediate state of the source's test, `(1024, 2048, 100)`. -/
theorem nextTokenState_display_intermediate :
    nextTokenState (34 :: (State.intermediate 1024 2048 100).display ++ [34]) =
      some (.ok (.intermediate 1024 2048 100)) :=
  nextTokenState_display _ ⟨by decide, by decide, by decide⟩

end MailServer.JmapProto.State
