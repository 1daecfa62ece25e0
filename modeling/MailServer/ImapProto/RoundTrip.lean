import MailServer.ImapProto.Parser

/-! # Reading back the uid sets the server writes

`serialize_sequence` writes sorted uids as runs `a:b` and single uids `a`, separated by
commas. Its bytes are the bytes of a list of items of the parser's grammar, one item per
run (`asBytes_serializeSequence`), so `parse_sequence_set` reads them back item by item;
the sequence it returns then holds exactly the uids written, both as `expand` lists them
and as `contains` tests them (`parseSequenceSet_serializeSequence`).
-/

namespace MailServer.ImapProto.RoundTrip

open MailServer.ImapProto.Expunge MailServer.ImapProto.Protocol MailServer.ImapProto.Parser

/-! ## The bytes of a string -/

/-- `str::as_bytes`: the UTF-8 encoding of a string. -/
def asBytes (s : String) : List UInt8 := s.toUTF8.data.toList

theorem asBytes_eq_flatMap (s : String) : asBytes s = s.toList.flatMap String.utf8EncodeChar := by
  rw [asBytes, String.toUTF8_eq_toByteArray, ← String.utf8Encode_toList, List.utf8Encode,
    List.toList_data_toByteArray]

theorem utf8EncodeChar_of_lt {c : Char} (h : c.toNat < 128) : String.utf8EncodeChar c = [c.toUInt8] := by
  have hval : c.val.toNat ≤ 0x7f := Nat.le_of_lt_succ h
  simp only [String.utf8EncodeChar, hval, if_true]
  rfl

theorem flatMap_utf8EncodeChar {cs : List Char} (h : ∀ c ∈ cs, c.toNat < 128) :
    cs.flatMap String.utf8EncodeChar = cs.map Char.toUInt8 := by
  induction cs with
  | nil => rfl
  | cons c cs ih =>
    rw [List.flatMap_cons, utf8EncodeChar_of_lt (h c List.mem_cons_self),
      ih (fun c' hc' => h c' (List.mem_cons_of_mem _ hc')), List.map_cons, List.singleton_append]

theorem flatMap_intercalate {α β : Type} (sep : List α) (xs : List (List α)) (g : α → List β) :
    (sep.intercalate xs).flatMap g = (sep.flatMap g).intercalate (xs.map (·.flatMap g)) := by
  induction xs with
  | nil => rfl
  | cons x xs ih =>
    cases xs with
    | nil => simp
    | cons y ys =>
      rw [List.intercalate_cons_cons, List.flatMap_append, List.flatMap_append, ih]
      simp only [List.map_cons]
      rw [List.intercalate_cons_cons]

/-! ## Decimal numbers -/

/-- The bytes of `id.to_string()`. -/
def decimal (n : UInt32) : List UInt8 := (Nat.toDigits 10 n.toNat).map Char.toUInt8

theorem toList_toString (n : UInt32) : (toString n).toList = Nat.toDigits 10 n.toNat := by
  show (toString n.toNat).toList = _
  simp only [Nat.toString_eq_repr, Nat.toList_repr]

theorem toNat_of_isDigit {c : Char} (h : c.isDigit = true) : 48 ≤ c.toNat ∧ c.toNat ≤ 57 := by
  simp only [Char.isDigit, Bool.and_eq_true, decide_eq_true_eq] at h
  exact ⟨h.1, h.2⟩

theorem toNat_toUInt8_of_lt {c : Char} (h : c.toNat < 256) : c.toUInt8.toNat = c.toNat := by
  rw [← Char.toUInt8_val, UInt32.toNat_toUInt8, ← Char.toNat_val]
  exact Nat.mod_eq_of_lt h

theorem isDigit_of_mem_toDigits {m : ℕ} {c : Char} (h : c ∈ Nat.toDigits 10 m) : c.isDigit = true :=
  Nat.isDigit_of_mem_toDigits (by decide) (by decide) h

theorem flatMap_toDigits (m : ℕ) :
    (Nat.toDigits 10 m).flatMap String.utf8EncodeChar = (Nat.toDigits 10 m).map Char.toUInt8 := by
  apply flatMap_utf8EncodeChar
  intro c hc
  have := toNat_of_isDigit (isDigit_of_mem_toDigits hc)
  omega

theorem isAsciiDigit_toUInt8 {c : Char} (h : c.isDigit = true) : isAsciiDigit c.toUInt8 = true := by
  have hc := toNat_of_isDigit h
  have hb := toNat_toUInt8_of_lt (c := c) (by omega)
  simp only [isAsciiDigit, Bool.and_eq_true, decide_eq_true_eq, UInt8.le_iff_toNat_le, hb,
    UInt8.reduceToNat]
  omega

theorem foldl_map_toUInt8 {cs : List Char} (h : ∀ c ∈ cs, c.isDigit = true) (value : ℕ) :
    (cs.map Char.toUInt8).foldl (fun value d => 10 * value + (d.toNat - 48)) value =
      Nat.ofDigitChars 10 cs value := by
  induction cs generalizing value with
  | nil => rfl
  | cons c cs ih =>
    have hc := toNat_of_isDigit (h c List.mem_cons_self)
    rw [List.map_cons, List.foldl_cons, Nat.ofDigitChars_cons, toNat_toUInt8_of_lt (by omega),
      ih (fun c' hc' => h c' (List.mem_cons_of_mem _ hc'))]
    rfl

theorem decimalValue_decimal (n : UInt32) : decimalValue (decimal n) = n.toNat := by
  rw [decimalValue, decimal, foldl_map_toUInt8 (fun c hc => isDigit_of_mem_toDigits hc),
    Nat.ofDigitChars_ten_toDigits]

theorem isNumber_decimal (n : UInt32) : IsNumber (decimal n) where
  ne_nil := by
    rw [decimal, ne_eq, List.map_eq_nil_iff]
    exact Nat.toDigits_ne_nil
  isDigit := by
    intro d hd
    obtain ⟨c, hc, rfl⟩ := List.mem_map.mp hd
    exact isAsciiDigit_toUInt8 (isDigit_of_mem_toDigits hc)
  lt := by
    rw [decimalValue_decimal]
    exact n.toNat_lt

theorem numberOf_decimal (n : UInt32) : numberOf (decimal n) = n := by
  rw [numberOf, decimalValue_decimal, UInt32.ofNat_toNat]

/-! ## One item per run -/

/-- The item `serialize_sequence` writes for a run: `a:b`, or `a` for a single uid. -/
def rangeItem (r : UInt32 × UInt32) : Item :=
  if r.2 ≠ r.1 then .range (some (decimal r.1)) (some (decimal r.2)) else .number (decimal r.1)

theorem rangeItem_wellFormed (r : UInt32 × UInt32) : (rangeItem r).WellFormed := by
  unfold rangeItem
  split_ifs
  · refine ⟨fun digits h => ?_, fun digits h => ?_⟩ <;> cases h <;> exact isNumber_decimal _
  · exact isNumber_decimal _

theorem rangeItem_sequence (r : UInt32 × UInt32) : (rangeItem r).sequence = ofRange r := by
  unfold rangeItem ofRange
  split_ifs <;> simp [Item.sequence, numberOf_decimal]

theorem flatMap_rangeText (r : UInt32 × UInt32) :
    (toString r.1 ++ if r.2 ≠ r.1 then ":" ++ toString r.2 else "").toList.flatMap String.utf8EncodeChar =
      (rangeItem r).bytes := by
  unfold rangeItem
  split_ifs
  · simp only [String.toList_append, toList_toString, List.flatMap_append, flatMap_toDigits]
    rfl
  · simp only [String.toList_append, toList_toString, List.flatMap_append, flatMap_toDigits]
    simp [Item.bytes, decimal]

theorem asBytes_serializeSequence (l : List UInt32) :
    asBytes (serializeSequence l) = itemsBytes ((sequenceRanges l).map rangeItem) := by
  rw [asBytes_eq_flatMap, serializeSequence, String.toList_intercalate, flatMap_intercalate, itemsBytes]
  simp only [List.map_map]
  congr 1
  exact List.map_congr_left fun r _ => flatMap_rangeText r

/-! ## What the runs denote -/

theorem sequenceRangesFrom_ne_nil (start rangeId : UInt32) (rest : List UInt32) :
    sequenceRangesFrom start rangeId rest ≠ [] := by
  induction rest generalizing start rangeId with
  | nil => simp [sequenceRangesFrom]
  | cons next rest ih =>
    rw [sequenceRangesFrom]
    split_ifs
    · exact ih start next
    · exact List.cons_ne_nil _ _

theorem mem_expand_itemsSequence {rs : List (UInt32 × UInt32)} (hrs : ∀ r ∈ rs, r.1 ≤ r.2)
    (value maxValue : UInt32) :
    value ∈ (itemsSequence (rs.map rangeItem)).expand maxValue ↔ ∃ r ∈ rs, r.1 ≤ value ∧ value ≤ r.2 := by
  match rs, hrs with
  | [], _ => simp [itemsSequence, Sequence.expand]
  | [r], hrs =>
    rw [List.map_singleton, itemsSequence, rangeItem_sequence, mem_expand_ofRange (hrs r List.mem_cons_self)]
    simp
  | r :: r' :: rs, hrs =>
    rw [itemsSequence.eq_2 _ (by simp), List.map_map,
      show Item.sequence ∘ rangeItem = ofRange from funext rangeItem_sequence]
    exact mem_expand_list_ofRange hrs value maxValue

theorem contains_itemsSequence {rs : List (UInt32 × UInt32)} (hrs : ∀ r ∈ rs, r.1 ≤ r.2)
    (value maxValue : UInt32) :
    (itemsSequence (rs.map rangeItem)).contains value maxValue = rs.any (fun r => r.1 ≤ value && value ≤ r.2) := by
  match rs, hrs with
  | [], _ => rfl
  | [r], hrs =>
    rw [List.map_singleton, itemsSequence, rangeItem_sequence, contains_ofRange (hrs r List.mem_cons_self)]
    simp
  | r :: r' :: rs, hrs =>
    rw [itemsSequence.eq_2 _ (by simp), List.map_map,
      show Item.sequence ∘ rangeItem = ofRange from funext rangeItem_sequence, Sequence.contains]
    exact containsAny_map_ofRange hrs value maxValue

theorem parseSequenceSet_serializeSequence {l : List UInt32} (hne : l ≠ []) (hsorted : l.Pairwise (· < ·))
    (maxValue : UInt32) :
    ∃ sequence, parseSequenceSet (asBytes (serializeSequence l)) = .ok sequence ∧
      sequence.expand maxValue = l.toFinset ∧ ∀ value, sequence.contains value maxValue = decide (value ∈ l) := by
  have hrs : ∀ r ∈ sequenceRanges l, r.1 ≤ r.2 := fun r hr => le_of_mem_sequenceRanges hsorted hr
  have hitems : (sequenceRanges l).map rangeItem ≠ [] := by
    obtain ⟨id, rest, rfl⟩ := List.exists_cons_of_ne_nil hne
    simp [sequenceRanges, sequenceRangesFrom_ne_nil id id rest]
  refine ⟨itemsSequence ((sequenceRanges l).map rangeItem), ?_, ?_, fun value => ?_⟩
  · rw [asBytes_serializeSequence]
    exact parseSequenceSet_itemsBytes hitems (fun item hitem => by
      obtain ⟨r, -, rfl⟩ := List.mem_map.mp hitem
      exact rangeItem_wellFormed r)
  · ext value
    rw [mem_expand_itemsSequence hrs, List.mem_toFinset, ← any_sequenceRanges hsorted value]
    simp
  · rw [contains_itemsSequence hrs, Bool.eq_iff_iff, any_sequenceRanges hsorted, decide_eq_true_iff]

theorem parseSequenceSet_serializeSequence_max :
    ([1, 2, 4294967295] : List UInt32) ≠ [] ∧ ([1, 2, 4294967295] : List UInt32).Pairwise (· < ·) ∧
      ∃ sequence, parseSequenceSet (asBytes (serializeSequence [1, 2, 4294967295])) = .ok sequence ∧
        sequence.expand 3 = ([1, 2, 4294967295] : List UInt32).toFinset ∧
        ∀ value, sequence.contains value 3 = decide (value ∈ ([1, 2, 4294967295] : List UInt32)) := by
  have hsorted : ([1, 2, 4294967295] : List UInt32).Pairwise (· < ·) := by decide
  exact ⟨List.cons_ne_nil _ _, hsorted, parseSequenceSet_serializeSequence (List.cons_ne_nil _ _) hsorted 3⟩

end MailServer.ImapProto.RoundTrip
