import Mathlib

/-! # The custom Base32 codec

`Base32Writer` packs bytes into 5-bit groups written as symbols of `BASE32_ALPHABET`:
the byte at position `pos` is cut at phase `pos % 5` of a 5-byte block, and the bits
left over from the byte before (`last_byte`) start the group it completes. `finalize`
flushes the bits of an unfinished block as one more group. `Base32Reader` reverses it:
the byte at phase `pos % 5` is built from the symbol before, the symbol read and, in
three phases, the symbol after, which it reads ahead (as `0` once the input is over).

Every 5-byte block is written as 8 symbols (`write_block`) and read back as the same 5
bytes (`readAll_block`); an unfinished block of 1 to 4 bytes is written as 2, 4, 5 or
7 symbols and read back whole, and the reader stops there (`readAll_encodeBlocks`).
-/

namespace MailServer.Utils.Base32Custom

/-- `BASE32_ALPHABET`. -/
def base32Alphabet : List UInt8 := "abcdefghijklmnopqrstuvwxyz792013".toList.map fun c => c.toUInt8

/-- `BASE32_INVERSE`: the value of each alphabet byte, `u8::MAX` for the others. -/
def base32Inverse : List UInt8 :=
  [255, 255, 255, 255, 255, 255, 255, 255, 255, 255, 255, 255, 255, 255, 255, 255, 255, 255, 255,
    255, 255, 255, 255, 255, 255, 255, 255, 255, 255, 255, 255, 255, 255, 255, 255, 255, 255, 255,
    255, 255, 255, 255, 255, 255, 255, 255, 255, 255, 29, 30, 28, 31, 255, 255, 255, 26, 255, 27,
    255, 255, 255, 255, 255, 255, 255, 255, 255, 255, 255, 255, 255, 255, 255, 255, 255, 10, 11,
    12, 13, 14, 15, 16, 17, 18, 19, 20, 21, 22, 23, 24, 25, 255, 255, 255, 255, 255, 255, 0, 1, 2,
    3, 4, 5, 6, 7, 8, 9, 10, 11, 12, 13, 14, 15, 16, 17, 18, 19, 20, 21, 22, 23, 24, 25, 255, 255,
    255, 255, 255, 255, 255, 255, 255, 255, 255, 255, 255, 255, 255, 255, 255, 255, 255, 255, 255,
    255, 255, 255, 255, 255, 255, 255, 255, 255, 255, 255, 255, 255, 255, 255, 255, 255, 255, 255,
    255, 255, 255, 255, 255, 255, 255, 255, 255, 255, 255, 255, 255, 255, 255, 255, 255, 255, 255,
    255, 255, 255, 255, 255, 255, 255, 255, 255, 255, 255, 255, 255, 255, 255, 255, 255, 255, 255,
    255, 255, 255, 255, 255, 255, 255, 255, 255, 255, 255, 255, 255, 255, 255, 255, 255, 255, 255,
    255, 255, 255, 255, 255, 255, 255, 255, 255, 255, 255, 255, 255, 255, 255, 255, 255, 255, 255,
    255, 255, 255, 255, 255, 255, 255, 255, 255, 255, 255, 255, 255, 255, 255, 255, 255]

/-- `BASE32_ALPHABET[ch as usize]`: every group is below 32 (`groups_lt`), so the default is
never read. -/
def symbol (ch : UInt8) : UInt8 := base32Alphabet.getD ch.toNat 0

/-- `BASE32_INVERSE[byte as usize]`, whose 256 entries cover every byte. -/
def inverse (byte : UInt8) : UInt8 := base32Inverse.getD byte.toNat 255

/-- The phase of a position within its 5-byte block. -/
def phase (pos : ℕ) : Fin 5 := ⟨pos % 5, Nat.mod_lt _ (by decide)⟩

/-! ## The writer -/

/-- `Base32Writer`; `result` holds the bytes of the string, one per symbol, since the
alphabet is ASCII. -/
structure Base32Writer where
  lastByte : UInt8
  pos : ℕ
  result : List UInt8
  deriving DecidableEq, Repr

/-- `Base32Writer::with_capacity`. -/
def Base32Writer.new : Base32Writer := ⟨0, 0, []⟩

/-- The two groups `push_byte` cuts at a phase from `byte` and the byte before it; a
second group of `u8::MAX` means that the phase completes one group only. -/
def groups (lastByte byte : UInt8) : Fin 5 → UInt8 × UInt8
  | 0 => ((byte &&& 0xF8) >>> 3, 0xFF)
  | 1 => (((lastByte &&& 0x07) <<< 2) ||| ((byte &&& 0xC0) >>> 6), (byte &&& 0x3E) >>> 1)
  | 2 => (((lastByte &&& 0x01) <<< 4) ||| ((byte &&& 0xF0) >>> 4), 0xFF)
  | 3 => (((lastByte &&& 0x0F) <<< 1) ||| (byte >>> 7), (byte &&& 0x7C) >>> 2)
  | 4 => (((lastByte &&& 0x03) <<< 3) ||| ((byte &&& 0xE0) >>> 5), byte &&& 0x1F)

/-- `Base32Writer::push_byte`: a remainder writes its first group only and moves nothing on. -/
def Base32Writer.pushByte (w : Base32Writer) (byte : UInt8) (isRemainder : Bool) : Base32Writer :=
  let (ch1, ch2) := groups w.lastByte byte (phase w.pos)
  let result := w.result ++ [symbol ch1]
  if isRemainder then { w with result }
  else ⟨byte, w.pos + 1, if ch2 ≠ 0xFF then result ++ [symbol ch2] else result⟩

/-- `Base32Writer::write`, which takes every byte. -/
def Base32Writer.write (w : Base32Writer) (bytes : List UInt8) : Base32Writer :=
  bytes.foldl (fun w byte => w.pushByte byte false) w

/-- `Base32Writer::finalize`. -/
def Base32Writer.finalize (w : Base32Writer) : List UInt8 :=
  if w.pos % 5 ≠ 0 then (w.pushByte 0 true).result else w.result

/-- `Base32Writer::from_bytes`. -/
def Base32Writer.fromBytes (bytes : List UInt8) : Base32Writer := Base32Writer.new.write bytes

/-! ## The reader -/

/-- `Base32Reader`: the bytes left in its iterator, the last symbol value and the number
of bytes it returned. -/
structure Base32Reader where
  bytes : List UInt8
  lastByte : UInt8
  pos : ℕ
  deriving DecidableEq, Repr

/-- `Base32Reader::new`. -/
def Base32Reader.new (bytes : List UInt8) : Base32Reader := ⟨bytes, 0, 0⟩

/-- `Base32Reader::map_byte`: the value of the next symbol, remembered as the last one; a
byte outside the alphabet is consumed and gives nothing. -/
def Base32Reader.mapByte (r : Base32Reader) : Option UInt8 × Base32Reader :=
  match r.bytes with
  | [] => (none, r)
  | byte :: rest =>
    let value := inverse byte
    if value ≠ 0xFF then (some value, { r with bytes := rest, lastByte := value })
    else (none, { r with bytes := rest })

/-- `Base32Reader::next`. -/
def Base32Reader.next (r : Base32Reader) : Option (UInt8 × Base32Reader) :=
  let pos := phase r.pos
  let lastByte := r.lastByte
  match r.mapByte with
  | (none, _) => none
  | (some byte, r) =>
    let r := { r with pos := r.pos + 1 }
    match pos with
    | 0 =>
      let (ahead, r) := r.mapByte
      some ((byte <<< 3) ||| ((ahead.getD 0) >>> 2), r)
    | 1 =>
      let (ahead, r) := r.mapByte
      some ((lastByte <<< 6) ||| (byte <<< 1) ||| ((ahead.getD 0) >>> 4), r)
    | 2 => some ((lastByte <<< 4) ||| (byte >>> 1), r)
    | 3 =>
      let (ahead, r) := r.mapByte
      some ((lastByte <<< 7) ||| (byte <<< 2) ||| ((ahead.getD 0) >>> 3), r)
    | 4 => some ((lastByte <<< 5) ||| byte, r)

theorem Base32Reader.length_mapByte_le (r : Base32Reader) :
    r.mapByte.2.bytes.length ≤ r.bytes.length := by
  unfold Base32Reader.mapByte
  split
  · exact le_refl _
  · rename_i byte rest h
    dsimp only
    split_ifs <;> simp [h]

theorem Base32Reader.length_mapByte_lt {r r' : Base32Reader} {value : UInt8}
    (h : r.mapByte = (some value, r')) : r'.bytes.length < r.bytes.length := by
  unfold Base32Reader.mapByte at h
  split at h
  · cases h
  · rename_i byte rest hr
    dsimp only at h
    split_ifs at h
    · cases h
      simp [hr]
    · cases h

theorem Base32Reader.length_next_lt {r r' : Base32Reader} {byte : UInt8}
    (h : r.next = some (byte, r')) : r'.bytes.length < r.bytes.length := by
  unfold Base32Reader.next at h
  split at h
  · cases h
  · rename_i value r₁ h₁
    have hlt := Base32Reader.length_mapByte_lt h₁
    dsimp only at h
    split at h <;> simp only [Option.some.injEq, Prod.mk.injEq] at h <;> obtain ⟨-, rfl⟩ := h
    all_goals first
      | exact hlt
      | exact lt_of_le_of_lt (Base32Reader.length_mapByte_le _) hlt

set_option linter.unusedVariables false in
/-- The bytes `for byte in reader` collects. -/
def Base32Reader.readAll (r : Base32Reader) : List UInt8 :=
  match h : r.next with
  | none => []
  | some (byte, r') => byte :: r'.readAll
termination_by r.bytes.length
decreasing_by exact Base32Reader.length_next_lt h

theorem Base32Reader.readAll_of_next {r r' : Base32Reader} {byte : UInt8}
    (h : r.next = some (byte, r')) : r.readAll = byte :: r'.readAll := by
  rw [Base32Reader.readAll, h]

theorem Base32Reader.readAll_of_next_none {r : Base32Reader} (h : r.next = none) :
    r.readAll = [] := by
  rw [Base32Reader.readAll, h]

/-! ## The alphabet and its inverse -/

theorem symbol_of_lt : ∀ k < 32, base32Alphabet[k]? = some (symbol (UInt8.ofNat k)) ∧
    inverse (symbol (UInt8.ofNat k)) = UInt8.ofNat k := by
  decide

theorem symbol_spec {c : UInt8} (hc : c < 32) :
    base32Alphabet[c.toNat]? = some (symbol c) ∧ inverse (symbol c) = c := by
  have hk : c.toNat < 32 := by simpa [UInt8.lt_iff_toNat_lt] using hc
  simpa using symbol_of_lt c.toNat hk

theorem lt_of_shiftRight_eq_zero {c : UInt8} (h : c >>> 5 = 0) : c < 32 := by
  have h' := congrArg UInt8.toNat h
  simp [Nat.shiftRight_eq_div_pow] at h'
  exact UInt8.lt_iff_toNat_lt.mpr h'

/-! ## The bits of a block -/

theorem groups_fst_lt (lastByte byte : UInt8) (k : Fin 5) : (groups lastByte byte k).1 < 32 := by
  apply lt_of_shiftRight_eq_zero
  apply UInt8.eq_of_toBitVec_eq
  fin_cases k <;>
    simp only [groups, UInt8.toBitVec_shiftRight, UInt8.toBitVec_or, UInt8.toBitVec_shiftLeft,
      UInt8.toBitVec_and] <;>
    ext i hi <;> interval_cases i <;> simp

theorem groups_snd_lt (lastByte byte : UInt8) {k : Fin 5} (hk : k = 1 ∨ k = 3 ∨ k = 4) :
    (groups lastByte byte k).2 < 32 := by
  apply lt_of_shiftRight_eq_zero
  apply UInt8.eq_of_toBitVec_eq
  rcases hk with rfl | rfl | rfl <;>
    simp only [groups, UInt8.toBitVec_shiftRight, UInt8.toBitVec_and] <;>
    ext i hi <;> interval_cases i <;> simp

section Phases

variable (lastByte b0 b1 b2 b3 b4 : UInt8)

/-! Each byte of a block is rebuilt from the groups that hold its bits. -/

theorem read_phase0 : ((groups lastByte b0 0).1 <<< 3) ||| ((groups b0 b1 1).1 >>> 2) = b0 := by
  apply UInt8.eq_of_toBitVec_eq
  simp only [groups, UInt8.toBitVec_shiftRight, UInt8.toBitVec_or, UInt8.toBitVec_shiftLeft,
    UInt8.toBitVec_and]
  ext i hi
  interval_cases i <;> simp

theorem read_phase1 :
    ((groups b0 b1 1).1 <<< 6) ||| ((groups b0 b1 1).2 <<< 1) ||| ((groups b1 b2 2).1 >>> 4) = b1 := by
  apply UInt8.eq_of_toBitVec_eq
  simp only [groups, UInt8.toBitVec_shiftRight, UInt8.toBitVec_or, UInt8.toBitVec_shiftLeft,
    UInt8.toBitVec_and]
  ext i hi
  interval_cases i <;> simp

theorem read_phase2 : ((groups b1 b2 2).1 <<< 4) ||| ((groups b2 b3 3).1 >>> 1) = b2 := by
  apply UInt8.eq_of_toBitVec_eq
  simp only [groups, UInt8.toBitVec_shiftRight, UInt8.toBitVec_or, UInt8.toBitVec_shiftLeft,
    UInt8.toBitVec_and]
  ext i hi
  interval_cases i <;> simp

theorem read_phase3 :
    ((groups b2 b3 3).1 <<< 7) ||| ((groups b2 b3 3).2 <<< 2) ||| ((groups b3 b4 4).1 >>> 3) = b3 := by
  apply UInt8.eq_of_toBitVec_eq
  simp only [groups, UInt8.toBitVec_shiftRight, UInt8.toBitVec_or, UInt8.toBitVec_shiftLeft,
    UInt8.toBitVec_and]
  ext i hi
  interval_cases i <;> simp

theorem read_phase4 : ((groups b3 b4 4).1 <<< 5) ||| (groups b3 b4 4).2 = b4 := by
  apply UInt8.eq_of_toBitVec_eq
  simp only [groups, UInt8.toBitVec_shiftRight, UInt8.toBitVec_or, UInt8.toBitVec_shiftLeft,
    UInt8.toBitVec_and]
  ext i hi
  interval_cases i <;> simp

end Phases

/-- The eight groups of a 5-byte block. -/
def blockGroups (b0 b1 b2 b3 b4 : UInt8) : List UInt8 :=
  [(groups 0 b0 0).1, (groups b0 b1 1).1, (groups b0 b1 1).2, (groups b1 b2 2).1,
    (groups b2 b3 3).1, (groups b2 b3 3).2, (groups b3 b4 4).1, (groups b3 b4 4).2]

theorem blockGroups_lt {b0 b1 b2 b3 b4 c : UInt8} (h : c ∈ blockGroups b0 b1 b2 b3 b4) : c < 32 := by
  simp only [blockGroups, List.mem_cons, List.not_mem_nil, or_false] at h
  rcases h with rfl | rfl | rfl | rfl | rfl | rfl | rfl | rfl
  all_goals first
    | exact groups_fst_lt _ _ _
    | exact groups_snd_lt _ _ (by decide)

/-- The symbols of the bytes block by block: an unfinished block is read as if padded
with zero bytes and cut after its last group that holds one of its bits. -/
def encodeBlocks : List UInt8 → List UInt8
  | b0 :: b1 :: b2 :: b3 :: b4 :: rest => (blockGroups b0 b1 b2 b3 b4).map symbol ++ encodeBlocks rest
  | [b0, b1, b2, b3] => ((blockGroups b0 b1 b2 b3 0).take 7).map symbol
  | [b0, b1, b2] => ((blockGroups b0 b1 b2 0 0).take 5).map symbol
  | [b0, b1] => ((blockGroups b0 b1 0 0 0).take 4).map symbol
  | [b0] => ((blockGroups b0 0 0 0 0).take 2).map symbol
  | [] => []

theorem mem_encodeBlocks {ch : UInt8} {bytes : List UInt8} (h : ch ∈ encodeBlocks bytes) :
    ∃ c < 32, ch = symbol c := by
  induction bytes using encodeBlocks.induct with
  | case1 b0 b1 b2 b3 b4 rest ih =>
    rw [encodeBlocks, List.mem_append, List.mem_map] at h
    rcases h with ⟨c, hc, rfl⟩ | h
    · exact ⟨c, blockGroups_lt hc, rfl⟩
    · exact ih h
  | case2 | case3 | case4 | case5 =>
    rw [encodeBlocks, List.mem_map] at h
    obtain ⟨c, hc, rfl⟩ := h
    exact ⟨c, blockGroups_lt (List.mem_of_mem_take hc), rfl⟩
  | case6 => simp [encodeBlocks] at h

/-! ## Writing -/

theorem Base32Writer.pushByte_false (w : Base32Writer) (byte : UInt8) :
    w.pushByte byte false = ⟨byte, w.pos + 1, w.result ++ [symbol (groups w.lastByte byte (phase w.pos)).1] ++
      if (groups w.lastByte byte (phase w.pos)).2 ≠ 0xFF
      then [symbol (groups w.lastByte byte (phase w.pos)).2] else []⟩ := by
  simp only [Base32Writer.pushByte, Bool.false_eq_true, if_false]
  split_ifs <;> simp

theorem groups_snd_ne {lastByte byte : UInt8} {k : Fin 5} (hk : k = 1 ∨ k = 3 ∨ k = 4) :
    (groups lastByte byte k).2 ≠ 0xFF := by
  have hlt := groups_snd_lt lastByte byte hk
  intro h
  rw [h] at hlt
  exact absurd hlt (by decide)

theorem groups_snd_zero (lastByte byte : UInt8) : (groups lastByte byte 0).2 = 0xFF := rfl

theorem groups_snd_two (lastByte byte : UInt8) : (groups lastByte byte 2).2 = 0xFF := rfl

theorem groups_zero (lastByte byte : UInt8) : groups lastByte byte 0 = groups 0 byte 0 := rfl

theorem Base32Writer.write_append (w : Base32Writer) (xs ys : List UInt8) :
    w.write (xs ++ ys) = (w.write xs).write ys :=
  List.foldl_append ..

theorem Base32Writer.write_block {w : Base32Writer} (hw : w.pos % 5 = 0) (b0 b1 b2 b3 b4 : UInt8) :
    w.write [b0, b1, b2, b3, b4] =
      ⟨b4, w.pos + 5, w.result ++ (blockGroups b0 b1 b2 b3 b4).map symbol⟩ := by
  have p0 : phase w.pos = 0 := Fin.ext (by simp [phase]; omega)
  have p1 : phase (w.pos + 1) = 1 := Fin.ext (by simp [phase]; omega)
  have p2 : phase (w.pos + 1 + 1) = 2 := Fin.ext (by simp [phase]; omega)
  have p3 : phase (w.pos + 1 + 1 + 1) = 3 := Fin.ext (by simp [phase]; omega)
  have p4 : phase (w.pos + 1 + 1 + 1 + 1) = 4 := Fin.ext (by simp [phase]; omega)
  simp only [Base32Writer.write, List.foldl_cons, List.foldl_nil, Base32Writer.pushByte_false,
    p0, p1, p2, p3, p4, groups_snd_zero, groups_snd_two, ne_eq, not_true_eq_false, if_false,
    groups_snd_ne (Or.inl rfl), groups_snd_ne (Or.inr (Or.inl rfl)), groups_snd_ne (Or.inr (Or.inr rfl)),
    not_false_eq_true, if_true, groups_zero w.lastByte]
  simp [blockGroups]

theorem Base32Writer.pushByte_true (w : Base32Writer) (byte : UInt8) :
    (w.pushByte byte true).result = w.result ++ [symbol (groups w.lastByte byte (phase w.pos)).1] := rfl

/-- From the start of a block, the writer's output is its result so far and the symbols of
the bytes written. -/
theorem Base32Writer.finalize_write {w : Base32Writer} (hw : w.pos % 5 = 0) (bytes : List UInt8) :
    (w.write bytes).finalize = w.result ++ encodeBlocks bytes := by
  induction bytes using encodeBlocks.induct generalizing w with
  | case1 b0 b1 b2 b3 b4 rest ih =>
    have hsplit : w.write (b0 :: b1 :: b2 :: b3 :: b4 :: rest) = (w.write [b0, b1, b2, b3, b4]).write rest :=
      Base32Writer.write_append w [b0, b1, b2, b3, b4] rest
    rw [hsplit, Base32Writer.write_block hw, ih (by simp only; omega), encodeBlocks, List.append_assoc]
  | case6 => simp [Base32Writer.finalize, Base32Writer.write, hw, encodeBlocks]
  | case2 | case3 | case4 | case5 =>
    have p0 : phase w.pos = 0 := Fin.ext (by simp [phase]; omega)
    have p1 : phase (w.pos + 1) = 1 := Fin.ext (by simp [phase]; omega)
    have p2 : phase (w.pos + 1 + 1) = 2 := Fin.ext (by simp [phase]; omega)
    have p3 : phase (w.pos + 1 + 1 + 1) = 3 := Fin.ext (by simp [phase]; omega)
    have p4 : phase (w.pos + 1 + 1 + 1 + 1) = 4 := Fin.ext (by simp [phase]; omega)
    simp only [Base32Writer.finalize, Base32Writer.write, List.foldl_cons, List.foldl_nil,
      Base32Writer.pushByte_false, Base32Writer.pushByte_true, p0, p1, p2, p3, p4, groups_snd_zero,
      groups_snd_two, ne_eq, not_true_eq_false, if_false, groups_snd_ne (Or.inl rfl),
      groups_snd_ne (Or.inr (Or.inl rfl)), not_false_eq_true, if_true, groups_zero w.lastByte]
    simp [encodeBlocks, blockGroups]
    omega

/-! ## Reading -/

theorem Base32Reader.mapByte_symbol {r : Base32Reader} {c : UInt8} (hc : c < 32) {rest : List UInt8}
    (h : r.bytes = symbol c :: rest) : r.mapByte = (some c, { r with bytes := rest, lastByte := c }) := by
  have hinv := (symbol_spec hc).2
  have hne : c ≠ 0xFF := by
    rintro rfl
    exact absurd hc (by decide)
  simp [Base32Reader.mapByte, h, hinv, hne]

theorem Base32Reader.mapByte_symbol_cons {c : UInt8} (hc : c < 32) (rest : List UInt8) (lastByte : UInt8)
    (pos : ℕ) : (⟨symbol c :: rest, lastByte, pos⟩ : Base32Reader).mapByte = (some c, ⟨rest, c, pos⟩) :=
  Base32Reader.mapByte_symbol hc rfl

theorem Base32Reader.next_nil {r : Base32Reader} (h : r.bytes = []) : r.next = none := by
  simp [Base32Reader.next, Base32Reader.mapByte, h]

section Next

variable {pos : ℕ} {a b lastByte : UInt8} (rest : List UInt8)

theorem Base32Reader.next_phase0 (hp : phase pos = 0) (ha : a < 32) (hb : b < 32) :
    (⟨symbol a :: symbol b :: rest, lastByte, pos⟩ : Base32Reader).next =
      some ((a <<< 3) ||| (b >>> 2), ⟨rest, b, pos + 1⟩) := by
  simp [Base32Reader.next, hp, Base32Reader.mapByte_symbol_cons ha, Base32Reader.mapByte_symbol_cons hb]

theorem Base32Reader.next_phase1 (hp : phase pos = 1) (ha : a < 32) (hb : b < 32) :
    (⟨symbol a :: symbol b :: rest, lastByte, pos⟩ : Base32Reader).next =
      some ((lastByte <<< 6) ||| (a <<< 1) ||| (b >>> 4), ⟨rest, b, pos + 1⟩) := by
  simp [Base32Reader.next, hp, Base32Reader.mapByte_symbol_cons ha, Base32Reader.mapByte_symbol_cons hb]

theorem Base32Reader.next_phase2 (hp : phase pos = 2) (ha : a < 32) :
    (⟨symbol a :: rest, lastByte, pos⟩ : Base32Reader).next =
      some ((lastByte <<< 4) ||| (a >>> 1), ⟨rest, a, pos + 1⟩) := by
  simp [Base32Reader.next, hp, Base32Reader.mapByte_symbol_cons ha]

theorem Base32Reader.next_phase3 (hp : phase pos = 3) (ha : a < 32) (hb : b < 32) :
    (⟨symbol a :: symbol b :: rest, lastByte, pos⟩ : Base32Reader).next =
      some ((lastByte <<< 7) ||| (a <<< 2) ||| (b >>> 3), ⟨rest, b, pos + 1⟩) := by
  simp [Base32Reader.next, hp, Base32Reader.mapByte_symbol_cons ha, Base32Reader.mapByte_symbol_cons hb]

theorem Base32Reader.next_phase4 (hp : phase pos = 4) (ha : a < 32) :
    (⟨symbol a :: rest, lastByte, pos⟩ : Base32Reader).next =
      some ((lastByte <<< 5) ||| a, ⟨rest, a, pos + 1⟩) := by
  simp [Base32Reader.next, hp, Base32Reader.mapByte_symbol_cons ha]

end Next

theorem phase_block {pos : ℕ} (h : pos % 5 = 0) :
    phase pos = 0 ∧ phase (pos + 1) = 1 ∧ phase (pos + 1 + 1) = 2 ∧ phase (pos + 1 + 1 + 1) = 3 ∧
      phase (pos + 1 + 1 + 1 + 1) = 4 :=
  ⟨Fin.ext (by simp [phase]; omega), Fin.ext (by simp [phase]; omega), Fin.ext (by simp [phase]; omega),
    Fin.ext (by simp [phase]; omega), Fin.ext (by simp [phase]; omega)⟩

theorem Base32Reader.readAll_block {pos : ℕ} (hpos : pos % 5 = 0) (lastByte b0 b1 b2 b3 b4 : UInt8)
    (rest : List UInt8) :
    (⟨(blockGroups b0 b1 b2 b3 b4).map symbol ++ rest, lastByte, pos⟩ : Base32Reader).readAll =
      [b0, b1, b2, b3, b4] ++ (⟨rest, (groups b3 b4 4).2, pos + 1 + 1 + 1 + 1 + 1⟩ : Base32Reader).readAll := by
  obtain ⟨p0, p1, p2, p3, p4⟩ := phase_block hpos
  simp only [blockGroups, List.map_cons, List.map_nil, List.cons_append, List.nil_append]
  rw [Base32Reader.readAll_of_next (Base32Reader.next_phase0 _ p0 (groups_fst_lt 0 b0 0) (groups_fst_lt b0 b1 1)),
    read_phase0,
    Base32Reader.readAll_of_next (Base32Reader.next_phase1 _ p1 (groups_snd_lt b0 b1 (by decide))
      (groups_fst_lt b1 b2 2)),
    read_phase1,
    Base32Reader.readAll_of_next (Base32Reader.next_phase2 _ p2 (groups_fst_lt b2 b3 3)), read_phase2,
    Base32Reader.readAll_of_next (Base32Reader.next_phase3 _ p3 (groups_snd_lt b2 b3 (by decide))
      (groups_fst_lt b3 b4 4)),
    read_phase3,
    Base32Reader.readAll_of_next (Base32Reader.next_phase4 _ p4 (groups_snd_lt b3 b4 (by decide))),
    read_phase4]


/-- From the start of a block, the reader gives back the bytes whose symbols it reads, and
stops where they end. -/
theorem Base32Reader.readAll_encodeBlocks (bytes : List UInt8) {pos : ℕ} (hpos : pos % 5 = 0)
    (lastByte : UInt8) : (⟨encodeBlocks bytes, lastByte, pos⟩ : Base32Reader).readAll = bytes := by
  induction bytes using encodeBlocks.induct generalizing pos lastByte with
  | case1 b0 b1 b2 b3 b4 rest ih =>
    rw [encodeBlocks, Base32Reader.readAll_block hpos, ih (by omega)]
    rfl
  | case6 => exact Base32Reader.readAll_of_next_none (Base32Reader.next_nil rfl)
  | case2 | case3 | case4 | case5 =>
    obtain ⟨p0, p1, p2, p3, -⟩ := phase_block hpos
    simp only [encodeBlocks, blockGroups, List.take_succ_cons, List.take_zero, List.map_cons, List.map_nil]
    repeat rw [Base32Reader.readAll_of_next (Base32Reader.next_phase0 _ p0 (groups_fst_lt _ _ _)
      (groups_fst_lt _ _ _)), read_phase0]
    repeat rw [Base32Reader.readAll_of_next (Base32Reader.next_phase1 _ p1 (groups_snd_lt _ _ (by decide))
      (groups_fst_lt _ _ _)), read_phase1]
    repeat rw [Base32Reader.readAll_of_next (Base32Reader.next_phase2 _ p2 (groups_fst_lt _ _ _)), read_phase2]
    repeat rw [Base32Reader.readAll_of_next (Base32Reader.next_phase3 _ p3 (groups_snd_lt _ _ (by decide))
      (groups_fst_lt _ _ _)), read_phase3]
    rw [Base32Reader.readAll_of_next_none (Base32Reader.next_nil rfl)]

theorem fromBytes_finalize_roundtrip (bytes : List UInt8) :
    (Base32Reader.new (Base32Writer.fromBytes bytes).finalize).readAll = bytes ∧
      ∀ ch ∈ (Base32Writer.fromBytes bytes).finalize,
        ∃ k, base32Alphabet[k]? = some ch ∧ (inverse ch).toNat = k := by
  have hfin : (Base32Writer.fromBytes bytes).finalize = encodeBlocks bytes :=
    (Base32Writer.finalize_write (w := Base32Writer.new) rfl bytes).trans (List.nil_append _)
  rw [hfin]
  refine ⟨Base32Reader.readAll_encodeBlocks bytes rfl 0, fun ch hch => ?_⟩
  obtain ⟨c, hc, rfl⟩ := mem_encodeBlocks hch
  obtain ⟨hsym, hinv⟩ := symbol_spec hc
  exact ⟨c.toNat, hsym, by rw [hinv]⟩

end MailServer.Utils.Base32Custom
