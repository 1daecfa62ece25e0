import MailServer.JmapProto.Base32
import Mathlib.Data.Vector.Defs

/-! # `BlobId` and its two encodings

`BlobId::serialize_as` writes a marker byte that packs the section's encoding (plus one, or
zero without a section) with the class flag, the 32 bytes of the hash, the class's fields
and the section's offsets; `serialize_into` writes these bytes as they are and `Display`
through the Base32 writer. `BlobId::from_iter` reads them back from any iterator of bytes:
a slice for `deserialize_from`, a `Base32Reader` for `from_base32`.

From an iterator that returns the bytes `serialize_as` wrote, `from_iter` returns the blob
id whenever its section encoding is below 15 (`fromIter_of_yields`), so both encodings read
back (`blobId_roundTrip`).
-/

namespace MailServer.JmapProto.Blob

open MailServer.Lib.Iter MailServer.Utils.Base32Custom MailServer.Utils.Leb128

/-- `BlobHash`: `[u8; BLOB_HASH_LEN]`. -/
abbrev BlobHash := List.Vector UInt8 32

/-- `BlobClass`. -/
inductive BlobClass where
  | reserved (accountId : UInt32) (expires : UInt64)
  | linked (accountId : UInt32) (collection : UInt8) (documentId : UInt32)
  deriving DecidableEq, Repr

/-- `BlobSection`; a `usize` is 64 bits wide. -/
structure BlobSection where
  offsetStart : UInt64
  size : UInt64
  encoding : UInt8
  deriving DecidableEq, Repr

/-- `BlobId`; its fields `class` and `section` are keywords here. -/
structure BlobId where
  hash : BlobHash
  blobClass : BlobClass
  blobSection : Option BlobSection
  deriving DecidableEq

/-- `B_LINKED`. -/
def bLinked : UInt8 := 0x10

/-- `B_RESERVED`. -/
def bReserved : UInt8 := 0x20

/-! ## Writing -/

/-- The marker byte of `serialize_as`. -/
def BlobId.marker (b : BlobId) : UInt8 :=
  (b.blobSection.map fun s => s.encoding + 1).getD 0 |||
    match b.blobClass with
    | .linked .. => bLinked
    | .reserved .. => bReserved

/-- The bytes `serialize_as` writes, in the order of its `write` calls. -/
def BlobId.serializeAs (b : BlobId) : List UInt8 :=
  [b.marker] ++ b.hash.toList ++
    (match b.blobClass with
     | .reserved accountId expires => toLeb128BytesNat accountId.toNat ++ toLeb128BytesNat expires.toNat
     | .linked accountId collection documentId =>
       toLeb128BytesNat accountId.toNat ++ [collection] ++ toLeb128BytesNat documentId.toNat) ++
    match b.blobSection with
    | some s => toLeb128BytesNat s.offsetStart.toNat ++ toLeb128BytesNat s.size.toNat
    | none => []

/-- `SerializeInto for BlobId`: the bytes pushed onto the buffer. -/
def BlobId.serializeInto (b : BlobId) : List UInt8 := b.serializeAs

/-- `Display for BlobId`: the bytes through the Base32 writer. -/
def BlobId.display (b : BlobId) : List UInt8 := (Base32Writer.new.write b.serializeAs).finalize

/-! ## Reading -/

section Read

variable {σ : Type} (next : σ → Option UInt8 × σ)

/-- `for byte in hash.as_mut().iter_mut() { *byte = *it.next()?.borrow(); }` over `n` bytes. -/
def readHash : (n : ℕ) → σ → Option (List.Vector UInt8 n) × σ
  | 0 => fun s => (some List.Vector.nil, s)
  | n + 1 => andThen next fun byte => andThen (readHash n) fun bytes s => (some (byte ::ᵥ bytes), s)

/-- The class fields of `from_iter`, after `account_id`: the marker's `B_LINKED` bit says
which class it is. -/
def readClass (marker : UInt8) (accountId : ℕ) : σ → Option BlobClass × σ :=
  if marker &&& bLinked ≠ 0 then
    andThen next fun collection =>
    andThen (Unsigned.u32.nextLeb128 next) fun documentId s =>
      (some (.linked (UInt32.ofNat accountId) collection (UInt32.ofNat documentId)), s)
  else
    andThen (Unsigned.u64.nextLeb128 next) fun expires s =>
      (some (.reserved (UInt32.ofNat accountId) (UInt64.ofNat expires)), s)

/-- The section of `from_iter`: present when the marker's encoding is not zero, with that
encoding minus one. -/
def readSection (encoding : UInt8) : σ → Option (Option BlobSection) × σ :=
  if encoding ≠ 0 then
    andThen (Unsigned.usize.nextLeb128 next) fun offsetStart =>
    andThen (Unsigned.usize.nextLeb128 next) fun size s =>
      (some (some ⟨UInt64.ofNat offsetStart, UInt64.ofNat size, encoding - 1⟩), s)
  else fun s => (some none, s)

/-- `BlobId::from_iter`, with the iterator it leaves. -/
def BlobId.fromIter : σ → Option BlobId × σ :=
  andThen next fun marker =>
  andThen (readHash next 32) fun hash =>
  andThen (Unsigned.u32.nextLeb128 next) fun accountId =>
  andThen (readClass next marker accountId) fun cls =>
  andThen (readSection next (marker &&& 0x0F)) fun sec s =>
    (some ⟨hash, cls, sec⟩, s)

end Read

/-- `DeserializeFrom for BlobId`: `from_iter` over a slice. -/
def BlobId.deserializeFrom (bytes : List UInt8) : Option BlobId := (BlobId.fromIter listNext bytes).1

/-- `BlobId::from_base32`: `from_iter` over a `Base32Reader`. -/
def BlobId.fromBase32 (value : List UInt8) : Option BlobId :=
  (BlobId.fromIter (Base32Iter.next listNext) ⟨value, 0, 0⟩).1

/-! ## Reading back what was written -/

/-- The account id both classes start with. -/
def BlobClass.accountId : BlobClass → UInt32
  | .reserved accountId _ | .linked accountId _ _ => accountId

/-- What `serialize_as` writes of a class after its account id. -/
def BlobClass.fieldBytes : BlobClass → List UInt8
  | .reserved _ expires => toLeb128BytesNat expires.toNat
  | .linked _ collection documentId => collection :: toLeb128BytesNat documentId.toNat

/-- What `serialize_as` writes of a section. -/
def sectionBytes : Option BlobSection → List UInt8
  | some s => toLeb128BytesNat s.offsetStart.toNat ++ toLeb128BytesNat s.size.toNat
  | none => []

theorem BlobId.serializeAs_eq (b : BlobId) :
    b.serializeAs = b.marker :: (b.hash.toList ++ (toLeb128BytesNat b.blobClass.accountId.toNat ++
      (b.blobClass.fieldBytes ++ sectionBytes b.blobSection))) := by
  obtain ⟨hash, cls, sec⟩ := b
  cases cls <;> cases sec <;> simp [BlobId.serializeAs, BlobClass.accountId, BlobClass.fieldBytes, sectionBytes]

/-- The section encodings the marker can hold: below 15, the encoding plus one fits the
low four bits and leaves the class bits alone. -/
theorem encoding_bits : ∀ k < 15,
    ((UInt8.ofNat k + 1) ||| 0x10) &&& 0x0F = UInt8.ofNat k + 1 ∧
    ((UInt8.ofNat k + 1) ||| 0x20) &&& 0x0F = UInt8.ofNat k + 1 ∧
    ((UInt8.ofNat k + 1) ||| 0x10) &&& 0x10 ≠ 0 ∧ ((UInt8.ofNat k + 1) ||| 0x20) &&& 0x10 = 0 ∧
    UInt8.ofNat k + 1 ≠ 0 ∧ UInt8.ofNat k + 1 - 1 = UInt8.ofNat k := by
  decide

theorem encoding_bits_of_lt {e : UInt8} (he : e < 15) :
    ((e + 1) ||| 0x10) &&& 0x0F = e + 1 ∧ ((e + 1) ||| 0x20) &&& 0x0F = e + 1 ∧
    ((e + 1) ||| 0x10) &&& 0x10 ≠ 0 ∧ ((e + 1) ||| 0x20) &&& 0x10 = 0 ∧ e + 1 ≠ 0 ∧ e + 1 - 1 = e := by
  have hk : e.toNat < 15 := by simpa [UInt8.lt_iff_toNat_lt] using he
  simpa using encoding_bits e.toNat hk

/-- The marker of a blob id with a section encoding below 15: its low bits are the encoding
plus one, or zero without a section, and its `B_LINKED` bit is set for a linked blob only. -/
theorem marker_bits (b : BlobId) (hb : ∀ s ∈ b.blobSection, s.encoding < 15) :
    b.marker &&& 0x0F = (b.blobSection.map fun s => s.encoding + 1).getD 0 ∧
      (b.marker &&& bLinked ≠ 0 ↔ ∃ a c d, b.blobClass = .linked a c d) := by
  obtain ⟨hash, cls, sec⟩ := b
  cases sec with
  | none => cases cls <;> simp [BlobId.marker, bLinked, bReserved] <;> decide
  | some s =>
    obtain ⟨h1, h2, h3, h4, -⟩ := encoding_bits_of_lt (hb s rfl)
    cases cls <;> simp [BlobId.marker, bLinked, bReserved, h1, h2, h3, h4]

section Yields

variable {σ : Type} {next : σ → Option UInt8 × σ}

theorem readHash_of_yields {n : ℕ} (v : List.Vector UInt8 n) :
    ∀ {s s' : σ}, Yields next s v.toList s' → readHash next n s = (some v, s') := by
  induction n with
  | zero =>
    intro s s' h
    rw [List.Vector.eq_nil v] at h ⊢
    rw [h.eq_of_nil]
    rfl
  | succ n ih =>
    intro s s' h
    rw [← List.Vector.cons_head_tail v, List.Vector.toList_cons] at h
    obtain ⟨s₁, h₁, h⟩ := h.cons_inv
    rw [readHash, andThen_some h₁, andThen_some (ih v.tail h), List.Vector.cons_head_tail]

theorem readClass_of_yields (b : BlobId) (hb : ∀ s ∈ b.blobSection, s.encoding < 15) {s s' : σ}
    (h : Yields next s b.blobClass.fieldBytes s') :
    readClass next b.marker b.blobClass.accountId.toNat s = (some b.blobClass, s') := by
  have hlinked := (marker_bits b hb).2
  obtain ⟨hash, cls, sec⟩ := b
  cases cls with
  | reserved accountId expires =>
    have hbit : ¬ (BlobId.marker ⟨hash, .reserved accountId expires, sec⟩ &&& bLinked ≠ 0) := by
      rw [hlinked]
      simp
    rw [readClass, if_neg hbit, andThen_some (Unsigned.u64.nextLeb128_of_yields expires.toNat_lt h)]
    simp [BlobClass.accountId]
  | linked accountId collection documentId =>
    have hbit : BlobId.marker ⟨hash, .linked accountId collection documentId, sec⟩ &&& bLinked ≠ 0 :=
      hlinked.mpr ⟨_, _, _, rfl⟩
    obtain ⟨s₁, h₁, h⟩ := h.cons_inv
    rw [readClass, if_pos hbit, andThen_some h₁,
      andThen_some (Unsigned.u32.nextLeb128_of_yields documentId.toNat_lt h)]
    simp [BlobClass.accountId]

theorem readSection_of_yields (sec : Option BlobSection) (hb : ∀ s ∈ sec, s.encoding < 15) {s s' : σ}
    (h : Yields next s (sectionBytes sec) s') :
    readSection next ((sec.map fun t => t.encoding + 1).getD 0) s = (some sec, s') := by
  cases sec with
  | none =>
    rw [h.eq_of_nil]
    rfl
  | some t =>
    obtain ⟨-, -, -, -, hne, hsub⟩ := encoding_bits_of_lt (hb t rfl)
    obtain ⟨s₁, h₁, h⟩ := Unsigned.usize.nextLeb128_of_yields_append t.offsetStart.toNat_lt h
    simp only [Option.map_some, Option.getD_some]
    rw [readSection, if_pos hne, andThen_some h₁,
      andThen_some (Unsigned.usize.nextLeb128_of_yields t.size.toNat_lt h), hsub]
    simp

/-- From an iterator that returns the bytes `serialize_as` wrote, `from_iter` returns the
blob id, when its section encoding is below 15, and stops right after them. -/
theorem fromIter_of_yields (b : BlobId) (hb : ∀ s ∈ b.blobSection, s.encoding < 15) {s s' : σ}
    (h : Yields next s b.serializeAs s') : BlobId.fromIter next s = (some b, s') := by
  rw [BlobId.serializeAs_eq] at h
  obtain ⟨s₁, h₁, h⟩ := h.cons_inv
  obtain ⟨s₂, h₂, h⟩ := h.of_append
  obtain ⟨s₃, h₃, h⟩ := Unsigned.u32.nextLeb128_of_yields_append b.blobClass.accountId.toNat_lt h
  obtain ⟨s₄, h₄, h⟩ := h.of_append
  rw [BlobId.fromIter, andThen_some h₁, andThen_some (readHash_of_yields b.hash h₂), andThen_some h₃,
    andThen_some (readClass_of_yields b hb h₄), (marker_bits b hb).1,
    andThen_some (readSection_of_yields b.blobSection hb h)]

end Yields

/-- Both encodings of a blob id whose section encoding is below 15 read back as the blob
id: `deserialize_from` on the bytes of `serialize_into`, and `from_base32` on the text of
`Display`. -/
theorem blobId_roundTrip (b : BlobId) (hb : ∀ s ∈ b.blobSection, s.encoding < 15) :
    BlobId.deserializeFrom b.serializeInto = some b ∧ BlobId.fromBase32 b.display = some b := by
  constructor
  · have h := yields_listNext b.serializeAs []
    rw [List.append_nil] at h
    rw [BlobId.deserializeFrom, BlobId.serializeInto, fromIter_of_yields b hb h]
  · have hsyms := yields_listNext (encodeBlocks b.serializeAs) []
    rw [List.append_nil] at hsyms
    obtain ⟨lastByte, pos, hread⟩ :=
      Base32Iter.yields_encodeBlocks b.serializeAs (show 0 % 5 = 0 from rfl) 0 hsyms
    have htext : b.display = encodeBlocks b.serializeAs := Base32Writer.finalize_write rfl _
    rw [BlobId.fromBase32, htext, fromIter_of_yields b hb hread]

/-- A linked blob id with a section, read back from both encodings. -/
theorem blobId_roundTrip_linkedSection :
    BlobId.deserializeFrom (BlobId.serializeInto ⟨List.Vector.replicate 32 7, .linked 1000 2 300, some ⟨40000, 5, 14⟩⟩) =
        some ⟨List.Vector.replicate 32 7, .linked 1000 2 300, some ⟨40000, 5, 14⟩⟩ ∧
      BlobId.fromBase32 (BlobId.display ⟨List.Vector.replicate 32 7, .linked 1000 2 300, some ⟨40000, 5, 14⟩⟩) =
        some ⟨List.Vector.replicate 32 7, .linked 1000 2 300, some ⟨40000, 5, 14⟩⟩ :=
  blobId_roundTrip _ (by rintro s ⟨⟩; decide)

end MailServer.JmapProto.Blob
