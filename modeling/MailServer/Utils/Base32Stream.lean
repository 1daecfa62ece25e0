import MailServer.Utils.Base32Custom
import MailServer.Lib.Iter

/-! # The Base32 reader over any source of symbols

`Base32Reader` takes its symbols from a slice and `JsonBase32Reader` from a JSON string
through `Parser::next_unescaped`; the rest of the two readers is the same code. `Base32Iter σ`
is that code over the state `σ` of a source of symbol bytes `src`, an iterator whose `next`
is `src`. From the start of a block, a reader whose source returns the symbols of
`encodeBlocks bytes` returns `bytes` and leaves the source where those symbols end
(`Base32Iter.yields_encodeBlocks`), whatever the source.
-/

namespace MailServer.Utils.Base32Custom

open MailServer.Lib.Iter

/-- The fields of `Base32Reader` and `JsonBase32Reader`: what the symbols are read from
(`bytes`), the last symbol value and the number of bytes returned. -/
structure Base32Iter (σ : Type) where
  bytes : σ
  lastByte : UInt8
  pos : ℕ

variable {σ : Type} (src : σ → Option UInt8 × σ)

/-- `map_byte`: the value of the next symbol, remembered as the last one; a byte outside
the alphabet is consumed and gives nothing. -/
def Base32Iter.mapByte (r : Base32Iter σ) : Option UInt8 × Base32Iter σ :=
  match src r.bytes with
  | (some byte, bytes) =>
    let value := inverse byte
    if value ≠ 0xFF then (some value, { r with bytes, lastByte := value }) else (none, { r with bytes })
  | (none, bytes) => (none, { r with bytes })

/-- `Iterator::next`. -/
def Base32Iter.next (r : Base32Iter σ) : Option UInt8 × Base32Iter σ :=
  let pos := phase r.pos
  let lastByte := r.lastByte
  match r.mapByte src with
  | (none, r) => (none, r)
  | (some byte, r) =>
    let r := { r with pos := r.pos + 1 }
    match pos with
    | 0 =>
      let (ahead, r) := r.mapByte src
      (some ((byte <<< 3) ||| ((ahead.getD 0) >>> 2)), r)
    | 1 =>
      let (ahead, r) := r.mapByte src
      (some ((lastByte <<< 6) ||| (byte <<< 1) ||| ((ahead.getD 0) >>> 4)), r)
    | 2 => (some ((lastByte <<< 4) ||| (byte >>> 1)), r)
    | 3 =>
      let (ahead, r) := r.mapByte src
      (some ((lastByte <<< 7) ||| (byte <<< 2) ||| ((ahead.getD 0) >>> 3)), r)
    | 4 => (some ((lastByte <<< 5) ||| byte), r)

variable {src}

theorem Base32Iter.mapByte_symbol {c : UInt8} (hc : c < 32) {s s₁ : σ} (h : src s = (some (symbol c), s₁))
    (lastByte : UInt8) (pos : ℕ) :
    (⟨s, lastByte, pos⟩ : Base32Iter σ).mapByte src = (some c, ⟨s₁, c, pos⟩) := by
  have hinv := (symbol_spec hc).2
  have hne : c ≠ 0xFF := by
    rintro rfl
    exact absurd hc (by decide)
  simp [Base32Iter.mapByte, h, hinv, hne]

/-! ## The five phases of a block

Each phase reads the symbols that hold the rest of its byte and gives the byte back. -/

section Phases

variable {pos : ℕ} {lastByte b0 b1 b2 b3 b4 : UInt8} {s s₁ s₂ : σ}

theorem Base32Iter.next_phase0 (hp : phase pos = 0) (h₁ : src s = (some (symbol (groups lastByte b0 0).1), s₁))
    (h₂ : src s₁ = (some (symbol (groups b0 b1 1).1), s₂)) (last : UInt8) :
    (⟨s, last, pos⟩ : Base32Iter σ).next src = (some b0, ⟨s₂, (groups b0 b1 1).1, pos + 1⟩) := by
  simp [Base32Iter.next, hp, Base32Iter.mapByte_symbol (groups_fst_lt _ _ _) h₁,
    Base32Iter.mapByte_symbol (groups_fst_lt _ _ _) h₂, read_phase0]

theorem Base32Iter.next_phase1 (hp : phase pos = 1) (h₁ : src s = (some (symbol (groups b0 b1 1).2), s₁))
    (h₂ : src s₁ = (some (symbol (groups b1 b2 2).1), s₂)) :
    (⟨s, (groups b0 b1 1).1, pos⟩ : Base32Iter σ).next src = (some b1, ⟨s₂, (groups b1 b2 2).1, pos + 1⟩) := by
  simp [Base32Iter.next, hp, Base32Iter.mapByte_symbol (groups_snd_lt _ _ (by decide)) h₁,
    Base32Iter.mapByte_symbol (groups_fst_lt _ _ _) h₂, read_phase1]

theorem Base32Iter.next_phase2 (hp : phase pos = 2) (h₁ : src s = (some (symbol (groups b2 b3 3).1), s₁)) :
    (⟨s, (groups b1 b2 2).1, pos⟩ : Base32Iter σ).next src = (some b2, ⟨s₁, (groups b2 b3 3).1, pos + 1⟩) := by
  simp [Base32Iter.next, hp, Base32Iter.mapByte_symbol (groups_fst_lt _ _ _) h₁, read_phase2]

theorem Base32Iter.next_phase3 (hp : phase pos = 3) (h₁ : src s = (some (symbol (groups b2 b3 3).2), s₁))
    (h₂ : src s₁ = (some (symbol (groups b3 b4 4).1), s₂)) :
    (⟨s, (groups b2 b3 3).1, pos⟩ : Base32Iter σ).next src = (some b3, ⟨s₂, (groups b3 b4 4).1, pos + 1⟩) := by
  simp [Base32Iter.next, hp, Base32Iter.mapByte_symbol (groups_snd_lt _ _ (by decide)) h₁,
    Base32Iter.mapByte_symbol (groups_fst_lt _ _ _) h₂, read_phase3]

theorem Base32Iter.next_phase4 (hp : phase pos = 4) (h₁ : src s = (some (symbol (groups b3 b4 4).2), s₁)) :
    (⟨s, (groups b3 b4 4).1, pos⟩ : Base32Iter σ).next src = (some b4, ⟨s₁, (groups b3 b4 4).2, pos + 1⟩) := by
  simp [Base32Iter.next, hp, Base32Iter.mapByte_symbol (groups_snd_lt _ _ (by decide)) h₁, read_phase4]

end Phases

theorem Base32Iter.yields_block {pos : ℕ} (hpos : pos % 5 = 0) (lastByte b0 b1 b2 b3 b4 : UInt8) {s s' : σ}
    (h : Yields src s ((blockGroups b0 b1 b2 b3 b4).map symbol) s') :
    Yields (Base32Iter.next src) ⟨s, lastByte, pos⟩ [b0, b1, b2, b3, b4]
      ⟨s', (groups b3 b4 4).2, pos + 1 + 1 + 1 + 1 + 1⟩ := by
  obtain ⟨p0, p1, p2, p3, p4⟩ := phase_block hpos
  simp only [blockGroups, List.map_cons, List.map_nil] at h
  obtain ⟨s₁, h₁, h⟩ := h.cons_inv
  obtain ⟨s₂, h₂, h⟩ := h.cons_inv
  obtain ⟨s₃, h₃, h⟩ := h.cons_inv
  obtain ⟨s₄, h₄, h⟩ := h.cons_inv
  obtain ⟨s₅, h₅, h⟩ := h.cons_inv
  obtain ⟨s₆, h₆, h⟩ := h.cons_inv
  obtain ⟨s₇, h₇, h⟩ := h.cons_inv
  obtain ⟨s₈, h₈, h⟩ := h.cons_inv
  rw [h.eq_of_nil]
  exact .cons (Base32Iter.next_phase0 p0 h₁ h₂ lastByte) <| .cons (Base32Iter.next_phase1 p1 h₃ h₄) <|
    .cons (Base32Iter.next_phase2 p2 h₅) <| .cons (Base32Iter.next_phase3 p3 h₆ h₇) <|
    .cons (Base32Iter.next_phase4 p4 h₈) (.nil _)

/-- From the start of a block, a reader whose source returns the symbols of `bytes` returns
`bytes`, and leaves the source where the symbols end. -/
theorem Base32Iter.yields_encodeBlocks (bytes : List UInt8) {pos : ℕ} (hpos : pos % 5 = 0) (lastByte : UInt8)
    {s s' : σ} (h : Yields src s (encodeBlocks bytes) s') :
    ∃ lastByte' pos', Yields (Base32Iter.next src) ⟨s, lastByte, pos⟩ bytes ⟨s', lastByte', pos'⟩ := by
  induction bytes using encodeBlocks.induct generalizing s pos lastByte with
  | case1 b0 b1 b2 b3 b4 rest ih =>
    rw [encodeBlocks] at h
    obtain ⟨s₁, hblock, hrest⟩ := h.of_append
    have hpos' : (pos + 1 + 1 + 1 + 1 + 1) % 5 = 0 := by omega
    obtain ⟨lastByte', pos', hread⟩ := ih hpos' (groups b3 b4 4).2 hrest
    exact ⟨lastByte', pos', (Base32Iter.yields_block hpos lastByte b0 b1 b2 b3 b4 hblock).append hread⟩
  | case6 =>
    rw [h.eq_of_nil]
    exact ⟨lastByte, pos, .nil _⟩
  | case2 b0 b1 b2 b3 =>
    obtain ⟨p0, p1, p2, p3, -⟩ := phase_block hpos
    simp only [encodeBlocks, blockGroups, List.take_succ_cons, List.take_zero, List.map_cons,
      List.map_nil] at h
    obtain ⟨s₁, h₁, h⟩ := h.cons_inv
    obtain ⟨s₂, h₂, h⟩ := h.cons_inv
    obtain ⟨s₃, h₃, h⟩ := h.cons_inv
    obtain ⟨s₄, h₄, h⟩ := h.cons_inv
    obtain ⟨s₅, h₅, h⟩ := h.cons_inv
    obtain ⟨s₆, h₆, h⟩ := h.cons_inv
    obtain ⟨s₇, h₇, h⟩ := h.cons_inv
    rw [h.eq_of_nil]
    exact ⟨_, _, .cons (Base32Iter.next_phase0 p0 h₁ h₂ lastByte) <| .cons (Base32Iter.next_phase1 p1 h₃ h₄) <|
      .cons (Base32Iter.next_phase2 p2 h₅) <| .cons (Base32Iter.next_phase3 p3 h₆ h₇) (.nil _)⟩
  | case3 b0 b1 b2 =>
    obtain ⟨p0, p1, p2, -, -⟩ := phase_block hpos
    simp only [encodeBlocks, blockGroups, List.take_succ_cons, List.take_zero, List.map_cons,
      List.map_nil] at h
    obtain ⟨s₁, h₁, h⟩ := h.cons_inv
    obtain ⟨s₂, h₂, h⟩ := h.cons_inv
    obtain ⟨s₃, h₃, h⟩ := h.cons_inv
    obtain ⟨s₄, h₄, h⟩ := h.cons_inv
    obtain ⟨s₅, h₅, h⟩ := h.cons_inv
    rw [h.eq_of_nil]
    exact ⟨_, _, .cons (Base32Iter.next_phase0 p0 h₁ h₂ lastByte) <| .cons (Base32Iter.next_phase1 p1 h₃ h₄) <|
      .cons (Base32Iter.next_phase2 p2 h₅) (.nil _)⟩
  | case4 b0 b1 =>
    obtain ⟨p0, p1, -, -, -⟩ := phase_block hpos
    simp only [encodeBlocks, blockGroups, List.take_succ_cons, List.take_zero, List.map_cons,
      List.map_nil] at h
    obtain ⟨s₁, h₁, h⟩ := h.cons_inv
    obtain ⟨s₂, h₂, h⟩ := h.cons_inv
    obtain ⟨s₃, h₃, h⟩ := h.cons_inv
    obtain ⟨s₄, h₄, h⟩ := h.cons_inv
    rw [h.eq_of_nil]
    exact ⟨_, _, .cons (Base32Iter.next_phase0 p0 h₁ h₂ lastByte) <|
      .cons (Base32Iter.next_phase1 p1 h₃ h₄) (.nil _)⟩
  | case5 b0 =>
    obtain ⟨p0, -, -, -, -⟩ := phase_block hpos
    simp only [encodeBlocks, blockGroups, List.take_succ_cons, List.take_zero, List.map_cons,
      List.map_nil] at h
    obtain ⟨s₁, h₁, h⟩ := h.cons_inv
    obtain ⟨s₂, h₂, h⟩ := h.cons_inv
    rw [h.eq_of_nil]
    exact ⟨_, _, .cons (Base32Iter.next_phase0 p0 h₁ h₂ lastByte) (.nil _)⟩

end MailServer.Utils.Base32Custom
