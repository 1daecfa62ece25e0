import MailServer.Utils.Base32Custom
import MailServer.JmapProto.Json
import MailServer.Lib.Machine

/-! # `Id`: the base-32 text of a JMAP id

`Id::as_string` writes the `u64` of an id in the alphabet of `base32_custom`, most
significant group first. When the top four bits are not all zero they are written as one
symbol, followed by the other sixty bits in twelve groups of five; otherwise the leading
zero bits are skipped in whole groups of five. Four bits are shifted out at the start and
a one is put in their place: it is the stop bit, and the loop ends when every group has
been shifted out above it. `Id::from_bytes` and `Id::parse` read the text back by shifting
the value of each symbol in.

The loop is followed with `loopState k x`, the value of `n` when the last `k` base-32
digits of `x` are left to write (`run_pushGroup`), and both readers with the value of a
list of digits (`foldlM_pushSymbol`, `parseFrom_digits`). `asString_digits` gives the digits
`as_string` writes for every id.
-/

namespace MailServer.JmapProto.Id

open MailServer.Utils.Base32Custom MailServer.JmapProto.Json MailServer.Lib.Machine

/-! ## The model -/

/-- One byte of `Id::from_bytes` and of `Id::parse`: its value shifted in, or `none` for a
byte outside the alphabet. -/
def pushSymbol (id : UInt64) (ch : UInt8) : Option UInt64 :=
  if inverse ch ≠ 255 then some (id <<< 5 ||| (inverse ch).toUInt64) else none

/-- `Id::from_bytes`, the id being its `u64`. -/
def fromBytes (bytes : List UInt8) : Option UInt64 := bytes.foldlM pushSymbol 0

/-- `u64::leading_zeros`. -/
def leadingZeros (n : UInt64) : ℕ := 64 - n.toNat.size

/-- `STOP_BIT` of `Id::as_string`. -/
def stopBit : UInt64 := (1 : UInt64) <<< 60

/-- One turn of the `while n != STOP_BIT` loop of `Id::as_string`: the symbol of the top
five bits, then a shift by five. -/
def pushGroup (st : UInt64 × List UInt8) : (UInt64 × List UInt8) ⊕ List UInt8 :=
  if st.1 = stopBit then .inr st.2
  else .inl (st.1 <<< 5, st.2 ++ [symbol (st.1 >>> 59).toUInt8])

/-- `Id::as_string` as bytes, its loop given `fuel` turns. -/
def asString (fuel : ℕ) (id : UInt64) : Option (List UInt8) :=
  if id = 0 then some [97]
  else
    let n := id <<< 4 ||| 1
    if id >>> 60 = 0 then run pushGroup fuel (n <<< UInt64.ofNat (leadingZeros n / 5 * 5), [])
    else run pushGroup fuel (n, [symbol (id >>> 60).toUInt8])

set_option linter.unusedVariables false in
/-- The loop of `JsonObjectParser for Id`, from the id read so far. -/
def parseFrom (id : UInt64) (p : Parser) : Except ValueError (UInt64 × Parser) :=
  match h : p.nextUnescaped with
  | .error e => .error (.notJson e)
  | .ok (none, q) => .ok (id, q)
  | .ok (some ch, q) =>
    match pushSymbol id ch with
    | some id' => parseFrom id' q
    | none => .error q.errorValue
termination_by p.iter.length
decreasing_by exact Parser.length_iter_nextUnescaped h

/-- `JsonObjectParser for Id`. -/
def idParse (p : Parser) : Except ValueError (UInt64 × Parser) := parseFrom 0 p

/-- `Parser::new(bytes).next_token::<Id>()` on a string. -/
def nextTokenId (bytes : List UInt8) : Option (Except ValueError UInt64) := nextTokenValue idParse bytes

/-! ## Base-32 digits -/

/-- The last `k` base-32 digits of `x`, most significant first. -/
def digits32 : ℕ → ℕ → List ℕ
  | 0, _ => []
  | k + 1, x => x / 32 ^ k % 32 :: digits32 k x

/-- The number a list of base-32 digits writes, most significant first, after `v`. -/
def digitsValue (ds : List ℕ) (v : ℕ) : ℕ := ds.foldl (fun v d => v * 32 + d) v

/-- The symbol of a digit. -/
def digitSymbol (d : ℕ) : UInt8 := symbol (UInt8.ofNat d)

theorem digits32_lt (k x : ℕ) : ∀ d ∈ digits32 k x, d < 32 := by
  induction k with
  | zero => simp [digits32]
  | succ k ih =>
    intro d hd
    rcases List.mem_cons.mp hd with rfl | hd
    · exact Nat.mod_lt _ (by norm_num)
    · exact ih d hd

theorem digitsValue_digits32 (k x v : ℕ) : digitsValue (digits32 k x) v = v * 32 ^ k + x % 32 ^ k := by
  induction k generalizing v with
  | zero => simp [digits32, digitsValue, Nat.mod_one]
  | succ k ih =>
    simp only [digitsValue, digits32, List.foldl_cons] at ih ⊢
    rw [ih, Nat.mod_pow_succ, pow_succ]
    ring

/-- Each symbol is in the alphabet, reads back as its digit and is a plain byte of a JSON
string; only the digit 0 is written `a`. -/
theorem digitSymbol_table : ∀ d < 32, digitSymbol d ∈ base32Alphabet ∧
    inverse (digitSymbol d) = UInt8.ofNat d ∧ digitSymbol d ≠ 34 ∧ digitSymbol d ≠ 92 ∧
    (digitSymbol d = 97 ↔ d = 0) := by
  decide

/-! ## The readers -/

theorem pushSymbol_digitSymbol (v : ℕ) {d : ℕ} (hd : d < 32) :
    pushSymbol (UInt64.ofNat v) (digitSymbol d) = some (UInt64.ofNat (v * 32 + d)) := by
  have hinv := (digitSymbol_table d hd).2.1
  have hne : UInt8.ofNat d ≠ 255 := by
    intro h
    have h' := congrArg UInt8.toNat h
    rw [UInt8.toNat_ofNat', Nat.mod_eq_of_lt (by omega)] at h'
    simp at h'
    omega
  rw [pushSymbol, hinv, if_pos hne, Option.some.injEq, ← UInt64.toNat_inj]
  have hd' : (UInt8.ofNat d).toUInt64.toNat = d := by
    rw [UInt8.toNat_toUInt64, UInt8.toNat_ofNat', Nat.mod_eq_of_lt (by omega)]
  have hshift : (UInt64.ofNat v <<< 5).toNat = 2 ^ 5 * (v % 2 ^ 59) := by
    rw [UInt64.toNat_shiftLeft, UInt64.toNat_ofNat', Nat.shiftLeft_eq]
    simp only [UInt64.reduceToNat, Nat.reduceMod]
    omega
  rw [UInt64.toNat_or, hshift, hd', ← Nat.two_pow_add_eq_or_of_lt (by omega), UInt64.toNat_ofNat']
  omega

theorem foldlM_pushSymbol (ds : List ℕ) (hds : ∀ d ∈ ds, d < 32) (v : ℕ) :
    (ds.map digitSymbol).foldlM pushSymbol (UInt64.ofNat v) = some (UInt64.ofNat (digitsValue ds v)) := by
  induction ds generalizing v with
  | nil => rfl
  | cons d ds ih =>
    have hd := hds d List.mem_cons_self
    rw [List.map_cons, List.foldlM_cons, pushSymbol_digitSymbol v hd, Option.bind_eq_bind,
      Option.bind_some, ih (fun d' hd' => hds d' (List.mem_cons_of_mem _ hd'))]
    rfl

theorem parseFrom_none {id : UInt64} {p q : Parser} (h : p.nextUnescaped = .ok (none, q)) :
    parseFrom id p = .ok (id, q) := by
  rw [parseFrom]
  split
  · rename_i heq
    rw [h] at heq
    cases heq
  · rename_i q' heq
    rw [h] at heq
    cases heq
    rfl
  · rename_i heq
    rw [h] at heq
    cases heq

theorem parseFrom_some {id id' : UInt64} {ch : UInt8} {p q : Parser}
    (h : p.nextUnescaped = .ok (some ch, q)) (hpush : pushSymbol id ch = some id') :
    parseFrom id p = parseFrom id' q := by
  rw [parseFrom]
  split
  · rename_i heq
    rw [h] at heq
    cases heq
  · rename_i heq
    rw [h] at heq
    cases heq
  · rename_i ch' q' heq
    rw [h] at heq
    cases heq
    simp only [hpush]

/-- `Id::parse` over the symbols of a list of digits and the closing quote gives the number
they write, and stops after the quote. -/
theorem parseFrom_digits {rest : List UInt8} (ds : List ℕ) (hds : ∀ d ∈ ds, d < 32) :
    ∀ (v : ℕ) (p : Parser), p.iter = ds.map digitSymbol ++ 34 :: rest →
      parseFrom (UInt64.ofNat v) p = .ok (UInt64.ofNat (digitsValue ds v),
        { p with iter := rest, pos := p.pos + ds.length + 1, isEof := true }) := by
  induction ds with
  | nil =>
    intro v p hp
    exact parseFrom_none (Parser.nextUnescaped_quote hp)
  | cons d ds ih =>
    intro v p hp
    have hd := hds d List.mem_cons_self
    obtain ⟨-, -, h34, h92, -⟩ := digitSymbol_table d hd
    have hnext := Parser.nextUnescaped_plain hp h34 h92
    rw [parseFrom_some hnext (pushSymbol_digitSymbol v hd),
      ih (fun d' hd' => hds d' (List.mem_cons_of_mem _ hd')) _ _ rfl]
    simp only [digitsValue, List.foldl_cons, List.length_cons]
    congr 3
    omega

theorem nextTokenId_digits (ds : List ℕ) (hds : ∀ d ∈ ds, d < 32) :
    nextTokenId (34 :: ds.map digitSymbol ++ [34]) = some (.ok (UInt64.ofNat (digitsValue ds 0))) := by
  have hparse := @parseFrom_digits [] ds hds 0
    { Parser.new (34 :: ds.map digitSymbol ++ [34]) with iter := ds.map digitSymbol ++ [34], pos := 1 } rfl
  exact nextTokenValue_of_parse hparse rfl

/-! ## The loop of `as_string` -/

/-- The value of `n` in the loop of `as_string` when the last `k` base-32 digits of `x` are
left to write: those digits at the top, then the stop bit. -/
def loopState (k x : ℕ) : ℕ := x % 32 ^ k * 2 ^ (64 - 5 * k) + 2 ^ (60 - 5 * k)

/-- One turn of the loop in units of `a`, on a state that holds the digit `q` above the
digits `r < P` and the stop bit `a`: the state fits in 64 bits, its top five bits are `q`,
shifting them out leaves `r` above the stop bit, and it is not the stop bit alone. -/
theorem loop_arith {a P r q : ℕ} (ha : 0 < a) (hr : r < P) (hq : q < 32) :
    (r + P * q) * (16 * a) + a < 512 * a * P ∧
    ((r + P * q) * (16 * a) + a) / (16 * a * P) = q ∧
    ((r + P * q) * (16 * a) + a) * 32 % (512 * a * P) = r * (512 * a) + 32 * a ∧
    (r + P * q) * (16 * a) + a ≠ 32 * a * P := by
  have hP : 0 < P := by omega
  have hlow : r * (16 * a) + a < 16 * a * P := by nlinarith
  have hsplit : (r + P * q) * (16 * a) + a = r * (16 * a) + a + q * (16 * a * P) := by ring
  have hhigh : q * (16 * a * P) ≤ 31 * (16 * a * P) := Nat.mul_le_mul_right _ (by omega)
  refine ⟨by rw [hsplit]; linarith, ?_, ?_, ?_⟩
  · rw [hsplit, Nat.add_mul_div_right _ _ (by positivity), Nat.div_eq_of_lt hlow, Nat.zero_add]
  · have hshift : (r * (16 * a) + a + q * (16 * a * P)) * 32 =
        r * (512 * a) + 32 * a + q * (512 * a * P) := by ring
    rw [hsplit, hshift, Nat.add_mul_mod_self_right, Nat.mod_eq_of_lt (by linarith)]
  · intro h
    have h' : a * (16 * (r + P * q) + 1) = a * (32 * P) := by linarith
    have := Nat.eq_of_mul_eq_mul_left ha h'
    omega

section Turn

variable {k : ℕ} (hk : k < 12)
include hk

/-- The unit of the state with `k + 1` digits left is `2 ^ (55 - 5k)`, and `2 ^ 55` is that
unit times `32 ^ k`. -/
theorem two_pow_fiftyFive : 2 ^ 55 = 2 ^ (55 - 5 * k) * 32 ^ k := by
  rw [show (32 : ℕ) = 2 ^ 5 by norm_num, ← pow_mul, ← pow_add]
  congr 1
  omega

theorem loopState_succ (x : ℕ) :
    loopState (k + 1) x = (x % 32 ^ k + 32 ^ k * (x / 32 ^ k % 32)) * (16 * 2 ^ (55 - 5 * k)) +
      2 ^ (55 - 5 * k) := by
  rw [loopState, Nat.mod_pow_succ, show 64 - 5 * (k + 1) = 4 + (55 - 5 * k) by omega,
    show 60 - 5 * (k + 1) = 55 - 5 * k by omega, pow_add]
  norm_num

theorem loopState_eq (x : ℕ) :
    loopState k x = x % 32 ^ k * (512 * 2 ^ (55 - 5 * k)) + 32 * 2 ^ (55 - 5 * k) := by
  rw [loopState, show 64 - 5 * k = 9 + (55 - 5 * k) by omega,
    show 60 - 5 * k = 5 + (55 - 5 * k) by omega, pow_add, pow_add]
  norm_num

theorem loopState_arith (x : ℕ) :
    loopState (k + 1) x < 2 ^ 64 ∧ loopState (k + 1) x / 2 ^ 59 = x / 32 ^ k % 32 ∧
    loopState (k + 1) x * 32 % 2 ^ 64 = loopState k x ∧ loopState (k + 1) x ≠ 2 ^ 60 := by
  have hunit := two_pow_fiftyFive hk
  have h59 : (2 : ℕ) ^ 59 = 16 * 2 ^ (55 - 5 * k) * 32 ^ k := by
    rw [mul_assoc, ← hunit]
    norm_num
  have h60 : (2 : ℕ) ^ 60 = 32 * 2 ^ (55 - 5 * k) * 32 ^ k := by
    rw [mul_assoc, ← hunit]
    norm_num
  have h64 : (2 : ℕ) ^ 64 = 512 * 2 ^ (55 - 5 * k) * 32 ^ k := by
    rw [mul_assoc, ← hunit]
    norm_num
  obtain ⟨hlt, hdiv, hmod, hne⟩ := loop_arith (a := 2 ^ (55 - 5 * k)) (by positivity)
    (Nat.mod_lt x (by positivity : 0 < 32 ^ k)) (Nat.mod_lt (x / 32 ^ k) (by norm_num))
  rw [loopState_succ hk, loopState_eq hk, h59, h60, h64]
  exact ⟨hlt, hdiv, hmod, hne⟩

end Turn

theorem toNat_ofNat_of_lt {n : ℕ} (h : n < 2 ^ 64) : (UInt64.ofNat n).toNat = n := by
  rw [UInt64.toNat_ofNat', Nat.mod_eq_of_lt h]

theorem pushGroup_loopState {k : ℕ} (hk : k < 12) (x : ℕ) (buf : List UInt8) :
    pushGroup (UInt64.ofNat (loopState (k + 1) x), buf) =
      .inl (UInt64.ofNat (loopState k x), buf ++ [digitSymbol (x / 32 ^ k % 32)]) := by
  obtain ⟨hlt, hdiv, hmod, hne⟩ := loopState_arith hk x
  have hn := toNat_ofNat_of_lt hlt
  have hstop : UInt64.ofNat (loopState (k + 1) x) ≠ stopBit := by
    rw [← UInt64.toNat_inj.ne, hn, show stopBit.toNat = 2 ^ 60 from rfl]
    exact hne
  have hsh : UInt64.ofNat (loopState (k + 1) x) <<< 5 = UInt64.ofNat (loopState k x) := by
    rw [← UInt64.toNat_inj, UInt64.toNat_shiftLeft, hn, UInt64.toNat_ofNat', ← hmod,
      Nat.shiftLeft_eq]
    simp
  have htop : (UInt64.ofNat (loopState (k + 1) x) >>> 59).toUInt8 = UInt8.ofNat (x / 32 ^ k % 32) := by
    rw [← UInt8.toNat_inj, UInt64.toNat_toUInt8, UInt64.toNat_shiftRight, hn, UInt8.toNat_ofNat']
    simp only [UInt64.reduceToNat, Nat.reduceMod]
    rw [Nat.shiftRight_eq_div_pow, hdiv]
  rw [pushGroup, if_neg hstop, hsh, htop]
  rfl

theorem run_pushGroup (k : ℕ) (hk : k ≤ 12) (x : ℕ) (buf : List UInt8) :
    run pushGroup (k + 1) (UInt64.ofNat (loopState k x), buf) =
      some (buf ++ (digits32 k x).map digitSymbol) := by
  induction k generalizing buf with
  | zero =>
    have hstop : pushGroup (UInt64.ofNat (loopState 0 x), buf) = .inr buf := by
      have h0 : UInt64.ofNat (loopState 0 x) = stopBit := by
        simp only [loopState, pow_zero, Nat.mod_one, Nat.zero_mul, Nat.zero_add]
        decide
      rw [pushGroup, if_pos h0]
    simp [run_of_inr hstop, digits32]
  | succ k ih =>
    rw [run_of_inl (pushGroup_loopState (by omega) x buf), ih (by omega)]
    simp [digits32]

/-! ## The start of the loop -/

theorem toNat_shiftLeft_four_or_one (n : UInt64) : (n <<< 4 ||| 1).toNat = 16 * (n.toNat % 2 ^ 60) + 1 := by
  have hshift : (n <<< 4).toNat = 2 ^ 4 * (n.toNat % 2 ^ 60) := by
    rw [UInt64.toNat_shiftLeft, Nat.shiftLeft_eq]
    simp only [UInt64.reduceToNat, Nat.reduceMod]
    omega
  rw [UInt64.toNat_or, hshift, UInt64.toNat_one, ← Nat.two_pow_add_eq_or_of_lt (by norm_num)]

theorem shiftRight_sixty_eq_zero_iff (n : UInt64) : n >>> 60 = 0 ↔ n.toNat < 2 ^ 60 := by
  rw [← UInt64.toNat_inj, UInt64.toNat_shiftRight, Nat.shiftRight_eq_div_pow]
  simp only [UInt64.reduceToNat, Nat.reduceMod]
  omega

/-- Skipping the leading zero bits of `16 * x + 1` in whole groups of five leaves the state
with `12 - z` digits of `x` left, the first of them not zero. -/
theorem skip_arith {x : ℕ} (hx : 0 < x) (hx' : x < 2 ^ 60) :
    (64 - (16 * x + 1).size) / 5 < 12 ∧
    (16 * x + 1) * 2 ^ (5 * ((64 - (16 * x + 1).size) / 5)) =
      loopState (12 - (64 - (16 * x + 1).size) / 5) x ∧
    x < 32 ^ (12 - (64 - (16 * x + 1).size) / 5) ∧
    x / 32 ^ (11 - (64 - (16 * x + 1).size) / 5) % 32 ≠ 0 := by
  set s := (16 * x + 1).size with hs
  set z := (64 - s) / 5 with hz
  have hsize : 16 * x + 1 < 2 ^ s := Nat.lt_size_self _
  have hs5 : 5 ≤ s := Nat.lt_size.mpr (by omega)
  have hs64 : s ≤ 64 := Nat.size_le.mpr (by omega)
  have htop : 2 ^ (s - 1) ≤ 16 * x + 1 := Nat.lt_size.mp (by omega)
  have hz12 : z < 12 := by omega
  set b := 2 ^ (55 - 5 * z) with hb
  have hb32 : 32 ^ (11 - z) = b := by
    rw [hb, show (32 : ℕ) = 2 ^ 5 by norm_num, ← pow_mul]
    congr 1
    omega
  have hupper : 2 ^ s ≤ 512 * b := by
    rw [hb, show (512 : ℕ) = 2 ^ 9 by norm_num, ← pow_add]
    exact Nat.pow_le_pow_right (by norm_num) (by omega)
  have hlower : 16 * b ≤ 2 ^ (s - 1) := by
    rw [hb, show (16 : ℕ) = 2 ^ 4 by norm_num, ← pow_add]
    exact Nat.pow_le_pow_right (by norm_num) (by omega)
  have hk : 12 - z = 11 - z + 1 := by omega
  have hxlt : x < 32 * b := by omega
  have hxge : b ≤ x := by omega
  refine ⟨hz12, ?_, ?_, ?_⟩
  · have hq : x / b < 32 := by
      rw [Nat.div_lt_iff_lt_mul (by positivity)]
      linarith
    rw [hk, loopState_succ (by omega), hb32, Nat.mod_eq_of_lt hq, Nat.mod_add_div,
      show 55 - 5 * (11 - z) = 5 * z by omega]
    ring
  · rw [hk, pow_succ, hb32]
    linarith
  · rw [hb32, Nat.mod_eq_of_lt (by rw [Nat.div_lt_iff_lt_mul (by positivity)]; linarith)]
    exact (Nat.div_pos hxge (by positivity)).ne'

/-! ## What `as_string` writes -/

theorem digitSymbol_zero : digitSymbol 0 = 97 := by decide

/-- The digits `as_string` writes: they write the id, the first is zero only for the id 0,
and thirteen turns of the loop are enough. -/
theorem asString_digits (n : UInt64) :
    ∃ ds, (∀ d ∈ ds, d < 32) ∧ (ds.head? = some 0 ↔ n = 0) ∧ digitsValue ds 0 = n.toNat ∧
      asString 13 n = some (ds.map digitSymbol) := by
  by_cases h0 : n = 0
  · refine ⟨[0], by simp, by simp [h0], by simp [digitsValue, h0], ?_⟩
    simp [asString, h0, digitSymbol_zero]
  have hN : 0 < n.toNat := by
    rw [Nat.pos_iff_ne_zero, Ne, ← UInt64.toNat_zero, UInt64.toNat_inj]
    exact h0
  have hstart := toNat_shiftLeft_four_or_one n
  by_cases htop : n >>> 60 = 0
  · -- the leading zero bits are skipped in whole groups of five
    have hlt := (shiftRight_sixty_eq_zero_iff n).mp htop
    rw [Nat.mod_eq_of_lt hlt] at hstart
    obtain ⟨hz, heq, hxlt, hfirst⟩ := skip_arith hN hlt
    set z := (64 - (16 * n.toNat + 1).size) / 5 with hzdef
    have hskip : (n <<< 4 ||| 1) <<< UInt64.ofNat (leadingZeros (n <<< 4 ||| 1) / 5 * 5) =
        UInt64.ofNat (loopState (12 - z) n.toNat) := by
      have hlz : leadingZeros (n <<< 4 ||| 1) / 5 * 5 = 5 * z := by
        rw [leadingZeros, hstart, hzdef]
        ring
      have hfit : loopState (12 - z) n.toNat < 2 ^ 64 := by
        rw [show 12 - z = 11 - z + 1 by omega]
        exact (loopState_arith (by omega) _).1
      rw [← UInt64.toNat_inj, UInt64.toNat_shiftLeft, hlz, hstart, toNat_ofNat_of_lt hfit,
        UInt64.toNat_ofNat', Nat.shiftLeft_eq, ← heq]
      rw [Nat.mod_eq_of_lt (by omega : 5 * z < 2 ^ 64), Nat.mod_eq_of_lt (by omega : 5 * z < 64),
        Nat.mod_eq_of_lt (heq ▸ hfit)]
    refine ⟨digits32 (12 - z) n.toNat, digits32_lt _ _, ?_, ?_, ?_⟩
    · rw [show 12 - z = 11 - z + 1 by omega, digits32]
      simp [hfirst, h0]
    · rw [digitsValue_digits32, Nat.mod_eq_of_lt hxlt]
      simp
    · have hrun := run_mono (run_pushGroup (12 - z) (by omega) n.toNat []) 13 (by omega)
      simp only [asString, h0, htop, if_false, if_true, hskip]
      simpa using hrun
  · -- the top four bits are one symbol, the other sixty bits twelve more
    have hge : 2 ^ 60 ≤ n.toNat := by
      by_contra hlt
      exact htop ((shiftRight_sixty_eq_zero_iff n).mpr (by omega))
    have hfour : n.toNat / 2 ^ 60 < 16 := by
      rw [Nat.div_lt_iff_lt_mul (by norm_num)]
      exact n.toNat_lt
    have hsym : symbol (n >>> 60).toUInt8 = digitSymbol (n.toNat / 2 ^ 60) := by
      rw [digitSymbol]
      congr 1
      rw [← UInt8.toNat_inj, UInt64.toNat_toUInt8, UInt64.toNat_shiftRight, UInt8.toNat_ofNat',
        Nat.shiftRight_eq_div_pow]
      simp
    have hinit : n <<< 4 ||| 1 = UInt64.ofNat (loopState 12 n.toNat) := by
      rw [← UInt64.toNat_inj, hstart, UInt64.toNat_ofNat', loopState]
      norm_num
      omega
    refine ⟨n.toNat / 2 ^ 60 :: digits32 12 n.toNat, ?_, ?_, ?_, ?_⟩
    · intro d hd
      rcases List.mem_cons.mp hd with rfl | hd
      · omega
      · exact digits32_lt _ _ d hd
    · simp only [List.head?_cons, Option.some.injEq, h0, iff_false]
      exact (Nat.div_pos hge (by norm_num)).ne'
    · rw [digitsValue, List.foldl_cons, ← digitsValue, digitsValue_digits32]
      have := Nat.div_add_mod n.toNat (2 ^ 60)
      norm_num at this ⊢
      omega
    · have hrun := run_pushGroup 12 le_rfl n.toNat [digitSymbol (n.toNat / 2 ^ 60)]
      simp only [asString, h0, htop, if_false, hinit, hsym]
      simpa using hrun

theorem asString_unique {n : UInt64} {fuel fuel' : ℕ} {s s' : List UInt8}
    (h : asString fuel n = some s) (h' : asString fuel' n = some s') : s = s' := by
  unfold asString at h h'
  by_cases h0 : n = 0
  · simp only [h0, if_true, Option.some.injEq] at h h'
    rw [← h, ← h']
  · by_cases htop : n >>> 60 = 0
    · simp only [h0, htop, if_false, if_true] at h h'
      exact run_unique h h'
    · simp only [h0, htop, if_false] at h h'
      exact run_unique h h'

/-! ## The round trip -/

/-- `as_string` returns for every id; its text reads back as the id through
`Id::from_bytes` and, quoted, through `next_token::<Id>`; it is made of symbols of the
alphabet; and it starts with `a` only for the id 0. -/
theorem asString_roundTrip (n : UInt64) :
    (∃ fuel s, asString fuel n = some s) ∧
    ∀ fuel s, asString fuel n = some s →
      fromBytes s = some n ∧ nextTokenId (34 :: s ++ [34]) = some (.ok n) ∧
      (∀ ch ∈ s, ch ∈ base32Alphabet) ∧ (s.head? = some 97 ↔ n = 0) := by
  obtain ⟨ds, hds, hhead, hvalue, hrun⟩ := asString_digits n
  refine ⟨⟨13, _, hrun⟩, ?_⟩
  intro fuel s hs
  obtain rfl := asString_unique hs hrun
  have hn : UInt64.ofNat (digitsValue ds 0) = n := by
    rw [hvalue, UInt64.ofNat_toNat]
  refine ⟨?_, ?_, ?_, ?_⟩
  · rw [fromBytes, ← hn, ← foldlM_pushSymbol ds hds 0]
    rfl
  · rw [nextTokenId_digits ds hds, hn]
  · intro ch hch
    obtain ⟨d, hd, rfl⟩ := List.mem_map.mp hch
    exact (digitSymbol_table d (hds d hd)).1
  · rw [← hhead]
    cases ds with
    | nil => simp
    | cons d ds =>
      simp only [List.map_cons, List.head?_cons, Option.some.injEq]
      exact (digitSymbol_table d (hds d List.mem_cons_self)).2.2.2.2

end MailServer.JmapProto.Id
