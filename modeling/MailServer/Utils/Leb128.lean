import Mathlib
import MailServer.Lib.Iter

/-! # The LEB128 codec of `utils::codec::leb128`

`to_leb128_bytes` writes seven bits a byte, lowest first, with the high bit set
on every byte but the last; `from_leb128_it` ORs the payloads back in at the
shifts of its integer type and fails when the input or the shifts run out. For
`u64` (and `usize`) the shifts are `0, 7, …, 63`, and every value is read back
from what was written, whatever bytes follow it.

The same holds at every type the macro is applied to, `u16`, `u32`, `u64` and
`usize`, for the three decoders and for `skip_leb128` (`leb128_roundtrip`), on a
model of the macro's code over the value as a natural number that the `u64`
functions above refine.
-/

namespace MailServer.Utils.Leb128

/-- `Leb128_::to_leb128_bytes` for `u64`. -/
def toLeb128Bytes (value : UInt64) : List UInt8 :=
  if value < 0x80 then [value.toUInt8]
  else ((value &&& 0x7f) ||| 0x80).toUInt8 :: toLeb128Bytes (value >>> 7)
termination_by value.toNat
decreasing_by
  have h := ‹¬value < 0x80›
  rw [UInt64.lt_iff_toNat_lt] at h
  rw [UInt64.toNat_shiftRight]
  simp only [UInt64.reduceToNat, Nat.reduceMod, Nat.shiftRight_eq_div_pow, Nat.reducePow] at h ⊢
  omega

/-- The shifts of `impl_unsigned_leb128!(u64, …)`, the same as `usize`'s. -/
def u64Shifts : List UInt64 := [0, 7, 14, 21, 28, 35, 42, 49, 56, 63]

/-- The loop of `Leb128_::from_leb128_it`: the shifts zipped with the bytes,
`result` the bits read so far. -/
def fromLeb128It : List UInt64 → UInt64 → List UInt8 → Option (UInt64 × List UInt8)
  | [], _, _ => none
  | _ :: _, _, [] => none
  | shift :: shifts, result, byte :: bytes =>
    if byte &&& 0x80 = 0 then some (result ||| (byte.toUInt64 <<< shift), bytes)
    else fromLeb128It shifts (result ||| ((byte &&& 0x7F).toUInt64 <<< shift)) bytes

/-- `Leb128Iterator::next_leb128` at `u64` or `usize`: the value and the bytes
after it. -/
def nextLeb128 (bytes : List UInt8) : Option (UInt64 × List UInt8) :=
  fromLeb128It u64Shifts 0 bytes

/-! ## The bytes written -/

theorem toNat_shiftRight_seven (v : UInt64) : (v >>> 7).toNat = v.toNat / 128 := by
  rw [UInt64.toNat_shiftRight]
  simp [Nat.shiftRight_eq_div_pow]

theorem toLeb128Bytes_of_lt {v : UInt64} (h : v.toNat < 128) :
    toLeb128Bytes v = [UInt8.ofNat v.toNat] := by
  rw [toLeb128Bytes, if_pos (UInt64.lt_iff_toNat_lt.mpr h)]
  rfl

theorem toLeb128Bytes_of_le {v : UInt64} (h : 128 ≤ v.toNat) :
    toLeb128Bytes v = UInt8.ofNat (v.toNat % 128 + 128) :: toLeb128Bytes (v >>> 7) := by
  rw [toLeb128Bytes, if_neg (fun hlt => by rw [UInt64.lt_iff_toNat_lt] at hlt; simp at hlt; omega)]
  congr 1
  apply UInt8.toNat_inj.mp
  have hlow : (v &&& 0x7f).toNat = v.toNat % 128 := by
    rw [UInt64.toNat_and, show (0x7f : UInt64).toNat = 2 ^ 7 - 1 from rfl,
      Nat.and_two_pow_sub_one_eq_mod]
  have hor : (v &&& 0x7f ||| 0x80).toNat = v.toNat % 128 + 128 := by
    rw [UInt64.toNat_or, hlow, show (0x80 : UInt64).toNat = 2 ^ 7 * 1 from rfl, Nat.or_comm,
      ← Nat.two_pow_add_eq_or_of_lt (by omega)]
    omega
  rw [UInt64.toNat_toUInt8, hor, UInt8.toNat_ofNat']

/-! ## One byte read back -/

theorem and_128_eq_zero_iff {n : ℕ} (h : n < 256) : n &&& 128 = 0 ↔ n < 128 := by
  rw [show (128 : ℕ) = 2 ^ 7 from rfl, Nat.and_two_pow]
  by_cases hn : n < 2 ^ 7
  · simp only [Nat.testBit_lt_two_pow hn, Bool.toNat_false, zero_mul, true_iff]
    exact hn
  · obtain ⟨m, rfl⟩ : ∃ m, n = 2 ^ 7 + m := ⟨n - 2 ^ 7, by omega⟩
    have hm : m < 2 ^ 7 := by omega
    rw [Nat.testBit_two_pow_add_eq, Nat.testBit_lt_two_pow hm]
    simp only [Bool.not_false, Bool.toNat_true, one_mul]
    omega

theorem and_0x80_eq_zero_iff (b : UInt8) : b &&& 0x80 = 0 ↔ b.toNat < 128 := by
  rw [← UInt8.toNat_inj, UInt8.toNat_and]
  exact and_128_eq_zero_iff b.toNat_lt

theorem toNat_and_0x7F (b : UInt8) : (b &&& 0x7F).toNat = b.toNat % 128 := by
  rw [UInt8.toNat_and, show (0x7F : UInt8).toNat = 2 ^ 7 - 1 from rfl,
    Nat.and_two_pow_sub_one_eq_mod]

/-- ORing a payload `p` in at shift `s` above the `s` low bits already read adds
`p * 2 ^ s`. -/
theorem toNat_or_shiftLeft {acc : UInt64} {p : ℕ} {s : ℕ} (hs : s < 64)
    (hacc : acc.toNat < 2 ^ s) (hp : p * 2 ^ s < 2 ^ 64) :
    (acc ||| UInt64.ofNat p <<< UInt64.ofNat s).toNat = acc.toNat + p * 2 ^ s := by
  have hp' : p < 2 ^ 64 := lt_of_le_of_lt (Nat.le_mul_of_pos_right p (Nat.two_pow_pos s)) hp
  rw [UInt64.toNat_or, UInt64.toNat_shiftLeft, UInt64.toNat_ofNat', UInt64.toNat_ofNat',
    Nat.mod_eq_of_lt hp', Nat.mod_eq_of_lt (show s < 2 ^ 64 by omega), Nat.mod_eq_of_lt hs,
    Nat.shiftLeft_eq, Nat.mod_eq_of_lt hp, Nat.or_comm, Nat.mul_comm,
    ← Nat.two_pow_add_eq_or_of_lt hacc]
  ring

theorem u64Shifts_drop (k : ℕ) (hk : k ≤ 9) :
    u64Shifts.drop k = UInt64.ofNat (7 * k) :: u64Shifts.drop (k + 1) := by
  interval_cases k <;> rfl

theorem last_byte {p : ℕ} (hp : p < 128) :
    UInt8.ofNat p &&& 0x80 = 0 ∧ (UInt8.ofNat p).toUInt64 = UInt64.ofNat p := by
  have hbyte : (UInt8.ofNat p).toNat = p := by
    rw [UInt8.toNat_ofNat', Nat.mod_eq_of_lt (by omega)]
  refine ⟨(and_0x80_eq_zero_iff _).mpr (by omega), ?_⟩
  apply UInt64.toNat_inj.mp
  rw [UInt8.toNat_toUInt64, hbyte, UInt64.toNat_ofNat', Nat.mod_eq_of_lt (by omega)]

theorem cont_byte {p : ℕ} (hp : p < 128) :
    UInt8.ofNat (p + 128) &&& 0x80 ≠ 0 ∧ (UInt8.ofNat (p + 128) &&& 0x7F).toUInt64 = UInt64.ofNat p := by
  have hbyte : (UInt8.ofNat (p + 128)).toNat = p + 128 := by
    rw [UInt8.toNat_ofNat', Nat.mod_eq_of_lt (by omega)]
  refine ⟨fun h => by rw [and_0x80_eq_zero_iff, hbyte] at h; omega, ?_⟩
  apply UInt64.toNat_inj.mp
  rw [UInt8.toNat_toUInt64, toNat_and_0x7F, hbyte, UInt64.toNat_ofNat']
  omega

theorem fromLeb128It_last {V k : ℕ} (hV : V < 2 ^ 64) (hk : k ≤ 9) (hw : V / 2 ^ (7 * k) < 128)
    {acc : UInt64} (hacc : acc.toNat = V % 2 ^ (7 * k)) (shifts : List UInt64) (rest : List UInt8) :
    fromLeb128It (UInt64.ofNat (7 * k) :: shifts) acc (UInt8.ofNat (V / 2 ^ (7 * k)) :: rest) =
      some (UInt64.ofNat V, rest) := by
  obtain ⟨hhigh, hpayload⟩ := last_byte hw
  have hfit : V / 2 ^ (7 * k) * 2 ^ (7 * k) < 2 ^ 64 :=
    lt_of_le_of_lt (Nat.div_mul_le_self V _) hV
  rw [fromLeb128It, if_pos hhigh, hpayload]
  congr 2
  apply UInt64.toNat_inj.mp
  rw [toNat_or_shiftLeft (by omega) (by rw [hacc]; exact Nat.mod_lt _ (Nat.two_pow_pos _)) hfit,
    hacc, UInt64.toNat_ofNat', Nat.mod_eq_of_lt hV]
  exact Nat.mod_add_div' V _

theorem fromLeb128It_cont {V k : ℕ} (hV : V < 2 ^ 64) (hk : k < 9) {acc : UInt64}
    (hacc : acc.toNat = V % 2 ^ (7 * k)) (shifts : List UInt64) (bytes : List UInt8) :
    fromLeb128It (UInt64.ofNat (7 * k) :: shifts) acc
        (UInt8.ofNat (V / 2 ^ (7 * k) % 128 + 128) :: bytes) =
      fromLeb128It shifts (UInt64.ofNat (V % 2 ^ (7 * (k + 1)))) bytes := by
  have h128 := Nat.mod_lt (V / 2 ^ (7 * k)) (show 128 > 0 by omega)
  obtain ⟨hhigh, hpayload⟩ := cont_byte h128
  have hpow : 2 ^ (7 * (k + 1)) = 2 ^ (7 * k) * 128 := by
    rw [show 7 * (k + 1) = 7 * k + 7 by ring, Nat.pow_add]
  have hfit : V / 2 ^ (7 * k) % 128 * 2 ^ (7 * k) < 2 ^ 64 := by
    have h56 : 2 ^ (7 * k) ≤ 2 ^ 56 := Nat.pow_le_pow_right (by omega) (by omega)
    calc V / 2 ^ (7 * k) % 128 * 2 ^ (7 * k) < 128 * 2 ^ 56 :=
          Nat.mul_lt_mul_of_lt_of_le h128 h56 (Nat.two_pow_pos _)
      _ < 2 ^ 64 := by norm_num
  rw [fromLeb128It, if_neg hhigh, hpayload]
  congr 1
  apply UInt64.toNat_inj.mp
  rw [toNat_or_shiftLeft (by omega) (by rw [hacc]; exact Nat.mod_lt _ (Nat.two_pow_pos _)) hfit,
    hacc, UInt64.toNat_ofNat', Nat.mod_eq_of_lt (lt_of_le_of_lt (Nat.mod_le V _) hV), hpow,
    Nat.mod_mul]
  ring

theorem toNat_ofNat_div {V : ℕ} (hV : V < 2 ^ 64) (d : ℕ) : (UInt64.ofNat (V / d)).toNat = V / d := by
  rw [UInt64.toNat_ofNat', Nat.mod_eq_of_lt (lt_of_le_of_lt (Nat.div_le_self _ _) hV)]

theorem toLeb128Bytes_last {V k : ℕ} (hV : V < 2 ^ 64) (hk : k ≤ 9) (hw : V / 2 ^ (7 * k) < 128)
    {acc : UInt64} (hacc : acc.toNat = V % 2 ^ (7 * k)) (rest : List UInt8) :
    fromLeb128It (u64Shifts.drop k) acc (toLeb128Bytes (UInt64.ofNat (V / 2 ^ (7 * k))) ++ rest) =
      some (UInt64.ofNat V, rest) := by
  rw [toLeb128Bytes_of_lt (by rw [toNat_ofNat_div hV]; exact hw), toNat_ofNat_div hV,
    u64Shifts_drop k hk, List.singleton_append]
  exact fromLeb128It_last hV hk hw hacc _ rest

/-- The loop invariant of `from_leb128_it` on what `to_leb128_bytes` wrote: after
`k` bytes the result holds the `7 * k` low bits of `V`, and the bytes left encode
the rest of `V`. -/
theorem fromLeb128It_toLeb128Bytes (V : ℕ) (hV : V < 2 ^ 64) (rest : List UInt8) :
    ∀ k ≤ 9, ∀ acc : UInt64, acc.toNat = V % 2 ^ (7 * k) →
      fromLeb128It (u64Shifts.drop k) acc
        (toLeb128Bytes (UInt64.ofNat (V / 2 ^ (7 * k))) ++ rest) = some (UInt64.ofNat V, rest) := by
  intro k
  induction h : 9 - k generalizing k with
  | zero =>
    intro hk acc hacc
    have hk9 : k = 9 := by omega
    subst hk9
    exact toLeb128Bytes_last hV hk (by rw [Nat.div_lt_iff_lt_mul (Nat.two_pow_pos _)]; omega) hacc rest
  | succ n ih =>
    intro hk acc hacc
    by_cases hw : V / 2 ^ (7 * k) < 128
    · exact toLeb128Bytes_last hV hk hw hacc rest
    · have hk9 : k < 9 := by
        by_contra hk9
        have hk9' : k = 9 := by omega
        subst hk9'
        exact hw (by rw [Nat.div_lt_iff_lt_mul (Nat.two_pow_pos _)]; omega)
      have htail : UInt64.ofNat (V / 2 ^ (7 * k)) >>> 7 = UInt64.ofNat (V / 2 ^ (7 * (k + 1))) := by
        apply UInt64.toNat_inj.mp
        rw [toNat_shiftRight_seven, toNat_ofNat_div hV, toNat_ofNat_div hV, Nat.div_div_eq_div_mul,
          show 7 * (k + 1) = 7 * k + 7 by ring, Nat.pow_add]
      rw [toLeb128Bytes_of_le (by rw [toNat_ofNat_div hV]; omega), toNat_ofNat_div hV,
        u64Shifts_drop k hk, List.cons_append, fromLeb128It_cont hV hk9 hacc, htail]
      apply ih (k + 1) (by omega) (by omega)
      rw [UInt64.toNat_ofNat', Nat.mod_eq_of_lt (lt_of_le_of_lt (Nat.mod_le V _) hV)]

/-- `next_leb128` reads back every `u64` that `to_leb128_bytes` wrote, and leaves
the bytes after it. -/
theorem nextLeb128_toLeb128Bytes (v : UInt64) (rest : List UInt8) :
    nextLeb128 (toLeb128Bytes v ++ rest) = some (v, rest) := by
  have h := fromLeb128It_toLeb128Bytes v.toNat v.toNat_lt rest 0 (by omega) 0 (by simp [Nat.mod_one])
  simpa [nextLeb128] using h

/-! ## Every unsigned type

`impl_unsigned_leb128!` gives `u16`, `u32`, `u64` and `usize` the same encoder and the same
three decoding loops, each with its own shift table and its own width, in which
`(byte as T) << shift` is taken. On the value as a natural number the encoder does not
depend on the type (`toLeb128Bytes_eq` for `u64`), and the three decoders are one loop that
keeps the value, the position and the bytes left.
-/

/-- The types `impl_unsigned_leb128!` is applied to, `u8` apart; `usize` on a 64-bit target. -/
inductive Unsigned where
  | u16
  | u32
  | u64
  | usize
  deriving DecidableEq, Repr

def Unsigned.bits : Unsigned → ℕ
  | .u16 => 16
  | .u32 => 32
  | .u64 => 64
  | .usize => 64

/-- The shift table of each `impl_unsigned_leb128!`. -/
def Unsigned.shifts : Unsigned → List ℕ
  | .u16 => [0, 7, 14]
  | .u32 => [0, 7, 14, 21, 28]
  | .u64 => [0, 7, 14, 21, 28, 35, 42, 49, 56, 63]
  | .usize => [0, 7, 14, 21, 28, 35, 42, 49, 56, 63]

/-- `to_leb128_bytes` at any unsigned type, on the value as a natural number. -/
def toLeb128BytesNat (value : ℕ) : List UInt8 :=
  if value < 0x80 then [UInt8.ofNat value]
  else UInt8.ofNat (value &&& 0x7f ||| 0x80) :: toLeb128BytesNat (value >>> 7)
termination_by value
decreasing_by
  rw [Nat.shiftRight_eq_div_pow]
  omega

/-- `(byte as T) << shift` in a type of `bits` bits. -/
def shiftIn (bits payload shift : ℕ) : ℕ := (payload <<< shift) % 2 ^ bits

/-- The loop of `from_leb128_bytes_pos`, `from_leb128_bytes` and `from_leb128_it`: the shifts
zipped with the bytes, `pos` the position of the byte; the value, the position after its
last byte, and the bytes after it. -/
def leb128Loop (bits : ℕ) : List ℕ → ℕ → ℕ → List UInt8 → Option (ℕ × ℕ × List UInt8)
  | [], _, _, _ => none
  | _ :: _, _, _, [] => none
  | shift :: shifts, result, pos, byte :: bytes =>
    if byte &&& 0x80 = 0 then some (result ||| shiftIn bits byte.toNat shift, pos + 1, bytes)
    else leb128Loop bits shifts (result ||| shiftIn bits (byte &&& 0x7F).toNat shift) (pos + 1) bytes

/-- `Leb128_::from_leb128_bytes_pos`. -/
def Unsigned.fromLeb128BytesPos (ty : Unsigned) (slice : List UInt8) : Option (ℕ × ℕ) :=
  (leb128Loop ty.bits ty.shifts 0 0 slice).map fun r => (r.1, r.2.1)

/-- `Leb128_::from_leb128_bytes`. -/
def Unsigned.fromLeb128Bytes (ty : Unsigned) (slice : List UInt8) : Option ℕ :=
  (leb128Loop ty.bits ty.shifts 0 0 slice).map fun r => r.1

/-- `Leb128_::from_leb128_it`, with what is left of the iterator. -/
def Unsigned.fromLeb128It (ty : Unsigned) (it : List UInt8) : Option (ℕ × List UInt8) :=
  (leb128Loop ty.bits ty.shifts 0 0 it).map fun r => (r.1, r.2.2)

/-- `Leb128Reader::skip_leb128`: the position after the first byte with the high bit clear. -/
def skipLeb128 : ℕ → List UInt8 → Option ℕ
  | _, [] => none
  | pos, byte :: bytes => if byte &&& 0x80 = 0 then some (pos + 1) else skipLeb128 (pos + 1) bytes

/-- `Leb128Iterator::skip_leb128`: what is left after the first byte with the high bit clear. -/
def skipLeb128It : List UInt8 → Option (List UInt8)
  | [] => none
  | byte :: bytes => if byte &&& 0x80 = 0 then some bytes else skipLeb128It bytes

theorem toLeb128BytesNat_of_lt {v : ℕ} (h : v < 128) : toLeb128BytesNat v = [UInt8.ofNat v] := by
  rw [toLeb128BytesNat, if_pos h]

theorem toLeb128BytesNat_of_le {v : ℕ} (h : 128 ≤ v) :
    toLeb128BytesNat v = UInt8.ofNat (v % 128 + 128) :: toLeb128BytesNat (v / 128) := by
  have hbyte : v &&& 0x7f ||| 0x80 = v % 128 + 128 := by
    rw [show (0x7f : ℕ) = 2 ^ 7 - 1 from rfl, Nat.and_two_pow_sub_one_eq_mod,
      show (0x80 : ℕ) = 2 ^ 7 * 1 from rfl, Nat.or_comm, ← Nat.two_pow_add_eq_or_of_lt (Nat.mod_lt _ (by omega))]
    omega
  rw [toLeb128BytesNat, if_neg (by omega), hbyte, Nat.shiftRight_eq_div_pow]

theorem toLeb128Bytes_eq (v : UInt64) : toLeb128Bytes v = toLeb128BytesNat v.toNat := by
  induction h : v.toNat using Nat.strong_induction_on generalizing v with
  | _ n ih =>
    by_cases hlt : n < 128
    · rw [toLeb128Bytes_of_lt (h ▸ hlt), toLeb128BytesNat_of_lt hlt, h]
    · rw [toLeb128Bytes_of_le (by omega), toLeb128BytesNat_of_le (by omega), h,
        ih (n / 128) (by omega) (v >>> 7) (by rw [toNat_shiftRight_seven, h])]

theorem length_toLeb128BytesNat_le : ∀ (m v : ℕ), 0 < m → v < 2 ^ (7 * m) → (toLeb128BytesNat v).length ≤ m
  | 0, _, hm, _ => absurd hm (lt_irrefl 0)
  | m + 1, v, _, hv => by
    by_cases hlt : v < 128
    · rw [toLeb128BytesNat_of_lt hlt, List.length_singleton]
      omega
    · have hpow : 2 ^ (7 * (m + 1)) = 2 ^ (7 * m) * 128 := by
        rw [show 7 * (m + 1) = 7 * m + 7 by ring, Nat.pow_add]
      have hm : 0 < m := by
        by_contra hm
        rw [show m = 0 by omega] at hv
        omega
      rw [toLeb128BytesNat_of_le (by omega), List.length_cons]
      have := length_toLeb128BytesNat_le m (v / 128) hm
        (by rw [Nat.div_lt_iff_lt_mul (by norm_num)]; omega)
      omega

theorem or_shiftIn {bits acc p s : ℕ} (hacc : acc < 2 ^ s) (hp : p * 2 ^ s < 2 ^ bits) :
    acc ||| shiftIn bits p s = acc + p * 2 ^ s := by
  rw [shiftIn, Nat.shiftLeft_eq, Nat.mod_eq_of_lt hp, Nat.or_comm, Nat.mul_comm,
    ← Nat.two_pow_add_eq_or_of_lt hacc]
  ring

theorem toNat_ofNat_of_lt_128 {p : ℕ} (hp : p < 128) : (UInt8.ofNat p).toNat = p := by
  rw [UInt8.toNat_ofNat', Nat.mod_eq_of_lt (by omega)]

theorem skipLeb128_toLeb128BytesNat (v : ℕ) (r : List UInt8) (pos : ℕ) :
    skipLeb128 pos (toLeb128BytesNat v ++ r) = some (pos + (toLeb128BytesNat v).length) := by
  induction v using Nat.strong_induction_on generalizing pos with
  | _ v ih =>
    by_cases hlt : v < 128
    · rw [toLeb128BytesNat_of_lt hlt, List.singleton_append, skipLeb128,
        if_pos ((and_0x80_eq_zero_iff _).mpr (by rw [toNat_ofNat_of_lt_128 hlt]; exact hlt))]
      rfl
    · have hbyte : (UInt8.ofNat (v % 128 + 128)).toNat = v % 128 + 128 := by
        rw [UInt8.toNat_ofNat', Nat.mod_eq_of_lt (by omega)]
      have hhigh : UInt8.ofNat (v % 128 + 128) &&& 0x80 ≠ 0 := fun h => by
        rw [and_0x80_eq_zero_iff, hbyte] at h
        omega
      rw [toLeb128BytesNat_of_le (by omega), List.cons_append, skipLeb128, if_neg hhigh,
        ih (v / 128) (by omega) (pos + 1), List.length_cons]
      congr 1
      omega

theorem skipLeb128It_toLeb128BytesNat (v : ℕ) (r : List UInt8) : skipLeb128It (toLeb128BytesNat v ++ r) = some r := by
  induction v using Nat.strong_induction_on with
  | _ v ih =>
    by_cases hlt : v < 128
    · rw [toLeb128BytesNat_of_lt hlt, List.singleton_append, skipLeb128It,
        if_pos ((and_0x80_eq_zero_iff _).mpr (by rw [toNat_ofNat_of_lt_128 hlt]; exact hlt))]
    · have hbyte : (UInt8.ofNat (v % 128 + 128)).toNat = v % 128 + 128 := by
        rw [UInt8.toNat_ofNat', Nat.mod_eq_of_lt (by omega)]
      have hhigh : UInt8.ofNat (v % 128 + 128) &&& 0x80 ≠ 0 := fun h => by
        rw [and_0x80_eq_zero_iff, hbyte] at h
        omega
      rw [toLeb128BytesNat_of_le (by omega), List.cons_append, skipLeb128It, if_neg hhigh, ih (v / 128) (by omega)]

section Loop

variable {bits : ℕ} {shifts : List ℕ}

/-- The loop invariant of the decoders on what the encoder wrote: after `k` bytes the result
holds the `7 k` low bits of `V`, and the bytes left encode the rest of `V`. -/
theorem leb128Loop_toLeb128BytesNat (hshifts : ∀ k < shifts.length, shifts.drop k = 7 * k :: shifts.drop (k + 1))
    (hbits : bits ≤ 7 * shifts.length) {V : ℕ} (hV : V < 2 ^ bits) (rest : List UInt8) :
    ∀ k < shifts.length, ∀ pos,
      leb128Loop bits (shifts.drop k) (V % 2 ^ (7 * k)) pos (toLeb128BytesNat (V / 2 ^ (7 * k)) ++ rest) =
        some (V, pos + (toLeb128BytesNat (V / 2 ^ (7 * k))).length, rest) := by
  intro k
  induction h : shifts.length - k generalizing k with
  | zero => omega
  | succ n ih =>
    intro hk pos
    have hpow : 2 ^ (7 * (k + 1)) = 2 ^ (7 * k) * 128 := by
      rw [show 7 * (k + 1) = 7 * k + 7 by ring, Nat.pow_add]
    have hacc : V % 2 ^ (7 * k) < 2 ^ (7 * k) := Nat.mod_lt _ (Nat.two_pow_pos _)
    by_cases hw : V / 2 ^ (7 * k) < 128
    · -- the last byte completes `V`
      have hfit : V / 2 ^ (7 * k) * 2 ^ (7 * k) < 2 ^ bits := lt_of_le_of_lt (Nat.div_mul_le_self V _) hV
      rw [toLeb128BytesNat_of_lt hw, hshifts k hk, List.singleton_append, leb128Loop,
        if_pos ((and_0x80_eq_zero_iff _).mpr (by rw [toNat_ofNat_of_lt_128 hw]; exact hw)),
        toNat_ofNat_of_lt_128 hw, or_shiftIn hacc hfit, Nat.mod_add_div' V, List.length_singleton]
    · -- a byte with the high bit set fills the next seven bits
      have hk' : k + 1 < shifts.length := by
        by_contra hk'
        have hlen : shifts.length = k + 1 := by omega
        have : V < 2 ^ (7 * (k + 1)) := lt_of_lt_of_le hV (Nat.pow_le_pow_right (by omega) (by omega))
        rw [hpow] at this
        exact hw (by rw [Nat.div_lt_iff_lt_mul (Nat.two_pow_pos _)]; omega)
      have h128 : V / 2 ^ (7 * k) % 128 < 128 := Nat.mod_lt _ (by omega)
      have hbyte : (UInt8.ofNat (V / 2 ^ (7 * k) % 128 + 128)).toNat = V / 2 ^ (7 * k) % 128 + 128 := by
        rw [UInt8.toNat_ofNat', Nat.mod_eq_of_lt (by omega)]
      have hhigh : UInt8.ofNat (V / 2 ^ (7 * k) % 128 + 128) &&& 0x80 ≠ 0 := fun h => by
        rw [and_0x80_eq_zero_iff, hbyte] at h
        omega
      have hfit : V / 2 ^ (7 * k) % 128 * 2 ^ (7 * k) < 2 ^ bits :=
        lt_of_le_of_lt (le_trans (Nat.mul_le_mul_right _ (Nat.mod_le _ _)) (Nat.div_mul_le_self V _)) hV
      have hlow : V % 2 ^ (7 * k) + V / 2 ^ (7 * k) % 128 * 2 ^ (7 * k) = V % 2 ^ (7 * (k + 1)) := by
        rw [hpow, Nat.mod_mul]
        ring
      have hnext : V / 2 ^ (7 * k) / 128 = V / 2 ^ (7 * (k + 1)) := by
        rw [Nat.div_div_eq_div_mul, hpow]
      rw [toLeb128BytesNat_of_le (by omega), List.cons_append, hshifts k hk, leb128Loop, if_neg hhigh,
        toNat_and_0x7F, hbyte, Nat.add_mod_right, Nat.mod_mod, or_shiftIn hacc hfit, hlow, hnext,
        ih (k + 1) (by omega) hk' (pos + 1), List.length_cons]
      congr 3
      omega

end Loop

theorem Unsigned.shifts_drop (ty : Unsigned) : ∀ k < ty.shifts.length, ty.shifts.drop k = 7 * k :: ty.shifts.drop (k + 1) := by
  intro k hk
  cases ty <;> simp only [Unsigned.shifts, List.length_cons, List.length_nil] at hk <;> interval_cases k <;> rfl

theorem Unsigned.bits_le (ty : Unsigned) : ty.bits ≤ 7 * ty.shifts.length ∧ ty.shifts.length = (ty.bits + 6) / 7 := by
  cases ty <;> decide

/-- Every unsigned value is read back by each decoder from what `to_leb128_bytes` wrote,
whatever bytes follow, with the length of its encoding, at most `⌈bits / 7⌉`; and
`skip_leb128` passes exactly those bytes. -/
theorem Unsigned.shifts_length_pos (ty : Unsigned) : 0 < ty.shifts.length := by
  cases ty <;> decide

theorem Unsigned.leb128Loop_encoded (ty : Unsigned) {v : ℕ} (hv : v < 2 ^ ty.bits) (r : List UInt8) :
    leb128Loop ty.bits ty.shifts 0 0 (toLeb128BytesNat v ++ r) = some (v, (toLeb128BytesNat v).length, r) := by
  have hloop := leb128Loop_toLeb128BytesNat ty.shifts_drop ty.bits_le.1 hv r 0 ty.shifts_length_pos 0
  simpa only [Nat.mul_zero, Nat.pow_zero, Nat.mod_one, Nat.div_one, List.drop_zero, Nat.zero_add] using hloop

theorem leb128_roundtrip (ty : Unsigned) {v : ℕ} (hv : v < 2 ^ ty.bits) (r : List UInt8) :
    (toLeb128BytesNat v).length ≤ (ty.bits + 6) / 7 ∧
    ty.fromLeb128BytesPos (toLeb128BytesNat v ++ r) = some (v, (toLeb128BytesNat v).length) ∧
    ty.fromLeb128Bytes (toLeb128BytesNat v ++ r) = some v ∧
    ty.fromLeb128It (toLeb128BytesNat v ++ r) = some (v, r) ∧
    skipLeb128 0 (toLeb128BytesNat v ++ r) = some (toLeb128BytesNat v).length ∧
    skipLeb128It (toLeb128BytesNat v ++ r) = some r := by
  obtain ⟨hbits, hcount⟩ := ty.bits_le
  have hpos := ty.shifts_length_pos
  have hloop := ty.leb128Loop_encoded hv r
  refine ⟨?_, by rw [Unsigned.fromLeb128BytesPos, hloop]; rfl, by rw [Unsigned.fromLeb128Bytes, hloop]; rfl,
    by rw [Unsigned.fromLeb128It, hloop]; rfl, by simpa using skipLeb128_toLeb128BytesNat v r 0, skipLeb128It_toLeb128BytesNat v r⟩
  rw [← hcount]
  exact length_toLeb128BytesNat_le _ v hpos (lt_of_lt_of_le hv (Nat.pow_le_pow_right (by omega) hbits))

theorem leb128_roundtrip_u16 :
    300 < 2 ^ Unsigned.u16.bits ∧
    ((toLeb128BytesNat 300).length ≤ (Unsigned.u16.bits + 6) / 7 ∧
    Unsigned.u16.fromLeb128BytesPos (toLeb128BytesNat 300 ++ [7]) = some (300, (toLeb128BytesNat 300).length) ∧
    Unsigned.u16.fromLeb128Bytes (toLeb128BytesNat 300 ++ [7]) = some 300 ∧
    Unsigned.u16.fromLeb128It (toLeb128BytesNat 300 ++ [7]) = some (300, [7]) ∧
    skipLeb128 0 (toLeb128BytesNat 300 ++ [7]) = some (toLeb128BytesNat 300).length ∧
    skipLeb128It (toLeb128BytesNat 300 ++ [7]) = some [7]) :=
  ⟨by decide, leb128_roundtrip .u16 (by decide) [7]⟩

/-! ## Reading from an iterator -/

open MailServer.Lib.Iter

/-- The loop of `Leb128_::from_leb128_it` over any iterator `next`: `$shifts.zip(it)` asks
the iterator for a byte only while a shift is left. The value, if one was read, and what
is left of the iterator. -/
def leb128LoopIter {σ : Type} (bits : ℕ) (next : σ → Option UInt8 × σ) :
    List ℕ → ℕ → σ → Option ℕ × σ
  | [], _, it => (none, it)
  | shift :: shifts, result, it =>
    match next it with
    | (none, it) => (none, it)
    | (some byte, it) =>
      if byte &&& 0x80 = 0 then (some (result ||| shiftIn bits byte.toNat shift), it)
      else leb128LoopIter bits next shifts (result ||| shiftIn bits (byte &&& 0x7F).toNat shift) it

/-- `Leb128Iterator::next_leb128` at the type `ty`. -/
def Unsigned.nextLeb128 {σ : Type} (ty : Unsigned) (next : σ → Option UInt8 × σ) (it : σ) : Option ℕ × σ :=
  leb128LoopIter ty.bits next ty.shifts 0 it

theorem leb128LoopIter_of_yields {σ : Type} {bits : ℕ} {next : σ → Option UInt8 × σ} {it it' : σ}
    {bs : List UInt8} (h : Yields next it bs it') :
    ∀ {shifts : List ℕ} {result pos v pos' : ℕ}, leb128Loop bits shifts result pos bs = some (v, pos', []) →
      leb128LoopIter bits next shifts result it = (some v, it') := by
  induction h with
  | nil s =>
    intro shifts result pos v pos' hl
    cases shifts <;> simp [leb128Loop] at hl
  | cons hs hrest ih =>
    intro shifts result pos v pos' hl
    cases shifts with
    | nil => simp [leb128Loop] at hl
    | cons shift shifts =>
      rw [leb128Loop] at hl
      rw [leb128LoopIter, hs]
      dsimp only
      split_ifs at hl ⊢ with hb
      · -- the last byte: nothing is left of `bs`, so the iterator stops where the trace ends
        simp only [Option.some.injEq, Prod.mk.injEq] at hl
        obtain ⟨rfl, -, rfl⟩ := hl
        rw [hrest.eq_of_nil]
      · exact ih hl

/-- `next_leb128` reads back a value of its type from an iterator that returns what
`to_leb128_bytes` wrote, and stops right after it. -/
theorem Unsigned.nextLeb128_of_yields (ty : Unsigned) {σ : Type} {next : σ → Option UInt8 × σ} {it it' : σ}
    {v : ℕ} (hv : v < 2 ^ ty.bits) (h : Yields next it (toLeb128BytesNat v) it') :
    ty.nextLeb128 next it = (some v, it') :=
  leb128LoopIter_of_yields h (by simpa using ty.leb128Loop_encoded hv [])

theorem Unsigned.nextLeb128_of_yields_append (ty : Unsigned) {σ : Type} {next : σ → Option UInt8 × σ}
    {it it' : σ} {v : ℕ} (hv : v < 2 ^ ty.bits) {more : List UInt8}
    (h : Yields next it (toLeb128BytesNat v ++ more) it') :
    ∃ it₁, ty.nextLeb128 next it = (some v, it₁) ∧ Yields next it₁ more it' := by
  obtain ⟨it₁, h₁, h₂⟩ := h.of_append
  exact ⟨it₁, ty.nextLeb128_of_yields hv h₁, h₂⟩

end MailServer.Utils.Leb128
