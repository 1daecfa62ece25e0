import MailServer.Utils.ConfigParser

/-! # `IpAddrMask`: the networks of the allow and block lists

A network is read from configuration by `IpAddrMask::parse_value` as an address with a
prefix length (8 to 32 bits for IPv4, 8 to 128 for IPv6) or as a bare address, and stored
as the address and the mask of its prefix. `IpAddrMask::matches` tests a client address
against it. A full-length mask compares whole addresses, converting an IPv6 client with
`to_ipv4_mapped`; a shorter one compares the masked addresses, converting with `to_ipv4`,
which also reads the IPv4-compatible addresses `::a.b.c.d`, the loopback `::1` among
them.

IPv6 networks compare the client's IPv6 form at every length (`matches_v6`). IPv4
networks do not: `::1` is inside `0.0.0.1/31` but not inside `0.0.0.1/32`, so no one
reading of the client as an IPv4 address gives `matches` at every length
(`matches_v4_not_uniform`); `matches_v4` says which reading each length uses.

Addresses are the big-endian integers of their octets, which is what `matches` compares
(`u32::from_be_bytes(ip.octets())`). The text parser of `IpAddr` is the standard
library's and is a parameter here.
-/

namespace MailServer.Utils.IpMask

open MailServer.Utils.ConfigParser

/-! ## The model -/

/-- `IpAddr`. -/
inductive IpAddr where
  | v4 (addr : BitVec 32)
  | v6 (addr : BitVec 128)
  deriving DecidableEq, Repr

/-- `Ipv6Addr::to_ipv4_mapped`: the IPv4 address of `::ffff:a.b.c.d`. -/
def toIpv4Mapped (ip : BitVec 128) : Option (BitVec 32) :=
  if ip >>> 32 = 0xffff then some (ip.setWidth 32) else none

/-- `Ipv6Addr::to_ipv4`: the IPv4 address of `::ffff:a.b.c.d` and of `::a.b.c.d`. -/
def toIpv4 (ip : BitVec 128) : Option (BitVec 32) :=
  if ip >>> 32 = 0 ∨ ip >>> 32 = 0xffff then some (ip.setWidth 32) else none

/-- `Ipv4Addr::to_ipv6_mapped`. -/
def toIpv6Mapped (ip : BitVec 32) : BitVec 128 := 0xffff <<< 32 ||| ip.setWidth 128

/-- `IpAddrMask`. -/
inductive IpAddrMask where
  | v4 (addr : BitVec 32) (mask : BitVec 32)
  | v6 (addr : BitVec 128) (mask : BitVec 128)
  deriving DecidableEq, Repr

/-- `IpAddrMask::matches`. -/
def IpAddrMask.matches : IpAddrMask → IpAddr → Bool
  | .v4 addr mask, remote =>
    if mask = BitVec.allOnes 32 then
      match remote with
      | .v4 remote => addr == remote
      | .v6 remote =>
        match toIpv4Mapped remote with
        | some remote => addr == remote
        | none => false
    else if mask = 0 then
      match remote with
      | .v4 _ => true
      | .v6 _ => false
    else
      match remote with
      | .v4 ip => ip &&& mask == addr &&& mask
      | .v6 ip =>
        match toIpv4 ip with
        | some ip => ip &&& mask == addr &&& mask
        | none => false
  | .v6 addr mask, remote =>
    if mask = BitVec.allOnes 128 then
      match remote with
      | .v6 remote => remote == addr
      | .v4 remote => toIpv6Mapped remote == addr
    else if mask = 0 then
      match remote with
      | .v6 _ => true
      | .v4 _ => false
    else
      match remote with
      | .v6 ip => ip &&& mask == addr &&& mask
      | .v4 ip => toIpv6Mapped ip &&& mask == addr &&& mask

/-- `u32::MAX << (32 - mask)`. -/
def prefixMask4 (mask : ℕ) : BitVec 32 := BitVec.allOnes 32 <<< (32 - mask)

/-- `u128::MAX << (128 - mask)`. -/
def prefixMask6 (mask : ℕ) : BitVec 128 := BitVec.allOnes 128 <<< (128 - mask)

/-- `str::rsplit_once`: the text before and after the last `sep`. -/
def rsplitOnce (sep : Char) : List Char → Option (List Char × List Char)
  | [] => none
  | c :: cs =>
    match rsplitOnce sep cs with
    | some (before, after) => some (c :: before, after)
    | none => if c = sep then some ([], cs) else none

/-- `char::is_whitespace`: the Unicode `White_Space` characters. -/
def isWhitespace (c : Char) : Bool :=
  (9 ≤ c.toNat && c.toNat ≤ 13) || c.toNat = 32 || c.toNat = 0x85 || c.toNat = 0xA0 ||
    c.toNat = 0x1680 || (0x2000 ≤ c.toNat && c.toNat ≤ 0x200A) || c.toNat = 0x2028 ||
    c.toNat = 0x2029 || c.toNat = 0x202F || c.toNat = 0x205F || c.toNat = 0x3000

/-- `str::trim`. -/
def trim (cs : List Char) : List Char := ((cs.dropWhile isWhitespace).reverse.dropWhile isWhitespace).reverse

/-- `str::parse::<u32>`: an optional `+`, then decimal digits, below `2 ^ 32`. -/
def parseU32 (cs : List Char) : Option ℕ :=
  let digits := match cs with
    | '+' :: rest => rest
    | _ => cs
  if digits ≠ [] ∧ digits.all Char.isDigit then
    let value := digits.foldl (fun v c => v * 10 + (c.toNat - 48)) 0
    if value < 2 ^ 32 then some value else none
  else none

/-- `IpAddrMask::parse_value`, with `str::parse::<IpAddr>` given as `parseIpAddr`. -/
def IpAddrMask.parseValue (parseIpAddr : String → Option IpAddr) (value : String) :
    Except String IpAddrMask :=
  let parsed :=
    match rsplitOnce '/' value.toList with
    | some (addr, mask) =>
      match parseIpAddr (String.ofList (trim addr)), parseU32 (trim mask) with
      | some (.v4 addr), some mask =>
        if 8 ≤ mask ∧ mask ≤ 32 then some (IpAddrMask.v4 addr (prefixMask4 mask)) else none
      | some (.v6 addr), some mask =>
        if 8 ≤ mask ∧ mask ≤ 128 then some (IpAddrMask.v6 addr (prefixMask6 mask)) else none
      | _, _ => none
    | none =>
      match parseIpAddr (String.ofList (trim value.toList)) with
      | some (.v4 addr) => some (IpAddrMask.v4 addr (BitVec.allOnes 32))
      | some (.v6 addr) => some (IpAddrMask.v6 addr (BitVec.allOnes 128))
      | none => none
  match parsed with
  | some mask => .ok mask
  | none => .error ("Invalid IP address " ++ debugString value)

/-- The test of `is_ip_blocked` and `is_ip_allowed`: a listed address, or an address in one
of the networks (`has_*_networks` is whether there is any). -/
def listed (addresses : List IpAddr) (networks : List IpAddrMask) (ip : IpAddr) : Bool :=
  addresses.contains ip || (!networks.isEmpty && networks.any fun network => network.matches ip)

/-- `Server::is_ip_blocked`. -/
def isIpBlocked (blockedIps : List IpAddr) (blockedIpNetworks : List IpAddrMask) (ip : IpAddr) : Bool :=
  listed blockedIps blockedIpNetworks ip

/-- `Server::is_ip_allowed`. -/
def isIpAllowed (allowedIpAddresses : List IpAddr) (allowedIpNetworks : List IpAddrMask) (ip : IpAddr) : Bool :=
  listed allowedIpAddresses allowedIpNetworks ip

/-! ## Prefix masks -/

theorem getLsbD_allOnes_shiftLeft {w : ℕ} (n i : ℕ) :
    (BitVec.allOnes w <<< n).getLsbD i = (decide (i < w) && decide (n ≤ i)) := by
  rw [BitVec.getLsbD_shiftLeft, BitVec.getLsbD_allOnes]
  by_cases hi : i < w <;> by_cases hn : n ≤ i <;> simp [hi, hn]
  omega

theorem allOnes_shiftLeft_eq_allOnes {w n : ℕ} (hw : 0 < w) :
    BitVec.allOnes w <<< n = BitVec.allOnes w ↔ n = 0 := by
  constructor
  · intro h
    have hbit := congrArg (BitVec.getLsbD · 0) h
    simp only [getLsbD_allOnes_shiftLeft, BitVec.getLsbD_allOnes, hw, decide_true, Bool.true_and,
      decide_eq_true_eq] at hbit
    omega
  · rintro rfl
    exact BitVec.shiftLeft_zero _

theorem allOnes_shiftLeft_ne_zero {w n : ℕ} (hn : n < w) : BitVec.allOnes w <<< n ≠ 0 := by
  intro h
  have htop : (BitVec.allOnes w <<< n).getLsbD (w - 1) = true := by
    rw [getLsbD_allOnes_shiftLeft]
    simp only [Bool.and_eq_true, decide_eq_true_eq]
    omega
  rw [h] at htop
  simp at htop

theorem prefixMask4_eq_allOnes {k : ℕ} (hk : k ≤ 32) : prefixMask4 k = BitVec.allOnes 32 ↔ k = 32 := by
  rw [prefixMask4, allOnes_shiftLeft_eq_allOnes (by norm_num)]
  omega

theorem prefixMask6_eq_allOnes {k : ℕ} (hk : k ≤ 128) : prefixMask6 k = BitVec.allOnes 128 ↔ k = 128 := by
  rw [prefixMask6, allOnes_shiftLeft_eq_allOnes (by norm_num)]
  omega

theorem prefixMask4_ne_zero {k : ℕ} (hk : 0 < k) : prefixMask4 k ≠ 0 :=
  allOnes_shiftLeft_ne_zero (by omega)

theorem prefixMask6_ne_zero {k : ℕ} (hk : 0 < k) : prefixMask6 k ≠ 0 :=
  allOnes_shiftLeft_ne_zero (by omega)

/-! ## What `matches` compares -/

/-- The client as an IPv4 address for a full-length IPv4 network. -/
def IpAddr.ipv4Mapped : IpAddr → Option (BitVec 32)
  | .v4 ip => some ip
  | .v6 ip => toIpv4Mapped ip

/-- The client as an IPv4 address for a shorter IPv4 network. -/
def IpAddr.ipv4 : IpAddr → Option (BitVec 32)
  | .v4 ip => some ip
  | .v6 ip => toIpv4 ip

/-- The client as an IPv6 address. -/
def IpAddr.ipv6 : IpAddr → BitVec 128
  | .v4 ip => toIpv6Mapped ip
  | .v6 ip => ip

theorem matches_v4_eq (addr mask : BitVec 32) (remote : IpAddr) :
    (IpAddrMask.v4 addr mask).matches remote =
      if mask = BitVec.allOnes 32 then
        match remote.ipv4Mapped with
        | some ip => addr == ip
        | none => false
      else if mask = 0 then
        match remote with
        | .v4 _ => true
        | .v6 _ => false
      else
        match remote.ipv4 with
        | some ip => ip &&& mask == addr &&& mask
        | none => false := by
  cases remote <;> rfl

theorem matches_v6_eq (addr mask : BitVec 128) (remote : IpAddr) :
    (IpAddrMask.v6 addr mask).matches remote =
      if mask = BitVec.allOnes 128 then remote.ipv6 == addr
      else if mask = 0 then
        match remote with
        | .v6 _ => true
        | .v4 _ => false
      else remote.ipv6 &&& mask == addr &&& mask := by
  cases remote <;> rfl

/-- An IPv4 network of `k` bits holds the clients whose reading as an IPv4 address agrees
with its address on the first `k` bits; the reading is `to_ipv4_mapped` at full length and
`to_ipv4` below it. -/
theorem matches_v4 {addr : BitVec 32} {k : ℕ} (h8 : 8 ≤ k) (h32 : k ≤ 32) (remote : IpAddr) :
    (IpAddrMask.v4 addr (prefixMask4 k)).matches remote = true ↔
      ∃ ip, (if k = 32 then remote.ipv4Mapped else remote.ipv4) = some ip ∧
        ip &&& prefixMask4 k = addr &&& prefixMask4 k := by
  by_cases hk : k = 32
  · have hfull : prefixMask4 k = BitVec.allOnes 32 := (prefixMask4_eq_allOnes h32).mpr hk
    rw [matches_v4_eq, if_pos hfull, if_pos hk, hfull]
    cases remote.ipv4Mapped with
    | none => simp
    | some ip =>
      simp only [BitVec.and_allOnes, Option.some.injEq, exists_eq_left', beq_iff_eq]
      exact eq_comm
  · have hpart : prefixMask4 k ≠ BitVec.allOnes 32 := fun h => hk ((prefixMask4_eq_allOnes h32).mp h)
    rw [matches_v4_eq, if_neg hpart, if_neg (prefixMask4_ne_zero (by omega)), if_neg hk]
    cases remote.ipv4 <;> simp

/-- An IPv6 network of `k` bits holds the clients whose IPv6 form agrees with its address on
the first `k` bits, at every length. -/
theorem matches_v6 {addr : BitVec 128} {k : ℕ} (h8 : 8 ≤ k) (h128 : k ≤ 128) (remote : IpAddr) :
    (IpAddrMask.v6 addr (prefixMask6 k)).matches remote = true ↔
      remote.ipv6 &&& prefixMask6 k = addr &&& prefixMask6 k := by
  by_cases hk : k = 128
  · have hfull : prefixMask6 k = BitVec.allOnes 128 := (prefixMask6_eq_allOnes h128).mpr hk
    rw [matches_v6_eq, if_pos hfull, hfull, BitVec.and_allOnes, BitVec.and_allOnes, beq_iff_eq]
  · have hpart : prefixMask6 k ≠ BitVec.allOnes 128 := fun h => hk ((prefixMask6_eq_allOnes h128).mp h)
    rw [matches_v6_eq, if_neg hpart, if_neg (prefixMask6_ne_zero (by omega)), beq_iff_eq]

/-! ## What `parse_value` accepts -/

theorem prefixMask4_full : prefixMask4 32 = BitVec.allOnes 32 := BitVec.shiftLeft_zero _

theorem prefixMask6_full : prefixMask6 128 = BitVec.allOnes 128 := BitVec.shiftLeft_zero _

/-- Every network `parse_value` accepts is an address with the mask of a prefix of 8 to 32
bits (IPv4) or 8 to 128 bits (IPv6); a bare address has the full length. -/
theorem parseValue_ok {parseIpAddr : String → Option IpAddr} {value : String} {mask : IpAddrMask}
    (h : IpAddrMask.parseValue parseIpAddr value = .ok mask) :
    (∃ addr k, 8 ≤ k ∧ k ≤ 32 ∧ mask = .v4 addr (prefixMask4 k)) ∨
      (∃ addr k, 8 ≤ k ∧ k ≤ 128 ∧ mask = .v6 addr (prefixMask6 k)) := by
  unfold IpAddrMask.parseValue at h
  split at h
  · -- an address and a prefix length
    split at h
    · split_ifs at h with hk
      simp only [Except.ok.injEq] at h
      exact .inl ⟨_, _, hk.1, hk.2, h.symm⟩
    · split_ifs at h with hk
      simp only [Except.ok.injEq] at h
      exact .inr ⟨_, _, hk.1, hk.2, h.symm⟩
    · simp at h
  · -- a bare address
    split at h
    · simp only [Except.ok.injEq] at h
      exact .inl ⟨_, 32, by norm_num, le_rfl, by rw [prefixMask4_full, h]⟩
    · simp only [Except.ok.injEq] at h
      exact .inr ⟨_, 128, by norm_num, le_rfl, by rw [prefixMask6_full, h]⟩
    · simp at h

/-- Every network `parse_value` accepts is a prefix test: an IPv4 network of 8 to 32 bits on
the client's reading as an IPv4 address (`to_ipv4_mapped` at full length and `to_ipv4` below
it), or an IPv6 network of 8 to 128 bits on the client's IPv6 form. -/
theorem parseValue_matches {parseIpAddr : String → Option IpAddr} {value : String} {mask : IpAddrMask}
    (h : IpAddrMask.parseValue parseIpAddr value = .ok mask) :
    (∃ addr k, 8 ≤ k ∧ k ≤ 32 ∧ mask = .v4 addr (prefixMask4 k) ∧ ∀ remote, mask.matches remote = true ↔
        ∃ ip, (if k = 32 then remote.ipv4Mapped else remote.ipv4) = some ip ∧
          ip &&& prefixMask4 k = addr &&& prefixMask4 k) ∨
      (∃ addr k, 8 ≤ k ∧ k ≤ 128 ∧ mask = .v6 addr (prefixMask6 k) ∧ ∀ remote, mask.matches remote = true ↔
        remote.ipv6 &&& prefixMask6 k = addr &&& prefixMask6 k) := by
  rcases parseValue_ok h with ⟨addr, k, h8, h32, rfl⟩ | ⟨addr, k, h8, h128, rfl⟩
  · exact .inl ⟨addr, k, h8, h32, rfl, matches_v4 h8 h32⟩
  · exact .inr ⟨addr, k, h8, h128, rfl, matches_v6 h8 h128⟩

theorem parseValue_matches_ten :
    (∃ addr k, 8 ≤ k ∧ k ≤ 32 ∧ IpAddrMask.v4 0x0a000000#32 (prefixMask4 8) = .v4 addr (prefixMask4 k) ∧
        ∀ remote, (IpAddrMask.v4 0x0a000000#32 (prefixMask4 8)).matches remote = true ↔
          ∃ ip, (if k = 32 then remote.ipv4Mapped else remote.ipv4) = some ip ∧
            ip &&& prefixMask4 k = addr &&& prefixMask4 k) ∨
      (∃ addr k, 8 ≤ k ∧ k ≤ 128 ∧ IpAddrMask.v4 0x0a000000#32 (prefixMask4 8) = .v6 addr (prefixMask6 k) ∧
        ∀ remote, (IpAddrMask.v4 0x0a000000#32 (prefixMask4 8)).matches remote = true ↔
          remote.ipv6 &&& prefixMask6 k = addr &&& prefixMask6 k) :=
  @parseValue_matches (fun _ => some (.v4 0x0a000000#32)) "10.0.0.0/8" _ (by decide)

/-- No one reading of the client as an IPv4 address makes every IPv4 network a prefix test:
`::1` is read as `0.0.0.1` by the networks shorter than 32 bits and by none of full length. -/
theorem matches_v4_not_uniform :
    ¬ ∃ norm : IpAddr → Option (BitVec 32), ∀ (addr : BitVec 32) (k : ℕ), 8 ≤ k → k ≤ 32 →
      ∀ remote, (IpAddrMask.v4 addr (prefixMask4 k)).matches remote = true ↔
        ∃ ip, norm remote = some ip ∧ ip &&& prefixMask4 k = addr &&& prefixMask4 k := by
  rintro ⟨norm, hnorm⟩
  -- `::1` is in `0.0.0.1/31`, so the reading gives it some address
  obtain ⟨ip, hip, -⟩ := (hnorm 1 31 (by norm_num) (by norm_num) (.v6 1)).mp (by decide)
  -- and then the full-length network of that address would hold it
  have hfull := (hnorm ip 32 (by norm_num) le_rfl (.v6 1)).mpr ⟨ip, hip, rfl⟩
  rw [matches_v4 (by norm_num) le_rfl, if_pos rfl] at hfull
  obtain ⟨_, hmapped, -⟩ := hfull
  have hnone : (IpAddr.v6 1).ipv4Mapped = none := by decide
  rw [hnone] at hmapped
  cases hmapped

end MailServer.Utils.IpMask
