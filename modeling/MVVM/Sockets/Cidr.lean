import MVVM.Sockets.Inet

/-!
# The subnet tests (wamr.cpp:700-770)

An address is in a subnet when its first bits are those of the base address. The test for
IPv4 compares words whose bytes have been swapped, and the one for IPv6 compares byte by
byte.
-/

namespace MVVM.Sockets

open MVVM.Words
open MVVM.Text (Str)

/-- `1 << n` of an `int`, where it is defined. -/
def shiftOne (n : ℤ) : Option (BitVec 32) :=
  if 0 ≤ n ∧ n < 32 then some (1#32 <<< n.toNat) else none

/-- `x - 1` of an `int`, where it is defined. -/
def subOne (x : BitVec 32) : Option (BitVec 32) :=
  if BitVec.ssubOverflow x 1#32 then none else some (x - 1#32)

/-- `is_ip_in_cidr`; none when a shift or a subtraction is undefined. -/
def isIpInCidr (baseIp : Str) (subnetMaskLen : ℤ) (ip : BitVec 32) : Option Bool :=
  match inetPton4 baseIp with
  | none => some false
  | some baseIpBin =>
    if subnetMaskLen < 0 ∨ subnetMaskLen > 32 then some false
    else
      (shiftOne (32 - subnetMaskLen)).bind fun bit => (subOne bit).bind fun low =>
        let subnetMask := htonl (~~~low)
        let networkAddr := loadWord baseIpBin &&& subnetMask
        let broadcastAddr := networkAddr ||| ~~~subnetMask
        let ipNetOrder := htonl ip
        some (decide (ipNetOrder ≥ networkAddr) && decide (ipNetOrder ≤ broadcastAddr))

/-- The test is defined and tells whether the first `m` bits are equal. -/
def RightAt (baseIp : Str) (base : BitVec 32) (m : ℕ) (ip : BitVec 32) : Prop :=
  isIpInCidr baseIp m ip = some (decide (∀ i < m, ip.getMsbD i = base.getMsbD i))

/-- With the bytes swapped, the address is between the ends of the subnet. -/
def SwappedInside (base : BitVec 32) (m : ℕ) (ip : BitVec 32) : Prop :=
  swapBytes (blockFirst (32 - m) base) ≤ swapBytes ip ∧
    swapBytes ip ≤ swapBytes (blockLast (32 - m) base)

variable {baseIp : Str} {b : Vector UInt8 4} {m : ℕ}

/-- The powers from `2 ^ 31` on are out of reach. -/
theorem mask_defined {m : ℕ} (hm : 2 ≤ m) (hle : m ≤ 32) :
    ((shiftOne (32 - m)).bind subOne) = some (lowOnes (32 - m)) := by
  have hshift : shiftOne (32 - m) = some (1#32 <<< (32 - m)) := by
    have hnat : ((32 : ℤ) - m).toNat = 32 - m := by omega
    rw [shiftOne, if_pos (by omega), hnat]
  have hover : ∀ k < 31, BitVec.ssubOverflow (1#32 <<< k) 1#32 = false := by decide
  rw [hshift, Option.bind_some, subOne, hover (32 - m) (by omega), shift_sub_one (by omega)]
  rfl

theorem mask_undefined {m : ℕ} (hm : m < 2) : ((shiftOne (32 - m)).bind subOne) = none := by
  match m, hm with
  | 0, _ => decide
  | 1, _ => decide

theorem isIpInCidr_eq (hbase : inetPton4 baseIp = some b) (hm : m ≤ 32) (ip : BitVec 32) :
    isIpInCidr baseIp m ip =
      if 2 ≤ m then
        some (decide (swapBytes (blockFirst (32 - m) (hostWord b)) ≤ swapBytes ip) &&
          decide (swapBytes ip ≤ swapBytes (blockLast (32 - m) (hostWord b))))
      else none := by
  have hadmitted : ¬((m : ℤ) < 0 ∨ (m : ℤ) > 32) := by omega
  unfold isIpInCidr
  rw [hbase]
  simp only [if_neg hadmitted, ← Option.bind_assoc]
  by_cases h : 2 ≤ m
  · rw [mask_defined h hm, if_pos h, Option.bind_some, loadWord_eq]
    simp only [htonl, ← swapBytes_and, ← swapBytes_not, ← swapBytes_or, BitVec.not_not]
    rw [← blockFirst, blockFirst_or]
  · rw [mask_undefined (by omega), if_neg h]
    rfl

theorem swappedInside_of_block (hm : m ≤ 32) {base ip : BitVec 32}
    (h : ∀ i < m, ip.getMsbD i = base.getMsbD i) : SwappedInside base m ip :=
  swapBytes_mem_block ((blockFirst_eq_iff (by omega) base ip).mpr fun i hi => (h i hi).symm)

theorem rightAt_iff (hbase : inetPton4 baseIp = some b) (hm : m ≤ 32) (ip : BitVec 32) :
    RightAt baseIp (hostWord b) m ip ↔
      2 ≤ m ∧ ((∀ i < m, ip.getMsbD i = (hostWord b).getMsbD i) ∨
        ¬SwappedInside (hostWord b) m ip) := by
  unfold RightAt
  rw [isIpInCidr_eq hbase hm]
  by_cases h : 2 ≤ m
  · rw [if_pos h, Option.some.injEq, ← Bool.decide_and, decide_eq_decide, and_iff_right h]
    constructor
    · intro hiff
      by_cases hinside : SwappedInside (hostWord b) m ip
      · exact .inl (hiff.mp hinside)
      · exact .inr hinside
    · rintro (hshared | houtside)
      · exact iff_of_true (swappedInside_of_block hm hshared) hshared
      · exact iff_of_false houtside fun hshared =>
          houtside (swappedInside_of_block hm hshared)
  · rw [if_neg h]
    exact iff_of_false (fun heq => by cases heq) fun hright => h hright.1

/-- With all bits the subnet is the base address alone. -/
theorem swappedInside_full {base ip : BitVec 32} (h : SwappedInside base 32 ip) : ip = base := by
  obtain ⟨hfirst, hlast⟩ := block_zero base
  rw [SwappedInside, Nat.sub_self, hfirst, hlast] at h
  have heq : swapBytes ip = swapBytes base := BitVec.le_antisymm h.2 h.1
  rw [← swapBytes_swapBytes ip, heq, swapBytes_swapBytes]

theorem rightAt_full (hbase : inetPton4 baseIp = some b) (ip : BitVec 32) :
    RightAt baseIp (hostWord b) 32 ip := by
  rw [rightAt_iff hbase le_rfl]
  refine ⟨by decide, ?_⟩
  by_cases h : SwappedInside (hostWord b) 32 ip
  · rw [swappedInside_full h]
    exact .inl fun _ _ => rfl
  · exact .inr h

/-- The test of an address is right when the mask has two bits or more and the address is in
the subnet, or not between its ends with the bytes swapped. For all addresses that is so
only when the mask has all bits. -/
theorem is_ip_in_cidr_iff (hbase : inetPton4 baseIp = some b) (hm : m ≤ 32) :
    (∀ ip, RightAt baseIp (hostWord b) m ip ↔
      2 ≤ m ∧ ((∀ i < m, ip.getMsbD i = (hostWord b).getMsbD i) ∨
        ¬SwappedInside (hostWord b) m ip)) ∧
      ((∀ ip, RightAt baseIp (hostWord b) m ip) ↔ m = 32) := by
  refine ⟨rightAt_iff hbase hm, fun hall => ?_, ?_⟩
  · by_contra hne
    obtain ⟨y, z, hy, hz, hyin, hzin⟩ :=
      swapBytes_strangers (k := 32 - m) (by omega) (hostWord b)
    obtain ⟨hpos, hyright⟩ := (rightAt_iff hbase hm y).mp (hall y)
    obtain ⟨-, hzright⟩ := (rightAt_iff hbase hm z).mp (hall z)
    have hybit := hyright.resolve_right (not_not_intro hyin) 0 (by omega)
    have hzbit := hzright.resolve_right (not_not_intro hzin) 0 (by omega)
    rw [hy] at hybit
    rw [hz, ← hybit] at hzbit
    cases hzbit
  · rintro rfl
    exact rightAt_full hbase

theorem is_ip_in_cidr_iff_host : RightAt "172.17.0.1".toList (hostWord #v[172, 17, 0, 1]) 32
    (hostWord #v[192, 168, 1, 5]) := by
  have hbase : inetPton4 "172.17.0.1".toList = some #v[172, 17, 0, 1] := by decide
  exact (is_ip_in_cidr_iff hbase (by decide)).2.mpr rfl _

/-- The address of another network is found in that of docker. -/
theorem stranger_in_cidr :
    ¬∀ (baseIp : Str) (b : Vector UInt8 4) (m : ℕ) (ip : BitVec 32),
      inetPton4 baseIp = some b → m ≤ 32 → RightAt baseIp (hostWord b) m ip := by
  intro hclaim
  have hbase : inetPton4 "172.17.0.1".toList = some #v[172, 17, 0, 1] := by decide
  have hright := hclaim _ _ 24 (hostWord #v[192, 168, 1, 5]) hbase (by decide)
  have hdiffers := ((rightAt_iff hbase (by decide) _).mp hright).2
  exact absurd hdiffers (by unfold SwappedInside; decide)

/-! ### IPv6 -/

/-- `is_ipv6_in_cidr`; none when a loop leaves the 16 bytes. -/
def isIpv6InCidr (baseIpStr : Str) (subnetMaskLen : ℤ) (ip : Vector UInt8 16) : Option Bool :=
  if -8 < subnetMaskLen ∧ subnetMaskLen ≤ 128 then
    let baseIp := (inetPton6 baseIpStr).getD (Vector.replicate 16 0)
    let whole := subnetMaskLen.tdiv 8
    let part := subnetMaskLen.tmod 8
    let mask := UInt8.ofNat (0xff <<< (8 - part).toNat)
    let subnetMask : Vector UInt8 16 := .ofFn fun i =>
      if (i : ℤ) = whole ∧ part ≠ 0 then mask else if (i : ℤ) < whole then 0xff else 0
    let networkAddr : Vector UInt8 16 := .ofFn fun i => baseIp[i] &&& subnetMask[i]
    let ipMax : Vector UInt8 16 := .ofFn fun i =>
      if (i : ℤ) ≥ whole then 0xff else networkAddr[i]
    some (decide (∀ i : Fin 16, ¬(ip[i] < networkAddr[i] ∨ ip[i] > ipMax[i])))
  else none

/-- Byte `j` of an address. -/
def byteAt (a : Vector UInt8 16) (j : ℕ) : UInt8 := a[j]?.getD 0

/-- Bit `i`, the most significant one of each byte first. -/
def bitAt (a : Vector UInt8 16) (i : ℕ) : Bool := (byteAt a (i / 8)).toBitVec.getMsbD (i % 8)

/-- The number that the bits of byte `m / 8` make up to bit `m`. -/
def partAt (a : Vector UInt8 16) (m : ℕ) : ℕ := (byteAt a (m / 8)).toNat / 2 ^ (8 - m % 8)

variable {ip base : Vector UInt8 16}

theorem byteAt_fin (a : Vector UInt8 16) (i : Fin 16) : byteAt a i = a[i] := by
  simp [byteAt]

/-- The first bits are those of the whole bytes and of a part of the next one. -/
theorem bits_eq_iff (ip base : Vector UInt8 16) (m : ℕ) :
    (∀ i < m, bitAt ip i = bitAt base i) ↔
      (∀ j < m / 8, byteAt ip j = byteAt base j) ∧ partAt ip m = partAt base m := by
  have hpart : partAt ip m = partAt base m ↔
      ∀ i < m % 8, bitAt ip (8 * (m / 8) + i) = bitAt base (8 * (m / 8) + i) := by
    unfold partAt
    rw [← UInt8.toNat_toBitVec, ← UInt8.toNat_toBitVec,
      div_eq_iff_getMsbD (Nat.le_of_lt (Nat.mod_lt m (by decide)))]
    refine forall_congr' fun i => forall_congr' fun hi => ?_
    have hdiv : (8 * (m / 8) + i) / 8 = m / 8 := by omega
    have hmod : (8 * (m / 8) + i) % 8 = i := by omega
    rw [bitAt, bitAt, hdiv, hmod]
  have hwhole : ∀ j, byteAt ip j = byteAt base j ↔
      ∀ i < 8, bitAt ip (8 * j + i) = bitAt base (8 * j + i) := by
    intro j
    have hbits : byteAt ip j = byteAt base j ↔
        ∀ i < 8, (byteAt ip j).toBitVec.getMsbD i = (byteAt base j).toBitVec.getMsbD i :=
      ⟨fun h i _ => by rw [h], fun h => UInt8.toBitVec_inj.mp (BitVec.eq_of_getMsbD_eq h)⟩
    rw [hbits]
    refine forall_congr' fun i => forall_congr' fun hi => ?_
    have hdiv : (8 * j + i) / 8 = j := by omega
    have hmod : (8 * j + i) % 8 = i := by omega
    rw [bitAt, bitAt, hdiv, hmod]
  simp only [hpart, hwhole]
  constructor
  · intro h
    exact ⟨fun j hj i hi => h _ (by omega), fun i hi => h _ (by omega)⟩
  · intro ⟨hbytes, hrest⟩ i hi
    have hsplit : 8 * (i / 8) + i % 8 = i := by omega
    by_cases hj : i / 8 < m / 8
    · have hbit := hbytes (i / 8) hj (i % 8) (by omega)
      rwa [hsplit] at hbit
    · have hj : i / 8 = m / 8 := by omega
      have hbit := hrest (i % 8) (by omega)
      rwa [← hj, hsplit] at hbit

/-- The mask has its first bits set. -/
theorem toNat_and_mask (x : UInt8) (k : ℕ) :
    (x &&& UInt8.ofNat (0xff <<< k)).toNat = x.toNat / 2 ^ k * 2 ^ k := by
  have hmask : (UInt8.ofNat (0xff <<< k)).toBitVec = BitVec.allOnes 8 <<< k := by
    apply BitVec.eq_of_toNat_eq
    rw [UInt8.toNat_toBitVec, UInt8.toNat_ofNat', BitVec.toNat_shiftLeft, BitVec.toNat_allOnes]
  rw [← UInt8.toNat_toBitVec, UInt8.toBitVec_and, hmask, toNat_and_shift, UInt8.toNat_toBitVec]

theorem partAt_of_whole (hm : m % 8 = 0) (a : Vector UInt8 16) : partAt a m = 0 := by
  have hlt : (byteAt a (m / 8)).toNat < 2 ^ 8 := (byteAt a (m / 8)).toNat_lt
  rw [partAt, hm, Nat.sub_zero, Nat.div_eq_of_lt hlt]

/-- What the last loop asks of byte `i`. -/
def ByteInside (base ip : Vector UInt8 16) (m i : ℕ) : Prop :=
  (i < m / 8 → byteAt ip i = byteAt base i) ∧ (i = m / 8 → partAt base m ≤ partAt ip m)

theorem forall_byteInside_iff (hm : m ≤ 128) :
    (∀ i : Fin 16, ByteInside base ip m i) ↔
      (∀ j < m / 8, byteAt ip j = byteAt base j) ∧ partAt base m ≤ partAt ip m := by
  constructor
  · intro h
    refine ⟨fun j hj => (h ⟨j, by omega⟩).1 hj, ?_⟩
    by_cases hlast : m / 8 < 16
    · exact (h ⟨m / 8, hlast⟩).2 rfl
    · have hwhole : m % 8 = 0 := by omega
      rw [partAt_of_whole hwhole, partAt_of_whole hwhole]
  · intro ⟨hbytes, hpart⟩ i
    exact ⟨hbytes i, fun _ => hpart⟩

theorem byte_le_max (x : UInt8) : ¬x > 0xff := by
  intro h
  have hlt : (0xff : UInt8).toNat < x.toNat := UInt8.lt_iff_toNat_lt.mp h
  have hbyte : x.toNat < 256 := x.toNat_lt
  exact absurd hbyte (Nat.not_lt.mpr hlt)

theorem byte_ge_zero (x : UInt8) : ¬x < 0 := fun h =>
  Nat.not_lt_zero x.toNat (UInt8.lt_iff_toNat_lt.mp h)

/-- The bounds of byte `i`. -/
theorem byteInside_iff (i : ℕ) {low high : UInt8}
    (hlow : low = byteAt base i &&& if i = m / 8 ∧ m % 8 ≠ 0 then
      UInt8.ofNat (0xff <<< (8 - m % 8)) else if i < m / 8 then 0xff else 0)
    (hhigh : high = if m / 8 ≤ i then 0xff else low) :
    ¬(byteAt ip i < low ∨ byteAt ip i > high) ↔ ByteInside base ip m i := by
  rcases lt_trichotomy i (m / 8) with hi | hi | hi
  · have hones : (0xff : UInt8) = -1 := rfl
    rw [if_neg (by omega), if_pos hi, hones, UInt8.and_neg_one] at hlow
    rw [if_neg (by omega), hlow] at hhigh
    rw [hhigh, hlow, not_or, UInt8.not_lt, gt_iff_lt, UInt8.not_lt]
    constructor
    · intro ⟨hle, hge⟩
      exact ⟨fun _ => UInt8.le_antisymm hge hle, fun heq => absurd heq hi.ne⟩
    · intro h
      rw [h.1 hi]
      exact ⟨UInt8.le_refl _, UInt8.le_refl _⟩
  · rw [if_pos hi.ge] at hhigh
    rw [hhigh, or_iff_left (byte_le_max _)]
    by_cases hpart : m % 8 = 0
    · rw [if_neg (by omega), if_neg (by omega), UInt8.and_zero] at hlow
      rw [hlow, ByteInside, partAt_of_whole hpart, partAt_of_whole hpart]
      exact iff_of_true (byte_ge_zero _) ⟨fun hlt => absurd hlt (by omega), fun _ => le_rfl⟩
    · rw [if_pos ⟨hi, hpart⟩] at hlow
      rw [hlow, UInt8.not_lt, UInt8.le_iff_toNat_le, toNat_and_mask,
        ← Nat.le_div_iff_mul_le (Nat.two_pow_pos _), hi]
      exact ⟨fun h => ⟨fun hlt => absurd hlt (lt_irrefl _), fun _ => h⟩, fun h => h.2 rfl⟩
  · rw [if_neg (by omega), if_neg (by omega), UInt8.and_zero] at hlow
    rw [if_pos hi.le] at hhigh
    rw [hlow, hhigh]
    exact iff_of_true (not_or.mpr ⟨byte_ge_zero _, byte_le_max _⟩)
      ⟨fun hlt => absurd hlt (by omega), fun heq => absurd heq hi.ne'⟩

theorem isIpv6InCidr_eq {baseIp : Str} (hbase : inetPton6 baseIp = some base) (hm : m ≤ 128)
    (ip : Vector UInt8 16) :
    isIpv6InCidr baseIp m ip =
      some (decide ((∀ j < m / 8, byteAt ip j = byteAt base j) ∧
        partAt base m ≤ partAt ip m)) := by
  have hdefined : -8 < (m : ℤ) ∧ (m : ℤ) ≤ 128 := by omega
  have hwhole : (m : ℤ).tdiv 8 = (m / 8 : ℕ) := rfl
  have hpart : (m : ℤ).tmod 8 = (m % 8 : ℕ) := rfl
  have hshift : ((8 : ℤ) - (m % 8 : ℕ)).toNat = 8 - m % 8 := by omega
  unfold isIpv6InCidr
  rw [if_pos hdefined, hbase, Option.some.injEq, decide_eq_decide, ← forall_byteInside_iff hm]
  refine forall_congr' fun i => ?_
  have hbyte : base[(i : ℕ)] = byteAt base i := (byteAt_fin base i).symm
  rw [← byteAt_fin]
  refine byteInside_iff i ?_ ?_
  · simp only [hwhole, hpart, hshift, Fin.getElem_fin, Vector.getElem_ofFn, Nat.cast_inj,
      Nat.cast_lt, ne_eq, Nat.cast_eq_zero, Option.getD_some, hbyte]
  · simp only [hwhole, Fin.getElem_fin, Vector.getElem_ofFn, ge_iff_le, Nat.cast_le]

/-- The test of an address is right when the mask ends with a byte, or a whole byte of the
prefix differs already, or the part of the next byte is not above that of the base. -/
theorem is_ipv6_in_cidr_iff {baseIp : Str} (hbase : inetPton6 baseIp = some base)
    (hm : m ≤ 128) (ip : Vector UInt8 16) :
    isIpv6InCidr baseIp m ip = some (decide (∀ i < m, bitAt ip i = bitAt base i)) ↔
      m % 8 = 0 ∨ (∃ j < m / 8, byteAt ip j ≠ byteAt base j) ∨ partAt ip m ≤ partAt base m := by
  rw [isIpv6InCidr_eq hbase hm, Option.some.injEq, decide_eq_decide, bits_eq_iff]
  by_cases hbytes : ∀ j < m / 8, byteAt ip j = byteAt base j
  · rw [and_iff_right hbytes, and_iff_right hbytes]
    have hnone : ¬∃ j < m / 8, byteAt ip j ≠ byteAt base j :=
      fun ⟨j, hj, hne⟩ => hne (hbytes j hj)
    by_cases hpart : m % 8 = 0
    · simp [partAt_of_whole hpart, hpart]
    · simp only [hpart, hnone, false_or]
      omega
  · have hsome : ∃ j < m / 8, byteAt ip j ≠ byteAt base j := by
      simpa using hbytes
    simp [hbytes, hsome]

/-- `fe80::` -/
def linkLocal : Vector UInt8 16 := #v[254, 128, 0, 0, 0, 0, 0, 0, 0, 0, 0, 0, 0, 0, 0, 0]

/-- `fec0::` -/
def siteLocal : Vector UInt8 16 := #v[254, 192, 0, 0, 0, 0, 0, 0, 0, 0, 0, 0, 0, 0, 0, 0]

theorem is_ipv6_in_cidr_iff_local :
    isIpv6InCidr "fe80::".toList (16 : ℕ) siteLocal =
      some (decide (∀ i : ℕ, i < 16 → bitAt siteLocal i = bitAt linkLocal i)) := by
  have hbase : inetPton6 "fe80::".toList = some linkLocal := by decide
  exact (is_ipv6_in_cidr_iff hbase (by decide) siteLocal).mpr (.inl rfl)

/-- `fec0::` is taken for an address of `fe80::/10`. -/
theorem stranger_in_cidr6 :
    ¬∀ (baseIp : Str) (base : Vector UInt8 16) (m : ℕ) (ip : Vector UInt8 16),
      inetPton6 baseIp = some base → m ≤ 128 →
        isIpv6InCidr baseIp m ip = some (decide (∀ i < m, bitAt ip i = bitAt base i)) := by
  intro hclaim
  have hbase : inetPton6 "fe80::".toList = some linkLocal := by decide
  have hright := hclaim _ _ 10 siteLocal hbase (by decide)
  rw [isIpv6InCidr_eq hbase (by decide)] at hright
  exact absurd hright (by decide)

end MVVM.Sockets
