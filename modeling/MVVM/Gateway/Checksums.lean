import MVVM.Gateway.Forward
import MVVM.Checksum

/-!
# The checksums of forwarded packets (gateway/main.cpp:64-76, 250-274)

One of the two addresses of a packet is replaced before the packet is sent on. The header
of IPv4 has a checksum, and that of UDP is taken over the addresses as well.
-/

namespace MVVM.Gateway

open MVVM.Checksum
open MVVM.Text (Str)

/-- The packet matches an entry of `forward_pair`, in either direction. -/
def Packet.Matches (p : Packet) (e : Str × Str × Str) : Prop :=
  (e.1 = dotted p.ipSrc ∧ e.2.1 = dotted p.ipDst) ∨ (e.1 = dotted p.ipDst ∧ e.2.1 = dotted p.ipSrc)

instance (p : Packet) (e : Str × Str × Str) : Decidable (p.Matches e) := by
  unfold Packet.Matches; infer_instance

/-- `ip_len`. -/
def Packet.ipLen (p : Packet) : ℕ := (be16 (p.byte 2) (p.byte 3)).toNat

def Packet.ipHeader (p : Packet) : List UInt8 := p.bytes.take (4 * p.ipHl)

/-- `uh_ulen`, the length of the datagram with its header. -/
def Packet.uhUlen (p : Packet) : ℕ :=
  (be16 (p.byte (4 * p.ipHl + 4)) (p.byte (4 * p.ipHl + 5))).toNat

def Packet.uhSum (p : Packet) : UInt16 := be16 (p.byte (4 * p.ipHl + 6)) (p.byte (4 * p.ipHl + 7))

def Packet.datagram (p : Packet) : List UInt8 := (p.bytes.drop (4 * p.ipHl)).take p.uhUlen

/-- The sum of the two words of an address. -/
def addressSum (a : Vector UInt8 4) : ℕ := pairSum 256 1 a.toList

/-- The sum over the pseudo-header and the datagram. -/
def Packet.udpSum (p : Packet) : ℕ :=
  addressSum p.ipSrc + addressSum p.ipDst + p.ipP.toNat + p.uhUlen + pairSum 256 1 p.datagram

/-- A packet of IPv4 with a datagram of UDP, and with the checksums that its receiver tests. -/
structure Packet.WellFormed (p : Packet) : Prop where
  version : p.ipV = 4
  headerLength : 5 ≤ p.ipHl
  protocol : p.ipP = 17
  datagramLength : 8 ≤ p.uhUlen ∧ 4 * p.ipHl + p.uhUlen ≤ p.ipLen
  captured : p.ipLen ≤ p.bytes.length
  headerSum : Checks (pairSum 256 1 p.ipHeader)
  udpSum : p.uhSum = 0 ∨ Checks p.udpSum

/-- The address that is replaced: where it stands, and what it is. -/
def Packet.replacedAt (p : Packet) (e : Str × Str × Str) : ℕ :=
  if e.1 = dotted p.ipSrc ∧ e.2.1 = dotted p.ipDst then 12 else 16

def Packet.replaced (p : Packet) (e : Str × Str × Str) : Vector UInt8 4 :=
  if e.1 = dotted p.ipSrc ∧ e.2.1 = dotted p.ipDst then p.ipSrc else p.ipDst

/-- Nothing but one address and the checksums is changed. -/
structure Rewrites (p q : Packet) (offset : ℕ) (a : Vector UInt8 4) : Prop where
  length : q.bytes.length = p.bytes.length
  address : ∀ i : Fin 4, q.byte (offset + i) = a[i]
  others : ∀ i, (i < offset ∨ offset + 4 ≤ i) → i ∉ [10, 11] →
    i ∉ [4 * p.ipHl + 6, 4 * p.ipHl + 7] → q.byte i = p.byte i

/-- The packet is sent on with its address replaced, and is well formed again. -/
def ForwardsWell (s : Forwarder) (p : Packet) (e : Str × Str × Str) : Prop :=
  ∃ q, forwarded s p = some q ∧ Rewrites p q (p.replacedAt e) (inetAddr e.2.2) ∧ q.WellFormed

/-! ### The header -/

theorem sumWords_eq (l : List UInt8) : sumWords l = pairSum 1 256 l := by
  induction l using sumWords.induct with
  | case1 a b rest ih =>
    rw [sumWords, ih, pairSum, pairSum]
    omega
  | case2 a => simp [sumWords, pairSum]
  | case3 => rfl

theorem sumWords_le (l : List UInt8) : sumWords l ≤ (l.length + 1) / 2 * (2 ^ 16 - 1) := by
  induction l using sumWords.induct with
  | case1 a b rest ih =>
    have ha := a.toNat_lt
    have hb := b.toNat_lt
    have hlen : ((a :: b :: rest).length + 1) / 2 = (rest.length + 1) / 2 + 1 := by
      simp only [List.length_cons]
      omega
    rw [sumWords, hlen, Nat.add_mul]
    omega
  | case2 a =>
    have ha := a.toNat_lt
    simp only [sumWords, List.length_singleton]
    omega
  | case3 => exact Nat.zero_le _

/-- What `in_cksum` returns for as many words as its two foldings can add. -/
theorem toNat_inCksum (buf : List UInt8) (hlen : buf.length ≤ 2 ^ 17) :
    (inCksum buf).toNat = 2 ^ 16 - 1 - onesSum (sumWords buf) := by
  have hwords : (buf.length + 1) / 2 ≤ 2 ^ 16 := by omega
  have hle := (sumWords_le buf).trans (Nat.mul_le_mul_right _ hwords)
  unfold inCksum
  rw [UInt16.toNat_not, UInt16.toNat_ofNat', fold_twice hle]
  rfl

/-- `in_cksum` completes the sum. -/
theorem inCksum_completes (buf : List UInt8) (hlen : buf.length ≤ 2 ^ 17) :
    pairSum 1 256 buf + (inCksum buf).toNat ≡ 0 [MOD 65535] := by
  have hsum : onesSum (sumWords buf) % 65535 = sumWords buf % 65535 := onesSum_modEq _
  have hlt := onesSum_lt (sumWords buf)
  rw [← sumWords_eq, toNat_inCksum buf hlen]
  unfold Nat.ModEq
  omega

/-- The two bytes of a checksum in a list of bytes. -/
theorem pairSum_setSum (l : List UInt8) (hlen : 12 ≤ l.length) (c : UInt16)
    (h10 : l.getD 10 0 = 0) (h11 : l.getD 11 0 = 0) :
    pairSum 1 256 ((l.set 10 c.toUInt8).set 11 (c >>> 8).toUInt8) = pairSum 1 256 l + c.toNat := by
  have hlow := pairSum_set 1 256 l 10 c.toUInt8 (by omega)
  have hbyte10 : l[10] = 0 := by
    rw [← h10, List.getD_eq_getElem]
  have hlength : 11 < (l.set 10 c.toUInt8).length := by
    rw [List.length_set]
    omega
  have hbyte11 : (l.set 10 c.toUInt8)[11] = 0 := by
    rw [List.getElem_set_ne (by decide), ← h11, List.getD_eq_getElem]
  have hhigh := pairSum_set 1 256 (l.set 10 c.toUInt8) 11 (c >>> 8).toUInt8 hlength
  have hc := c.toNat_lt
  rw [hbyte10] at hlow
  rw [hbyte11] at hhigh
  have hsplit : c.toUInt8.toNat + 256 * (c >>> 8).toUInt8.toNat = c.toNat := by
    simp only [UInt16.toNat_toUInt8, UInt16.toNat_shiftRight]
    have height : (8 : UInt16).toNat % 16 = 8 := rfl
    rw [height, Nat.shiftRight_eq_div_pow]
    omega
  simp at hlow hhigh
  omega

theorem take_setSum (p : Packet) (c : UInt16) (n : ℕ) :
    (p.setSum c).bytes.take n =
      ((p.bytes.take n).set 10 c.toUInt8).set 11 (c >>> 8).toUInt8 := by
  simp only [Packet.setSum, Packet.setByte, List.take_set]

theorem byte_setSum (p : Packet) (c : UInt16) (i : ℕ) :
    (p.setSum c).byte i =
      if 11 = i then (c >>> 8).toUInt8 else if 10 = i then c.toUInt8 else p.byte i := by
  rw [Packet.setSum, byte_setByte _ _ _ _ (by decide), byte_setByte _ _ _ _ (by decide)]

theorem ipHl_checksummed (p : Packet) : p.checksummed.ipHl = p.ipHl := by
  rw [Packet.ipHl, byte_checksummed p 0 (by decide) (by decide), Packet.ipHl]

/-- The header of a packet checks once its checksum has been computed. -/
theorem checks_checksummed (p : Packet) (hhl : 5 ≤ p.ipHl) (hlen : 4 * p.ipHl ≤ p.bytes.length) :
    Checks (pairSum 256 1 p.checksummed.ipHeader) := by
  have hfield : ∀ i ∈ [10, 11], ((p.setSum 0).bytes.take (4 * p.ipHl)).getD i 0 = 0 := by
    intro i hi
    have hlt : i < 4 * p.ipHl := by
      simp only [List.mem_cons, List.not_mem_nil, or_false] at hi
      omega
    have hbyte : ((p.setSum 0).bytes.take (4 * p.ipHl)).getD i 0 = (p.setSum 0).byte i := by
      rw [List.getD_eq_getElem?_getD, List.getElem?_take_of_lt hlt, Packet.byte,
        List.getD_eq_getElem?_getD]
    rw [hbyte, byte_setSum]
    simp only [List.mem_cons, List.not_mem_nil, or_false] at hi
    rcases hi with rfl | rfl <;> rfl
  have hlength : ((p.setSum 0).bytes.take (4 * p.ipHl)).length = 4 * p.ipHl := by
    rw [take_setSum, List.length_set, List.length_set, List.length_take]
    omega
  have hsmall : p.ipHl < 16 := Nat.mod_lt _ (by decide)
  have hhl0 : (p.setSum 0).ipHl = p.ipHl := by
    rw [Packet.ipHl, byte_setSum, if_neg (by decide), if_neg (by decide), Packet.ipHl]
  rw [← checks_swap_iff, Packet.ipHeader, ipHl_checksummed]
  unfold Packet.checksummed
  simp only [hhl0]
  rw [take_setSum, pairSum_setSum _ (by omega) _ (hfield 10 (by simp)) (hfield 11 (by simp)),
    checks_iff]
  refine ⟨inCksum_completes _ (by omega), Nat.lt_of_lt_of_le ?_ (Nat.le_add_right _ _)⟩
  -- the version and the length of the header are not zero
  rw [pairSum_pos_iff (by decide) (by decide)]
  refine ⟨p.byte 0, ?_, ?_⟩
  · have hbyte : (p.setSum 0).byte 0 = p.byte 0 := byte_setSum p 0 0
    have hlt : 0 < (p.setSum 0).bytes.length := Nat.lt_of_lt_of_le (by decide) (p.setSum 0).header
    refine List.mem_of_getElem? (i := 0) ?_
    rw [List.getElem?_take_of_lt (by omega), ← hbyte, byte_eq_getElem _ hlt,
      List.getElem?_eq_getElem hlt]
  · have hhl' : 5 ≤ (p.byte 0).toNat % 16 := hhl
    omega

/-! ### What stays -/

/-- The bytes that the rewriting of an address does not touch. -/
structure Keeps (p q : Packet) (offset : ℕ) (a : Vector UInt8 4) : Prop where
  length : q.bytes.length = p.bytes.length
  address : ∀ i : Fin 4, q.byte (offset + i) = a[i]
  others : ∀ i, (i < offset ∨ offset + 4 ≤ i) → i ∉ [10, 11] → q.byte i = p.byte i

theorem length_setByte (p : Packet) (i : ℕ) (b : UInt8) :
    (p.setByte i b).bytes.length = p.bytes.length := List.length_set ..

theorem length_checksummed (p : Packet) : p.checksummed.bytes.length = p.bytes.length := by
  simp only [Packet.checksummed, Packet.setSum, length_setByte]

theorem keeps_address (p : Packet) {offset : ℕ} (hoffset : 12 ≤ offset ∧ offset + 4 ≤ 20)
    (a : Vector UInt8 4) :
    Keeps p ((((p.setByte offset a[0]).setByte (offset + 1) a[1]).setByte (offset + 2) a[2]).setByte
      (offset + 3) a[3]).checksummed offset a where
  length := by
    rw [length_checksummed]
    simp only [length_setByte]
  address i := by
    rw [byte_checksummed _ _ (by omega) (by omega), byte_setByte _ _ _ _ (by omega),
      byte_setByte _ _ _ _ (by omega), byte_setByte _ _ _ _ (by omega),
      byte_setByte _ _ _ _ (by omega)]
    match i with
    | ⟨0, _⟩ => simp
    | ⟨1, _⟩ => simp
    | ⟨2, _⟩ => simp
    | ⟨3, _⟩ => exact if_pos rfl
  others i hi hsum := by
    rw [List.mem_pair, not_or] at hsum
    rw [byte_checksummed _ _ hsum.1 hsum.2, byte_setByte _ _ _ _ (by omega), if_neg (by omega),
      byte_setByte _ _ _ _ (by omega), if_neg (by omega), byte_setByte _ _ _ _ (by omega),
      if_neg (by omega), byte_setByte _ _ _ _ (by omega), if_neg (by omega)]

theorem keeps_setSrc (p : Packet) (a : Vector UInt8 4) : Keeps p (p.setSrc a).checksummed 12 a :=
  keeps_address p (by decide) a

theorem keeps_setDst (p : Packet) (a : Vector UInt8 4) : Keeps p (p.setDst a).checksummed 16 a :=
  keeps_address p (by decide) a

variable {p q : Packet} {offset : ℕ} {a : Vector UInt8 4}

theorem Keeps.rewrites (h : Keeps p q offset a) : Rewrites p q offset a :=
  ⟨h.length, h.address, fun i hi hsum _ => h.others i hi hsum⟩

/-- All that a receiver reads of the headers but the checksum of the first one and the
addresses. -/
theorem Keeps.fields (h : Keeps p q offset a) (hoffset : 12 ≤ offset ∧ offset + 4 ≤ 20)
    (hhl : 5 ≤ p.ipHl) :
    q.ipV = p.ipV ∧ q.ipHl = p.ipHl ∧ q.ipP = p.ipP ∧ q.ipLen = p.ipLen ∧
      q.uhUlen = p.uhUlen ∧ q.uhSum = p.uhSum := by
  have hbefore : ∀ i, i < 10 → q.byte i = p.byte i := fun i hi =>
    h.others i (by omega) (by rw [List.mem_pair]; omega)
  have hbehind : ∀ i, 20 ≤ i → q.byte i = p.byte i := fun i hi =>
    h.others i (by omega) (by rw [List.mem_pair]; omega)
  have hsame : q.ipHl = p.ipHl := by rw [Packet.ipHl, hbefore 0 (by decide), Packet.ipHl]
  refine ⟨?_, hsame, hbefore 9 (by decide), ?_, ?_, ?_⟩
  · rw [Packet.ipV, hbefore 0 (by decide), Packet.ipV]
  · rw [Packet.ipLen, hbefore 2 (by decide), hbefore 3 (by decide), Packet.ipLen]
  · rw [Packet.uhUlen, hsame, hbehind _ (by omega), hbehind _ (by omega), Packet.uhUlen]
  · rw [Packet.uhSum, hsame, hbehind _ (by omega), hbehind _ (by omega), Packet.uhSum]

theorem Keeps.datagram (h : Keeps p q offset a) (hoffset : 12 ≤ offset ∧ offset + 4 ≤ 20)
    (hhl : 5 ≤ p.ipHl) : q.datagram = p.datagram := by
  obtain ⟨-, hsame, -, -, hlen, -⟩ := h.fields hoffset hhl
  unfold Packet.datagram
  rw [hsame, hlen]
  congr 1
  apply List.ext_getElem?
  intro i
  rw [List.getElem?_drop, List.getElem?_drop]
  have hbyte := h.others (4 * p.ipHl + i) (by omega) (by rw [List.mem_pair]; omega)
  have hlength := h.length
  by_cases hi : 4 * p.ipHl + i < p.bytes.length
  · have hi' : 4 * p.ipHl + i < q.bytes.length := by omega
    rw [byte_eq_getElem _ hi, byte_eq_getElem _ hi'] at hbyte
    rw [List.getElem?_eq_getElem hi, List.getElem?_eq_getElem hi', hbyte]
  · rw [List.getElem?_eq_none (by omega), List.getElem?_eq_none (by omega)]

/-! ### Well formed again -/

/-- A packet that checked before checks with another address when its words have the same
sum. -/
theorem checks_replace {old new rest : ℕ} (h : Checks (old + rest)) (hrest : 0 < rest) :
    Checks (new + rest) ↔ new ≡ old [MOD 65535] := by
  obtain ⟨hzero, -⟩ := (checks_iff _).mp h
  rw [checks_iff, and_iff_left (Nat.add_pos_right new hrest)]
  constructor
  · intro hnew
    exact Nat.ModEq.add_right_cancel' rest (hnew.trans hzero.symm)
  · intro hsame
    exact (hsame.add_right rest).trans hzero

/-- The pseudo-header has the new address, in place of the old one, and the address that is
kept. -/
theorem udpSum_checksummed (h : Keeps p q.checksummed offset a)
    (hoffset : 12 ≤ offset ∧ offset + 4 ≤ 20) (hhl : 5 ≤ p.ipHl) {kept : Vector UInt8 4}
    (hnew : addressSum q.ipSrc + addressSum q.ipDst = addressSum a + addressSum kept) :
    q.checksummed.udpSum =
      addressSum a + (addressSum kept + p.ipP.toNat + p.uhUlen + pairSum 256 1 p.datagram) := by
  obtain ⟨-, -, hproto, -, hulen, -⟩ := h.fields hoffset hhl
  unfold Packet.udpSum
  rw [h.datagram hoffset hhl, hproto, hulen, ipSrc_checksummed, ipDst_checksummed]
  omega

theorem headerSum_checksummed (hp : p.WellFormed) (h : Keeps p q.checksummed offset a)
    (hoffset : 12 ≤ offset ∧ offset + 4 ≤ 20) :
    Checks (pairSum 256 1 q.checksummed.ipHeader) := by
  obtain ⟨-, hhl, -⟩ := h.fields hoffset hp.headerLength
  rw [ipHl_checksummed] at hhl
  have hlength := (length_checksummed q).symm.trans h.length
  have hcaptured := hp.captured
  have hdatagram := hp.datagramLength.2
  refine checks_checksummed q (hhl ▸ hp.headerLength) ?_
  rw [hlength, hhl]
  omega

theorem wellFormed_iff (hp : p.WellFormed) (h : Keeps p q.checksummed offset a)
    (hoffset : 12 ≤ offset ∧ offset + 4 ≤ 20) (old kept : Vector UInt8 4)
    (hold : addressSum p.ipSrc + addressSum p.ipDst = addressSum old + addressSum kept)
    (hnew : addressSum q.ipSrc + addressSum q.ipDst = addressSum a + addressSum kept) :
    q.checksummed.WellFormed ↔ p.uhSum = 0 ∨ addressSum a ≡ addressSum old [MOD 65535] := by
  obtain ⟨hv, hhl, hproto, hlen, hulen, hsum⟩ := h.fields hoffset hp.headerLength
  have hcheck : p.uhSum ≠ 0 →
      (Checks q.checksummed.udpSum ↔ addressSum a ≡ addressSum old [MOD 65535]) := by
    intro hne
    have hpsum : p.udpSum =
        addressSum old + (addressSum kept + p.ipP.toNat + p.uhUlen + pairSum 256 1 p.datagram) := by
      unfold Packet.udpSum
      omega
    have hpos : 8 ≤ p.uhUlen := hp.datagramLength.1
    rw [udpSum_checksummed h hoffset hp.headerLength hnew]
    exact checks_replace (hpsum ▸ hp.udpSum.resolve_left hne) (by omega)
  constructor
  · intro hq
    by_cases hzero : p.uhSum = 0
    · exact .inl hzero
    · refine .inr ((hcheck hzero).mp (hq.udpSum.resolve_left ?_))
      rwa [hsum]
  · intro hright
    refine ⟨hv.trans hp.version, ?_, hproto.trans hp.protocol, ?_, ?_,
      headerSum_checksummed hp h hoffset, ?_⟩
    · rw [hhl]
      exact hp.headerLength
    · rw [hulen, hhl, hlen]
      exact hp.datagramLength
    · rw [hlen, h.length]
      exact hp.captured
    · rw [hsum]
      by_cases hzero : p.uhSum = 0
      · exact .inl hzero
      · exact .inr ((hcheck hzero).mpr (hright.resolve_left hzero))

/-- The packet that is sent on for an entry, and when it is well formed. -/
theorem forwardBy_matched (hp : p.WellFormed) {e : Str × Str × Str} (hmatch : p.Matches e) :
    ∃ q, forwardBy p e = some q ∧ Rewrites p q (p.replacedAt e) (inetAddr e.2.2) ∧
      (q.WellFormed ↔ p.uhSum = 0 ∨
        addressSum (inetAddr e.2.2) ≡ addressSum (p.replaced e) [MOD 65535]) := by
  unfold forwardBy Packet.replacedAt Packet.replaced
  by_cases hsrc : e.1 = dotted p.ipSrc ∧ e.2.1 = dotted p.ipDst
  · simp only [if_pos hsrc]
    have hkeeps := keeps_setSrc p (inetAddr e.2.2)
    refine ⟨_, rfl, hkeeps.rewrites,
      wellFormed_iff hp hkeeps (by decide) p.ipSrc p.ipDst rfl ?_⟩
    rw [ipSrc_setSrc, ipDst_setSrc]
  · have hdst := hmatch.resolve_left hsrc
    simp only [if_neg hsrc, if_pos hdst]
    have hkeeps := keeps_setDst p (inetAddr e.2.2)
    refine ⟨_, rfl, hkeeps.rewrites,
      wellFormed_iff hp hkeeps (by decide) p.ipDst p.ipSrc (Nat.add_comm _ _) ?_⟩
    rw [ipSrc_setDst, ipDst_setDst, Nat.add_comm]

theorem forwardBy_unmatched {e : Str × Str × Str} (h : ¬p.Matches e) : forwardBy p e = none := by
  obtain ⟨hsrc, hdst⟩ := not_or.mp h
  unfold forwardBy
  rw [if_neg hsrc, if_neg hdst]

theorem exists_forwardBy {e : Str × Str × Str} (h : p.Matches e) :
    ∃ q, forwardBy p e = some q := by
  unfold forwardBy
  by_cases hsrc : e.1 = dotted p.ipSrc ∧ e.2.1 = dotted p.ipDst
  · exact ⟨_, if_pos hsrc⟩
  · rw [if_neg hsrc]
    exact ⟨_, if_pos (h.resolve_left hsrc)⟩

/-- The first entry that matches decides. -/
theorem findSome?_forwardBy (entries : List (Str × Str × Str)) {e : Str × Str × Str}
    (he : entries.find? (fun e => p.Matches e) = some e) :
    entries.findSome? (forwardBy p) = forwardBy p e := by
  induction entries with
  | nil => cases he
  | cons d entries ih =>
    by_cases hd : p.Matches d
    · rw [List.find?_cons_of_pos (by simpa using hd)] at he
      obtain rfl := Option.some.inj he
      obtain ⟨q, hq⟩ := exists_forwardBy hd
      rw [List.findSome?_cons, hq]
    · rw [List.find?_cons_of_neg (by simpa using hd)] at he
      rw [List.findSome?_cons, forwardBy_unmatched hd]
      exact ih he

/-- An empty datagram from host 3 to host 2, with or without the checksum of UDP. -/
def emptyDatagram (checked : Bool) : Packet :=
  ⟨[0x45, 0, 0, 28, 0, 0, 0, 0, 64, 17, 34, 170, 172, 17, 0, 3, 172, 17, 0, 2,
    0x1f, 0x40, 0x23, 0x28, 0, 8] ++ if checked then [101, 78] else [0, 0],
    by cases checked <;> decide⟩

def movedEntry : Str × Str × Str :=
  ("172.17.0.2".toList, "172.17.0.3".toList, "172.17.0.4".toList)

/-- The server has moved from host 2 to host 4. -/
def forwardingTo4 : Forwarder :=
  ⟨[movedEntry], true, udpMessage .resume (dockerHost 4 9000)⟩

theorem emptyDatagram_wellFormed (checked : Bool) : (emptyDatagram checked).WellFormed := by
  cases checked with
  | false =>
    exact ⟨by decide, by decide, by decide, by decide, by decide, (checks_iff _).mpr (by decide),
      .inl (by decide)⟩
  | true =>
    exact ⟨by decide, by decide, by decide, by decide, by decide, (checks_iff _).mpr (by decide),
      .inr ((checks_iff _).mpr (by decide))⟩

end MVVM.Gateway
