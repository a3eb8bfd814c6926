import MVVM.Run
import MVVM.Gateway.Packet
import MVVM.Sockets.Suspend

/-!
# The forwarding of packets (gateway/main.cpp:56-62, 176-198, 231-274, 398-471, 548-551)

What the messages do to `forward_pair`, `is_forward` and `op_data`, and which packets
`packet_handler` sends on. What messages for TCP sessions do to the connections is in
`MVVM.Gateway.Relay`.
-/

namespace MVVM.Gateway

open MVVM.Sockets (OpData RecordedAddr maxAddr)
open MVVM.Text (Str)

inductive IpAddr where
  | v4 (n : Vector UInt8 4)
  | v6 (n : Vector UInt16 8)
  deriving DecidableEq

structure Session where
  server : IpAddr
  client : IpAddr
  deriving DecidableEq

/-- The globals that `packet_handler` reads. -/
structure Forwarder where
  forwardPair : List (Str × Str × Str)
  isForward : Bool
  opData : OpData

/-- A message arrives, from a process of a session that the gateway is not told, or a
packet is captured. -/
inductive GatewayLabel where
  | control (m : OpData) (session : Session)
  | capture (p : Packet)

/-- The entry of `forward_pair` for a pair of addresses; `is_4` of the first decides. -/
def forwardEntry (a : RecordedAddr × RecordedAddr) : Str × Str × Str :=
  if a.1.isFour then (dotted a.1.ip4, dotted a.2.ip4, [])
  else (hextets a.1.ip6, hextets a.2.ip6, [])

def pairs (m : OpData) : List (RecordedAddr × RecordedAddr) := m.addr.toList.take m.size.toNat

/-- The `switch` on the opcode. `std::get<2>(tmp_tuple)` is assigned in a copy of the last
element of `forward_pair`. There is none when more pairs are counted than there are, or
when there is no last element. -/
def control (s : Forwarder) (m : OpData) : Option Forwarder :=
  match m.op with
  | .suspend | .suspendTcpServer =>
    if m.size ≤ maxAddr then
      some { s with
        forwardPair := s.forwardPair ++ (pairs m).map forwardEntry
        opData := if 0 < m.size then { m with op := .fin } else m }
    else none
  | .resume | .resumeTcpServer =>
    if s.forwardPair = [] then none
    else some { s with isForward := s.isForward || !m.isTcp, opData := m }
  | .init | .fin => some { s with opData := m }

/-- `uh_sport` behind a header of four times `ip_hl` bytes. -/
def Packet.uhSport (p : Packet) : UInt16 :=
  UInt16.ofNat ((p.byte (4 * p.ipHl)).toNat + 256 * (p.byte (4 * p.ipHl + 1)).toNat)

/-- A UDP packet gives its source port to the counted pairs that have none. -/
def learnPort (o : OpData) (port : UInt16) : OpData :=
  { o with addr := o.addr.mapIdx fun idx a =>
      if (idx : ℤ) < o.size ∧ a.1.port = 0 then ({ a.1 with port := port }, a.2) else a }

def capture (s : Forwarder) (p : Packet) : Option Forwarder :=
  if p.ipV ≠ 6 ∧ p.ipP = 17 then
    if s.opData.size ≤ maxAddr then some { s with opData := learnPort s.opData p.uhSport }
    else none
  else some s

def gatewayStep (s : Forwarder) : GatewayLabel → Option Forwarder
  | .control m _ => control s m
  | .capture p => capture s p

/-- The body of the loop over `forward_pair`, which is the same for both versions. -/
def forwardBy (p : Packet) (e : Str × Str × Str) : Option Packet :=
  if e.1 = dotted p.ipSrc ∧ e.2.1 = dotted p.ipDst then
    some (p.setSrc (inetAddr e.2.2)).checksummed
  else if e.1 = dotted p.ipDst ∧ e.2.1 = dotted p.ipSrc then
    some (p.setDst (inetAddr e.2.2)).checksummed
  else none

/-- The packet that `packet_handler` gives to `forward`. -/
def forwarded (s : Forwarder) (p : Packet) : Option Packet :=
  if s.isForward && !s.opData.isTcp then s.forwardPair.findSome? (forwardBy p) else none

/-! ### What the forwarding is for -/

def be16 (hi lo : UInt8) : UInt16 := UInt16.ofNat (256 * hi.toNat + lo.toNat)

def Packet.ip6Addr (p : Packet) (offset : ℕ) : Vector UInt16 8 :=
  Vector.ofFn fun i : Fin 8 => be16 (p.byte (offset + 2 * i)) (p.byte (offset + 2 * i + 1))

/-- A packet of a version has a source and a destination. -/
def Packet.Carries (p : Packet) : IpAddr → IpAddr → Prop
  | .v4 src, .v4 dst => p.ipV = 4 ∧ p.ipSrc = src ∧ p.ipDst = dst
  | .v6 src, .v6 dst => p.ipV = 6 ∧ p.ip6Addr 8 = src ∧ p.ip6Addr 24 = dst
  | _, _ => False

def Packet.IsUdp (p : Packet) : Prop := if p.ipV = 6 then p.byte 6 = 17 else p.ipP = 17

instance (p : Packet) : Decidable p.IsUdp := by unfold Packet.IsUdp; infer_instance

def Packet.Belongs (p : Packet) (σ : Session) : Prop :=
  p.IsUdp ∧ (p.Carries σ.client σ.server ∨ p.Carries σ.server σ.client)

def sessionOf (a : RecordedAddr × RecordedAddr) : Session :=
  if a.1.isFour then ⟨.v4 a.1.ip4, .v4 a.2.ip4⟩ else ⟨.v6 a.1.ip6, .v6 a.2.ip6⟩

def suspendedBy (ls : List GatewayLabel) : List Session :=
  ls.flatMap fun
    | .control m _ => if m.op = .suspend ∧ m.isTcp = false then (pairs m).map sessionOf else []
    | .capture _ => []

def resumeOf (σ : Session) : GatewayLabel → Option IpAddr
  | .control m session =>
    if m.op = .resume ∧ m.isTcp = false ∧ session = σ then
      some (if m.addr[0].1.isFour then .v4 m.addr[0].1.ip4 else .v6 m.addr[0].1.ip6)
    else none
  | .capture _ => none

def resumedFrom (ls : List GatewayLabel) (σ : Session) : Option IpAddr :=
  (ls.filterMap (resumeOf σ)).getLast?

/-- After a run, the packets of the resumed sessions are sent on to where their servers
are, and no others are. -/
structure Forwards (ls : List GatewayLabel) (s : Forwarder) : Prop where
  resumed : ∀ σ r, resumedFrom ls σ = some r →
    ∀ p : Packet, p.IsUdp → p.Carries σ.client σ.server →
      ∃ q, forwarded s p = some q ∧ q.Carries σ.client r
  others : ∀ p : Packet, (∀ σ r, resumedFrom ls σ = some r → ¬p.Belongs σ) →
    forwarded s p = none

/-! ### The entries of a run -/

/-- All that is in `forward_pair` has been put there by a suspend message. -/
def AllSuspended (s : Forwarder) : Prop :=
  ∀ e ∈ s.forwardPair, ∃ a : RecordedAddr × RecordedAddr, e = forwardEntry a

theorem allSuspended_step (s : Forwarder) (l : GatewayLabel) (t : Forwarder)
    (hs : AllSuspended s) (h : gatewayStep s l = some t) : AllSuspended t := by
  cases l with
  | capture p =>
    simp only [gatewayStep, capture] at h
    split at h
    · split at h
      · obtain rfl := Option.some.inj h
        exact hs
      · cases h
    · obtain rfl := Option.some.inj h
      exact hs
  | control m session =>
    simp only [gatewayStep, control] at h
    have hsuspend : ∀ o : OpData, AllSuspended { s with
        forwardPair := s.forwardPair ++ (pairs m).map forwardEntry, opData := o } := by
      intro o e he
      rcases List.mem_append.mp he with he | he
      · exact hs e he
      · obtain ⟨a, -, ha⟩ := List.mem_map.mp he
        exact ⟨a, ha.symm⟩
    split at h
    · split at h
      · obtain rfl := Option.some.inj h
        exact hsuspend _
      · cases h
    · split at h
      · obtain rfl := Option.some.inj h
        exact hsuspend _
      · cases h
    · split at h
      · cases h
      · obtain rfl := Option.some.inj h
        exact hs
    · split at h
      · cases h
      · obtain rfl := Option.some.inj h
        exact hs
    · obtain rfl := Option.some.inj h
      exact hs
    · obtain rfl := Option.some.inj h
      exact hs

theorem forwardEntry_new (a : RecordedAddr × RecordedAddr) : (forwardEntry a).2.2 = [] := by
  unfold forwardEntry
  split <;> rfl

theorem forwardBy_nil {p q : Packet} {e : Str × Str × Str} (he : e.2.2 = [])
    (h : forwardBy p e = some q) :
    (q.ipSrc = inaddrNone ∧ q.ipDst = p.ipDst) ∨ (q.ipSrc = p.ipSrc ∧ q.ipDst = inaddrNone) := by
  unfold forwardBy at h
  rw [he, inetAddr_nil] at h
  split at h
  · obtain rfl := Option.some.inj h
    rw [ipSrc_checksummed, ipDst_checksummed, ipSrc_setSrc, ipDst_setSrc]
    exact Or.inl ⟨rfl, rfl⟩
  · split at h
    · obtain rfl := Option.some.inj h
      rw [ipSrc_checksummed, ipDst_checksummed, ipSrc_setDst, ipDst_setDst]
      exact Or.inr ⟨rfl, rfl⟩
    · cases h

theorem forwarded_broadcast {s : Forwarder} (hs : AllSuspended s) {p q : Packet}
    (h : forwarded s p = some q) :
    (q.ipSrc = inaddrNone ∧ q.ipDst = p.ipDst) ∨ (q.ipSrc = p.ipSrc ∧ q.ipDst = inaddrNone) := by
  unfold forwarded at h
  split at h
  · obtain ⟨e, he, hq⟩ := List.exists_of_findSome?_eq_some h
    obtain ⟨a, rfl⟩ := hs e he
    exact forwardBy_nil (forwardEntry_new a) hq
  · cases h

theorem forwardBy_six (p : Packet) {a : RecordedAddr × RecordedAddr} (ha : a.1.isFour = false) :
    forwardBy p (forwardEntry a) = none := by
  simp [forwardBy, forwardEntry, ha, hextets_ne_dotted]

theorem forwardBy_four {p : Packet} {a : RecordedAddr × RecordedAddr} (ha : a.1.isFour = true)
    (hsrc : p.ipSrc = a.2.ip4) (hdst : p.ipDst = a.1.ip4) :
    ∃ q, forwardBy p (forwardEntry a) = some q := by
  unfold forwardBy forwardEntry
  simp only [ha, if_true, hsrc, hdst]
  split
  · exact ⟨_, rfl⟩
  · exact ⟨_, rfl⟩

/-! ### Packets with given addresses -/

def packet4 (proto : UInt8) (src dst : Vector UInt8 4) : Packet :=
  ⟨[0x45, 0, 0, 20, 0, 0, 0, 0, 64, proto, 0, 0,
    getElem src 0 first_lt, getElem src 1 second_lt,
    getElem src 2 third_lt, getElem src 3 fourth_lt,
    getElem dst 0 first_lt, getElem dst 1 second_lt,
    getElem dst 2 third_lt, getElem dst 3 fourth_lt], Nat.le_refl _⟩

theorem packet4_src (proto : UInt8) (src dst : Vector UInt8 4) :
    (packet4 proto src dst).ipSrc = src := vector_four src

theorem packet4_dst (proto : UInt8) (src dst : Vector UInt8 4) :
    (packet4 proto src dst).ipDst = dst := vector_four dst

def octets (a : Vector UInt16 8) : List UInt8 :=
  a.toList.flatMap fun w => [UInt8.ofNat (w.toNat / 256), UInt8.ofNat w.toNat]

theorem octets_length (a : Vector UInt16 8) : (octets a).length = 16 := by
  simp [octets, List.length_flatMap]

theorem be16_octets (w : UInt16) :
    be16 (UInt8.ofNat (w.toNat / 256)) (UInt8.ofNat w.toNat) = w := by
  apply UInt16.toNat.inj
  have hw : w.toNat < 65536 := w.toNat_lt
  simp only [be16, UInt16.toNat_ofNat', UInt8.toNat_ofNat']
  omega

theorem words_octets (ws : List UInt16) (i : ℕ) (hi : i < ws.length) :
    be16 ((ws.flatMap fun w => [UInt8.ofNat (w.toNat / 256), UInt8.ofNat w.toNat]).getD (2 * i) 0)
      ((ws.flatMap fun w => [UInt8.ofNat (w.toNat / 256), UInt8.ofNat w.toNat]).getD (2 * i + 1) 0)
      = ws[i] := by
  induction ws generalizing i with
  | nil => cases hi
  | cons w ws ih =>
    cases i with
    | zero => exact be16_octets w
    | succ i =>
      have htail := ih i (Nat.lt_of_succ_lt_succ hi)
      have h2 : 2 * (i + 1) = 2 * i + 1 + 1 := by omega
      simpa [h2] using htail

def packet6 (src dst : Vector UInt16 8) : Packet :=
  ⟨[0x60, 0, 0, 0, 0, 0, 17, 64] ++ octets src ++ octets dst, by
    simp only [List.length_append, octets_length]
    decide⟩

theorem packet6_src (src dst : Vector UInt16 8) : (packet6 src dst).ip6Addr 8 = src := by
  apply Vector.ext
  intro i hi
  have hlen : i < src.toList.length := by simpa using hi
  have hw := words_octets src.toList i hlen
  have hbyte : ∀ k, k < 16 → (packet6 src dst).byte (8 + k) = (octets src).getD k 0 := by
    intro k hk
    simp only [packet6, Packet.byte, List.getD_eq_getElem?_getD, List.append_assoc]
    rw [List.getElem?_append_right (by simp),
      List.getElem?_append_left (by simp [octets_length, hk])]
    simp
  simp only [Packet.ip6Addr, Vector.getElem_ofFn, Nat.add_assoc]
  rw [hbyte (2 * i) (by omega), hbyte (2 * i + 1) (by omega)]
  simpa [octets] using hw

theorem packet6_dst (src dst : Vector UInt16 8) : (packet6 src dst).ip6Addr 24 = dst := by
  apply Vector.ext
  intro i hi
  have hlen : i < dst.toList.length := by simpa using hi
  have hw := words_octets dst.toList i hlen
  have hbyte : ∀ k, (packet6 src dst).byte (24 + k) = (octets dst).getD k 0 := by
    intro k
    simp only [packet6, Packet.byte, List.getD_eq_getElem?_getD]
    rw [List.getElem?_append_right (by simp [octets_length])]
    simp [octets_length]
  simp only [Packet.ip6Addr, Vector.getElem_ofFn, Nat.add_assoc]
  rw [hbyte (2 * i), hbyte (2 * i + 1)]
  simpa [octets] using hw

theorem exists_udp_packet (a : RecordedAddr × RecordedAddr) :
    ∃ p : Packet, p.IsUdp ∧ p.Carries (sessionOf a).client (sessionOf a).server := by
  unfold sessionOf
  cases ha : a.1.isFour with
  | true =>
    refine ⟨packet4 17 a.2.ip4 a.1.ip4, ?_, ?_, packet4_src _ _ _, packet4_dst _ _ _⟩
    · simp [Packet.IsUdp, packet4, Packet.ipV, Packet.ipP, Packet.byte]
    · simp [packet4, Packet.ipV, Packet.byte]
  | false =>
    refine ⟨packet6 a.2.ip6 a.1.ip6, ?_, ?_, packet6_src _ _, packet6_dst _ _⟩
    · simp [Packet.IsUdp, packet6, Packet.ipV, Packet.byte]
    · simp [packet6, Packet.ipV, Packet.byte]

theorem resumedFrom_append {before after : List GatewayLabel} {σ : Session} {r : IpAddr}
    (h : resumedFrom after σ = some r) : resumedFrom (before ++ after) σ = some r := by
  simp only [resumedFrom, List.filterMap_append, List.getLast?_append] at h ⊢
  rw [h]
  rfl

theorem suspendedBy_pair {ls : List GatewayLabel} {σ : Session} (h : σ ∈ suspendedBy ls) :
    ∃ a : RecordedAddr × RecordedAddr, σ = sessionOf a := by
  obtain ⟨l, -, hl⟩ := List.mem_flatMap.mp h
  cases l with
  | capture p => cases hl
  | control m session =>
    simp only at hl
    split at hl
    · obtain ⟨a, -, ha⟩ := List.mem_map.mp hl
      exact ⟨a, ha.symm⟩
    · cases hl

/-- No session that was suspended and then resumed is ever forwarded as it should be:
what the gateway sends on at all goes to 255.255.255.255, or claims to come from there. -/
theorem gateway_never_forwards (s t : Forwarder) (before after : List GatewayLabel)
    (σ : Session) (r : IpAddr) (hs : s.forwardPair = [])
    (h : Run.exec gatewayStep s (before ++ after) = some t) (hsuspended : σ ∈ suspendedBy before)
    (hresumed : resumedFrom after σ = some r) :
    ¬Forwards (before ++ after) t ∧
    ∀ p q, forwarded t p = some q →
      (q.ipSrc = inaddrNone ∧ q.ipDst = p.ipDst) ∨
      (q.ipSrc = p.ipSrc ∧ q.ipDst = inaddrNone) := by
  have hall : AllSuspended t := by
    apply Run.exec_invariant AllSuspended allSuspended_step s t (before ++ after) ?_ h
    intro e he
    rw [hs] at he
    cases he
  refine ⟨fun hforwards => ?_, fun p q => forwarded_broadcast hall⟩
  obtain ⟨pair, rfl⟩ := suspendedBy_pair hsuspended
  obtain ⟨p, hudp, hcarries⟩ := exists_udp_packet pair
  obtain ⟨q, hq, -⟩ := hforwards.resumed _ r (resumedFrom_append hresumed) p hudp hcarries
  unfold forwarded at hq
  split at hq
  · rename_i hon
    obtain ⟨e, he, hqe⟩ := List.exists_of_findSome?_eq_some hq
    obtain ⟨a, rfl⟩ := hall e he
    cases ha : a.1.isFour with
    | false => exact absurd (forwardBy_six p ha) (by simp [hqe])
    | true =>
      -- a TCP packet between the hosts of this entry belongs to no UDP session
      obtain ⟨u, hu⟩ := forwardBy_four ha (packet4_src 6 a.2.ip4 a.1.ip4) (packet4_dst 6 _ _)
      have hnone := hforwards.others (packet4 6 a.2.ip4 a.1.ip4) fun σ r _ hbelongs => by
        have hno : ¬(packet4 6 a.2.ip4 a.1.ip4).IsUdp := by
          simp [Packet.IsUdp, packet4, Packet.ipV, Packet.ipP, Packet.byte]
        exact hno hbelongs.1
      unfold forwarded at hnone
      rw [if_pos hon, List.findSome?_eq_none_iff] at hnone
      exact absurd (hnone _ he) (by simp [hu])
  · cases hq

/-- An address in the network of the gateway. -/
def dockerHost (n : UInt8) (port : UInt16) : RecordedAddr :=
  { ip4 := #v[172, 17, 0, n], isFour := true, port := port }

def udpMessage (op : Sockets.Opcode) (server : RecordedAddr) : OpData :=
  ⟨op, false, 1, #v[(server, dockerHost 3 8000), ({}, {}), ({}, {}), ({}, {}), ({}, {})]⟩

def udpSession : Session := sessionOf (dockerHost 2 9000, dockerHost 3 8000)

def gatewayStart : Forwarder := ⟨[], false, udpMessage .init {}⟩

/-- The server moves from host 2 to host 4. -/
def suspendUdp : GatewayLabel := .control (udpMessage .suspend (dockerHost 2 9000)) udpSession

def resumeUdp : GatewayLabel := .control (udpMessage .resume (dockerHost 4 9000)) udpSession

theorem gateway_never_forwards_udp :
    ∃ t, Run.exec gatewayStep gatewayStart [suspendUdp, resumeUdp] = some t ∧
      ¬Forwards [suspendUdp, resumeUdp] t := by
  obtain ⟨t, ht⟩ : ∃ t, Run.exec gatewayStep gatewayStart ([suspendUdp] ++ [resumeUdp]) = some t :=
    ⟨_, rfl⟩
  exact ⟨t, ht, (gateway_never_forwards gatewayStart t [suspendUdp] [resumeUdp] udpSession
    (.v4 #v[172, 17, 0, 4]) rfl ht (by decide) (by decide)).1⟩

/-- The packet from host 3 to host 2 is not sent on to host 4. -/
theorem udp_not_forwarded :
    ¬∀ (s t : Forwarder) (before after : List GatewayLabel) (σ : Session) (r : IpAddr),
      s.forwardPair = [] → s.isForward = false →
      Run.exec gatewayStep s (before ++ after) = some t → σ ∈ suspendedBy before →
      resumedFrom after σ = some r → Forwards (before ++ after) t := by
  intro hclaim
  obtain ⟨t, ht⟩ : ∃ t, Run.exec gatewayStep gatewayStart ([suspendUdp] ++ [resumeUdp]) = some t :=
    ⟨_, rfl⟩
  have hforwards := hclaim gatewayStart t [suspendUdp] [resumeUdp] udpSession
    (.v4 #v[172, 17, 0, 4]) rfl rfl ht (by decide) (by decide)
  have hall : AllSuspended t := Run.exec_invariant AllSuspended allSuspended_step gatewayStart t
    _ (fun e he => by cases he) ht
  obtain ⟨q, hq, -, -, hdst⟩ := hforwards.resumed udpSession (.v4 #v[172, 17, 0, 4]) (by decide)
    (packet4 17 #v[172, 17, 0, 3] #v[172, 17, 0, 2]) (by decide) ⟨rfl, rfl, rfl⟩
  rcases forwarded_broadcast hall hq with ⟨-, h⟩ | ⟨-, h⟩
  · exact absurd (hdst.symm.trans h) (by decide)
  · exact absurd (hdst.symm.trans h) (by decide)

end MVVM.Gateway
