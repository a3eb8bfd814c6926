import MVVM.Gateway.Forward

/-!
# The indices of the gateway (gateway/main.cpp:231-234, 399-432, 461-470, 555-575)

The size of a message comes from the network and bounds the loops over `op_data->addr`;
`MVVM_SOCK_RESUME` takes the last element of `forward_pair`.
-/

namespace MVVM.Gateway

open MVVM.Sockets (OpData Opcode maxAddr)

def IsSuspend (op : Opcode) : Prop := op = .suspend ∨ op = .suspendTcpServer

instance (op : Opcode) : Decidable (IsSuspend op) := by unfold IsSuspend; infer_instance

def IsResume (op : Opcode) : Prop := op = .resume ∨ op = .resumeTcpServer

/-- A packet whose handler goes through the addresses. -/
def Packet.LearnsPort (p : Packet) : Prop := p.ipV ≠ 6 ∧ p.ipP = 17

instance (p : Packet) : Decidable p.LearnsPort := by unfold Packet.LearnsPort; infer_instance

/-- The rounds of a suspend message, each of which reads the ports of the first pair too. -/
def suspendIndices (size : ℤ) : List ℕ := (List.range size.toNat).flatMap fun idx => [idx, 0]

/-- `size() - 1`, a `size_t`. -/
def lastIndex (size : ℕ) : ℕ := (size + (2 ^ 64 - 1)) % 2 ^ 64

/-- The indices into `op_data->addr`. -/
def addrIndices (s : Forwarder) : GatewayLabel → List ℕ
  | .control m _ =>
    match m.op with
    | .suspend | .suspendTcpServer => suspendIndices m.size
    | .resume | .resumeTcpServer | .init => [0]
    | .fin => []
  | .capture p => if p.LearnsPort then List.range s.opData.size.toNat else []

/-- The indices into `forward_pair`. -/
def pairIndices (s : Forwarder) : GatewayLabel → List ℕ
  | .control m _ =>
    match m.op with
    | .resume | .resumeTcpServer => [lastIndex s.forwardPair.length]
    | _ => []
  | .capture _ => []

structure InRange (s : Forwarder) (l : GatewayLabel) : Prop where
  addr : ∀ i ∈ addrIndices s l, i < maxAddr
  pair : ∀ i ∈ pairIndices s l, i < s.forwardPair.length

/-! ### The history of a run -/

def controls (ls : List GatewayLabel) : List OpData :=
  ls.filterMap fun
    | .control m _ => some m
    | .capture _ => none

/-- The size in `op_data`, which is `o` before the first message. -/
def lastSize (o : OpData) (ls : List GatewayLabel) : ℤ := ((controls ls).getLast?.getD o).size

/-- A pair of addresses has been suspended. -/
def HasPair (ls : List GatewayLabel) : Prop :=
  ∃ m ∈ controls ls, IsSuspend m.op ∧ 0 < m.size

/-- A suspend message counts no more pairs than there are, a resume message comes after one
with a pair, and the addresses are gone through while no more are counted than there are. -/
def Admissible (o : OpData) (before : List GatewayLabel) : GatewayLabel → Prop
  | .control m _ => (IsSuspend m.op → m.size ≤ maxAddr) ∧ (IsResume m.op → HasPair before)
  | .capture p => p.LearnsPort → lastSize o before ≤ maxAddr

/-- What the state keeps of the history. -/
structure History (o : OpData) (ls : List GatewayLabel) (s : Forwarder) : Prop where
  size : s.opData.size = lastSize o ls
  pairs : s.forwardPair ≠ [] ↔ HasPair ls

theorem range_inside {n : ℤ} : (∀ i ∈ List.range n.toNat, i < maxAddr) ↔ n ≤ maxAddr := by
  simp only [List.mem_range]
  constructor
  · intro h
    by_contra hn
    have hlt := h maxAddr (by omega)
    omega
  · intro h i hi
    omega

theorem suspendIndices_inside {size : ℤ} :
    (∀ i ∈ suspendIndices size, i < maxAddr) ↔ size ≤ maxAddr := by
  rw [← range_inside]
  constructor
  · intro h i hi
    exact h i (List.mem_flatMap.mpr ⟨i, hi, List.mem_cons_self⟩)
  · intro h i hi
    obtain ⟨j, hj, hi⟩ := List.mem_flatMap.mp hi
    rcases List.mem_cons.mp hi with rfl | hi
    · exact h i hj
    · rw [List.mem_singleton.mp hi]
      decide

theorem lastIndex_lt_iff (n : ℕ) : lastIndex n < n ↔ n ≠ 0 := by
  unfold lastIndex
  constructor
  · intro h hn
    omega
  · intro h
    by_cases hn : n ≤ 2 ^ 64
    · have hwrap : n + (2 ^ 64 - 1) = (n - 1) + 2 ^ 64 := by omega
      rw [hwrap, Nat.add_mod_right, Nat.mod_eq_of_lt (by omega)]
      omega
    · exact (Nat.mod_lt _ (by decide)).trans (by omega)

theorem inRange_iff {s : Forwarder} {l : GatewayLabel} :
    InRange s l ↔ (∀ i ∈ addrIndices s l, i < maxAddr) ∧
      ∀ i ∈ pairIndices s l, i < s.forwardPair.length :=
  ⟨fun h => ⟨h.addr, h.pair⟩, fun h => ⟨h.1, h.2⟩⟩

theorem inRange_control (s : Forwarder) (m : OpData) (session : Session) :
    InRange s (.control m session) ↔
      (IsSuspend m.op → m.size ≤ maxAddr) ∧ (IsResume m.op → s.forwardPair ≠ []) := by
  have hfirst : 0 < maxAddr := by decide
  have hlast : lastIndex s.forwardPair.length < s.forwardPair.length ↔ s.forwardPair ≠ [] := by
    rw [lastIndex_lt_iff, ne_eq, List.length_eq_zero_iff]
  rw [inRange_iff]
  cases hop : m.op with
  | suspend => simp [addrIndices, pairIndices, hop, suspendIndices_inside, IsSuspend, IsResume]
  | suspendTcpServer =>
    simp [addrIndices, pairIndices, hop, suspendIndices_inside, IsSuspend, IsResume]
  | resume => simp [addrIndices, pairIndices, hop, hlast, hfirst, IsSuspend, IsResume]
  | resumeTcpServer => simp [addrIndices, pairIndices, hop, hlast, hfirst, IsSuspend, IsResume]
  | init => simp [addrIndices, pairIndices, hop, hfirst, IsSuspend, IsResume]
  | fin => simp [addrIndices, pairIndices, hop, IsSuspend, IsResume]

theorem inRange_capture (s : Forwarder) (p : Packet) :
    InRange s (.capture p) ↔ (p.LearnsPort → s.opData.size ≤ maxAddr) := by
  have haddr : addrIndices s (.capture p) =
      if p.LearnsPort then List.range s.opData.size.toNat else [] := rfl
  rw [inRange_iff, haddr]
  by_cases hp : p.LearnsPort
  · rw [if_pos hp, range_inside]
    exact ⟨fun h _ => h.1, fun h => ⟨h hp, fun i hi => absurd hi List.not_mem_nil⟩⟩
  · rw [if_neg hp]
    refine iff_of_true ⟨?_, ?_⟩ fun h => absurd h hp
    · exact fun i hi => absurd hi List.not_mem_nil
    · exact fun i hi => absurd hi List.not_mem_nil

/-! ### The states of a run -/

theorem gatewayStep_isSome_iff (s : Forwarder) (l : GatewayLabel) :
    (∃ t, gatewayStep s l = some t) ↔ InRange s l := by
  cases l with
  | control m session =>
    rw [inRange_control]
    simp only [gatewayStep, control]
    cases hop : m.op with
    | suspend => by_cases h : m.size ≤ maxAddr <;> simp [h, IsSuspend, IsResume]
    | suspendTcpServer => by_cases h : m.size ≤ maxAddr <;> simp [h, IsSuspend, IsResume]
    | resume => by_cases h : s.forwardPair = [] <;> simp [h, IsSuspend, IsResume]
    | resumeTcpServer => by_cases h : s.forwardPair = [] <;> simp [h, IsSuspend, IsResume]
    | init => simp [IsSuspend, IsResume]
    | fin => simp [IsSuspend, IsResume]
  | capture p =>
    have hcapture : capture s p = if p.LearnsPort then
        if s.opData.size ≤ maxAddr then some { s with opData := learnPort s.opData p.uhSport }
        else none else some s := rfl
    rw [inRange_capture, gatewayStep, hcapture]
    by_cases hp : p.LearnsPort
    · rw [if_pos hp]
      by_cases h : s.opData.size ≤ maxAddr <;> simp [h, hp]
    · simp [hp]

theorem controls_control (ls : List GatewayLabel) (m : OpData) (session : Session) :
    controls (ls ++ [.control m session]) = controls ls ++ [m] := by
  simp [controls, List.filterMap_append]

theorem controls_capture (ls : List GatewayLabel) (p : Packet) :
    controls (ls ++ [.capture p]) = controls ls := by
  simp [controls, List.filterMap_append]

theorem pairs_ne_nil_iff (m : OpData) : pairs m ≠ [] ↔ 0 < m.size := by
  have hlen : m.addr.toList.length = maxAddr := m.addr.length_toList
  rw [← List.length_pos_iff, pairs, List.length_take, hlen]
  have hmax : maxAddr = 5 := rfl
  omega

/-- The size of a message is kept, and its pairs when it suspends. -/
theorem control_cases {s t : Forwarder} {m : OpData} (h : control s m = some t) :
    t.opData.size = m.size ∧ t.forwardPair =
      s.forwardPair ++ if IsSuspend m.op then (pairs m).map forwardEntry else [] := by
  have hfin : (if 0 < m.size then { m with op := .fin } else m).size = m.size := by
    split <;> rfl
  have hsuspend : ∀ op, m.op = op → IsSuspend op → s.forwardPair ++ (pairs m).map forwardEntry =
      s.forwardPair ++ if IsSuspend m.op then (pairs m).map forwardEntry else [] := by
    rintro _ rfl hop
    rw [if_pos hop]
  have hother : ∀ op, m.op = op → ¬IsSuspend op → s.forwardPair =
      s.forwardPair ++ if IsSuspend m.op then (pairs m).map forwardEntry else [] := by
    rintro _ rfl hop
    rw [if_neg hop, List.append_nil]
  unfold control at h
  split at h
  · next hop =>
    split at h
    · obtain rfl := Option.some.inj h
      exact ⟨hfin, hsuspend _ hop (by decide)⟩
    · cases h
  · next hop =>
    split at h
    · obtain rfl := Option.some.inj h
      exact ⟨hfin, hsuspend _ hop (by decide)⟩
    · cases h
  · next hop =>
    split at h
    · cases h
    · obtain rfl := Option.some.inj h
      exact ⟨rfl, hother _ hop (by decide)⟩
  · next hop =>
    split at h
    · cases h
    · obtain rfl := Option.some.inj h
      exact ⟨rfl, hother _ hop (by decide)⟩
  · next hop =>
    obtain rfl := Option.some.inj h
    exact ⟨rfl, hother _ hop (by decide)⟩
  · next hop =>
    obtain rfl := Option.some.inj h
    exact ⟨rfl, hother _ hop (by decide)⟩

theorem history_control {o : OpData} {ls : List GatewayLabel} {s t : Forwarder} {m : OpData}
    {session : Session} (h : History o ls s) (hstep : control s m = some t) :
    History o (ls ++ [.control m session]) t := by
  obtain ⟨hsize, hpairs⟩ := control_cases hstep
  have hlast : lastSize o (ls ++ [.control m session]) = m.size := by
    rw [lastSize, controls_control, List.getLast?_concat, Option.getD_some]
  have hpair : HasPair (ls ++ [.control m session]) ↔
      HasPair ls ∨ IsSuspend m.op ∧ 0 < m.size := by
    simp only [HasPair, controls_control, List.mem_append, List.mem_singleton, or_and_right,
      exists_or, exists_eq_left]
  refine ⟨hsize.trans hlast.symm, ?_⟩
  rw [hpairs, hpair, ← h.pairs, ne_eq, List.append_eq_nil_iff, not_and_or]
  refine or_congr_right ?_
  by_cases hop : IsSuspend m.op
  · rw [if_pos hop, List.map_eq_nil_iff, ← ne_eq (pairs m), pairs_ne_nil_iff, and_iff_right hop]
  · rw [if_neg hop]
    exact iff_of_false (fun hne => hne rfl) fun hand => hop hand.1

theorem history_capture {o : OpData} {ls : List GatewayLabel} {s t : Forwarder} {p : Packet}
    (h : History o ls s) (hstep : capture s p = some t) : History o (ls ++ [.capture p]) t := by
  have hsame : t.opData.size = s.opData.size ∧ t.forwardPair = s.forwardPair := by
    unfold capture at hstep
    split at hstep
    · split at hstep
      · obtain rfl := Option.some.inj hstep
        exact ⟨rfl, rfl⟩
      · cases hstep
    · obtain rfl := Option.some.inj hstep
      exact ⟨rfl, rfl⟩
  refine ⟨?_, ?_⟩
  · rw [hsame.1, h.size, lastSize, lastSize, controls_capture]
  · rw [hsame.2, h.pairs, HasPair, HasPair, controls_capture]

theorem history_step {o : OpData} {ls : List GatewayLabel} {s t : Forwarder} {l : GatewayLabel}
    (h : History o ls s) (hstep : gatewayStep s l = some t) : History o (ls ++ [l]) t := by
  cases l with
  | control m session => exact history_control h hstep
  | capture p => exact history_capture h hstep

theorem admissible_iff {o : OpData} {ls : List GatewayLabel} {s : Forwarder} (h : History o ls s)
    (l : GatewayLabel) : InRange s l ↔ Admissible o ls l := by
  cases l with
  | control m session => rw [inRange_control, h.pairs, Admissible]
  | capture p => rw [inRange_capture, h.size, Admissible]

theorem history_start (o : OpData) : History o [] ⟨[], false, o⟩ := by
  refine ⟨rfl, iff_of_false (fun h => h rfl) fun ⟨m, hm, _⟩ => ?_⟩
  exact List.not_mem_nil hm

theorem along_admissible {o : OpData} {s : Forwarder} (h : History o [] s)
    (ls : List GatewayLabel) :
    Run.Along gatewayStep InRange s ls ↔
      ∀ before l after, ls = before ++ l :: after → Admissible o before l := by
  refine Run.along_iff_history (History o) (fun _ _ l h => admissible_iff h l) ?_ h
  intro ls s l h hrange
  obtain ⟨t, ht⟩ := (gatewayStep_isSome_iff s l).mpr hrange
  exact ⟨t, ht, history_step h ht⟩

/-- No index is out of range just when every message and every packet is admissible. -/
theorem indices_inRange_iff (o : OpData) (ls : List GatewayLabel) :
    Run.Along gatewayStep InRange ⟨[], false, o⟩ ls ↔
      ∀ before l after, ls = before ++ l :: after → Admissible o before l :=
  along_admissible (history_start o) ls

/-- The first message resumes, and there is no last pair. -/
theorem resume_without_pair :
    ¬∀ (o : OpData) (ls : List GatewayLabel),
      Run.Along gatewayStep InRange ⟨[], false, o⟩ ls := by
  intro hclaim
  obtain ⟨hrange, -⟩ := hclaim (udpMessage .init {}) [resumeUdp]
  exact absurd (hrange.pair _ List.mem_cons_self) (by decide)

end MVVM.Gateway
