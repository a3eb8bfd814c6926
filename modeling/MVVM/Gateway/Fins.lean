import MVVM.Gateway.Pairs
import MVVM.Gateway.Relay

/-!
# The FINs of a suspend message (gateway/main.cpp:402-459)

For each pair of addresses the gateway tells one end of the session that the other one
pauses. Which end that is depends on the opcode of the message.
-/

namespace MVVM.Gateway

open MVVM.Sockets (OpData Opcode RecordedAddr maxAddr maxAddr_pos)
open MVVM.Text (Str)

/-- What is sent: by `send_fin`, or on a socket of the entry of `tcp_pair`. -/
inductive FinMsg where
  | udp (sourceIp : Str) (sourcePort : UInt16) (destIp : Str) (destPort : UInt16)
  | tcp (key : Str) (side : Side) (fd : ℤ)
  deriving DecidableEq

/-- A round of the loop: the addresses and ports that it has taken for the pair, and its FIN. -/
structure Handled where
  serverIp : Str
  serverPort : UInt16
  clientIp : Str
  clientPort : UInt16
  fin : FinMsg
  deriving DecidableEq

def ConnectionPair.socket (cp : ConnectionPair) : Side → ℤ
  | .server => cp.newServer
  | .client => cp.newClient

def tcpFin (lookup : Str → ConnectionPair) (key : Str) (side : Side) : FinMsg :=
  .tcp key side ((lookup key).socket side)

/-- Where the FIN goes that an opcode asks for. -/
def finSide (op : Opcode) : Side := if op = .suspendTcpServer then .client else .server

/-- A round; `op` is the opcode that stands in `op_data`. -/
def handleRound (m : OpData) (op : Opcode) (lookup : Str → ConnectionPair)
    (a : RecordedAddr × RecordedAddr) : Handled :=
  let serverIp := (forwardEntry a).1
  let clientIp := (forwardEntry a).2.1
  let serverPort := (getElem m.addr 0 maxAddr_pos).1.port
  let clientPort := (getElem m.addr 0 maxAddr_pos).2.port
  ⟨serverIp, serverPort, clientIp, clientPort,
    if m.isTcp then tcpFin lookup (addressKey serverIp serverPort.toNat) (finSide op)
    else .udp clientIp clientPort serverIp serverPort⟩

/-- The thread objects that a round deletes before it sends the FIN. -/
def stoppedThreads (m : OpData) (lookup : Str → ConnectionPair) (a : RecordedAddr × RecordedAddr) :
    List ℕ :=
  if m.isTcp then
    (lookup (addressKey (forwardEntry a).1 (getElem m.addr 0 maxAddr_pos).1.port.toNat)).threads
  else []

/-- The rounds of `suspendPair`. The gateway does not come to the FIN of a round that deletes a
thread object a second time. -/
def handledPairs (m : OpData) : Globals → List (RecordedAddr × RecordedAddr) → List Handled
  | _, [] => []
  | g, a :: as =>
    if (stoppedThreads m g.lookup a).Nodup ∧ ∀ i ∈ stoppedThreads m g.lookup a, i ∉ g.deleted then
      handleRound m g.op g.lookup a :: handledPairs m (g.suspendPair m a) as
    else []

/-- What a pair has to get, whatever the other pairs are. -/
def Handled.due (m : OpData) (lookup : Str → ConnectionPair) (a : RecordedAddr × RecordedAddr) :
    Handled :=
  let serverIp := (forwardEntry a).1
  let clientIp := (forwardEntry a).2.1
  ⟨serverIp, a.1.port, clientIp, a.2.port,
    if m.isTcp then
      tcpFin lookup (serverKey a) (if m.op = .suspendTcpServer then .client else .server)
    else .udp clientIp a.2.port serverIp a.1.port⟩

def HandlesEach (g : Globals) (m : OpData) : Prop :=
  handledPairs m { g with op := m.op } (pairs m) = (pairs m).map (Handled.due m g.lookup)

variable {m : OpData} {op : Opcode} {g : Globals} {lookup : Str → ConnectionPair}
  {a : RecordedAddr × RecordedAddr}

theorem lookup_assign (g : Globals) (key : Str) :
    (g.assign key (g.lookup key)).lookup = g.lookup := by
  funext k
  unfold Globals.lookup
  rw [assign_tcpPair]
  by_cases hk : k = key
  · rw [if_pos hk, hk, Option.getD_some]
  · rw [if_neg hk]

theorem lookup_suspendPair (m : OpData) (g : Globals) (a : RecordedAddr × RecordedAddr) :
    (g.suspendPair m a).lookup = g.lookup := by
  unfold Globals.suspendPair
  simp only
  split
  · exact lookup_assign g (addressKey (forwardEntry a).1 m.addr[0].1.port.toNat)
  · rfl

theorem op_suspendPair (m : OpData) (g : Globals) (a : RecordedAddr × RecordedAddr) :
    (g.suspendPair m a).op = .fin := by
  unfold Globals.suspendPair
  simp only
  split <;> rfl

theorem deleted_suspendPair (m : OpData) (g : Globals) (a : RecordedAddr × RecordedAddr) :
    (g.suspendPair m a).deleted = g.deleted ++ stoppedThreads m g.lookup a := by
  unfold Globals.suspendPair stoppedThreads
  simp only
  split
  · rfl
  · rw [List.append_nil]

/-- The entries of the pairs have different thread objects, and none that has been deleted. -/
def DeletesOnce (m : OpData) (g : Globals) (as : List (RecordedAddr × RecordedAddr)) : Prop :=
  (as.flatMap (stoppedThreads m g.lookup)).Nodup ∧
    ∀ i ∈ as.flatMap (stoppedThreads m g.lookup), i ∉ g.deleted

theorem deletesOnce_cons {as : List (RecordedAddr × RecordedAddr)} :
    DeletesOnce m g (a :: as) ↔
      ((stoppedThreads m g.lookup a).Nodup ∧ ∀ i ∈ stoppedThreads m g.lookup a, i ∉ g.deleted) ∧
        DeletesOnce m (g.suspendPair m a) as := by
  have hnew : ∀ first rest : List ℕ, (∀ i ∈ rest, i ∉ g.deleted ++ first) ↔
      (∀ i ∈ rest, i ∉ g.deleted) ∧ first.Disjoint rest := by
    intro first rest
    simp only [List.mem_append, not_or, forall_and]
    exact and_congr_right fun _ => ⟨fun h i hi hr => h i hr hi, fun h i hr hi => h hi hr⟩
  rw [DeletesOnce, DeletesOnce, deleted_suspendPair, lookup_suspendPair, List.flatMap_cons,
    List.nodup_append', List.forall_mem_append, hnew]
  tauto

/-- Behind the first round the opcode is `MVVM_SOCK_FIN`. -/
theorem handledPairs_fin {as : List (RecordedAddr × RecordedAddr)} (hop : g.op = .fin)
    (h : DeletesOnce m g as) : handledPairs m g as = as.map (handleRound m .fin g.lookup) := by
  induction as generalizing g with
  | nil => rfl
  | cons a as ih =>
    obtain ⟨hfirst, hrest⟩ := deletesOnce_cons.mp h
    rw [handledPairs, if_pos hfirst, ih (op_suspendPair m g a) hrest, lookup_suspendPair, hop,
      List.map_cons]

theorem handledPairs_cons {as : List (RecordedAddr × RecordedAddr)}
    (h : DeletesOnce m g (a :: as)) :
    handledPairs m g (a :: as) =
      handleRound m g.op g.lookup a :: as.map (handleRound m .fin g.lookup) := by
  obtain ⟨hfirst, hrest⟩ := deletesOnce_cons.mp h
  rw [handledPairs, if_pos hfirst, handledPairs_fin (op_suspendPair m g a) hrest,
    lookup_suspendPair]

/-- A round is missing where an object would be deleted twice. -/
theorem deletesOnce_of_length {as : List (RecordedAddr × RecordedAddr)}
    (h : (handledPairs m g as).length = as.length) : DeletesOnce m g as := by
  induction as generalizing g with
  | nil => exact ⟨List.nodup_nil, by simp⟩
  | cons a as ih =>
    rw [handledPairs] at h
    split at h
    · next hfirst => exact deletesOnce_cons.mpr ⟨hfirst, ih (Nat.succ.inj h)⟩
    · cases h

theorem round_due_iff :
    handleRound m op lookup a = Handled.due m lookup a ↔
      (a.1.port = m.addr[0].1.port ∧ a.2.port = m.addr[0].2.port) ∧
        (m.isTcp = true → (op = .suspendTcpServer ↔ m.op = .suspendTcpServer)) := by
  unfold handleRound Handled.due
  simp only [Handled.mk.injEq, true_and]
  constructor
  · intro ⟨hserver, hclient, hfin⟩
    refine ⟨⟨hserver.symm, hclient.symm⟩, fun htcp => ?_⟩
    rw [if_pos htcp, if_pos htcp, tcpFin, tcpFin, FinMsg.tcp.injEq] at hfin
    obtain ⟨-, hside, -⟩ := hfin
    unfold finSide at hside
    by_cases hop : op = .suspendTcpServer
    · by_cases hmop : m.op = .suspendTcpServer
      · exact iff_of_true hop hmop
      · rw [if_pos hop, if_neg hmop] at hside
        cases hside
    · by_cases hmop : m.op = .suspendTcpServer
      · rw [if_neg hop, if_pos hmop] at hside
        cases hside
      · exact iff_of_false hop hmop
  · intro ⟨⟨hserver, hclient⟩, hside⟩
    refine ⟨hserver.symm, hclient.symm, ?_⟩
    cases htcp : m.isTcp with
    | false =>
      rw [if_neg Bool.false_ne_true, if_neg Bool.false_ne_true, hserver, hclient]
    | true =>
      rw [if_pos rfl, if_pos rfl, serverKey, hserver, finSide]
      simp only [hside htcp]

theorem length_pairs (h : m.size ≤ maxAddr) : (pairs m).length = m.size.toNat := by
  have hle : m.size.toNat ≤ maxAddr := by omega
  rw [pairs, List.length_take, Vector.length_toList, Nat.min_eq_left hle]

/-- The gateway with the sessions of two servers. -/
def twoSessions : Globals :=
  { (gatewayIdle.assign (serverKey (dockerHost 2 9000, dockerHost 3 40000))
      ⟨some 0, some 1, 7, 8, 9, false⟩).assign (serverKey (dockerHost 5 9000, dockerHost 4 40000))
      ⟨some 2, some 3, 10, 11, 12, false⟩ with threads := 4 }

/-- A message about both of them. -/
def twoServers (op : Opcode) : OpData :=
  ⟨op, true, 2, #v[(dockerHost 2 9000, dockerHost 3 40000), (dockerHost 5 9000, dockerHost 4 40000),
    ({}, {}), ({}, {}), ({}, {})]⟩

theorem stoppedThreads_twoServers (op : Opcode) :
    (pairs (twoServers op)).flatMap (stoppedThreads (twoServers op) twoSessions.lookup) =
      [0, 1, 2, 3] := by
  cases op <;> decide +kernel

theorem deletesOnce_twoServers (op : Opcode) :
    DeletesOnce (twoServers op) twoSessions (pairs (twoServers op)) := by
  unfold DeletesOnce
  rw [stoppedThreads_twoServers]
  exact ⟨by decide, fun _ _ => List.not_mem_nil⟩

end MVVM.Gateway
