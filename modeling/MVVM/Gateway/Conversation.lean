import MVVM.Gateway.Bounds
import MVVM.Sockets.Opcodes
import Mathlib.Data.List.Range

/-!
# What a program tells the gateway (wamr.cpp:806-957, wamr_export.cpp:157, 279-315,
restore.cpp:84-130)

A program goes from process to process: each is checkpointed, and the next one starts from
the snapshot. All of them send their `op_data`, over a connection for each message, and the
gateway takes the messages in the order in which they were sent, with captured packets in
between.
-/

namespace MVVM.Gateway

open MVVM.Sockets

/-- The process of a program, and what its processes have sent. -/
structure Lineage where
  opData : OpData
  localAddr : RecordedAddr
  socketFdMap : TrackedTable
  shouldSnapshot : Bool
  -- calls of `serialize_to_file` in `as_cv.wait`
  waiting : ℕ
  -- a call is past the test of `ready`; it holds `as_mtx`
  dumping : Bool
  -- the sockets in the snapshot of a process that is gone
  snapshot : Option TrackedTable
  sent : List OpData

inductive Act where
  | initGateway (address : RecordedAddr)
  | setTcp
  -- what the program and `restore_impl` do to `socket_fd_map_`
  | sockets (table : TrackedTable)
  -- a thread is counted in `serialize_to_file`
  | serialize (ready allCount : ℕ) (sockname : WasiAddr)
  -- `as_cv.wait` comes back without a notification
  | wake
  | dump
  -- the `main` of the restore; `socketFdMap` is in the last element of `a`
  | restore (socketFdMap : Std.TreeMap ℤ SocketMetaData) (localAddr : RecordedAddr) (uninit : Bool)

/-- `op_data {}`. -/
def opData0 : OpData := ⟨.suspend, false, 0, Vector.replicate maxAddr ({}, {})⟩

def Lineage.send (s : Lineage) (o : OpData) : Lineage :=
  { s with opData := o, sent := s.sent ++ [o] }

def Lineage.initGateway (s : Lineage) (address : RecordedAddr) : Lineage :=
  if s.opData.op ≠ .resume ∧ s.opData.op ≠ .resumeTcpServer then
    s.send { s.opData with
      op := .init, addr := s.opData.addr.set 0 (s.localAddr, address) maxAddr_pos }
  else s

/-- The thread that makes `ready` the number of threads sets `should_snapshot`. -/
def Lineage.count (s : Lineage) (ready allCount : ℕ) : Lineage :=
  { s with shouldSnapshot := s.shouldSnapshot || ready == allCount }

/-- The block that tells the gateway. There is no result when an index is out of range. -/
def Lineage.suspend (s : Lineage) (sockname : WasiAddr) : Option Lineage :=
  if s.socketFdMap.isEmpty = false ∧ s.shouldSnapshot = true then
    (suspendMessage sockname s.socketFdMap s.opData).toOption.map s.send
  else some s

def Lineage.park (s : Lineage) (ready allCount : ℕ) : Lineage :=
  if ready < allCount then { s with waiting := s.waiting + 1 } else { s with dumping := true }

/-- `serialize_to_file`, up to the wait or past it. -/
def Lineage.serialize (s : Lineage) (ready allCount : ℕ) (sockname : WasiAddr) : Option Lineage :=
  ((s.count ready allCount).suspend sockname).map fun s => s.park ready allCount

/-- The snapshot is written and the process exits; `socket_fd_map_` is in it when
`should_snapshot` is set. -/
def Lineage.dump (s : Lineage) : Lineage :=
  { s with snapshot := some (if s.shouldSnapshot then s.socketFdMap else ∅) }

/-- A new process reads the snapshot. `restore_impl` sets `should_snapshot`. -/
def Lineage.restore (s : Lineage) (socketFdMap : Std.TreeMap ℤ SocketMetaData)
    (localAddr : RecordedAddr) (uninit : Bool) : Lineage :=
  let started : Lineage :=
    { opData := opData0, localAddr, socketFdMap := ∅, shouldSnapshot := true, waiting := 0,
      dumping := false, snapshot := none, sent := s.sent }
  match resumeOpcode uninit socketFdMap with
  | some op =>
    started.send
      { opData0 with
        op
        isTcp := ((socketFdMap.toList.map Prod.snd).foldl resumeRound (false, uninit)).1
        addr := opData0.addr.set 0 (localAddr, {}) maxAddr_pos }
  | none => started

/-- While a call holds `as_mtx` no other one is counted or comes back. The sockets of the
snapshot are sockets of the process; not all of them when the draining ends early. -/
def lineageStep (s : Lineage) (a : Act) : Option Lineage :=
  match s.snapshot with
  | none =>
    match a with
    | .initGateway address => some (s.initGateway address)
    | .setTcp => some { s with opData := { s.opData with isTcp := true } }
    | .sockets table => some { s with socketFdMap := table }
    | .serialize ready allCount sockname =>
      if s.dumping then none else s.serialize ready allCount sockname
    | .wake =>
      if s.waiting = 0 ∨ s.dumping = true then none
      else some { s with waiting := s.waiting - 1, dumping := true }
    | .dump => if s.dumping then some s.dump else none
    | .restore _ _ _ => none
  | some kept =>
    match a with
    | .restore socketFdMap localAddr uninit =>
      if ∀ fd ∈ socketFdMap.keys, fd ∈ kept then
        some (s.restore socketFdMap localAddr uninit)
      else none
    | _ => none

def Lineage.start (localAddr : RecordedAddr) : Lineage :=
  { opData := opData0, localAddr, socketFdMap := ∅, shouldSnapshot := false, waiting := 0,
    dumping := false, snapshot := none, sent := [] }

/-! ### What is sent -/

/-- The sockets that a suspend message counts. -/
def Lineage.counted (s : Lineage) (sockname : WasiAddr) : ℕ :=
  (rounds s.opData.isTcp sockname s.socketFdMap).length

/-- A thread that is counted tells the gateway. -/
def Lineage.Tells (s : Lineage) (ready allCount : ℕ) : Prop :=
  s.socketFdMap.isEmpty = false ∧ (s.shouldSnapshot = true ∨ ready = allCount)

instance (s : Lineage) (ready allCount : ℕ) : Decidable (s.Tells ready allCount) := by
  unfold Lineage.Tells
  infer_instance

/-- There is a pair of addresses to resume. -/
def Suspended (sent : List OpData) : Prop := ∃ m ∈ sent, IsSuspend m.op ∧ 0 < m.size

/-- No message counts more pairs than there are, and a resume message comes after a suspend
message with a pair. -/
def Tellable (sent : List OpData) : Prop :=
  ∀ before m after, sent = before ++ m :: after →
    m.size ≤ (maxAddr : ℤ) ∧ (IsResume m.op → Suspended before)

/-- The pairs of all suspend messages of a process have room, and no process with sockets is
restored before a pair was suspended. -/
def HasRoom (s : Lineage) : Act → Prop
  | .serialize ready allCount sockname =>
    s.Tells ready allCount → s.opData.size + s.counted sockname ≤ maxAddr
  | .restore socketFdMap _ _ => socketFdMap.isEmpty = false → Suspended s.sent
  | _ => True

instance (op : Opcode) : Decidable (IsResume op) := by unfold IsResume; infer_instance

instance (sent : List OpData) : Decidable (Suspended sent) := by
  unfold Suspended
  infer_instance

instance (s : Lineage) : ∀ a, Decidable (HasRoom s a)
  | .serialize _ _ _ => by unfold HasRoom; infer_instance
  | .restore _ _ _ => by unfold HasRoom; infer_instance
  | .initGateway _ => isTrue trivial
  | .setTcp => isTrue trivial
  | .sockets _ => isTrue trivial
  | .wake => isTrue trivial
  | .dump => isTrue trivial

/-- The gateway takes the messages, whenever it captures packets. -/
def GatewayTakes (o : OpData) (sent : List OpData) : Prop :=
  ∀ ls, controls ls = sent → Run.Along gatewayStep InRange ⟨[], false, o⟩ ls

/-! ### The gateway -/

def messages (ms : List OpData) : List GatewayLabel := ms.map fun m => .control m udpSession

theorem controls_append (ls ms : List GatewayLabel) :
    controls (ls ++ ms) = controls ls ++ controls ms := List.filterMap_append

theorem controls_cons_control (m : OpData) (session : Session) (ls : List GatewayLabel) :
    controls (.control m session :: ls) = m :: controls ls := rfl

theorem controls_cons_capture (p : Packet) (ls : List GatewayLabel) :
    controls (.capture p :: ls) = controls ls := rfl

theorem controls_messages (ms : List OpData) : controls (messages ms) = ms := by
  simp [controls, messages, List.filterMap_map]

/-- A UDP packet. -/
def udpPacket : Packet := packet4 17 (Vector.replicate 4 0) (Vector.replicate 4 0)

theorem udpPacket_learnsPort : udpPacket.LearnsPort := by decide

theorem gatewayTakes_iff {o : OpData} {sent : List OpData} :
    GatewayTakes o sent ↔ o.size ≤ (maxAddr : ℤ) ∧ Tellable sent := by
  constructor
  · intro h
    constructor
    · -- a packet comes before the first message
      have hrun := h (.capture udpPacket :: messages sent) (controls_messages sent)
      exact (along_admissible (history_start o) _).mp hrun [] _ _ rfl udpPacket_learnsPort
    · rintro before m after rfl
      have hcontrols : controls (messages before) = before := controls_messages before
      have hrun := h (messages before ++ .control m udpSession :: .capture udpPacket ::
        messages after) (by
          rw [controls_append, hcontrols, controls_cons_control, controls_cons_capture,
            controls_messages])
      rw [along_admissible (history_start o)] at hrun
      constructor
      · -- the packet after the message goes through its pairs
        have hlast := hrun (messages before ++ [.control m udpSession]) (.capture udpPacket)
          (messages after) (List.append_cons _ _ _) udpPacket_learnsPort
        rw [lastSize, controls_control, List.getLast?_concat, Option.getD_some] at hlast
        exact hlast
      · intro hop
        obtain ⟨p, hp, hpair⟩ := (hrun _ _ _ rfl).2 hop
        exact ⟨p, hcontrols ▸ hp, hpair⟩
  · rintro ⟨ho, h⟩ ls rfl
    rw [along_admissible (history_start o)]
    rintro before l after rfl
    rw [controls_append] at h
    cases l with
    | control m session =>
      obtain ⟨hsize, hresume⟩ := h _ _ _ rfl
      exact ⟨fun _ => hsize, hresume⟩
    | capture p =>
      intro _
      rcases List.eq_nil_or_concat (controls before) with hnil | ⟨ms, m, hms⟩
      · rw [lastSize, hnil]
        exact ho
      · rw [lastSize, hms, List.concat_eq_append, List.getLast?_concat, Option.getD_some]
        rw [hms, List.concat_eq_append, List.append_assoc] at h
        exact (h _ _ _ rfl).1

/-! ### One message more -/

theorem tellable_nil : Tellable [] := by
  intro before m after h
  exact absurd h (by simp)

theorem Suspended.append {before : List OpData} (h : Suspended before) (after : List OpData) :
    Suspended (before ++ after) := by
  obtain ⟨m, hm, hpair⟩ := h
  exact ⟨m, List.mem_append_left after hm, hpair⟩

theorem Tellable.of_append {sent new : List OpData} (h : Tellable (sent ++ new)) :
    Tellable sent := by
  rintro before m after rfl
  exact h before m (after ++ new) (by rw [List.append_assoc, List.cons_append])

theorem tellable_concat {sent : List OpData} {m : OpData} :
    Tellable (sent ++ [m]) ↔
      Tellable sent ∧ m.size ≤ (maxAddr : ℤ) ∧ (IsResume m.op → Suspended sent) := by
  constructor
  · intro h
    exact ⟨h.of_append, h sent m [] rfl⟩
  · rintro ⟨hsent, hm⟩ before k after hsplit
    rcases List.eq_nil_or_concat after with rfl | ⟨rest, last, rfl⟩
    · obtain ⟨rfl, hk⟩ := List.append_inj' hsplit rfl
      obtain ⟨rfl, -⟩ := List.cons.inj hk
      exact hm
    · rw [List.concat_eq_append, ← List.cons_append, ← List.append_assoc] at hsplit
      exact hsent before k rest (List.append_inj_left' hsplit rfl)

/-! ### One step -/

theorem IsSuspend.not_isResume {op : Opcode} (h : IsSuspend op) : ¬IsResume op := by
  rcases h with rfl | rfl
  · rintro (h | h) <;> cases h
  · rintro (h | h) <;> cases h

theorem suspendMessage_op {sockname : WasiAddr} {table : TrackedTable} {o m : OpData}
    (h : suspendMessage sockname table o = .ok m) : IsSuspend m.op := by
  have hop := foldlM_apply_op h
  rw [hop]
  change IsSuspend (if _ then _ else _)
  split
  · exact Or.inr rfl
  · exact Or.inl rfl

theorem suspendMessage_filled {sockname : WasiAddr} {table : TrackedTable} {o m : OpData}
    (hsize : 0 ≤ o.size) (h : suspendMessage sockname table o = .ok m) :
    m.isTcp = o.isTcp ∧ m.size = o.size + ((rounds o.isTcp sockname table).length : ℤ) := by
  unfold suspendMessage at h
  generalize (if table.toList.any fun e => e.2.isServer then Opcode.suspendTcpServer
      else .suspend) = op at h
  have hnat : o.size = (o.size.toNat : ℤ) := (Int.toNat_of_nonneg hsize).symm
  obtain ⟨-, hfilled⟩ := fold_ok (o := { o with op }) hnat h
  refine ⟨hfilled.isTcp, ?_⟩
  rw [hfilled.size, ← hnat]
  rfl

@[simp] theorem count_opData (s : Lineage) (ready allCount : ℕ) :
    (s.count ready allCount).opData = s.opData := rfl

@[simp] theorem count_sent (s : Lineage) (ready allCount : ℕ) :
    (s.count ready allCount).sent = s.sent := rfl

@[simp] theorem count_socketFdMap (s : Lineage) (ready allCount : ℕ) :
    (s.count ready allCount).socketFdMap = s.socketFdMap := rfl

@[simp] theorem send_sent (s : Lineage) (m : OpData) : (s.send m).sent = s.sent ++ [m] := rfl

@[simp] theorem send_opData (s : Lineage) (m : OpData) : (s.send m).opData = m := rfl

@[simp] theorem park_sent (s : Lineage) (ready allCount : ℕ) :
    (s.park ready allCount).sent = s.sent := by
  unfold Lineage.park
  split <;> rfl

@[simp] theorem park_opData (s : Lineage) (ready allCount : ℕ) :
    (s.park ready allCount).opData = s.opData := by
  unfold Lineage.park
  split <;> rfl

@[simp] theorem park_socketFdMap (s : Lineage) (ready allCount : ℕ) :
    (s.park ready allCount).socketFdMap = s.socketFdMap := by
  unfold Lineage.park
  split <;> rfl

@[simp] theorem park_shouldSnapshot (s : Lineage) (ready allCount : ℕ) :
    (s.park ready allCount).shouldSnapshot = s.shouldSnapshot := by
  unfold Lineage.park
  split <;> rfl

theorem tells_iff {s : Lineage} {ready allCount : ℕ} :
    s.Tells ready allCount ↔ (s.count ready allCount).socketFdMap.isEmpty = false ∧
      (s.count ready allCount).shouldSnapshot = true := by
  simp [Lineage.count, Lineage.Tells]

theorem serialize_silent {s : Lineage} {ready allCount : ℕ} (sockname : WasiAddr)
    (h : ¬s.Tells ready allCount) :
    s.serialize ready allCount sockname = some ((s.count ready allCount).park ready allCount) := by
  rw [Lineage.serialize, Lineage.suspend, if_neg (fun hall => h (tells_iff.mpr hall))]
  rfl

theorem serialize_tells {s t : Lineage} {ready allCount : ℕ} {sockname : WasiAddr}
    (htells : s.Tells ready allCount) (h : s.serialize ready allCount sockname = some t) :
    ∃ m, t = ((s.count ready allCount).send m).park ready allCount ∧
      suspendMessage sockname s.socketFdMap s.opData = .ok m := by
  rw [Lineage.serialize, Lineage.suspend, if_pos (tells_iff.mp htells)] at h
  obtain ⟨u, hu, rfl⟩ := Option.map_eq_some_iff.mp h
  obtain ⟨m, hm, rfl⟩ := Option.map_eq_some_iff.mp hu
  refine ⟨m, rfl, ?_⟩
  change (suspendMessage sockname s.socketFdMap s.opData).toOption = some m at hm
  cases hmessage : suspendMessage sockname s.socketFdMap s.opData with
  | error fault => rw [hmessage] at hm; cases hm
  | ok o =>
    rw [hmessage] at hm
    exact congrArg Except.ok (Option.some.inj hm)

theorem resumeOpcode_isResume {uninit : Bool} {m : Std.TreeMap ℤ SocketMetaData} {op : Opcode}
    (h : resumeOpcode uninit m = some op) : IsResume op ∧ m.isEmpty = false := by
  unfold resumeOpcode at h
  split at h
  · next hne =>
    refine ⟨?_, hne⟩
    obtain rfl := Option.some.inj h
    split
    · exact Or.inr rfl
    · exact Or.inl rfl
  · cases h

theorem resumeOpcode_none {uninit : Bool} {m : Std.TreeMap ℤ SocketMetaData}
    (h : resumeOpcode uninit m = none) : m.isEmpty = true := by
  unfold resumeOpcode at h
  split at h
  · cases h
  · next hne => exact (Bool.not_eq_false _).mp hne

/-- What the messages of a process count has room. -/
def Bounded (s : Lineage) : Prop := 0 ≤ s.opData.size ∧ s.opData.size ≤ (maxAddr : ℤ)

/-- A step sends nothing, it sends a message that keeps or raises the size, or a new process
resumes. -/
theorem lineageStep_cases {s t : Lineage} {a : Act} (h : lineageStep s a = some t) :
    (t.sent = s.sent ∧ (t.opData.size = s.opData.size ∨ t.opData.size = 0) ∧ HasRoom s a) ∨
    (∃ m, t.sent = s.sent ++ [m] ∧ t.opData = m ∧ ¬IsResume m.op ∧
      (0 ≤ s.opData.size → 0 ≤ m.size) ∧
      (Bounded s → (HasRoom s a ↔ m.size ≤ (maxAddr : ℤ)))) ∨
    (∃ m, t.sent = s.sent ++ [m] ∧ t.opData = m ∧ m.size = 0 ∧ IsResume m.op ∧
      (HasRoom s a ↔ Suspended s.sent)) := by
  unfold lineageStep at h
  split at h
  · cases a with
    | initGateway address =>
      obtain rfl := Option.some.inj h
      unfold Lineage.initGateway
      split
      · refine Or.inr (Or.inl ⟨_, rfl, rfl, ?_, id, fun hs => iff_of_true trivial hs.2⟩)
        rintro (hop | hop) <;> cases hop
      · exact Or.inl ⟨rfl, Or.inl rfl, trivial⟩
    | setTcp =>
      obtain rfl := Option.some.inj h
      exact Or.inl ⟨rfl, Or.inl rfl, trivial⟩
    | sockets table =>
      obtain rfl := Option.some.inj h
      exact Or.inl ⟨rfl, Or.inl rfl, trivial⟩
    | serialize ready allCount sockname =>
      replace h : (if s.dumping then none else s.serialize ready allCount sockname) = some t := h
      split at h
      · cases h
      · by_cases htells : s.Tells ready allCount
        · obtain ⟨m, rfl, hm⟩ := serialize_tells htells h
          refine Or.inr (Or.inl ⟨m, by simp, by simp, ?_, fun hs => ?_, fun hs => ?_⟩)
          · exact (suspendMessage_op hm).not_isResume
          · rw [(suspendMessage_filled hs hm).2]
            exact Int.add_nonneg hs (Int.natCast_nonneg _)
          · rw [(suspendMessage_filled hs.1 hm).2]
            exact forall_prop_of_true htells
        · rw [serialize_silent sockname htells] at h
          obtain rfl := Option.some.inj h
          exact Or.inl ⟨by simp, Or.inl (by simp), fun hall => absurd hall htells⟩
    | wake =>
      replace h : (if s.waiting = 0 ∨ s.dumping = true then none
        else some { s with waiting := s.waiting - 1, dumping := true }) = some t := h
      split at h
      · cases h
      · obtain rfl := Option.some.inj h
        exact Or.inl ⟨rfl, Or.inl rfl, trivial⟩
    | dump =>
      replace h : (if s.dumping then some s.dump else none) = some t := h
      split at h
      · obtain rfl := Option.some.inj h
        exact Or.inl ⟨rfl, Or.inl rfl, trivial⟩
      · cases h
    | restore socketFdMap localAddr uninit => cases h
  · next kept _ =>
    cases a with
    | restore socketFdMap localAddr uninit =>
      replace h : (if ∀ fd ∈ socketFdMap.keys, fd ∈ kept then
        some (s.restore socketFdMap localAddr uninit) else none) = some t := h
      split at h
      · obtain rfl := Option.some.inj h
        unfold Lineage.restore
        split
        · next op hop =>
          obtain ⟨hresume, hne⟩ := resumeOpcode_isResume hop
          refine Or.inr (Or.inr ⟨_, rfl, rfl, rfl, hresume, ?_⟩)
          exact forall_prop_of_true hne
        · next hnone =>
          refine Or.inl ⟨rfl, Or.inr rfl, fun hne => ?_⟩
          rw [resumeOpcode_none hnone] at hne
          cases hne
      · cases h
    | initGateway address => cases h
    | setTcp => cases h
    | sockets table => cases h
    | serialize ready allCount sockname => cases h
    | wake => cases h
    | dump => cases h

/-! ### A whole run -/

theorem sent_step {s t : Lineage} {a : Act} (h : lineageStep s a = some t) :
    s.sent <+: t.sent := by
  rcases lineageStep_cases h with ⟨hsent, -⟩ | ⟨m, hsent, -⟩ | ⟨m, hsent, -⟩
  · exact hsent ▸ List.prefix_rfl
  · exact hsent ▸ List.prefix_append _ _
  · exact hsent ▸ List.prefix_append _ _

theorem sent_run {s t : Lineage} {acts : List Act} (h : Run.exec lineageStep s acts = some t) :
    s.sent <+: t.sent :=
  Run.exec_invariant (fun u => s.sent <+: u.sent)
    (fun _ _ _ hu hstep => hu.trans (sent_step hstep)) s t acts List.prefix_rfl h

theorem nonneg_run {s t : Lineage} {acts : List Act} (hs : 0 ≤ s.opData.size)
    (h : Run.exec lineageStep s acts = some t) : 0 ≤ t.opData.size := by
  refine Run.exec_invariant (fun u : Lineage => 0 ≤ u.opData.size) ?_ s t acts hs h
  intro u a v hu hstep
  rcases lineageStep_cases hstep with
    ⟨-, hsize, -⟩ | ⟨m, -, rfl, -, hnonneg, -⟩ | ⟨m, -, rfl, hsize, -⟩
  · omega
  · exact hnonneg hu
  · omega

theorem Tellable.of_prefix {sent all : List OpData} (h : Tellable all) (hsent : sent <+: all) :
    Tellable sent := by
  obtain ⟨new, rfl⟩ := hsent
  exact h.of_append

theorem tellable_step {s t : Lineage} {a : Act} (hs : Bounded s) (h : lineageStep s a = some t) :
    (Tellable t.sent ↔ Tellable s.sent ∧ HasRoom s a) ∧ (HasRoom s a → Bounded t) := by
  rcases lineageStep_cases h with
    ⟨hsent, hsize, hroom⟩ | ⟨m, hsent, rfl, hop, hnonneg, hroom⟩ |
    ⟨m, hsent, rfl, hsize, hop, hroom⟩
  · refine ⟨by rw [hsent, and_iff_left hroom], fun _ => ?_⟩
    rcases hsize with hsize | hsize
    · rw [Bounded, hsize]
      exact hs
    · rw [Bounded, hsize]
      decide
  · refine ⟨?_, fun hok => ⟨hnonneg hs.1, (hroom hs).mp hok⟩⟩
    rw [hsent, tellable_concat, hroom hs, and_iff_left (fun hresume => absurd hresume hop)]
  · have hbounded : Bounded t := by
      rw [Bounded, hsize]
      decide
    refine ⟨?_, fun _ => hbounded⟩
    rw [hsent, tellable_concat, hroom, forall_prop_of_true hop, and_iff_right hbounded.2]

theorem tellable_run {s t : Lineage} {acts : List Act} (hs : Bounded s)
    (h : Run.exec lineageStep s acts = some t) :
    Tellable t.sent ↔ Tellable s.sent ∧ Run.Along lineageStep HasRoom s acts := by
  induction acts generalizing s with
  | nil =>
    obtain rfl := Option.some.inj h
    exact (and_iff_left trivial).symm
  | cons a acts ih =>
    obtain ⟨u, hu, hrest⟩ := Run.exec_cons_some h
    obtain ⟨hstep, hnext⟩ := tellable_step hs hu
    rw [Run.along_cons_some hu, ← and_assoc, ← hstep]
    constructor
    · intro ht
      have htu := ht.of_prefix (sent_run hrest)
      exact ⟨htu, ((ih (hnext (hstep.mp htu).2) hrest).mp ht).2⟩
    · rintro ⟨htu, halong⟩
      exact (ih (hnext (hstep.mp htu).2) hrest).mpr ⟨htu, halong⟩

theorem start_bounded (localAddr : RecordedAddr) : Bounded (.start localAddr) :=
  ⟨Int.le_refl 0, Int.natCast_nonneg maxAddr⟩

/-- Whatever the processes of a program do and whenever packets are captured, the gateway
stays inside `addr` and `forward_pair` just when the suspend messages of each process have
room together, and no process with sockets is restored before a pair was suspended. -/
theorem conversation_inRange_iff (o : OpData) (localAddr : RecordedAddr) (acts : List Act)
    (t : Lineage) (h : Run.exec lineageStep (.start localAddr) acts = some t) :
    GatewayTakes o t.sent ↔
      o.size ≤ (maxAddr : ℤ) ∧ Run.Along lineageStep HasRoom (.start localAddr) acts := by
  rw [gatewayTakes_iff, tellable_run (start_bounded localAddr) h]
  exact and_congr_right fun _ => and_iff_right tellable_nil

/-- A UDP socket that has sent to host 3. -/
def udpTable : TrackedTable :=
  Std.TreeMap.ofList [(4, { sends := [.ip4 (dockerHost 3 8000).ip4 8000] })] _

/-- The program moves twice with its socket. -/
def udpHops : List Act :=
  [.initGateway (dockerHost 3 8000), .sockets udpTable,
    .serialize 1 1 (.ip4 (dockerHost 2 0).ip4 0), .dump,
    .restore (Std.TreeMap.ofList [(4, {})] _) (dockerHost 4 0) false, .sockets udpTable,
    .serialize 1 1 (.ip4 (dockerHost 4 0).ip4 0), .dump,
    .restore (Std.TreeMap.ofList [(4, {})] _) (dockerHost 5 0) false]

theorem udpHops_inRange : ∃ t, Run.exec lineageStep (.start (dockerHost 2 0)) udpHops = some t ∧
    GatewayTakes opData0 t.sent := by
  obtain ⟨t, ht⟩ : ∃ t, Run.exec lineageStep (.start (dockerHost 2 0)) udpHops = some t :=
    Option.isSome_iff_exists.mp (by decide +kernel)
  refine ⟨t, ht, (conversation_inRange_iff opData0 _ udpHops t ht).mpr ⟨by decide, ?_⟩⟩
  decide +kernel

/-! ### The threads of one process -/

/-- The threads that are not parked yet come one after the other; `r` are parked. -/
def threads (sockname : WasiAddr) (allCount r k : ℕ) : List Act :=
  (List.range' (r + 1) k).map fun ready => .serialize ready allCount sockname

/-- One thread after the other adds its sockets to the size. -/
def sizes (size : ℤ) (n k : ℕ) : List ℤ := (List.range k).map fun i => size + ((i + 1) * n : ℕ)

theorem sizes_succ (size : ℤ) (n k : ℕ) :
    sizes size n (k + 1) = (size + n) :: sizes (size + n) n k := by
  rw [sizes, List.range_succ_eq_map, List.map_cons, List.map_map]
  congr 1
  · simp
  · refine List.map_congr_left fun i _ => ?_
    simp only [Function.comp_apply, Nat.succ_eq_add_one, Nat.add_mul]
    omega

theorem sizes_le_iff {size : ℤ} {n k : ℕ} (hk : 0 < k) {b : ℤ} :
    (∀ m ∈ sizes size n k, m ≤ b) ↔ size + (k * n : ℕ) ≤ b := by
  simp only [sizes, List.mem_map, List.mem_range, forall_exists_index, and_imp,
    forall_apply_eq_imp_iff₂]
  constructor
  · intro h
    have hlast := h (k - 1) (by omega)
    rwa [Nat.sub_add_cancel hk] at hlast
  · intro h i hi
    have hle : (i + 1) * n ≤ k * n := Nat.mul_le_mul_right n hi
    omega

theorem lineageStep_serialize {s t : Lineage} {sockname : WasiAddr} {ready allCount : ℕ}
    (h : lineageStep s (.serialize ready allCount sockname) = some t) :
    s.serialize ready allCount sockname = some t := by
  unfold lineageStep at h
  split at h
  · replace h : (if s.dumping then none else s.serialize ready allCount sockname) = some t := h
    split at h
    · cases h
    · exact h
  · cases h

/-- The state after a suspend message, which leaves the sockets and how many are counted. -/
structure Told (sockname : WasiAddr) (s t : Lineage) (m : OpData) : Prop where
  sent : t.sent = s.sent ++ [m]
  op : IsSuspend m.op
  size : m.size = s.opData.size + s.counted sockname
  opData : t.opData = m
  socketFdMap : t.socketFdMap = s.socketFdMap
  counted : t.counted sockname = s.counted sockname
  shouldSnapshot : t.shouldSnapshot = true

theorem told_of_tells {sockname : WasiAddr} {s t : Lineage} {ready allCount : ℕ}
    (hsize : 0 ≤ s.opData.size) (htells : s.Tells ready allCount)
    (h : lineageStep s (.serialize ready allCount sockname) = some t) :
    ∃ m, Told sockname s t m := by
  obtain ⟨m, rfl, hm⟩ := serialize_tells htells (lineageStep_serialize h)
  obtain ⟨htcp, hcounted⟩ := suspendMessage_filled hsize hm
  refine ⟨m, ?_⟩
  exact {
    sent := by simp
    op := suspendMessage_op hm
    size := hcounted
    opData := by simp
    socketFdMap := by simp [Lineage.send]
    counted := by simp [Lineage.counted, Lineage.send, htcp]
    shouldSnapshot := by simpa [Lineage.send] using (tells_iff.mp htells).2 }

/-- In a restored process each thread tells the gateway, and each counts all sockets again. -/
theorem threads_restored {sockname : WasiAddr} {s t : Lineage} {allCount r k : ℕ}
    (hsize : 0 ≤ s.opData.size) (hsockets : s.socketFdMap.isEmpty = false)
    (hshould : s.shouldSnapshot = true)
    (h : Run.exec lineageStep s (threads sockname allCount r k) = some t) :
    ∃ new : List OpData, t.sent = s.sent ++ new ∧ (∀ m ∈ new, IsSuspend m.op) ∧
      new.map OpData.size = sizes s.opData.size (s.counted sockname) k := by
  induction k generalizing s r with
  | zero =>
    obtain rfl := Option.some.inj h
    exact ⟨[], (List.append_nil _).symm, fun m hm => absurd hm List.not_mem_nil, rfl⟩
  | succ k ih =>
    rw [threads, List.range'_succ, List.map_cons] at h
    obtain ⟨u, hu, hrest⟩ := Run.exec_cons_some h
    obtain ⟨m, hm⟩ := told_of_tells hsize ⟨hsockets, Or.inl hshould⟩ hu
    have husize : u.opData.size = s.opData.size + s.counted sockname := by rw [hm.opData, hm.size]
    obtain ⟨new, hsent, hops, hnew⟩ := ih (by omega) (hm.socketFdMap ▸ hsockets)
      hm.shouldSnapshot hrest
    refine ⟨m :: new, ?_, ?_, ?_⟩
    · rw [hsent, hm.sent, List.append_assoc, List.singleton_append]
    · intro k hk
      rcases List.mem_cons.mp hk with rfl | hk
      · exact hm.op
      · exact hops k hk
    · rw [List.map_cons, hnew, hm.size, husize, hm.counted, sizes_succ]

/-- In a process that was not restored the last thread tells the gateway. -/
theorem threads_fresh {sockname : WasiAddr} {s t : Lineage} {r k : ℕ}
    (hsize : 0 ≤ s.opData.size) (hsockets : s.socketFdMap.isEmpty = false)
    (hshould : s.shouldSnapshot = false) (hk : 0 < k)
    (h : Run.exec lineageStep s (threads sockname (r + k) r k) = some t) :
    ∃ m, t.sent = s.sent ++ [m] ∧ IsSuspend m.op ∧
      m.size = s.opData.size + s.counted sockname := by
  induction k generalizing s r with
  | zero => exact absurd hk (Nat.lt_irrefl 0)
  | succ k ih =>
    rw [threads, List.range'_succ, List.map_cons] at h
    obtain ⟨u, hu, hrest⟩ := Run.exec_cons_some h
    rcases Nat.eq_zero_or_pos k with rfl | hpos
    · obtain rfl := Option.some.inj hrest
      obtain ⟨m, hm⟩ := told_of_tells hsize ⟨hsockets, Or.inr rfl⟩ hu
      exact ⟨m, hm.sent, hm.op, hm.size⟩
    · have hquiet : ¬s.Tells (r + 1) (r + (k + 1)) := by
        rintro ⟨-, hready | hready⟩
        · rw [hshould] at hready
          cases hready
        · omega
      have hstep := lineageStep_serialize hu
      rw [serialize_silent sockname hquiet] at hstep
      obtain rfl := Option.some.inj hstep
      have hall : r + (k + 1) = r + 1 + k := by omega
      rw [hall] at hrest
      have hne : ((r + 1 == r + 1 + k) : Bool) = false := by simpa using Nat.ne_of_gt hpos
      obtain ⟨m, hsent, hop, hm⟩ := ih (by simpa using hsize) (by simpa using hsockets)
        (by simp [Lineage.count, hshould, hne]) hpos hrest
      refine ⟨m, by simpa using hsent, hop, ?_⟩
      simpa [Lineage.counted] using hm

theorem tellable_append {sent new : List OpData} (hnew : ∀ m ∈ new, IsSuspend m.op) :
    Tellable (sent ++ new) ↔ Tellable sent ∧ ∀ m ∈ new, m.size ≤ (maxAddr : ℤ) := by
  induction new generalizing sent with
  | nil => simp
  | cons m new ih =>
    rw [List.append_cons, ih fun k hk => hnew k (List.mem_cons_of_mem m hk), tellable_concat,
      and_iff_left (a := m.size ≤ (maxAddr : ℤ))
        (fun hop => absurd hop (hnew m List.mem_cons_self).not_isResume),
      List.forall_mem_cons, and_assoc]

/-- Where `k` threads come to `serialize_to_file` with `n` counted sockets, the gateway gets
one message that counts `n` more, or, from a process that was restored, `k` messages of which
each counts `n` more. -/
theorem threads_taken_iff (o : OpData) (localAddr : RecordedAddr) (acts : List Act)
    (sockname : WasiAddr) (r k : ℕ) (s t : Lineage)
    (hs : Run.exec lineageStep (.start localAddr) acts = some s)
    (hsockets : s.socketFdMap.isEmpty = false) (hk : 0 < k)
    (h : Run.exec lineageStep s (threads sockname (r + k) r k) = some t) :
    (∃ new : List OpData, t.sent = s.sent ++ new ∧ new.map OpData.size =
      sizes s.opData.size (s.counted sockname) (if s.shouldSnapshot then k else 1)) ∧
    (GatewayTakes o t.sent ↔ GatewayTakes o s.sent ∧
      s.opData.size + ((if s.shouldSnapshot then k else 1) * s.counted sockname : ℕ) ≤
        (maxAddr : ℤ)) := by
  have hsize : 0 ≤ s.opData.size := nonneg_run (Int.le_refl 0) hs
  have hnew : ∃ new : List OpData, t.sent = s.sent ++ new ∧ (∀ m ∈ new, IsSuspend m.op) ∧
      new.map OpData.size =
        sizes s.opData.size (s.counted sockname) (if s.shouldSnapshot then k else 1) := by
    cases hshould : s.shouldSnapshot with
    | true => exact threads_restored hsize hsockets hshould h
    | false =>
      obtain ⟨m, hsent, hop, hm⟩ := threads_fresh hsize hsockets hshould hk h
      refine ⟨[m], hsent, fun k hk => ?_, ?_⟩
      · exact List.mem_singleton.mp hk ▸ hop
      · simp [sizes, hm]
  obtain ⟨new, hsent, hops, hsizes⟩ := hnew
  refine ⟨⟨new, hsent, hsizes⟩, ?_⟩
  have hpos : 0 < (if s.shouldSnapshot then k else 1) := by split <;> omega
  rw [gatewayTakes_iff, gatewayTakes_iff, hsent, tellable_append hops, and_assoc,
    ← sizes_le_iff hpos, ← hsizes, List.forall_mem_map]

/-- A socket that listens and two connections. -/
def serverTable : TrackedTable :=
  Std.TreeMap.ofList [(3, { isServer := true }), (4, {}), (5, {})] _

def serverHop : List Act :=
  [.setTcp, .sockets serverTable, .serialize 1 1 (.ip4 (dockerHost 2 0).ip4 0), .dump,
    .restore (Std.TreeMap.ofList [(3, { type := 1, isServer := true })] _) (dockerHost 4 0) false,
    .sockets serverTable]

/-- The process that the server has moved to. -/
def movedServer : Lineage :=
  (Run.exec lineageStep (.start (dockerHost 2 0)) serverHop).getD (.start (dockerHost 4 0))

/-- Three threads count the two connections, and the gateway is told of six pairs. -/
theorem movedServer_not_taken :
    ∃ t, Run.exec lineageStep movedServer (threads (.ip4 (dockerHost 4 0).ip4 0) 3 0 3) = some t ∧
      ¬GatewayTakes opData0 t.sent := by
  obtain ⟨t, ht⟩ : ∃ t, Run.exec lineageStep movedServer
      (threads (.ip4 (dockerHost 4 0).ip4 0) 3 0 3) = some t :=
    Option.isSome_iff_exists.mp (by decide +kernel)
  have hmoved : Run.exec lineageStep (.start (dockerHost 2 0)) serverHop = some movedServer := by
    have hsome : (Run.exec lineageStep (.start (dockerHost 2 0)) serverHop).isSome := by
      decide +kernel
    obtain ⟨s, hs⟩ := Option.isSome_iff_exists.mp hsome
    rw [movedServer, hs, Option.getD_some]
  refine ⟨t, ht, fun htaken => ?_⟩
  have hroom := ((threads_taken_iff opData0 _ serverHop _ 0 3 movedServer t hmoved
    (by decide +kernel) (by decide) ht).2.mp htaken).2
  exact absurd hroom (by decide +kernel)

end MVVM.Gateway
