import MVVM.Gateway.Forward
import Mathlib.Data.List.Nodup

/-!
# The connections of the TCP sessions (gateway/main.cpp:48-56, 398-457, 472-549, 607-671)

`tcp_pair` keeps for the address of a server the two sockets of its session and the two
relay threads. A thread object is known by a number here; the state counts the objects
made so far and lists those that have been deleted.
-/

namespace MVVM.Gateway

open MVVM.Sockets (OpData Opcode RecordedAddr maxAddr maxAddr_pos)
open MVVM.Text (Str showInt)

structure ConnectionPair where
  -- the pointers; there is no thread object behind a null pointer
  send : Option ℕ := none
  recv : Option ℕ := none
  serverFd : ℤ := 0
  newServer : ℤ := 0
  newClient : ℤ := 0
  isSleep : Bool := false
  deriving DecidableEq, Repr

def ConnectionPair.threads (cp : ConnectionPair) : List ℕ := cp.send.toList ++ cp.recv.toList

/-- The globals of the gateway. The op code is the one in `op_data`, which the loop over a
suspend message overwrites. -/
structure Globals where
  forwarder : Forwarder
  tcpPair : Str → Option ConnectionPair
  serverIp : Str
  serverPort : ℕ
  op : Opcode
  -- the sockets that a FIN has been sent to
  fins : List ℤ
  threads : ℕ
  deleted : List ℕ

/-- A message with what the system calls return that `main` makes for it. -/
structure Message where
  opData : OpData
  serverFd : ℤ
  accepted : ℤ
  opened : ℤ
  -- none of the calls fails after which `main` exits
  succeeds : Bool

/-- `fmt::format("{}:{}", ip, port)` -/
def addressKey (ip : Str) (port : ℕ) : Str := ip ++ ':' :: showInt port

/-- `tcp_pair[key]`, which makes an empty entry where there is none. -/
def Globals.lookup (g : Globals) (key : Str) : ConnectionPair := (g.tcpPair key).getD {}

def Globals.assign (g : Globals) (key : Str) (cp : ConnectionPair) : Globals :=
  { g with tcpPair := Function.update g.tcpPair key (some cp) }

/-- A round of the loop over a suspend message. The entry is copied into `to_stop`, and it
is the copy that falls asleep. -/
def Globals.suspendPair (m : OpData) (g : Globals) (a : RecordedAddr × RecordedAddr) : Globals :=
  let first := getElem m.addr 0 maxAddr_pos
  let g := { g with serverIp := (forwardEntry a).1, serverPort := first.1.port.toNat }
  if m.isTcp then
    let key := addressKey g.serverIp g.serverPort
    let toStop := g.lookup key
    { g.assign key toStop with
      deleted := g.deleted ++ toStop.threads
      fins := g.fins ++
        [if g.op = .suspendTcpServer then toStop.newClient else toStop.newServer]
      op := .fin }
  else { g with op := .fin }

def Globals.suspend (g : Globals) (m : OpData) : Globals := (pairs m).foldl (suspendPair m) g

/-- `MVVM_SOCK_RESUME` for TCP; `new_server` is zero in an entry that the lookup has made.
The new threads are written to a copy as well, which becomes the entry of the new address. -/
def Globals.resume (g : Globals) (msg : Message) : Option Globals :=
  let m := msg.opData
  let key := addressKey g.serverIp g.serverPort
  let toStart := g.lookup key
  if toStart.newServer = 0 then none
  else if m.op = .resumeTcpServer ∧ msg.succeeds = false then none
  else
    let toStart' := { toStart with
      send := some g.threads
      recv := some (g.threads + 1)
      newServer := if m.op = .resumeTcpServer then toStart.newServer else msg.accepted
      newClient := if m.op = .resumeTcpServer then msg.opened else toStart.newClient
      isSleep := false }
    let ip4 := (getElem m.addr 0 maxAddr_pos).1.ip4
    some { (g.assign key toStart).assign (addressKey (dotted ip4) g.serverPort)
      toStart' with threads := g.threads + 2 }

/-- `MVVM_SOCK_INIT`. The text of the client's address must be one of version 4. -/
def Globals.init (g : Globals) (msg : Message) : Option Globals :=
  let a := getElem msg.opData.addr 0 maxAddr_pos
  if a.1.isFour = false ∨ msg.succeeds = false then none
  else
    let g := { g with serverIp := (forwardEntry a).1, serverPort := a.1.port.toNat }
    some { g.assign (addressKey (forwardEntry a).2.1 a.2.port.toNat)
      ⟨some g.threads, some (g.threads + 1), msg.serverFd, msg.accepted, msg.opened, false⟩ with
      threads := g.threads + 2 }

/-- The `switch` of `main`; `none` is a message that the gateway does not survive. -/
def handle (g : Globals) (msg : Message) : Option Globals :=
  (control g.forwarder msg.opData).bind fun forwarder =>
    let g := { g with forwarder := forwarder, op := msg.opData.op }
    match msg.opData.op with
    | .suspend | .suspendTcpServer => some (g.suspend msg.opData)
    | .resume | .resumeTcpServer => if msg.opData.isTcp then g.resume msg else some g
    | .init => g.init msg
    | .fin => some g

/-- The globals as `main` finds them; the contents of `op_data` do not matter. -/
def gatewayIdle : Globals :=
  ⟨⟨[], false, ⟨.suspend, false, 0, Vector.replicate maxAddr ({}, {})⟩⟩, fun _ => none, [], 0,
    .suspend, [], 0, []⟩

/-! ### What the entries are for -/

def serverKey (a : RecordedAddr × RecordedAddr) : Str :=
  addressKey (forwardEntry a).1 a.1.port.toNat

/-- The sessions that a message leaves suspended, by the addresses of their servers: a
resume is for the session that was suspended last. -/
def suspendedAfter (asleep : List Str) (msg : Message) : List Str :=
  match msg.opData.op with
  | .suspend | .suspendTcpServer =>
    if msg.opData.isTcp then asleep ++ (pairs msg.opData).map serverKey else asleep
  | .resume | .resumeTcpServer => if msg.opData.isTcp then asleep.dropLast else asleep
  | .init =>
    let a := getElem msg.opData.addr 0 maxAddr_pos
    asleep.filter fun key => key ≠ addressKey (forwardEntry a).2.1 a.2.port.toNat
  | .fin => asleep

def suspendedSessions (msgs : List Message) : List Str := msgs.foldl suspendedAfter []

def Globals.Live (g : Globals) (i : ℕ) : Prop := i < g.threads ∧ i ∉ g.deleted

/-- The threads of `tcp_pair` belong to the sessions that are awake. -/
structure Globals.Owned (asleep : List Str) (g : Globals) : Prop where
  sleeps : ∀ (key : Str) (cp : ConnectionPair), g.tcpPair key = some cp →
    (cp.isSleep = true ↔ key ∈ asleep)
  live : ∀ (key : Str) (cp : ConnectionPair), g.tcpPair key = some cp → cp.isSleep = false →
    ∃ i j, cp.send = some i ∧ cp.recv = some j ∧ g.Live i ∧ g.Live j
  unused : ∀ (key : Str) (cp : ConnectionPair), g.tcpPair key = some cp → cp.isSleep = true →
    ∀ (msg : Message) (g' : Globals), handle g msg = some g' →
      ∀ i ∈ cp.threads, g'.deleted.count i = g.deleted.count i
  once : g.deleted.Nodup

def OwnedAlong (msgs : List Message) : Prop :=
  ∀ before after g, msgs = before ++ after → Run.exec handle gatewayIdle before = some g →
    g.Owned (suspendedSessions before)

def Message.SuspendsTcp (msg : Message) : Prop :=
  (msg.opData.op = .suspend ∨ msg.opData.op = .suspendTcpServer) ∧ msg.opData.isTcp = true ∧
    0 < msg.opData.size

instance (msg : Message) : Decidable msg.SuspendsTcp := by
  unfold Message.SuspendsTcp; infer_instance

/-! ### The entries -/

theorem assign_tcpPair (g : Globals) (k key : Str) (cp : ConnectionPair) :
    (g.assign k cp).tcpPair key = if key = k then some cp else g.tcpPair key :=
  Function.update_apply ..

def Globals.Every (P : ConnectionPair → Prop) (g : Globals) : Prop :=
  ∀ (key : Str) (cp : ConnectionPair), g.tcpPair key = some cp → P cp

variable {P : ConnectionPair → Prop} {g g' : Globals} {msg : Message}

theorem Globals.Every.assign (h : g.Every P) (k : Str) {cp : ConnectionPair} (hcp : P cp) :
    (g.assign k cp).Every P := by
  intro key cp' hkey
  rw [assign_tcpPair] at hkey
  split at hkey
  · obtain rfl := Option.some.inj hkey
    exact hcp
  · exact h key cp' hkey

theorem Globals.Every.lookup (h : g.Every P) (hempty : P {}) (key : Str) : P (g.lookup key) := by
  unfold Globals.lookup
  cases hkey : g.tcpPair key with
  | none => exact hempty
  | some cp => exact h key cp hkey

theorem Globals.Every.lookup_of_server (h : g.Every P) {key : Str}
    (hserver : (g.lookup key).newServer ≠ 0) : P (g.lookup key) := by
  unfold Globals.lookup at hserver ⊢
  cases hkey : g.tcpPair key with
  | none =>
    rw [hkey] at hserver
    exact absurd rfl hserver
  | some cp => exact h key cp hkey

/-! ### What a message does -/

/-- The message has been copied to `op_data`, and what it does to `forward_pair` is done. -/
structure Loaded (g g₀ : Globals) : Prop where
  tcpPair : g₀.tcpPair = g.tcpPair
  threads : g₀.threads = g.threads
  deleted : g₀.deleted = g.deleted

theorem handle_cases (h : handle g msg = some g') :
    ∃ g₀, Loaded g g₀ ∧
      (((msg.opData.op = .suspend ∨ msg.opData.op = .suspendTcpServer) ∧
          g' = g₀.suspend msg.opData) ∨
        ((msg.opData.op = .resume ∨ msg.opData.op = .resumeTcpServer) ∧
          msg.opData.isTcp = true ∧ g₀.resume msg = some g') ∨
        (msg.opData.op = .init ∧ g₀.init msg = some g') ∨
        (¬(msg.opData.op = .suspend ∨ msg.opData.op = .suspendTcpServer) ∧ g' = g₀)) := by
  obtain ⟨forwarder, -, h⟩ := Option.bind_eq_some_iff.mp h
  refine ⟨{ g with forwarder := forwarder, op := msg.opData.op }, ⟨rfl, rfl, rfl⟩, ?_⟩
  cases hop : msg.opData.op with
  | suspend | suspendTcpServer =>
    simp only [hop, Option.some.injEq] at h
    exact .inl ⟨by simp, h.symm⟩
  | resume | resumeTcpServer =>
    simp only [hop] at h
    split at h
    · next htcp => exact .inr (.inl ⟨by simp, htcp, h⟩)
    · exact .inr (.inr (.inr ⟨by simp, (Option.some.inj h).symm⟩))
  | init =>
    simp only [hop] at h
    exact .inr (.inr (.inl ⟨rfl, h⟩))
  | fin =>
    simp only [hop, Option.some.injEq] at h
    exact .inr (.inr (.inr ⟨by simp, h.symm⟩))

theorem Loaded.every {g₀ : Globals} (h : Loaded g g₀) (hg : g.Every P) : g₀.Every P := by
  intro key cp hkey
  rw [h.tcpPair] at hkey
  exact hg key cp hkey

theorem resume_cases (h : g.resume msg = some g') :
    ∃ (k k' : Str) (newServer newClient : ℤ), (g.lookup k).newServer ≠ 0 ∧
      g' = { (g.assign k (g.lookup k)).assign k'
        ⟨some g.threads, some (g.threads + 1), (g.lookup k).serverFd, newServer, newClient, false⟩
        with threads := g.threads + 2 } := by
  unfold Globals.resume at h
  simp only at h
  split at h
  · cases h
  · next hserver =>
    split at h
    · cases h
    · exact ⟨_, _, _, _, hserver, (Option.some.inj h).symm⟩

theorem init_cases (h : g.init msg = some g') :
    ∃ (k ip : Str) (port : ℕ) (serverFd newServer newClient : ℤ),
      g' = { Globals.assign { g with serverIp := ip, serverPort := port } k
        ⟨some g.threads, some (g.threads + 1), serverFd, newServer, newClient, false⟩
        with threads := g.threads + 2 } := by
  unfold Globals.init at h
  simp only at h
  split at h
  · cases h
  · exact ⟨_, _, _, _, _, _, (Option.some.inj h).symm⟩

theorem suspendPair_every (h : g.Every P) (hempty : P {}) (m : OpData)
    (a : RecordedAddr × RecordedAddr) : (g.suspendPair m a).Every P := by
  unfold Globals.suspendPair
  simp only
  split
  · exact Globals.Every.assign h _ (h.lookup hempty _)
  · exact h

theorem suspend_every (h : g.Every P) (hempty : P {}) (m : OpData) : (g.suspend m).Every P := by
  unfold Globals.suspend
  induction pairs m generalizing g with
  | nil => exact h
  | cons a as ih => exact ih (suspendPair_every h hempty m a)

theorem suspendPair_keeps (m : OpData) (a : RecordedAddr × RecordedAddr) {key : Str}
    (h : g.tcpPair key ≠ none) : (g.suspendPair m a).tcpPair key ≠ none := by
  unfold Globals.suspendPair
  simp only
  split
  · simp only [assign_tcpPair]
    split
    · exact Option.some_ne_none _
    · exact h
  · exact h

theorem pairs_cons {m : OpData} (h : 0 < m.size) : ∃ as, pairs m = m.addr[0] :: as := by
  obtain ⟨n, hn⟩ : ∃ n, m.size.toNat = n + 1 := ⟨m.size.toNat - 1, by omega⟩
  have hlen : 0 < m.addr.toList.length := by
    rw [Vector.length_toList]
    decide
  refine ⟨m.addr.toList.tail.take n, ?_⟩
  rw [pairs, hn, ← List.cons_head_tail (List.ne_nil_of_length_pos hlen), List.take_succ_cons]
  simp [List.head_eq_getElem]

theorem pairs_nil {m : OpData} (h : ¬0 < m.size) : pairs m = [] := by
  have hn : m.size.toNat = 0 := by omega
  rw [pairs, hn, List.take_zero]

theorem suspend_finds {m : OpData} (htcp : m.isTcp = true) (hsize : 0 < m.size) :
    (g.suspend m).tcpPair (serverKey m.addr[0]) ≠ none := by
  obtain ⟨as, has⟩ := pairs_cons hsize
  have hfirst : (g.suspendPair m m.addr[0]).tcpPair (serverKey m.addr[0]) ≠ none := by
    unfold Globals.suspendPair
    rw [if_pos htcp]
    simp only [assign_tcpPair, serverKey, if_true]
    exact Option.some_ne_none _
  unfold Globals.suspend
  rw [has, List.foldl_cons]
  clear has
  generalize g.suspendPair m m.addr[0] = g₁ at hfirst
  induction as generalizing g₁ with
  | nil => exact hfirst
  | cons a as ih => exact ih _ (suspendPair_keeps m a hfirst)

theorem suspendPair_udp {m : OpData} (h : m.isTcp = false) (a : RecordedAddr × RecordedAddr) :
    (g.suspendPair m a).tcpPair = g.tcpPair ∧ (g.suspendPair m a).deleted = g.deleted ∧
      (g.suspendPair m a).threads = g.threads := by
  unfold Globals.suspendPair
  rw [if_neg (by simp [h])]
  exact ⟨rfl, rfl, rfl⟩

theorem suspend_udp {m : OpData} (h : m.isTcp = false ∨ ¬0 < m.size) :
    (g.suspend m).tcpPair = g.tcpPair ∧ (g.suspend m).deleted = g.deleted ∧
      (g.suspend m).threads = g.threads := by
  rcases h with htcp | hsize
  · unfold Globals.suspend
    induction pairs m generalizing g with
    | nil => exact ⟨rfl, rfl, rfl⟩
    | cons a as ih =>
      obtain ⟨hpair, hdeleted, hthreads⟩ := suspendPair_udp (g := g) htcp a
      obtain ⟨hpair', hdeleted', hthreads'⟩ := ih (g := g.suspendPair m a)
      exact ⟨hpair'.trans hpair, hdeleted'.trans hdeleted, hthreads'.trans hthreads⟩
  · rw [Globals.suspend, pairs_nil hsize]
    exact ⟨rfl, rfl, rfl⟩

/-! ### No session falls asleep -/

/-- No message ever marks an entry as asleep. -/
theorem awake_step (g : Globals) (msg : Message) (g' : Globals)
    (hg : g.Every fun cp => cp.isSleep = false) (h : handle g msg = some g') :
    g'.Every fun cp => cp.isSleep = false := by
  obtain ⟨g₀, hload, hcases⟩ := handle_cases h
  have hg₀ := hload.every hg
  rcases hcases with ⟨-, rfl⟩ | ⟨-, -, hr⟩ | ⟨-, hi⟩ | ⟨-, rfl⟩
  · exact suspend_every hg₀ rfl msg.opData
  · obtain ⟨k, k', newServer, newClient, -, rfl⟩ := resume_cases hr
    exact Globals.Every.assign (hg₀.assign k (hg₀.lookup rfl k)) k' rfl
  · obtain ⟨k, ip, port, serverFd, newServer, newClient, rfl⟩ := init_cases hi
    exact Globals.Every.assign hg₀ k rfl
  · exact hg₀

theorem awake_run {msgs : List Message} (h : Run.exec handle gatewayIdle msgs = some g) :
    g.Every fun cp => cp.isSleep = false := by
  apply Run.exec_invariant _ awake_step gatewayIdle g msgs ?_ h
  intro key cp hkey
  cases hkey

theorem suspendedSessions_append (msgs : List Message) (msg : Message) :
    suspendedSessions (msgs ++ [msg]) = suspendedAfter (suspendedSessions msgs) msg := by
  simp [suspendedSessions]

theorem not_owned_after_suspend {before : List Message} (hmsg : msg.SuspendsTcp)
    (hg : Run.exec handle gatewayIdle (before ++ [msg]) = some g) :
    ¬g.Owned (suspendedSessions (before ++ [msg])) := by
  intro howned
  have hawake := awake_run hg
  obtain ⟨hop, htcp, hsize⟩ := hmsg
  rw [Run.exec_append] at hg
  obtain ⟨g₀, -, hstep⟩ := Option.bind_eq_some_iff.mp hg
  obtain ⟨g₁, hg₁, hlast⟩ := Run.exec_cons_some hstep
  obtain rfl := Option.some.inj hlast
  have hkey : g₁.tcpPair (serverKey msg.opData.addr[0]) ≠ none := by
    obtain ⟨g₂, -, ⟨-, rfl⟩ | ⟨hop', -⟩ | ⟨hop', -⟩ | ⟨hop', -⟩⟩ := handle_cases hg₁
    · exact suspend_finds htcp hsize
    · rcases hop with hop | hop <;> simp [hop] at hop'
    · rcases hop with hop | hop <;> simp [hop] at hop'
    · exact absurd hop hop'
  obtain ⟨cp, hcp⟩ := Option.ne_none_iff_exists'.mp hkey
  obtain ⟨as, has⟩ := pairs_cons hsize
  have hasleep : serverKey msg.opData.addr[0] ∈ suspendedSessions (before ++ [msg]) := by
    rw [suspendedSessions_append, suspendedAfter, has]
    rcases hop with hop | hop <;> simp [hop, htcp]
  have hsleep := (howned.sleeps _ cp hcp).mpr hasleep
  rw [hawake _ cp hcp] at hsleep
  cases hsleep

/-! ### Without a suspended session -/

def ConnectionPair.Relayed (threads : ℕ) (cp : ConnectionPair) : Prop :=
  ∃ i j, cp.send = some i ∧ cp.recv = some j ∧ i < threads ∧ j < threads

theorem ConnectionPair.Relayed.mono {threads n : ℕ} {cp : ConnectionPair}
    (h : cp.Relayed threads) (hn : threads ≤ n) : cp.Relayed n := by
  obtain ⟨i, j, hsend, hrecv, hi, hj⟩ := h
  exact ⟨i, j, hsend, hrecv, by omega, by omega⟩

structure Quiet (asleep : List Str) (g : Globals) : Prop where
  relayed : g.Every (·.Relayed g.threads)
  deleted : g.deleted = []
  asleep : asleep = []

theorem suspendedAfter_nil (hmsg : ¬msg.SuspendsTcp) : suspendedAfter [] msg = [] := by
  unfold suspendedAfter
  cases hop : msg.opData.op with
  | suspend | suspendTcpServer =>
    cases htcp : msg.opData.isTcp with
    | false => rfl
    | true =>
      have hsize : ¬0 < msg.opData.size := fun hsize => hmsg ⟨by simp [hop], htcp, hsize⟩
      simp [pairs_nil hsize]
  | resume | resumeTcpServer => simp
  | init => rfl
  | fin => rfl

theorem quiet_step {asleep : List Str} (hg : Quiet asleep g) (hmsg : ¬msg.SuspendsTcp)
    (h : handle g msg = some g') : Quiet (suspendedAfter asleep msg) g' := by
  obtain ⟨g₀, hload, hcases⟩ := handle_cases h
  obtain rfl := hg.asleep
  have hasleep := suspendedAfter_nil hmsg
  have hdeleted : g₀.deleted = [] := hload.deleted.trans hg.deleted
  have hrelayed : g₀.Every (·.Relayed g₀.threads) := by
    rw [hload.threads]
    exact hload.every hg.relayed
  have hgrown : g₀.Every (·.Relayed (g₀.threads + 2)) := fun key cp hkey =>
    (hrelayed key cp hkey).mono (by omega)
  have hnew (serverFd newServer newClient : ℤ) : ConnectionPair.Relayed (g₀.threads + 2)
      ⟨some g₀.threads, some (g₀.threads + 1), serverFd, newServer, newClient, false⟩ :=
    ⟨g₀.threads, g₀.threads + 1, rfl, rfl, by omega, by omega⟩
  rcases hcases with ⟨hop, rfl⟩ | ⟨-, -, hr⟩ | ⟨-, hi⟩ | ⟨-, rfl⟩
  · have hudp : msg.opData.isTcp = false ∨ ¬0 < msg.opData.size := by
      by_cases hsize : 0 < msg.opData.size
      · exact .inl (Bool.eq_false_iff.mpr fun htcp => hmsg ⟨hop, htcp, hsize⟩)
      · exact .inr hsize
    obtain ⟨hpair, hdel, hthreads⟩ := suspend_udp (g := g₀) hudp
    refine ⟨?_, hdel.trans hdeleted, hasleep⟩
    intro key cp hkey
    rw [hpair] at hkey
    rw [hthreads]
    exact hrelayed key cp hkey
  · obtain ⟨k, k', newServer, newClient, hserver, rfl⟩ := resume_cases hr
    refine ⟨?_, hdeleted, hasleep⟩
    exact Globals.Every.assign (hgrown.assign k (hgrown.lookup_of_server hserver)) k' (hnew _ _ _)
  · obtain ⟨k, ip, port, serverFd, newServer, newClient, rfl⟩ := init_cases hi
    exact ⟨Globals.Every.assign hgrown k (hnew _ _ _), hdeleted, hasleep⟩
  · exact ⟨hrelayed, hdeleted, hasleep⟩

theorem quiet_run {msgs : List Message} {asleep : List Str} (hg : Quiet asleep g)
    (hmsgs : ∀ msg ∈ msgs, ¬msg.SuspendsTcp) (h : Run.exec handle g msgs = some g') :
    Quiet (msgs.foldl suspendedAfter asleep) g' := by
  induction msgs generalizing g asleep with
  | nil =>
    obtain rfl := Option.some.inj h
    exact hg
  | cons msg msgs ih =>
    obtain ⟨g₁, hstep, hrest⟩ := Run.exec_cons_some h
    rw [List.forall_mem_cons] at hmsgs
    exact ih (quiet_step hg hmsgs.1 hstep) hmsgs.2 hrest

theorem Quiet.owned {asleep : List Str} (hg : Quiet asleep g)
    (hawake : g.Every fun cp => cp.isSleep = false) : g.Owned asleep where
  sleeps key cp hkey := by simp [hawake key cp hkey, hg.asleep]
  live key cp hkey _ := by
    obtain ⟨i, j, hsend, hrecv, hi, hj⟩ := hg.relayed key cp hkey
    exact ⟨i, j, hsend, hrecv, ⟨hi, by simp [hg.deleted]⟩, ⟨hj, by simp [hg.deleted]⟩⟩
  unused key cp hkey hsleep := by
    rw [hawake key cp hkey] at hsleep
    cases hsleep
  once := by simp [hg.deleted]

/-- The entries are right along a run that the gateway survives just when the run suspends
no TCP session: the entry of a session that is suspended stays awake, and its pointers to
the deleted threads stay in it. -/
theorem relays_owned_iff (msgs : List Message) (g : Globals)
    (h : Run.exec handle gatewayIdle msgs = some g) :
    OwnedAlong msgs ↔ ∀ msg ∈ msgs, ¬msg.SuspendsTcp := by
  constructor
  · intro howned msg hmem hmsg
    obtain ⟨before, after, rfl⟩ := List.append_of_mem hmem
    have hsplit : before ++ msg :: after = (before ++ [msg]) ++ after := by simp
    rw [hsplit, Run.exec_append] at h
    obtain ⟨g₁, hg₁, -⟩ := Option.bind_eq_some_iff.mp h
    exact not_owned_after_suspend hmsg hg₁ (howned _ after g₁ hsplit hg₁)
  · intro hmsgs before after g₁ hsplit hg₁
    have hbefore : ∀ msg ∈ before, ¬msg.SuspendsTcp := fun msg hm =>
      hmsgs msg (hsplit ▸ List.mem_append_left after hm)
    have hquiet : Quiet [] gatewayIdle := by
      refine ⟨?_, rfl, rfl⟩
      intro key cp hkey
      cases hkey
    exact (quiet_run hquiet hbefore hg₁).owned (awake_run hg₁)

def tcpMessage (op : Opcode) (server client : RecordedAddr) : Message :=
  ⟨⟨op, true, 1, #v[(server, client), ({}, {}), ({}, {}), ({}, {}), ({}, {})]⟩, 7, 8, 9, true⟩

def initTcp : Message := tcpMessage .init (dockerHost 3 40000) (dockerHost 2 9000)

def suspendTcp : Message := tcpMessage .suspendTcpServer (dockerHost 2 9000) (dockerHost 3 40000)

theorem relays_owned_iff_init :
    ∃ g, Run.exec handle gatewayIdle [initTcp] = some g ∧
      (OwnedAlong [initTcp] ↔ ∀ msg ∈ [initTcp], ¬msg.SuspendsTcp) := by
  obtain ⟨g, hg⟩ : ∃ g, Run.exec handle gatewayIdle [initTcp] = some g := ⟨_, rfl⟩
  exact ⟨g, hg, relays_owned_iff [initTcp] g hg⟩

/-- A second suspend message deletes the two threads of the session again. -/
theorem relays_deleted_twice :
    ¬∀ (msgs : List Message) (g : Globals), Run.exec handle gatewayIdle msgs = some g →
      OwnedAlong msgs := by
  intro hclaim
  obtain ⟨g, hg, hdeleted⟩ : ∃ g, Run.exec handle gatewayIdle [initTcp, suspendTcp, suspendTcp] =
      some g ∧ g.deleted = [0, 1, 0, 1] := ⟨_, rfl, by decide⟩
  have honce := (hclaim _ g hg [initTcp, suspendTcp, suspendTcp] [] g rfl hg).once
  rw [hdeleted] at honce
  exact absurd honce (by decide)

end MVVM.Gateway
