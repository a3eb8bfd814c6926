import MVVM.Run
import MVVM.Sockets.Migrate
import MVVM.Sockets.Address
import MVVM.SyncOps.Log

/-!
# What a snapshot has when a receive fails (wamr_wasi_context.cpp:85-134)

An error of `invoke_recvfrom` or `invoke_recv` returns from `dump_impl`, in the middle of
the loop over the sockets and before the log of synchronisation operations is copied. The
caller is not told.
-/

namespace MVVM.Sockets

open SyncOps (SyncOpT)

/-- The sockets and the log in the context. -/
structure Snapshot where
  socketFdMap : Std.TreeMap ℤ SocketMetaData
  syncOps : List SyncOpT

/-- The entry of a socket when the loop comes to it. -/
def Dump.entry (d : Dump) (fd : ℤ) : SocketMetaData := d.proc.socketFdMap.getD fd {}

/-- The process when the draining of a socket starts. -/
def Dump.start (d : Dump) (fd : ℤ) : Process :=
  d.proc.set fd { d.entry fd with isCollection := true }

/-- The body of the loop. A socket of UDP is drained with a socket address made from its own,
which is `address`; `none` also when the process exits there. -/
def dumpBody (onRecv : Process → ℤ → Message → Process) (address : ℤ → RecordedAddr) (d : Dump)
    (fd : ℤ) : Option (Dump × Bool) :=
  if (d.entry fd).socketRecvFromDatas ≠ [] ∧ d.proc.isTcp = false ∧
      sockaddrFrom (address fd) = none then none
  else dumpSocket onRecv d fd

/-- The loop, and whether it came to its end. -/
def dumpAll (onRecv : Process → ℤ → Message → Process) (address : ℤ → RecordedAddr) :
    List ℤ → Dump → Option (Dump × Bool)
  | [], d => some (d, true)
  | fd :: fds, d =>
    (dumpBody onRecv address d fd).bind fun (d, go) =>
      if go then dumpAll onRecv address fds d else some (d, false)

/-- The part of `WAMRWASIContext::dump_impl` for the sockets and the log, into an empty
context. -/
def dumpContext (onRecv : Process → ℤ → Message → Process) (address : ℤ → RecordedAddr)
    (p : Process) (net : ℤ → Arrivals) (syncOps : List SyncOpT) : Option Snapshot :=
  if p.shouldSnapshot then
    (dumpAll onRecv address p.socketFdMap.keys ⟨p, net, ∅⟩).map fun (d, ended) =>
      ⟨d.context, if ended then syncOps else []⟩
  else some ⟨∅, syncOps⟩

structure Complete (p : Process) (syncOps : List SyncOpT) (c : Snapshot) : Prop where
  sockets : ∀ fd ∈ p.socketFdMap, fd ∈ c.socketFdMap
  log : c.syncOps = syncOps

/-- One socket, when the loop goes on behind it. -/
def dumpStep (onRecv : Process → ℤ → Message → Process) (address : ℤ → RecordedAddr) (d : Dump)
    (fd : ℤ) : Option Dump :=
  (dumpBody onRecv address d fd).bind fun (d, go) => if go then some d else none

/-- What is done with a received message. -/
def deliverOf (onRecv : Process → ℤ → Message → Process) (p : Process) :
    Process → ℤ → Message → Process :=
  if p.isTcp = true then onRecv else insertSockRecvFromData

/-- Where a receive fails, the draining has ended with one of the messages before. -/
def EndsBefore (deliver : Process → ℤ → Message → Process) (fd : ℤ) (p : Process)
    (arrivals : Arrivals) : Prop :=
  ∀ ms rest, arrivals = List.map some ms ++ none :: rest → ∃ early, early <+: ms ∧
    ((early.foldl (fun p m => deliver p fd m) p).socketFdMap.getD fd {}).isCollection = false

/-- The receives on a socket succeed until its draining has ended, if it is drained at all. -/
def Receives (onRecv : Process → ℤ → Message → Process) (d : Dump) (fd : ℤ) : Prop :=
  (d.entry fd).socketRecvFromDatas ≠ [] → ¬(d.proc.isTcp = true ∧ (d.entry fd).isServer = true) →
    EndsBefore (deliverOf onRecv d.proc) fd (d.start fd) (d.net fd)

/-! ### One socket -/

variable {deliver onRecv : Process → ℤ → Message → Process} {address : ℤ → RecordedAddr}
  {fd : ℤ} {d d' : Dump} {ok : Bool}

theorem drain_ok_iff {p p' : Process} {arrivals rest : Arrivals}
    (h : drain deliver fd p arrivals = some (p', rest, ok)) :
    ok = true ↔ EndsBefore deliver fd p arrivals := by
  induction arrivals generalizing p with
  | nil =>
    rw [drain] at h
    split at h
    · obtain ⟨-, -, rfl⟩ := h
      refine iff_of_true rfl fun ms rest hms => ?_
      exact absurd hms.symm (by simp)
    · cases h
  | cons a arrivals ih =>
    by_cases hc : (p.socketFdMap.getD fd {}).isCollection = false
    · rw [drain.eq_def] at h
      simp only [if_pos hc, Option.some.injEq, Prod.mk.injEq] at h
      exact iff_of_true h.2.2.symm fun ms _ _ => ⟨[], List.nil_prefix, hc⟩
    · rw [drain.eq_def] at h
      simp only [if_neg hc] at h
      cases a with
      | none =>
        simp only [Option.some.injEq, Prod.mk.injEq] at h
        refine iff_of_false (by simp [← h.2.2]) fun hends => ?_
        obtain ⟨early, hpre, hstop⟩ := hends [] arrivals rfl
        obtain rfl := List.prefix_nil.mp hpre
        exact hc hstop
      | some m =>
        rw [ih h]
        constructor
        · intro hends ms rest hms
          cases ms with
          | nil => cases hms
          | cons m' ms =>
            obtain ⟨hm, hrest⟩ := List.cons.inj hms
            obtain rfl := Option.some.inj hm
            obtain ⟨early, hpre, hstop⟩ := hends ms rest hrest
            exact ⟨m :: early, List.cons_prefix_cons.mpr ⟨rfl, hpre⟩, hstop⟩
        · intro hends ms rest hms
          obtain ⟨early, hpre, hstop⟩ := hends (m :: ms) rest (by rw [hms]; rfl)
          cases early with
          | nil => exact absurd hstop hc
          | cons m' early =>
            obtain ⟨rfl, htail⟩ := List.cons_prefix_cons.mp hpre
            exact ⟨early, htail, hstop⟩

theorem dumpSocket_ok_iff (h : dumpSocket onRecv d fd = some (d', ok)) :
    ok = true ↔ Receives onRecv d fd := by
  unfold dumpSocket at h
  simp only at h
  split at h
  · next hnil =>
    simp only [Option.some.injEq, Prod.mk.injEq] at h
    exact iff_of_true h.2.symm fun hne => absurd hnil hne
  · next hne =>
    split at h
    · next hserver =>
      simp only [Option.some.injEq, Prod.mk.injEq] at h
      exact iff_of_true h.2.symm fun _ hnot => absurd hserver hnot
    · next hserver =>
      obtain ⟨⟨p, rest, ended⟩, hdrain, hresult⟩ := Option.map_eq_some_iff.mp h
      have hiff : ended = true ↔ Receives onRecv d fd := by
        refine (drain_ok_iff hdrain).trans ?_
        exact ⟨fun hends _ _ => hends, fun hall => hall hne hserver⟩
      rw [← hiff]
      cases ended with
      | true =>
        simp only [if_true, Prod.mk.injEq] at hresult
        exact iff_of_true hresult.2.symm rfl
      | false =>
        simp only [Bool.false_eq_true, if_false, Prod.mk.injEq] at hresult
        exact iff_of_false (by simp [← hresult.2]) Bool.false_ne_true

/-- An entry is written when the loop goes on, and only then. -/
theorem dumpSocket_context (h : dumpSocket onRecv d fd = some (d', ok)) :
    d'.context = if ok then d.context.insert fd (d.entry fd) else d.context := by
  unfold dumpSocket at h
  simp only at h
  split at h
  · obtain ⟨rfl, rfl⟩ := Prod.mk.inj (Option.some.inj h)
    rfl
  · split at h
    · obtain ⟨rfl, rfl⟩ := Prod.mk.inj (Option.some.inj h)
      rfl
    · obtain ⟨⟨p, rest, ended⟩, -, hresult⟩ := Option.map_eq_some_iff.mp h
      cases ended with
      | true =>
        obtain ⟨rfl, rfl⟩ := Prod.mk.inj hresult
        rfl
      | false =>
        obtain ⟨rfl, rfl⟩ := Prod.mk.inj hresult
        rfl

theorem dumpBody_some (h : dumpBody onRecv address d fd = some (d', ok)) :
    dumpSocket onRecv d fd = some (d', ok) := by
  unfold dumpBody at h
  split at h
  · cases h
  · exact h

/-! ### The loop -/

theorem dumpAll_ok_iff {fds : List ℤ} (h : dumpAll onRecv address fds d = some (d', ok)) :
    ok = true ↔ Run.Along (dumpStep onRecv address) (Receives onRecv) d fds := by
  induction fds generalizing d with
  | nil => exact iff_of_true (Prod.mk.inj (Option.some.inj h)).2.symm trivial
  | cons fd fds ih =>
    obtain ⟨⟨u, go⟩, hbody, hrest⟩ := Option.bind_eq_some_iff.mp h
    have hgo := dumpSocket_ok_iff (dumpBody_some hbody)
    have hstep : dumpStep onRecv address d fd = if go then some u else none := by
      rw [dumpStep, hbody, Option.bind_some]
    cases go with
    | true =>
      rw [ih hrest]
      constructor
      · intro hall
        exact Run.Along.cons (hgo.mp rfl) hstep hall
      · intro hall
        exact hall.2 u hstep
    | false =>
      have hok : ok = false := (Prod.mk.inj (Option.some.inj hrest)).2.symm
      refine iff_of_false (by simp [hok]) fun hall => ?_
      exact Bool.false_ne_true (hgo.mpr hall.1)

/-- When the loop ends all its sockets have an entry, and otherwise the one where it stopped
has none. -/
theorem mem_dumpAll {fds : List ℤ} (h : dumpAll onRecv address fds d = some (d', ok))
    (hnodup : fds.Nodup) (hnew : ∀ fd ∈ fds, fd ∉ d.context) :
    (∀ fd, fd ∈ d.context → fd ∈ d'.context) ∧ (ok = true ↔ ∀ fd ∈ fds, fd ∈ d'.context) := by
  induction fds generalizing d with
  | nil =>
    obtain ⟨rfl, rfl⟩ := Prod.mk.inj (Option.some.inj h)
    exact ⟨fun _ hm => hm, iff_of_true rfl fun _ hm => absurd hm List.not_mem_nil⟩
  | cons fd fds ih =>
    obtain ⟨⟨u, go⟩, hbody, hrest⟩ := Option.bind_eq_some_iff.mp h
    have hctx := dumpSocket_context (dumpBody_some hbody)
    obtain ⟨hnot, hnodup'⟩ := List.nodup_cons.mp hnodup
    rw [List.forall_mem_cons] at hnew
    cases go with
    | true =>
      have hmem : ∀ g, g ∈ u.context ↔ fd = g ∨ g ∈ d.context := by
        intro g
        simp only [hctx, if_true, Std.TreeMap.mem_insert, Std.compare_eq_iff_eq]
      obtain ⟨hkeep, hall⟩ := ih hrest hnodup' fun g hg hin => by
        rcases (hmem g).mp hin with rfl | hin
        · exact hnot hg
        · exact hnew.2 g hg hin
      refine ⟨fun g hg => hkeep g ((hmem g).mpr (.inr hg)), ?_⟩
      rw [List.forall_mem_cons]
      exact hall.trans (and_iff_right (hkeep fd ((hmem fd).mpr (.inl rfl)))).symm
    | false =>
      obtain ⟨rfl, rfl⟩ := Prod.mk.inj (Option.some.inj hrest)
      have hsame : u.context = d.context := hctx
      rw [hsame]
      refine ⟨fun _ hm => hm, iff_of_false Bool.false_ne_true fun hall => ?_⟩
      exact hnew.1 (hall fd List.mem_cons_self)

/-! ### The snapshot -/

/-- A snapshot is complete just when the sockets are drained at all and no receive fails
before the socket's draining has ended. -/
theorem snapshot_complete_iff (onRecv : Process → ℤ → Message → Process)
    (address : ℤ → RecordedAddr) (p : Process) (net : ℤ → Arrivals) (syncOps : List SyncOpT)
    (c : Snapshot) (h : dumpContext onRecv address p net syncOps = some c) :
    Complete p syncOps c ↔
      (p.shouldSnapshot = false → ∀ fd, fd ∉ p.socketFdMap) ∧
        Run.Along (dumpStep onRecv address) (Receives onRecv) ⟨p, net, ∅⟩ p.socketFdMap.keys := by
  unfold dumpContext at h
  cases hsnap : p.shouldSnapshot with
  | true =>
    rw [if_pos hsnap] at h
    obtain ⟨⟨d, ok⟩, hall, rfl⟩ := Option.map_eq_some_iff.mp h
    obtain ⟨-, hmem⟩ := mem_dumpAll hall Std.TreeMap.nodup_keys
      fun _ _ => Std.TreeMap.not_mem_emptyc
    simp only [Std.TreeMap.mem_keys] at hmem
    rw [← dumpAll_ok_iff hall, and_iff_right (fun hfalse => by cases hfalse)]
    constructor
    · intro hcomplete
      exact hmem.mpr hcomplete.sockets
    · intro hok
      exact ⟨hmem.mp hok, if_pos hok⟩
  | false =>
    rw [if_neg (by simp [hsnap])] at h
    obtain rfl := Option.some.inj h
    constructor
    · intro hcomplete
      have hnone : ∀ fd, fd ∉ p.socketFdMap :=
        fun fd hfd => Std.TreeMap.not_mem_emptyc (hcomplete.sockets fd hfd)
      refine ⟨fun _ => hnone, ?_⟩
      have hkeys : p.socketFdMap.keys = [] :=
        List.eq_nil_iff_forall_not_mem.mpr fun fd hfd => hnone fd (Std.TreeMap.mem_keys.mp hfd)
      rw [hkeys]
      trivial
    · intro ⟨hnone, _⟩
      exact ⟨fun fd hfd => absurd hfd (hnone rfl fd), rfl⟩

/-- A socket that has received a datagram, in a process that takes a snapshot. -/
def oneReceived : Process :=
  { receiveAll oneSocket [(7, datagram [97])] with shouldSnapshot := true }

def address4 (_ : ℤ) : RecordedAddr := { isFour := true }

theorem snapshot_complete_iff_drained :
    ∃ c, dumpContext insertSockRecvFromData address4 oneReceived (pending [98]) [] = some c ∧
      (Complete oneReceived [] c ↔
        (oneReceived.shouldSnapshot = false → ∀ fd, fd ∉ oneReceived.socketFdMap) ∧
          Run.Along (dumpStep insertSockRecvFromData address4) (Receives insertSockRecvFromData)
            ⟨oneReceived, pending [98], ∅⟩ oneReceived.socketFdMap.keys) :=
  ⟨_, rfl, snapshot_complete_iff insertSockRecvFromData address4 oneReceived (pending [98]) [] _
    rfl⟩

/-- The first receive fails: the context has neither the socket nor the log. -/
theorem failed_receive_loses :
    ¬∀ (onRecv : Process → ℤ → Message → Process) (address : ℤ → RecordedAddr) (p : Process)
        (net : ℤ → Arrivals) (syncOps : List SyncOpT) (c : Snapshot), p.shouldSnapshot = true →
      dumpContext onRecv address p net syncOps = some c → Complete p syncOps c := by
  intro hclaim
  have hcomplete := hclaim insertSockRecvFromData address4 oneReceived (fun _ => [none])
    [⟨1, 0, .mutexLock, 0, false⟩] _ rfl rfl
  cases hcomplete.log

end MVVM.Sockets
