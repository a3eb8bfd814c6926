import MVVM.Maps
import MVVM.Sockets.Table
import Mathlib.Logic.Function.Basic

/-!
# Snapshot and restore of the sockets (wamr_wasi_context.cpp:86-130, 186-266)

The snapshot drains every socket that has received something: `invoke_recvfrom` makes the
runtime report one more datagram, until the gateway's `MVVM_SOCK_FIN` clears
`is_collection`. Then the entry of the socket goes into the context, and the restored
process starts from it.
-/

namespace MVVM.Sockets

/-- What the next receives on a socket will deliver; `none` is a return value of -1. -/
abbrev Arrivals := List (Option Message)

/-- The loops `while (wamr->socket_fd_map_[fd].is_collection)`, where each received message
is given to `deliver`: the process, what has not arrived yet, and whether the loop ended
without an error. There is no result when the loop waits for a message. -/
def drain (deliver : Process → ℤ → Message → Process) (fd : ℤ) :
    Process → Arrivals → Option (Process × Arrivals × Bool)
  | p, arrivals =>
    if (p.socketFdMap.getD fd {}).isCollection = false then some (p, arrivals, true)
    else
      match arrivals with
      | [] => none
      | none :: rest => some (p, rest, false)
      | some m :: rest => drain deliver fd (deliver p fd m) rest

/-- The state of `dump_impl`: the process, its network and `socket_fd_map` of the context. -/
structure Dump where
  proc : Process
  net : ℤ → Arrivals
  context : Std.TreeMap ℤ SocketMetaData

def Dump.put (d : Dump) (fd : ℤ) (metaData : SocketMetaData) : Dump :=
  { d with context := d.context.insert fd metaData }

/-- The body of the loop over `socket_fd_map_` (wamr_wasi_context.cpp:89-129): the state
after it and whether the loop goes on. `socketMetaData` is a copy of the entry as it was
before the draining. What the runtime does with a message from `invoke_recv` is `onRecv`. -/
def dumpSocket (onRecv : Process → ℤ → Message → Process) (d : Dump) (fd : ℤ) :
    Option (Dump × Bool) :=
  let socketMetaData := d.proc.socketFdMap.getD fd {}
  if socketMetaData.socketRecvFromDatas = [] then some (d.put fd socketMetaData, true)
  else
    let p := d.proc.set fd { socketMetaData with isCollection := true }
    if p.isTcp = true ∧ socketMetaData.isServer = true then
      some ({ d with proc := p }.put fd socketMetaData, true)
    else
      let deliver := if p.isTcp = true then onRecv else insertSockRecvFromData
      (drain deliver fd p (d.net fd)).map fun (p, rest, ok) =>
        let d := { d with proc := p, net := Function.update d.net fd rest }
        if ok then (d.put fd socketMetaData, true) else (d, false)

/-- The loop; an error of a receive returns from `dump_impl`. -/
def dumpLoop (onRecv : Process → ℤ → Message → Process) : List ℤ → Dump → Option Dump
  | [], d => some d
  | fd :: fds, d =>
    (dumpSocket onRecv d fd).bind fun (d, go) => if go then dumpLoop onRecv fds d else some d

/-- The part of `WAMRWASIContext::dump_impl` for the sockets. -/
def dumpSockets (onRecv : Process → ℤ → Message → Process) (p : Process) (net : ℤ → Arrivals) :
    Option Dump :=
  if p.shouldSnapshot then dumpLoop onRecv p.socketFdMap.keys ⟨p, net, ∅⟩ else some ⟨p, net, ∅⟩

/-- The part of `WAMRWASIContext::restore_impl` that fills the table: first the sockets
that are no servers, then the servers. -/
def restoreSockets (context : Std.TreeMap ℤ SocketMetaData) (p : Process) : Process :=
  if p.shouldSnapshot = false then
    let entries := context.toList
    let p := { p with
      shouldSnapshot := true
      isTcp := p.isTcp || entries.any fun e => e.2.type != 0 }
    let p := (entries.filter fun e => !e.2.isServer).foldl (fun p e => p.set e.1 e.2) p
    (entries.filter fun e => e.2.isServer).foldl (fun p e => p.set e.1 e.2) p
  else p

/-! ### Before the snapshot -/

def receiveAll (p : Process) (l : List (ℤ × Message)) : Process :=
  l.foldl (fun p e => insertSockRecvFromData p e.1 e.2) p

def messagesOf (l : List (ℤ × Message)) (sock : ℤ) : List Message :=
  (l.filter fun e => e.1 = sock).map Prod.snd

theorem receiveAll_isTcp (p : Process) (l : List (ℤ × Message)) :
    (receiveAll p l).isTcp = p.isTcp := by
  induction l generalizing p with
  | nil => rfl
  | cons e l ih => exact (ih _).trans (insertSockRecvFromData_isTcp p e.1 e.2)

/-- While a socket is not drained, the datagrams that are no end are recorded. -/
theorem getElem?_receiveAll_filter {p : Process} {sock : ℤ} {metaData : SocketMetaData}
    {l : List (ℤ × Message)} (h : p.socketFdMap[sock]? = some metaData)
    (hc : metaData.isCollection = false) :
    (receiveAll p l).socketFdMap[sock]? = some { metaData with
      socketRecvFromDatas := metaData.socketRecvFromDatas ++
        ((messagesOf l sock).filter fun m => !decide m.IsFin).map fun m => m.record sock } := by
  induction l generalizing p metaData with
  | nil => simpa [receiveAll, messagesOf] using h
  | cons e l ih =>
    by_cases he : e.1 = sock
    · subst he
      have hmsgs : messagesOf (e :: l) e.1 = e.2 :: messagesOf l e.1 := by simp [messagesOf]
      rw [hmsgs]
      by_cases hfin : e.2.IsFin
      · have hget : (insertSockRecvFromData p e.1 e.2).socketFdMap[e.1]? = some metaData := by
          unfold insertSockRecvFromData
          simp only [h, hc, Bool.false_eq_true, if_false, if_pos hfin, getElem?_set_self]
          rw [← hc]
        refine (ih hget hc).trans ?_
        simp [hfin]
      · have hget : (insertSockRecvFromData p e.1 e.2).socketFdMap[e.1]? = _ :=
          insertSockRecvFromData_of_app h hfin hc ▸ getElem?_set_self p e.1 _
        refine (ih hget hc).trans ?_
        simp [hfin]
    · have hmsgs : messagesOf (e :: l) sock = messagesOf l sock := by simp [messagesOf, he]
      rw [hmsgs]
      exact ih ((getElem?_insertSockRecvFromData_ne p e.2 he).trans h) hc

theorem getElem?_receiveAll {p : Process} {sock : ℤ} {metaData : SocketMetaData}
    {l : List (ℤ × Message)} (h : p.socketFdMap[sock]? = some metaData)
    (hc : metaData.isCollection = false) (hl : ∀ m ∈ messagesOf l sock, ¬ m.IsFin) :
    (receiveAll p l).socketFdMap[sock]? = some { metaData with
      socketRecvFromDatas := metaData.socketRecvFromDatas ++
        (messagesOf l sock).map fun m => m.record sock } := by
  have hall : ((messagesOf l sock).filter fun m => !decide m.IsFin) = messagesOf l sock :=
    List.filter_eq_self.mpr fun m hm => by simp [hl m hm]
  rw [getElem?_receiveAll_filter h hc, hall]

/-! ### The snapshot -/

/-- On the socket arrive the datagrams `ms` and then the end of the draining. -/
def Drains (arrivals : Arrivals) (ms : List Message) : Prop :=
  (∀ m ∈ ms, ¬ m.IsFin) ∧
    ∃ fin rest, fin.IsFin ∧ arrivals = ms.map some ++ some fin :: rest

theorem drain_udp {fd : ℤ} {p : Process} {metaData : SocketMetaData} {arrivals : Arrivals}
    {ms : List Message} (h : p.socketFdMap[fd]? = some metaData)
    (hc : metaData.isCollection = true) (hd : Drains arrivals ms) :
    ∃ p' rest, drain insertSockRecvFromData fd p arrivals = some (p', rest, true) ∧
      (∀ g, fd ≠ g → p'.socketFdMap[g]? = p.socketFdMap[g]?) ∧ p'.isTcp = p.isTcp := by
  obtain ⟨happ, fin, rest, hfin, rfl⟩ := hd
  induction ms generalizing p metaData with
  | nil =>
    obtain ⟨md, hins⟩ : ∃ md : SocketMetaData, insertSockRecvFromData p fd fin =
        p.set fd { md with isCollection := false } := by
      unfold insertSockRecvFromData
      simp only [h, hc, if_true, if_pos hfin]
      exact ⟨{ metaData with replayStartIndex := metaData.replayStartIndex + 1 }, rfl⟩
    refine ⟨insertSockRecvFromData p fd fin, rest, ?_,
      fun g hg => getElem?_insertSockRecvFromData_ne p fin hg,
      insertSockRecvFromData_isTcp p fd fin⟩
    have hstop : ((insertSockRecvFromData p fd fin).socketFdMap.getD fd {}).isCollection =
        false := by
      rw [hins, getD_of_some (getElem?_set_self p fd _)]
    rw [List.map_nil, List.nil_append, drain, getD_of_some h, if_neg (by simp [hc])]
    show drain insertSockRecvFromData fd (insertSockRecvFromData p fd fin) rest = _
    rw [drain.eq_def]
    exact if_pos hstop
  | cons m ms ih =>
    have hm : ¬ m.IsFin := happ m List.mem_cons_self
    obtain ⟨md, hins, hmd⟩ : ∃ md : SocketMetaData, insertSockRecvFromData p fd m = p.set fd md ∧
        md.isCollection = true := by
      unfold insertSockRecvFromData
      simp only [h, hc, if_true, if_neg hm]
      exact ⟨_, rfl, rfl⟩
    have hget : (insertSockRecvFromData p fd m).socketFdMap[fd]? = some md := by
      rw [hins, getElem?_set_self]
    obtain ⟨p', rest', hrun, hother, htcp⟩ :=
      ih hget hmd fun m' hm' => happ m' (List.mem_cons_of_mem _ hm')
    refine ⟨p', rest', ?_, fun g hg => ?_, ?_⟩
    · rw [List.map_cons, List.cons_append, drain, getD_of_some h, if_neg (by simp [hc])]
      exact hrun
    · rw [hother g hg, getElem?_insertSockRecvFromData_ne p m hg]
    · rw [htcp, insertSockRecvFromData_isTcp]

theorem dumpSocket_udp (onRecv : Process → ℤ → Message → Process) {d : Dump} {fd : ℤ}
    (htcp : d.proc.isTcp = false)
    (hd : (d.proc.socketFdMap.getD fd {}).socketRecvFromDatas ≠ [] → ∃ ms, Drains (d.net fd) ms) :
    ∃ d', dumpSocket onRecv d fd = some (d', true) ∧
      d'.context = d.context.insert fd (d.proc.socketFdMap.getD fd {}) ∧
      d'.proc.isTcp = false ∧
      ∀ g, fd ≠ g → d'.proc.socketFdMap[g]? = d.proc.socketFdMap[g]? ∧ d'.net g = d.net g := by
  unfold dumpSocket
  simp only
  by_cases hnil : (d.proc.socketFdMap.getD fd {}).socketRecvFromDatas = []
  · rw [if_pos hnil]
    exact ⟨_, rfl, rfl, htcp, fun g _ => ⟨rfl, rfl⟩⟩
  · obtain ⟨ms, hms⟩ := hd hnil
    have htcp' : ∀ md, (d.proc.set fd md).isTcp = false := fun _ => htcp
    obtain ⟨p', rest, hrun, hother, hkeep⟩ :=
      drain_udp (p := d.proc.set fd { d.proc.socketFdMap.getD fd {} with isCollection := true })
        (getElem?_set_self d.proc fd _) rfl hms
    rw [if_neg hnil, htcp']
    simp only [Bool.false_eq_true, false_and, if_false, hrun, Option.map_some, if_true]
    refine ⟨_, rfl, rfl, hkeep.trans htcp, fun g hg => ⟨?_, ?_⟩⟩
    · exact (hother g hg).trans (getElem?_set_ne d.proc _ hg)
    · exact Function.update_of_ne hg.symm _ _

theorem dumpLoop_udp (onRecv : Process → ℤ → Message → Process) {fds : List ℤ} (d : Dump)
    (htcp : d.proc.isTcp = false) (hnodup : fds.Nodup)
    (hd : ∀ fd ∈ fds, (d.proc.socketFdMap.getD fd {}).socketRecvFromDatas ≠ [] →
      ∃ ms, Drains (d.net fd) ms) :
    ∃ d', dumpLoop onRecv fds d = some d' ∧
      (∀ fd ∈ fds, d'.context[fd]? = some (d.proc.socketFdMap.getD fd {})) ∧
      ∀ fd, fd ∉ fds → d'.context[fd]? = d.context[fd]? := by
  induction fds generalizing d with
  | nil => exact ⟨d, rfl, fun fd hfd => absurd hfd List.not_mem_nil, fun _ _ => rfl⟩
  | cons fd fds ih =>
    obtain ⟨hnot, hnodup'⟩ := List.nodup_cons.mp hnodup
    obtain ⟨d₁, hrun, hctx, htcp', hother⟩ := dumpSocket_udp onRecv htcp
      (hd fd List.mem_cons_self)
    have hsame : ∀ g ∈ fds, d₁.proc.socketFdMap.getD g {} = d.proc.socketFdMap.getD g {} := by
      intro g hg
      have hne : fd ≠ g := fun he => hnot (he ▸ hg)
      rw [Std.TreeMap.getD_eq_getD_getElem?, Std.TreeMap.getD_eq_getD_getElem?, (hother g hne).1]
    obtain ⟨d', hloop, hset, hkeep⟩ := ih d₁ htcp' hnodup' fun g hg hne => by
      have hfd : fd ≠ g := fun he => hnot (he ▸ hg)
      rw [(hother g hfd).2]
      exact hd g (List.mem_cons_of_mem _ hg) (hsame g hg ▸ hne)
    have hput : ∀ g, d₁.context[g]? = if fd = g then some (d.proc.socketFdMap.getD fd {})
        else d.context[g]? := by
      intro g
      simp only [hctx, Std.TreeMap.getElem?_insert, Std.compare_eq_iff_eq]
    refine ⟨d', ?_, fun g hg => ?_, fun g hg => ?_⟩
    · rw [dumpLoop, hrun]
      exact hloop
    · rcases List.mem_cons.mp hg with rfl | hg
      · rw [hkeep g hnot, hput, if_pos rfl]
      · rw [hset g hg, hsame g hg]
    · have hne : fd ≠ g := fun he => hg (he ▸ List.mem_cons_self)
      rw [hkeep g fun hm => hg (List.mem_cons_of_mem _ hm), hput, if_neg hne]

theorem dumpSockets_udp (onRecv : Process → ℤ → Message → Process) (p : Process)
    (net : ℤ → Arrivals) (hsnap : p.shouldSnapshot = true) (htcp : p.isTcp = false)
    (hd : ∀ (fd : ℤ) (md : SocketMetaData), p.socketFdMap[fd]? = some md →
      md.socketRecvFromDatas ≠ [] → ∃ ms, Drains (net fd) ms) :
    ∃ d, dumpSockets onRecv p net = some d ∧
      ∀ (fd : ℤ) (md : SocketMetaData), p.socketFdMap[fd]? = some md →
        d.context[fd]? = some md := by
  have hget : ∀ (fd : ℤ), fd ∈ p.socketFdMap.keys →
      p.socketFdMap[fd]? = some (p.socketFdMap.getD fd {}) := by
    intro fd hfd
    obtain ⟨md, hmd⟩ := Maps.mem_iff_exists.mp (Std.TreeMap.mem_keys.mp hfd)
    rw [getD_of_some hmd, hmd]
  obtain ⟨d, hrun, hset, _⟩ := dumpLoop_udp onRecv ⟨p, net, ∅⟩ htcp
    Std.TreeMap.nodup_keys fun fd hfd hne => hd fd _ (hget fd hfd) hne
  refine ⟨d, by rw [dumpSockets, if_pos hsnap]; exact hrun, fun fd md hmd => ?_⟩
  have hfd : fd ∈ p.socketFdMap.keys :=
    Std.TreeMap.mem_keys.mpr (Maps.mem_iff_exists.mpr ⟨md, hmd⟩)
  rw [hset fd hfd, getD_of_some hmd]

/-! ### The restored process -/

theorem socketFdMap_foldl_set (entries : List (ℤ × SocketMetaData)) (p : Process) :
    (entries.foldl (fun p e => p.set e.1 e.2) p).socketFdMap
      = entries.foldl (fun m e => m.insert e.1 e.2) p.socketFdMap := by
  induction entries generalizing p with
  | nil => rfl
  | cons e entries ih => exact ih (p.set e.1 e.2)

theorem getElem?_restoreSockets {context : Std.TreeMap ℤ SocketMetaData} {p : Process}
    (hp : p.shouldSnapshot = false) {fd : ℤ} {md : SocketMetaData}
    (h : context[fd]? = some md) : (restoreSockets context p).socketFdMap[fd]? = some md := by
  have hmem : (fd, md) ∈ context.toList := (Maps.mem_toList_iff context fd md).mpr h
  have hkeys := Maps.keys_ne context
  unfold restoreSockets
  rw [if_pos hp]
  simp only
  rw [socketFdMap_foldl_set, socketFdMap_foldl_set,
    Maps.getElem?_foldl_insert _ _ (hkeys.filter _)]
  by_cases hserver : md.isServer = true
  · exact .inl (List.mem_filter.mpr ⟨hmem, hserver⟩)
  · refine .inr ⟨fun e he heq => ?_, Maps.getElem?_foldl_insert_of_mem _ (hkeys.filter _)
      (List.mem_filter.mpr ⟨hmem, by simpa using hserver⟩)⟩
    obtain ⟨hm, hs⟩ := List.mem_filter.mp he
    have hmd : context[fd]? = some e.2 := (Maps.mem_toList_iff context fd e.2).mp (heq ▸ hm)
    rw [h] at hmd
    exact hserver (Option.some.inj hmd ▸ hs)

/-- The entry of a socket that `insert_socket` has just made. -/
def SocketMetaData.Fresh (md : SocketMetaData) : Prop :=
  md.socketRecvFromDatas = [] ∧ md.replayStartIndex = 0 ∧ md.isCollection = false

theorem replayed_of_migrate (onRecv : Process → ℤ → Message → Process) (p : Process) (sock : ℤ)
    (metaData : SocketMetaData) (before : List (ℤ × Message)) (net : ℤ → Arrivals)
    (fresh : Process) (htcp : p.isTcp = false) (hsock : p.socketFdMap[sock]? = some metaData)
    (hfresh : metaData.Fresh) (hbefore : ∀ m ∈ messagesOf before sock, ¬ m.IsFin)
    (hdrains : ∀ (fd : ℤ) (md : SocketMetaData), (receiveAll p before).socketFdMap[fd]? = some md →
      md.socketRecvFromDatas ≠ [] → ∃ ms, Drains (net fd) ms)
    (hstart : fresh.shouldSnapshot = false) :
    ∃ d, dumpSockets onRecv { receiveAll p before with shouldSnapshot := true } net = some d ∧
      ∀ addr k, replayed (restoreSockets d.context fresh) sock addr k =
        ((messagesOf before sock).map Message.payload).getD k [] := by
  obtain ⟨hempty, hindex, hcoll⟩ := hfresh
  have hlog := getElem?_receiveAll hsock hcoll hbefore
  rw [hempty, List.nil_append] at hlog
  obtain ⟨d, hrun, hctx⟩ := dumpSockets_udp onRecv
    { receiveAll p before with shouldSnapshot := true } net rfl
    ((receiveAll_isTcp p before).trans htcp) hdrains
  refine ⟨d, hrun, fun addr k => ?_⟩
  rw [replayed_eq addr (getElem?_restoreSockets hstart (hctx sock _ hlog)) hindex]
  simp only [List.map_map]
  rfl

/-- The replays return the drained datagrams just when these are the ones that the guest
had received before the snapshot. -/
theorem replay_returns_drained_iff (onRecv : Process → ℤ → Message → Process) (p : Process)
    (sock : ℤ) (metaData : SocketMetaData) (before : List (ℤ × Message)) (net : ℤ → Arrivals)
    (drained : List Message) (fresh : Process) (htcp : p.isTcp = false)
    (hsock : p.socketFdMap[sock]? = some metaData) (hfresh : metaData.Fresh)
    (hbefore : ∀ m ∈ messagesOf before sock, ¬ m.IsFin) (hdrained : Drains (net sock) drained)
    (hothers : ∀ (fd : ℤ) (md : SocketMetaData), fd ≠ sock →
      (receiveAll p before).socketFdMap[fd]? = some md → md.socketRecvFromDatas ≠ [] →
        ∃ ms, Drains (net fd) ms)
    (hstart : fresh.shouldSnapshot = false) :
    ∃ d, dumpSockets onRecv { receiveAll p before with shouldSnapshot := true } net = some d ∧
      ((∀ addr k, replayed (restoreSockets d.context fresh) sock addr k =
          (drained.map Message.payload).getD k []) ↔
        ∀ k, ((messagesOf before sock).map Message.payload).getD k [] =
          (drained.map Message.payload).getD k []) := by
  obtain ⟨d, hrun, hreplay⟩ := replayed_of_migrate onRecv p sock metaData before net fresh htcp
    hsock hfresh hbefore (fun fd md hmd hne => by
      by_cases hfd : fd = sock
      · exact ⟨drained, hfd ▸ hdrained⟩
      · exact hothers fd md hfd hmd hne) hstart
  refine ⟨d, hrun, fun h k => ?_, fun h addr k => ?_⟩
  · rw [← hreplay (fun _ => .ip4 (Vector.replicate 4 0) 0) k]
    exact h _ k
  · rw [hreplay addr k]
    exact h k

def datagram (bs : List UInt8) : Message := ⟨bs, bs.length, 0, .ip4 (Vector.replicate 4 0) 0⟩

def oneSocket : Process := ⟨false, false, (∅ : SocketTable).insert 7 { domain := 2, type := 1 }⟩

/-- On the network wait one datagram and the end of the draining. -/
def pending (bs : List UInt8) (_ : ℤ) : Arrivals :=
  [some (datagram bs), some (datagram [5, 0, 0, 0])]

theorem pending_drains {bs : List UInt8} (h : ¬ (datagram bs).IsFin) (fd : ℤ) :
    Drains (pending bs fd) [datagram bs] :=
  ⟨fun m hm => List.mem_singleton.mp hm ▸ h, datagram [5, 0, 0, 0], [], by decide, rfl⟩

theorem replay_returns_drained_iff_sameByte :
    ∃ d, dumpSockets insertSockRecvFromData
        { receiveAll oneSocket [(7, datagram [97])] with shouldSnapshot := true }
        (pending [97]) = some d ∧
      ∀ addr k, replayed (restoreSockets d.context ⟨false, false, ∅⟩) 7 addr k =
        ([datagram [97]].map Message.payload).getD k [] := by
  have happ : ¬ (datagram [97]).IsFin := by decide
  obtain ⟨d, hrun, hiff⟩ := replay_returns_drained_iff insertSockRecvFromData oneSocket 7
    { domain := 2, type := 1 } [(7, datagram [97])] (pending [97]) [datagram [97]]
    ⟨false, false, ∅⟩ rfl rfl ⟨rfl, rfl, rfl⟩ (by decide) (pending_drains happ 7)
    (fun fd _ _ _ _ => ⟨_, pending_drains happ fd⟩) rfl
  exact ⟨d, hrun, hiff.mpr fun _ => rfl⟩

/-- The guest has had byte 97, byte 98 is drained; byte 97 is replayed. -/
theorem replay_returns_old_datagram :
    ¬ ∀ (onRecv : Process → ℤ → Message → Process) (p : Process) (sock : ℤ)
        (metaData : SocketMetaData) (before : List (ℤ × Message)) (net : ℤ → Arrivals)
        (drained : List Message) (fresh : Process), p.isTcp = false →
      p.socketFdMap[sock]? = some metaData → metaData.Fresh →
      (∀ m ∈ messagesOf before sock, ¬ m.IsFin) → messagesOf before sock ≠ [] →
      (∀ fd, Drains (net fd) drained) → fresh.shouldSnapshot = false →
      ∃ d, dumpSockets onRecv { receiveAll p before with shouldSnapshot := true } net = some d ∧
        ∀ addr k, replayed (restoreSockets d.context fresh) sock addr k =
          (drained.map Message.payload).getD k [] := by
  intro hclaim
  have happ : ¬ (datagram [98]).IsFin := by decide
  obtain ⟨d, hrun, h⟩ := hclaim insertSockRecvFromData oneSocket 7 { domain := 2, type := 1 }
    [(7, datagram [97])] (pending [98]) [datagram [98]] ⟨false, false, ∅⟩ rfl rfl ⟨rfl, rfl, rfl⟩
    (by decide) (by decide) (pending_drains happ) rfl
  obtain ⟨d', hrun', h'⟩ := replayed_of_migrate insertSockRecvFromData oneSocket 7
    { domain := 2, type := 1 } [(7, datagram [97])] (pending [98]) ⟨false, false, ∅⟩ rfl rfl
    ⟨rfl, rfl, rfl⟩ (by decide) (fun fd _ _ _ => ⟨_, pending_drains happ fd⟩) rfl
  obtain rfl := Option.some.inj (hrun.symm.trans hrun')
  have h0 := (h' (fun _ => .ip4 (Vector.replicate 4 0) 0) 0).symm.trans (h _ 0)
  exact absurd h0 (by decide)

end MVVM.Sockets
