import MVVM.Sockets.Insert
import MVVM.Sockets.Address

/-!
# The descriptors of replaced sockets (wamr_export.cpp:158-163, wamr_wasi_context.cpp:188-262)

When TCP servers are restored, a new connection is accepted for each of them, and
`new_sock_map_` says which descriptor it has. Every later call on a tracked socket asks
`get_sock_fd` for the descriptor to use.
-/

namespace MVVM.Sockets

open Files

structure Lookups where
  wamr : Wamr Socket
  isTcp : Bool
  newSockMap : Std.TreeMap ℤ ℤ
  -- what was accepted for the sockets that are still tracked; no operation reads it
  replaced : ℤ → Option ℤ

def Lookups.setWamr (s : Lookups) (w : Wamr Socket) : Lookups :=
  { s with wamr := w, replaced := fun fd => if fd ∈ w.socketFdMap then s.replaced fd else none }

def Lookups.setTable (s : Lookups) (table : Std.TreeMap ℤ Socket) : Lookups :=
  s.setWamr { s.wamr with socketFdMap := table }

/-- `get_sock_fd`; indexing `new_sock_map_` makes an entry where there is none. -/
def getSockFd (s : Lookups) (fd : ℤ) : ℤ × Lookups :=
  if fd ∈ s.wamr.socketFdMap then
    let r := s.newSockMap.getD fd 0
    (r, { s with newSockMap := s.newSockMap.insert fd r })
  else (fd, s)

inductive SocketCall where
  | insertSocket (fd domain type protocol : ℤ)
  | updateSocketFdAddress (fd : ℤ) (address : WasiAddr)
  | removeFd (fd : ℤ)
  | getSockFd (fd : ℤ)
  deriving DecidableEq, Repr

def Lookups.call (s : Lookups) : SocketCall → Lookups
  | .insertSocket fd domain type protocol =>
    s.setTable (insertSocket s.wamr.socketFdMap fd domain type protocol)
  | .updateSocketFdAddress fd address =>
    let metaData := s.wamr.socketFdMap.getD fd {}
    s.setTable (s.wamr.socketFdMap.insert fd
      { metaData with socketAddress := metaData.socketAddress.update address })
  | .removeFd fd => s.setWamr (removeFd s.wamr fd)
  | .getSockFd fd => (Sockets.getSockFd s fd).2

/-! ### The restore -/

/-- The functions of the guest that the restore calls. -/
inductive Invocation where
  | sockOpen (domain type protocol fd : ℤ)
  | serverConnect (fd : ℤ)
  | clientConnect (fd : ℤ)
  | accept (oldFd : ℤ) (sockaddr : Sockaddr)
  deriving DecidableEq

/-- What the guest does for each socket: the calls that are reported while its function
runs, and the value that it returns. -/
abbrev Guest := ℤ → Invocation → List SocketCall × ℤ

/-- A function of the guest runs, and the entry is written. -/
def Lookups.invoke (s : Lookups) (calls : List SocketCall) (e : ℤ × Socket) : Lookups :=
  let s := calls.foldl Lookups.call s
  s.setTable (s.wamr.socketFdMap.insert e.1 e.2)

/-- A replacement is accepted, and the entry is written. -/
def Lookups.accepted (s : Lookups) (calls : List SocketCall) (r : ℤ) (e : ℤ × Socket) :
    Lookups :=
  let s := s.invoke calls e
  { s with
    newSockMap := s.newSockMap.insert e.1 r
    replaced := Function.update s.replaced e.1 (some r) }

/-- The bodies of the two loops (wamr_wasi_context.cpp:205-262). -/
def restoreSocket (guest : Guest) (isTcpServer isFour : Bool) (oldFd : ℤ) (s : Lookups)
    (e : ℤ × Socket) : Option Lookups :=
  if s.isTcp = false then
    some (s.invoke (guest e.1 (.sockOpen e.2.domain e.2.type e.2.protocol e.1)).1 e)
  else
    (sockaddrOf isFour e.2.socketAddress).map fun sockaddr =>
      if e.2.isServer = false then
        if e.2.socketAddress.isFour || isFour then s.invoke (guest e.1 (.serverConnect e.1)).1 e
        else s.invoke (guest e.1 (.clientConnect e.1)).1 e
      else if isTcpServer then
        let (calls, r) := guest e.1 (.accept oldFd sockaddr)
        s.accepted calls r e
      else s.invoke (guest e.1 (.clientConnect e.1)).1 e

/-- The part of `WAMRWASIContext::restore_impl` for the sockets. -/
def restoreLookups (guest : Guest) (context : Std.TreeMap ℤ Socket) (s : Lookups) :
    Option Lookups :=
  if s.wamr.shouldSnapshot = false then
    let entries := context.toList
    let isTcp := s.isTcp || entries.any fun e => e.2.type != 0
    let isTcpServer := (entries.any fun e => e.2.isServer) && isTcp
    let isFour := entries.any fun e => e.2.socketAddress.isFour
    let oldFd := entries.foldl (fun oldFd e => if e.2.isServer then oldFd else e.1) 0
    let s := { s with wamr := { s.wamr with shouldSnapshot := true }, isTcp := isTcp }
    ((entries.filter fun e => !e.2.isServer) ++ entries.filter fun e => e.2.isServer).foldlM
      (restoreSocket guest isTcpServer isFour oldFd) s
  else some s

/-- A call, a restore, or any change of `fd_map_`. -/
inductive LookupLabel where
  | call (c : SocketCall)
  | restore (guest : Guest) (context : Std.TreeMap ℤ Socket)
  | files (fdMap : Std.TreeMap ℤ FdRecord)

def lookupStep (s : Lookups) : LookupLabel → Option Lookups
  | .call c => some (s.call c)
  | .restore guest context => restoreLookups guest context s
  | .files fdMap => some { s with wamr := { s.wamr with fdMap := fdMap } }

/-- A process that has no socket yet. -/
def startLookups (policy : String) (shouldSnapshot isTcp : Bool) : Lookups :=
  ⟨⟨policy, shouldSnapshot, ∅, ∅⟩, isTcp, ∅, fun _ => none⟩

/-! ### What a lookup has to return -/

/-- The accepted descriptor of a tracked socket that has one, the descriptor itself
otherwise. -/
def descriptorOf (s : Lookups) (fd : ℤ) : ℤ :=
  if fd ∈ s.wamr.socketFdMap then (s.replaced fd).getD fd else fd

/-- An accepted descriptor is no other accepted one, and no socket without a replacement has
it. -/
structure AcceptedFresh (s : Lookups) : Prop where
  once : ∀ f g r, s.replaced f = some r → s.replaced g = some r → f = g
  other : ∀ f g r, s.replaced f = some r → g ∈ s.wamr.socketFdMap → s.replaced g = none → g ≠ r

structure Resolved (s : Lookups) : Prop where
  result : ∀ fd, (getSockFd s fd).1 = descriptorOf s fd
  unchanged : ∀ fd, (getSockFd s fd).2.wamr = s.wamr ∧
    ∀ g : ℤ, (getSockFd s fd).2.newSockMap[g]? = s.newSockMap[g]?
  distinct : AcceptedFresh s → ∀ f g, f ∈ s.wamr.socketFdMap → g ∈ s.wamr.socketFdMap → f ≠ g →
    (getSockFd s f).1 ≠ (getSockFd s g).1

/-- A replacement has been accepted for every tracked socket, or the map has it as its own:
the last one accepted for this number was the number itself, or it is 0 and was looked up.
So before a restore no socket is tracked, descriptor 0 aside. -/
def Mapped (s : Lookups) : Prop :=
  ∀ fd ∈ s.wamr.socketFdMap, (s.replaced fd).isSome ∨ s.newSockMap[fd]? = some fd

/-! ### One state -/

/-- What has been accepted for a tracked socket stands in the map. -/
structure Remembered (s : Lookups) : Prop where
  stored : ∀ fd r, s.replaced fd = some r → s.newSockMap[fd]? = some r
  tracked : ∀ fd r, s.replaced fd = some r → fd ∈ s.wamr.socketFdMap

variable {s t : Lookups} {fd : ℤ}

theorem getSockFd_of_mem (h : fd ∈ s.wamr.socketFdMap) :
    getSockFd s fd = (s.newSockMap.getD fd 0,
      { s with newSockMap := s.newSockMap.insert fd (s.newSockMap.getD fd 0) }) := if_pos h

theorem getSockFd_of_not_mem (h : fd ∉ s.wamr.socketFdMap) : getSockFd s fd = (fd, s) := if_neg h

theorem getSockFd_newSockMap (h : fd ∈ s.wamr.socketFdMap) (g : ℤ) :
    (getSockFd s fd).2.newSockMap[g]? =
      if fd = g then some (s.newSockMap.getD fd 0) else s.newSockMap[g]? := by
  rw [getSockFd_of_mem h]
  simp only [Std.TreeMap.getElem?_insert, Std.compare_eq_iff_eq]

/-- Where the map has an entry the lookup returns it and leaves the map as it is. -/
theorem getSockFd_of_stored (h : fd ∈ s.wamr.socketFdMap) {r : ℤ}
    (hr : s.newSockMap[fd]? = some r) :
    (getSockFd s fd).1 = r ∧ ∀ g : ℤ, (getSockFd s fd).2.newSockMap[g]? = s.newSockMap[g]? := by
  have hget : s.newSockMap.getD fd 0 = r := by
    rw [Std.TreeMap.getD_eq_getD_getElem?, hr, Option.getD_some]
  refine ⟨by rw [getSockFd_of_mem h, hget], fun g => ?_⟩
  rw [getSockFd_newSockMap h, hget]
  split
  · next heq => exact heq ▸ hr.symm
  · rfl

theorem stored_descriptorOf (hs : Remembered s) (h : fd ∈ s.wamr.socketFdMap)
    (hm : (s.replaced fd).isSome ∨ s.newSockMap[fd]? = some fd) :
    s.newSockMap[fd]? = some (descriptorOf s fd) := by
  rw [descriptorOf, if_pos h]
  cases hr : s.replaced fd with
  | some r => exact hs.stored fd r hr
  | none =>
    rw [hr] at hm
    exact hm.resolve_left Bool.false_ne_true

theorem descriptorOf_injOn (hfresh : AcceptedFresh s) {f g : ℤ} (hf : f ∈ s.wamr.socketFdMap)
    (hg : g ∈ s.wamr.socketFdMap) (hne : f ≠ g) : descriptorOf s f ≠ descriptorOf s g := by
  rw [descriptorOf, if_pos hf, descriptorOf, if_pos hg]
  cases hrf : s.replaced f with
  | none =>
    cases hrg : s.replaced g with
    | none => exact hne
    | some r => exact hfresh.other g f r hrg hf hrf
  | some r =>
    cases hrg : s.replaced g with
    | none => exact (hfresh.other f g r hrf hg hrg).symm
    | some r' =>
      intro heq
      obtain rfl : r = r' := heq
      exact hne (hfresh.once f g r hrf hrg)

theorem resolved_iff (hs : Remembered s) : Resolved s ↔ Mapped s := by
  constructor
  · intro h fd hfd
    rw [or_iff_not_imp_left]
    intro hnone
    rw [Bool.not_eq_true, Option.isSome_eq_false_iff, Option.isNone_iff_eq_none] at hnone
    have hvalue : s.newSockMap.getD fd 0 = fd := calc
      s.newSockMap.getD fd 0 = (getSockFd s fd).1 := by rw [getSockFd_of_mem hfd]
      _ = descriptorOf s fd := h.result fd
      _ = fd := by rw [descriptorOf, if_pos hfd, hnone, Option.getD_none]
    rw [← (h.unchanged fd).2 fd, getSockFd_newSockMap hfd, if_pos rfl, hvalue]
  · intro h
    have hstored : ∀ fd, fd ∈ s.wamr.socketFdMap →
        s.newSockMap[fd]? = some (descriptorOf s fd) :=
      fun fd hfd => stored_descriptorOf hs hfd (h fd hfd)
    have hresult : ∀ fd, (getSockFd s fd).1 = descriptorOf s fd := by
      intro fd
      by_cases hfd : fd ∈ s.wamr.socketFdMap
      · exact (getSockFd_of_stored hfd (hstored fd hfd)).1
      · rw [getSockFd_of_not_mem hfd, descriptorOf, if_neg hfd]
    refine ⟨hresult, fun fd => ?_, fun hfresh f g hf hg hne => ?_⟩
    · by_cases hfd : fd ∈ s.wamr.socketFdMap
      · exact ⟨by rw [getSockFd_of_mem hfd], (getSockFd_of_stored hfd (hstored fd hfd)).2⟩
      · rw [getSockFd_of_not_mem hfd]
        exact ⟨rfl, fun _ => rfl⟩
    · rw [hresult, hresult]
      exact descriptorOf_injOn hfresh hf hg hne

/-! ### All runs -/

theorem remembered_setWamr (hs : Remembered s) (w : Wamr Socket) : Remembered (s.setWamr w) where
  stored fd r hr := by
    simp only [Lookups.setWamr] at hr
    split at hr
    · exact hs.stored fd r hr
    · cases hr
  tracked fd r hr := by
    simp only [Lookups.setWamr] at hr
    split at hr
    · next hfd => exact hfd
    · cases hr

theorem remembered_getSockFd (hs : Remembered s) (fd : ℤ) : Remembered (getSockFd s fd).2 := by
  by_cases hfd : fd ∈ s.wamr.socketFdMap
  · have hrest : (getSockFd s fd).2.replaced = s.replaced := by rw [getSockFd_of_mem hfd]
    have hwamr : (getSockFd s fd).2.wamr = s.wamr := by rw [getSockFd_of_mem hfd]
    refine ⟨fun g r hr => ?_, fun g r hr => ?_⟩
    · rw [hrest] at hr
      rw [getSockFd_newSockMap hfd]
      split
      · next heq =>
        have hget := hs.stored fd r (heq ▸ hr)
        rw [Std.TreeMap.getD_eq_getD_getElem?, hget, Option.getD_some]
      · exact hs.stored g r hr
    · rw [hwamr]
      exact hs.tracked g r (hrest ▸ hr)
  · rw [getSockFd_of_not_mem hfd]
    exact hs

theorem remembered_call (hs : Remembered s) (c : SocketCall) : Remembered (s.call c) := by
  cases c with
  | insertSocket fd domain type protocol => exact remembered_setWamr hs _
  | updateSocketFdAddress fd address => exact remembered_setWamr hs _
  | removeFd fd => exact remembered_setWamr hs _
  | getSockFd fd => exact remembered_getSockFd hs fd

theorem remembered_calls (hs : Remembered s) (calls : List SocketCall) :
    Remembered (calls.foldl Lookups.call s) := by
  induction calls generalizing s with
  | nil => exact hs
  | cons c calls ih => exact ih (remembered_call hs c)

theorem remembered_invoke (hs : Remembered s) (calls : List SocketCall) (e : ℤ × Socket) :
    Remembered (s.invoke calls e) := remembered_setWamr (remembered_calls hs calls) _

theorem remembered_accepted (hs : Remembered s) (calls : List SocketCall) (r : ℤ)
    (e : ℤ × Socket) : Remembered (s.accepted calls r e) := by
  have hput := remembered_invoke hs calls e
  refine ⟨fun fd r' hr => ?_, fun fd r' hr => ?_⟩
  · simp only [Lookups.accepted, Std.TreeMap.getElem?_insert, Std.compare_eq_iff_eq] at hr ⊢
    by_cases heq : e.1 = fd
    · rw [if_pos heq]
      rwa [← heq, Function.update_self] at hr
    · rw [if_neg heq]
      rw [Function.update_of_ne (Ne.symm heq)] at hr
      exact hput.stored fd r' hr
  · by_cases heq : e.1 = fd
    · subst heq
      exact Std.TreeMap.mem_insert_self
    · simp only [Lookups.accepted, Function.update_of_ne (Ne.symm heq)] at hr
      exact hput.tracked fd r' hr

theorem remembered_restoreSocket {guest : Guest} {isTcpServer isFour : Bool} {oldFd : ℤ}
    {e : ℤ × Socket} (hs : Remembered s)
    (h : restoreSocket guest isTcpServer isFour oldFd s e = some t) : Remembered t := by
  unfold restoreSocket at h
  split at h
  · obtain rfl := Option.some.inj h
    exact remembered_invoke hs _ e
  · obtain ⟨sockaddr, -, rfl⟩ := Option.map_eq_some_iff.mp h
    split
    · split
      · exact remembered_invoke hs _ e
      · exact remembered_invoke hs _ e
    · split
      · exact remembered_accepted hs _ _ e
      · exact remembered_invoke hs _ e

theorem remembered_entries {guest : Guest} {isTcpServer isFour : Bool} {oldFd : ℤ}
    {entries : List (ℤ × Socket)} (hs : Remembered s)
    (h : entries.foldlM (restoreSocket guest isTcpServer isFour oldFd) s = some t) :
    Remembered t := by
  rw [Run.foldlM_eq_exec] at h
  exact Run.exec_invariant Remembered (fun _ _ _ hs => remembered_restoreSocket hs) _ _ _ hs h

theorem remembered_restore {guest : Guest} {context : Std.TreeMap ℤ Socket} (hs : Remembered s)
    (h : restoreLookups guest context s = some t) : Remembered t := by
  unfold restoreLookups at h
  split at h
  · refine remembered_entries ?_ h
    exact ⟨hs.stored, hs.tracked⟩
  · exact Option.some.inj h ▸ hs

theorem remembered_step {l : LookupLabel} (hs : Remembered s) (h : lookupStep s l = some t) :
    Remembered t := by
  cases l with
  | call c => exact Option.some.inj h ▸ remembered_call hs c
  | restore guest context => exact remembered_restore hs h
  | files fdMap =>
    obtain rfl := Option.some.inj h
    exact ⟨hs.stored, hs.tracked⟩

theorem remembered_start (policy : String) (shouldSnapshot isTcp : Bool) :
    Remembered (startLookups policy shouldSnapshot isTcp) where
  stored _ _ hr := by cases hr
  tracked _ _ hr := by cases hr

/-- Every lookup in a run is right and changes nothing just when in each of its states all
tracked sockets are mapped. -/
theorem lookups_resolve_iff (policy : String) (shouldSnapshot isTcp : Bool)
    (labels : List LookupLabel) :
    Run.Throughout lookupStep Resolved (startLookups policy shouldSnapshot isTcp) labels ↔
      Run.Throughout lookupStep Mapped (startLookups policy shouldSnapshot isTcp) labels := by
  have hreached : ∀ before t,
      Run.exec lookupStep (startLookups policy shouldSnapshot isTcp) before = some t →
      Remembered t := fun before t =>
    Run.exec_invariant Remembered (fun _ _ _ hs h => remembered_step hs h) _ _ _
      (remembered_start policy shouldSnapshot isTcp)
  constructor
  · intro h before after t hsplit ht
    exact (resolved_iff (hreached before t ht)).mp (h before after t hsplit ht)
  · intro h before after t hsplit ht
    exact (resolved_iff (hreached before t ht)).mpr (h before after t hsplit ht)

/-- A socket for which nothing was accepted is looked up as descriptor 0. -/
theorem lookup_without_accept :
    ¬∀ (policy : String) (shouldSnapshot isTcp : Bool) (labels : List LookupLabel),
      Run.Throughout lookupStep Resolved (startLookups policy shouldSnapshot isTcp) labels := by
  intro hclaim
  have h := hclaim "compression" true false [.call (.insertSocket 5 2 1 0)]
    [.call (.insertSocket 5 2 1 0)] [] _ rfl rfl
  exact absurd (h.result 5) (by decide)

end MVVM.Sockets
