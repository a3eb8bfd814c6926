import MVVM.Sockets.Suspend
import MVVM.Sockets.Migrate

/-!
# The opcodes around a migration (wamr.cpp:825-839, restore.cpp:84-106)

The process that is checkpointed tells the gateway whether a TCP server is suspended, the
process that is restored tells it whether one is resumed. Each finds out for itself.
-/

namespace MVVM.Sockets

/-- `is_server` of the loop in `serialize_to_file`, which stops at the first server. -/
def isServerLoop (sockets : List SocketMetaData) : Bool := sockets.any SocketMetaData.isServer

/-- The opcode that `serialize_to_file` sends, if it sends a message. -/
def suspendOpcode (p : Process) : Option Opcode :=
  if p.socketFdMap.isEmpty = false ∧ p.shouldSnapshot = true then
    some (if isServerLoop (p.socketFdMap.toList.map Prod.snd) then .suspendTcpServer else .suspend)
  else none

/-- A round of the loop in the `main` of the restore, on `op_data.is_tcp` and
`is_tcp_server`. -/
def resumeRound (flags : Bool × Bool) (socket : SocketMetaData) : Bool × Bool :=
  (flags.1 || socket.type != 0, flags.2 || socket.isServer)

/-- The opcode that it sends. `is_tcp_server` has no initial value there: `uninit` is what
the memory happens to hold. -/
def resumeOpcode (uninit : Bool) (socketFdMap : Std.TreeMap ℤ SocketMetaData) : Option Opcode :=
  if socketFdMap.isEmpty = false then
    let (isTcp, isTcpServer) := (socketFdMap.toList.map Prod.snd).foldl resumeRound (false, uninit)
    some (if isTcpServer && isTcp then .resumeTcpServer else .resume)
  else none

def Paired : Option Opcode → Option Opcode → Prop
  | some .suspendTcpServer, resume => resume = some .resumeTcpServer
  | some .suspend, resume => resume = some .resume
  | none, resume => resume = none
  | _, _ => False

/-- The snapshot has the sockets of the process, with their types and roles. -/
def SameSockets (p : Process) (socketFdMap : Std.TreeMap ℤ SocketMetaData) : Prop :=
  ∀ fd : ℤ, (socketFdMap[fd]?).map (fun s => (s.type, s.isServer)) =
    (p.socketFdMap[fd]?).map fun s => (s.type, s.isServer)

def HasServer (p : Process) : Prop :=
  ∃ (fd : ℤ) (s : SocketMetaData), p.socketFdMap[fd]? = some s ∧ s.isServer = true

def HasStream (p : Process) : Prop :=
  ∃ (fd : ℤ) (s : SocketMetaData), p.socketFdMap[fd]? = some s ∧ s.type ≠ 0

/-! ### The loops -/

section

variable {ν : Type} {cmp : ℤ → ℤ → Ordering} [Std.TransCmp cmp]

theorem isEmpty_iff_none (m : Std.TreeMap ℤ ν cmp) :
    m.isEmpty = true ↔ ∀ fd : ℤ, m[fd]? = none := by
  rw [Std.TreeMap.isEmpty_iff_forall_not_mem]
  exact forall_congr' fun fd => Maps.not_mem_iff

theorem any_socket [Std.LawfulEqCmp cmp] (m : Std.TreeMap ℤ ν cmp) (f : ν → Bool) :
    (m.toList.map Prod.snd).any f = true ↔
      ∃ (fd : ℤ) (s : ν), m[fd]? = some s ∧ f s = true := by
  rw [List.any_map, List.any_eq_true]
  constructor
  · intro ⟨e, he, hf⟩
    exact ⟨e.1, e.2, (Maps.mem_toList_iff m e.1 e.2).mp he, hf⟩
  · intro ⟨fd, s, hs, hf⟩
    exact ⟨(fd, s), (Maps.mem_toList_iff m fd s).mpr hs, hf⟩

end

theorem foldl_resumeRound (sockets : List SocketMetaData) (isTcp isTcpServer : Bool) :
    sockets.foldl resumeRound (isTcp, isTcpServer) =
      (isTcp || sockets.any (·.type != 0), isTcpServer || sockets.any (·.isServer)) := by
  induction sockets generalizing isTcp isTcpServer with
  | nil => simp
  | cons socket sockets ih =>
    rw [List.foldl_cons, resumeRound, ih]
    simp [Bool.or_assoc]

variable {p : Process} {m : Std.TreeMap ℤ SocketMetaData}

theorem SameSockets.isEmpty (h : SameSockets p m) : p.socketFdMap.isEmpty = m.isEmpty := by
  rw [Bool.eq_iff_iff, isEmpty_iff_none, isEmpty_iff_none]
  refine forall_congr' fun fd => ?_
  rw [← Option.map_eq_none_iff, ← h fd, Option.map_eq_none_iff]

/-- A question about types and roles has one answer for the process and the snapshot. -/
theorem SameSockets.exists_iff (h : SameSockets p m) (f : ℤ → Bool → Bool) :
    (∃ (fd : ℤ) (s : SocketMetaData), m[fd]? = some s ∧ f s.type s.isServer = true) ↔
      ∃ (fd : ℤ) (s : SocketMetaData), p.socketFdMap[fd]? = some s ∧
        f s.type s.isServer = true := by
  have hside {x y : Option SocketMetaData}
      (hxy : x.map (fun s => (s.type, s.isServer)) = y.map fun s => (s.type, s.isServer))
      (hx : ∃ s, x = some s ∧ f s.type s.isServer = true) :
      ∃ s, y = some s ∧ f s.type s.isServer = true := by
    obtain ⟨s, rfl, hs⟩ := hx
    obtain ⟨t, rfl, ht⟩ := Option.map_eq_some_iff.mp hxy.symm
    obtain ⟨htype, hserver⟩ := Prod.mk.inj ht
    exact ⟨t, rfl, by rw [htype, hserver]; exact hs⟩
  exact exists_congr fun fd => ⟨hside (h fd), hside (h fd).symm⟩

theorem hasServer_iff :
    isServerLoop (p.socketFdMap.toList.map Prod.snd) = true ↔ HasServer p :=
  any_socket p.socketFdMap SocketMetaData.isServer

theorem SameSockets.server (h : SameSockets p m) :
    ((m.toList.map Prod.snd).any fun s => s.isServer) = true ↔ HasServer p :=
  (any_socket m _).trans (h.exists_iff fun _ isServer => isServer)

theorem SameSockets.stream (h : SameSockets p m) :
    ((m.toList.map Prod.snd).any fun s => s.type != 0) = true ↔ HasStream p := by
  refine (any_socket m _).trans ((h.exists_iff fun type _ => type != 0).trans ?_)
  simp only [HasStream, bne_iff_ne]

theorem resumeOpcode_of_nonempty (h : SameSockets p m) (uninit : Bool)
    (hne : p.socketFdMap.isEmpty = false) :
    resumeOpcode uninit m = some .resumeTcpServer ∧
        ((HasServer p ∨ uninit = true) ∧ HasStream p) ∨
      resumeOpcode uninit m = some .resume ∧
        ¬((HasServer p ∨ uninit = true) ∧ HasStream p) := by
  rw [resumeOpcode, if_pos (h.isEmpty ▸ hne), foldl_resumeRound, ← h.server, ← h.stream]
  cases uninit <;> cases (m.toList.map Prod.snd).any (·.isServer) <;>
    cases (m.toList.map Prod.snd).any (·.type != 0) <;> simp

/-- The opcodes belong together just when the sockets of a TCP server come with a stream
socket, and stream sockets without a server meet memory that reads as `false`. -/
theorem opcodes_paired_iff (hsnap : p.shouldSnapshot = true) (h : SameSockets p m)
    (uninit : Bool) :
    Paired (suspendOpcode p) (resumeOpcode uninit m) ↔
      (HasServer p → HasStream p) ∧ (¬HasServer p → HasStream p → uninit = false) := by
  cases hempty : p.socketFdMap.isEmpty with
  | true =>
    have hnone : ∀ fd : ℤ, p.socketFdMap[fd]? = none := (isEmpty_iff_none _).mp hempty
    have hserver : ¬HasServer p := fun ⟨fd, s, hs, _⟩ => by simp [hnone fd] at hs
    have hstream : ¬HasStream p := fun ⟨fd, s, hs, _⟩ => by simp [hnone fd] at hs
    rw [suspendOpcode, resumeOpcode, ← h.isEmpty, hempty]
    simp [Paired, hserver, hstream]
  | false =>
    have hsuspend : suspendOpcode p = some .suspendTcpServer ∧ HasServer p ∨
        suspendOpcode p = some .suspend ∧ ¬HasServer p := by
      rw [suspendOpcode, if_pos ⟨hempty, hsnap⟩, ← hasServer_iff]
      cases isServerLoop (p.socketFdMap.toList.map Prod.snd) <;> simp
    rcases hsuspend with ⟨hs, hserver⟩ | ⟨hs, hserver⟩
    · rcases resumeOpcode_of_nonempty h uninit hempty with ⟨hr, hcond⟩ | ⟨hr, hcond⟩
      · simp [hs, hr, Paired, hserver, hcond.2]
      · have hstream : ¬HasStream p := fun hst => hcond ⟨.inl hserver, hst⟩
        simp [hs, hr, Paired, hserver, hstream]
    · rcases resumeOpcode_of_nonempty h uninit hempty with ⟨hr, hcond⟩ | ⟨hr, hcond⟩
      · obtain rfl : uninit = true := hcond.1.resolve_left hserver
        simp [hs, hr, Paired, hserver, hcond.2]
      · simp only [hs, hr, Paired, hserver, false_imp_iff, not_false_eq_true, true_imp_iff,
          true_and, true_iff]
        intro hst
        by_contra hu
        exact hcond ⟨.inr (Bool.eq_true_of_not_eq_false hu), hst⟩

theorem apply_op {o out : OpData} {e : Effect} (h : o.apply e = .ok out) : out.op = o.op := by
  cases e with
  | empty => cases h
  | skip | keep =>
    obtain rfl := Except.ok.inj h
    rfl
  | write f =>
    simp only [OpData.apply] at h
    split at h
    · obtain rfl := Except.ok.inj h
      rfl
    · cases h

theorem foldlM_apply_op {es : List Effect} {o out : OpData}
    (h : es.foldlM OpData.apply o = .ok out) : out.op = o.op := by
  induction es generalizing o with
  | nil =>
    obtain rfl := Except.ok.inj h
    rfl
  | cons e es ih =>
    rw [List.foldlM_cons] at h
    cases hstep : o.apply e with
    | error fault =>
      rw [hstep] at h
      cases h
    | ok o' =>
      rw [hstep] at h
      exact (ih h).trans (apply_op hstep)

/-- A message that comes out of the loop over the addresses has the opcode of the process
whose sockets it tells of. -/
theorem suspendMessage_op {sockname : WasiAddr} {table : TrackedTable} {o out : OpData}
    (hsnap : p.shouldSnapshot = true) (hne : p.socketFdMap.isEmpty = false)
    (hroles : ∀ fd : ℤ, (table[fd]?).map TrackedSocket.isServer =
      (p.socketFdMap[fd]?).map SocketMetaData.isServer)
    (h : suspendMessage sockname table o = .ok out) : suspendOpcode p = some out.op := by
  have hany : (table.toList.any fun e => e.2.isServer) =
      isServerLoop (p.socketFdMap.toList.map Prod.snd) := by
    have hmap := any_socket table TrackedSocket.isServer
    rw [List.any_map] at hmap
    rw [Bool.eq_iff_iff, hasServer_iff]
    refine hmap.trans (exists_congr fun fd => ?_)
    have hfd := hroles fd
    cases ht : table[fd]? with
    | none =>
      rw [ht, Option.map_none] at hfd
      simp [Option.map_eq_none_iff.mp hfd.symm]
    | some t =>
      rw [ht, Option.map_some] at hfd
      obtain ⟨s, hs, hst⟩ := Option.map_eq_some_iff.mp hfd.symm
      simp [hs, hst]
  rw [suspendOpcode, if_pos ⟨hne, hsnap⟩, foldlM_apply_op h, ← hany]

def single (s : SocketMetaData) : Process := ⟨s.type != 0, true, (∅ : SocketTable).insert 3 s⟩

theorem single_same (s : SocketMetaData) :
    SameSockets (single s) ((∅ : Std.TreeMap ℤ SocketMetaData).insert 3 s) := by
  intro fd
  simp only [single, Std.TreeMap.getElem?_insert, Std.TreeMap.getElem?_emptyc,
    Std.compare_eq_iff_eq, @eq_comm _ fd]

theorem opcodes_paired_iff_server :
    Paired (suspendOpcode (single { type := 1, isServer := true }))
      (resumeOpcode true ((∅ : Std.TreeMap ℤ SocketMetaData).insert 3
        { type := 1, isServer := true })) := by
  have hthere : (single { type := 1, isServer := true }).socketFdMap[(3 : ℤ)]? =
      some { type := 1, isServer := true } := Std.TreeMap.getElem?_insert_self
  refine (opcodes_paired_iff rfl (single_same _) true).mpr ⟨fun _ => ?_, fun hno => ?_⟩
  · exact ⟨3, _, hthere, by decide⟩
  · exact absurd ⟨3, _, hthere, rfl⟩ hno

/-- A TCP client is resumed as a server when the memory reads as `true`. -/
theorem client_resumed_as_server :
    ¬∀ (p : Process) (m : Std.TreeMap ℤ SocketMetaData) (uninit : Bool),
      p.shouldSnapshot = true → SameSockets p m → (p.isTcp = true ↔ HasStream p) →
      Paired (suspendOpcode p) (resumeOpcode uninit m) := by
  intro hclaim
  have hthere : (single { type := 1 }).socketFdMap[(3 : ℤ)]? = some { type := 1 } :=
    Std.TreeMap.getElem?_insert_self
  have hstream : HasStream (single { type := 1 }) := ⟨3, _, hthere, by decide⟩
  have hpaired := hclaim (single { type := 1 }) _ true rfl (single_same _)
    ⟨fun _ => hstream, fun _ => rfl⟩
  have hsent : suspendOpcode (single { type := 1 }) = some .suspend := rfl
  rw [hsent] at hpaired
  have hresumed : resumeOpcode true ((∅ : Std.TreeMap ℤ SocketMetaData).insert 3 { type := 1 }) =
      some .resume := hpaired
  exact absurd hresumed (by decide)

end MVVM.Sockets
