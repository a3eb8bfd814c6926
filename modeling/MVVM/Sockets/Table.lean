import Mathlib.Algebra.Group.Nat.Defs
import Mathlib.Data.Int.Notation
import Mathlib.Data.Nat.Notation
import Std.Data.TreeMap

/-!
# The table of sockets (wamr_export.cpp:69-154, wamr_wasi_context.h:28-70)

For every socket the datagrams that the guest has received are kept, so that they can be
handed out again after a restore; `replay_start_index` separates those that the guest
has already seen. While a socket is drained for a snapshot, `is_collection` is set; the
message of the gateway that ends the draining is recognised by its opcode.
-/

namespace MVVM.Sockets

def sockFin : ℕ := 5

inductive WasiAddr where
  | ip4 (n : Vector UInt8 4) (port : UInt16)
  | ip6 (n : Vector UInt16 8) (port : UInt16)
  deriving DecidableEq, Repr

/-- `WAMRWasiAddr`, all zero at first. -/
structure RecordedAddr where
  ip4 : Vector UInt8 4 := Vector.replicate 4 0
  ip6 : Vector UInt16 8 := Vector.replicate 8 0
  isFour : Bool := false
  port : UInt16 := 0
  deriving DecidableEq, Repr, Inhabited

structure RecvFromData where
  sock : ℤ
  riData : List UInt8
  riFlags : ℕ
  srcAddr : RecordedAddr
  deriving DecidableEq, Repr, Inhabited

/-- `SocketMetaData`, without the data that only the gateway protocol reads. -/
structure SocketMetaData where
  domain : ℤ := 0
  type : ℤ := 0
  protocol : ℤ := 0
  replayStartIndex : ℕ := 0
  isServer : Bool := false
  isCollection : Bool := false
  socketRecvFromDatas : List RecvFromData := []
  deriving DecidableEq, Repr, Inhabited

/-- `std::map<int, SocketMetaData, std::greater<>>`. -/
abbrev SocketTable := Std.TreeMap ℤ SocketMetaData fun a b => compare b a

/-- The members of `WAMRInstance` that concern sockets. -/
structure Process where
  isTcp : Bool
  shouldSnapshot : Bool
  socketFdMap : SocketTable

/-- `wamr->socket_fd_map_[fd] = metaData`. -/
def Process.set (p : Process) (fd : ℤ) (metaData : SocketMetaData) : Process :=
  { p with socketFdMap := p.socketFdMap.insert fd metaData }

/-- What `insert_sock_recv_from_data` is called with: the memory that `ri_data` points to,
of which the datagram is the first `ri_data_len` bytes. -/
structure Message where
  mem : List UInt8
  riDataLen : ℕ
  riFlags : ℕ
  srcAddr : WasiAddr
  deriving DecidableEq, Repr

def Message.payload (m : Message) : List UInt8 := m.mem.take m.riDataLen

/-- `((struct mvvm_op_data *)ri_data)->op`, four bytes whatever the length. -/
def Message.op (m : Message) : ℕ :=
  (m.mem.getD 0 0).toNat + 2 ^ 8 * (m.mem.getD 1 0).toNat + 2 ^ 16 * (m.mem.getD 2 0).toNat +
    2 ^ 24 * (m.mem.getD 3 0).toNat

def Message.IsFin (m : Message) : Prop := m.op = sockFin

instance (m : Message) : Decidable m.IsFin := by unfold Message.IsFin; infer_instance

/-- The address as it is recorded (wamr_export.cpp:90-109). -/
def WasiAddr.record : WasiAddr → RecordedAddr
  | .ip4 n port => { ip4 := n, isFour := true, port := port }
  | .ip6 n port => { ip6 := n, isFour := false, port := port }

/-- The address as it is handed out: the caller's `kind` decides (wamr_export.cpp:137-153). -/
def WasiAddr.fill (a : WasiAddr) (r : RecordedAddr) : WasiAddr :=
  match a with
  | .ip4 _ _ => .ip4 r.ip4 r.port
  | .ip6 _ _ => .ip6 r.ip6 r.port

def Message.record (m : Message) (sock : ℤ) : RecvFromData :=
  ⟨sock, m.payload, m.riFlags, m.srcAddr.record⟩

def insertSockRecvFromData (p : Process) (sock : ℤ) (m : Message) : Process :=
  match p.socketFdMap[sock]? with
  | some metaData =>
    let metaData := if metaData.isCollection then
      { metaData with replayStartIndex := metaData.replayStartIndex + 1 } else metaData
    if m.IsFin then p.set sock { metaData with isCollection := false }
    else p.set sock
      { metaData with socketRecvFromDatas := metaData.socketRecvFromDatas ++ [m.record sock] }
  | none => p

/-- What a call of `replay_sock_recv_from_data` leaves with its caller: the bytes written
to `*ri_data` (their number is `*recv_size`) and the source address. -/
structure Replayed where
  bytes : List UInt8
  srcAddr : WasiAddr
  deriving DecidableEq, Repr

/-- `replay_sock_recv_from_data` (wamr_export.cpp:119-154); indexing the table makes an
entry where there is none. -/
def replaySockRecvFromData (p : Process) (sock : ℤ) (srcAddr : WasiAddr) : Replayed × Process :=
  let metaData := p.socketFdMap.getD sock {}
  let p := p.set sock metaData
  if metaData.socketRecvFromDatas = [] then (⟨[], srcAddr⟩, p)
  else
    match metaData.socketRecvFromDatas[metaData.replayStartIndex]? with
    | none => (⟨[], srcAddr⟩, p)
    | some data =>
      (⟨data.riData, srcAddr.fill data.srcAddr⟩,
        p.set sock { metaData with replayStartIndex := metaData.replayStartIndex + 1 })

def replays (p : Process) (sock : ℤ) (addr : ℕ → WasiAddr) : ℕ → Process
  | 0 => p
  | k + 1 => (replaySockRecvFromData (replays p sock addr k) sock (addr k)).2

/-- The bytes that the next replay after `k` replays returns. -/
def replayed (p : Process) (sock : ℤ) (addr : ℕ → WasiAddr) (k : ℕ) : List UInt8 :=
  (replaySockRecvFromData (replays p sock addr k) sock (addr k)).1.bytes

/-! ### The table -/

theorem getElem?_set (p : Process) (fd g : ℤ) (metaData : SocketMetaData) :
    (p.set fd metaData).socketFdMap[g]? = if fd = g then some metaData else p.socketFdMap[g]? := by
  simp only [Process.set, Std.TreeMap.getElem?_insert, Std.compare_eq_iff_eq, @eq_comm _ g]

@[simp] theorem getElem?_set_self (p : Process) (fd : ℤ) (metaData : SocketMetaData) :
    (p.set fd metaData).socketFdMap[fd]? = some metaData := by
  rw [getElem?_set, if_pos rfl]

theorem getElem?_set_ne (p : Process) {fd g : ℤ} (metaData : SocketMetaData) (h : fd ≠ g) :
    (p.set fd metaData).socketFdMap[g]? = p.socketFdMap[g]? := by
  rw [getElem?_set, if_neg h]

theorem getD_of_some {p : Process} {fd : ℤ} {metaData : SocketMetaData}
    (h : p.socketFdMap[fd]? = some metaData) : p.socketFdMap.getD fd {} = metaData := by
  rw [Std.TreeMap.getD_eq_getD_getElem?, h, Option.getD_some]

theorem insertSockRecvFromData_of_app {p : Process} {sock : ℤ} {metaData : SocketMetaData}
    {m : Message} (h : p.socketFdMap[sock]? = some metaData) (hm : ¬ m.IsFin)
    (hc : metaData.isCollection = false) :
    insertSockRecvFromData p sock m = p.set sock
      { metaData with socketRecvFromDatas := metaData.socketRecvFromDatas ++ [m.record sock] } := by
  unfold insertSockRecvFromData
  simp only [h, hc, Bool.false_eq_true, if_false, if_neg hm]

theorem getElem?_insertSockRecvFromData_ne (p : Process) {sock g : ℤ} (m : Message)
    (h : sock ≠ g) : (insertSockRecvFromData p sock m).socketFdMap[g]? = p.socketFdMap[g]? := by
  unfold insertSockRecvFromData
  split
  · simp only
    split
    · exact getElem?_set_ne p _ h
    · exact getElem?_set_ne p _ h
  · rfl

theorem insertSockRecvFromData_isTcp (p : Process) (sock : ℤ) (m : Message) :
    (insertSockRecvFromData p sock m).isTcp = p.isTcp := by
  unfold insertSockRecvFromData
  split
  · simp only
    split <;> rfl
  · rfl

theorem replays_spec {p : Process} {sock : ℤ} {metaData : SocketMetaData} (addr : ℕ → WasiAddr)
    (h : p.socketFdMap[sock]? = some metaData) (h0 : metaData.replayStartIndex = 0) (k : ℕ) :
    (replays p sock addr k).socketFdMap[sock]? =
      some { metaData with replayStartIndex := min k metaData.socketRecvFromDatas.length } := by
  induction k with
  | zero =>
    rw [Nat.zero_min]
    obtain ⟨_, _, _, i, _, _, _⟩ := metaData
    obtain rfl : i = 0 := h0
    exact h
  | succ k ih =>
    simp only [replays, replaySockRecvFromData, getD_of_some ih]
    split
    · rename_i hnil
      simp [hnil]
    · split
      · rename_i hnone
        have hlen : metaData.socketRecvFromDatas.length ≤ k := by
          rw [List.getElem?_eq_none_iff] at hnone
          omega
        simp [Nat.min_eq_right hlen, Nat.min_eq_right (Nat.le_succ_of_le hlen)]
      · rename_i data hsome
        have hlen : k < metaData.socketRecvFromDatas.length := by
          have := (List.getElem?_eq_some_iff.mp hsome).1
          omega
        rw [getElem?_set_self, Nat.min_eq_left (Nat.le_of_lt hlen), Nat.min_eq_left hlen]

theorem replayed_eq {p : Process} {sock : ℤ} {metaData : SocketMetaData} (addr : ℕ → WasiAddr)
    (h : p.socketFdMap[sock]? = some metaData) (h0 : metaData.replayStartIndex = 0) (k : ℕ) :
    replayed p sock addr k = (metaData.socketRecvFromDatas.map RecvFromData.riData).getD k [] := by
  simp only [replayed, replaySockRecvFromData, getD_of_some (replays_spec addr h h0 k)]
  by_cases hlen : k < metaData.socketRecvFromDatas.length
  · have hne : metaData.socketRecvFromDatas ≠ [] := by
      intro hnil
      simp [hnil] at hlen
    rw [if_neg hne, Nat.min_eq_left (Nat.le_of_lt hlen)]
    simp [hlen]
  · have hge : metaData.socketRecvFromDatas.length ≤ k := Nat.le_of_not_lt hlen
    split
    · rename_i hnil
      simp [hnil]
    · simp [Nat.min_eq_right hge, List.getElem?_eq_none hge]

end MVVM.Sockets
