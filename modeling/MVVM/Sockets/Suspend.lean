import MVVM.Maps
import MVVM.Sockets.Table
import Mathlib.Data.List.Induction
import Mathlib.Data.Set.Function
import Std.Data.TreeMap.Lemmas

/-!
# The suspend message (wamr.cpp:825-919)

Before a snapshot with sockets is taken, the gateway is told the pairs of addresses whose
packets it has to hold back: `op_data.addr[i][0]` and `op_data.addr[i][1]`.
-/

namespace MVVM.Sockets

def maxAddr : ℕ := 5

theorem maxAddr_pos : 0 < maxAddr := by decide

inductive Opcode where
  | suspend
  | suspendTcpServer
  | resume
  | resumeTcpServer
  | init
  | fin
  deriving DecidableEq, Repr

/-- `mvvm_op_data`. -/
structure OpData where
  op : Opcode
  isTcp : Bool
  size : ℤ
  addr : Vector (RecordedAddr × RecordedAddr) maxAddr
  deriving DecidableEq

/-- The members of `SocketMetaData` that the message is built from; of
`socketSentToData` there are all the calls that have written it. -/
structure TrackedSocket where
  socketAddress : RecordedAddr := {}
  isServer : Bool := false
  sends : List WasiAddr := []
  socketRecvFromDatas : List RecvFromData := []

/-- `std::map<int, SocketMetaData, std::greater<>>`. -/
abbrev TrackedTable := Std.TreeMap ℤ TrackedSocket fun a b => compare b a

/-- An address of one family is stored; what is stored of the other family stays. -/
def RecordedAddr.assign (r : RecordedAddr) : WasiAddr → RecordedAddr
  | .ip4 n port => { r with ip4 := n, isFour := true, port := port }
  | .ip6 n port => { r with ip6 := n, isFour := false, port := port }

def RecordedAddr.endpoint (r : RecordedAddr) : WasiAddr :=
  if r.isFour then .ip4 r.ip4 r.port else .ip6 r.ip6 r.port

def RecordedAddr.isWild4 (r : RecordedAddr) : Bool := r.ip4 == Vector.replicate 4 0

def RecordedAddr.isWild6 (r : RecordedAddr) : Bool := r.ip6 == Vector.replicate 8 0

def RecordedAddr.isWild (r : RecordedAddr) : Bool :=
  r.isFour && r.isWild4 || !r.isFour && r.isWild6

/-- `socketSentToData.dest_addr`, as the calls of `insert_sock_send_to_data` leave it. -/
def TrackedSocket.destAddr (s : TrackedSocket) : RecordedAddr :=
  s.sends.foldl RecordedAddr.assign {}

/-- `src_addr`. The loop only logs it. -/
def srcAddr (localAddr : RecordedAddr) (s : TrackedSocket) : RecordedAddr :=
  if s.socketAddress.isWild then { localAddr with port := s.socketAddress.port }
  else s.socketAddress

/-- What a round of the loop does to `op_data`: it reads the first element of an empty
list, it takes the round back, it goes on without an address, or it writes
`addr[idx][1]`. -/
inductive Effect where
  | empty
  | skip
  | keep
  | write (f : RecordedAddr → RecordedAddr)

/-- The branches of the loop. `sockname` is what `getsockname` answers for descriptor 0. -/
def TrackedSocket.effect (isTcp isServer : Bool) (sockname : WasiAddr) (s : TrackedSocket) :
    Effect :=
  if s.destAddr.isWild4 || s.destAddr.isWild6 then
    if !isTcp then
      if s.destAddr.isWild then
        match s.socketRecvFromDatas.head? with
        | some recvFromData => .write fun _ => recvFromData.srcAddr
        | none => .empty
      else .write fun _ => s.destAddr
    else if !isServer then .write fun r => r.assign sockname
    else if s.isServer then .skip
    else .keep
  else .keep

inductive Fault where
  | emptyRecv
  | outside
  deriving DecidableEq, Repr

/-- The log behind the branches, which only reads `addr[idx][1]`, is left out: in a Debug
build it reads outside of the array from index 5 on. -/
def OpData.apply (o : OpData) : Effect → Except Fault OpData
  | .empty => .error .emptyRecv
  | .skip => .ok { o with size := o.size - 1 + 1 }
  | .keep => .ok { o with size := o.size + 1 }
  | .write f =>
    if h : 0 ≤ o.size ∧ o.size.toNat < maxAddr then
      .ok { o with
        addr :=
          let idx : Fin maxAddr := ⟨o.size.toNat, h.2⟩
          o.addr.set idx (o.addr[idx].1, f o.addr[idx].2)
        size := o.size + 1 }
    else .error .outside

def effects (isTcp : Bool) (sockname : WasiAddr) (table : TrackedTable) : List Effect :=
  table.toList.map fun e =>
    e.2.effect isTcp (table.toList.any fun e => e.2.isServer) sockname

/-- The suspend message, from what `op_data` was before. -/
def suspendMessage (sockname : WasiAddr) (table : TrackedTable) (o : OpData) :
    Except Fault OpData :=
  (effects o.isTcp sockname table).foldlM OpData.apply
    { o with op := if table.toList.any fun e => e.2.isServer then .suspendTcpServer
                   else .suspend }

/-! ### What the message has to say -/

/-- All sockets but those on which TCP listens. -/
def TrackedSocket.Suspends (isTcp : Bool) (s : TrackedSocket) : Prop :=
  ¬(isTcp = true ∧ s.isServer = true)

/-- The destination of the last send, or the source of the first datagram received. -/
def TrackedSocket.peer (s : TrackedSocket) : Option WasiAddr :=
  match s.sends.getLast? with
  | some dest => some dest
  | none => s.socketRecvFromDatas.head?.map fun recvFromData => recvFromData.srcAddr.endpoint

/-- Each socket has a pair of its own in the message. -/
def Tells (localAddr : RecordedAddr) (table : TrackedTable) (o : OpData) : Prop :=
  ∃ place : ℤ → Fin maxAddr,
    Set.InjOn place {fd | ∃ s, table[fd]? = some s ∧ s.Suspends o.isTcp} ∧
    ∀ (fd : ℤ) (s : TrackedSocket), table[fd]? = some s → s.Suspends o.isTcp →
      ((place fd : ℕ) : ℤ) < o.size ∧
      o.addr[place fd].1.endpoint = (srcAddr localAddr s).endpoint ∧
      ∀ p, s.peer = some p → o.addr[place fd].2.endpoint = p

/-! ### The loop -/

def Effect.counts : Effect → Bool
  | .skip => false
  | _ => true

def Effect.onPeer : Effect → RecordedAddr → RecordedAddr
  | .write f, r => f r
  | _, r => r

/-- The indices at which the rounds write are inside the array, and no round reads the
first element of an empty list. -/
structure Fits (es : List Effect) (n : ℕ) : Prop where
  nonempty : ∀ e ∈ es, e ≠ .empty
  inside : ∀ (k : ℕ) (f : RecordedAddr → RecordedAddr),
    (es.filter Effect.counts)[k]? = some (.write f) → n + k < maxAddr

structure Filled (es : List Effect) (n : ℕ) (o out : OpData) : Prop where
  isTcp : out.isTcp = o.isTcp
  size : out.size = n + (es.filter Effect.counts).length
  own : ∀ i : Fin maxAddr, out.addr[i].1 = o.addr[i].1
  before : ∀ i : Fin maxAddr, (i : ℕ) < n → out.addr[i].2 = o.addr[i].2
  peer : ∀ (i : Fin maxAddr) (k : ℕ) (e : Effect), (i : ℕ) = n + k →
    (es.filter Effect.counts)[k]? = some e → out.addr[i].2 = e.onPeer o.addr[i].2

variable {es : List Effect} {e : Effect} {f : RecordedAddr → RecordedAddr} {n : ℕ}
  {o o' out : OpData}

theorem fits_skip : Fits (.skip :: es) n ↔ Fits es n := by
  constructor
  · intro h
    exact ⟨fun e he => h.nonempty e (List.mem_cons_of_mem _ he), h.inside⟩
  · intro h
    refine ⟨fun e he => ?_, h.inside⟩
    rcases List.mem_cons.mp he with rfl | he
    · intro hne; cases hne
    · exact h.nonempty e he

theorem fits_keep : Fits (.keep :: es) n ↔ Fits es (n + 1) := by
  constructor
  · intro h
    refine ⟨fun e he => h.nonempty e (List.mem_cons_of_mem _ he), fun k f hk => ?_⟩
    have hlt := h.inside (k + 1) f hk
    omega
  · intro h
    refine ⟨fun e he => ?_, fun k f hk => ?_⟩
    · rcases List.mem_cons.mp he with rfl | he
      · intro hne; cases hne
      · exact h.nonempty e he
    · cases k with
      | zero => cases hk
      | succ k =>
        have hlt := h.inside k f hk
        omega

theorem fits_write : Fits (.write f :: es) n ↔ n < maxAddr ∧ Fits es (n + 1) := by
  constructor
  · intro h
    refine ⟨h.inside 0 f rfl, fun e he => h.nonempty e (List.mem_cons_of_mem _ he),
      fun k g hk => ?_⟩
    have hlt := h.inside (k + 1) g hk
    omega
  · intro ⟨hn, h⟩
    refine ⟨fun e he => ?_, fun k g hk => ?_⟩
    · rcases List.mem_cons.mp he with rfl | he
      · intro hne; cases hne
      · exact h.nonempty e he
    · cases k with
      | zero => exact hn
      | succ k =>
        have hlt := h.inside k g hk
        omega

theorem Filled.cons (h : Filled es (n + 1) o' out) (he : e.counts = true)
    (htcp : o'.isTcp = o.isTcp) (hown : ∀ i : Fin maxAddr, o'.addr[i].1 = o.addr[i].1)
    (hpeer : ∀ i : Fin maxAddr,
      o'.addr[i].2 = if (i : ℕ) = n then e.onPeer o.addr[i].2 else o.addr[i].2) :
    Filled (e :: es) n o out := by
  have hfilter : (e :: es).filter Effect.counts = e :: es.filter Effect.counts :=
    List.filter_cons_of_pos he
  refine ⟨h.isTcp.trans htcp, ?_, fun i => (h.own i).trans (hown i), fun i hi => ?_,
    fun i k u hi hk => ?_⟩
  · rw [hfilter, List.length_cons, h.size]
    omega
  · rw [h.before i (by omega), hpeer i, if_neg (by omega)]
  · rw [hfilter] at hk
    cases k with
    | zero =>
      obtain rfl := Option.some.inj hk
      rw [h.before i (by omega), hpeer i, if_pos (by omega)]
    | succ k => rw [h.peer i k u (by omega) hk, hpeer i, if_neg (by omega)]

theorem apply_skip : o.apply .skip = .ok o := by
  have h : o.size - 1 + 1 = o.size := by omega
  simp only [OpData.apply, h]

theorem fold_ok (hsize : o.size = n) (h : es.foldlM OpData.apply o = .ok out) :
    Fits es n ∧ Filled es n o out := by
  induction es generalizing o n with
  | nil =>
    obtain rfl := Except.ok.inj h
    refine ⟨⟨fun e he => absurd he List.not_mem_nil, fun k f hk => by cases hk⟩, ?_⟩
    exact ⟨rfl, by simpa using hsize, fun _ => rfl, fun _ _ => rfl,
      fun i k e _ hk => by cases hk⟩
  | cons e es ih =>
    rw [List.foldlM_cons] at h
    cases e with
    | empty => cases h
    | skip =>
      rw [apply_skip] at h
      obtain ⟨hfits, hfilled⟩ := ih hsize h
      exact ⟨fits_skip.mpr hfits, hfilled.isTcp, hfilled.size, hfilled.own, hfilled.before,
        hfilled.peer⟩
    | keep =>
      have hnext : o.size + 1 = ((n + 1 : ℕ) : ℤ) := by omega
      obtain ⟨hfits, hfilled⟩ := ih (o := { o with size := o.size + 1 }) hnext h
      refine ⟨fits_keep.mpr hfits, hfilled.cons rfl rfl (fun _ => rfl) fun i => ?_⟩
      simp [Effect.onPeer]
    | write f =>
      simp only [OpData.apply] at h
      split at h
      · rename_i hidx
        have hnext : o.size + 1 = ((n + 1 : ℕ) : ℤ) := by omega
        have hn : o.size.toNat = n := by omega
        obtain ⟨hfits, hfilled⟩ := ih hnext h
        refine ⟨fits_write.mpr ⟨by omega, hfits⟩, hfilled.cons rfl rfl (fun i => ?_)
          fun i => ?_⟩
        · by_cases hi : (i : ℕ) = n
          · simp [hn, hi]
          · simp [hn, Ne.symm hi]
        · by_cases hi : (i : ℕ) = n
          · simp [hn, hi, Effect.onPeer]
          · simp [hn, hi, Ne.symm hi]
      · cases h

theorem fold_exists (hsize : o.size = n) (hfits : Fits es n) :
    ∃ out, es.foldlM OpData.apply o = .ok out := by
  induction es generalizing o n with
  | nil => exact ⟨o, rfl⟩
  | cons e es ih =>
    rw [List.foldlM_cons]
    cases e with
    | empty => exact absurd rfl (hfits.nonempty _ List.mem_cons_self)
    | skip =>
      rw [apply_skip]
      exact ih hsize (fits_skip.mp hfits)
    | keep =>
      have hnext : o.size + 1 = ((n + 1 : ℕ) : ℤ) := by omega
      exact ih (o := { o with size := o.size + 1 }) hnext (fits_keep.mp hfits)
    | write f =>
      obtain ⟨hn, hrest⟩ := fits_write.mp hfits
      have hidx : 0 ≤ o.size ∧ o.size.toNat < maxAddr := by omega
      have hnext : o.size + 1 = ((n + 1 : ℕ) : ℤ) := by omega
      simp only [OpData.apply, dif_pos hidx]
      exact ih hnext hrest

/-- The rounds at which the index stands at 0, 1, 2 and so on. -/
def rounds (isTcp : Bool) (sockname : WasiAddr) (table : TrackedTable) : List Effect :=
  (effects isTcp sockname table).filter Effect.counts

/-! ### When the message is right -/

def WasiAddr.isFour : WasiAddr → Bool
  | .ip4 _ _ => true
  | .ip6 _ _ => false

/-- `0.0.0.0` or `::`. -/
def WasiAddr.isWild : WasiAddr → Bool
  | .ip4 n _ => n == Vector.replicate 4 0
  | .ip6 n _ => n == Vector.replicate 8 0

/-- The last send in this family went to an address. -/
def TrackedSocket.sentTo (four : Bool) (s : TrackedSocket) : Bool :=
  (s.sends.filter fun dest => dest.isFour == four).getLast?.any fun dest => !dest.isWild

def TrackedSocket.sentBoth (s : TrackedSocket) : Bool := s.sentTo true && s.sentTo false

/-- The socket has never sent, or the last time to the wildcard. -/
def TrackedSocket.unsent (s : TrackedSocket) : Bool := s.sends.getLast?.all WasiAddr.isWild

def Served (table : TrackedTable) : Prop :=
  ∃ (fd : ℤ) (s : TrackedSocket), table[fd]? = some s ∧ s.isServer = true

def TrackedSocket.counted (isTcp : Bool) (s : TrackedSocket) : Bool :=
  !(isTcp && s.isServer) || s.sentBoth

/-- The sockets are counted from the greatest descriptor on. -/
def index (isTcp : Bool) (table : TrackedTable) (fd : ℤ) : ℕ :=
  table.toList.countP fun e => fd < e.1 && e.2.counted isTcp

/-- What can be told as a peer with the index of the socket `s`: of UDP its last
destination or the source of the first datagram, of TCP without a server the name of
descriptor 0, and else what the array `held` before. -/
inductive Supplies (isTcp : Bool) (table : TrackedTable) (sockname held : WasiAddr)
    (s : TrackedSocket) : WasiAddr → Prop where
  | sent {p : WasiAddr} : isTcp = false → s.sentBoth = false → s.unsent = false →
      s.sends.getLast? = some p → Supplies isTcp table sockname held s p
  | received {r : RecvFromData} : isTcp = false → s.unsent = true →
      s.socketRecvFromDatas.head? = some r →
      Supplies isTcp table sockname held s r.srcAddr.endpoint
  | named : isTcp = true → ¬Served table → s.sentBoth = false →
      Supplies isTcp table sockname held s sockname
  | held : s.sentBoth = true ∨ isTcp = true ∧ Served table →
      Supplies isTcp table sockname held s held

/-- The array holds the own address of each socket already, at an index of its own that
is also the index of a socket (this one or another) with the right peer. -/
def HoldsAlready (localAddr : RecordedAddr) (sockname : WasiAddr) (table : TrackedTable)
    (o : OpData) : Prop :=
  ∃ place : ℤ → Fin maxAddr,
    Set.InjOn place {fd | ∃ s, table[fd]? = some s ∧ s.Suspends o.isTcp} ∧
    ∀ (fd : ℤ) (s : TrackedSocket), table[fd]? = some s → s.Suspends o.isTcp →
      o.addr[place fd].1.endpoint = (srcAddr localAddr s).endpoint ∧
      ∃ (fd' : ℤ) (t : TrackedSocket), table[fd']? = some t ∧ t.counted o.isTcp = true ∧
        index o.isTcp table fd' = place fd ∧
        ∀ p, s.peer = some p →
          Supplies o.isTcp table sockname o.addr[place fd].2.endpoint t p

/-! ### The destination and the branches -/

theorem endpoint_assign (r : RecordedAddr) (a : WasiAddr) : (r.assign a).endpoint = a := by
  cases a <;> rfl

theorem destAddr_concat {s : TrackedSocket} {sends : List WasiAddr} {dest : WasiAddr}
    (h : s.sends = sends ++ [dest]) :
    s.destAddr = ({ s with sends } : TrackedSocket).destAddr.assign dest := by
  simp [TrackedSocket.destAddr, h, List.foldl_append]

theorem destAddr_endpoint {s : TrackedSocket} {dest : WasiAddr}
    (h : s.sends.getLast? = some dest) : s.destAddr.endpoint = dest := by
  obtain ⟨sends, hs⟩ := List.getLast?_eq_some_iff.mp h
  rw [destAddr_concat hs, endpoint_assign]

theorem destAddr_isWild (s : TrackedSocket) : s.destAddr.isWild = s.unsent := by
  rcases List.eq_nil_or_concat s.sends with hs | ⟨sends, dest, hs⟩
  · simp [TrackedSocket.destAddr, TrackedSocket.unsent, hs, RecordedAddr.isWild,
      RecordedAddr.isWild6]
  · rw [List.concat_eq_append] at hs
    rw [destAddr_concat hs, TrackedSocket.unsent, hs, List.getLast?_concat, Option.all_some]
    cases dest <;> simp [RecordedAddr.assign, RecordedAddr.isWild, RecordedAddr.isWild4,
      RecordedAddr.isWild6, WasiAddr.isWild]

/-- A send touches the half of its own family only. -/
theorem destAddr_halves (s : TrackedSocket) :
    s.destAddr.isWild4 = !s.sentTo true ∧ s.destAddr.isWild6 = !s.sentTo false := by
  obtain ⟨socketAddress, isServer, sends, recv⟩ := s
  induction sends using List.reverseRecOn with
  | nil => exact ⟨rfl, rfl⟩
  | append_singleton sends dest ih =>
    rw [destAddr_concat (s := ⟨socketAddress, isServer, sends ++ [dest], recv⟩) rfl]
    unfold TrackedSocket.sentTo at ih ⊢
    cases dest with
    | ip4 n port =>
      refine ⟨?_, ?_⟩
      · simp [List.filter_append, WasiAddr.isFour, WasiAddr.isWild, RecordedAddr.assign,
          RecordedAddr.isWild4]
      · simpa [List.filter_append, WasiAddr.isFour, RecordedAddr.assign,
          RecordedAddr.isWild6] using ih.2
    | ip6 n port =>
      refine ⟨?_, ?_⟩
      · simpa [List.filter_append, WasiAddr.isFour, RecordedAddr.assign,
          RecordedAddr.isWild4] using ih.1
      · simp [List.filter_append, WasiAddr.isFour, WasiAddr.isWild, RecordedAddr.assign,
          RecordedAddr.isWild6]

theorem unsent_not_both {s : TrackedSocket} (h : s.unsent = true) : s.sentBoth = false := by
  obtain ⟨h4, h6⟩ := destAddr_halves s
  rw [← destAddr_isWild, RecordedAddr.isWild, h4, h6] at h
  unfold TrackedSocket.sentBoth
  revert h
  cases s.sentTo true <;> cases s.sentTo false <;> simp

/-- The branches of the loop in terms of what the socket has sent and received. -/
theorem effect_eq (isTcp isServer : Bool) (sockname : WasiAddr) (s : TrackedSocket) :
    s.effect isTcp isServer sockname =
      if s.sentBoth then .keep
      else if !isTcp then
        if s.unsent then
          match s.socketRecvFromDatas.head? with
          | some recvFromData => .write fun _ => recvFromData.srcAddr
          | none => .empty
        else .write fun _ => s.destAddr
      else if !isServer then .write fun r => r.assign sockname
      else if s.isServer then .skip
      else .keep := by
  obtain ⟨h4, h6⟩ := destAddr_halves s
  have hhalf : (s.destAddr.isWild4 || s.destAddr.isWild6) = !s.sentBoth := by
    rw [h4, h6, TrackedSocket.sentBoth, Bool.not_and]
  unfold TrackedSocket.effect
  rw [hhalf, destAddr_isWild]
  cases s.sentBoth <;> rfl

/-- The round of a socket, by what it has sent and received. -/
inductive Round (isTcp isServer : Bool) (sockname : WasiAddr) (s : TrackedSocket) :
    Effect → Prop where
  | both : s.sentBoth = true → Round isTcp isServer sockname s .keep
  | received {r : RecvFromData} : isTcp = false → s.unsent = true →
      s.socketRecvFromDatas.head? = some r →
      Round isTcp isServer sockname s (.write fun _ => r.srcAddr)
  | empty : isTcp = false → s.unsent = true → s.socketRecvFromDatas = [] →
      Round isTcp isServer sockname s .empty
  | sent : isTcp = false → s.sentBoth = false → s.unsent = false →
      Round isTcp isServer sockname s (.write fun _ => s.destAddr)
  | named : isTcp = true → isServer = false → s.sentBoth = false →
      Round isTcp isServer sockname s (.write fun r => r.assign sockname)
  | passed : isTcp = true → isServer = true → s.sentBoth = false → s.isServer = true →
      Round isTcp isServer sockname s .skip
  | client : isTcp = true → isServer = true → s.sentBoth = false → s.isServer = false →
      Round isTcp isServer sockname s .keep

theorem effect_round (isTcp isServer : Bool) (sockname : WasiAddr) (s : TrackedSocket) :
    Round isTcp isServer sockname s (s.effect isTcp isServer sockname) := by
  rw [effect_eq]
  cases hboth : s.sentBoth with
  | true => exact .both hboth
  | false =>
    cases isTcp with
    | false =>
      cases hun : s.unsent with
      | true =>
        cases hrecv : s.socketRecvFromDatas with
        | nil => exact .empty rfl hun hrecv
        | cons r rest => exact .received rfl hun (by rw [hrecv]; rfl)
      | false => exact .sent rfl hboth hun
    | true =>
      cases isServer with
      | false => exact .named rfl rfl hboth
      | true =>
        cases hserver : s.isServer with
        | true => exact .passed rfl rfl hboth hserver
        | false => exact .client rfl rfl hboth hserver

section Branches

variable {isTcp : Bool} {sockname : WasiAddr} {table : TrackedTable} {s : TrackedSocket}

theorem effect_empty_iff {isServer : Bool} :
    s.effect isTcp isServer sockname = .empty ↔
      isTcp = false ∧ s.unsent = true ∧ s.socketRecvFromDatas = [] := by
  constructor
  · intro h
    have hround := effect_round isTcp isServer sockname s
    rw [h] at hround
    cases hround with
    | empty htcp hun hrecv => exact ⟨htcp, hun, hrecv⟩
  · rintro ⟨rfl, hun, hrecv⟩
    rw [effect_eq, unsent_not_both hun, hun, hrecv]
    rfl

theorem any_isServer_iff :
    (table.toList.any fun e => e.2.isServer) = true ↔ Served table := by
  rw [List.any_eq_true]
  constructor
  · intro ⟨⟨fd, s⟩, hmem, hs⟩
    exact ⟨fd, s, Std.TreeMap.mem_toList_iff_getElem?_eq_some.mp hmem, hs⟩
  · intro ⟨fd, s, hmem, hs⟩
    exact ⟨(fd, s), Std.TreeMap.mem_toList_iff_getElem?_eq_some.mpr hmem, hs⟩

variable {fd : ℤ} (hs : table[fd]? = some s)

include hs in
theorem effect_counts (sockname : WasiAddr) :
    (s.effect isTcp (table.toList.any fun e => e.2.isServer) sockname).counts =
      s.counted isTcp := by
  have hround := effect_round isTcp (table.toList.any fun e => e.2.isServer) sockname s
  unfold TrackedSocket.counted
  generalize s.effect isTcp (table.toList.any fun e => e.2.isServer) sockname = e at hround ⊢
  cases hround with
  | both hboth => rw [hboth, Bool.or_true]; rfl
  | received htcp => rw [htcp]; rfl
  | empty htcp => rw [htcp]; rfl
  | sent htcp => rw [htcp]; rfl
  | named htcp hnone =>
    -- no socket is a server, so this one is not
    have hserver : s.isServer = false := Bool.eq_false_iff.mpr fun h =>
      Bool.eq_false_iff.mp hnone (any_isServer_iff.mpr ⟨fd, s, hs, h⟩)
    rw [hserver, Bool.and_false]
    rfl
  | passed htcp _ hboth hserver => rw [htcp, hserver, hboth]; rfl
  | client _ _ _ hserver => rw [hserver, Bool.and_false]; rfl

theorem effect_write {f : RecordedAddr → RecordedAddr}
    (h : s.effect isTcp (table.toList.any fun e => e.2.isServer) sockname = .write f) :
    s.sentBoth = false ∧ (isTcp = true → ¬Served table) := by
  have hround := effect_round isTcp (table.toList.any fun e => e.2.isServer) sockname s
  rw [h] at hround
  have hudp : isTcp = false → isTcp = true → ¬Served table := by
    rintro rfl htcp
    cases htcp
  cases hround with
  | received htcp hun _ => exact ⟨unsent_not_both hun, hudp htcp⟩
  | sent htcp hboth _ => exact ⟨hboth, hudp htcp⟩
  | named _ hnone hboth =>
    exact ⟨hboth, fun _ hserved => Bool.eq_false_iff.mp hnone (any_isServer_iff.mpr hserved)⟩

theorem exists_effect_write (sockname : WasiAddr) (hboth : s.sentBoth = false)
    (hserved : isTcp = true → ¬Served table)
    (hrecv : isTcp = false → s.unsent = true → s.socketRecvFromDatas ≠ []) :
    ∃ f, s.effect isTcp (table.toList.any fun e => e.2.isServer) sockname = .write f := by
  have hround := effect_round isTcp (table.toList.any fun e => e.2.isServer) sockname s
  generalize s.effect isTcp (table.toList.any fun e => e.2.isServer) sockname = e at hround ⊢
  cases hround with
  | both h => exact absurd (h.symm.trans hboth) (by decide)
  | received | sent | named => exact ⟨_, rfl⟩
  | empty htcp hun hnil => exact absurd hnil (hrecv htcp hun)
  | passed htcp hserver => exact absurd (any_isServer_iff.mp hserver) (hserved htcp)
  | client htcp hserver => exact absurd (any_isServer_iff.mp hserver) (hserved htcp)

theorem exists_last (h : s.unsent = false) : ∃ dest, s.sends.getLast? = some dest := by
  cases hlast : s.sends.getLast? with
  | none => simp [TrackedSocket.unsent, hlast] at h
  | some dest => exact ⟨dest, rfl⟩

/-- What the loop leaves at the index of `s`, if the round does not read an empty list. -/
theorem onPeer_endpoint_iff (held : RecordedAddr) (p : WasiAddr)
    (hrecv : isTcp = false → s.unsent = true → s.socketRecvFromDatas ≠ []) :
    ((s.effect isTcp (table.toList.any fun e => e.2.isServer) sockname).onPeer held).endpoint
        = p ↔ Supplies isTcp table sockname held.endpoint s p := by
  constructor
  · rintro rfl
    have hround := effect_round isTcp (table.toList.any fun e => e.2.isServer) sockname s
    generalize s.effect isTcp (table.toList.any fun e => e.2.isServer) sockname = e at hround ⊢
    cases hround with
    | both hboth => exact .held (Or.inl hboth)
    | received htcp hun hr => exact .received htcp hun hr
    | empty htcp hun hnil => exact absurd hnil (hrecv htcp hun)
    | sent htcp hboth hun =>
      obtain ⟨dest, hdest⟩ := exists_last hun
      refine .sent htcp hboth hun ?_
      rw [hdest]
      exact congrArg some (destAddr_endpoint hdest).symm
    | named htcp hnone hboth =>
      rw [Effect.onPeer, endpoint_assign]
      exact .named htcp (fun h => Bool.eq_false_iff.mp hnone (any_isServer_iff.mpr h)) hboth
    | passed htcp hserver => exact .held (Or.inr ⟨htcp, any_isServer_iff.mp hserver⟩)
    | client htcp hserver => exact .held (Or.inr ⟨htcp, any_isServer_iff.mp hserver⟩)
  · intro h
    rw [effect_eq]
    cases h with
    | sent htcp hboth hun hlast =>
      rw [hboth, htcp, hun]
      exact destAddr_endpoint hlast
    | received htcp hun hr =>
      rw [unsent_not_both hun, htcp, hun, hr]
      rfl
    | named htcp hnot hboth =>
      have hserved : (table.toList.any fun e => e.2.isServer) = false :=
        Bool.eq_false_iff.mpr fun h => hnot (any_isServer_iff.mp h)
      rw [hboth, htcp, hserved]
      exact endpoint_assign held sockname
    | held hheld =>
      rcases hheld with hboth | ⟨htcp, hserved⟩
      · rw [hboth]
        rfl
      · rw [htcp, any_isServer_iff.mpr hserved]
        cases s.sentBoth <;> cases s.isServer <;> rfl

end Branches

theorem mem_effects {isTcp : Bool} {sockname : WasiAddr} {table : TrackedTable} {e : Effect} :
    e ∈ effects isTcp sockname table ↔ ∃ (fd : ℤ) (s : TrackedSocket), table[fd]? = some s ∧
      s.effect isTcp (table.toList.any fun e => e.2.isServer) sockname = e := by
  unfold effects
  rw [List.mem_map]
  constructor
  · intro ⟨⟨fd, s⟩, hmem, he⟩
    exact ⟨fd, s, Std.TreeMap.mem_toList_iff_getElem?_eq_some.mp hmem, he⟩
  · intro ⟨fd, s, hs, he⟩
    exact ⟨(fd, s), Std.TreeMap.mem_toList_iff_getElem?_eq_some.mpr hs, he⟩

/-! ### The index -/

theorem toList_descends (table : TrackedTable) :
    table.toList.Pairwise fun a b => b.1 < a.1 :=
  (Std.TreeMap.ordered_keys_toList (t := table)).imp fun h => compare_lt_iff_lt.mp h

theorem rounds_getElem?_iff {isTcp : Bool} {sockname : WasiAddr} {table : TrackedTable} {k : ℕ}
    {e : Effect} :
    (rounds isTcp sockname table)[k]? = some e ↔
      ∃ (fd : ℤ) (s : TrackedSocket), table[fd]? = some s ∧ s.counted isTcp = true ∧
        index isTcp table fd = k ∧
        s.effect isTcp (table.toList.any fun e => e.2.isServer) sockname = e := by
  have hfilter : rounds isTcp sockname table =
      (table.toList.filter fun e => e.2.counted isTcp).map fun e =>
        e.2.effect isTcp (table.toList.any fun e => e.2.isServer) sockname := by
    rw [rounds, effects, List.filter_map]
    congr 1
    refine List.filter_congr fun x hx => ?_
    exact effect_counts (Std.TreeMap.mem_toList_iff_getElem?_eq_some.mp hx) sockname
  rw [hfilter, List.getElem?_map, Option.map_eq_some_iff]
  constructor
  · intro ⟨⟨fd, s⟩, hk, he⟩
    obtain ⟨hmem, hcount⟩ :=
      (Maps.getElem?_iff_countP ((toList_descends table).filter _)).mp hk
    obtain ⟨hmem, hs⟩ := List.mem_filter.mp hmem
    rw [List.countP_filter] at hcount
    exact ⟨fd, s, Std.TreeMap.mem_toList_iff_getElem?_eq_some.mp hmem, hs, hcount, he⟩
  · intro ⟨fd, s, hmem, hs, hcount, he⟩
    refine ⟨(fd, s), (Maps.getElem?_iff_countP ((toList_descends table).filter _)).mpr
      ⟨List.mem_filter.mpr ⟨Std.TreeMap.mem_toList_iff_getElem?_eq_some.mpr hmem, hs⟩, ?_⟩, he⟩
    rw [List.countP_filter]
    exact hcount

/-! ### The message -/

/-- The loop gets to its end. -/
theorem fits_effects_iff (isTcp : Bool) (sockname : WasiAddr) (table : TrackedTable) :
    Fits (effects isTcp sockname table) 0 ↔
      (∀ (fd : ℤ) (s : TrackedSocket), table[fd]? = some s → isTcp = false →
        s.unsent = true → s.socketRecvFromDatas ≠ []) ∧
      ∀ (fd : ℤ) (s : TrackedSocket), table[fd]? = some s → s.sentBoth = false →
        (isTcp = true → ¬Served table) → index isTcp table fd < maxAddr := by
  constructor
  · intro hfits
    have hrecv : ∀ (fd : ℤ) (s : TrackedSocket), table[fd]? = some s → isTcp = false →
        s.unsent = true → s.socketRecvFromDatas ≠ [] := by
      intro fd s hs htcp hun hnil
      exact hfits.nonempty .empty
        (mem_effects.mpr ⟨fd, s, hs, effect_empty_iff.mpr ⟨htcp, hun, hnil⟩⟩) rfl
    refine ⟨hrecv, fun fd s hs hboth hserved => ?_⟩
    obtain ⟨f, hf⟩ := exists_effect_write sockname hboth hserved (hrecv fd s hs)
    have hcounted : s.counted isTcp = true := by
      rw [← effect_counts hs sockname, hf]
      rfl
    have hlt := hfits.inside _ f (rounds_getElem?_iff.mpr ⟨fd, s, hs, hcounted, rfl, hf⟩)
    omega
  · intro ⟨hrecv, hinside⟩
    refine ⟨fun e he hempty => ?_, fun k f hk => ?_⟩
    · obtain ⟨fd, s, hs, heff⟩ := mem_effects.mp he
      obtain ⟨htcp, hun, hnil⟩ := effect_empty_iff.mp (heff.trans hempty)
      exact hrecv fd s hs htcp hun hnil
    · obtain ⟨fd, s, hs, -, hidx, heff⟩ := rounds_getElem?_iff.mp hk
      obtain ⟨hboth, hserved⟩ := effect_write heff
      have hlt := hinside fd s hs hboth hserved
      omega

/-- An index that the message counts is that of a socket, and holds what this supplies. -/
theorem Filled.supplies_iff {isTcp : Bool} {sockname : WasiAddr} {table : TrackedTable}
    (h : Filled (effects isTcp sockname table) 0 o out)
    (hrecv : ∀ (fd : ℤ) (s : TrackedSocket), table[fd]? = some s → isTcp = false →
      s.unsent = true → s.socketRecvFromDatas ≠ []) (i : Fin maxAddr) (peer : Option WasiAddr) :
    ((i : ℕ) : ℤ) < out.size ∧ (∀ p, peer = some p → out.addr[i].2.endpoint = p) ↔
      ∃ (fd : ℤ) (t : TrackedSocket), table[fd]? = some t ∧ t.counted isTcp = true ∧
        index isTcp table fd = i ∧
        ∀ p, peer = some p → Supplies isTcp table sockname o.addr[i].2.endpoint t p := by
  have hsize : out.size = (rounds isTcp sockname table).length := by
    rw [h.size, rounds]
    omega
  constructor
  · intro ⟨hlt, hpeer⟩
    have hk : (i : ℕ) < (rounds isTcp sockname table).length := by omega
    have hround := List.getElem?_eq_getElem hk
    obtain ⟨fd, t, ht, hcounted, hidx, heff⟩ := rounds_getElem?_iff.mp hround
    refine ⟨fd, t, ht, hcounted, hidx, fun p hp => ?_⟩
    rw [← onPeer_endpoint_iff _ p (hrecv fd t ht), heff, ← h.peer i i _ (by omega) hround]
    exact hpeer p hp
  · intro ⟨fd, t, ht, hcounted, hidx, hpeer⟩
    have hround := rounds_getElem?_iff.mpr
      ⟨fd, t, ht, hcounted, hidx, Eq.refl (t.effect isTcp _ sockname)⟩
    have hk := (List.getElem?_eq_some_iff.mp hround).1
    refine ⟨by omega, fun p hp => ?_⟩
    rw [h.peer i i _ (by omega) hround]
    exact (onPeer_endpoint_iff _ p (hrecv fd t ht)).mpr (hpeer p hp)

/-- The loop itself stores no own address: it gives a right message exactly when each UDP
socket without a destination has received, no socket at which a peer is written comes
sixth or later, and the own addresses were there before. -/
theorem suspendMessage_tells_iff (localAddr : RecordedAddr) (sockname : WasiAddr)
    (table : TrackedTable) (o : OpData) (hsize : o.size = 0) :
    (∃ out, suspendMessage sockname table o = .ok out ∧ Tells localAddr table out) ↔
    (∀ (fd : ℤ) (s : TrackedSocket), table[fd]? = some s → o.isTcp = false →
      s.unsent = true → s.socketRecvFromDatas ≠ []) ∧
    (∀ (fd : ℤ) (s : TrackedSocket), table[fd]? = some s → s.sentBoth = false →
      (o.isTcp = true → ¬Served table) → index o.isTcp table fd < maxAddr) ∧
    HoldsAlready localAddr sockname table o := by
  rw [← and_assoc, ← fits_effects_iff o.isTcp sockname table]
  constructor
  · intro ⟨out, hout, place, hinj, htells⟩
    obtain ⟨hfits, hfilled⟩ := fold_ok (n := 0) (by simpa using hsize) hout
    rw [hfilled.isTcp] at hinj htells
    refine ⟨hfits, place, hinj, fun fd s hs hsus => ?_⟩
    obtain ⟨hlt, hown, hpeer⟩ := htells fd s hs hsus
    refine ⟨?_, ?_⟩
    · rw [← hfilled.own (place fd)]
      exact hown
    · exact (hfilled.supplies_iff ((fits_effects_iff _ _ _).mp hfits).1 _ _).mp ⟨hlt, hpeer⟩
  · intro ⟨hfits, place, hinj, hholds⟩
    obtain ⟨out, hout⟩ := fold_exists (o := { o with
      op := if table.toList.any fun e => e.2.isServer then .suspendTcpServer else .suspend })
      (by simpa using hsize) hfits
    obtain ⟨-, hfilled⟩ := fold_ok (n := 0) (by simpa using hsize) hout
    refine ⟨out, hout, place, ?_, ?_⟩
    · rw [hfilled.isTcp]
      exact hinj
    · rw [hfilled.isTcp]
      intro fd s hs hsus
      obtain ⟨hown, hsupplied⟩ := hholds fd s hs hsus
      obtain ⟨hlt, hpeer⟩ :=
        (hfilled.supplies_iff ((fits_effects_iff _ _ _).mp hfits).1 _ _).mpr hsupplied
      refine ⟨hlt, ?_, hpeer⟩
      rw [hfilled.own (place fd)]
      exact hown

def dockerAddr : RecordedAddr := { ip4 := #v[172, 17, 0, 2], isFour := true }

/-- A UDP socket at `address` that has sent to 172.17.0.3:8000. -/
def oneSender (address : RecordedAddr) : TrackedTable :=
  (∅ : TrackedTable).insert 7
    { socketAddress := address, sends := [.ip4 #v[172, 17, 0, 3] 8000] }

def opDataWith (own : RecordedAddr) : OpData :=
  ⟨.init, false, 0, #v[(own, {}), ({}, {}), ({}, {}), ({}, {}), ({}, {})]⟩

theorem oneSender_getElem? {address : RecordedAddr} {fd : ℤ} {s : TrackedSocket}
    (h : (oneSender address)[fd]? = some s) :
    s = { socketAddress := address, sends := [.ip4 #v[172, 17, 0, 3] 8000] } ∧ fd = 7 := by
  simp only [oneSender, Std.TreeMap.getElem?_insert] at h
  split at h
  · rename_i heq
    exact ⟨(Option.some.inj h).symm, (Std.LawfulEqCmp.compare_eq_iff_eq.mp heq)⟩
  · cases h

theorem unbound_suspendMessage_tells :
    ∃ out, suspendMessage (.ip4 #v[0, 0, 0, 0] 0) (oneSender {}) (opDataWith dockerAddr)
        = .ok out ∧ Tells dockerAddr (oneSender {}) out := by
  apply (suspendMessage_tells_iff dockerAddr (.ip4 #v[0, 0, 0, 0] 0) (oneSender {})
    (opDataWith dockerAddr) rfl).mpr
  refine ⟨fun fd s hs _ hun => ?_, fun fd s hs _ _ => ?_,
    fun _ => ⟨0, by decide⟩, ?_, fun fd s hs _ => ?_⟩
  · obtain ⟨rfl, rfl⟩ := oneSender_getElem? hs
    exact absurd hun (by decide)
  · obtain ⟨rfl, rfl⟩ := oneSender_getElem? hs
    have hidx : index (opDataWith dockerAddr).isTcp (oneSender {}) 7 = 0 := rfl
    rw [hidx]
    exact maxAddr_pos
  · rintro a ⟨s, hs, -⟩ b ⟨t, ht, -⟩ -
    rw [(oneSender_getElem? hs).2, (oneSender_getElem? ht).2]
  · obtain ⟨rfl, rfl⟩ := oneSender_getElem? hs
    exact ⟨rfl, 7, _, hs, rfl, rfl, fun p hp => .sent rfl rfl rfl hp⟩

/-- A socket bound to 172.17.0.2:9000: nothing has ever stored this address in the array. -/
theorem bound_not_tells :
    ¬∀ (localAddr : RecordedAddr) (sockname : WasiAddr) (table : TrackedTable) (o : OpData),
      table.isEmpty = false → o.size = 0 →
      ∃ out, suspendMessage sockname table o = .ok out ∧ Tells localAddr table out := by
  intro hclaim
  obtain ⟨out, hout, place, -, htells⟩ := hclaim dockerAddr (.ip4 #v[0, 0, 0, 0] 0)
    (oneSender { dockerAddr with port := 9000 }) (opDataWith {}) rfl rfl
  obtain ⟨-, hfilled⟩ := fold_ok (n := 0) rfl hout
  obtain ⟨-, hown, -⟩ := htells 7 _ rfl (by rintro ⟨-, h⟩; cases h)
  have hnone : ∀ i : Fin maxAddr,
      (opDataWith {}).addr[i].1.endpoint = .ip6 (Vector.replicate 8 0) 0 := by decide
  have hsame : out.addr[place 7].1 = (opDataWith {}).addr[place 7].1 := hfilled.own (place 7)
  rw [hsame] at hown
  exact absurd ((hnone (place 7)).symm.trans hown) (by decide)

end MVVM.Sockets
