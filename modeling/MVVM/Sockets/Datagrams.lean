import MVVM.Sockets.Migrate
import MVVM.Sockets.Address

/-!
# Datagrams of the guest (wamr_export.cpp:69-154)

The end of a draining is recognised by the first bytes of a datagram, in whatever state the
socket is; and an address is handed out in the family of the variable it is written to.
-/

namespace MVVM.Sockets

/-- The offsets behind `ri_data` that are read for a tracked socket: the datagram, which is
copied, and `mvvm_op_data::op`. -/
def Message.inspected (m : Message) : List ℕ := List.range m.riDataLen ++ List.range 4

/-- The datagrams `l` are recorded, each on its socket, and nothing behind them is read. -/
structure Records (p : Process) (l : List (ℤ × Message)) : Prop where
  extended : ∀ (sock : ℤ) (metaData : SocketMetaData), p.socketFdMap[sock]? = some metaData →
    ∃ metaData', (receiveAll p l).socketFdMap[sock]? = some metaData' ∧
      metaData'.socketRecvFromDatas =
        metaData.socketRecvFromDatas ++ (messagesOf l sock).map fun m => m.record sock
  inside : ∀ e ∈ l, ∀ i ∈ e.2.inspected, i < e.2.riDataLen

theorem Message.inspected_inside (m : Message) :
    (∀ i ∈ m.inspected, i < m.riDataLen) ↔ 4 ≤ m.riDataLen := by
  simp only [inspected, List.mem_append, List.mem_range]
  constructor
  · intro h
    have hlast := h 3 (.inr (by decide))
    omega
  · rintro h i (hi | hi)
    · exact hi
    · omega

/-- On tracked sockets that are not drained everything is recorded just when each datagram
has room for an opcode and does not begin with that of the end. -/
theorem records_iff (p : Process) (l : List (ℤ × Message))
    (htracked : ∀ e ∈ l, e.1 ∈ p.socketFdMap)
    (hidle : ∀ (fd : ℤ) (metaData : SocketMetaData), p.socketFdMap[fd]? = some metaData →
      metaData.isCollection = false) :
    Records p l ↔ ∀ e ∈ l, 4 ≤ e.2.riDataLen ∧ ¬e.2.IsFin := by
  constructor
  · intro h e he
    refine ⟨e.2.inspected_inside.mp (h.inside e he), ?_⟩
    obtain ⟨metaData, hget⟩ := Maps.mem_iff_exists.mp (htracked e he)
    obtain ⟨metaData', hget', hdatas⟩ := h.extended e.1 metaData hget
    rw [getElem?_receiveAll_filter hget (hidle e.1 metaData hget)] at hget'
    obtain rfl := Option.some.inj hget'
    -- nothing has been dropped, since the lengths are the same
    have hlen := congrArg List.length (List.append_cancel_left hdatas)
    rw [List.length_map, List.length_map, List.length_filter_eq_length_iff] at hlen
    have hmem : e.2 ∈ messagesOf l e.1 :=
      List.mem_map.mpr ⟨e, List.mem_filter.mpr ⟨he, by simp⟩, rfl⟩
    simpa using hlen e.2 hmem
  · intro h
    refine ⟨fun sock metaData hget => ?_, fun e he => e.2.inspected_inside.mpr (h e he).1⟩
    refine ⟨_, getElem?_receiveAll hget (hidle sock metaData hget) fun m hm => ?_, rfl⟩
    obtain ⟨e, he, rfl⟩ := List.mem_map.mp hm
    exact (h e (List.mem_of_mem_filter he)).2

theorem getElem?_oneSocket (fd : ℤ) :
    oneSocket.socketFdMap[fd]? = if 7 = fd then some { domain := 2, type := 1 } else none :=
  getElem?_set ⟨false, false, ∅⟩ 7 fd _

theorem oneSocket_idle (fd : ℤ) (metaData : SocketMetaData)
    (h : oneSocket.socketFdMap[fd]? = some metaData) : metaData.isCollection = false := by
  rw [getElem?_oneSocket] at h
  split at h
  · exact Option.some.inj h ▸ rfl
  · cases h

theorem mem_oneSocket (m : Message) : ∀ e ∈ [((7 : ℤ), m)], e.1 ∈ oneSocket.socketFdMap := by
  intro e he
  rw [List.mem_singleton.mp he]
  exact Maps.mem_iff_exists.mpr ⟨_, (getElem?_oneSocket 7).trans (if_pos rfl)⟩

theorem records_iff_text :
    Records oneSocket [(7, datagram [80, 73, 78, 71])] ↔
      ∀ e ∈ [((7 : ℤ), datagram [80, 73, 78, 71])], 4 ≤ e.2.riDataLen ∧ ¬e.2.IsFin :=
  records_iff oneSocket _ (mem_oneSocket _) oneSocket_idle

/-- The datagram is a byte, and three more are read. -/
theorem short_datagram_overread :
    ¬∀ (p : Process) (l : List (ℤ × Message)), (∀ e ∈ l, e.1 ∈ p.socketFdMap) →
      (∀ (fd : ℤ) (metaData : SocketMetaData), p.socketFdMap[fd]? = some metaData →
        metaData.isCollection = false) → Records p l := by
  intro hclaim
  have hrecords := hclaim oneSocket [(7, datagram [97])] (mem_oneSocket _) oneSocket_idle
  have hlen := (Message.inspected_inside _).mp (hrecords.inside _ List.mem_cons_self)
  exact absurd hlen (by decide)

/-! ### A datagram and its replay -/

/-- What a call has recorded. -/
def recordedBy (p : Process) (sock : ℤ) (m : Message) : Option RecvFromData :=
  ((insertSockRecvFromData p sock m).socketFdMap.getD sock {}).socketRecvFromDatas.getLast?

theorem recordedBy_of_tracked {p : Process} {sock : ℤ} {metaData : SocketMetaData} {m : Message}
    (h : p.socketFdMap[sock]? = some metaData) (hm : ¬m.IsFin) :
    recordedBy p sock m = some (m.record sock) := by
  have hins : ∃ metaData' : SocketMetaData,
      insertSockRecvFromData p sock m = p.set sock { metaData' with
        socketRecvFromDatas := metaData.socketRecvFromDatas ++ [m.record sock] } := by
    unfold insertSockRecvFromData
    simp only [h, if_neg hm]
    split
    · exact ⟨{ metaData with replayStartIndex := metaData.replayStartIndex + 1 }, rfl⟩
    · exact ⟨metaData, rfl⟩
  obtain ⟨metaData', hins⟩ := hins
  rw [recordedBy, hins, getD_of_some (getElem?_set_self p sock _), List.getLast?_concat]

theorem fill_record_iff (out a : WasiAddr) : out.fill a.record = a ↔ (out.IsIp6 ↔ a.IsIp6) := by
  cases out with
  | ip4 n port =>
    cases a with
    | ip4 n' port' => exact iff_of_true rfl Iff.rfl
    | ip6 n' port' => exact iff_of_false (fun h => by cases h) fun h => h.mpr trivial
  | ip6 n port =>
    cases a with
    | ip4 n' port' => exact iff_of_false (fun h => by cases h) fun h => h.mp trivial
    | ip6 n' port' => exact iff_of_true rfl Iff.rfl

theorem replayed_next {p : Process} {sock : ℤ} {metaData : SocketMetaData} {data : RecvFromData}
    (h : p.socketFdMap[sock]? = some metaData)
    (hnext : metaData.socketRecvFromDatas[metaData.replayStartIndex]? = some data)
    (out : WasiAddr) :
    (replaySockRecvFromData p sock out).1 = ⟨data.riData, out.fill data.srcAddr⟩ := by
  have hne : metaData.socketRecvFromDatas ≠ [] := by
    intro hnil
    rw [hnil] at hnext
    cases hnext
  simp only [replaySockRecvFromData, getD_of_some h, if_neg hne, hnext]

/-- A datagram that has been recorded comes back with its payload and its address just when
the variable for the address has its family before. -/
theorem replayed_datagram_iff (p later : Process) (sock : ℤ) (m : Message) (out : WasiAddr)
    (metaData metaData' : SocketMetaData) (htracked : p.socketFdMap[sock]? = some metaData)
    (hm : ¬m.IsFin) (hlater : later.socketFdMap[sock]? = some metaData')
    (hnext : metaData'.socketRecvFromDatas[metaData'.replayStartIndex]? = recordedBy p sock m) :
    (replaySockRecvFromData later sock out).1 = ⟨m.payload, m.srcAddr⟩ ↔
      (out.IsIp6 ↔ m.srcAddr.IsIp6) := by
  rw [recordedBy_of_tracked htracked hm] at hnext
  rw [replayed_next hlater hnext, Replayed.mk.injEq, ← fill_record_iff]
  exact and_iff_right rfl

/-- The process that has recorded one datagram replays it. -/
theorem replayed_datagram_iff_sameFamily :
    (replaySockRecvFromData (insertSockRecvFromData oneSocket 7 (datagram [97])) 7
        (.ip4 (Vector.replicate 4 1) 9)).1 =
      ⟨(datagram [97]).payload, (datagram [97]).srcAddr⟩ := by
  have hget := (getElem?_oneSocket 7).trans (if_pos rfl)
  have hm : ¬(datagram [97]).IsFin := by decide
  refine (replayed_datagram_iff oneSocket _ 7 (datagram [97]) _ _ _ hget hm
    (insertSockRecvFromData_of_app hget hm rfl ▸ getElem?_set_self oneSocket 7 _) ?_).mpr Iff.rfl
  exact (recordedBy_of_tracked hget hm).symm

/-- A datagram from an IPv6 address is replayed into a variable of the other family. -/
theorem replayed_family_lost :
    ¬∀ (p later : Process) (sock : ℤ) (m : Message) (out : WasiAddr)
        (metaData metaData' : SocketMetaData), p.socketFdMap[sock]? = some metaData →
      ¬m.IsFin → later.socketFdMap[sock]? = some metaData' →
      metaData'.socketRecvFromDatas[metaData'.replayStartIndex]? = recordedBy p sock m →
      (replaySockRecvFromData later sock out).1 = ⟨m.payload, m.srcAddr⟩ := by
  intro hclaim
  have hget := (getElem?_oneSocket 7).trans (if_pos rfl)
  have hm : ¬(Message.mk [97] 1 0 (.ip6 (Vector.replicate 8 0) 9)).IsFin := by decide
  have hlater := insertSockRecvFromData_of_app hget hm rfl ▸ getElem?_set_self oneSocket 7 _
  have hnext := (recordedBy_of_tracked hget hm).symm
  have hback := hclaim oneSocket _ 7 _ (.ip4 (Vector.replicate 4 0) 0) _ _ hget hm hlater hnext
  rw [replayed_next hlater (hnext.trans (recordedBy_of_tracked hget hm))] at hback
  cases congrArg Replayed.srcAddr hback

end MVVM.Sockets
