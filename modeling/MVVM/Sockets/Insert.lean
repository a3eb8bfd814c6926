import MVVM.Files.Rename
import MVVM.Maps
import MVVM.Sockets.Table

/-!
# Files and sockets under one numbering (wamr_export.cpp:166-255)

`fd_map_` and `socket_fd_map_` have descriptors of one process as their keys. `remove_fd`
takes a descriptor from the first table that has it, and the other operations look at one
table only.
-/

namespace MVVM.Sockets

open Files

/-- `SocketMetaData` with the address of the socket. -/
structure Socket extends SocketMetaData where
  socketAddress : RecordedAddr := {}
  deriving DecidableEq, Repr, Inhabited

def insertSocket (table : Std.TreeMap ℤ Socket) (fd domain type protocol : ℤ) :
    Std.TreeMap ℤ Socket :=
  if fd ∈ table then table
  else
    let metaData : Socket := { domain := domain, type := type, protocol := protocol }
    let table := table.insert fd metaData
    if protocol = 1 then table.insert fd { metaData with isServer := true }
    else if protocol > 1 then
      -- the lookup of `protocol` makes an entry where there is none
      let other := table.getD protocol {}
      (table.insert protocol other).insert fd
        { metaData with socketAddress := other.socketAddress }
    else table

/-- What is reported of a descriptor, file or socket. -/
inductive DescriptorCall where
  | table (c : TableCall)
  | socket (fd domain type protocol : ℤ)
  deriving DecidableEq, Repr

def descriptorStep (w : Wamr Socket) : DescriptorCall → Option (Wamr Socket)
  | .table c => tableStep w c
  | .socket fd domain type protocol =>
    some { w with socketFdMap := insertSocket w.socketFdMap fd domain type protocol }

def Apart (w : Wamr Socket) : Prop := ∀ fd, fd ∈ w.fdMap → fd ∉ w.socketFdMap

def Untracked (w : Wamr Socket) (fd : ℤ) : Prop := fd ∉ w.fdMap ∧ fd ∉ w.socketFdMap

/-- The state in the middle of `insert_fd`: looking up the descriptor has made an entry. -/
def lookedUp (w : Wamr Socket) (fd : ℤ) : Wamr Socket :=
  w.track fd (w.fdMap.getD fd ⟨"", []⟩)

/-- What a call does besides keeping the tables apart. -/
def Separately (w : Wamr Socket) : DescriptorCall → Prop
  | .table (.fd (.insert fd _ _ _ _)) => 2 < fd → Apart (lookedUp w fd)
  | .table (.fd (.remove fd)) => Untracked (removeFd w fd) fd
  | .table (.rename ..) => True
  | .socket fd domain type protocol => ∀ g : ℤ, g ≠ fd →
      (insertSocket w.socketFdMap fd domain type protocol)[g]? = w.socketFdMap[g]?

/-- The calls about a descriptor. -/
def DescriptorCall.Names (fd : ℤ) : DescriptorCall → Prop
  | .table (.fd (.insert g _ _ _ _)) => g = fd
  | .table (.fd (.remove g)) => g = fd
  | .table (.rename oldFd _ newFd _) => oldFd = fd ∨ newFd = fd
  | .socket g _ _ _ => g = fd

/-- What a file is recorded as when its number is not in use. -/
def openedRecord (path : String) (flags offset : ℤ) (op : FdOp) : FdRecord :=
  ⟨path, [⟨flags, offset, op⟩]⟩

/-- A socket or file with the number `fd` starts from fresh metadata. -/
structure StartsFresh (w : Wamr Socket) (fd : ℤ) : Prop where
  socket : ∀ domain type protocol, ∃ s : Socket,
    (insertSocket w.socketFdMap fd domain type protocol)[fd]? = some s ∧
      s.domain = domain ∧ s.type = type ∧ s.protocol = protocol ∧
      s.socketRecvFromDatas = [] ∧ s.replayStartIndex = 0 ∧ s.isCollection = false
  file : ∀ path flags offset op, 2 < fd → path ≠ "" →
    ∃ w', insertFd w fd path flags offset op = some w' ∧
      w'.fdMap[fd]? = some (openedRecord path flags offset op)

/-- What the tables have to do in a run from empty ones. -/
structure KeptApart (w : Wamr Socket) (calls : List DescriptorCall) : Prop where
  reached : Run.Throughout descriptorStep Apart w calls ∧
    Run.Along descriptorStep Separately w calls
  reused : ∀ before fd between after t,
    calls = before ++ .table (.fd (.remove fd)) :: (between ++ after) →
    (∀ c ∈ between, ¬ c.Names fd) →
    Run.exec descriptorStep w (before ++ .table (.fd (.remove fd)) :: between) = some t →
    StartsFresh t fd

/-- A number is given to a file only when no socket has it and to a socket only when no file
has it, and a protocol above 1 is a socket. -/
def Exclusive (w : Wamr Socket) : DescriptorCall → Prop
  | .table (.fd (.insert fd _ _ _ _)) => 2 < fd → fd ∉ w.socketFdMap
  | .table (.fd (.remove _)) => True
  | .table (.rename oldFd _ newFd _) => oldFd ∈ w.fdMap → newFd ∉ w.socketFdMap
  | .socket fd _ _ protocol => fd ∉ w.socketFdMap →
      fd ∉ w.fdMap ∧ (1 < protocol → protocol = fd ∨ protocol ∈ w.socketFdMap)

/-! ### The table of sockets -/

variable {table : Std.TreeMap ℤ Socket} {fd domain type protocol : ℤ}

theorem getElem?_insertSocket_self (h : fd ∉ table) :
    ∃ s : Socket, (insertSocket table fd domain type protocol)[fd]? = some s ∧
      s.domain = domain ∧ s.type = type ∧ s.protocol = protocol ∧
      s.socketRecvFromDatas = [] ∧ s.replayStartIndex = 0 ∧ s.isCollection = false := by
  unfold insertSocket
  rw [if_neg h]
  simp only
  split
  · exact ⟨_, Std.TreeMap.getElem?_insert_self, rfl, rfl, rfl, rfl, rfl, rfl⟩
  · split
    · exact ⟨_, Std.TreeMap.getElem?_insert_self, rfl, rfl, rfl, rfl, rfl, rfl⟩
    · exact ⟨_, Std.TreeMap.getElem?_insert_self, rfl, rfl, rfl, rfl, rfl, rfl⟩

theorem getElem?_insertSocket_ne (h : fd ∉ table) {g : ℤ} (hg : g ≠ fd) :
    (insertSocket table fd domain type protocol)[g]? =
      if 1 < protocol ∧ protocol = g then some (table.getD g {}) else table[g]? := by
  have hne : ¬fd = g := fun he => hg he.symm
  unfold insertSocket
  rw [if_neg h]
  simp only
  by_cases h1 : protocol = 1
  · rw [if_pos h1, if_neg fun hand => absurd hand.1 (by omega)]
    simp only [Std.TreeMap.getElem?_insert, Std.compare_eq_iff_eq, if_neg hne]
  · rw [if_neg h1]
    by_cases hgt : protocol > 1
    · rw [if_pos hgt]
      simp only [Std.TreeMap.getElem?_insert, Std.TreeMap.getD_insert, Std.compare_eq_iff_eq,
        if_neg hne]
      by_cases hp : protocol = g
      · subst hp
        rw [if_pos rfl, if_neg hne, if_pos ⟨hgt, rfl⟩]
      · rw [if_neg hp, if_neg fun hand => hp hand.2]
    · rw [if_neg hgt, if_neg fun hand => hgt hand.1]
      simp only [Std.TreeMap.getElem?_insert, Std.compare_eq_iff_eq, if_neg hne]

theorem mem_insertSocket (h : fd ∉ table) {g : ℤ} :
    g ∈ insertSocket table fd domain type protocol ↔
      g = fd ∨ (1 < protocol ∧ protocol = g) ∨ g ∈ table := by
  rw [Std.TreeMap.mem_iff_isSome_getElem?]
  by_cases hg : g = fd
  · subst hg
    obtain ⟨s, hs, -⟩ := @getElem?_insertSocket_self table g domain type protocol h
    rw [hs]
    exact iff_of_true rfl (.inl rfl)
  · rw [getElem?_insertSocket_ne h hg, or_iff_right hg]
    split
    · next hp => exact iff_of_true rfl (.inl hp)
    · next hp => rw [or_iff_right hp, Std.TreeMap.mem_iff_isSome_getElem?]

/-- The other entries stay just when the protocol names no new descriptor. -/
theorem insertSocket_frame_iff (h : fd ∉ table) :
    (∀ g : ℤ, g ≠ fd → (insertSocket table fd domain type protocol)[g]? = table[g]?) ↔
      (1 < protocol → protocol = fd ∨ protocol ∈ table) := by
  constructor
  · intro hframe hp
    refine or_iff_not_imp_left.mpr fun hne => ?_
    have hget := hframe protocol hne
    rw [getElem?_insertSocket_ne h hne, if_pos ⟨hp, rfl⟩] at hget
    rw [Std.TreeMap.mem_iff_isSome_getElem?, ← hget]
    rfl
  · intro hp g hg
    rw [getElem?_insertSocket_ne h hg]
    split
    · next heq =>
      obtain ⟨hlt, rfl⟩ := heq
      have hmem : protocol ∈ table := (hp hlt).resolve_left hg
      obtain ⟨s, hs⟩ := Maps.mem_iff_exists.mp hmem
      rw [Std.TreeMap.getD_eq_getD_getElem?, hs, Option.getD_some]
    · rfl

/-! ### One call -/

variable {w t : Wamr Socket}

theorem insertFd_cases {path : String} {flags offset : ℤ} {op : FdOp}
    (h : insertFd w fd path flags offset op = some t) :
    t = w ∨ 2 < fd ∧ ∃ r, t = w.track fd r := by
  unfold insertFd at h
  split at h
  · next hfd =>
    refine .inr ⟨hfd, ?_⟩
    simp only at h
    repeat' split at h
    all_goals first | exact ⟨_, (Option.some.inj h).symm⟩ | cases h
  · exact .inl (Option.some.inj h).symm

theorem apart_track_iff (hw : Apart w) (r : FdRecord) :
    Apart (w.track fd r) ↔ fd ∉ w.socketFdMap := by
  simp only [Apart, Wamr.track, Std.TreeMap.mem_insert, Std.compare_eq_iff_eq]
  constructor
  · intro h
    exact h fd (.inl rfl)
  · rintro h g (rfl | hg)
    · exact h
    · exact hw g hg

theorem apart_insertFd (hw : Apart w) {path : String} {flags offset : ℤ} {op : FdOp}
    (hfd : 2 < fd → fd ∉ w.socketFdMap) (h : insertFd w fd path flags offset op = some t) :
    Apart t := by
  obtain rfl | ⟨hlt, r, rfl⟩ := insertFd_cases h
  · exact hw
  · exact (apart_track_iff hw r).mpr (hfd hlt)

theorem apart_removeFd (hw : Apart w) : Apart (removeFd w fd) := by
  unfold removeFd
  split
  · intro g hg
    exact hw g (Std.TreeMap.mem_of_mem_erase hg)
  · split
    · intro g hg hs
      exact hw g hg (Std.TreeMap.mem_of_mem_erase hs)
    · exact hw

theorem untracked_removeFd (hw : Apart w) : Untracked (removeFd w fd) fd := by
  unfold removeFd
  split
  · next hfile => exact ⟨by simp, hw fd hfile⟩
  · next hfile =>
    split
    · exact ⟨hfile, by simp⟩
    · next hsocket => exact ⟨hfile, hsocket⟩

theorem apart_renameFd_iff (hw : Apart w) (oldFd : ℤ) (oldPath : String) (newFd : ℤ)
    (newPath : String) :
    Apart (renameFd w oldFd oldPath newFd newPath) ↔
      (oldFd ∈ w.fdMap → newFd ∉ w.socketFdMap) := by
  unfold renameFd
  split
  · next res hres =>
    have hold : oldFd ∈ w.fdMap := Maps.mem_iff_exists.mpr ⟨res, hres⟩
    simp only [Apart, Wamr.track, Std.TreeMap.mem_erase, Std.TreeMap.mem_insert, ne_eq,
      Std.compare_eq_iff_eq]
    constructor
    · intro h _
      by_cases heq : oldFd = newFd
      · exact heq ▸ hw oldFd hold
      · exact h newFd ⟨heq, .inl rfl⟩
    · rintro h g ⟨-, rfl | hg⟩
      · exact h hold
      · exact hw g hg
  · next hnone =>
    have hold : oldFd ∉ w.fdMap := Maps.not_mem_iff.mpr hnone
    exact iff_of_true hw fun h => absurd h hold

theorem apart_insertSocket_iff (hw : Apart w) (h : fd ∉ w.socketFdMap)
    (hp : 1 < protocol → protocol = fd ∨ protocol ∈ w.socketFdMap) :
    Apart { w with socketFdMap := insertSocket w.socketFdMap fd domain type protocol } ↔
      fd ∉ w.fdMap := by
  simp only [Apart, mem_insertSocket h]
  constructor
  · intro hall hfile
    exact hall fd hfile (.inl rfl)
  · rintro hfd g hg (rfl | ⟨hlt, rfl⟩ | hs)
    · exact hfd hg
    · rcases hp hlt with rfl | hs
      · exact hfd hg
      · exact hw _ hg hs
    · exact hw g hg hs

/-- A call keeps the tables apart and does its part just when it is exclusive. -/
theorem exclusive_iff (hw : Apart w) (c : DescriptorCall) :
    (∀ t, descriptorStep w c = some t → Apart t) ∧ Separately w c ↔ Exclusive w c := by
  match c with
  | .table (.fd (.insert fd path flags offset op)) =>
    have hlook : Separately w (.table (.fd (.insert fd path flags offset op))) ↔
        Exclusive w (.table (.fd (.insert fd path flags offset op))) :=
      forall_congr' fun _ => apart_track_iff hw _
    rw [← hlook]
    exact and_iff_right_of_imp fun h t ht => apart_insertFd hw (hlook.mp h) ht
  | .table (.fd (.remove fd)) =>
    refine iff_of_true ⟨fun t ht => ?_, untracked_removeFd hw⟩ trivial
    obtain rfl := Option.some.inj ht
    exact apart_removeFd hw
  | .table (.rename oldFd oldPath newFd newPath) =>
    refine Iff.trans ?_ (apart_renameFd_iff hw oldFd oldPath newFd newPath)
    constructor
    · intro ⟨h, _⟩
      exact h _ rfl
    · intro h
      exact ⟨fun t ht => Option.some.inj ht ▸ h, trivial⟩
  | .socket fd domain type protocol =>
    by_cases hmem : fd ∈ w.socketFdMap
    · have hsame : insertSocket w.socketFdMap fd domain type protocol = w.socketFdMap := if_pos hmem
      refine iff_of_true ⟨fun t ht => ?_, fun g _ => by rw [hsame]⟩ fun h => absurd hmem h
      obtain rfl := Option.some.inj ht
      rw [hsame]
      exact hw
    · constructor
      · intro ⟨h, hframe⟩ _
        have hp := (insertSocket_frame_iff hmem).mp hframe
        exact ⟨(apart_insertSocket_iff hw hmem hp).mp (h _ rfl), hp⟩
      · intro h
        obtain ⟨hfile, hp⟩ := h hmem
        refine ⟨fun t ht => ?_, (insertSocket_frame_iff hmem).mpr hp⟩
        obtain rfl := Option.some.inj ht
        exact (apart_insertSocket_iff hw hmem hp).mpr hfile

/-! ### Numbers that are used again -/

theorem startsFresh (h : Untracked w fd) : StartsFresh w fd where
  socket domain type protocol := getElem?_insertSocket_self h.2
  file path flags offset op hfd hpath := by
    have hnone : w.fdMap[fd]? = none := Std.TreeMap.getElem?_eq_none h.1
    refine ⟨w.track fd (openedRecord path flags offset op), ?_, Std.TreeMap.getElem?_insert_self⟩
    unfold insertFd
    simp only [if_pos hfd, getD_of_none hnone, ne_eq, hpath, not_false_eq_true, if_true,
      List.nil_append, ite_self, openedRecord]

/-- A call that is exclusive takes no other number than those that it names. -/
theorem untracked_step (h : Untracked w fd) {c : DescriptorCall} (hc : ¬c.Names fd)
    (hex : Exclusive w c) (ht : descriptorStep w c = some t) : Untracked t fd := by
  match c with
  | .table (.fd (.insert g path flags offset op)) =>
    have hne : ¬g = fd := hc
    obtain rfl | ⟨-, r, rfl⟩ := insertFd_cases ht
    · exact h
    · refine ⟨?_, h.2⟩
      simp only [Wamr.track, Std.TreeMap.mem_insert, Std.compare_eq_iff_eq, not_or]
      exact ⟨hne, h.1⟩
  | .table (.fd (.remove g)) =>
    obtain rfl := Option.some.inj ht
    unfold removeFd
    split
    · exact ⟨fun hm => h.1 (Std.TreeMap.mem_of_mem_erase hm), h.2⟩
    · split
      · exact ⟨h.1, fun hm => h.2 (Std.TreeMap.mem_of_mem_erase hm)⟩
      · exact h
  | .table (.rename oldFd oldPath newFd newPath) =>
    obtain rfl := Option.some.inj ht
    have hne : ¬newFd = fd := fun he => hc (.inr he)
    unfold renameFd
    split
    · refine ⟨fun hm => ?_, h.2⟩
      have hm := Std.TreeMap.mem_of_mem_erase hm
      simp only [Wamr.track, Std.TreeMap.mem_insert, Std.compare_eq_iff_eq] at hm
      exact hm.elim hne h.1
    · exact h
  | .socket g domain type protocol =>
    obtain rfl := Option.some.inj ht
    refine ⟨h.1, ?_⟩
    by_cases hmem : g ∈ w.socketFdMap
    · have hsame : insertSocket w.socketFdMap g domain type protocol = w.socketFdMap := if_pos hmem
      show fd ∉ insertSocket w.socketFdMap g domain type protocol
      rw [hsame]
      exact h.2
    · show fd ∉ insertSocket w.socketFdMap g domain type protocol
      have hne : ¬fd = g := fun he => hc he.symm
      rw [mem_insertSocket hmem, not_or, not_or]
      refine ⟨hne, fun hother => ?_, h.2⟩
      rcases (hex hmem).2 hother.1 with he | hs
      · exact hne (hother.2.symm.trans he)
      · exact h.2 (hother.2 ▸ hs)

theorem untracked_run {calls : List DescriptorCall} (h : Untracked w fd)
    (hc : ∀ c ∈ calls, ¬c.Names fd) (hex : Run.Along descriptorStep Exclusive w calls)
    (ht : Run.exec descriptorStep w calls = some t) : Untracked t fd := by
  induction calls generalizing w with
  | nil =>
    obtain rfl := Option.some.inj ht
    exact h
  | cons c calls ih =>
    obtain ⟨v, hv, hrest⟩ := Run.exec_cons_some ht
    rw [List.forall_mem_cons] at hc
    exact ih (untracked_step h hc.1 hex.1 hv) hc.2 (hex.2 v hv) hrest

/-! ### All runs -/

/-- The tables are kept apart in a run just when each number is given to one table at a time
and no socket has a protocol that is an untracked descriptor. -/
theorem keptApart_iff (policy : String) (shouldSnapshot : Bool) (calls : List DescriptorCall) :
    KeptApart ⟨policy, shouldSnapshot, ∅, ∅⟩ calls ↔
      Run.Along descriptorStep Exclusive ⟨policy, shouldSnapshot, ∅, ∅⟩ calls := by
  have hempty : Apart ⟨policy, shouldSnapshot, ∅, ∅⟩ := fun fd _ => Std.TreeMap.not_mem_emptyc
  have hrun : Run.Throughout descriptorStep Apart _ calls ∧
      Run.Along descriptorStep Separately _ calls ↔ Run.Along descriptorStep Exclusive _ calls :=
    Run.throughout_and_along_iff Apart (fun _ c hw => exclusive_iff hw c) hempty
  constructor
  · intro h
    exact hrun.mp h.reached
  · intro hex
    refine ⟨hrun.mpr hex, fun before fd between after t hsplit hbetween ht => startsFresh ?_⟩
    subst hsplit
    obtain ⟨hall, -⟩ := hrun.mpr hex
    rw [Run.exec_append] at ht
    obtain ⟨u, hu, ht⟩ := Option.bind_eq_some_iff.mp ht
    obtain ⟨v, hv, ht⟩ := Run.exec_cons_some ht
    have hu' : Apart u := hall before _ u rfl hu
    have hrest := ((Run.along_append.mp hex).2 u hu).2 v hv
    obtain rfl := Option.some.inj hv
    exact untracked_run (untracked_removeFd hu') hbetween (Run.along_append.mp hrest).1 ht

/-- The protocol is a descriptor that is not tracked: its lookup tracks it. -/
theorem protocol_lookup_tracks :
    ¬∀ (policy : String) (shouldSnapshot : Bool) (calls : List DescriptorCall),
      KeptApart ⟨policy, shouldSnapshot, ∅, ∅⟩ calls := by
  intro hclaim
  obtain ⟨-, hframe, -⟩ := (hclaim "compression" true [.socket 5 2 1 4]).reached
  have hp := (insertSocket_frame_iff Std.TreeMap.not_mem_emptyc).mp hframe
  rcases hp (by decide) with h | h
  · exact absurd h (by decide)
  · exact Std.TreeMap.not_mem_emptyc h

end MVVM.Sockets
