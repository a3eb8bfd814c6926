import MVVM.Run
import Mathlib.Algebra.Group.Nat.Defs
import Mathlib.Data.Finset.Card

/-!
# The checkpoint barrier (wamr.cpp:806-824, 951-957; wamr_export.cpp:384-426)

A snapshot may start when every thread of the cluster is parked: inside a blocking call
that it entered through `lightweight_checkpoint`, or inside `serialize_to_file`. The
number of parked threads is counted in `ready`, and per thread in `lwcp_list`;
`serialize_to_file` compares `ready` with the length of `exec_env_list` that it has read
before it took `as_mtx`. Everything under `as_mtx` is one step here, except that the
counting and the test of `ready` are two, since threads come and go without the mutex.
-/

namespace MVVM.Checkpoint

/-- What the barrier reads of a `WASMExecEnv`; `curFrame` is `(int)func_index` of the
current frame, if there is one. -/
structure ExecEnv where
  handle : ℕ
  isRestore : Bool
  curFrame : Option ℤ

/-- `lightweight_checkpoint` and `lightweight_uncheckpoint` do nothing while restoring
and without a frame (wamr_export.cpp:385-396). -/
def ExecEnv.Counts (e : ExecEnv) : Prop := e.isRestore = false ∧ e.curFrame.getD (-1) ≠ -1

instance (e : ExecEnv) : Decidable e.Counts := by unfold ExecEnv.Counts; infer_instance

/-- How far a call of `serialize_to_file` has come. -/
inductive Phase where
  -- `all_count` has been read, `as_mtx` not yet taken
  | entered
  -- counted under `as_mtx`, before the test of `ready`
  | counted
  -- in `as_cv.wait`
  | asleep
  -- past the test
  | dumping
  deriving DecidableEq, Repr

/-- A call of `serialize_to_file`: the thread that runs it and the handle of its argument. -/
structure Call where
  caller : ℕ
  inst : ℕ
  allCount : ℕ
  phase : Phase
  deriving DecidableEq, Repr

/-- `wamr->cur_env`, `wamr->exec_env` and `snapshot_threshold`. -/
structure Config where
  curEnv : ℕ
  execEnv : ℕ
  snapshotThreshold : ℕ

structure State where
  -- the handles on `cluster->exec_env_list`
  cluster : Finset ℕ
  lwcp : ℕ → ℤ
  ready : ℕ
  asMtx : Bool
  shouldSnapshot : Bool
  checkpoint : Bool
  callCount : ℕ
  calls : List Call
  -- the threads in the wait of `lightweight_uncheckpoint`
  stuck : List ℕ

inductive Label where
  | lightweightCheckpoint (e : ExecEnv)
  | lightweightUncheckpoint (e : ExecEnv)
  -- the wait of `lightweight_uncheckpoint` comes back without a notification
  | uncheckpointWake (h : ℕ)
  | create (parent child : ℕ)
  | exit (h : ℕ)
  | sigtrap (h : ℕ)
  | sigint (h : ℕ)
  | count (i : ℕ)
  | test (i : ℕ)
  -- `as_cv.wait` of call `i` comes back without a notification
  | wake (i : ℕ)

/-! ### Operations -/

def sizeT (n : ℕ) : ℕ := n % 2 ^ 64

/-- `lwcp_list[h]++; ready++`. -/
def State.park (s : State) (h : ℕ) : State :=
  { s with lwcp := Function.update s.lwcp h (s.lwcp h + 1), ready := sizeT (s.ready + 1) }

def State.unpark (s : State) (h : ℕ) : State :=
  { s with lwcp := Function.update s.lwcp h (s.lwcp h - 1),
           ready := sizeT (s.ready + (2 ^ 64 - 1)) }

def State.setPhase (s : State) (i : ℕ) (c : Call) (p : Phase) : State :=
  { s with calls := s.calls.set i { c with phase := p } }

/-- The thread is in the cluster and runs its own code. -/
def State.Free (s : State) (h : ℕ) : Prop :=
  h ∈ s.cluster ∧ (∀ c ∈ s.calls, c.caller ≠ h) ∧ h ∉ s.stuck

instance (s : State) (h : ℕ) : Decidable (s.Free h) := by unfold State.Free; infer_instance

/-- Entering `serialize_to_file(inst)`: the length of `exec_env_list` is read
(wamr.cpp:811-812). `bh_list_length` is a `uint32`. -/
def State.serialize (s : State) (caller inst : ℕ) : State :=
  { s with calls := s.calls ++ [⟨caller, inst, s.cluster.card, .entered⟩] }

/-- `sigtrap_handler` (wamr_export.cpp:499-518): the environment is `wamr->cur_env`,
whatever thread the signal hit. -/
def sigtrapHandler (cfg : Config) (s : State) (h : ℕ) : State :=
  let s := { s with callCount := s.callCount + 1 }
  if (cfg.snapshotThreshold ≠ 0 ∨ s.checkpoint) ∧
      (s.callCount ≥ cfg.snapshotThreshold ∨ s.checkpoint) then
    s.serialize h cfg.curEnv
  else s

/-- `sigint_handler` (wamr_export.cpp:558-570): the first one arms the traps, every
later one takes the snapshot. -/
def sigintHandler (cfg : Config) (s : State) (h : ℕ) : State :=
  if s.checkpoint then s.serialize h cfg.execEnv else { s with checkpoint := true }

/-- The counting of `serialize_to_file` (wamr.cpp:815-821). -/
def countCall (s : State) (i : ℕ) (c : Call) : State :=
  let t := s.park c.inst
  { t.setPhase i c .counted with
    asMtx := true
    shouldSnapshot := s.shouldSnapshot || t.ready == c.allCount }

/-- The test of `serialize_to_file` (wamr.cpp:952-956). -/
def testCall (s : State) (i : ℕ) (c : Call) : State :=
  if s.ready < c.allCount then { s.setPhase i c .asleep with asMtx := false }
  else s.setPhase i c .dumping

/-- One step of one thread. A signal can hit a thread whatever it is doing; everything
else a thread does by itself needs it to be free. -/
def step (cfg : Config) (s : State) : Label → Option State
  | .lightweightCheckpoint e =>
    if s.Free e.handle then
      if e.Counts then if s.asMtx = false then some (s.park e.handle) else none else some s
    else none
  | .lightweightUncheckpoint e =>
    if s.Free e.handle then
      if e.Counts then
        if s.asMtx = false then
          if s.lwcp e.handle = 0 then some { s with stuck := e.handle :: s.stuck }
          else some (s.unpark e.handle)
        else none
      else some s
    else none
  | .uncheckpointWake h =>
    if h ∈ s.stuck ∧ s.asMtx = false then
      some { s.unpark h with stuck := s.stuck.erase h }
    else none
  | .create parent child =>
    if s.Free parent ∧ child ∉ s.cluster ∧ s.cluster.card + 1 < 2 ^ 32 then
      some { s with cluster := insert child s.cluster }
    else none
  | .exit h => if s.Free h then some { s with cluster := s.cluster.erase h } else none
  | .sigtrap h => if s.Free h then some (sigtrapHandler cfg s h) else none
  | .sigint h => if h ∈ s.cluster then some (sigintHandler cfg s h) else none
  | .count i =>
    match s.calls[i]? with
    | some c => if c.phase = .entered ∧ s.asMtx = false then some (countCall s i c) else none
    | none => none
  | .test i =>
    match s.calls[i]? with
    | some c => if c.phase = .counted then some (testCall s i c) else none
    | none => none
  | .wake i =>
    match s.calls[i]? with
    | some c =>
      if c.phase = .asleep ∧ s.asMtx = false then
        some { s.setPhase i c .dumping with asMtx := true }
      else none
    | none => none

/-- A run starts with nobody counted; `should_snapshot` may already be set, as it is in
a restored process (wamr_wasi_context.cpp:190). -/
structure Initial (s : State) : Prop where
  calls : s.calls = []
  lwcp : ∀ h, s.lwcp h = 0
  ready : s.ready = 0
  asMtx : s.asMtx = false
  small : s.cluster.card < 2 ^ 32

def StartsDump (s t : State) : Prop :=
  ∃ (i : ℕ) (c d : Call), s.calls[i]? = some c ∧ c.phase ≠ .dumping ∧
    t.calls[i]? = some d ∧ d.phase = .dumping

/-- The threads of the cluster are all parked, and the snapshot flag is set. -/
def AllParked (s : State) : Prop := s.shouldSnapshot = true ∧ ∀ h ∈ s.cluster, 1 ≤ s.lwcp h

/-! ### Orderly runs -/

/-- The step counts nobody twice, no counted thread leaves, nobody has joined between
the reading of `all_count` and the test, and no wait ends without a notification. -/
def Orderly (s : State) : Label → Prop
  | .lightweightCheckpoint e => e.Counts → s.lwcp e.handle = 0
  | .count i => ∀ c, s.calls[i]? = some c → s.lwcp c.inst = 0 ∧ c.inst ∈ s.cluster
  | .test i => ∀ c, s.calls[i]? = some c → s.cluster.card ≤ c.allCount
  | .exit h => s.lwcp h = 0
  | .wake _ => False
  | .uncheckpointWake _ => False
  | _ => True

def State.parked (s : State) : Finset ℕ := s.cluster.filter fun h => s.lwcp h = 1

/-- In an orderly run `ready` is the number of parked threads of the cluster. -/
structure Inv (s : State) : Prop where
  small : s.cluster.card < 2 ^ 32
  entry : ∀ h, s.lwcp h = 0 ∨ s.lwcp h = 1
  member : ∀ h, s.lwcp h = 1 → h ∈ s.cluster
  ready : s.ready = s.parked.card
  locked : s.asMtx = false → ∀ c ∈ s.calls, c.phase ≠ .counted
  one : ∀ (i j : ℕ) (c d : Call), s.calls[i]? = some c → s.calls[j]? = some d →
    c.phase = .counted → d.phase = .counted → i = j
  flagged : ∀ c ∈ s.calls, c.phase = .counted → s.ready = c.allCount → s.shouldSnapshot = true

theorem Initial.inv {s : State} (h : Initial s) : Inv s where
  small := h.small
  entry g := .inl (h.lwcp g)
  member g hg := by rw [h.lwcp g] at hg; cases hg
  ready := by simp [h.ready, State.parked, h.lwcp]
  locked _ := by simp [h.calls]
  one := by simp [h.calls]
  flagged := by simp [h.calls]

theorem Inv.ready_le {s : State} (h : Inv s) : s.ready ≤ s.cluster.card :=
  h.ready ▸ Finset.card_filter_le _ _

theorem mem_parked {s : State} {h : ℕ} : h ∈ s.parked ↔ h ∈ s.cluster ∧ s.lwcp h = 1 :=
  Finset.mem_filter

theorem parked_park {s : State} {h : ℕ} (hs : s.lwcp h = 0) (hm : h ∈ s.cluster) :
    (s.park h).parked = insert h s.parked := by
  ext g
  by_cases hg : g = h
  · subst hg; simp [State.parked, State.park, hs, hm]
  · rw [Finset.mem_insert, or_iff_right hg]
    simp only [mem_parked, State.park, Function.update_of_ne hg]

theorem parked_unpark {s : State} {h : ℕ} (hs : s.lwcp h = 1) :
    (s.unpark h).parked = s.parked.erase h := by
  ext g
  by_cases hg : g = h
  · subst hg; simp [State.parked, State.unpark, hs]
  · simp only [mem_parked, State.unpark, Function.update_of_ne hg, Finset.mem_erase, hg,
      ne_eq, not_false_eq_true, true_and]

theorem sizeT_of_lt {n : ℕ} (h : n < 2 ^ 64) : sizeT n = n := Nat.mod_eq_of_lt h

theorem ready_park {s : State} {h : ℕ} (hi : Inv s) : (s.park h).ready = s.ready + 1 := by
  have := hi.ready_le
  have := hi.small
  exact sizeT_of_lt (by omega)

theorem ready_unpark {s : State} {h : ℕ} (hi : Inv s) (hpos : 0 < s.ready) :
    (s.unpark h).ready = s.ready - 1 := by
  have := hi.ready_le
  have := hi.small
  show (s.ready + (2 ^ 64 - 1)) % 2 ^ 64 = s.ready - 1
  omega

theorem Inv.park {s : State} (hi : Inv s) {h : ℕ} (hs : s.lwcp h = 0) (hm : h ∈ s.cluster)
    (hfree : s.asMtx = false) : Inv (s.park h) where
  small := hi.small
  entry g := by
    by_cases hg : g = h
    · subst hg; simp [State.park, hs]
    · simpa [State.park, hg] using hi.entry g
  member g hg := by
    by_cases he : g = h
    · exact he ▸ hm
    · exact hi.member g (by simpa [State.park, he] using hg)
  ready := by
    have hnot : h ∉ s.parked := by simp [mem_parked, hs]
    rw [ready_park hi, parked_park hs hm, Finset.card_insert_of_notMem hnot, hi.ready]
  locked := hi.locked
  one := hi.one
  flagged c hc hp := absurd hp (hi.locked hfree c hc)

theorem Inv.unpark {s : State} (hi : Inv s) {h : ℕ} (hs : s.lwcp h ≠ 0)
    (hfree : s.asMtx = false) : Inv (s.unpark h) := by
  have hone : s.lwcp h = 1 := (hi.entry h).resolve_left hs
  have hmem : h ∈ s.parked := mem_parked.mpr ⟨hi.member h hone, hone⟩
  have hpos : 0 < s.ready := hi.ready ▸ Finset.card_pos.mpr ⟨h, hmem⟩
  refine ⟨hi.small, fun g => ?_, fun g hg => ?_, ?_, hi.locked, hi.one,
    fun c hc hp => absurd hp (hi.locked hfree c hc)⟩
  · by_cases he : g = h
    · subst he; simp [State.unpark, hone]
    · simpa [State.unpark, he] using hi.entry g
  · by_cases he : g = h
    · subst he; simp [State.unpark, hone] at hg
    · exact hi.member g (by simpa [State.unpark, he] using hg)
  · rw [ready_unpark hi hpos, parked_unpark hone, Finset.card_erase_of_mem hmem, hi.ready]

theorem Inv.create {s : State} (hi : Inv s) {h : ℕ} (hn : h ∉ s.cluster)
    (hlt : s.cluster.card + 1 < 2 ^ 32) : Inv { s with cluster := insert h s.cluster } where
  small := by rw [Finset.card_insert_of_notMem hn]; exact hlt
  entry := hi.entry
  member g hg := Finset.mem_insert_of_mem (hi.member g hg)
  ready := by
    have hz : s.lwcp h ≠ 1 := fun h1 => hn (hi.member h h1)
    rw [hi.ready, State.parked, State.parked, Finset.filter_insert, if_neg hz]
  locked := hi.locked
  one := hi.one
  flagged := hi.flagged

theorem Inv.exit {s : State} (hi : Inv s) {h : ℕ} (hz : s.lwcp h = 0) :
    Inv { s with cluster := s.cluster.erase h } where
  small := Nat.lt_of_le_of_lt (Finset.card_erase_le) hi.small
  entry := hi.entry
  member g hg := by
    refine Finset.mem_erase.mpr ⟨fun he => ?_, hi.member g hg⟩
    rw [he, hz] at hg
    cases hg
  ready := by
    have hnot : h ∉ s.parked := by simp [mem_parked, hz]
    have hsame : ({ s with cluster := s.cluster.erase h } : State).parked = s.parked := by
      show (s.cluster.erase h).filter _ = s.cluster.filter _
      rw [Finset.filter_erase]
      exact Finset.erase_eq_of_notMem hnot
    rw [hsame]
    exact hi.ready
  locked := hi.locked
  one := hi.one
  flagged := hi.flagged

theorem Inv.ofCalls {s t : State} (hi : Inv s) (hc : t.cluster = s.cluster)
    (hl : t.lwcp = s.lwcp) (hr : t.ready = s.ready) (hsnap : t.shouldSnapshot = s.shouldSnapshot)
    (hlock : t.asMtx = false → ∀ c ∈ t.calls, c.phase ≠ .counted)
    (hcalls : ∀ (i : ℕ) (c : Call), t.calls[i]? = some c → c.phase = .counted →
      s.calls[i]? = some c) :
    Inv t where
  small := hc ▸ hi.small
  entry := hl ▸ hi.entry
  member := by rw [hl, hc]; exact hi.member
  ready := by rw [hr, hi.ready, State.parked, State.parked, hl, hc]
  locked := hlock
  one i j c d hci hdj hcp hdp := hi.one i j c d (hcalls i c hci hcp) (hcalls j d hdj hdp) hcp hdp
  flagged c hm hp := by
    obtain ⟨i, hic⟩ := List.mem_iff_getElem?.mp hm
    rw [hr, hsnap]
    exact hi.flagged c (List.mem_of_getElem? (hcalls i c hic hp)) hp

theorem Inv.serialize {s : State} (hi : Inv s) (h g : ℕ) : Inv (s.serialize h g) := by
  refine hi.ofCalls rfl rfl rfl rfl (fun hfree c hc => ?_) (fun i c hic hp => ?_)
  · rcases List.mem_append.mp hc with hold | hnew
    · exact hi.locked hfree c hold
    · rw [List.mem_singleton.mp hnew]
      exact Phase.noConfusion
  · by_cases hlt : i < s.calls.length
    · rwa [State.serialize, List.getElem?_append_left hlt] at hic
    · rw [State.serialize, List.getElem?_append_right (Nat.le_of_not_lt hlt)] at hic
      rw [List.mem_singleton.mp (List.mem_of_getElem? hic)] at hp
      cases hp

theorem Inv.sigtrap {s : State} (hi : Inv s) (cfg : Config) (h : ℕ) :
    Inv (sigtrapHandler cfg s h) := by
  have hcount : Inv { s with callCount := s.callCount + 1 } :=
    ⟨hi.small, hi.entry, hi.member, hi.ready, hi.locked, hi.one, hi.flagged⟩
  unfold sigtrapHandler
  simp only
  split
  · exact hcount.serialize h cfg.curEnv
  · exact hcount

theorem Inv.sigint {s : State} (hi : Inv s) (cfg : Config) (h : ℕ) :
    Inv (sigintHandler cfg s h) := by
  unfold sigintHandler
  split
  · exact hi.serialize h cfg.execEnv
  · exact ⟨hi.small, hi.entry, hi.member, hi.ready, hi.locked, hi.one, hi.flagged⟩

theorem Inv.count {s : State} (hi : Inv s) {i : ℕ} {c : Call} (hic : s.calls[i]? = some c)
    (hz : s.lwcp c.inst = 0) (hm : c.inst ∈ s.cluster) (hfree : s.asMtx = false) :
    Inv (countCall s i c) := by
  have hp : Inv (s.park c.inst) := hi.park hz hm hfree
  have hlt : i < s.calls.length := (List.getElem?_eq_some_iff.mp hic).1
  have hself : ∀ (j : ℕ) (d : Call), (countCall s i c).calls[j]? = some d → d.phase = .counted →
      j = i ∧ d = { c with phase := .counted } := by
    intro j d hjd hdp
    by_cases hj : i = j
    · subst hj
      have hd : some { c with phase := .counted } = some d := by
        rw [← hjd]
        simp [countCall, State.setPhase, State.park, hlt]
      exact ⟨rfl, (Option.some.inj hd).symm⟩
    · have hold : s.calls[j]? = some d := by
        rw [← hjd]
        simp [countCall, State.setPhase, State.park, List.getElem?_set_ne hj]
      exact absurd hdp (hi.locked hfree d (List.mem_of_getElem? hold))
  refine ⟨hp.small, hp.entry, hp.member, hp.ready, fun hlock => ?_, fun j k d e hj hk hdp hep => ?_,
    fun d hd hdp hall => ?_⟩
  · cases hlock
  · rw [(hself j d hj hdp).1, (hself k e hk hep).1]
  · obtain ⟨j, hj⟩ := List.mem_iff_getElem?.mp hd
    have hde : d = { c with phase := .counted } := (hself j d hj hdp).2
    subst hde
    have hall' : (s.park c.inst).ready = c.allCount := hall
    simp [countCall, hall']

theorem Inv.test {s : State} (hi : Inv s) {i : ℕ} {c : Call} (hic : s.calls[i]? = some c)
    (hcp : c.phase = .counted) : Inv (testCall s i c) := by
  have hlock : s.asMtx = true := by
    by_contra hfree
    exact hi.locked (Bool.eq_false_of_not_eq_true hfree) c (List.mem_of_getElem? hic) hcp
  have hlt : i < s.calls.length := (List.getElem?_eq_some_iff.mp hic).1
  have hgone : ∀ p, p ≠ .counted → ∀ (j : ℕ) (d : Call), (s.setPhase i c p).calls[j]? = some d →
      d.phase = .counted → s.calls[j]? = some d ∧ i ≠ j := by
    intro p hp j d hjd hdp
    by_cases hj : i = j
    · subst hj
      rw [State.setPhase, List.getElem?_set_self hlt] at hjd
      rw [← Option.some.inj hjd] at hdp
      exact absurd hdp hp
    · rw [State.setPhase, List.getElem?_set_ne hj] at hjd
      exact ⟨hjd, hj⟩
  unfold testCall
  split
  · refine hi.ofCalls rfl rfl rfl rfl (fun _ d hd hdp => ?_)
      fun j d hjd hdp => (hgone .asleep (by decide) j d hjd hdp).1
    obtain ⟨j, hjd⟩ := List.mem_iff_getElem?.mp hd
    obtain ⟨hold, hne⟩ := hgone .asleep (by decide) j d hjd hdp
    exact hne (hi.one i j c d hic hold hcp hdp)
  · refine hi.ofCalls rfl rfl rfl rfl (fun hfree => ?_)
      fun j d hjd hdp => (hgone .dumping (by decide) j d hjd hdp).1
    have hfree' : s.asMtx = false := hfree
    rw [hlock] at hfree'
    cases hfree'

theorem Inv.stuck {s : State} (hi : Inv s) (l : List ℕ) : Inv { s with stuck := l } :=
  ⟨hi.small, hi.entry, hi.member, hi.ready, hi.locked, hi.one, hi.flagged⟩

theorem inv_step (cfg : Config) (s : State) (l : Label) (t : State) (hi : Inv s)
    (hok : Orderly s l) (h : step cfg s l = some t) : Inv t := by
  cases l with
  | lightweightCheckpoint e =>
    simp only [step] at h
    split at h
    · rename_i hfree
      split at h
      · rename_i hcounts
        split at h
        · rename_i hmtx
          obtain rfl := Option.some.inj h
          exact hi.park (hok hcounts) hfree.1 hmtx
        · cases h
      · obtain rfl := Option.some.inj h
        exact hi
    · cases h
  | lightweightUncheckpoint e =>
    simp only [step] at h
    split at h
    · split at h
      · split at h
        · rename_i hmtx
          split at h
          · obtain rfl := Option.some.inj h
            exact hi.stuck _
          · rename_i hne
            obtain rfl := Option.some.inj h
            exact hi.unpark hne hmtx
        · cases h
      · obtain rfl := Option.some.inj h
        exact hi
    · cases h
  | uncheckpointWake g => exact hok.elim
  | create parent child =>
    obtain ⟨⟨_, hnew, hlt⟩, rfl⟩ := by simpa [step] using h
    exact hi.create hnew hlt
  | exit g =>
    obtain ⟨_, rfl⟩ := by simpa [step] using h
    exact hi.exit hok
  | sigtrap g =>
    obtain ⟨_, rfl⟩ := by simpa [step] using h
    exact hi.sigtrap cfg g
  | sigint g =>
    obtain ⟨_, rfl⟩ := by simpa [step] using h
    exact hi.sigint cfg g
  | count i =>
    simp only [step] at h
    split at h
    · rename_i c hic
      obtain ⟨⟨_, hmtx⟩, rfl⟩ := by simpa using h
      obtain ⟨hz, hm⟩ := hok c hic
      exact hi.count hic hz hm hmtx
    · cases h
  | test i =>
    simp only [step] at h
    split at h
    · rename_i c hic
      obtain ⟨hcp, rfl⟩ := by simpa using h
      exact hi.test hic hcp
    · cases h
  | wake i => exact hok.elim

/-! ### The dump -/

theorem Inv.all_parked {s : State} (hi : Inv s) (hge : s.cluster.card ≤ s.ready) :
    ∀ h ∈ s.cluster, 1 ≤ s.lwcp h := by
  intro h hm
  have hall : s.parked = s.cluster :=
    Finset.eq_of_subset_of_card_le (Finset.filter_subset _ _) (hi.ready ▸ hge)
  have hp : h ∈ s.parked := hall ▸ hm
  exact (mem_parked.mp hp).2 ▸ Int.le_refl 1

/-- If this step starts a dump, the threads are parked then. -/
def DumpsParked (cfg : Config) (s : State) (l : Label) : Prop :=
  ∀ t, step cfg s l = some t → StartsDump s t → AllParked t

theorem not_startsDump_of_calls {s t : State} (h : t.calls = s.calls) : ¬ StartsDump s t := by
  intro ⟨i, c, d, hic, hc, hid, hd⟩
  rw [h, hic] at hid
  exact hc (Option.some.inj hid ▸ hd)

theorem not_startsDump_serialize {s t : State} {h g : ℕ}
    (ht : t.calls = (s.serialize h g).calls) : ¬ StartsDump s t := by
  intro ⟨i, c, d, hic, hc, hid, hd⟩
  have hlt : i < s.calls.length := (List.getElem?_eq_some_iff.mp hic).1
  rw [ht, State.serialize, List.getElem?_append_left hlt, hic] at hid
  exact hc (Option.some.inj hid ▸ hd)

theorem not_startsDump_setPhase {s t : State} {j : ℕ} {c : Call} {p : Phase}
    (hp : p ≠ .dumping) (ht : t.calls = (s.setPhase j c p).calls) : ¬ StartsDump s t := by
  intro ⟨i, c', d, hic, hc, hid, hd⟩
  have hlt : i < s.calls.length := (List.getElem?_eq_some_iff.mp hic).1
  rw [ht, State.setPhase] at hid
  by_cases hij : j = i
  · subst hij
    rw [List.getElem?_set_self hlt] at hid
    obtain rfl := Option.some.inj hid
    exact hp hd
  · rw [List.getElem?_set_ne hij, hic] at hid
    exact hc (Option.some.inj hid ▸ hd)

theorem not_startsDump_sigtrap (cfg : Config) (s : State) (h : ℕ) :
    ¬ StartsDump s (sigtrapHandler cfg s h) := by
  unfold sigtrapHandler
  simp only
  split
  · exact not_startsDump_serialize (h := h) (g := cfg.curEnv) rfl
  · exact not_startsDump_of_calls rfl

theorem not_startsDump_sigint (cfg : Config) (s : State) (h : ℕ) :
    ¬ StartsDump s (sigintHandler cfg s h) := by
  unfold sigintHandler
  split
  · exact not_startsDump_serialize (h := h) (g := cfg.execEnv) rfl
  · exact not_startsDump_of_calls rfl

theorem startsDump_cases {cfg : Config} {s t : State} {l : Label} (h : step cfg s l = some t)
    (hd : StartsDump s t) :
    (∃ i c, l = .test i ∧ s.calls[i]? = some c ∧ c.phase = .counted ∧ c.allCount ≤ s.ready ∧
      t = s.setPhase i c .dumping) ∨ ∃ i, l = .wake i := by
  cases l with
  | test i =>
    simp only [step] at h
    split at h
    · rename_i c hic
      obtain ⟨hcp, rfl⟩ := by simpa using h
      by_cases hlt : s.ready < c.allCount
      · rw [testCall, if_pos hlt] at hd
        exact absurd hd (not_startsDump_setPhase (by decide) rfl)
      · exact .inl ⟨i, c, rfl, hic, hcp, Nat.le_of_not_lt hlt, by rw [testCall, if_neg hlt]⟩
    · cases h
  | wake i => exact .inr ⟨i, rfl⟩
  | count i =>
    simp only [step] at h
    split at h
    · rename_i c hic
      obtain ⟨_, rfl⟩ := by simpa using h
      exact absurd hd (not_startsDump_setPhase (j := i) (c := c) (p := .counted) (by decide) rfl)
    · cases h
  | sigtrap g =>
    obtain ⟨_, rfl⟩ := by simpa [step] using h
    exact absurd hd (not_startsDump_sigtrap cfg s g)
  | sigint g =>
    obtain ⟨_, rfl⟩ := by simpa [step] using h
    exact absurd hd (not_startsDump_sigint cfg s g)
  | lightweightCheckpoint e =>
    refine absurd hd (not_startsDump_of_calls ?_)
    simp only [step] at h
    split at h
    · split at h
      · split at h
        · obtain rfl := Option.some.inj h; rfl
        · cases h
      · obtain rfl := Option.some.inj h; rfl
    · cases h
  | lightweightUncheckpoint e =>
    refine absurd hd (not_startsDump_of_calls ?_)
    simp only [step] at h
    split at h
    · split at h
      · split at h
        · split at h <;> (obtain rfl := Option.some.inj h; rfl)
        · cases h
      · obtain rfl := Option.some.inj h; rfl
    · cases h
  | uncheckpointWake g =>
    obtain ⟨_, rfl⟩ := by simpa [step] using h
    exact absurd hd (not_startsDump_of_calls rfl)
  | create parent child =>
    obtain ⟨_, rfl⟩ := by simpa [step] using h
    exact absurd hd (not_startsDump_of_calls rfl)
  | exit g =>
    obtain ⟨_, rfl⟩ := by simpa [step] using h
    exact absurd hd (not_startsDump_of_calls rfl)

theorem orderly_dumpsParked (cfg : Config) (s : State) (l : Label) (hi : Inv s)
    (hok : Orderly s l) : DumpsParked cfg s l := by
  intro t h hd
  rcases startsDump_cases h hd with ⟨i, c, rfl, hic, hcp, hge, rfl⟩ | ⟨i, rfl⟩
  · have hcard : s.cluster.card ≤ c.allCount := hok c hic
    have hle : s.ready ≤ s.cluster.card := hi.ready_le
    have hready : s.ready = c.allCount := by omega
    exact ⟨hi.flagged c (List.mem_of_getElem? hic) hcp hready, hi.all_parked (by omega)⟩
  · exact hok.elim

/-- In every run of orderly steps the dump starts with the whole cluster parked and
`should_snapshot` set. -/
theorem dumps_parked_of_orderly (cfg : Config) (s : State) (ls : List Label) (hs : Initial s)
    (hok : Run.Along (step cfg) Orderly s ls) : Run.Along (step cfg) (DumpsParked cfg) s ls :=
  hok.imp_of_invariant Inv (inv_step cfg) (orderly_dumpsParked cfg) hs.inv

def twoThreads : State :=
  { cluster := {1, 2}, lwcp := fun _ => 0, ready := 0, asMtx := false, shouldSnapshot := false
    checkpoint := false, callCount := 0, calls := [], stuck := [] }

theorem twoThreads_initial : Initial twoThreads :=
  ⟨rfl, fun _ => rfl, rfl, rfl, by decide⟩

theorem dumps_parked_of_orderly_twoThreads :
    let ls := [.lightweightCheckpoint ⟨2, false, some 3⟩, .sigint 1, .sigint 1, .count 0, .test 0]
    (Run.exec (step ⟨1, 1, 0⟩) twoThreads ls).map (·.calls.map Call.phase) = some [.dumping] ∧
      Run.Along (step ⟨1, 1, 0⟩) (DumpsParked ⟨1, 1, 0⟩) twoThreads ls := by
  intro ls
  refine ⟨rfl, dumps_parked_of_orderly ⟨1, 1, 0⟩ twoThreads ls twoThreads_initial ?_⟩
  refine Run.Along.cons (fun _ => rfl) rfl ?_
  refine Run.Along.cons trivial rfl ?_
  refine Run.Along.cons trivial rfl ?_
  refine Run.Along.cons (fun c hc => ?_) rfl ?_
  · obtain rfl := Option.some.inj hc
    exact ⟨rfl, by decide⟩
  refine Run.Along.cons (fun c hc => ?_) rfl trivial
  obtain rfl := Option.some.inj hc
  decide

/-- Thread 1 is parked in a blocking call when the signals reach it: it is counted a
second time, and the dump starts while thread 2 runs. -/
theorem dump_counts_twice :
    ¬ ∀ (cfg : Config) (s : State) (ls : List Label), Initial s →
      Run.Along (step cfg) (DumpsParked cfg) s ls := by
  intro hclaim
  let ls : List Label :=
    [.lightweightCheckpoint ⟨1, false, some 3⟩, .sigint 1, .sigint 1, .count 0, .test 0]
  obtain ⟨_, h⟩ := hclaim ⟨1, 1, 0⟩ twoThreads ls twoThreads_initial
  obtain ⟨_, h⟩ := h _ rfl
  obtain ⟨_, h⟩ := h _ rfl
  obtain ⟨_, h⟩ := h _ rfl
  obtain ⟨htest, _⟩ := h _ rfl
  have hstart := htest _ rfl ⟨0, _, _, rfl, by decide, rfl, rfl⟩
  exact absurd (hstart.2 2 (by decide)) (by decide)

end MVVM.Checkpoint
