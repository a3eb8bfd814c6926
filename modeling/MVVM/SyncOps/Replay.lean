import MVVM.SyncOps.Log

/-!
# Replaying the log (wamr.cpp:450-492)

The second part of `replay_sync_ops`: every thread takes `syncop_mutex`, looks at the
entry under `sync_iter`, performs it if it is its own, and otherwise sleeps on
`syncop_cv`. The steps below are the points where threads can interleave. What the
runtime does with a call is a parameter: `mayReturn calls n` says whether, once the
calls `calls` have been entered, number `n` of them can come back.
-/

namespace MVVM.SyncOps

/-- Where a thread is in `replay_sync_ops`. -/
inductive Pc where
  -- before `os_mutex_lock(&syncop_mutex)`
  | outside
  -- at the head of the `while`, holding `syncop_mutex`
  | head
  -- inside the `switch` for entry `k`; its runtime call, if it makes one, is number `n`
  | inOp (k n : ℕ)
  -- in `os_cond_reltimedwait`, which gives `syncop_mutex` back
  | waiting
  -- past `os_mutex_unlock(&syncop_mutex)`
  | left
  deriving DecidableEq, Repr

structure State where
  -- `sync_iter`, as an index
  iter : ℕ
  -- the thread that holds `syncop_mutex`
  owner : Option ℕ
  pc : ℕ → Pc
  -- the entries taken so far, each with the handle of the thread that took it
  started : List (ℕ × ℕ)
  -- the runtime calls entered so far, each with the calling handle
  calls : List (ℕ × RtCall)

def State.setPc (s : State) (h : ℕ) (p : Pc) : State :=
  { s with pc := Function.update s.pc h p }

def State.init : State := ⟨0, none, fun _ => .outside, [], []⟩

inductive Label where
  | lock (h : ℕ)
  -- the test of the `while` and, on an entry of its own, the start of the operation
  | test (h : ℕ)
  -- the operation comes back, `os_cond_signal(&syncop_cv)`
  | ret (h : ℕ)
  -- `os_cond_reltimedwait` comes back: signalled, timed out or spuriously
  | wake (h : ℕ)
  deriving DecidableEq, Repr

/-- The thread takes entry `e` under `sync_iter` and enters its runtime call. -/
def State.startOp (s : State) (h : ℕ) (e : SyncOpT) : State :=
  { s with
    iter := s.iter + 1
    pc := Function.update s.pc h (.inOp s.iter s.calls.length)
    started := s.started ++ [(h, s.iter)]
    calls := s.calls ++ ((dispatch e).map fun c => (h, c)).toList }

/-- One step of one thread; `threads` are the handles that run `replay_sync_ops`. -/
def step (mayReturn : List (ℕ × RtCall) → ℕ → Bool) (threads : List ℕ) (ops : List SyncOpT)
    (s : State) : Label → Option State
  | .lock h =>
    if h ∈ threads ∧ s.pc h = .outside ∧ s.owner = none then
      some { s.setPc h .head with owner := some h }
    else none
  | .test h =>
    if s.pc h = .head then
      match ops[s.iter]? with
      | none => some { s.setPc h .left with owner := none }
      | some e =>
        if e.tid = h then some (s.startOp h e)
        else some { s.setPc h .waiting with owner := none }
    else none
  | .ret h =>
    match s.pc h with
    | .inOp k n =>
      match ops[k]? with
      | none => none
      | some e =>
        if dispatch e = none ∨ mayReturn s.calls n = true then some (s.setPc h .head) else none
    | _ => none
  | .wake h =>
    if s.pc h = .waiting ∧ s.owner = none then
      some { s.setPc h .head with owner := some h }
    else none

/-! ### What a step can do -/

variable {mayReturn : List (ℕ × RtCall) → ℕ → Bool} {threads : List ℕ} {ops : List SyncOpT}

theorem step_cases {s t : State} {l : Label} (h : step mayReturn threads ops s l = some t) :
    (∃ g, (s.pc g = .outside ∧ g ∈ threads ∨ s.pc g = .waiting) ∧ s.owner = none ∧
        t = { s.setPc g .head with owner := some g }) ∨
    (∃ g, s.pc g = .head ∧ (ops[s.iter]? = none ∧ t = { s.setPc g .left with owner := none } ∨
        (∃ e, ops[s.iter]? = some e ∧ e.tid ≠ g) ∧
          t = { s.setPc g .waiting with owner := none })) ∨
    (∃ g k n e, s.pc g = .inOp k n ∧ ops[k]? = some e ∧
        (dispatch e = none ∨ mayReturn s.calls n = true) ∧ t = s.setPc g .head) ∨
    (∃ e, s.pc e.tid = .head ∧ ops[s.iter]? = some e ∧ t = s.startOp e.tid e) := by
  cases l with
  | lock g =>
    simp only [step] at h
    split at h
    · next hc => exact .inl ⟨g, .inl ⟨hc.2.1, hc.1⟩, hc.2.2, (Option.some.inj h).symm⟩
    · cases h
  | test g =>
    simp only [step] at h
    split at h
    · next hpc =>
      split at h
      · next hn => exact .inr (.inl ⟨g, hpc, .inl ⟨hn, (Option.some.inj h).symm⟩⟩)
      · next e he =>
        split at h
        · next htid =>
          subst htid
          exact .inr (.inr (.inr ⟨e, hpc, he, (Option.some.inj h).symm⟩))
        · next htid =>
          exact .inr (.inl ⟨g, hpc, .inr ⟨⟨e, he, htid⟩, (Option.some.inj h).symm⟩⟩)
    · cases h
  | ret g =>
    simp only [step] at h
    split at h
    · next k n hpc =>
      split at h
      · cases h
      · next e he =>
        split at h
        · next hr => exact .inr (.inr (.inl ⟨g, k, n, e, hpc, he, hr, (Option.some.inj h).symm⟩))
        · cases h
    · cases h
  | wake g =>
    simp only [step] at h
    split at h
    · next hc => exact .inl ⟨g, .inr hc.1, hc.2, (Option.some.inj h).symm⟩
    · cases h

/-! ### The order of the replay -/

/-- The entries taken are the first `sync_iter` ones, in order, each by the thread named
in the rewritten log, and the calls made are those of these entries. -/
structure Ordered (ops : List SyncOpT) (s : State) : Prop where
  indices : s.started.map Prod.snd = List.range s.iter
  bound : s.iter ≤ ops.length
  own : ∀ p ∈ s.started, ∃ e, ops[p.2]? = some e ∧ e.tid = p.1
  calls : s.calls = s.started.filterMap fun p => (ops[p.2]?.bind dispatch).map fun c => (p.1, c)

theorem ordered_init (ops : List SyncOpT) : Ordered ops State.init :=
  ⟨rfl, Nat.zero_le _, by simp [State.init], rfl⟩

theorem ordered_startOp {s : State} {e : SyncOpT} (hs : Ordered ops s)
    (he : ops[s.iter]? = some e) : Ordered ops (s.startOp e.tid e) where
  indices := by simp [State.startOp, hs.indices, List.range_succ]
  bound := (List.getElem?_eq_some_iff.mp he).1
  own p hp := by
    rcases List.mem_append.mp hp with hp | hp
    · exact hs.own p hp
    · obtain rfl : p = (e.tid, s.iter) := List.mem_singleton.mp hp
      exact ⟨e, he, rfl⟩
  calls := by
    have hnew : ((ops[s.iter]?.bind dispatch).map fun c => (e.tid, c)) =
        (dispatch e).map fun c => (e.tid, c) := by rw [he]; rfl
    simp only [State.startOp, List.filterMap_append, ← hs.calls]
    congr 1
    cases hd : dispatch e with
    | none => simp [he, hd]
    | some c => simp [he, hd]

theorem ordered_step {s t : State} {l : Label} (hs : Ordered ops s)
    (h : step mayReturn threads ops s l = some t) : Ordered ops t := by
  rcases step_cases h with ⟨g, _, _, rfl⟩ | ⟨g, _, ⟨_, rfl⟩ | ⟨_, rfl⟩⟩ |
    ⟨g, k, n, e, _, _, _, rfl⟩ | ⟨e, _, he, rfl⟩
  · exact ⟨hs.indices, hs.bound, hs.own, hs.calls⟩
  · exact ⟨hs.indices, hs.bound, hs.own, hs.calls⟩
  · exact ⟨hs.indices, hs.bound, hs.own, hs.calls⟩
  · exact ⟨hs.indices, hs.bound, hs.own, hs.calls⟩
  · exact ordered_startOp hs he

theorem ordered_exec {s : State} {ls : List Label}
    (h : Run.exec (step mayReturn threads ops) State.init ls = some s) : Ordered ops s :=
  Run.exec_invariant (Ordered ops) (fun _ _ _ hs hst => ordered_step hs hst) _ _ ls
    (ordered_init ops) h

/-- In every interleaving of any number of threads, the entries started so far are a
prefix of the recorded log, in its order and each once, every one of them by the thread
whose handle is `tid_map` of the recorded tid; the runtime calls made are those of the
started entries, in the same order. -/
theorem replay_follows_log (mayReturn : List (ℕ × RtCall) → ℕ → Bool) (threads : List ℕ)
    (tidMap : TidMap) (initRef : ℕ → ℕ) (log : List SyncOpT) (ls : List Label) (s : State)
    (h : Run.exec (step mayReturn threads (remap tidMap initRef log).ops) State.init ls =
      some s) :
    s.started.map Prod.snd = List.range s.iter ∧ s.iter ≤ log.length ∧
      (∀ p ∈ s.started, ∃ e, log[p.2]? = some e ∧ p.1 = tidMap e.tid) ∧
      s.calls = s.started.filterMap fun p => (log[p.2]?.bind dispatch).map fun c => (p.1, c) := by
  have hs := ordered_exec h
  refine ⟨hs.indices, ?_, ?_, ?_⟩
  · simpa [remap_ops] using hs.bound
  · intro p hp
    obtain ⟨e, he, htid⟩ := hs.own p hp
    rw [remap_getElem?] at he
    obtain ⟨e₀, he₀, rfl⟩ := Option.map_eq_some_iff.mp he
    exact ⟨e₀, he₀, htid.symm⟩
  · rw [hs.calls]
    congr 1
    funext p
    rw [remap_getElem?]
    cases log[p.2]? <;> rfl

theorem replay_follows_log_two_threads :
    let log : List SyncOpT := [⟨2, 7, .mutexLock, 0, false⟩, ⟨1, 7, .atomicNotify, 0, false⟩]
    let tidMap : TidMap := fun t => 10 * t
    ∀ s, Run.exec (step (fun _ _ => true) [10, 20] (remap tidMap id log).ops) State.init
        [.lock 10, .test 10, .lock 20, .test 20, .ret 20, .test 20, .wake 10, .test 10] = some s →
      s.started = [(20, 0), (10, 1)] ∧ s.started.map Prod.snd = List.range s.iter := by
  intro log tidMap s h
  refine ⟨?_, (replay_follows_log _ _ tidMap id log _ s h).1⟩
  obtain rfl := Option.some.inj h
  rfl

end MVVM.SyncOps
