import MVVM.SyncOps.Log

/-!
# Logs of real executions

A guest with mutexes, condition variables and atomic waits, and the log that its run
leaves behind: a mutex operation is recorded when it takes effect, a wait when it starts
(wamr_export.cpp:322-338). A condition wait gives its mutex back without a record of its
own, and takes it again, also unrecorded, when it ends. An atomic wait that ends takes
every record with its `ref` out of the log again, whichever thread and operation it is
of (`insert_sync_op_atomic_wake`, wamr_export.cpp:339-349). That is no step here: an
atomic wait is one that is still going on when the log is written.
-/

namespace MVVM.SyncOps

/-- The guest-side state of the synchronisation objects. -/
structure Guest where
  -- the thread that holds a mutex
  held : ℕ → Option ℕ
  -- for a thread in a condition wait, the mutex it has to take again
  reacquire : ℕ → Option ℕ
  -- the threads in an atomic wait
  parked : List ℕ
  log : List SyncOpT

def Guest.init : Guest := ⟨fun _ => none, fun _ => none, [], []⟩

def Guest.Awake (g : Guest) (t : ℕ) : Prop := g.reacquire t = none ∧ t ∉ g.parked

instance (g : Guest) (t : ℕ) : Decidable (g.Awake t) := by unfold Guest.Awake; infer_instance

inductive GuestOp where
  | lock (t m : ℕ)
  | unlock (t m : ℕ)
  | condWait (t c m : ℕ)
  | condWake (t : ℕ)
  | signal (t c : ℕ)
  | broadcast (t c : ℕ)
  | atomicWait (t a expected : ℕ) (wait64 : Bool)
  | atomicNotify (t a count : ℕ)

/-- One operation of one guest thread. A condition wait may end at any time, since the
guest program has to cope with spurious wake-ups anyway. -/
def guestStep (g : Guest) : GuestOp → Option Guest
  | .lock t m =>
    if g.Awake t ∧ g.held m = none then
      some { g with
        held := Function.update g.held m (some t)
        log := g.log ++ [⟨t, m, .mutexLock, 0, false⟩] }
    else none
  | .unlock t m =>
    if g.Awake t ∧ g.held m = some t then
      some { g with
        held := Function.update g.held m none
        log := g.log ++ [⟨t, m, .mutexUnlock, 0, false⟩] }
    else none
  | .condWait t c m =>
    if g.Awake t ∧ g.held m = some t then
      some { g with
        held := Function.update g.held m none
        reacquire := Function.update g.reacquire t (some m)
        log := g.log ++ [⟨t, c, .condWait, 0, false⟩] }
    else none
  | .condWake t =>
    match g.reacquire t with
    | none => none
    | some m =>
      if g.held m = none then
        some { g with
          held := Function.update g.held m (some t)
          reacquire := Function.update g.reacquire t none }
      else none
  | .signal t c =>
    if g.Awake t then some { g with log := g.log ++ [⟨t, c, .condSignal, 0, false⟩] } else none
  | .broadcast t c =>
    if g.Awake t then some { g with log := g.log ++ [⟨t, c, .condBroadcast, 0, false⟩] } else none
  | .atomicWait t a expected wait64 =>
    if g.Awake t then
      some { g with
        parked := t :: g.parked
        log := g.log ++ [⟨t, a, .atomicWait, expected, wait64⟩] }
    else none
  | .atomicNotify t a count =>
    if g.Awake t then
      some { g with log := g.log ++ [⟨t, a, .atomicNotify, count, false⟩] }
    else none

/-- The log came from a real execution. -/
def Recorded (log : List SyncOpT) : Prop :=
  ∃ ops g, Run.exec guestStep Guest.init ops = some g ∧ g.log = log

/-! ### Mutexes in a log -/

def holderStep (m : ℕ) (o : Option ℕ) (e : SyncOpT) : Option ℕ :=
  if e.ref = m then
    match e.syncOp with
    | .mutexLock => some e.tid
    | .mutexUnlock => none
    | _ => o
  else o

def holder (m : ℕ) (log : List SyncOpT) : Option ℕ := log.foldl (holderStep m) none

theorem holder_append (m : ℕ) (log : List SyncOpT) (e : SyncOpT) :
    holder m (log ++ [e]) = holderStep m (holder m log) e := by
  simp [holder]

/-- As long as nothing has waited, the log knows who holds each mutex. -/
def Tracks (g : Guest) : Prop :=
  (∀ e ∈ g.log, ¬ e.IsWait) → (∀ t, g.reacquire t = none) ∧ ∀ m, holder m g.log = g.held m

/-- Up to its first wait, each lock of the log finds its mutex free. -/
def LocksFree (log : List SyncOpT) : Prop :=
  ∀ k e, log[k]? = some e → e.syncOp = .mutexLock → (∀ d ∈ log.take k, ¬ d.IsWait) →
    holder e.ref (log.take k) = none

theorem locksFree_append {log : List SyncOpT} {e : SyncOpT} (h : LocksFree log)
    (he : e.syncOp = .mutexLock → (∀ d ∈ log, ¬ d.IsWait) → holder e.ref log = none) :
    LocksFree (log ++ [e]) := by
  intro k d hk hlock hwait
  rcases Nat.lt_trichotomy k log.length with hlt | heq | hgt
  · rw [List.getElem?_append_left hlt] at hk
    rw [List.take_append_of_le_length (Nat.le_of_lt hlt)] at hwait ⊢
    exact h k d hk hlock hwait
  · subst heq
    simp only [List.getElem?_append_right (Nat.le_refl _), Nat.sub_self,
      List.getElem?_cons_zero, Option.some.injEq] at hk
    subst hk
    simp only [List.take_left] at hwait ⊢
    exact he hlock hwait
  · rw [List.getElem?_eq_none (by simp; omega)] at hk
    cases hk

theorem tracks_append {g : Guest} {e : SyncOpT} (h : Tracks g)
    (hl : e.syncOp ≠ .mutexLock) (hu : e.syncOp ≠ .mutexUnlock) :
    Tracks { g with log := g.log ++ [e] } := by
  intro hw
  have hg := h fun d hd => hw d (List.mem_append_left _ hd)
  refine ⟨hg.1, fun m => ?_⟩
  have hstep : holderStep m (holder m g.log) e = holder m g.log := by
    unfold holderStep
    split
    · cases hop : e.syncOp <;> simp_all
    · rfl
  show holder m (g.log ++ [e]) = g.held m
  rw [holder_append, hstep, hg.2 m]

theorem tracks_of_wait {g : Guest} {e : SyncOpT} (he : e ∈ g.log) (hw : e.IsWait) : Tracks g :=
  fun h => absurd hw (h e he)

theorem guestStep_inv {g g' : Guest} {op : GuestOp} (hg : Tracks g ∧ LocksFree g.log)
    (h : guestStep g op = some g') : Tracks g' ∧ LocksFree g'.log := by
  obtain ⟨ht, hf⟩ := hg
  cases op with
  | lock t m =>
    simp only [guestStep] at h
    split at h
    · next hc =>
      obtain rfl := (Option.some.inj h).symm
      constructor
      · intro hw
        have hg := ht fun d hd => hw d (List.mem_append_left _ hd)
        refine ⟨hg.1, fun m' => ?_⟩
        show holder m' (g.log ++ [_]) = Function.update g.held m (some t) m'
        rw [holder_append, hg.2 m']
        by_cases hm : m' = m
        · subst hm; simp [holderStep]
        · simp [holderStep, hm, Ne.symm hm]
      · exact locksFree_append hf fun _ hw => (((ht hw).2 m).trans hc.2)
    · cases h
  | unlock t m =>
    simp only [guestStep] at h
    split at h
    · obtain rfl := (Option.some.inj h).symm
      constructor
      · intro hw
        have hg := ht fun d hd => hw d (List.mem_append_left _ hd)
        refine ⟨hg.1, fun m' => ?_⟩
        show holder m' (g.log ++ [_]) = Function.update g.held m none m'
        rw [holder_append, hg.2 m']
        by_cases hm : m' = m
        · subst hm; simp [holderStep]
        · simp [holderStep, hm, Ne.symm hm]
      · exact locksFree_append hf fun hl => nomatch hl
    · cases h
  | condWait t c m =>
    simp only [guestStep] at h
    split at h
    · obtain rfl := (Option.some.inj h).symm
      exact ⟨tracks_of_wait (List.mem_append_right _ (List.mem_singleton_self _)) (.inl rfl),
        locksFree_append hf fun hl => nomatch hl⟩
    · cases h
  | condWake t =>
    simp only [guestStep] at h
    split at h
    · cases h
    · next m hm =>
      split at h
      · obtain rfl := (Option.some.inj h).symm
        refine ⟨fun hw => ?_, hf⟩
        have hnone := (ht hw).1 t
        rw [hm] at hnone
        cases hnone
      · cases h
  | signal t c =>
    simp only [guestStep] at h
    split at h
    · obtain rfl := (Option.some.inj h).symm
      exact ⟨tracks_append ht (by simp) (by simp), locksFree_append hf fun hl => nomatch hl⟩
    · cases h
  | broadcast t c =>
    simp only [guestStep] at h
    split at h
    · obtain rfl := (Option.some.inj h).symm
      exact ⟨tracks_append ht (by simp) (by simp), locksFree_append hf fun hl => nomatch hl⟩
    · cases h
  | atomicWait t a expected wait64 =>
    simp only [guestStep] at h
    split at h
    · obtain rfl := (Option.some.inj h).symm
      exact ⟨tracks_of_wait (List.mem_append_right _ (List.mem_singleton_self _)) (.inr rfl),
        locksFree_append hf fun hl => nomatch hl⟩
    · cases h
  | atomicNotify t a count =>
    simp only [guestStep] at h
    split at h
    · obtain rfl := (Option.some.inj h).symm
      exact ⟨tracks_append ht (by simp) (by simp), locksFree_append hf fun hl => nomatch hl⟩
    · cases h

theorem Recorded.locksFree {log : List SyncOpT} (h : Recorded log) : LocksFree log := by
  obtain ⟨ops, g, hrun, rfl⟩ := h
  have hinit : Tracks Guest.init ∧ LocksFree Guest.init.log :=
    ⟨fun _ => ⟨fun _ => rfl, fun _ => rfl⟩, fun k e hk => by simp [Guest.init] at hk⟩
  exact (Run.exec_invariant (fun g => Tracks g ∧ LocksFree g.log)
    (fun _ _ _ hs hst => guestStep_inv hs hst) _ _ ops hinit hrun).2

end MVVM.SyncOps
