import MVVM.SyncOps.Replay

/-!
# The mutexes of a restored log (wamr.cpp:433-445)

The mutexes that a log uses have to be there before it is replayed. The main thread makes
them in the loop that rewrites the thread ids; the steps of this loop and those of the
replay are taken in any order here, whatever `thread_init` lets through.
-/

namespace MVVM.SyncOps

/-- The process: the records that the loop has walked, those that it has not, and the
replay. -/
structure Boot where
  remapped : Remap
  left : List SyncOpT
  replay : State

inductive BootLabel where
  | remap
  | replay (l : Label)

def Boot.start (log : List SyncOpT) : Boot := ⟨{}, log, State.init⟩

/-- The loop changes the log in place. -/
def bootStep (mayReturn : List (ℕ × RtCall) → ℕ → Bool) (threads : List ℕ) (tidMap : TidMap)
    (initRef : ℕ → ℕ) (b : Boot) : BootLabel → Option Boot
  | .remap =>
    match b.left with
    | [] => none
    | i :: left => some { b with remapped := remapStep tidMap initRef b.remapped i, left := left }
  | .replay l =>
    (step mayReturn threads (b.remapped.ops ++ b.left) b.replay l).map fun replay =>
      { b with replay := replay }

def SyncOpT.IsMutex (e : SyncOpT) : Prop := e.syncOp = .mutexLock ∨ e.syncOp = .mutexUnlock

instance (e : SyncOpT) : Decidable e.IsMutex := by unfold SyncOpT.IsMutex; infer_instance

/-- Each mutex of the log is initialised once. -/
def InitsOnce (log : List SyncOpT) (inits : List ℕ) : Prop :=
  ∀ ref, inits.count ref = if ∃ e ∈ log, e.IsMutex ∧ e.ref = ref then 1 else 0

structure MutexesReady (tidMap : TidMap) (initRef : ℕ → ℕ) (log : List SyncOpT) : Prop where
  once : InitsOnce log (remap tidMap initRef log).inits
  early : ∀ mayReturn threads ls b,
    Run.exec (bootStep mayReturn threads tidMap initRef) (Boot.start log) ls = some b →
      b.replay.started ≠ [] → InitsOnce log b.remapped.inits
  records : (remap tidMap initRef log).ops = log.map (SyncOpT.retid tidMap)

variable {tidMap : TidMap} {initRef : ℕ → ℕ} {log : List SyncOpT}

theorem initsOnce_nil_iff : InitsOnce log [] ↔ ∀ e ∈ log, ¬e.IsMutex := by
  constructor
  · intro h e he hmutex
    have hcount := h e.ref
    rw [List.count_nil, if_pos ⟨e, he, hmutex, rfl⟩] at hcount
    cases hcount
  · intro h ref
    rw [List.count_nil, if_neg]
    rintro ⟨e, he, hmutex, -⟩
    exact h e he hmutex

/-- `ref_map` is empty, and so nothing is ever found in it. -/
theorem remapStep_empty (tidMap : TidMap) (initRef : ℕ → ℕ) {r : Remap} (hmap : r.refMap = [])
    (hinits : r.inits = []) (i : SyncOpT) :
    (remapStep tidMap initRef r i).refMap = [] ∧ (remapStep tidMap initRef r i).inits = [] := by
  have hnone : (r.refMap.lookup (i.retid tidMap).ref).isSome = false := by
    rw [hmap]
    rfl
  simp only [remapStep, hnone]
  exact ⟨hmap, hinits⟩

theorem remap_inits (tidMap : TidMap) (initRef : ℕ → ℕ) (log : List SyncOpT) :
    (remap tidMap initRef log).inits = [] := by
  have hfold : ∀ r : Remap, r.refMap = [] → r.inits = [] →
      (log.foldl (remapStep tidMap initRef) r).inits = [] := by
    induction log with
    | nil => exact fun r _ hinits => hinits
    | cons i log ih =>
      intro r hmap hinits
      obtain ⟨hmap', hinits'⟩ := remapStep_empty tidMap initRef hmap hinits i
      exact ih _ hmap' hinits'
  exact hfold {} rfl rfl

theorem boot_inits {mayReturn : List (ℕ × RtCall) → ℕ → Bool} {threads : List ℕ} {b : Boot}
    {ls : List BootLabel}
    (h : Run.exec (bootStep mayReturn threads tidMap initRef) (Boot.start log) ls = some b) :
    b.remapped.inits = [] := by
  have hinv := Run.exec_invariant
    (fun b : Boot => b.remapped.refMap = [] ∧ b.remapped.inits = [])
    (fun b l b' hb hstep => ?_) (Boot.start log) b ls ⟨rfl, rfl⟩ h
  · exact hinv.2
  · cases l with
    | remap =>
      rw [bootStep] at hstep
      cases hleft : b.left with
      | nil =>
        rw [hleft] at hstep
        cases hstep
      | cons i left =>
        rw [hleft] at hstep
        obtain rfl := Option.some.inj hstep
        exact remapStep_empty tidMap initRef hb.1 hb.2 i
    | replay l =>
      rw [bootStep] at hstep
      obtain ⟨replay, -, rfl⟩ := Option.map_eq_some_iff.mp hstep
      exact hb

/-- The mutexes of a log are ready for its replay just when it has none: no mutex is ever
initialised. -/
theorem mutexes_ready_iff (tidMap : TidMap) (initRef : ℕ → ℕ) (log : List SyncOpT) :
    MutexesReady tidMap initRef log ↔ ∀ e ∈ log, ¬e.IsMutex := by
  constructor
  · intro h
    have honce := h.once
    rw [remap_inits] at honce
    exact initsOnce_nil_iff.mp honce
  · intro h
    have hnil := initsOnce_nil_iff.mpr h
    refine ⟨?_, fun mayReturn threads ls b hrun _ => ?_, remap_ops tidMap initRef log⟩
    · rw [remap_inits]
      exact hnil
    · rw [boot_inits hrun]
      exact hnil

/-- One thread locks and unlocks one mutex. -/
theorem mutex_not_initialised :
    ¬∀ (tidMap : TidMap) (initRef : ℕ → ℕ) (log : List SyncOpT),
      MutexesReady tidMap initRef log := by
  intro hclaim
  have honce := (hclaim id id [⟨1, 7, .mutexLock, 0, false⟩, ⟨1, 7, .mutexUnlock, 0, false⟩]).once 7
  rw [remap_inits] at honce
  exact absurd honce (by decide)

end MVVM.SyncOps
