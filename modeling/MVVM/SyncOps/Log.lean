import MVVM.Run

/-!
# The log of synchronisation operations (wamr_export.h, wamr.cpp)

The instrumented runtime appends one `sync_op_t` for each pthread or atomic operation
of the guest. After a restore the main thread rewrites the recorded thread ids to the
handles of the new threads, and all threads replay the log together. This file has the
records, the rewriting loop of `replay_sync_ops`, and the runtime calls that the
`switch` of the replay loop makes.
-/

namespace MVVM.SyncOps

/-- `enum sync_op` (wamr_export.h:32-40). -/
inductive SyncOp where
  | mutexLock
  | mutexUnlock
  | condWait
  | condSignal
  | condBroadcast
  | atomicWait
  | atomicNotify
  deriving DecidableEq, Repr

/-- `struct sync_op_t` (wamr_export.h:42-48). -/
structure SyncOpT where
  tid : ℕ
  ref : ℕ
  syncOp : SyncOp
  expected : ℕ := 0
  wait64 : Bool := false
  deriving DecidableEq, Repr

/-- The operations that start with the thread going to sleep. -/
def SyncOpT.IsWait (e : SyncOpT) : Prop := e.syncOp = .condWait ∨ e.syncOp = .atomicWait

instance (e : SyncOpT) : Decidable e.IsWait := by unfold SyncOpT.IsWait; infer_instance

/-- `tid_map` as its `operator[]` reads it: 0 for a thread that was never mapped. -/
abbrev TidMap := ℕ → ℕ

/-! ### Remapping -/

/-- The record with its thread id rewritten (wamr.cpp:437). -/
def SyncOpT.retid (tidMap : TidMap) (e : SyncOpT) : SyncOpT := { e with tid := tidMap e.tid }

@[simp] theorem retid_tid (tidMap : TidMap) (e : SyncOpT) : (e.retid tidMap).tid = tidMap e.tid :=
  rfl

@[simp] theorem retid_ref (tidMap : TidMap) (e : SyncOpT) : (e.retid tidMap).ref = e.ref := rfl

@[simp] theorem retid_syncOp (tidMap : TidMap) (e : SyncOpT) :
    (e.retid tidMap).syncOp = e.syncOp := rfl

structure Remap where
  refMap : List (ℕ × ℕ) := []
  ops : List SyncOpT := []
  inits : List ℕ := []

/-- One round of the remapping loop (wamr.cpp:435-442). `initRef` is the handle that
`pthread_mutex_init_wrapper` stores through the pointer it is given. -/
def remapStep (tidMap : TidMap) (initRef : ℕ → ℕ) (r : Remap) (i : SyncOpT) : Remap :=
  let i := i.retid tidMap
  if (r.refMap.lookup i.ref).isSome then
    let j := { i with ref := initRef i.ref }
    ⟨(j.ref, j.tid) :: r.refMap, r.ops ++ [j], r.inits ++ [i.ref]⟩
  else
    { r with ops := r.ops ++ [i] }

/-- The remapping loop of `replay_sync_ops(true, _)` (wamr.cpp:433-442). -/
def remap (tidMap : TidMap) (initRef : ℕ → ℕ) (log : List SyncOpT) : Remap :=
  log.foldl (remapStep tidMap initRef) {}

theorem remap_foldl (tidMap : TidMap) (initRef : ℕ → ℕ) (log : List SyncOpT) (r : Remap)
    (h : r.refMap = []) :
    log.foldl (remapStep tidMap initRef) r =
      { r with ops := r.ops ++ log.map (SyncOpT.retid tidMap) } := by
  induction log generalizing r with
  | nil => simp
  | cons e log ih =>
    have hstep : remapStep tidMap initRef r e =
        { r with ops := r.ops ++ [e.retid tidMap] } := by
      simp [remapStep, h]
    rw [List.foldl_cons, hstep, ih { r with ops := r.ops ++ [e.retid tidMap] } h]
    simp

theorem remap_ops (tidMap : TidMap) (initRef : ℕ → ℕ) (log : List SyncOpT) :
    (remap tidMap initRef log).ops = log.map (SyncOpT.retid tidMap) := by
  simp [remap, remap_foldl]

theorem remap_getElem? (tidMap : TidMap) (initRef : ℕ → ℕ) (log : List SyncOpT) (k : ℕ) :
    (remap tidMap initRef log).ops[k]? = log[k]?.map (SyncOpT.retid tidMap) := by
  rw [remap_ops, List.getElem?_map]

/-! ### Runtime calls -/

/-- The runtime functions that a synchronisation operation is about. -/
inductive RtCall where
  | mutexLock (ref : ℕ)
  | mutexUnlock (ref : ℕ)
  | condWait (ref : ℕ)
  | condSignal (ref : ℕ)
  | condBroadcast (ref : ℕ)
  | atomicWait (ref expected : ℕ) (wait64 : Bool)
  | atomicNotify (ref count : ℕ)
  deriving DecidableEq, Repr

/-- The `switch` of the replay loop (wamr.cpp:460-484); a notify entry is passed over. -/
def dispatch (e : SyncOpT) : Option RtCall :=
  match e.syncOp with
  | .mutexLock => some (.mutexLock e.ref)
  | .mutexUnlock => some (.mutexUnlock e.ref)
  | .condWait => some (.condWait e.ref)
  | .condSignal => some (.condSignal e.ref)
  | .condBroadcast => some (.condBroadcast e.ref)
  | .atomicWait => some (.atomicWait e.ref e.expected e.wait64)
  | .atomicNotify => none

@[simp] theorem dispatch_retid (tidMap : TidMap) (e : SyncOpT) :
    dispatch (e.retid tidMap) = dispatch e := rfl

end MVVM.SyncOps
