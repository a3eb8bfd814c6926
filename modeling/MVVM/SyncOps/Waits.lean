import MVVM.SyncOps.Log
import Mathlib.Data.List.Nodup

/-!
# The records of the waits (wamr_export.cpp:322-349)

A wait on an address is recorded when it starts and taken out of the log when it ends. Its
`ref` is the offset of the address, that of a mutex operation the value of the mutex.
-/

namespace MVVM.SyncOps

def insertSyncOp (syncOps : List SyncOpT) (handle : ℕ) (mutex : UInt32) (locking : SyncOp) :
    List SyncOpT :=
  syncOps ++ [{ tid := handle, ref := mutex.toNat, syncOp := locking }]

def insertSyncOpAtomicWait (syncOps : List SyncOpT) (handle : ℕ) (offset : UInt32)
    (expected : ℕ) (wait64 : Bool) : List SyncOpT :=
  syncOps ++ [⟨handle, offset.toNat, .atomicWait, expected, wait64⟩]

/-- `std::remove_if` and `erase`. -/
def insertSyncOpAtomicWake (syncOps : List SyncOpT) (offset : UInt32) : List SyncOpT :=
  syncOps.filter fun op => op.ref ≠ offset.toNat

inductive SyncCall where
  | op (t : ℕ) (mutex : UInt32) (locking : SyncOp)
  | atomicWait (t : ℕ) (offset : UInt32) (expected : ℕ) (wait64 : Bool)
  | atomicWake (t : ℕ) (offset : UInt32)
  deriving DecidableEq, Repr

/-- The log, and what the threads have done: the waits that are going on and the mutex and
condition operations, both in the order of their calls. -/
structure Syncs where
  syncOps : List SyncOpT
  waiting : List SyncOpT
  done : List SyncOpT
  deriving DecidableEq, Repr

def Syncs.start : Syncs := ⟨[], [], []⟩

def Syncs.Waits (s : Syncs) (t : ℕ) : Prop := ∃ e ∈ s.waiting, e.tid = t

instance (s : Syncs) (t : ℕ) : Decidable (s.Waits t) := by unfold Syncs.Waits; infer_instance

/-- A thread that waits makes no call until it has woken, at the address where it waits. -/
def syncStep (s : Syncs) : SyncCall → Option Syncs
  | .op t mutex locking =>
    if ¬s.Waits t ∧ locking ≠ .atomicWait ∧ locking ≠ .atomicNotify then
      some { s with
        syncOps := insertSyncOp s.syncOps t mutex locking
        done := s.done ++ [{ tid := t, ref := mutex.toNat, syncOp := locking }] }
    else none
  | .atomicWait t offset expected wait64 =>
    if ¬s.Waits t then
      some { s with
        syncOps := insertSyncOpAtomicWait s.syncOps t offset expected wait64
        waiting := s.waiting ++ [⟨t, offset.toNat, .atomicWait, expected, wait64⟩] }
    else none
  | .atomicWake t offset =>
    if ∃ e ∈ s.waiting, e.tid = t ∧ e.ref = offset.toNat then
      some { s with
        syncOps := insertSyncOpAtomicWake s.syncOps offset
        waiting := s.waiting.filter fun e => e.tid ≠ t }
    else none

/-- The log has the records of the waits that are going on and, in their order, those of
all mutex and condition operations. -/
structure Kept (s : Syncs) : Prop where
  waits : (s.syncOps.filter fun e => e.syncOp = .atomicWait).Perm s.waiting
  others : (s.syncOps.filter fun e => e.syncOp ≠ .atomicWait) = s.done

/-- A thread that wakes is the only one that waits at the address, and no mutex or
condition operation has recorded the offset as its value. -/
def WakesAlone (s : Syncs) : SyncCall → Prop
  | .atomicWake t offset =>
    (∀ e ∈ s.waiting, e.ref = offset.toNat → e.tid = t) ∧ ∀ e ∈ s.done, e.ref ≠ offset.toNat
  | _ => True

/-- Each thread waits once. -/
structure Syncs.WellFormed (s : Syncs) : Prop where
  waits : ∀ e ∈ s.waiting, e.syncOp = .atomicWait
  once : (s.waiting.map SyncOpT.tid).Nodup

theorem wellFormed_step (s : Syncs) (c : SyncCall) (s' : Syncs) (hs : s.WellFormed)
    (h : syncStep s c = some s') : s'.WellFormed := by
  cases c with
  | op t mutex locking =>
    rw [syncStep] at h
    split at h
    · obtain rfl := Option.some.inj h
      exact ⟨hs.waits, hs.once⟩
    · cases h
  | atomicWait t offset expected wait64 =>
    rw [syncStep] at h
    split at h
    · next hfree =>
      obtain rfl := Option.some.inj h
      refine ⟨fun e he => ?_, ?_⟩
      · rcases List.mem_append.mp he with he | he
        · exact hs.waits e he
        · rw [List.mem_singleton.mp he]
      · rw [List.map_append, List.map_singleton]
        refine hs.once.append (List.nodup_singleton t) (List.disjoint_singleton.mpr fun hmem => ?_)
        exact hfree (List.mem_map.mp hmem)
    · cases h
  | atomicWake t offset =>
    rw [syncStep] at h
    split at h
    · obtain rfl := Option.some.inj h
      exact ⟨fun e he => hs.waits e (List.mem_filter.mp he).1,
        hs.once.sublist (List.filter_sublist.map SyncOpT.tid)⟩
    · cases h

theorem kept_append {s : Syncs} (hs : Kept s) {e : SyncOpT} (he : e.syncOp ≠ .atomicWait) :
    Kept { s with syncOps := s.syncOps ++ [e], done := s.done ++ [e] } where
  waits := by simpa [he] using hs.waits
  others := by simpa [he] using hs.others

theorem kept_append_wait {s : Syncs} (hs : Kept s) {e : SyncOpT} (he : e.syncOp = .atomicWait) :
    Kept { s with syncOps := s.syncOps ++ [e], waiting := s.waiting ++ [e] } where
  waits := by
    rw [List.filter_append, List.filter_singleton, he]
    exact hs.waits.append_right [e]
  others := by simpa [he] using hs.others

/-- Of the thread that has woken there is one record among those of the waits. -/
theorem tid_eq_iff_ref_eq {s : Syncs} (hs : s.WellFormed) {t ref : ℕ}
    (hwaits : ∃ e ∈ s.waiting, e.tid = t ∧ e.ref = ref)
    (halone : ∀ e ∈ s.waiting, e.ref = ref → e.tid = t) {e : SyncOpT} (he : e ∈ s.waiting) :
    e.ref = ref ↔ e.tid = t := by
  obtain ⟨d, hd, hdt, hdref⟩ := hwaits
  refine ⟨halone e he, fun het => ?_⟩
  have heq : e = d := List.inj_on_of_nodup_map hs.once he hd (het.trans hdt.symm)
  rw [heq, hdref]

theorem kept_wake_iff {s : Syncs} (hs : s.WellFormed) (hkept : Kept s) {t : ℕ} {offset : UInt32}
    (hwaits : ∃ e ∈ s.waiting, e.tid = t ∧ e.ref = offset.toNat) :
    Kept { s with
        syncOps := insertSyncOpAtomicWake s.syncOps offset
        waiting := s.waiting.filter fun e => e.tid ≠ t } ↔
      WakesAlone s (.atomicWake t offset) := by
  have hsplit : ∀ p : SyncOpT → Bool, (insertSyncOpAtomicWake s.syncOps offset).filter p =
      (s.syncOps.filter p).filter fun op => op.ref ≠ offset.toNat := by
    intro p
    rw [insertSyncOpAtomicWake, List.filter_comm]
  constructor
  · intro hafter
    have hwaits' := hafter.waits
    have hothers' := hafter.others
    rw [hsplit] at hwaits' hothers'
    simp only [hkept.others] at hothers'
    refine ⟨fun e he href => ?_, fun e he => ?_⟩
    · by_contra hne
      have hmem := ((hkept.waits.filter _).symm.trans hwaits').mem_iff.mpr
        (List.mem_filter.mpr ⟨he, by simpa using hne⟩)
      simp [href] at hmem
    · have hall := List.filter_eq_self.mp hothers' e he
      simpa using hall
  · intro ⟨halone, hfree⟩
    refine ⟨?_, ?_⟩
    · rw [hsplit]
      refine (hkept.waits.filter _).trans (List.Perm.of_eq (List.filter_congr fun e he => ?_))
      have hiff := tid_eq_iff_ref_eq hs hwaits halone he
      simp [hiff]
    · rw [hsplit]
      simp only [hkept.others]
      exact List.filter_eq_self.mpr fun e he => by simpa using hfree e he

theorem kept_step_iff (s : Syncs) (c : SyncCall) (s' : Syncs) (hs : s.WellFormed)
    (hkept : Kept s) (h : syncStep s c = some s') : Kept s' ↔ WakesAlone s c := by
  cases c with
  | op t mutex locking =>
    rw [syncStep] at h
    split at h
    · next hop =>
      obtain rfl := Option.some.inj h
      exact iff_of_true (kept_append hkept hop.2.1) trivial
    · cases h
  | atomicWait t offset expected wait64 =>
    rw [syncStep] at h
    split at h
    · obtain rfl := Option.some.inj h
      exact iff_of_true (kept_append_wait hkept rfl) trivial
    · cases h
  | atomicWake t offset =>
    rw [syncStep] at h
    split at h
    · next hwaits =>
      obtain rfl := Option.some.inj h
      exact kept_wake_iff hs hkept hwaits
    · cases h

/-- The records are right in all states of a run just when every thread that wakes is alone
with its address. -/
theorem records_kept_iff (calls : List SyncCall) (s : Syncs)
    (h : Run.exec syncStep Syncs.start calls = some s) :
    Run.Throughout syncStep Kept Syncs.start calls ↔
      Run.Along syncStep WakesAlone Syncs.start calls :=
  Run.throughout_iff_along Syncs.WellFormed Kept wellFormed_step kept_step_iff
    ⟨fun _ he => (List.not_mem_nil he).elim, List.nodup_nil⟩ ⟨List.Perm.nil, rfl⟩ h

def waitAndLock : List SyncCall :=
  [.atomicWait 1 64 0 false, .op 2 7 .mutexLock, .atomicWake 1 64]

theorem records_kept_iff_lock :
    Run.Throughout syncStep Kept Syncs.start waitAndLock ↔
      Run.Along syncStep WakesAlone Syncs.start waitAndLock := by
  obtain ⟨s, hs⟩ : ∃ s, Run.exec syncStep Syncs.start waitAndLock = some s := ⟨_, rfl⟩
  exact records_kept_iff waitAndLock s hs

/-- Two threads wait at one address; when the first wakes, the record of the second is
gone. -/
theorem other_wait_erased :
    ¬∀ (calls : List SyncCall) (s : Syncs), Run.exec syncStep Syncs.start calls = some s →
      Run.Throughout syncStep Kept Syncs.start calls := by
  intro hclaim
  obtain ⟨s, hs, hops, hwaiting⟩ : ∃ s, Run.exec syncStep Syncs.start
      [.atomicWait 1 64 0 false, .atomicWait 2 64 0 false, .atomicWake 1 64] = some s ∧
      s.syncOps = [] ∧ s.waiting = [⟨2, 64, .atomicWait, 0, false⟩] := ⟨_, rfl, rfl, rfl⟩
  have hkept := hclaim _ s hs _ [] s (List.append_nil _).symm hs
  have hlen := hkept.waits.length_eq
  rw [hops, hwaiting] at hlen
  exact absurd hlen (by decide)

end MVVM.SyncOps
