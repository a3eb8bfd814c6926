import MVVM.Sorting
import Mathlib.Algebra.Order.Group.Int
import Mathlib.Data.List.Nodup
import Mathlib.Order.Nat
import Std.Data.TreeMap

/-!
# The order of the environments in a restore

The snapshot holds one environment for each thread of the cluster. `recover` sorts them by
the function of their outermost frames, restores the first into the main environment and
goes through the others in order.
-/

namespace MVVM.Threads

open Sorting

/-- A thread of the cluster at the snapshot: its handle, the functions of its frames from
the current one outwards, and the memories of its instance. -/
structure ClusterThread (Mem : Type) where
  handle : ℕ
  frames : List ℕ
  memories : List Mem

structure ExecEnv (Mem : Type) where
  curCount : ℕ
  frames : List ℕ
  memories : List Mem

variable {Mem : Type}

/-- `WAMRExecEnv::dump_impl`, with the memories that `WAMRModuleInstance::dump_impl` dumps
for the handle of `wamr->exec_env` alone. -/
def dumpEnv (main : ℕ) (t : ClusterThread Mem) : ExecEnv Mem :=
  ⟨t.handle, t.frames, if t.handle = main then t.memories else []⟩

/-- The loop of `serialize_to_file` over the cluster. -/
def dumpCluster (main : ℕ) (threads : List (ClusterThread Mem)) : List (ExecEnv Mem) :=
  threads.map (dumpEnv main)

/-- `frames.back()->function_index`, for an environment that has a frame. -/
def ExecEnv.outermost (e : ExecEnv Mem) : ℕ := e.frames.getLast?.getD 0

/-- The comparison by which `recover` sorts all environments. -/
def lessByFunction : ExecEnv Mem → ExecEnv Mem → Bool := lessBy ExecEnv.outermost

/-- `tid_start_arg_map[a->cur_count].second`. -/
def vtid (startArgs : Std.TreeMap ℕ (ℤ × ℤ)) (a : ExecEnv Mem) : ℤ :=
  (startArgs.getD a.curCount (0, 0)).2

def lessByVtid (startArgs : Std.TreeMap ℕ (ℤ × ℤ)) : ExecEnv Mem → ExecEnv Mem → Bool :=
  lessBy (vtid startArgs)

/-- `WAMRExecEnv::restore_impl` reads the first frame, except in AOT code. -/
def Restorable (isAot : Bool) (e : ExecEnv Mem) : Prop := isAot = true ∨ e.frames ≠ []

/-- What the sort of the children, which depends on the last environment, makes of them. -/
def ChildrenSorted (startArgs : Std.TreeMap ℕ (ℤ × ℤ)) (first : ExecEnv Mem)
    (rest rest' : List (ExecEnv Mem)) : Prop :=
  if ((first :: rest).getLast (List.cons_ne_nil _ _)).curCount ∈ startArgs then
    Sorts (lessByVtid startArgs) rest rest'
  else rest' = rest

/-- What `recover` may do with a snapshot before it calls `spawn_child`: it has the environments in
an order, of which it has restored the first, or a frame is read of an environment that has none.
The comparisons of a sort look at every element when there are two or more. What `spawn_child`
makes of the order is said by `spawnStep`. -/
inductive Recovers (isAot : Bool) (startArgs : Std.TreeMap ℕ (ℤ × ℤ)) (envs : List (ExecEnv Mem)) :
    Option (List (ExecEnv Mem)) → Prop
  | noFrame (e : ExecEnv Mem) : 2 ≤ envs.length → e ∈ envs → e.frames = [] →
      Recovers isAot startArgs envs none
  | notRestorable (first : ExecEnv Mem) (rest : List (ExecEnv Mem)) (e : ExecEnv Mem) :
      (2 ≤ envs.length → ∀ e ∈ envs, e.frames ≠ []) → Sorts lessByFunction envs (first :: rest) →
      e ∈ first :: rest → ¬ Restorable isAot e → Recovers isAot startArgs envs none
  | inOrder (first : ExecEnv Mem) (rest rest' : List (ExecEnv Mem)) :
      (2 ≤ envs.length → ∀ e ∈ envs, e.frames ≠ []) → Sorts lessByFunction envs (first :: rest) →
      ChildrenSorted startArgs first rest rest' → (∀ e ∈ first :: rest', Restorable isAot e) →
      Recovers isAot startArgs envs (some (first :: rest'))

/-- The environment of the main thread comes first, and each environment comes once. -/
def MainFirst (main : ExecEnv Mem) (envs : List (ExecEnv Mem)) :
    Option (List (ExecEnv Mem)) → Prop
  | none => False
  | some order => order.head? = some main ∧ order.Perm envs

/-! ### One thread, or several with a frame each -/

variable {isAot : Bool} {startArgs : Std.TreeMap ℕ (ℤ × ℤ)} {envs : List (ExecEnv Mem)}
  {main : ExecEnv Mem}

theorem exists_childrenSorted (startArgs : Std.TreeMap ℕ (ℤ × ℤ)) (first : ExecEnv Mem)
    (rest : List (ExecEnv Mem)) : ∃ rest', ChildrenSorted startArgs first rest rest' := by
  unfold ChildrenSorted
  split
  · exact exists_sorts (vtid startArgs) rest
  · exact ⟨rest, rfl⟩

theorem ChildrenSorted.perm {first : ExecEnv Mem} {rest rest' : List (ExecEnv Mem)}
    (h : ChildrenSorted startArgs first rest rest') : rest'.Perm rest := by
  unfold ChildrenSorted at h
  split at h
  · exact h.1
  · rw [h]

theorem Recovers.mainFirst {out : Option (List (ExecEnv Mem))}
    (h : Recovers isAot startArgs envs out) (hmain : main ∈ envs)
    (hframes : 2 ≤ envs.length → ∀ e ∈ envs, e.frames ≠ [])
    (hrestorable : ∀ e ∈ envs, Restorable isAot e)
    (hleast : ∀ e ∈ envs, e ≠ main → main.outermost < e.outermost) :
    MainFirst main envs out := by
  cases h with
  | noFrame e hlen he hnil => exact absurd hnil (hframes hlen e he)
  | notRestorable first rest e _ hsorts he hnot =>
    exact absurd (hrestorable e (hsorts.1.mem_iff.mp he)) hnot
  | inOrder first rest rest' _ hsorts hchildren _ =>
    have hhead : (first :: rest).head? = some main := head_of_sorts hsorts hmain hleast
    exact ⟨hhead, (List.Perm.cons first hchildren.perm).trans hsorts.1⟩

theorem exists_recovers {first : ExecEnv Mem} {rest : List (ExecEnv Mem)}
    (isAot : Bool) (startArgs : Std.TreeMap ℕ (ℤ × ℤ))
    (hframes : 2 ≤ envs.length → ∀ e ∈ envs, e.frames ≠ [])
    (hsorts : Sorts lessByFunction envs (first :: rest)) :
    ∃ out, Recovers isAot startArgs envs out ∧ ∀ order, out = some order →
      order.head? = some first ∧ ∀ e ∈ envs, Restorable isAot e := by
  by_cases hall : ∀ e ∈ first :: rest, Restorable isAot e
  · obtain ⟨rest', hchildren⟩ := exists_childrenSorted startArgs first rest
    have hperm : (first :: rest').Perm (first :: rest) := List.Perm.cons first hchildren.perm
    refine ⟨some (first :: rest'), .inOrder first rest rest' hframes hsorts hchildren
      fun e he => hall e (hperm.mem_iff.mp he), ?_⟩
    intro order h
    rw [← Option.some.inj h]
    exact ⟨rfl, fun e he => hall e (hsorts.1.mem_iff.mpr he)⟩
  · obtain ⟨e, he⟩ := Classical.not_forall.mp hall
    obtain ⟨hmem, hnot⟩ := Classical.not_imp.mp he
    exact ⟨none, .notRestorable first rest e hframes hsorts hmem hnot, fun _ h => nomatch h⟩

theorem exists_recovers_of_mem (isAot : Bool) (startArgs : Std.TreeMap ℕ (ℤ × ℤ))
    {e : ExecEnv Mem} (he : e ∈ envs) (hframes : 2 ≤ envs.length → ∀ e ∈ envs, e.frames ≠ []) :
    ∃ out, Recovers isAot startArgs envs out := by
  obtain ⟨ys, hys⟩ := exists_sorts ExecEnv.outermost envs
  cases ys with
  | nil => exact absurd (hys.1.mem_iff.mpr he) List.not_mem_nil
  | cons first rest =>
    obtain ⟨out, hout, -⟩ := exists_recovers isAot startArgs hframes hys
    exact ⟨out, hout⟩

theorem mainFirst_iff (hmain : main ∈ envs) :
    (∀ out, Recovers isAot startArgs envs out → MainFirst main envs out) ↔
      (2 ≤ envs.length → ∀ e ∈ envs, e.frames ≠ []) ∧ (∀ e ∈ envs, Restorable isAot e) ∧
        ∀ e ∈ envs, e ≠ main → main.outermost < e.outermost := by
  constructor
  · intro h
    have hframes : 2 ≤ envs.length → ∀ e ∈ envs, e.frames ≠ [] :=
      fun hlen e he hnil => h none (.noFrame e hlen he hnil)
    have hfirst : ∀ ys, Sorts lessByFunction envs ys →
        ys.head? = some main ∧ ∀ e ∈ envs, Restorable isAot e := by
      intro ys hys
      cases ys with
      | nil => exact absurd (hys.1.mem_iff.mpr hmain) List.not_mem_nil
      | cons first rest =>
        obtain ⟨out, hout, hhead⟩ := exists_recovers isAot startArgs hframes hys
        have hgood := h out hout
        cases out with
        | none => exact hgood.elim
        | some order =>
          obtain ⟨hfirst, hall⟩ := hhead order rfl
          exact ⟨hfirst.symm.trans hgood.1, hall⟩
    obtain ⟨ys, hys⟩ := exists_sorts ExecEnv.outermost envs
    refine ⟨hframes, (hfirst ys hys).2, fun e he hne => ?_⟩
    by_contra hle
    obtain ⟨zs, hzs, hhead⟩ := exists_sorts_head_ne he hne (Nat.le_of_not_lt hle)
    exact hhead (hfirst zs hzs).1
  · intro ⟨hframes, hrestorable, hleast⟩ out hout
    exact hout.mainFirst hmain hframes hrestorable hleast

/-! ### A cluster -/

def ClusterThread.outermost (t : ClusterThread Mem) : ℕ := t.frames.getLast?.getD 0

/-- The main environment comes first just when every thread has a frame (a lone thread of AOT code
needs none) and the main thread has a smaller outermost function than all others. -/
theorem mainFirst_cluster_iff (isAot : Bool) (startArgs : Std.TreeMap ℕ (ℤ × ℤ))
    (threads : List (ClusterThread Mem)) (main : ClusterThread Mem) (hmain : main ∈ threads)
    (hhandles : (threads.map ClusterThread.handle).Nodup) :
    (∀ out, Recovers isAot startArgs (dumpCluster main.handle threads) out →
        MainFirst (dumpEnv main.handle main) (dumpCluster main.handle threads) out) ↔
      ((threads.length = 1 ∧ isAot = true) ∨ ∀ t ∈ threads, t.frames ≠ []) ∧
        ∀ t ∈ threads, t ≠ main → main.outermost < t.outermost := by
  have hmem : dumpEnv main.handle main ∈ dumpCluster main.handle threads :=
    List.mem_map_of_mem hmain
  have hlen : (dumpCluster main.handle threads).length = threads.length := List.length_map _
  have hne : ∀ t ∈ threads, dumpEnv main.handle t = dumpEnv main.handle main ↔ t = main := by
    intro t ht
    refine ⟨fun h => ?_, fun h => by rw [h]⟩
    exact List.inj_on_of_nodup_map hhandles ht hmain (congrArg ExecEnv.curCount h)
  rw [mainFirst_iff hmem, hlen]
  have hleast : (∀ e ∈ dumpCluster main.handle threads, e ≠ dumpEnv main.handle main →
      (dumpEnv main.handle main).outermost < e.outermost) ↔
        ∀ t ∈ threads, t ≠ main → main.outermost < t.outermost := by
    rw [dumpCluster, List.forall_mem_map]
    refine forall₂_congr fun t ht => ?_
    rw [ne_eq, hne t ht]
    rfl
  have hframes : (∀ e ∈ dumpCluster main.handle threads, e.frames ≠ []) ↔
      ∀ t ∈ threads, t.frames ≠ [] := by
    rw [dumpCluster, List.forall_mem_map]
    rfl
  have hrestorable : (∀ e ∈ dumpCluster main.handle threads, Restorable isAot e) ↔
      isAot = true ∨ ∀ t ∈ threads, t.frames ≠ [] := by
    rw [← hframes]
    cases isAot <;> simp [Restorable]
  have hpos : 0 < threads.length := List.length_pos_of_mem hmain
  rw [hleast, hframes, hrestorable, ← and_assoc]
  refine and_congr_left fun _ => ⟨fun ⟨hmany, hor⟩ => ?_, fun hor => ?_⟩
  · by_cases hone : threads.length = 1
    · exact hor.imp_left fun haot => ⟨hone, haot⟩
    · exact .inr (hmany (by omega))
  · rcases hor with ⟨hone, haot⟩ | hall
    · exact ⟨fun hmany => by omega, .inl haot⟩
    · exact ⟨fun _ => hall, .inr hall⟩

end MVVM.Threads
