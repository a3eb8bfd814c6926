import MVVM.Threads.Recover
import MVVM.Wasi.Threads
import Mathlib.Data.List.Nodup

/-!
# Which clusters are restored whole (wamr.cpp:497-548, 562-628)

The snapshot has the threads and, in a map of `int`, the parent of each. `recover` sorts the
threads by their outermost functions, and `spawn_child` goes through them in this order. A thread
is created when its parent, as the restored map has it, is the main thread or comes before it.
-/

namespace MVVM.Threads

open Sorting

variable {Mem : Type} {isAot : Bool} {threads : List (ClusterThread Mem)}
  {main t : ClusterThread Mem} {order : List (ExecEnv Mem)} {w : Wasi.Instance}
  {children : Std.TreeMap ℕ ℕ}

/-- A snapshot of threads that all have a frame, the main thread with the least function. -/
structure Snapshot (threads : List (ClusterThread Mem)) (main : ClusterThread Mem) : Prop where
  mem : main ∈ threads
  handles : (threads.map ClusterThread.handle).Nodup
  wide : ∀ t ∈ threads, t.handle < 2 ^ 64
  frames : ∀ t ∈ threads, t.frames ≠ []
  least : ∀ t ∈ threads, t ≠ main → main.outermost < t.outermost

/-- The children, whose parents the restored process has from the snapshot. -/
def restoredChildren (w : Wasi.Instance) : Std.TreeMap ℕ ℕ :=
  Maps.copy UInt64.toNat UInt64.toNat (Wasi.migrated w).childTidMap ∅

/-- `spawn_child` is called; its static variables and `child_env` have not been set. -/
def spawnStart (w : Wasi.Instance) (handle : ℕ) : SpawnState :=
  ⟨0, 0, none, none, 0, restoredChildren w, [⟨true, handle, 0, none, .start⟩], false⟩

/-- The cluster that `recover` goes through. No thread has a start argument: they are all
pthreads. -/
def recovered (order : List (ExecEnv Mem)) : Cluster := ⟨order.map ExecEnv.curCount, ∅⟩

/-- The parent that the restored process finds for the thread. -/
def foundParent (w : Wasi.Instance) (t : ClusterThread Mem) : ℕ :=
  ((Wasi.migrated w).childTidMap.getD (UInt64.ofNat t.handle) 0).toNat

theorem spawnStart_initial (w : Wasi.Instance) (handle : ℕ) :
    SpawnInitial (spawnStart w handle) := ⟨⟨handle, rfl⟩, rfl, rfl, rfl⟩

/-! ### The parent of a thread -/

theorem getD_restoredChildren (w : Wasi.Instance) (u : UInt64) :
    (restoredChildren w).getD u.toNat 0 = ((Wasi.migrated w).childTidMap.getD u 0).toNat := by
  rw [Std.TreeMap.getD_eq_getD_getElem?, Std.TreeMap.getD_eq_getD_getElem?]
  cases hu : (Wasi.migrated w).childTidMap[u]? with
  | some p =>
    have hcopy : (restoredChildren w)[u.toNat]? = some p.toNat :=
      Maps.getElem?_copy ∅ (fun _ _ _ _ heq => UInt64.toNat_inj.mp heq) hu
    rw [hcopy]
    rfl
  | none =>
    have hcopy : (restoredChildren w)[u.toNat]? = none := by
      by_contra hsome
      obtain ⟨p, hp⟩ := Option.ne_none_iff_exists'.mp hsome
      obtain ⟨a, b, hab, ha, -⟩ := Maps.of_getElem?_copy hp
      rw [UInt64.toNat_inj.mp ha, hu] at hab
      cases hab
    rw [hcopy]
    rfl

theorem parentOf_recovered (order : List (ExecEnv Mem)) (hwide : t.handle < 2 ^ 64) :
    parentOf (recovered order) (restoredChildren w) t.handle = foundParent w t := by
  have hempty : parentOf (recovered order) (restoredChildren w) t.handle =
      (restoredChildren w).getD t.handle 0 := rfl
  have hhandle : (UInt64.ofNat t.handle).toNat = t.handle := UInt64.toNat_ofNat_of_lt' hwide
  rw [hempty, foundParent, ← getD_restoredChildren, hhandle]

/-- A handle that is no `int` is not found. -/
theorem foundParent_of_not_fits (h : ¬Wasi.Fits (UInt64.ofNat t.handle)) : foundParent w t = 0 := by
  rw [foundParent, Std.TreeMap.getD_eq_getD_getElem?]
  cases hu : (Wasi.migrated w).childTidMap[UInt64.ofNat t.handle]? with
  | some p => exact absurd (Wasi.fits_of_migrated hu).1 h
  | none => rfl

/-! ### The order of the threads -/

theorem Snapshot.mainLeast (hs : Snapshot threads main) : MainLeast threads main :=
  ⟨hs.mem, hs.handles, hs.least⟩

theorem Snapshot.dumped (hs : Snapshot threads main) {e : ExecEnv Mem}
    (he : e ∈ dumpCluster main.handle threads) : e.frames ≠ [] := by
  obtain ⟨t, ht, rfl⟩ := List.mem_map.mp he
  exact hs.frames t ht

/-- `recover` takes the threads in any order that is sorted by their functions. -/
theorem Snapshot.recovers_iff (hs : Snapshot threads main) :
    Recovers isAot ∅ (dumpCluster main.handle threads) (some order) ↔
      Sorts lessByFunction (dumpCluster main.handle threads) order :=
  hs.mainLeast.recovers_iff (fun _ _ he => hs.dumped he) (fun _ he => .inr (hs.dumped he))
    fun _ _ _ => Std.TreeMap.not_mem_emptyc

theorem recovered_pthreads (order : List (ExecEnv Mem)) :
    ∀ e ∈ (recovered order).execEnv.tail, e ∉ (recovered order).tidStartArgMap :=
  fun _ _ h => Std.TreeMap.not_mem_emptyc h

theorem Snapshot.adopted (hs : Snapshot threads main)
    (h : Sorts lessByFunction (dumpCluster main.handle threads) order)
    (hplaced : ∀ t ∈ threads, t ≠ main → Placed threads main (foundParent w t) t) {k : ℕ}
    (hk : 0 < k) (hlt : k < (recovered order).execEnv.length) :
    Adopted (recovered order) main.handle (restoredChildren w) k := by
  refine hs.mainLeast.adopted h (fun t ht hne => ?_) hk hlt
  have hparent : parentOf ⟨[], ∅⟩ (restoredChildren w) t.handle = foundParent w t :=
    parentOf_recovered ([] : List (ExecEnv Mem)) (hs.wide t ht)
  rw [hparent]
  exact hplaced t ht hne

theorem Snapshot.placed (hs : Snapshot threads main) (ht : t ∈ threads) (hne : t ≠ main)
    (hall : ∀ order, Sorts lessByFunction (dumpCluster main.handle threads) order →
      ∀ k, 0 < k → k < (recovered order).execEnv.length →
        Adopted (recovered order) main.handle (restoredChildren w) k) :
    Placed threads main (foundParent w t) t := by
  rw [← parentOf_recovered ([] : List (ExecEnv Mem)) (hs.wide t ht)]
  exact hs.mainLeast.placed ht hne hall

/-! ### The restore of a cluster -/

/-- In whatever order `recover` takes the threads, the restore can come to its end from wherever
it is, just when each child has a parent, in the map that the snapshot has brought, that is the
main thread or has a smaller outermost function. -/
theorem nested_restore_ends_iff (isAot : Bool) (threads : List (ClusterThread Mem))
    (main : ClusterThread Mem) (w : Wasi.Instance) (notified : ℕ → Bool)
    (hs : Snapshot threads main) :
    (∀ order, Recovers isAot ∅ (dumpCluster main.handle threads) (some order) →
      ∀ x, Run.Reaches (restoreStep isAot (recovered order) true)
          (recovering (spawnStart w main.handle) notified) x →
        ∃ y, Run.Reaches (restoreStep isAot (recovered order) false) x y ∧ Ended isAot y) ↔
      ∀ t ∈ threads, t ≠ main → Placed threads main (foundParent w t) t := by
  have hinit := spawnStart_initial w main.handle
  have hstart : ∀ order : List (ExecEnv Mem), Underway isAot (recovered order) main.handle
      ⟨spawnStart w main.handle, notified⟩ (recovering (spawnStart w main.handle) notified) :=
    fun order => underway_start hinit notified
  constructor
  · intro hall t ht hne
    refine hs.placed ht hne fun order hsorts k hk hlt => ?_
    obtain ⟨y, hy, hend⟩ := hall order (hs.recovers_iff.mpr hsorts) _ (Run.Reaches.refl _)
    rcases underway_run (recovered_pthreads order) hinit rfl (hstart order) hy with
      hway | ⟨-, -, hdone⟩
    · exact hway.all_adopted hinit hend k hk hlt
    · exact hdone k hk hlt
  · intro hplaced order hrec x hx
    have hsorts := hs.recovers_iff.mp hrec
    rcases underway_run (recovered_pthreads order) hinit rfl (hstart order) hx with
      hway | ⟨haot, hexited, -⟩
    · exact hway.reaches_end (recovered_pthreads order) hinit rfl fun k hk hlt =>
        hs.adopted hsorts hplaced hk hlt
    · exact ⟨x, Run.Reaches.refl x, by rw [Ended, haot]; exact hexited⟩

/-- Where no parent is found, a child that creates the next one would have the id 0. -/
theorem Kept.creator_main {c : Cluster} {handle : ℕ} {x : Notified} {i : ℕ} {v : Worker}
    (hx : Kept c handle children x)
    (hchild : ∀ (k e : ℕ), 0 < k → c.execEnv[k]? = some e → parentOf c children e = 0 ∧ e ≠ 0)
    (hv : x.spawn.threads[i]? = some v) (hpc : v.pc = .create) : i = 0 := by
  by_contra hne
  have hpos : 0 < i := Nat.pos_of_ne_zero hne
  have hi := hx.inv.worker i v hv
  obtain ⟨-, hbound⟩ := hi.usesChild (.inr (.inl hpc))
  obtain ⟨hiter, -⟩ := hx.inv.idle_of_holding hv (.inr (.inr (.inl hpc))) (by simp [hpc])
  have hnext := List.getElem?_eq_getElem hbound
  have hfirst := hx.first
  have hparent : x.spawn.parent = 0 :=
    (hx.checked i v hv (.inr hpc) _ hnext).trans (hchild _ _ (by omega) hnext).1
  have hmain : ¬v.main = true := fun hm => hne (hi.main.mp hm)
  rcases hx.created i v hv hpc with hown | hone
  · have hhandle := hx.handles i v hpos hv (by simp [hpc])
    exact (hchild i _ hpos hhandle).2 (hown.symm.trans hparent)
  · rw [if_neg hmain, hparent] at hone
    cases hone

/-- Thread 11 has created thread 12. -/
def nestedCalls : List Wasi.ThreadCall := [.insertParentChild 10 11, .insertParentChild 11 12]

def nestedThreads (f g : ℕ) : List (ClusterThread ℕ) :=
  [⟨10, [3], [0]⟩, ⟨11, [f], [1]⟩, ⟨12, [g], [2]⟩]

theorem nestedThreads_snapshot {f g : ℕ} (hf : 3 < f) (hg : 3 < g) :
    Snapshot (nestedThreads f g) ⟨10, [3], [0]⟩ where
  mem := List.mem_cons_self
  handles := by simp [nestedThreads]
  wide := by simp [nestedThreads]
  frames := by simp [nestedThreads]
  least := by simp [nestedThreads, ClusterThread.outermost, hf, hg]

theorem nestedThreads_end :
    (∀ order, Recovers false ∅ (dumpCluster 10 (nestedThreads 5 7)) (some order) →
      ∃ y, Run.Reaches (restoreStep false (recovered order) false)
          (recovering (spawnStart (nestedCalls.foldl Wasi.record Wasi.freshInstance) 10)
            fun _ => false) y ∧ Ended false y) ∧
    ¬∀ order, Recovers false ∅ (dumpCluster 10 (nestedThreads 7 5)) (some order) →
      ∀ x, Run.Reaches (restoreStep false (recovered order) true)
          (recovering (spawnStart (nestedCalls.foldl Wasi.record Wasi.freshInstance) 10)
            fun _ => false) x →
        ∃ y, Run.Reaches (restoreStep false (recovered order) false) x y ∧ Ended false y := by
  constructor
  · intro order hrec
    refine (nested_restore_ends_iff false (nestedThreads 5 7) ⟨10, [3], [0]⟩ _ _
      (nestedThreads_snapshot (by decide) (by decide))).mpr ?_ order hrec _ (Run.Reaches.refl _)
    intro t ht hne
    simp only [nestedThreads, List.mem_cons, List.not_mem_nil, or_false] at ht
    rcases ht with rfl | rfl | rfl
    · exact absurd rfl hne
    · exact .inr (.inl (by decide))
    · refine .inr (.inr ⟨⟨11, [5], [1]⟩, by simp [nestedThreads], by simp, by decide, .inl ?_⟩)
      decide
  · intro hall
    have hplaced := (nested_restore_ends_iff false (nestedThreads 7 5) ⟨10, [3], [0]⟩ _ _
      (nestedThreads_snapshot (by decide) (by decide))).mp hall ⟨12, [5], [2]⟩
      (by simp [nestedThreads]) (by simp)
    have hparent : foundParent (nestedCalls.foldl Wasi.record Wasi.freshInstance)
        (⟨12, [5], [2]⟩ : ClusterThread ℕ) = 11 := by decide
    rw [hparent] at hplaced
    simp [Placed, nestedThreads, ClusterThread.outermost] at hplaced

/-- Where no handle of a child is an `int`, as with the addresses that `pthread_t` holds, the
restore can come to its end, and it is the main thread that creates all children. -/
theorem wide_children_of_main (isAot : Bool) (threads : List (ClusterThread Mem))
    (main : ClusterThread Mem) (w : Wasi.Instance) (notified : ℕ → Bool)
    (hs : Snapshot threads main)
    (hwide : ∀ t ∈ threads, t ≠ main → ¬Wasi.Fits (UInt64.ofNat t.handle))
    (order : List (ExecEnv Mem))
    (hrec : Recovers isAot ∅ (dumpCluster main.handle threads) (some order)) (x : Restoring)
    (hx : Run.Reaches (restoreStep isAot (recovered order) true)
      (recovering (spawnStart w main.handle) notified) x) :
    (∃ y, Run.Reaches (restoreStep isAot (recovered order) false) x y ∧ Ended isAot y) ∧
    (x.cluster.spawn.exited = false → ∀ (i : ℕ) (v : Worker),
      x.cluster.spawn.threads[i]? = some v → v.pc = .create → i = 0) := by
  have hinit := spawnStart_initial w main.handle
  have hsorts := hs.recovers_iff.mp hrec
  have hpthread := recovered_pthreads order
  have hchild : ∀ (k e : ℕ), 0 < k → (recovered order).execEnv[k]? = some e →
      parentOf (recovered order) (restoredChildren w) e = 0 ∧ e ≠ 0 := by
    intro k e hk he
    change (clusterOf ∅ order).execEnv[k]? = some e at he
    rw [clusterOf_execEnv] at he
    obtain ⟨d, hd, rfl⟩ := Option.map_eq_some_iff.mp he
    obtain ⟨t, ht, rfl, hpos⟩ := hs.mainLeast.child_at hsorts hd
    have hunfit := hwide t ht (hpos.mp hk)
    refine ⟨(parentOf_recovered _ (hs.wide t ht)).trans (foundParent_of_not_fits hunfit), ?_⟩
    intro hzero
    have hhandle : t.handle = 0 := hzero
    rw [hhandle] at hunfit
    exact hunfit (by decide)
  have hplaced : ∀ t ∈ threads, t ≠ main → Placed threads main (foundParent w t) t :=
    fun t ht hne => .inl (foundParent_of_not_fits (hwide t ht hne))
  have hstart : Underway isAot (recovered order) main.handle
      ⟨spawnStart w main.handle, notified⟩ (recovering (spawnStart w main.handle) notified) :=
    underway_start hinit notified
  rcases underway_run hpthread hinit rfl hstart hx with hway | ⟨haot, hexited, -⟩
  · refine ⟨hway.reaches_end hpthread hinit rfl fun k hk hlt =>
      hs.adopted hsorts hplaced hk hlt, fun _ i v hv hpc => ?_⟩
    rcases hway.2 with hsame | hkept
    · rw [hsame] at hv
      have hlt := (List.getElem?_eq_some_iff.mp hv).1
      have hone : i < 1 := hlt
      omega
    · exact hkept.creator_main hchild hv hpc
  · refine ⟨⟨x, Run.Reaches.refl x, by rw [Ended, haot]; exact hexited⟩, fun hrunning => ?_⟩
    rw [hexited] at hrunning
    cases hrunning

def wideThreads : List (ClusterThread ℕ) :=
  [⟨0x7f0000001000, [3], [0]⟩, ⟨0x7f0000002000, [7], [1]⟩, ⟨0x7f0000003000, [7], [2]⟩]

/-- Thread 0x7f0000002000 has created the last one. -/
def wideCalls : List Wasi.ThreadCall :=
  [.insertParentChild 0x7f0000001000 0x7f0000002000,
    .insertParentChild 0x7f0000002000 0x7f0000003000]

theorem wideThreads_of_main :
    ∃ y, Run.Reaches
        (restoreStep true (recovered (dumpCluster 0x7f0000001000 wideThreads)) false)
        (recovering (spawnStart (wideCalls.foldl Wasi.record Wasi.freshInstance) 0x7f0000001000)
          fun _ => false) y ∧ Ended true y := by
  have hs : Snapshot wideThreads ⟨0x7f0000001000, [3], [0]⟩ :=
    { mem := List.mem_cons_self
      handles := by decide
      wide := by simp [wideThreads]
      frames := by simp [wideThreads]
      least := by simp [wideThreads, ClusterThread.outermost] }
  have hsorts : Sorts lessByFunction (dumpCluster 0x7f0000001000 wideThreads)
      (dumpCluster 0x7f0000001000 wideThreads) := by
    refine ⟨List.Perm.refl _, ?_⟩
    simp [dumpCluster, wideThreads, dumpEnv, lessByFunction, lessBy, ExecEnv.outermost]
  refine (wide_children_of_main true wideThreads ⟨0x7f0000001000, [3], [0]⟩ _ _ hs ?_ _
    (hs.recovers_iff.mpr hsorts) _ (Run.Reaches.refl _)).1
  intro t ht hne
  simp only [wideThreads, List.mem_cons, List.not_mem_nil, or_false] at ht
  rcases ht with rfl | rfl | rfl
  · exact absurd rfl hne
  · decide
  · decide

end MVVM.Threads
