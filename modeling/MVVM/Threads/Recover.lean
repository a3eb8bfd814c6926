import MVVM.Threads.Order
import MVVM.Threads.Resume

/-!
# What becomes of the environments of a snapshot (wamr.cpp:497-548, 562-628)

`recover` restores the first environment itself; the others are restored by the threads that
`spawn_child` creates for them. It creates none for an environment with a start argument, where
the process exits, and none whose parent is not among the threads that exist.
-/

namespace MVVM.Threads

open Sorting

variable {Mem : Type}

/-- What `spawn_child` goes through behind an order of the environments. -/
def clusterOf (startArgs : Std.TreeMap ℕ (ℤ × ℤ)) (order : List (ExecEnv Mem)) : Cluster :=
  ⟨order.map ExecEnv.curCount, startArgs⟩

/-- `recover` calls `spawn_child`. -/
structure SpawnCalled (handle : ℕ) (children : Std.TreeMap ℕ ℕ) (s : SpawnState) : Prop where
  initial : SpawnInitial s
  threads : s.threads = [⟨true, handle, 0, none, .start⟩]
  children : s.childTidMap = children

/-- The threads behind the main thread have restored an environment each, and these are the ones
behind the first. -/
def Processed (c : Cluster) (s : SpawnState) : Prop :=
  s.threads.tail.map Worker.restored = (List.range' 1 (c.execEnv.length - 1)).map some

/-- From wherever the threads have come to, also by waits that come back unasked, they can go on
until all environments behind the first are restored, each of them once. -/
def AllProcessed (c : Cluster) (handle : ℕ) (children : Std.TreeMap ℕ ℕ) : Prop :=
  ∀ s notified x, SpawnCalled handle children s →
    Run.Reaches (notifyStep c true) ⟨s, notified⟩ x →
    ∃ y, Run.Reaches (notifyStep c false) x y ∧ Processed c y.spawn

/-- The environment of the main thread is restored first, and each environment once. -/
def RestoresAll (startArgs : Std.TreeMap ℕ (ℤ × ℤ)) (children : Std.TreeMap ℕ ℕ)
    (main : ExecEnv Mem) (envs : List (ExecEnv Mem)) (out : Option (List (ExecEnv Mem))) : Prop :=
  MainFirst main envs out ∧
    ∀ order, out = some order →
      AllProcessed (clusterOf startArgs order) main.curCount children

/-- The parent is the main thread, or a child whose outermost function is less. A child also
goes by the id 1. -/
def Placed (threads : List (ClusterThread Mem)) (main : ClusterThread Mem) (parent : ℕ)
    (t : ClusterThread Mem) : Prop :=
  parent = 0 ∨ parent = main.handle ∨
    ∃ u ∈ threads, u ≠ main ∧ u.outermost < t.outermost ∧ (parent = u.handle ∨ parent = 1)

/-! ### The threads that are created -/

variable {c : Cluster} {s t : SpawnState} {i : ℕ} {w : Worker}

theorem runWorker_length (hpc : w.pc ≠ .create) (h : runWorker c s i w = some t) :
    t.threads.length = s.threads.length := by
  have hset : ∀ w', (s.threads.set i w').length = s.threads.length := fun _ => List.length_set
  cases hq : w.pc with
  | create => exact absurd hq hpc
  | restoreEnv | release =>
    simp only [runWorker, hq] at h
    obtain rfl := Option.some.inj h
    exact hset _
  | start =>
    simp only [runWorker, hq] at h
    split at h
    · obtain rfl := Option.some.inj h
      exact hset _
    · obtain rfl := Option.some.inj h
      exact hset _
  | lock | acquire =>
    simp only [runWorker, hq] at h
    split at h
    · obtain rfl := Option.some.inj h
      exact hset _
    · cases h
  | loop =>
    simp only [runWorker, hq] at h
    split at h
    · obtain rfl := Option.some.inj h
      rw [SpawnState.set, List.length_set, (nextChild_frame (c := c) (s := s)).1]
    · obtain rfl := Option.some.inj h
      exact hset _
  | check =>
    simp only [runWorker, hq] at h
    by_cases hwait : s.parent ≠ w.handle ∧ s.parent ≠ (if w.main then 0 else 1)
    · rw [if_pos hwait] at h
      obtain rfl := Option.some.inj h
      exact hset _
    · rw [if_neg hwait] at h
      obtain rfl := Option.some.inj h
      exact hset _
  | waiting | done =>
    simp only [runWorker, hq] at h
    cases h

theorem spawnStep_cases {l : SpawnLabel} (h : spawnStep c s l = some t) :
    ∃ (i : ℕ) (w : Worker), s.threads[i]? = some w ∧ (runWorker c s i w = some t ∨
      (w.pc = .waiting ∧ t = s.set i { w with pc := .lock })) := by
  cases l with
  | run i =>
    simp only [spawnStep] at h
    split at h
    · next w hw =>
      split at h
      · cases h
      · exact ⟨i, w, hw, .inl h⟩
    · cases h
  | wake i =>
    simp only [spawnStep] at h
    split at h
    · next w hw =>
      split at h
      · next hwait => exact ⟨i, w, hw, .inr ⟨hwait.2, (Option.some.inj h).symm⟩⟩
      · cases h
    · cases h

/-- The threads so far are of environments without a start argument. -/
structure Pthreads (c : Cluster) (s : SpawnState) : Prop where
  alive : SpawnInitial s ∨ SpawnInv c s ∨ s.exited = true
  threads : ∀ k, 0 < k → k < s.threads.length → ∃ e, c.execEnv[k]? = some e ∧
    e ∉ c.tidStartArgMap

theorem Pthreads.step (hs : Pthreads c s) {l : SpawnLabel} (h : spawnStep c s l = some t) :
    Pthreads c t := by
  obtain ⟨i, w, hw, hstep⟩ := spawnStep_cases h
  rcases hs.alive with hinit | hinv | hexited
  · obtain ⟨handle, hthreads⟩ := hinit.threads
    have hlen : t.threads.length = s.threads.length := by
      rcases hstep with hrun | ⟨-, rfl⟩
      · refine runWorker_length ?_ hrun
        rw [hthreads] at hw
        obtain rfl := List.mem_singleton.mp (List.mem_of_getElem? hw)
        simp
      · exact List.length_set
    refine ⟨.inr (.inl (hinit.step h)), fun k hk hlt => ?_⟩
    rw [hlen, hthreads, List.length_singleton] at hlt
    omega
  · by_cases hcreate : w.pc = .create
    · rcases hstep with hrun | ⟨hwait, -⟩
      · have hiter := (hinv.idle_of_holding hw (.inr (.inr (.inl hcreate))) (by simp [hcreate])).1
        obtain ⟨hchild, hbound⟩ := (hinv.worker i w hw).usesChild (.inr (.inl hcreate))
        have hcount : childCount c s = c.execEnv[s.iter] := by simp [childCount, hchild, hbound]
        by_cases hmem : childCount c s ∈ c.tidStartArgMap
        · simp only [runWorker, hcreate, if_pos hmem] at hrun
          obtain rfl := Option.some.inj hrun
          exact ⟨.inr (.inr rfl), hs.threads⟩
        · have hinv' := hinv.run hw (fun _ => hmem) hrun
          simp only [runWorker, hcreate, if_neg hmem] at hrun
          obtain rfl := Option.some.inj hrun
          refine ⟨.inr (.inl hinv'), fun k hk hlt => ?_⟩
          simp only [SpawnState.set, List.length_append, List.length_set,
            List.length_singleton] at hlt
          by_cases hold : k < s.threads.length
          · exact hs.threads k hk hold
          · obtain rfl : k = s.iter := by omega
            exact ⟨_, List.getElem?_eq_getElem hbound, hcount ▸ hmem⟩
      · rw [hcreate] at hwait
        cases hwait
    · have hlen : t.threads.length = s.threads.length := by
        rcases hstep with hrun | ⟨-, rfl⟩
        · exact runWorker_length hcreate hrun
        · exact List.length_set
      have hinv' : SpawnInv c t := by
        rcases hstep with hrun | ⟨hwait, rfl⟩
        · exact hinv.run hw (fun h => absurd h hcreate) hrun
        · exact hinv.to_lock hw (.inr hwait)
      exact ⟨.inr (.inl hinv'), fun k hk hlt => hs.threads k hk (hlen ▸ hlt)⟩
  · rw [spawnStep_exited hexited] at h
    cases h

theorem pthreads_of_reaches {notified : ℕ → Bool} {x : Notified} (hs : SpawnInitial s)
    (h : Run.Reaches (notifyStep c true) ⟨s, notified⟩ x) : Pthreads c x.spawn := by
  obtain ⟨handle, hthreads⟩ := hs.threads
  refine h.invariant (fun x => Pthreads c x.spawn)
    (fun _ _ _ hx hst => hx.step (notifyStep_spawn hst)) ⟨.inl hs, fun k hk hlt => ?_⟩
  rw [hthreads, List.length_singleton] at hlt
  omega

/-! ### All children have restored their environments -/

theorem SpawnInv.processed (hs : SpawnInv c s) (hlen : s.threads.length = max 1 c.execEnv.length)
    (hrestored : ∀ (k : ℕ) (w : Worker), s.threads[k]? = some w → w.pc ≠ .restoreEnv) :
    Processed c s := by
  refine List.ext_getElem? fun k => ?_
  rw [List.getElem?_map, List.getElem?_tail, List.getElem?_map]
  by_cases hk : k + 1 < s.threads.length
  · have hw : s.threads[k + 1]? = some s.threads[k + 1] := List.getElem?_eq_getElem hk
    have hres := (hs.worker (k + 1) _ hw).restored (Nat.succ_pos k) (hrestored _ _ hw)
    rw [hw, List.getElem?_range' (by omega), Option.map_some, Option.map_some, hres]
    simp [Nat.add_comm]
  · rw [List.getElem?_eq_none (by omega),
      List.getElem?_eq_none (by rw [List.length_range']; omega)]
    rfl

theorem Processed.length (h : Processed c s) :
    s.threads.length - 1 = c.execEnv.length - 1 := by
  simpa using congrArg List.length h

/-- The last thread may still have to restore its environment. -/
theorem Kept.reaches_processed {handle : ℕ} {children : Std.TreeMap ℕ ℕ} {x : Notified}
    (hpthread : ∀ e ∈ c.execEnv.tail, e ∉ c.tidStartArgMap) (hx : Kept c handle children x)
    (hlen : x.spawn.threads.length = max 1 c.execEnv.length) :
    ∃ y, Run.Reaches (notifyStep c false) x y ∧ Processed c y.spawn := by
  by_cases hboot : ∃ (j : ℕ) (v : Worker), x.spawn.threads[j]? = some v ∧ v.pc = .restoreEnv
  · obtain ⟨j, v, hv, hpc⟩ := hboot
    have hlast := ((hx.inv.worker j v hv).booting (.inl hpc)).1
    have hlt : j < x.spawn.threads.length := (List.getElem?_eq_some_iff.mp hv).1
    obtain ⟨hstep, hkept⟩ := hx.goes hpthread hv (by simp only [runWorker, hpc]; rfl)
    refine ⟨_, Run.Reaches.single _ hstep, hkept.inv.processed ?_ fun k u hu hpc' => ?_⟩
    · exact List.length_set.trans hlen
    · rcases set_cases hv hu with ⟨-, rfl⟩ | ⟨hne, hu⟩
      · cases hpc'
      · have hlast' := ((hx.inv.worker k u hu).booting (.inl hpc')).1
        omega
  · exact ⟨x, Run.Reaches.refl x, hx.inv.processed hlen fun k u hu hpc => hboot ⟨k, u, hu, hpc⟩⟩
theorem spawnCalled_start (handle : ℕ) (children : Std.TreeMap ℕ ℕ) :
    SpawnCalled handle children
      ⟨0, 0, none, none, 0, children, [⟨true, handle, 0, none, .start⟩], false⟩ :=
  ⟨⟨⟨handle, rfl⟩, rfl, rfl, rfl⟩, rfl, rfl⟩

/-- Some run comes to an end, and what it has created tells of all environments. -/
theorem AllProcessed.exists_run {handle : ℕ} {children : Std.TreeMap ℕ ℕ}
    (h : AllProcessed c handle children) : ∃ s x, SpawnCalled handle children s ∧
      Run.Reaches (notifyStep c true) ⟨s, fun _ => false⟩ x ∧ Processed c x.spawn := by
  have hs := spawnCalled_start handle children
  obtain ⟨x, hx, hprocessed⟩ := h _ (fun _ => false) _ hs (Run.Reaches.refl _)
  exact ⟨_, x, hs, reaches_spurious hx, hprocessed⟩

theorem AllProcessed.pthreads {handle : ℕ} {children : Std.TreeMap ℕ ℕ}
    (h : AllProcessed c handle children) : ∀ e ∈ c.execEnv.tail, e ∉ c.tidStartArgMap := by
  obtain ⟨s, x, hs, hx, hprocessed⟩ := h.exists_run
  have hlen := hprocessed.length
  intro e he
  obtain ⟨k, hk⟩ := List.mem_iff_getElem?.mp he
  rw [List.getElem?_tail] at hk
  have hlt : k + 1 < c.execEnv.length := (List.getElem?_eq_some_iff.mp hk).1
  obtain ⟨e', he', hno⟩ :=
    (pthreads_of_reaches hs.initial hx).threads (k + 1) (Nat.succ_pos k) (by omega)
  obtain rfl := Option.some.inj (hk.symm.trans he')
  exact hno

theorem AllProcessed.adopted {handle : ℕ} {children : Std.TreeMap ℕ ℕ}
    (h : AllProcessed c handle children) :
    ∀ k, 0 < k → k < c.execEnv.length → Adopted c handle children k := by
  have hpthread := h.pthreads
  obtain ⟨s, x, hs, hx, hprocessed⟩ := h.exists_run
  have hlen := hprocessed.length
  intro k hk hlt
  rw [← hs.children]
  exact adopted_of_reaches hpthread hs.initial hs.threads hx k hk (by omega)

theorem allProcessed_iff (c : Cluster) (handle : ℕ) (children : Std.TreeMap ℕ ℕ) :
    AllProcessed c handle children ↔ (∀ e ∈ c.execEnv.tail, e ∉ c.tidStartArgMap) ∧
      ∀ k, 0 < k → k < c.execEnv.length → Adopted c handle children k := by
  refine ⟨fun h => ⟨h.pthreads, h.adopted⟩, fun ⟨hpthread, hall⟩ s notified x hs hx => ?_⟩
  rw [← hs.children] at hall
  obtain ⟨y, hxy, hy, hlen⟩ := reaches_all_spawned hpthread hs.initial hs.threads hall hx
  obtain ⟨z, hyz, hz⟩ := hy.reaches_processed hpthread hlen
  exact ⟨z, hxy.trans hyz, hz⟩

/-! ### The main thread has the least outermost function -/

/-- What the order of the environments rests on. -/
structure MainLeast (threads : List (ClusterThread Mem)) (main : ClusterThread Mem) : Prop where
  mem : main ∈ threads
  handles : (threads.map ClusterThread.handle).Nodup
  least : ∀ t ∈ threads, t ≠ main → main.outermost < t.outermost

section Order

variable {isAot : Bool} {startArgs : Std.TreeMap ℕ (ℤ × ℤ)} {children : Std.TreeMap ℕ ℕ}
  {threads : List (ClusterThread Mem)} {main t : ClusterThread Mem} {order : List (ExecEnv Mem)}

theorem clusterOf_execEnv (startArgs : Std.TreeMap ℕ (ℤ × ℤ)) (order : List (ExecEnv Mem))
    (k : ℕ) : (clusterOf startArgs order).execEnv[k]? = order[k]?.map ExecEnv.curCount :=
  List.getElem?_map

theorem MainLeast.eq_main (hs : MainLeast threads main) (ht : t ∈ threads)
    (h : dumpEnv main.handle t = dumpEnv main.handle main) : t = main :=
  List.inj_on_of_nodup_map hs.handles ht hs.mem (congrArg ExecEnv.curCount h)

theorem MainLeast.head (hs : MainLeast threads main)
    (h : Sorts lessByFunction (dumpCluster main.handle threads) order) :
    order[0]? = some (dumpEnv main.handle main) := by
  rw [← List.head?_eq_getElem?]
  refine head_of_sorts h (List.mem_map_of_mem hs.mem) fun e he hne => ?_
  obtain ⟨t, ht, rfl⟩ := List.mem_map.mp he
  exact hs.least t ht fun heq => hne (heq ▸ rfl)

/-- Behind the main thread there are the others. -/
theorem MainLeast.child_at (hs : MainLeast threads main)
    (h : Sorts lessByFunction (dumpCluster main.handle threads) order) {k : ℕ} {e : ExecEnv Mem}
    (hk : order[k]? = some e) :
    ∃ t ∈ threads, e = dumpEnv main.handle t ∧ (0 < k ↔ t ≠ main) := by
  have hmem : e ∈ dumpCluster main.handle threads := h.1.mem_iff.mp (List.mem_of_getElem? hk)
  obtain ⟨t, ht, rfl⟩ := List.mem_map.mp hmem
  have hnodup : (dumpCluster main.handle threads).Nodup :=
    (List.Nodup.of_map ExecEnv.curCount (by
      rw [dumpCluster, List.map_map]
      exact hs.handles))
  refine ⟨t, ht, rfl, fun hpos heq => ?_, fun hne => ?_⟩
  · subst heq
    have hlt : k < order.length := (List.getElem?_eq_some_iff.mp hk).1
    have hzero : k = 0 :=
      (List.getElem?_inj hlt (h.1.nodup_iff.mpr hnodup)).mp (hk.trans (hs.head h).symm)
    omega
  · by_contra hzero
    obtain rfl : k = 0 := by omega
    exact hne (hs.eq_main ht (Option.some.inj (hk.symm.trans (hs.head h))))

theorem MainLeast.exists_index (hs : MainLeast threads main)
    (h : Sorts lessByFunction (dumpCluster main.handle threads) order) (ht : t ∈ threads)
    (hne : t ≠ main) : ∃ k, 0 < k ∧ order[k]? = some (dumpEnv main.handle t) := by
  have hmem : dumpEnv main.handle t ∈ order := h.1.mem_iff.mpr (List.mem_map_of_mem ht)
  obtain ⟨k, hk⟩ := List.mem_iff_getElem?.mp hmem
  obtain ⟨t', ht', hsame, hpos⟩ := hs.child_at h hk
  refine ⟨k, hpos.mpr ?_, hk⟩
  rintro rfl
  exact hne (hs.eq_main ht hsame)

/-- The children that find their parents as `Placed` says do so in any order. -/
theorem MainLeast.adopted (hs : MainLeast threads main)
    (h : Sorts lessByFunction (dumpCluster main.handle threads) order)
    (hplaced : ∀ t ∈ threads, t ≠ main →
      Placed threads main (parentOf ⟨[], startArgs⟩ children t.handle) t) {k : ℕ}
    (hk : 0 < k) (hlt : k < (clusterOf startArgs order).execEnv.length) :
    Adopted (clusterOf startArgs order) main.handle children k := by
  have hlen : k < order.length := by rwa [clusterOf, List.length_map] at hlt
  have hget : order[k]? = some order[k] := List.getElem?_eq_getElem hlen
  obtain ⟨t, ht, heq, hchild⟩ := hs.child_at h hget
  have henv : (clusterOf startArgs order).execEnv[k]? = some t.handle := by
    rw [clusterOf_execEnv, hget, heq]
    rfl
  refine ⟨t.handle, henv, ?_⟩
  refine (hplaced t ht (hchild.mp hk)).imp_right (Or.imp_right ?_)
  rintro ⟨u, hu, hne, hless, hparent⟩
  obtain ⟨j, hpos, hj⟩ := hs.exists_index h hu hne
  refine ⟨j, u.handle, hpos, ?_, ?_, hparent⟩
  · exact h.index_lt hj hget (heq ▸ hless)
  · rw [clusterOf_execEnv, hj]
    rfl

/-- In an order in which nothing comes before the thread that need not. -/
theorem MainLeast.placed (hs : MainLeast threads main) (ht : t ∈ threads) (hne : t ≠ main)
    (hall : ∀ order, Sorts lessByFunction (dumpCluster main.handle threads) order →
      ∀ k, 0 < k → k < (clusterOf startArgs order).execEnv.length →
        Adopted (clusterOf startArgs order) main.handle children k) :
    Placed threads main (parentOf ⟨[], startArgs⟩ children t.handle) t := by
  obtain ⟨pre, post, hsorts, hfront⟩ := exists_sorts_front ExecEnv.outermost
    (List.mem_map_of_mem ht : dumpEnv main.handle t ∈ dumpCluster main.handle threads)
  have hget : (pre ++ dumpEnv main.handle t :: post)[pre.length]? =
      some (dumpEnv main.handle t) := by simp
  obtain ⟨t', ht', hsame, hpos⟩ := hs.child_at hsorts hget
  have hchild : 0 < pre.length := by
    refine hpos.mpr ?_
    rintro rfl
    exact hne (hs.eq_main ht hsame)
  obtain ⟨e, he, hparent⟩ := hall _ hsorts pre.length hchild (by simp [clusterOf])
  rw [clusterOf_execEnv, hget] at he
  obtain rfl : t.handle = e := Option.some.inj he
  refine hparent.imp_right (Or.imp_right ?_)
  rintro ⟨j, e', hj, hjk, he', hfound⟩
  have hpre : (pre ++ dumpEnv main.handle t :: post)[j]? = some pre[j] := by
    rw [List.getElem?_append_left hjk, List.getElem?_eq_getElem hjk]
  obtain ⟨u, hu, hdump, humain⟩ := hs.child_at hsorts hpre
  have hless := hfront _ (List.getElem_mem hjk)
  rw [clusterOf_execEnv, hpre, hdump] at he'
  obtain rfl : u.handle = e' := Option.some.inj he'
  rw [hdump] at hless
  exact ⟨u, hu, humain.mp hj, hless, hfound⟩

/-- No child has a start argument. -/
theorem MainLeast.pthreads (hs : MainLeast threads main)
    (hno : ∀ t ∈ threads, t ≠ main → t.handle ∉ startArgs)
    (h : Sorts lessByFunction (dumpCluster main.handle threads) order) :
    ∀ e ∈ (clusterOf startArgs order).execEnv.tail, e ∉ startArgs := by
  intro e he
  obtain ⟨k, hk⟩ := List.mem_iff_getElem?.mp he
  rw [List.getElem?_tail, clusterOf_execEnv] at hk
  obtain ⟨d, hd, rfl⟩ := Option.map_eq_some_iff.mp hk
  obtain ⟨t, ht, rfl, hpos⟩ := hs.child_at h hd
  exact hno t ht (hpos.mp (Nat.succ_pos k))

/-- The children are not sorted again. -/
theorem MainLeast.childrenSorted_iff (hs : MainLeast threads main)
    (hno : ∀ t ∈ threads, t ≠ main → t.handle ∉ startArgs) {first : ExecEnv Mem}
    {rest rest' : List (ExecEnv Mem)}
    (h : Sorts lessByFunction (dumpCluster main.handle threads) (first :: rest)) :
    ChildrenSorted startArgs first rest rest' ↔ rest' = rest := by
  rcases List.eq_nil_or_concat rest with rfl | ⟨init, last, rfl⟩
  · unfold ChildrenSorted
    split
    · exact ⟨fun h => h.1.eq_nil, by rintro rfl; exact ⟨.refl _, .nil⟩⟩
    · exact Iff.rfl
  · rw [List.concat_eq_append] at h ⊢
    have hlast : (first :: (init ++ [last]))[init.length + 1]? = some last := by simp
    obtain ⟨t, ht, rfl, hpos⟩ := hs.child_at h hlast
    have hnot := hno t ht (hpos.mp (Nat.succ_pos _))
    unfold ChildrenSorted
    rw [if_neg]
    simpa [dumpEnv] using hnot

theorem MainLeast.recovers_iff (hs : MainLeast threads main)
    (hframes : 2 ≤ (dumpCluster main.handle threads).length →
      ∀ e ∈ dumpCluster main.handle threads, e.frames ≠ [])
    (hrestorable : ∀ e ∈ dumpCluster main.handle threads, Restorable isAot e)
    (hno : ∀ t ∈ threads, t ≠ main → t.handle ∉ startArgs) :
    Recovers isAot startArgs (dumpCluster main.handle threads) (some order) ↔
      Sorts lessByFunction (dumpCluster main.handle threads) order := by
  constructor
  · intro h
    cases h with
    | inOrder first rest rest' _ hsorts hchildren _ =>
      rw [(hs.childrenSorted_iff hno hsorts).mp hchildren]
      exact hsorts
  · intro hsorts
    cases order with
    | nil => exact absurd (hsorts.1.mem_iff.mpr (List.mem_map_of_mem hs.mem)) List.not_mem_nil
    | cons first rest =>
      exact .inOrder first rest rest hframes hsorts ((hs.childrenSorted_iff hno hsorts).mpr rfl)
        fun e he => hrestorable e (hsorts.1.mem_iff.mp he)

/-- The threads that `spawn_child` has created are pthreads. -/
theorem RestoresAll.not_mem (h : RestoresAll startArgs children (dumpEnv main.handle main)
      (dumpCluster main.handle threads) (some order)) (hs : MainLeast threads main)
    (ht : t ∈ threads) (hne : t ≠ main) : t.handle ∉ startArgs := by
  obtain ⟨⟨hhead, hperm⟩, hall⟩ := h
  obtain ⟨rest, rfl⟩ := List.head?_eq_some_iff.mp hhead
  have hmem := hperm.mem_iff.mpr
    (List.mem_map_of_mem ht : dumpEnv main.handle t ∈ dumpCluster main.handle threads)
  have hrest := (List.mem_cons.mp hmem).resolve_left fun heq => hne (hs.eq_main ht heq)
  exact (hall _ rfl).pthreads t.handle (List.mem_map_of_mem (f := ExecEnv.curCount) hrest)

/-- In any order that the sorts may give, `recover` restores the environment of the main thread
first and `spawn_child` brings each of the others back once, just when every thread has a frame (a
lone thread of AOT code needs none), the main thread has a smaller outermost function than all
others, no other thread has a start argument, and each finds its parent. -/
theorem recover_restores_all_iff (isAot : Bool) (startArgs : Std.TreeMap ℕ (ℤ × ℤ))
    (children : Std.TreeMap ℕ ℕ) (threads : List (ClusterThread Mem)) (main : ClusterThread Mem)
    (hmain : main ∈ threads) (hhandles : (threads.map ClusterThread.handle).Nodup) :
    (∀ out, Recovers isAot startArgs (dumpCluster main.handle threads) out →
        RestoresAll startArgs children (dumpEnv main.handle main)
          (dumpCluster main.handle threads) out) ↔
      ((threads.length = 1 ∧ isAot = true) ∨ ∀ t ∈ threads, t.frames ≠ []) ∧
        (∀ t ∈ threads, t ≠ main → main.outermost < t.outermost) ∧
        ∀ t ∈ threads, t ≠ main → t.handle ∉ startArgs ∧
          Placed threads main (parentOf ⟨[], startArgs⟩ children t.handle) t := by
  have hmem : dumpEnv main.handle main ∈ dumpCluster main.handle threads :=
    List.mem_map_of_mem hmain
  have hcluster := mainFirst_cluster_iff isAot startArgs threads main hmain hhandles
  constructor
  · intro h
    have hfirst : ∀ out, Recovers isAot startArgs (dumpCluster main.handle threads) out →
        MainFirst (dumpEnv main.handle main) (dumpCluster main.handle threads) out :=
      fun out hout => (h out hout).1
    obtain ⟨hor, hleast⟩ := hcluster.mp hfirst
    obtain ⟨hframes, hrestorable, -⟩ := (mainFirst_iff hmem).mp hfirst
    have hs : MainLeast threads main := ⟨hmain, hhandles, hleast⟩
    have hno : ∀ t ∈ threads, t ≠ main → t.handle ∉ startArgs := by
      intro t ht hne
      obtain ⟨out, hout⟩ := exists_recovers_of_mem isAot startArgs hmem hframes
      cases out with
      | none => exact (hfirst none hout).elim
      | some order => exact (h _ hout).not_mem hs ht hne
    refine ⟨hor, hleast, fun t ht hne => ⟨hno t ht hne, ?_⟩⟩
    refine hs.placed ht hne fun order hsorts => ?_
    exact ((h _ ((hs.recovers_iff hframes hrestorable hno).mpr hsorts)).2 order rfl).adopted
  · rintro ⟨hor, hleast, hchildren⟩ out hout
    have hfirst := hcluster.mpr ⟨hor, hleast⟩
    obtain ⟨hframes, hrestorable, -⟩ := (mainFirst_iff hmem).mp hfirst
    have hs : MainLeast threads main := ⟨hmain, hhandles, hleast⟩
    have hno : ∀ t ∈ threads, t ≠ main → t.handle ∉ startArgs :=
      fun t ht hne => (hchildren t ht hne).1
    refine ⟨hfirst out hout, ?_⟩
    rintro order rfl
    have hsorts := (hs.recovers_iff hframes hrestorable hno).mp hout
    exact (allProcessed_iff _ _ _).mpr ⟨hs.pthreads hno hsorts, fun k hk hlt =>
      hs.adopted hsorts (fun t ht hne => (hchildren t ht hne).2) hk hlt⟩

/-- The main thread 1 has created thread 2. -/
theorem recover_restores_all_child :
    (∃ out, Recovers false ∅ (dumpCluster 1 [⟨2, [7, 5], []⟩, ⟨1, [4, 3], [0]⟩]) out) ∧
    ∀ out, Recovers false ∅ (dumpCluster 1 [⟨2, [7, 5], []⟩, ⟨1, [4, 3], [0]⟩]) out →
      RestoresAll ∅ ((∅ : Std.TreeMap ℕ ℕ).insert 2 1)
        (dumpEnv 1 (⟨1, [4, 3], [0]⟩ : ClusterThread ℕ))
        (dumpCluster 1 [⟨2, [7, 5], []⟩, ⟨1, [4, 3], [0]⟩]) out := by
  constructor
  · exact exists_recovers_of_mem false ∅ (e := dumpEnv 1 ⟨1, [4, 3], [0]⟩) (by simp [dumpCluster])
      (by simp [dumpCluster, dumpEnv])
  · refine (recover_restores_all_iff false ∅ _ [⟨2, [7, 5], []⟩, ⟨1, [4, 3], [0]⟩] ⟨1, [4, 3], [0]⟩
      (by simp) (by decide)).mpr ⟨.inr (by simp), by simp [ClusterThread.outermost], ?_⟩
    intro t ht hne
    simp only [List.mem_cons, List.not_mem_nil, or_false] at ht
    rcases ht with rfl | rfl
    · exact ⟨Std.TreeMap.not_mem_emptyc, .inr (.inl (by decide))⟩
    · exact absurd rfl hne

/-- A child whose entry comes before that of the main thread is restored into the main
environment. -/
theorem child_recovered_first :
    ¬ ∀ (isAot : Bool) (startArgs : Std.TreeMap ℕ (ℤ × ℤ)) (children : Std.TreeMap ℕ ℕ)
        (threads : List (ClusterThread ℕ)) (main : ClusterThread ℕ), main ∈ threads →
      (threads.map ClusterThread.handle).Nodup →
      ∀ out, Recovers isAot startArgs (dumpCluster main.handle threads) out →
        RestoresAll startArgs children (dumpEnv main.handle main)
          (dumpCluster main.handle threads) out := by
  intro hclaim
  have hall := hclaim false ∅ ∅ [⟨1, [5], [0]⟩, ⟨2, [3], [1]⟩] ⟨1, [5], [0]⟩ (by simp) (by decide)
  have hmem : dumpEnv 1 ⟨1, [5], [0]⟩ ∈ dumpCluster 1 [⟨1, [5], [0]⟩, ⟨2, [3], [1]⟩] := by
    simp [dumpCluster]
  have hleast := ((mainFirst_iff hmem).mp fun out hout => (hall out hout).1).2.2
    (dumpEnv 1 ⟨2, [3], [1]⟩) (by simp [dumpCluster]) (by simp [dumpEnv])
  exact absurd hleast (by decide)

end Order

end MVVM.Threads
