import MVVM.Threads.Adoption

/-!
# Who goes on after a restore (wamr.cpp:449, 529-546, 656-663)

Behind `spawn_child` the main thread goes on with the guest, if this is interpreted. With
compiled code it lets the children go, and exits before it has the log replayed. A child awaits
`wakeup`, and then on `thread_init` that the main thread has remapped the log.
-/

namespace MVVM.Threads

/-- How far a thread has come behind `spawn_child`. -/
inductive Behind where
  | returned
  -- the main thread has released `wakeup`, a child has acquired it
  | woken
  -- the main thread is in the guest, a child behind the `acquire` of `replay_sync_ops`
  | resumed
  deriving DecidableEq, Repr

structure Restoring where
  cluster : Notified
  wakeup : ℕ
  behind : ℕ → Behind

inductive RestoreLabel where
  | spawn (l : SpawnLabel)
  | resume (i : ℕ)
  deriving DecidableEq, Repr

def Restoring.go (x : Restoring) (i : ℕ) (b : Behind) (wakeup : ℕ) : Restoring :=
  { x with wakeup := wakeup, behind := Function.update x.behind i b }

/-- `exit(-1)` -/
def Restoring.exit (x : Restoring) : Restoring :=
  { x with cluster := { x.cluster with spawn := { x.cluster.spawn with exited := true } } }

/-- The next statement of thread `i`, which has left `spawn_child`. -/
def resumeThread (isAot : Bool) (x : Restoring) (i : ℕ) (main : Bool) : Option Restoring :=
  match main, x.behind i with
  | true, .returned =>
    if isAot then some (x.go i .woken (x.wakeup + 100)) else some (x.go i .resumed x.wakeup)
  -- `SPDLOG_ERROR("no impl")`
  | true, .woken => some x.exit
  | false, .returned =>
    if 0 < x.wakeup then some (x.go i .woken (x.wakeup - 1)) else none
  | false, .woken =>
    if 0 < x.cluster.spawn.threadInit then
      some { x.go i .resumed x.wakeup with
        cluster := { x.cluster with
          spawn := { x.cluster.spawn with threadInit := x.cluster.spawn.threadInit - 1 } } }
    else none
  | _, .resumed => none

def restoreStep (isAot : Bool) (c : Cluster) (spurious : Bool) (x : Restoring) :
    RestoreLabel → Option Restoring
  | .spawn l => (notifyStep c spurious x.cluster l).map fun y => { x with cluster := y }
  | .resume i =>
    match x.cluster.spawn.threads[i]? with
    | some w =>
      if w.pc = .done ∧ x.cluster.spawn.exited = false then resumeThread isAot x i w.main else none
    | none => none

variable {isAot spurious : Bool} {c : Cluster} {handle : ℕ} {children : Std.TreeMap ℕ ℕ}
  {x y : Restoring} {i : ℕ} {w : Worker}

/-! ### What no thread comes past -/

/-- When a thread has left `spawn_child` no token is left on `thread_init`. -/
theorem SpawnInv.threadInit_of_done {s : SpawnState} (hs : SpawnInv c s)
    (hw : s.threads[i]? = some w) (hpc : w.pc = .done) : s.threadInit = 0 := by
  refine (hs.idle fun j v hv hacq => ?_).2
  have hlt := ((hs.worker j v hv).usesChild (.inr (.inr hacq))).2
  have hge := (hs.worker i w hw).done hpc
  omega

/-- A step of a thread leaves the others where they are. -/
theorem runWorker_others {s u : SpawnState} {j : ℕ} {v : Worker} (h : runWorker c s j v = some u)
    {k : ℕ} (hk : j ≠ k) (hlt : k < s.threads.length) : u.threads[k]? = s.threads[k]? := by
  cases hpc : v.pc with
  | restoreEnv =>
    simp only [runWorker, hpc] at h
    obtain rfl := Option.some.inj h
    exact List.getElem?_set_ne hk
  | release =>
    simp only [runWorker, hpc] at h
    obtain rfl := Option.some.inj h
    exact List.getElem?_set_ne hk
  | start =>
    simp only [runWorker, hpc] at h
    split at h
    · obtain rfl := Option.some.inj h
      exact List.getElem?_set_ne hk
    · obtain rfl := Option.some.inj h
      exact List.getElem?_set_ne hk
  | lock =>
    simp only [runWorker, hpc] at h
    split at h
    · obtain rfl := Option.some.inj h
      exact List.getElem?_set_ne hk
    · cases h
  | loop =>
    simp only [runWorker, hpc] at h
    split at h
    · obtain rfl := Option.some.inj h
      obtain ⟨hsame, -⟩ := nextChild_frame (c := c) (s := s)
      rw [SpawnState.set, List.getElem?_set_ne hk, hsame]
    · obtain rfl := Option.some.inj h
      exact List.getElem?_set_ne hk
  | check =>
    simp only [runWorker, hpc] at h
    by_cases hwait : s.parent ≠ v.handle ∧ s.parent ≠ (if v.main then 0 else 1)
    · rw [if_pos hwait] at h
      obtain rfl := Option.some.inj h
      exact List.getElem?_set_ne hk
    · rw [if_neg hwait] at h
      obtain rfl := Option.some.inj h
      exact List.getElem?_set_ne hk
  | create =>
    simp only [runWorker, hpc] at h
    split at h
    · obtain rfl := Option.some.inj h
      rfl
    · obtain rfl := Option.some.inj h
      have hset : k < (s.threads.set j { v with pc := .acquire }).length := by
        rwa [List.length_set]
      exact (List.getElem?_append_left hset).trans (List.getElem?_set_ne hk)
  | acquire =>
    simp only [runWorker, hpc] at h
    split at h
    · obtain rfl := Option.some.inj h
      exact List.getElem?_set_ne hk
    · cases h
  | waiting =>
    simp only [runWorker, hpc] at h
    cases h
  | done =>
    simp only [runWorker, hpc] at h
    cases h

/-- A thread that has left `spawn_child` does not come back to it. -/
theorem done_of_spawnStep {s t : SpawnState} {l : SpawnLabel} (h : spawnStep c s l = some t)
    (hw : s.threads[i]? = some w) (hpc : w.pc = .done) : t.threads[i]? = some w := by
  have hlt : i < s.threads.length := (List.getElem?_eq_some_iff.mp hw).1
  cases l with
  | run j =>
    simp only [spawnStep] at h
    split at h
    · next v hv =>
      split at h
      · cases h
      · have hji : j ≠ i := by
          rintro rfl
          obtain rfl := Option.some.inj (hv.symm.trans hw)
          simp only [runWorker, hpc] at h
          cases h
        rw [runWorker_others h hji hlt, hw]
    · cases h
  | wake j =>
    simp only [spawnStep] at h
    split at h
    · next v hv =>
      split at h
      · next hwait =>
        have hji : j ≠ i := by
          rintro rfl
          obtain rfl := Option.some.inj (hv.symm.trans hw)
          rw [hpc] at hwait
          cases hwait.2
        obtain rfl := Option.some.inj h
        exact (List.getElem?_set_ne hji).trans hw
      · cases h
    · cases h

/-- What holds while the threads are restored: `wakeup` is only for compiled code, and nobody has
come behind `thread_init`. -/
structure Parked (isAot : Bool) (c : Cluster) (x : Restoring) : Prop where
  inv : SpawnInitial x.cluster.spawn ∨ SpawnInv c x.cluster.spawn
  left : ∀ i, x.behind i ≠ .returned →
    ∃ w, x.cluster.spawn.threads[i]? = some w ∧ w.pc = .done
  child : ∀ i, 0 < i → x.behind i ≠ .resumed
  main : x.behind 0 = .resumed → isAot = false
  interp : isAot = false → x.wakeup = 0 ∧ x.behind 0 ≠ .woken ∧ ∀ i, 0 < i → x.behind i = .returned

/-- The process is there no more, or the threads are held up. -/
def HeldUp (isAot : Bool) (c : Cluster) (x : Restoring) : Prop :=
  Parked isAot c x ∨ x.cluster.spawn.exited = true ∧ (∀ i, x.behind i ≠ .resumed)

theorem go_behind_self (x : Restoring) (i : ℕ) (b : Behind) (n : ℕ) :
    (x.go i b n).behind i = b := by
  simp [Restoring.go]

theorem go_behind_ne (x : Restoring) (b : Behind) (n : ℕ) {j : ℕ} (h : j ≠ i) :
    (x.go i b n).behind j = x.behind j := by
  simp [Restoring.go, Function.update_of_ne h]

/-- A thread goes on behind `spawn_child`. -/
theorem Parked.go (hx : Parked isAot c x) (hw : x.cluster.spawn.threads[i]? = some w)
    (hpc : w.pc = .done) {b : Behind} {n : ℕ} (hchild : 0 < i → isAot = true ∧ b ≠ .resumed)
    (hmain : i = 0 → (b = .resumed → isAot = false) ∧
      (isAot = false → b ≠ .woken ∧ n = x.wakeup)) : Parked isAot c (x.go i b n) where
  inv := hx.inv
  left j hj := by
    by_cases hji : j = i
    · exact ⟨w, hji ▸ hw, hpc⟩
    · rw [go_behind_ne x b n hji] at hj
      exact hx.left j hj
  child j hj h := by
    by_cases hji : j = i
    · subst hji
      rw [go_behind_self] at h
      exact (hchild hj).2 h
    · rw [go_behind_ne x b n hji] at h
      exact hx.child j hj h
  main h := by
    by_cases hi : i = 0
    · subst hi
      rw [go_behind_self] at h
      exact (hmain rfl).1 h
    · rw [go_behind_ne x b n (Ne.symm hi)] at h
      exact hx.main h
  interp haot := by
    have hi : i = 0 := by
      by_contra hne
      rw [(hchild (Nat.pos_of_ne_zero hne)).1] at haot
      cases haot
    subst hi
    obtain ⟨hb, rfl⟩ := (hmain rfl).2 haot
    obtain ⟨hwakeup, -, hrest⟩ := hx.interp haot
    refine ⟨hwakeup, by rwa [go_behind_self], fun j hj => ?_⟩
    rw [go_behind_ne x b _ (Nat.ne_of_gt hj)]
    exact hrest j hj

theorem Parked.spawnInv (hx : Parked isAot c x) (hw : x.cluster.spawn.threads[i]? = some w)
    (hpc : w.pc = .done) : SpawnInv c x.cluster.spawn := by
  refine hx.inv.resolve_left fun hs => ?_
  obtain ⟨g, hthreads⟩ := hs.threads
  rw [hthreads] at hw
  obtain ⟨hlt, hget⟩ := List.getElem?_eq_some_iff.mp hw
  rw [List.getElem_singleton] at hget
  rw [← hget] at hpc
  cases hpc

/-- Behind `spawn_child` nothing happens to the cluster, but for the exit of compiled code. -/
theorem Parked.resume (hx : Parked isAot c x) (hw : x.cluster.spawn.threads[i]? = some w)
    (hpc : w.pc = .done) (h : resumeThread isAot x i w.main = some y) :
    (Parked isAot c y ∧ y.cluster = x.cluster) ∨
      (i = 0 ∧ isAot = true ∧ y = x.exit ∧ ∀ j, y.behind j ≠ .resumed) := by
  have hinv := hx.spawnInv hw hpc
  have hmain := (hinv.worker i w hw).main
  cases hm : w.main with
  | true =>
    obtain rfl : i = 0 := hmain.mp hm
    have hzero : ¬0 < 0 := Nat.lt_irrefl 0
    rw [hm] at h
    cases hb : x.behind 0 with
    | returned =>
      simp only [resumeThread, hb] at h
      split at h
      · next haot =>
        obtain rfl := Option.some.inj h
        refine .inl ⟨hx.go hw hpc (fun h => absurd h hzero) fun _ => ⟨by simp, fun h => ?_⟩, rfl⟩
        rw [h] at haot
        cases haot
      · next haot =>
        obtain rfl := Option.some.inj h
        exact .inl ⟨hx.go hw hpc (fun h => absurd h hzero) fun _ =>
          ⟨fun _ => Bool.eq_false_iff.mpr haot, fun _ => ⟨by simp, rfl⟩⟩, rfl⟩
    | woken =>
      simp only [resumeThread, hb] at h
      obtain rfl := Option.some.inj h
      refine .inr ⟨rfl, ?_, rfl, fun j hj => ?_⟩
      · by_contra haot
        exact (hx.interp (Bool.eq_false_iff.mpr haot)).2.1 hb
      · rcases Nat.eq_zero_or_pos j with rfl | hpos
        · rw [show x.exit.behind 0 = x.behind 0 from rfl, hb] at hj
          cases hj
        · exact hx.child j hpos hj
    | resumed =>
      simp only [resumeThread, hb] at h
      cases h
  | false =>
    have hpos : 0 < i := Nat.pos_of_ne_zero fun hi => by
      rw [hmain.mpr hi] at hm
      cases hm
    rw [hm] at h
    cases hb : x.behind i with
    | returned =>
      simp only [resumeThread, hb] at h
      split at h
      · next hwakeup =>
        have haot : isAot = true := by
          by_contra haot
          have hzero := (hx.interp (Bool.eq_false_iff.mpr haot)).1
          omega
        obtain rfl := Option.some.inj h
        exact .inl ⟨hx.go hw hpc (fun _ => ⟨haot, by simp⟩) fun hi => absurd hi (Nat.ne_of_gt hpos),
          rfl⟩
      · cases h
    | woken =>
      -- nobody has released `thread_init` for the children
      simp only [resumeThread, hb, hinv.threadInit_of_done hw hpc] at h
      cases h
    | resumed =>
      simp only [resumeThread, hb] at h
      cases h

theorem notifyStep_spawn {x t : Notified} {l : SpawnLabel}
    (h : notifyStep c spurious x l = some t) : spawnStep c x.spawn l = some t.spawn := by
  cases l with
  | run j =>
    obtain ⟨u, hu, rfl⟩ := Option.map_eq_some_iff.mp h
    exact hu
  | wake j =>
    simp only [notifyStep] at h
    split at h
    · obtain ⟨u, hu, rfl⟩ := Option.map_eq_some_iff.mp h
      exact hu
    · cases h

theorem spawnStep_exited {s : SpawnState} (h : s.exited = true) (l : SpawnLabel) :
    spawnStep c s l = none := by
  cases l with
  | run j =>
    simp only [spawnStep, h]
    split
    · rfl
    · rfl
  | wake j =>
    simp only [spawnStep, h]
    split
    · simp
    · rfl

theorem HeldUp.step (hpthread : ∀ e ∈ c.execEnv.tail, e ∉ c.tidStartArgMap) (x : Restoring)
    (l : RestoreLabel) (y : Restoring) (hx : HeldUp isAot c x)
    (h : restoreStep isAot c spurious x l = some y) : HeldUp isAot c y := by
  cases l with
  | spawn l =>
    obtain ⟨z, hz, rfl⟩ := Option.map_eq_some_iff.mp h
    have hstep := notifyStep_spawn hz
    rcases hx with hx | ⟨hexited, hx⟩
    · refine .inl ⟨.inr ?_, fun j hj => ?_, hx.child, hx.main, hx.interp⟩
      · rcases hx.inv with hs | hs
        · exact hs.step hstep
        · exact hs.step hpthread hstep
      · obtain ⟨w, hw, hpc⟩ := hx.left j hj
        exact ⟨w, done_of_spawnStep hstep hw hpc, hpc⟩
    · rw [spawnStep_exited hexited] at hstep
      cases hstep
  | resume i =>
    simp only [restoreStep] at h
    split at h
    · next w hw =>
      split at h
      · next hdone =>
        rcases hx with hx | ⟨hexited, -⟩
        · rcases hx.resume hw hdone.1 h with ⟨hy, -⟩ | ⟨-, -, rfl, hy⟩
          · exact .inl hy
          · exact .inr ⟨rfl, hy⟩
        · rw [hdone.2] at hexited
          cases hexited
      · cases h
    · cases h

def recovering (s : SpawnState) (notified : ℕ → Bool) : Restoring :=
  ⟨⟨s, notified⟩, 0, fun _ => .returned⟩

theorem heldUp_start {s : SpawnState} (hs : SpawnInitial s) (notified : ℕ → Bool) :
    HeldUp isAot c (recovering s notified) :=
  .inl ⟨.inl hs, fun _ h => absurd rfl h, fun _ _ => Behind.noConfusion, Behind.noConfusion,
    fun _ => ⟨rfl, Behind.noConfusion, fun _ _ => rfl⟩⟩

/-- No child goes on with the guest, and with compiled code no thread does. The main thread of an
interpreted program does so when all children have been created. -/
theorem children_held_up (isAot : Bool) (c : Cluster) (s : SpawnState) (notified : ℕ → Bool)
    (hpthread : ∀ e ∈ c.execEnv.tail, e ∉ c.tidStartArgMap) (hs : SpawnInitial s) (x : Restoring)
    (h : Run.Reaches (restoreStep isAot c true) (recovering s notified) x) :
    (∀ i, x.behind i = .resumed → i = 0 ∧ isAot = false) ∧
    (x.behind 0 = .resumed → c.execEnv.length ≤ x.cluster.spawn.threads.length) := by
  have hx := h.invariant (HeldUp isAot c) (HeldUp.step hpthread) (heldUp_start hs notified)
  rcases hx with hx | ⟨-, hx⟩
  · refine ⟨fun i hi => ?_, fun h0 => ?_⟩
    · rcases Nat.eq_zero_or_pos i with rfl | hpos
      · exact ⟨rfl, hx.main hi⟩
      · exact absurd hi (hx.child i hpos)
    · obtain ⟨w, hw, hpc⟩ := hx.left 0 (by simp [h0])
      have hinv := hx.spawnInv hw hpc
      have hge := (hinv.worker 0 w hw).done hpc
      have hle := hinv.iter_le
      omega
  · exact ⟨fun i hi => absurd hi (hx i), fun h0 => absurd h0 (hx 0)⟩

/-- The children 11 and 12 are created; the main thread goes on without them. -/
def grandchildResumed : List RestoreLabel :=
  List.map .spawn (grandchildRun ++ [.run 1, .wake 0, .run 0, .run 0]) ++ [.resume 0]

theorem grandchild_held_up :
    ∃ x, Run.exec (restoreStep false grandchild true) (recovering mainOnly fun _ => false)
        grandchildResumed = some x ∧
      x.behind 0 = .resumed ∧ 3 ≤ x.cluster.spawn.threads.length ∧
      ∀ i, x.behind i = .resumed → i = 0 := by
  have hrun : (Run.exec (restoreStep false grandchild true) (recovering mainOnly fun _ => false)
      grandchildResumed).map (fun x => x.behind 0) = some .resumed := by decide +kernel
  obtain ⟨x, hx, hmain⟩ := Option.map_eq_some_iff.mp hrun
  obtain ⟨honly, hall⟩ := children_held_up false grandchild mainOnly (fun _ => false) (by decide)
    ⟨⟨10, rfl⟩, rfl, rfl, rfl⟩ x ⟨grandchildResumed, hx⟩
  exact ⟨x, hx, hmain, hall hmain, fun i hi => (honly i hi).1⟩

/-! ### The main thread leaves `spawn_child` -/

/-- Without a notification too many, the main thread can come behind `spawn_child`. -/
def Leaves (c : Cluster) (handle : ℕ) (children : Std.TreeMap ℕ ℕ) (x : Notified) : Prop :=
  ∃ y w, Run.Reaches (notifyStep c false) x y ∧ Kept c handle children y ∧
    y.spawn.threads[0]? = some w ∧ w.pc = .done

variable {z t : Notified}

theorem Leaves.head {l : SpawnLabel} (h : notifyStep c false z l = some t)
    (ht : Leaves c handle children t) : Leaves c handle children z := by
  obtain ⟨y, w, hreach, hy⟩ := ht
  exact ⟨y, w, Run.Reaches.head l h hreach, hy⟩

/-- A thread leaves the loop when no child is left. -/
theorem Kept.ends (hpthread : ∀ e ∈ c.execEnv.tail, e ∉ c.tidStartArgMap)
    (hz : Kept c handle children z) (hw : z.spawn.threads[i]? = some w) (hpc : w.pc = .loop)
    (hall : c.execEnv.length ≤ z.spawn.threads.length) :
    ∃ f, notifyStep c false z (.run i) =
        some ⟨{ z.spawn.set i { w with pc := .done } with mtx := none }, f⟩ ∧
      Kept c handle children ⟨{ z.spawn.set i { w with pc := .done } with mtx := none }, f⟩ := by
  obtain ⟨hiter, -⟩ := hz.inv.idle_of_holding hw (.inl hpc) (by simp [hpc])
  have hend : ¬z.spawn.iter < c.execEnv.length := by omega
  have hrun : runWorker c z.spawn i w =
      some { z.spawn.set i { w with pc := .done } with mtx := none } := by
    simp only [runWorker, hpc, if_neg hend]
  exact ⟨_, hz.goes hpthread hw hrun⟩

theorem leaves_loop (hpthread : ∀ e ∈ c.execEnv.tail, e ∉ c.tidStartArgMap)
    (hz : Kept c handle children z) (hw : z.spawn.threads[0]? = some w) (hpc : w.pc = .loop)
    (hall : c.execEnv.length ≤ z.spawn.threads.length) : Leaves c handle children z := by
  obtain ⟨f, hstep, hkept⟩ := hz.ends hpthread hw hpc hall
  exact ⟨_, _, Run.Reaches.single _ hstep, hkept, List.getElem?_set_self hz.first, rfl⟩

theorem leaves_lock (hpthread : ∀ e ∈ c.execEnv.tail, e ∉ c.tidStartArgMap)
    (hz : Kept c handle children z) (hw : z.spawn.threads[0]? = some w) (hpc : w.pc = .lock)
    (hfree : z.spawn.mtx = none) (hall : c.execEnv.length ≤ z.spawn.threads.length) :
    Leaves c handle children z := by
  have hrun : runWorker c z.spawn 0 w =
      some { z.spawn.set 0 { w with pc := .loop } with mtx := some 0 } := by
    simp only [runWorker, hpc, if_pos hfree]
  obtain ⟨hstep, hkept⟩ := hz.goes hpthread hw hrun
  refine Leaves.head hstep (leaves_loop hpthread hkept (List.getElem?_set_self hz.first) rfl ?_)
  exact Nat.le_trans hall (Nat.le_of_eq List.length_set.symm)

/-- Nobody holds the lock. -/
theorem leaves_free (hpthread : ∀ e ∈ c.execEnv.tail, e ∉ c.tidStartArgMap)
    (hz : Kept c handle children z) (hfree : z.spawn.mtx = none)
    (hall : c.execEnv.length ≤ z.spawn.threads.length) : Leaves c handle children z := by
  have hidle : ∀ (j : ℕ) (v : Worker), z.spawn.threads[j]? = some v → ¬v.pc.Holding := by
    intro j v hv hhold
    have hmtx := (hz.inv.worker j v hv).holding.mp hhold
    rw [hfree] at hmtx
    cases hmtx
  have hiter := (hz.inv.idle fun j v hv hacq => hidle j v hv (.inr (.inr (.inr hacq)))).1
  obtain ⟨w, hw⟩ : ∃ w, z.spawn.threads[0]? = some w := ⟨_, List.getElem?_eq_getElem hz.first⟩
  have hmain : w.main = true := (hz.inv.worker 0 w hw).main.mpr rfl
  have hboot : ¬w.pc.Booting := fun hb => Nat.lt_irrefl 0 (hz.inv.booting_pos hw hb)
  cases hpc : w.pc with
  | restoreEnv => exact absurd (.inl hpc) hboot
  | release => exact absurd (.inr hpc) hboot
  | start => exact absurd hpc ((hz.inv.worker 0 w hw).started hmain)
  | lock => exact leaves_lock hpthread hz hw hpc hfree hall
  | loop => exact absurd (.inl hpc) (hidle 0 w hw)
  | check => exact absurd (.inr (.inl hpc)) (hidle 0 w hw)
  | create => exact absurd (.inr (.inr (.inl hpc))) (hidle 0 w hw)
  | acquire => exact absurd (.inr (.inr (.inr hpc))) (hidle 0 w hw)
  | waiting =>
    -- it was notified of the last child
    have hnotified : z.notified 0 = true := by
      by_contra hn
      obtain ⟨e, he, -⟩ := hz.waiting 0 w hw hpc (Bool.eq_false_iff.mpr hn)
      have hlt := (List.getElem?_eq_some_iff.mp he).1
      omega
    have hstep : notifyStep c false z (.wake 0) =
        some ⟨z.spawn.set 0 { w with pc := .lock }, z.notified⟩ := by
      simp [notifyStep, hnotified, spawnStep, hw, hpc, hz.inv.exited]
    exact Leaves.head hstep (leaves_lock hpthread (hz.step hpthread hstep)
      (List.getElem?_set_self hz.first) rfl hfree
      (Nat.le_trans hall (Nat.le_of_eq List.length_set.symm)))
  | done => exact ⟨z, w, Run.Reaches.refl z, hz, hw, hpc⟩

theorem leaves_held (hpthread : ∀ e ∈ c.execEnv.tail, e ∉ c.tidStartArgMap)
    (hz : Kept c handle children z) (hw : z.spawn.threads[i]? = some w) (hpc : w.pc = .loop)
    (hall : c.execEnv.length ≤ z.spawn.threads.length) : Leaves c handle children z := by
  obtain ⟨f, hstep, hkept⟩ := hz.ends hpthread hw hpc hall
  exact Leaves.head hstep (leaves_free hpthread hkept rfl
    (Nat.le_trans hall (Nat.le_of_eq List.length_set.symm)))

/-- When all children are there, the main thread leaves. -/
theorem leaves (hpthread : ∀ e ∈ c.execEnv.tail, e ∉ c.tidStartArgMap)
    (hz : Kept c handle children z) (hall : c.execEnv.length ≤ z.spawn.threads.length) :
    Leaves c handle children z := by
  cases hmtx : z.spawn.mtx with
  | none => exact leaves_free hpthread hz hmtx hall
  | some i =>
    obtain ⟨w, hw⟩ : ∃ w, z.spawn.threads[i]? = some w :=
      ⟨_, List.getElem?_eq_getElem (hz.mtx i hmtx)⟩
    have hworker := hz.inv.worker i w hw
    have hno : ¬(w.pc = .check ∨ w.pc = .create) := by
      intro hpc
      have huses : w.pc.UsesChild := hpc.elim .inl fun h => .inr (.inl h)
      have hacq : w.pc ≠ .acquire := by
        rcases hpc with hpc | hpc
        · simp [hpc]
        · simp [hpc]
      have hbound := (hworker.usesChild huses).2
      obtain ⟨hiter, -⟩ := hz.inv.idle_of_holding hw (usesChild_holding huses) hacq
      omega
    rcases hworker.holding.mpr hmtx with hpc | hpc | hpc | hpc
    · exact leaves_held hpthread hz hw hpc hall
    · exact absurd (.inl hpc) hno
    · exact absurd (.inr hpc) hno
    · obtain ⟨y, v, hzy, hy, hv, hvpc, hlen⟩ := loops_boot hpthread hz hw hpc
      obtain ⟨u, v', hyu, hu⟩ := leaves_held hpthread hy hv hvpc (hlen ▸ hall)
      exact ⟨u, v', hzy.trans hyu, hu⟩

/-! ### The end of the restore -/

/-- The main thread is in the guest, or, with compiled code, has exited. -/
def Ended (isAot : Bool) (x : Restoring) : Prop :=
  if isAot then x.cluster.spawn.exited = true else x.behind 0 = .resumed

theorem reaches_cluster (isAot : Bool) (h : Run.Reaches (notifyStep c spurious) x.cluster z) :
    Run.Reaches (restoreStep isAot c spurious) x { x with cluster := z } :=
  h.invariant (fun z => Run.Reaches (restoreStep isAot c spurious) x { x with cluster := z })
    (fun _ l _ hs hst => hs.trans (Run.Reaches.single (.spawn l) (by
      rw [restoreStep, hst, Option.map_some])))
    (Run.Reaches.refl x)

/-- What holds in a restore from its beginning on, unless it has come to an exit. -/
def Underway (isAot : Bool) (c : Cluster) (handle : ℕ) (start : Notified) (x : Restoring) : Prop :=
  Parked isAot c x ∧ (x.cluster = start ∨ Kept c handle start.spawn.childTidMap x.cluster)

theorem Kept.all_adopted {children : Std.TreeMap ℕ ℕ} (hz : Kept c handle children z)
    (hw : z.spawn.threads[i]? = some w) (hpc : w.pc = .done) :
    ∀ k, 0 < k → k < c.execEnv.length → Adopted c handle children k := by
  intro k hk hlt
  have hge := (hz.inv.worker i w hw).done hpc
  have hle := hz.inv.iter_le
  exact hz.adopted k hk (by omega)

/-- Compiled code has exited, and all children had a parent. -/
def Exited (isAot : Bool) (c : Cluster) (handle : ℕ) (start : Notified) (x : Restoring) : Prop :=
  isAot = true ∧ x.cluster.spawn.exited = true ∧
    ∀ k, 0 < k → k < c.execEnv.length → Adopted c handle start.spawn.childTidMap k

theorem not_done_of_initial {s : SpawnState} (hs : SpawnInitial s)
    (hw : s.threads[i]? = some w) : w.pc ≠ .done := by
  obtain ⟨g, hthreads⟩ := hs.threads
  rw [hthreads] at hw
  obtain ⟨hlt, hget⟩ := List.getElem?_eq_some_iff.mp hw
  rw [List.getElem_singleton] at hget
  rw [← hget]
  exact SpawnPc.noConfusion

theorem underway_step (hpthread : ∀ e ∈ c.execEnv.tail, e ∉ c.tidStartArgMap) {start : Notified}
    (hs : SpawnInitial start.spawn)
    (hthreads : start.spawn.threads = [⟨true, handle, 0, none, .start⟩])
    (x : Restoring) (l : RestoreLabel) (y : Restoring)
    (hx : Underway isAot c handle start x ∨ Exited isAot c handle start x)
    (h : restoreStep isAot c spurious x l = some y) :
    Underway isAot c handle start y ∨ Exited isAot c handle start y := by
  cases l with
  | spawn l =>
    have hstep := h
    obtain ⟨z, hz, rfl⟩ := Option.map_eq_some_iff.mp h
    rcases hx with ⟨hparked, hcluster⟩ | ⟨-, hexited, -⟩
    · have hkept : Kept c handle start.spawn.childTidMap z := by
        rcases hcluster with hstart | hkept
        · rw [hstart] at hz
          exact (kept_start hs hthreads hz).2
        · exact hkept.step hpthread hz
      rcases HeldUp.step hpthread x (.spawn l) _ (.inl hparked) hstep with hy | ⟨hexited, -⟩
      · exact .inl ⟨hy, .inr hkept⟩
      · rw [hkept.inv.exited] at hexited
        cases hexited
    · have hnone := notifyStep_spawn hz
      rw [spawnStep_exited hexited] at hnone
      cases hnone
  | resume i =>
    simp only [restoreStep] at h
    split at h
    · next w hw =>
      split at h
      · next hdone =>
        rcases hx with ⟨hparked, hcluster⟩ | ⟨-, hexited, -⟩
        · rcases hparked.resume hw hdone.1 h with ⟨hy, hsame⟩ | ⟨rfl, haot, rfl, -⟩
          · exact .inl ⟨hy, hsame ▸ hcluster⟩
          · refine .inr ⟨haot, rfl, ?_⟩
            rcases hcluster with hstart | hkept
            · rw [hstart] at hw
              exact absurd hdone.1 (not_done_of_initial hs hw)
            · exact hkept.all_adopted hw hdone.1
        · rw [hdone.2] at hexited
          cases hexited
      · cases h
    · cases h

theorem underway_run (hpthread : ∀ e ∈ c.execEnv.tail, e ∉ c.tidStartArgMap) {start : Notified}
    (hs : SpawnInitial start.spawn)
    (hthreads : start.spawn.threads = [⟨true, handle, 0, none, .start⟩])
    (hx : Underway isAot c handle start x) (h : Run.Reaches (restoreStep isAot c spurious) x y) :
    Underway isAot c handle start y ∨ Exited isAot c handle start y :=
  h.invariant (fun x => Underway isAot c handle start x ∨ Exited isAot c handle start x)
    (underway_step hpthread hs hthreads) (.inl hx)

/-- Behind `spawn_child` the main thread comes to the end. -/
theorem ends_of_done (hw : x.cluster.spawn.threads[0]? = some w) (hpc : w.pc = .done)
    (hmain : w.main = true) (hexited : x.cluster.spawn.exited = false)
    (hx : Parked isAot c x) :
    ∃ y, Run.Reaches (restoreStep isAot c false) x y ∧ Ended isAot y := by
  have hgo : ∀ x' : Restoring, x'.cluster = x.cluster →
      restoreStep isAot c false x' (.resume 0) = resumeThread isAot x' 0 true := by
    intro x' hsame
    simp only [restoreStep, hsame, hw, hpc, hexited, hmain]
    rfl
  cases haot : isAot with
  | false =>
    subst haot
    cases hb : x.behind 0 with
    | returned =>
      refine ⟨x.go 0 .resumed x.wakeup, Run.Reaches.single (.resume 0) ?_, go_behind_self x 0 _ _⟩
      rw [hgo x rfl]
      simp [resumeThread, hb]
    | woken => exact absurd hb (hx.interp rfl).2.1
    | resumed => exact ⟨x, Run.Reaches.refl x, hb⟩
  | true =>
    subst haot
    have hexit : ∀ x' : Restoring, x'.cluster = x.cluster → x'.behind 0 = .woken →
        ∃ y, Run.Reaches (restoreStep true c false) x' y ∧ Ended true y := by
      intro x' hsame hb
      refine ⟨x'.exit, Run.Reaches.single (.resume 0) ?_, rfl⟩
      rw [hgo x' hsame]
      simp [resumeThread, hb]
    cases hb : x.behind 0 with
    | returned =>
      obtain ⟨y, hy, hend⟩ := hexit (x.go 0 .woken (x.wakeup + 100)) rfl (go_behind_self x 0 _ _)
      refine ⟨y, Run.Reaches.head (.resume 0) ?_ hy, hend⟩
      rw [hgo x rfl]
      simp [resumeThread, hb]
    | woken => exact hexit x rfl hb
    | resumed => exact absurd (hx.main hb) (by simp)

theorem Underway.ends (hpthread : ∀ e ∈ c.execEnv.tail, e ∉ c.tidStartArgMap) {start : Notified}
    (hx : Underway isAot c handle start x)
    (hkept : Kept c handle start.spawn.childTidMap x.cluster)
    (hs : SpawnInitial start.spawn)
    (hthreads : start.spawn.threads = [⟨true, handle, 0, none, .start⟩])
    (hall : ∀ k, 0 < k → k < c.execEnv.length → Adopted c handle start.spawn.childTidMap k) :
    ∃ y, Run.Reaches (restoreStep isAot c false) x y ∧ Ended isAot y := by
  obtain ⟨z, hxz, hz, hlen⟩ := hkept.completes hpthread hall _ (Nat.le_add_left _ _)
  obtain ⟨u, w, hzu, hu, hw, hpc⟩ := leaves hpthread hz (by omega)
  have hreach := reaches_cluster isAot (hxz.trans hzu)
  rcases underway_run hpthread hs hthreads hx hreach with ⟨hparked, -⟩ | ⟨-, hexited, -⟩
  · have hmain : w.main = true := (hu.inv.worker 0 w hw).main.mpr rfl
    obtain ⟨y, hy, hend⟩ := ends_of_done (c := c) hw hpc hmain hu.inv.exited hparked
    exact ⟨y, hreach.trans hy, hend⟩
  · rw [hu.inv.exited] at hexited
    cases hexited

theorem underway_start {s : SpawnState} (hs : SpawnInitial s) (notified : ℕ → Bool) :
    Underway isAot c handle ⟨s, notified⟩ (recovering s notified) := by
  have hheld : HeldUp isAot c (recovering s notified) := heldUp_start hs notified
  rcases hheld with hparked | ⟨hexited, -⟩
  · exact ⟨hparked, .inl rfl⟩
  · have hrunning : (recovering s notified).cluster.spawn.exited = false := hs.exited
    rw [hrunning] at hexited
    cases hexited

/-- The main thread has gone through all children. -/
theorem Underway.all_adopted {start : Notified} (hs : SpawnInitial start.spawn)
    (hx : Underway isAot c handle start x) (hend : Ended isAot x) :
    ∀ k, 0 < k → k < c.execEnv.length → Adopted c handle start.spawn.childTidMap k := by
  obtain ⟨hparked, hcluster⟩ := hx
  cases isAot with
  | false =>
    have hresumed : x.behind 0 = .resumed := hend
    obtain ⟨w, hw, hpc⟩ := hparked.left 0 (by simp [hresumed])
    rcases hcluster with hsame | hkept
    · rw [hsame] at hw
      exact absurd hpc (not_done_of_initial hs hw)
    · exact hkept.all_adopted hw hpc
  | true =>
    have hexited : x.cluster.spawn.exited = true := hend
    rcases hcluster with hsame | hkept
    · rw [hsame, hs.exited] at hexited
      cases hexited
    · rw [hkept.inv.exited] at hexited
      cases hexited

theorem Underway.reaches_end (hpthread : ∀ e ∈ c.execEnv.tail, e ∉ c.tidStartArgMap)
    {start : Notified} (hs : SpawnInitial start.spawn)
    (hthreads : start.spawn.threads = [⟨true, handle, 0, none, .start⟩])
    (hx : Underway isAot c handle start x)
    (hall : ∀ k, 0 < k → k < c.execEnv.length → Adopted c handle start.spawn.childTidMap k) :
    ∃ y, Run.Reaches (restoreStep isAot c false) x y ∧ Ended isAot y := by
  rcases hx.2 with hsame | hkept
  · -- the main thread has to set the iterator first
    obtain ⟨z, hz⟩ : ∃ z, notifyStep c false x.cluster (.run 0) = some z := by
      simp [notifyStep, spawnStep, hsame, hthreads, hs.exited, runWorker]
    have hstep : restoreStep isAot c false x (.spawn (.run 0)) =
        some { x with cluster := z } := by rw [restoreStep, hz, Option.map_some]
    have hkept : Kept c handle start.spawn.childTidMap z := by
      rw [hsame] at hz
      exact (kept_start hs hthreads hz).2
    rcases underway_step hpthread hs hthreads x _ _ (.inl hx) hstep with
      hnext | ⟨-, hexited, -⟩
    · obtain ⟨y, hy, hend⟩ := hnext.ends hpthread hkept hs hthreads hall
      exact ⟨y, Run.Reaches.head _ hstep hy, hend⟩
    · rw [hkept.inv.exited] at hexited
      cases hexited
  · exact hx.ends hpthread hkept hs hthreads hall

/-- From wherever the threads have come to, the restore can still come to its end, just when each
child has its parent among the threads before it. -/
theorem restore_ends_iff (isAot : Bool) (c : Cluster) (s : SpawnState) (notified : ℕ → Bool)
    (handle : ℕ) (hpthread : ∀ e ∈ c.execEnv.tail, e ∉ c.tidStartArgMap) (hs : SpawnInitial s)
    (hthreads : s.threads = [⟨true, handle, 0, none, .start⟩]) :
    (∀ x, Run.Reaches (restoreStep isAot c true) (recovering s notified) x →
      ∃ y, Run.Reaches (restoreStep isAot c false) x y ∧ Ended isAot y) ↔
    ∀ k, 0 < k → k < c.execEnv.length → Adopted c handle s.childTidMap k := by
  have hstart : Underway isAot c handle ⟨s, notified⟩ (recovering s notified) :=
    underway_start hs notified
  constructor
  · intro hall
    obtain ⟨y, hy, hend⟩ := hall _ (Run.Reaches.refl _)
    rcases underway_run hpthread hs hthreads hstart hy with hway | ⟨-, -, hdone⟩
    · exact hway.all_adopted hs hend
    · exact hdone
  · intro hall x hx
    rcases underway_run hpthread hs hthreads hstart hx with hway | ⟨haot, hexited, -⟩
    · exact hway.reaches_end hpthread hs hthreads hall
    · exact ⟨x, Run.Reaches.refl x, by rw [Ended, haot]; exact hexited⟩

theorem grandchild_ends :
    (∃ y, Run.Reaches (restoreStep true grandchild false) (recovering mainOnly fun _ => false) y ∧
      Ended true y) ∧
    ¬∀ x, Run.Reaches (restoreStep true grandchildFirst true)
        (recovering mainOnly fun _ => false) x →
      ∃ y, Run.Reaches (restoreStep true grandchildFirst false) x y ∧ Ended true y := by
  have hstart : SpawnInitial mainOnly := ⟨⟨10, rfl⟩, rfl, rfl, rfl⟩
  constructor
  · exact (restore_ends_iff true grandchild mainOnly (fun _ => false) 10 (by decide) hstart rfl).mpr
      grandchild_adopted _ (Run.Reaches.refl _)
  · intro hall
    exact grandchildFirst_not_adopted ((restore_ends_iff true grandchildFirst mainOnly
      (fun _ => false) 10 (by decide) hstart rfl).mp hall 1 Nat.one_pos (by decide))

end MVVM.Threads
