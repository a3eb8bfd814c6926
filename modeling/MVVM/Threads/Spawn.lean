import MVVM.Run
import Mathlib.Algebra.Group.Int.Defs
import Mathlib.Data.Int.Notation
import Std.Data.TreeMap

/-!
# Spawning the children of a restored cluster

The main thread and every child that it has created run `spawn_child`, which hands an
iterator over the environments, the id of the parent that has to create the next child, and
the environment of that child from thread to thread.
-/

namespace MVVM.Threads

/-- What the threads only read: `cur_count` of the environments in `execEnv`, and
`tid_start_arg_map`. -/
structure Cluster where
  execEnv : List ℕ
  tidStartArgMap : Std.TreeMap ℕ (ℤ × ℤ)

/-- Where a thread stands: in `restore_env` or `wamr_wait` before the loop, at the lock of
`spawn_child`, at one of the statements of its loop, in `cv.wait`, or behind it. -/
inductive SpawnPc where
  | restoreEnv
  | release
  | start
  | lock
  | loop
  | check
  | create
  | acquire
  | waiting
  | done
  deriving DecidableEq, Repr

/-- A thread: the two arguments of `spawn_child`, the element of `execEnv` at which the
iterator stood when the thread was created, and the one that `restore_env` has restored. -/
structure Worker where
  main : Bool
  handle : ℕ
  entry : ℕ
  restored : Option ℕ
  pc : SpawnPc
  deriving DecidableEq, Repr

/-- The data that the threads share. Pointers into `execEnv` are indices. -/
structure SpawnState where
  iter : ℕ
  parent : ℕ
  childEnv : Option ℕ
  mtx : Option ℕ
  threadInit : ℕ
  childTidMap : Std.TreeMap ℕ ℕ
  threads : List Worker
  exited : Bool

/-- A thread takes its next step, or comes back from `cv.wait`, whoever has woken it. -/
inductive SpawnLabel where
  | run (i : ℕ)
  | wake (i : ℕ)
  deriving DecidableEq, Repr

def SpawnState.set (s : SpawnState) (i : ℕ) (w : Worker) : SpawnState :=
  { s with threads := s.threads.set i w }

def u64 (z : ℤ) : ℕ := (z % 2 ^ 64).toNat

/-- The id under which the parent of a child is looked up. -/
def lookupId (c : Cluster) (curCount : ℕ) : ℕ :=
  match c.tidStartArgMap[curCount]? with
  | some args => u64 args.2
  | none => curCount

def parentOf (c : Cluster) (children : Std.TreeMap ℕ ℕ) (curCount : ℕ) : ℕ :=
  match c.tidStartArgMap.toList.find? fun e =>
      u64 e.2.2 == children.getD (lookupId c curCount) 0 with
  | some e => e.1
  | none => children.getD (lookupId c curCount) 0

/-- `if (parent == 0)` in the loop. Looking up a child that is not in `child_tid_map`
inserts it. -/
def nextChild (c : Cluster) (s : SpawnState) : SpawnState :=
  match c.execEnv[s.iter]? with
  | some curCount =>
    if s.parent = 0 then
      { s with childEnv := some s.iter,
               parent := parentOf c s.childTidMap curCount,
               childTidMap := s.childTidMap.insertIfNew (lookupId c curCount) 0 }
    else s
  | none => s

def childCount (c : Cluster) (s : SpawnState) : ℕ :=
  (s.childEnv.bind fun e => c.execEnv[e]?).getD 0

def runWorker (c : Cluster) (s : SpawnState) (i : ℕ) (w : Worker) : Option SpawnState :=
  match w.pc with
  | .restoreEnv =>
    some (s.set i { w with restored := s.childEnv, handle := childCount c s, pc := .release })
  | .release => some { s.set i { w with pc := .start } with threadInit := s.threadInit + 1 }
  | .start =>
    if w.main then some { s.set i { w with pc := .lock } with iter := 1, parent := 0 }
    else some (s.set i { w with pc := .lock })
  | .lock =>
    if s.mtx = none then some { s.set i { w with pc := .loop } with mtx := some i } else none
  | .loop =>
    if s.iter < c.execEnv.length then some ((nextChild c s).set i { w with pc := .check })
    else some { s.set i { w with pc := .done } with mtx := none }
  | .check =>
    if s.parent ≠ w.handle ∧ s.parent ≠ (if w.main then 0 else 1) then
      some { s.set i { w with pc := .waiting } with mtx := none }
    else some (s.set i { w with pc := .create })
  | .create =>
    if childCount c s ∈ c.tidStartArgMap then some { s with exited := true }
    else some { s.set i { w with pc := .acquire } with
      threads := (s.set i { w with pc := .acquire }).threads ++
        [⟨false, 0, s.iter, none, .restoreEnv⟩] }
  | .acquire =>
    if 0 < s.threadInit then
      some { s.set i { w with pc := .loop } with
        threadInit := s.threadInit - 1, iter := s.iter + 1, parent := 0 }
    else none
  | .waiting => none
  | .done => none

def spawnStep (c : Cluster) (s : SpawnState) : SpawnLabel → Option SpawnState
  | .run i =>
    match s.threads[i]? with
    | some w => if s.exited then none else runWorker c s i w
    | none => none
  | .wake i =>
    match s.threads[i]? with
    | some w =>
      if s.exited = false ∧ w.pc = .waiting then some (s.set i { w with pc := .lock }) else none
    | none => none

/-- The state in which `recover` calls `spawn_child`: there is only the main thread. The
static variables hold anything. -/
structure SpawnInitial (s : SpawnState) : Prop where
  threads : ∃ handle, s.threads = [⟨true, handle, 0, none, .start⟩]
  mtx : s.mtx = none
  threadInit : s.threadInit = 0
  exited : s.exited = false

/-! ### The invariant -/

def SpawnPc.Holding (pc : SpawnPc) : Prop :=
  pc = .loop ∨ pc = .check ∨ pc = .create ∨ pc = .acquire

def SpawnPc.Booting (pc : SpawnPc) : Prop := pc = .restoreEnv ∨ pc = .release

def SpawnPc.UsesChild (pc : SpawnPc) : Prop := pc = .check ∨ pc = .create ∨ pc = .acquire

/-- A thread at a place has what a thread there has to have. -/
structure WorkerInv (c : Cluster) (s : SpawnState) (j : ℕ) (w : Worker) : Prop where
  entry : w.entry = j
  main : w.main = true ↔ j = 0
  started : w.main = true → w.pc ≠ .start
  holding : w.pc.Holding ↔ s.mtx = some j
  booting : w.pc.Booting → j + 1 = s.threads.length ∧ s.threadInit = 0 ∧
    ∃ (i : ℕ) (v : Worker), s.threads[i]? = some v ∧ v.pc = .acquire
  acquire : w.pc = .acquire → s.iter + 1 = s.threads.length ∧ s.threadInit ≤ 1
  restored : 0 < j → w.pc ≠ .restoreEnv → w.restored = some j
  usesChild : w.pc.UsesChild → s.childEnv = some s.iter ∧ s.iter < c.execEnv.length
  done : w.pc = .done → c.execEnv.length ≤ s.iter

structure SpawnInv (c : Cluster) (s : SpawnState) : Prop where
  worker : ∀ (j : ℕ) (w : Worker), s.threads[j]? = some w → WorkerInv c s j w
  idle : (∀ (i : ℕ) (v : Worker), s.threads[i]? = some v → v.pc ≠ .acquire) →
    s.iter = s.threads.length ∧ s.threadInit = 0
  parent : s.parent ≠ 0 → s.childEnv = some s.iter
  bound : s.threads.length ≤ max 1 c.execEnv.length
  exited : s.exited = false

variable {c : Cluster} {s : SpawnState} {i j : ℕ} {w w' v : Worker}

theorem set_cases (hw : s.threads[i]? = some w) (h : (s.threads.set i w')[j]? = some v) :
    (j = i ∧ v = w') ∨ (j ≠ i ∧ s.threads[j]? = some v) := by
  have hlt : i < s.threads.length := (List.getElem?_eq_some_iff.mp hw).1
  by_cases hj : j = i
  · subst hj
    rw [List.getElem?_set_self hlt] at h
    exact Or.inl ⟨rfl, (Option.some.inj h).symm⟩
  · rw [List.getElem?_set_ne (fun he => hj he.symm)] at h
    exact Or.inr ⟨hj, h⟩

theorem SpawnInv.holder (hs : SpawnInv c s) (hw : s.threads[i]? = some w)
    (hi : w.pc.Holding) (hv : s.threads[j]? = some v) (hj : v.pc.Holding) : j = i := by
  have h1 : s.mtx = some i := (hs.worker i w hw).holding.mp hi
  have h2 : s.mtx = some j := (hs.worker j v hv).holding.mp hj
  exact Option.some.inj (h2.symm.trans h1)

theorem SpawnInv.idle_of_holding (hs : SpawnInv c s) (hw : s.threads[i]? = some w)
    (hi : w.pc.Holding) (hne : w.pc ≠ .acquire) :
    s.iter = s.threads.length ∧ s.threadInit = 0 := by
  apply hs.idle
  intro k u hu hacq
  obtain rfl := hs.holder hw hi hu (Or.inr (Or.inr (Or.inr hacq)))
  obtain rfl := Option.some.inj (hw.symm.trans hu)
  exact hne hacq

theorem usesChild_holding {pc : SpawnPc} (h : pc.UsesChild) : pc.Holding := by
  rcases h with h | h | h
  · exact Or.inr (Or.inl h)
  · exact Or.inr (Or.inr (Or.inl h))
  · exact Or.inr (Or.inr (Or.inr h))

theorem SpawnInv.booting_child (hs : SpawnInv c s) (hw : s.threads[i]? = some w)
    (hb : w.pc.Booting) : s.childEnv = some i := by
  obtain ⟨hlen, -, k, u, hu, hacq⟩ := (hs.worker i w hw).booting hb
  have hiter := ((hs.worker k u hu).acquire hacq).1
  have hchild := ((hs.worker k u hu).usesChild (Or.inr (Or.inr hacq))).1
  have he : s.iter = i := by omega
  rw [hchild, he]

theorem SpawnInv.move (hs : SpawnInv c s) {t : SpawnState} (hw : s.threads[i]? = some w)
    (hthreads : t.threads = s.threads.set i w') (hiter : t.iter = s.iter)
    (hinit : t.threadInit = s.threadInit) (hexited : t.exited = s.exited)
    (hentry : w'.entry = w.entry) (hmain : w'.main = w.main)
    (hold : w.pc ≠ .acquire) (hnew : w'.pc ≠ .acquire) (hstart : w'.pc ≠ .start)
    (hmtx : ∀ k, k ≠ i → (s.mtx = some k ↔ t.mtx = some k))
    (hhold : w'.pc.Holding ↔ t.mtx = some i)
    (hboot : w'.pc.Booting → w.pc.Booting)
    (hrest : 0 < i → w'.pc ≠ .restoreEnv → w'.restored = some i)
    (hchild : t.childEnv = s.childEnv ∨ w.pc.Holding)
    (huses : w'.pc.UsesChild → t.childEnv = some t.iter ∧ t.iter < c.execEnv.length)
    (hdone : w'.pc = .done → c.execEnv.length ≤ s.iter)
    (hparent : t.parent ≠ 0 → t.childEnv = some t.iter) : SpawnInv c t := by
  have hlen : t.threads.length = s.threads.length := by rw [hthreads, List.length_set]
  have hkeep : ∀ (k : ℕ) (u : Worker), s.threads[k]? = some u → u.pc = .acquire →
      t.threads[k]? = some u := by
    intro k u hu hacq
    have hne : i ≠ k := by
      rintro rfl
      obtain rfl := Option.some.inj (hw.symm.trans hu)
      exact hold hacq
    rw [hthreads, List.getElem?_set_ne hne]
    exact hu
  have hbooting : ∀ (k : ℕ) (u : Worker), s.threads[k]? = some u → u.pc.Booting →
      k + 1 = t.threads.length ∧ t.threadInit = 0 ∧
        ∃ (i : ℕ) (v : Worker), t.threads[i]? = some v ∧ v.pc = .acquire := by
    intro k u hu hb
    obtain ⟨h1, h2, m, x, hx, hacq⟩ := (hs.worker k u hu).booting hb
    exact ⟨by omega, by omega, m, x, hkeep m x hx hacq, hacq⟩
  refine ⟨?_, ?_, hparent, ?_, ?_⟩
  · intro k u hu
    rw [hthreads] at hu
    rcases set_cases hw hu with ⟨rfl, rfl⟩ | ⟨hne, hu⟩
    · have hk := hs.worker k w hw
      exact {
        entry := hentry.trans hk.entry
        main := by rw [hmain]; exact hk.main
        started := fun _ => hstart
        holding := hhold
        booting := fun hb => hbooting k w hw (hboot hb)
        acquire := fun h => absurd h hnew
        restored := hrest
        usesChild := huses
        done := fun h => hiter ▸ hdone h }
    · have hk := hs.worker k u hu
      exact {
        entry := hk.entry
        main := hk.main
        started := hk.started
        holding := hk.holding.trans (hmtx k hne)
        booting := hbooting k u hu
        acquire := fun h => by rw [hiter, hlen, hinit]; exact hk.acquire h
        restored := hk.restored
        usesChild := by
          intro h
          rcases hchild with hc | hc
          · rw [hc, hiter]; exact hk.usesChild h
          · exact absurd (hs.holder hw hc hu (usesChild_holding h)) hne
        done := fun h => hiter ▸ hk.done h }
  · intro h
    rw [hiter, hlen, hinit]
    apply hs.idle
    intro k u hu hacq
    exact h k u (hkeep k u hu hacq) hacq
  · rw [hlen]; exact hs.bound
  · exact hexited.trans hs.exited

theorem SpawnInv.booting_pos (hs : SpawnInv c s) (hw : s.threads[i]? = some w)
    (hb : w.pc.Booting) : 0 < i := by
  obtain ⟨hlen, -, k, u, hu, hacq⟩ := (hs.worker i w hw).booting hb
  have hk : k < s.threads.length := (List.getElem?_eq_some_iff.mp hu).1
  have hne : k ≠ i := by
    rintro rfl
    obtain rfl := Option.some.inj (hw.symm.trans hu)
    rcases hb with hb | hb
    · rw [hacq] at hb; cases hb
    · rw [hacq] at hb; cases hb
  omega

theorem SpawnInv.releases (hs : SpawnInv c s) (hw : s.threads[i]? = some w)
    (hpc : w.pc = .release) :
    SpawnInv c { s.set i { w with pc := .start } with threadInit := s.threadInit + 1 } := by
  have hb : w.pc.Booting := Or.inr hpc
  have hi := hs.worker i w hw
  have hpos := hs.booting_pos hw hb
  obtain ⟨hlen, hinit, k, u, hu, hacq⟩ := hi.booting hb
  have hne : i ≠ k := by
    rintro rfl
    obtain rfl := Option.some.inj (hw.symm.trans hu)
    rw [hacq] at hpc; cases hpc
  have hfree : s.mtx ≠ some i := by
    intro h
    have hh := hi.holding.mpr h
    rw [hpc] at hh
    rcases hh with hh | hh | hh | hh <;> cases hh
  refine ⟨?_, ?_, hs.parent, ?_, hs.exited⟩
  · intro m x hx
    rcases set_cases hw hx with ⟨rfl, rfl⟩ | ⟨hm, hx⟩
    · exact {
        entry := hi.entry
        main := hi.main
        started := fun h => absurd (hi.main.mp h) (by omega)
        holding := ⟨(by rintro (h | h | h | h) <;> cases h), fun h => absurd h hfree⟩
        booting := by rintro (h | h) <;> cases h
        acquire := by intro h; cases h
        restored := fun h _ => hi.restored h (by simp [hpc])
        usesChild := by rintro (h | h | h) <;> cases h
        done := by intro h; cases h }
    · have hk := hs.worker m x hx
      exact {
        entry := hk.entry
        main := hk.main
        started := hk.started
        holding := hk.holding
        booting := by
          intro h
          obtain ⟨h1, -⟩ := hk.booting h
          omega
        acquire := by
          intro h
          have h1 := (hk.acquire h).1
          simp only [SpawnState.set, List.length_set]
          omega
        restored := hk.restored
        usesChild := hk.usesChild
        done := hk.done }
  · intro h
    have hu' : (s.set i { w with pc := .start }).threads[k]? = some u := by
      rw [SpawnState.set, List.getElem?_set_ne hne]
      exact hu
    exact absurd hacq (h k u hu')
  · simp only [SpawnState.set, List.length_set]
    exact hs.bound

theorem SpawnInv.creates (hs : SpawnInv c s) (hw : s.threads[i]? = some w)
    (hpc : w.pc = .create) :
    SpawnInv c { s.set i { w with pc := .acquire } with
      threads := (s.set i { w with pc := .acquire }).threads ++
        [⟨false, 0, s.iter, none, .restoreEnv⟩] } := by
  have hi := hs.worker i w hw
  have hlt : i < s.threads.length := (List.getElem?_eq_some_iff.mp hw).1
  have hhold : w.pc.Holding := Or.inr (Or.inr (Or.inl hpc))
  have hmtx : s.mtx = some i := hi.holding.mp hhold
  obtain ⟨hiter, hinit⟩ := hs.idle_of_holding hw hhold (by simp [hpc])
  obtain ⟨hchild, hbound⟩ := hi.usesChild (Or.inr (Or.inl hpc))
  have hself : (s.threads.set i { w with pc := .acquire } ++
      [⟨false, 0, s.iter, none, .restoreEnv⟩])[i]? = some { w with pc := .acquire } := by
    rw [List.getElem?_append_left (by rw [List.length_set]; exact hlt),
      List.getElem?_set_self hlt]
  refine ⟨?_, ?_, hs.parent, ?_, hs.exited⟩
  · intro m x hx
    simp only [SpawnState.set] at hx
    by_cases hm : m < s.threads.length
    · rw [List.getElem?_append_left (by rw [List.length_set]; exact hm)] at hx
      rcases set_cases hw hx with ⟨rfl, rfl⟩ | ⟨hne, hx⟩
      · exact {
          entry := hi.entry
          main := hi.main
          started := by intro _ h; cases h
          holding := ⟨fun _ => hmtx, fun _ => Or.inr (Or.inr (Or.inr rfl))⟩
          booting := by rintro (h | h) <;> cases h
          acquire := by
            intro _
            simp only [SpawnState.set, List.length_append, List.length_set, List.length_singleton]
            omega
          restored := fun h _ => hi.restored h (by simp [hpc])
          usesChild := fun _ => ⟨hchild, hbound⟩
          done := by intro h; cases h }
      · have hk := hs.worker m x hx
        have hfree : ¬x.pc.Holding := fun h => hne (hs.holder hw hhold hx h)
        exact {
          entry := hk.entry
          main := hk.main
          started := hk.started
          holding := hk.holding
          booting := by
            intro h
            obtain ⟨-, -, k, u, hu, hacq⟩ := hk.booting h
            obtain rfl := hs.holder hw hhold hu (Or.inr (Or.inr (Or.inr hacq)))
            obtain rfl := Option.some.inj (hw.symm.trans hu)
            rw [hacq] at hpc; cases hpc
          acquire := fun h => absurd (Or.inr (Or.inr (Or.inr h))) hfree
          restored := hk.restored
          usesChild := fun h => absurd (usesChild_holding h) hfree
          done := hk.done }
    · have hm' : m = s.threads.length := by
        have h := (List.getElem?_eq_some_iff.mp hx).1
        simp only [List.length_append, List.length_set, List.length_singleton] at h
        omega
      subst hm'
      rw [List.getElem?_append_right (by simp)] at hx
      simp only [List.length_set, Nat.sub_self, List.getElem?_cons_zero] at hx
      obtain rfl := Option.some.inj hx
      exact {
        entry := hiter
        main := ⟨(by intro h; cases h), (by intro h; omega)⟩
        started := by intro h; cases h
        holding := by
          refine ⟨(by rintro (h | h | h | h) <;> cases h), fun h => ?_⟩
          have he := Option.some.inj (hmtx.symm.trans h)
          omega
        booting := by
          intro _
          refine ⟨?_, hinit, i, _, hself, rfl⟩
          simp [SpawnState.set]
        acquire := by intro h; cases h
        restored := fun _ h => absurd rfl h
        usesChild := by rintro (h | h | h) <;> cases h
        done := by intro h; cases h }
  · intro h
    exact absurd rfl (h i _ hself)
  · simp only [SpawnState.set, List.length_append, List.length_set, List.length_singleton]
    omega

theorem SpawnInv.acquires (hs : SpawnInv c s) (hw : s.threads[i]? = some w)
    (hpc : w.pc = .acquire) (hpos : 0 < s.threadInit) :
    SpawnInv c { s.set i { w with pc := .loop } with
      threadInit := s.threadInit - 1, iter := s.iter + 1, parent := 0 } := by
  have hi := hs.worker i w hw
  have hhold : w.pc.Holding := Or.inr (Or.inr (Or.inr hpc))
  obtain ⟨hiter, hinit⟩ := hi.acquire hpc
  refine ⟨?_, ?_, fun h => absurd rfl h, ?_, hs.exited⟩
  · intro m x hx
    rcases set_cases hw hx with ⟨rfl, rfl⟩ | ⟨hne, hx⟩
    · exact {
        entry := hi.entry
        main := hi.main
        started := by intro _ h; cases h
        holding := ⟨fun _ => hi.holding.mp hhold, fun _ => Or.inl rfl⟩
        booting := by rintro (h | h) <;> cases h
        acquire := by intro h; cases h
        restored := fun h _ => hi.restored h (by simp [hpc])
        usesChild := by rintro (h | h | h) <;> cases h
        done := by intro h; cases h }
    · have hk := hs.worker m x hx
      have hfree : ¬x.pc.Holding := fun h => hne (hs.holder hw hhold hx h)
      exact {
        entry := hk.entry
        main := hk.main
        started := hk.started
        holding := hk.holding
        booting := by
          intro h
          obtain ⟨-, h0, -⟩ := hk.booting h
          omega
        acquire := fun h => absurd (Or.inr (Or.inr (Or.inr h))) hfree
        restored := hk.restored
        usesChild := fun h => absurd (usesChild_holding h) hfree
        done := by
          intro h
          have h1 := hk.done h
          simp only
          omega }
  · intro _
    simp only [SpawnState.set, List.length_set]
    omega
  · simp only [SpawnState.set, List.length_set]
    exact hs.bound

/-! ### The steps -/

theorem nextChild_frame : (nextChild c s).threads = s.threads ∧ (nextChild c s).iter = s.iter ∧
    (nextChild c s).mtx = s.mtx ∧ (nextChild c s).threadInit = s.threadInit ∧
    (nextChild c s).exited = s.exited := by
  unfold nextChild
  split
  · split <;> exact ⟨rfl, rfl, rfl, rfl, rfl⟩
  · exact ⟨rfl, rfl, rfl, rfl, rfl⟩

theorem nextChild_childEnv (hp : s.parent ≠ 0 → s.childEnv = some s.iter)
    (hlt : s.iter < c.execEnv.length) : (nextChild c s).childEnv = some s.iter := by
  unfold nextChild
  rw [List.getElem?_eq_getElem hlt]
  by_cases h : s.parent = 0
  · simp only [if_pos h]
  · simp only [if_neg h]
    exact hp h

theorem SpawnInv.not_mtx (hs : SpawnInv c s) (hw : s.threads[i]? = some w)
    (hpc : ¬w.pc.Holding) : s.mtx ≠ some i :=
  fun h => hpc ((hs.worker i w hw).holding.mpr h)

theorem SpawnInv.childCount_mem (hs : SpawnInv c s) (hw : s.threads[i]? = some w)
    (hpc : w.pc = .create) : childCount c s ∈ c.execEnv.tail := by
  have hlt : i < s.threads.length := (List.getElem?_eq_some_iff.mp hw).1
  have hhold : w.pc.Holding := Or.inr (Or.inr (Or.inl hpc))
  obtain ⟨hiter, -⟩ := hs.idle_of_holding hw hhold (by simp [hpc])
  obtain ⟨hchild, hbound⟩ := (hs.worker i w hw).usesChild (Or.inr (Or.inl hpc))
  have hcount : childCount c s = c.execEnv[s.iter] := by
    simp [childCount, hchild, hbound]
  obtain ⟨k, hk⟩ : ∃ k, s.iter = k + 1 := ⟨s.iter - 1, by omega⟩
  rw [hcount, List.mem_iff_getElem?]
  refine ⟨k, ?_⟩
  rw [List.getElem?_tail, ← hk, List.getElem?_eq_getElem hbound]

theorem SpawnInv.goto (hs : SpawnInv c s) {t : SpawnState} {q : SpawnPc}
    (hw : s.threads[i]? = some w) (hpc : ¬w.pc.Booting) (hold : w.pc ≠ .acquire)
    (hq : ¬q.Booting) (hnew : q ≠ .acquire) (hstart : q ≠ .start)
    (hthreads : t.threads = s.threads.set i { w with pc := q }) (hiter : t.iter = s.iter)
    (hinit : t.threadInit = s.threadInit) (hexited : t.exited = s.exited)
    (hmtx : ∀ k, k ≠ i → (s.mtx = some k ↔ t.mtx = some k))
    (hhold : q.Holding ↔ t.mtx = some i)
    (hchild : t.childEnv = s.childEnv ∨ w.pc.Holding)
    (huses : q.UsesChild → t.childEnv = some t.iter ∧ t.iter < c.execEnv.length)
    (hdone : q = .done → c.execEnv.length ≤ s.iter)
    (hparent : t.parent ≠ 0 → t.childEnv = some t.iter) : SpawnInv c t := by
  have hrest : 0 < i → w.restored = some i := fun h =>
    (hs.worker i w hw).restored h fun he => hpc (Or.inl he)
  exact hs.move hw hthreads hiter hinit hexited rfl rfl hold hnew hstart hmtx hhold
    (fun h => absurd h hq) (fun h _ => hrest h) hchild huses hdone hparent

theorem SpawnInv.restores (hs : SpawnInv c s) (hw : s.threads[i]? = some w)
    (hpc : w.pc = .restoreEnv) :
    SpawnInv c
      (s.set i { w with restored := s.childEnv, handle := childCount c s, pc := .release }) := by
  have hb : w.pc.Booting := Or.inl hpc
  have hmtx := hs.not_mtx hw (by simp [hpc, SpawnPc.Holding])
  refine hs.move hw rfl rfl rfl rfl rfl rfl (by simp [hpc]) (by simp) (by simp)
    (fun k _ => Iff.rfl) ?_ (fun _ => hb) (fun _ _ => hs.booting_child hw hb) (Or.inl rfl)
    ?_ ?_ hs.parent
  · exact ⟨(by rintro (h | h | h | h) <;> cases h), fun h => absurd h hmtx⟩
  · rintro (h | h | h) <;> cases h
  · intro h; cases h

theorem SpawnInv.to_lock (hs : SpawnInv c s) (hw : s.threads[i]? = some w)
    (hpc : w.pc = .start ∨ w.pc = .waiting) : SpawnInv c (s.set i { w with pc := .lock }) := by
  have hmtx : s.mtx ≠ some i := by
    apply hs.not_mtx hw
    rcases hpc with hpc | hpc <;> simp [hpc, SpawnPc.Holding]
  have hboot : ¬w.pc.Booting := by
    rcases hpc with hpc | hpc <;> simp [hpc, SpawnPc.Booting]
  have hacq : w.pc ≠ .acquire := by
    rcases hpc with hpc | hpc <;> simp [hpc]
  refine hs.goto hw hboot hacq (by simp [SpawnPc.Booting]) (by simp) (by simp) rfl rfl rfl rfl
    (fun k _ => Iff.rfl) ?_ (Or.inl rfl) ?_ ?_ hs.parent
  · exact ⟨(by rintro (h | h | h | h) <;> cases h), fun h => absurd h hmtx⟩
  · rintro (h | h | h) <;> cases h
  · intro h; cases h

theorem SpawnInv.locks (hs : SpawnInv c s) (hw : s.threads[i]? = some w)
    (hpc : w.pc = .lock) (hfree : s.mtx = none) :
    SpawnInv c { s.set i { w with pc := .loop } with mtx := some i } := by
  refine hs.goto hw (by simp [hpc, SpawnPc.Booting]) (by simp [hpc])
    (by simp [SpawnPc.Booting]) (by simp) (by simp) rfl rfl rfl rfl
    ?_ ⟨fun _ => rfl, fun _ => Or.inl rfl⟩ (Or.inl rfl) ?_ ?_ hs.parent
  · intro k hk
    simp [hfree, Ne.symm hk]
  · rintro (h | h | h) <;> cases h
  · intro h; cases h

theorem SpawnInv.unlocks (hs : SpawnInv c s) {q : SpawnPc} (hw : s.threads[i]? = some w)
    (hpc : w.pc = .loop ∨ w.pc = .check) (hq : q = .waiting ∨ q = .done)
    (hdone : q = .done → c.execEnv.length ≤ s.iter) :
    SpawnInv c { s.set i { w with pc := q } with mtx := none } := by
  have hmtx : s.mtx = some i := by
    apply (hs.worker i w hw).holding.mp
    rcases hpc with hpc | hpc <;> simp [hpc, SpawnPc.Holding]
  have hboot : ¬w.pc.Booting := by
    rcases hpc with hpc | hpc <;> simp [hpc, SpawnPc.Booting]
  have hacq : w.pc ≠ .acquire := by
    rcases hpc with hpc | hpc <;> simp [hpc]
  have hfree : ¬q.Holding := by
    rcases hq with rfl | rfl <;> simp [SpawnPc.Holding]
  refine hs.goto hw hboot hacq ?_ ?_ ?_ rfl rfl rfl rfl ?_
    ⟨fun h => absurd h hfree, fun h => by cases h⟩ (Or.inl rfl)
    (fun h => absurd (usesChild_holding h) hfree) hdone hs.parent
  · rcases hq with rfl | rfl <;> simp [SpawnPc.Booting]
  · rcases hq with rfl | rfl <;> simp
  · rcases hq with rfl | rfl <;> simp
  · intro k hk
    simp [hmtx, Ne.symm hk]

theorem SpawnInv.computes (hs : SpawnInv c s) (hw : s.threads[i]? = some w)
    (hpc : w.pc = .loop) (hlt : s.iter < c.execEnv.length) :
    SpawnInv c ((nextChild c s).set i { w with pc := .check }) := by
  obtain ⟨hsame, hiter, hkeep, hinit, hexited⟩ := nextChild_frame (c := c) (s := s)
  have hhold : w.pc.Holding := Or.inl hpc
  have hmtx : (nextChild c s).mtx = some i :=
    hkeep.trans ((hs.worker i w hw).holding.mp hhold)
  have hchild : (nextChild c s).childEnv = some (nextChild c s).iter := by
    rw [nextChild_childEnv hs.parent hlt, hiter]
  have hthreads : ((nextChild c s).set i { w with pc := .check }).threads
      = s.threads.set i { w with pc := .check } := by
    rw [SpawnState.set, hsame]
  refine hs.goto hw (by simp [hpc, SpawnPc.Booting]) (by simp [hpc])
    (by simp [SpawnPc.Booting]) (by simp) (by simp) hthreads hiter hinit hexited ?_
    ⟨fun _ => hmtx, fun _ => Or.inr (Or.inl rfl)⟩ (Or.inr hhold) ?_ ?_ (fun _ => hchild)
  · intro k _
    rw [SpawnState.set, hkeep]
  · intro _
    refine ⟨hchild, ?_⟩
    rw [SpawnState.set, hiter]
    exact hlt
  · intro h; cases h

theorem SpawnInv.is_parent (hs : SpawnInv c s) (hw : s.threads[i]? = some w)
    (hpc : w.pc = .check) : SpawnInv c (s.set i { w with pc := .create }) := by
  have hi := hs.worker i w hw
  have hmtx : s.mtx = some i := hi.holding.mp (Or.inr (Or.inl hpc))
  refine hs.goto hw (by simp [hpc, SpawnPc.Booting]) (by simp [hpc])
    (by simp [SpawnPc.Booting]) (by simp) (by simp) rfl rfl rfl rfl (fun k _ => Iff.rfl)
    ⟨fun _ => hmtx, fun _ => Or.inr (Or.inr (Or.inl rfl))⟩ (Or.inl rfl)
    (fun _ => hi.usesChild (Or.inl hpc)) ?_ hs.parent
  intro h; cases h

/-- Where the child to be created is a pthread, or no thread is to be created. -/
theorem SpawnInv.run (hs : SpawnInv c s) (hw : s.threads[i]? = some w)
    (hno : w.pc = .create → childCount c s ∉ c.tidStartArgMap) {t : SpawnState}
    (h : runWorker c s i w = some t) : SpawnInv c t := by
  cases hpc : w.pc with
  | restoreEnv =>
    simp only [runWorker, hpc] at h
    obtain rfl := Option.some.inj h
    exact hs.restores hw hpc
  | release =>
    simp only [runWorker, hpc] at h
    obtain rfl := Option.some.inj h
    exact hs.releases hw hpc
  | start =>
    have hmain : ¬w.main = true := fun hm => (hs.worker i w hw).started hm hpc
    simp only [runWorker, hpc] at h
    rw [if_neg hmain] at h
    obtain rfl := Option.some.inj h
    exact hs.to_lock hw (Or.inl hpc)
  | lock =>
    simp only [runWorker, hpc] at h
    split at h
    · rename_i hfree
      obtain rfl := Option.some.inj h
      exact hs.locks hw hpc hfree
    · cases h
  | loop =>
    simp only [runWorker, hpc] at h
    split at h
    · rename_i hlt
      obtain rfl := Option.some.inj h
      exact hs.computes hw hpc hlt
    · rename_i hge
      obtain rfl := Option.some.inj h
      exact hs.unlocks hw (Or.inl hpc) (Or.inr rfl) fun _ => Nat.not_lt.mp hge
  | check =>
    simp only [runWorker, hpc] at h
    by_cases hwait : s.parent ≠ w.handle ∧ s.parent ≠ (if w.main then 0 else 1)
    · rw [if_pos hwait] at h
      obtain rfl := Option.some.inj h
      exact hs.unlocks hw (Or.inr hpc) (Or.inl rfl) fun h => by cases h
    · rw [if_neg hwait] at h
      obtain rfl := Option.some.inj h
      exact hs.is_parent hw hpc
  | create =>
    simp only [runWorker, hpc] at h
    rw [if_neg (hno hpc)] at h
    obtain rfl := Option.some.inj h
    exact hs.creates hw hpc
  | acquire =>
    simp only [runWorker, hpc] at h
    split at h
    · rename_i hpos
      obtain rfl := Option.some.inj h
      exact hs.acquires hw hpc hpos
    · cases h
  | waiting =>
    simp only [runWorker, hpc] at h
    cases h
  | done =>
    simp only [runWorker, hpc] at h
    cases h

theorem SpawnInv.step (hpthread : ∀ e ∈ c.execEnv.tail, e ∉ c.tidStartArgMap)
    (hs : SpawnInv c s) {l : SpawnLabel} {t : SpawnState} (h : spawnStep c s l = some t) :
    SpawnInv c t := by
  cases l with
  | run i =>
    simp only [spawnStep] at h
    split at h
    · rename_i w hw
      rw [if_neg (by simp [hs.exited])] at h
      exact hs.run hw (fun hpc => hpthread _ (hs.childCount_mem hw hpc)) h
    · cases h
  | wake i =>
    simp only [spawnStep] at h
    split at h
    · rename_i w hw
      split at h
      · rename_i hwait
        obtain rfl := Option.some.inj h
        exact hs.to_lock hw (Or.inr hwait.2)
      · cases h
    · cases h

theorem SpawnInitial.step (hs : SpawnInitial s) {l : SpawnLabel} {t : SpawnState}
    (h : spawnStep c s l = some t) : SpawnInv c t := by
  obtain ⟨handle, hthreads⟩ := hs.threads
  have hmain : ∀ (k : ℕ) (u : Worker), s.threads[k]? = some u →
      k = 0 ∧ u = ⟨true, handle, 0, none, .start⟩ := by
    intro k u hu
    have hk := (List.getElem?_eq_some_iff.mp hu).1
    rw [hthreads, List.length_singleton] at hk
    obtain rfl : k = 0 := by omega
    rw [hthreads] at hu
    exact ⟨rfl, (Option.some.inj hu).symm⟩
  cases l with
  | run i =>
    simp only [spawnStep] at h
    split at h
    · rename_i w hw
      obtain ⟨rfl, rfl⟩ := hmain i w hw
      rw [if_neg (by simp [hs.exited])] at h
      obtain rfl := Option.some.inj h
      refine ⟨?_, ?_, fun h => absurd rfl h, ?_, hs.exited⟩
      · intro k u hu
        simp only [SpawnState.set, hthreads, List.set_cons_zero] at hu
        have hk := (List.getElem?_eq_some_iff.mp hu).1
        rw [List.length_singleton] at hk
        obtain rfl : k = 0 := by omega
        obtain rfl := Option.some.inj hu
        exact {
          entry := rfl
          main := ⟨fun _ => rfl, fun _ => rfl⟩
          started := by intro _ h; cases h
          holding := by
            refine ⟨(by rintro (h | h | h | h) <;> cases h), fun h => ?_⟩
            exact absurd (hs.mtx.symm.trans h) (by simp)
          booting := by rintro (h | h) <;> cases h
          acquire := by intro h; cases h
          restored := fun h => absurd h (Nat.lt_irrefl 0)
          usesChild := by rintro (h | h | h) <;> cases h
          done := by intro h; cases h }
      · intro _
        exact ⟨by simp [SpawnState.set, hthreads], hs.threadInit⟩
      · simp only [SpawnState.set, hthreads, List.set_cons_zero, List.length_singleton]
        omega
    · cases h
  | wake i =>
    simp only [spawnStep] at h
    split at h
    · rename_i w hw
      obtain ⟨rfl, rfl⟩ := hmain i w hw
      rw [if_neg (by simp)] at h
      cases h
    · cases h

/-! ### The children -/

theorem SpawnInv.iter_le (hs : SpawnInv c s) : s.iter ≤ s.threads.length := by
  by_cases h : ∃ (i : ℕ) (v : Worker), s.threads[i]? = some v ∧ v.pc = .acquire
  · obtain ⟨i, v, hv, hacq⟩ := h
    have hiter := ((hs.worker i v hv).acquire hacq).1
    omega
  · have hiter := (hs.idle fun i v hv hacq => h ⟨i, v, hv, hacq⟩).1
    omega

theorem SpawnInv.entries (hs : SpawnInv c s) :
    s.threads.map Worker.entry = List.range s.threads.length := by
  apply List.ext_getElem?
  intro k
  by_cases hk : k < s.threads.length
  · have hu : s.threads[k]? = some s.threads[k] := List.getElem?_eq_getElem hk
    rw [List.getElem?_map, hu, List.getElem?_range hk, Option.map_some, (hs.worker k _ hu).entry]
  · have h1 : (s.threads.map Worker.entry)[k]? = none :=
      List.getElem?_eq_none (by rw [List.length_map]; omega)
    have h2 : (List.range s.threads.length)[k]? = none :=
      List.getElem?_eq_none (by rw [List.length_range]; omega)
    rw [h1, h2]

/-- Whatever the schedule, the threads that exist are those of `execEnv[0]`, `execEnv[1]`,
and so on, in this order, and no more than there are environments. A new thread finds its
own environment in `child_env` and restores it. A thread that leaves `spawn_child` leaves no
child out. -/
theorem spawnChild_in_order (c : Cluster) (s t : SpawnState)
    (hpthread : ∀ e ∈ c.execEnv.tail, e ∉ c.tidStartArgMap) (hs : SpawnInitial s)
    (h : Run.Reaches (spawnStep c) s t) :
    t.threads.map Worker.entry = List.range t.threads.length ∧
    t.threads.length ≤ max 1 c.execEnv.length ∧
    (∀ (i : ℕ) (w : Worker), t.threads[i]? = some w → w.pc = .restoreEnv →
      t.childEnv = some w.entry) ∧
    (∀ (i : ℕ) (w : Worker), t.threads[i]? = some w → 0 < i → w.pc ≠ .restoreEnv →
      w.restored = some w.entry) ∧
    ∀ (i : ℕ) (w : Worker), t.threads[i]? = some w → w.pc = .done →
      c.execEnv.length ≤ t.threads.length := by
  have hinv : SpawnInitial t ∨ SpawnInv c t := by
    apply Run.Reaches.invariant (fun s => SpawnInitial s ∨ SpawnInv c s) ?_ (Or.inl hs) h
    rintro s l t (h0 | h0) ht
    · exact Or.inr (h0.step ht)
    · exact Or.inr (h0.step hpthread ht)
  rcases hinv with ht | ht
  · obtain ⟨handle, hthreads⟩ := ht.threads
    have honly : ∀ (i : ℕ) (w : Worker), t.threads[i]? = some w → i = 0 ∧ w.pc = .start := by
      intro i w hw
      have hi := (List.getElem?_eq_some_iff.mp hw).1
      rw [hthreads, List.length_singleton] at hi
      obtain rfl : i = 0 := by omega
      rw [hthreads] at hw
      obtain rfl := Option.some.inj hw
      exact ⟨rfl, rfl⟩
    refine ⟨by rw [hthreads]; rfl, by rw [hthreads, List.length_singleton]; omega, ?_, ?_, ?_⟩
    · intro i w hw hpc
      rw [(honly i w hw).2] at hpc
      cases hpc
    · intro i w hw hi
      rw [(honly i w hw).1] at hi
      omega
    · intro i w hw hpc
      rw [(honly i w hw).2] at hpc
      cases hpc
  · refine ⟨ht.entries, ht.bound, ?_, ?_, ?_⟩
    · intro i w hw hpc
      rw [(ht.worker i w hw).entry]
      exact ht.booting_child hw (Or.inl hpc)
    · intro i w hw hi hpc
      rw [(ht.worker i w hw).entry]
      exact (ht.worker i w hw).restored hi hpc
    · intro i w hw hpc
      have hdone := (ht.worker i w hw).done hpc
      have hiter := ht.iter_le
      omega

/-- The main thread created thread 11, and thread 11 created thread 12. -/
def grandchild : Cluster := ⟨[10, 11, 12], ∅⟩

def mainOnly : SpawnState :=
  ⟨0, 0, none, none, 0, ((∅ : Std.TreeMap ℕ ℕ).insert 11 10).insert 12 11,
    [⟨true, 10, 0, none, .start⟩], false⟩

/-- Thread 11 gets the lock while the main thread waits. -/
def grandchildRun : List SpawnLabel :=
  [.run 0, .run 0, .run 0, .run 0, .run 0, .run 1, .run 1, .run 0, .run 1, .run 0, .run 0,
   .run 1, .run 1, .run 1, .run 1, .run 2, .run 2, .run 1]

theorem grandchild_in_order :
    ∃ t, Run.exec (spawnStep grandchild) mainOnly grandchildRun = some t ∧
      t.threads.length = 3 ∧ t.threads.map Worker.restored = [none, some 1, some 2] ∧
      t.threads.map Worker.entry = List.range t.threads.length := by
  have hrun : (Run.exec (spawnStep grandchild) mainOnly grandchildRun).map
      (fun t => (t.threads.length, t.threads.map Worker.restored))
        = some (3, [none, some 1, some 2]) := by decide
  obtain ⟨t, ht, hres⟩ := Option.map_eq_some_iff.mp hrun
  have horder := (spawnChild_in_order grandchild mainOnly t (by decide)
    ⟨⟨10, rfl⟩, rfl, rfl, rfl⟩ ⟨grandchildRun, ht⟩).1
  exact ⟨t, ht, congrArg Prod.fst hres, congrArg Prod.snd hres, horder⟩

end MVVM.Threads
