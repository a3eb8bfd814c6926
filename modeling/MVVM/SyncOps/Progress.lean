import MVVM.SyncOps.Recorded
import MVVM.SyncOps.Replay
import Mathlib.Data.List.Induction

/-!
# When the replay can get stuck

An operation is performed while its thread holds `syncop_mutex` (wamr.cpp:451-491), and
none of the runtime calls gives that mutex back. A lock of a real log finds its mutex
free again in the replay; a wait can be ended by another thread only, and no other
thread gets past `os_mutex_lock(&syncop_mutex)`.
-/

namespace MVVM.SyncOps

/-! ### The runtime -/

def callHolderStep (m : ℕ) (o : Option ℕ) : ℕ × RtCall → Option ℕ
  | (h, .mutexLock r) => if r = m then some h else o
  | (_, .mutexUnlock r) => if r = m then none else o
  | _ => o

def callHolder (m : ℕ) (calls : List (ℕ × RtCall)) : Option ℕ :=
  calls.foldl (callHolderStep m) none

/-- What the replay relies on in the runtime: a lock comes back unless another thread
holds the mutex, a condition wait only after a later signal or broadcast on its ref, an
atomic wait (timeout -1) only after a later notify. -/
structure Runtime where
  mayReturn : List (ℕ × RtCall) → ℕ → Bool
  lock_returns : ∀ calls n h m, calls[n]? = some (h, .mutexLock m) →
    (∀ g, callHolder m (calls.take n) = some g → g = h) → mayReturn calls n = true
  unlock_returns : ∀ calls n h m, calls[n]? = some (h, .mutexUnlock m) → mayReturn calls n = true
  signal_returns : ∀ calls n h c, calls[n]? = some (h, .condSignal c) → mayReturn calls n = true
  broadcast_returns : ∀ calls n h c, calls[n]? = some (h, .condBroadcast c) →
    mayReturn calls n = true
  condWait_blocks : ∀ calls n h c, calls[n]? = some (h, .condWait c) → mayReturn calls n = true →
    ∃ j g, n < j ∧ (calls[j]? = some (g, .condSignal c) ∨ calls[j]? = some (g, .condBroadcast c))
  atomicWait_blocks : ∀ calls n h a x w, calls[n]? = some (h, .atomicWait a x w) →
    mayReturn calls n = true → ∃ j g count, n < j ∧ calls[j]? = some (g, .atomicNotify a count)

/-- The runtime that blocks exactly as long as it is assumed to. -/
def plainMayReturn (calls : List (ℕ × RtCall)) (n : ℕ) : Bool :=
  match calls[n]? with
  | some (h, .mutexLock m) =>
    callHolder m (calls.take n) == none || callHolder m (calls.take n) == some h
  | some (_, .condWait c) =>
    (calls.drop (n + 1)).any fun p => p.2 == .condSignal c || p.2 == .condBroadcast c
  | some (_, .atomicWait a _ _) =>
    (calls.drop (n + 1)).any fun p => match p.2 with | .atomicNotify b _ => b == a | _ => false
  | _ => true

theorem exists_later_of_any {calls : List (ℕ × RtCall)} {n : ℕ} {f : ℕ × RtCall → Bool}
    (h : (calls.drop (n + 1)).any f = true) : ∃ j p, n < j ∧ calls[j]? = some p ∧ f p = true := by
  obtain ⟨p, hp, hf⟩ := List.any_eq_true.mp h
  obtain ⟨i, hi⟩ := List.mem_iff_getElem?.mp hp
  rw [List.getElem?_drop] at hi
  exact ⟨n + 1 + i, p, by omega, hi, hf⟩

def plainRuntime : Runtime where
  mayReturn := plainMayReturn
  lock_returns calls n h m hc hfree := by
    simp only [plainMayReturn, hc]
    cases ho : callHolder m (calls.take n) with
    | none => rfl
    | some g => simp [hfree g ho]
  unlock_returns calls n h m hc := by simp [plainMayReturn, hc]
  signal_returns calls n h c hc := by simp [plainMayReturn, hc]
  broadcast_returns calls n h c hc := by simp [plainMayReturn, hc]
  condWait_blocks calls n h c hc hr := by
    simp only [plainMayReturn, hc] at hr
    obtain ⟨j, ⟨g, d⟩, hj, hget, hf⟩ := exists_later_of_any hr
    rcases Bool.or_eq_true_iff.mp hf with hd | hd
    · obtain rfl : d = .condSignal c := eq_of_beq hd
      exact ⟨j, g, hj, .inl hget⟩
    · obtain rfl : d = .condBroadcast c := eq_of_beq hd
      exact ⟨j, g, hj, .inr hget⟩
  atomicWait_blocks calls n h a x w hc hr := by
    simp only [plainMayReturn, hc] at hr
    obtain ⟨j, ⟨g, d⟩, hj, hget, hf⟩ := exists_later_of_any hr
    cases d with
    | atomicNotify b count =>
      obtain rfl : b = a := eq_of_beq hf
      exact ⟨j, g, count, hj, hget⟩
    | _ => cases hf

/-! ### The calls of a log -/

def callsOf (ops : List SyncOpT) : List (ℕ × RtCall) :=
  ops.filterMap fun e => (dispatch e).map fun c => (e.tid, c)

theorem callsOf_append (ops : List SyncOpT) (e : SyncOpT) :
    callsOf (ops ++ [e]) = callsOf ops ++ ((dispatch e).map fun c => (e.tid, c)).toList := by
  cases hd : dispatch e <;> simp [callsOf, hd]

theorem callHolderStep_dispatch (m : ℕ) (o : Option ℕ) (e : SyncOpT) :
    (((dispatch e).map fun c => (e.tid, c)).toList).foldl (callHolderStep m) o =
      holderStep m o e := by
  unfold dispatch holderStep
  cases e.syncOp <;> simp [callHolderStep]

theorem callHolder_callsOf (m : ℕ) (ops : List SyncOpT) :
    callHolder m (callsOf ops) = holder m ops := by
  induction ops using List.reverseRecOn with
  | nil => rfl
  | append_singleton ops e ih =>
    rw [callsOf_append, holder_append, ← ih, callHolder, List.foldl_append]
    exact callHolderStep_dispatch m _ e

theorem holder_retid (tidMap : TidMap) (m : ℕ) (log : List SyncOpT) :
    holder m (log.map (SyncOpT.retid tidMap)) = (holder m log).map tidMap := by
  induction log using List.reverseRecOn with
  | nil => rfl
  | append_singleton log e ih =>
    rw [List.map_append, List.map_singleton, holder_append, holder_append, ih]
    unfold holderStep
    simp only [retid_ref, retid_syncOp, retid_tid]
    by_cases hm : e.ref = m
    · cases e.syncOp <;> simp [hm]
    · simp [hm]

theorem locksFree_remap {log : List SyncOpT} (tidMap : TidMap) (initRef : ℕ → ℕ)
    (h : LocksFree log) : LocksFree (remap tidMap initRef log).ops := by
  intro k e he hlock hw
  rw [remap_ops] at he hw ⊢
  rw [List.getElem?_map] at he
  obtain ⟨d, hd, rfl⟩ := Option.map_eq_some_iff.mp he
  rw [← List.map_take] at hw ⊢
  have hfree := h k d hd hlock fun c hc => hw (c.retid tidMap) (List.mem_map_of_mem hc)
  rw [holder_retid, retid_ref, hfree]
  rfl

/-! ### The invariant of the loop -/

/-- `syncop_mutex` is held exactly inside the loop and outside the timed wait, nobody
leaves early, and the one operation in progress is the entry before `sync_iter`. -/
structure Consistent (ops : List SyncOpT) (s : State) : Prop where
  owner_iff : ∀ h, s.owner = some h ↔ s.pc h = .head ∨ ∃ k n, s.pc h = .inOp k n
  left : ∀ h, s.pc h = .left → ops.length ≤ s.iter
  inOp : ∀ h k n, s.pc h = .inOp k n → k + 1 = s.iter ∧ n = (callsOf (ops.take k)).length
  calls : s.calls = callsOf (ops.take s.iter)

variable {ops : List SyncOpT} {threads : List ℕ} {mayReturn : List (ℕ × RtCall) → ℕ → Bool}

theorem consistent_init (ops : List SyncOpT) : Consistent ops State.init :=
  ⟨fun _ => by simp [State.init], fun _ h => by simp [State.init] at h,
    fun _ _ _ h => by simp [State.init] at h, by simp [State.init, callsOf]⟩

theorem Consistent.pc_eq {s : State} (hs : Consistent ops s) {g h : ℕ} (hg : s.owner = some g)
    (hne : h ≠ g) : s.pc h ≠ .head ∧ ∀ k n, s.pc h ≠ .inOp k n := by
  have hno : s.owner ≠ some h := fun he => hne (Option.some.inj (he.symm.trans hg))
  exact ⟨fun hp => hno ((hs.owner_iff h).mpr (.inl hp)),
    fun k n hp => hno ((hs.owner_iff h).mpr (.inr ⟨k, n, hp⟩))⟩

theorem Consistent.acquire {s : State} (hs : Consistent ops s) (hfree : s.owner = none) (g : ℕ) :
    Consistent ops { s.setPc g .head with owner := some g } := by
  have hout : ∀ h, s.pc h ≠ .head ∧ ∀ k n, s.pc h ≠ .inOp k n := fun h =>
    ⟨fun hp => by simpa [hfree] using (hs.owner_iff h).mpr (.inl hp),
      fun k n hp => by simpa [hfree] using (hs.owner_iff h).mpr (.inr ⟨k, n, hp⟩)⟩
  refine ⟨fun h => ?_, fun h hp => ?_, fun h k n hp => ?_, hs.calls⟩
  · by_cases he : h = g
    · subst he; simp [State.setPc]
    · simp [State.setPc, he, Ne.symm he, (hout h).1, (hout h).2]
  · by_cases he : h = g
    · subst he; simp [State.setPc] at hp
    · exact hs.left h (by simpa [State.setPc, he] using hp)
  · by_cases he : h = g
    · subst he; simp [State.setPc] at hp
    · exact absurd (by simpa [State.setPc, he] using hp) ((hout h).2 k n)

theorem Consistent.release {s : State} (hs : Consistent ops s) {g : ℕ} (hg : s.pc g = .head)
    (p : Pc) (hp : p = .waiting ∨ p = .left ∧ ops.length ≤ s.iter) :
    Consistent ops { s.setPc g p with owner := none } := by
  have hown : s.owner = some g := (hs.owner_iff g).mpr (.inl hg)
  have hpc : p ≠ .head ∧ ∀ k n, p ≠ .inOp k n := by
    rcases hp with rfl | ⟨rfl, _⟩ <;> simp
  refine ⟨fun h => ?_, fun h hl => ?_, fun h k n hi => ?_, hs.calls⟩
  · by_cases he : h = g
    · subst he; simp [State.setPc, hpc.1, hpc.2]
    · simp [State.setPc, he, (hs.pc_eq hown he).1, (hs.pc_eq hown he).2]
  · by_cases he : h = g
    · subst he
      have hl' : p = .left := by simpa [State.setPc] using hl
      rcases hp with rfl | ⟨_, hle⟩
      · cases hl'
      · exact hle
    · exact hs.left h (by simpa [State.setPc, he] using hl)
  · by_cases he : h = g
    · subst he
      exact absurd (by simpa [State.setPc] using hi) (hpc.2 k n)
    · exact hs.inOp h k n (by simpa [State.setPc, he] using hi)

theorem Consistent.back {s : State} (hs : Consistent ops s) {g k n : ℕ}
    (hg : s.pc g = .inOp k n) : Consistent ops (s.setPc g .head) := by
  have hown : s.owner = some g := (hs.owner_iff g).mpr (.inr ⟨k, n, hg⟩)
  refine ⟨fun h => ?_, fun h hl => ?_, fun h k' n' hi => ?_, hs.calls⟩
  · by_cases he : h = g
    · subst he; simp [State.setPc, hown]
    · have h' := hs.owner_iff h
      simpa [State.setPc, he] using h'
  · by_cases he : h = g
    · subst he; simp [State.setPc] at hl
    · exact hs.left h (by simpa [State.setPc, he] using hl)
  · by_cases he : h = g
    · subst he; simp [State.setPc] at hi
    · exact hs.inOp h k' n' (by simpa [State.setPc, he] using hi)

theorem Consistent.start {s : State} (hs : Consistent ops s) {e : SyncOpT}
    (hg : s.pc e.tid = .head) (he : ops[s.iter]? = some e) :
    Consistent ops (s.startOp e.tid e) := by
  have hown : s.owner = some e.tid := (hs.owner_iff _).mpr (.inl hg)
  have hlt : s.iter < ops.length := (List.getElem?_eq_some_iff.mp he).1
  refine ⟨fun h => ?_, fun h hl => ?_, fun h k n hi => ?_, ?_⟩
  · by_cases heq : h = e.tid
    · subst heq; simp [State.startOp, hown]
    · have h' := hs.owner_iff h
      simpa [State.startOp, heq] using h'
  · by_cases heq : h = e.tid
    · subst heq; simp [State.startOp] at hl
    · have := hs.left h (by simpa [State.startOp, heq] using hl)
      omega
  · by_cases heq : h = e.tid
    · subst heq
      have hi' : s.iter = k ∧ s.calls.length = n := by simpa [State.startOp] using hi
      exact ⟨by simp [State.startOp, hi'.1], by rw [← hi'.1, ← hi'.2, hs.calls]⟩
    · exact absurd (by simpa [State.startOp, heq] using hi) ((hs.pc_eq hown heq).2 k n)
  · have htake : ops.take (s.iter + 1) = ops.take s.iter ++ [e] := by
      rw [List.take_add_one, he]
      rfl
    simp only [State.startOp, htake, callsOf_append, hs.calls]

theorem consistent_step {s t : State} {l : Label} (hs : Consistent ops s)
    (h : step mayReturn threads ops s l = some t) : Consistent ops t := by
  rcases step_cases h with ⟨g, _, hfree, rfl⟩ | ⟨g, hg, ⟨hend, rfl⟩ | ⟨_, rfl⟩⟩ |
    ⟨g, k, n, e, hg, _, _, rfl⟩ | ⟨e, hg, he, rfl⟩
  · exact hs.acquire hfree g
  · exact hs.release hg _ (.inr ⟨rfl, List.getElem?_eq_none_iff.mp hend⟩)
  · exact hs.release hg _ (.inl rfl)
  · exact hs.back hg
  · exact hs.start hg he

theorem consistent_reaches {s t : State} (hs : Consistent ops s)
    (h : Run.Reaches (step mayReturn threads ops) s t) : Consistent ops t :=
  h.invariant (Consistent ops) (fun _ _ _ hu hst => consistent_step hu hst) hs

/-! ### Progress -/

/-- Some continuation gets the next recorded operation started. -/
def CanGoOn (mayReturn : List (ℕ × RtCall) → ℕ → Bool) (threads : List ℕ) (ops : List SyncOpT)
    (s : State) : Prop :=
  ∃ t, Run.Reaches (step mayReturn threads ops) s t ∧ t.iter = s.iter + 1

def Starts (mayReturn : List (ℕ × RtCall) → ℕ → Bool) (threads : List ℕ) (ops : List SyncOpT)
    (s : State) : Prop :=
  ∃ t e n, Run.Reaches (step mayReturn threads ops) s t ∧ ops[s.iter]? = some e ∧
    t.iter = s.iter + 1 ∧ t.pc e.tid = .inOp s.iter n

theorem Starts.of_reaches {s t : State} (h : Run.Reaches (step mayReturn threads ops) s t)
    (hit : t.iter = s.iter) (ht : Starts mayReturn threads ops t) :
    Starts mayReturn threads ops s := by
  obtain ⟨u, e, n, hu, he, hi, hp⟩ := ht
  rw [hit] at he hi hp
  exact ⟨u, e, n, h.trans hu, he, hi, hp⟩

theorem starts_own {s : State} {e : SyncOpT} (he : ops[s.iter]? = some e)
    (hg : s.pc e.tid = .head) : Starts mayReturn threads ops s := by
  have hstep : step mayReturn threads ops s (.test e.tid) = some (s.startOp e.tid e) := by
    simp [step, hg, he]
  exact ⟨s.startOp e.tid e, e, s.calls.length, .single _ hstep, he, rfl, by simp [State.startOp]⟩

theorem starts_free {s : State} (hs : Consistent ops s) (hfree : s.owner = none)
    {e : SyncOpT} (he : ops[s.iter]? = some e) (hth : e.tid ∈ threads) :
    Starts mayReturn threads ops s := by
  let t : State := { s.setPc e.tid .head with owner := some e.tid }
  have henter : Run.Reaches (step mayReturn threads ops) s t := by
    cases hp : s.pc e.tid with
    | outside => exact .single (.lock e.tid) (by simp [step, hp, hth, hfree, t])
    | waiting => exact .single (.wake e.tid) (by simp [step, hp, hfree, t])
    | head => simpa [hfree] using (hs.owner_iff e.tid).mpr (.inl hp)
    | inOp k n => simpa [hfree] using (hs.owner_iff e.tid).mpr (.inr ⟨k, n, hp⟩)
    | left =>
      have hle := hs.left e.tid hp
      have hlt := (List.getElem?_eq_some_iff.mp he).1
      omega
  exact Starts.of_reaches henter rfl (starts_own he (by simp [t, State.setPc]))

theorem starts_head {s : State} (hs : Consistent ops s) {g : ℕ} (hg : s.pc g = .head)
    {e : SyncOpT} (he : ops[s.iter]? = some e) (hth : e.tid ∈ threads) :
    Starts mayReturn threads ops s := by
  by_cases hown : e.tid = g
  · exact starts_own he (hown ▸ hg)
  · let t : State := { s.setPc g .waiting with owner := none }
    have hstep : step mayReturn threads ops s (.test g) = some t := by
      simp [step, hg, he, hown, t]
    exact Starts.of_reaches (.single _ hstep) rfl
      (starts_free (hs.release hg .waiting (.inl rfl)) rfl he hth)

theorem mayReturn_of_not_wait (rt : Runtime) {s : State} (hs : Consistent ops s)
    (hlocks : LocksFree ops) (hw : ∀ d ∈ ops.take s.iter, ¬ d.IsWait) {g k n : ℕ}
    (hg : s.pc g = .inOp k n) {e : SyncOpT} (he : ops[k]? = some e) :
    dispatch e = none ∨ rt.mayReturn s.calls n = true := by
  obtain ⟨hk, hn⟩ := hs.inOp g k n hg
  have htake : ops.take s.iter = ops.take k ++ [e] := by
    rw [← hk, List.take_add_one, he]
    rfl
  have hnot : ¬ e.IsWait := hw e (by simp [htake])
  have hcalls : ∀ c, dispatch e = some c → s.calls[n]? = some (e.tid, c) := by
    intro c hc
    rw [hs.calls, htake, callsOf_append, hc, hn]
    simp
  have hop : ∀ o, e.syncOp = o → dispatch e = none ∨ rt.mayReturn s.calls n = true := by
    intro o ho
    cases o with
    | mutexLock =>
      refine .inr (rt.lock_returns _ n e.tid e.ref (hcalls _ (by simp [dispatch, ho])) ?_)
      have hprev : s.calls.take n = callsOf (ops.take k) := by
        rw [hs.calls, htake, callsOf_append, hn, List.take_left]
      have hfree := hlocks k e he ho fun d hd => hw d (by simp [htake, hd])
      rw [hprev, callHolder_callsOf, hfree]
      intro h hh
      cases hh
    | mutexUnlock =>
      exact .inr (rt.unlock_returns _ n e.tid e.ref (hcalls _ (by simp [dispatch, ho])))
    | condWait => exact absurd (.inl ho) hnot
    | condSignal =>
      exact .inr (rt.signal_returns _ n e.tid e.ref (hcalls _ (by simp [dispatch, ho])))
    | condBroadcast =>
      exact .inr (rt.broadcast_returns _ n e.tid e.ref (hcalls _ (by simp [dispatch, ho])))
    | atomicWait => exact absurd (.inr ho) hnot
    | atomicNotify => exact .inl (by simp [dispatch, ho])
  exact hop _ rfl

theorem starts_of_no_wait (rt : Runtime) {s : State} (hs : Consistent ops s)
    (hlocks : LocksFree ops) (hth : ∀ e ∈ ops, e.tid ∈ threads)
    (hw : ∀ d ∈ ops.take s.iter, ¬ d.IsWait) (hlt : s.iter < ops.length) :
    Starts rt.mayReturn threads ops s := by
  obtain ⟨e, he⟩ : ∃ e, ops[s.iter]? = some e := ⟨_, List.getElem?_eq_getElem hlt⟩
  have hmem : e.tid ∈ threads := hth e (List.mem_of_getElem? he)
  cases hown : s.owner with
  | none => exact starts_free hs hown he hmem
  | some g =>
    rcases (hs.owner_iff g).mp hown with hg | ⟨k, n, hg⟩
    · exact starts_head hs hg he hmem
    · have hk : k < ops.length := by
        have := (hs.inOp g k n hg).1
        omega
      have hstep : step rt.mayReturn threads ops s (.ret g) = some (s.setPc g .head) := by
        have hret := mayReturn_of_not_wait rt hs hlocks hw hg (List.getElem?_eq_getElem hk)
        simp [step, hg, List.getElem?_eq_getElem hk, hret]
      exact Starts.of_reaches (.single _ hstep) rfl
        (starts_head (hs.back hg) (g := g) (by simp [State.setPc]) he hmem)

theorem reaches_iter (rt : Runtime) (hlocks : LocksFree ops) (hth : ∀ e ∈ ops, e.tid ∈ threads)
    (j : ℕ) (hj : j < ops.length) (hw : ∀ d ∈ ops.take j, ¬ d.IsWait) :
    ∃ t e n, Run.Reaches (step rt.mayReturn threads ops) State.init t ∧
      ops[j]? = some e ∧ t.iter = j + 1 ∧ t.pc e.tid = .inOp j n := by
  induction j with
  | zero => exact starts_of_no_wait rt (consistent_init ops) hlocks hth (by simp [State.init]) hj
  | succ j ih =>
    have hprev : ∀ d ∈ ops.take j, ¬ d.IsWait := fun d hd =>
      hw d (List.take_subset_take_left ops (Nat.le_succ j) hd)
    obtain ⟨s, e, n, hreach, _, hit, _⟩ := ih (by omega) hprev
    obtain ⟨t, d, m, hst, hd, hti, htp⟩ := starts_of_no_wait rt
      (consistent_reaches (consistent_init ops) hreach) hlocks hth (hit ▸ hw) (hit ▸ hj)
    rw [hit] at hd hti htp
    exact ⟨t, d, m, hreach.trans hst, hd, hti, htp⟩

/-! ### A wait keeps everybody out -/

theorem not_mayReturn_last (rt : Runtime) {calls : List (ℕ × RtCall)} {n : ℕ} {e : SyncOpT}
    (hw : e.IsWait) (hn : n + 1 = calls.length)
    (hc : ∀ c, dispatch e = some c → calls[n]? = some (e.tid, c)) :
    ¬ (dispatch e = none ∨ rt.mayReturn calls n = true) := by
  have hnone : ∀ j, n < j → calls[j]? = none := fun j hj =>
    List.getElem?_eq_none (by omega)
  rcases hw with hop | hop
  · rintro (hd | hr)
    · simp [dispatch, hop] at hd
    · obtain ⟨j, g, hj, hsig⟩ := rt.condWait_blocks calls n e.tid e.ref
        (hc _ (by simp [dispatch, hop])) hr
      simp [hnone j hj] at hsig
  · rintro (hd | hr)
    · simp [dispatch, hop] at hd
    · obtain ⟨j, g, count, hj, hsig⟩ := rt.atomicWait_blocks calls n e.tid e.ref e.expected e.wait64
        (hc _ (by simp [dispatch, hop])) hr
      simp [hnone j hj] at hsig

structure InWait (ops : List SyncOpT) (k n : ℕ) (e : SyncOpT) (s : State) : Prop where
  consistent : Consistent ops s
  pc : s.pc e.tid = .inOp k n

theorem inWait_step (rt : Runtime) {k n : ℕ} {e : SyncOpT} (he : ops[k]? = some e)
    (hw : e.IsWait) {s t : State} {l : Label} (hs : InWait ops k n e s)
    (h : step rt.mayReturn threads ops s l = some t) : InWait ops k n e t := by
  have hown : s.owner = some e.tid := (hs.consistent.owner_iff _).mpr (.inr ⟨k, n, hs.pc⟩)
  have hcons := consistent_step hs.consistent h
  have hhead : ∀ g, s.pc g ≠ .head := by
    intro g hg
    by_cases heq : g = e.tid
    · rw [heq, hs.pc] at hg; cases hg
    · exact (hs.consistent.pc_eq hown heq).1 hg
  rcases step_cases h with ⟨g, _, hfree, _⟩ | ⟨g, hg, _⟩ | ⟨g, k', n', d, hg, hd, hr, rfl⟩ |
    ⟨d, hg, _, _⟩
  · rw [hown] at hfree; cases hfree
  · exact absurd hg (hhead g)
  · have hgt : g = e.tid := by
      by_contra heq
      exact (hs.consistent.pc_eq hown heq).2 k' n' hg
    rw [hgt, hs.pc] at hg
    obtain ⟨rfl, rfl⟩ := Pc.inOp.inj hg
    obtain rfl : e = d := Option.some.inj (he.symm.trans hd)
    -- the call of the wait is the last one made
    obtain ⟨hk, hn⟩ := hs.consistent.inOp _ _ _ hs.pc
    have hcalls : s.calls
        = callsOf (ops.take k) ++ ((dispatch e).map fun c => (e.tid, c)).toList := by
      rw [hs.consistent.calls, ← hk, ← callsOf_append, List.take_add_one, he]
      rfl
    have hlen : n + 1 = s.calls.length := by
      rcases hw with hop | hop <;> simp [hcalls, hn, dispatch, hop]
    exact absurd hr (not_mayReturn_last rt hw hlen fun c hc => by simp [hcalls, hc, hn])
  · exact absurd hg (hhead d.tid)

theorem not_canGoOn_of_inWait (rt : Runtime) {k n : ℕ} {e : SyncOpT} (he : ops[k]? = some e)
    (hw : e.IsWait) {s : State} (hs : InWait ops k n e s) :
    ¬ CanGoOn rt.mayReturn threads ops s := by
  intro ⟨t, hreach, hit⟩
  have ht := hreach.invariant (InWait ops k n e)
    (fun _ _ _ hu hst => inWait_step rt he hw hu hst) hs
  have hsk := (hs.consistent.inOp _ _ _ hs.pc).1
  have htk := (ht.consistent.inOp _ _ _ ht.pc).1
  omega

/-! ### The exact condition -/

theorem not_wait_of_last {j : ℕ} (hlast : ∀ k e, ops[k]? = some e → e.IsWait → k + 1 = ops.length)
    (hj : j < ops.length) : ∀ d ∈ ops.take j, ¬ d.IsWait := by
  intro d hd hw
  obtain ⟨k, hk, rfl⟩ := List.mem_iff_getElem.mp hd
  have hkj : k < j := by simp only [List.length_take] at hk; omega
  have hkl : k < ops.length := by omega
  have hget : ops[k]? = some (ops.take j)[k] := by
    rw [List.getElem_take]; exact List.getElem?_eq_getElem hkl
  have := hlast k _ hget hw
  omega

theorem never_stuck_ops_iff (rt : Runtime) (hlocks : LocksFree ops)
    (hth : ∀ e ∈ ops, e.tid ∈ threads) :
    (∀ s, Run.Reaches (step rt.mayReturn threads ops) State.init s → s.iter < ops.length →
      CanGoOn rt.mayReturn threads ops s) ↔
    ∀ k e, ops[k]? = some e → e.IsWait → k + 1 = ops.length := by
  constructor
  · intro hgo k
    -- the first wait that is not last is reached and never left
    induction k using Nat.strongRecOn with
    | ind k ih =>
      intro e he hw
      by_contra hne
      have hk : k < ops.length := (List.getElem?_eq_some_iff.mp he).1
      have hbefore : ∀ d ∈ ops.take k, ¬ d.IsWait := by
        intro d hd hdw
        obtain ⟨i, hi, rfl⟩ := List.mem_iff_getElem.mp hd
        have hik : i < k := by simp only [List.length_take] at hi; omega
        have hget : ops[i]? = some (ops.take k)[i] := by
          rw [List.getElem_take]; exact List.getElem?_eq_getElem (by omega)
        have := ih i hik _ hget hdw
        omega
      obtain ⟨s, d, n, hreach, hd, hit, hpc⟩ := reaches_iter rt hlocks hth k hk hbefore
      obtain rfl : e = d := Option.some.inj (he.symm.trans hd)
      exact not_canGoOn_of_inWait rt he hw
        ⟨consistent_reaches (consistent_init ops) hreach, hpc⟩ (hgo s hreach (by omega))
  · intro hlast s hreach hlt
    obtain ⟨t, e, n, ht, _, hit, _⟩ := starts_of_no_wait rt
      (consistent_reaches (consistent_init ops) hreach) hlocks hth (not_wait_of_last hlast hlt) hlt
    exact ⟨t, ht, hit⟩

/-- For every log of a real execution whose thread ids are mapped to threads that run
the replay: no reachable state is stuck if and only if no wait is followed by another
entry. -/
theorem replay_never_stuck_iff (rt : Runtime) (threads : List ℕ) (tidMap : TidMap)
    (initRef : ℕ → ℕ) (log : List SyncOpT) (hrec : Recorded log)
    (hlive : ∀ e ∈ log, tidMap e.tid ∈ threads) :
    (∀ s, Run.Reaches (step rt.mayReturn threads (remap tidMap initRef log).ops) State.init s →
      s.iter < log.length → CanGoOn rt.mayReturn threads (remap tidMap initRef log).ops s) ↔
    ∀ k e, log[k]? = some e → e.IsWait → k + 1 = log.length := by
  have hlen : (remap tidMap initRef log).ops.length = log.length := by simp [remap_ops]
  have hth : ∀ e ∈ (remap tidMap initRef log).ops, e.tid ∈ threads := by
    intro e he
    rw [remap_ops] at he
    obtain ⟨d, hd, rfl⟩ := List.mem_map.mp he
    exact hlive d hd
  have hiff := never_stuck_ops_iff rt (locksFree_remap tidMap initRef hrec.locksFree) hth
  rw [hlen] at hiff
  rw [hiff]
  constructor
  · intro h k e he hw
    exact h k (e.retid tidMap) (by simp [remap_getElem?, he]) hw
  · intro h k e he hw
    rw [remap_getElem?] at he
    obtain ⟨d, hd, rfl⟩ := Option.map_eq_some_iff.mp he
    exact h k d hd hw

theorem replay_never_stuck_iff_waitLast :
    let log : List SyncOpT :=
      [⟨1, 5, .mutexLock, 0, false⟩, ⟨1, 5, .mutexUnlock, 0, false⟩, ⟨2, 64, .atomicWait, 0, true⟩]
    ∀ s, Run.Reaches (step plainRuntime.mayReturn [10, 20] (remap (10 * ·) id log).ops)
        State.init s → s.iter < log.length →
      CanGoOn plainRuntime.mayReturn [10, 20] (remap (10 * ·) id log).ops s := by
  intro log
  have hrec : Recorded log := ⟨[.lock 1 5, .unlock 1 5, .atomicWait 2 64 0 true], _, rfl, rfl⟩
  have hlast : ∀ k e, log[k]? = some e → e.IsWait → k + 1 = log.length := by
    rintro (_ | _ | _ | k) e he hw
    · obtain rfl := Option.some.inj he; simp [SyncOpT.IsWait] at hw
    · obtain rfl := Option.some.inj he; simp [SyncOpT.IsWait] at hw
    · rfl
    · cases he
  exact (replay_never_stuck_iff plainRuntime [10, 20] (10 * ·) id log hrec (by decide)).mpr hlast

/-- Thread 1 waits on a condition, thread 2 signals it. In the replay thread 1 waits
with `syncop_mutex` in its hands, and thread 2 never gets to its signal. -/
theorem replay_stuck_after_condWait :
    ¬ ∀ (rt : Runtime) (threads : List ℕ) (tidMap : TidMap) (initRef : ℕ → ℕ)
        (log : List SyncOpT), Recorded log → (∀ e ∈ log, tidMap e.tid ∈ threads) →
      ∀ s, Run.Reaches (step rt.mayReturn threads (remap tidMap initRef log).ops) State.init s →
        s.iter < log.length → CanGoOn rt.mayReturn threads (remap tidMap initRef log).ops s := by
  intro hclaim
  let log : List SyncOpT :=
    [⟨1, 5, .mutexLock, 0, false⟩, ⟨1, 6, .condWait, 0, false⟩, ⟨2, 6, .condSignal, 0, false⟩]
  have hrec : Recorded log := ⟨[.lock 1 5, .condWait 1 6 5, .signal 2 6], _, rfl, rfl⟩
  let st := step plainRuntime.mayReturn [10, 20] (remap (10 * ·) id log).ops
  obtain ⟨s, hs⟩ : ∃ s, Run.exec st State.init [.lock 10, .test 10, .ret 10, .test 10] = some s :=
    ⟨_, rfl⟩
  have hreach : Run.Reaches st State.init s := ⟨_, hs⟩
  have hpc : s.pc 10 = .inOp 1 1 := by obtain rfl := Option.some.inj hs; rfl
  have hit : s.iter = 2 := by obtain rfl := Option.some.inj hs; rfl
  have hgo := hclaim plainRuntime [10, 20] (10 * ·) id log hrec (by decide) s hreach
    (by rw [hit]; decide)
  exact not_canGoOn_of_inWait plainRuntime (k := 1) (n := 1) (e := ⟨10, 6, .condWait, 0, false⟩) rfl
    (.inl rfl) ⟨consistent_reaches (consistent_init _) hreach, hpc⟩ hgo

end MVVM.SyncOps
