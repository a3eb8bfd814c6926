import MVVM.Threads.Spawn
import Mathlib.Logic.Function.Basic

/-!
# Whether all children are spawned (wamr.cpp:563-628)

A thread that is not the parent of the next child waits for `cv.notify_all`, which comes after
each child. All children come to be when each has a parent among the threads before it; no
notification is lost.
-/

namespace MVVM.Threads

/-- The condition variable: for a thread in `cv.wait`, whether `notify_all` has been called
since. -/
structure Notified where
  spawn : SpawnState
  notified : ℕ → Bool

/-- What a step of thread `i` does to the condition variable. -/
def notify (s : SpawnState) (i : ℕ) (notified : ℕ → Bool) : ℕ → Bool :=
  match s.threads[i]?.map Worker.pc with
  | some .acquire => fun _ => true
  | some .check => Function.update notified i false
  | _ => notified

/-- `cv.wait` comes back when it was notified, or, with `spurious`, at any time. -/
def notifyStep (c : Cluster) (spurious : Bool) (x : Notified) (l : SpawnLabel) : Option Notified :=
  match l with
  | .run i => (spawnStep c x.spawn l).map fun t => ⟨t, notify x.spawn i x.notified⟩
  | .wake i =>
    if x.notified i || spurious then (spawnStep c x.spawn l).map fun t => ⟨t, x.notified⟩
    else none

/-- The thread is the one that creates the next child. -/
def Worker.IsParent (w : Worker) (parent : ℕ) : Prop :=
  parent = w.handle ∨ parent = if w.main then 0 else 1

instance (w : Worker) (parent : ℕ) : Decidable (w.IsParent parent) := by
  unfold Worker.IsParent
  infer_instance

/-- The child at `k` has the main thread as its parent, or a child before it. -/
def Adopted (c : Cluster) (handle : ℕ) (children : Std.TreeMap ℕ ℕ) (k : ℕ) : Prop :=
  ∃ e, c.execEnv[k]? = some e ∧
    (parentOf c children e = 0 ∨ parentOf c children e = handle ∨
      ∃ j e', 0 < j ∧ j < k ∧ c.execEnv[j]? = some e' ∧
        (parentOf c children e = e' ∨ parentOf c children e = 1))

/-- What holds of a restored cluster, whose main thread has the handle `handle`, from the
first step on; `children` is what `child_tid_map` was then. -/
structure Kept (c : Cluster) (handle : ℕ) (children : Std.TreeMap ℕ ℕ) (x : Notified) : Prop where
  inv : SpawnInv c x.spawn
  main : ∀ w, x.spawn.threads[0]? = some w → w.handle = handle
  handles : ∀ (j : ℕ) (w : Worker), 0 < j → x.spawn.threads[j]? = some w → w.pc ≠ .restoreEnv →
    c.execEnv[j]? = some w.handle
  tids : ∀ id, x.spawn.childTidMap.getD id 0 = children.getD id 0
  parent : x.spawn.parent ≠ 0 → ∀ e, c.execEnv[x.spawn.iter]? = some e →
    x.spawn.parent = parentOf c children e
  checked : ∀ (j : ℕ) (w : Worker), x.spawn.threads[j]? = some w → w.pc = .check ∨ w.pc = .create →
    ∀ e, c.execEnv[x.spawn.iter]? = some e → x.spawn.parent = parentOf c children e
  created : ∀ (j : ℕ) (w : Worker), x.spawn.threads[j]? = some w → w.pc = .create →
    w.IsParent x.spawn.parent
  waiting : ∀ (j : ℕ) (w : Worker), x.spawn.threads[j]? = some w → w.pc = .waiting →
    x.notified j = false → ∃ e, c.execEnv[x.spawn.iter]? = some e ∧
      ¬w.IsParent (parentOf c children e)
  adopted : ∀ k, 0 < k → k < x.spawn.threads.length → Adopted c handle children k
  first : 0 < x.spawn.threads.length
  mtx : ∀ i, x.spawn.mtx = some i → i < x.spawn.threads.length
  boots : ∀ (i : ℕ) (w : Worker), x.spawn.threads[i]? = some w → w.pc = .acquire →
    x.spawn.threadInit = 0 → ∃ (j : ℕ) (v : Worker), x.spawn.threads[j]? = some v ∧ v.pc.Booting

variable {c : Cluster} {handle : ℕ} {children : Std.TreeMap ℕ ℕ} {x t : Notified} {i : ℕ}
  {w w' : Worker}

theorem parentOf_congr {m m' : Std.TreeMap ℕ ℕ} (h : ∀ id, m.getD id 0 = m'.getD id 0) (e : ℕ) :
    parentOf c m e = parentOf c m' e := by
  unfold parentOf
  rw [h]

theorem nextChild_children (c : Cluster) (s : SpawnState) (id : ℕ) :
    (nextChild c s).childTidMap.getD id 0 = s.childTidMap.getD id 0 := by
  unfold nextChild
  split
  · split
    · simp only [Std.TreeMap.getD_insertIfNew]
      split
      · next heq =>
        obtain ⟨hcmp, hmem⟩ := heq
        rw [← Std.LawfulEqCmp.eq_of_compare hcmp]
        rw [Std.TreeMap.getD_eq_fallback hmem]
      · rfl
    · rfl
  · rfl

theorem nextChild_parent (c : Cluster) (s : SpawnState) {e : ℕ} (he : c.execEnv[s.iter]? = some e) :
    (nextChild c s).parent = if s.parent = 0 then parentOf c s.childTidMap e else s.parent := by
  unfold nextChild
  rw [he]
  by_cases hp : s.parent = 0
  · simp only [if_pos hp]
  · simp only [if_neg hp]

/-! ### What the steps keep -/

theorem notify_of_ne {s : SpawnState} (hw : s.threads[i]? = some w) (hpc : w.pc ≠ .acquire)
    (f : ℕ → Bool) {j : ℕ} (hj : j ≠ i) : notify s i f j = f j := by
  unfold notify
  rw [hw, Option.map_some]
  generalize w.pc = q at hpc
  cases q with
  | acquire => exact absurd rfl hpc
  | check => exact Function.update_of_ne hj false f
  | _ => rfl

/-- One thread moves on, and the next child stays the next child. -/
theorem Kept.set (hx : Kept c handle children x) (hw : x.spawn.threads[i]? = some w)
    (hinv : SpawnInv c t.spawn) (hthreads : t.spawn.threads = x.spawn.threads.set i w')
    (hiter : t.spawn.iter = x.spawn.iter) (hparent : t.spawn.parent = x.spawn.parent)
    (htids : t.spawn.childTidMap = x.spawn.childTidMap)
    (hmtx : t.spawn.mtx = x.spawn.mtx ∨ t.spawn.mtx = some i ∨ t.spawn.mtx = none)
    (hmain : i = 0 → w'.handle = handle)
    (hhandle : 0 < i → w'.pc ≠ .restoreEnv → c.execEnv[i]? = some w'.handle)
    (hchecked : w'.pc = .check ∨ w'.pc = .create → w.pc = .check ∨ w.pc = .create)
    (hcreated : w'.pc = .create → w'.IsParent x.spawn.parent)
    (hwaiting : w'.pc = .waiting → ∃ e, c.execEnv[x.spawn.iter]? = some e ∧
      ¬w'.IsParent (parentOf c children e))
    (hacquire : w'.pc ≠ .acquire) (hinit : t.spawn.threadInit = 0 → x.spawn.threadInit = 0)
    (hboots : w.pc.Booting → w'.pc.Booting ∨ t.spawn.threadInit ≠ 0)
    (hnotified : ∀ j, j ≠ i → t.notified j = x.notified j) : Kept c handle children t := by
  have hlen : t.spawn.threads.length = x.spawn.threads.length := by
    rw [hthreads, List.length_set]
  have hlt : i < x.spawn.threads.length := (List.getElem?_eq_some_iff.mp hw).1
  have hcases : ∀ (j : ℕ) (v : Worker), t.spawn.threads[j]? = some v →
      (j = i ∧ v = w') ∨ (j ≠ i ∧ x.spawn.threads[j]? = some v) := by
    intro j v hv
    rw [hthreads] at hv
    exact set_cases hw hv
  refine ⟨hinv, fun v hv => ?_, fun j v hj hv hpc => ?_, fun id => ?_, fun hne e he => ?_,
    fun j v hv hpc e he => ?_, fun j v hv hpc => ?_, fun j v hv hpc hn => ?_,
    fun k hk hlen' => hx.adopted k hk (hlen ▸ hlen'), hlen ▸ hx.first, fun j hj => ?_,
    fun j v hv hpc h0 => ?_⟩
  · rcases hcases 0 v hv with ⟨h0, rfl⟩ | ⟨-, hv⟩
    · exact hmain h0.symm
    · exact hx.main v hv
  · rcases hcases j v hv with ⟨rfl, rfl⟩ | ⟨-, hv⟩
    · exact hhandle hj hpc
    · exact hx.handles j v hj hv hpc
  · rw [htids]
    exact hx.tids id
  · rw [hparent] at hne ⊢
    exact hx.parent hne e (hiter ▸ he)
  · rw [hparent]
    rcases hcases j v hv with ⟨rfl, rfl⟩ | ⟨-, hv⟩
    · exact hx.checked _ w hw (hchecked hpc) e (hiter ▸ he)
    · exact hx.checked j v hv hpc e (hiter ▸ he)
  · rw [hparent]
    rcases hcases j v hv with ⟨rfl, rfl⟩ | ⟨-, hv⟩
    · exact hcreated hpc
    · exact hx.created j v hv hpc
  · rw [hiter]
    rcases hcases j v hv with ⟨rfl, rfl⟩ | ⟨hj, hv⟩
    · exact hwaiting hpc
    · exact hx.waiting j v hv hpc (hnotified j hj ▸ hn)
  · rw [hlen]
    rcases hmtx with hmtx | hmtx | hmtx
    · exact hx.mtx j (hmtx ▸ hj)
    · rw [hmtx] at hj
      exact Option.some.inj hj ▸ hlt
    · rw [hmtx] at hj
      cases hj
  · rcases hcases j v hv with ⟨-, rfl⟩ | ⟨-, hv⟩
    · exact absurd hpc hacquire
    · obtain ⟨k, u, hu, hb⟩ := hx.boots j v hv hpc (hinit h0)
      by_cases hk : k = i
      · subst hk
        obtain rfl := Option.some.inj (hw.symm.trans hu)
        refine ⟨k, w', ?_, (hboots hb).resolve_right fun hne => hne h0⟩
        rw [hthreads, List.getElem?_set_self hlt]
      · refine ⟨k, u, ?_, hb⟩
        rw [hthreads, List.getElem?_set_ne (Ne.symm hk)]
        exact hu

/-- Only the place of the thread changes. -/
theorem Kept.goto (hx : Kept c handle children x) {q : SpawnPc}
    (hw : x.spawn.threads[i]? = some w) (hpc : w.pc ≠ .restoreEnv)
    (hinv : SpawnInv c t.spawn)
    (hthreads : t.spawn.threads = x.spawn.threads.set i { w with pc := q })
    (hiter : t.spawn.iter = x.spawn.iter) (hparent : t.spawn.parent = x.spawn.parent)
    (htids : t.spawn.childTidMap = x.spawn.childTidMap)
    (hmtx : t.spawn.mtx = x.spawn.mtx ∨ t.spawn.mtx = some i ∨ t.spawn.mtx = none)
    (hchecked : q ≠ .check)
    (hcreated : q = .create → w.pc = .check ∧ w.IsParent x.spawn.parent)
    (hwaiting : q = .waiting → ∃ e, c.execEnv[x.spawn.iter]? = some e ∧
      ¬w.IsParent (parentOf c children e))
    (hacquire : q ≠ .acquire) (hinit : t.spawn.threadInit = 0 → x.spawn.threadInit = 0)
    (hboots : w.pc.Booting → t.spawn.threadInit ≠ 0)
    (hnotified : ∀ j, j ≠ i → t.notified j = x.notified j) : Kept c handle children t := by
  refine hx.set hw hinv hthreads hiter hparent htids hmtx (fun hi => ?_) (fun hi _ => ?_)
    (fun h => ?_) (fun h => (hcreated h).2) hwaiting hacquire hinit (fun h => .inr (hboots h))
    hnotified
  · exact hx.main w (hi ▸ hw)
  · exact hx.handles i w hi hw hpc
  · exact .inl (hcreated (h.resolve_left hchecked)).1

/-- A place at which nothing is asked of the thread. -/
theorem Kept.pass (hx : Kept c handle children x) {q : SpawnPc}
    (hw : x.spawn.threads[i]? = some w) (hpc : w.pc ≠ .restoreEnv)
    (hinv : SpawnInv c t.spawn)
    (hthreads : t.spawn.threads = x.spawn.threads.set i { w with pc := q })
    (hiter : t.spawn.iter = x.spawn.iter) (hparent : t.spawn.parent = x.spawn.parent)
    (htids : t.spawn.childTidMap = x.spawn.childTidMap)
    (hmtx : t.spawn.mtx = x.spawn.mtx ∨ t.spawn.mtx = some i ∨ t.spawn.mtx = none)
    (hchild : ¬q.UsesChild) (hwaiting : q ≠ .waiting)
    (hinit : t.spawn.threadInit = 0 → x.spawn.threadInit = 0)
    (hboots : w.pc.Booting → t.spawn.threadInit ≠ 0)
    (hnotified : ∀ j, j ≠ i → t.notified j = x.notified j) : Kept c handle children t :=
  hx.goto hw hpc hinv hthreads hiter hparent htids hmtx (fun h => hchild (.inl h))
    (fun h => absurd (.inr (.inl h)) hchild) (fun h => absurd h hwaiting)
    (fun h => hchild (.inr (.inr h))) hinit hboots hnotified

theorem Kept.holder (hx : Kept c handle children x) (hw : x.spawn.threads[i]? = some w)
    (hi : w.pc.Holding) {j : ℕ} {v : Worker} (hv : x.spawn.threads[j]? = some v)
    (hj : v.pc.Holding) : j = i ∧ v = w := by
  obtain rfl := hx.inv.holder hw hi hv hj
  exact ⟨rfl, Option.some.inj (hv.symm.trans hw)⟩

theorem Kept.isParent_adopted (hx : Kept c handle children x)
    (hw : x.spawn.threads[i]? = some w) (hpc : w.pc = .create) :
    Adopted c handle children x.spawn.iter := by
  have hi := hx.inv.worker i w hw
  obtain ⟨-, hbound⟩ := hi.usesChild (.inr (.inl hpc))
  obtain ⟨hiter, -⟩ := hx.inv.idle_of_holding hw (.inr (.inr (.inl hpc))) (by simp [hpc])
  have hlt : i < x.spawn.threads.length := (List.getElem?_eq_some_iff.mp hw).1
  have he : c.execEnv[x.spawn.iter]? = some c.execEnv[x.spawn.iter] :=
    List.getElem?_eq_getElem hbound
  have hparent := hx.checked i w hw (.inr hpc) _ he
  refine ⟨_, he, ?_⟩
  rw [← hparent]
  rcases Nat.eq_zero_or_pos i with rfl | hpos
  · have hmain : w.main = true := hi.main.mpr rfl
    rcases hx.created 0 w hw hpc with hown | hzero
    · exact .inr (.inl (hown.trans (hx.main w hw)))
    · rw [if_pos hmain] at hzero
      exact .inl hzero
  · have hmain : w.main ≠ true := fun h => Nat.ne_of_gt hpos (hi.main.mp h)
    have hhandle := hx.handles i w hpos hw (by simp [hpc])
    refine .inr (.inr ⟨i, w.handle, hpos, hiter ▸ hlt, hhandle, ?_⟩)
    rcases hx.created i w hw hpc with hown | hone
    · exact .inl hown
    · rw [if_neg hmain] at hone
      exact .inr hone

/-- The parent of the next child is computed. -/
theorem Kept.computes (hx : Kept c handle children x) (hw : x.spawn.threads[i]? = some w)
    (hpc : w.pc = .loop) {f : ℕ → Bool} (hf : ∀ j, j ≠ i → f j = x.notified j)
    (hinv : SpawnInv c ((nextChild c x.spawn).set i { w with pc := .check })) :
    Kept c handle children ⟨(nextChild c x.spawn).set i { w with pc := .check }, f⟩ := by
  obtain ⟨hsame, hiter, hmtx, -, -⟩ := nextChild_frame (c := c) (s := x.spawn)
  have hthreads : ((nextChild c x.spawn).set i { w with pc := .check }).threads
      = x.spawn.threads.set i { w with pc := .check } := by
    rw [SpawnState.set, hsame]
  have hcases : ∀ (j : ℕ) (v : Worker),
      ((nextChild c x.spawn).set i { w with pc := .check }).threads[j]? = some v →
        (j = i ∧ v = { w with pc := .check }) ∨ (j ≠ i ∧ x.spawn.threads[j]? = some v) := by
    intro j v hv
    rw [hthreads] at hv
    exact set_cases hw hv
  have hother : ∀ (j : ℕ) (v : Worker), j ≠ i → x.spawn.threads[j]? = some v → ¬v.pc.Holding :=
    fun j v hj hv hhold => hj (hx.holder hw (.inl hpc) hv hhold).1
  have hparent : ∀ e, c.execEnv[(nextChild c x.spawn).iter]? = some e →
      (nextChild c x.spawn).parent = parentOf c children e := by
    intro e he
    rw [hiter] at he
    rw [nextChild_parent c x.spawn he]
    split
    · exact parentOf_congr hx.tids e
    · next hne => exact hx.parent hne e he
  refine ⟨hinv, fun v hv => ?_, fun j v hj hv hne => ?_, fun id => ?_, fun _ e he => hparent e he,
    fun _ _ _ _ e he => hparent e he, fun j v hv hcreate => ?_, fun j v hv hwait hn => ?_,
    fun k hk hlen => ?_, ?_, fun j hj => ?_, fun j v hv hacq _ => ?_⟩
  · rcases hcases 0 v hv with ⟨h0, rfl⟩ | ⟨-, hv⟩
    · exact hx.main w (h0 ▸ hw)
    · exact hx.main v hv
  · rcases hcases j v hv with ⟨rfl, rfl⟩ | ⟨-, hv⟩
    · exact hx.handles j w hj hw (by simp [hpc])
    · exact hx.handles j v hj hv hne
  · exact (nextChild_children c x.spawn id).trans (hx.tids id)
  · rcases hcases j v hv with ⟨rfl, rfl⟩ | ⟨hj, hv⟩
    · cases hcreate
    · exact absurd (.inr (.inr (.inl hcreate))) (hother j v hj hv)
  · rcases hcases j v hv with ⟨rfl, rfl⟩ | ⟨hj, hv⟩
    · cases hwait
    · obtain ⟨e, he, hno⟩ := hx.waiting j v hv hwait (hf j hj ▸ hn)
      exact ⟨e, hiter.symm ▸ he, hno⟩
  · rw [hthreads, List.length_set] at hlen
    exact hx.adopted k hk hlen
  · rw [hthreads, List.length_set]
    exact hx.first
  · rw [hthreads, List.length_set]
    exact hx.mtx j (hmtx ▸ hj)
  · rcases hcases j v hv with ⟨rfl, rfl⟩ | ⟨hj, hv⟩
    · cases hacq
    · exact absurd (.inr (.inr (.inr hacq))) (hother j v hj hv)

/-- The parent creates the child. -/
theorem Kept.creates (hx : Kept c handle children x) (hw : x.spawn.threads[i]? = some w)
    (hpc : w.pc = .create) {f : ℕ → Bool} (hf : ∀ j, j ≠ i → f j = x.notified j) {u : SpawnState}
    (hu : u = { x.spawn.set i { w with pc := .acquire } with
      threads := (x.spawn.set i { w with pc := .acquire }).threads ++
        [⟨false, 0, x.spawn.iter, none, .restoreEnv⟩] })
    (hinv : SpawnInv c u) : Kept c handle children ⟨u, f⟩ := by
  have hlt : i < x.spawn.threads.length := (List.getElem?_eq_some_iff.mp hw).1
  obtain ⟨hiter, -⟩ := hx.inv.idle_of_holding hw (.inr (.inr (.inl hpc))) (by simp [hpc])
  have hthreads : u.threads = x.spawn.threads.set i { w with pc := .acquire } ++
      [⟨false, 0, x.spawn.iter, none, .restoreEnv⟩] := by rw [hu, SpawnState.set]
  have hlen : u.threads.length = x.spawn.threads.length + 1 := by
    rw [hthreads, List.length_append, List.length_set, List.length_singleton]
  have hlast : u.threads[x.spawn.threads.length]? =
      some ⟨false, 0, x.spawn.iter, none, .restoreEnv⟩ := by
    rw [hthreads, List.getElem?_append_right (by simp)]
    simp
  have hcases : ∀ (j : ℕ) (v : Worker), u.threads[j]? = some v →
      (j = i ∧ v = { w with pc := .acquire }) ∨ (j ≠ i ∧ x.spawn.threads[j]? = some v) ∨
        (0 < j ∧ v = ⟨false, 0, x.spawn.iter, none, .restoreEnv⟩) := by
    intro j v hv
    by_cases hj : j < x.spawn.threads.length
    · rw [hthreads, List.getElem?_append_left (by rw [List.length_set]; exact hj)] at hv
      rcases set_cases hw hv with hown | hother
      · exact .inl hown
      · exact .inr (.inl hother)
    · have hjlt := (List.getElem?_eq_some_iff.mp hv).1
      obtain rfl : j = x.spawn.threads.length := by omega
      rw [hlast] at hv
      exact .inr (.inr ⟨by omega, (Option.some.inj hv).symm⟩)
  have hother : ∀ (j : ℕ) (v : Worker), j ≠ i → x.spawn.threads[j]? = some v → ¬v.pc.Holding :=
    fun j v hj hv hhold => hj (hx.holder hw (.inr (.inr (.inl hpc))) hv hhold).1
  have hsame : u.iter = x.spawn.iter ∧ u.parent = x.spawn.parent ∧
      u.childTidMap = x.spawn.childTidMap ∧ u.mtx = x.spawn.mtx := by
    rw [hu]
    exact ⟨rfl, rfl, rfl, rfl⟩
  obtain ⟨hsiter, hsparent, hstids, hsmtx⟩ := hsame
  refine ⟨hinv, fun v hv => ?_, fun j v hj hv hne => ?_, fun id => hstids ▸ hx.tids id,
    fun hne e he => ?_, fun j v hv hcheck e he => ?_, fun j v hv hcreate => ?_,
    fun j v hv hwait hn => ?_, fun k hk hk' => ?_, by simp only [hlen]; omega, fun j hj => ?_,
    fun j v hv hacq _ => ⟨_, _, hlast, .inl rfl⟩⟩
  · rcases hcases 0 v hv with ⟨h0, rfl⟩ | ⟨-, hv⟩ | ⟨h0, -⟩
    · exact hx.main w (h0 ▸ hw)
    · exact hx.main v hv
    · exact absurd h0 (Nat.lt_irrefl 0)
  · rcases hcases j v hv with ⟨rfl, rfl⟩ | ⟨-, hv⟩ | ⟨-, rfl⟩
    · exact hx.handles j w hj hw (by simp [hpc])
    · exact hx.handles j v hj hv hne
    · exact absurd rfl hne
  · rw [hsparent] at hne ⊢
    exact hx.parent hne e (hsiter ▸ he)
  · rcases hcases j v hv with ⟨rfl, rfl⟩ | ⟨hj, hv⟩ | ⟨-, rfl⟩
    · rcases hcheck with hcheck | hcheck <;> cases hcheck
    · refine absurd ?_ (hother j v hj hv)
      exact hcheck.elim (fun h => .inr (.inl h)) fun h => .inr (.inr (.inl h))
    · rcases hcheck with hcheck | hcheck <;> cases hcheck
  · rcases hcases j v hv with ⟨rfl, rfl⟩ | ⟨hj, hv⟩ | ⟨-, rfl⟩
    · cases hcreate
    · exact absurd (.inr (.inr (.inl hcreate))) (hother j v hj hv)
    · cases hcreate
  · rcases hcases j v hv with ⟨rfl, rfl⟩ | ⟨hj, hv⟩ | ⟨-, rfl⟩
    · cases hwait
    · obtain ⟨e, he, hno⟩ := hx.waiting j v hv hwait (hf j hj ▸ hn)
      exact ⟨e, hsiter.symm ▸ he, hno⟩
    · cases hwait
  · simp only [hlen] at hk'
    rcases Nat.lt_succ_iff_lt_or_eq.mp hk' with hold | rfl
    · exact hx.adopted k hk hold
    · exact hiter ▸ hx.isParent_adopted hw hpc
  · have hj' := hx.mtx j (hsmtx ▸ hj)
    simp only [hlen]
    omega

/-- The child has begun, and all that wait are notified. -/
theorem Kept.acquires (hx : Kept c handle children x) (hw : x.spawn.threads[i]? = some w)
    (hpc : w.pc = .acquire) {u : SpawnState}
    (hu : u = { x.spawn.set i { w with pc := .loop } with
      threadInit := x.spawn.threadInit - 1, iter := x.spawn.iter + 1, parent := 0 })
    (hinv : SpawnInv c u) : Kept c handle children ⟨u, fun _ => true⟩ := by
  have hthreads : u.threads = x.spawn.threads.set i { w with pc := .loop } := by
    rw [hu, SpawnState.set]
  have hlen : u.threads.length = x.spawn.threads.length := by rw [hthreads, List.length_set]
  have hcases : ∀ (j : ℕ) (v : Worker), u.threads[j]? = some v →
      (j = i ∧ v = { w with pc := .loop }) ∨ (j ≠ i ∧ x.spawn.threads[j]? = some v) := by
    intro j v hv
    rw [hthreads] at hv
    exact set_cases hw hv
  have hother : ∀ (j : ℕ) (v : Worker), j ≠ i → x.spawn.threads[j]? = some v → ¬v.pc.Holding :=
    fun j v hj hv hhold => hj (hx.holder hw (.inr (.inr (.inr hpc))) hv hhold).1
  have hsame : u.parent = 0 ∧ u.childTidMap = x.spawn.childTidMap ∧ u.mtx = x.spawn.mtx := by
    rw [hu]
    exact ⟨rfl, rfl, rfl⟩
  obtain ⟨hzero, hstids, hsmtx⟩ := hsame
  refine ⟨hinv, fun v hv => ?_, fun j v hj hv hne => ?_, fun id => hstids ▸ hx.tids id,
    fun hne => absurd hzero hne, fun j v hv hcheck => ?_, fun j v hv hcreate => ?_,
    fun _ _ _ _ hn => (by cases hn), fun k hk hk' => hx.adopted k hk (hlen ▸ hk'),
    hlen ▸ hx.first, fun j hj => hlen ▸ hx.mtx j (hsmtx ▸ hj), fun j v hv hacq => ?_⟩
  · rcases hcases 0 v hv with ⟨h0, rfl⟩ | ⟨-, hv⟩
    · exact hx.main w (h0 ▸ hw)
    · exact hx.main v hv
  · rcases hcases j v hv with ⟨rfl, rfl⟩ | ⟨-, hv⟩
    · exact hx.handles j w hj hw (by simp [hpc])
    · exact hx.handles j v hj hv hne
  · rcases hcases j v hv with ⟨rfl, rfl⟩ | ⟨hj, hv⟩
    · rcases hcheck with hcheck | hcheck <;> cases hcheck
    · refine absurd ?_ (hother j v hj hv)
      exact hcheck.elim (fun h => .inr (.inl h)) fun h => .inr (.inr (.inl h))
  · rcases hcases j v hv with ⟨rfl, rfl⟩ | ⟨hj, hv⟩
    · cases hcreate
    · exact absurd (.inr (.inr (.inl hcreate))) (hother j v hj hv)
  · rcases hcases j v hv with ⟨rfl, rfl⟩ | ⟨hj, hv⟩
    · cases hacq
    · exact absurd (.inr (.inr (.inr hacq))) (hother j v hj hv)

theorem Kept.run (hpthread : ∀ e ∈ c.execEnv.tail, e ∉ c.tidStartArgMap)
    (hx : Kept c handle children x) (hw : x.spawn.threads[i]? = some w) {u : SpawnState}
    (h : runWorker c x.spawn i w = some u) :
    Kept c handle children ⟨u, notify x.spawn i x.notified⟩ := by
  have hinv : SpawnInv c u :=
    hx.inv.run hw (fun hpc => hpthread _ (hx.inv.childCount_mem hw hpc)) h
  have hlt : i < x.spawn.threads.length := (List.getElem?_eq_some_iff.mp hw).1
  have hnotified : w.pc ≠ .acquire → ∀ j, j ≠ i →
      notify x.spawn i x.notified j = x.notified j :=
    fun hacq j hj => notify_of_ne hw hacq x.notified hj
  cases hpc : w.pc with
  | restoreEnv =>
    simp only [runWorker, hpc] at h
    obtain rfl := Option.some.inj h
    have hpos := hx.inv.booting_pos hw (.inl hpc)
    have hchild := hx.inv.booting_child hw (.inl hpc)
    refine hx.set hw hinv rfl rfl rfl rfl (.inl rfl) (fun hi => absurd hi (Nat.ne_of_gt hpos))
      (fun _ _ => ?_) (fun h => ?_) (fun h => ?_) (fun h => ?_) (by simp) id
      (fun _ => .inl (.inr rfl)) (hnotified (by simp [hpc]))
    · have hbound : i < c.execEnv.length := by
        have := hx.inv.bound
        omega
      simp [childCount, hchild, hbound]
    · rcases h with h | h <;> cases h
    · cases h
    · cases h
  | release =>
    simp only [runWorker, hpc] at h
    obtain rfl := Option.some.inj h
    exact hx.pass hw (by simp [hpc]) hinv rfl rfl rfl rfl (.inl rfl) (by simp [SpawnPc.UsesChild])
      (by simp) (by simp) (fun _ => Nat.succ_ne_zero _) (hnotified (by simp [hpc]))
  | start =>
    have hmain : ¬w.main = true := fun hm => (hx.inv.worker i w hw).started hm hpc
    simp only [runWorker, hpc] at h
    rw [if_neg hmain] at h
    obtain rfl := Option.some.inj h
    exact hx.pass hw (by simp [hpc]) hinv rfl rfl rfl rfl (.inl rfl) (by simp [SpawnPc.UsesChild])
      (by simp) id (by simp [hpc, SpawnPc.Booting]) (hnotified (by simp [hpc]))
  | lock =>
    simp only [runWorker, hpc] at h
    split at h
    · obtain rfl := Option.some.inj h
      exact hx.pass hw (by simp [hpc]) hinv rfl rfl rfl rfl (.inr (.inl rfl))
        (by simp [SpawnPc.UsesChild]) (by simp) id (by simp [hpc, SpawnPc.Booting])
        (hnotified (by simp [hpc]))
    · cases h
  | loop =>
    simp only [runWorker, hpc] at h
    split at h
    · obtain rfl := Option.some.inj h
      exact hx.computes hw hpc (hnotified (by simp [hpc])) hinv
    · obtain rfl := Option.some.inj h
      exact hx.pass hw (by simp [hpc]) hinv rfl rfl rfl rfl (.inr (.inr rfl))
        (by simp [SpawnPc.UsesChild]) (by simp) id (by simp [hpc, SpawnPc.Booting])
        (hnotified (by simp [hpc]))
  | check =>
    simp only [runWorker, hpc] at h
    have hbound := ((hx.inv.worker i w hw).usesChild (.inl hpc)).2
    by_cases hwait : x.spawn.parent ≠ w.handle ∧ x.spawn.parent ≠ (if w.main then 0 else 1)
    · rw [if_pos hwait] at h
      obtain rfl := Option.some.inj h
      refine hx.goto hw (by simp [hpc]) hinv rfl rfl rfl rfl (.inr (.inr rfl)) (by simp) (by simp)
        (fun _ => ?_) (by simp) id (by simp [hpc, SpawnPc.Booting]) (hnotified (by simp [hpc]))
      have he := List.getElem?_eq_getElem hbound
      refine ⟨_, he, ?_⟩
      rw [← hx.checked i w hw (.inl hpc) _ he]
      exact fun hparent => hparent.elim hwait.1 hwait.2
    · rw [if_neg hwait] at h
      obtain rfl := Option.some.inj h
      refine hx.goto hw (by simp [hpc]) hinv rfl rfl rfl rfl (.inl rfl) (by simp)
        (fun _ => ⟨hpc, ?_⟩) (by simp) (by simp) id (by simp [hpc, SpawnPc.Booting])
        (hnotified (by simp [hpc]))
      exact (not_and_or.mp hwait).imp not_not.mp not_not.mp
  | create =>
    have hno := hpthread _ (hx.inv.childCount_mem hw hpc)
    simp only [runWorker, hpc] at h
    rw [if_neg hno] at h
    exact hx.creates hw hpc (hnotified (by simp [hpc])) (Option.some.inj h).symm hinv
  | acquire =>
    have hall : notify x.spawn i x.notified = fun _ => true := by
      unfold notify
      rw [hw, Option.map_some, hpc]
    simp only [runWorker, hpc] at h
    split at h
    · rw [hall]
      exact hx.acquires hw hpc (Option.some.inj h).symm hinv
    · cases h
  | waiting =>
    simp only [runWorker, hpc] at h
    cases h
  | done =>
    simp only [runWorker, hpc] at h
    cases h

theorem Kept.step {spurious : Bool} (hpthread : ∀ e ∈ c.execEnv.tail, e ∉ c.tidStartArgMap)
    (hx : Kept c handle children x) {l : SpawnLabel} (h : notifyStep c spurious x l = some t) :
    Kept c handle children t := by
  cases l with
  | run i =>
    obtain ⟨u, hu, rfl⟩ := Option.map_eq_some_iff.mp h
    simp only [spawnStep] at hu
    split at hu
    · next w hw =>
      rw [if_neg (by simp [hx.inv.exited])] at hu
      exact hx.run hpthread hw hu
    · cases hu
  | wake i =>
    simp only [notifyStep] at h
    split at h
    · obtain ⟨u, hu, rfl⟩ := Option.map_eq_some_iff.mp h
      have hinv : SpawnInv c u := hx.inv.step hpthread hu
      simp only [spawnStep] at hu
      split at hu
      · next w hw =>
        split at hu
        · next hwait =>
          obtain rfl := Option.some.inj hu
          exact hx.pass hw (by simp [hwait.2]) hinv rfl rfl rfl rfl (.inl rfl)
            (by simp [SpawnPc.UsesChild]) (by simp) id (by simp [hwait.2, SpawnPc.Booting])
            fun _ _ => rfl
        · cases hu
      · cases hu
    · cases h

/-- The main thread starts. -/
theorem kept_start {s : SpawnState} {notified : ℕ → Bool} {spurious : Bool} (hs : SpawnInitial s)
    (hthreads : s.threads = [⟨true, handle, 0, none, .start⟩]) {l : SpawnLabel}
    (h : notifyStep c spurious ⟨s, notified⟩ l = some t) :
    l = .run 0 ∧ Kept c handle s.childTidMap t := by
  have honly : ∀ (k : ℕ) (v : Worker), s.threads[k]? = some v →
      k = 0 ∧ v = ⟨true, handle, 0, none, .start⟩ := by
    intro k v hv
    have hk := (List.getElem?_eq_some_iff.mp hv).1
    rw [hthreads, List.length_singleton] at hk
    obtain rfl : k = 0 := by omega
    rw [hthreads] at hv
    exact ⟨rfl, (Option.some.inj hv).symm⟩
  cases l with
  | wake i =>
    simp only [notifyStep, spawnStep] at h
    split at h
    · obtain ⟨u, hu, -⟩ := Option.map_eq_some_iff.mp h
      split at hu
      · next w hw =>
        obtain ⟨rfl, rfl⟩ := honly i w hw
        rw [if_neg (by simp)] at hu
        cases hu
      · cases hu
    · cases h
  | run i =>
    obtain ⟨u, hu, rfl⟩ := Option.map_eq_some_iff.mp h
    have hinv : SpawnInv c u := hs.step hu
    simp only [spawnStep] at hu
    split at hu
    · next w hw =>
      obtain ⟨rfl, rfl⟩ := honly i w hw
      rw [if_neg (by simp [hs.exited])] at hu
      obtain rfl := Option.some.inj hu
      refine ⟨rfl, ?_⟩
      have hafter : ∀ (j : ℕ) (v : Worker),
          (s.threads.set 0 ⟨true, handle, 0, none, .lock⟩)[j]? = some v →
            j = 0 ∧ v = ⟨true, handle, 0, none, .lock⟩ := by
        intro j v hv
        rcases set_cases hw hv with hown | ⟨hj, hv⟩
        · exact hown
        · exact absurd (honly j v hv).1 hj
      refine ⟨hinv, fun v hv => ?_, fun j v hj hv => ?_, fun _ => rfl, fun hne => absurd rfl hne,
        fun j v hv hcheck => ?_, fun j v hv hcreate => ?_, fun j v hv hwait => ?_,
        fun k hk hlen => ?_, ?_, fun j hj => ?_, fun j v hv hacq => ?_⟩
      · rw [(hafter 0 v hv).2]
      · exact absurd (hafter j v hv).1 (Nat.ne_of_gt hj)
      · rw [(hafter j v hv).2] at hcheck
        rcases hcheck with hcheck | hcheck <;> cases hcheck
      · rw [(hafter j v hv).2] at hcreate
        cases hcreate
      · rw [(hafter j v hv).2] at hwait
        cases hwait
      · simp only [SpawnState.set, List.length_set, hthreads, List.length_singleton] at hlen
        omega
      · simp only [SpawnState.set, List.length_set, hthreads, List.length_singleton]
        exact Nat.one_pos
      · exact absurd (hs.mtx.symm.trans hj) (by simp)
      · rw [(hafter j v hv).2] at hacq
        cases hacq
    · cases hu

/-! ### The next child comes -/

/-- Without a notification too many, a state with one child more can be reached. -/
def Grows (c : Cluster) (handle : ℕ) (children : Std.TreeMap ℕ ℕ) (x : Notified) : Prop :=
  ∃ y, Run.Reaches (notifyStep c false) x y ∧ Kept c handle children y ∧
    x.spawn.threads.length < y.spawn.threads.length

theorem Kept.goes (hpthread : ∀ e ∈ c.execEnv.tail, e ∉ c.tidStartArgMap)
    (hx : Kept c handle children x) (hw : x.spawn.threads[i]? = some w) {u : SpawnState}
    (h : runWorker c x.spawn i w = some u) :
    notifyStep c false x (.run i) = some ⟨u, notify x.spawn i x.notified⟩ ∧
      Kept c handle children ⟨u, notify x.spawn i x.notified⟩ := by
  refine ⟨?_, hx.run hpthread hw h⟩
  have hstep : spawnStep c x.spawn (.run i) = some u := by
    simp only [spawnStep, hw, hx.inv.exited]
    exact h
  rw [notifyStep, hstep, Option.map_some]

theorem Grows.head {l : SpawnLabel} (h : notifyStep c false x l = some t)
    (ht : Grows c handle children t) (hlen : x.spawn.threads.length = t.spawn.threads.length) :
    Grows c handle children x := by
  obtain ⟨y, hreach, hy, hlt⟩ := ht
  exact ⟨y, Run.Reaches.head l h hreach, hy, hlen ▸ hlt⟩

theorem grows_create (hpthread : ∀ e ∈ c.execEnv.tail, e ∉ c.tidStartArgMap)
    (hx : Kept c handle children x) (hw : x.spawn.threads[i]? = some w) (hpc : w.pc = .create) :
    Grows c handle children x := by
  have hno := hpthread _ (hx.inv.childCount_mem hw hpc)
  have hrun : runWorker c x.spawn i w = some { x.spawn.set i { w with pc := .acquire } with
      threads := (x.spawn.set i { w with pc := .acquire }).threads ++
        [⟨false, 0, x.spawn.iter, none, .restoreEnv⟩] } := by
    simp only [runWorker, hpc, if_neg hno]
  obtain ⟨hstep, hkept⟩ := hx.goes hpthread hw hrun
  refine ⟨_, Run.Reaches.single _ hstep, hkept, ?_⟩
  simp only [SpawnState.set, List.length_append, List.length_set, List.length_singleton]
  omega

theorem grows_check (hpthread : ∀ e ∈ c.execEnv.tail, e ∉ c.tidStartArgMap)
    (hx : Kept c handle children x) (hw : x.spawn.threads[i]? = some w) (hpc : w.pc = .check)
    (hparent : w.IsParent x.spawn.parent) : Grows c handle children x := by
  have hlt : i < x.spawn.threads.length := (List.getElem?_eq_some_iff.mp hw).1
  have hgo : ¬(x.spawn.parent ≠ w.handle ∧ x.spawn.parent ≠ if w.main then 0 else 1) :=
    fun hwait => hparent.elim hwait.1 hwait.2
  have hrun : runWorker c x.spawn i w = some (x.spawn.set i { w with pc := .create }) := by
    simp only [runWorker, hpc, if_neg hgo]
  obtain ⟨hstep, hkept⟩ := hx.goes hpthread hw hrun
  refine Grows.head hstep (grows_create hpthread hkept (List.getElem?_set_self hlt) rfl) ?_
  exact List.length_set.symm

theorem grows_lock (hpthread : ∀ e ∈ c.execEnv.tail, e ∉ c.tidStartArgMap)
    (hx : Kept c handle children x) (hw : x.spawn.threads[i]? = some w) (hpc : w.pc = .lock)
    (hfree : x.spawn.mtx = none) {e : ℕ} (he : c.execEnv[x.spawn.iter]? = some e)
    (hparent : w.IsParent (parentOf c children e)) : Grows c handle children x := by
  have hlt : i < x.spawn.threads.length := (List.getElem?_eq_some_iff.mp hw).1
  have hbound : x.spawn.iter < c.execEnv.length := (List.getElem?_eq_some_iff.mp he).1
  have hrun : runWorker c x.spawn i w =
      some { x.spawn.set i { w with pc := .loop } with mtx := some i } := by
    simp only [runWorker, hpc, if_pos hfree]
  obtain ⟨hstep, hkept⟩ := hx.goes hpthread hw hrun
  refine Grows.head hstep ?_ List.length_set.symm
  generalize hy : (⟨_, notify x.spawn i x.notified⟩ : Notified) = y at hkept
  have hwy : y.spawn.threads[i]? = some { w with pc := .loop } := by
    rw [← hy]
    exact List.getElem?_set_self hlt
  have hey : c.execEnv[y.spawn.iter]? = some e := by
    rw [← hy]
    exact he
  have hrun' : runWorker c y.spawn i { w with pc := .loop } =
      some ((nextChild c y.spawn).set i { w with pc := .check }) := by
    have hby : y.spawn.iter < c.execEnv.length := (List.getElem?_eq_some_iff.mp hey).1
    simp only [runWorker, if_pos hby]
  obtain ⟨hstep', hkept'⟩ := hkept.goes hpthread hwy hrun'
  obtain ⟨hsame, hiter, -⟩ := nextChild_frame (c := c) (s := y.spawn)
  have hlty : i < (nextChild c y.spawn).threads.length := by
    rw [hsame]
    exact (List.getElem?_eq_some_iff.mp hwy).1
  have hwz := List.getElem?_set_self (a := { w with pc := .check }) hlty
  refine Grows.head hstep' (grows_check hpthread hkept' hwz rfl ?_) ?_
  · have hnext := hkept'.checked i _ hwz (.inl rfl) e (hiter ▸ hey)
    rw [hnext]
    exact hparent
  · simp [SpawnState.set, hsame]

/-- The parent of the next child is there, and not at work. -/
theorem Kept.exists_parent (hx : Kept c handle children x) (hfree : x.spawn.mtx = none)
    (hadopted : Adopted c handle children x.spawn.threads.length) :
    x.spawn.iter = x.spawn.threads.length ∧ ∃ e, c.execEnv[x.spawn.iter]? = some e ∧
      ∃ (i : ℕ) (w : Worker), x.spawn.threads[i]? = some w ∧ w.IsParent (parentOf c children e) ∧
        (w.pc = .start ∧ w.main ≠ true ∨ w.pc = .lock ∨ w.pc = .waiting) := by
  have hidle : ∀ (j : ℕ) (v : Worker), x.spawn.threads[j]? = some v → ¬v.pc.Holding := by
    intro j v hv hhold
    have hmtx := (hx.inv.worker j v hv).holding.mp hhold
    rw [hfree] at hmtx
    cases hmtx
  have hiter := (hx.inv.idle fun j v hv hacq =>
    hidle j v hv (.inr (.inr (.inr hacq)))).1
  have hboot : ∀ (j : ℕ) (v : Worker), x.spawn.threads[j]? = some v → ¬v.pc.Booting := by
    intro j v hv hb
    obtain ⟨-, -, k, u, hu, hacq⟩ := (hx.inv.worker j v hv).booting hb
    exact hidle k u hu (.inr (.inr (.inr hacq)))
  obtain ⟨e, he, hparent⟩ := hadopted
  have hbound : x.spawn.iter < c.execEnv.length := by
    rw [hiter]
    exact (List.getElem?_eq_some_iff.mp he).1
  have hplace : ∀ (j : ℕ) (v : Worker), x.spawn.threads[j]? = some v →
      v.pc = .start ∧ v.main ≠ true ∨ v.pc = .lock ∨ v.pc = .waiting := by
    intro j v hv
    have hj := hx.inv.worker j v hv
    cases hpc : v.pc with
    | restoreEnv => exact absurd (.inl hpc) (hboot j v hv)
    | release => exact absurd (.inr hpc) (hboot j v hv)
    | start => exact .inl ⟨rfl, fun hmain => hj.started hmain hpc⟩
    | lock => exact .inr (.inl rfl)
    | loop => exact absurd (.inl hpc) (hidle j v hv)
    | check => exact absurd (.inr (.inl hpc)) (hidle j v hv)
    | create => exact absurd (.inr (.inr (.inl hpc))) (hidle j v hv)
    | acquire => exact absurd (.inr (.inr (.inr hpc))) (hidle j v hv)
    | waiting => exact .inr (.inr rfl)
    | done =>
      have hge := hj.done hpc
      omega
  have hmain : ∃ v, x.spawn.threads[0]? = some v ∧ v.main = true ∧ v.handle = handle := by
    have hfirst := hx.first
    have hv : x.spawn.threads[0]? = some x.spawn.threads[0] := List.getElem?_eq_getElem hfirst
    exact ⟨_, hv, (hx.inv.worker 0 _ hv).main.mpr rfl, hx.main _ hv⟩
  refine ⟨hiter, e, hiter ▸ he, ?_⟩
  rcases hparent with hzero | hown | ⟨j, e', hj, hjk, he', hchild⟩
  · obtain ⟨v, hv, hvmain, -⟩ := hmain
    exact ⟨0, v, hv, .inr (by rw [if_pos hvmain]; exact hzero), hplace 0 v hv⟩
  · obtain ⟨v, hv, -, hvhandle⟩ := hmain
    exact ⟨0, v, hv, .inl (hown.trans hvhandle.symm), hplace 0 v hv⟩
  · have hv : x.spawn.threads[j]? = some x.spawn.threads[j] := List.getElem?_eq_getElem hjk
    refine ⟨j, _, hv, ?_, hplace j _ hv⟩
    have hhandle := hx.handles j _ hj hv fun hpc => hboot j _ hv (.inl hpc)
    rcases hchild with hchild | hone
    · rw [he'] at hhandle
      exact .inl (hchild.trans (Option.some.inj hhandle))
    · have hnot : ¬x.spawn.threads[j].main = true :=
        fun h => Nat.ne_of_gt hj ((hx.inv.worker j _ hv).main.mp h)
      exact .inr (by rw [if_neg hnot]; exact hone)

/-- Nobody holds the lock. -/
theorem grows_free (hpthread : ∀ e ∈ c.execEnv.tail, e ∉ c.tidStartArgMap)
    (hx : Kept c handle children x) (hfree : x.spawn.mtx = none)
    (hadopted : Adopted c handle children x.spawn.threads.length) :
    Grows c handle children x := by
  obtain ⟨-, e, he, i, w, hw, hparent, hplace⟩ := hx.exists_parent hfree hadopted
  have hlt : i < x.spawn.threads.length := (List.getElem?_eq_some_iff.mp hw).1
  rcases hplace with ⟨hpc, hmain⟩ | hpc | hpc
  · have hrun : runWorker c x.spawn i w = some (x.spawn.set i { w with pc := .lock }) := by
      simp only [runWorker, hpc, if_neg hmain]
    obtain ⟨hstep, hkept⟩ := hx.goes hpthread hw hrun
    exact Grows.head hstep (grows_lock hpthread hkept (List.getElem?_set_self hlt) rfl hfree he
      hparent) List.length_set.symm
  · exact grows_lock hpthread hx hw hpc hfree he hparent
  · -- the notification has not been lost
    have hnotified : x.notified i = true := by
      by_contra hn
      obtain ⟨e', he', hno⟩ := hx.waiting i w hw hpc (Bool.not_eq_true _ ▸ hn)
      obtain rfl := Option.some.inj (he.symm.trans he')
      exact hno hparent
    have hstep : notifyStep c false x (.wake i) =
        some ⟨x.spawn.set i { w with pc := .lock }, x.notified⟩ := by
      simp [notifyStep, hnotified, spawnStep, hw, hpc, hx.inv.exited]
    exact Grows.head hstep (grows_lock hpthread (hx.step hpthread hstep)
      (List.getElem?_set_self hlt) rfl hfree he hparent) List.length_set.symm

theorem grows_test (hpthread : ∀ e ∈ c.execEnv.tail, e ∉ c.tidStartArgMap)
    (hx : Kept c handle children x) (hw : x.spawn.threads[i]? = some w) (hpc : w.pc = .check)
    (hadopted : Adopted c handle children x.spawn.threads.length) :
    Grows c handle children x := by
  by_cases hparent : w.IsParent x.spawn.parent
  · exact grows_check hpthread hx hw hpc hparent
  · have hwait := not_or.mp hparent
    have hrun : runWorker c x.spawn i w =
        some { x.spawn.set i { w with pc := .waiting } with mtx := none } := by
      simp only [runWorker, hpc]
      exact if_pos hwait
    obtain ⟨hstep, hkept⟩ := hx.goes hpthread hw hrun
    have hlen : x.spawn.threads.length =
        (x.spawn.threads.set i { w with pc := .waiting }).length := List.length_set.symm
    exact Grows.head hstep (grows_free hpthread hkept rfl (hlen ▸ hadopted)) hlen

theorem grows_loop (hpthread : ∀ e ∈ c.execEnv.tail, e ∉ c.tidStartArgMap)
    (hx : Kept c handle children x) (hw : x.spawn.threads[i]? = some w) (hpc : w.pc = .loop)
    (hadopted : Adopted c handle children x.spawn.threads.length) :
    Grows c handle children x := by
  obtain ⟨hiter, -⟩ := hx.inv.idle_of_holding hw (.inl hpc) (by simp [hpc])
  have hnext := hadopted
  obtain ⟨e, he, -⟩ := hnext
  have hbound : x.spawn.iter < c.execEnv.length := hiter ▸ (List.getElem?_eq_some_iff.mp he).1
  have hrun : runWorker c x.spawn i w =
      some ((nextChild c x.spawn).set i { w with pc := .check }) := by
    simp only [runWorker, hpc, if_pos hbound]
  obtain ⟨hstep, hkept⟩ := hx.goes hpthread hw hrun
  obtain ⟨hsame, -⟩ := nextChild_frame (c := c) (s := x.spawn)
  have hlen : x.spawn.threads.length =
      ((nextChild c x.spawn).set i { w with pc := .check }).threads.length := by
    rw [SpawnState.set, List.length_set, hsame]
  have hlt : i < (nextChild c x.spawn).threads.length := by
    rw [hsame]
    exact (List.getElem?_eq_some_iff.mp hw).1
  exact Grows.head hstep (grows_test hpthread hkept (List.getElem?_set_self hlt) rfl
    (hlen ▸ hadopted)) hlen

/-- The thread that has created a child comes to the head of its loop. -/
def Loops (c : Cluster) (handle : ℕ) (children : Std.TreeMap ℕ ℕ) (x : Notified) (i : ℕ) : Prop :=
  ∃ y w, Run.Reaches (notifyStep c false) x y ∧ Kept c handle children y ∧
    y.spawn.threads[i]? = some w ∧ w.pc = .loop ∧ y.spawn.threads.length = x.spawn.threads.length

theorem Loops.head {l : SpawnLabel} (h : notifyStep c false x l = some t)
    (ht : Loops c handle children t i) (hlen : t.spawn.threads.length = x.spawn.threads.length) :
    Loops c handle children x i := by
  obtain ⟨y, w, hreach, hy, hw, hpc, hsame⟩ := ht
  exact ⟨y, w, Run.Reaches.head l h hreach, hy, hw, hpc, hsame.trans hlen⟩

theorem loops_acquire (hpthread : ∀ e ∈ c.execEnv.tail, e ∉ c.tidStartArgMap)
    (hx : Kept c handle children x) (hw : x.spawn.threads[i]? = some w) (hpc : w.pc = .acquire)
    (hpos : 0 < x.spawn.threadInit) : Loops c handle children x i := by
  have hlt : i < x.spawn.threads.length := (List.getElem?_eq_some_iff.mp hw).1
  have hrun : runWorker c x.spawn i w = some { x.spawn.set i { w with pc := .loop } with
      threadInit := x.spawn.threadInit - 1, iter := x.spawn.iter + 1, parent := 0 } := by
    simp only [runWorker, hpc, if_pos hpos]
  obtain ⟨hstep, hkept⟩ := hx.goes hpthread hw hrun
  exact ⟨_, _, Run.Reaches.single _ hstep, hkept, List.getElem?_set_self hlt, rfl,
    List.length_set⟩

/-- The new thread has restored its environment. -/
theorem loops_release (hpthread : ∀ e ∈ c.execEnv.tail, e ∉ c.tidStartArgMap)
    (hx : Kept c handle children x) (hw : x.spawn.threads[i]? = some w) (hpc : w.pc = .acquire)
    {j : ℕ} {v : Worker} (hv : x.spawn.threads[j]? = some v) (hvpc : v.pc = .release) :
    Loops c handle children x i := by
  have hji : j ≠ i := by
    rintro rfl
    obtain rfl := Option.some.inj (hw.symm.trans hv)
    rw [hpc] at hvpc
    cases hvpc
  have hrun : runWorker c x.spawn j v = some { x.spawn.set j { v with pc := .start } with
      threadInit := x.spawn.threadInit + 1 } := by
    simp only [runWorker, hvpc]
  obtain ⟨hstep, hkept⟩ := hx.goes hpthread hv hrun
  have hw' : (x.spawn.threads.set j { v with pc := .start })[i]? = some w := by
    rw [List.getElem?_set_ne hji]
    exact hw
  exact Loops.head hstep (loops_acquire hpthread hkept hw' hpc (Nat.succ_pos _)) List.length_set

theorem loops_boot (hpthread : ∀ e ∈ c.execEnv.tail, e ∉ c.tidStartArgMap)
    (hx : Kept c handle children x) (hw : x.spawn.threads[i]? = some w) (hpc : w.pc = .acquire) :
    Loops c handle children x i := by
  rcases Nat.eq_zero_or_pos x.spawn.threadInit with hzero | hpos
  · obtain ⟨j, v, hv, hboot⟩ := hx.boots i w hw hpc hzero
    rcases hboot with hvpc | hvpc
    · have hji : j ≠ i := by
        rintro rfl
        obtain rfl := Option.some.inj (hw.symm.trans hv)
        rw [hpc] at hvpc
        cases hvpc
      have hlt : j < x.spawn.threads.length := (List.getElem?_eq_some_iff.mp hv).1
      obtain ⟨v', hv'⟩ : ∃ v' : Worker, v' = { v with
          restored := x.spawn.childEnv, handle := childCount c x.spawn, pc := .release } :=
        ⟨_, rfl⟩
      have hrun : runWorker c x.spawn j v = some (x.spawn.set j v') := by
        simp only [runWorker, hvpc, hv']
      obtain ⟨hstep, hkept⟩ := hx.goes hpthread hv hrun
      have hw' : (x.spawn.threads.set j v')[i]? = some w := by
        rw [List.getElem?_set_ne hji]
        exact hw
      exact Loops.head hstep (loops_release hpthread hkept hw' hpc (List.getElem?_set_self hlt)
        (by rw [hv'])) List.length_set
    · exact loops_release hpthread hx hw hpc hv hvpc
  · exact loops_acquire hpthread hx hw hpc hpos

theorem grows_boot (hpthread : ∀ e ∈ c.execEnv.tail, e ∉ c.tidStartArgMap)
    (hx : Kept c handle children x) (hw : x.spawn.threads[i]? = some w) (hpc : w.pc = .acquire)
    (hadopted : Adopted c handle children x.spawn.threads.length) :
    Grows c handle children x := by
  obtain ⟨y, v, hreach, hy, hv, hvpc, hlen⟩ := loops_boot hpthread hx hw hpc
  obtain ⟨z, hyz, hz, hlt⟩ := grows_loop hpthread hy hv hvpc (hlen.symm ▸ hadopted)
  exact ⟨z, hreach.trans hyz, hz, hlen ▸ hlt⟩

/-- Wherever the threads stand. -/
theorem grows (hpthread : ∀ e ∈ c.execEnv.tail, e ∉ c.tidStartArgMap)
    (hx : Kept c handle children x)
    (hadopted : Adopted c handle children x.spawn.threads.length) :
    Grows c handle children x := by
  cases hmtx : x.spawn.mtx with
  | none => exact grows_free hpthread hx hmtx hadopted
  | some i =>
    have hlt := hx.mtx i hmtx
    have hw : x.spawn.threads[i]? = some x.spawn.threads[i] := List.getElem?_eq_getElem hlt
    rcases (hx.inv.worker i _ hw).holding.mpr hmtx with hpc | hpc | hpc | hpc
    · exact grows_loop hpthread hx hw hpc hadopted
    · exact grows_test hpthread hx hw hpc hadopted
    · exact grows_create hpthread hx hw hpc
    · exact grows_boot hpthread hx hw hpc hadopted

/-! ### All children -/

theorem Kept.completes (hpthread : ∀ e ∈ c.execEnv.tail, e ∉ c.tidStartArgMap)
    (hall : ∀ k, 0 < k → k < c.execEnv.length → Adopted c handle children k) (n : ℕ)
    (hx : Kept c handle children x) (hn : c.execEnv.length ≤ x.spawn.threads.length + n) :
    ∃ y, Run.Reaches (notifyStep c false) x y ∧ Kept c handle children y ∧
      y.spawn.threads.length = max 1 c.execEnv.length := by
  induction n generalizing x with
  | zero =>
    have hfirst := hx.first
    have hbound := hx.inv.bound
    exact ⟨x, Run.Reaches.refl x, hx, by omega⟩
  | succ n ih =>
    by_cases hlt : x.spawn.threads.length < c.execEnv.length
    · obtain ⟨y, hxy, hy, hgrown⟩ := grows hpthread hx (hall _ hx.first hlt)
      obtain ⟨z, hyz, hz⟩ := ih hy (by omega)
      exact ⟨z, hxy.trans hyz, hz⟩
    · exact ih hx (by omega)

theorem notifyStep_spurious {l : SpawnLabel} (h : notifyStep c false x l = some t) :
    notifyStep c true x l = some t := by
  cases l with
  | run i => exact h
  | wake i =>
    simp only [notifyStep] at h ⊢
    split at h
    · rw [if_pos (by simp)]
      exact h
    · cases h

theorem reaches_spurious (h : Run.Reaches (notifyStep c false) x t) :
    Run.Reaches (notifyStep c true) x t :=
  h.invariant (Run.Reaches (notifyStep c true) x)
    (fun _ l _ hs hst => hs.trans (Run.Reaches.single l (notifyStep_spurious hst)))
    (Run.Reaches.refl x)

/-- Behind the first step, everything that holds from there on holds. -/
theorem kept_of_reaches {s : SpawnState} {notified : ℕ → Bool}
    (hpthread : ∀ e ∈ c.execEnv.tail, e ∉ c.tidStartArgMap) (hs : SpawnInitial s)
    (hthreads : s.threads = [⟨true, handle, 0, none, .start⟩])
    (h : Run.Reaches (notifyStep c true) ⟨s, notified⟩ x) :
    x = ⟨s, notified⟩ ∨ Kept c handle s.childTidMap x := by
  refine h.invariant (fun x => x = ⟨s, notified⟩ ∨ Kept c handle s.childTidMap x) ?_ (.inl rfl)
  rintro x l y (rfl | hx) hy
  · exact .inr (kept_start hs hthreads hy).2
  · exact .inr (hx.step hpthread hy)

theorem adopted_of_reaches {s : SpawnState} {notified : ℕ → Bool}
    (hpthread : ∀ e ∈ c.execEnv.tail, e ∉ c.tidStartArgMap) (hs : SpawnInitial s)
    (hthreads : s.threads = [⟨true, handle, 0, none, .start⟩])
    (h : Run.Reaches (notifyStep c true) ⟨s, notified⟩ x) :
    ∀ k, 0 < k → k < x.spawn.threads.length → Adopted c handle s.childTidMap k := by
  intro k hk hlt
  rcases kept_of_reaches hpthread hs hthreads h with rfl | hx
  · rw [hthreads, List.length_singleton] at hlt
    omega
  · exact hx.adopted k hk hlt

/-- All children that have their parents can be created, without any more unasked waits. -/
theorem reaches_all_spawned {s : SpawnState} {notified : ℕ → Bool}
    (hpthread : ∀ e ∈ c.execEnv.tail, e ∉ c.tidStartArgMap) (hs : SpawnInitial s)
    (hthreads : s.threads = [⟨true, handle, 0, none, .start⟩])
    (hall : ∀ k, 0 < k → k < c.execEnv.length → Adopted c handle s.childTidMap k)
    (h : Run.Reaches (notifyStep c true) ⟨s, notified⟩ x) :
    ∃ y, Run.Reaches (notifyStep c false) x y ∧ Kept c handle s.childTidMap y ∧
      y.spawn.threads.length = max 1 c.execEnv.length := by
  rcases kept_of_reaches hpthread hs hthreads h with rfl | hx
  · have hrun : ∃ y, notifyStep c false ⟨s, notified⟩ (.run 0) = some y := by
      simp [notifyStep, spawnStep, hthreads, hs.exited, runWorker]
    obtain ⟨y, hy⟩ := hrun
    obtain ⟨z, hyz, hz⟩ := (kept_start hs hthreads hy).2.completes hpthread hall _
      (Nat.le_add_left _ _)
    exact ⟨z, Run.Reaches.head _ hy hyz, hz⟩
  · exact hx.completes hpthread hall _ (Nat.le_add_left _ _)

/-- From wherever the threads have come to, also by waits that come back unasked, all children
can still be created without any more of those, just when each child has its parent among the
threads before it. A child that has not is created in no run. -/
theorem all_spawned_iff (c : Cluster) (s : SpawnState) (notified : ℕ → Bool) (handle : ℕ)
    (hpthread : ∀ e ∈ c.execEnv.tail, e ∉ c.tidStartArgMap) (hs : SpawnInitial s)
    (hthreads : s.threads = [⟨true, handle, 0, none, .start⟩]) :
    ((∀ x, Run.Reaches (notifyStep c true) ⟨s, notified⟩ x →
      ∃ y, Run.Reaches (notifyStep c false) x y ∧
        y.spawn.threads.length = max 1 c.execEnv.length) ↔
      ∀ k, 0 < k → k < c.execEnv.length → Adopted c handle s.childTidMap k) ∧
    ∀ x, Run.Reaches (notifyStep c true) ⟨s, notified⟩ x →
      ∀ k, 0 < k → k < x.spawn.threads.length → Adopted c handle s.childTidMap k := by
  refine ⟨⟨fun hall k hk hlt => ?_, fun hall x hx => ?_⟩, fun x hx => ?_⟩
  · obtain ⟨y, hy, hlen⟩ := hall _ (Run.Reaches.refl _)
    exact adopted_of_reaches hpthread hs hthreads (reaches_spurious hy) k hk (by omega)
  · obtain ⟨y, hxy, -, hy⟩ := reaches_all_spawned hpthread hs hthreads hall hx
    exact ⟨y, hxy, hy⟩
  · exact adopted_of_reaches hpthread hs hthreads hx

/-- Thread 12 is sorted before thread 11, its parent. -/
def grandchildFirst : Cluster := ⟨[10, 12, 11], ∅⟩

theorem grandchild_adopted : ∀ k, 0 < k → k < grandchild.execEnv.length →
    Adopted grandchild 10 mainOnly.childTidMap k := by
  intro k hk hlt
  have hlt' : k < 3 := hlt
  rcases (by omega : k = 1 ∨ k = 2) with rfl | rfl
  · exact ⟨11, rfl, .inr (.inl (by decide))⟩
  · exact ⟨12, rfl, .inr (.inr ⟨1, 11, by decide, by decide, rfl, .inl (by decide)⟩)⟩

theorem grandchildFirst_not_adopted : ¬Adopted grandchildFirst 10 mainOnly.childTidMap 1 := by
  rintro ⟨e, he, hparent⟩
  obtain rfl : 12 = e := Option.some.inj he
  have heleven : parentOf grandchildFirst mainOnly.childTidMap 12 = 11 := by decide
  rw [heleven] at hparent
  rcases hparent with h | h | ⟨j, -, hj, hj1, -⟩
  · cases h
  · cases h
  · omega

theorem grandchild_spawned :
    (∃ y, Run.Reaches (notifyStep grandchild false) ⟨mainOnly, fun _ => false⟩ y ∧
      y.spawn.threads.length = 3) ∧
    ∀ x, Run.Reaches (notifyStep grandchildFirst true) ⟨mainOnly, fun _ => false⟩ x →
      x.spawn.threads.length ≤ 1 := by
  have hstart : SpawnInitial mainOnly := ⟨⟨10, rfl⟩, rfl, rfl, rfl⟩
  constructor
  · exact (all_spawned_iff grandchild mainOnly (fun _ => false) 10 (by decide) hstart rfl).1.mpr
      grandchild_adopted _ (Run.Reaches.refl _)
  · intro x hx
    by_contra hlen
    exact grandchildFirst_not_adopted ((all_spawned_iff grandchildFirst mainOnly (fun _ => false)
      10 (by decide) hstart rfl).2 x hx 1 Nat.one_pos (by omega))

end MVVM.Threads
