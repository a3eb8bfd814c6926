import MVVM.Checkpoint.Barrier
import Mathlib.Algebra.BigOperators.Finprod
import Mathlib.Algebra.Group.Int.Defs

/-!
# The counters of the barrier (wamr_export.cpp:384-426, wamr.cpp:810-824)

`ready` counts what the entries of `lwcp_list` count, as long as no thread takes itself off
an entry of 0.
-/

namespace MVVM.Checkpoint

def intMax : ℤ := 2 ^ 31 - 1

/-- `ready` is the sum of the entries, which are not negative, and an `int` each. -/
structure Accounted (s : State) : Prop where
  -- the keys of `lwcp_list`
  keys : s.lwcp.support.Finite
  ready : (s.ready : ℤ) = ∑ᶠ h, s.lwcp h
  nonneg : ∀ h, 0 ≤ s.lwcp h
  isInt : ∀ h, s.lwcp h ≤ intMax

/-- The step does not count below zero. -/
def NoWrap (cfg : Config) (s : State) (l : Label) : Prop :=
  ∀ t, step cfg s l = some t → s.ready = 0 → t.ready ≤ 1

/-- The thread can be counted once more. -/
def State.HasRoom (s : State) (h : ℕ) : Prop := s.lwcp h < intMax ∧ s.ready + 1 < 2 ^ 64

/-- The wait of `lightweight_uncheckpoint` does not come back while the entry of the thread is
0, and nobody is counted when there is no room. -/
def KeepsCount (s : State) : Label → Prop
  | .lightweightCheckpoint e => e.Counts → s.HasRoom e.handle
  | .uncheckpointWake h => s.lwcp h ≠ 0
  | .count i => ∀ c, s.calls[i]? = some c → s.HasRoom c.inst
  | _ => True

/-! ### One thread is counted -/

/-- The map has at most one new key, and its sum changes with the entry. -/
theorem update_entry {f : ℕ → ℤ} (hf : f.support.Finite) (h : ℕ) (c : ℤ) :
    (Function.update f h (f h + c)).support.Finite ∧
      ∑ᶠ g, Function.update f h (f h + c) g = (∑ᶠ g, f g) + c := by
  have hsplit : Function.update f h (f h + c) = fun g => f g + (Pi.single h c : ℕ → ℤ) g := by
    funext g
    by_cases hg : g = h
    · subst hg
      simp
    · simp [hg]
  have hsingle : (Function.support (Pi.single h c : ℕ → ℤ)).Finite :=
    (Set.finite_singleton h).subset Pi.support_single_subset
  have hother : ∀ g, g ≠ h → (Pi.single h c : ℕ → ℤ) g = 0 := by
    intro g hg
    simp [hg]
  have hsum : ∑ᶠ g, (Pi.single h c : ℕ → ℤ) g = c := by
    rw [finsum_eq_single _ h hother, Pi.single_eq_same]
  rw [hsplit]
  refine ⟨(hf.union hsingle).subset (Function.support_add f (Pi.single h c)), ?_⟩
  rw [finsum_add_distrib hf hsingle, hsum]

theorem Accounted.congr {s t : State} (hs : Accounted s) (hl : t.lwcp = s.lwcp)
    (hr : t.ready = s.ready) : Accounted t where
  keys := hl ▸ hs.keys
  ready := by rw [hr, hl, hs.ready]
  nonneg := hl ▸ hs.nonneg
  isInt := hl ▸ hs.isInt

/-- The entry of one thread changes by `c`. -/
theorem Accounted.update_iff {s t : State} (hs : Accounted s) {h : ℕ} {c : ℤ}
    (ht : t.lwcp = Function.update s.lwcp h (s.lwcp h + c)) :
    Accounted t ↔ (t.ready : ℤ) = s.ready + c ∧ 0 ≤ s.lwcp h + c ∧ s.lwcp h + c ≤ intMax := by
  obtain ⟨hkeys, hsum⟩ := update_entry hs.keys h c
  rw [← ht] at hkeys hsum
  have hentry : t.lwcp h = s.lwcp h + c := by
    rw [ht, Function.update_self]
  have hother : ∀ g, g ≠ h → t.lwcp g = s.lwcp g := by
    intro g hg
    rw [ht, Function.update_of_ne hg]
  rw [hs.ready, ← hsum, ← hentry]
  constructor
  · intro hnew
    exact ⟨hnew.ready, hnew.nonneg h, hnew.isInt h⟩
  · rintro ⟨hready, hnonneg, hint⟩
    refine ⟨hkeys, hready, fun g => ?_, fun g => ?_⟩
    · by_cases hg : g = h
      · exact hg ▸ hnonneg
      · exact hother g hg ▸ hs.nonneg g
    · by_cases hg : g = h
      · exact hg ▸ hint
      · exact hother g hg ▸ hs.isInt g

theorem Accounted.park_iff {s : State} (hs : Accounted s) (h : ℕ) :
    Accounted (s.park h) ↔ s.HasRoom h := by
  have hready : ((s.park h).ready : ℤ) = ((s.ready + 1) % 2 ^ 64 : ℕ) := rfl
  have hnonneg := hs.nonneg h
  rw [hs.update_iff (t := s.park h) rfl, hready, State.HasRoom]
  omega

/-- No entry is larger than the sum of all. -/
theorem Accounted.entry_le {s : State} (hs : Accounted s) (h : ℕ) : s.lwcp h ≤ s.ready := by
  rw [hs.ready]
  exact single_le_finsum h hs.keys hs.nonneg

theorem Accounted.unpark_iff {s : State} (hs : Accounted s) (hlt : s.ready < 2 ^ 64) (h : ℕ) :
    Accounted (s.unpark h) ↔ s.lwcp h ≠ 0 := by
  have hready : ((s.unpark h).ready : ℤ) = ((s.ready + (2 ^ 64 - 1)) % 2 ^ 64 : ℕ) := rfl
  have hnonneg := hs.nonneg h
  have hint := hs.isInt h
  have hle := hs.entry_le h
  rw [hs.update_iff (t := s.unpark h) (c := -1) rfl, hready]
  omega

/-! ### A step -/

/-- What a step does to the counters. -/
inductive Effect (s t : State) (keeps : Prop) : Prop
  | same (lwcp : t.lwcp = s.lwcp) (ready : t.ready = s.ready) (always : keeps)
  | park (h : ℕ) (lwcp : t.lwcp = (s.park h).lwcp) (ready : t.ready = (s.park h).ready)
      (room : keeps ↔ s.HasRoom h)
  | unpark (h : ℕ) (lwcp : t.lwcp = (s.unpark h).lwcp) (ready : t.ready = (s.unpark h).ready)
      (entry : keeps ↔ s.lwcp h ≠ 0)

theorem lwcp_sigtrap (cfg : Config) (s : State) (h : ℕ) :
    (sigtrapHandler cfg s h).lwcp = s.lwcp ∧ (sigtrapHandler cfg s h).ready = s.ready := by
  unfold sigtrapHandler
  simp only
  split
  · exact ⟨rfl, rfl⟩
  · exact ⟨rfl, rfl⟩

theorem lwcp_sigint (cfg : Config) (s : State) (h : ℕ) :
    (sigintHandler cfg s h).lwcp = s.lwcp ∧ (sigintHandler cfg s h).ready = s.ready := by
  unfold sigintHandler
  split
  · exact ⟨rfl, rfl⟩
  · exact ⟨rfl, rfl⟩

theorem lwcp_testCall (s : State) (i : ℕ) (c : Call) :
    (testCall s i c).lwcp = s.lwcp ∧ (testCall s i c).ready = s.ready := by
  unfold testCall
  split
  · exact ⟨rfl, rfl⟩
  · exact ⟨rfl, rfl⟩

theorem step_effect {cfg : Config} {s t : State} {l : Label} (h : step cfg s l = some t) :
    Effect s t (KeepsCount s l) := by
  cases l with
  | lightweightCheckpoint e =>
    simp only [step] at h
    split at h
    · by_cases hc : e.Counts
      · rw [if_pos hc] at h
        split at h
        · obtain rfl := Option.some.inj h
          exact .park e.handle rfl rfl ⟨fun hk => hk hc, fun hr _ => hr⟩
        · cases h
      · rw [if_neg hc] at h
        obtain rfl := Option.some.inj h
        exact .same rfl rfl fun hcounts => absurd hcounts hc
    · cases h
  | lightweightUncheckpoint e =>
    simp only [step] at h
    split at h
    · split at h
      · split at h
        · by_cases hz : s.lwcp e.handle = 0
          · rw [if_pos hz] at h
            obtain rfl := Option.some.inj h
            exact .same rfl rfl trivial
          · rw [if_neg hz] at h
            obtain rfl := Option.some.inj h
            exact .unpark e.handle rfl rfl ⟨fun _ => hz, fun _ => trivial⟩
        · cases h
      · obtain rfl := Option.some.inj h
        exact .same rfl rfl trivial
    · cases h
  | uncheckpointWake g =>
    obtain ⟨_, rfl⟩ := by simpa [step] using h
    exact .unpark g rfl rfl Iff.rfl
  | create parent child =>
    obtain ⟨_, rfl⟩ := by simpa [step] using h
    exact .same rfl rfl trivial
  | exit g =>
    obtain ⟨_, rfl⟩ := by simpa [step] using h
    exact .same rfl rfl trivial
  | sigtrap g =>
    obtain ⟨_, rfl⟩ := by simpa [step] using h
    obtain ⟨hl, hr⟩ := lwcp_sigtrap cfg s g
    exact .same hl hr trivial
  | sigint g =>
    obtain ⟨_, rfl⟩ := by simpa [step] using h
    obtain ⟨hl, hr⟩ := lwcp_sigint cfg s g
    exact .same hl hr trivial
  | count i =>
    simp only [step] at h
    split at h
    · rename_i c hc
      split at h
      · obtain rfl := Option.some.inj h
        refine .park c.inst rfl rfl ⟨fun hk => hk c hc, fun hr d hd => ?_⟩
        obtain rfl := Option.some.inj (hc.symm.trans hd)
        exact hr
      · cases h
    · cases h
  | test i =>
    simp only [step] at h
    split at h
    · rename_i c _
      split at h
      · obtain rfl := Option.some.inj h
        obtain ⟨hl, hr⟩ := lwcp_testCall s i c
        exact .same hl hr trivial
      · cases h
    · cases h
  | wake i =>
    simp only [step] at h
    split at h
    · split at h
      · obtain rfl := Option.some.inj h
        exact .same rfl rfl trivial
      · cases h
    · cases h

theorem ready_lt_step (cfg : Config) (s : State) (l : Label) (t : State) (hs : s.ready < 2 ^ 64)
    (h : step cfg s l = some t) : t.ready < 2 ^ 64 := by
  rcases step_effect h with ⟨-, hr, -⟩ | ⟨g, -, hr, -⟩ | ⟨g, -, hr, -⟩
  · rw [hr]
    exact hs
  · rw [hr]
    exact Nat.mod_lt _ (Nat.two_pow_pos 64)
  · rw [hr]
    exact Nat.mod_lt _ (Nat.two_pow_pos 64)

theorem accounted_step_iff (cfg : Config) (s : State) (l : Label) (t : State)
    (hlt : s.ready < 2 ^ 64) (hs : Accounted s) (h : step cfg s l = some t) :
    Accounted t ↔ KeepsCount s l := by
  rcases step_effect h with ⟨hl, hr, hk⟩ | ⟨g, hl, hr, hk⟩ | ⟨g, hl, hr, hk⟩
  · exact iff_of_true (hs.congr hl hr) hk
  · rw [hk, ← hs.park_iff g]
    exact ⟨fun ht => ht.congr hl.symm hr.symm, fun ht => ht.congr hl hr⟩
  · rw [hk, ← hs.unpark_iff hlt g]
    exact ⟨fun ht => ht.congr hl.symm hr.symm, fun ht => ht.congr hl hr⟩

theorem noWrap_of_keepsCount (cfg : Config) (s : State) (l : Label)
    (hs : s.ready < 2 ^ 64 ∧ Accounted s) (hok : KeepsCount s l) : NoWrap cfg s l := by
  intro t h hzero
  rcases step_effect h with ⟨-, hr, -⟩ | ⟨g, -, hr, -⟩ | ⟨g, -, hr, hk⟩
  · omega
  · rw [hr]
    show sizeT (s.ready + 1) ≤ 1
    rw [hzero]
    decide
  · have hle := hs.2.entry_le g
    have hpos := hs.2.nonneg g
    have hne := hk.mp hok
    omega

/-! ### Runs -/

theorem Initial.accounted {s : State} (h : Initial s) : Accounted s := by
  have hzero : s.lwcp = fun _ => 0 := funext h.lwcp
  refine ⟨?_, ?_, fun g => ?_, fun g => ?_⟩
  · rw [hzero]
    simp
  · rw [h.ready, hzero, finsum_zero]
    rfl
  · rw [h.lwcp g]
  · rw [h.lwcp g]
    decide

/-- The counters of a run are right just when all its steps keep them so. -/
theorem accounted_iff_keepsCount (cfg : Config) (s t : State) (ls : List Label) (hs : Initial s)
    (h : Run.exec (step cfg) s ls = some t) :
    Run.Throughout (step cfg) Accounted s ls ∧ Run.Along (step cfg) (NoWrap cfg) s ls ↔
      Run.Along (step cfg) KeepsCount s ls := by
  have hlt : s.ready < 2 ^ 64 := by
    rw [hs.ready]
    exact Nat.two_pow_pos 64
  have hiff := Run.throughout_iff_along (fun s : State => s.ready < 2 ^ 64) Accounted
    (ready_lt_step cfg) (accounted_step_iff cfg) hlt hs.accounted h
  rw [hiff]
  refine ⟨And.left, fun hok => ⟨hok, ?_⟩⟩
  refine hok.imp_of_invariant (fun s => s.ready < 2 ^ 64 ∧ Accounted s) ?_
    (noWrap_of_keepsCount cfg) ⟨hlt, hs.accounted⟩
  intro s l t hinv hl hstep
  exact ⟨ready_lt_step cfg s l t hinv.1 hstep,
    (accounted_step_iff cfg s l t hinv.1 hinv.2 hstep).mpr hl⟩

/-- Thread 2 is counted in a call, and again by a signal, and takes itself off both times. -/
theorem accounted_iff_keepsCount_twoThreads :
    let ls := [.lightweightCheckpoint ⟨2, false, some 3⟩, .lightweightUncheckpoint ⟨2, true, some 3⟩,
      .lightweightUncheckpoint ⟨2, false, some 3⟩, .lightweightUncheckpoint ⟨2, false, some 3⟩]
    Run.Throughout (step ⟨1, 1, 0⟩) Accounted twoThreads ls ∧
      Run.Along (step ⟨1, 1, 0⟩) (NoWrap ⟨1, 1, 0⟩) twoThreads ls := by
  intro ls
  refine (accounted_iff_keepsCount ⟨1, 1, 0⟩ twoThreads _ ls twoThreads_initial rfl).mpr ?_
  refine Run.Along.cons (fun _ => ⟨by decide, by decide⟩) rfl ?_
  refine Run.Along.cons trivial rfl ?_
  refine Run.Along.cons trivial rfl ?_
  exact Run.Along.cons trivial rfl trivial

/-- Thread 2 leaves a call that nobody has counted, and its wait comes back. -/
theorem uncheckpoint_wake_counts_below_zero :
    ¬∀ (cfg : Config) (s t : State) (ls : List Label), Initial s →
      Run.exec (step cfg) s ls = some t → (t.ready : ℤ) = ∑ᶠ h, t.lwcp h ∧ ∀ h, 0 ≤ t.lwcp h := by
  intro hclaim
  let ls : List Label := [.lightweightUncheckpoint ⟨2, false, some 3⟩, .uncheckpointWake 2]
  obtain ⟨-, hnonneg⟩ := hclaim ⟨1, 1, 0⟩ twoThreads _ ls twoThreads_initial rfl
  exact absurd (hnonneg 2) (by decide)

end MVVM.Checkpoint
