import MVVM.Checkpoint.Barrier

/-!
# Who takes the snapshot (wamr.cpp:806-824, 951-957)

A thread that is not the last sleeps on an `as_cv` of its own, which nobody notifies. The
snapshot is taken by the call that is the last to be counted, and `lightweight_checkpoint`,
which counts as well, starts none.
-/

namespace MVVM.Checkpoint

/-- Nothing notifies the waits, and the step ends none of them. -/
def NoWake : Label → Prop
  | .wake _ | .uncheckpointWake _ => False
  | _ => True

/-- The call is where `as_mtx` is held. -/
def Phase.Inside (p : Phase) : Prop := p = .counted ∨ p = .dumping

def State.Dumps (s : State) (i : ℕ) : Prop := ∃ c, s.calls[i]? = some c ∧ c.phase = .dumping

/-- `as_mtx` is held just when one of the calls is inside. -/
structure Guarded (s : State) : Prop where
  held : s.asMtx = true → ∃ (i : ℕ) (c : Call), s.calls[i]? = some c ∧ c.phase.Inside
  locked : ∀ (i : ℕ) (c : Call), s.calls[i]? = some c → c.phase.Inside → s.asMtx = true
  one : ∀ (i j : ℕ) (c d : Call), s.calls[i]? = some c → s.calls[j]? = some d →
    c.phase.Inside → d.phase.Inside → i = j

/-- What a step is for the calls: one of them is counted or tested, or new ones have been
entered. -/
inductive Stage (s t : State) : Label → Prop
  | count {i : ℕ} {c : Call} (call : s.calls[i]? = some c) (entered : c.phase = .entered)
      (free : s.asMtx = false) (eq : t = countCall s i c) : Stage s t (.count i)
  | test {i : ℕ} {c : Call} (call : s.calls[i]? = some c) (counted : c.phase = .counted)
      (eq : t = testCall s i c) : Stage s t (.test i)
  | other {l : Label} (new : List Call) (calls : t.calls = s.calls ++ new)
      (entered : ∀ c ∈ new, c.phase = .entered) (mtx : t.asMtx = s.asMtx)
      (ready : s.asMtx = true → t.ready = s.ready) (uncounted : ∀ i, l ≠ .count i)
      (untested : ∀ i, l ≠ .test i) : Stage s t l

variable {cfg : Config} {s t u : State} {l : Label} {ls : List Label} {i j : ℕ} {c d : Call}

/-! ### Steps -/

theorem getElem?_set_cases {calls : List Call} (h : (calls.set i c)[j]? = some d) :
    (i = j ∧ d = c) ∨ (i ≠ j ∧ calls[j]? = some d) := by
  by_cases hij : i = j
  · subst hij
    obtain ⟨hlt, -⟩ := List.getElem?_eq_some_iff.mp h
    rw [List.length_set] at hlt
    rw [List.getElem?_set_self hlt] at h
    exact .inl ⟨rfl, (Option.some.inj h).symm⟩
  · rw [List.getElem?_set_ne hij] at h
    exact .inr ⟨hij, h⟩

theorem testCall_calls (s : State) (i : ℕ) (c : Call) :
    (testCall s i c).calls =
      s.calls.set i { c with phase := if s.ready < c.allCount then .asleep else .dumping } := by
  unfold testCall
  split
  · rfl
  · rfl

theorem testCall_asMtx (s : State) (i : ℕ) (c : Call) :
    (testCall s i c).asMtx = if s.ready < c.allCount then false else s.asMtx := by
  unfold testCall
  split
  · rfl
  · rfl

theorem testCall_ready (s : State) (i : ℕ) (c : Call) : (testCall s i c).ready = s.ready := by
  unfold testCall
  split
  · rfl
  · rfl

/-- A signal enters at most one call, and a trap does so once the traps are armed. -/
theorem sigtrap_eq (cfg : Config) (s : State) (h : ℕ) :
    ∃ new, sigtrapHandler cfg s h =
        { s with callCount := s.callCount + 1, calls := s.calls ++ new } ∧
      (new = [] ∨ new = [⟨h, cfg.curEnv, s.cluster.card, .entered⟩]) ∧
      (s.checkpoint = true → new ≠ []) := by
  unfold sigtrapHandler
  simp only
  split
  · exact ⟨_, rfl, .inr rfl, fun _ => List.cons_ne_nil _ _⟩
  · rename_i hno
    refine ⟨[], by rw [List.append_nil], .inl rfl, fun harmed => ?_⟩
    exact absurd ⟨.inr harmed, .inr harmed⟩ hno

theorem sigint_eq (cfg : Config) (s : State) (h : ℕ) :
    ∃ new, sigintHandler cfg s h = { s with checkpoint := true, calls := s.calls ++ new } ∧
      (new = [] ∨ new = [⟨h, cfg.execEnv, s.cluster.card, .entered⟩]) := by
  unfold sigintHandler
  split
  · rename_i harmed
    exact ⟨_, by rw [State.serialize, ← harmed], .inr rfl⟩
  · exact ⟨[], by rw [List.append_nil], .inl rfl⟩

theorem entered_of_signal {new : List Call} {h g n : ℕ}
    (hnew : new = [] ∨ new = [⟨h, g, n, .entered⟩]) : ∀ c ∈ new, c.phase = .entered := by
  intro c hc
  rcases hnew with rfl | rfl
  · cases hc
  · rw [List.mem_singleton.mp hc]

/-- A step that leaves the calls as they are. -/
theorem Stage.same (hcalls : t.calls = s.calls) (hmtx : t.asMtx = s.asMtx)
    (hready : s.asMtx = true → t.ready = s.ready) (hcount : ∀ i, l ≠ .count i)
    (htest : ∀ i, l ≠ .test i) : Stage s t l :=
  .other [] (by rw [hcalls, List.append_nil]) (by simp) hmtx hready hcount htest

theorem stage_of_step (hn : NoWake l) (h : step cfg s l = some t) : Stage s t l := by
  cases l with
  | lightweightCheckpoint e =>
    simp only [step] at h
    split at h
    · split at h
      · split at h
        · rename_i hmtx
          obtain rfl := Option.some.inj h
          exact .same rfl rfl (fun hheld => by rw [hmtx] at hheld; cases hheld) (by simp) (by simp)
        · cases h
      · obtain rfl := Option.some.inj h
        exact .same rfl rfl (fun _ => rfl) (by simp) (by simp)
    · cases h
  | lightweightUncheckpoint e =>
    simp only [step] at h
    split at h
    · split at h
      · split at h
        · rename_i hmtx
          split at h
          · obtain rfl := Option.some.inj h
            exact .same rfl rfl (fun _ => rfl) (by simp) (by simp)
          · obtain rfl := Option.some.inj h
            exact .same rfl rfl (fun hheld => by rw [hmtx] at hheld; cases hheld) (by simp)
              (by simp)
        · cases h
      · obtain rfl := Option.some.inj h
        exact .same rfl rfl (fun _ => rfl) (by simp) (by simp)
    · cases h
  | uncheckpointWake g => exact hn.elim
  | create parent child =>
    obtain ⟨_, rfl⟩ := by simpa [step] using h
    exact .same rfl rfl (fun _ => rfl) (by simp) (by simp)
  | exit g =>
    obtain ⟨_, rfl⟩ := by simpa [step] using h
    exact .same rfl rfl (fun _ => rfl) (by simp) (by simp)
  | sigtrap g =>
    obtain ⟨_, rfl⟩ := by simpa [step] using h
    obtain ⟨new, heq, hnew, -⟩ := sigtrap_eq cfg s g
    rw [heq]
    exact .other new rfl (entered_of_signal hnew) rfl (fun _ => rfl) (by simp) (by simp)
  | sigint g =>
    obtain ⟨_, rfl⟩ := by simpa [step] using h
    obtain ⟨new, heq, hnew⟩ := sigint_eq cfg s g
    rw [heq]
    exact .other new rfl (entered_of_signal hnew) rfl (fun _ => rfl) (by simp) (by simp)
  | count i =>
    simp only [step] at h
    split at h
    · rename_i c hic
      obtain ⟨⟨hentered, hmtx⟩, rfl⟩ := by simpa using h
      exact .count hic hentered hmtx rfl
    · cases h
  | test i =>
    simp only [step] at h
    split at h
    · rename_i c hic
      obtain ⟨hcounted, rfl⟩ := by simpa using h
      exact .test hic hcounted rfl
    · cases h
  | wake i => exact hn.elim

/-! ### The mutex -/

theorem Initial.guarded (hs : Initial s) : Guarded s where
  held h := by rw [hs.asMtx] at h; cases h
  locked i c hic := by rw [hs.calls] at hic; cases hic
  one i j c d hic := by rw [hs.calls] at hic; cases hic

theorem Guarded.not_inside (hs : Guarded s) (hfree : s.asMtx = false) (hic : s.calls[i]? = some c) :
    ¬c.phase.Inside := by
  intro hin
  have hheld := hs.locked i c hic hin
  rw [hfree] at hheld
  cases hheld

theorem Guarded.count (hs : Guarded s) (hic : s.calls[i]? = some c) (hfree : s.asMtx = false) :
    Guarded (countCall s i c) where
  held _ := by
    obtain ⟨hlt, -⟩ := List.getElem?_eq_some_iff.mp hic
    exact ⟨i, _, List.getElem?_set_self hlt, .inl rfl⟩
  locked _ _ _ _ := rfl
  one j k d e hj hk hd he := by
    rcases getElem?_set_cases hj with ⟨rfl, -⟩ | ⟨-, hj⟩
    · rcases getElem?_set_cases hk with ⟨rfl, -⟩ | ⟨-, hk⟩
      · rfl
      · exact absurd he (hs.not_inside hfree hk)
    · exact absurd hd (hs.not_inside hfree hj)

theorem Guarded.test (hs : Guarded s) (hic : s.calls[i]? = some c) (hcounted : c.phase = .counted) :
    Guarded (testCall s i c) := by
  have hlocked := hs.locked i c hic (.inl hcounted)
  have hother : ∀ {j : ℕ} {d : Call}, i ≠ j → s.calls[j]? = some d → ¬d.phase.Inside :=
    fun hij hj hd => hij (hs.one _ _ _ _ hic hj (.inl hcounted) hd)
  by_cases hready : s.ready < c.allCount
  · have hnone : ∀ (j : ℕ) (d : Call), (testCall s i c).calls[j]? = some d → ¬d.phase.Inside := by
      intro j d hj
      rw [testCall_calls, if_pos hready] at hj
      rcases getElem?_set_cases hj with ⟨-, rfl⟩ | ⟨hij, hj⟩
      · rintro (h | h)
        · cases h
        · cases h
      · exact hother hij hj
    refine ⟨fun h => ?_, fun j d hj hd => absurd hd (hnone j d hj),
      fun j k d e hj hk hd he => absurd hd (hnone j d hj)⟩
    rw [testCall_asMtx, if_pos hready] at h
    cases h
  · have hmtx : (testCall s i c).asMtx = true := by rw [testCall_asMtx, if_neg hready, hlocked]
    have honly : ∀ (j : ℕ) (d : Call), (testCall s i c).calls[j]? = some d → d.phase.Inside →
        i = j := by
      intro j d hj hd
      rw [testCall_calls] at hj
      rcases getElem?_set_cases hj with ⟨hij, -⟩ | ⟨hij, hj⟩
      · exact hij
      · exact absurd hd (hother hij hj)
    refine ⟨fun _ => ?_, fun j d hj hd => hmtx,
      fun j k d e hj hk hd he => (honly j d hj hd).symm.trans (honly k e hk he)⟩
    obtain ⟨hlt, -⟩ := List.getElem?_eq_some_iff.mp hic
    rw [testCall_calls, if_neg hready]
    exact ⟨i, _, List.getElem?_set_self hlt, .inr rfl⟩

theorem not_inside_of_entered (h : c.phase = .entered) : ¬c.phase.Inside := by
  rw [h]
  rintro (h | h)
  · cases h
  · cases h

/-- A call that is inside is no new one. -/
theorem old_of_inside {new : List Call} (hcalls : t.calls = s.calls ++ new)
    (hentered : ∀ c ∈ new, c.phase = .entered) (hic : t.calls[i]? = some c)
    (hin : c.phase ≠ .entered) : s.calls[i]? = some c := by
  rw [hcalls] at hic
  by_cases hlt : i < s.calls.length
  · rwa [List.getElem?_append_left hlt] at hic
  · rw [List.getElem?_append_right (Nat.le_of_not_lt hlt)] at hic
    exact absurd (hentered c (List.mem_of_getElem? hic)) hin

theorem kept_of_append {new : List Call} (hcalls : t.calls = s.calls ++ new)
    (hic : s.calls[i]? = some c) : t.calls[i]? = some c := by
  obtain ⟨hlt, -⟩ := List.getElem?_eq_some_iff.mp hic
  rw [hcalls, List.getElem?_append_left hlt, hic]

theorem Guarded.next (hs : Guarded s) (hl : Stage s t l) : Guarded t := by
  cases hl with
  | count hic hentered hfree ht =>
    subst ht
    exact hs.count hic hfree
  | test hic hcounted ht =>
    subst ht
    exact hs.test hic hcounted
  | other new hcalls hentered hmtx hready hcount htest =>
    have hold : ∀ (j : ℕ) (d : Call), t.calls[j]? = some d → d.phase.Inside →
        s.calls[j]? = some d := fun j d hj hd =>
      old_of_inside hcalls hentered hj fun he => not_inside_of_entered he hd
    refine ⟨fun h => ?_, fun j d hj hd => ?_, fun j k d e hj hk hd he => ?_⟩
    · obtain ⟨j, d, hj, hd⟩ := hs.held (hmtx ▸ h)
      exact ⟨j, d, kept_of_append hcalls hj, hd⟩
    · rw [hmtx]
      exact hs.locked j d (hold j d hj hd) hd
    · exact hs.one j k d e (hold j d hj hd) (hold k e hk he) hd he

/-! ### The call that takes it -/

theorem guarded_run (hs : Guarded s) (hn : ∀ l ∈ ls, NoWake l)
    (h : Run.exec (step cfg) s ls = some t) : Guarded t :=
  Run.exec_invariant_of_labels NoWake Guarded
    (fun _ _ _ hs hn h => hs.next (stage_of_step hn h)) hs hn h

/-- Since the call was counted, `ready` is the same. -/
theorem counted_since (hs : Initial s) (hn : ∀ l ∈ ls, NoWake l)
    (h : Run.exec (step cfg) s ls = some t) (hic : t.calls[i]? = some c)
    (hcounted : c.phase = .counted) :
    ∃ before between u, ls = before ++ .count i :: between ∧
      Run.exec (step cfg) s (before ++ [.count i]) = some u ∧ u.calls[i]? = some c ∧
      u.ready = t.ready := by
  induction ls using List.reverseRecOn generalizing t with
  | nil =>
    obtain rfl := Option.some.inj h
    rw [hs.calls] at hic
    cases hic
  | append_singleton ls l ih =>
    obtain ⟨m, hm, hstep⟩ := Run.exec_concat_some h
    have hn' : ∀ k ∈ ls, NoWake k := fun k hk => hn k (List.mem_append_left _ hk)
    have hguard := guarded_run hs.guarded hn' hm
    cases stage_of_step (hn l (List.mem_append_right _ List.mem_cons_self)) hstep with
    | count _ _ hfree ht =>
      subst ht
      rcases getElem?_set_cases hic with ⟨rfl, -⟩ | ⟨-, hold⟩
      · exact ⟨ls, [], _, rfl, h, hic, rfl⟩
      · exact absurd (.inl hcounted) (hguard.not_inside hfree hold)
    | test hjd hd ht =>
      subst ht
      rw [testCall_calls] at hic
      rcases getElem?_set_cases hic with ⟨-, rfl⟩ | ⟨hij, hold⟩
      · simp only at hcounted
        split at hcounted
        · cases hcounted
        · cases hcounted
      · exact absurd (hguard.one _ _ _ _ hjd hold (.inl hd) (.inl hcounted)) hij
    | other new hcalls hentered _ hready _ _ =>
      have hold := old_of_inside hcalls hentered hic (by rw [hcounted]; exact Phase.noConfusion)
      obtain ⟨before, between, u, rfl, hu, hui, hur⟩ := ih hn' hm hold
      have hsame := hready (hguard.locked i c hold (.inl hcounted))
      exact ⟨before, between ++ [l], u, by simp, hu, hui, hur.trans hsame.symm⟩

theorem dumps_since (hs : Initial s) (hn : ∀ l ∈ ls, NoWake l)
    (h : Run.exec (step cfg) s ls = some t) (hd : t.Dumps i) :
    ∃ before between after u c, ls = before ++ .count i :: (between ++ .test i :: after) ∧
      Run.exec (step cfg) s (before ++ [.count i]) = some u ∧ u.calls[i]? = some c ∧
      c.allCount ≤ u.ready := by
  obtain ⟨c, hic, hdumping⟩ := hd
  induction ls using List.reverseRecOn generalizing t with
  | nil =>
    obtain rfl := Option.some.inj h
    rw [hs.calls] at hic
    cases hic
  | append_singleton ls l ih =>
    obtain ⟨m, hm, hstep⟩ := Run.exec_concat_some h
    have hn' : ∀ k ∈ ls, NoWake k := fun k hk => hn k (List.mem_append_left _ hk)
    have hguard := guarded_run hs.guarded hn' hm
    cases stage_of_step (hn l (List.mem_append_right _ List.mem_cons_self)) hstep with
    | count _ _ hfree ht =>
      subst ht
      rcases getElem?_set_cases hic with ⟨-, rfl⟩ | ⟨-, hold⟩
      · cases hdumping
      · exact absurd (.inr hdumping) (hguard.not_inside hfree hold)
    | @test j d hjd hd ht =>
      subst ht
      rw [testCall_calls] at hic
      rcases getElem?_set_cases hic with ⟨rfl, rfl⟩ | ⟨hij, hold⟩
      · simp only at hdumping
        split at hdumping
        · cases hdumping
        · rename_i hready
          obtain ⟨before, between, u, rfl, hu, hui, hur⟩ := counted_since hs hn' hm hjd hd
          exact ⟨before, between, [], u, d, by simp, hu, hui, hur ▸ Nat.le_of_not_lt hready⟩
      · exact absurd (hguard.one _ _ _ _ hjd hold (.inl hd) (.inr hdumping)) hij
    | other new hcalls hentered _ _ _ _ =>
      have hold := old_of_inside hcalls hentered hic (by rw [hdumping]; exact Phase.noConfusion)
      obtain ⟨before, between, after, u, d, rfl, hu, hui, hle⟩ := ih hn' hm hold
      exact ⟨before, between, after ++ [l], u, d, by simp, hu, hui, hle⟩

/-- The call dumps, or it will when it is tested. -/
def Taking (i : ℕ) (s : State) : Prop :=
  ∃ c, s.calls[i]? = some c ∧
    (c.phase = .dumping ∨ c.phase = .counted ∧ c.allCount ≤ s.ready)

theorem Taking.next (hs : Guarded s) (htake : Taking i s) (hl : Stage s t l) :
    Taking i t ∧ (l = .test i → t.Dumps i) := by
  obtain ⟨c, hic, hphase⟩ := htake
  have hin : c.phase.Inside := hphase.elim .inr fun h => .inl h.1
  cases hl with
  | count _ _ hfree _ => exact absurd hin (hs.not_inside hfree hic)
  | @test j d hjd hd ht =>
    obtain rfl : j = i := hs.one _ _ _ _ hjd hic (.inl hd) hin
    obtain rfl := Option.some.inj (hjd.symm.trans hic)
    rcases hphase with h | ⟨-, hle⟩
    · rw [hd] at h
      cases h
    · obtain ⟨hlt, -⟩ := List.getElem?_eq_some_iff.mp hic
      have hdumps : t.Dumps j := by
        subst ht
        rw [State.Dumps, testCall_calls, if_neg (Nat.not_lt.mpr hle)]
        exact ⟨_, List.getElem?_set_self hlt, rfl⟩
      obtain ⟨d, hid, hdump⟩ := hdumps
      exact ⟨⟨d, hid, .inl hdump⟩, fun _ => ⟨d, hid, hdump⟩⟩
  | other new hcalls _ _ hready _ htest =>
    have hkept := kept_of_append hcalls hic
    refine ⟨⟨c, hkept, ?_⟩, fun h => absurd h (htest i)⟩
    rwa [hready (hs.locked i c hic hin)]

theorem State.Dumps.next (hs : Guarded s) (hd : s.Dumps i) (hl : Stage s t l) : t.Dumps i := by
  obtain ⟨c, hic, hdumping⟩ := hd
  cases hl with
  | count _ _ hfree _ => exact absurd (.inr hdumping) (hs.not_inside hfree hic)
  | test hjd hd _ =>
    obtain rfl := hs.one _ _ _ _ hjd hic (.inl hd) (.inr hdumping)
    obtain rfl := Option.some.inj (hjd.symm.trans hic)
    rw [hd] at hdumping
    cases hdumping
  | other new hcalls _ _ _ _ _ => exact ⟨c, kept_of_append hcalls hic, hdumping⟩

theorem dumps_of_taking (hs : Guarded s) (htake : Taking i s) {between after : List Label}
    (hn : ∀ l ∈ between ++ .test i :: after, NoWake l)
    (h : Run.exec (step cfg) s (between ++ .test i :: after) = some t) : t.Dumps i := by
  rw [Run.exec_append] at h
  obtain ⟨m, hm, hrest⟩ := Option.bind_eq_some_iff.mp h
  obtain ⟨v, hv, hafter⟩ := Run.exec_cons_some hrest
  have hkeeps := Run.exec_invariant_of_labels NoWake (fun s => Guarded s ∧ Taking i s)
    (fun _ _ _ hs hl h => ⟨hs.1.next (stage_of_step hl h), (hs.2.next hs.1 (stage_of_step hl h)).1⟩)
    ⟨hs, htake⟩ (fun l hl => hn l (List.mem_append_left _ hl)) hm
  have hstage := stage_of_step (hn _ (List.mem_append_right _ List.mem_cons_self)) hv
  have hdumps := (hkeeps.2.next hkeeps.1 hstage).2 rfl
  exact (Run.exec_invariant_of_labels NoWake (fun s => Guarded s ∧ s.Dumps i)
    (fun _ _ _ hs hl h => ⟨hs.1.next (stage_of_step hl h), hs.2.next hs.1 (stage_of_step hl h)⟩)
    ⟨hkeeps.1.next hstage, hdumps⟩
    (fun l hl => hn l (List.mem_append_right _ (List.mem_cons_of_mem _ hl))) hafter).2

theorem asleep_next (hl : Stage s t l) (hic : s.calls[i]? = some c) (hasleep : c.phase = .asleep) :
    t.calls[i]? = some c := by
  cases hl with
  | @count j d hjd hentered _ ht =>
    subst ht
    have hij : j ≠ i := by
      rintro rfl
      obtain rfl := Option.some.inj (hjd.symm.trans hic)
      rw [hentered] at hasleep
      cases hasleep
    exact (List.getElem?_set_ne hij).trans hic
  | @test j d hjd hcounted ht =>
    subst ht
    have hij : j ≠ i := by
      rintro rfl
      obtain rfl := Option.some.inj (hjd.symm.trans hic)
      rw [hcounted] at hasleep
      cases hasleep
    rw [testCall_calls, List.getElem?_set_ne hij, hic]
  | other new hcalls _ _ _ _ _ => exact kept_of_append hcalls hic

/-- Where no wait ends without a notification, a call takes the snapshot just when it is tested
after it has found, at its counting, that all are counted; no second call takes it, and a call
that has gone to sleep sleeps for ever. -/
theorem snapshot_taken_iff (cfg : Config) (s t : State) (ls : List Label) (hs : Initial s)
    (hn : ∀ l ∈ ls, NoWake l) (h : Run.exec (step cfg) s ls = some t) :
    (∀ i, t.Dumps i ↔ ∃ before between after u c,
      ls = before ++ .count i :: (between ++ .test i :: after) ∧
      Run.exec (step cfg) s (before ++ [.count i]) = some u ∧
      u.calls[i]? = some c ∧ c.allCount ≤ u.ready) ∧
    (∀ i j, t.Dumps i → t.Dumps j → i = j) ∧
    ∀ (i : ℕ) (c : Call), t.calls[i]? = some c → c.phase = .asleep →
      ∀ more v, (∀ l ∈ more, NoWake l) → Run.exec (step cfg) t more = some v →
        v.calls[i]? = some c := by
  have hguard := guarded_run hs.guarded hn h
  refine ⟨fun i => ⟨dumps_since hs hn h, ?_⟩, fun i j hi hj => ?_, fun i c hic hasleep => ?_⟩
  · rintro ⟨before, between, after, u, c, rfl, hu, hui, hle⟩
    rw [List.append_cons] at hn h
    rw [Run.exec_append, hu] at h
    have hnu : ∀ l ∈ before ++ [.count i], NoWake l := fun l hl => hn l (List.mem_append_left _ hl)
    obtain ⟨m, hm, hstep⟩ := Run.exec_concat_some hu
    have hcounted : c.phase = .counted := by
      cases stage_of_step (hnu _ (List.mem_append_right _ List.mem_cons_self)) hstep with
      | count _ _ _ ht =>
        subst ht
        rcases getElem?_set_cases hui with ⟨-, rfl⟩ | ⟨hii, -⟩
        · rfl
        · exact absurd rfl hii
      | other _ _ _ _ _ hcount _ => exact absurd rfl (hcount i)
    exact dumps_of_taking (guarded_run hs.guarded hnu hu) ⟨c, hui, .inr ⟨hcounted, hle⟩⟩
      (fun l hl => hn l (List.mem_append_right _ hl)) h
  · obtain ⟨c, hic, hc⟩ := hi
    obtain ⟨d, hjd, hd⟩ := hj
    exact hguard.one i j c d hic hjd (.inr hc) (.inr hd)
  · intro more v hmore hv
    exact Run.exec_invariant_of_labels NoWake (fun s => s.calls[i]? = some c)
      (fun _ _ _ hs hl h => asleep_next (stage_of_step hl h) hs hasleep) hic hmore hv

/-- Two traps: the first call is put to sleep, the second takes the snapshot. -/
theorem snapshot_taken_second :
    ∃ t, Run.exec (step ⟨1, 1, 0⟩) twoThreads
        [.sigint 1, .sigtrap 1, .count 0, .test 0, .sigtrap 2, .count 1, .test 1] = some t ∧
      ∀ i, t.Dumps i ↔ i = 1 := by
  refine ⟨_, rfl, fun i => ?_⟩
  obtain ⟨htaken, honce, -⟩ := snapshot_taken_iff ⟨1, 1, 0⟩ twoThreads _
    [.sigint 1, .sigtrap 1, .count 0, .test 0, .sigtrap 2, .count 1, .test 1]
    twoThreads_initial (by simp [NoWake]) rfl
  have hsecond := (htaken 1).mpr
    ⟨[.sigint 1, .sigtrap 1, .count 0, .test 0, .sigtrap 2], [], [], _, _, rfl, rfl, rfl, by decide⟩
  exact ⟨fun hi => honce i 1 hi hsecond, fun hi => hi ▸ hsecond⟩

/-- Both threads are counted, and nobody is left to take the snapshot. -/
example : (Run.exec (step ⟨1, 1, 0⟩) twoThreads [.sigint 1, .sigtrap 1, .count 0, .test 0,
    .lightweightCheckpoint ⟨2, false, some 3⟩]).map (fun t => (t.ready, t.calls.map Call.phase)) =
    some (2, [.asleep]) := rfl

/-! ### When only the calls count

So it is while `is_restore` is set, as it stays in a restored process. -/

/-- Nobody is counted but by `serialize_to_file`, the threads stay the same, and a signal
reaches a thread that runs its own code. -/
def OnlyCalls (s : State) : Label → Prop
  | .lightweightCheckpoint e | .lightweightUncheckpoint e => ¬e.Counts
  | .sigint h => s.Free h
  | .sigtrap _ | .count _ | .test _ => True
  | .create _ _ | .exit _ | .wake _ | .uncheckpointWake _ => False

def Phase.isCounted : Phase → Bool
  | .entered => false
  | .counted | .asleep | .dumping => true

def Phase.isTested : Phase → Bool
  | .entered | .counted => false
  | .asleep | .dumping => true

/-- The calls that have been counted. -/
def State.counted (s : State) : ℕ := s.calls.countP fun c => c.phase.isCounted

/-- The calls that have been tested. -/
def State.tested (s : State) : ℕ := s.calls.countP fun c => c.phase.isTested

structure Tally (n : ℕ) (s : State) : Prop where
  small : n < 2 ^ 32
  cluster : s.cluster.card = n
  stuck : s.stuck = []
  allCount : ∀ c ∈ s.calls, c.allCount = n
  callers : (s.calls.map Call.caller).Nodup
  members : ∀ c ∈ s.calls, c.caller ∈ s.cluster
  ready : s.ready = s.counted
  le : s.counted ≤ n
  below : s.asMtx = false → s.counted < n
  flagged : s.counted = n → s.shouldSnapshot = true
  full : ∀ i, s.Dumps i → s.counted = n

theorem countP_setPhase {calls : List Call} (hic : calls[i]? = some c) (q : Phase)
    (p : Phase → Bool) :
    (calls.set i { c with phase := q }).countP (fun c => p c.phase) +
        (if p c.phase then 1 else 0) =
      calls.countP (fun c => p c.phase) + if p q then 1 else 0 := by
  obtain ⟨hlt, rfl⟩ := List.getElem?_eq_some_iff.mp hic
  rw [List.countP_set hlt]
  dsimp only
  by_cases hp : p calls[i].phase
  · have hpos : 0 < calls.countP fun c => p c.phase :=
      List.countP_pos_iff.mpr ⟨_, List.getElem_mem hlt, hp⟩
    rw [if_pos hp]
    omega
  · rw [if_neg hp]
    omega

theorem caller_setPhase {calls : List Call} (hic : calls[i]? = some c) (q : Phase) :
    (calls.set i { c with phase := q }).map Call.caller = calls.map Call.caller := by
  obtain ⟨hlt, rfl⟩ := List.getElem?_eq_some_iff.mp hic
  have hmap : i < (calls.map Call.caller).length := by rwa [List.length_map]
  have hself : calls[i].caller = (calls.map Call.caller)[i] := (List.getElem_map _).symm
  rw [List.map_set, hself, List.set_getElem_self hmap]

theorem counted_countCall (hic : s.calls[i]? = some c) (hentered : c.phase = .entered) :
    (countCall s i c).counted = s.counted + 1 := by
  have h := countP_setPhase hic .counted Phase.isCounted
  rw [hentered] at h
  exact h

theorem tested_countCall (hic : s.calls[i]? = some c) (hentered : c.phase = .entered) :
    (countCall s i c).tested = s.tested := by
  have h := countP_setPhase hic .counted Phase.isTested
  rw [hentered] at h
  exact h

theorem counted_testCall (hic : s.calls[i]? = some c) (hcounted : c.phase = .counted) :
    (testCall s i c).counted = s.counted := by
  rw [State.counted, testCall_calls]
  split
  · have h := countP_setPhase hic .asleep Phase.isCounted
    rw [hcounted] at h
    exact Nat.succ.inj h
  · have h := countP_setPhase hic .dumping Phase.isCounted
    rw [hcounted] at h
    exact Nat.succ.inj h

theorem tested_testCall (hic : s.calls[i]? = some c) (hcounted : c.phase = .counted) :
    (testCall s i c).tested = s.tested + 1 := by
  rw [State.tested, testCall_calls]
  split
  · have h := countP_setPhase hic .asleep Phase.isTested
    rw [hcounted] at h
    exact h
  · have h := countP_setPhase hic .dumping Phase.isTested
    rw [hcounted] at h
    exact h

theorem Initial.tally (hs : Initial s) (hstuck : s.stuck = []) (hmain : s.cluster.Nonempty) :
    Tally s.cluster.card s := by
  have hzero : s.counted = 0 := by rw [State.counted, hs.calls, List.countP_nil]
  have hpos := hmain.card_pos
  refine ⟨hs.small, rfl, hstuck, ?_, ?_, ?_, hs.ready.trans hzero.symm, by omega, fun _ => by omega,
    fun h => by omega, ?_⟩
  · simp [hs.calls]
  · simp [hs.calls]
  · simp [hs.calls]
  · rintro i ⟨c, hic, -⟩
    rw [hs.calls] at hic
    cases hic

variable {n : ℕ}

theorem Tally.count (hx : Tally n s) (hs : Guarded s) (hic : s.calls[i]? = some c)
    (hentered : c.phase = .entered) (hfree : s.asMtx = false) : Tally n (countCall s i c) := by
  have hlt := hx.below hfree
  have hsmall := hx.small
  have hcounted := counted_countCall hic hentered
  have hready : (s.park c.inst).ready = s.counted + 1 := by
    have hle : s.ready + 1 < 2 ^ 64 := by rw [hx.ready]; omega
    rw [State.park, sizeT_of_lt hle, hx.ready]
  have hmem : ∀ d ∈ (countCall s i c).calls, d = { c with phase := .counted } ∨ d ∈ s.calls :=
    fun d hd => (List.mem_or_eq_of_mem_set hd).symm
  have hc := List.mem_of_getElem? hic
  refine ⟨hsmall, hx.cluster, hx.stuck, fun d hd => ?_, ?_, fun d hd => ?_,
    hready.trans hcounted.symm, by omega, by simp [countCall], fun hfull => ?_, fun j hj => ?_⟩
  · rcases hmem d hd with rfl | hd
    · exact hx.allCount c hc
    · exact hx.allCount d hd
  · exact (caller_setPhase hic .counted).symm ▸ hx.callers
  · rcases hmem d hd with rfl | hd
    · exact hx.members c hc
    · exact hx.members d hd
  · have hlast : (s.park c.inst).ready = c.allCount := by
      rw [hready, hx.allCount c hc, ← hcounted, hfull]
    show (s.shouldSnapshot || (s.park c.inst).ready == c.allCount) = true
    rw [hlast, beq_self_eq_true, Bool.or_true]
  · obtain ⟨d, hjd, hd⟩ := hj
    rcases getElem?_set_cases hjd with ⟨-, rfl⟩ | ⟨-, hold⟩
    · cases hd
    · exact absurd (.inr hd) (hs.not_inside hfree hold)

theorem Tally.test (hx : Tally n s) (hs : Guarded s) (hic : s.calls[i]? = some c)
    (hcounted : c.phase = .counted) : Tally n (testCall s i c) := by
  have hc := List.mem_of_getElem? hic
  have hall := hx.allCount c hc
  have hsame := counted_testCall hic hcounted
  have hle := hx.le
  have hmem : ∀ d ∈ (testCall s i c).calls,
      d.allCount = c.allCount ∧ d.caller = c.caller ∨ d ∈ s.calls := by
    intro d hd
    rw [testCall_calls] at hd
    rcases List.mem_or_eq_of_mem_set hd with hd | rfl
    · exact .inr hd
    · exact .inl ⟨rfl, rfl⟩
  have hrest : (testCall s i c).cluster = s.cluster ∧ (testCall s i c).stuck = s.stuck ∧
      (testCall s i c).shouldSnapshot = s.shouldSnapshot := by
    unfold testCall
    split
    · exact ⟨rfl, rfl, rfl⟩
    · exact ⟨rfl, rfl, rfl⟩
  obtain ⟨hcluster, hstuck, hflag⟩ := hrest
  refine ⟨hx.small, hcluster ▸ hx.cluster, hstuck.trans hx.stuck, fun d hd => ?_, ?_,
    fun d hd => ?_, ?_, by omega, fun hfree => ?_, fun hfull => ?_, fun j hj => ?_⟩
  · rcases hmem d hd with ⟨h, -⟩ | hd
    · exact h.trans hall
    · exact hx.allCount d hd
  · rw [testCall_calls, caller_setPhase hic]
    exact hx.callers
  · rw [hcluster]
    rcases hmem d hd with ⟨-, h⟩ | hd
    · exact h ▸ hx.members c hc
    · exact hx.members d hd
  · rw [testCall_ready, hsame, hx.ready]
  · rw [testCall_asMtx, hs.locked i c hic (.inl hcounted)] at hfree
    split at hfree
    · rename_i hlt
      rw [hx.ready, hall] at hlt
      omega
    · cases hfree
  · rw [hflag]
    exact hx.flagged (hsame ▸ hfull)
  · rw [hsame]
    obtain ⟨d, hjd, hd⟩ := hj
    rw [testCall_calls] at hjd
    rcases getElem?_set_cases hjd with ⟨-, rfl⟩ | ⟨-, hold⟩
    · simp only at hd
      split at hd
      · cases hd
      · rename_i hge
        rw [hx.ready, hall] at hge
        omega
    · exact hx.full j ⟨d, hold, hd⟩

/-- A thread outside of a call comes to one. -/
theorem Tally.signal (hx : Tally n s) {h g k : ℕ} {armed : Bool} (hfree : s.Free h)
    {new : List Call} (hnew : new = [] ∨ new = [⟨h, g, s.cluster.card, .entered⟩]) :
    Tally n { s with callCount := k, checkpoint := armed, calls := s.calls ++ new } := by
  have hentered := entered_of_signal hnew
  have hcounted : (s.calls ++ new).countP (fun c => c.phase.isCounted) = s.counted := by
    have hnone : new.countP (fun c => c.phase.isCounted) = 0 := by
      refine List.countP_eq_zero.mpr fun c hc => ?_
      rw [hentered c hc]
      exact Bool.false_ne_true
    rw [List.countP_append, hnone]
    rfl
  have hof : ∀ c ∈ new, c.caller = h ∧ c.allCount = n := by
    intro c hc
    rcases hnew with rfl | rfl
    · cases hc
    · rw [List.mem_singleton.mp hc]
      exact ⟨rfl, hx.cluster⟩
  refine ⟨hx.small, hx.cluster, hx.stuck, fun c hc => ?_, ?_, fun c hc => ?_,
    hx.ready.trans hcounted.symm, hcounted.le.trans hx.le, fun hmtx => ?_, fun hfull => ?_,
    fun i hi => ?_⟩
  · rcases List.mem_append.mp hc with hc | hc
    · exact hx.allCount c hc
    · exact (hof c hc).2
  · rw [List.map_append, List.nodup_append]
    refine ⟨hx.callers, ?_, fun a ha b hb => ?_⟩
    · rcases hnew with rfl | rfl
      · exact List.nodup_nil
      · exact List.nodup_singleton _
    · obtain ⟨c, hc, rfl⟩ := List.mem_map.mp ha
      obtain ⟨d, hd, rfl⟩ := List.mem_map.mp hb
      rw [(hof d hd).1]
      exact hfree.2.1 c hc
  · rcases List.mem_append.mp hc with hc | hc
    · exact hx.members c hc
    · rw [(hof c hc).1]
      exact hfree.1
  · exact hcounted.trans_lt (hx.below hmtx)
  · exact hx.flagged (hcounted.symm.trans hfull)
  · obtain ⟨c, hic, hc⟩ := hi
    refine hcounted.trans (hx.full i ⟨c, old_of_inside (t := { s with calls := s.calls ++ new })
      rfl hentered hic ?_, hc⟩)
    rw [hc]
    exact Phase.noConfusion

theorem OnlyCalls.noWake (h : OnlyCalls s l) : NoWake l := by
  cases l with
  | wake i => exact h.elim
  | uncheckpointWake g => exact h.elim
  | _ => trivial

theorem Tally.next (hx : Tally n s) (hs : Guarded s) (hok : OnlyCalls s l)
    (h : step cfg s l = some t) : Tally n t := by
  cases l with
  | lightweightCheckpoint e =>
    simp only [step, if_neg hok] at h
    split at h
    · obtain rfl := Option.some.inj h
      exact hx
    · cases h
  | lightweightUncheckpoint e =>
    simp only [step, if_neg hok] at h
    split at h
    · obtain rfl := Option.some.inj h
      exact hx
    · cases h
  | sigtrap g =>
    obtain ⟨hfree, rfl⟩ := by simpa [step] using h
    obtain ⟨new, heq, hnew, -⟩ := sigtrap_eq cfg s g
    rw [heq]
    exact hx.signal hfree hnew
  | sigint g =>
    obtain ⟨_, rfl⟩ := by simpa [step] using h
    obtain ⟨new, heq, hnew⟩ := sigint_eq cfg s g
    rw [heq]
    exact hx.signal hok hnew
  | count i =>
    cases stage_of_step hok.noWake h with
    | count hic hentered hfree ht =>
      subst ht
      exact hx.count hs hic hentered hfree
    | other _ _ _ _ _ hcount _ => exact absurd rfl (hcount i)
  | test i =>
    cases stage_of_step hok.noWake h with
    | test hic hcounted ht =>
      subst ht
      exact hx.test hs hic hcounted
    | other _ _ _ _ _ _ htest => exact absurd rfl (htest i)
  | uncheckpointWake g => exact hok.elim
  | create parent child => exact hok.elim
  | exit g => exact hok.elim
  | wake i => exact hok.elim

theorem tally_run (hs : Initial s) (hstuck : s.stuck = []) (hmain : s.cluster.Nonempty)
    (hok : Run.Along (step cfg) OnlyCalls s ls) (h : Run.exec (step cfg) s ls = some t) :
    Guarded t ∧ Tally s.cluster.card t :=
  Run.exec_invariant_along (fun t => Guarded t ∧ Tally s.cluster.card t)
    (fun _ _ _ hx hok h =>
      ⟨hx.1.next (stage_of_step hok.noWake h), hx.2.next hx.1 hok h⟩)
    s t ls ⟨hs.guarded, hs.tally hstuck hmain⟩ hok h

/-! ### Every thread comes to its call -/

theorem Tally.callers_subset (hx : Tally n s) : (s.calls.map Call.caller).toFinset ⊆ s.cluster := by
  intro h hh
  obtain ⟨c, hc, rfl⟩ := List.mem_map.mp (List.mem_toFinset.mp hh)
  exact hx.members c hc

theorem Tally.callers_card (hx : Tally n s) :
    (s.calls.map Call.caller).toFinset.card = s.calls.length := by
  rw [List.toFinset_card_of_nodup hx.callers, List.length_map]

theorem Tally.length_le (hx : Tally n s) : s.calls.length ≤ n :=
  hx.callers_card ▸ hx.cluster ▸ Finset.card_le_card hx.callers_subset

theorem Tally.all_called_iff (hx : Tally n s) :
    (∀ g ∈ s.cluster, ∃ c ∈ s.calls, c.caller = g) ↔ s.calls.length = n := by
  rw [← hx.callers_card, ← hx.cluster]
  constructor
  · intro hall
    refine congrArg Finset.card (hx.callers_subset.antisymm fun g hg => ?_)
    exact List.mem_toFinset.mpr (List.mem_map.mpr (hall g hg))
  · intro hfull g hg
    rw [← Finset.eq_of_subset_of_card_le hx.callers_subset hfull.ge] at hg
    exact List.mem_map.mp (List.mem_toFinset.mp hg)

theorem Tally.dumps_length (hx : Tally n s) (hd : s.Dumps i) : s.calls.length = n := by
  have hle : s.counted ≤ s.calls.length := List.countP_le_length
  have hfull := hx.full i hd
  have hmost := hx.length_le
  omega

/-- The threads that are in no call yet can come to one. -/
theorem Tally.exists_free (hx : Tally n s) (hlt : s.calls.length < n) : ∃ h, s.Free h := by
  have hcard : (s.calls.map Call.caller).toFinset.card < s.cluster.card := by
    rwa [hx.callers_card, hx.cluster]
  obtain ⟨h, hh, hno⟩ := Finset.exists_mem_notMem_of_card_lt_card hcard
  refine ⟨h, hh, fun c hc heq => hno ?_, by simp [hx.stuck]⟩
  exact List.mem_toFinset.mpr (List.mem_map.mpr ⟨c, hc, heq⟩)

/-- No call can go on. -/
def Settled (cfg : Config) (s : State) : Prop :=
  ∀ i, step cfg s (.count i) = none ∧ step cfg s (.test i) = none

theorem step_count (hic : s.calls[i]? = some c) (hentered : c.phase = .entered)
    (hfree : s.asMtx = false) : step cfg s (.count i) = some (countCall s i c) := by
  simp [step, hic, hentered, hfree]

theorem step_test (hic : s.calls[i]? = some c) (hcounted : c.phase = .counted) :
    step cfg s (.test i) = some (testCall s i c) := by
  simp [step, hic, hcounted]

theorem Tally.dumps_of_settled (hx : Tally n s) (hs : Guarded s) (hall : s.calls.length = n)
    (hsettled : Settled cfg s) : ∃ i, s.Dumps i := by
  cases hmtx : s.asMtx with
  | false =>
    have hlt : s.counted < s.calls.length := hall ▸ hx.below hmtx
    have hsome : ∃ c ∈ s.calls, c.phase.isCounted = false := by
      by_contra hno
      refine absurd (List.countP_eq_length.mpr fun c hc => ?_) (Nat.ne_of_lt hlt)
      exact Bool.eq_true_of_not_eq_false fun hphase => hno ⟨c, hc, hphase⟩
    obtain ⟨c, hc, hphase⟩ := hsome
    obtain ⟨i, hic⟩ := List.mem_iff_getElem?.mp hc
    have hentered : c.phase = .entered := by
      cases hp : c.phase with
      | entered => rfl
      | _ => rw [hp] at hphase; cases hphase
    have hstep : step cfg s (.count i) = some (countCall s i c) := step_count hic hentered hmtx
    rw [(hsettled i).1] at hstep
    cases hstep
  | true =>
    obtain ⟨i, c, hic, hcounted | hdumping⟩ := hs.held hmtx
    · have hstep : step cfg s (.test i) = some (testCall s i c) := step_test hic hcounted
      rw [(hsettled i).2] at hstep
      cases hstep
    · exact ⟨i, c, hic, hdumping⟩

/-- A thread runs into a trap, or goes on in its call. -/
def Drives : Label → Prop
  | .sigtrap _ | .count _ | .test _ => True
  | _ => False

theorem Drives.onlyCalls (h : Drives l) : OnlyCalls s l := by
  cases l with
  | sigtrap g => trivial
  | count i => trivial
  | test i => trivial
  | _ => exact h.elim

def State.progress (s : State) : ℕ := s.calls.length + s.counted + s.tested

theorem Tally.progress_le (hx : Tally n s) : s.progress ≤ 3 * n := by
  have hcounted : s.counted ≤ s.calls.length := List.countP_le_length
  have htested : s.tested ≤ s.calls.length := List.countP_le_length
  have hle := hx.length_le
  unfold State.progress
  omega

theorem progress_count (hic : s.calls[i]? = some c) (hentered : c.phase = .entered) :
    (countCall s i c).progress = s.progress + 1 := by
  have hlen : (countCall s i c).calls.length = s.calls.length := List.length_set
  rw [State.progress, State.progress, hlen, counted_countCall hic hentered,
    tested_countCall hic hentered]
  omega

theorem progress_test (hic : s.calls[i]? = some c) (hcounted : c.phase = .counted) :
    (testCall s i c).progress = s.progress + 1 := by
  have hlen : (testCall s i c).calls.length = s.calls.length := by
    rw [testCall_calls, List.length_set]
  rw [State.progress, State.progress, hlen, counted_testCall hic hcounted,
    tested_testCall hic hcounted]
  omega

theorem progress_sigtrap (cfg : Config) (harmed : s.checkpoint = true) (h : ℕ) :
    s.progress < (sigtrapHandler cfg s h).progress ∧
      (sigtrapHandler cfg s h).checkpoint = true := by
  obtain ⟨new, heq, -, hnew⟩ := sigtrap_eq cfg s h
  have hpos : 0 < new.length := List.length_pos_iff.mpr (hnew harmed)
  rw [heq]
  refine ⟨?_, harmed⟩
  simp only [State.progress, State.counted, State.tested, List.length_append, List.countP_append]
  omega

theorem Tally.exists_step (cfg : Config) (hx : Tally n s) (hs : Guarded s)
    (harmed : s.checkpoint = true) (hno : ¬∃ i, s.Dumps i) :
    ∃ l t, Drives l ∧ step cfg s l = some t ∧ t.checkpoint = true ∧ s.progress < t.progress := by
  by_cases hsettled : Settled cfg s
  · have hlt : s.calls.length < n := by
      refine Nat.lt_of_le_of_ne hx.length_le fun hall => hno ?_
      exact hx.dumps_of_settled hs hall hsettled
    obtain ⟨h, hfree⟩ := hx.exists_free hlt
    obtain ⟨hmore, harmed'⟩ := progress_sigtrap cfg harmed h
    exact ⟨.sigtrap h, _, trivial, by simp [step, hfree], harmed', hmore⟩
  · obtain ⟨i, hi⟩ := not_forall.mp hsettled
    rw [not_and_or] at hi
    rcases hi with hi | hi
    · obtain ⟨t, ht⟩ := Option.ne_none_iff_exists'.mp hi
      cases stage_of_step (l := .count i) trivial ht with
      | count hic hentered _ heq =>
        refine ⟨.count i, t, trivial, ht, ?_, ?_⟩
        · subst heq
          exact harmed
        · subst heq
          exact (progress_count hic hentered).symm ▸ Nat.lt_succ_self _
      | other _ _ _ _ _ hcount _ => exact absurd rfl (hcount i)
    · obtain ⟨t, ht⟩ := Option.ne_none_iff_exists'.mp hi
      cases stage_of_step (l := .test i) trivial ht with
      | @test _ c hic hcounted heq =>
        have hcheckpoint : (testCall s i c).checkpoint = s.checkpoint := by
          unfold testCall
          split
          · rfl
          · rfl
        refine ⟨.test i, t, trivial, ht, ?_, ?_⟩
        · subst heq
          exact hcheckpoint.trans harmed
        · subst heq
          exact (progress_test hic hcounted).symm ▸ Nat.lt_succ_self _
      | other _ _ _ _ _ _ htest => exact absurd rfl (htest i)

/-- Where only the calls count, the snapshot is taken when all threads have come to their calls,
in whatever order, and not before; and from wherever they are, traps of the others lead to it. -/
theorem last_call_dumps (cfg : Config) (s t : State) (ls : List Label) (hs : Initial s)
    (hstuck : s.stuck = []) (hmain : s.cluster.Nonempty)
    (hok : Run.Along (step cfg) OnlyCalls s ls) (h : Run.exec (step cfg) s ls = some t) :
    (∀ i, t.Dumps i → (∀ g ∈ t.cluster, ∃ c ∈ t.calls, c.caller = g) ∧ t.shouldSnapshot = true) ∧
    ((∀ g ∈ t.cluster, ∃ c ∈ t.calls, c.caller = g) → Settled cfg t → ∃ i, t.Dumps i) ∧
    (t.checkpoint = true → ∃ more v, (∀ l ∈ more, Drives l) ∧
      Run.exec (step cfg) t more = some v ∧ ∃ i, v.Dumps i) := by
  obtain ⟨hguard, hx⟩ := tally_run hs hstuck hmain hok h
  refine ⟨fun i hd => ⟨?_, hx.flagged (hx.full i hd)⟩, fun hall hsettled => ?_, fun harmed => ?_⟩
  · exact hx.all_called_iff.mpr (hx.dumps_length hd)
  · exact hx.dumps_of_settled hguard (hx.all_called_iff.mp hall) hsettled
  · refine Run.exists_run_to
      (fun v => Guarded v ∧ Tally s.cluster.card v ∧ v.checkpoint = true) (fun v => ∃ i, v.Dumps i)
      (fun v => 3 * s.cluster.card - v.progress) ?_ ⟨hguard, hx, harmed⟩
    rintro v ⟨hv, hvx, hvarmed⟩ hno
    obtain ⟨l, u, hl, hu, huarmed, hlt⟩ := hvx.exists_step cfg hv hvarmed hno
    have hok : OnlyCalls v l := hl.onlyCalls
    have hux := hvx.next hv hok hu
    have hmost := hux.progress_le
    exact ⟨l, u, hl, hu, ⟨hv.next (stage_of_step hok.noWake hu), hux, huarmed⟩, by omega⟩

/-- Thread 2 enters a blocking call and is not counted, thread 1 is put to sleep. -/
theorem last_call_dumps_restored :
    ∃ t more v, Run.exec (step ⟨1, 1, 0⟩) twoThreads
        [.lightweightCheckpoint ⟨2, true, some 3⟩, .sigint 1, .sigtrap 1, .count 0, .test 0] =
          some t ∧
      (∀ l ∈ more, Drives l) ∧ Run.exec (step ⟨1, 1, 0⟩) t more = some v ∧ ∃ i, v.Dumps i := by
  have hdumps := last_call_dumps ⟨1, 1, 0⟩ twoThreads _
    [.lightweightCheckpoint ⟨2, true, some 3⟩, .sigint 1, .sigtrap 1, .count 0, .test 0]
    twoThreads_initial rfl (by decide) ?_ rfl
  · obtain ⟨more, v, hmore, hv, hd⟩ := hdumps.2.2 rfl
    exact ⟨_, more, v, rfl, hmore, hv, hd⟩
  · refine Run.Along.cons (by simp [OnlyCalls, ExecEnv.Counts]) rfl ?_
    refine Run.Along.cons (show State.Free _ _ by decide) rfl ?_
    refine Run.Along.cons trivial rfl ?_
    refine Run.Along.cons trivial rfl ?_
    exact Run.Along.cons trivial rfl trivial

end MVVM.Checkpoint
