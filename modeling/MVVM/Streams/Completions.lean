import MVVM.Loop
import Mathlib.Data.List.Basic
import Mathlib.Tactic.NormNum

/-!
# Waiting for work completions (wamr_read_write.h:292-323)

The queue is polled until `max_wc` completions have been filled in; each poll asks for what
is missing. What a poll returns is added to `total_wc` whether it has failed or not.
-/

namespace MVVM.Streams

/-- What `ibv_poll_cq` returns: a negative number, or the statuses that it has filled in. -/
inductive Polled where
  | failed (code : ℕ)
  | filled (statuses : List ℕ)
  deriving DecidableEq, Repr

def Polled.ret : Polled → ℤ
  | .failed code => -(code + 1)
  | .filled statuses => statuses.length

/-- A completion queue: what each poll returns when it is asked for so many entries, of
which it fills in no more. -/
structure CompletionQueue where
  poll : ℕ → ℤ → Polled
  within : ∀ k asked statuses, 0 ≤ asked → poll k asked = .filled statuses →
    statuses.length ≤ asked

/-- The variables of the loop: how many polls have been made, `total_wc`, and the statuses
of the entries of `wc` that have been filled in. -/
structure Polling where
  polls : ℕ
  totalWc : ℤ
  wc : ℤ → Option ℕ

def Polling.start : Polling := ⟨0, 0, fun _ => none⟩

def Polling.next (s : Polling) : Polled → Polling
  | .failed code => { s with polls := s.polls + 1, totalWc := s.totalWc + (Polled.failed code).ret }
  | .filled statuses =>
    { polls := s.polls + 1
      totalWc := s.totalWc + (Polled.filled statuses).ret
      wc := fun i =>
        if s.totalWc ≤ i ∧ i < s.totalWc + statuses.length then statuses[(i - s.totalWc).toNat]?
        else s.wc i }

variable (cq : CompletionQueue) (maxWc : ℤ)

/-- The poll that is made in a state. -/
def Polling.polled (s : Polling) : Polled := cq.poll s.polls (maxWc - s.totalWc)

/-- A round of the loop; the error of a failed poll is logged. -/
def pollBody (s : Polling) : Polling ⊕ Polling :=
  let t := s.next (s.polled cq maxWc)
  if t.totalWc < maxWc then .inl t else .inr t

/-- The statuses that are looked at behind the loop; `before` is what the array had. -/
def Polling.statuses (before : ℤ → ℕ) (s : Polling) : List ℕ :=
  (List.range s.totalWc.toNat).map fun i : ℕ => (s.wc i).getD (before i)

/-- The return value behind the loop. -/
def Polling.result (before : ℤ → ℕ) (s : Polling) : ℤ :=
  match (s.statuses before).find? (· ≠ 0) with
  | some status => -status
  | none => s.totalWc

/-- `process_work_completion_events`; the first two calls fail with an `errno`. There is no
result while the loop goes on. -/
def processWorkCompletionEvents (before : ℤ → ℕ) (getCqEvent reqNotifyCq : Option ℤ) (fuel : ℕ) :
    Option ℤ :=
  match getCqEvent, reqNotifyCq with
  | some errno, _ => some (-errno)
  | none, some errno => some (-errno)
  | none, none => (Loop.run (pollBody cq maxWc) fuel .start).map (Polling.result before)

/-! ### What the loop has to do -/

/-- All entries are filled, and the result is their number, or that of the first of them
that has failed. -/
structure Completed (before : ℤ → ℕ) (s : Polling) : Prop where
  filled : ∀ i, 0 ≤ i → i < maxWc → (s.wc i).isSome
  result : (s.result before = maxWc ∧ ∀ i, 0 ≤ i → i < maxWc → s.wc i = some 0) ∨
    ∃ i status, 0 ≤ i ∧ i < maxWc ∧ s.wc i = some status ∧ status ≠ 0 ∧
      (∀ j, 0 ≤ j → j < i → s.wc j = some 0) ∧ s.result before = -status

/-- The entries asked for are inside of the array, the total stays in its bounds, a failed
poll is the last and makes the result an error, and the loop leaves with all entries. -/
structure PollsAll (before : ℤ → ℕ) : Prop where
  asked : ∀ s, Loop.Reaches (pollBody cq maxWc) .start s →
    ∀ i, s.totalWc ≤ i → i < s.totalWc + (maxWc - s.totalWc) → 0 ≤ i ∧ i < maxWc
  total : ∀ s, Loop.Reaches (pollBody cq maxWc) .start s → 0 ≤ s.totalWc ∧ s.totalWc ≤ maxWc
  fails : ∀ s, Loop.Reaches (pollBody cq maxWc) .start s →
    ∀ code, s.polled cq maxWc = .failed code →
      ∃ t, pollBody cq maxWc s = .inr t ∧ t.result before < 0
  returns : ∀ fuel r, processWorkCompletionEvents cq maxWc before none none fuel = some r →
    ∃ s, Loop.Leaves (pollBody cq maxWc) .start s ∧ s.totalWc = maxWc ∧
      Completed maxWc before s ∧ s.result before = r

/-! ### The states of the loop -/

variable {cq : CompletionQueue} {maxWc : ℤ} {before : ℤ → ℕ} {s t : Polling}

/-- The entries in front of the total have been filled in. -/
structure Filled (maxWc : ℤ) (s : Polling) : Prop where
  nonneg : 0 ≤ s.totalWc
  le : s.totalWc ≤ maxWc
  entries : ∀ i, 0 ≤ i → i < s.totalWc → (s.wc i).isSome

theorem filled_start (h : 1 ≤ maxWc) : Filled maxWc .start where
  nonneg := le_rfl
  le := by
    show (0 : ℤ) ≤ maxWc
    omega
  entries i hi hlt := by
    have hlt' : i < 0 := hlt
    omega

/-- A poll that has not failed fills in the entries behind the total. -/
theorem filled_next (hs : Filled maxWc s) (hpoll : ∀ code, s.polled cq maxWc ≠ .failed code) :
    Filled maxWc (s.next (s.polled cq maxWc)) := by
  cases hp : s.polled cq maxWc with
  | failed code => exact absurd hp (hpoll code)
  | filled statuses =>
    have hle := hs.le
    have hnonneg := hs.nonneg
    have hwithin := cq.within _ _ _ (by omega) hp
    have htotal : (s.next (.filled statuses)).totalWc = s.totalWc + statuses.length := rfl
    refine ⟨by omega, by omega, fun i hi hlt => ?_⟩
    rw [htotal] at hlt
    simp only [Polling.next]
    split
    · next hin =>
      rw [List.getElem?_eq_getElem (by omega)]
      rfl
    · next hout => exact hs.entries i hi (by omega)

theorem next_of_round (h : pollBody cq maxWc s = .inl t) :
    t = s.next (s.polled cq maxWc) ∧ t.totalWc < maxWc := by
  unfold pollBody at h
  simp only at h
  split at h
  · next hlt =>
    obtain rfl := Sum.inl.inj h
    exact ⟨rfl, hlt⟩
  · cases h

theorem next_of_leave (h : pollBody cq maxWc s = .inr t) :
    t = s.next (s.polled cq maxWc) ∧ maxWc ≤ t.totalWc := by
  unfold pollBody at h
  simp only at h
  split at h
  · cases h
  · next hge =>
    obtain rfl := Sum.inr.inj h
    exact ⟨rfl, by omega⟩

theorem filled_reached (h1 : 1 ≤ maxWc)
    (hpolls : ∀ s, Loop.Reaches (pollBody cq maxWc) .start s →
      ∀ code, s.polled cq maxWc ≠ .failed code)
    (h : Loop.Reaches (pollBody cq maxWc) .start s) : Filled maxWc s := by
  induction h with
  | refl => exact filled_start h1
  | tail hreach hround ih =>
    obtain ⟨rfl, -⟩ := next_of_round hround
    exact filled_next ih (hpolls _ hreach)

/-! ### The result -/

theorem getElem_statuses (i : ℕ) (hi : i < (s.statuses before).length) :
    (s.statuses before)[i] = (s.wc i).getD (before i) := by
  simp only [Polling.statuses, List.getElem_map, List.getElem_range]

theorem length_statuses : (s.statuses before).length = s.totalWc.toNat := by
  simp only [Polling.statuses, List.length_map, List.length_range]

theorem completed_of_filled (hs : Filled maxWc s) (hmax : s.totalWc = maxWc) :
    Completed maxWc before s := by
  have hfilled : ∀ i, 0 ≤ i → i < maxWc → (s.wc i).isSome :=
    fun i hi hlt => hs.entries i hi (hmax ▸ hlt)
  have hstatus : ∀ (i : ℕ) (hi : i < (s.statuses before).length),
      s.wc i = some (s.statuses before)[i] := by
    intro i hi
    have hlen := hi
    rw [length_statuses] at hlen
    obtain ⟨status, hsome⟩ := Option.isSome_iff_exists.mp (hfilled i (by omega) (by omega))
    rw [getElem_statuses, hsome, Option.getD_some]
  have hindex : ∀ i, 0 ≤ i → i < maxWc → ∃ k : ℕ, k < (s.statuses before).length ∧ (k : ℤ) = i := by
    intro i hi hlt
    refine ⟨i.toNat, ?_, by omega⟩
    rw [length_statuses]
    omega
  refine ⟨hfilled, ?_⟩
  cases hfind : (s.statuses before).find? (· ≠ 0) with
  | none =>
    refine .inl ⟨by rw [Polling.result, hfind]; exact hmax, fun i hi hlt => ?_⟩
    obtain ⟨k, hk, rfl⟩ := hindex i hi hlt
    have hzero := List.find?_eq_none.mp hfind _ (List.getElem_mem hk)
    rw [hstatus k hk]
    exact congrArg some (by simpa using hzero)
  | some status =>
    obtain ⟨hne, k, hk, hat, hearlier⟩ := List.find?_eq_some_iff_getElem.mp hfind
    have hlen := hk
    rw [length_statuses] at hlen
    refine .inr ⟨k, status, by omega, by omega, by rw [hstatus k hk, hat], by simpa using hne,
      fun j hj hlt => ?_, by rw [Polling.result, hfind]⟩
    obtain ⟨j', hj', rfl⟩ := hindex j hj (by omega)
    rw [hstatus j' hj']
    exact congrArg some (by simpa using hearlier j' (by omega))

theorem result_of_process {fuel : ℕ} {r : ℤ}
    (h : processWorkCompletionEvents cq maxWc before none none fuel = some r) :
    ∃ s, Loop.Leaves (pollBody cq maxWc) .start s ∧ s.result before = r := by
  obtain ⟨s, hrun, hr⟩ := Option.map_eq_some_iff.mp h
  exact ⟨s, ⟨fuel, hrun⟩, hr⟩

/-- The loop does what it has to do just when none of its polls fails. -/
theorem polls_all_iff (cq : CompletionQueue) (maxWc : ℤ) (before : ℤ → ℕ) (h1 : 1 ≤ maxWc) :
    PollsAll cq maxWc before ↔ ∀ s, Loop.Reaches (pollBody cq maxWc) .start s →
      ∀ code, s.polled cq maxWc ≠ .failed code := by
  constructor
  · intro h s hs code hp
    -- the total falls, so that another round is made
    obtain ⟨t, hleave, -⟩ := h.fails s hs code hp
    obtain ⟨rfl, hge⟩ := next_of_leave hleave
    have htotal := (h.total s hs).2
    have hnext : (s.next (s.polled cq maxWc)).totalWc = s.totalWc - (code + 1) := by
      rw [hp]
      show s.totalWc + -((code : ℤ) + 1) = s.totalWc - (code + 1)
      omega
    omega
  · intro hpolls
    have hfilled : ∀ s, Loop.Reaches (pollBody cq maxWc) .start s → Filled maxWc s :=
      fun s hs => filled_reached h1 hpolls hs
    refine ⟨fun s hs i hi hlt => ?_, fun s hs => ⟨(hfilled s hs).nonneg, (hfilled s hs).le⟩,
      fun s hs code hp => absurd hp (hpolls s hs code), fun fuel r hr => ?_⟩
    · have hnonneg := (hfilled s hs).nonneg
      omega
    · obtain ⟨s, hleaves, hresult⟩ := result_of_process hr
      obtain ⟨u, hreach, hleave⟩ := hleaves.reaches
      obtain ⟨rfl, hge⟩ := next_of_leave hleave
      have hnext := filled_next (hfilled u hreach) (hpolls u hreach)
      have hmax := le_antisymm hnext.le hge
      exact ⟨_, hleaves, hmax, completed_of_filled hnext hmax, hresult⟩

/-- A queue that gives as many successful completions as it is asked for, after some polls
that fail. -/
def afterFailures (n : ℕ) : CompletionQueue where
  poll k asked := if k < n then .failed 0 else .filled (List.replicate asked.toNat 0)
  within k asked statuses hasked h := by
    split at h
    · cases h
    · obtain rfl := Polled.filled.inj h
      rw [List.length_replicate]
      omega

theorem polls_all_iff_filled : PollsAll (afterFailures 0) 2 fun _ => 0 :=
  (polls_all_iff (afterFailures 0) 2 (fun _ => 0) (by decide)).mpr
    fun _ _ _ h => by cases h

/-- The first poll fails, and the second one fills in the entry in front of the array. -/
theorem failed_poll_goes_on :
    ¬∀ (cq : CompletionQueue) (maxWc : ℤ) (before : ℤ → ℕ), 1 ≤ maxWc →
      PollsAll cq maxWc before := by
  intro hclaim
  have hall := hclaim (afterFailures 1) 1 (fun _ => 0) (by decide)
  have hround : pollBody (afterFailures 1) 1 .start = .inl ⟨1, -1, fun _ => none⟩ := rfl
  have hasked := hall.asked _ (.single hround) (-1) (by decide) (by decide)
  exact absurd hasked.1 (by decide)

end MVVM.Streams
