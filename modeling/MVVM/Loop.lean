import Mathlib.Data.Nat.Notation
import Mathlib.Logic.Relation

/-!
# Loops

A loop is a function that takes a state to the next one or leaves with a result. The
number of rounds is bounded from outside, `none` says that the bound was too small. The
file names nothing of a particular program.
-/

namespace MVVM.Loop

variable {σ ρ : Type*}

/-- At most so many rounds of a loop. -/
def run (body : σ → σ ⊕ ρ) : ℕ → σ → Option ρ
  | 0, _ => none
  | fuel + 1, s =>
    match body s with
    | .inl t => run body fuel t
    | .inr r => some r

variable {body : σ → σ ⊕ ρ}

theorem run_next {s t : σ} (h : body s = .inl t) (fuel : ℕ) :
    run body (fuel + 1) s = run body fuel t := by
  rw [run, h]

theorem run_leave {s : σ} {r : ρ} (h : body s = .inr r) (fuel : ℕ) :
    run body (fuel + 1) s = some r := by
  rw [run, h]

theorem run_mono {fuel more : ℕ} {s : σ} {r : ρ} (h : run body fuel s = some r)
    (hle : fuel ≤ more) : run body more s = some r := by
  induction fuel generalizing s more with
  | zero => cases h
  | succ fuel ih =>
    obtain ⟨more, rfl⟩ : ∃ k, more = k + 1 := ⟨more - 1, by omega⟩
    cases hb : body s with
    | inl t =>
      rw [run_next hb] at h ⊢
      exact ih h (by omega)
    | inr q =>
      rw [run_leave hb] at h ⊢
      exact h

theorem run_unique {fuel more : ℕ} {s : σ} {r q : ρ} (h : run body fuel s = some r)
    (k : run body more s = some q) : r = q := by
  have h' := run_mono h (Nat.le_max_left fuel more)
  have k' := run_mono k (Nat.le_max_right fuel more)
  exact Option.some.inj (h'.symm.trans k')

theorem run_of_variant (I : σ → Prop) (m : σ → ℕ) (Q : ρ → Prop)
    (hbody : ∀ s, I s → (∃ t, body s = .inl t ∧ I t ∧ m t < m s) ∨ ∃ r, body s = .inr r ∧ Q r)
    {s : σ} {fuel : ℕ} (hs : I s) (hm : m s < fuel) : ∃ r, run body fuel s = some r ∧ Q r := by
  induction fuel generalizing s with
  | zero => omega
  | succ fuel ih =>
    rcases hbody s hs with ⟨t, hb, ht, hlt⟩ | ⟨r, hb, hr⟩
    · rw [run_next hb]
      exact ih ht (by omega)
    · exact ⟨r, run_leave hb fuel, hr⟩

/-! ### Parts of a loop -/

/-- Some rounds lead from one state to another. -/
def Goes (body : σ → σ ⊕ ρ) (s t : σ) : Prop :=
  ∃ k, ∀ fuel, run body (fuel + k) s = run body fuel t

def Leaves (body : σ → σ ⊕ ρ) (s : σ) (r : ρ) : Prop := ∃ fuel, run body fuel s = some r

theorem Goes.refl (s : σ) : Goes body s s := ⟨0, fun _ => rfl⟩

theorem Goes.round {s t : σ} (h : body s = .inl t) : Goes body s t :=
  ⟨1, fun fuel => run_next h fuel⟩

theorem Goes.trans {s t u : σ} (h : Goes body s t) (k : Goes body t u) : Goes body s u := by
  obtain ⟨m, hm⟩ := h
  obtain ⟨n, hn⟩ := k
  refine ⟨n + m, fun fuel => ?_⟩
  rw [← Nat.add_assoc, hm, hn]

theorem Leaves.now {s : σ} {r : ρ} (h : body s = .inr r) : Leaves body s r :=
  ⟨1, run_leave h 0⟩

theorem Goes.leaves {s t : σ} {r : ρ} (h : Goes body s t) (k : Leaves body t r) :
    Leaves body s r := by
  obtain ⟨m, hm⟩ := h
  obtain ⟨fuel, hr⟩ := k
  exact ⟨fuel + m, by rw [hm, hr]⟩

theorem Leaves.unique {s : σ} {r q : ρ} (h : Leaves body s r) (k : Leaves body s q) : r = q := by
  obtain ⟨fuel, hr⟩ := h
  obtain ⟨more, hq⟩ := k
  exact run_unique hr hq

/-! ### Loops that end and loops that do not -/

/-- Rounds that are all made lead from one state to another. -/
def Reaches (body : σ → σ ⊕ ρ) : σ → σ → Prop :=
  Relation.ReflTransGen fun s t => body s = .inl t

theorem Reaches.goes {s t : σ} (h : Reaches body s t) : Goes body s t := by
  induction h with
  | refl => exact Goes.refl s
  | tail _ hround ih => exact ih.trans (Goes.round hround)

theorem Goes.leaves_iff {s t : σ} {r : ρ} (h : Goes body s t) :
    Leaves body s r ↔ Leaves body t r := by
  refine ⟨fun hleaves => ?_, h.leaves⟩
  obtain ⟨m, hm⟩ := h
  obtain ⟨fuel, hr⟩ := hleaves
  exact ⟨fuel, by rw [← hm, run_mono hr (Nat.le_add_right fuel m)]⟩

theorem Leaves.reaches {s : σ} {r : ρ} (h : Leaves body s r) :
    ∃ t, Reaches body s t ∧ body t = .inr r := by
  obtain ⟨fuel, hrun⟩ := h
  induction fuel generalizing s with
  | zero => cases hrun
  | succ fuel ih =>
    cases hbody : body s with
    | inl t =>
      rw [run_next hbody] at hrun
      obtain ⟨u, htu, hu⟩ := ih hrun
      exact ⟨u, htu.head hbody, hu⟩
    | inr q =>
      rw [run_leave hbody] at hrun
      obtain rfl := Option.some.inj hrun
      exact ⟨s, .refl, hbody⟩

theorem Reaches.invariant {I : σ → Prop} (hround : ∀ s t, I s → body s = .inl t → I t) {s t : σ}
    (h : Reaches body s t) (hs : I s) : I t := by
  induction h with
  | refl => exact hs
  | tail _ hbody ih => exact hround _ _ ih hbody

/-- A loop leaves when some rounds from each state take it down a well-founded order, or
make it leave. -/
theorem leaves_of_wellFounded {r : σ → σ → Prop} (hr : WellFounded r) (I : σ → Prop)
    (hrounds : ∀ s, I s → (∃ t, Reaches body s t ∧ I t ∧ r t s) ∨ ∃ q, Leaves body s q) (s : σ)
    (hs : I s) : ∃ q, Leaves body s q := by
  induction s using hr.induction with
  | _ s ih =>
    rcases hrounds s hs with ⟨t, hst, ht, hlt⟩ | hleaves
    · obtain ⟨q, hq⟩ := ih t hlt ht
      exact ⟨q, hst.goes.leaves hq⟩
    · exact hleaves

theorem run_none_of_invariant (I : σ → Prop) (hround : ∀ s, I s → ∃ t, body s = .inl t ∧ I t)
    (fuel : ℕ) {s : σ} (hs : I s) : run body fuel s = none := by
  induction fuel generalizing s with
  | zero => rfl
  | succ fuel ih =>
    obtain ⟨t, hbody, ht⟩ := hround s hs
    rw [run_next hbody]
    exact ih ht

/-- A loop whose rounds depend on a view of the state only, and that comes back to what it
has seen, does not leave. -/
theorem not_leaves_of_return {τ : Type*} {view : σ → τ}
    (hview : ∀ s s' t, view s = view s' → body s = .inl t →
      ∃ t', body s' = .inl t' ∧ view t = view t')
    {a b c : σ} (hab : Reaches body a b) (hbc : body b = .inl c) (hback : view a = view c) (r : ρ) :
    ¬Leaves body a r := by
  intro ⟨fuel, hrun⟩
  have hround : ∀ u, (∃ v, view v = view u ∧ Reaches body v b) →
      ∃ t, body u = .inl t ∧ ∃ v, view v = view t ∧ Reaches body v b := by
    intro u ⟨v, hvu, hvb⟩
    rcases Relation.ReflTransGen.cases_head hvb with rfl | ⟨w, hvw, hwb⟩
    · obtain ⟨t, hbody, hct⟩ := hview v u c hvu hbc
      exact ⟨t, hbody, a, hback.trans hct, hab⟩
    · obtain ⟨t, hbody, hwt⟩ := hview v u w hvu hvw
      exact ⟨t, hbody, w, hwt, hwb⟩
  have hnone := run_none_of_invariant _ hround fuel ⟨a, rfl, hab⟩
  rw [hnone] at hrun
  cases hrun

end MVVM.Loop
