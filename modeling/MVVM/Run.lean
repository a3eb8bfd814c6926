import Mathlib.Data.List.Basic

/-!
# Runs of a labelled step function

A system is a partial function `step : σ → ℓ → Option σ`: the label says who moves
and how, `none` says that the move is not possible in this state. A run is a list of
labels. The file names nothing of a particular program.
-/

namespace MVVM.Run

variable {σ ℓ : Type*}

/-- The state after a list of labels, `none` when one of them was not possible. -/
def exec (step : σ → ℓ → Option σ) : σ → List ℓ → Option σ
  | s, [] => some s
  | s, l :: ls => (step s l).bind fun t => exec step t ls

/-- Each label of the run satisfies `ok` in the state it is taken from. -/
def Along (step : σ → ℓ → Option σ) (ok : σ → ℓ → Prop) : σ → List ℓ → Prop
  | _, [] => True
  | s, l :: ls => ok s l ∧ ∀ t, step s l = some t → Along step ok t ls

/-- All states of the run satisfy `P`. -/
def Throughout (step : σ → ℓ → Option σ) (P : σ → Prop) (s : σ) (ls : List ℓ) : Prop :=
  ∀ before after t, ls = before ++ after → exec step s before = some t → P t

def Reaches (step : σ → ℓ → Option σ) (s t : σ) : Prop := ∃ ls, exec step s ls = some t

variable {step : σ → ℓ → Option σ} {ok : σ → ℓ → Prop}

@[simp] theorem exec_nil (s : σ) : exec step s [] = some s := rfl

@[simp] theorem exec_cons (s : σ) (l : ℓ) (ls : List ℓ) :
    exec step s (l :: ls) = (step s l).bind fun t => exec step t ls := rfl

theorem exec_cons_some {s t : σ} {l : ℓ} {ls : List ℓ}
    (h : exec step s (l :: ls) = some t) :
    ∃ m, step s l = some m ∧ exec step m ls = some t :=
  Option.bind_eq_some_iff.mp h

theorem exec_append (s : σ) (ls ms : List ℓ) :
    exec step s (ls ++ ms) = (exec step s ls).bind fun t => exec step t ms := by
  induction ls generalizing s with
  | nil => rfl
  | cons l ls ih =>
    simp only [List.cons_append, exec_cons]
    cases step s l with
    | none => rfl
    | some m => exact ih m

theorem exec_concat_some {s t : σ} {ls : List ℓ} {l : ℓ} (h : exec step s (ls ++ [l]) = some t) :
    ∃ m, exec step s ls = some m ∧ step m l = some t := by
  rw [exec_append] at h
  obtain ⟨m, hm, hl⟩ := Option.bind_eq_some_iff.mp h
  obtain ⟨u, hu, hut⟩ := exec_cons_some hl
  obtain rfl := Option.some.inj hut
  exact ⟨m, hm, hu⟩

theorem foldlM_eq_exec (s : σ) (ls : List ℓ) : ls.foldlM step s = exec step s ls := by
  induction ls generalizing s with
  | nil => rfl
  | cons l ls ih => exact congrArg (Option.bind (step s l)) (funext ih)

/-! ### Reachability -/

theorem Reaches.refl (s : σ) : Reaches step s s := ⟨[], rfl⟩

theorem Reaches.trans {s t u : σ} (h : Reaches step s t) (k : Reaches step t u) :
    Reaches step s u := by
  obtain ⟨ls, hls⟩ := h
  obtain ⟨ms, hms⟩ := k
  exact ⟨ls ++ ms, by rw [exec_append, hls]; exact hms⟩

theorem Reaches.single {s t : σ} (l : ℓ) (h : step s l = some t) : Reaches step s t :=
  ⟨[l], by simp [h]⟩

theorem Reaches.head {s t u : σ} (l : ℓ) (h : step s l = some t) (k : Reaches step t u) :
    Reaches step s u :=
  (Reaches.single l h).trans k

/-! ### Invariants -/

theorem exec_invariant_along (I : σ → Prop)
    (hstep : ∀ s l t, I s → ok s l → step s l = some t → I t)
    (s t : σ) (ls : List ℓ) (hs : I s) (hok : Along step ok s ls)
    (h : exec step s ls = some t) : I t := by
  induction ls generalizing s with
  | nil =>
    have he : s = t := Option.some.inj h
    exact he ▸ hs
  | cons l ls ih =>
    obtain ⟨m, hm, hrest⟩ := exec_cons_some h
    exact ih m (hstep s l m hs hok.1 hm) (hok.2 m hm) hrest

theorem Along.imp_of_invariant {ok' : σ → ℓ → Prop} (I : σ → Prop)
    (hstep : ∀ s l t, I s → ok s l → step s l = some t → I t)
    (himp : ∀ s l, I s → ok s l → ok' s l) {s : σ} {ls : List ℓ} (hs : I s)
    (hok : Along step ok s ls) : Along step ok' s ls := by
  induction ls generalizing s with
  | nil => trivial
  | cons l ls ih =>
    refine ⟨himp s l hs hok.1, fun m hm => ?_⟩
    exact ih (hstep s l m hs hok.1 hm) (hok.2 m hm)

theorem along_congr {ok' : σ → ℓ → Prop} (h : ∀ s l, ok s l ↔ ok' s l) {s : σ} {ls : List ℓ} :
    Along step ok s ls ↔ Along step ok' s ls := by
  induction ls generalizing s with
  | nil => exact Iff.rfl
  | cons l ls ih =>
    exact and_congr (h s l) (forall_congr' fun t => forall_congr' fun _ => ih)

theorem Along.cons {s t : σ} {l : ℓ} {ls : List ℓ} (hs : ok s l) (hst : step s l = some t)
    (h : Along step ok t ls) : Along step ok s (l :: ls) := by
  refine ⟨hs, fun m hm => ?_⟩
  obtain rfl := Option.some.inj (hst.symm.trans hm)
  exact h

theorem Along.of_forall {s : σ} {ls : List ℓ} (h : ∀ l ∈ ls, ∀ s, ok s l) :
    Along step ok s ls := by
  induction ls generalizing s with
  | nil => trivial
  | cons l ls ih =>
    refine ⟨h l List.mem_cons_self s, fun t _ => ?_⟩
    exact ih fun k hk => h k (List.mem_cons_of_mem l hk)

theorem along_cons_none {s : σ} {l : ℓ} {ls : List ℓ} (h : step s l = none) :
    Along step ok s (l :: ls) ↔ ok s l :=
  and_iff_left fun _ ht => by rw [h] at ht; cases ht

theorem along_cons_some {s t : σ} {l : ℓ} {ls : List ℓ} (h : step s l = some t) :
    Along step ok s (l :: ls) ↔ ok s l ∧ Along step ok t ls := by
  refine and_congr_right fun _ => ⟨fun hall => hall t h, fun hrest m hm => ?_⟩
  exact Option.some.inj (h.symm.trans hm) ▸ hrest

instance Along.decidable [∀ s l, Decidable (ok s l)] :
    ∀ s ls, Decidable (Along step ok s ls)
  | _, [] => isTrue trivial
  | s, l :: ls =>
    match h : step s l with
    | none => decidable_of_iff (ok s l) (along_cons_none h).symm
    | some t =>
      have := Along.decidable t ls
      decidable_of_iff (ok s l ∧ Along step ok t ls) (along_cons_some h).symm

theorem exec_invariant (I : σ → Prop) (hstep : ∀ s l t, I s → step s l = some t → I t)
    (s t : σ) (ls : List ℓ) (hs : I s) (h : exec step s ls = some t) : I t := by
  induction ls generalizing s with
  | nil =>
    have he : s = t := Option.some.inj h
    exact he ▸ hs
  | cons l ls ih =>
    obtain ⟨m, hm, hrest⟩ := exec_cons_some h
    exact ih m (hstep s l m hs hm) hrest

/-- Only the labels say which steps are allowed. -/
theorem exec_invariant_of_labels (ok : ℓ → Prop) (I : σ → Prop)
    (hstep : ∀ s l t, I s → ok l → step s l = some t → I t) {s t : σ} {ls : List ℓ} (hs : I s)
    (hok : ∀ l ∈ ls, ok l) (h : exec step s ls = some t) : I t := by
  have halong : Along step (fun _ l => ok l) s ls := Along.of_forall fun l hl _ => hok l hl
  exact exec_invariant_along I hstep s t ls hs halong h

theorem Reaches.invariant (I : σ → Prop) (hstep : ∀ s l t, I s → step s l = some t → I t)
    {s t : σ} (hs : I s) (h : Reaches step s t) : I t := by
  obtain ⟨ls, hls⟩ := h
  exact exec_invariant I hstep s t ls hs hls

theorem throughout_cons {P : σ → Prop} {s t : σ} {l : ℓ} (h : step s l = some t) (ls : List ℓ) :
    Throughout step P s (l :: ls) ↔ P s ∧ Throughout step P t ls := by
  constructor
  · intro hall
    refine ⟨hall [] (l :: ls) s rfl rfl, fun before after u hsplit hu => ?_⟩
    refine hall (l :: before) after u (congrArg (List.cons l) hsplit) ?_
    rw [exec_cons, h]
    exact hu
  · intro ⟨hs, hall⟩ before after u hsplit hu
    cases before with
    | nil =>
      obtain rfl : s = u := Option.some.inj hu
      exact hs
    | cons k before =>
      obtain ⟨rfl, htail⟩ := List.cons.inj hsplit
      rw [exec_cons, h] at hu
      exact hall before after u htail hu

/-- Where a step keeps `P` just when it satisfies `ok`, a run keeps it just when all its
steps do. -/
theorem throughout_iff_along (I P : σ → Prop) (hinv : ∀ s l t, I s → step s l = some t → I t)
    (hstep : ∀ s l t, I s → P s → step s l = some t → (P t ↔ ok s l)) {s t : σ} {ls : List ℓ}
    (hI : I s) (hP : P s) (h : exec step s ls = some t) :
    Throughout step P s ls ↔ Along step ok s ls := by
  induction ls generalizing s with
  | nil =>
    refine iff_of_true (fun before after u hsplit hu => ?_) trivial
    obtain ⟨rfl, -⟩ := List.append_eq_nil_iff.mp hsplit.symm
    obtain rfl : s = u := Option.some.inj hu
    exact hP
  | cons l ls ih =>
    obtain ⟨u, hu, hrest⟩ := exec_cons_some h
    rw [throughout_cons hu]
    constructor
    · intro ⟨_, hall⟩
      have hPu : P u := hall [] ls u rfl rfl
      exact Along.cons ((hstep s l u hI hP hu).mp hPu) hu
        ((ih (hinv s l u hI hu) hPu hrest).mp hall)
    · intro halong
      have hPu : P u := (hstep s l u hI hP hu).mpr halong.1
      exact ⟨hP, (ih (hinv s l u hI hu) hPu hrest).mpr (halong.2 u hu)⟩

theorem throughout_cons_iff {P : σ → Prop} {s : σ} {l : ℓ} {ls : List ℓ} :
    Throughout step P s (l :: ls) ↔ P s ∧ ∀ t, step s l = some t → Throughout step P t ls := by
  cases h : step s l with
  | none =>
    constructor
    · intro hall
      exact ⟨hall [] (l :: ls) s rfl rfl, fun t ht => by cases ht⟩
    · intro ⟨hs, _⟩ before after u hsplit hu
      cases before with
      | nil =>
        obtain rfl : s = u := Option.some.inj hu
        exact hs
      | cons k before =>
        obtain ⟨rfl, -⟩ := List.cons.inj hsplit
        rw [exec_cons, h] at hu
        cases hu
  | some m =>
    rw [throughout_cons h]
    refine and_congr_right fun _ => ⟨fun hall t ht => ?_, fun hall => hall m rfl⟩
    exact Option.some.inj ht ▸ hall

theorem throughout_nil {P : σ → Prop} {s : σ} : Throughout step P s [] ↔ P s := by
  constructor
  · intro hall
    exact hall [] [] s rfl rfl
  · intro hs before after u hsplit hu
    obtain ⟨rfl, -⟩ := List.append_eq_nil_iff.mp hsplit.symm
    obtain rfl : s = u := Option.some.inj hu
    exact hs

theorem along_append {s : σ} {ls ms : List ℓ} :
    Along step ok s (ls ++ ms) ↔
      Along step ok s ls ∧ ∀ t, exec step s ls = some t → Along step ok t ms := by
  induction ls generalizing s with
  | nil =>
    constructor
    · intro h
      refine ⟨trivial, fun t ht => ?_⟩
      obtain rfl : s = t := Option.some.inj ht
      exact h
    · intro ⟨_, h⟩
      exact h s rfl
  | cons l ls ih =>
    constructor
    · intro ⟨hl, hrest⟩
      refine ⟨⟨hl, fun m hm => (ih.mp (hrest m hm)).1⟩, fun t ht => ?_⟩
      obtain ⟨m, hm, htail⟩ := exec_cons_some ht
      exact (ih.mp (hrest m hm)).2 t htail
    · intro ⟨⟨hl, hls⟩, hms⟩
      refine ⟨hl, fun m hm => ih.mpr ⟨hls m hm, fun t ht => hms t ?_⟩⟩
      rw [exec_cons, hm]
      exact ht

/-- A run that comes back to where it began can be taken again and again. -/
theorem exec_replicate {s : σ} {ls : List ℓ} (h : exec step s ls = some s) (n : ℕ) :
    exec step s (List.replicate n ls).flatten = some s := by
  induction n with
  | zero => rfl
  | succ n ih => rw [List.replicate_succ, List.flatten_cons, exec_append, h, Option.bind_some, ih]

theorem Along.replicate {s : σ} {ls : List ℓ} (h : exec step s ls = some s)
    (hok : Along step ok s ls) (n : ℕ) : Along step ok s (List.replicate n ls).flatten := by
  induction n with
  | zero => trivial
  | succ n ih =>
    rw [List.replicate_succ, List.flatten_cons]
    refine along_append.mpr ⟨hok, fun t ht => ?_⟩
    obtain rfl := Option.some.inj (h.symm.trans ht)
    exact ih

/-- Where from a state with `P` the states after a step have `P` and the step does what
`does` says just when it satisfies `ok`, this holds of whole runs. -/
theorem throughout_and_along_iff {does : σ → ℓ → Prop} (P : σ → Prop)
    (hstep : ∀ s l, P s → ((∀ t, step s l = some t → P t) ∧ does s l ↔ ok s l)) {s : σ}
    {ls : List ℓ} (hP : P s) :
    Throughout step P s ls ∧ Along step does s ls ↔ Along step ok s ls := by
  induction ls generalizing s with
  | nil => exact iff_of_true ⟨throughout_nil.mpr hP, trivial⟩ trivial
  | cons l ls ih =>
    rw [throughout_cons_iff]
    constructor
    · intro ⟨⟨_, hall⟩, hdoes, hrest⟩
      have hnext : ∀ t, step s l = some t → P t := fun t ht => hall t ht [] ls t rfl rfl
      exact ⟨(hstep s l hP).mp ⟨hnext, hdoes⟩,
        fun t ht => (ih (hnext t ht)).mp ⟨hall t ht, hrest t ht⟩⟩
    · intro ⟨hok, hrest⟩
      obtain ⟨hnext, hdoes⟩ := (hstep s l hP).mpr hok
      have hboth := fun t ht => (ih (hnext t ht)).mpr (hrest t ht)
      exact ⟨⟨hP, fun t ht => (hboth t ht).1⟩, hdoes, fun t ht => (hboth t ht).2⟩

/-- The labels satisfy `ok` in the states they are taken from just when they satisfy `ok'`
with what has come before them, where `R` connects a history with a state. -/
theorem along_iff_history {ok' : List ℓ → ℓ → Prop} (R : List ℓ → σ → Prop)
    (hok : ∀ h s l, R h s → (ok s l ↔ ok' h l))
    (hnext : ∀ h s l, R h s → ok s l → ∃ t, step s l = some t ∧ R (h ++ [l]) t)
    {h : List ℓ} {s : σ} {ls : List ℓ} (hs : R h s) :
    Along step ok s ls ↔ ∀ before l after, ls = before ++ l :: after → ok' (h ++ before) l := by
  induction ls generalizing h s with
  | nil =>
    refine iff_of_true trivial fun before l after hsplit => ?_
    exact absurd hsplit (by simp)
  | cons l ls ih =>
    constructor
    · intro ⟨hl, hrest⟩ before k after hsplit
      obtain ⟨t, ht, hR⟩ := hnext h s l hs hl
      cases before with
      | nil =>
        obtain ⟨rfl, -⟩ := List.cons.inj hsplit
        rw [List.append_nil]
        exact (hok h s l hs).mp hl
      | cons j before =>
        obtain ⟨rfl, htail⟩ := List.cons.inj hsplit
        rw [List.append_cons]
        exact (ih hR).mp (hrest t ht) before k after htail
    · intro hall
      have hl : ok s l := (hok h s l hs).mpr (by simpa using hall [] l ls rfl)
      obtain ⟨t, ht, hR⟩ := hnext h s l hs hl
      refine Along.cons hl ht ((ih hR).mpr fun before k after hsplit => ?_)
      rw [← List.append_cons]
      exact hall (l :: before) k after (congrArg (List.cons l) hsplit)

/-- A run comes to its end where each of its labels is possible in a state that `R` connects
with the labels before it. -/
theorem exec_of_history (R : List ℓ → σ → Prop) {ls : List ℓ}
    (hnext : ∀ h s, ∀ l ∈ ls, R h s → ∃ t, step s l = some t ∧ R (h ++ [l]) t)
    {h : List ℓ} {s : σ} (hs : R h s) : ∃ t, exec step s ls = some t ∧ R (h ++ ls) t := by
  induction ls generalizing h s with
  | nil => exact ⟨s, rfl, (List.append_nil h).symm ▸ hs⟩
  | cons l ls ih =>
    obtain ⟨m, hm, hR⟩ := hnext h s l List.mem_cons_self hs
    obtain ⟨t, ht, hRt⟩ := ih (fun h s k hk => hnext h s k (List.mem_cons_of_mem l hk)) hR
    refine ⟨t, ?_, List.append_cons h l ls ▸ hRt⟩
    rw [exec_cons, hm]
    exact ht

/-- A run is no longer than the measure that each of its steps makes smaller. -/
theorem exec_length_le (I : σ → Prop) (m : σ → ℕ)
    (hstep : ∀ s l t, I s → step s l = some t → I t ∧ m t < m s) (s t : σ) (ls : List ℓ)
    (hs : I s) (h : exec step s ls = some t) : ls.length + m t ≤ m s := by
  induction ls generalizing s with
  | nil =>
    obtain rfl : s = t := Option.some.inj h
    simp
  | cons l ls ih =>
    obtain ⟨u, hu, hrest⟩ := exec_cons_some h
    obtain ⟨hinv, hlt⟩ := hstep s l u hs hu
    have := ih u hinv hrest
    rw [List.length_cons]
    omega

/-- Where there is always a step that makes the measure smaller until the goal is reached, the
goal can be reached. -/
theorem exists_run_to {ok : ℓ → Prop} (I goal : σ → Prop) (m : σ → ℕ)
    (hgo : ∀ s, I s → ¬goal s → ∃ l t, ok l ∧ step s l = some t ∧ I t ∧ m t < m s) {s : σ}
    (hs : I s) : ∃ ls t, (∀ l ∈ ls, ok l) ∧ exec step s ls = some t ∧ goal t := by
  induction hm : m s using Nat.strongRecOn generalizing s with
  | ind k ih =>
    by_cases hgoal : goal s
    · exact ⟨[], s, by simp, rfl, hgoal⟩
    · obtain ⟨l, t, hl, ht, hI, hlt⟩ := hgo s hs hgoal
      obtain ⟨ls, u, hls, hu, hgoal⟩ := ih (m t) (hm ▸ hlt) hI rfl
      refine ⟨l :: ls, u, List.forall_mem_cons.mpr ⟨hl, hls⟩, ?_, hgoal⟩
      rw [exec_cons, ht]
      exact hu

end MVVM.Run
