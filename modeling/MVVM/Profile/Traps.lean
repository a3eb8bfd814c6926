import MVVM.Profile.Sampling
import Mathlib.Algebra.BigOperators.Group.Finset.Basic

/-!
# Traps and samples (profile.cpp:34-53)

A handler of SIGTRAP removes all breakpoints, also those that it has not been called for. So a
thread that traps alone leaves the code as it was, and the signals that have set breakpoints say
how often threads can trap.
-/

namespace MVVM.Profile

open MVVM.Patch

variable {ι : Type} [DecidableEq ι]

section

variable {w : Patcher} {c : Code} {s t : Sampler ι} {e : Event ι} {τ : ι}

/-! ### Removing the breakpoints -/

def Stmt.site? : Stmt → Option ℕ
  | .write i _ => some i
  | _ => none

/-- The sites that a handler still writes to. -/
def Handler.sites (h : Handler) : List ℕ := h.todo.filterMap Stmt.site?

/-- The sites that the trap handlers among some handlers still clear. -/
def clearing (hs : List Handler) : List ℕ := hs.flatMap fun h =>
  match h.signal with
  | .sigint => []
  | .sigtrap => h.sites

theorem sites_other {signal : Signal} {stmt : Stmt} {todo : List Stmt} (h : ¬ stmt.IsWrite) :
    (⟨signal, stmt :: todo⟩ : Handler).sites = (⟨signal, todo⟩ : Handler).sites := by
  cases stmt with
  | write i b => exact absurd trivial h
  | _ => rfl

theorem sites_patching (hc : Cleared w c) (haot : w.isAot = true) (b : UInt8) :
    (patching w [(0, b)]).filterMap Stmt.site? = w.int3Addr := by
  have hwrites : (w.int3Addr.map fun o => Stmt.write o b).filterMap Stmt.site? = w.int3Addr := by
    rw [List.filterMap_map]
    exact List.filterMap_some
  rw [patching_one hc haot, List.cons_append, List.filterMap_cons_none rfl, List.filterMap_append,
    hwrites]
  exact List.append_nil _

theorem clearing_cons (h : Handler) (hs : List Handler) :
    clearing (h :: hs) = clearing [h] ++ clearing hs := by
  simp [clearing]

theorem clearing_pop (signal : Signal) (outer : List Handler) :
    clearing (⟨signal, []⟩ :: outer) = clearing outer := by
  cases signal <;> rfl

theorem clearing_write (i : ℕ) (b : UInt8) (todo : List Stmt) (outer : List Handler) :
    clearing (⟨.sigtrap, .write i b :: todo⟩ :: outer) =
      i :: clearing (⟨.sigtrap, todo⟩ :: outer) := rfl

theorem clearing_other {signal : Signal} {stmt : Stmt} {todo : List Stmt} {outer : List Handler}
    (h : ¬ stmt.IsWrite) :
    clearing (⟨signal, stmt :: todo⟩ :: outer) = clearing (⟨signal, todo⟩ :: outer) := by
  rw [clearing_cons, clearing_cons ⟨signal, todo⟩]
  simp only [clearing, List.flatMap_cons, List.flatMap_nil, sites_other h]

theorem clearing_sigtrapHandler (hc : Cleared w c) (hx86 : w.arch = .x86_64)
    (haot : w.isAot = true) (curFrame : List AotFrame) :
    clearing [sigtrapHandler w curFrame] = w.int3Addr := by
  have hall : (sigtrapHandler w curFrame).sites = w.int3Addr := by
    rw [sigtrapHandler, hx86]
    exact sites_patching hc haot 0x90
  rw [← hall]
  exact List.append_nil _

/-- Every site with a breakpoint is still to be cleared by the thread, or satisfies `P`. -/
def Covered (w : Patcher) (τ : ι) (P : ℕ → Prop) (s : Sampler ι) : Prop :=
  ∀ o ∈ w.int3Addr, s.code.bytes[o]? = some 0xcc → o ∈ clearing (s.handlers τ) ∨ P o

/-- A write of the thread's own trap handler, or of another one. -/
theorem Covered.clear {P : ℕ → Prop} (hs : Covered w τ P s) {σ : ι} {i : ℕ} {b : UInt8}
    {todo : List Stmt} {outer : List Handler} {code : Code}
    (htop : s.handlers σ = ⟨.sigtrap, .write i b :: todo⟩ :: outer) (hb : b = 0x90)
    (hcode : s.code.write i b = some code) :
    Covered w τ P
      { s with code, handlers := Function.update s.handlers σ (⟨.sigtrap, todo⟩ :: outer) } := by
  intro o ho harmed
  replace harmed : code.bytes[o]? = some 0xcc := harmed
  rw [getElem?_write hcode] at harmed
  split at harmed
  · rw [hb] at harmed
    exact absurd harmed (by decide)
  · next hne =>
    rcases hs o ho harmed with hin | hP
    · left
      by_cases hσ : τ = σ
      · subst hσ
        rw [htop, clearing_write] at hin
        replace hin := (List.mem_cons.mp hin).resolve_left (Ne.symm hne)
        show o ∈ clearing (Function.update s.handlers τ _ τ)
        rwa [Function.update_self]
      · show o ∈ clearing (Function.update s.handlers σ _ τ)
        rw [Function.update_of_ne hσ]
        exact hin
    · exact .inr hP

/-- The handlers of a thread change, but not what they clear. -/
theorem Covered.same {P : ℕ → Prop} (hs : Covered w τ P s) {σ : ι} {hds : List Handler}
    (hsame : clearing hds = clearing (s.handlers σ)) (hcode : t.code = s.code)
    (hhandlers : t.handlers = Function.update s.handlers σ hds) : Covered w τ P t := by
  intro o ho harmed
  rw [hcode] at harmed
  refine (hs o ho harmed).imp_left fun hin => ?_
  rw [hhandlers]
  by_cases hσ : τ = σ
  · subst hσ
    rwa [Function.update_self, hsame]
  · rwa [Function.update_of_ne hσ]

/-- The handler that a thread enters does not change the code. -/
theorem Covered.enter {P : ℕ → Prop} (hs : Covered w τ P s) (σ : ι) (h : Handler) :
    Covered w τ P (s.enter σ h) := by
  intro o ho harmed
  refine (hs o ho harmed).imp_left fun hin => ?_
  show o ∈ clearing (Function.update s.handlers σ _ τ)
  by_cases hσ : τ = σ
  · subst hσ
    rw [Function.update_self, clearing_cons]
    exact List.mem_append_right _ hin
  · rw [Function.update_of_ne hσ]
    exact hin

/-- The trap handler of the thread clears all sites. -/
theorem covered_trap (hc : Cleared w c) (hx86 : w.arch = .x86_64) (haot : w.isAot = true)
    (P : ℕ → Prop) (s : Sampler ι) (τ : ι) (curFrame : List AotFrame) :
    Covered w τ P (s.enter τ (sigtrapHandler w curFrame)) := by
  intro o ho _
  left
  show o ∈ clearing (Function.update s.handlers τ _ τ)
  rw [Function.update_self, clearing_cons, clearing_sigtrapHandler hc hx86 haot]
  exact List.mem_append_left _ ho

/-- No thread is in the handler of SIGINT, and what is armed is still to be cleared by `τ`. -/
structure Calm (w : Patcher) (c : Code) (τ : ι) (s : Sampler ι) : Prop where
  patched : Patched w c s
  noSigint : ∀ σ, ∀ h ∈ s.handlers σ, h.signal ≠ .sigint
  covered : Covered w τ (fun _ => False) s

theorem calm_step (hc : Cleared w c) (hx86 : w.arch = .x86_64) (s : Sampler ι) (e : Event ι)
    (t : Sampler ι) (hs : Calm w c τ s) (he : ∀ σ, e ≠ .sigint σ)
    (h : sampleStep w s e = some t) : Calm w c τ t := by
  have hpatched := patched_step hc hx86 s e t hs.patched h
  cases effect_of_step h with
  | sigint σ => exact absurd rfl (he σ)
  | sigtrap σ o curFrame =>
    exact ⟨hpatched, forall_enter hs.noSigint Signal.noConfusion σ, hs.covered.enter σ _⟩
  | fetch σ => exact ⟨hpatched, hs.noSigint, hs.covered⟩
  | killed σ => exact ⟨hpatched, hs.noSigint, hs.covered⟩
  | write σ signal i b todo outer code htop hpages hcode =>
    have hall := hs.noSigint σ
    rw [htop] at hall
    have hsignal : signal = .sigtrap := by
      cases signal with
      | sigint => exact absurd rfl (hall _ List.mem_cons_self)
      | sigtrap => rfl
    subst hsignal
    have hwrites := hs.patched.handlers σ
    rw [htop] at hwrites
    obtain ⟨-, hb⟩ := hwrites _ List.mem_cons_self i b List.mem_cons_self
    exact ⟨hpatched, forall_update_tail hs.noSigint htop fun _ => by simp,
      hs.covered.clear htop hb hcode⟩
  | other σ signal stmt todo outer u htop hother hlives hcode hu =>
    refine ⟨hpatched, forall_update_tail hs.noSigint htop fun hsignal => hsignal,
      hs.covered.same ?_ hcode rfl⟩
    rw [htop, clearing_other hother]
  | ret σ signal outer htop =>
    refine ⟨hpatched, forall_update_outer hs.noSigint htop, hs.covered.same ?_ rfl rfl⟩
    rw [htop, clearing_pop]

/-- Where no SIGINT is around, a thread that comes back from its trap handler finds the code as
it was, whatever other threads trap meanwhile. -/
theorem calm_trap_restores (w : Patcher) (c : Code) (hx86 : w.arch = .x86_64)
    (haot : w.isAot = true) (hc : Cleared w c) (before after : List (Event ι)) (s t : Sampler ι)
    (τ : ι) (o : ℕ) (curFrame : List AotFrame)
    (hs : Run.exec (sampleStep w) (.start c) before = some s)
    (hcalm : ∀ σ, ∀ h ∈ s.handlers σ, h.signal ≠ .sigint)
    (h : Run.exec (sampleStep w) s (.sigtrap τ o curFrame :: after) = some t)
    (hafter : ∀ e ∈ after, ∀ σ, e ≠ .sigint σ) (hdone : t.handlers τ = []) : t.code = c := by
  have hpatched : Patched w c s :=
    Run.exec_invariant (Patched w c) (patched_step hc hx86) _ s before (patched_start w c) hs
  obtain ⟨u, hu, hrest⟩ := Run.exec_cons_some h
  have hucalm : Calm w c τ u := by
    refine ⟨patched_step hc hx86 s _ u hpatched hu, ?_, ?_⟩
    · rw [sigtrap_some hu]
      exact forall_enter hcalm Signal.noConfusion τ
    · rw [sigtrap_some hu]
      exact covered_trap hc hx86 haot _ s τ curFrame
  have ht : Calm w c τ t :=
    Run.exec_invariant_along (Calm w c τ) (calm_step hc hx86) u t after hucalm
      (Run.Along.of_forall fun e he _ => hafter e he) hrest
  refine code_ext fun i => ?_
  rcases ht.patched.byte i with hbyte | ⟨hi, harmed⟩
  · exact hbyte
  · rcases ht.covered i hi harmed with hin | hfalse
    · rw [hdone] at hin
      exact absurd hin List.not_mem_nil
    · exact hfalse.elim

end

def armBoth : List (Event (Fin 2)) := .sigint worker :: List.replicate 5 (.run worker)

/-- Both sites are set before the guest runs on. -/
def bothArmed : Sampler (Fin 2) :=
  (Run.exec (sampleStep twoSites) (.start twoNops) armBoth).getD (.start twoNops)

def disarmBoth : List (Event (Fin 2)) := List.replicate 7 (.run mainThread)

theorem bothArmed_restores : ∃ t, Run.exec (sampleStep twoSites) bothArmed
    (.sigtrap mainThread 3 [⟨7, 40⟩] :: disarmBoth) = some t ∧ t.code = twoNops := by
  obtain ⟨t, ht⟩ : ∃ t, Run.exec (sampleStep twoSites) bothArmed
      (.sigtrap mainThread 3 [⟨7, 40⟩] :: disarmBoth) = some t :=
    Option.isSome_iff_exists.mp (by decide)
  have hbefore : Run.exec (sampleStep twoSites) (.start twoNops) armBoth = some bothArmed := by
    have hsome : (Run.exec (sampleStep twoSites) (.start twoNops) armBoth).isSome := by decide
    obtain ⟨s, hs⟩ := Option.isSome_iff_exists.mp hsome
    rw [bothArmed, hs, Option.getD_some]
  have hdone : (Run.exec (sampleStep twoSites) bothArmed
      (.sigtrap mainThread 3 [⟨7, 40⟩] :: disarmBoth)).map (fun t => t.handlers mainThread) =
      some [] := by decide
  rw [ht] at hdone
  refine ⟨t, ht, calm_trap_restores twoSites twoNops rfl rfl (by decide) armBoth disarmBoth
    bothArmed t mainThread 3 [⟨7, 40⟩] hbefore (by decide) ht ?_ (Option.some.inj hdone)⟩
  intro e he σ
  rw [List.eq_of_mem_replicate (n := 7) (a := Event.run mainThread) he]
  simp

/-! ### Samples and signals -/

def isTrap (τ : ι) : Event ι → Bool
  | .sigtrap σ _ _ => decide (σ = τ)
  | _ => false

def isSigint (τ : ι) : Event ι → Bool
  | .sigint σ => decide (σ = τ)
  | _ => false

def isOtherSigint (τ : ι) : Event ι → Bool
  | .sigint σ => decide (σ ≠ τ)
  | _ => false

/-- The breakpoints that the SIGINT handlers among some handlers still set. -/
def arming (hs : List Handler) : ℕ := (hs.map fun h =>
  match h.signal with
  | .sigint => h.sites.length
  | .sigtrap => 0).sum

theorem arming_cons (h : Handler) (hs : List Handler) :
    arming (h :: hs) = arming [h] + arming hs := by
  simp [arming]

theorem arming_sigtrap (todo : List Stmt) (hs : List Handler) :
    arming (⟨.sigtrap, todo⟩ :: hs) = arming hs := by
  simp [arming]

theorem arming_pop (signal : Signal) (outer : List Handler) :
    arming (⟨signal, []⟩ :: outer) = arming outer := by
  cases signal <;> simp [arming, Handler.sites]

theorem arming_write (i : ℕ) (b : UInt8) (todo : List Stmt) (outer : List Handler) :
    arming (⟨.sigint, .write i b :: todo⟩ :: outer) = arming (⟨.sigint, todo⟩ :: outer) + 1 := by
  have hsites : (⟨.sigint, .write i b :: todo⟩ : Handler).sites =
      i :: (⟨.sigint, todo⟩ : Handler).sites := rfl
  simp only [arming, List.map_cons, List.sum_cons, hsites, List.length_cons]
  omega

theorem arming_other {signal : Signal} {stmt : Stmt} {todo : List Stmt} {outer : List Handler}
    (h : ¬ stmt.IsWrite) :
    arming (⟨signal, stmt :: todo⟩ :: outer) = arming (⟨signal, todo⟩ :: outer) := by
  simp only [arming, List.map_cons, sites_other h]

def Stmt.isEmplace : Stmt → Bool
  | .emplace _ => true
  | _ => false

/-- The samples that some handlers have still to record. -/
def emplacing (hs : List Handler) : ℕ := (hs.map fun h => h.todo.countP Stmt.isEmplace).sum

theorem emplacing_cons (h : Handler) (hs : List Handler) :
    emplacing (h :: hs) = h.todo.countP Stmt.isEmplace + emplacing hs := by
  simp [emplacing]

theorem emplacing_patching (w : Patcher) (instr : List (ℕ × UInt8)) :
    (patching w instr).countP Stmt.isEmplace = 0 := by
  rw [List.countP_eq_zero]
  intro stmt hstmt
  unfold patching at hstmt
  split at hstmt
  · simp only [List.cons_append, List.mem_cons, List.mem_append, List.mem_map, List.not_mem_nil,
      or_false] at hstmt
    rcases hstmt with rfl | ⟨b, -, rfl⟩ | rfl
    · exact Bool.false_ne_true
    · exact Bool.false_ne_true
    · exact Bool.false_ne_true
  · exact absurd hstmt List.not_mem_nil

section

variable [Fintype ι] {w : Patcher} {c : Code} {s t : Sampler ι} {e : Event ι} {τ σ : ι}

omit [Fintype ι] in
/-- The handlers of one thread change. -/
theorem sum_update {A : Finset ι} (hσ : σ ∈ A) (g : List Handler → ℕ) (f : ι → List Handler)
    (hs : List Handler) :
    ∑ ρ ∈ A, g (Function.update f σ hs ρ) + g (f σ) = ∑ ρ ∈ A, g (f ρ) + g hs := by
  have hrest : ∑ ρ ∈ A.erase σ, g (Function.update f σ hs ρ) = ∑ ρ ∈ A.erase σ, g (f ρ) := by
    refine Finset.sum_congr rfl fun ρ hρ => ?_
    rw [Function.update_of_ne (Finset.ne_of_mem_erase hρ)]
  have hnew := Finset.add_sum_erase _ (fun ρ => g (Function.update f σ hs ρ)) hσ
  have hold := Finset.add_sum_erase _ (fun ρ => g (f ρ)) hσ
  rw [Function.update_self] at hnew
  omega

/-- What the SIGINT handlers of the other threads still set. -/
def armingOthers (τ : ι) (f : ι → List Handler) : ℕ := ∑ σ ∈ Finset.univ.erase τ, arming (f σ)

theorem armingOthers_own (f : ι → List Handler) (hs : List Handler) :
    armingOthers τ (Function.update f τ hs) = armingOthers τ f := by
  refine Finset.sum_congr rfl fun σ hσ => ?_
  rw [Function.update_of_ne (Finset.ne_of_mem_erase hσ)]

theorem armingOthers_other (hσ : σ ≠ τ) (f : ι → List Handler) (hs : List Handler) :
    armingOthers τ (Function.update f σ hs) + arming (f σ) = armingOthers τ f + arming hs :=
  sum_update (Finset.mem_erase.mpr ⟨hσ, Finset.mem_univ σ⟩) arming f hs

theorem armingOthers_same (f : ι → List Handler) {hs : List Handler}
    (h : arming hs = arming (f σ)) :
    armingOthers τ (Function.update f σ hs) = armingOthers τ f := by
  by_cases hσ : σ = τ
  · subst hσ
    exact armingOthers_own f hs
  · have hother := armingOthers_other hσ f hs
    omega

/-- A breakpoint is still to be cleared by the thread, was set by another one, or was set after
the last trap of the thread by a SIGINT handler of its own. -/
structure Funded (w : Patcher) (τ : ι) (others : Finset ℕ) (own : Bool) (s : Sampler ι) : Prop where
  covered : Covered w τ (fun o => o ∈ others ∨ own = true) s
  own : ∀ h ∈ s.handlers τ, h.signal = .sigint → own = true

def credit (τ : ι) (others : Finset ℕ) (own : Bool) (s : Sampler ι) : ℕ :=
  others.card + own.toNat + armingOthers τ s.handlers

/-- What a signal pays for. -/
def gain (w : Patcher) (τ : ι) (e : Event ι) : ℕ :=
  (isSigint τ e).toNat + w.int3Addr.length * (isOtherSigint τ e).toNat

omit [Fintype ι] in
theorem own_update {f : ι → List Handler} {hs : List Handler} {own : Bool}
    (hf : ∀ h ∈ f τ, h.signal = .sigint → own = true)
    (hhs : σ = τ → ∀ h ∈ hs, h.signal = .sigint → own = true) :
    ∀ h ∈ Function.update f σ hs τ, h.signal = .sigint → own = true := by
  by_cases hσ : σ = τ
  · have hhs := hhs hσ
    subst hσ
    rwa [Function.update_self]
  · rwa [Function.update_of_ne (Ne.symm hσ)]

omit [Fintype ι] in
/-- The innermost handler of a thread has executed a statement. -/
theorem own_update_tail {own : Bool} (hs : ∀ h ∈ s.handlers τ, h.signal = .sigint → own = true)
    {signal : Signal} {stmt : Stmt} {todo : List Stmt} {outer : List Handler}
    (htop : s.handlers σ = ⟨signal, stmt :: todo⟩ :: outer) :
    ∀ h ∈ Function.update s.handlers σ (⟨signal, todo⟩ :: outer) τ,
      h.signal = .sigint → own = true := by
  refine own_update hs ?_
  rintro rfl h hh hsignal
  rcases List.mem_cons.mp hh with rfl | hh
  · exact hs ⟨signal, stmt :: todo⟩ (htop ▸ List.mem_cons_self) hsignal
  · exact hs h (htop ▸ List.mem_cons_of_mem _ hh) hsignal

theorem credit_sigint (hc : Cleared w c) (hx86 : w.arch = .x86_64) (haot : w.isAot = true)
    {others : Finset ℕ} {own : Bool} (hs : Funded w τ others own s) (σ : ι) :
    ∃ own', Funded w τ others own' (s.enter σ (sigintHandler w)) ∧
      credit τ others own' (s.enter σ (sigintHandler w)) ≤
        credit τ others own s + gain w τ (.sigint σ) := by
  by_cases hσ : σ = τ
  · subst hσ
    refine ⟨true, ⟨fun _ _ _ => .inr (.inr rfl), fun _ _ _ => rfl⟩, ?_⟩
    have hsame : armingOthers σ (s.enter σ (sigintHandler w)).handlers =
      armingOthers σ s.handlers := armingOthers_own _ _
    simp [credit, gain, isSigint, isOtherSigint, hsame]
    omega
  · have hsites : (sigintHandler w).sites = w.int3Addr := by
      rw [sigintHandler, hx86]
      exact sites_patching hc haot 0xcc
    have hlength : arming (sigintHandler w :: s.handlers σ) =
        w.int3Addr.length + arming (s.handlers σ) := by
      rw [arming_cons, ← hsites]
      rfl
    have hother := armingOthers_other hσ s.handlers (sigintHandler w :: s.handlers σ)
    refine ⟨own, ⟨hs.covered.enter σ _, own_update hs.own fun h => absurd h hσ⟩, ?_⟩
    simp [credit, gain, isSigint, isOtherSigint, hσ, Sampler.enter]
    omega

theorem credit_sigtrap (hc : Cleared w c) (hx86 : w.arch = .x86_64) (haot : w.isAot = true)
    {others : Finset ℕ} {own : Bool} (hs : Funded w τ others own s) {o : ℕ}
    (curFrame : List AotFrame) (hfree : s.handlers σ = []) (ho : o ∈ w.int3Addr)
    (harmed : s.code.read o = some 0xcc) :
    ∃ others' own', Funded w τ others' own' (s.enter σ (sigtrapHandler w curFrame)) ∧
      (decide (σ = τ)).toNat + credit τ others' own' (s.enter σ (sigtrapHandler w curFrame)) ≤
        credit τ others own s := by
  have hsame : armingOthers τ (s.enter σ (sigtrapHandler w curFrame)).handlers =
      armingOthers τ s.handlers := armingOthers_same _ (arming_sigtrap _ _)
  by_cases hσ : σ = τ
  · subst hσ
    refine ⟨∅, false, ⟨covered_trap hc hx86 haot _ s σ curFrame, ?_⟩, ?_⟩
    · refine own_update (fun h hh => ?_) fun _ h hh hsignal => ?_
      · rw [hfree] at hh
        exact absurd hh List.not_mem_nil
      · rw [hfree] at hh
        rw [List.mem_singleton.mp hh] at hsignal
        cases hsignal
    · -- the breakpoint that the thread has run into is paid for
      have hpaid : 1 ≤ others.card + own.toNat := by
        rcases hs.covered o ho harmed with hin | hin | rfl
        · rw [hfree] at hin
          exact absurd hin List.not_mem_nil
        · have := Finset.card_pos.mpr ⟨o, hin⟩
          omega
        · simp
      simp [credit, hsame]
      omega
  · refine ⟨others, own, ⟨hs.covered.enter σ _, own_update hs.own fun h => absurd h hσ⟩, ?_⟩
    simp [credit, hsame, hσ]

theorem credit_write (hpatched : Patched w c s) {others : Finset ℕ} {own : Bool}
    (hs : Funded w τ others own s) {signal : Signal} {i : ℕ} {b : UInt8}
    {todo : List Stmt} {outer : List Handler} {code : Code}
    (htop : s.handlers σ = ⟨signal, .write i b :: todo⟩ :: outer)
    (hcode : s.code.write i b = some code)
    (ht : t = { s with
      code, handlers := Function.update s.handlers σ (⟨signal, todo⟩ :: outer) }) :
    ∃ others', Funded w τ others' own t ∧ credit τ others' own t ≤ credit τ others own s := by
  have hown : ∀ h ∈ t.handlers τ, h.signal = .sigint → own = true := by
    rw [ht]
    exact own_update_tail hs.own htop
  cases signal with
  | sigtrap =>
    have hwrites := hpatched.handlers σ
    rw [htop] at hwrites
    obtain ⟨-, hb⟩ := hwrites _ List.mem_cons_self i b List.mem_cons_self
    have hsame : armingOthers τ t.handlers = armingOthers τ s.handlers := by
      rw [ht]
      refine armingOthers_same _ ?_
      rw [htop, arming_sigtrap, arming_sigtrap]
    refine ⟨others, ⟨ht ▸ hs.covered.clear htop hb hcode, hown⟩, ?_⟩
    rw [credit, credit, hsame]
  | sigint =>
    by_cases hσ : σ = τ
    · subst hσ
      have htrue : own = true := hs.own _ (htop ▸ List.mem_cons_self) rfl
      have hsame : armingOthers σ t.handlers = armingOthers σ s.handlers := by
        rw [ht]
        exact armingOthers_own _ _
      refine ⟨others, ⟨fun _ _ _ => .inr (.inr htrue), hown⟩, ?_⟩
      rw [credit, credit, hsame]
    · refine ⟨insert i others, ⟨fun o ho harmed => ?_, hown⟩, ?_⟩
      · by_cases hio : i = o
        · exact .inr (.inl (hio ▸ Finset.mem_insert_self i others))
        · rw [ht] at harmed ⊢
          replace harmed : code.bytes[o]? = some 0xcc := harmed
          rw [getElem?_write hcode, if_neg hio] at harmed
          rcases hs.covered o ho harmed with hin | hin | htrue
          · left
            show o ∈ clearing (Function.update s.handlers σ _ τ)
            rwa [Function.update_of_ne (Ne.symm hσ)]
          · exact .inr (.inl (Finset.mem_insert_of_mem hin))
          · exact .inr (.inr htrue)
      · have hother := armingOthers_other hσ s.handlers (⟨.sigint, todo⟩ :: outer)
        have hless : arming (s.handlers σ) = arming (⟨.sigint, todo⟩ :: outer) + 1 := by
          rw [htop, arming_write]
        have hcard := Finset.card_insert_le i others
        rw [credit, credit, ht]
        show (insert i others).card + own.toNat +
          armingOthers τ (Function.update s.handlers σ _) ≤ _
        omega

/-- The handlers of a thread change, but not what they write. -/
theorem credit_same {others : Finset ℕ} {own : Bool} (hs : Funded w τ others own s)
    {hds : List Handler} (hclearing : clearing hds = clearing (s.handlers σ))
    (harming : arming hds = arming (s.handlers σ)) (hcode : t.code = s.code)
    (hhandlers : t.handlers = Function.update s.handlers σ hds)
    (hown : ∀ h ∈ t.handlers τ, h.signal = .sigint → own = true) :
    Funded w τ others own t ∧ credit τ others own t = credit τ others own s := by
  refine ⟨⟨hs.covered.same hclearing hcode hhandlers, hown⟩, ?_⟩
  rw [credit, credit, hhandlers, armingOthers_same _ harming]

/-- A signal raises the credit by what it pays for, and a trap of the thread takes one. -/
theorem credit_step (hc : Cleared w c) (hx86 : w.arch = .x86_64) (haot : w.isAot = true)
    (hpatched : Patched w c s) {others : Finset ℕ} {own : Bool} (hs : Funded w τ others own s)
    (h : sampleStep w s e = some t) :
    ∃ others' own', Funded w τ others' own' t ∧
      (isTrap τ e).toNat + credit τ others' own' t ≤ credit τ others own s + gain w τ e := by
  cases effect_of_step h with
  | sigint σ =>
    obtain ⟨own', hfunded, hle⟩ := credit_sigint hc hx86 haot hs σ
    exact ⟨others, own', hfunded, by simpa [isTrap] using hle⟩
  | sigtrap σ o curFrame hfree hpages ho harmed =>
    obtain ⟨others', own', hfunded, hle⟩ := credit_sigtrap hc hx86 haot hs curFrame hfree ho harmed
    exact ⟨others', own', hfunded, Nat.le_add_right_of_le hle⟩
  | fetch σ =>
    exact ⟨others, own, ⟨hs.covered, hs.own⟩, by simp [isTrap, credit]⟩
  | killed σ =>
    exact ⟨others, own, ⟨hs.covered, hs.own⟩, by simp [isTrap, credit]⟩
  | write σ signal i b todo outer code htop hpages hcode =>
    obtain ⟨others', hfunded, hle⟩ := credit_write hpatched hs htop hcode rfl
    exact ⟨others', own, hfunded, by simpa [isTrap] using Nat.le_add_right_of_le hle⟩
  | other σ signal stmt todo outer u htop hother hlives hcode hu =>
    obtain ⟨hfunded, heq⟩ := credit_same (t := { u with
        handlers := Function.update s.handlers σ (⟨signal, todo⟩ :: outer) }) hs
      (by rw [htop, clearing_other hother]) (by rw [htop, arming_other hother]) hcode rfl
      (own_update_tail hs.own htop)
    exact ⟨others, own, hfunded, by simp [isTrap, heq]⟩
  | ret σ signal outer htop =>
    obtain ⟨hfunded, heq⟩ := credit_same (t := { s with
        handlers := Function.update s.handlers σ outer }) hs
      (by rw [htop, clearing_pop]) (by rw [htop, arming_pop]) rfl rfl
      (own_update hs.own fun hσ h hh => hs.own h (hσ ▸ htop ▸ List.mem_cons_of_mem _ hh))
    exact ⟨others, own, hfunded, by simp [isTrap, heq]⟩

theorem credit_run (hc : Cleared w c) (hx86 : w.arch = .x86_64) (haot : w.isAot = true)
    {evs : List (Event ι)} (hpatched : Patched w c s) {others : Finset ℕ} {own : Bool}
    (hs : Funded w τ others own s) (h : Run.exec (sampleStep w) s evs = some t) :
    evs.countP (isTrap τ) ≤ credit τ others own s + (evs.map (gain w τ)).sum := by
  induction evs generalizing s others own with
  | nil => exact Nat.zero_le _
  | cons e evs ih =>
    obtain ⟨u, hu, hrest⟩ := Run.exec_cons_some h
    obtain ⟨others', own', hfunded, hle⟩ := credit_step hc hx86 haot hpatched hs hu
    have htail := ih (patched_step hc hx86 s e u hpatched hu) hfunded hrest
    rw [List.countP_cons, List.map_cons, List.sum_cons]
    cases htrap : isTrap τ e with
    | true =>
      rw [htrap, Bool.toNat_true] at hle
      rw [if_pos rfl]
      omega
    | false =>
      rw [if_neg Bool.false_ne_true]
      omega

omit [Fintype ι] in
theorem sum_gain (w : Patcher) (τ : ι) (evs : List (Event ι)) : (evs.map (gain w τ)).sum =
    evs.countP (isSigint τ) + w.int3Addr.length * evs.countP (isOtherSigint τ) := by
  induction evs with
  | nil => rfl
  | cons e evs ih =>
    have hgain : gain w τ e =
        (if isSigint τ e then 1 else 0) +
          w.int3Addr.length * (if isOtherSigint τ e then 1 else 0) := by
      unfold gain
      cases isSigint τ e <;> cases isOtherSigint τ e <;> rfl
    rw [List.map_cons, List.sum_cons, ih, hgain, List.countP_cons, List.countP_cons, Nat.mul_add]
    omega

/-- The samples that are recorded, and those that are still to be. -/
def recorded (s : Sampler ι) : ℕ := s.stackRecord.length + ∑ τ, emplacing (s.handlers τ)

/-- The innermost handler of a thread has executed a statement, or returns. -/
theorem recorded_update (s : Sampler ι) (σ : ι) (hds : List Handler) :
    s.stackRecord.length + ∑ ρ, emplacing (Function.update s.handlers σ hds ρ) +
      emplacing (s.handlers σ) = recorded s + emplacing hds := by
  rw [recorded, Nat.add_assoc, Nat.add_assoc,
    sum_update (Finset.mem_univ σ) emplacing s.handlers hds]

theorem recorded_step (h : sampleStep w s e = some t) :
    recorded t ≤ recorded s + ∑ τ, (isTrap τ e).toNat := by
  cases effect_of_step h with
  | sigint σ =>
    have hsum := recorded_update s σ (sigintHandler w :: s.handlers σ)
    rw [emplacing_cons, sigintHandler, emplacing_patching] at hsum
    refine Nat.le_add_right_of_le ?_
    show s.stackRecord.length + ∑ ρ, emplacing (Function.update s.handlers σ _ ρ) ≤ _
    rw [sigintHandler]
    omega
  | sigtrap σ o curFrame =>
    have hone : ∑ τ, (isTrap τ (.sigtrap σ o curFrame)).toNat = 1 := by
      rw [Finset.sum_eq_single σ]
      · simp [isTrap]
      · intro τ _ hτ
        simp [isTrap, Ne.symm hτ]
      · exact fun hσ => absurd (Finset.mem_univ σ) hσ
    have hsum := recorded_update s σ (sigtrapHandler w curFrame :: s.handlers σ)
    have hcount : (sigtrapHandler w curFrame).todo.countP Stmt.isEmplace = 1 := by
      simp [sigtrapHandler, List.countP_cons, Stmt.isEmplace, emplacing_patching]
    rw [emplacing_cons, hcount] at hsum
    rw [hone]
    show s.stackRecord.length + ∑ ρ, emplacing (Function.update s.handlers σ _ ρ) ≤ _
    omega
  | fetch σ => exact Nat.le_add_right _ _
  | killed σ => exact Nat.le_add_right _ _
  | write σ signal i b todo outer code htop =>
    have hsum := recorded_update s σ (⟨signal, todo⟩ :: outer)
    rw [htop, emplacing_cons, emplacing_cons] at hsum
    refine Nat.le_add_right_of_le ?_
    show s.stackRecord.length + ∑ ρ, emplacing (Function.update s.handlers σ _ ρ) ≤ _
    simp only [List.countP_cons, Stmt.isEmplace] at hsum
    omega
  | other σ signal stmt todo outer u htop hother hlives hcode hu =>
    have hsum := recorded_update s σ (⟨signal, todo⟩ :: outer)
    rw [htop, emplacing_cons, emplacing_cons] at hsum
    refine Nat.le_add_right_of_le ?_
    show u.stackRecord.length + ∑ ρ, emplacing (Function.update s.handlers σ _ ρ) ≤ _
    cases stmt with
    | emplace curFrame =>
      obtain rfl := Option.some.inj hu
      simp only [List.countP_cons, Stmt.isEmplace, if_true] at hsum
      simp only [unwind, List.length_append, List.length_singleton]
      omega
    | emplaced =>
      obtain rfl := Option.some.inj hu
      simp only [List.countP_cons, Stmt.isEmplace] at hsum
      simp only
      omega
    | mprotect writable =>
      obtain rfl := Option.some.inj hu
      simp only [List.countP_cons, Stmt.isEmplace] at hsum
      simp only
      omega
    | write i b => exact absurd trivial hother
  | ret σ signal outer htop =>
    have hsum := recorded_update s σ outer
    rw [htop, emplacing_cons] at hsum
    refine Nat.le_add_right_of_le ?_
    show s.stackRecord.length + ∑ ρ, emplacing (Function.update s.handlers σ _ ρ) ≤ _
    omega

theorem recorded_run {evs : List (Event ι)} (h : Run.exec (sampleStep w) s evs = some t) :
    recorded t ≤ recorded s + ∑ τ, evs.countP (isTrap τ) := by
  induction evs generalizing s with
  | nil =>
    obtain rfl := Option.some.inj h
    exact Nat.le_add_right _ _
  | cons e evs ih =>
    obtain ⟨u, hu, hrest⟩ := Run.exec_cons_some h
    have hcount : ∀ τ : ι, (e :: evs).countP (isTrap τ) =
        (isTrap τ e).toNat + evs.countP (isTrap τ) := by
      intro τ
      rw [List.countP_cons]
      cases isTrap τ e
      · simp
      · simp [Nat.add_comm]
    have hstep := recorded_step hu
    have htail := ih hrest
    rw [Finset.sum_congr rfl fun τ _ => hcount τ, Finset.sum_add_distrib]
    omega

/-- There are at most as many samples as traps. A SIGINT that a thread takes itself gives it at
most one trap, and one that another thread takes at most one for each site. -/
theorem samples_le (w : Patcher) (c : Code) (hx86 : w.arch = .x86_64) (haot : w.isAot = true)
    (hc : Cleared w c) (evs : List (Event ι)) (t : Sampler ι)
    (h : Run.exec (sampleStep w) (.start c) evs = some t) :
    t.stackRecord.length ≤ ∑ τ, evs.countP (isTrap τ) ∧
    ∀ τ, evs.countP (isTrap τ) ≤
      evs.countP (isSigint τ) + w.int3Addr.length * evs.countP (isOtherSigint τ) := by
  constructor
  · have hrun := recorded_run h
    have hstart : recorded (.start c : Sampler ι) = 0 := by
      simp [recorded, Sampler.start, emplacing]
    rw [hstart, Nat.zero_add] at hrun
    exact Nat.le_trans (Nat.le_add_right _ _) hrun
  · intro τ
    have hstart : Funded w τ ∅ false (.start c : Sampler ι) := by
      refine ⟨fun o ho harmed => ?_, fun h hh => absurd hh List.not_mem_nil⟩
      exact absurd (harmed.symm.trans (hc o ho)) (by decide)
    have hcredit : credit τ ∅ false (.start c : Sampler ι) = 0 := by
      simp [credit, armingOthers, Sampler.start, arming]
    have hrun := credit_run hc hx86 haot (patched_start w c) hstart h
    rwa [hcredit, Nat.zero_add, sum_gain] at hrun

end

/-- Both threads run into breakpoints before these are removed. -/
def bothTrap : List (Event (Fin 2)) :=
  armBoth ++ [.sigtrap mainThread 1 [⟨7, 12⟩], .sigtrap worker 3 [⟨7, 40⟩], .run mainThread,
    .run mainThread, .run worker, .run worker]

/-- One SIGINT is enough for two samples. -/
theorem bothTrap_samples : ∃ t, Run.exec (sampleStep twoSites) (.start twoNops) bothTrap = some t ∧
    t.stackRecord.length = 2 ∧ bothTrap.countP (isTrap mainThread) ≤ 2 := by
  obtain ⟨t, ht, hlength⟩ : ∃ t,
      Run.exec (sampleStep twoSites) (.start twoNops) bothTrap = some t ∧
        t.stackRecord.length = 2 := ⟨_, rfl, rfl⟩
  exact ⟨t, ht, hlength, (samples_le twoSites twoNops rfl rfl (by decide) _ t ht).2 mainThread⟩

end MVVM.Profile
