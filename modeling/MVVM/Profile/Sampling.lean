import MVVM.Patch.Toggle
import MVVM.Profile.Pgo
import Mathlib.Data.Fintype.Basic

/-!
# The sampling of the profiler (profile.cpp:34-72, 153-178)

SIGINT comes every ten milliseconds. Its handler sets the breakpoints, the guest runs into
one, and the handler of SIGTRAP records the stack and removes the breakpoints. Both make the pages
of the code writable, write byte by byte, and make the pages executable again. A thread that is
not in the handler of SIGINT may take SIGINT at any time, also in the handler of SIGTRAP; the other
threads go on.
-/

namespace MVVM.Profile

open MVVM.Patch

inductive Signal where
  | sigint
  | sigtrap
  deriving DecidableEq, Repr

/-- A statement of a handler. `emplace_back` is begun and ended: threads do not wait for each
other with it. -/
inductive Stmt where
  | emplace (curFrame : List AotFrame)
  | emplaced
  | mprotect (writable : Bool)
  | write (i : ℕ) (b : UInt8)
  deriving DecidableEq

/-- A handler that has not returned, and what it has still to do. -/
structure Handler where
  signal : Signal
  todo : List Stmt
  deriving DecidableEq

/-- The pages of the code can be written, or else be executed. Once `dead`, the process has taken
SIGSEGV, or two threads have been in `emplace_back` at once; nothing is said of it from then on. -/
structure Sampler (ι : Type) where
  code : Code
  writable : Bool
  -- the handlers of a thread, the innermost first
  handlers : ι → List Handler
  stackRecord : List Stack
  -- a thread is in `emplace_back`
  recording : Bool
  dead : Bool

inductive Event (ι : Type) where
  | sigint (τ : ι)
  -- the thread runs into the breakpoint at `o`; `curFrame` is what `get_exec_env` has
  | sigtrap (τ : ι) (o : ℕ) (curFrame : List AotFrame)
  -- the thread executes some other instruction of the guest
  | fetch (τ : ι)
  -- the handler of the thread goes on, or returns
  | run (τ : ι)

/-- What the loop over `int3_addr` writes. -/
def writes (w : Patcher) (instr : List (ℕ × UInt8)) : List (ℕ × UInt8) :=
  w.int3Addr.flatMap fun o => instr.map fun b => (ahead o b.1, b.2)

/-- `replace_nop_with_int3` and `replace_int3_with_nop`. -/
def patching (w : Patcher) (instr : List (ℕ × UInt8)) : List Stmt :=
  if w.isAot then
    .mprotect true :: (writes w instr).map (fun b => .write b.1 b.2) ++ [.mprotect false]
  else []

/-- `profile_sigint_handler`. -/
def sigintHandler (w : Patcher) : Handler := ⟨.sigint, patching w (int3 w.arch)⟩

/-- `profile_sigtrap_handler`. -/
def sigtrapHandler (w : Patcher) (curFrame : List AotFrame) : Handler :=
  ⟨.sigtrap, .emplace curFrame :: .emplaced :: patching w (nop w.arch)⟩

variable {ι : Type} [DecidableEq ι]

def Sampler.enter (s : Sampler ι) (τ : ι) (h : Handler) : Sampler ι :=
  { s with handlers := Function.update s.handlers τ (h :: s.handlers τ) }

/-- `unwind` reads the first frame before it looks for the end of the frames. -/
def Sampler.Kills (s : Sampler ι) : Stmt → Prop
  | .emplace curFrame => curFrame = [] ∨ s.recording = true
  | .emplaced | .mprotect _ => False
  | .write _ _ => s.writable = false

instance (s : Sampler ι) : (stmt : Stmt) → Decidable (s.Kills stmt)
  | .emplace _ => inferInstanceAs (Decidable (_ ∨ _))
  | .emplaced | .mprotect _ => inferInstanceAs (Decidable False)
  | .write _ _ => inferInstanceAs (Decidable (_ = _))

def Sampler.execute (s : Sampler ι) : Stmt → Option (Sampler ι)
  | .emplace curFrame =>
    some { s with recording := true, stackRecord := unwind s.stackRecord curFrame }
  | .emplaced => some { s with recording := false }
  | .mprotect writable => some { s with writable }
  | .write i b => (s.code.write i b).map fun code => { s with code }

/-- What an event does to a process that is alive. -/
def eventStep (w : Patcher) (s : Sampler ι) : Event ι → Option (Sampler ι)
  | .sigint τ =>
    if ∀ h ∈ s.handlers τ, h.signal ≠ .sigint then some (s.enter τ (sigintHandler w)) else none
  | .sigtrap τ o curFrame =>
    if s.handlers τ = [] ∧ s.writable = false ∧ o ∈ w.int3Addr ∧ s.code.read o = some 0xcc then
      some (s.enter τ (sigtrapHandler w curFrame))
    else none
  | .fetch τ => if s.handlers τ = [] then some { s with dead := s.writable } else none
  | .run τ =>
    match s.handlers τ with
    | ⟨signal, stmt :: todo⟩ :: outer =>
      if s.Kills stmt then some { s with dead := true }
      else (s.execute stmt).map fun t =>
        { t with handlers := Function.update s.handlers τ (⟨signal, todo⟩ :: outer) }
    | ⟨_, []⟩ :: outer => some { s with handlers := Function.update s.handlers τ outer }
    | [] => none

def sampleStep (w : Patcher) (s : Sampler ι) (e : Event ι) : Option (Sampler ι) :=
  if s.dead then none else eventStep w s e

def Sampler.start (c : Code) : Sampler ι := ⟨c, false, fun _ => [], [], false, false⟩

/-! ### Alone, a handler does what the functions of `Patch` do -/

theorem writes_foldlM (w : Patcher) (instr : List (ℕ × UInt8)) (c : Code) :
    (writes w instr).foldlM (fun (c : Code) b => c.write b.1 b.2) c =
      w.int3Addr.foldlM (patchAt instr) c := by
  unfold writes
  generalize w.int3Addr = sites
  induction sites generalizing c with
  | nil => rfl
  | cons o sites ih =>
    rw [List.flatMap_cons, List.foldlM_append, List.foldlM_cons, List.foldlM_map]
    exact congrArg (Option.bind (patchAt instr c o)) (funext ih)

omit [DecidableEq ι] in
theorem execute_writes (bs : List (ℕ × UInt8)) (s : Sampler ι) :
    (bs.map fun b => Stmt.write b.1 b.2).foldlM Sampler.execute s =
      (bs.foldlM (fun (c : Code) b => c.write b.1 b.2) s.code).map fun code => { s with code } := by
  induction bs generalizing s with
  | nil => rfl
  | cons b bs ih =>
    rw [List.map_cons, List.foldlM_cons, List.foldlM_cons, Sampler.execute]
    cases s.code.write b.1 b.2 with
    | none => rfl
    | some code => exact ih { s with code }

omit [DecidableEq ι] in
theorem execute_patching (w : Patcher) (instr : List (ℕ × UInt8)) {s : Sampler ι}
    (hs : s.writable = false) :
    (patching w instr).foldlM Sampler.execute s =
      (if w.isAot then w.int3Addr.foldlM (patchAt instr) s.code else some s.code).map
        fun code => { s with code } := by
  unfold patching
  split
  · rw [List.foldlM_append, List.foldlM_cons, Sampler.execute]
    change Option.bind (List.foldlM Sampler.execute _ _) _ = _
    rw [execute_writes, writes_foldlM]
    cases w.int3Addr.foldlM (patchAt instr) s.code with
    | none => rfl
    | some code => exact congrArg (fun b => some { s with code, writable := b }) hs.symm
  · rfl

omit [DecidableEq ι] in
theorem sigintHandler_alone (w : Patcher) {s : Sampler ι} (hs : s.writable = false) :
    (sigintHandler w).todo.foldlM Sampler.execute s =
      (replaceNopWithInt3 w s.code).map fun code => { s with code } :=
  execute_patching w _ hs

omit [DecidableEq ι] in
theorem sigtrapHandler_alone (w : Patcher) {s : Sampler ι} (hs : s.writable = false)
    (hrecording : s.recording = false) (curFrame : List AotFrame) :
    (sigtrapHandler w curFrame).todo.foldlM Sampler.execute s =
      (replaceInt3WithNop w s.code).map fun code =>
        { s with code, stackRecord := unwind s.stackRecord curFrame } := by
  obtain ⟨code, writable, handlers, stackRecord, recording, dead⟩ := s
  obtain rfl : recording = false := hrecording
  exact execute_patching w (nop w.arch)
    (s := ⟨code, writable, handlers, unwind stackRecord curFrame, false, dead⟩) hs

/-! ### What an event does -/

theorem sampleStep_some {w : Patcher} {s t : Sampler ι} {e : Event ι} :
    sampleStep w s e = some t ↔ s.dead = false ∧ eventStep w s e = some t := by
  rw [sampleStep]
  cases s.dead <;> simp

theorem sigtrap_some {w : Patcher} {s t : Sampler ι} {τ : ι} {o : ℕ}
    {curFrame : List AotFrame} (h : sampleStep w s (.sigtrap τ o curFrame) = some t) :
    t = s.enter τ (sigtrapHandler w curFrame) := by
  obtain ⟨-, h⟩ := sampleStep_some.mp h
  simp only [eventStep] at h
  split at h
  · exact (Option.some.inj h).symm
  · cases h

theorem code_ext {c c' : Code} (h : ∀ i : ℕ, c.bytes[i]? = c'.bytes[i]?) : c = c' := by
  cases c
  cases c'
  congr
  exact List.ext_getElem? h

/-- The byte that a handler of x86_64 writes to a site. -/
def Signal.byte : Signal → UInt8
  | .sigint => 0xcc
  | .sigtrap => 0x90

def Stmt.IsWrite : Stmt → Prop
  | .write _ _ => True
  | _ => False

/-- The code and the handlers change as is said; `dead` is not set by a statement that can be
executed. -/
inductive Effect (w : Patcher) (s : Sampler ι) : Event ι → Sampler ι → Prop
  | sigint (τ : ι) (hfree : ∀ h ∈ s.handlers τ, h.signal ≠ .sigint) :
      Effect w s (.sigint τ) (s.enter τ (sigintHandler w))
  | sigtrap (τ : ι) (o : ℕ) (curFrame : List AotFrame) (hfree : s.handlers τ = [])
      (hpages : s.writable = false) (ho : o ∈ w.int3Addr) (harmed : s.code.read o = some 0xcc) :
      Effect w s (.sigtrap τ o curFrame) (s.enter τ (sigtrapHandler w curFrame))
  | fetch (τ : ι) : Effect w s (.fetch τ) { s with dead := s.writable }
  | killed (τ : ι) (signal : Signal) (stmt : Stmt) (todo : List Stmt) (outer : List Handler)
      (htop : s.handlers τ = ⟨signal, stmt :: todo⟩ :: outer) (hkills : s.Kills stmt) :
      Effect w s (.run τ) { s with dead := true }
  | write (τ : ι) (signal : Signal) (i : ℕ) (b : UInt8) (todo : List Stmt)
      (outer : List Handler) (code : Code)
      (htop : s.handlers τ = ⟨signal, .write i b :: todo⟩ :: outer)
      (hpages : s.writable = true) (hcode : s.code.write i b = some code) :
      Effect w s (.run τ)
        { s with code, handlers := Function.update s.handlers τ (⟨signal, todo⟩ :: outer) }
  | other (τ : ι) (signal : Signal) (stmt : Stmt) (todo : List Stmt) (outer : List Handler)
      (t : Sampler ι) (htop : s.handlers τ = ⟨signal, stmt :: todo⟩ :: outer)
      (hother : ¬ stmt.IsWrite) (hlives : ¬ s.Kills stmt) (hcode : t.code = s.code)
      (ht : s.execute stmt = some t) :
      Effect w s (.run τ)
        { t with handlers := Function.update s.handlers τ (⟨signal, todo⟩ :: outer) }
  | ret (τ : ι) (signal : Signal) (outer : List Handler)
      (htop : s.handlers τ = ⟨signal, []⟩ :: outer) :
      Effect w s (.run τ) { s with handlers := Function.update s.handlers τ outer }

theorem effect_of_step {w : Patcher} {s t : Sampler ι} {e : Event ι}
    (h : sampleStep w s e = some t) : Effect w s e t := by
  obtain ⟨-, h⟩ := sampleStep_some.mp h
  cases e with
  | sigint τ =>
    simp only [eventStep] at h
    split at h
    · next hfree =>
      obtain rfl := Option.some.inj h
      exact .sigint τ hfree
    · cases h
  | sigtrap τ o curFrame =>
    simp only [eventStep] at h
    split at h
    · next htrap =>
      obtain rfl := Option.some.inj h
      exact .sigtrap τ o curFrame htrap.1 htrap.2.1 htrap.2.2.1 htrap.2.2.2
    · cases h
  | fetch τ =>
    simp only [eventStep] at h
    split at h
    · obtain rfl := Option.some.inj h
      exact .fetch τ
    · cases h
  | run τ =>
    simp only [eventStep] at h
    split at h
    · next signal stmt todo outer htop =>
      split at h
      · next hkills =>
        obtain rfl := Option.some.inj h
        exact .killed τ signal stmt todo outer htop hkills
      · next hlives =>
        obtain ⟨u, hu, rfl⟩ := Option.map_eq_some_iff.mp h
        cases stmt with
        | write i b =>
          obtain ⟨code, hcode, rfl⟩ := Option.map_eq_some_iff.mp hu
          exact .write τ signal i b todo outer code htop (Bool.not_eq_false _ ▸ hlives) hcode
        | emplace curFrame =>
          obtain rfl := Option.some.inj hu
          exact .other τ signal _ todo outer _ htop (fun h => h) hlives rfl rfl
        | emplaced =>
          obtain rfl := Option.some.inj hu
          exact .other τ signal _ todo outer _ htop (fun h => h) hlives rfl rfl
        | mprotect writable =>
          obtain rfl := Option.some.inj hu
          exact .other τ signal _ todo outer _ htop (fun h => h) hlives rfl rfl
    · next signal outer htop =>
      obtain rfl := Option.some.inj h
      exact .ret τ signal outer htop
    · cases h

/-- A handler of x86_64 has only sites left to write, each with its byte. -/
def Handler.Writes (w : Patcher) (h : Handler) : Prop :=
  ∀ i b, .write i b ∈ h.todo → i ∈ w.int3Addr ∧ b = h.signal.byte

/-- The code of x86_64, where the guest has started with `c`: what is not as in `c` is a
breakpoint that has been set. -/
structure Patched (w : Patcher) (c : Code) (s : Sampler ι) : Prop where
  handlers : ∀ τ, ∀ h ∈ s.handlers τ, h.Writes w
  length : s.code.bytes.length = c.bytes.length
  byte : ∀ i : ℕ, s.code.bytes[i]? = c.bytes[i]? ∨
    i ∈ w.int3Addr ∧ s.code.bytes[i]? = some 0xcc

/-- The breakpoints are removed. -/
def Cleared (w : Patcher) (c : Code) : Prop := ∀ o ∈ w.int3Addr, c.bytes[o]? = some 0x90

instance (w : Patcher) (c : Code) : Decidable (Cleared w c) := by unfold Cleared; infer_instance

section

variable {w : Patcher} {c : Code} {s t : Sampler ι} {e : Event ι} {τ : ι}

theorem Cleared.inside (hc : Cleared w c) {o : ℕ} (ho : o ∈ w.int3Addr) :
    o < c.bytes.length := (List.getElem?_eq_some_iff.mp (hc o ho)).1

theorem writes_one (hc : Cleared w c) (b : UInt8) :
    writes w [(0, b)] = w.int3Addr.map fun o => (o, b) := by
  rw [writes, List.map_eq_flatMap]
  refine List.flatMap_congr fun o ho => ?_
  have hlt := hc.inside ho
  have hsize := c.size
  rw [List.map_singleton, ahead_of_lt (by omega)]
  rfl

theorem patching_one (hc : Cleared w c) (haot : w.isAot = true) (b : UInt8) :
    patching w [(0, b)] =
      .mprotect true :: w.int3Addr.map (fun o => .write o b) ++ [.mprotect false] := by
  rw [patching, if_pos haot, writes_one hc, List.map_map]
  rfl

theorem patching_writes (hc : Cleared w c) {b : UInt8} {i : ℕ} {b' : UInt8}
    (h : .write i b' ∈ patching w [(0, b)]) : i ∈ w.int3Addr ∧ b' = b := by
  cases haot : w.isAot with
  | false =>
    rw [patching, haot] at h
    exact absurd h List.not_mem_nil
  | true =>
    rw [patching_one hc haot] at h
    simp only [List.cons_append, List.mem_cons, List.mem_append, List.mem_map, reduceCtorEq,
      false_or, List.not_mem_nil, or_false, Stmt.write.injEq] at h
    obtain ⟨o, ho, rfl, rfl⟩ := h
    exact ⟨ho, rfl⟩

theorem sigintHandler_writes (hc : Cleared w c) (hx86 : w.arch = .x86_64) :
    (sigintHandler w).Writes w := by
  intro i b h
  rw [sigintHandler, hx86] at h
  exact patching_writes hc h

theorem sigtrapHandler_writes (hc : Cleared w c) (hx86 : w.arch = .x86_64)
    (curFrame : List AotFrame) : (sigtrapHandler w curFrame).Writes w := by
  intro i b h
  rw [sigtrapHandler, hx86] at h
  simp only [List.mem_cons, reduceCtorEq, false_or] at h
  exact patching_writes hc h

theorem Handler.Writes.tail {signal : Signal} {stmt : Stmt} {todo : List Stmt}
    (h : Handler.Writes w ⟨signal, stmt :: todo⟩) : Handler.Writes w ⟨signal, todo⟩ :=
  fun i b hmem => h i b (List.mem_cons_of_mem _ hmem)

/-- A property of all handlers, when the handlers of one thread change. -/
theorem forall_update {P : Handler → Prop} {f : ι → List Handler} {hs : List Handler}
    (hf : ∀ σ, ∀ h ∈ f σ, P h) (hhs : ∀ h ∈ hs, P h) :
    ∀ σ, ∀ h ∈ Function.update f τ hs σ, P h := by
  intro σ
  by_cases hσ : σ = τ
  · subst hσ
    rw [Function.update_self]
    exact hhs
  · rw [Function.update_of_ne hσ]
    exact hf σ

/-- The innermost handler of a thread has executed a statement. -/
theorem forall_update_tail {P : Handler → Prop} (hs : ∀ σ, ∀ h ∈ s.handlers σ, P h)
    {signal : Signal} {stmt : Stmt} {todo : List Stmt} {outer : List Handler}
    (htop : s.handlers τ = ⟨signal, stmt :: todo⟩ :: outer)
    (htail : P ⟨signal, stmt :: todo⟩ → P ⟨signal, todo⟩) :
    ∀ σ, ∀ h ∈ Function.update s.handlers τ (⟨signal, todo⟩ :: outer) σ, P h := by
  have hall := hs τ
  rw [htop] at hall
  refine forall_update hs fun h hh => ?_
  rcases List.mem_cons.mp hh with rfl | hh
  · exact htail (hall _ List.mem_cons_self)
  · exact hall h (List.mem_cons_of_mem _ hh)

theorem forall_update_outer {P : Handler → Prop} (hs : ∀ σ, ∀ h ∈ s.handlers σ, P h)
    {hd : Handler} {outer : List Handler} (htop : s.handlers τ = hd :: outer) :
    ∀ σ, ∀ h ∈ Function.update s.handlers τ outer σ, P h := by
  refine forall_update hs fun h hh => hs τ h ?_
  rw [htop]
  exact List.mem_cons_of_mem _ hh

theorem forall_enter {P : Handler → Prop} (hs : ∀ σ, ∀ h ∈ s.handlers σ, P h) {hd : Handler}
    (hh : P hd) (τ : ι) : ∀ σ, ∀ h ∈ (s.enter τ hd).handlers σ, P h :=
  forall_update hs fun h hmem => by
    rcases List.mem_cons.mp hmem with rfl | hmem
    · exact hh
    · exact hs τ h hmem

omit [DecidableEq ι] in
theorem patched_start (w : Patcher) (c : Code) : Patched w c (.start c : Sampler ι) where
  handlers := fun _ _ h => absurd h List.not_mem_nil
  length := rfl
  byte := fun _ => .inl rfl

theorem patched_step (hc : Cleared w c) (hx86 : w.arch = .x86_64) (s : Sampler ι) (e : Event ι)
    (t : Sampler ι) (hs : Patched w c s) (h : sampleStep w s e = some t) : Patched w c t := by
  cases effect_of_step h with
  | sigint τ =>
    exact ⟨forall_enter hs.handlers (sigintHandler_writes hc hx86) τ, hs.length, hs.byte⟩
  | sigtrap τ o curFrame =>
    exact ⟨forall_enter hs.handlers (sigtrapHandler_writes hc hx86 curFrame) τ, hs.length,
      hs.byte⟩
  | fetch τ => exact ⟨hs.handlers, hs.length, hs.byte⟩
  | killed τ => exact ⟨hs.handlers, hs.length, hs.byte⟩
  | write τ signal i b todo outer code htop hpages hcode =>
    have hall := hs.handlers τ
    rw [htop] at hall
    obtain ⟨hi, hb⟩ := hall _ List.mem_cons_self i b List.mem_cons_self
    refine ⟨forall_update_tail hs.handlers htop Handler.Writes.tail,
      (length_write hcode).trans hs.length, fun j => ?_⟩
    rw [getElem?_write hcode]
    by_cases hj : i = j
    · subst hj
      rw [if_pos rfl, hc i hi]
      cases signal with
      | sigint => exact .inr ⟨hi, congrArg some hb⟩
      | sigtrap => exact .inl (congrArg some hb)
    · rw [if_neg hj]
      exact hs.byte j
  | other τ signal stmt todo outer u htop hother hlives hcode hu =>
    exact ⟨forall_update_tail hs.handlers htop Handler.Writes.tail, hcode ▸ hs.length,
      hcode ▸ hs.byte⟩
  | ret τ signal outer htop =>
    exact ⟨forall_update_outer hs.handlers htop, hs.length, hs.byte⟩

/-! ### One handler at a time -/

/-- No handler is at work when a signal is taken or the guest goes on, and a trapped thread has a
frame. -/
def Alone (s : Sampler ι) : Event ι → Prop
  | .sigint _ | .fetch _ => ∀ σ, s.handlers σ = []
  | .sigtrap _ _ curFrame => (∀ σ, s.handlers σ = []) ∧ curFrame ≠ []
  | .run _ => True

/-- What is executed to its end by itself kills nobody, and leaves the pages executable. -/
def Survives (length : ℕ) : Bool → Bool → List Stmt → Prop
  | writable, recording, [] => writable = false ∧ recording = false
  | writable, recording, .emplace curFrame :: todo =>
    curFrame ≠ [] ∧ recording = false ∧ Survives length writable true todo
  | writable, _, .emplaced :: todo => Survives length writable false todo
  | _, recording, .mprotect writable :: todo => Survives length writable recording todo
  | writable, recording, .write i _ :: todo =>
    writable = true ∧ i < length ∧ Survives length writable recording todo

theorem survives_patching (hc : Cleared w c) (b : UInt8) :
    Survives c.bytes.length false false (patching w [(0, b)]) := by
  cases haot : w.isAot with
  | false =>
    rw [patching, haot]
    exact ⟨rfl, rfl⟩
  | true =>
    rw [patching_one hc haot]
    have hsites : ∀ sites : List ℕ, (∀ o ∈ sites, o < c.bytes.length) →
        Survives c.bytes.length true false
          (sites.map (fun o => .write o b) ++ [.mprotect false]) := by
      intro sites hsites
      induction sites with
      | nil => exact ⟨rfl, rfl⟩
      | cons o sites ih =>
        exact ⟨rfl, hsites o List.mem_cons_self,
          ih fun o' ho' => hsites o' (List.mem_cons_of_mem _ ho')⟩
    exact hsites w.int3Addr fun o ho => hc.inside ho

/-- Nobody is in a handler, or one thread is in one. -/
inductive OneHandler (length : ℕ) (s : Sampler ι) : Prop
  | quiet (hhandlers : s.handlers = fun _ => []) (hpages : s.writable = false)
      (hrecording : s.recording = false)
  | busy (τ : ι) (h : Handler) (hhandlers : s.handlers = Function.update (fun _ => []) τ [h])
      (hsurvives : Survives length s.writable s.recording h.todo)

/-- With one handler at a time nobody is killed. -/
structure Survived (c : Code) (s : Sampler ι) : Prop where
  alive : s.dead = false
  length : s.code.bytes.length = c.bytes.length
  one : OneHandler c.bytes.length s

theorem survived_start (c : Code) : Survived c (.start c : Sampler ι) :=
  ⟨rfl, rfl, .quiet rfl rfl rfl⟩

theorem OneHandler.pages {length : ℕ} (hs : OneHandler length s)
    (hfree : ∀ σ, s.handlers σ = []) : s.writable = false ∧ s.recording = false := by
  cases hs with
  | quiet hhandlers hpages hrecording => exact ⟨hpages, hrecording⟩
  | busy τ h hhandlers hsurvives =>
    have hnone := hfree τ
    rw [hhandlers, Function.update_self] at hnone
    cases hnone

theorem OneHandler.enter {length : ℕ} (hs : OneHandler length s)
    (hfree : ∀ σ, s.handlers σ = []) {h : Handler}
    (hh : Survives length false false h.todo) (τ : ι) : OneHandler length (s.enter τ h) := by
  obtain ⟨hpages, hrecording⟩ := hs.pages hfree
  refine .busy τ h ?_ ?_
  · rw [Sampler.enter, hfree τ, funext hfree]
  · change Survives length s.writable s.recording h.todo
    rw [hpages, hrecording]
    exact hh

theorem OneHandler.top {length : ℕ} (hs : OneHandler length s) {hd : Handler}
    {outer : List Handler} (htop : s.handlers τ = hd :: outer) :
    outer = [] ∧ s.handlers = Function.update (fun _ => []) τ [hd] ∧
      Survives length s.writable s.recording hd.todo := by
  cases hs with
  | quiet hhandlers =>
    rw [hhandlers] at htop
    cases htop
  | busy σ h hhandlers hsurvives =>
    have hσ : σ = τ := by
      by_contra hne
      rw [hhandlers, Function.update_of_ne (Ne.symm hne)] at htop
      cases htop
    subst hσ
    rw [hhandlers, Function.update_self] at htop
    obtain ⟨rfl, rfl⟩ := List.cons.inj htop
    exact ⟨rfl, hhandlers, hsurvives⟩

omit [DecidableEq ι] in
theorem not_kills_of_survives {length : ℕ} {stmt : Stmt} {todo : List Stmt}
    (h : Survives length s.writable s.recording (stmt :: todo)) : ¬ s.Kills stmt := by
  cases stmt with
  | emplace curFrame =>
    rintro (hnil | hrecording)
    · exact h.1 hnil
    · rw [h.2.1] at hrecording
      cases hrecording
  | emplaced => exact fun hkills => hkills
  | mprotect writable => exact fun hkills => hkills
  | write i b =>
    intro hpages
    exact absurd (h.1.symm.trans hpages) (by decide)

theorem survived_step (hc : Cleared w c) (hx86 : w.arch = .x86_64) (s : Sampler ι) (e : Event ι)
    (t : Sampler ι) (hs : Survived c s) (he : Alone s e) (h : sampleStep w s e = some t) :
    Survived c t := by
  cases effect_of_step h with
  | sigint τ =>
    refine ⟨hs.alive, hs.length, hs.one.enter he ?_ τ⟩
    rw [sigintHandler, hx86]
    exact survives_patching hc 0xcc
  | sigtrap τ o curFrame =>
    refine ⟨hs.alive, hs.length, hs.one.enter he.1 ?_ τ⟩
    rw [sigtrapHandler, hx86]
    exact ⟨he.2, rfl, survives_patching hc 0x90⟩
  | fetch τ =>
    obtain ⟨hpages, hrecording⟩ := hs.one.pages he
    exact ⟨hpages, hs.length, .quiet (funext he) hpages hrecording⟩
  | killed τ signal stmt todo outer htop hkills =>
    obtain ⟨-, -, hsurvives⟩ := hs.one.top htop
    exact absurd hkills (not_kills_of_survives hsurvives)
  | write τ signal i b todo outer code htop hpages hcode =>
    obtain ⟨rfl, hhandlers, -, -, hsurvives⟩ := hs.one.top htop
    refine ⟨hs.alive, (length_write hcode).trans hs.length, .busy τ ⟨signal, todo⟩ ?_ hsurvives⟩
    rw [hhandlers, Function.update_idem]
  | other τ signal stmt todo outer u htop hother hlives hcode hu =>
    obtain ⟨rfl, hhandlers, hsurvives⟩ := hs.one.top htop
    have hone : Function.update s.handlers τ [⟨signal, todo⟩] =
        Function.update (fun _ => []) τ [⟨signal, todo⟩] := by
      rw [hhandlers, Function.update_idem]
    cases stmt with
    | emplace curFrame =>
      obtain rfl := Option.some.inj hu
      exact ⟨hs.alive, hs.length, .busy τ ⟨signal, todo⟩ hone hsurvives.2.2⟩
    | emplaced =>
      obtain rfl := Option.some.inj hu
      exact ⟨hs.alive, hs.length, .busy τ ⟨signal, todo⟩ hone hsurvives⟩
    | mprotect writable =>
      obtain rfl := Option.some.inj hu
      exact ⟨hs.alive, hs.length, .busy τ ⟨signal, todo⟩ hone hsurvives⟩
    | write i b => exact absurd trivial hother
  | ret τ signal outer htop =>
    obtain ⟨rfl, hhandlers, hpages, hrecording⟩ := hs.one.top htop
    refine ⟨hs.alive, hs.length, .quiet ?_ hpages hrecording⟩
    rw [hhandlers, Function.update_idem]
    exact Function.update_eq_self τ _

omit [DecidableEq ι] in
/-- A statement of what survives can be executed, and the rest survives. -/
theorem exists_execute {length : ℕ} (hlength : s.code.bytes.length = length) {stmt : Stmt}
    {todo : List Stmt} (hs : Survives length s.writable s.recording (stmt :: todo)) :
    ∃ u, s.execute stmt = some u ∧ u.dead = s.dead ∧ u.code.bytes.length = length ∧
      Survives length u.writable u.recording todo := by
  cases stmt with
  | emplace curFrame => exact ⟨_, rfl, rfl, hlength, hs.2.2⟩
  | emplaced => exact ⟨_, rfl, rfl, hlength, hs⟩
  | mprotect writable => exact ⟨_, rfl, rfl, hlength, hs⟩
  | write i b =>
    obtain ⟨code, hcode, -⟩ := write_of_lt (hlength ▸ hs.2.1) b
    exact ⟨_, congrArg (Option.map _) hcode, rfl, (length_write hcode).trans hlength, hs.2.2⟩

/-- The handler can go on. -/
theorem Survived.exists_run (hs : Survived c s) (w : Patcher) {hd : Handler}
    {outer : List Handler} (htop : s.handlers τ = hd :: outer) :
    ∃ t, sampleStep w s (.run τ) = some t := by
  obtain ⟨-, -, hsurvives⟩ := hs.one.top htop
  obtain ⟨signal, todo⟩ := hd
  cases todo with
  | nil => exact ⟨_, sampleStep_some.mpr ⟨hs.alive, by simp only [eventStep, htop]; rfl⟩⟩
  | cons stmt todo =>
    have hlives := not_kills_of_survives hsurvives
    obtain ⟨u, hu, -⟩ := exists_execute hs.length hsurvives
    have hstep : eventStep w s (.run τ) = (some u).map fun t =>
        { t with handlers := Function.update s.handlers τ (⟨signal, todo⟩ :: outer) } := by
      rw [← hu]
      simp only [eventStep, htop, if_neg hlives]
    exact ⟨_, sampleStep_some.mpr ⟨hs.alive, hstep⟩⟩

/-! ### A handler to its end -/

/-- The handler that `e` begins in the thread runs to its end, with nobody killed, and leaves
`code` and `stackRecord`. -/
def Completes (w : Patcher) (s : Sampler ι) (e : Event ι) (τ : ι) (code : Option Code)
    (stackRecord : List Stack) : Prop :=
  ∃ n u, Run.exec (sampleStep w) s (e :: List.replicate n (.run τ)) = some u ∧
    u.dead = false ∧ (∀ σ, u.handlers σ = []) ∧ code = some u.code ∧
    u.stackRecord = stackRecord

omit [DecidableEq ι] in
theorem execute_handlers (s : Sampler ι) (f : ι → List Handler) (stmt : Stmt) :
    ({ s with handlers := f } : Sampler ι).execute stmt =
      (s.execute stmt).map fun t => { t with handlers := f } := by
  cases stmt with
  | emplace curFrame => rfl
  | emplaced => rfl
  | mprotect writable => rfl
  | write i b =>
    rw [Sampler.execute, Sampler.execute, Option.map_map]
    rfl

/-- The statements of one handler after each other, and its return. -/
theorem exec_handler (w : Patcher) {length : ℕ} (signal : Signal) {todo : List Stmt}
    (outer : List Handler) (hlength : s.code.bytes.length = length)
    (hsurvives : Survives length s.writable s.recording todo) (halive : s.dead = false)
    {f : ι → List Handler} (hf : f τ = ⟨signal, todo⟩ :: outer) :
    ∃ u, todo.foldlM Sampler.execute s = some u ∧ u.dead = false ∧
      Run.exec (sampleStep w) { s with handlers := f }
        (List.replicate (todo.length + 1) (.run τ)) =
        some { u with handlers := Function.update f τ outer } := by
  induction todo generalizing s f with
  | nil =>
    have hstep : sampleStep w { s with handlers := f } (.run τ) =
        some { s with handlers := Function.update f τ outer } :=
      sampleStep_some.mpr ⟨halive, by simp only [eventStep, hf]⟩
    exact ⟨s, rfl, halive, congrArg (fun r => Option.bind r _) hstep⟩
  | cons stmt todo ih =>
    obtain ⟨s₁, hs₁, hdead, hlength₁, hrest⟩ := exists_execute hlength hsurvives
    obtain ⟨u, hu, hend, hexec⟩ := ih hlength₁ hrest (hdead.trans halive)
      (f := Function.update f τ (⟨signal, todo⟩ :: outer)) (Function.update_self ..)
    have hlives : ¬({ s with handlers := f } : Sampler ι).Kills stmt :=
      not_kills_of_survives (s := { s with handlers := f }) hsurvives
    have hstep : sampleStep w { s with handlers := f } (.run τ) =
        some { s₁ with handlers := Function.update f τ (⟨signal, todo⟩ :: outer) } := by
      refine sampleStep_some.mpr ⟨halive, ?_⟩
      simp only [eventStep, hf, if_neg hlives, execute_handlers, hs₁, Option.map_some]
    rw [Function.update_idem] at hexec
    refine ⟨u, ?_, hend, ?_⟩
    · rw [List.foldlM_cons, hs₁]
      exact hu
    · rw [List.length_cons, List.replicate_succ]
      exact (congrArg (fun r => Option.bind r _) hstep).trans hexec

/-- A handler that is entered while nobody is in one, by an event that does nothing else. -/
theorem completes_of_enter {w : Patcher} {c : Code} (hs : Survived c s)
    (hfree : ∀ σ, s.handlers σ = []) (hd : Handler)
    (hstep : sampleStep w s e = some (s.enter τ hd))
    (hsurvives : Survives c.bytes.length false false hd.todo) {code : Option Code}
    {stackRecord : List Stack}
    (hdoes : hd.todo.foldlM Sampler.execute s =
      code.map fun code => { s with code, stackRecord }) :
    Completes w s e τ code stackRecord := by
  obtain ⟨hpages, hrecording⟩ := hs.one.pages hfree
  obtain ⟨u, hu, halive, hexec⟩ := exec_handler w hd.signal (s.handlers τ) hs.length
    (by rw [hpages, hrecording]; exact hsurvives) hs.alive
    (f := Function.update s.handlers τ (hd :: s.handlers τ)) (Function.update_self ..)
  rw [Function.update_idem, Function.update_eq_self] at hexec
  rw [hdoes] at hu
  obtain ⟨code', rfl, rfl⟩ := Option.map_eq_some_iff.mp hu
  exact ⟨hd.todo.length + 1, _, (congrArg (fun r => Option.bind r _) hstep).trans hexec, halive,
    hfree, rfl, rfl⟩

theorem completes_sigint {w : Patcher} {c : Code} (hc : Cleared w c) (hx86 : w.arch = .x86_64)
    (hs : Survived c s) (hfree : ∀ σ, s.handlers σ = []) (τ : ι) :
    Completes w s (.sigint τ) τ (replaceNopWithInt3 w s.code) s.stackRecord := by
  refine completes_of_enter hs hfree (sigintHandler w) ?_ ?_
    (sigintHandler_alone w (hs.one.pages hfree).1)
  · refine sampleStep_some.mpr ⟨hs.alive, if_pos fun h hh => ?_⟩
    rw [hfree τ] at hh
    exact absurd hh List.not_mem_nil
  · rw [sigintHandler, hx86]
    exact survives_patching hc 0xcc

theorem completes_sigtrap {w : Patcher} {c : Code} (hc : Cleared w c) (hx86 : w.arch = .x86_64)
    (hs : Survived c s) (hfree : ∀ σ, s.handlers σ = []) (τ : ι) {o : ℕ} (ho : o ∈ w.int3Addr)
    (harmed : s.code.read o = some 0xcc) {curFrame : List AotFrame} (hframe : curFrame ≠ []) :
    Completes w s (.sigtrap τ o curFrame) τ (replaceInt3WithNop w s.code)
      (unwind s.stackRecord curFrame) := by
  obtain ⟨hpages, hrecording⟩ := hs.one.pages hfree
  refine completes_of_enter hs hfree (sigtrapHandler w curFrame) ?_ ?_
    (sigtrapHandler_alone w hpages hrecording curFrame)
  · exact sampleStep_some.mpr ⟨hs.alive, if_pos ⟨hfree τ, hpages, ho, harmed⟩⟩
  · rw [sigtrapHandler, hx86]
    exact ⟨hframe, rfl, survives_patching hc 0x90⟩

/-- A module with two sites. -/
def twoSites : Patcher := ⟨.x86_64, true, [1, 3]⟩

def twoNops : Code := ⟨[0x55, 0x90, 0x53, 0x90, 0xc3], by decide⟩

instance [Fintype ι] (s : Sampler ι) : (e : Event ι) → Decidable (Alone s e)
  | .sigint _ | .fetch _ => inferInstanceAs (Decidable (∀ σ, s.handlers σ = []))
  | .sigtrap _ _ _ => inferInstanceAs (Decidable ((∀ σ, s.handlers σ = []) ∧ _ ≠ _))
  | .run _ => inferInstanceAs (Decidable True)

def mainThread : Fin 2 := 0

def worker : Fin 2 := 1

/-- The handler of the main thread makes the pages executable again before that of the worker
writes. -/
def overlapping : List (Event (Fin 2)) :=
  [.sigint worker, .run worker, .sigint mainThread, .run mainThread, .run mainThread,
    .run mainThread, .run mainThread, .run worker]

/-- The worker sets both sites, the main thread runs into the first one and removes them. -/
def oneByOne : List (Event (Fin 2)) :=
  .sigint worker :: List.replicate 5 (.run worker) ++
    .fetch mainThread :: .sigtrap mainThread 1 [⟨7, 12⟩] :: List.replicate 7 (.run mainThread)

/-- Whatever the signals do, what is not as it was is a breakpoint that has been set. With one
handler at a time nobody is killed, the handler can go on, and one that is entered runs to its
end and does what the functions of `Patch` do to the code. -/
theorem sampling_keeps_code (w : Patcher) (c : Code) (hx86 : w.arch = .x86_64)
    (hc : Cleared w c) (evs : List (Event ι)) (t : Sampler ι)
    (h : Run.exec (sampleStep w) (.start c) evs = some t) :
    (∀ i : ℕ, t.code.bytes[i]? = c.bytes[i]? ∨
      i ∈ w.int3Addr ∧ t.code.bytes[i]? = some 0xcc) ∧
    (Run.Along (sampleStep w) Alone (.start c) evs → t.dead = false ∧
      (∀ (τ : ι) (hd : Handler) (outer : List Handler), t.handlers τ = hd :: outer →
        ∃ u, sampleStep w t (.run τ) = some u ∧ u.dead = false) ∧
      ((∀ σ, t.handlers σ = []) → ∀ τ : ι,
        Completes w t (.sigint τ) τ (replaceNopWithInt3 w t.code) t.stackRecord ∧
        ∀ o ∈ w.int3Addr, t.code.read o = some 0xcc → ∀ curFrame, curFrame ≠ [] →
          Completes w t (.sigtrap τ o curFrame) τ (replaceInt3WithNop w t.code)
            (unwind t.stackRecord curFrame))) := by
  have ht : Patched w c t :=
    Run.exec_invariant (Patched w c) (patched_step hc hx86) _ t evs (patched_start w c) h
  refine ⟨ht.byte, fun halone => ?_⟩
  have hsurvived : Survived c t :=
    Run.exec_invariant_along (Survived c) (survived_step hc hx86) _ t evs (survived_start c)
      halone h
  refine ⟨hsurvived.alive, fun τ hd outer htop => ?_, fun hfree τ => ⟨?_, ?_⟩⟩
  · obtain ⟨u, hu⟩ := hsurvived.exists_run w htop
    exact ⟨u, hu, (survived_step hc hx86 t (.run τ) u hsurvived trivial hu).alive⟩
  · exact completes_sigint hc hx86 hsurvived hfree τ
  · intro o ho harmed curFrame hframe
    exact completes_sigtrap hc hx86 hsurvived hfree τ ho harmed hframe

theorem overlapping_keeps_code :
    (∃ t, Run.exec (sampleStep twoSites) (.start twoNops) overlapping = some t ∧
      t.dead = true ∧ ∀ i : ℕ, t.code.bytes[i]? = twoNops.bytes[i]? ∨
        i ∈ twoSites.int3Addr ∧ t.code.bytes[i]? = some 0xcc) ∧
    ∃ t, Run.exec (sampleStep twoSites) (.start twoNops) oneByOne = some t ∧ t.dead = false := by
  constructor
  · obtain ⟨t, ht, hdead⟩ : ∃ t,
        Run.exec (sampleStep twoSites) (.start twoNops) overlapping = some t ∧ t.dead = true :=
      ⟨_, rfl, rfl⟩
    exact ⟨t, ht, hdead, (sampling_keeps_code twoSites twoNops rfl (by decide) overlapping t ht).1⟩
  · obtain ⟨t, ht⟩ : ∃ t, Run.exec (sampleStep twoSites) (.start twoNops) oneByOne = some t :=
      Option.isSome_iff_exists.mp (by decide)
    exact ⟨t, ht,
      ((sampling_keeps_code twoSites twoNops rfl (by decide) oneByOne t ht).2 (by decide)).1⟩

end

end MVVM.Profile
