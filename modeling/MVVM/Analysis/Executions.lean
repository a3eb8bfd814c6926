import MVVM.Analysis.Paths
import MVVM.Analysis.SimpleFunc
import Mathlib.Algebra.BigOperators.Group.List.Basic
import Mathlib.Algebra.GroupWithZero.Nat

/-!
# Executions of a program

A path of one function becomes an execution when its calls are followed. A branch may fall
through or go to any of the labels around it, whatever it is, since the values it looks at
are not in the model; a `call_indirect` may call anything. Functions that are not in the
program are the host's, which return.
-/

namespace MVVM.Analysis

/-- The functions that are executed, the innermost first, and what was called and entered. -/
structure Machine where
  stack : List Place
  log : List Event

inductive Action where
  | move (m : Move)
  | call (calleeIdx : ℤ)
  | finish
  deriving DecidableEq, Repr

def outcome (p : Place) : Move → Option Place
  | .next =>
    match p.code with
    | .branch _ :: is => some { p with code := is }
    | _ => step p .next
  | .jump depth =>
    match p.code with
    | .branch _ :: _ => p.jump depth
    | _ => none

def activation (prog : WasmProgram Branch) (calleeIdx : ℤ) : List Place :=
  ((prog.find? fun f => f.funcIdx = calleeIdx).map entry).toList

def Machine.step (prog : WasmProgram Branch) (s : Machine) : Action → Option Machine
  | .move m =>
    match s.stack with
    | [] => none
    | p :: below =>
      match p.code with
      | .call _ :: _ => none
      | _ => (outcome { p with trace := [] } m).map fun t => ⟨t :: below, s.log ++ t.trace⟩
  | .call calleeIdx =>
    match s.stack with
    | ⟨.call c :: is, ctx, trace⟩ :: below =>
      if c = calleeIdx ∨ c = -1 then
        some ⟨activation prog calleeIdx ++ ⟨is, ctx, trace⟩ :: below,
          s.log ++ [.call calleeIdx]⟩
      else none
    | _ => none
  | .finish =>
    match s.stack with
    | ⟨[], [], _⟩ :: below => some ⟨below, s.log⟩
    | _ => none

def start (f : WasmFunction Branch) : Machine := ⟨[entry f], []⟩

theorem outcome_of_step {p t : Place} {m : Move} (h : step p m = some t) :
    outcome p m = some t := by
  obtain ⟨_ | ⟨i, is⟩, ctx, trace⟩ := p
  · cases m <;> exact h
  cases i with
  | branch b =>
    cases m with
    | next | jump =>
      simp only [step] at h
      split at h
      · exact h
      · cases h
  | set _ | call _ | block _ | loop _ _ => cases m <;> exact h

/-! ### How much is left -/

variable {β : Type}

mutual

/-- The moves that an instruction takes at most, when it has no loop and no call. -/
def WasmInst.moves : WasmInst β → ℕ
  | .branch _ | .call _ | .set _ => 1
  | .block insts | .loop _ insts => movesOf insts + 2

def movesOf : List (WasmInst β) → ℕ
  | [] => 0
  | i :: is => i.moves + movesOf is

end

def framesLeft (ctx : List Frame) : ℕ := (ctx.map fun frame => movesOf frame.rest + 1).sum

def Place.left (p : Place) : ℕ := movesOf p.code + framesLeft p.ctx

def Machine.left (s : Machine) : ℕ := (s.stack.map fun p => p.left + 1).sum

theorem framesLeft_drop (ctx : List Frame) (depth : ℕ) :
    framesLeft (ctx.drop depth) ≤ framesLeft ctx := by
  have hsum := List.sum_take_add_sum_drop (ctx.map fun frame => movesOf frame.rest + 1) depth
  rw [framesLeft, framesLeft, List.map_drop]
  omega

/-! ### A function without loops and calls -/

def Frame.IsPlain : Frame → Prop
  | .block rest => allPlain rest = true
  | .loop _ _ _ => False

structure Place.IsPlain (p : Place) : Prop where
  code : allPlain p.code = true
  ctx : ∀ frame ∈ p.ctx, frame.IsPlain

variable {p t : Place} {m : Move}

theorem jump_plain (hp : p.IsPlain) {b : Branch} {is : Code} (hcode : p.code = .branch b :: is)
    {depth : ℕ} (h : p.jump depth = some t) :
    t.IsPlain ∧ t.trace = p.trace ∧ t.left < p.left := by
  have hleft : p.left = 1 + movesOf is + framesLeft p.ctx := by
    rw [Place.left, hcode]
    rfl
  have hdrop := framesLeft_drop p.ctx depth
  have hframes : ∀ frame ∈ p.ctx.drop depth, frame.IsPlain := fun frame hm =>
    hp.ctx frame (List.mem_of_mem_drop hm)
  rcases jump_cases h with ⟨rest, ctx, he, rfl⟩ | ⟨l, body, rest, ctx, he, rfl⟩ | ⟨-, rfl⟩
  · rw [he] at hdrop hframes
    obtain ⟨hrest, hctx⟩ := List.forall_mem_cons.mp hframes
    refine ⟨⟨hrest, hctx⟩, rfl, ?_⟩
    have hsum : framesLeft (.block rest :: ctx) = movesOf rest + 1 + framesLeft ctx := rfl
    have ht : (⟨rest, ctx, p.trace⟩ : Place).left = movesOf rest + framesLeft ctx := rfl
    omega
  · rw [he] at hframes
    exact absurd (List.forall_mem_cons.mp hframes).1 id
  · refine ⟨⟨rfl, by simp⟩, rfl, ?_⟩
    have ht : (⟨[], [], p.trace⟩ : Place).left = 0 := rfl
    omega

theorem next_plain (hp : p.IsPlain) (h : outcome p .next = some t) :
    t.IsPlain ∧ t.trace = p.trace ∧ t.left < p.left := by
  obtain ⟨code, ctx, trace⟩ := p
  obtain ⟨hcode, hctx⟩ := hp
  match code with
  | [] =>
    cases ctx with
    | nil => cases h
    | cons frame ctx =>
      obtain rfl := Option.some.inj h
      obtain ⟨hframe, hrest⟩ := List.forall_mem_cons.mp hctx
      cases frame with
      | block rest =>
        refine ⟨⟨hframe, hrest⟩, rfl, ?_⟩
        simp [Place.left, framesLeft, Frame.rest, movesOf]
      | loop l body rest => cases hframe
  | .branch b :: is =>
    obtain rfl := Option.some.inj h
    refine ⟨⟨hcode, hctx⟩, rfl, ?_⟩
    simp [Place.left, movesOf, WasmInst.moves]
  | .set l :: is =>
    obtain rfl := Option.some.inj h
    refine ⟨⟨hcode, hctx⟩, rfl, ?_⟩
    simp [Place.left, movesOf, WasmInst.moves]
  | .call c :: is => cases hcode
  | .loop l insts :: is => cases hcode
  | .block insts :: is =>
    obtain rfl := Option.some.inj h
    obtain ⟨hinsts, his⟩ := Bool.and_eq_true_iff.mp hcode
    refine ⟨⟨hinsts, List.forall_mem_cons.mpr ⟨his, hctx⟩⟩, rfl, ?_⟩
    simp only [Place.left, movesOf, WasmInst.moves, framesLeft, List.map_cons, List.sum_cons,
      Frame.rest]
    omega

theorem outcome_plain (hp : p.IsPlain) (h : outcome p m = some t) :
    t.IsPlain ∧ t.trace = p.trace ∧ t.left < p.left := by
  cases m with
  | next => exact next_plain hp h
  | jump depth =>
    unfold outcome at h
    simp only at h
    split at h
    · next b is hcode => exact jump_plain hp hcode h
    · cases h

/-- Only functions without loops and calls are executed, and nothing was called or entered. -/
structure Machine.IsPlain (s : Machine) : Prop where
  stack : ∀ p ∈ s.stack, p.IsPlain
  log : s.log = []

variable {prog : WasmProgram Branch} {s s' : Machine}

theorem machine_plain_step (hs : s.IsPlain) {a : Action} (h : s.step prog a = some s') :
    s'.IsPlain ∧ s'.left < s.left := by
  obtain ⟨stack, log⟩ := s
  obtain ⟨hstack, hlog⟩ := hs
  obtain rfl : log = [] := hlog
  cases a with
  | move m =>
    cases stack with
    | nil => cases h
    | cons p below =>
      obtain ⟨hp, hbelow⟩ := List.forall_mem_cons.mp hstack
      simp only [Machine.step] at h
      split at h
      · cases h
      · obtain ⟨t, ht, rfl⟩ := Option.map_eq_some_iff.mp h
        obtain ⟨htp, htrace, hleft⟩ := outcome_plain (p := { p with trace := [] })
          ⟨hp.code, hp.ctx⟩ ht
        refine ⟨⟨List.forall_mem_cons.mpr ⟨htp, hbelow⟩, ?_⟩, ?_⟩
        · simpa using htrace
        · have hp' : ({ p with trace := [] } : Place).left = p.left := rfl
          simp only [Machine.left, List.map_cons, List.sum_cons]
          omega
  | call calleeIdx =>
    cases stack with
    | nil => cases h
    | cons p below =>
      have hcode := (List.forall_mem_cons.mp hstack).1.code
      simp only [Machine.step] at h
      split at h
      · next heq =>
        obtain ⟨rfl, -⟩ := List.cons.inj heq
        cases hcode
      · cases h
  | finish =>
    simp only [Machine.step] at h
    split at h
    · obtain rfl := Option.some.inj h
      obtain ⟨-, hbelow⟩ := List.forall_mem_cons.mp hstack
      refine ⟨⟨hbelow, rfl⟩, ?_⟩
      simp [Machine.left]
    · cases h

theorem machine_plain_goes_on (hs : s.IsPlain) (hne : s.stack ≠ []) :
    ∃ a s', s.step prog a = some s' := by
  obtain ⟨stack, log⟩ := s
  cases stack with
  | nil => exact absurd rfl hne
  | cons p below =>
    obtain ⟨hcode, hctx⟩ := (List.forall_mem_cons.mp hs.stack).1
    obtain ⟨code, ctx, trace⟩ := p
    match code, ctx with
    | [], [] => exact ⟨.finish, _, rfl⟩
    | [], frame :: ctx => exact ⟨.move .next, _, rfl⟩
    | .branch b :: is, ctx => exact ⟨.move .next, _, rfl⟩
    | .set l :: is, ctx => exact ⟨.move .next, _, rfl⟩
    | .block insts :: is, ctx => exact ⟨.move .next, _, rfl⟩
    | .call c :: is, ctx => cases hcode
    | .loop l insts :: is, ctx => cases hcode

theorem start_plain {f : WasmFunction Branch} (h : allPlain f.insts = true) :
    (start f).IsPlain ∧ (start f).left = movesOf f.insts + 1 := by
  refine ⟨⟨?_, rfl⟩, rfl⟩
  intro p hp
  obtain rfl := List.mem_singleton.mp hp
  exact ⟨h, by simp [entry]⟩

mutual

theorem WasmInst.isPlain_map {γ : Type} (g : β → γ) :
    (i : WasmInst β) → (i.map g).isPlain = i.isPlain
  | .branch _ => rfl
  | .call _ => rfl
  | .set _ => rfl
  | .block insts => allPlain_map g insts
  | .loop _ _ => rfl

theorem allPlain_map {γ : Type} (g : β → γ) :
    (is : List (WasmInst β)) → allPlain (mapInsts g is) = allPlain is
  | [] => rfl
  | i :: is => by rw [mapInsts, allPlain, allPlain, i.isPlain_map, allPlain_map g is]

end

theorem plain_of_returned (hnames : (prog.map WasmFunction.funcIdx).Nodup) {fuel : ℕ}
    (hfuel : 0 < fuel) {simple : List ℤ} (h : simpleFuncPass fuel (forget prog) = some simple)
    {f : WasmFunction Branch} (hf : f ∈ prog) (hsimple : f.funcIdx ∈ simple) :
    allPlain f.insts = true := by
  obtain ⟨g', hg', hplain, hidx⟩ := (mem_simpleFuncPass hfuel h).mp hsimple
  obtain ⟨g, hg, rfl⟩ := List.mem_map.mp hg'
  obtain rfl : g = f := List.inj_on_of_nodup_map hnames hg hf hidx
  rwa [allPlain_map] at hplain

/-- An execution of a function that is returned is bounded, goes on until it has left the
function, enters no loop and calls only functions that are returned. -/
theorem returned_run_to_end (prog : WasmProgram Branch)
    (hnames : ((forget prog).map WasmFunction.funcIdx).Nodup) {fuel : ℕ} (hfuel : 0 < fuel) :
    ∃ simple, simpleFuncPass fuel (forget prog) = some simple ∧
      ∀ f ∈ prog, f.funcIdx ∈ simple → ∀ (path : List Action) (s : Machine),
        Run.exec (Machine.step prog) (start f) path = some s →
          path.length ≤ movesOf f.insts + 1 ∧
          (s.stack ≠ [] → ∃ a s', s.step prog a = some s') ∧
          (∀ l, .header l ∉ s.log) ∧ ∀ c, .call c ∈ s.log → c ∈ simple := by
  have hfuncs : (prog.map WasmFunction.funcIdx).Nodup := by
    rwa [forget, List.map_map] at hnames
  have hpass := simpleFuncPass_eq (forget prog) hfuel
  refine ⟨_, hpass, ?_⟩
  intro f hf hsimple path s hrun
  obtain ⟨hstart, hleft⟩ := start_plain (plain_of_returned hfuncs hfuel hpass hf hsimple)
  have hstep : ∀ (s : Machine) (a : Action) (s' : Machine), s.IsPlain → s.step prog a = some s' →
      s'.IsPlain ∧ s'.left < s.left := fun _ _ _ hs h => machine_plain_step hs h
  have hs : s.IsPlain := Run.exec_invariant Machine.IsPlain
    (fun s a s' hs h => (hstep s a s' hs h).1) _ _ _ hstart hrun
  have hlength := Run.exec_length_le Machine.IsPlain Machine.left hstep _ _ _ hstart hrun
  refine ⟨by omega, machine_plain_goes_on hs, ?_, ?_⟩
  · intro l hl
    rw [hs.log] at hl
    cases hl
  · intro c hc
    rw [hs.log] at hc
    cases hc

/-- `(block (br_if 0) (local.set 0))`, which the first function calls. -/
def callAndBlock : WasmProgram Branch :=
  [⟨0, [.call 1]⟩, ⟨1, [.block [.branch (.brIf 0), .set 0]]⟩]

theorem returned_run_to_end_block :
    ∃ simple, simpleFuncPass 1 (forget callAndBlock) = some simple ∧
      ∀ f ∈ callAndBlock, f.funcIdx ∈ simple → ∀ (path : List Action) (s : Machine),
        Run.exec (Machine.step callAndBlock) (start f) path = some s →
          path.length ≤ movesOf f.insts + 1 ∧
          (s.stack ≠ [] → ∃ a s', s.step callAndBlock a = some s') ∧
          (∀ l, .header l ∉ s.log) ∧ ∀ c, .call c ∈ s.log → c ∈ simple :=
  returned_run_to_end callAndBlock (by decide) Nat.one_pos

end MVVM.Analysis
