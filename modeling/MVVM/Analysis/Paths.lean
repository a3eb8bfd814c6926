import MVVM.Run
import MVVM.Analysis.LoopCkpt
import Mathlib.Data.Finset.Empty

/-!
# Paths through a function and the loops without a checkpoint

A path is a run of the control flow of one function: it chooses at each branch whether
and where to jump, and leaves a trace of the calls and of the loop headers it passes. A
header that the pass does not report keeps its checkpoint, and so does a call of a
function that is not simple.
-/

namespace MVVM.Analysis

/-- The branches, with the depths that `WasmBranch` drops (wasm_static_analysis.py:173-188). -/
inductive Branch where
  | br (depth : ℕ)
  | brIf (depth : ℕ)
  | brTable (depths : List ℕ) (default : ℕ)
  | ret
  deriving DecidableEq, Repr

/-- Where a branch under `height` labels can go; a `return` is a branch out of all of them. -/
def Branch.depths (height : ℕ) : Branch → List ℕ
  | .br depth => [depth]
  | .brIf depth => [depth]
  | .brTable depths default => depths ++ [default]
  | .ret => [height]

def Branch.fallsThrough : Branch → Bool
  | .brIf _ => true
  | _ => false

abbrev Code := List (WasmInst Branch)

inductive Frame where
  | block (rest : Code)
  | loop (loopIdx : ℤ) (body rest : Code)

def Frame.rest : Frame → Code
  | .block rest => rest
  | .loop _ _ rest => rest

inductive Event where
  | call (calleeIdx : ℤ)
  | header (loopIdx : ℤ)
  deriving DecidableEq, Repr

structure Place where
  code : Code
  -- the labels in scope, innermost first
  ctx : List Frame
  trace : List Event

inductive Move where
  | next
  | jump (depth : ℕ)
  deriving DecidableEq, Repr

/-- A jump to a loop goes to its header, one to a block behind it, and one past the
last label out of the function. -/
def Place.jump (p : Place) (depth : ℕ) : Option Place :=
  match p.ctx.drop depth with
  | .block rest :: ctx => some { p with code := rest, ctx := ctx }
  | .loop l body rest :: ctx =>
    some ⟨body, .loop l body rest :: ctx, p.trace ++ [.header l]⟩
  | [] => if depth = p.ctx.length then some { p with code := [], ctx := [] } else none

def step (p : Place) : Move → Option Place
  | .next =>
    match p.code, p.ctx with
    | [], [] => none
    | [], frame :: ctx => some { p with code := frame.rest, ctx := ctx }
    | .branch b :: is, _ => if b.fallsThrough then some { p with code := is } else none
    | .set _ :: is, _ => some { p with code := is }
    | .call c :: is, _ => some { p with code := is, trace := p.trace ++ [.call c] }
    | .block insts :: is, ctx => some { p with code := insts, ctx := .block is :: ctx }
    | .loop l insts :: is, ctx =>
      some ⟨insts, .loop l insts is :: ctx, p.trace ++ [.header l]⟩
  | .jump depth =>
    match p.code with
    | .branch b :: _ => if depth ∈ b.depths p.ctx.length then p.jump depth else none
    | _ => none

def entry (f : WasmFunction Branch) : Place := ⟨f.insts, [], []⟩

def Place.AtHeader (p : Place) (l : ℤ) : Prop :=
  ∃ rest ctx, p.ctx = .loop l p.code rest :: ctx

def Event.isCkpt (S : Finset ℤ) (skip : List (ℤ × ℤ)) (f : ℤ) : Event → Bool
  | .call c => c ∉ S
  | .header l => (f, l) ∉ skip

def Checkpointed (S : Finset ℤ) (skip : List (ℤ × ℤ)) (f : ℤ) (trace : List Event) : Prop :=
  ∃ e ∈ trace, e.isCkpt S skip f

def remaining (ctx : List Frame) : Code := ctx.flatMap Frame.rest

theorem jump_cases {p t : Place} {depth : ℕ} (h : p.jump depth = some t) :
    (∃ rest ctx, p.ctx.drop depth = .block rest :: ctx ∧ t = ⟨rest, ctx, p.trace⟩) ∨
    (∃ l body rest ctx, p.ctx.drop depth = .loop l body rest :: ctx ∧
      t = ⟨body, .loop l body rest :: ctx, p.trace ++ [.header l]⟩) ∨
    (p.ctx.drop depth = [] ∧ t = ⟨[], [], p.trace⟩) := by
  unfold Place.jump at h
  split at h
  · next rest ctx hdrop => exact .inl ⟨rest, ctx, hdrop, (Option.some.inj h).symm⟩
  · next l body rest ctx hdrop =>
    exact .inr (.inl ⟨l, body, rest, ctx, hdrop, (Option.some.inj h).symm⟩)
  · next hdrop =>
    split at h
    · exact .inr (.inr ⟨hdrop, (Option.some.inj h).symm⟩)
    · cases h

theorem step_cases {p t : Place} {m : Move} (h : step p m = some t) :
    (∃ frame ctx, p.code = [] ∧ p.ctx = frame :: ctx ∧ t = ⟨frame.rest, ctx, p.trace⟩) ∨
    (∃ b is, p.code = .branch b :: is ∧ b.fallsThrough = true ∧ t = ⟨is, p.ctx, p.trace⟩) ∨
    (∃ x is, p.code = .set x :: is ∧ t = ⟨is, p.ctx, p.trace⟩) ∨
    (∃ c is, p.code = .call c :: is ∧ t = ⟨is, p.ctx, p.trace ++ [.call c]⟩) ∨
    (∃ insts is, p.code = .block insts :: is ∧ t = ⟨insts, .block is :: p.ctx, p.trace⟩) ∨
    (∃ l insts is, p.code = .loop l insts :: is ∧
      t = ⟨insts, .loop l insts is :: p.ctx, p.trace ++ [.header l]⟩) ∨
    (∃ b is depth, p.code = .branch b :: is ∧ depth ∈ b.depths p.ctx.length ∧ m = .jump depth ∧
      p.jump depth = some t) := by
  obtain ⟨code, ctx, trace⟩ := p
  cases m with
  | next =>
    simp only [step] at h
    split at h
    · cases h
    · next frame ctx' => exact .inl ⟨frame, ctx', rfl, rfl, (Option.some.inj h).symm⟩
    · next _ b is =>
      split at h
      · next hfalls => exact .inr (.inl ⟨b, is, rfl, hfalls, (Option.some.inj h).symm⟩)
      · cases h
    · next _ x is => exact .inr (.inr (.inl ⟨x, is, rfl, (Option.some.inj h).symm⟩))
    · next _ c is => exact .inr (.inr (.inr (.inl ⟨c, is, rfl, (Option.some.inj h).symm⟩)))
    · next _ insts is =>
      exact .inr (.inr (.inr (.inr (.inl ⟨insts, is, rfl, (Option.some.inj h).symm⟩))))
    · next _ l insts is =>
      exact .inr (.inr (.inr (.inr (.inr (.inl ⟨l, insts, is, rfl, (Option.some.inj h).symm⟩)))))
  | jump depth =>
    simp only [step] at h
    split at h
    · next b is =>
      split at h
      · next hmem =>
        exact .inr (.inr (.inr (.inr (.inr (.inr ⟨b, is, depth, rfl, hmem, rfl, h⟩)))))
      · cases h
    · cases h

/-- `loop (call $host) (br_if 0) end`, with one import. -/
def callThenRepeat : WasmFunction Branch := ⟨0, [.loop 0 [.call (-1), .branch (.brIf 0)]]⟩

/-- `loop (br_if 0) (call $host) end`: the repetition goes around the call. -/
def repeatThenCall : WasmFunction Branch := ⟨0, [.loop 0 [.branch (.brIf 0), .call (-1)]]⟩

theorem distinctNames_singleton (fn : WasmFunction Branch)
    (h : ((loopsOf (mapInsts (fun _ => ()) fn.insts)).map Prod.fst).Nodup) :
    DistinctNames (forget [fn]) where
  funcs := List.nodup_singleton _
  loops f hf := by
    rw [List.mem_singleton.mp hf]
    exact h

end MVVM.Analysis
