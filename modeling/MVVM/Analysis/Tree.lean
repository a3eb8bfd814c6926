import Mathlib.Data.List.Nodup
import Mathlib.Data.Int.Notation

/-!
# The instruction tree of the static analysis (wasm_static_analysis.py:173-296)

`WasmProgram` keeps of a module what the passes look at: blocks, loops with their
numbers, calls, assignments of locals, and that there is a branch. The parser throws a
branch's kind and depth away; a tree that still has them carries them as the payload `β`.
-/

namespace MVVM.Analysis

inductive WasmInst (β : Type) where
  | branch (b : β)
  -- `callee_idx`, which is -1 for `call_indirect`
  | call (calleeIdx : ℤ)
  | set (localIdx : ℤ)
  | block (insts : List (WasmInst β))
  | loop (loopIdx : ℤ) (insts : List (WasmInst β))
  deriving Repr, BEq, Inhabited

structure WasmFunction (β : Type) where
  funcIdx : ℤ
  insts : List (WasmInst β)
  deriving Repr, BEq, Inhabited

abbrev WasmProgram (β : Type) := List (WasmFunction β)

variable {β γ : Type}

/-! ### What the parser keeps -/

mutual

def WasmInst.map (g : β → γ) : WasmInst β → WasmInst γ
  | .branch b => .branch (g b)
  | .call c => .call c
  | .set l => .set l
  | .block insts => .block (mapInsts g insts)
  | .loop l insts => .loop l (mapInsts g insts)

def mapInsts (g : β → γ) : List (WasmInst β) → List (WasmInst γ)
  | [] => []
  | i :: is => i.map g :: mapInsts g is

end

/-- The program as the parser has it: a `WasmBranch` keeps nothing of its branch. -/
def forget (prog : WasmProgram β) : WasmProgram Unit :=
  prog.map fun f => ⟨f.funcIdx, mapInsts (fun _ => ()) f.insts⟩

/-! ### The loops of a tree -/

mutual

def WasmInst.loops : WasmInst β → List (ℤ × List (WasmInst β))
  | .branch _ => []
  | .call _ => []
  | .set _ => []
  | .block insts => loopsOf insts
  | .loop l insts => (l, insts) :: loopsOf insts

def loopsOf : List (WasmInst β) → List (ℤ × List (WasmInst β))
  | [] => []
  | i :: is => i.loops ++ loopsOf is

end

/-- The numbers of functions, and of the loops of each function, are distinct. -/
structure DistinctNames (prog : WasmProgram β) : Prop where
  funcs : (prog.map WasmFunction.funcIdx).Nodup
  loops : ∀ f ∈ prog, ((loopsOf f.insts).map Prod.fst).Nodup

mutual

theorem WasmInst.loops_map (g : β → γ) :
    (i : WasmInst β) → (i.map g).loops.map Prod.fst = i.loops.map Prod.fst
  | .branch _ => rfl
  | .call _ => rfl
  | .set _ => rfl
  | .block insts => loopsOf_map g insts
  | .loop l insts => by
    simp only [WasmInst.map, WasmInst.loops, List.map_cons, loopsOf_map g insts]

theorem loopsOf_map (g : β → γ) :
    (is : List (WasmInst β)) →
      (loopsOf (mapInsts g is)).map Prod.fst = (loopsOf is).map Prod.fst
  | [] => rfl
  | i :: is => by
    rw [mapInsts, loopsOf, loopsOf, List.map_append, List.map_append, i.loops_map g,
      loopsOf_map g is]

end

theorem distinctNames_of_forget {prog : WasmProgram β} (h : DistinctNames (forget prog)) :
    DistinctNames prog where
  funcs := by
    have hfuncs := h.funcs
    rwa [forget, List.map_map] at hfuncs
  loops := by
    intro f hf
    have hloops := h.loops _ (List.mem_map_of_mem hf)
    rwa [loopsOf_map] at hloops

mutual

theorem WasmInst.loops_sublist {l : ℤ} {body : List (WasmInst β)} :
    (i : WasmInst β) → (l, body) ∈ i.loops → ((l, body) :: loopsOf body).Sublist i.loops
  | .branch _, h => by simp [WasmInst.loops] at h
  | .call _, h => by simp [WasmInst.loops] at h
  | .set _, h => by simp [WasmInst.loops] at h
  | .block insts, h => loopsOf_sublist insts h
  | .loop l' insts, h => by
    rw [WasmInst.loops] at h ⊢
    rcases List.mem_cons.mp h with he | hin
    · obtain ⟨rfl, rfl⟩ := Prod.mk.inj he
      exact List.Sublist.refl _
    · exact (loopsOf_sublist insts hin).cons _

theorem loopsOf_sublist {l : ℤ} {body : List (WasmInst β)} :
    (is : List (WasmInst β)) → (l, body) ∈ loopsOf is →
      ((l, body) :: loopsOf body).Sublist (loopsOf is)
  | [], h => by simp [loopsOf] at h
  | i :: is, h => by
    rw [loopsOf] at h ⊢
    rcases List.mem_append.mp h with hi | his
    · exact (i.loops_sublist hi).trans (List.sublist_append_left _ _)
    · exact (loopsOf_sublist is his).trans (List.sublist_append_right _ _)

end

theorem body_unique {l : ℤ} {b b' is : List (WasmInst β)}
    (hnames : ((loopsOf is).map Prod.fst).Nodup) (h : (l, b) ∈ loopsOf is)
    (h' : (l, b') ∈ loopsOf is) : b = b' :=
  (Prod.mk.inj (List.inj_on_of_nodup_map hnames h h' rfl)).2

/-! ### The tree with the data of a pass -/

/-- An instruction with its entry in `data` for one pass. -/
inductive Node (δ : Type) where
  | branch (data : Option δ)
  | call (calleeIdx : ℤ) (data : Option δ)
  | set (localIdx : ℤ) (data : Option δ)
  | block (insts : List (Node δ)) (data : Option δ)
  | loop (loopIdx : ℤ) (insts : List (Node δ)) (data : Option δ)
  deriving Repr, Inhabited

def Node.data {δ : Type} : Node δ → Option δ
  | .branch data | .call _ data | .set _ data | .block _ data | .loop _ _ data => data

structure FuncNode (δ : Type) where
  funcIdx : ℤ
  block : Node δ
  data : Option δ
  deriving Repr, Inhabited

mutual

/-- No pass has visited it. -/
def WasmInst.fresh (δ : Type) : WasmInst β → Node δ
  | .branch _ => .branch none
  | .call c => .call c none
  | .set l => .set l none
  | .block insts => .block (freshInsts δ insts) none
  | .loop l insts => .loop l (freshInsts δ insts) none

def freshInsts (δ : Type) : List (WasmInst β) → List (Node δ)
  | [] => []
  | i :: is => i.fresh δ :: freshInsts δ is

end

def WasmFunction.fresh (δ : Type) (f : WasmFunction β) : FuncNode δ :=
  ⟨f.funcIdx, .block (freshInsts δ f.insts) none, none⟩

end MVVM.Analysis
