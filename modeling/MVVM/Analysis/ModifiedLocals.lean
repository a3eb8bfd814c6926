import MVVM.Analysis.Tree
import Mathlib.Data.Finset.Lattice.Lemmas

/-!
# The locals that a loop modifies (wasm_static_analysis.py:357-398)

`ModifiedLocalsPass` gathers the locals from the leaves to the root, and appends an entry
when it leaves a loop.
-/

namespace MVVM.Analysis

variable {β : Type}

/-- The index of the function, that of the loop, and the locals. -/
abbrev LoopLocals := ℤ × ℤ × Finset ℤ

mutual

/-- `visit` under `cur_func_idx`, with what it appends to `results`. -/
def visitLocals (cur : ℤ) : Node (Finset ℤ) → Node (Finset ℤ) × List LoopLocals
  | .branch data => (.branch (data.or (some ∅)), [])
  | .call calleeIdx data => (.call calleeIdx (data.or (some ∅)), [])
  | .set localIdx data => (.set localIdx (data.or (some {localIdx})), [])
  | .block insts (some modified) => (.block insts (some modified), [])
  | .block insts none =>
    let (insts', modified, results) := visitAllLocals cur ∅ insts
    (.block insts' (some modified), results)
  | .loop loopIdx insts (some modified) => (.loop loopIdx insts (some modified), [])
  | .loop loopIdx insts none =>
    let (insts', modified, results) := visitAllLocals cur ∅ insts
    (.loop loopIdx insts' (some modified), results ++ [(cur, loopIdx, modified)])

/-- The loop of `visit_block`, on `modified_locals`. -/
def visitAllLocals (cur : ℤ) (modified : Finset ℤ) :
    List (Node (Finset ℤ)) → List (Node (Finset ℤ)) × Finset ℤ × List LoopLocals
  | [] => ([], modified, [])
  | i :: is =>
    let (i', results) := visitLocals cur i
    let (is', modified', results') := visitAllLocals cur (modified ∪ i'.data.getD ∅) is
    (i' :: is', modified', results ++ results')

end

def visitFuncLocals (f : FuncNode (Finset ℤ)) : FuncNode (Finset ℤ) × List LoopLocals :=
  match f.data with
  | some _ => (f, [])
  | none =>
    let (block, results) := visitLocals f.funcIdx f.block
    ({ f with block := block, data := block.data }, results)

def modifiedLocalsPass (prog : WasmProgram β) : List LoopLocals :=
  (prog.map (WasmFunction.fresh (Finset ℤ))).flatMap fun f => (visitFuncLocals f).2

/-! ### What the entries are -/

mutual

/-- The locals of the `local.set` and `local.tee` at any depth. -/
def WasmInst.sets : WasmInst β → List ℤ
  | .branch _ | .call _ => []
  | .set localIdx => [localIdx]
  | .block insts | .loop _ insts => setsOf insts

def setsOf : List (WasmInst β) → List ℤ
  | [] => []
  | i :: is => i.sets ++ setsOf is

end

def loopLocals (funcIdx : ℤ) (l : ℤ × List (WasmInst β)) : LoopLocals :=
  (funcIdx, l.1, (setsOf l.2).toFinset)

mutual

theorem data_visitLocals (cur : ℤ) :
    (i : WasmInst β) → (visitLocals cur (i.fresh _)).1.data = some i.sets.toFinset
  | .branch _ => rfl
  | .call _ => rfl
  | .set _ => rfl
  | .block insts => by
    have h := modified_visitAllLocals cur ∅ insts
    rw [Finset.empty_union] at h
    rw [WasmInst.sets, ← h]
    rfl
  | .loop l insts => by
    have h := modified_visitAllLocals cur ∅ insts
    rw [Finset.empty_union] at h
    rw [WasmInst.sets, ← h]
    rfl

theorem modified_visitAllLocals (cur : ℤ) (modified : Finset ℤ) :
    (is : List (WasmInst β)) →
      (visitAllLocals cur modified (freshInsts _ is)).2.1 = modified ∪ (setsOf is).toFinset
  | [] => (Finset.union_empty modified).symm
  | i :: is => by
    rw [freshInsts, visitAllLocals, setsOf, List.toFinset_append, ← Finset.union_assoc]
    simp only [data_visitLocals cur i, Option.getD_some]
    exact modified_visitAllLocals cur _ is

end

mutual

theorem results_visitLocals (cur : ℤ) :
    (i : WasmInst β) →
      (visitLocals cur (i.fresh _)).2.Perm (i.loops.map (loopLocals cur))
  | .branch _ => .refl _
  | .call _ => .refl _
  | .set _ => .refl _
  | .block insts => results_visitAllLocals cur ∅ insts
  | .loop l insts => by
    have hmodified := modified_visitAllLocals cur ∅ insts
    rw [Finset.empty_union] at hmodified
    have hown : (visitLocals cur ((WasmInst.loop l insts).fresh _)).2 =
        (visitAllLocals cur ∅ (freshInsts _ insts)).2.2 ++ [loopLocals cur (l, insts)] := by
      rw [loopLocals, ← hmodified]
      rfl
    rw [hown, WasmInst.loops, List.map_cons]
    -- the loop comes behind the loops inside it
    exact (List.perm_append_singleton _ _).trans ((results_visitAllLocals cur ∅ insts).cons _)

theorem results_visitAllLocals (cur : ℤ) (modified : Finset ℤ) :
    (is : List (WasmInst β)) →
      (visitAllLocals cur modified (freshInsts _ is)).2.2.Perm
        ((loopsOf is).map (loopLocals cur))
  | [] => .refl _
  | i :: is => by
    rw [freshInsts, visitAllLocals, loopsOf, List.map_append]
    exact (results_visitLocals cur i).append (results_visitAllLocals cur _ is)

end

theorem modifiedLocalsPass_perm (prog : WasmProgram β) :
    (modifiedLocalsPass prog).Perm
      (prog.flatMap fun f => (loopsOf f.insts).map (loopLocals f.funcIdx)) := by
  rw [modifiedLocalsPass, List.flatMap_map]
  induction prog with
  | nil => exact .refl _
  | cons f prog ih =>
    rw [List.flatMap_cons, List.flatMap_cons]
    exact (results_visitLocals f.funcIdx (.block f.insts)).append ih

example : modifiedLocalsPass
    [(⟨3, [.loop 0 [.set 1, .loop 1 [.set 2]], .set 5]⟩ : WasmFunction Unit)] =
    [(3, 1, {2}), (3, 0, {1, 2})] := by decide

end MVVM.Analysis
