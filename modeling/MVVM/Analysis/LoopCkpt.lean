import MVVM.Analysis.Tree
import Mathlib.Data.Finset.Defs

/-!
# The loops that need no checkpoint of their own (wasm_static_analysis.py:400-470)

`LoopCkptPass` goes through each function and reports a loop when its body has a call of
a function that is not simple, or a loop: the checkpoint there is to serve for the loop as
well. The visit of a block stops behind the first such instruction.
-/

namespace MVVM.Analysis

variable {β γ : Type}

/-- `data["loop_ckpt"]` of an instruction. -/
structure CkptData where
  noinf : Bool
  ckpt : Bool
  deriving DecidableEq, Repr

mutual

def visitInst (S : Finset ℤ) : WasmInst β → CkptData × List ℤ
  | .branch _ => (⟨true, false⟩, [])
  | .set _ => (⟨true, false⟩, [])
  | .call calleeIdx => if calleeIdx ∈ S then (⟨true, false⟩, []) else (⟨false, true⟩, [])
  | .block insts => visitBlock S insts
  | .loop loopIdx insts =>
    let (data, results) := visitBlock S insts
    (⟨false, true⟩, results ++ if data.ckpt then [loopIdx] else [])

/-- The loop of `visit_block`, which `break`s behind an instruction without `noinf`. -/
def visitBlock (S : Finset ℤ) : List (WasmInst β) → CkptData × List ℤ
  | [] => (⟨true, false⟩, [])
  | i :: is =>
    let (data, results) := visitInst S i
    if data.noinf then
      let (data', results') := visitBlock S is
      (⟨data'.noinf, data.ckpt || data'.ckpt⟩, results ++ results')
    else (⟨false, data.ckpt⟩, results)

end

/-- `LoopCkptPass`: the pairs of a function and a loop that are reported. -/
def loopCkptPass (S : Finset ℤ) (prog : WasmProgram β) : List (ℤ × ℤ) :=
  prog.flatMap fun f => (visitBlock S f.insts).2.map fun l => (f.funcIdx, l)

def hasCkpt (S : Finset ℤ) (is : List (WasmInst β)) : Bool := (visitBlock S is).1.ckpt

mutual

theorem noinf_visitInst (S : Finset ℤ) :
    (i : WasmInst β) → (visitInst S i).1.noinf = !(visitInst S i).1.ckpt
  | .branch _ => rfl
  | .set _ => rfl
  | .call c => by
    rw [visitInst]
    split <;> rfl
  | .block insts => noinf_visitBlock S insts
  | .loop _ _ => rfl

theorem noinf_visitBlock (S : Finset ℤ) :
    (is : List (WasmInst β)) → (visitBlock S is).1.noinf = !(visitBlock S is).1.ckpt
  | [] => rfl
  | i :: is => by
    have hi := noinf_visitInst S i
    have his := noinf_visitBlock S is
    rw [visitBlock]
    cases hc : (visitInst S i).1.ckpt with
    | true => simp [hi, hc]
    | false => simp [hi, hc, his]

end

@[simp] theorem hasCkpt_nil (S : Finset ℤ) : hasCkpt S ([] : List (WasmInst β)) = false := rfl

theorem hasCkpt_cons (S : Finset ℤ) (i : WasmInst β) (is : List (WasmInst β)) :
    hasCkpt S (i :: is) = ((visitInst S i).1.ckpt || hasCkpt S is) := by
  have hi := noinf_visitInst S i
  rw [hasCkpt, visitBlock]
  cases hc : (visitInst S i).1.ckpt with
  | true => simp [hi, hc]
  | false => simp [hi, hc, hasCkpt]

@[simp] theorem hasCkpt_branch (S : Finset ℤ) (b : β) (is : List (WasmInst β)) :
    hasCkpt S (.branch b :: is) = hasCkpt S is := hasCkpt_cons S _ is

@[simp] theorem hasCkpt_set (S : Finset ℤ) (l : ℤ) (is : List (WasmInst β)) :
    hasCkpt S (.set l :: is) = hasCkpt S is := hasCkpt_cons S _ is

@[simp] theorem hasCkpt_block (S : Finset ℤ) (b is : List (WasmInst β)) :
    hasCkpt S (.block b :: is) = (hasCkpt S b || hasCkpt S is) := hasCkpt_cons S _ is

@[simp] theorem hasCkpt_loop (S : Finset ℤ) (l : ℤ) (b is : List (WasmInst β)) :
    hasCkpt S (.loop l b :: is) = true := hasCkpt_cons S _ is

/-! ### The pass does not look at a branch -/

mutual

theorem visitInst_map (S : Finset ℤ) (g : β → γ) :
    (i : WasmInst β) → visitInst S (i.map g) = visitInst S i
  | .branch _ => rfl
  | .set _ => rfl
  | .call _ => rfl
  | .block insts => by
    rw [WasmInst.map, visitInst, visitInst]
    exact visitBlock_map S g insts
  | .loop l insts => by
    have h := visitBlock_map S g insts
    rw [WasmInst.map, visitInst, visitInst, h]

theorem visitBlock_map (S : Finset ℤ) (g : β → γ) :
    (is : List (WasmInst β)) → visitBlock S (mapInsts g is) = visitBlock S is
  | [] => rfl
  | i :: is => by
    rw [mapInsts, visitBlock, visitBlock, visitInst_map S g i, visitBlock_map S g is]

end

theorem loopCkptPass_forget (S : Finset ℤ) (prog : WasmProgram β) :
    loopCkptPass S (forget prog) = loopCkptPass S prog := by
  simp only [loopCkptPass, forget, List.flatMap_map, visitBlock_map]

/-! ### What is reported -/

mutual

theorem reported_visitInst {S : Finset ℤ} {l : ℤ} :
    (i : WasmInst β) → l ∈ (visitInst S i).2 → ∃ b, (l, b) ∈ i.loops ∧ hasCkpt S b = true
  | .branch _, h => by simp [visitInst] at h
  | .set _, h => by simp [visitInst] at h
  | .call c, h => by
    rw [visitInst] at h
    split at h <;> simp at h
  | .block insts, h => reported_visitBlock insts h
  | .loop l' insts, h => by
    rw [visitInst] at h
    rcases List.mem_append.mp h with hin | hself
    · obtain ⟨b, hb, hc⟩ := reported_visitBlock insts hin
      exact ⟨b, List.mem_cons_of_mem _ hb, hc⟩
    · by_cases hc : hasCkpt S insts = true
      · rw [if_pos (show (visitBlock S insts).1.ckpt = true from hc)] at hself
        exact ⟨insts, List.mem_singleton.mp hself ▸ List.mem_cons_self, hc⟩
      · rw [if_neg (show ¬ (visitBlock S insts).1.ckpt = true from hc)] at hself
        simp at hself

theorem reported_visitBlock {S : Finset ℤ} {l : ℤ} :
    (is : List (WasmInst β)) → l ∈ (visitBlock S is).2 →
      ∃ b, (l, b) ∈ loopsOf is ∧ hasCkpt S b = true
  | [], h => by simp [visitBlock] at h
  | i :: is, h => by
    have hmem : l ∈ (visitInst S i).2 ∨ l ∈ (visitBlock S is).2 := by
      rw [visitBlock] at h
      simp only at h
      split at h
      · exact List.mem_append.mp h
      · exact .inl h
    rcases hmem with hi | his
    · obtain ⟨b, hb, hc⟩ := reported_visitInst i hi
      exact ⟨b, List.mem_append_left _ hb, hc⟩
    · obtain ⟨b, hb, hc⟩ := reported_visitBlock is his
      exact ⟨b, List.mem_append_right _ hb, hc⟩

end

end MVVM.Analysis
