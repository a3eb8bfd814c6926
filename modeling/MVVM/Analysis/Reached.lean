import MVVM.Analysis.LoopCkpt
import MVVM.Analysis.SimpleFunc

/-!
# The loops that the visit of a function comes to (wasm_static_analysis.py:423-470)

`visit_block` leaves a block behind the first loop and the first call that is not simple,
and what stands behind it is not visited, loops included.
-/

namespace MVVM.Analysis

variable {β : Type}

structure Passes (S : Finset ℤ) (is : List (WasmInst β)) : Prop where
  loops : loopsOf is = []
  calls : ∀ c ∈ calleesOf is, c ∈ S

/-- Before the loop `l` with the body `b` there is no other loop and no call that is not
simple, neither in its block nor in a block or loop around it. -/
inductive Reached (S : Finset ℤ) (l : ℤ) (b : List (WasmInst β)) : List (WasmInst β) → Prop where
  | here {is : List (WasmInst β)} : Reached S l b (.loop l b :: is)
  | block {insts is : List (WasmInst β)} : Reached S l b insts → Reached S l b (.block insts :: is)
  | loop {l' : ℤ} {insts is : List (WasmInst β)} :
      Reached S l b insts → Reached S l b (.loop l' insts :: is)
  | later {i : WasmInst β} {is : List (WasmInst β)} :
      Passes S [i] → Reached S l b is → Reached S l b (i :: is)

mutual

def WasmInst.hasBranch : WasmInst β → Bool
  | .branch _ => true
  | .call _ | .set _ => false
  | .block insts | .loop _ insts => anyBranch insts

def anyBranch : List (WasmInst β) → Bool
  | [] => false
  | i :: is => i.hasBranch || anyBranch is

end

/-- A call outside of `S`, a `call_indirect` or a loop, and no branch before it. -/
inductive Qualifies (S : Finset ℤ) : List (WasmInst β) → Prop where
  | call {c : ℤ} {is : List (WasmInst β)} : c ∉ S → Qualifies S (.call c :: is)
  | callIndirect {is : List (WasmInst β)} : Qualifies S (.call (-1) :: is)
  | loop {l : ℤ} {insts is : List (WasmInst β)} : Qualifies S (.loop l insts :: is)
  | block {insts is : List (WasmInst β)} : Qualifies S insts → Qualifies S (.block insts :: is)
  | later {i : WasmInst β} {is : List (WasmInst β)} :
      i.hasBranch = false → Qualifies S is → Qualifies S (i :: is)

def ReportsQualified (S : Finset ℤ) (prog : WasmProgram β) : Prop :=
  ∀ f ∈ prog, ∀ l b, (l, b) ∈ loopsOf f.insts → Qualifies S b →
    (f.funcIdx, l) ∈ loopCkptPass S prog

/-! ### The visit of a block -/

variable {S : Finset ℤ} {l : ℤ} {b : List (WasmInst β)}

theorem passes_iff {is : List (WasmInst β)} :
    Passes S is ↔ loopsOf is = [] ∧ ∀ c ∈ calleesOf is, c ∈ S :=
  ⟨fun h => ⟨h.loops, h.calls⟩, fun h => ⟨h.1, h.2⟩⟩

theorem passes_single {i : WasmInst β} :
    Passes S [i] ↔ i.loops = [] ∧ ∀ c ∈ i.callees, c ∈ S := by
  rw [passes_iff, loopsOf, calleesOf, loopsOf, calleesOf, List.append_nil, List.append_nil]

theorem passes_cons {i : WasmInst β} {is : List (WasmInst β)} :
    Passes S (i :: is) ↔ Passes S [i] ∧ Passes S is := by
  rw [passes_single, passes_iff, passes_iff, loopsOf, calleesOf, List.append_eq_nil_iff,
    List.forall_mem_append]
  tauto

mutual

theorem ckpt_visitInst :
    (i : WasmInst β) → ((visitInst S i).1.ckpt = false ↔ Passes S [i])
  | .branch _ => by simp [visitInst, passes_single, WasmInst.loops, WasmInst.callees]
  | .set _ => by simp [visitInst, passes_single, WasmInst.loops, WasmInst.callees]
  | .call c => by
    rw [visitInst, passes_single, WasmInst.loops, WasmInst.callees]
    split <;> simp_all
  | .block insts => by
    rw [passes_single, WasmInst.loops, WasmInst.callees, ← passes_iff]
    exact ckpt_visitBlock insts
  | .loop l insts => by simp [visitInst, passes_single, WasmInst.loops]

theorem ckpt_visitBlock :
    (is : List (WasmInst β)) → (hasCkpt S is = false ↔ Passes S is)
  | [] => by simp [passes_iff, loopsOf, calleesOf]
  | i :: is => by
    rw [hasCkpt_cons, Bool.or_eq_false_iff, ckpt_visitInst i, ckpt_visitBlock is, ← passes_cons]

end

theorem hasCkpt_iff {is : List (WasmInst β)} : hasCkpt S is = true ↔ ¬Passes S is := by
  rw [← ckpt_visitBlock, Bool.not_eq_false]

theorem mem_visitBlock_cons {i : WasmInst β} {is : List (WasmInst β)} :
    l ∈ (visitBlock S (i :: is)).2 ↔
      l ∈ (visitInst S i).2 ∨ (Passes S [i] ∧ l ∈ (visitBlock S is).2) := by
  have hnoinf := noinf_visitInst S i
  rw [visitBlock, ← ckpt_visitInst i]
  cases hc : (visitInst S i).1.ckpt with
  | true => simp [hnoinf, hc]
  | false => simp [hnoinf, hc]

theorem mem_visitInst_loop {l' : ℤ} {insts : List (WasmInst β)} :
    l ∈ (visitInst S (.loop l' insts)).2 ↔
      l ∈ (visitBlock S insts).2 ∨ (l = l' ∧ ¬Passes S insts) := by
  rw [visitInst, ← hasCkpt_iff]
  change l ∈ (visitBlock S insts).2 ++ (if hasCkpt S insts = true then [l'] else []) ↔ _
  rw [List.mem_append]
  split <;> simp_all

/-! ### What is reached is reported -/

theorem reached_cons (i : WasmInst β) (is : List (WasmInst β)) :
    Reached S l b (i :: is) ↔ Reached S l b [i] ∨ (Passes S [i] ∧ Reached S l b is) := by
  constructor
  · intro h
    cases h with
    | here => exact .inl .here
    | block hin => exact .inl (.block hin)
    | loop hin => exact .inl (.loop hin)
    | later hi his => exact .inr ⟨hi, his⟩
  · intro h
    rcases h with hi | ⟨hi, his⟩
    · cases hi with
      | here => exact .here
      | block hin => exact .block hin
      | loop hin => exact .loop hin
      | later _ hnil => cases hnil
    · exact .later hi his

theorem reached_block {insts : List (WasmInst β)} :
    Reached S l b [.block insts] ↔ Reached S l b insts := by
  constructor
  · intro h
    cases h with
    | block hin => exact hin
    | later _ hnil => cases hnil
  · exact .block

theorem reached_loop {l' : ℤ} {insts : List (WasmInst β)} :
    Reached S l b [.loop l' insts] ↔ Reached S l b insts ∨ (l = l' ∧ b = insts) := by
  constructor
  · intro h
    cases h with
    | here => exact .inr ⟨rfl, rfl⟩
    | loop hin => exact .inl hin
    | later _ hnil => cases hnil
  · intro h
    rcases h with hin | ⟨rfl, rfl⟩
    · exact .loop hin
    · exact .here

theorem Reached.mem {is : List (WasmInst β)} (h : Reached S l b is) : (l, b) ∈ loopsOf is := by
  induction h with
  | here => exact List.mem_cons_self
  | block _ ih => exact List.mem_append_left _ ih
  | loop _ ih => exact List.mem_append_left _ (List.mem_cons_of_mem _ ih)
  | later _ _ ih => exact List.mem_append_right _ ih

theorem not_reported_leaf {i : WasmInst β} (h : i.loops = []) (hvisit : (visitInst S i).2 = []) :
    l ∈ (visitInst S i).2 ↔ ∃ b, Reached S l b [i] ∧ ¬Passes S b := by
  constructor
  · intro hl
    rw [hvisit] at hl
    cases hl
  · intro ⟨b, hb, _⟩
    have hmem := hb.mem
    rw [loopsOf, loopsOf, List.append_nil, h] at hmem
    cases hmem

mutual

theorem reported_inst :
    (i : WasmInst β) → (l ∈ (visitInst S i).2 ↔ ∃ b, Reached S l b [i] ∧ ¬Passes S b)
  | .branch _ => not_reported_leaf rfl rfl
  | .set _ => not_reported_leaf rfl rfl
  | .call c => by
    refine not_reported_leaf rfl ?_
    rw [visitInst]
    split <;> rfl
  | .block insts => by
    simp only [reached_block]
    exact reported_block insts
  | .loop l' insts => by
    rw [mem_visitInst_loop, reported_block insts]
    simp only [reached_loop, or_and_right, exists_or]
    simp

theorem reported_block :
    (is : List (WasmInst β)) → (l ∈ (visitBlock S is).2 ↔ ∃ b, Reached S l b is ∧ ¬Passes S b)
  | [] => by
    constructor
    · intro h
      cases h
    · intro ⟨b, hb, _⟩
      cases hb
  | i :: is => by
    rw [mem_visitBlock_cons, reported_inst i, reported_block is]
    simp only [reached_cons i is, or_and_right, exists_or]
    refine or_congr_right ?_
    constructor
    · intro ⟨hi, b, hb, hbad⟩
      exact ⟨b, ⟨hi, hb⟩, hbad⟩
    · intro ⟨b, ⟨hi, hb⟩, hbad⟩
      exact ⟨hi, b, hb, hbad⟩

end

theorem mem_loopCkptPass {prog : WasmProgram β} {n : ℤ} :
    (n, l) ∈ loopCkptPass S prog ↔
      ∃ f ∈ prog, f.funcIdx = n ∧ ∃ b, Reached S l b f.insts ∧ ¬Passes S b := by
  simp only [loopCkptPass, List.mem_flatMap, List.mem_map, Prod.mk.injEq, ← reported_block]
  constructor
  · rintro ⟨f, hf, l', hl', hidx, he⟩
    exact ⟨f, hf, hidx, he ▸ hl'⟩
  · rintro ⟨f, hf, hidx, hl⟩
    exact ⟨f, hf, l, hl, hidx, rfl⟩

/-- The loops that qualify are reported just when each of them, or another one of the same
name, is reached and has an instruction that does not pass. -/
theorem reports_qualified_iff (S : Finset ℤ) (prog : WasmProgram β) :
    ReportsQualified S prog ↔
      ∀ f ∈ prog, ∀ l b, (l, b) ∈ loopsOf f.insts → Qualifies S b →
        ∃ g ∈ prog, g.funcIdx = f.funcIdx ∧ ∃ b', Reached S l b' g.insts ∧ ¬Passes S b' := by
  refine forall₂_congr fun f _ => forall₂_congr fun l b => ?_
  rw [mem_loopCkptPass]

/-- Two loops behind one another, which each call a function of the host. -/
def twoLoops : WasmFunction Unit := ⟨0, [.loop 0 [.call (-1)], .loop 1 [.call (-1)]]⟩

theorem second_loop_not_reported :
    ¬∀ (S : Finset ℤ) (prog : WasmProgram Unit), ReportsQualified S prog := by
  intro hclaim
  have hmem : ((1, [.call (-1)]) : ℤ × List (WasmInst Unit)) ∈ loopsOf twoLoops.insts := by
    simp [twoLoops, loopsOf, WasmInst.loops]
  have hreported := hclaim ∅ [twoLoops] twoLoops List.mem_cons_self 1 _ hmem .callIndirect
  exact absurd hreported (by decide)

end MVVM.Analysis
