import MVVM.Loop
import MVVM.Analysis.Tree
import Mathlib.Data.Finset.Sort
import Mathlib.Data.Int.ConditionallyCompleteOrder
import Mathlib.Order.ConditionallyCompleteLattice.Basic

/-!
# The functions without a checkpoint (wasm_static_analysis.py:298-355)

`SimpleFuncPass` marks each node once, and again and again goes through the functions until
the set of the simple ones no longer grows.
-/

namespace MVVM.Analysis

variable {β γ : Type}

/-- `visit_call`. The assignments to the entry, of which the last one stands. -/
def visitCall (S : Finset ℤ) (calleeIdx : ℤ) : Option Bool :=
  ((if calleeIdx ∈ S then [true] else []) ++ [false]).getLast?

mutual

/-- `visit`. A node that has its entry is left as it is. -/
def visitSimple (S : Finset ℤ) : Node Bool → Node Bool
  | .branch data => .branch (data.or (some true))
  | .set localIdx data => .set localIdx (data.or (some true))
  | .call calleeIdx data => .call calleeIdx (data.or (visitCall S calleeIdx))
  | .loop loopIdx insts data => .loop loopIdx insts (data.or (some false))
  | .block insts (some simple) => .block insts (some simple)
  | .block insts none =>
    let (insts', simple) := visitSimples S insts
    .block insts' (some simple)

/-- The loop of `visit_block`, which returns behind an instruction that is not simple. -/
def visitSimples (S : Finset ℤ) : List (Node Bool) → List (Node Bool) × Bool
  | [] => ([], true)
  | i :: is =>
    let i' := visitSimple S i
    if i'.data = some true then
      let (is', simple) := visitSimples S is
      (i' :: is', simple)
    else (i' :: is, false)

end

def visitFunc (S : Finset ℤ) (f : FuncNode Bool) : FuncNode Bool :=
  match f.data with
  | some _ => f
  | none =>
    let block := visitSimple S f.block
    { f with block := block, data := block.data }

/-- `iteration`, on the functions and `simple_func_set`. -/
def iteration (S : Finset ℤ) : List (FuncNode Bool) → List (FuncNode Bool) × Finset ℤ
  | [] => ([], S)
  | f :: fs =>
    let f' := visitFunc S f
    let (fs', S') := iteration (if f'.data = some true then insert f'.funcIdx S else S) fs
    (f' :: fs', S')

def fixpointBody (s : List (FuncNode Bool) × Finset ℤ) :
    (List (FuncNode Bool) × Finset ℤ) ⊕ Finset ℤ :=
  let previousCnt := s.2.card
  let (fs, S) := iteration s.2 s.1
  if S.card = previousCnt then .inr S else .inl (fs, S)

def simpleFuncPass (fuel : ℕ) (prog : WasmProgram β) : Option (List ℤ) :=
  (Loop.run fixpointBody fuel (iteration ∅ (prog.map (WasmFunction.fresh Bool)))).map fun S =>
    S.sort

/-! ### What is marked -/

mutual

def WasmInst.isPlain : WasmInst β → Bool
  | .branch _ => true
  | .call _ => false
  | .set _ => true
  | .block insts => allPlain insts
  | .loop _ _ => false

def allPlain : List (WasmInst β) → Bool
  | [] => true
  | i :: is => i.isPlain && allPlain is

end

/-- The call is not simple whatever it calls. -/
theorem visitCall_eq (S : Finset ℤ) (calleeIdx : ℤ) : visitCall S calleeIdx = some false := by
  rw [visitCall, List.getLast?_append, List.getLast?_singleton, Option.some_or]

mutual

theorem visitSimple_fresh (S : Finset ℤ) :
    (i : WasmInst β) → (visitSimple S (i.fresh Bool)).data = some i.isPlain
  | .branch _ => rfl
  | .call c => visitCall_eq S c
  | .set _ => rfl
  | .block insts => congrArg some (visitSimples_fresh S insts)
  | .loop _ _ => rfl

theorem visitSimples_fresh (S : Finset ℤ) :
    (is : List (WasmInst β)) → (visitSimples S (freshInsts Bool is)).2 = allPlain is
  | [] => rfl
  | i :: is => by
    have hi := visitSimple_fresh S i
    have his := visitSimples_fresh S is
    rw [freshInsts, visitSimples, allPlain]
    cases hp : i.isPlain with
    | true => simp [hi, hp, his]
    | false => simp [hi, hp]

end

theorem visitFunc_fresh (S : Finset ℤ) (f : WasmFunction β) :
    (visitFunc S (f.fresh Bool)).data = some (allPlain f.insts) ∧
      (visitFunc S (f.fresh Bool)).funcIdx = f.funcIdx :=
  ⟨visitSimple_fresh S (.block f.insts), rfl⟩

def plainIndices (prog : WasmProgram β) : Finset ℤ :=
  ((prog.filter fun f => allPlain f.insts).map WasmFunction.funcIdx).toFinset

theorem mem_plainIndices {prog : WasmProgram β} {n : ℤ} :
    n ∈ plainIndices prog ↔ ∃ f ∈ prog, allPlain f.insts = true ∧ f.funcIdx = n := by
  simp [plainIndices, and_assoc]

def Marked (fs : List (FuncNode Bool)) (prog : WasmProgram β) : Prop :=
  List.Forall₂ (fun f g => f.data = some (allPlain g.insts) ∧ f.funcIdx = g.funcIdx) fs prog

theorem insert_plain (S : Finset ℤ) (f : WasmFunction β) (prog : WasmProgram β) :
    (if some (allPlain f.insts) = some true then insert f.funcIdx S else S) ∪
        plainIndices prog = S ∪ plainIndices (f :: prog) := by
  cases hp : allPlain f.insts with
  | true =>
    ext n
    simp only [plainIndices, List.filter_cons, hp, if_true, List.map_cons, List.toFinset_cons,
      Finset.mem_union, Finset.mem_insert]
    tauto
  | false => simp [plainIndices, hp]

theorem iteration_fresh (prog : WasmProgram β) (S : Finset ℤ) :
    Marked (iteration S (prog.map (WasmFunction.fresh Bool))).1 prog ∧
      (iteration S (prog.map (WasmFunction.fresh Bool))).2 = S ∪ plainIndices prog := by
  induction prog generalizing S with
  | nil => exact ⟨.nil, (Finset.union_empty S).symm⟩
  | cons f prog ih =>
    obtain ⟨hdata, hidx⟩ := visitFunc_fresh S f
    rw [List.map_cons, iteration]
    simp only [hdata, hidx]
    obtain ⟨hmarked, hset⟩ := ih (if some (allPlain f.insts) = some true then
      insert f.funcIdx S else S)
    exact ⟨.cons ⟨hdata, hidx⟩ hmarked, by rw [hset, insert_plain]⟩

theorem visitFunc_marked {f : FuncNode Bool} {simple : Bool} (h : f.data = some simple)
    (S : Finset ℤ) : visitFunc S f = f := by
  rw [visitFunc, h]

theorem iteration_marked {fs : List (FuncNode Bool)} {prog : WasmProgram β} (h : Marked fs prog)
    (S : Finset ℤ) : iteration S fs = (fs, S ∪ plainIndices prog) := by
  induction h generalizing S with
  | nil => exact Prod.ext rfl (Finset.union_empty S).symm
  | @cons f g fs prog hfg _ ih =>
    rw [iteration]
    simp only [visitFunc_marked hfg.1, hfg.1, hfg.2, ih, insert_plain]

/-- The second iteration visits nothing: what the first one finds is all. -/
theorem simpleFuncPass_eq (prog : WasmProgram β) {fuel : ℕ} (hfuel : 0 < fuel) :
    simpleFuncPass fuel prog = some (plainIndices prog).sort := by
  obtain ⟨fuel, rfl⟩ := Nat.exists_eq_add_one.mpr hfuel
  obtain ⟨hmarked, hset⟩ := iteration_fresh prog ∅
  have hbody : fixpointBody (iteration ∅ (prog.map (WasmFunction.fresh Bool))) =
      .inr (plainIndices prog) := by
    rw [Finset.empty_union] at hset
    rw [fixpointBody, hset]
    simp only [iteration_marked hmarked, Finset.union_self, if_true]
  rw [simpleFuncPass, Loop.run_leave hbody]
  rfl

theorem mem_simpleFuncPass {prog : WasmProgram β} {fuel : ℕ} (hfuel : 0 < fuel)
    {simple : List ℤ} (h : simpleFuncPass fuel prog = some simple) {n : ℤ} :
    n ∈ simple ↔ ∃ f ∈ prog, allPlain f.insts = true ∧ f.funcIdx = n := by
  rw [simpleFuncPass_eq prog hfuel] at h
  obtain rfl := Option.some.inj h
  rw [Finset.mem_sort, mem_plainIndices]

/-! ### The rule of the pass -/

mutual

def WasmInst.callees : WasmInst β → List ℤ
  | .branch _ => []
  | .call calleeIdx => [calleeIdx]
  | .set _ => []
  | .block insts => calleesOf insts
  | .loop _ insts => calleesOf insts

def calleesOf : List (WasmInst β) → List ℤ
  | [] => []
  | i :: is => i.callees ++ calleesOf is

end

mutual

theorem WasmInst.isPlain_iff :
    (i : WasmInst β) → (i.isPlain = true ↔ i.loops = [] ∧ i.callees = [])
  | .branch _ => by simp [WasmInst.isPlain, WasmInst.loops, WasmInst.callees]
  | .call _ => by simp [WasmInst.isPlain, WasmInst.callees]
  | .set _ => by simp [WasmInst.isPlain, WasmInst.loops, WasmInst.callees]
  | .block insts => allPlain_iff insts
  | .loop _ _ => by simp [WasmInst.isPlain, WasmInst.loops]

theorem allPlain_iff :
    (is : List (WasmInst β)) → (allPlain is = true ↔ loopsOf is = [] ∧ calleesOf is = [])
  | [] => by simp [allPlain, loopsOf, calleesOf]
  | i :: is => by
    rw [allPlain, Bool.and_eq_true, i.isPlain_iff, allPlain_iff is, loopsOf, calleesOf,
      List.append_eq_nil_iff, List.append_eq_nil_iff]
    tauto

end

structure SimpleBy (set : List ℤ) (f : WasmFunction β) : Prop where
  loops : loopsOf f.insts = []
  direct : -1 ∉ calleesOf f.insts
  calls : ∀ c ∈ calleesOf f.insts, c ∈ set

/-- The functions from which all chains of calls end without a loop. -/
inductive CallChain (prog : WasmProgram β) : ℤ → Prop where
  | calls {f : WasmFunction β} : f ∈ prog → loopsOf f.insts = [] → -1 ∉ calleesOf f.insts →
      (∀ c ∈ calleesOf f.insts, CallChain prog c) → CallChain prog f.funcIdx

/-- The functions that the pass returns are closed under the rule, and so it finds the
chains of calls. -/
def FindsSimple (fuel : ℕ) (prog : WasmProgram β) : Prop :=
  ∃ simple, simpleFuncPass fuel prog = some simple ∧
    (∀ f ∈ prog, SimpleBy simple f → f.funcIdx ∈ simple) ∧
    ∀ n, CallChain prog n → n ∈ simple

theorem callChain_found {prog : WasmProgram β} {simple : List ℤ}
    (hclosed : ∀ f ∈ prog, SimpleBy simple f → f.funcIdx ∈ simple) {n : ℤ}
    (h : CallChain prog n) : n ∈ simple := by
  induction h with
  | calls hf hloops hdirect _ ih => exact hclosed _ hf ⟨hloops, hdirect, ih⟩

theorem simple_closed_iff (prog : WasmProgram β)
    (hnames : (prog.map WasmFunction.funcIdx).Nodup) {fuel : ℕ} (hfuel : 0 < fuel) :
    FindsSimple fuel prog ↔
      ∀ f ∈ prog, loopsOf f.insts = [] → -1 ∉ calleesOf f.insts → calleesOf f.insts ≠ [] →
        ∃ c ∈ calleesOf f.insts, ∀ g ∈ prog, g.funcIdx = c → allPlain g.insts = false := by
  have hpass := simpleFuncPass_eq prog hfuel
  have hmem (n : ℤ) := mem_simpleFuncPass hfuel hpass (n := n)
  constructor
  · intro ⟨simple, hsimple, hclosed, _⟩ f hf hloops hdirect hcalls
    obtain rfl := Option.some.inj (hpass.symm.trans hsimple)
    by_contra hall
    have hin : ∀ c ∈ calleesOf f.insts, c ∈ (plainIndices prog).sort := by
      intro c hc
      by_contra hout
      refine hall ⟨c, hc, fun g hg hidx => ?_⟩
      exact Bool.eq_false_iff.mpr fun hplain => hout ((hmem c).mpr ⟨g, hg, hplain, hidx⟩)
    obtain ⟨g, hg, hplain, hidx⟩ := (hmem _).mp (hclosed f hf ⟨hloops, hdirect, hin⟩)
    obtain rfl : g = f := List.inj_on_of_nodup_map hnames hg hf hidx
    exact hcalls ((allPlain_iff g.insts).mp hplain).2
  · intro hcond
    have hclosed : ∀ f ∈ prog, SimpleBy (plainIndices prog).sort f →
        f.funcIdx ∈ (plainIndices prog).sort := by
      intro f hf hrule
      by_cases hcalls : calleesOf f.insts = []
      · exact (hmem _).mpr ⟨f, hf, (allPlain_iff f.insts).mpr ⟨hrule.loops, hcalls⟩, rfl⟩
      · obtain ⟨c, hc, hnot⟩ := hcond f hf hrule.loops hrule.direct hcalls
        obtain ⟨g, hg, hplain, hidx⟩ := (hmem c).mp (hrule.calls c hc)
        rw [hnot g hg hidx] at hplain
        cases hplain
    exact ⟨_, hpass, hclosed, fun n hn => callChain_found hclosed hn⟩

theorem simple_closed_iff_indirect :
    FindsSimple 1 ([⟨0, [.branch ()]⟩, ⟨1, [.call (-1)]⟩] : WasmProgram Unit) := by
  refine (simple_closed_iff _ (by decide) Nat.zero_lt_one).mpr ?_
  intro f hf _ hdirect hcalls
  rcases List.mem_pair.mp hf with rfl | rfl
  · exact absurd rfl hcalls
  · exact absurd List.mem_cons_self hdirect

/-- The second function calls the first, which is empty. -/
theorem caller_not_found :
    ¬∀ prog : WasmProgram Unit, (prog.map WasmFunction.funcIdx).Nodup →
      ∃ fuel, FindsSimple fuel prog := by
  intro hclaim
  obtain ⟨fuel, simple, hpass, hclosed, -⟩ := hclaim [⟨0, []⟩, ⟨1, [.call 0]⟩] (by decide)
  have hfuel : 0 < fuel := by
    refine Nat.pos_of_ne_zero fun hzero => ?_
    rw [hzero] at hpass
    cases hpass
  have hmem (n : ℤ) := mem_simpleFuncPass hfuel hpass (n := n)
  have hcalls : ∀ c ∈ calleesOf [(.call 0 : WasmInst Unit)], c ∈ simple := by
    intro c hc
    exact (hmem c).mpr ⟨⟨0, []⟩, by simp, rfl, (List.mem_singleton.mp hc).symm⟩
  have hcaller := hclosed ⟨1, [.call 0]⟩ (by simp) ⟨rfl, by decide, hcalls⟩
  obtain ⟨g, hg, hplain, hidx⟩ := (hmem 1).mp hcaller
  rcases List.mem_pair.mp hg with rfl | rfl
  · cases hidx
  · cases hplain

end MVVM.Analysis
