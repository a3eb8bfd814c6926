import MVVM.Analysis.Written

/-!
# The tree of a module text

What a text stands for as a `WasmProgram`, under a reading of its names, and the tree that
the parser takes out of the lines written for it.
-/

namespace MVVM.Analysis

open MVVM.Text

/-- What the names of a text stand for, and whether a tail call is a call in the tree. -/
structure Reading where
  calleeIdx : Ident → ℤ
  localIdx : Ident → ℤ
  tailIsCall : Bool

def Operand.index (r : Reading) : Operand → ℤ
  | .num n => n
  | .ident id => r.localIdx id

def LeafOp.node (r : Reading) : LeafOp → WasmInst Unit
  | .br _ | .brIf _ | .brTable | .ret => .branch ()
  | .call callee => .call (r.calleeIdx callee)
  | .callIndirect => .call (-1)
  | .returnCall callee => if r.tailIsCall then .call (r.calleeIdx callee) else .branch ()
  | .returnCallIndirect => if r.tailIsCall then .call (-1) else .branch ()
  | .localSet x | .localTee x => .set (x.index r)

mutual

/-- The nodes of an instruction, its loops numbered from `n` on. An `if` is a block. -/
def WatInst.tree (r : Reading) (n : ℕ) : WatInst → List (WasmInst Unit)
  | .block _ body _ => [.block (treeOf r n body)]
  | .loop _ body _ => [.loop n (treeOf r (n + 1) body)]
  | .ifThen _ body _ => [.block (treeOf r n body)]
  | .ifElse _ body _ elseBody _ =>
    [.block (treeOf r n body ++ treeOf r (n + loopCountOf body) elseBody)]
  | .leaf op _ => [op.node r]
  | .other _ => []

def treeOf (r : Reading) (n : ℕ) : List WatInst → List (WasmInst Unit)
  | [] => []
  | i :: is => i.tree r n ++ treeOf r (n + i.loopCount) is

end

def WatModule.program (r : Reading) (m : WatModule) : WasmProgram Unit :=
  numberFuncs 0 (m.funcs.map fun f => treeOf r 0 f.body)

/-! ### Loops are numbered in the order of the text -/

theorem loopsOf_append {β : Type} (is js : List (WasmInst β)) :
    loopsOf (is ++ js) = loopsOf is ++ loopsOf js := by
  induction is with
  | nil => rfl
  | cons i is ih => rw [List.cons_append, loopsOf, loopsOf, ih, List.append_assoc]

def loopNumbers (n k : ℕ) : List ℤ := (List.range' n k).map Int.ofNat

theorem loopNumbers_add (n k k' : ℕ) :
    loopNumbers n (k + k') = loopNumbers n k ++ loopNumbers (n + k) k' := by
  rw [loopNumbers, ← List.range'_append_1, List.map_append]
  rfl

theorem loopNumbers_succ (n k : ℕ) :
    loopNumbers n (k + 1) = (n : ℤ) :: loopNumbers (n + 1) k := by
  rw [loopNumbers, List.range'_succ, List.map_cons]
  rfl

theorem LeafOp.loops_node (r : Reading) (op : LeafOp) : (op.node r).loops = [] := by
  cases op <;> simp only [LeafOp.node] <;> first | rfl | (split <;> rfl)

mutual

theorem WatInst.loops_tree (r : Reading) :
    (i : WatInst) → (n : ℕ) →
      (loopsOf (i.tree r n)).map Prod.fst = loopNumbers n i.loopCount
  | .block _ body _, n => by
    simpa [WatInst.tree, loopsOf, WasmInst.loops, WatInst.loopCount]
      using loops_treeOf r body n
  | .loop _ body _, n => by
    have hbody := loops_treeOf r body (n + 1)
    simp only [WatInst.tree, loopsOf, WasmInst.loops, WatInst.loopCount, List.append_nil,
      List.map_cons, hbody, loopNumbers_succ]
  | .ifThen _ body _, n => by
    simpa [WatInst.tree, loopsOf, WasmInst.loops, WatInst.loopCount]
      using loops_treeOf r body n
  | .ifElse _ body _ elseBody _, n => by
    simp only [WatInst.tree, loopsOf, WasmInst.loops, WatInst.loopCount, List.append_nil,
      loopsOf_append, List.map_append, loops_treeOf r body n,
      loops_treeOf r elseBody (n + loopCountOf body), loopNumbers_add]
  | .leaf op _, n => by
    rw [WatInst.tree, loopsOf, loopsOf, op.loops_node]
    rfl
  | .other _, n => rfl

theorem loops_treeOf (r : Reading) :
    (is : List WatInst) → (n : ℕ) →
      (loopsOf (treeOf r n is)).map Prod.fst = loopNumbers n (loopCountOf is)
  | [], _ => rfl
  | i :: is, n => by
    rw [treeOf, loopsOf_append, List.map_append, i.loops_tree r n,
      loops_treeOf r is (n + i.loopCount), loopCountOf, loopNumbers_add]

end

theorem nodup_loopNumbers (n k : ℕ) : (loopNumbers n k).Nodup :=
  (List.nodup_range' (s := n) (n := k)).map fun _ _ h => Int.ofNat.inj h

theorem distinctNames_program (r : Reading) (m : WatModule) : DistinctNames (m.program r) := by
  have hfuncs : ∀ (iss : List (List (WasmInst Unit))) (fi : ℕ),
      (numberFuncs fi iss).map WasmFunction.funcIdx = loopNumbers fi iss.length := by
    intro iss
    induction iss with
    | nil => exact fun fi => rfl
    | cons is iss ih =>
      intro fi
      rw [numberFuncs, List.map_cons, ih (fi + 1), List.length_cons, loopNumbers_succ]
  have hinsts : ∀ (iss : List (List (WasmInst Unit))) (fi : ℕ),
      ∀ f ∈ numberFuncs fi iss, f.insts ∈ iss := by
    intro iss
    induction iss with
    | nil => exact fun fi f hf => absurd hf List.not_mem_nil
    | cons is iss ih =>
      intro fi f hf
      rcases List.mem_cons.mp hf with rfl | hrest
      · exact List.mem_cons_self
      · exact List.mem_cons_of_mem _ (ih (fi + 1) f hrest)
  refine ⟨?_, fun f hf => ?_⟩
  · rw [WatModule.program, hfuncs]
    exact nodup_loopNumbers _ _
  · obtain ⟨g, -, hg⟩ := List.mem_map.mp (hinsts _ _ f hf)
    rw [← hg, loops_treeOf]
    exact nodup_loopNumbers _ _

/-! ### What is written and what is read of it -/

/-- How the script reads a text: names by its table, tail calls by their first word. -/
def fileReading (table : FuncTable) : Reading where
  calleeIdx id := table.names.idxOf id.text - table.importFuncCnt
  localIdx _ := 0
  tailIsCall := false

theorem LeafOp.leaf_of_entry {table : FuncTable} {op : LeafOp} {e : Entry}
    (h : op.entry table = .ok e) : e.leaf = some (op.node (fileReading table)) := by
  cases op with
  | br x => cases x <;> cases h; rfl
  | brIf x => cases x <;> cases h; rfl
  | localSet x => cases x <;> cases h; rfl
  | localTee x => cases x <;> cases h; rfl
  | call id =>
    simp only [LeafOp.entry, lookupFuncIdx] at h
    split at h
    · cases h
      rfl
    · cases h
  | brTable => cases h; rfl
  | ret => cases h; rfl
  | callIndirect => cases h; rfl
  | returnCall id => cases h; rfl
  | returnCallIndirect => cases h; rfl

theorem map_eq_ok {ε α β : Type*} {x : Except ε α} {g : α → β} {b : β} :
    x.map g = .ok b ↔ ∃ a, x = .ok a ∧ g a = b := by
  cases x <;> simp [Except.map]

mutual

theorem WatInst.reads_written (table : FuncTable) :
    (i : WatInst) → (n : ℕ) → (es : List Entry) → i.ifs = 0 → i.written table n = .ok es →
      Reads es (i.tree (fileReading table) n)
  | .block _ body _, n, es, hifs, h => by
    obtain ⟨bs, hbody, rfl⟩ := map_eq_ok.mp h
    exact .block (reads_writtenAll table body n bs hifs hbody) .nil
  | .loop _ body _, n, es, hifs, h => by
    obtain ⟨bs, hbody, rfl⟩ := map_eq_ok.mp h
    exact .loop n (reads_writtenAll table body (n + 1) bs hifs hbody) .nil
  | .ifThen _ _ _, n, es, hifs, h => absurd hifs (Nat.succ_ne_zero _)
  | .ifElse _ _ _ _ _, n, es, hifs, h => absurd hifs (Nat.succ_ne_zero _)
  | .leaf op _, n, es, hifs, h => by
    obtain ⟨e, hentry, rfl⟩ := map_eq_ok.mp h
    exact .leaf (LeafOp.leaf_of_entry hentry) .nil
  | .other _, n, es, hifs, h => by
    obtain rfl := Except.ok.inj h
    exact .nil

theorem reads_writtenAll (table : FuncTable) :
    (is : List WatInst) → (n : ℕ) → (es : List Entry) → ifsOf is = 0 →
      writtenAll table n is = .ok es → Reads es (treeOf (fileReading table) n is)
  | [], n, es, hifs, h => by
    obtain rfl := Except.ok.inj h
    exact .nil
  | i :: is, n, es, hifs, h => by
    rw [ifsOf, Nat.add_eq_zero_iff] at hifs
    obtain ⟨bs, hi, hr⟩ := bind_eq_ok.mp h
    obtain ⟨fs, his, rfl⟩ := map_eq_ok.mp hr
    exact (i.reads_written table n bs hifs.1 hi).append
      (reads_writtenAll table is (n + i.loopCount) fs hifs.2 his)

end

theorem LeafOp.flat_of_entry {table : FuncTable} {op : LeafOp} {e : Entry}
    (h : op.entry table = .ok e) : e.rise = 0 ∧ e ≠ .endFunc := by
  have hleaf := LeafOp.leaf_of_entry h
  refine ⟨?_, ?_⟩
  · cases e <;> first | rfl | cases hleaf
  · rintro rfl
    cases hleaf

mutual

theorem WatInst.rise_written (table : FuncTable) :
    (i : WatInst) → (n : ℕ) → (es : List Entry) → i.written table n = .ok es →
      (es.map Entry.rise).sum = -(i.ifs : ℤ) ∧ .endFunc ∉ es
  | .block _ body _, n, es, h => by
    obtain ⟨bs, hbody, rfl⟩ := map_eq_ok.mp h
    have hin := rise_writtenAll table body n bs hbody
    simp [Entry.rise, WatInst.ifs, hin.1, hin.2]
  | .loop _ body _, n, es, h => by
    obtain ⟨bs, hbody, rfl⟩ := map_eq_ok.mp h
    have hin := rise_writtenAll table body (n + 1) bs hbody
    simp [Entry.rise, WatInst.ifs, hin.1, hin.2]
  | .ifThen _ body _, n, es, h => by
    obtain ⟨bs, hbody, rfl⟩ := map_eq_ok.mp h
    have hin := rise_writtenAll table body n bs hbody
    simp [Entry.rise, WatInst.ifs, hin.1, hin.2]
    omega
  | .ifElse _ body _ elseBody _, n, es, h => by
    obtain ⟨bs, hbody, hr⟩ := bind_eq_ok.mp h
    obtain ⟨cs, helse, rfl⟩ := map_eq_ok.mp hr
    have hin := rise_writtenAll table body n bs hbody
    have hin' := rise_writtenAll table elseBody (n + loopCountOf body) cs helse
    simp [Entry.rise, WatInst.ifs, hin.1, hin.2, hin'.1, hin'.2]
    omega
  | .leaf op _, n, es, h => by
    obtain ⟨e, hentry, rfl⟩ := map_eq_ok.mp h
    have he := LeafOp.flat_of_entry hentry
    simp [WatInst.ifs, he.1, he.2.symm]
  | .other _, n, es, h => by
    obtain rfl := Except.ok.inj h
    simp [WatInst.ifs]

theorem rise_writtenAll (table : FuncTable) :
    (is : List WatInst) → (n : ℕ) → (es : List Entry) → writtenAll table n is = .ok es →
      (es.map Entry.rise).sum = -(ifsOf is : ℤ) ∧ .endFunc ∉ es
  | [], n, es, h => by
    obtain rfl := Except.ok.inj h
    simp [ifsOf]
  | i :: is, n, es, h => by
    obtain ⟨bs, hi, hr⟩ := bind_eq_ok.mp h
    obtain ⟨cs, his, rfl⟩ := map_eq_ok.mp hr
    have hone := i.rise_written table n bs hi
    have hrest := rise_writtenAll table is (n + i.loopCount) cs his
    simp [ifsOf, hone.1, hone.2, hrest.1, hrest.2]
    omega

end

mutual

theorem WatInst.written_isOk (table : FuncTable) :
    (i : WatInst) → (n : ℕ) →
      ((∃ es, i.written table n = .ok es) ↔ ∀ op ∈ i.leaves, ∃ e, op.entry table = .ok e)
  | .block _ body _, n => by
    rw [WatInst.leaves, ← writtenAll_isOk table body n, WatInst.written]
    cases writtenAll table n body <;> simp [Except.map]
  | .loop _ body _, n => by
    rw [WatInst.leaves, ← writtenAll_isOk table body (n + 1), WatInst.written]
    cases writtenAll table (n + 1) body <;> simp [Except.map]
  | .ifThen _ body _, n => by
    rw [WatInst.leaves, ← writtenAll_isOk table body n, WatInst.written]
    cases writtenAll table n body <;> simp [Except.map]
  | .ifElse _ body _ elseBody _, n => by
    rw [WatInst.leaves, List.forall_mem_append, ← writtenAll_isOk table body n,
      ← writtenAll_isOk table elseBody (n + loopCountOf body), WatInst.written]
    cases writtenAll table n body <;>
      cases writtenAll table (n + loopCountOf body) elseBody <;> simp [Except.map, Except.bind]
  | .leaf op _, n => by
    rw [WatInst.leaves, List.forall_mem_singleton, WatInst.written]
    cases op.entry table <;> simp [Except.map]
  | .other _, n => by simp [WatInst.leaves, WatInst.written]

theorem writtenAll_isOk (table : FuncTable) :
    (is : List WatInst) → (n : ℕ) →
      ((∃ es, writtenAll table n is = .ok es) ↔ ∀ op ∈ leavesOf is, ∃ e, op.entry table = .ok e)
  | [], n => by simp [leavesOf, writtenAll]
  | i :: is, n => by
    rw [leavesOf, List.forall_mem_append, ← i.written_isOk table n,
      ← writtenAll_isOk table is (n + i.loopCount), writtenAll]
    cases i.written table n <;>
      cases writtenAll table (n + i.loopCount) is <;> simp [Except.map, Except.bind]

end

end MVVM.Analysis
