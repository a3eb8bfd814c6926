import MVVM.Analysis.Translate

/-!
# When the tree is that of the text

The tree a text stands for has the callees' indices among the defined functions and tail
calls as calls. The script comes to it, or refuses a text with tail calls, under a
condition on the text alone.
-/

namespace MVVM.Analysis

open MVVM.Text

/-! ### Trees of one text under two readings -/

theorem WatInst.length_tree (r r' : Reading) (n : ℕ) (i : WatInst) :
    (i.tree r n).length = (i.tree r' n).length := by
  cases i <;> rfl

theorem length_treeOf (r r' : Reading) (is : List WatInst) (n : ℕ) :
    (treeOf r n is).length = (treeOf r' n is).length := by
  induction is generalizing n with
  | nil => rfl
  | cons i is ih =>
    rw [treeOf, treeOf, List.length_append, List.length_append, i.length_tree r r', ih]

theorem append_eq_iff {α : Type*} {a a' b b' : List α} (h : a.length = a'.length) :
    a ++ b = a' ++ b' ↔ a = a' ∧ b = b' :=
  ⟨fun he => List.append_inj he h, fun he => by rw [he.1, he.2]⟩

mutual

theorem WatInst.tree_eq_iff (r r' : Reading) :
    (i : WatInst) → (n : ℕ) →
      (i.tree r n = i.tree r' n ↔ ∀ op ∈ i.leaves, op.node r = op.node r')
  | .block _ body _, n => by
    simpa [WatInst.tree, WatInst.leaves] using treeOf_eq_iff r r' body n
  | .loop _ body _, n => by
    simpa [WatInst.tree, WatInst.leaves] using treeOf_eq_iff r r' body (n + 1)
  | .ifThen _ body _, n => by
    simpa [WatInst.tree, WatInst.leaves] using treeOf_eq_iff r r' body n
  | .ifElse _ body _ elseBody _, n => by
    rw [WatInst.leaves, List.forall_mem_append, ← treeOf_eq_iff r r' body n,
      ← treeOf_eq_iff r r' elseBody (n + loopCountOf body),
      ← append_eq_iff (length_treeOf r r' body n)]
    simp [WatInst.tree]
  | .leaf op _, n => by simp [WatInst.tree, WatInst.leaves]
  | .other _, n => by simp [WatInst.tree, WatInst.leaves]

theorem treeOf_eq_iff (r r' : Reading) :
    (is : List WatInst) → (n : ℕ) →
      (treeOf r n is = treeOf r' n is ↔ ∀ op ∈ leavesOf is, op.node r = op.node r')
  | [], n => by simp [treeOf, leavesOf]
  | i :: is, n => by
    rw [leavesOf, List.forall_mem_append, ← i.tree_eq_iff r r' n,
      ← treeOf_eq_iff r r' is (n + i.loopCount), treeOf, treeOf,
      append_eq_iff (i.length_tree r r' n)]

end

theorem numberFuncs_inj {fi : ℕ} {iss jss : List (List (WasmInst Unit))}
    (h : numberFuncs fi iss = numberFuncs fi jss) : iss = jss := by
  induction iss generalizing fi jss with
  | nil =>
    cases jss with
    | nil => rfl
    | cons js jss => cases h
  | cons is iss ih =>
    cases jss with
    | nil => cases h
    | cons js jss =>
      obtain ⟨hf, hrest⟩ := List.cons.inj h
      rw [(WasmFunction.mk.inj hf).2, ih hrest]

theorem WatModule.program_eq_iff (r r' : Reading) (m : WatModule) :
    m.program r = m.program r' ↔
      ∀ f ∈ m.funcs, ∀ op ∈ leavesOf f.body, op.node r = op.node r' := by
  have htrees : m.program r = m.program r' ↔
      m.funcs.map (fun f => treeOf r 0 f.body) = m.funcs.map fun f => treeOf r' 0 f.body :=
    ⟨fun h => numberFuncs_inj h, fun h => by rw [WatModule.program, WatModule.program, h]⟩
  rw [htrees, List.map_inj_left]
  exact forall_congr' fun f => imp_congr_right fun _ => treeOf_eq_iff r r' f.body 0

/-! ### What a text stands for -/

/-- The callees' indices are those among the defined functions, negative for an import, and
tail calls are calls. -/
structure Reading.Right (r : Reading) (m : WatModule) : Prop where
  defined : ∀ (j : ℕ) (f : WatFunc), m.funcs[j]? = some f → r.calleeIdx f.name = j
  imported : ∀ id ∈ m.importNames, r.calleeIdx id < 0
  tails : r.tailIsCall = true

def WatModule.StandsFor (m : WatModule) (prog : WasmProgram Unit) : Prop :=
  ∃ r : Reading, r.Right m ∧ prog = m.program r

def LeafOp.isTailCall : LeafOp → Bool
  | .returnCall _ | .returnCallIndirect => true
  | _ => false

def WatModule.HasTailCall (m : WatModule) : Prop :=
  ∃ f ∈ m.funcs, ∃ op ∈ leavesOf f.body, op.isTailCall

/-- The outcome is the tree of the text, or a text with tail calls is refused. -/
def WatModule.Faithful (m : WatModule) : Except Failure (WasmProgram Unit) → Prop
  | .ok prog => m.StandsFor prog
  | .error _ => m.HasTailCall

/-- The script can read the names and every body: no `if`, depths and locals are numbers,
every import is one of a function, and the names it reads are distinct and have the
callees among them. -/
def WatModule.Accepted (m : WatModule) : Prop :=
  ∃ names, m.NamesRead names ∧ ∀ f ∈ m.funcs, BodyRead (m.table names).names f.body

theorem LeafOp.node_ne_of_tailCall {r r' : Reading} {op : LeafOp} (h : op.isTailCall = true)
    (hr : r.tailIsCall = true) (hr' : r'.tailIsCall = false) : op.node r ≠ op.node r' := by
  cases op <;> simp [LeafOp.isTailCall] at h
  · simp [LeafOp.node, hr, hr']
  · simp [LeafOp.node, hr, hr']

theorem idxOf_func {m : WatModule} {names : List Str} (hnames : m.NamesRead names) {j : ℕ}
    {f : WatFunc} (hf : m.funcs[j]? = some f) :
    (m.table names).names.idxOf f.name.text = names.length + j := by
  have hget : (m.table names).names[names.length + j]? = some f.name.text := by
    rw [WatModule.table, List.getElem?_append_right (Nat.le_add_right _ _), Nat.add_sub_cancel_left,
      List.getElem?_map, hf]
    rfl
  obtain ⟨hlt, heq⟩ := List.getElem?_eq_some_iff.mp hget
  rw [← heq]
  exact hnames.nodup.idxOf_getElem _ hlt

theorem idxOf_import {m : WatModule} {names : List Str} {id : Ident} (hid : id ∈ m.importNames)
    (hmem : id.text ∈ (m.table names).names) :
    (m.table names).names.idxOf id.text < names.length := by
  have hnot : id.text ∉ m.funcs.map fun f => f.name.text := by
    intro hfunc
    obtain ⟨f, hf, htext⟩ := List.mem_map.mp hfunc
    have hsame : f.name = id := by
      cases hname : f.name
      cases id
      simp_all
    have hunique := m.unique
    rw [List.nodup_append] at hunique
    exact hunique.2.2 id hid f.name (List.mem_map_of_mem hf) hsame.symm
  have hin : id.text ∈ names := (List.mem_append.mp hmem).resolve_right hnot
  rw [WatModule.table, List.idxOf_append_of_mem hin]
  exact List.idxOf_lt_length_iff.mpr hin

def callReading (table : FuncTable) : Reading where
  calleeIdx id := if id.text ∈ table.names then table.names.idxOf id.text - table.importFuncCnt
    else -1
  localIdx _ := 0
  tailIsCall := true

theorem callReading_right {m : WatModule} {names : List Str} (hnames : m.NamesRead names) :
    (callReading (m.table names)).Right m where
  defined := by
    intro j f hf
    have hmem : f.name.text ∈ (m.table names).names :=
      List.mem_append_right _ (List.mem_map_of_mem (f := fun f : WatFunc => f.name.text)
        (List.mem_of_getElem? hf))
    have hidx := idxOf_func hnames hf
    simp only [callReading, if_pos hmem, hidx]
    simp [WatModule.table]
  imported := by
    intro id hid
    by_cases hmem : id.text ∈ (m.table names).names
    · have hidx := idxOf_import hid hmem
      simp only [callReading, if_pos hmem]
      simp only [WatModule.table] at hidx ⊢
      omega
    · simp [callReading, if_neg hmem]
  tails := rfl

theorem node_callReading {table : FuncTable} {op : LeafOp} (hread : op.Readable table.names)
    (htail : op.isTailCall = false) :
    op.node (callReading table) = op.node (fileReading table) := by
  cases op with
  | br x => rfl
  | brIf x => rfl
  | brTable => rfl
  | ret => rfl
  | callIndirect => rfl
  | localSet x =>
    obtain ⟨n, rfl⟩ := hread
    rfl
  | localTee x =>
    obtain ⟨n, rfl⟩ := hread
    rfl
  | call id =>
    have hmem : id.text ∈ table.names := hread
    simp only [LeafOp.node, callReading, fileReading, if_pos hmem]
  | returnCall id => cases htail
  | returnCallIndirect => cases htail

theorem standsFor_iff {m : WatModule} {names : List Str} (hnames : m.NamesRead names)
    (hread : ∀ f ∈ m.funcs, BodyRead (m.table names).names f.body) :
    m.StandsFor (m.program (fileReading (m.table names))) ↔ ¬ m.HasTailCall := by
  constructor
  · intro ⟨r, hright, hprog⟩ ⟨f, hf, op, hop, htail⟩
    have hnode := (m.program_eq_iff _ r).mp hprog f hf op hop
    exact LeafOp.node_ne_of_tailCall htail hright.tails rfl hnode.symm
  · intro hno
    refine ⟨callReading (m.table names), callReading_right hnames, ?_⟩
    refine (m.program_eq_iff _ _).mpr fun f hf op hop => ?_
    have htail : op.isTailCall = false := Bool.eq_false_iff.mpr fun ht => hno ⟨f, hf, op, hop, ht⟩
    exact (node_callReading ((hread f hf).leaves op hop) htail).symm

/-- The outcome of the script is faithful to the text just when the text is accepted and
has no tail call, or has a tail call and is not accepted. -/
theorem readModule_faithful_iff (m : WatModule) (file : List Str) (h : Renders file m) :
    m.Faithful (readModule file) ↔ (m.Accepted ↔ ¬ m.HasTailCall) := by
  by_cases hacc : m.Accepted
  · obtain ⟨names, hnames, hread⟩ := hacc
    have hok := (readModule_eq_ok h _).mpr ⟨names, hnames, hread, rfl⟩
    rw [hok, WatModule.Faithful, standsFor_iff hnames hread]
    exact ⟨fun hno => ⟨fun _ => hno, fun _ => ⟨names, hnames, hread⟩⟩,
      fun hiff => hiff.mp ⟨names, hnames, hread⟩⟩
  · cases hres : readModule file with
    | ok prog =>
      obtain ⟨names, hnames, hread, -⟩ := (readModule_eq_ok h prog).mp hres
      exact absurd ⟨names, hnames, hread⟩ hacc
    | error e =>
      rw [WatModule.Faithful, iff_false_left hacc, not_not]

/-! ### Two texts -/

def noTail : Tail := ⟨[], .inl rfl, by decide⟩

def typeTail : Tail := ⟨" (type 0)".toList, .inr rfl, by decide⟩

def moduleLine : Plain :=
  ⟨"(module".toList, ⟨by decide, by decide, by decide⟩, by decide, by decide⟩

def identF : Ident := ⟨"$f".toList, by decide, by decide⟩

def identG : Ident := ⟨"$g".toList, by decide, by decide⟩

/-- `loop (call $f) (br 0) end` in `$g`, where `$f` is an import. -/
def loopText : WatModule where
  front := [moduleLine]
  imports := [.func "\"env\" \"f\"".toList identF typeTail]
  funcs := [⟨identG, typeTail, [],
    [.loop noTail [.leaf (.call identF) noTail, .leaf (.br (.num 0)) noTail] noTail]⟩]
  back := []
  unique := by decide
  declared := by
    intro f hf callee hcallee
    rw [List.mem_singleton.mp hf] at hcallee
    have hin : LeafOp.call callee ∈ [LeafOp.call identF, .br (.num 0)] := hcallee
    simp only [List.mem_cons, List.not_mem_nil, or_false, LeafOp.call.injEq, reduceCtorEq] at hin
    rw [hin]
    exact List.mem_cons_self

def loopFile : List Str :=
  ["(module\n", "  (import \"env\" \"f\" (func $f (type 0)))\n", "  (func $g (type 0)\n",
    "    loop\n", "      call $f\n", "      br 0\n", "    end))\n"].map String.toList

theorem loopText_renders : Renders loopFile loopText :=
  .cons ⟨[], [], ['\n'], rfl, by decide, by decide, by decide⟩
  (.cons ⟨[' ', ' '], [')', ')'], ['\n'], rfl, by decide, by decide, by decide⟩
  (.cons ⟨[' ', ' '], [], ['\n'], rfl, by decide, by decide, by decide⟩
  (.cons ⟨[' ', ' ', ' ', ' '], [], ['\n'], rfl, by decide, by decide, by decide⟩
  (.cons ⟨[' ', ' ', ' ', ' ', ' ', ' '], [], ['\n'], rfl, by decide, by decide, by decide⟩
  (.cons ⟨[' ', ' ', ' ', ' ', ' ', ' '], [], ['\n'], rfl, by decide, by decide, by decide⟩
  (.cons ⟨[' ', ' ', ' ', ' '], [')', ')'], ['\n'], rfl, by decide, by decide, by decide⟩ .nil))))))

theorem loopText_accepted : loopText.Accepted := by
  refine ⟨["$f".toList], ⟨.cons rfl .nil, by decide⟩, ?_⟩
  intro f hf
  rw [List.mem_singleton.mp hf]
  refine ⟨rfl, ?_⟩
  have hcall : (LeafOp.call identF).Readable (loopText.table ["$f".toList]).names := by
    change identF.text ∈ (loopText.table ["$f".toList]).names
    decide
  exact List.forall_mem_cons.mpr ⟨hcall, List.forall_mem_singleton.mpr ⟨0, rfl⟩⟩

theorem loopText_noTailCall : ¬ loopText.HasTailCall := by
  intro ⟨f, hf, op, hop, htail⟩
  rw [List.mem_singleton.mp hf] at hop
  have hall : ∀ op ∈ [LeafOp.call identF, .br (.num 0)], op.isTailCall = false := by decide
  exact absurd (hall op hop) (by simp [htail])

theorem readModule_faithful_iff_loop : loopText.Faithful (readModule loopFile) :=
  (readModule_faithful_iff loopText loopFile loopText_renders).mpr
    ⟨fun _ => loopText_noTailCall, fun _ => loopText_accepted⟩

/-- `if end` in `$f`. -/
def ifText : WatModule where
  front := [moduleLine]
  imports := []
  funcs := [⟨identF, typeTail, [], [.ifThen noTail [] noTail]⟩]
  back := []
  unique := by decide
  declared := by
    intro f hf callee hcallee
    rw [List.mem_singleton.mp hf] at hcallee
    cases hcallee

def ifFile : List Str :=
  ["(module\n", "  (func $f (type 0)\n", "    if\n", "    end))\n"].map String.toList

theorem ifText_renders : Renders ifFile ifText :=
  .cons ⟨[], [], ['\n'], rfl, by decide, by decide, by decide⟩
  (.cons ⟨[' ', ' '], [], ['\n'], rfl, by decide, by decide, by decide⟩
  (.cons ⟨[' ', ' ', ' ', ' '], [], ['\n'], rfl, by decide, by decide, by decide⟩
  (.cons ⟨[' ', ' ', ' ', ' '], [')', ')'], ['\n'], rfl, by decide, by decide, by decide⟩ .nil)))

/-- The `end` of the `if` closes the function, and the parser stops at the next line. -/
theorem if_not_read :
    ¬ ∀ (m : WatModule) (file : List Str), Renders file m → m.Faithful (readModule file) := by
  intro h
  have hres : readModule ifFile = .error (.assertion "") := rfl
  have hif := h ifText ifFile ifText_renders
  rw [hres] at hif
  obtain ⟨f, hf, op, hop, -⟩ := hif
  rw [List.mem_singleton.mp hf] at hop
  cases hop

end MVVM.Analysis
