import MVVM.Interp.Terminates

/-!
# Labels in the memory of a frame (wamr_branch_block.cpp:16-44, wamr_interp_frame.cpp:240-294)

`dump_impl` turns the pointers of a label into offsets, and `restore_impl` writes them back on
the bases of the machine that it runs on. The memory of the frame is used again: a label is
written over whatever stands at its place.
-/

namespace MVVM.Interp

/-- The address of the code of the current function, and of the bottom of the wasm stack. -/
structure Machine where
  code : ℕ
  stackBottom : ℕ
  code_pos : 0 < code
  stack_pos : 0 < stackBottom

/-- `WASMBranchBlock`; a null pointer is 0. -/
structure WasmBranchBlock where
  beginAddr : ℕ
  targetAddr : ℕ
  frameSp : ℕ
  cellNum : ℕ
  deriving DecidableEq, Repr

/-- `if (env->addr) addr = env->addr - base`, where the field is a `uint32`. -/
def dumpAddr (base addr field : ℕ) : ℕ :=
  if addr ≠ 0 then (((addr : ℤ) - base) % 2 ^ 32).toNat else field

/-- `if (addr) env->addr = base + addr`. -/
def restoreAddr (base field addr : ℕ) : ℕ := if field ≠ 0 then base + field else addr

def BranchBlock.dumpImpl (b : BranchBlock) (m : Machine) (env : WasmBranchBlock) : BranchBlock where
  beginAddr := dumpAddr m.code env.beginAddr b.beginAddr
  targetAddr := dumpAddr m.code env.targetAddr b.targetAddr
  frameSp := dumpAddr m.stackBottom env.frameSp b.frameSp
  cellNum := env.cellNum

def BranchBlock.restoreImpl (b : BranchBlock) (m : Machine) (env : WasmBranchBlock) :
    WasmBranchBlock where
  beginAddr := restoreAddr m.code b.beginAddr env.beginAddr
  targetAddr := restoreAddr m.code b.targetAddr env.targetAddr
  frameSp := restoreAddr m.stackBottom b.frameSp env.frameSp
  cellNum := b.cellNum

/-- The pointers are into the code and into the stack, whose sizes are below 2^32. -/
structure Machine.Contains (m : Machine) (env : WasmBranchBlock) : Prop where
  beginAddr : m.code ≤ env.beginAddr ∧ env.beginAddr < m.code + 2 ^ 32
  targetAddr : m.code ≤ env.targetAddr ∧ env.targetAddr < m.code + 2 ^ 32
  frameSp : m.stackBottom ≤ env.frameSp ∧ env.frameSp < m.stackBottom + 2 ^ 32

/-- The label has the same offsets on another machine, and the same number of cells. -/
structure SameOffsets (m m' : Machine) (env env' : WasmBranchBlock) : Prop where
  beginAddr : (env'.beginAddr : ℤ) - m'.code = env.beginAddr - m.code
  targetAddr : (env'.targetAddr : ℤ) - m'.code = env.targetAddr - m.code
  frameSp : (env'.frameSp : ℤ) - m'.stackBottom = env.frameSp - m.stackBottom
  cellNum : env'.cellNum = env.cellNum

/-- The label with its offsets on the bases of the machine. -/
def BranchBlock.on (b : BranchBlock) (m : Machine) : WasmBranchBlock :=
  ⟨m.code + b.beginAddr, m.code + b.targetAddr, m.stackBottom + b.frameSp, b.cellNum⟩

/-! ### One label -/

theorem restoreAddr_dumpAddr {base addr : ℕ} (hbase : 0 < base) (hle : base ≤ addr)
    (hlt : addr < base + 2 ^ 32) (base' field old : ℕ) :
    (restoreAddr base' (dumpAddr base addr field) old : ℤ) - base' = addr - base ↔
      (addr = base → old = base') := by
  have hoffset : dumpAddr base addr field = addr - base := by
    rw [dumpAddr, if_pos (by omega)]
    omega
  rw [hoffset, restoreAddr]
  by_cases hzero : addr = base
  · rw [if_neg (by omega)]
    omega
  · rw [if_pos (by omega)]
    omega

theorem restoreAddr_eq_iff {base field addr : ℕ} :
    restoreAddr base field addr = base + field ↔ (field = 0 → addr = base) := by
  rw [restoreAddr]
  by_cases hzero : field = 0
  · rw [if_neg (not_not.mpr hzero)]
    omega
  · rw [if_pos hzero]
    omega

theorem sameOffsets_iff (b : BranchBlock) (m m' : Machine) (env old : WasmBranchBlock)
    (henv : m.Contains env) : SameOffsets m m' env ((b.dumpImpl m env).restoreImpl m' old) ↔
      (env.beginAddr = m.code → old.beginAddr = m'.code) ∧
      (env.targetAddr = m.code → old.targetAddr = m'.code) ∧
      (env.frameSp = m.stackBottom → old.frameSp = m'.stackBottom) := by
  have hbegin := restoreAddr_dumpAddr m.code_pos henv.beginAddr.1 henv.beginAddr.2 m'.code
    b.beginAddr old.beginAddr
  have htarget := restoreAddr_dumpAddr m.code_pos henv.targetAddr.1 henv.targetAddr.2 m'.code
    b.targetAddr old.targetAddr
  have hsp := restoreAddr_dumpAddr m.stack_pos henv.frameSp.1 henv.frameSp.2 m'.stackBottom
    b.frameSp old.frameSp
  constructor
  · intro h
    exact ⟨hbegin.mp h.beginAddr, htarget.mp h.targetAddr, hsp.mp h.frameSp⟩
  · intro ⟨h, h', h''⟩
    exact ⟨hbegin.mpr h, htarget.mpr h', hsp.mpr h'', rfl⟩

theorem restoreImpl_eq_iff (b : BranchBlock) (m : Machine) (old : WasmBranchBlock) :
    b.restoreImpl m old = b.on m ↔ (b.beginAddr = 0 → old.beginAddr = m.code) ∧
      (b.targetAddr = 0 → old.targetAddr = m.code) ∧
      (b.frameSp = 0 → old.frameSp = m.stackBottom) := by
  simp only [BranchBlock.restoreImpl, BranchBlock.on, WasmBranchBlock.mk.injEq,
    restoreAddr_eq_iff, and_true]

/-! ### The labels of the replay -/

variable {n : Internal} {f : FuncCode} {t fuel : ℕ} {s s' : ScanState} {ls : List BranchBlock}

theorem getLast_moves (hmoves : Moves f s s') (h : s.csp.getLast? = some f.functionLabel) :
    s'.csp.getLast? = some f.functionLabel := by
  cases hmoves with
  | forward _ hcsp =>
    rw [hcsp]
    exact h
  | enters b hcsp =>
    rw [hcsp, List.getLast?_cons, h]
    rfl
  | leaves b c csp hcsp _ hcsp' =>
    rw [hcsp, List.getLast?_cons_cons] at h
    rw [hcsp']
    exact h
  | jumps b csp _ _ heq =>
    subst heq
    exact h

/-- The label of the function comes first, and the others begin behind the first byte. -/
theorem restoredLabels_inner (hend : f.code.getLast? = some 0x0b) (hfinds : FindsEnds f)
    (h : restoredLabels n f t fuel = some (.ok ls)) :
    ∃ inner, ls = f.functionLabel :: inner ∧ ∀ b ∈ inner, b.beginAddr ≠ 0 ∧ b.targetAddr ≠ 0 := by
  have ht : t ≤ f.code.length := by
    by_contra hno
    rw [restoredLabels, wasmReplayCspBytecode, if_neg hno] at h
    cases h
  obtain ⟨s, hs, hstop⟩ := Loop.Leaves.reaches ((restoredLabels_iff ht).mp ⟨fuel, h⟩)
  have hlabelled := labelled_of_reaches hend hfinds hs
  have hlast : s.csp.getLast? = some f.functionLabel :=
    hs.invariant (fun _ _ hlast hround => getLast_moves (scanLoop_moves hfinds hround).2 hlast) rfl
  have hcsp : s.csp = ls.reverse := by
    rw [scanLoop] at hstop
    split at hstop
    · split at hstop
      · cases hstop
      · cases hstop
    · exact Except.ok.inj (Sum.inr.inj hstop)
  obtain ⟨inner, hinner⟩ := List.getLast?_eq_some_iff.mp hlast
  refine ⟨inner.reverse, ?_, fun b hb => ?_⟩
  · rw [← List.reverse_reverse ls, ← hcsp, hinner, List.reverse_append]
    rfl
  · have hmem : b ∈ inner := List.mem_reverse.mp hb
    have hnested := hlabelled.nested
    rw [hinner, List.pairwise_append] at hnested
    have hbegin : 0 < b.beginAddr := hnested.2.2 b hmem f.functionLabel (List.mem_singleton_self _)
    have hle := (hlabelled.lands b (hinner ▸ List.mem_append_left _ hmem)).le
    exact ⟨by omega, by omega⟩

/-- The labels of a frame are written whole just when the place of the label of the function
already points to the code, and the place of a label without an offset of `frame_sp` to the
bottom of the stack. -/
theorem restored_on_iff (hend : f.code.getLast? = some 0x0b) (hfinds : FindsEnds f)
    (h : restoredLabels n f t fuel = some (.ok ls)) (m : Machine) (olds : ℕ → WasmBranchBlock) :
    (∀ (i : ℕ) (b : BranchBlock), ls[i]? = some b → b.restoreImpl m (olds i) = b.on m) ↔
      (olds 0).beginAddr = m.code ∧ (f.code.length = 1 → (olds 0).targetAddr = m.code) ∧
      ∀ i b, ls[i]? = some b → b.frameSp = 0 → (olds i).frameSp = m.stackBottom := by
  obtain ⟨inner, rfl, hinner⟩ := restoredLabels_inner hend hfinds h
  have htarget : f.code.length = 1 ↔ f.functionLabel.targetAddr = 0 := by
    have hpos : f.code.length ≠ 0 := by
      intro hzero
      rw [List.eq_nil_of_length_eq_zero hzero] at hend
      cases hend
    show f.code.length = 1 ↔ f.code.length - 1 = 0
    omega
  rw [htarget]
  simp only [restoreImpl_eq_iff]
  constructor
  · intro hall
    obtain ⟨hbegin, htarget0, -⟩ := hall 0 f.functionLabel rfl
    exact ⟨hbegin rfl, htarget0, fun i b hb => (hall i b hb).2.2⟩
  · intro ⟨hbegin, htarget0, hsp⟩ i b hb
    cases i with
    | zero =>
      obtain rfl : f.functionLabel = b := Option.some.inj hb
      exact ⟨fun _ => hbegin, htarget0, hsp 0 _ hb⟩
    | succ i =>
      obtain ⟨hb0, ht0⟩ := hinner b (List.mem_of_getElem? hb)
      exact ⟨fun h0 => absurd h0 hb0, fun h0 => absurd h0 ht0, hsp (i + 1) b hb⟩

/-- On the machine `m'`, a label comes back with its offsets, and the labels of the replay are
written whole, just when the memory already holds the base at the place of each offset that
is 0. -/
theorem branchBlock_restored_iff (m' : Machine) :
    (∀ (b : BranchBlock) (m : Machine) (env old : WasmBranchBlock), m.Contains env →
      (SameOffsets m m' env ((b.dumpImpl m env).restoreImpl m' old) ↔
        (env.beginAddr = m.code → old.beginAddr = m'.code) ∧
        (env.targetAddr = m.code → old.targetAddr = m'.code) ∧
        (env.frameSp = m.stackBottom → old.frameSp = m'.stackBottom))) ∧
    (∀ (n : Internal) (f : FuncCode) (t fuel : ℕ) (ls : List BranchBlock)
      (olds : ℕ → WasmBranchBlock), f.code.getLast? = some 0x0b → FindsEnds f →
      restoredLabels n f t fuel = some (.ok ls) →
      ((∀ (i : ℕ) (b : BranchBlock), ls[i]? = some b → b.restoreImpl m' (olds i) = b.on m') ↔
        (olds 0).beginAddr = m'.code ∧ (f.code.length = 1 → (olds 0).targetAddr = m'.code) ∧
        ∀ i b, ls[i]? = some b → b.frameSp = 0 → (olds i).frameSp = m'.stackBottom)) :=
  ⟨fun b m env old henv => sameOffsets_iff b m m' env old henv,
    fun _ _ _ _ _ olds hend hfinds h => restored_on_iff hend hfinds h m' olds⟩

def firstMachine : Machine := ⟨0x1000, 0x8000, by decide, by decide⟩

def secondMachine : Machine := ⟨0x5000, 0x9000, by decide, by decide⟩

/-- A label whose pointers are all behind the bases, over stale memory, and the label of a
function in memory that points to its code. -/
theorem branchBlock_restored_iff_inner :
    SameOffsets firstMachine secondMachine ⟨0x1002, 0x1013, 0x8010, 1⟩
      (((⟨0, 0, 0, 0⟩ : BranchBlock).dumpImpl firstMachine ⟨0x1002, 0x1013, 0x8010, 1⟩).restoreImpl
        secondMachine ⟨0x77, 0x77, 0x77, 7⟩) ∧
    ∀ (i : ℕ) (b : BranchBlock), [tableThenIfFunction.functionLabel][i]? = some b →
      b.restoreImpl secondMachine ⟨0x5000, 0x77, 0x9000, 7⟩ = b.on secondMachine := by
  constructor
  · refine ((branchBlock_restored_iff secondMachine).1 ⟨0, 0, 0, 0⟩ firstMachine _ _ ?_).mpr ?_
    · exact ⟨by decide, by decide, by decide⟩
    · exact ⟨by decide, by decide, by decide⟩
  · refine ((branchBlock_restored_iff secondMachine).2 loaderOpcodes tableThenIfFunction 0 1 _
      (fun _ => ⟨0x5000, 0x77, 0x9000, 7⟩) (by decide) findsEnds_tableThenIf rfl).mpr ?_
    exact ⟨rfl, fun h => absurd h (by decide), fun _ _ _ _ => rfl⟩

/-- The label of a function begins at its first byte: the pointer that is left there stays. -/
theorem functionLabel_keeps_stale_pointer :
    (¬∀ (b : BranchBlock) (m m' : Machine) (env old : WasmBranchBlock), m.Contains env →
      SameOffsets m m' env ((b.dumpImpl m env).restoreImpl m' old)) ∧
    ¬∀ (n : Internal) (f : FuncCode) (t fuel : ℕ) (ls : List BranchBlock) (m : Machine)
      (olds : ℕ → WasmBranchBlock), f.code.getLast? = some 0x0b → FindsEnds f →
      restoredLabels n f t fuel = some (.ok ls) →
      ∀ (i : ℕ) (b : BranchBlock), ls[i]? = some b → b.restoreImpl m (olds i) = b.on m := by
  constructor
  · intro hclaim
    have hsame := hclaim ⟨0, 0, 0, 0⟩ firstMachine secondMachine ⟨0x1000, 0x1014, 0x8010, 1⟩
      ⟨0x77, 0x77, 0x77, 7⟩ ⟨by decide, by decide, by decide⟩
    exact absurd hsame.beginAddr (by decide)
  · intro hclaim
    have hwhole := hclaim loaderOpcodes tableThenIfFunction 0 1 [tableThenIfFunction.functionLabel]
      secondMachine (fun _ => ⟨0x77, 0x77, 0x77, 7⟩) (by decide) findsEnds_tableThenIf rfl 0 _ rfl
    exact absurd (congrArg WasmBranchBlock.beginAddr hwhole) (by decide)

end MVVM.Interp
