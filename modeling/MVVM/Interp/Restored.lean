import MVVM.Interp.Labels

/-!
# The labels of a restored frame

The scan of a whole function, from the label of the function to the labels that
`restore_impl` writes into the frame.
-/

namespace MVVM.Interp

/-- The code of the function is the body and the final `end`. -/
structure IsBody (n : Internal) (f : FuncCode) (c : Body) : Prop where
  code : f.code = c.encode ++ [0x0b]
  valid : c.Valid n f.localTypes
  finds : Finds f (c.constructs 0)

/-- The positions of the instructions of a function, its final `end` included. -/
def Body.IsBoundary (c : Body) (t : ℕ) : Prop := t ∈ c.boundaries 0 ∨ t = c.size

def FuncCode.functionLabel (f : FuncCode) : BranchBlock :=
  ⟨0, f.code.length - 1, f.spOffset f.localCells, f.retCells⟩

def Body.spBefore (n : Internal) (f : FuncCode) (c : Body) (p : ℕ) : ℤ :=
  f.localCells + c.cellsBefore n f.localTypes 0 p

/-- What encloses a position of the function, the function first: where the label begins
and where a branch to it goes. -/
def Body.labelStack (c : Body) (t : ℕ) : List (ℕ × ℕ) :=
  (0, c.size) :: (c.enclosing 0 t).map fun k => (k.start, k.target)

variable {n : Internal} {f : FuncCode} {c : Body} {t : ℕ} {ls : List BranchBlock}

theorem IsBody.length_code (h : IsBody n f c) : f.code.length = c.size + 1 := by
  rw [h.code, List.length_append, c.length_encode, List.length_singleton]

theorem Body.IsBoundary.le (h : c.IsBoundary t) : t ≤ c.size := by
  rcases h with h | rfl
  · have := c.le_of_mem_boundaries 0 t h
    omega
  · exact Nat.le_refl _

theorem restoredLabels_iff (h : t ≤ f.code.length) :
    (∃ fuel, restoredLabels n f t fuel = some (.ok ls)) ↔
      Loop.Leaves (scanLoop n f t) (scanStart f) (.ok ls.reverse) := by
  have heq : ∀ fuel, restoredLabels n f t fuel
      = (Loop.run (scanLoop n f t) fuel (scanStart f)).map fun r => r.map List.reverse := by
    intro fuel
    rw [restoredLabels, wasmReplayCspBytecode, if_pos h]
  constructor
  · intro ⟨fuel, hrun⟩
    rw [heq] at hrun
    obtain ⟨r, hr, hrev⟩ := Option.map_eq_some_iff.mp hrun
    cases r with
    | error e => cases hrev
    | ok ls' =>
      obtain rfl : ls'.reverse = ls := Except.ok.inj hrev
      exact ⟨fuel, by rw [hr, List.reverse_reverse]⟩
  · intro ⟨fuel, hrun⟩
    refine ⟨fuel, ?_⟩
    rw [heq, hrun, Option.map_some, Except.map, List.reverse_reverse]

theorem restoredLabels_unique {fuel more : ℕ} {ls' : List BranchBlock}
    (h : restoredLabels n f t fuel = some (.ok ls))
    (h' : restoredLabels n f t more = some (.ok ls')) : ls = ls' := by
  by_cases ht : t ≤ f.code.length
  · have hleaves := (restoredLabels_iff ht).mp ⟨fuel, h⟩
    have hleaves' := (restoredLabels_iff ht).mp ⟨more, h'⟩
    exact List.reverse_injective (Except.ok.inj (hleaves.unique hleaves'))
  · rw [restoredLabels, wasmReplayCspBytecode, if_neg ht] at h
    cases h

theorem restoredLabels_mono {fuel more : ℕ} {r : Except Stop (List BranchBlock)}
    (h : restoredLabels n f t fuel = some r) (hle : fuel ≤ more) :
    restoredLabels n f t more = some r := by
  obtain ⟨q, hq, rfl⟩ := Option.map_eq_some_iff.mp h
  rw [wasmReplayCspBytecode] at hq
  rw [restoredLabels, wasmReplayCspBytecode]
  split at hq
  · rename_i ht
    rw [if_pos ht, Loop.run_mono hq hle]
    rfl
  · rename_i ht
    rw [if_neg ht, hq]
    rfl

theorem scanStart_ends (h : IsBody n f c) (ht : c.IsBoundary t)
    (hharmless : ∀ i ∈ c.scanned 0 t, i.Harmless n) :
    Ends n f t (scanStart f) t (c.spBefore n f t)
      (labelsOf f (fun k => c.spBefore n f k.opcode) (c.enclosing 0 t)) (c.scanned 0 t)
      (c.enclosing 0 t) := by
  have hends := endsAt c 0 f.localCells [f.functionLabel] [0x0b]
    (by rw [List.drop_zero, h.code]) h.valid h.finds (List.cons_ne_nil _ _) (Nat.zero_le t)
    (ht.imp_right fun heq => by omega) hharmless
  exact hends.cast (by have := ht.le; omega) rfl rfl rfl rfl

theorem restoredLabels_found (h : IsBody n f c) (ht : c.IsBoundary t)
    (hharmless : ∀ i ∈ c.scanned 0 t, i.Harmless n) (hret : ∀ i ∈ c.scanned 0 t, ¬i.IsReturn) :
    ∃ fuel, restoredLabels n f t fuel = some (.ok (f.functionLabel ::
      (found (c.enclosing 0 t)).map fun k => k.blockOf f (c.spBefore n f k.opcode))) := by
  rw [restoredLabels_iff (by have := h.length_code; have := ht.le; omega)]
  cases scanStart_ends h ht hharmless with
  | stops _ hif hgoes =>
    have hall := found_eq_self hif
    refine hgoes.leaves (Loop.Leaves.now ?_)
    rw [scanLoop_stop _ _ (Nat.le_refl t), hall, List.reverse_cons]
    rfl
  | exits hret' _ =>
    obtain ⟨i, hi, hr⟩ := hret'
    exact absurd hr (hret i hi)
  | passes _ _ ip sp outer hip houter hlen hgoes =>
    have hprefix : (found (c.enclosing 0 t)).map
        (fun k => k.blockOf f (c.spBefore n f k.opcode)) <+:
        (c.enclosing 0 t).map fun k => k.blockOf f (c.spBefore n f k.opcode) :=
      (List.takeWhile_prefix _).map _
    have houter' := List.reverse_prefix.mpr houter
    rw [labelsOf, List.reverse_reverse] at houter'
    have heq := (List.prefix_of_prefix_length_le houter' hprefix
      (by rw [List.length_reverse, List.length_map, hlen])).eq_of_length
      (by rw [List.length_reverse, List.length_map, hlen])
    refine hgoes.leaves (Loop.Leaves.now ?_)
    rw [scanLoop_stop sp _ (Nat.le_of_lt hip), ← heq, List.reverse_cons, List.reverse_reverse]
    rfl

theorem not_restored_of_return (h : IsBody n f c) (ht : c.IsBoundary t)
    (hharmless : ∀ i ∈ c.scanned 0 t, i.Harmless n) (hret : ∃ i ∈ c.scanned 0 t, i.IsReturn)
    (hrestored : ∃ fuel, restoredLabels n f t fuel = some (.ok ls)) : False := by
  obtain ⟨i, hi, hr⟩ := hret
  rw [restoredLabels_iff (by have := h.length_code; have := ht.le; omega)] at hrestored
  cases scanStart_ends h ht hharmless with
  | stops hno => exact hno i hi hr
  | exits _ hleaves => cases hleaves.unique hrestored
  | passes hno => exact hno i hi hr

/-! ### Two functions -/

/-- Opcodes of a loader, behind those of WebAssembly. -/
def loaderOpcodes : Internal := ⟨0xc5, 0xc6, 0xc7, 0xc8, 0xc9, 0xca, 0xcb, 0xcc⟩

def plainFunction (c : Body) (findBlockAddr : ℕ → LabelType → Option (Option ℕ × ℕ)) : FuncCode :=
  ⟨c.encode ++ [0x0b], [], 0, 0, 64, findBlockAddr⟩

/-- A block with a `br_table` in a loop, and behind it an `if` with `else`. -/
def tableThenIf : Body :=
  .block 0x40
    (.loop 0x40 (.plain 0x41 [0x00] (.brTable [0x01] [[0x00], [0x01]] .nil))
      (.plain 0x41 [0x01] (.ifElse 0x40 (.plain 0x01 [] .nil) (.plain 0x01 [] .nil) .nil)))
    .nil

def tableThenIfFunction : FuncCode :=
  plainFunction tableThenIf fun ip _ =>
    if ip = 2 then some (none, 19) else if ip = 15 then some (some 16, 18) else none

def nopInIf : Body := .plain 0x41 [0x01] (.ifThen 0x40 (.plain 0x01 [] .nil) .nil)

def nopInIfFunction : FuncCode :=
  plainFunction nopInIf fun ip _ => if ip = 4 then some (none, 5) else none

theorem plainOk_const (n : Internal) (b : UInt8) (h : b &&& 0x80 = 0) : PlainOk n [] 0x41 [b] := by
  have hcase : caseOf n 0x41 = .plain [.leb] 1 := rfl
  rw [PlainOk, hcase]
  exact ⟨[b], [], rfl, h, rfl⟩

theorem plainOk_nop (n : Internal) : PlainOk n [] 0x01 [] := by
  have hcase : caseOf n 0x01 = .plain [] 0 := rfl
  rw [PlainOk, hcase]
  rfl

theorem isLeb32_singleton (b : UInt8) (h : b &&& 0x80 = 0) : IsLeb32 [b] := by
  refine ⟨h, by rw [List.length_singleton]; omega, ?_⟩
  have := (b &&& 0x7f).toNat_lt
  simp only [lebValue, Nat.mul_zero, Nat.add_zero]
  omega

theorem isBody_tableThenIf : IsBody loaderOpcodes tableThenIfFunction tableThenIf where
  code := rfl
  valid := by
    refine ⟨.inl rfl, ⟨.inl rfl, ⟨plainOk_const _ _ rfl, isLeb32_singleton _ rfl, rfl, ?_, trivial⟩,
      plainOk_const _ _ rfl, .inl rfl, ⟨plainOk_nop _, trivial⟩, ⟨plainOk_nop _, trivial⟩, trivial⟩,
      trivial⟩
    intro l hl
    rcases List.mem_cons.mp hl with rfl | hl
    · exact isLeb32_singleton _ rfl
    · rcases List.mem_singleton.mp hl with rfl
      exact isLeb32_singleton _ rfl
  finds := by
    unfold Finds
    decide

theorem isBody_nopInIf : IsBody loaderOpcodes nopInIfFunction nopInIf where
  code := rfl
  valid := ⟨plainOk_const _ _ rfl, .inl rfl, ⟨plainOk_nop _, trivial⟩, trivial⟩
  finds := by
    unfold Finds
    decide

/-! ### The result -/

/-- The labels of the restored frame are those of the constructs that enclose the target
exactly when the scan reads no `return` before it and no `if` without `else` encloses it,
if the labels of a `br_table` on the way do no harm. -/
theorem restoredLabels_enclose_iff (n : Internal) (f : FuncCode) (c : Body) (t : ℕ)
    (h : IsBody n f c) (ht : c.IsBoundary t) (hharmless : ∀ i ∈ c.scanned 0 t, i.Harmless n) :
    (∃ (fuel : ℕ) (ls : List BranchBlock), restoredLabels n f t fuel = some (.ok ls) ∧
        ls.map (fun b => (b.beginAddr, b.targetAddr)) = c.labelStack t) ↔
      (∀ i ∈ c.scanned 0 t, ¬i.IsReturn) ∧ ∀ k ∈ c.enclosing 0 t, ¬k.Elseless := by
  constructor
  · intro ⟨fuel, ls, hrun, hstack⟩
    constructor
    · intro i hi hret
      exact not_restored_of_return h ht hharmless ⟨i, hi, hret⟩ ⟨fuel, hrun⟩
    · intro k hk hless
      have hret : ∀ i ∈ c.scanned 0 t, ¬i.IsReturn := fun i hi hret =>
        not_restored_of_return h ht hharmless ⟨i, hi, hret⟩ ⟨fuel, hrun⟩
      obtain ⟨more, hfound⟩ := restoredLabels_found h ht hharmless hret
      obtain rfl := restoredLabels_unique hrun hfound
      have hlength := congrArg List.length hstack
      simp only [List.length_map, Body.labelStack, List.length_cons] at hlength
      have := length_found_lt ⟨k, hk, hless⟩
      omega
  · intro ⟨hret, hif⟩
    obtain ⟨fuel, hrun⟩ := restoredLabels_found h ht hharmless hret
    rw [found_eq_self hif] at hrun
    refine ⟨fuel, _, hrun, ?_⟩
    have hend : f.functionLabel.targetAddr = c.size := by
      change f.code.length - 1 = c.size
      rw [h.length_code, Nat.add_sub_cancel]
    rw [List.map_cons, hend, List.map_map]
    rfl

theorem tableThenIf_encloses : ∃ (fuel : ℕ) (ls : List BranchBlock),
    restoredLabels loaderOpcodes tableThenIfFunction 17 fuel = some (.ok ls) ∧
      ls.map (fun b => (b.beginAddr, b.targetAddr)) = [(0, 20), (2, 19), (15, 18)] := by
  have hscanned : tableThenIf.scanned 0 17
      = [.plain 0x41 [0x00], .table [[0x00], [0x01]], .plain 0x41 [0x01], .ifOp] := rfl
  refine (restoredLabels_enclose_iff loaderOpcodes tableThenIfFunction tableThenIf 17
    isBody_tableThenIf (by left; decide) ?_).mpr ⟨?_, ?_⟩
  · rw [hscanned]
    simp only [List.forall_mem_cons, Item.Harmless, HarmlessByte]
    refine ⟨trivial, ?_, trivial, trivial, fun i hi => by cases hi⟩
    intro b hb
    rcases List.mem_cons.mp hb with rfl | hb
    · exact ⟨0, rfl⟩
    · rcases List.mem_singleton.mp hb with rfl
      exact ⟨0, rfl⟩
  · rw [hscanned]
    simp only [List.forall_mem_cons, Item.IsReturn]
    exact ⟨by decide, id, by decide, id, fun i hi => by cases hi⟩
  · unfold Construct.Elseless
    decide

/-- In the `if` without `else` only the label of the function is found. -/
theorem nopInIf_not_enclosed : IsBody loaderOpcodes nopInIfFunction nopInIf ∧
    nopInIf.IsBoundary 4 ∧ nopInIf.labelStack 4 = [(0, 6), (4, 5)] ∧
    ¬∃ (fuel : ℕ) (ls : List BranchBlock),
      restoredLabels loaderOpcodes nopInIfFunction 4 fuel = some (.ok ls) ∧
        ls.map (fun b => (b.beginAddr, b.targetAddr)) = nopInIf.labelStack 4 := by
  refine ⟨isBody_nopInIf, by left; decide, rfl, ?_⟩
  intro ⟨fuel, ls, hrun, hstack⟩
  have hshort : restoredLabels loaderOpcodes nopInIfFunction 4 3
      = some (.ok [nopInIfFunction.functionLabel]) := rfl
  obtain rfl := restoredLabels_unique hrun hshort
  exact absurd hstack (by decide)

end MVVM.Interp
