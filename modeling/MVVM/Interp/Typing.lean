import MVVM.Interp.Restored

/-!
# The operand stack of a validated body

The types of the instructions are those of the WebAssembly specification; an opcode of the
loader has the type of what it stands for. Heights are in cells.
-/

namespace MVVM.Interp

structure FuncType where
  params : List UInt8
  results : List UInt8
  deriving DecidableEq, Repr

/-- The types of the functions, by their indices, and the types of the module. -/
structure ModuleTypes where
  funcs : List FuncType
  types : List FuncType

def cellsOf (types : List UInt8) : ℤ := (types.map fun t => (valueTypeCells t : ℤ)).sum

def FuncType.effect (t : FuncType) : ℤ := cellsOf t.results - cellsOf t.params

-- `VALUE_TYPE_I32` and so on
def i32 : UInt8 := 0x7f
def i64 : UInt8 := 0x7e
def f32 : UInt8 := 0x7d
def f64 : UInt8 := 0x7c

/-- The types of opcodes, from the first to the last number. `DROP`, `SELECT` and the
accesses to globals are here those of one cell, whatever its type is; `TEE_LOCAL` puts back
what it takes. -/
def wasmTypes : List (ℕ × ℕ × FuncType) := [
  (0x01, 0x01, ⟨[], []⟩),
  (0x0d, 0x0d, ⟨[i32], []⟩),
  (0x1a, 0x1a, ⟨[i32], []⟩),
  (0x1b, 0x1b, ⟨[i32, i32, i32], [i32]⟩),
  (0x22, 0x22, ⟨[], []⟩),
  (0x23, 0x23, ⟨[], [i32]⟩),
  (0x24, 0x24, ⟨[i32], []⟩),
  (0x28, 0x28, ⟨[i32], [i32]⟩),
  (0x29, 0x29, ⟨[i32], [i64]⟩),
  (0x2a, 0x2a, ⟨[i32], [f32]⟩),
  (0x2b, 0x2b, ⟨[i32], [f64]⟩),
  (0x2c, 0x2f, ⟨[i32], [i32]⟩),
  (0x30, 0x35, ⟨[i32], [i64]⟩),
  (0x36, 0x36, ⟨[i32, i32], []⟩),
  (0x37, 0x37, ⟨[i32, i64], []⟩),
  (0x38, 0x38, ⟨[i32, f32], []⟩),
  (0x39, 0x39, ⟨[i32, f64], []⟩),
  (0x3a, 0x3b, ⟨[i32, i32], []⟩),
  (0x3c, 0x3e, ⟨[i32, i64], []⟩),
  (0x3f, 0x3f, ⟨[], [i32]⟩),
  (0x40, 0x40, ⟨[i32], [i32]⟩),
  (0x41, 0x41, ⟨[], [i32]⟩),
  (0x42, 0x42, ⟨[], [i64]⟩),
  (0x43, 0x43, ⟨[], [f32]⟩),
  (0x44, 0x44, ⟨[], [f64]⟩),
  (0x45, 0x45, ⟨[i32], [i32]⟩),
  (0x46, 0x4f, ⟨[i32, i32], [i32]⟩),
  (0x50, 0x50, ⟨[i64], [i32]⟩),
  (0x51, 0x5a, ⟨[i64, i64], [i32]⟩),
  (0x5b, 0x60, ⟨[f32, f32], [i32]⟩),
  (0x61, 0x66, ⟨[f64, f64], [i32]⟩),
  (0x67, 0x69, ⟨[i32], [i32]⟩),
  (0x6a, 0x78, ⟨[i32, i32], [i32]⟩),
  (0x79, 0x7b, ⟨[i64], [i64]⟩),
  (0x7c, 0x8a, ⟨[i64, i64], [i64]⟩),
  (0x8b, 0x91, ⟨[f32], [f32]⟩),
  (0x92, 0x98, ⟨[f32, f32], [f32]⟩),
  (0x99, 0x9f, ⟨[f64], [f64]⟩),
  (0xa0, 0xa6, ⟨[f64, f64], [f64]⟩),
  (0xa7, 0xa7, ⟨[i64], [i32]⟩),
  (0xa8, 0xa9, ⟨[f32], [i32]⟩),
  (0xaa, 0xab, ⟨[f64], [i32]⟩),
  (0xac, 0xad, ⟨[i32], [i64]⟩),
  (0xae, 0xaf, ⟨[f32], [i64]⟩),
  (0xb0, 0xb1, ⟨[f64], [i64]⟩),
  (0xb2, 0xb3, ⟨[i32], [f32]⟩),
  (0xb4, 0xb5, ⟨[i64], [f32]⟩),
  (0xb6, 0xb6, ⟨[f64], [f32]⟩),
  (0xb7, 0xb8, ⟨[i32], [f64]⟩),
  (0xb9, 0xba, ⟨[i64], [f64]⟩),
  (0xbb, 0xbb, ⟨[f32], [f64]⟩),
  (0xbc, 0xbc, ⟨[f32], [i32]⟩),
  (0xbd, 0xbd, ⟨[f64], [i64]⟩),
  (0xbe, 0xbe, ⟨[i32], [f32]⟩),
  (0xbf, 0xbf, ⟨[i64], [f64]⟩)]

/-- A value of two cells when the top bit of the offset is set. -/
def fastLocal (imm : List UInt8) : UInt8 := if imm.headD 0 &&& 0x80 = 0 then i32 else i64

def internalTypes (n : Internal) (imm : List UInt8) : List (UInt8 × FuncType) := [
  (n.drop64, ⟨[i64], []⟩),
  (n.select64, ⟨[i64, i64, i32], [i64]⟩),
  (n.getGlobal64, ⟨[], [i64]⟩),
  (n.setGlobal64, ⟨[i64], []⟩),
  (n.setGlobalAuxStack, ⟨[i32], []⟩),
  (n.getLocalFast, ⟨[], [fastLocal imm]⟩),
  (n.setLocalFast, ⟨[fastLocal imm], []⟩),
  (n.teeLocalFast, ⟨[], []⟩)]

/-- The type of an instruction that is no construct. `CALL_INDIRECT` takes the index of the
function behind its parameters. -/
def plainType (n : Internal) (m : ModuleTypes) (localTypes : List UInt8) (opcode : UInt8)
    (imm : List UInt8) : Option FuncType :=
  if opcode = 0x10 then m.funcs[lebValue imm]?
  else if opcode = 0x11 then
    m.types[lebValue imm.dropLast]?.map fun t => ⟨t.params ++ [i32], t.results⟩
  else if opcode = 0x20 then localTypes[lebValue imm]?.map fun t => ⟨[], [t]⟩
  else if opcode = 0x21 then localTypes[lebValue imm]?.map fun t => ⟨[t], []⟩
  else
    match wasmTypes.find? fun e => e.1 ≤ opcode.toNat && opcode.toNat ≤ e.2.1 with
    | some e => some e.2.2
    | none => ((internalTypes n imm).find? fun e => e.1 == opcode).map Prod.snd

/-- `unreachable`, `br` and `return`: what follows them in the sequence is dead. -/
def IsJump (opcode : UInt8) : Prop := opcode = 0x00 ∨ opcode = 0x0c ∨ opcode = 0x0f

instance (opcode : UInt8) : Decidable (IsJump opcode) := inferInstanceAs (Decidable (_ ∨ _))

def plainEffect (n : Internal) (m : ModuleTypes) (localTypes : List UInt8) (opcode : UInt8)
    (imm : List UInt8) : ℤ :=
  ((plainType n m localTypes opcode imm).map FuncType.effect).getD 0

namespace Body

variable (n : Internal) (m : ModuleTypes) (localTypes : List UInt8)

/-- The height before the instruction at a position, if this is reached. Validation takes
the end of a construct for reached, by a branch if not from above, and takes its results
for what is then on the stack. -/
@[simp]
def heightAt : Body → ℕ → ℤ → ℕ → Option ℤ
  | nil, _, _, _ => none
  | plain opcode imm rest, p, h, q =>
    if q = p then some h
    else if IsJump opcode then none
    else rest.heightAt (p + (1 + imm.length)) (h + plainEffect n m localTypes opcode imm) q
  | brTable _ _ _, p, h, q => if q = p then some h else none
  | block vt body rest, p, h, q | loop vt body rest, p, h, q =>
    if q = p then some h
    else if q < p + 2 + body.size then body.heightAt (p + 2) h q
    else if q = p + 2 + body.size then some (h + valueTypeCells vt)
    else rest.heightAt (p + 2 + body.size + 1) (h + valueTypeCells vt) q
  | ifThen vt body rest, p, h, q =>
    if q = p then some h
    else if q < p + 2 + body.size then body.heightAt (p + 2) (h - 1) q
    else if q = p + 2 + body.size then some (h - 1 + valueTypeCells vt)
    else rest.heightAt (p + 2 + body.size + 1) (h - 1 + valueTypeCells vt) q
  | ifElse vt body other rest, p, h, q =>
    if q = p then some h
    else if q < p + 2 + body.size then body.heightAt (p + 2) (h - 1) q
    else if q = p + 2 + body.size then some (h - 1 + valueTypeCells vt)
    else if q < p + 2 + body.size + 1 + other.size then
      other.heightAt (p + 2 + body.size + 1) (h - 1) q
    else if q = p + 2 + body.size + 1 + other.size then some (h - 1 + valueTypeCells vt)
    else rest.heightAt (p + 2 + body.size + 1 + other.size + 1) (h - 1 + valueTypeCells vt) q

/-- What validation says about the heights in a sequence that begins at one height and has
to end at another. -/
def Typed : Body → ℤ → ℤ → Prop
  | nil, h, r => h = r
  | plain opcode imm rest, h, r =>
    IsJump opcode ∨ ∃ t, plainType n m localTypes opcode imm = some t ∧
      rest.Typed (h + t.effect) r
  | brTable _ _ _, _, _ => True
  | block vt body rest, h, r | loop vt body rest, h, r =>
    body.Typed h (h + valueTypeCells vt) ∧ rest.Typed (h + valueTypeCells vt) r
  | ifThen vt body rest, h, r =>
    valueTypeCells vt = 0 ∧ body.Typed (h - 1) (h - 1) ∧ rest.Typed (h - 1) r
  | ifElse vt body other rest, h, r =>
    body.Typed (h - 1) (h - 1 + valueTypeCells vt) ∧
      other.Typed (h - 1) (h - 1 + valueTypeCells vt) ∧
        rest.Typed (h - 1 + valueTypeCells vt) r

end Body

/-! ### The cells that the scan counts -/

/-- The cells that the scan counts too much for an instruction: calls are read over, and
`MEMORY_GROW` takes nothing. -/
def plainError (m : ModuleTypes) (opcode : UInt8) (imm : List UInt8) : ℤ :=
  if opcode = 0x10 then ((m.funcs[lebValue imm]?.map FuncType.effect).map Neg.neg).getD 0
  else if opcode = 0x11 then
    ((m.types[lebValue imm.dropLast]?.map FuncType.effect).map Neg.neg).getD 0
  else if opcode = 0x40 then 1
  else 0

def Case.plainCells : Case → Option ℤ
  | .plain _ cells => some cells
  | _ => none

/-- In a table with its rows in order, a number is found in the row that it is in. -/
theorem find_of_sorted {α : Type} {rows : List (ℕ × ℕ × α)} {k : ℕ}
    (hsorted : rows.Pairwise fun a b => a.2.1 < b.1) {e : ℕ × ℕ × α} (he : e ∈ rows)
    (hfirst : e.1 ≤ k) (hlast : k ≤ e.2.1) :
    rows.find? (fun e => e.1 ≤ k && k ≤ e.2.1) = some e := by
  induction rows with
  | nil => cases he
  | cons a rows ih =>
    obtain ⟨hbefore, hsorted⟩ := List.pairwise_cons.mp hsorted
    rcases List.mem_cons.mp he with rfl | he
    · exact List.find?_cons_of_pos (by simp [hfirst, hlast])
    · have hlt := hbefore e he
      rw [List.find?_cons_of_neg (by simp; omega)]
      exact ih hsorted he

theorem wasmCases_sorted : wasmCases.Pairwise fun a b => a.2.1 < b.1 := by decide +kernel

/-- Each row of the types is in a row of the cases, which counts its effect. -/
theorem wasmTypes_cells : ∀ e ∈ wasmTypes, ∃ c ∈ wasmCases, c.1 ≤ e.1 ∧ e.2.1 ≤ c.2.1 ∧
    c.2.2.plainCells = some (e.2.2.effect + if e.1 = 0x40 then 1 else 0) := by
  decide +kernel

theorem wasmTypes_grow :
    ∀ e ∈ wasmTypes, e.1 ≤ 0x40 → 0x40 ≤ e.2.1 → e.1 = 0x40 ∧ e.2.1 = 0x40 := by
  decide +kernel

/-- The rows of the cases that count cells have types, but for the jumps and the calls. -/
theorem wasmCases_typed : ∀ c ∈ wasmCases, c.2.2.plainCells.isSome →
    ∀ k ∈ List.range' c.1 (c.2.1 + 1 - c.1), k ∉ [0x00, 0x0c, 0x10, 0x11] →
      wasmTypes.any fun e => e.1.ble k && k.ble e.2.1 := by
  decide +kernel

theorem wasmTypes_agree {k : ℕ} (hk : k ∉ [0x00, 0x0c, 0x10, 0x11]) :
    ((wasmCases.find? fun e => e.1 ≤ k && k ≤ e.2.1).bind fun e => e.2.2.plainCells)
      = (wasmTypes.find? fun e => e.1 ≤ k && k ≤ e.2.1).map
          fun e => e.2.2.effect + if k = 0x40 then 1 else 0 := by
  cases htype : wasmTypes.find? fun e => e.1 ≤ k && k ≤ e.2.1 with
  | some e =>
    have he := List.mem_of_find?_eq_some htype
    have hrow := List.find?_some htype
    simp only [Bool.and_eq_true, decide_eq_true_eq] at hrow
    obtain ⟨c, hc, hfirst, hlast, hcells⟩ := wasmTypes_cells e he
    have hgrow : e.1 = 0x40 ↔ k = 0x40 := by
      have := wasmTypes_grow e he
      omega
    rw [find_of_sorted wasmCases_sorted hc (by omega) (by omega), Option.bind_some, hcells,
      Option.map_some]
    simp only [hgrow]
  | none =>
    refine Option.bind_eq_none_iff.mpr fun c hcase => ?_
    have hc := List.mem_of_find?_eq_some hcase
    have hrow := List.find?_some hcase
    simp only [Bool.and_eq_true, decide_eq_true_eq] at hrow
    by_contra hcells
    have hany := wasmCases_typed c hc (Option.isSome_iff_ne_none.mpr hcells) k
      (List.mem_range'_1.mpr (by omega)) hk
    obtain ⟨e, he, hcovers⟩ := List.any_eq_true.mp hany
    have hnot := List.find?_eq_none.mp htype e he
    simp only [Bool.and_eq_true, Nat.ble_eq, decide_eq_true_eq] at hcovers hnot
    exact hnot hcovers

def Case.isLocal : Case → Bool
  | .localIndex _ => true
  | .localFast _ => true
  | _ => false

theorem wasmCases_isLocal : ∀ e ∈ wasmCases, e.2.2.isLocal = true →
    (e.1 = 0x20 ∧ e.2.1 = 0x20) ∨ (e.1 = 0x21 ∧ e.2.1 = 0x21) := by
  decide

variable {n : Internal} {m : ModuleTypes} {localTypes : List UInt8} {opcode : UInt8}
  {imm : List UInt8} {t : FuncType}

theorem cellsOf_append (ts us : List UInt8) : cellsOf (ts ++ us) = cellsOf ts + cellsOf us := by
  rw [cellsOf, List.map_append, List.sum_append, cellsOf, cellsOf]

theorem find_of_forall₂ {R : Case → FuncType → Prop} {cases : List (UInt8 × Case)}
    {types : List (UInt8 × FuncType)}
    (h : List.Forall₂ (fun a b => a.1 = b.1 ∧ R a.2 b.2) cases types)
    (ht : (types.find? fun e => e.1 == opcode).map Prod.snd = some t) :
    ∃ e, cases.find? (fun e => e.1 == opcode) = some e ∧ R e.2 t := by
  induction h with
  | nil => cases ht
  | cons hab _ ih =>
    obtain ⟨hkey, hR⟩ := hab
    rw [List.find?_cons] at ht ⊢
    rw [hkey]
    split at ht
    · obtain rfl := Option.some.inj ht
      exact ⟨_, rfl, hR⟩
    · exact ih ht

theorem internalTypes_agree (localTypes : List UInt8)
    (ht : ((internalTypes n imm).find? fun e => e.1 == opcode).map Prod.snd = some t) :
    ∃ e, (internalCases n).find? (fun e => e.1 == opcode) = some e ∧
      e.2.cells localTypes imm = t.effect := by
  have hfast : ∀ sign : ℤ, (Case.localFast sign).cells localTypes imm
      = sign * cellsOf [fastLocal imm] := by
    intro sign
    rw [Case.cells, fastLocal]
    split <;> rfl
  refine find_of_forall₂ (R := fun c t => c.cells localTypes imm = t.effect) ?_ ht
  refine .cons ⟨rfl, rfl⟩ (.cons ⟨rfl, rfl⟩ (.cons ⟨rfl, rfl⟩ (.cons ⟨rfl, rfl⟩
    (.cons ⟨rfl, rfl⟩ (.cons ⟨rfl, ?_⟩ (.cons ⟨rfl, ?_⟩ (.cons ⟨rfl, rfl⟩ .nil)))))))
  · rw [hfast, Int.one_mul, FuncType.effect]
    exact (Int.sub_zero _).symm
  · rw [hfast, FuncType.effect]
    change -1 * cellsOf [fastLocal imm] = 0 - cellsOf [fastLocal imm]
    omega

theorem caseOf_of_find {e : ℕ × ℕ × Case}
    (h : wasmCases.find? (fun e => e.1 ≤ opcode.toNat && opcode.toNat ≤ e.2.1) = some e) :
    caseOf n opcode = e.2.2 := by
  rw [caseOf, h]

theorem toNat_ne {b : UInt8} (h : opcode ≠ b) : opcode.toNat ≠ b.toNat :=
  fun heq => h (UInt8.toNat.inj heq)

theorem plainCells_table (hok : PlainOk n localTypes opcode imm) (hjump : ¬IsJump opcode)
    (hcall : opcode ≠ 0x10) (hindirect : opcode ≠ 0x11) (hget : opcode ≠ 0x20)
    (hset : opcode ≠ 0x21)
    (ht : (match wasmTypes.find? fun e => e.1 ≤ opcode.toNat && opcode.toNat ≤ e.2.1 with
      | some e => some e.2.2
      | none => ((internalTypes n imm).find? fun e => e.1 == opcode).map Prod.snd) = some t) :
    plainCells n localTypes opcode imm = t.effect + if opcode = 0x40 then 1 else 0 := by
  have hunreachable : opcode ≠ 0x00 := fun h => hjump (.inl h)
  have hbr : opcode ≠ 0x0c := fun h => hjump (.inr (.inl h))
  have hreturn : opcode ≠ 0x0f := fun h => hjump (.inr (.inr h))
  have hplain : opcode.toNat ∉ [0x00, 0x0c, 0x10, 0x11] := by
    simp only [List.mem_cons, List.not_mem_nil, or_false, not_or]
    exact ⟨toNat_ne hunreachable, toNat_ne hbr, toNat_ne hcall, toNat_ne hindirect⟩
  have hagree := wasmTypes_agree hplain
  have hlocal : ∀ e, wasmCases.find? (fun e => e.1 ≤ opcode.toNat && opcode.toNat ≤ e.2.1)
      = some e → e.2.2.isLocal ≠ true := by
    intro e he hlocal
    have hrange := List.find?_some he
    simp only [Bool.and_eq_true, decide_eq_true_eq] at hrange
    have hget' : opcode.toNat ≠ 0x20 := toNat_ne hget
    have hset' : opcode.toNat ≠ 0x21 := toNat_ne hset
    have := wasmCases_isLocal e (List.mem_of_find?_eq_some he) hlocal
    omega
  have hgrow : opcode.toNat = 0x40 ↔ opcode = 0x40 :=
    ⟨fun h => UInt8.toNat.inj h, fun h => h ▸ rfl⟩
  cases htype : wasmTypes.find? fun e => e.1 ≤ opcode.toNat && opcode.toNat ≤ e.2.1 with
  | some e =>
    rw [htype] at ht hagree
    obtain rfl := Option.some.inj ht
    obtain ⟨e', he', hcells⟩ := Option.bind_eq_some_iff.mp hagree
    rw [plainCells, caseOf_of_find he']
    cases hcase : e'.2.2 with
    | plain imms cells =>
      rw [hcase] at hcells
      simp only [hgrow] at hcells
      exact Option.some.inj hcells
    | _ =>
      rw [hcase] at hcells
      cases hcells
  | none =>
    rw [htype] at ht hagree
    have hne : opcode ≠ 0x40 := by
      rintro rfl
      exact absurd htype (by decide)
    rw [if_neg hne, Int.add_zero]
    cases hfind : wasmCases.find? fun e => e.1 ≤ opcode.toNat && opcode.toNat ≤ e.2.1 with
    | none =>
      obtain ⟨e, he, hcells⟩ := internalTypes_agree localTypes ht
      rw [plainCells, caseOf, hfind]
      simp only [he]
      exact hcells
    | some e =>
      have hlocal := hlocal e hfind
      rw [hfind] at hagree
      rw [PlainOk, caseOf_of_find hfind] at hok
      cases hcase : e.2.2 with
      | plain imms cells =>
        simp [hcase, Case.plainCells] at hagree
      | localIndex sign =>
        exact absurd (congrArg Case.isLocal hcase) hlocal
      | localFast sign =>
        exact absurd (congrArg Case.isLocal hcase) hlocal
      | fault =>
        rw [hcase] at hok
        exact absurd hok.1 hreturn
      | block => rw [hcase] at hok; exact hok.elim
      | loop => rw [hcase] at hok; exact hok.elim
      | ifCase => rw [hcase] at hok; exact hok.elim
      | elseCase => rw [hcase] at hok; exact hok.elim
      | endCase => rw [hcase] at hok; exact hok.elim
      | brTable => rw [hcase] at hok; exact hok.elim
      | misc => rw [hcase] at hok; exact hok.elim

theorem plainCells_eq (hok : PlainOk n localTypes opcode imm) (hjump : ¬IsJump opcode)
    (ht : plainType n m localTypes opcode imm = some t) :
    plainCells n localTypes opcode imm = t.effect + plainError m opcode imm := by
  unfold plainType at ht
  unfold plainError
  by_cases hcall : opcode = 0x10
  · subst hcall
    rw [if_pos rfl] at ht ⊢
    rw [ht]
    change (0 : ℤ) = t.effect + -t.effect
    omega
  rw [if_neg hcall] at ht ⊢
  by_cases hindirect : opcode = 0x11
  · subst hindirect
    rw [if_pos rfl] at ht ⊢
    obtain ⟨u, hu, rfl⟩ := Option.map_eq_some_iff.mp ht
    rw [hu]
    have heffect : (FuncType.effect ⟨u.params ++ [i32], u.results⟩) = u.effect - 1 := by
      rw [FuncType.effect, cellsOf_append, FuncType.effect]
      change cellsOf u.results - (cellsOf u.params + 1) = _
      omega
    rw [heffect]
    change (-1 : ℤ) = u.effect - 1 + -u.effect
    omega
  rw [if_neg hindirect] at ht ⊢
  by_cases hget : opcode = 0x20
  · subst hget
    rw [if_pos rfl] at ht
    obtain ⟨u, hu, rfl⟩ := Option.map_eq_some_iff.mp ht
    have hcase : caseOf n 0x20 = .localIndex 1 := rfl
    rw [plainCells, hcase, Case.cells, hu, FuncType.effect]
    simp [cellsOf]
  rw [if_neg hget] at ht
  by_cases hset : opcode = 0x21
  · subst hset
    rw [if_pos rfl] at ht
    obtain ⟨u, hu, rfl⟩ := Option.map_eq_some_iff.mp ht
    have hcase : caseOf n 0x21 = .localIndex (-1) := rfl
    rw [plainCells, hcase, Case.cells, hu, FuncType.effect]
    simp [cellsOf]
  rw [if_neg hset] at ht
  exact plainCells_table hok hjump hcall hindirect hget hset ht

end MVVM.Interp
