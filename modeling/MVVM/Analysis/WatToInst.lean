import MVVM.Text

/-!
# The instruction file of a module text (wasm_static_analysis.py:4-104)

`wat_to_inst` keeps the lines of functions, structured instructions, branches, calls and
assignments of locals, by how a line starts, and writes one line of the instruction file
for each. Functions are numbered over the imports and the definitions; the number of
imports is taken off afterwards.
-/

namespace MVVM.Analysis

open MVVM.Text

/-- How a run of the script ends without a result. -/
inductive Failure where
  | assertion (message : String)
  | valueError
  | indexError
  -- a bound of the model, which no run reaches
  | outOfFuel
  deriving DecidableEq, Repr

/-- `line.strip()`, then `line.strip(")")`. -/
def clean (line : Str) : Str := strip (· == ')') (strip isSpace line)

/-- The starts that `critical_line` asks for. -/
def criticalStarts : List String :=
  ["(func", "block", "loop", "end", "br", "return", "local.tee", "local.set", "call",
    "call_indirect"]

def criticalLine (line : Str) : Bool := criticalStarts.any (startsWith line)

inductive LineKind where
  | func
  | block
  | loop
  | blockEnd
  | brIf
  | brTable
  | br
  | ret
  | localTee
  | localSet
  | callIndirect
  | call
  deriving DecidableEq, Repr

/-- The starts by which a critical line is told, in the order they are tried. -/
def lineKinds : List (String × LineKind) :=
  [("(func", .func), ("block", .block), ("loop", .loop), ("end", .blockEnd),
    ("br_if", .brIf), ("br_table", .brTable), ("br", .br), ("return", .ret),
    ("local.tee", .localTee), ("local.set", .localSet),
    ("call_indirect", .callIndirect), ("call", .call)]

def lineKind (line : Str) : Option LineKind :=
  (lineKinds.find? fun kind => startsWith line kind.1).map Prod.snd

def secondWord (line : Str) : Except Failure Str :=
  match (words line)[1]? with
  | some word => .ok word
  | none => .error .indexError

def secondInt (line : Str) : Except Failure ℤ := do
  let word ← secondWord line
  match readInt word with
  | some z => .ok z
  | none => .error .valueError

def importName (line : Str) : Except Failure Str :=
  match find "(func ".toList line with
  | none => .error (.assertion "Invalid import function")
  | some pos =>
    match words (line.drop (pos + 6)) with
    | [] => .error .indexError
    | name :: _ => .ok name

/-- `func_name_to_idx`, by its keys in the order of insertion: a name's value is its place.
With it `import_func_cnt`. -/
structure FuncTable where
  names : List Str
  importFuncCnt : ℕ
  deriving DecidableEq, Repr

def FuncTable.insert (table : FuncTable) (name : Str) : Except Failure FuncTable :=
  if name ∈ table.names then
    .error (.assertion ("Function " ++ String.ofList name ++ " already exists"))
  else .ok { table with names := table.names ++ [name] }

def collectLine (table : FuncTable) (line : Str) : Except Failure FuncTable := do
  let table ←
    if startsWith line "(import " then do
      let name ← importName line
      FuncTable.insert { table with importFuncCnt := table.importFuncCnt + 1 } name
    else .ok table
  if startsWith line "(func" then do
    let name ← secondWord line
    table.insert name
  else .ok table

def collect (table : FuncTable) : List Str → Except Failure FuncTable
  | [] => .ok table
  | line :: rest => do
    let table ← collectLine table line
    collect table rest

def lookupFuncIdx (table : FuncTable) (name : Str) : Except Failure ℤ :=
  if name ∈ table.names then .ok (table.names.idxOf name - table.importFuncCnt)
  else .error (.assertion ("Function " ++ String.ofList name ++ " not found"))

/-- A line of the instruction file: a keyword, and a number behind a blank. -/
def plainLine (keyword : String) : Str := keyword.toList

def numberLine (keyword : String) (z : ℤ) : Str := keyword.toList ++ ' ' :: showInt z

structure Numbering where
  funcIdx : ℕ
  loopIdx : ℕ
  firstFunc : Bool
  deriving DecidableEq, Repr

def writeLine (table : FuncTable) (st : Numbering) (line : Str) :
    Except Failure (Numbering × List Str) :=
  match lineKind line with
  | some .func =>
    .ok (⟨st.funcIdx + 1, 0, false⟩,
      (if st.firstFunc then [] else [plainLine "end_block", plainLine "end_func"]) ++
        [numberLine "begin_func" st.funcIdx, plainLine "begin_block"])
  | some .block => .ok (st, [plainLine "begin_block"])
  | some .loop =>
    .ok ({ st with loopIdx := st.loopIdx + 1 }, [numberLine "begin_loop" st.loopIdx])
  | some .blockEnd => .ok (st, [plainLine "end_block"])
  | some .brIf => do
    let depth ← secondInt line
    .ok (st, [numberLine "op_br_if" depth])
  | some .brTable => .ok (st, [plainLine "op_br_table"])
  | some .br => do
    let depth ← secondInt line
    .ok (st, [numberLine "op_br" depth])
  | some .ret => .ok (st, [plainLine "op_return"])
  | some .localTee => do
    let localIdx ← secondInt line
    .ok (st, [numberLine "op_tee" localIdx])
  | some .localSet => do
    let localIdx ← secondInt line
    .ok (st, [numberLine "op_set" localIdx])
  | some .callIndirect => .ok (st, [plainLine "op_call_indirect"])
  | some .call => do
    let name ← secondWord line
    let calleeIdx ← lookupFuncIdx table name
    .ok (st, [numberLine "op_call" calleeIdx])
  | none => .error (.assertion "Invalid instruction")

def writeLines (table : FuncTable) (st : Numbering) :
    List Str → Except Failure (Numbering × List Str)
  | [] => .ok (st, [])
  | line :: rest => do
    let (st, out) ← writeLine table st line
    let (st, outs) ← writeLines table st rest
    .ok (st, out ++ outs)

/-- `wat_to_inst`, from the lines of the one file to those of the other. -/
def watToInst (wat : List Str) : Except Failure (List Str) := do
  let wat := wat.map clean
  let table ← collect ⟨[], 0⟩ wat
  let (st, out) ← writeLines table ⟨0, 0, true⟩ (wat.filter criticalLine)
  .ok (out ++ if st.firstFunc then [] else [plainLine "end_block", plainLine "end_func"])

/-! ### The passes over parts of the file -/

theorem bind_eq_ok {ε α β : Type*} {x : Except ε α} {g : α → Except ε β} {b : β} :
    x.bind g = .ok b ↔ ∃ a, x = .ok a ∧ g a = .ok b := by
  cases x <;> simp [Except.bind]

theorem collect_append (table : FuncTable) (ls ms : List Str) :
    collect table (ls ++ ms) = (collect table ls).bind fun t => collect t ms := by
  induction ls generalizing table with
  | nil => rfl
  | cons line ls ih =>
    simp only [List.cons_append, collect]
    cases collectLine table line with
    | error e => rfl
    | ok t => exact ih t

theorem criticalLine_append {w rest : Str} (hrest : Open rest) :
    criticalLine (w ++ rest) = criticalLine w := by
  have hblank : ∀ pre ∈ criticalStarts, ' ' ∉ pre.toList := by decide
  rw [criticalLine, criticalLine, Bool.eq_iff_iff, List.any_eq_true, List.any_eq_true]
  exact exists_congr fun pre => and_congr_right fun h => by
    rw [startsWith_append (hblank pre h) hrest]

theorem lineKind_append {w rest : Str} (hrest : Open rest) :
    lineKind (w ++ rest) = lineKind w := by
  have hblank : ∀ kind ∈ lineKinds, ' ' ∉ kind.1.toList := by decide
  have hfind : ∀ kinds ⊆ lineKinds,
      kinds.find? (fun kind => startsWith (w ++ rest) kind.1) =
        kinds.find? (fun kind => startsWith w kind.1) := by
    intro kinds hsub
    induction kinds with
    | nil => rfl
    | cons kind kinds ih =>
      rw [List.cons_subset] at hsub
      rw [List.find?_cons, List.find?_cons, startsWith_append (hblank kind hsub.1) hrest,
        ih hsub.2]
  rw [lineKind, lineKind, hfind lineKinds (List.Subset.refl _)]

theorem writeLines_append (table : FuncTable) (st : Numbering) (ls ms : List Str) :
    writeLines table st (ls ++ ms) =
      (writeLines table st ls).bind fun p =>
        (writeLines table p.1 ms).bind fun q => .ok (q.1, p.2 ++ q.2) := by
  induction ls generalizing st with
  | nil =>
    simp only [List.nil_append, writeLines, Except.bind]
    cases writeLines table st ms <;> rfl
  | cons line ls ih =>
    simp only [List.cons_append, writeLines]
    cases writeLine table st line with
    | error e => rfl
    | ok p =>
      simp only [bind, Except.bind, ih]
      cases writeLines table p.1 ls with
      | error e => rfl
      | ok q =>
        simp only
        cases writeLines table q.1 ms with
        | error e => rfl
        | ok r => simp only [List.append_assoc]

end MVVM.Analysis
