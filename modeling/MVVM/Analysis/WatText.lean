import MVVM.Analysis.WatToInst

/-!
# Module texts as `wasm2wat` prints them

A text is given by its structure: imports, functions and what stands around them, one
instruction a line. Each line may be indented, and may carry closing parentheses of what
ends there. What the script does not look at (types, results, comments) is free text.
-/

namespace MVVM.Analysis

open MVVM.Text

/-- `wat` without what the script strips from a line that it takes as it stands. -/
def bare (line : Str) : Str := line.rdropWhile (· == ')')

structure Tight (line : Str) : Prop where
  ne_nil : line ≠ []
  head : ∀ c ∈ line.head?, isSpace c = false ∧ (c == ')') = false
  last : ∀ c ∈ line.getLast?, isSpace c = false

/-- A line of the file that holds `line`. -/
def Decorates (raw line : Str) : Prop :=
  ∃ pre close post, raw = pre ++ line ++ (close ++ post) ∧ (∀ c ∈ pre, isSpace c = true) ∧
    (∀ c ∈ close, (c == ')') = true) ∧ ∀ c ∈ post, isSpace c = true

theorem clean_of_decorates {raw line : Str} (hline : Tight line) (h : Decorates raw line) :
    clean raw = bare line := by
  obtain ⟨pre, close, post, rfl, hpre, hclose, hpost⟩ := h
  have hhead : ∀ c ∈ (line ++ close).head?, isSpace c = false ∧ (c == ')') = false := by
    rw [List.head?_append_of_ne_nil _ hline.ne_nil]
    exact hline.head
  have hlast : ∀ c ∈ (line ++ close).getLast?, isSpace c = false := by
    intro c hc
    rw [List.getLast?_append] at hc
    cases hend : close.getLast? with
    | none => exact hline.last c (by simpa [hend] using hc)
    | some d =>
      have hd : d = c := by simpa [hend] using hc
      have hparen := hclose d (List.mem_of_getLast? hend)
      rw [← hd, beq_iff_eq.mp hparen]
      decide
  have hstrip : strip isSpace (pre ++ line ++ (close ++ post)) = line ++ close := by
    have hne : line ++ close ≠ [] := by simp [hline.ne_nil]
    rw [show pre ++ line ++ (close ++ post) = pre ++ (line ++ close) ++ post by simp]
    exact strip_append hpre hpost hne (fun c hc => (hhead c hc).1) hlast
  rw [clean, hstrip, strip, dropWhile_of_head fun c hc => (hhead c hc).2,
    rdropWhile_append_of_all hclose, bare]

/-! ### The parts of a line -/

def isIdChar (c : Char) : Bool :=
  c.isAlphanum || c ∈ "!#$%&'*+-./:<=>?@\\^_`|~".toList

structure Ident where
  text : Str
  dollar : text.head? = some '$'
  chars : ∀ c ∈ text, isIdChar c = true
  deriving DecidableEq

/-- What may follow the part of a line that the script reads. -/
structure Tail where
  text : Str
  isOpen : Open text
  last : ∀ c ∈ text.getLast?, isSpace c = false

/-- A depth or a local: `wasm2wat` writes the index, or the name where it has one. -/
inductive Operand where
  | num (n : ℕ)
  | ident (id : Ident)
  deriving DecidableEq

def Operand.text : Operand → Str
  | .num n => Nat.toDigits 10 n
  | .ident id => id.text

/-- A line that neither pass of the script looks at. -/
structure Plain where
  text : Str
  tight : Tight text
  notCritical : criticalLine text = false
  notImport : startsWith text "(import " = false

theorem startsWith_of_head {pre : String} {c : Char} {s : Str}
    (h : pre.toList.head? ≠ some c) (hne : pre.toList ≠ []) : startsWith (c :: s) pre = false := by
  rw [startsWith]
  cases hpre : pre.toList with
  | nil => exact absurd hpre hne
  | cons d rest =>
    have hd : (d == c) = false := by
      rw [beq_eq_false_iff_ne]
      rintro rfl
      exact h (by rw [hpre]; rfl)
    rw [List.isPrefixOf, hd, Bool.false_and]

/-- The instructions of one line that the script looks at. -/
inductive LeafOp where
  | br (depth : Operand)
  | brIf (depth : Operand)
  | brTable
  | ret
  | call (callee : Ident)
  | callIndirect
  | returnCall (callee : Ident)
  | returnCallIndirect
  | localSet (x : Operand)
  | localTee (x : Operand)
  deriving DecidableEq

def LeafOp.keyword : LeafOp → String
  | .br _ => "br"
  | .brIf _ => "br_if"
  | .brTable => "br_table"
  | .ret => "return"
  | .call _ => "call"
  | .callIndirect => "call_indirect"
  | .returnCall _ => "return_call"
  | .returnCallIndirect => "return_call_indirect"
  | .localSet _ => "local.set"
  | .localTee _ => "local.tee"

def LeafOp.operand : LeafOp → Option Str
  | .br depth | .brIf depth => some depth.text
  | .call callee | .returnCall callee => some callee.text
  | .localSet x | .localTee x => some x.text
  | .brTable | .ret | .callIndirect | .returnCallIndirect => none

def operandText : Option Str → Str
  | none => []
  | some operand => ' ' :: operand

inductive WatInst where
  | block (tail : Tail) (body : List WatInst) (endTail : Tail)
  | loop (tail : Tail) (body : List WatInst) (endTail : Tail)
  | ifThen (tail : Tail) (body : List WatInst) (endTail : Tail)
  | ifElse (tail : Tail) (body : List WatInst) (elseTail : Tail) (elseBody : List WatInst)
      (endTail : Tail)
  | leaf (op : LeafOp) (tail : Tail)
  | other (line : Plain)

def keyLine (keyword : String) (operand : Option Str) (tail : Tail) : Str :=
  keyword.toList ++ (operandText operand ++ tail.text)

mutual

def WatInst.lines : WatInst → List Str
  | .block tail body endTail =>
    keyLine "block" none tail :: (linesOf body ++ [keyLine "end" none endTail])
  | .loop tail body endTail =>
    keyLine "loop" none tail :: (linesOf body ++ [keyLine "end" none endTail])
  | .ifThen tail body endTail =>
    keyLine "if" none tail :: (linesOf body ++ [keyLine "end" none endTail])
  | .ifElse tail body elseTail elseBody endTail =>
    keyLine "if" none tail :: (linesOf body ++
      keyLine "else" none elseTail :: (linesOf elseBody ++ [keyLine "end" none endTail]))
  | .leaf op tail => [keyLine op.keyword op.operand tail]
  | .other line => [line.text]

def linesOf : List WatInst → List Str
  | [] => []
  | i :: is => i.lines ++ linesOf is

end

/-- An import of a function, by the text in front of the descriptor, or of something else. -/
inductive WatImport where
  | func (strings : Str) (name : Ident) (tail : Tail)
  | other (desc : Str) (last : ∀ c ∈ desc.getLast?, isSpace c = false)

def WatImport.line : WatImport → Str
  | .func strings name tail =>
    "(import ".toList ++ strings ++ keyLine " (func" (some name.text) tail
  | .other desc _ => "(import ".toList ++ '"' :: desc

theorem WatImport.line_func (strings : Str) (name : Ident) (tail : Tail) :
    (WatImport.func strings name tail).line =
      "(import ".toList ++ strings ++ keyLine " (func" (some name.text) tail := rfl

theorem WatImport.line_other (desc : Str) (last : ∀ c ∈ desc.getLast?, isSpace c = false) :
    (WatImport.other desc last).line = "(import ".toList ++ '"' :: desc := rfl

def WatImport.funcName : WatImport → Option Ident
  | .func _ name _ => some name
  | .other _ _ => none

structure WatFunc where
  name : Ident
  tail : Tail
  locals : List Plain
  body : List WatInst

def WatFunc.lines (f : WatFunc) : List Str :=
  keyLine "(func" (some f.name.text) f.tail :: (f.locals.map Plain.text ++ linesOf f.body)

mutual

def WatInst.leaves : WatInst → List LeafOp
  | .block _ body _ => leavesOf body
  | .loop _ body _ => leavesOf body
  | .ifThen _ body _ => leavesOf body
  | .ifElse _ body _ elseBody _ => leavesOf body ++ leavesOf elseBody
  | .leaf op _ => [op]
  | .other _ => []

def leavesOf : List WatInst → List LeafOp
  | [] => []
  | i :: is => i.leaves ++ leavesOf is

end

mutual

def WatInst.ifs : WatInst → ℕ
  | .block _ body _ => ifsOf body
  | .loop _ body _ => ifsOf body
  | .ifThen _ body _ => ifsOf body + 1
  | .ifElse _ body _ elseBody _ => ifsOf body + ifsOf elseBody + 1
  | .leaf _ _ => 0
  | .other _ => 0

def ifsOf : List WatInst → ℕ
  | [] => 0
  | i :: is => i.ifs + ifsOf is

end

mutual

def WatInst.loopCount : WatInst → ℕ
  | .block _ body _ => loopCountOf body
  | .loop _ body _ => loopCountOf body + 1
  | .ifThen _ body _ => loopCountOf body
  | .ifElse _ body _ elseBody _ => loopCountOf body + loopCountOf elseBody
  | .leaf _ _ => 0
  | .other _ => 0

def loopCountOf : List WatInst → ℕ
  | [] => 0
  | i :: is => i.loopCount + loopCountOf is

end

/-- A module: the names of its functions are unique, and what is called is among them. -/
structure WatModule where
  front : List Plain
  imports : List WatImport
  funcs : List WatFunc
  back : List Plain
  unique : (imports.filterMap WatImport.funcName ++ funcs.map WatFunc.name).Nodup
  declared : ∀ f ∈ funcs, ∀ callee, .call callee ∈ leavesOf f.body →
    callee ∈ imports.filterMap WatImport.funcName ++ funcs.map WatFunc.name

def WatModule.importNames (m : WatModule) : List Ident :=
  m.imports.filterMap WatImport.funcName

def WatModule.lines (m : WatModule) : List Str :=
  m.front.map Plain.text ++ (m.imports.map WatImport.line ++
    (m.funcs.flatMap WatFunc.lines ++ m.back.map Plain.text))

def Renders (file : List Str) (m : WatModule) : Prop :=
  List.Forall₂ Decorates file m.lines

end MVVM.Analysis
