import MVVM.Analysis.Tree
import MVVM.Analysis.WatToInst

/-!
# Parsing the instruction file (wasm_static_analysis.py:106-296)

`InstStream` splits each line into its words. The classes read one instruction, block,
loop or function each and leave the stream behind it; here they return what is left.
-/

namespace MVVM.Analysis

open MVVM.Text

/-- The lines from `inst_idx` on, each as its words. -/
abbrev InstStream := List (List Str)

/-- `InstStream.load_insts` -/
def loadInsts (lines : List Str) : InstStream :=
  lines.map fun inst => (strip isSpace inst).splitOn ' '

def expect (s : InstStream) (instType : String) : Except Failure Bool :=
  match s with
  | [] => .error (.assertion "Instruction stream is empty")
  | inst :: _ => .ok (inst.head? == some instType.toList)

def next : InstStream → Except Failure (List Str × InstStream)
  | [] => .error .indexError
  | inst :: rest => .ok (inst, rest)

def require (s : InstStream) (instType : String) : Except Failure Unit := do
  if ← expect s instType then .ok () else .error (.assertion "")

def nextInt (s : InstStream) : Except Failure (ℤ × InstStream) := do
  let (inst, rest) ← next s
  match inst[1]? with
  | none => .error .indexError
  | some word =>
    match readInt word with
    | some z => .ok (z, rest)
    | none => .error .valueError

inductive InstClass where
  | branch
  | call
  | set
  | block
  | loop
  deriving DecidableEq, Repr

def tokenToClass (instType : Str) : Option InstClass :=
  if instType ∈ ["op_br", "op_br_if", "op_br_table", "op_return"].map String.toList then
    some .branch
  else if instType ∈ ["op_call", "op_call_indirect", "op_return_call",
      "op_return_call_indirect"].map String.toList then some .call
  else if instType ∈ ["op_set", "op_tee"].map String.toList then some .set
  else if instType = "begin_block".toList then some .block
  else if instType = "begin_loop".toList then some .loop
  else none

def parseBranch (s : InstStream) : Except Failure (WasmInst Unit × InstStream) := do
  if ← expect s "op_br" then return (.branch (), (← next s).2)
  else if ← expect s "op_br_if" then return (.branch (), (← next s).2)
  else if ← expect s "op_br_table" then return (.branch (), (← next s).2)
  else if ← expect s "op_return" then return (.branch (), (← next s).2)
  else throw (.assertion "Invalid branch instruction")

def parseCall (s : InstStream) : Except Failure (WasmInst Unit × InstStream) := do
  if ← expect s "op_call" then
    let (calleeIdx, rest) ← nextInt s
    return (.call calleeIdx, rest)
  else if ← expect s "op_call_indirect" then return (.call (-1), (← next s).2)
  else if ← expect s "op_return_call" then throw (.assertion "Invalid return call")
  else if ← expect s "op_return_call_indirect" then throw (.assertion "Invalid return call")
  else throw (.assertion "Invalid call instruction")

def parseSet (s : InstStream) : Except Failure (WasmInst Unit × InstStream) := do
  if ← expect s "op_set" then
    let (localIdx, rest) ← nextInt s
    return (.set localIdx, rest)
  else if ← expect s "op_tee" then
    let (localIdx, rest) ← nextInt s
    return (.set localIdx, rest)
  else throw (.assertion "Invalid set instruction")

def parseInst (insts : (Str → String) → InstStream →
    Except Failure (List (WasmInst Unit) × InstStream)) (s : InstStream) :
    InstClass → Except Failure (WasmInst Unit × InstStream)
  | .branch => parseBranch s
  | .call => parseCall s
  | .set => parseSet s
  | .block => do
    require s "begin_block"
    let (_, s) ← next s
    let (body, s) ← insts (fun ty => "Invalid instruction type " ++ String.ofList ty) s
    require s "end_block"
    let (_, s) ← next s
    return (.block body, s)
  | .loop => do
    require s "begin_loop"
    let (loopIdx, s) ← nextInt s
    let (body, s) ← insts (fun _ => "Invalid instruction type") s
    require s "end_block"
    let (_, s) ← next s
    return (.loop loopIdx body, s)

/-- The `while` of `WasmBlock` and `WasmLoop`, up to the end of the stream or an
`end_block`. -/
def parseInsts : ℕ → (Str → String) → InstStream →
    Except Failure (List (WasmInst Unit) × InstStream)
  | _, _, [] => .ok ([], [])
  | 0, _, _ :: _ => .error .outOfFuel
  | fuel + 1, invalid, inst :: rest =>
    let instType := inst.headD []
    if instType = "end_block".toList then .ok ([], inst :: rest)
    else
      match tokenToClass instType with
      | none => .error (.assertion (invalid instType))
      | some cls => do
        let (i, s) ← parseInst (parseInsts fuel) (inst :: rest) cls
        let (is, s) ← parseInsts fuel invalid s
        return (i :: is, s)

/-- `WasmFunction`, whose `block` is a `WasmBlock`. -/
def parseFunction (s : InstStream) : Except Failure (WasmFunction Unit × InstStream) := do
  require s "begin_func"
  let (funcIdx, s) ← nextInt s
  require s "begin_block"
  let (_, s) ← next s
  let (body, s) ←
    parseInsts s.length (fun ty => "Invalid instruction type " ++ String.ofList ty) s
  require s "end_block"
  let (_, s) ← next s
  require s "end_func"
  let (_, s) ← next s
  return (⟨funcIdx, body⟩, s)

def parseFunctions : ℕ → InstStream → Except Failure (WasmProgram Unit)
  | _, [] => .ok []
  | 0, _ :: _ => .error .outOfFuel
  | fuel + 1, inst :: rest => do
    let (f, s) ← parseFunction (inst :: rest)
    let fs ← parseFunctions fuel s
    return f :: fs

def parseProgram (s : InstStream) : Except Failure (WasmProgram Unit) :=
  parseFunctions s.length s

/-- The script up to the passes: the instruction file is written, loaded and parsed. -/
def readModule (wat : List Str) : Except Failure (WasmProgram Unit) := do
  let lines ← watToInst wat
  parseProgram (loadInsts lines)

/-! ### The bounds on the loops are not reached -/

/-- A reader that takes at least `k` lines, and does not stop at a bound. -/
def Takes {α : Type} (k : ℕ) (s : InstStream) (x : Except Failure (α × InstStream)) : Prop :=
  x ≠ .error .outOfFuel ∧ ∀ a s', x = .ok (a, s') → s'.length + k ≤ s.length

variable {α β : Type}

theorem takes_ok {k : ℕ} {s s' : InstStream} {a : α} (h : s'.length + k ≤ s.length) :
    Takes k s (.ok (a, s')) :=
  ⟨by simp, fun _ _ he => (Prod.mk.inj (Except.ok.inj he)).2 ▸ h⟩

theorem takes_error {k : ℕ} {s : InstStream} {e : Failure} (h : e ≠ .outOfFuel) :
    Takes k s (.error e : Except Failure (α × InstStream)) :=
  ⟨fun he => h (Except.error.inj he), fun _ _ he => nomatch he⟩

theorem Takes.bind {k : ℕ} {s : InstStream} {x : Except Failure (α × InstStream)}
    {g : α × InstStream → Except Failure (β × InstStream)} (hx : Takes k s x)
    (hg : ∀ a s', x = .ok (a, s') → Takes 0 s' (g (a, s'))) : Takes k s (x.bind g) := by
  cases x with
  | error e => exact takes_error fun he => hx.1 (he ▸ rfl)
  | ok p =>
    have hlen := hx.2 p.1 p.2 rfl
    have hp := hg p.1 p.2 rfl
    refine ⟨hp.1, fun b s' hb => ?_⟩
    have := hp.2 b s' hb
    omega

theorem Takes.zero {k : ℕ} {s : InstStream} {x : Except Failure (α × InstStream)}
    (hx : Takes k s x) : Takes 0 s x :=
  ⟨hx.1, fun a s' hs => by have := hx.2 a s' hs; omega⟩

theorem takes_next (s : InstStream) : Takes 1 s (next s) := by
  cases s with
  | nil => exact takes_error (by simp)
  | cons inst rest => exact takes_ok (by simp)

theorem takes_nextInt (s : InstStream) : Takes 1 s (nextInt s) := by
  refine (takes_next s).bind fun inst s' _ => ?_
  cases hword : inst[1]? with
  | none =>
    simp only [hword]
    exact takes_error (by simp)
  | some word =>
    simp only [hword]
    cases readInt word with
    | none => exact takes_error (by simp)
    | some z => exact takes_ok (by simp)

theorem takes_expect {k : ℕ} {s : InstStream} {instType : String}
    {yes no : Except Failure (α × InstStream)} (hyes : Takes k s yes) (hno : Takes k s no) :
    Takes k s ((expect s instType).bind fun b => if b then yes else no) := by
  cases s with
  | nil => exact takes_error (by simp)
  | cons inst rest =>
    simp only [expect, Except.bind]
    split
    · exact hyes
    · exact hno

theorem takes_require {k : ℕ} {s : InstStream} {instType : String}
    {x : Except Failure (α × InstStream)} (hx : Takes k s x) :
    Takes k s ((require s instType).bind fun _ => x) := by
  cases s with
  | nil => exact takes_error (by simp)
  | cons inst rest =>
    simp only [require, expect, bind, Except.bind]
    split
    · next heq =>
      split at heq
      · cases heq
      · cases heq
        exact takes_error (by simp)
    · exact hx

theorem takes_parseBranch (s : InstStream) : Takes 1 s (parseBranch s) := by
  have hnext : Takes 1 s ((next s).bind fun p => .ok (WasmInst.branch (), p.2)) :=
    (takes_next s).bind fun _ _ _ => takes_ok (by simp)
  exact takes_expect hnext (takes_expect hnext (takes_expect hnext
    (takes_expect hnext (takes_error (by simp)))))

theorem takes_parseCall (s : InstStream) : Takes 1 s (parseCall s) := by
  have hcall : Takes 1 s ((nextInt s).bind fun p => .ok ((.call p.1 : WasmInst Unit), p.2)) :=
    (takes_nextInt s).bind fun _ _ _ => takes_ok (by simp)
  have hnext : Takes 1 s ((next s).bind fun p => .ok ((.call (-1) : WasmInst Unit), p.2)) :=
    (takes_next s).bind fun _ _ _ => takes_ok (by simp)
  exact takes_expect hcall (takes_expect hnext (takes_expect (takes_error (by simp))
    (takes_expect (takes_error (by simp)) (takes_error (by simp)))))

theorem takes_parseSet (s : InstStream) : Takes 1 s (parseSet s) := by
  have hset : Takes 1 s ((nextInt s).bind fun p => .ok ((.set p.1 : WasmInst Unit), p.2)) :=
    (takes_nextInt s).bind fun _ _ _ => takes_ok (by simp)
  exact takes_expect hset (takes_expect hset (takes_error (by simp)))

theorem takes_end (s : InstStream) (a : α) :
    Takes 1 s ((require s "end_block").bind fun _ => (next s).bind fun p => .ok (a, p.2)) :=
  takes_require ((takes_next s).bind fun _ _ _ => takes_ok (by simp))

theorem takes_parseInst {s : InstStream} {insts : (Str → String) → InstStream →
      Except Failure (List (WasmInst Unit) × InstStream)}
    (h : ∀ invalid s', s'.length < s.length → Takes 0 s' (insts invalid s')) (cls : InstClass) :
    Takes 1 s (parseInst insts s cls) := by
  cases cls with
  | branch => exact takes_parseBranch s
  | call => exact takes_parseCall s
  | set => exact takes_parseSet s
  | block =>
    refine takes_require ((takes_next s).bind fun _ s' hs => ?_)
    have hlen := (takes_next s).2 _ s' hs
    exact (h _ s' (by omega)).bind fun body s'' _ => (takes_end s'' _).zero
  | loop =>
    refine takes_require ((takes_nextInt s).bind fun l s' hs => ?_)
    have hlen := (takes_nextInt s).2 l s' hs
    exact (h _ s' (by omega)).bind fun body s'' _ => (takes_end s'' _).zero

theorem takes_parseInsts (fuel : ℕ) (invalid : Str → String) (s : InstStream)
    (hs : s.length ≤ fuel) : Takes 0 s (parseInsts fuel invalid s) := by
  induction fuel generalizing invalid s with
  | zero =>
    obtain rfl := List.length_eq_zero_iff.mp (Nat.le_zero.mp hs)
    exact takes_ok (by simp)
  | succ fuel ih =>
    cases s with
    | nil => exact takes_ok (by simp)
    | cons inst rest =>
      rw [parseInsts]
      simp only
      split
      · exact takes_ok (by simp)
      · cases tokenToClass (inst.headD []) with
        | none => exact takes_error (by simp)
        | some cls =>
          have hshorter : ∀ invalid' s', s'.length < (inst :: rest).length →
              Takes 0 s' (parseInsts fuel invalid' s') :=
            fun invalid' s' hlt => ih invalid' s' (by rw [List.length_cons] at hlt hs; omega)
          have hinst := takes_parseInst hshorter cls
          refine (hinst.bind fun i s' hi => ?_).zero
          have hlen := hinst.2 i s' hi
          rw [List.length_cons] at hlen hs
          exact (ih invalid s' (by omega)).bind fun _ _ _ => takes_ok (by simp)

theorem takes_parseFunction (s : InstStream) : Takes 1 s (parseFunction s) := by
  refine takes_require ((takes_nextInt s).bind fun fi s' _ => ?_)
  refine takes_require ((takes_next s').bind fun _ s'' _ => ?_).zero
  refine (takes_parseInsts s''.length _ s'' (Nat.le_refl _)).bind fun body s₃ _ => ?_
  refine takes_require ((takes_next s₃).bind fun _ s₄ _ => ?_).zero
  refine takes_require ((takes_next s₄).bind fun _ s₅ _ => ?_).zero
  exact takes_ok (Nat.le_refl _)

theorem parseFunctions_ne_outOfFuel (fuel : ℕ) (s : InstStream) (hs : s.length ≤ fuel) :
    parseFunctions fuel s ≠ .error .outOfFuel := by
  induction fuel generalizing s with
  | zero =>
    obtain rfl := List.length_eq_zero_iff.mp (Nat.le_zero.mp hs)
    simp [parseFunctions]
  | succ fuel ih =>
    cases s with
    | nil => simp [parseFunctions]
    | cons inst rest =>
      have hfunc := takes_parseFunction (inst :: rest)
      rw [parseFunctions]
      cases hf : parseFunction (inst :: rest) with
      | error e =>
        intro h
        exact hfunc.1 (hf.trans (congrArg _ (Except.error.inj h)))
      | ok p =>
        have hlen := hfunc.2 p.1 p.2 hf
        rw [List.length_cons] at hlen hs
        have hrest := ih p.2 (by omega)
        simp only [bind, Except.bind]
        cases hfs : parseFunctions fuel p.2 with
        | error e =>
          intro h
          exact hrest (hfs.trans (congrArg _ (Except.error.inj h)))
        | ok fs => exact fun h => nomatch h

theorem parseProgram_ne_outOfFuel (s : InstStream) : parseProgram s ≠ .error .outOfFuel :=
  parseFunctions_ne_outOfFuel s.length s (Nat.le_refl _)

end MVVM.Analysis
