import MVVM.Analysis.Faithful
import MVVM.Analysis.ModifiedLocals
import MVVM.Analysis.Latency

/-!
# The files that the script leaves (wasm_static_analysis.py:472-534)

The script reads the text of a module, runs its three passes and writes what each has found
into a file: a line with a count, and a line for each entry. Here the files are read again,
and what they say is compared with the executions of the module.
-/

namespace MVVM.Analysis

open MVVM.Text

/-! ### Numbers between blanks -/

/-- `' '.join([str(z) for z in zs])` -/
def spaced (zs : List ℤ) : Str := [' '].intercalate (zs.map showInt)

/-- The numbers of a file, blanks and ends of lines between them. -/
def numbers (s : Str) : Option (List ℤ) := (words s).mapM readInt

theorem words_space {c : Char} (hc : isSpace c = true) (s : Str) : words (c :: s) = words s := by
  rw [words, List.splitOnP_cons_eq_if_modifyHead, if_pos hc]
  simp [words]

theorem numbers_word (z : ℤ) {c : Char} (hc : isSpace c = true) (s : Str) :
    numbers (showInt z ++ c :: s) = (numbers s).map (z :: ·) := by
  have hwords : words (showInt z ++ c :: s) = showInt z :: words s := by
    have hword : ∀ d ∈ showInt z, isSpace d = false := fun d => isSpace_showInt
    rw [words, List.splitOnP_append_cons_of_forall_mem hword c hc]
    simp [words, showInt_ne_nil]
  rw [numbers, hwords, List.mapM_cons, readInt_showInt]
  cases hnum : (words s).mapM readInt with
  | none => simp [numbers, hnum]
  | some zs => simp [numbers, hnum]

theorem numbers_spaced (zs : List ℤ) {c : Char} (hc : isSpace c = true) (s : Str) :
    numbers (spaced zs ++ c :: s) = (numbers s).map (zs ++ ·) := by
  induction zs with
  | nil =>
    rw [spaced, List.map_nil, List.intercalate_nil, List.nil_append, numbers, words_space hc]
    simp [numbers]
  | cons z zs ih =>
    cases zs with
    | nil =>
      rw [spaced, List.map_singleton, List.intercalate_singleton, numbers_word z hc]
      rfl
    | cons z' zs =>
      have hsplit : spaced (z :: z' :: zs) ++ c :: s =
          showInt z ++ ' ' :: (spaced (z' :: zs) ++ c :: s) := by
        simp [spaced]
      rw [hsplit, numbers_word z (by decide), ih, Option.map_map]
      rfl

/-- What is written entry by entry is read entry by entry. -/
theorem numbers_flatMap {α : Type} (write : α → Str) (entry : α → List ℤ)
    (h : ∀ x s, numbers (write x ++ s) = (numbers s).map (entry x ++ ·)) (xs : List α) :
    numbers (xs.flatMap write) = some (xs.flatMap entry) := by
  induction xs with
  | nil => rfl
  | cons x xs ih => rw [List.flatMap_cons, h, ih, List.flatMap_cons, Option.map_some]

/-! ### The three files -/

/-- `write(f"{len(xs)}\n")`, and a line for each entry. -/
def optFile {α : Type} (write : α → Str) (xs : List α) : Str :=
  spaced [(xs.length : ℤ)] ++ '\n' :: xs.flatMap write

def simpleFuncOpt : List ℤ → Str := optFile fun funcIdx => spaced [funcIdx] ++ ['\n']

/-- The lines of the loops with the locals, which are behind a count and may be none. -/
def modifiedLocalsOpt : List (ℤ × ℤ × List ℤ) → Str :=
  optFile fun x => spaced [x.1, x.2.1, (x.2.2.length : ℤ)] ++ ' ' :: (spaced x.2.2 ++ ['\n'])

def skipCkptOpt : List (ℤ × ℤ) → Str := optFile fun x => spaced [x.1, x.2] ++ ['\n']

structure Opts where
  simpleFunc : Str
  modifiedLocals : Str
  skipCkpt : Str

/-- The locals of each loop in some order: Python leaves open in which a set is gone through. -/
def Listed : List LoopLocals → List (ℤ × ℤ × List ℤ) → Prop :=
  List.Forall₂ fun r x => x.1 = r.1 ∧ x.2.1 = r.2.1 ∧ x.2.2.Nodup ∧ x.2.2.toFinset = r.2.2

/-- The script, from the lines of the text to the files. -/
def Script (fuel : ℕ) (file : List Str) (out : Opts) : Prop :=
  ∃ prog simple locals, readModule file = .ok prog ∧ simpleFuncPass fuel prog = some simple ∧
    Listed (modifiedLocalsPass prog) locals ∧
    out = ⟨simpleFuncOpt simple, modifiedLocalsOpt locals,
      skipCkptOpt (loopCkptPass simple.toFinset prog)⟩

/-! ### What a reader finds in them -/

/-- As many entries as the first number says, each read by `entry`. -/
def readEntries {α : Type} (entry : List ℤ → Option (α × List ℤ)) :
    ℕ → List ℤ → Option (List α)
  | 0, zs => if zs = [] then some [] else none
  | n + 1, zs => (entry zs).bind fun x => (readEntries entry n x.2).map (x.1 :: ·)

def readOpt {α : Type} (entry : List ℤ → Option (α × List ℤ)) (s : Str) : Option (List α) :=
  (numbers s).bind fun zs =>
    match zs with
    | [] => none
    | n :: zs => readEntries entry n.toNat zs

def readOne : List ℤ → Option (ℤ × List ℤ)
  | a :: zs => some (a, zs)
  | [] => none

def readTwo : List ℤ → Option ((ℤ × ℤ) × List ℤ)
  | a :: b :: zs => some ((a, b), zs)
  | _ => none

def readLocals : List ℤ → Option ((ℤ × ℤ × List ℤ) × List ℤ)
  | a :: b :: n :: zs =>
    if n.toNat ≤ zs.length then some ((a, b, zs.take n.toNat), zs.drop n.toNat) else none
  | _ => none

theorem readEntries_flatMap {α : Type} (entry : List ℤ → Option (α × List ℤ)) (f : α → List ℤ)
    (h : ∀ x zs, entry (f x ++ zs) = some (x, zs)) (xs : List α) :
    readEntries entry xs.length (xs.flatMap f) = some xs := by
  induction xs with
  | nil => rfl
  | cons x xs ih =>
    rw [List.length_cons, List.flatMap_cons, readEntries, h, Option.bind_some, ih, Option.map_some]

theorem readOpt_optFile {α : Type} {write : α → Str} {entry : List ℤ → Option (α × List ℤ)}
    (f : α → List ℤ) (hwrite : ∀ x s, numbers (write x ++ s) = (numbers s).map (f x ++ ·))
    (hentry : ∀ x zs, entry (f x ++ zs) = some (x, zs)) (xs : List α) :
    readOpt entry (optFile write xs) = some xs := by
  rw [readOpt, optFile, numbers_spaced _ (by decide), numbers_flatMap write f hwrite]
  exact readEntries_flatMap entry f hentry xs

theorem readOpt_simpleFuncOpt (simple : List ℤ) :
    readOpt readOne (simpleFuncOpt simple) = some simple := by
  refine readOpt_optFile (fun z => [z]) (fun z s => ?_) (fun z zs => rfl) simple
  rw [List.append_assoc]
  exact numbers_spaced [z] (by decide) s

theorem readOpt_skipCkptOpt (skip : List (ℤ × ℤ)) :
    readOpt readTwo (skipCkptOpt skip) = some skip := by
  refine readOpt_optFile (fun x => [x.1, x.2]) (fun x s => ?_) (fun x zs => rfl) skip
  rw [List.append_assoc]
  exact numbers_spaced [x.1, x.2] (by decide) s

theorem readOpt_modifiedLocalsOpt (locals : List (ℤ × ℤ × List ℤ)) :
    readOpt readLocals (modifiedLocalsOpt locals) = some locals := by
  refine readOpt_optFile (fun x => [x.1, x.2.1, (x.2.2.length : ℤ)] ++ x.2.2) (fun x s => ?_)
    (fun x zs => ?_) locals
  · rw [List.append_assoc, List.cons_append, List.append_assoc, numbers_spaced _ (by decide)]
    rw [List.singleton_append, numbers_spaced x.2.2 (by decide), Option.map_map]
    refine congrArg (fun g => (numbers s).map g) (funext fun zs => ?_)
    exact (List.append_assoc _ _ _).symm
  · simp [readLocals]

/-! ### What they say of the module -/

theorem mem_modifiedLocalsPass {β : Type} {prog : WasmProgram β} {r : LoopLocals} :
    r ∈ modifiedLocalsPass prog ↔
      ∃ f ∈ prog, ∃ l ∈ loopsOf f.insts, r = loopLocals f.funcIdx l := by
  rw [modifiedLocalsPass, List.flatMap_map, List.mem_flatMap]
  refine exists_congr fun f => and_congr_right fun _ => ?_
  have hmem := (results_visitLocals f.funcIdx (.block f.insts)).mem_iff (a := r)
  rw [WasmInst.loops, List.mem_map] at hmem
  refine hmem.trans (exists_congr fun l => and_congr_right fun _ => eq_comm)

theorem listed_mem {rs : List LoopLocals} {xs : List (ℤ × ℤ × List ℤ)} (h : Listed rs xs) :
    (∀ r ∈ rs, ∃ set, (r.1, r.2.1, set) ∈ xs ∧ set.Nodup ∧ set.toFinset = r.2.2) ∧
      ∀ x ∈ xs, (x.1, x.2.1, x.2.2.toFinset) ∈ rs := by
  induction h with
  | nil => simp
  | @cons r x rs xs hrx _ ih =>
    obtain ⟨h1, h2, hnodup, hset⟩ := hrx
    refine ⟨List.forall_mem_cons.mpr ⟨⟨x.2.2, ?_, hnodup, hset⟩, fun r' hr' => ?_⟩,
      List.forall_mem_cons.mpr ⟨?_, fun x' hx' => List.mem_cons_of_mem _ (ih.2 x' hx')⟩⟩
    · rw [← h1, ← h2]
      exact List.mem_cons_self
    · obtain ⟨set, hmem, hset'⟩ := ih.1 r' hr'
      exact ⟨set, List.mem_cons_of_mem _ hmem, hset'⟩
    · rw [h1, h2, hset]
      exact List.mem_cons_self

theorem exists_listed (rs : List LoopLocals) : ∃ xs, Listed rs xs := by
  induction rs with
  | nil => exact ⟨[], .nil⟩
  | cons r rs ih =>
    obtain ⟨xs, hxs⟩ := ih
    exact ⟨(r.1, r.2.1, r.2.2.sort) :: xs, .cons ⟨rfl, rfl, r.2.2.sort_nodup _,
      r.2.2.sort_toFinset _⟩ hxs⟩

theorem funcIdx_program {r : Reading} {m : WatModule} {f : WasmFunction Unit}
    (hf : f ∈ m.program r) : f.funcIdx ≠ -1 := by
  have hnumbers : ∀ (iss : List (List (WasmInst Unit))) (n : ℕ), ∀ f ∈ numberFuncs n iss,
      0 ≤ f.funcIdx := by
    intro iss
    induction iss with
    | nil => exact fun n f hf => absurd hf List.not_mem_nil
    | cons is iss ih =>
      intro n f hf
      rcases List.mem_cons.mp hf with rfl | hf
      · exact Int.natCast_nonneg n
      · exact ih (n + 1) f hf
  have hle := hnumbers _ 0 f hf
  omega

/-- What the files say of a program: its functions without loops and calls, for each of its
loops the locals that are set in it, and where it needs no checkpoint. -/
structure OptsRight (prog : WasmProgram Branch) (simple : List ℤ)
    (locals : List (ℤ × ℤ × List ℤ)) (skip : List (ℤ × ℤ)) : Prop where
  plain : ∀ n, n ∈ simple ↔ ∃ f ∈ forget prog, allPlain f.insts = true ∧ f.funcIdx = n
  modified : ∀ f ∈ forget prog, ∀ l b, (l, b) ∈ loopsOf f.insts →
    ∃ set, (f.funcIdx, l, set) ∈ locals ∧ set.Nodup ∧ ∀ x, x ∈ set ↔ x ∈ setsOf b
  loops : ∀ x ∈ locals, ∃ f ∈ forget prog, x.1 = f.funcIdx ∧ x.2.1 ∈ (loopsOf f.insts).map Prod.fst
  latency : (∃ bound, StopsWithin prog simple.toFinset skip bound) ↔
    ∀ f l, (f, l) ∈ skip → ¬Circles prog simple.toFinset skip f l

theorem optsRight_of_passes {prog : WasmProgram Branch} (hnames : DistinctNames (forget prog))
    (hidx : ∀ f ∈ prog, f.funcIdx ≠ -1) {fuel : ℕ} (hfuel : 0 < fuel) {simple : List ℤ}
    {locals : List (ℤ × ℤ × List ℤ)} (hsimple : simpleFuncPass fuel (forget prog) = some simple)
    (hlocals : Listed (modifiedLocalsPass (forget prog)) locals) :
    OptsRight prog simple locals (loopCkptPass simple.toFinset (forget prog)) where
  plain n := mem_simpleFuncPass hfuel hsimple
  modified f hf l b hb := by
    have hmem : loopLocals f.funcIdx (l, b) ∈ modifiedLocalsPass (forget prog) :=
      mem_modifiedLocalsPass.mpr ⟨f, hf, (l, b), hb, rfl⟩
    obtain ⟨set, hset, hnodup, heq⟩ := (listed_mem hlocals).1 _ hmem
    refine ⟨set, hset, hnodup, fun x => ?_⟩
    rw [← List.mem_toFinset, heq]
    exact List.mem_toFinset
  loops x hx := by
    obtain ⟨f, hf, l, hl, heq⟩ := mem_modifiedLocalsPass.mp ((listed_mem hlocals).2 x hx)
    obtain ⟨h1, h2⟩ := Prod.mk.inj heq
    exact ⟨f, hf, h1, List.mem_map.mpr ⟨l, hl, ((Prod.mk.inj h2).1).symm⟩⟩
  latency := by
    have hdistinct := distinctNames_of_forget hnames
    exact stopsWithin_iff (simpleIn_simpleFuncPass hdistinct.funcs hidx hfuel hsimple) hdistinct

example : skipCkptOpt [(0, 3), (12, 0)] = "2\n0 3\n12 0\n".toList := by decide

example : modifiedLocalsOpt [(0, 1, []), (0, 0, [5, 2])] = "2\n0 1 0 \n0 0 2 5 2\n".toList := by
  decide

end MVVM.Analysis
