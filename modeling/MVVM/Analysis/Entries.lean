import MVVM.Analysis.Grammar

/-!
# The grammar of instruction files

The lines that `wat_to_inst` writes, and which sequences of them the parser takes for
which tree.
-/

namespace MVVM.Analysis

open MVVM.Text

/-- A line of the instruction file. -/
inductive Entry where
  | beginFunc (funcIdx : ℤ)
  | endFunc
  | beginBlock
  | beginLoop (loopIdx : ℤ)
  | endBlock
  | opBr (depth : ℤ)
  | opBrIf (depth : ℤ)
  | opBrTable
  | opReturn
  | opTee (localIdx : ℤ)
  | opSet (localIdx : ℤ)
  | opCall (calleeIdx : ℤ)
  | opCallIndirect
  deriving DecidableEq, Repr

def Entry.keyword : Entry → String
  | .beginFunc _ => "begin_func"
  | .endFunc => "end_func"
  | .beginBlock => "begin_block"
  | .beginLoop _ => "begin_loop"
  | .endBlock => "end_block"
  | .opBr _ => "op_br"
  | .opBrIf _ => "op_br_if"
  | .opBrTable => "op_br_table"
  | .opReturn => "op_return"
  | .opTee _ => "op_tee"
  | .opSet _ => "op_set"
  | .opCall _ => "op_call"
  | .opCallIndirect => "op_call_indirect"

def Entry.number : Entry → Option ℤ
  | .beginFunc z | .beginLoop z | .opBr z | .opBrIf z | .opTee z | .opSet z | .opCall z => some z
  | .endFunc | .beginBlock | .endBlock | .opBrTable | .opReturn | .opCallIndirect => none

def Entry.line (e : Entry) : Str :=
  match e.number with
  | none => plainLine e.keyword
  | some z => numberLine e.keyword z

def Entry.words (e : Entry) : List Str :=
  match e.number with
  | none => [e.keyword.toList]
  | some z => [e.keyword.toList, showInt z]

def Entry.leaf : Entry → Option (WasmInst Unit)
  | .opBr _ | .opBrIf _ | .opBrTable | .opReturn => some (.branch ())
  | .opTee l | .opSet l => some (.set l)
  | .opCall c => some (.call c)
  | .opCallIndirect => some (.call (-1))
  | .beginFunc _ | .endFunc | .beginBlock | .beginLoop _ | .endBlock => none

def Entry.rise : Entry → ℤ
  | .beginBlock | .beginLoop _ => 1
  | .endBlock => -1
  | _ => 0

/-! ### Loading a written file -/

theorem Entry.keyword_word (e : Entry) :
    e.keyword.toList ≠ [] ∧ ∀ c ∈ e.keyword.toList, isSpace c = false := by
  cases e <;> simp only [Entry.keyword] <;> decide

theorem not_blank_of_word {w : Str} (h : ∀ c ∈ w, isSpace c = false) : ' ' ∉ w := fun hb =>
  absurd (h ' ' hb) (by decide)

theorem strip_of_no_space {s : Str} (hhead : ∀ c ∈ s.head?, isSpace c = false)
    (hlast : ∀ c ∈ s.getLast?, isSpace c = false) : strip isSpace s = s := by
  rw [strip, dropWhile_of_head hhead, rdropWhile_of_last hlast]

theorem load_line (e : Entry) : (strip isSpace e.line).splitOn ' ' = e.words := by
  obtain ⟨hne, hkey⟩ := e.keyword_word
  have hhead : ∀ c ∈ e.keyword.toList.head?, isSpace c = false := fun c hc =>
    hkey c (List.mem_of_head? hc)
  have hsplit {w : Str} (hw : ∀ c ∈ w, isSpace c = false) : w.splitOn ' ' = [w] :=
    List.splitOnP_eq_singleton fun c hc => by
      rw [beq_eq_false_iff_ne]
      rintro rfl
      exact not_blank_of_word hw hc
  rw [Entry.line, Entry.words]
  cases e.number with
  | none =>
    simp only [plainLine]
    rw [strip_of_no_space hhead fun c hc => hkey c (List.mem_of_getLast? hc), hsplit hkey]
  | some z =>
    have hshow : ∀ c ∈ showInt z, isSpace c = false := fun c hc => isSpace_showInt hc
    simp only [numberLine]
    rw [strip_of_no_space, List.splitOn_append_cons_self_of_not_mem (not_blank_of_word hkey),
      hsplit hshow]
    · rw [List.head?_append_of_ne_nil _ hne]
      exact hhead
    · intro c hc
      rw [List.getLast?_append_of_ne_nil _ (List.cons_ne_nil _ _),
        List.getLast?_cons_of_ne_nil (showInt_ne_nil z)] at hc
      exact hshow c (List.mem_of_getLast? hc)

theorem loadInsts_lines (es : List Entry) :
    loadInsts (es.map Entry.line) = es.map Entry.words := by
  simp only [loadInsts, List.map_map, Function.comp_def, load_line]

/-! ### The parser on written lines -/

/-- What a list of lines up to the end of a block is read as. -/
inductive Reads : List Entry → List (WasmInst Unit) → Prop where
  | nil : Reads [] []
  | leaf {e : Entry} {i : WasmInst Unit} {es : List Entry} {is : List (WasmInst Unit)} :
      e.leaf = some i → Reads es is → Reads (e :: es) (i :: is)
  | block {bs es : List Entry} {body is : List (WasmInst Unit)} :
      Reads bs body → Reads es is →
      Reads (.beginBlock :: (bs ++ .endBlock :: es)) (.block body :: is)
  | loop {bs es : List Entry} {body is : List (WasmInst Unit)} (l : ℤ) :
      Reads bs body → Reads es is →
      Reads (.beginLoop l :: (bs ++ .endBlock :: es)) (.loop l body :: is)

/-- The token that the parser takes a line for. -/
def Entry.token : Entry → Token
  | .beginFunc n => .beginFunc n
  | .endFunc => .endFunc
  | .beginBlock => .beginBlock
  | .beginLoop n => .beginLoop n
  | .endBlock => .endBlock
  | .opBr _ => .opBr
  | .opBrIf _ => .opBrIf
  | .opBrTable => .opBrTable
  | .opReturn => .opReturn
  | .opTee n => .opTee n
  | .opSet n => .opSet n
  | .opCall n => .opCall n
  | .opCallIndirect => .opCallIndirect

/-- The token that is written for it. -/
def Entry.plain (e : Entry) : Token := e.token.plain

@[simp] theorem Entry.plain_beginFunc (n : ℤ) : (Entry.beginFunc n).plain = .beginFunc n := rfl

@[simp] theorem Entry.plain_endFunc : Entry.endFunc.plain = .endFunc := rfl

@[simp] theorem Entry.plain_beginBlock : Entry.beginBlock.plain = .beginBlock := rfl

@[simp] theorem Entry.plain_beginLoop (n : ℤ) : (Entry.beginLoop n).plain = .beginLoop n := rfl

@[simp] theorem Entry.plain_endBlock : Entry.endBlock.plain = .endBlock := rfl

theorem tokenOf_entry (e : Entry) : tokenOf e.words = some e.token := by
  have hkey : e.keyword = e.token.keyword := by cases e <;> rfl
  have hnumber : e.token.number = none ∨ e.token.number = e.number := by
    cases e <;> first | exact .inl rfl | exact .inr rfl
  rw [Entry.words]
  cases hn : e.number with
  | none =>
    rw [hn] at hnumber
    exact tokenFor_eq_some_iff.mpr ⟨congrArg String.toList hkey, .inl (or_self_iff.mp hnumber)⟩
  | some z =>
    rw [hn, ← readInt_showInt] at hnumber
    exact tokenFor_eq_some_iff.mpr ⟨congrArg String.toList hkey, hnumber⟩

theorem leaf_token (e : Entry) : e.token.leaf = e.leaf := by
  cases e <;> rfl

theorem plainOf_entries (es : List Entry) :
    (es.map Entry.words).map plainOf = (es.map Entry.plain).map some := by
  simp [plainOf, tokenOf_entry, Entry.plain, Function.comp_def]

theorem leaf_entry_plain (e : Entry) : e.plain.leaf = e.leaf := by
  rw [Entry.plain, leaf_plain, leaf_token]

theorem entry_of_plain {e e' : Entry} (h : e.plain = e'.plain) (hleaf : e'.leaf = none) :
    e = e' := by
  have he : e.leaf = none := by rw [← leaf_entry_plain, h, leaf_entry_plain, hleaf]
  have htoken : e.token = e'.token := by
    rw [← leaf_token] at he hleaf
    exact (plain_of_not_leaf he).symm.trans (h.trans (plain_of_not_leaf hleaf))
  cases e <;> cases he <;> cases e' <;> cases hleaf <;> cases htoken <;> rfl

theorem Reads.written {es : List Entry} {is : List (WasmInst Unit)} (h : Reads es is) :
    es.map Entry.plain = writeInsts is := by
  induction h with
  | nil => rfl
  | leaf hleaf _ ih =>
    rw [← leaf_token] at hleaf
    simp [writeInsts, write_leaf hleaf, Entry.plain, ih]
  | block _ _ ihb ihs =>
    simp [writeInsts, WasmInst.write, ihb, ihs]
  | loop l _ _ ihb ihs =>
    simp [writeInsts, WasmInst.write, ihb, ihs]

theorem reads_of_leaf {i : WasmInst Unit} {t : Token} {es rest : List Entry}
    {is : List (WasmInst Unit)} (hi : i.write = [t])
    (h : es.map Entry.plain = i.write) (hrest : Reads rest is) :
    Reads (es ++ rest) (i :: is) := by
  obtain ⟨e, rfl, he⟩ := List.map_eq_singleton_iff.mp (h.trans hi)
  have hleaf : e.leaf = some i := by
    rw [← leaf_entry_plain, he, leaf_of_write hi]
  exact .leaf hleaf hrest

mutual

theorem WasmInst.reads_of_write {rest : List Entry} {is : List (WasmInst Unit)}
    (hrest : Reads rest is) :
    (i : WasmInst Unit) → {es : List Entry} → es.map Entry.plain = i.write →
      Reads (es ++ rest) (i :: is)
  | .branch _, _, h => reads_of_leaf rfl h hrest
  | .call _, _, h => reads_of_leaf rfl h hrest
  | .set _, _, h => reads_of_leaf rfl h hrest
  | .block body, es, h => by
    obtain ⟨e, tail, rfl, he, htail⟩ := List.map_eq_cons_iff.mp h
    obtain ⟨bs, close, rfl, hbs, hclose⟩ := List.map_eq_append_iff.mp htail
    obtain ⟨c, rfl, hc⟩ := List.map_eq_singleton_iff.mp hclose
    obtain rfl : e = .beginBlock := entry_of_plain he rfl
    obtain rfl : c = .endBlock := entry_of_plain hc rfl
    simpa using Reads.block (reads_of_writeInsts body hbs) hrest
  | .loop l body, es, h => by
    obtain ⟨e, tail, rfl, he, htail⟩ := List.map_eq_cons_iff.mp h
    obtain ⟨bs, close, rfl, hbs, hclose⟩ := List.map_eq_append_iff.mp htail
    obtain ⟨c, rfl, hc⟩ := List.map_eq_singleton_iff.mp hclose
    obtain rfl : e = .beginLoop l := entry_of_plain he rfl
    obtain rfl : c = .endBlock := entry_of_plain hc rfl
    simpa using Reads.loop l (reads_of_writeInsts body hbs) hrest

theorem reads_of_writeInsts :
    (is : List (WasmInst Unit)) → {es : List Entry} →
      es.map Entry.plain = writeInsts is → Reads es is
  | [], es, h => by
    obtain rfl := List.map_eq_nil_iff.mp h
    exact .nil
  | i :: is, es, h => by
    obtain ⟨front, rest, rfl, hfront, hrest⟩ := List.map_eq_append_iff.mp h
    exact i.reads_of_write (reads_of_writeInsts is hrest) hfront

end

/-! ### What the grammar takes -/

theorem Reads.balanced {es : List Entry} {is : List (WasmInst Unit)} (h : Reads es is) :
    (es.map Entry.rise).sum = 0 ∧ .endFunc ∉ es := by
  induction h with
  | nil => simp
  | @leaf e i es is hleaf _ ih =>
    have hrise : e.rise = 0 := by
      cases e <;> first | rfl | cases hleaf
    have hne : Entry.endFunc ≠ e := by
      rintro rfl
      cases hleaf
    simp [hrise, ih.1, ih.2, hne]
  | block _ _ ihb ihs => simp [Entry.rise, ihb.1, ihb.2, ihs.1, ihs.2]
  | loop l _ _ ihb ihs => simp [Entry.rise, ihb.1, ihb.2, ihs.1, ihs.2]

theorem Reads.append {es fs : List Entry} {is js : List (WasmInst Unit)} (h : Reads es is)
    (k : Reads fs js) : Reads (es ++ fs) (is ++ js) := by
  induction h with
  | nil => exact k
  | leaf hleaf _ ih => exact .leaf hleaf ih
  | block hb _ _ ihs =>
    rw [List.cons_append, List.append_assoc, List.cons_append]
    exact .block hb ihs
  | loop l hb _ _ ihs =>
    rw [List.cons_append, List.append_assoc, List.cons_append]
    exact .loop l hb ihs

theorem Reads.unique {es : List Entry} {is js : List (WasmInst Unit)} (h : Reads es is)
    (k : Reads es js) : is = js :=
  writeInsts_injective (h.written.symm.trans k.written)

/-! ### Functions and programs -/

def funcEntries (fi : ℕ) : List (List Entry) → List Entry
  | [] => []
  | es :: ess =>
    .beginFunc fi :: .beginBlock :: (es ++ .endBlock :: .endFunc :: funcEntries (fi + 1) ess)

def numberFuncs (fi : ℕ) : List (List (WasmInst Unit)) → WasmProgram Unit
  | [] => []
  | is :: iss => ⟨fi, is⟩ :: numberFuncs (fi + 1) iss

theorem append_cons_unique {α : Type} {a : α} {es fs rest rest' : List α} (hes : a ∉ es)
    (hfs : a ∉ fs) (h : es ++ a :: rest = fs ++ a :: rest') : es = fs ∧ rest = rest' := by
  induction es generalizing fs with
  | nil =>
    cases fs with
    | nil => exact ⟨rfl, (List.cons.inj h).2⟩
    | cons f fs => exact absurd (List.cons.inj h).1 fun he => hfs (he ▸ List.mem_cons_self)
  | cons e es ih =>
    cases fs with
    | nil => exact absurd (List.cons.inj h).1 fun he => hes (he ▸ List.mem_cons_self)
    | cons f fs =>
      obtain ⟨rfl, htail⟩ := List.cons.inj h
      obtain ⟨rfl, hrest⟩ := ih (fun hm => hes (List.mem_cons_of_mem _ hm))
        (fun hm => hfs (List.mem_cons_of_mem _ hm)) htail
      exact ⟨rfl, hrest⟩

mutual

theorem WasmInst.endFunc_not_mem : (i : WasmInst Unit) → .endFunc ∉ i.write
  | .branch _ => by simp [WasmInst.write]
  | .call c => by
    rw [WasmInst.write]
    split <;> simp
  | .set _ => by simp [WasmInst.write]
  | .block body => by simp [WasmInst.write, endFunc_not_mem_writeInsts body]
  | .loop l body => by simp [WasmInst.write, endFunc_not_mem_writeInsts body]

theorem endFunc_not_mem_writeInsts : (is : List (WasmInst Unit)) → .endFunc ∉ writeInsts is
  | [] => by simp [writeInsts]
  | i :: is => by simp [writeInsts, i.endFunc_not_mem, endFunc_not_mem_writeInsts is]

end

theorem funcEntries_written {ess : List (List Entry)} (hess : ∀ es ∈ ess, .endFunc ∉ es)
    (fi : ℕ) (prog : WasmProgram Unit) :
    (funcEntries fi ess).map Entry.plain = writeProgram prog ↔
      ∃ iss, List.Forall₂ Reads ess iss ∧ prog = numberFuncs fi iss := by
  induction ess generalizing fi prog with
  | nil =>
    constructor
    · intro h
      cases prog with
      | nil => exact ⟨[], .nil, rfl⟩
      | cons f prog => cases h
    · rintro ⟨iss, hiss, hprog⟩
      cases hiss
      rw [hprog]
      rfl
  | cons es ess ih =>
    obtain ⟨hes, hrest⟩ := List.forall_mem_cons.mp hess
    have hleft : (funcEntries fi (es :: ess)).map Entry.plain =
        .beginFunc fi :: .beginBlock :: ((es.map Entry.plain) ++ [.endBlock] ++
          .endFunc :: (funcEntries (fi + 1) ess).map Entry.plain) := by
      simp [funcEntries]
    have hright (f : WasmFunction Unit) (prog : WasmProgram Unit) : writeProgram (f :: prog) =
        .beginFunc f.funcIdx :: .beginBlock :: (writeInsts f.insts ++ [.endBlock] ++
          .endFunc :: writeProgram prog) := by
      simp [writeProgram, writeFunction]
    rw [hleft]
    constructor
    · intro h
      cases prog with
      | nil => cases h
      | cons f prog =>
        rw [hright] at h
        obtain ⟨hfunc, h⟩ := List.cons.inj h
        have hmem : Token.endFunc ∉ (es.map Entry.plain) ++ [.endBlock] := by
          simp only [List.mem_append, List.mem_map, List.mem_singleton, reduceCtorEq, or_false]
          rintro ⟨e, he, hplain⟩
          obtain rfl : e = .endFunc := entry_of_plain hplain rfl
          exact hes he
        obtain ⟨hbody, htail⟩ := append_cons_unique hmem
          (by simp [endFunc_not_mem_writeInsts]) (List.cons.inj h).2
        obtain ⟨iss, hiss, rfl⟩ := (ih hrest (fi + 1) prog).mp htail
        refine ⟨f.insts :: iss, .cons ?_ hiss, ?_⟩
        · exact reads_of_writeInsts f.insts (List.append_cancel_right hbody)
        · rw [numberFuncs, Token.beginFunc.inj hfunc]
    · rintro ⟨iss, hiss, hprog⟩
      obtain ⟨is, iss, hreads, hrest', rfl⟩ := List.forall₂_cons_left_iff.mp hiss
      rw [hprog, numberFuncs, hright, hreads.written, (ih hrest (fi + 1) _).mpr ⟨iss, hrest', rfl⟩]

theorem parseProgram_eq_ok {ess : List (List Entry)} (hess : ∀ es ∈ ess, .endFunc ∉ es)
    (prog : WasmProgram Unit) :
    parseProgram ((funcEntries 0 ess).map Entry.words) = .ok prog ↔
      ∃ iss, List.Forall₂ Reads ess iss ∧ prog = numberFuncs 0 iss := by
  rw [parseProgram_ok_iff, plainOf_entries, ← funcEntries_written hess]
  exact (List.map_injective_iff.mpr (Option.some_injective Token)).eq_iff

end MVVM.Analysis
