import MVVM.Analysis.Entries
import MVVM.Analysis.WatText

/-!
# What is written for the lines of a text

For each instruction of a module text the lines of the instruction file that `wat_to_inst`
writes, first found from its line, then by the structure of the text alone.
-/

namespace MVVM.Analysis

open MVVM.Text

/-! ### Key lines -/

structure Word (s : Str) : Prop where
  ne_nil : s ≠ []
  chars : ∀ c ∈ s, isSpace c = false ∧ (c == ')') = false

theorem isIdChar_plain {c : Char} (h : isIdChar c = true) :
    isSpace c = false ∧ (c == ')') = false := by
  have hpunct : ∀ d ∈ "!#$%&'*+-./:<=>?@\\^_`|~".toList,
      isSpace d = false ∧ (d == ')') = false := by decide
  rw [isIdChar, Bool.or_eq_true, decide_eq_true_eq] at h
  rcases h with halnum | hmem
  · have hrange : (48 ≤ c.toNat ∧ c.toNat ≤ 57) ∨ (65 ≤ c.toNat ∧ c.toNat ≤ 90) ∨
        (97 ≤ c.toNat ∧ c.toNat ≤ 122) := by
      have halpha : c.isAlpha = (c.isUpper || c.isLower) := rfl
      rw [Char.isAlphanum, Bool.or_eq_true, halpha, Bool.or_eq_true] at halnum
      rcases halnum with (hup | hlow) | hdigit
      · have h := of_decide_eq_true hup
        exact .inr (.inl ⟨UInt32.le_iff_toNat_le.mp h.1, UInt32.le_iff_toNat_le.mp h.2⟩)
      · have h := Bool.and_eq_true_iff.mp hlow
        exact .inr (.inr ⟨UInt32.le_iff_toNat_le.mp (of_decide_eq_true h.1),
          UInt32.le_iff_toNat_le.mp (of_decide_eq_true h.2)⟩)
      · exact .inl (Char.isDigit_iff_toNat.mp hdigit)
    refine ⟨isSpace_of_range (by omega) (by omega), ?_⟩
    rw [beq_eq_false_iff_ne]
    rintro rfl
    exact absurd hrange (by decide)
  · exact hpunct c hmem

theorem Ident.word (id : Ident) : Word id.text where
  ne_nil := by
    intro h
    have hdollar := id.dollar
    rw [h] at hdollar
    cases hdollar
  chars := fun c hc => isIdChar_plain (id.chars c hc)

theorem Operand.word : (x : Operand) → Word x.text
  | .num n =>
    ⟨Nat.toDigits_ne_nil, fun c hc => by
      have hdigit := isDigit_of_mem_toDigits hc
      refine ⟨isSpace_of_isDigit hdigit, ?_⟩
      rw [beq_eq_false_iff_ne]
      rintro rfl
      exact absurd hdigit (by decide)⟩
  | .ident id => id.word

theorem LeafOp.operand_word (op : LeafOp) : ∀ s ∈ op.operand, Word s := by
  intro s hs
  cases op with
  | br x => exact Option.some.inj hs ▸ x.word
  | brIf x => exact Option.some.inj hs ▸ x.word
  | localSet x => exact Option.some.inj hs ▸ x.word
  | localTee x => exact Option.some.inj hs ▸ x.word
  | call id => exact Option.some.inj hs ▸ id.word
  | returnCall id => exact Option.some.inj hs ▸ id.word
  | brTable => cases hs
  | ret => cases hs
  | callIndirect => cases hs
  | returnCallIndirect => cases hs

theorem word_of_forall {s : Str} (h : s ≠ [] ∧ ∀ c ∈ s, isSpace c = false ∧ (c == ')') = false) :
    Word s := ⟨h.1, h.2⟩

theorem LeafOp.keyword_word (op : LeafOp) : Word op.keyword.toList := by
  refine word_of_forall ?_
  cases op <;> simp only [LeafOp.keyword] <;> decide

theorem last_of_key {keyword : String} {operand : Option Str} (hkey : Word keyword.toList)
    (hop : ∀ s ∈ operand, Word s) :
    ∀ c ∈ (keyword.toList ++ operandText operand).getLast?,
      isSpace c = false ∧ (c == ')') = false := by
  intro c hc
  cases operand with
  | none =>
    rw [operandText, List.append_nil] at hc
    exact hkey.chars c (List.mem_of_getLast? hc)
  | some s =>
    have hs := hop s rfl
    rw [operandText, List.getLast?_append_of_ne_nil _ (List.cons_ne_nil _ _),
      List.getLast?_cons_of_ne_nil hs.ne_nil] at hc
    exact hs.chars c (List.mem_of_getLast? hc)

theorem tight_keyLine {keyword : String} {operand : Option Str} (tail : Tail)
    (hkey : Word keyword.toList) (hop : ∀ s ∈ operand, Word s) :
    Tight (keyLine keyword operand tail) where
  ne_nil := by simp [keyLine, hkey.ne_nil]
  head := by
    rw [keyLine, List.head?_append_of_ne_nil _ hkey.ne_nil]
    exact fun c hc => hkey.chars c (List.mem_of_head? hc)
  last := by
    intro c hc
    rw [keyLine, ← List.append_assoc, List.getLast?_append] at hc
    cases htail : tail.text.getLast? with
    | none => exact (last_of_key hkey hop c (by simpa [htail] using hc)).1
    | some d => exact tail.last c (by simpa [htail] using hc)

theorem bare_keyLine {keyword : String} {operand : Option Str} (tail : Tail)
    (hkey : Word keyword.toList) (hop : ∀ s ∈ operand, Word s) :
    bare (keyLine keyword operand tail) =
      keyword.toList ++ (operandText operand ++ bare tail.text) := by
  rw [keyLine, ← List.append_assoc, bare, rdropWhile_append_of_last _ fun c hc =>
    (last_of_key hkey hop c hc).2, List.append_assoc, bare]

theorem bare_isPrefix (s : Str) : bare s <+: s := List.rdropWhile_prefix _ _

theorem open_of_isPrefix {s t : Str} (h : s <+: t) (ht : Open t) : Open s := by
  cases s with
  | nil => exact .inl rfl
  | cons c s =>
    obtain ⟨rest, rfl⟩ := h
    rcases ht with ht | ht
    · cases ht
    · exact .inr ht

theorem open_rest (operand : Option Str) (tail : Tail) :
    Open (operandText operand ++ bare tail.text) := by
  cases operand with
  | none => exact open_of_isPrefix (bare_isPrefix _) tail.isOpen
  | some s => exact .inr rfl

theorem criticalLine_keyLine {keyword : String} {operand : Option Str} (tail : Tail)
    (hkey : Word keyword.toList) (hop : ∀ s ∈ operand, Word s) :
    criticalLine (bare (keyLine keyword operand tail)) = criticalLine keyword.toList := by
  rw [bare_keyLine tail hkey hop, criticalLine_append (open_rest operand tail)]

theorem lineKind_keyLine {keyword : String} {operand : Option Str} (tail : Tail)
    (hkey : Word keyword.toList) (hop : ∀ s ∈ operand, Word s) :
    lineKind (bare (keyLine keyword operand tail)) = lineKind keyword.toList := by
  rw [bare_keyLine tail hkey hop, lineKind_append (open_rest operand tail)]

theorem secondWord_keyLine {keyword : String} {s : Str} (tail : Tail)
    (hkey : Word keyword.toList) (hop : Word s) :
    secondWord (bare (keyLine keyword (some s) tail)) = .ok s := by
  have hop' : ∀ s' ∈ some s, Word s' := fun s' hs' => Option.some.inj hs' ▸ hop
  have hwords : words (bare (keyLine keyword (some s) tail)) =
      keyword.toList :: s :: words (bare tail.text) := by
    rw [bare_keyLine tail hkey hop', words_cons_word (fun c hc => (hkey.chars c hc).1)
      hkey.ne_nil (open_rest (some s) tail), operandText, List.cons_append, words_blank,
      words_cons_word (fun c hc => (hop.chars c hc).1) hop.ne_nil
        (open_of_isPrefix (bare_isPrefix _) tail.isOpen)]
  rw [secondWord, hwords]
  rfl

/-! ### The instructions of one line -/

/-- `int` of a depth or a local: a name is no number. -/
def Operand.int : Operand → Except Failure ℤ
  | .num n => .ok n
  | .ident _ => .error .valueError

theorem readInt_text (x : Operand) :
    readInt x.text = match x with
      | .num n => some (n : ℤ)
      | .ident _ => none := by
  cases x with
  | num n => exact readInt_showInt n
  | ident id =>
    have hdollar := id.dollar
    simp only [Operand.text]
    cases htext : id.text with
    | nil => rw [htext] at hdollar; cases hdollar
    | cons c cs =>
      rw [htext] at hdollar
      obtain rfl := Option.some.inj hdollar
      rfl

theorem secondInt_keyLine {keyword : String} (x : Operand) (tail : Tail)
    (hkey : Word keyword.toList) :
    secondInt (bare (keyLine keyword (some x.text) tail)) = x.int := by
  rw [secondInt, secondWord_keyLine tail hkey x.word]
  simp only [bind, Except.bind, readInt_text]
  cases x <;> rfl

def LeafOp.entry (table : FuncTable) : LeafOp → Except Failure Entry
  | .br depth => depth.int.map .opBr
  | .brIf depth => depth.int.map .opBrIf
  | .brTable => .ok .opBrTable
  | .ret => .ok .opReturn
  | .call callee => (lookupFuncIdx table callee.text).map .opCall
  | .callIndirect => .ok .opCallIndirect
  | .returnCall _ => .ok .opReturn
  | .returnCallIndirect => .ok .opReturn
  | .localSet x => x.int.map .opSet
  | .localTee x => x.int.map .opTee

def LeafOp.kind : LeafOp → LineKind
  | .br _ => .br
  | .brIf _ => .brIf
  | .brTable => .brTable
  | .ret | .returnCall _ | .returnCallIndirect => .ret
  | .call _ => .call
  | .callIndirect => .callIndirect
  | .localSet _ => .localSet
  | .localTee _ => .localTee

theorem LeafOp.lineKind_keyword (op : LeafOp) : lineKind op.keyword.toList = some op.kind := by
  cases op <;> simp only [LeafOp.keyword] <;> rfl

theorem LeafOp.keyword_critical (op : LeafOp) : criticalLine op.keyword.toList = true := by
  cases op <;> simp only [LeafOp.keyword] <;> rfl

theorem writeLine_leaf (table : FuncTable) (st : Numbering) (op : LeafOp) (tail : Tail) :
    writeLine table st (bare (keyLine op.keyword op.operand tail)) =
      (op.entry table).map fun e => (st, [e.line]) := by
  have hkey := op.keyword_word
  rw [writeLine, lineKind_keyLine tail hkey op.operand_word, op.lineKind_keyword]
  cases op with
  | br x =>
    simp only [LeafOp.kind, LeafOp.operand, secondInt_keyLine x tail hkey, LeafOp.entry]
    cases x.int <;> rfl
  | brIf x =>
    simp only [LeafOp.kind, LeafOp.operand, secondInt_keyLine x tail hkey, LeafOp.entry]
    cases x.int <;> rfl
  | localSet x =>
    simp only [LeafOp.kind, LeafOp.operand, secondInt_keyLine x tail hkey, LeafOp.entry]
    cases x.int <;> rfl
  | localTee x =>
    simp only [LeafOp.kind, LeafOp.operand, secondInt_keyLine x tail hkey, LeafOp.entry]
    cases x.int <;> rfl
  | call id =>
    simp only [LeafOp.kind, LeafOp.operand, secondWord_keyLine tail hkey id.word, LeafOp.entry]
    change (lookupFuncIdx table id.text).bind _ = _
    cases lookupFuncIdx table id.text <;> rfl
  | brTable => rfl
  | ret => rfl
  | callIndirect => rfl
  | returnCall id => rfl
  | returnCallIndirect => rfl

/-! ### The instructions of a body -/

mutual

def WatInst.written (table : FuncTable) (n : ℕ) : WatInst → Except Failure (List Entry)
  | .block _ body _ =>
    (writtenAll table n body).map fun es => .beginBlock :: (es ++ [.endBlock])
  | .loop _ body _ =>
    (writtenAll table (n + 1) body).map fun es => .beginLoop n :: (es ++ [.endBlock])
  -- no line for `if` and `else`, one for the `end`
  | .ifThen _ body _ => (writtenAll table n body).map fun es => es ++ [.endBlock]
  | .ifElse _ body _ elseBody _ =>
    (writtenAll table n body).bind fun es =>
      (writtenAll table (n + loopCountOf body) elseBody).map fun fs => es ++ (fs ++ [.endBlock])
  | .leaf op _ => (op.entry table).map fun e => [e]
  | .other _ => .ok []

def writtenAll (table : FuncTable) (n : ℕ) : List WatInst → Except Failure (List Entry)
  | [] => .ok []
  | i :: is =>
    (i.written table n).bind fun es =>
      (writtenAll table (n + i.loopCount) is).map fun fs => es ++ fs

end

def critical (lines : List Str) : List Str := (lines.map bare).filter criticalLine

theorem critical_append (ls ms : List Str) : critical (ls ++ ms) = critical ls ++ critical ms := by
  simp only [critical, List.map_append, List.filter_append]

theorem critical_keyLine (keyword : String) {operand : Option Str} (tail : Tail) (ls : List Str)
    (hkey : Word keyword.toList) (hop : ∀ s ∈ operand, Word s) :
    critical (keyLine keyword operand tail :: ls) =
      if criticalLine keyword.toList then bare (keyLine keyword operand tail) :: critical ls
      else critical ls := by
  rw [critical, List.map_cons, List.filter_cons, criticalLine_keyLine tail hkey hop, critical]

theorem Plain.notCritical_bare (line : Plain) : criticalLine (bare line.text) = false := by
  have h := line.notCritical
  rw [criticalLine, List.any_eq_false] at h ⊢
  intro pre hpre
  have := startsWith_of_isPrefix (bare_isPrefix line.text) (Bool.eq_false_iff.mpr (h pre hpre))
  simp [this]

theorem critical_plain (lines : List Plain) : critical (lines.map Plain.text) = [] := by
  rw [critical, List.filter_eq_nil_iff]
  intro line hline
  obtain ⟨text, htext, rfl⟩ := List.mem_map.mp hline
  obtain ⟨plain, -, rfl⟩ := List.mem_map.mp htext
  simp [plain.notCritical_bare]

theorem writeLines_cons (table : FuncTable) (st : Numbering) (line : Str) (rest : List Str) :
    writeLines table st (line :: rest) =
      (writeLine table st line).bind fun p =>
        (writeLines table p.1 rest).bind fun q => .ok (q.1, p.2 ++ q.2) := rfl

theorem word_block : Word "block".toList := word_of_forall (by decide)

theorem word_loop : Word "loop".toList := word_of_forall (by decide)

theorem word_if : Word "if".toList := word_of_forall (by decide)

theorem word_else : Word "else".toList := word_of_forall (by decide)

theorem word_end : Word "end".toList := word_of_forall (by decide)

theorem no_operand : ∀ s ∈ (none : Option Str), Word s := fun _ hs => nomatch hs

theorem writeLine_block (table : FuncTable) (st : Numbering) (tail : Tail) :
    writeLine table st (bare (keyLine "block" none tail)) =
      .ok (st, [Entry.beginBlock.line]) := by
  rw [writeLine, lineKind_keyLine tail word_block no_operand]
  rfl

theorem writeLine_loop (table : FuncTable) (st : Numbering) (tail : Tail) :
    writeLine table st (bare (keyLine "loop" none tail)) =
      .ok ({ st with loopIdx := st.loopIdx + 1 }, [(Entry.beginLoop st.loopIdx).line]) := by
  rw [writeLine, lineKind_keyLine tail word_loop no_operand]
  rfl

theorem writeLine_end (table : FuncTable) (st : Numbering) (tail : Tail) :
    writeLine table st (bare (keyLine "end" none tail)) =
      .ok (st, [Entry.endBlock.line]) := by
  rw [writeLine, lineKind_keyLine tail word_end no_operand]
  rfl

theorem writeLines_end (table : FuncTable) (st : Numbering) (ls : List Str) (tail : Tail) :
    writeLines table st (critical (ls ++ [keyLine "end" none tail])) =
      (writeLines table st (critical ls)).map fun p => (p.1, p.2 ++ [Entry.endBlock.line]) := by
  have hend : critical [keyLine "end" none tail] = [bare (keyLine "end" none tail)] :=
    critical_keyLine "end" tail [] word_end no_operand
  rw [critical_append, writeLines_append, hend]
  cases writeLines table st (critical ls) with
  | error e => rfl
  | ok p =>
    change Except.bind (writeLines table p.1 [bare (keyLine "end" none tail)]) _ = _
    rw [writeLines_cons, writeLine_end]
    rfl

mutual

theorem writeLines_inst (table : FuncTable) (fi : ℕ) (first : Bool) :
    (i : WatInst) → (n : ℕ) → writeLines table ⟨fi, n, first⟩ (critical i.lines) =
      (i.written table n).map fun es => (⟨fi, n + i.loopCount, first⟩, es.map Entry.line)
  | .block tail body endTail, n => by
    have hcrit := critical_keyLine "block" tail (linesOf body ++ [keyLine "end" none endTail])
      word_block no_operand
    rw [if_pos (by decide)] at hcrit
    rw [WatInst.lines, hcrit, writeLines_cons, writeLine_block]
    change Except.bind (writeLines table ⟨fi, n, first⟩ _) _ = _
    rw [writeLines_end, writeLines_insts table fi first body n, WatInst.written, WatInst.loopCount]
    cases writtenAll table n body with
    | error e => rfl
    | ok es => simp [Except.map, Except.bind]
  | .loop tail body endTail, n => by
    have hcrit := critical_keyLine "loop" tail (linesOf body ++ [keyLine "end" none endTail])
      word_loop no_operand
    rw [if_pos (by decide)] at hcrit
    rw [WatInst.lines, hcrit, writeLines_cons, writeLine_loop]
    change Except.bind (writeLines table ⟨fi, n + 1, first⟩ _) _ = _
    rw [writeLines_end, writeLines_insts table fi first body (n + 1), WatInst.written,
      WatInst.loopCount]
    cases writtenAll table (n + 1) body with
    | error e => rfl
    | ok es => simp [Except.map, Except.bind, Nat.add_assoc, Nat.add_comm 1]
  | .ifThen tail body endTail, n => by
    have hcrit := critical_keyLine "if" tail (linesOf body ++ [keyLine "end" none endTail])
      word_if no_operand
    rw [if_neg (by decide)] at hcrit
    rw [WatInst.lines, hcrit, writeLines_end, writeLines_insts table fi first body n,
      WatInst.written, WatInst.loopCount]
    cases writtenAll table n body with
    | error e => rfl
    | ok es => simp [Except.map]
  | .ifElse tail body elseTail elseBody endTail, n => by
    have hcrit := critical_keyLine "if" tail
      (linesOf body ++ keyLine "else" none elseTail ::
        (linesOf elseBody ++ [keyLine "end" none endTail])) word_if no_operand
    have helse := critical_keyLine "else" elseTail
      (linesOf elseBody ++ [keyLine "end" none endTail]) word_else no_operand
    rw [if_neg (by decide)] at hcrit helse
    rw [WatInst.lines, hcrit, critical_append, helse, writeLines_append,
      writeLines_insts table fi first body n, WatInst.written, WatInst.loopCount]
    cases writtenAll table n body with
    | error e => rfl
    | ok es =>
      change Except.bind (writeLines table ⟨fi, n + loopCountOf body, first⟩ _) _ = _
      rw [writeLines_end, writeLines_insts table fi first elseBody (n + loopCountOf body)]
      change _ = Except.map _ (Except.map _ (writtenAll table (n + loopCountOf body) elseBody))
      cases writtenAll table (n + loopCountOf body) elseBody with
      | error e => rfl
      | ok fs => simp [Except.map, Except.bind, Nat.add_assoc]
  | .leaf op tail, n => by
    have hcrit := critical_keyLine op.keyword tail [] op.keyword_word op.operand_word
    rw [if_pos op.keyword_critical] at hcrit
    rw [WatInst.lines, hcrit, writeLines_cons, writeLine_leaf, WatInst.written, WatInst.loopCount]
    cases op.entry table with
    | error e => rfl
    | ok e => rfl
  | .other line, n => by
    rw [WatInst.lines, show [line.text] = [line].map Plain.text from rfl, critical_plain]
    rfl

theorem writeLines_insts (table : FuncTable) (fi : ℕ) (first : Bool) :
    (is : List WatInst) → (n : ℕ) → writeLines table ⟨fi, n, first⟩ (critical (linesOf is)) =
      (writtenAll table n is).map fun es => (⟨fi, n + loopCountOf is, first⟩, es.map Entry.line)
  | [], n => rfl
  | i :: is, n => by
    rw [linesOf, critical_append, writeLines_append, writeLines_inst table fi first i n, writtenAll,
      loopCountOf]
    cases i.written table n with
    | error e => rfl
    | ok es =>
      change Except.bind (writeLines table ⟨fi, n + i.loopCount, first⟩ _) _ = _
      rw [writeLines_insts table fi first is (n + i.loopCount)]
      change _ = Except.map _ (Except.map _ (writtenAll table (n + i.loopCount) is))
      cases writtenAll table (n + i.loopCount) is with
      | error e => rfl
      | ok fs => simp [Except.map, Except.bind, Nat.add_assoc]

end

end MVVM.Analysis
