import MVVM.Analysis.TextTree

/-!
# What becomes of a module text

The two passes of `wat_to_inst` over a whole text, the parse of what they write, and when
the tree that comes out is the one the text stands for.
-/

namespace MVVM.Analysis

open MVVM.Text

/-! ### The table of functions -/

def Neutral (line : Str) : Prop :=
  startsWith line "(import " = false ∧ startsWith line "(func" = false

theorem collectLine_neutral (table : FuncTable) {line : Str} (h : Neutral line) :
    collectLine table line = .ok table := by
  simp [collectLine, h.1, h.2, bind, Except.bind]

theorem collect_neutral (table : FuncTable) {lines : List Str} (h : ∀ line ∈ lines, Neutral line) :
    collect table lines = .ok table := by
  induction lines with
  | nil => rfl
  | cons line rest ih =>
    rw [List.forall_mem_cons] at h
    rw [collect, collectLine_neutral table h.1]
    exact ih h.2

theorem neutral_of_head {c : Char} {s : Str} (hc : c ≠ '(') : Neutral (c :: s) :=
  ⟨startsWith_of_head (fun h => hc (Option.some.inj h).symm) (by decide),
    startsWith_of_head (fun h => hc (Option.some.inj h).symm) (by decide)⟩

theorem neutral_keyLine {keyword : String} {operand : Option Str} (tail : Tail)
    (hkey : Word keyword.toList) (hop : ∀ s ∈ operand, Word s)
    (hfirst : ∀ c ∈ keyword.toList.head?, c ≠ '(') :
    Neutral (bare (keyLine keyword operand tail)) := by
  rw [bare_keyLine tail hkey hop]
  cases hlist : keyword.toList with
  | nil => exact absurd hlist hkey.ne_nil
  | cons c cs =>
    rw [List.cons_append]
    exact neutral_of_head (hfirst c (by rw [hlist]; rfl))

theorem Plain.neutral (line : Plain) : Neutral (bare line.text) := by
  have hfunc : startsWith line.text "(func" = false := by
    have h := line.notCritical
    rw [criticalLine, List.any_eq_false] at h
    exact Bool.eq_false_iff.mpr (h "(func" (by decide))
  exact ⟨startsWith_of_isPrefix (bare_isPrefix _) line.notImport,
    startsWith_of_isPrefix (bare_isPrefix _) hfunc⟩

theorem LeafOp.keyword_first (op : LeafOp) :
    ∀ c ∈ op.keyword.toList.head?, c ≠ '(' := by
  cases op <;> simp only [LeafOp.keyword] <;> decide

mutual

theorem WatInst.neutral_lines : (i : WatInst) → ∀ line ∈ i.lines, Neutral (bare line)
  | .block tail body endTail => by
    rw [WatInst.lines, List.forall_mem_cons, List.forall_mem_append, List.forall_mem_singleton]
    exact ⟨neutral_keyLine tail word_block no_operand (by decide), neutral_linesOf body,
      neutral_keyLine endTail word_end no_operand (by decide)⟩
  | .loop tail body endTail => by
    rw [WatInst.lines, List.forall_mem_cons, List.forall_mem_append, List.forall_mem_singleton]
    exact ⟨neutral_keyLine tail word_loop no_operand (by decide), neutral_linesOf body,
      neutral_keyLine endTail word_end no_operand (by decide)⟩
  | .ifThen tail body endTail => by
    rw [WatInst.lines, List.forall_mem_cons, List.forall_mem_append, List.forall_mem_singleton]
    exact ⟨neutral_keyLine tail word_if no_operand (by decide), neutral_linesOf body,
      neutral_keyLine endTail word_end no_operand (by decide)⟩
  | .ifElse tail body elseTail elseBody endTail => by
    rw [WatInst.lines, List.forall_mem_cons, List.forall_mem_append, List.forall_mem_cons,
      List.forall_mem_append, List.forall_mem_singleton]
    exact ⟨neutral_keyLine tail word_if no_operand (by decide), neutral_linesOf body,
      neutral_keyLine elseTail word_else no_operand (by decide), neutral_linesOf elseBody,
      neutral_keyLine endTail word_end no_operand (by decide)⟩
  | .leaf op tail => by
    rw [WatInst.lines, List.forall_mem_singleton]
    exact neutral_keyLine tail op.keyword_word op.operand_word op.keyword_first
  | .other line => by
    rw [WatInst.lines, List.forall_mem_singleton]
    exact line.neutral

theorem neutral_linesOf : (is : List WatInst) → ∀ line ∈ linesOf is, Neutral (bare line)
  | [] => by simp [linesOf]
  | i :: is => by
    rw [linesOf, List.forall_mem_append]
    exact ⟨i.neutral_lines, neutral_linesOf is⟩

end

theorem insert_eq_ok {table t : FuncTable} {name : Str} :
    table.insert name = .ok t ↔
      name ∉ table.names ∧ t = ⟨table.names ++ [name], table.importFuncCnt⟩ := by
  rw [FuncTable.insert]
  split
  · next h => simp [h]
  · next h => simp [h, eq_comm]

theorem nodup_append_cons {l m : List Str} {a : Str} :
    (l ++ a :: m).Nodup ↔ a ∉ l ∧ (l ++ [a] ++ m).Nodup := by
  rw [List.append_assoc, List.singleton_append]
  refine ⟨fun h => ⟨fun ha => ?_, h⟩, fun h => h.2⟩
  exact (List.nodup_append.mp h).2.2 a ha a List.mem_cons_self rfl

theorem nodup_concat {l : List Str} {a : Str} (hl : l.Nodup) (ha : a ∉ l) :
    (l ++ [a]).Nodup := by
  rw [List.nodup_append]
  refine ⟨hl, List.nodup_singleton a, fun b hb c hc hbc => ha ?_⟩
  rwa [← List.mem_singleton.mp hc, ← hbc]

theorem word_func : Word "(func".toList := word_of_forall (by decide)

theorem name_operand (id : Ident) : ∀ s ∈ some id.text, Word s := fun _ hs =>
  Option.some.inj hs ▸ id.word

theorem WatImport.bare_line (i : WatImport) : ∃ rest, bare i.line = "(import ".toList ++ rest := by
  have hbare (rest : Str) : bare ("(import ".toList ++ rest) = "(import ".toList ++ bare rest :=
    rdropWhile_append_of_last rest (by decide)
  cases i with
  | func strings name tail =>
    rw [WatImport.line_func, List.append_assoc, hbare]
    exact ⟨_, rfl⟩
  | other desc last =>
    rw [WatImport.line_other, hbare]
    exact ⟨_, rfl⟩

def WatImport.ReadAs (i : WatImport) (name : Str) : Prop := importName (bare i.line) = .ok name

theorem readAs_func {strings : Str} (name : Ident) (tail : Tail) (h : '(' ∉ strings) :
    (WatImport.func strings name tail).ReadAs name.text := by
  have hline : bare (WatImport.func strings name tail).line =
      '(' :: (("import ".toList ++ strings ++ [' ']) ++ "(func ".toList ++
        (name.text ++ bare tail.text)) := by
    have hbare := bare_keyLine tail word_func (name_operand name)
    have hkey : keyLine " (func" (some name.text) tail =
        ' ' :: keyLine "(func" (some name.text) tail := rfl
    have hlast : ∀ c ∈ ("(import ".toList ++ strings ++ [' ']).getLast?, (c == ')') = false := by
      rw [List.getLast?_append_of_ne_nil _ (List.cons_ne_nil _ _)]
      decide
    rw [WatImport.line_func, hkey, List.append_cons, bare, rdropWhile_append_of_last _ hlast]
    change _ ++ bare (keyLine "(func" (some name.text) tail) = _
    rw [hbare]
    simp [operandText]
  have hpre : '(' ∉ "import ".toList ++ strings ++ [' '] := by
    simp [h]
  have hfind : find "(func ".toList (bare (WatImport.func strings name tail).line) =
      some (("import ".toList ++ strings ++ [' ']).length + 1) := by
    have hno : "(func ".toList.isPrefixOf ('(' :: (("import ".toList ++ strings ++ [' ']) ++
        "(func ".toList ++ (name.text ++ bare tail.text))) = false := rfl
    have hthere : find "(func ".toList (("import ".toList ++ strings ++ [' ']) ++
        "(func ".toList ++ (name.text ++ bare tail.text)) = some _ := find_append hpre
    rw [hline, find, hno, if_neg Bool.false_ne_true, hthere]
    rfl
  have hwords : words ((bare (WatImport.func strings name tail).line).drop
      (("import ".toList ++ strings ++ [' ']).length + 1 + 6)) =
        name.text :: words (bare tail.text) := by
    have hlength : (("import ".toList ++ strings ++ [' ']) ++ "(func ".toList).length =
        ("import ".toList ++ strings ++ [' ']).length + 6 := List.length_append
    rw [hline, Nat.add_right_comm, List.drop_succ_cons, List.drop_left' hlength]
    exact words_cons_word (fun c hc => (name.word.chars c hc).1) name.word.ne_nil
      (open_of_isPrefix (bare_isPrefix _) tail.isOpen)
  rw [WatImport.ReadAs, importName, hfind]
  simp only [hwords]

theorem collectLine_import (table : FuncTable) (i : WatImport) :
    collectLine table (bare i.line) =
      (importName (bare i.line)).bind
        (FuncTable.insert ⟨table.names, table.importFuncCnt + 1⟩) := by
  obtain ⟨rest, hrest⟩ := i.bare_line
  have himport : startsWith (bare i.line) "(import " = true := by rw [hrest]; rfl
  have hfunc : startsWith (bare i.line) "(func" = false := by rw [hrest]; rfl
  simp only [collectLine, himport, hfunc, bind, Except.bind, if_true, if_neg Bool.false_ne_true]
  cases importName (bare i.line) with
  | error e => rfl
  | ok name =>
    simp only
    cases FuncTable.insert ⟨table.names, table.importFuncCnt + 1⟩ name <;> rfl

theorem collect_imports (imports : List WatImport) (table t : FuncTable)
    (hnames : table.names.Nodup) :
    collect table ((imports.map WatImport.line).map bare) = .ok t ↔
      ∃ names, List.Forall₂ WatImport.ReadAs imports names ∧ (table.names ++ names).Nodup ∧
        t = ⟨table.names ++ names, table.importFuncCnt + names.length⟩ := by
  induction imports generalizing table with
  | nil =>
    constructor
    · intro h
      obtain rfl := Except.ok.inj h
      exact ⟨[], .nil, by simpa using hnames, by simp⟩
    · rintro ⟨names, hread, -, rfl⟩
      cases hread
      simp [collect]
  | cons i imports ih =>
    have hstep : collect table (((i :: imports).map WatImport.line).map bare) =
        (collectLine table (bare i.line)).bind fun table =>
          collect table ((imports.map WatImport.line).map bare) := rfl
    rw [hstep, collectLine_import]
    constructor
    · intro h
      obtain ⟨table', hline, hrest⟩ := bind_eq_ok.mp h
      obtain ⟨name, hname, hins⟩ := bind_eq_ok.mp hline
      obtain ⟨hnew, rfl⟩ := insert_eq_ok.mp hins
      have hnames' : (table.names ++ [name]).Nodup := nodup_concat hnames hnew
      obtain ⟨names, hread, hnodup, rfl⟩ := (ih _ hnames').mp hrest
      refine ⟨name :: names, .cons hname hread, nodup_append_cons.mpr ⟨hnew, hnodup⟩, ?_⟩
      simp [Nat.add_assoc, Nat.add_comm 1]
    · rintro ⟨names, hread, hnodup, rfl⟩
      obtain ⟨name, names, hname, hrest, rfl⟩ := List.forall₂_cons_left_iff.mp hread
      obtain ⟨hnew, hnodup'⟩ := nodup_append_cons.mp hnodup
      have hnames' : (table.names ++ [name]).Nodup := (List.nodup_append.mp hnodup').1
      refine bind_eq_ok.mpr ⟨⟨table.names ++ [name], table.importFuncCnt + 1⟩,
        bind_eq_ok.mpr ⟨name, hname, insert_eq_ok.mpr ⟨hnew, rfl⟩⟩, ?_⟩
      refine (ih _ hnames').mpr ⟨names, hrest, hnodup', ?_⟩
      simp [Nat.add_assoc, Nat.add_comm 1]

theorem collectLine_func (table : FuncTable) (name : Ident) (tail : Tail) :
    collectLine table (bare (keyLine "(func" (some name.text) tail)) = table.insert name.text := by
  have hbare := bare_keyLine tail word_func (name_operand name)
  have himport : startsWith (bare (keyLine "(func" (some name.text) tail)) "(import " = false := by
    rw [hbare]
    rfl
  have hfunc : startsWith (bare (keyLine "(func" (some name.text) tail)) "(func" = true := by
    rw [hbare]
    rfl
  simp only [collectLine, himport, hfunc, bind, Except.bind, if_true, if_neg Bool.false_ne_true,
    secondWord_keyLine tail word_func name.word]

theorem WatFunc.collect_lines (table : FuncTable) (f : WatFunc) (rest : List Str) :
    collect table (f.lines.map bare ++ rest) =
      (table.insert f.name.text).bind fun table => collect table rest := by
  have hbody : ∀ line ∈ (f.locals.map Plain.text ++ linesOf f.body).map bare, Neutral line := by
    rw [List.forall_mem_map, List.forall_mem_append, List.forall_mem_map]
    exact ⟨fun line _ => line.neutral, neutral_linesOf f.body⟩
  rw [WatFunc.lines, List.map_cons, List.cons_append, collect, collectLine_func]
  cases table.insert f.name.text with
  | error e => rfl
  | ok t =>
    change collect t _ = _
    rw [collect_append, collect_neutral t hbody]

theorem collect_funcs (funcs : List WatFunc) (table t : FuncTable) (hnames : table.names.Nodup) :
    collect table ((funcs.flatMap WatFunc.lines).map bare) = .ok t ↔
      (table.names ++ funcs.map fun f => f.name.text).Nodup ∧
        t = ⟨table.names ++ funcs.map fun f => f.name.text, table.importFuncCnt⟩ := by
  induction funcs generalizing table with
  | nil => simp [collect, hnames, eq_comm]
  | cons f funcs ih =>
    rw [List.flatMap_cons, List.map_append, f.collect_lines, List.map_cons]
    constructor
    · intro h
      obtain ⟨table', hins, hrest⟩ := bind_eq_ok.mp h
      obtain ⟨hnew, rfl⟩ := insert_eq_ok.mp hins
      have hnames' : (table.names ++ [f.name.text]).Nodup := nodup_concat hnames hnew
      obtain ⟨hnodup, rfl⟩ := (ih _ hnames').mp hrest
      exact ⟨nodup_append_cons.mpr ⟨hnew, hnodup⟩, by simp⟩
    · rintro ⟨hnodup, rfl⟩
      obtain ⟨hnew, hnodup'⟩ := nodup_append_cons.mp hnodup
      refine bind_eq_ok.mpr ⟨_, insert_eq_ok.mpr ⟨hnew, rfl⟩, ?_⟩
      exact (ih _ (List.nodup_append.mp hnodup').1).mpr ⟨hnodup', by simp⟩

structure WatModule.NamesRead (m : WatModule) (names : List Str) : Prop where
  imports : List.Forall₂ WatImport.ReadAs m.imports names
  nodup : (names ++ m.funcs.map fun f => f.name.text).Nodup

theorem namesRead_of_funcs {m : WatModule}
    (h : ∀ i ∈ m.imports, ∃ strings name tail,
      i = .func strings name tail ∧ '(' ∉ strings) :
    m.NamesRead (m.importNames.map Ident.text) where
  imports := by
    have hread : ∀ imports : List WatImport,
        (∀ i ∈ imports, ∃ strings name tail, i = .func strings name tail ∧ '(' ∉ strings) →
        List.Forall₂ WatImport.ReadAs imports
          ((imports.filterMap WatImport.funcName).map Ident.text) := by
      intro imports himports
      induction imports with
      | nil => exact .nil
      | cons i imports ih =>
        rw [List.forall_mem_cons] at himports
        obtain ⟨strings, name, tail, rfl, hparen⟩ := himports.1
        exact .cons (readAs_func name tail hparen) (ih himports.2)
    exact hread m.imports h
  nodup := by
    have hinj : Function.Injective Ident.text := fun a b hab => by
      cases a
      cases b
      simp_all
    have hnodup := m.unique.map hinj
    rw [List.map_append, List.map_map] at hnodup
    exact hnodup

def WatModule.table (m : WatModule) (names : List Str) : FuncTable :=
  ⟨names ++ m.funcs.map fun f => f.name.text, names.length⟩

theorem WatModule.collect_eq_ok (m : WatModule) (t : FuncTable) :
    collect ⟨[], 0⟩ (m.lines.map bare) = .ok t ↔
      ∃ names, m.NamesRead names ∧ t = m.table names := by
  have hplain (lines : List Plain) (table : FuncTable) :
      collect table ((lines.map Plain.text).map bare) = .ok table := by
    refine collect_neutral table ?_
    rw [List.forall_mem_map, List.forall_mem_map]
    exact fun line _ => line.neutral
  have hback (table : FuncTable) :
      collect table ((m.funcs.flatMap WatFunc.lines).map bare ++
        (m.back.map Plain.text).map bare) =
      collect table ((m.funcs.flatMap WatFunc.lines).map bare) := by
    rw [collect_append]
    cases collect table ((m.funcs.flatMap WatFunc.lines).map bare) with
    | error e => rfl
    | ok t => exact hplain m.back t
  have hsplit : collect ⟨[], 0⟩ (m.lines.map bare) =
      (collect ⟨[], 0⟩ ((m.imports.map WatImport.line).map bare)).bind fun table =>
        collect table ((m.funcs.flatMap WatFunc.lines).map bare) := by
    simp only [WatModule.lines, List.map_append]
    rw [collect_append, hplain m.front]
    change collect ⟨[], 0⟩ _ = _
    rw [collect_append]
    simp only [hback]
  rw [hsplit, bind_eq_ok]
  constructor
  · intro ⟨table, himports, hfuncs⟩
    obtain ⟨names, hread, hnodup, rfl⟩ :=
      (collect_imports m.imports ⟨[], 0⟩ table List.nodup_nil).mp himports
    obtain ⟨hnodup', rfl⟩ := (collect_funcs m.funcs _ t hnodup).mp hfuncs
    exact ⟨names, ⟨hread, hnodup'⟩, by simp [WatModule.table]⟩
  · rintro ⟨names, hread, rfl⟩
    have hnames : names.Nodup := (List.nodup_append.mp hread.nodup).1
    refine ⟨⟨names, names.length⟩,
      (collect_imports m.imports ⟨[], 0⟩ _ List.nodup_nil).mpr ⟨names, hread.imports, hnames,
        by simp⟩, ?_⟩
    exact (collect_funcs m.funcs _ _ hnames).mpr ⟨hread.nodup, rfl⟩

/-! ### The file that is written -/

def funcBodies (table : FuncTable) : List WatFunc → Except Failure (List (List Entry))
  | [] => .ok []
  | f :: fs =>
    (writtenAll table 0 f.body).bind fun es => (funcBodies table fs).map fun ess => es :: ess

def closing (firstFunc : Bool) : List Str :=
  if firstFunc then [] else [plainLine "end_block", plainLine "end_func"]

theorem writeLine_func (table : FuncTable) (st : Numbering) (name : Ident) (tail : Tail) :
    writeLine table st (bare (keyLine "(func" (some name.text) tail)) =
      .ok (⟨st.funcIdx + 1, 0, false⟩, closing st.firstFunc ++
        [(Entry.beginFunc st.funcIdx).line, Entry.beginBlock.line]) := by
  rw [writeLine, lineKind_keyLine tail word_func (name_operand name)]
  rfl

theorem writeLines_funcs (table : FuncTable) (funcs : List WatFunc) (fi n : ℕ) (first : Bool) :
    (writeLines table ⟨fi, n, first⟩ (critical (funcs.flatMap WatFunc.lines))).map
        (fun p => p.2 ++ closing p.1.firstFunc) =
      (funcBodies table funcs).map fun ess =>
        closing first ++ (funcEntries fi ess).map Entry.line := by
  induction funcs generalizing fi n first with
  | nil => simp [critical, writeLines, funcBodies, funcEntries, Except.map]
  | cons f funcs ih =>
    have hcrit := critical_keyLine "(func" f.tail
      (f.locals.map Plain.text ++ linesOf f.body) word_func (name_operand f.name)
    rw [if_pos (by decide), critical_append, critical_plain, List.nil_append] at hcrit
    rw [List.flatMap_cons, critical_append, WatFunc.lines, hcrit, List.cons_append, writeLines_cons,
      writeLine_func]
    change Except.map _ (Except.bind (writeLines table ⟨fi + 1, 0, false⟩ _) _) = _
    rw [writeLines_append, writeLines_insts table (fi + 1) false f.body 0, funcBodies]
    cases writtenAll table 0 f.body with
    | error e => rfl
    | ok es =>
      have ih' := ih (fi + 1) (0 + loopCountOf f.body) false
      change Except.map _ (Except.bind (Except.bind
        (writeLines table ⟨fi + 1, 0 + loopCountOf f.body, false⟩ _) _) _) =
          Except.map _ (Except.map _ (funcBodies table funcs))
      cases hrest : writeLines table ⟨fi + 1, 0 + loopCountOf f.body, false⟩
          (critical (funcs.flatMap WatFunc.lines)) with
      | error e =>
        rw [hrest] at ih'
        cases hbodies : funcBodies table funcs with
        | error e' =>
          rw [hbodies] at ih'
          exact ih'
        | ok ess => rw [hbodies] at ih'; cases ih'
      | ok p =>
        rw [hrest] at ih'
        cases hbodies : funcBodies table funcs with
        | error e' => rw [hbodies] at ih'; cases ih'
        | ok ess =>
          rw [hbodies] at ih'
          have hout := Except.ok.inj ih'
          simp only [Except.map, Except.bind, funcEntries, List.append_assoc, hout]
          simp [closing, Entry.line, Entry.number, Entry.keyword]

theorem critical_imports (imports : List WatImport) :
    critical (imports.map WatImport.line) = [] := by
  rw [critical, List.filter_eq_nil_iff, List.forall_mem_map, List.forall_mem_map]
  intro i _
  obtain ⟨rest, hrest⟩ := i.bare_line
  have hcrit : criticalLine (bare i.line) = false := by
    rw [hrest]
    rfl
  simp [hcrit]

theorem WatImport.tight (i : WatImport) : Tight i.line := by
  cases i with
  | func strings name tail =>
    have hlast (pre : Str) : ∀ c ∈ (pre ++ (' ' :: name.text ++ tail.text)).getLast?,
        isSpace c = false := by
      intro c hc
      rw [← List.append_assoc, List.getLast?_append] at hc
      cases htail : tail.text.getLast? with
      | none =>
        have hname : (pre ++ ' ' :: name.text).getLast? = some c := by simpa [htail] using hc
        rw [List.getLast?_append_of_ne_nil _ (List.cons_ne_nil _ _),
          List.getLast?_cons_of_ne_nil name.word.ne_nil] at hname
        exact (name.word.chars c (List.mem_of_getLast? hname)).1
      | some d => exact tail.last c (by simpa [htail] using hc)
    rw [WatImport.line_func]
    refine ⟨by simp, ?_, ?_⟩
    · intro c hc
      obtain rfl : '(' = c := Option.some.inj hc
      decide
    · rw [keyLine, operandText, ← List.append_assoc]
      exact hlast _
  | other desc last =>
    rw [WatImport.line_other]
    refine ⟨by simp, ?_, ?_⟩
    · intro c hc
      obtain rfl : '(' = c := Option.some.inj hc
      decide
    · intro c hc
      rw [List.getLast?_append_of_ne_nil _ (List.cons_ne_nil _ _)] at hc
      cases desc with
      | nil =>
        obtain rfl : '"' = c := Option.some.inj hc
        decide
      | cons d desc =>
        rw [List.getLast?_cons_of_ne_nil (List.cons_ne_nil _ _)] at hc
        exact last c hc

theorem Plain.tight_of_mem {lines : List Plain} :
    ∀ line ∈ lines.map Plain.text, Tight line := by
  rw [List.forall_mem_map]
  exact fun line _ => line.tight

mutual

theorem WatInst.tight_lines : (i : WatInst) → ∀ line ∈ i.lines, Tight line
  | .block tail body endTail => by
    rw [WatInst.lines, List.forall_mem_cons, List.forall_mem_append, List.forall_mem_singleton]
    exact ⟨tight_keyLine tail word_block no_operand, tight_linesOf body,
      tight_keyLine endTail word_end no_operand⟩
  | .loop tail body endTail => by
    rw [WatInst.lines, List.forall_mem_cons, List.forall_mem_append, List.forall_mem_singleton]
    exact ⟨tight_keyLine tail word_loop no_operand, tight_linesOf body,
      tight_keyLine endTail word_end no_operand⟩
  | .ifThen tail body endTail => by
    rw [WatInst.lines, List.forall_mem_cons, List.forall_mem_append, List.forall_mem_singleton]
    exact ⟨tight_keyLine tail word_if no_operand, tight_linesOf body,
      tight_keyLine endTail word_end no_operand⟩
  | .ifElse tail body elseTail elseBody endTail => by
    rw [WatInst.lines, List.forall_mem_cons, List.forall_mem_append, List.forall_mem_cons,
      List.forall_mem_append, List.forall_mem_singleton]
    exact ⟨tight_keyLine tail word_if no_operand, tight_linesOf body,
      tight_keyLine elseTail word_else no_operand, tight_linesOf elseBody,
      tight_keyLine endTail word_end no_operand⟩
  | .leaf op tail => by
    rw [WatInst.lines, List.forall_mem_singleton]
    exact tight_keyLine tail op.keyword_word op.operand_word
  | .other line => by
    rw [WatInst.lines, List.forall_mem_singleton]
    exact line.tight

theorem tight_linesOf : (is : List WatInst) → ∀ line ∈ linesOf is, Tight line
  | [] => by simp [linesOf]
  | i :: is => by
    rw [linesOf, List.forall_mem_append]
    exact ⟨i.tight_lines, tight_linesOf is⟩

end

theorem WatModule.tight_lines (m : WatModule) : ∀ line ∈ m.lines, Tight line := by
  rw [WatModule.lines, List.forall_mem_append, List.forall_mem_append, List.forall_mem_append]
  refine ⟨Plain.tight_of_mem, List.forall_mem_map.mpr fun i _ => i.tight, ?_, Plain.tight_of_mem⟩
  intro line hline
  obtain ⟨f, -, hf⟩ := List.mem_flatMap.mp hline
  rw [WatFunc.lines, List.mem_cons, List.mem_append] at hf
  rcases hf with rfl | hlocal | hbody
  · exact tight_keyLine f.tail word_func (name_operand f.name)
  · exact Plain.tight_of_mem line hlocal
  · exact tight_linesOf f.body line hbody

theorem clean_of_renders {file : List Str} {m : WatModule} (h : Renders file m) :
    file.map clean = m.lines.map bare := by
  have hall : ∀ (file lines : List Str), List.Forall₂ Decorates file lines →
      (∀ line ∈ lines, Tight line) → file.map clean = lines.map bare := by
    intro file lines hdec htight
    induction hdec with
    | nil => rfl
    | cons hline _ ih =>
      rw [List.forall_mem_cons] at htight
      rw [List.map_cons, List.map_cons, clean_of_decorates htight.1 hline, ih htight.2]
  exact hall file m.lines h m.tight_lines

theorem WatModule.critical_lines (m : WatModule) :
    critical m.lines = critical (m.funcs.flatMap WatFunc.lines) := by
  rw [WatModule.lines, critical_append, critical_append, critical_append, critical_plain,
    critical_imports, critical_plain, List.nil_append, List.nil_append, List.append_nil]

theorem watToInst_renders {file : List Str} {m : WatModule} (h : Renders file m) :
    watToInst file = (collect ⟨[], 0⟩ (m.lines.map bare)).bind fun table =>
      (funcBodies table m.funcs).map fun ess => (funcEntries 0 ess).map Entry.line := by
  have hclean := clean_of_renders h
  have hunfold : watToInst file =
      (collect ⟨[], 0⟩ (file.map clean)).bind fun table =>
        (writeLines table ⟨0, 0, true⟩ ((file.map clean).filter criticalLine)).map fun p =>
          p.2 ++ closing p.1.firstFunc := by
    rw [watToInst]
    cases collect ⟨[], 0⟩ (file.map clean) with
    | error e => rfl
    | ok table =>
      change Except.bind (writeLines table ⟨0, 0, true⟩ ((file.map clean).filter criticalLine)) _ =
        Except.map _ (writeLines table ⟨0, 0, true⟩ ((file.map clean).filter criticalLine))
      cases writeLines table ⟨0, 0, true⟩ ((file.map clean).filter criticalLine) <;> rfl
  rw [hunfold, hclean]
  congr 1
  funext table
  have hcrit : (m.lines.map bare).filter criticalLine = critical (m.funcs.flatMap WatFunc.lines) :=
    m.critical_lines
  rw [hcrit, writeLines_funcs]
  rfl

/-! ### The tree that comes out -/

/-- The script can read an instruction: a depth or local is a number, and a callee is in
the table. -/
def LeafOp.Readable (names : List Str) : LeafOp → Prop
  | .br x | .brIf x | .localSet x | .localTee x => ∃ n, x = .num n
  | .call callee => callee.text ∈ names
  | .brTable | .ret | .callIndirect | .returnCall _ | .returnCallIndirect => True

theorem Operand.int_isOk {α : Type*} (x : Operand) (g : ℤ → α) :
    (∃ e, x.int.map g = .ok e) ↔ ∃ n, x = .num n := by
  cases x <;> simp [Operand.int, Except.map]

theorem LeafOp.entry_isOk (table : FuncTable) (op : LeafOp) :
    (∃ e, op.entry table = .ok e) ↔ op.Readable table.names := by
  cases op with
  | br x => exact x.int_isOk _
  | brIf x => exact x.int_isOk _
  | localSet x => exact x.int_isOk _
  | localTee x => exact x.int_isOk _
  | call id =>
    simp only [LeafOp.entry, LeafOp.Readable, lookupFuncIdx]
    split
    · next h => simp [h, Except.map]
    · next h => simp [h, Except.map]
  | brTable => simp [LeafOp.entry, LeafOp.Readable]
  | ret => simp [LeafOp.entry, LeafOp.Readable]
  | callIndirect => simp [LeafOp.entry, LeafOp.Readable]
  | returnCall id => simp [LeafOp.entry, LeafOp.Readable]
  | returnCallIndirect => simp [LeafOp.entry, LeafOp.Readable]

structure BodyRead (names : List Str) (body : List WatInst) : Prop where
  noIf : ifsOf body = 0
  leaves : ∀ op ∈ leavesOf body, op.Readable names

theorem reads_funcBodies (table : FuncTable) (funcs : List WatFunc)
    (iss : List (List (WasmInst Unit))) :
    (∃ ess, funcBodies table funcs = .ok ess ∧ List.Forall₂ Reads ess iss) ↔
      (∀ f ∈ funcs, BodyRead table.names f.body) ∧
        iss = funcs.map fun f => treeOf (fileReading table) 0 f.body := by
  induction funcs generalizing iss with
  | nil =>
    constructor
    · intro ⟨ess, hess, hreads⟩
      obtain rfl := Except.ok.inj hess
      cases hreads
      simp
    · rintro ⟨-, rfl⟩
      exact ⟨[], rfl, .nil⟩
  | cons f funcs ih =>
    rw [List.forall_mem_cons]
    constructor
    · intro ⟨ess, hess, hreads⟩
      obtain ⟨es, hes, hr⟩ := bind_eq_ok.mp hess
      obtain ⟨ess', hess', rfl⟩ := map_eq_ok.mp hr
      obtain ⟨is, iss', his, hiss, rfl⟩ := List.forall₂_cons_left_iff.mp hreads
      obtain ⟨hrest, rfl⟩ := (ih iss').mp ⟨ess', hess', hiss⟩
      -- the grammar takes balanced lines only, and each `if` unbalances them
      have hifs : ifsOf f.body = 0 := by
        have hrise := (rise_writtenAll table f.body 0 es hes).1
        have hbal := his.balanced.1
        omega
      have hleaves : ∀ op ∈ leavesOf f.body, op.Readable table.names := fun op hop =>
        (op.entry_isOk table).mp ((writtenAll_isOk table f.body 0).mp ⟨es, hes⟩ op hop)
      refine ⟨⟨⟨hifs, hleaves⟩, hrest⟩, ?_⟩
      rw [List.map_cons, his.unique (reads_writtenAll table f.body 0 es hifs hes)]
    · rintro ⟨⟨hf, hrest⟩, rfl⟩
      obtain ⟨es, hes⟩ := (writtenAll_isOk table f.body 0).mpr fun op hop =>
        (op.entry_isOk table).mpr (hf.leaves op hop)
      obtain ⟨ess, hess, hreads⟩ := (ih _).mpr ⟨hrest, rfl⟩
      refine ⟨es :: ess, bind_eq_ok.mpr ⟨es, hes, map_eq_ok.mpr ⟨ess, hess, rfl⟩⟩, ?_⟩
      exact .cons (reads_writtenAll table f.body 0 es hf.noIf hes) hreads

theorem endFunc_not_mem_funcBodies (table : FuncTable) (funcs : List WatFunc)
    (ess : List (List Entry)) (h : funcBodies table funcs = .ok ess) :
    ∀ es ∈ ess, .endFunc ∉ es := by
  induction funcs generalizing ess with
  | nil =>
    obtain rfl := Except.ok.inj h
    simp
  | cons f funcs ih =>
    obtain ⟨es, hes, hr⟩ := bind_eq_ok.mp h
    obtain ⟨ess', hess', rfl⟩ := map_eq_ok.mp hr
    rw [List.forall_mem_cons]
    exact ⟨(rise_writtenAll table f.body 0 es hes).2, ih ess' hess'⟩

theorem readModule_eq_ok {file : List Str} {m : WatModule} (h : Renders file m)
    (prog : WasmProgram Unit) :
    readModule file = .ok prog ↔
      ∃ names, m.NamesRead names ∧ (∀ f ∈ m.funcs, BodyRead (m.table names).names f.body) ∧
        prog = m.program (fileReading (m.table names)) := by
  have hunfold : readModule file =
      (watToInst file).bind fun lines => parseProgram (loadInsts lines) := rfl
  rw [hunfold, watToInst_renders h]
  constructor
  · intro hok
    obtain ⟨lines, hlines, hparse⟩ := bind_eq_ok.mp hok
    obtain ⟨table, htable, hbodies⟩ := bind_eq_ok.mp hlines
    obtain ⟨names, hnames, rfl⟩ := (m.collect_eq_ok table).mp htable
    obtain ⟨ess, hess, rfl⟩ := map_eq_ok.mp hbodies
    rw [loadInsts_lines, parseProgram_eq_ok (endFunc_not_mem_funcBodies _ _ _ hess)] at hparse
    obtain ⟨iss, hiss, rfl⟩ := hparse
    obtain ⟨hread, rfl⟩ := (reads_funcBodies _ m.funcs iss).mp ⟨ess, hess, hiss⟩
    exact ⟨names, hnames, hread, rfl⟩
  · rintro ⟨names, hnames, hread, rfl⟩
    obtain ⟨ess, hess, hiss⟩ := (reads_funcBodies (m.table names) m.funcs _).mpr ⟨hread, rfl⟩
    refine bind_eq_ok.mpr ⟨_, bind_eq_ok.mpr ⟨m.table names,
      (m.collect_eq_ok _).mpr ⟨names, hnames, rfl⟩, map_eq_ok.mpr ⟨ess, hess, rfl⟩⟩, ?_⟩
    rw [loadInsts_lines, parseProgram_eq_ok (endFunc_not_mem_funcBodies _ _ _ hess)]
    exact ⟨_, hiss, rfl⟩

end MVVM.Analysis
