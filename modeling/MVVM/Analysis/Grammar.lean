import MVVM.Analysis.Tokens

/-!
# The language of the instruction parser (wasm_static_analysis.py:222-296)

What is accepted are the written forms of trees, but for what a tree does not keep: which of
the branches a line is, and whether it sets or tees a local.
-/

namespace MVVM.Analysis

open MVVM.Text

/-! ### The grammar and the written form of a tree -/

inductive Items : List Token → Prop where
  | nil : Items []
  | leaf {t : Token} {ts : List Token} : t.leaf ≠ none → Items ts → Items (t :: ts)
  | block {bs ts : List Token} : Items bs → Items ts →
      Items (.beginBlock :: (bs ++ .endBlock :: ts))
  | loop (n : ℤ) {bs ts : List Token} : Items bs → Items ts →
      Items (.beginLoop n :: (bs ++ .endBlock :: ts))

inductive Program : List Token → Prop where
  | nil : Program []
  | func (n : ℤ) {bs ts : List Token} : Items bs → Program ts →
      Program (.beginFunc n :: .beginBlock :: (bs ++ .endBlock :: .endFunc :: ts))

mutual

def WasmInst.write : WasmInst Unit → List Token
  | .branch _ => [.opBr]
  | .call calleeIdx => [if calleeIdx = -1 then .opCallIndirect else .opCall calleeIdx]
  | .set localIdx => [.opSet localIdx]
  | .block insts => .beginBlock :: (writeInsts insts ++ [.endBlock])
  | .loop loopIdx insts => .beginLoop loopIdx :: (writeInsts insts ++ [.endBlock])

def writeInsts : List (WasmInst Unit) → List Token
  | [] => []
  | i :: is => i.write ++ writeInsts is

end

/-- The token that is written for what the parser keeps of a token. -/
def Token.plain : Token → Token
  | .opBrIf | .opBrTable | .opReturn => .opBr
  | .opCall n => if n = -1 then .opCallIndirect else .opCall n
  | .opTee n => .opSet n
  | t => t

/-- What a line is written as, if it is a line of the language. -/
def plainOf (inst : List Str) : Option Token := (tokenOf inst).map Token.plain

/-! ### The items that are parsed -/

theorem plainOf_eq_some {inst : List Str} {t : Token} (h : tokenOf inst = some t) :
    plainOf inst = some t.plain := by
  rw [plainOf, h, Option.map_some]

/-- An item that is one token is written as what is left of the token. -/
theorem write_leaf {t : Token} {i : WasmInst Unit} (h : t.leaf = some i) :
    i.write = [t.plain] := by
  cases t <;> cases h <;> simp [WasmInst.write, Token.plain]

def AtEnd (rest : InstStream) : Prop := ∀ inst ∈ rest.head?, tokenOf inst = some .endBlock

theorem parseInsts_sound (fuel : ℕ) :
    ∀ (invalid : Str → String) (s rest : InstStream) (is : List (WasmInst Unit)),
      parseInsts fuel invalid s = .ok (is, rest) →
      ∃ front, s = front ++ rest ∧ front.map plainOf = (writeInsts is).map some ∧ AtEnd rest := by
  induction fuel with
  | zero =>
    intro invalid s rest is h
    cases s with
    | nil =>
      obtain ⟨rfl, rfl⟩ := Prod.mk.inj (Except.ok.inj h)
      exact ⟨[], rfl, rfl, by simp [AtEnd]⟩
    | cons inst s => cases h
  | succ fuel ih =>
    intro invalid s rest is h
    cases s with
    | nil =>
      obtain ⟨rfl, rfl⟩ := Prod.mk.inj (Except.ok.inj h)
      exact ⟨[], rfl, rfl, by simp [AtEnd]⟩
    | cons inst s =>
      have hbody {node : List (WasmInst Unit) → WasmInst Unit} {invalid' : Str → String}
          {t : Token} (htoken : plainOf inst = some t)
          (hwrite : ∀ body, (node body).write = t :: (writeInsts body ++ [.endBlock]))
          (h : (parseInsts fuel invalid' s).bind (parseRest fuel invalid node) = .ok (is, rest)) :
          ∃ front, inst :: s = front ++ rest ∧
            front.map plainOf = (writeInsts is).map some ∧ AtEnd rest := by
        obtain ⟨⟨body, s₁⟩, hp, hclosed⟩ := bind_eq_ok.mp h
        obtain ⟨front, rfl, hfront, -⟩ := ih _ s _ _ hp
        obtain ⟨close, s₂, is', rfl, hclose, rfl, hrest⟩ := parseRest_sound hclosed
        obtain ⟨front', rfl, hfront', hend⟩ := ih _ s₂ _ _ hrest
        refine ⟨inst :: (front ++ close :: front'), by simp, ?_, hend⟩
        simp [writeInsts, hwrite, htoken, hfront, hfront', plainOf_eq_some hclose, Token.plain]
      cases htoken : tokenOf inst with
      | none => exact absurd h (parseInsts_stuck (by simp [htoken]) fuel invalid s _)
      | some t =>
        cases hleaf : t.leaf with
        | some i =>
          rw [parseInsts_item htoken hleaf] at h
          obtain ⟨p, hp, h⟩ := bind_eq_ok.mp h
          obtain ⟨rfl, rfl⟩ := Prod.mk.inj (Except.ok.inj h)
          obtain ⟨front, rfl, hfront, hend⟩ := ih _ s _ _ hp
          refine ⟨inst :: front, rfl, ?_, hend⟩
          simp [writeInsts, write_leaf hleaf, plainOf_eq_some htoken, hfront]
        | none =>
          cases t with
          | endBlock =>
            rw [parseInsts_end htoken] at h
            obtain ⟨rfl, rfl⟩ := Prod.mk.inj (Except.ok.inj h)
            refine ⟨[], rfl, rfl, ?_⟩
            simpa [AtEnd] using htoken
          | beginBlock =>
            rw [parseInsts_block htoken] at h
            exact hbody (plainOf_eq_some htoken) (fun body => rfl) h
          | beginLoop n =>
            rw [parseInsts_loop htoken] at h
            exact hbody (plainOf_eq_some htoken) (fun body => rfl) h
          | beginFunc n =>
            exact absurd h (parseInsts_stuck (by simp [htoken, Token.inItems]) fuel invalid s _)
          | endFunc =>
            exact absurd h (parseInsts_stuck (by simp [htoken, Token.inItems]) fuel invalid s _)
          | opBr | opBrIf | opBrTable | opReturn | opCallIndirect => cases hleaf
          | opCall n | opSet n | opTee n => cases hleaf

theorem leaf_plain (t : Token) : t.plain.leaf = t.leaf := by
  cases t with
  | opCall n =>
    rw [Token.plain]
    split
    · next hn =>
      subst hn
      rfl
    · rfl
  | opBr | opBrIf | opBrTable | opReturn | opCallIndirect | endFunc | beginBlock | endBlock => rfl
  | opSet n | opTee n | beginFunc n | beginLoop n => rfl

theorem plain_of_not_leaf {t : Token} (h : t.leaf = none) : t.plain = t := by
  cases t <;> first | rfl | cases h

theorem leaf_of_write {i : WasmInst Unit} {t : Token} (h : i.write = [t]) : t.leaf = some i := by
  cases i with
  | branch b =>
    obtain rfl := List.singleton_inj.mp h
    rfl
  | call c =>
    obtain rfl := List.singleton_inj.mp h
    split
    · next hc =>
      subst hc
      rfl
    · rfl
  | set l =>
    obtain rfl := List.singleton_inj.mp h
    rfl
  | block body | loop l body => simp [WasmInst.write] at h

theorem write_ne_nil (i : WasmInst Unit) : i.write ≠ [] := by
  cases i <;> simp [WasmInst.write]

theorem tokenOf_of_plain {inst : List Str} {t : Token} (h : plainOf inst = some t)
    (ht : t.leaf = none) : tokenOf inst = some t := by
  obtain ⟨t', htoken, rfl⟩ := Option.map_eq_some_iff.mp h
  rw [leaf_plain] at ht
  rw [htoken, plain_of_not_leaf ht]

theorem item_of_plain {inst : List Str} {t : Token} {i : WasmInst Unit}
    (h : plainOf inst = some t) (hwrite : i.write = [t]) :
    ∃ t', tokenOf inst = some t' ∧ t'.leaf = some i := by
  obtain ⟨t', htoken, rfl⟩ := Option.map_eq_some_iff.mp h
  exact ⟨t', htoken, by rw [← leaf_plain, leaf_of_write hwrite]⟩

/-- A written block or loop: its first line, its body, its last line and what follows. -/
theorem split_written {front : InstStream} {t : Token} {body is : List (WasmInst Unit)}
    (h : front.map plainOf =
      (t :: (writeInsts body ++ [.endBlock]) ++ writeInsts is).map some) :
    ∃ inst fs close gs, front = inst :: (fs ++ close :: gs) ∧ plainOf inst = some t ∧
      fs.map plainOf = (writeInsts body).map some ∧ tokenOf close = some .endBlock ∧
      gs.map plainOf = (writeInsts is).map some := by
  simp only [List.cons_append, List.append_assoc, List.map_cons, List.map_append,
    List.nil_append] at h
  obtain ⟨inst, tail, rfl, hinst, htail⟩ := List.map_eq_cons_iff.mp h
  obtain ⟨fs, rest, rfl, hfs, hrest⟩ := List.map_eq_append_iff.mp htail
  obtain ⟨close, gs, rfl, hclose, hgs⟩ := List.map_eq_cons_iff.mp hrest
  exact ⟨inst, fs, close, gs, rfl, hinst, hfs, tokenOf_of_plain hclose rfl, hgs⟩

theorem parseInsts_atEnd (fuel : ℕ) (invalid : Str → String) {rest : InstStream}
    (hend : AtEnd rest) (hfuel : rest.length ≤ fuel) :
    parseInsts fuel invalid rest = .ok ([], rest) := by
  cases rest with
  | nil => cases fuel <;> rfl
  | cons inst rest =>
    obtain ⟨fuel, rfl⟩ := Nat.exists_eq_add_one.mpr (Nat.zero_lt_of_lt hfuel)
    exact parseInsts_end (hend inst rfl) fuel invalid rest

theorem parseInsts_complete (fuel : ℕ) :
    ∀ (invalid : Str → String) (front rest : InstStream) (is : List (WasmInst Unit)),
      front.map plainOf = (writeInsts is).map some → AtEnd rest →
      (front ++ rest).length ≤ fuel →
      parseInsts fuel invalid (front ++ rest) = .ok (is, rest) := by
  induction fuel with
  | zero =>
    intro invalid front rest is h hend hfuel
    obtain ⟨rfl, rfl⟩ := List.append_eq_nil_iff.mp (List.length_eq_zero_iff.mp
      (Nat.le_zero.mp hfuel))
    cases is with
    | nil => rfl
    | cons i is => simp [writeInsts, write_ne_nil i] at h
  | succ fuel ih =>
    intro invalid front rest is h hend hfuel
    cases is with
    | nil =>
      obtain rfl := List.map_eq_nil_iff.mp h
      exact parseInsts_atEnd _ invalid hend hfuel
    | cons i is =>
      rw [writeInsts] at h
      have hnode (node : List (WasmInst Unit) → WasmInst Unit) {body : List (WasmInst Unit)}
          {t : Token} (hwrite : (node body).write = t :: (writeInsts body ++ [.endBlock]))
          (ht : t.leaf = none) (hi : i = node body)
          (hround : ∀ inst s, tokenOf inst = some t → ∃ invalid' : Str → String,
            parseInsts (fuel + 1) invalid (inst :: s) =
              (parseInsts fuel invalid' s).bind (parseRest fuel invalid node)) :
          parseInsts (fuel + 1) invalid (front ++ rest) = .ok (i :: is, rest) := by
        rw [hi, hwrite] at h
        obtain ⟨inst, fs, close, gs, rfl, hinst, hfs, hclose, hgs⟩ := split_written h
        obtain ⟨invalid', hround⟩ := hround inst (fs ++ close :: gs ++ rest)
          (tokenOf_of_plain hinst ht)
        simp only [List.length_cons, List.length_append] at hfuel
        have hbody := ih invalid' fs (close :: (gs ++ rest)) body hfs
          (by simpa [AtEnd] using hclose) (by simp; omega)
        have hrest := ih invalid gs rest is hgs hend (by simp; omega)
        rw [List.cons_append, hround, List.append_assoc, List.cons_append, hbody, hi]
        exact parseRest_complete hclose hrest
      have hitem {t : Token} (hwrite : i.write = [t]) :
          parseInsts (fuel + 1) invalid (front ++ rest) = .ok (i :: is, rest) := by
        rw [hwrite] at h
        obtain ⟨inst, tail, rfl, hinst, htail⟩ := List.map_eq_cons_iff.mp h
        obtain ⟨t', htoken, hleaf⟩ := item_of_plain hinst hwrite
        rw [List.cons_append, parseInsts_item htoken hleaf,
          ih invalid tail rest is htail hend (by simpa using hfuel)]
        rfl
      cases i with
      | branch b | call c | set l => exact hitem rfl
      | block body =>
        exact hnode .block rfl rfl rfl fun inst s hinst =>
          ⟨_, parseInsts_block hinst fuel invalid s⟩
      | loop l body =>
        exact hnode (.loop l) rfl rfl rfl fun inst s hinst =>
          ⟨_, parseInsts_loop hinst fuel invalid s⟩

/-! ### Functions and programs -/

def writeFunction (f : WasmFunction Unit) : List Token :=
  .beginFunc f.funcIdx :: .beginBlock :: (writeInsts f.insts ++ [.endBlock, .endFunc])

def writeProgram (prog : WasmProgram Unit) : List Token := prog.flatMap writeFunction

theorem parseFunction_sound {s rest : InstStream} {f : WasmFunction Unit}
    (h : parseFunction s = .ok (f, rest)) :
    ∃ front, s = front ++ rest ∧ front.map plainOf = (writeFunction f).map some := by
  obtain ⟨⟨⟩, hreq, h₁⟩ := bind_eq_ok.mp h
  obtain ⟨⟨n, s₁⟩, hnext, h₂⟩ := bind_eq_ok.mp h₁
  cases s with
  | nil => cases hreq
  | cons first s =>
    have hfirst := require_ok_iff.mp hreq
    obtain ⟨hn, rfl⟩ := nextInt_ok_iff.mp hnext
    obtain ⟨second, s₂, rfl, hsecond, h₃⟩ := keyword_ok h₂
    obtain ⟨⟨body, s₃⟩, hbody, h₄⟩ := bind_eq_ok.mp h₃
    obtain ⟨fs, rfl, hfs, -⟩ := parseInsts_sound _ _ _ _ _ hbody
    obtain ⟨third, s₄, rfl, hthird, h₅⟩ := keyword_ok h₄
    obtain ⟨fourth, s₅, rfl, hfourth, h₆⟩ := keyword_ok h₅
    obtain ⟨rfl, rfl⟩ := Prod.mk.inj (Except.ok.inj h₆)
    have hfirst' := plainOf_eq_some (tokenOf_beginFunc_iff.mpr ⟨hfirst, hn⟩)
    have hsecond' := plainOf_eq_some ((tokenOf_iff_head (t := .beginBlock) rfl).mpr hsecond)
    have hthird' := plainOf_eq_some ((tokenOf_iff_head (t := .endBlock) rfl).mpr hthird)
    have hfourth' := plainOf_eq_some ((tokenOf_iff_head (t := .endFunc) rfl).mpr hfourth)
    refine ⟨first :: second :: (fs ++ [third, fourth]), by simp, ?_⟩
    simp [writeFunction, hfirst', hsecond', hthird', hfourth', hfs, Token.plain]

theorem parseFunction_complete {front rest : InstStream} {f : WasmFunction Unit}
    (h : front.map plainOf = (writeFunction f).map some) :
    parseFunction (front ++ rest) = .ok (f, rest) := by
  simp only [writeFunction, List.map_cons, List.map_append, List.map_nil] at h
  obtain ⟨first, tail, rfl, hfirst, h⟩ := List.map_eq_cons_iff.mp h
  obtain ⟨second, tail, rfl, hsecond, h⟩ := List.map_eq_cons_iff.mp h
  obtain ⟨fs, tail, rfl, hfs, h⟩ := List.map_eq_append_iff.mp h
  obtain ⟨third, tail, rfl, hthird, h⟩ := List.map_eq_cons_iff.mp h
  obtain ⟨fourth, tail, rfl, hfourth, h⟩ := List.map_eq_cons_iff.mp h
  obtain rfl := List.map_eq_nil_iff.mp h
  obtain ⟨hhead, hn⟩ := tokenOf_beginFunc_iff.mp (tokenOf_of_plain hfirst rfl)
  have hend : AtEnd (third :: fourth :: rest) := by
    simpa [AtEnd] using tokenOf_of_plain hthird rfl
  have hbody := parseInsts_complete (fs ++ third :: fourth :: rest).length
    (fun ty => "Invalid instruction type " ++ String.ofList ty) fs (third :: fourth :: rest)
    f.insts hfs hend (Nat.le_refl _)
  have hreq₁ := require_ok_iff (s := second :: (fs ++ third :: fourth :: rest)).mpr hhead
  have hreq₂ := require_ok_iff (s := fs ++ third :: fourth :: rest).mpr
    ((tokenOf_iff_head rfl).mp (tokenOf_of_plain hsecond rfl))
  have hreq₃ := require_ok_iff (s := fourth :: rest).mpr
    ((tokenOf_iff_head rfl).mp (tokenOf_of_plain hthird rfl))
  have hreq₄ := require_ok_iff (s := rest).mpr
    ((tokenOf_iff_head rfl).mp (tokenOf_of_plain hfourth rfl))
  have hnext := nextInt_ok_iff.mpr ⟨hn, Eq.refl (second :: (fs ++ third :: fourth :: rest))⟩
  simp only [Token.keyword] at hreq₂ hreq₃ hreq₄
  have hsplit : first :: second :: (fs ++ [third, fourth]) ++ rest =
      first :: second :: (fs ++ third :: fourth :: rest) := by simp
  rw [hsplit, parseFunction]
  simp only [hreq₁, hnext, hreq₂, next, hbody, hreq₃, hreq₄, bind, Except.bind, pure, Except.pure]

theorem parseFunctions_ok_iff (fuel : ℕ) :
    ∀ (s : InstStream) (prog : WasmProgram Unit), s.length ≤ fuel →
      (parseFunctions fuel s = .ok prog ↔
        s.map plainOf = (prog.flatMap writeFunction).map some) := by
  induction fuel with
  | zero =>
    intro s prog hs
    obtain rfl := List.length_eq_zero_iff.mp (Nat.le_zero.mp hs)
    cases prog with
    | nil => simp [parseFunctions]
    | cons f prog => simp [parseFunctions, writeFunction]
  | succ fuel ih =>
    intro s prog hs
    cases s with
    | nil =>
      cases prog with
      | nil => simp [parseFunctions]
      | cons f prog => simp [parseFunctions, writeFunction]
    | cons inst s =>
      rw [parseFunctions]
      constructor
      · intro h
        obtain ⟨⟨f, rest⟩, hf, hbind⟩ := bind_eq_ok.mp h
        obtain ⟨fs, hfs, hcons⟩ := bind_eq_ok.mp hbind
        obtain rfl := Except.ok.inj hcons
        have hlen := (takes_parseFunction (inst :: s)).2 f rest hf
        obtain ⟨front, hsplit, hfront⟩ := parseFunction_sound hf
        have hrest := (ih rest fs (by omega)).mp hfs
        rw [hsplit, List.map_append, hfront, hrest, List.flatMap_cons, List.map_append]
      · intro h
        cases prog with
        | nil => simp at h
        | cons f prog =>
          rw [List.flatMap_cons, List.map_append] at h
          obtain ⟨front, rest, hsplit, hfront, hrest⟩ := List.map_eq_append_iff.mp h
          have hf : parseFunction (inst :: s) = .ok (f, rest) := by
            rw [hsplit]
            exact parseFunction_complete hfront
          have hlen := (takes_parseFunction (inst :: s)).2 f rest hf
          have hfs := (ih rest prog (by omega)).mpr hrest
          exact bind_eq_ok.mpr ⟨(f, rest), hf, bind_eq_ok.mpr ⟨prog, hfs, rfl⟩⟩

theorem parseProgram_ok_iff {s : InstStream} {prog : WasmProgram Unit} :
    parseProgram s = .ok prog ↔ s.map plainOf = (writeProgram prog).map some :=
  parseFunctions_ok_iff s.length s prog (Nat.le_refl _)

/-! ### The written forms are the grammar, up to what the tree does not keep -/

theorem eq_of_plain {t t' : Token} (h : t.plain = t') (ht : t'.leaf = none) : t = t' := by
  rw [← h, leaf_plain] at ht
  rw [← h, plain_of_not_leaf ht]

theorem items_of_leaf {i : WasmInst Unit} {t' : Token} {ts rest : List Token}
    (hi : i.write = [t']) (h : ts.map Token.plain = i.write) (hrest : Items rest) :
    Items (ts ++ rest) := by
  obtain ⟨t, rfl, ht⟩ := List.map_eq_singleton_iff.mp (h.trans hi)
  have hleaf : t.leaf = some i := by rw [← leaf_plain, ht, leaf_of_write hi]
  exact .leaf (by rw [hleaf]; exact Option.some_ne_none i) hrest

mutual

theorem WasmInst.items_of_write {rest : List Token} (hrest : Items rest) :
    (i : WasmInst Unit) → {ts : List Token} → ts.map Token.plain = i.write → Items (ts ++ rest)
  | .branch _, _, h => items_of_leaf rfl h hrest
  | .call _, _, h => items_of_leaf rfl h hrest
  | .set _, _, h => items_of_leaf rfl h hrest
  | .block body, ts, h => by
    obtain ⟨t, tail, rfl, ht, htail⟩ := List.map_eq_cons_iff.mp h
    obtain ⟨bs, close, rfl, hbs, hclose⟩ := List.map_eq_append_iff.mp htail
    obtain ⟨c, rfl, hc⟩ := List.map_eq_singleton_iff.mp hclose
    obtain rfl := eq_of_plain ht rfl
    obtain rfl := eq_of_plain hc rfl
    simpa using Items.block (items_of_writeInsts body hbs) hrest
  | .loop l body, ts, h => by
    obtain ⟨t, tail, rfl, ht, htail⟩ := List.map_eq_cons_iff.mp h
    obtain ⟨bs, close, rfl, hbs, hclose⟩ := List.map_eq_append_iff.mp htail
    obtain ⟨c, rfl, hc⟩ := List.map_eq_singleton_iff.mp hclose
    obtain rfl := eq_of_plain ht rfl
    obtain rfl := eq_of_plain hc rfl
    simpa using Items.loop l (items_of_writeInsts body hbs) hrest

theorem items_of_writeInsts :
    (is : List (WasmInst Unit)) → {ts : List Token} → ts.map Token.plain = writeInsts is →
      Items ts
  | [], ts, h => by
    obtain rfl := List.map_eq_nil_iff.mp h
    exact .nil
  | i :: is, ts, h => by
    obtain ⟨front, rest, rfl, hfront, hrest⟩ := List.map_eq_append_iff.mp h
    exact i.items_of_write (items_of_writeInsts is hrest) hfront

end

theorem Items.written {ts : List Token} (h : Items ts) :
    ∃ is, ts.map Token.plain = writeInsts is := by
  induction h with
  | nil => exact ⟨[], rfl⟩
  | @leaf t ts hleaf _ ih =>
    obtain ⟨is, his⟩ := ih
    obtain ⟨i, hi⟩ := Option.ne_none_iff_exists'.mp hleaf
    exact ⟨i :: is, by simp [writeInsts, write_leaf hi, his]⟩
  | block _ _ ihb ihs =>
    obtain ⟨body, hbody⟩ := ihb
    obtain ⟨is, his⟩ := ihs
    exact ⟨.block body :: is, by simp [writeInsts, WasmInst.write, Token.plain, hbody, his]⟩
  | loop n _ _ ihb ihs =>
    obtain ⟨body, hbody⟩ := ihb
    obtain ⟨is, his⟩ := ihs
    exact ⟨.loop n body :: is, by simp [writeInsts, WasmInst.write, Token.plain, hbody, his]⟩

theorem program_of_written (prog : WasmProgram Unit) :
    ∀ ts : List Token, ts.map Token.plain = writeProgram prog → Program ts := by
  induction prog with
  | nil =>
    intro ts h
    obtain rfl := List.map_eq_nil_iff.mp h
    exact .nil
  | cons f prog ih =>
    intro ts h
    rw [writeProgram, List.flatMap_cons] at h
    obtain ⟨front, rest, rfl, hfront, hrest⟩ := List.map_eq_append_iff.mp h
    simp only [writeFunction] at hfront
    obtain ⟨first, tail, rfl, hfirst, h⟩ := List.map_eq_cons_iff.mp hfront
    obtain ⟨second, tail, rfl, hsecond, h⟩ := List.map_eq_cons_iff.mp h
    obtain ⟨bs, tail, rfl, hbs, h⟩ := List.map_eq_append_iff.mp h
    obtain ⟨third, tail, rfl, hthird, h⟩ := List.map_eq_cons_iff.mp h
    obtain ⟨fourth, rfl, hfourth⟩ := List.map_eq_singleton_iff.mp h
    obtain rfl := eq_of_plain hfirst rfl
    obtain rfl := eq_of_plain hsecond rfl
    obtain rfl := eq_of_plain hthird rfl
    obtain rfl := eq_of_plain hfourth rfl
    simpa using Program.func f.funcIdx (items_of_writeInsts f.insts hbs) (ih rest hrest)

theorem Program.written {ts : List Token} (h : Program ts) :
    ∃ prog, ts.map Token.plain = writeProgram prog := by
  induction h with
  | nil => exact ⟨[], rfl⟩
  | func n hitems _ ih =>
    obtain ⟨is, his⟩ := hitems.written
    obtain ⟨prog, hprog⟩ := ih
    refine ⟨⟨n, is⟩ :: prog, ?_⟩
    rw [writeProgram, List.flatMap_cons, ← writeProgram, ← hprog]
    simp [writeFunction, Token.plain, his]

mutual

theorem WasmInst.plain_write : (i : WasmInst Unit) → i.write.map Token.plain = i.write
  | .branch _ => rfl
  | .call c => by
    rw [WasmInst.write]
    split
    · rfl
    · next hc => simp [Token.plain, hc]
  | .set l => rfl
  | .block body => by simp [WasmInst.write, Token.plain, plain_writeInsts body]
  | .loop l body => by simp [WasmInst.write, Token.plain, plain_writeInsts body]

theorem plain_writeInsts :
    (is : List (WasmInst Unit)) → (writeInsts is).map Token.plain = writeInsts is
  | [] => rfl
  | i :: is => by
    rw [writeInsts, List.map_append, i.plain_write, plain_writeInsts is]

end

theorem plain_writeProgram (prog : WasmProgram Unit) :
    (writeProgram prog).map Token.plain = writeProgram prog := by
  induction prog with
  | nil => rfl
  | cons f prog ih =>
    rw [writeProgram, List.flatMap_cons, List.map_append, ← writeProgram, ih]
    simp [writeFunction, Token.plain, plain_writeInsts]

theorem plainOf_words (ts : List Token) :
    (ts.map Token.words).map plainOf = (ts.map Token.plain).map some := by
  simp [plainOf, tokenOf_words, Function.comp_def]

theorem writeInsts_injective : Function.Injective writeInsts := by
  intro is js h
  have hparse (ks : List (WasmInst Unit)) (hks : writeInsts is = writeInsts ks) :
      parseInsts (writeInsts is).length (fun _ => "") ((writeInsts is).map Token.words) =
        .ok (ks, []) := by
    have hplain : ((writeInsts is).map Token.words).map plainOf = (writeInsts ks).map some := by
      rw [plainOf_words, plain_writeInsts, hks]
    have h := parseInsts_complete (writeInsts is).length (fun _ => "") _ [] ks hplain
      (by simp [AtEnd]) (by simp)
    rwa [List.append_nil] at h
  exact (Prod.mk.inj (Except.ok.inj ((hparse is rfl).symm.trans (hparse js h)))).1

theorem plainOf_tokens {s : InstStream} {ts : List Token} (h : s.map tokenOf = ts.map some) :
    s.map plainOf = (ts.map Token.plain).map some := by
  have hmap : s.map plainOf = (s.map tokenOf).map (Option.map Token.plain) := by
    simp [plainOf, Function.comp_def]
  rw [hmap, h]
  simp [Function.comp_def]

theorem tokens_of_plainOf {s : InstStream} {ws : List Token}
    (h : s.map plainOf = ws.map some) :
    ∃ ts : List Token, s.map tokenOf = ts.map some ∧ ts.map Token.plain = ws := by
  induction s generalizing ws with
  | nil =>
    obtain rfl := List.map_eq_nil_iff.mp h.symm
    exact ⟨[], rfl, rfl⟩
  | cons inst s ih =>
    obtain ⟨w, ws, rfl, hw, hws⟩ := List.map_eq_cons_iff.mp h.symm
    obtain ⟨ts, hts, rfl⟩ := ih hws.symm
    obtain ⟨t, ht, rfl⟩ := Option.map_eq_some_iff.mp hw.symm
    exact ⟨t :: ts, by simp [ht, hts], rfl⟩

def InProgram (s : InstStream) : Prop := ∃ ts : List Token, s.map tokenOf = ts.map some ∧ Program ts

theorem parseProgram_ok_iff_inProgram {s : InstStream} :
    (∃ prog, parseProgram s = .ok prog) ↔ InProgram s := by
  constructor
  · intro ⟨prog, h⟩
    obtain ⟨ts, hts, hplain⟩ := tokens_of_plainOf (parseProgram_ok_iff.mp h)
    exact ⟨ts, hts, program_of_written prog ts hplain⟩
  · intro ⟨ts, hts, hprogram⟩
    obtain ⟨prog, hprog⟩ := hprogram.written
    exact ⟨prog, parseProgram_ok_iff.mpr (by rw [plainOf_tokens hts, hprog])⟩

theorem parse_program (s : InstStream) :
    ((∃ prog, parseProgram s = .ok prog) ↔ InProgram s) ∧
    (¬InProgram s → ∃ e, e ≠ .outOfFuel ∧ parseProgram s = .error e) ∧
    (∀ prog (ts : List Token), parseProgram s = .ok prog → s.map tokenOf = ts.map some →
      writeProgram prog = ts.map Token.plain) ∧
    ∀ prog, parseProgram ((writeProgram prog).map Token.words) = .ok prog := by
  refine ⟨parseProgram_ok_iff_inProgram, ?_, ?_, ?_⟩
  · intro hout
    cases h : parseProgram s with
    | ok prog => exact absurd (parseProgram_ok_iff_inProgram.mp ⟨prog, h⟩) hout
    | error e => exact ⟨e, fun he => parseProgram_ne_outOfFuel s (he ▸ h), rfl⟩
  · intro prog ts h hts
    have hwritten := (parseProgram_ok_iff.mp h).symm.trans (plainOf_tokens hts)
    exact List.map_injective_iff.mpr (Option.some_injective Token) hwritten
  · intro prog
    rw [parseProgram_ok_iff, plainOf_words, plain_writeProgram]

def branchProgram (t : Token) : List Token :=
  [.beginFunc 0, .beginBlock, t, .endBlock, .endFunc]

/-- `op_br` and `op_br_if` are parsed to one tree, which no writer gives back as both. -/
theorem parse_forgets_branch :
    ¬∃ write : WasmProgram Unit → List Token, ∀ (ts : List Token) (prog : WasmProgram Unit),
      parseProgram (ts.map Token.words) = .ok prog → write prog = ts := by
  intro ⟨write, hwrite⟩
  have hbr := hwrite (branchProgram .opBr) [⟨0, [.branch ()]⟩] (by rfl)
  have hbrIf := hwrite (branchProgram .opBrIf) [⟨0, [.branch ()]⟩] (by rfl)
  have hsame := hbr.symm.trans hbrIf
  exact absurd hsame (by decide)

end MVVM.Analysis
