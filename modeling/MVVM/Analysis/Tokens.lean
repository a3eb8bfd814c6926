import MVVM.Analysis.Parse

/-!
# The lines that the parser reads (wasm_static_analysis.py:106-296, 473-489)

The parser looks at the first word of a line, and at the second where it needs a number;
what else stands in a line does not matter.
-/

namespace MVVM.Analysis

open MVVM.Text

inductive Token where
  | beginFunc (n : ℤ)
  | endFunc
  | beginBlock
  | beginLoop (n : ℤ)
  | endBlock
  | opBr
  | opBrIf
  | opBrTable
  | opReturn
  | opCall (n : ℤ)
  | opCallIndirect
  | opSet (n : ℤ)
  | opTee (n : ℤ)
  deriving DecidableEq, Repr

def Token.keyword : Token → String
  | .beginFunc _ => "begin_func"
  | .endFunc => "end_func"
  | .beginBlock => "begin_block"
  | .beginLoop _ => "begin_loop"
  | .endBlock => "end_block"
  | .opBr => "op_br"
  | .opBrIf => "op_br_if"
  | .opBrTable => "op_br_table"
  | .opReturn => "op_return"
  | .opCall _ => "op_call"
  | .opCallIndirect => "op_call_indirect"
  | .opSet _ => "op_set"
  | .opTee _ => "op_tee"

def Token.number : Token → Option ℤ
  | .beginFunc n | .beginLoop n | .opCall n | .opSet n | .opTee n => some n
  | .endFunc | .beginBlock | .endBlock | .opBr | .opBrIf | .opBrTable | .opReturn
  | .opCallIndirect => none

def Token.words (t : Token) : List Str := t.keyword.toList :: (t.number.map showInt).toList

/-- The keywords, and the token that each makes of the number behind it. -/
def keywords : List (String × (Option ℤ → Option Token)) :=
  [("begin_func", Option.map .beginFunc), ("end_func", fun _ => some .endFunc),
    ("begin_block", fun _ => some .beginBlock), ("begin_loop", Option.map .beginLoop),
    ("end_block", fun _ => some .endBlock), ("op_br", fun _ => some .opBr),
    ("op_br_if", fun _ => some .opBrIf), ("op_br_table", fun _ => some .opBrTable),
    ("op_return", fun _ => some .opReturn), ("op_call", Option.map .opCall),
    ("op_call_indirect", fun _ => some .opCallIndirect), ("op_set", Option.map .opSet),
    ("op_tee", Option.map .opTee)]

def tokenFor (keyword : Str) (number : Option ℤ) : Option Token :=
  (keywords.find? fun e => e.1.toList = keyword).bind fun e => e.2 number

def tokenOf : List Str → Option Token
  | [] => none
  | keyword :: args => tokenFor keyword (args[0]?.bind readInt)

def Token.leaf : Token → Option (WasmInst Unit)
  | .opBr | .opBrIf | .opBrTable | .opReturn => some (.branch ())
  | .opCall n => some (.call n)
  | .opCallIndirect => some (.call (-1))
  | .opSet n | .opTee n => some (.set n)
  | .beginFunc _ | .endFunc | .beginBlock | .beginLoop _ | .endBlock => none

/-! ### One line -/

theorem nextInt_ok_iff {inst : List Str} {s s' : InstStream} {n : ℤ} :
    nextInt (inst :: s) = .ok (n, s') ↔ inst[1]?.bind readInt = some n ∧ s' = s := by
  unfold nextInt
  simp only [next, bind, Except.bind]
  cases inst[1]? with
  | none => simp
  | some word =>
    cases hn : readInt word with
    | none => simp [hn]
    | some m => simp [hn, eq_comm]

theorem require_ok_iff {inst : List Str} {s : InstStream} {keyword : String} :
    require (inst :: s) keyword = .ok () ↔ inst.head? = some keyword.toList := by
  unfold require
  simp only [expect, bind, Except.bind]
  split <;> simp_all

theorem tokenFor_keyword (t : Token) {number : Option ℤ}
    (h : t.number = none ∨ t.number = number) : tokenFor t.keyword.toList number = some t := by
  cases t with
  | beginFunc n | beginLoop n | opCall n | opSet n | opTee n =>
    rcases h with h | h
    · cases h
    · rw [← h, Token.number, Token.keyword]
      rfl
  | endFunc | beginBlock | endBlock | opBr | opBrIf | opBrTable | opReturn | opCallIndirect => rfl

theorem keywords_token {e : String × (Option ℤ → Option Token)} (he : e ∈ keywords)
    {number : Option ℤ} {t : Token} (h : e.2 number = some t) :
    e.1 = t.keyword ∧ (t.number = none ∨ t.number = number) := by
  simp only [keywords, List.mem_cons, List.not_mem_nil, or_false] at he
  rcases he with rfl | rfl | rfl | rfl | rfl | rfl | rfl | rfl | rfl | rfl | rfl | rfl | rfl <;>
    first
      | (obtain ⟨n, rfl, rfl⟩ := Option.map_eq_some_iff.mp h
         exact ⟨rfl, .inr rfl⟩)
      | (obtain rfl := Option.some.inj h
         exact ⟨rfl, .inl rfl⟩)

theorem tokenFor_eq_some_iff {keyword : Str} {number : Option ℤ} {t : Token} :
    tokenFor keyword number = some t ↔
      keyword = t.keyword.toList ∧ (t.number = none ∨ t.number = number) := by
  constructor
  · intro h
    obtain ⟨e, hfind, htoken⟩ := Option.bind_eq_some_iff.mp h
    obtain ⟨hkeyword, hnumber⟩ := keywords_token (List.mem_of_find?_eq_some hfind) htoken
    have hsame : e.1.toList = keyword := by simpa using List.find?_some hfind
    exact ⟨by rw [← hsame, hkeyword], hnumber⟩
  · intro ⟨hkeyword, hnumber⟩
    rw [hkeyword]
    exact tokenFor_keyword t hnumber

theorem tokenOf_words (t : Token) : tokenOf t.words = some t := by
  rw [Token.words, tokenOf, tokenFor_eq_some_iff]
  refine ⟨rfl, ?_⟩
  cases t.number with
  | none => exact .inl rfl
  | some n => exact .inr (by simp [readInt_showInt])

theorem token_line {inst : List Str} {t : Token} (h : tokenOf inst = some t) :
    ∃ args : List Str, inst = t.keyword.toList :: args ∧
      (t.number = none ∨ args[0]?.bind readInt = t.number) := by
  cases inst with
  | nil => cases h
  | cons keyword args =>
    obtain ⟨rfl, hnumber⟩ := tokenFor_eq_some_iff.mp h
    exact ⟨args, rfl, hnumber.imp_right Eq.symm⟩

theorem tokenOf_iff_head {inst : List Str} {t : Token} (ht : t.number = none) :
    tokenOf inst = some t ↔ inst.head? = some t.keyword.toList := by
  cases inst with
  | nil => simp [tokenOf]
  | cons keyword args =>
    rw [tokenOf, tokenFor_eq_some_iff, List.head?_cons, Option.some.injEq]
    simp [ht]

theorem tokenOf_beginFunc_iff {inst : List Str} {n : ℤ} :
    tokenOf inst = some (.beginFunc n) ↔
      inst.head? = some "begin_func".toList ∧ inst[1]?.bind readInt = some n := by
  cases inst with
  | nil => simp [tokenOf]
  | cons keyword args =>
    rw [tokenOf, tokenFor_eq_some_iff, List.head?_cons, Option.some.injEq]
    simp [Token.keyword, Token.number, eq_comm]

theorem nextInt_of_number {keyword : Str} {args : List Str} {n : ℤ}
    (h : args[0]?.bind readInt = some n) (s : InstStream) :
    nextInt ((keyword :: args) :: s) = .ok (n, s) :=
  nextInt_ok_iff.mpr ⟨h, rfl⟩

/-! ### One round of the loop over the items -/

def Token.cls : Token → Option InstClass
  | .opBr | .opBrIf | .opBrTable | .opReturn => some .branch
  | .opCall _ | .opCallIndirect => some .call
  | .opSet _ | .opTee _ => some .set
  | .beginBlock => some .block
  | .beginLoop _ => some .loop
  | .beginFunc _ | .endFunc | .endBlock => none

theorem tokenToClass_keyword (t : Token) : tokenToClass t.keyword.toList = t.cls := by
  cases t <;>
  · rw [Token.keyword, Token.cls]
    rfl

theorem keyword_ne_endBlock {t : Token} (h : t ≠ .endBlock) :
    t.keyword.toList ≠ "end_block".toList := by
  cases t <;> first | exact absurd rfl h | (rw [Token.keyword]; decide)

theorem parseInsts_end {inst : List Str} (h : tokenOf inst = some .endBlock) (fuel : ℕ)
    (invalid : Str → String) (s : InstStream) :
    parseInsts (fuel + 1) invalid (inst :: s) = .ok ([], inst :: s) := by
  obtain ⟨args, rfl, -⟩ := token_line h
  rfl

theorem parseInsts_round {inst : List Str} {t : Token} {cls : InstClass}
    (h : tokenOf inst = some t) (hcls : t.cls = some cls) (fuel : ℕ) (invalid : Str → String)
    (s : InstStream) :
    parseInsts (fuel + 1) invalid (inst :: s) =
      (parseInst (parseInsts fuel) (inst :: s) cls).bind fun p =>
        (parseInsts fuel invalid p.2).bind fun q => .ok (p.1 :: q.1, q.2) := by
  obtain ⟨args, rfl, -⟩ := token_line h
  have hend : t.keyword.toList ≠ "end_block".toList := by
    apply keyword_ne_endBlock
    rintro rfl
    cases hcls
  have hclass : tokenToClass t.keyword.toList = some cls := by rw [tokenToClass_keyword, hcls]
  rw [parseInsts]
  simp only [List.headD_cons, if_neg hend, hclass]
  rfl

theorem parseInst_item {inst : List Str} {t : Token} {i : WasmInst Unit}
    (h : tokenOf inst = some t) (hleaf : t.leaf = some i)
    (insts : (Str → String) → InstStream → Except Failure (List (WasmInst Unit) × InstStream))
    (s : InstStream) :
    ∃ cls, t.cls = some cls ∧ parseInst insts (inst :: s) cls = .ok (i, s) := by
  obtain ⟨args, rfl, hnumber⟩ := token_line h
  cases t with
  | opBr | opBrIf | opBrTable | opReturn =>
    cases hleaf
    exact ⟨.branch, rfl, rfl⟩
  | opCallIndirect =>
    cases hleaf
    exact ⟨.call, rfl, rfl⟩
  | opCall n =>
    cases hleaf
    have hn : args[0]?.bind readInt = some n := hnumber.resolve_left (by simp [Token.number])
    refine ⟨.call, rfl, ?_⟩
    simp [parseInst, parseCall, Token.keyword, expect, nextInt_of_number hn, bind, Except.bind,
      pure, Except.pure]
  | opSet n | opTee n =>
    cases hleaf
    have hn : args[0]?.bind readInt = some n := hnumber.resolve_left (by simp [Token.number])
    refine ⟨.set, rfl, ?_⟩
    simp [parseInst, parseSet, Token.keyword, expect, nextInt_of_number hn, bind, Except.bind,
      pure, Except.pure]
  | beginFunc n | beginLoop n => cases hleaf
  | endFunc | beginBlock | endBlock => cases hleaf

theorem parseInsts_item {inst : List Str} {t : Token} {i : WasmInst Unit}
    (h : tokenOf inst = some t) (hleaf : t.leaf = some i) (fuel : ℕ) (invalid : Str → String)
    (s : InstStream) :
    parseInsts (fuel + 1) invalid (inst :: s) =
      (parseInsts fuel invalid s).bind fun p => .ok (i :: p.1, p.2) := by
  obtain ⟨cls, hcls, hinst⟩ := parseInst_item h hleaf (parseInsts fuel) s
  rw [parseInsts_round h hcls, hinst]
  rfl

/-- Behind the instructions of a block or loop: its end, and what follows it. -/
def parseRest (fuel : ℕ) (invalid : Str → String)
    (node : List (WasmInst Unit) → WasmInst Unit)
    (p : List (WasmInst Unit) × InstStream) :
    Except Failure (List (WasmInst Unit) × InstStream) := do
  require p.2 "end_block"
  let (_, s) ← next p.2
  let (is, s) ← parseInsts fuel invalid s
  return (node p.1 :: is, s)

theorem bind_parseRest (x : Except Failure (List (WasmInst Unit) × InstStream)) (fuel : ℕ)
    (invalid : Str → String) (node : List (WasmInst Unit) → WasmInst Unit) :
    ((x.bind fun p => (require p.2 "end_block").bind fun _ => (next p.2).bind fun q =>
        .ok (node p.1, q.2)).bind fun p =>
      (parseInsts fuel invalid p.2).bind fun q => .ok (p.1 :: q.1, q.2)) =
      x.bind (parseRest fuel invalid node) := by
  cases x with
  | error e => rfl
  | ok p =>
    simp only [Except.bind, parseRest, bind]
    cases require p.2 "end_block" with
    | error e => rfl
    | ok u => cases next p.2 <;> rfl

theorem parseInsts_block {inst : List Str} (h : tokenOf inst = some .beginBlock) (fuel : ℕ)
    (invalid : Str → String) (s : InstStream) :
    parseInsts (fuel + 1) invalid (inst :: s) =
      (parseInsts fuel (fun ty => "Invalid instruction type " ++ String.ofList ty) s).bind
        (parseRest fuel invalid .block) := by
  have hreq : require (inst :: s) "begin_block" = .ok () :=
    require_ok_iff.mpr ((tokenOf_iff_head rfl).mp h)
  rw [parseInsts_round h rfl, ← bind_parseRest, parseInst]
  simp only [hreq, next, bind, Except.bind, pure, Except.pure]

theorem parseInsts_loop {inst : List Str} {n : ℤ} (h : tokenOf inst = some (.beginLoop n))
    (fuel : ℕ) (invalid : Str → String) (s : InstStream) :
    parseInsts (fuel + 1) invalid (inst :: s) =
      (parseInsts fuel (fun _ => "Invalid instruction type") s).bind
        (parseRest fuel invalid (.loop n)) := by
  obtain ⟨args, rfl, hnumber⟩ := token_line h
  have hn : args[0]?.bind readInt = some n := hnumber.resolve_left (by simp [Token.number])
  have hreq : require (("begin_loop".toList :: args) :: s) "begin_loop" = .ok () :=
    require_ok_iff.mpr rfl
  rw [parseInsts_round h rfl, ← bind_parseRest, parseInst, Token.keyword]
  simp only [hreq, nextInt_of_number hn, bind, Except.bind, pure, Except.pure]

theorem tokenToClass_cases {keyword : Str} {cls : InstClass} (h : tokenToClass keyword = some cls) :
    (cls = .branch ∧ keyword ∈ ["op_br", "op_br_if", "op_br_table", "op_return"].map
      String.toList) ∨
    (cls = .call ∧ keyword ∈ ["op_call", "op_call_indirect", "op_return_call",
      "op_return_call_indirect"].map String.toList) ∨
    (cls = .set ∧ keyword ∈ ["op_set", "op_tee"].map String.toList) ∨
    (cls = .block ∧ keyword = "begin_block".toList) ∨
    (cls = .loop ∧ keyword = "begin_loop".toList) := by
  unfold tokenToClass at h
  by_cases hbranch : keyword ∈ ["op_br", "op_br_if", "op_br_table", "op_return"].map String.toList
  · rw [if_pos hbranch] at h
    exact .inl ⟨(Option.some.inj h).symm, hbranch⟩
  rw [if_neg hbranch] at h
  by_cases hcall : keyword ∈ ["op_call", "op_call_indirect", "op_return_call",
      "op_return_call_indirect"].map String.toList
  · rw [if_pos hcall] at h
    exact .inr (.inl ⟨(Option.some.inj h).symm, hcall⟩)
  rw [if_neg hcall] at h
  by_cases hset : keyword ∈ ["op_set", "op_tee"].map String.toList
  · rw [if_pos hset] at h
    exact .inr (.inr (.inl ⟨(Option.some.inj h).symm, hset⟩))
  rw [if_neg hset] at h
  by_cases hblock : keyword = "begin_block".toList
  · rw [if_pos hblock] at h
    exact .inr (.inr (.inr (.inl ⟨(Option.some.inj h).symm, hblock⟩)))
  rw [if_neg hblock] at h
  by_cases hloop : keyword = "begin_loop".toList
  · rw [if_pos hloop] at h
    exact .inr (.inr (.inr (.inr ⟨(Option.some.inj h).symm, hloop⟩)))
  · rw [if_neg hloop] at h
    cases h

/-- A token with which the loop over the items goes on, or at which it stops. -/
def Token.inItems (t : Token) : Bool :=
  match t with
  | .beginFunc _ | .endFunc => false
  | _ => true

theorem nextInt_without_number {keyword : Str} {args : List Str}
    (h : args[0]?.bind readInt = none) (s : InstStream) (p : ℤ × InstStream) :
    nextInt ((keyword :: args) :: s) ≠ .ok p := by
  intro hp
  have hsome : args[0]?.bind readInt = some p.1 ∧ p.2 = s := nextInt_ok_iff.mp hp
  simp [h] at hsome

theorem parseInsts_stuck {inst : List Str} (h : ∀ t, tokenOf inst = some t → t.inItems = false)
    (fuel : ℕ) (invalid : Str → String) (s : InstStream)
    (p : List (WasmInst Unit) × InstStream) :
    parseInsts (fuel + 1) invalid (inst :: s) ≠ .ok p := by
  cases inst with
  | nil => exact fun hp => nomatch hp
  | cons keyword args =>
    have hplain (t : Token) (hn : t.number = none) (ht : t.inItems = true) :
        keyword ≠ t.keyword.toList := by
      intro hk
      have htoken := h t (tokenFor_eq_some_iff.mpr ⟨hk, .inl hn⟩)
      rw [ht] at htoken
      cases htoken
    have hnumber (mk : ℤ → Token) (hmk : ∀ n, (mk n).number = some n ∧ (mk n).inItems = true)
        (hk : keyword = (mk 0).keyword.toList)
        (hsame : ∀ n, (mk n).keyword = (mk 0).keyword) : args[0]?.bind readInt = none := by
      cases hn : args[0]?.bind readInt with
      | none => rfl
      | some n =>
        have htoken := h (mk n) (tokenFor_eq_some_iff.mpr
          ⟨by rw [hsame n, hk], .inr ((hmk n).1.trans hn.symm)⟩)
        rw [(hmk n).2] at htoken
        cases htoken
    intro hp
    have hend : ¬(keyword :: args).headD [] = "end_block".toList := hplain .endBlock rfl rfl
    rw [parseInsts] at hp
    simp only [if_neg hend] at hp
    cases hcls : tokenToClass ((keyword :: args).headD []) with
    | none =>
      rw [hcls] at hp
      cases hp
    | some cls =>
      rw [hcls] at hp
      obtain ⟨q, hq, -⟩ := bind_eq_ok.mp hp
      rw [List.headD_cons] at hcls
      rcases tokenToClass_cases hcls with ⟨rfl, hk⟩ | ⟨rfl, hk⟩ | ⟨rfl, hk⟩ | ⟨rfl, hk⟩ | ⟨rfl, hk⟩
      · simp only [List.map_cons, List.map_nil, List.mem_cons, List.not_mem_nil, or_false] at hk
        rcases hk with hk | hk | hk | hk
        · exact hplain .opBr rfl rfl hk
        · exact hplain .opBrIf rfl rfl hk
        · exact hplain .opBrTable rfl rfl hk
        · exact hplain .opReturn rfl rfl hk
      · simp only [List.map_cons, List.map_nil, List.mem_cons, List.not_mem_nil, or_false] at hk
        rcases hk with hk | hk | hk | hk
        · have hn := hnumber .opCall (fun n => ⟨rfl, rfl⟩) hk fun _ => rfl
          rw [hk] at hq
          obtain ⟨r, hr, -⟩ := bind_eq_ok.mp (show (nextInt (("op_call".toList :: args) ::
            s)).bind (fun r => .ok (.call r.1, r.2)) = .ok q from hq)
          exact nextInt_without_number hn s r hr
        · exact hplain .opCallIndirect rfl rfl hk
        · rw [hk] at hq
          cases hq
        · rw [hk] at hq
          cases hq
      · simp only [List.map_cons, List.map_nil, List.mem_cons, List.not_mem_nil, or_false] at hk
        rcases hk with hk | hk
        · have hn := hnumber .opSet (fun n => ⟨rfl, rfl⟩) hk fun _ => rfl
          rw [hk] at hq
          obtain ⟨r, hr, -⟩ := bind_eq_ok.mp (show (nextInt (("op_set".toList :: args) ::
            s)).bind (fun r => .ok (.set r.1, r.2)) = .ok q from hq)
          exact nextInt_without_number hn s r hr
        · have hn := hnumber .opTee (fun n => ⟨rfl, rfl⟩) hk fun _ => rfl
          rw [hk] at hq
          obtain ⟨r, hr, -⟩ := bind_eq_ok.mp (show (nextInt (("op_tee".toList :: args) ::
            s)).bind (fun r => .ok (.set r.1, r.2)) = .ok q from hq)
          exact nextInt_without_number hn s r hr
      · exact hplain .beginBlock rfl rfl hk
      · have hn := hnumber .beginLoop (fun n => ⟨rfl, rfl⟩) hk fun _ => rfl
        rw [hk] at hq
        obtain ⟨-, -, hq⟩ := bind_eq_ok.mp hq
        obtain ⟨r, hr, -⟩ := bind_eq_ok.mp hq
        exact nextInt_without_number hn s r hr

theorem keyword_ok {β : Type} {keyword : String} {s : InstStream}
    {g : List Str × InstStream → Except Failure β} {b : β}
    (h : ((require s keyword).bind fun _ => (next s).bind g) = .ok b) :
    ∃ inst s', s = inst :: s' ∧ inst.head? = some keyword.toList ∧ g (inst, s') = .ok b := by
  obtain ⟨⟨⟩, hreq, hnext⟩ := bind_eq_ok.mp h
  cases s with
  | nil => cases hreq
  | cons inst s' => exact ⟨inst, s', rfl, require_ok_iff.mp hreq, hnext⟩

theorem parseRest_sound {fuel : ℕ} {invalid : Str → String}
    {node : List (WasmInst Unit) → WasmInst Unit} {body is : List (WasmInst Unit)}
    {s rest : InstStream} (h : parseRest fuel invalid node (body, s) = .ok (is, rest)) :
    ∃ inst s' is', s = inst :: s' ∧ tokenOf inst = some .endBlock ∧ is = node body :: is' ∧
      parseInsts fuel invalid s' = .ok (is', rest) := by
  obtain ⟨inst, s', rfl, hclose, hcont⟩ := keyword_ok h
  obtain ⟨p, hp, hcons⟩ := bind_eq_ok.mp hcont
  obtain ⟨hnode, hrest⟩ := Prod.mk.inj (Except.ok.inj hcons)
  refine ⟨inst, s', p.1, rfl, (tokenOf_iff_head rfl).mpr hclose, hnode.symm, ?_⟩
  rw [← hrest]
  exact hp

theorem parseRest_complete {fuel : ℕ} {invalid : Str → String}
    {node : List (WasmInst Unit) → WasmInst Unit} {body is : List (WasmInst Unit)}
    {inst : List Str} {s rest : InstStream} (h : tokenOf inst = some .endBlock)
    (hrest : parseInsts fuel invalid s = .ok (is, rest)) :
    parseRest fuel invalid node (body, inst :: s) = .ok (node body :: is, rest) := by
  have hreq : require (inst :: s) "end_block" = .ok () :=
    require_ok_iff.mpr ((tokenOf_iff_head rfl).mp h)
  simp only [parseRest, hreq, next, hrest, bind, Except.bind, pure, Except.pure]

end MVVM.Analysis
