import MVVM.Analysis.Latency
import MVVM.Analysis.Reached

/-!
# Loops that come to a checkpoint before they branch (wasm_static_analysis.py:423-470)

A path may leave a loop, or repeat it, only at a branch. Where each reported loop has a call
that is a checkpoint, or another loop, in front of its branches, its headers lead to a
checkpoint whatever the branches do, and no stretch without one is long.
-/

namespace MVVM.Analysis

variable {S : Finset ℤ} {skip : List (ℤ × ℤ)} {f l : ℤ}

/-- The code read on comes to a checkpoint before it comes to a branch. -/
inductive Blocked (S : Finset ℤ) (skip : List (ℤ × ℤ)) (f : ℤ) : Code → Prop where
  | call {c : ℤ} {is : Code} : c ∉ S → Blocked S skip f (.call c :: is)
  | header {l : ℤ} {b is : Code} : (f, l) ∉ skip → Blocked S skip f (.loop l b :: is)
  | loop {l : ℤ} {b is : Code} : Blocked S skip f b → Blocked S skip f (.loop l b :: is)
  | block {b is : Code} : Blocked S skip f b → Blocked S skip f (.block b :: is)
  | later {i : WasmInst Branch} {is : Code} :
      i.hasBranch = false → Blocked S skip f is → Blocked S skip f (i :: is)

theorem Blocked.append {is : Code} (h : Blocked S skip f is) (js : Code) :
    Blocked S skip f (is ++ js) := by
  induction h with
  | call hc => exact .call hc
  | header hl => exact .header hl
  | loop hb _ => exact .loop hb
  | block hb _ => exact .block hb
  | later hi _ ih => exact .later hi ih

theorem Blocked.prepend {is js : Code} (hbranch : anyBranch is = false)
    (h : Blocked S skip f js) : Blocked S skip f (is ++ js) := by
  induction is with
  | nil => exact h
  | cons i is ih =>
    obtain ⟨hi, his⟩ := Bool.or_eq_false_iff.mp hbranch
    exact .later hi (ih his)

theorem moves_pos (i : WasmInst Branch) : 0 < i.moves := by
  cases i <;> simp [WasmInst.moves]

/-- Code that qualifies is blocked, when the reported loops in it qualify as well. -/
theorem blocked_of_qualifies {ls : List (ℤ × Code)} (hdirect : -1 ∉ S)
    (hall : ∀ l b, (l, b) ∈ ls → (f, l) ∈ skip → Qualifies S b) {is : Code}
    (hloops : loopsOf is ⊆ ls) (hq : Qualifies S is) : Blocked S skip f is := by
  induction hn : movesOf is using Nat.strongRecOn generalizing is with
  | ind n ih =>
    subst hn
    cases hq with
    | call hc => exact .call hc
    | callIndirect => exact .call hdirect
    | @loop l b rest =>
      rw [loopsOf, WasmInst.loops, List.append_subset, List.cons_subset] at hloops
      have hlt : movesOf b < movesOf (.loop l b :: rest) := by
        simp only [movesOf, WasmInst.moves]
        omega
      by_cases hl : (f, l) ∈ skip
      · exact .loop (ih _ hlt hloops.1.2 (hall l b hloops.1.1 hl) rfl)
      · exact .header hl
    | @block b rest hb =>
      rw [loopsOf, WasmInst.loops, List.append_subset] at hloops
      have hlt : movesOf b < movesOf (.block b :: rest) := by
        simp only [movesOf, WasmInst.moves]
        omega
      exact .block (ih _ hlt hloops.1 hb rfl)
    | @later i rest hi hrest =>
      rw [loopsOf, List.append_subset] at hloops
      have hlt : movesOf rest < movesOf (i :: rest) := by
        have hpos := moves_pos i
        rw [movesOf]
        omega
      exact .later hi (ih _ hlt hloops.2 hrest rfl)

/-! ### From a blocked place on -/

/-- Inside of the labels `base`, the code ahead is blocked. -/
def BlockedIn (S : Finset ℤ) (skip : List (ℤ × ℤ)) (base : List Frame) (a : Activation) : Prop :=
  ∃ inner, a.ctx = inner ++ base ∧ Blocked S skip a.func (a.code ++ remaining inner)

variable {prog : WasmProgram Branch} {base : List Frame} {a : Activation}
  {below t : List Activation} {act : Action}

theorem BlockedIn.branch (ha : BlockedIn S skip base a) {b : Branch} {is : Code} :
    a.code ≠ .branch b :: is := by
  obtain ⟨inner, -, hblocked⟩ := ha
  intro hcode
  rw [hcode] at hblocked
  cases hblocked with
  | later hi => cases hi

theorem Blocked.enter {b rest : Code} {inner : List Frame} {frame : Frame}
    (hrest : frame.rest = rest) (h : Blocked S skip f b ∨
      anyBranch b = false ∧ Blocked S skip f (rest ++ remaining inner)) :
    Blocked S skip f (b ++ remaining (frame :: inner)) := by
  rw [remaining, List.flatMap_cons, hrest]
  rcases h with hb | ⟨hbranch, hrest⟩
  · exact hb.append _
  · exact hrest.prepend hbranch

/-- Nothing but straight moves and simple calls is possible, and less is ahead behind them. -/
theorem blocked_step (hS : SimpleIn prog S) (ha : BlockedIn S skip base a)
    (hquiet : Quiet S skip (a :: below) act) (h : execStep prog (a :: below) act = some t) :
    ∃ (top : Option Activation) (a' : Activation), t = top.toList ++ a' :: below ∧
      BlockedIn S skip base a' ∧ a'.left < a.left ∧ ∀ p ∈ top, p.JustCalled prog := by
  obtain ⟨inner, hctx, hblocked⟩ := ha
  rcases exec_cases h with ⟨b, below', m, p, heq, rfl, hcode, hp, rfl⟩ |
    ⟨f, c, is, ctx, below', calleeIdx, heq, rfl, hc, rfl⟩ | ⟨f, heq, -⟩
  · obtain ⟨rfl, rfl⟩ := List.cons.inj heq
    have hbranch : ∀ b is, a.code ≠ .branch b :: is := fun b is =>
      BlockedIn.branch ⟨inner, hctx, hblocked⟩
    obtain ⟨f, code, ctx⟩ := a
    obtain rfl : ctx = inner ++ base := hctx
    rcases step_cases hp with ⟨frame, ctx', hnil, hctx', rfl⟩ | ⟨b, is, hb, -, rfl⟩ |
      ⟨x, is, hset, rfl⟩ | ⟨c, is, hc, rfl⟩ | ⟨b, is, hb, rfl⟩ | ⟨l, b, is, hl, rfl⟩ |
      ⟨b, is, depth, hb, -⟩
    · obtain rfl : code = [] := hnil
      have hctx'' : inner ++ base = frame :: ctx' := hctx'
      cases inner with
      | nil => cases hblocked
      | cons frame' inner =>
        obtain ⟨rfl, rfl⟩ := List.cons.inj hctx''
        refine ⟨none, _, rfl, ⟨inner, rfl, hblocked⟩, ?_, fun q hq => nomatch hq⟩
        simp [Activation.left, framesLeft, movesOf]
    · exact absurd hb (hbranch b is)
    · obtain rfl : code = .set x :: is := hset
      refine ⟨none, _, rfl, ⟨inner, rfl, ?_⟩, ?_, fun q hq => nomatch hq⟩
      · cases hblocked with
        | later _ hrest => exact hrest
      · simp [Activation.left, movesOf, WasmInst.moves, Activation.place]
    · exact absurd hc (hcode c is)
    · obtain rfl : code = .block b :: is := hb
      refine ⟨none, _, rfl, ⟨.block is :: inner, rfl, Blocked.enter rfl ?_⟩, ?_,
        fun q hq => nomatch hq⟩
      · cases hblocked with
        | block hb => exact .inl hb
        | later hi hrest => exact .inr ⟨hi, hrest⟩
      · simp only [Activation.left, movesOf, WasmInst.moves, Activation.place, framesLeft,
          List.map_cons, List.sum_cons, Frame.rest]
        omega
    · obtain rfl : code = .loop l b :: is := hl
      have hev := hquiet (f, .header l) (by simp [events, hp])
      have hskip : (f, l) ∈ skip := by simpa [Event.isCkpt] using hev
      refine ⟨none, _, rfl, ⟨.loop l b is :: inner, rfl, Blocked.enter rfl ?_⟩, ?_,
        fun q hq => nomatch hq⟩
      · cases hblocked with
        | header hout => exact absurd hskip hout
        | loop hb => exact .inl hb
        | later hi hrest => exact .inr ⟨hi, hrest⟩
      · simp only [Activation.left, movesOf, WasmInst.moves, Activation.place, framesLeft,
          List.map_cons, List.sum_cons, Frame.rest]
        omega
    · exact absurd hb (hbranch b is)
  · obtain ⟨rfl, rfl⟩ := List.cons.inj heq
    obtain ⟨hmem, p, hcalled, hp⟩ := quiet_call hS hc hquiet
    refine ⟨some p, ⟨f, is, ctx⟩, by rw [hcalled]; rfl, ⟨inner, hctx, ?_⟩, ?_,
      fun q hq => Option.some.inj hq ▸ hp⟩
    · cases hblocked with
      | call hout => exact absurd hmem hout
      | later _ hrest => exact hrest
    · simp [Activation.left, movesOf, WasmInst.moves]
  · obtain ⟨rfl, -⟩ := List.cons.inj heq
    obtain ⟨rfl, -⟩ := List.append_eq_nil_iff.mp hctx.symm
    cases hblocked

/-- A stretch without a checkpoint uses up the weight of the blocked place. -/
theorem blocked_run (hS : SimpleIn prog S) {most : ℕ} (hmost : ∀ f ∈ prog, movesOf f.insts ≤ most)
    {path : List Action} {top : Option Activation} (htop : ∀ p ∈ top, p.place.IsPlain)
    (ha : BlockedIn S skip base a)
    (hquiet : Run.Along (execStep prog) (Quiet S skip) (top.toList ++ a :: below) path)
    (hexec : Run.exec (execStep prog) (top.toList ++ a :: below) path = some t) :
    ∃ (top' : Option Activation) (a' : Activation), t = top'.toList ++ a' :: below ∧
      path.length + weight most 0 a' top' ≤ weight most 0 a top := by
  induction path generalizing top a with
  | nil =>
    obtain rfl := Option.some.inj hexec
    exact ⟨top, a, rfl, by simp⟩
  | cons act path ih =>
    obtain ⟨u, hu, hrest⟩ := Run.exec_cons_some hexec
    have hquiet' := hquiet.2 u hu
    cases top with
    | some p =>
      rcases plain_step (htop p rfl) hu with ⟨p', rfl, hplain, hleft⟩ | rfl
      · obtain ⟨top', a', rfl, hle⟩ := ih (plain_of_some hplain) ha hquiet' hrest
        refine ⟨top', a', rfl, ?_⟩
        simp only [weight, Option.elim_some, List.length_cons] at hle ⊢
        omega
      · obtain ⟨top', a', rfl, hle⟩ := ih plain_of_none ha hquiet' hrest
        refine ⟨top', a', rfl, ?_⟩
        simp only [weight, Option.elim_some, Option.elim_none, List.length_cons] at hle ⊢
        omega
    | none =>
      obtain ⟨called, b, rfl, hb, hleft, hcalled⟩ := blocked_step hS ha hquiet.1 hu
      obtain ⟨top', a', rfl, hle⟩ := ih (fun p hp => (hcalled p hp).isPlain) hb hquiet' hrest
      have hweight := weight_move 0 hleft fun p hp => (hcalled p hp).left_le hmost
      refine ⟨top', a', rfl, ?_⟩
      rw [List.length_cons]
      omega

theorem not_circles_of_blocked (hS : SimpleIn prog S)
    (hblocked : ∀ g ∈ prog, ∀ b, (l, b) ∈ loopsOf g.insts → g.funcIdx = f → Blocked S skip f b) :
    ¬Circles prog S skip f l := by
  rintro ⟨main, hmain, a, below, path, hreach, rfl, ⟨rest, ctx, hctx⟩, hne, hquiet, hexec⟩
  obtain ⟨g, hg, hidx, hat⟩ := placed_reaches hmain hreach a List.mem_cons_self
  have hloop : (l, a.code) ∈ loopsOf g.insts := by
    rw [hctx] at hat
    exact hat.header.loop_mem
  have ha : BlockedIn S skip a.ctx a := by
    refine ⟨[], rfl, ?_⟩
    rw [remaining, List.flatMap_nil, List.append_nil]
    exact hblocked g hg a.code hloop hidx
  obtain ⟨top, a', heq, hle⟩ := blocked_run hS (fun f hf => le_mostMoves hf) plain_of_none ha
    hquiet hexec
  cases top with
  | none =>
    obtain ⟨rfl, -⟩ := List.cons.inj heq
    have hpos := List.length_pos_iff.mpr hne
    omega
  | some p =>
    have hlen := congrArg List.length heq
    simp at hlen

/-- Where the reported loops qualify, in every execution of the program a checkpoint is at most
`latency prog` steps away for each function that is being executed. -/
theorem qualified_loops_stop (prog : WasmProgram Branch) (hnames : DistinctNames (forget prog))
    (hidx : ∀ f ∈ prog, f.funcIdx ≠ -1) (fuel : ℕ) (hfuel : 0 < fuel) :
    ∃ simple, simpleFuncPass fuel (forget prog) = some simple ∧
      let S := simple.toFinset
      let skip := loopCkptPass S (forget prog)
      (∀ f ∈ prog, ∀ l b, (l, b) ∈ loopsOf f.insts → (f.funcIdx, l) ∈ skip → Qualifies S b) →
        StopsWithin prog S skip (latency prog) := by
  have hpass := simpleFuncPass_eq (forget prog) hfuel
  have hdistinct := distinctNames_of_forget hnames
  have hS := simpleIn_simpleFuncPass hdistinct.funcs hidx hfuel hpass
  refine ⟨_, hpass, ?_⟩
  intro S skip hall
  refine stopsWithin_latency hS hdistinct fun f l hskip => ?_
  refine not_circles_of_blocked hS fun g hg b hb hgidx => ?_
  subst hgidx
  have hsub : loopsOf b ⊆ loopsOf g.insts :=
    (List.cons_subset.mp (loopsOf_sublist g.insts hb).subset).2
  exact blocked_of_qualifies hS.direct (hall g hg) hsub (hall g hg l b hb hskip)

/-- The loop of `callThenRepeat` qualifies, and 55 steps of the one function are enough. -/
theorem callThenRepeat_stops :
    ∃ simple, simpleFuncPass 1 (forget [callThenRepeat]) = some simple ∧
      StopsWithin [callThenRepeat] simple.toFinset
        (loopCkptPass simple.toFinset (forget [callThenRepeat])) 55 := by
  obtain ⟨simple, hpass, hstops⟩ := qualified_loops_stop [callThenRepeat]
    (distinctNames_singleton callThenRepeat (by decide)) (by decide) 1 Nat.one_pos
  refine ⟨simple, hpass, hstops fun f hf l b hb _ => ?_⟩
  rw [List.mem_singleton.mp hf] at hb
  obtain ⟨-, rfl⟩ : l = 0 ∧ b = [.call (-1), .branch (.brIf 0)] := by
    simpa [callThenRepeat, loopsOf, WasmInst.loops] using hb
  exact .callIndirect

end MVVM.Analysis
