import MVVM.Analysis.Executions
import Mathlib.Algebra.Order.BigOperators.Group.List
import Mathlib.Algebra.Order.Group.Nat

/-!
# How long a checkpoint can be waited for (wasm_static_analysis.py:293-470)

A thread is checkpointed where it comes to a checkpoint, and the two passes take checkpoints
away: those of the calls of simple functions, and those of the loops that are reported. What
is left has to stop every execution of the whole program before long.
-/

namespace MVVM.Analysis

/-! ### The places of a function -/

/-- The code that is ahead at a place of a function, and the labels around it. -/
inductive At (insts : Code) : Code → List Frame → Prop where
  | entry : At insts insts []
  | later {i : WasmInst Branch} {is : Code} {ctx : List Frame} :
      At insts (i :: is) ctx → At insts is ctx
  | block {b is : Code} {ctx : List Frame} :
      At insts (.block b :: is) ctx → At insts b (.block is :: ctx)
  | loop {l : ℤ} {b is : Code} {ctx : List Frame} :
      At insts (.loop l b :: is) ctx → At insts b (.loop l b is :: ctx)

/-- The instruction that has made a label. -/
def Frame.Opens : Frame → WasmInst Branch → Prop
  | .block _, i => ∃ b, i = .block b
  | .loop l b _, i => i = .loop l b

variable {insts code : Code} {ctx : List Frame}

theorem At.pop {frame : Frame} (h : At insts code (frame :: ctx)) :
    ∃ i, frame.Opens i ∧ At insts (i :: frame.rest) ctx := by
  generalize hc : frame :: ctx = c at h
  induction h with
  | entry => cases hc
  | later _ ih => exact ih hc
  | @block b is ctx' hblock _ =>
    obtain ⟨rfl, rfl⟩ := List.cons.inj hc
    exact ⟨.block b, ⟨b, rfl⟩, hblock⟩
  | @loop l b is ctx' hloop _ =>
    obtain ⟨rfl, rfl⟩ := List.cons.inj hc
    exact ⟨.loop l b, rfl, hloop⟩

theorem At.drop {depth : ℕ} {frame : Frame} {ctx' : List Frame} (h : At insts code ctx)
    (hdrop : ctx.drop depth = frame :: ctx') :
    ∃ i, frame.Opens i ∧ At insts (i :: frame.rest) ctx' := by
  induction depth generalizing code ctx with
  | zero =>
    rw [List.drop_zero] at hdrop
    subst hdrop
    exact h.pop
  | succ depth ih =>
    cases ctx with
    | nil => cases hdrop
    | cons f ctx =>
      obtain ⟨i, -, hi⟩ := h.pop
      exact ih hi hdrop

theorem At.nil (h : At insts code ctx) : At insts [] ctx := by
  induction code with
  | nil => exact h
  | cons i is ih => exact ih h.later

theorem At.header {l : ℤ} {b is : Code} (h : At insts code (.loop l b is :: ctx)) :
    At insts (.loop l b :: is) ctx := by
  obtain ⟨i, rfl, hi⟩ := h.pop
  exact hi

theorem At.jump {p t : Place} {depth : ℕ} (hp : At insts p.code p.ctx)
    (h : p.jump depth = some t) : At insts t.code t.ctx := by
  rcases jump_cases h with ⟨rest, ctx, he, rfl⟩ | ⟨l, body, rest, ctx, he, rfl⟩ | ⟨-, rfl⟩
  · obtain ⟨i, -, hi⟩ := hp.drop he
    exact hi.later
  · obtain ⟨i, rfl, hi⟩ := hp.drop he
    exact hi.loop
  · exact At.nil .entry

theorem At.step {p t : Place} {m : Move} (hp : At insts p.code p.ctx) (h : step p m = some t) :
    At insts t.code t.ctx := by
  rcases step_cases h with ⟨frame, ctx, -, hctx, rfl⟩ | ⟨b, is, hcode, -, rfl⟩ |
    ⟨x, is, hcode, rfl⟩ | ⟨c, is, hcode, rfl⟩ | ⟨insts', is, hcode, rfl⟩ |
    ⟨l, insts', is, hcode, rfl⟩ | ⟨-, -, depth, -, -, -, hjump⟩
  · rw [hctx] at hp
    obtain ⟨i, -, hi⟩ := hp.pop
    exact hi.later
  · exact At.later (hcode ▸ hp)
  · exact At.later (hcode ▸ hp)
  · exact At.later (hcode ▸ hp)
  · exact At.block (hcode ▸ hp)
  · exact At.loop (hcode ▸ hp)
  · exact hp.jump hjump

/-- No place has more ahead of it than the function has. -/
theorem At.left_le (h : At insts code ctx) : movesOf code + framesLeft ctx ≤ movesOf insts := by
  induction h with
  | entry => simp [framesLeft]
  | later _ ih =>
    rw [movesOf] at ih
    omega
  | block _ ih | loop _ ih =>
    simp only [movesOf, WasmInst.moves] at ih
    simp only [framesLeft, List.map_cons, List.sum_cons, Frame.rest] at ih ⊢
    omega

/-! ### A loop has one header -/

mutual

/-- The loops with their bodies and the labels there. -/
def WasmInst.headers (is : Code) (ctx : List Frame) :
    WasmInst Branch → List (ℤ × Code × List Frame)
  | .branch _ => []
  | .call _ => []
  | .set _ => []
  | .block b => headersOf (.block is :: ctx) b
  | .loop l b => (l, b, .loop l b is :: ctx) :: headersOf (.loop l b is :: ctx) b

def headersOf (ctx : List Frame) : Code → List (ℤ × Code × List Frame)
  | [] => []
  | i :: is => i.headers is ctx ++ headersOf ctx is

end

mutual

theorem WasmInst.headers_loops (is : Code) (ctx : List Frame) :
    (i : WasmInst Branch) → (i.headers is ctx).map (fun h => (h.1, h.2.1)) = i.loops
  | .branch _ => rfl
  | .call _ => rfl
  | .set _ => rfl
  | .block b => headersOf_loops (.block is :: ctx) b
  | .loop l b => congrArg (List.cons (l, b)) (headersOf_loops (.loop l b is :: ctx) b)

theorem headersOf_loops (ctx : List Frame) :
    (is : Code) → (headersOf ctx is).map (fun h => (h.1, h.2.1)) = loopsOf is
  | [] => rfl
  | i :: is => by
    rw [headersOf, loopsOf, List.map_append, i.headers_loops is ctx, headersOf_loops ctx is]

end

theorem At.headers_subset (h : At insts code ctx) : headersOf ctx code ⊆ headersOf [] insts := by
  induction h with
  | entry => exact List.Subset.refl _
  | later _ ih =>
    rw [headersOf] at ih
    exact (List.append_subset.mp ih).2
  | block _ ih =>
    rw [headersOf] at ih
    exact (List.append_subset.mp ih).1
  | loop _ ih =>
    rw [headersOf, WasmInst.headers] at ih
    exact (List.cons_subset.mp (List.append_subset.mp ih).1).2

theorem At.header_mem {l : ℤ} {b is : Code} (h : At insts (.loop l b :: is) ctx) :
    (l, b, .loop l b is :: ctx) ∈ headersOf [] insts :=
  h.headers_subset List.mem_cons_self

theorem At.loop_mem {l : ℤ} {b is : Code} (h : At insts (.loop l b :: is) ctx) :
    (l, b) ∈ loopsOf insts := by
  rw [← headersOf_loops []]
  exact List.mem_map.mpr ⟨_, h.header_mem, rfl⟩

theorem At.header_unique (hnames : ((loopsOf insts).map Prod.fst).Nodup) {l : ℤ}
    {b b' is is' : Code} {ctx' : List Frame} (h : At insts (.loop l b :: is) ctx)
    (h' : At insts (.loop l b' :: is') ctx') :
    b = b' ∧ Frame.loop l b is :: ctx = .loop l b' is' :: ctx' := by
  have hnodup : ((headersOf [] insts).map Prod.fst).Nodup := by
    rwa [← headersOf_loops [], List.map_map] at hnames
  have heq := List.inj_on_of_nodup_map hnodup h.header_mem h'.header_mem rfl
  exact ⟨(Prod.ext_iff.mp (Prod.ext_iff.mp heq).2).1, (Prod.ext_iff.mp (Prod.ext_iff.mp heq).2).2⟩

/-! ### Executions -/

/-- A function that is being executed. -/
structure Activation where
  func : ℤ
  code : Code
  ctx : List Frame

def Activation.place (a : Activation) : Place := ⟨a.code, a.ctx, []⟩

def WasmFunction.enter (f : WasmFunction Branch) : Activation := ⟨f.funcIdx, f.insts, []⟩

/-- A function that is not in the program is the host's, which returns. -/
def called (prog : WasmProgram Branch) (calleeIdx : ℤ) : List Activation :=
  ((prog.find? fun f => f.funcIdx = calleeIdx).map WasmFunction.enter).toList

/-- A step of the innermost function; a `call_indirect` may call anything. -/
def execStep (prog : WasmProgram Branch) : List Activation → Action → Option (List Activation)
  | a :: below, .move m =>
    match a.code with
    | .call _ :: _ => none
    | _ => (step a.place m).map fun t => ⟨a.func, t.code, t.ctx⟩ :: below
  | ⟨f, .call c :: is, ctx⟩ :: below, .call calleeIdx =>
    if c = calleeIdx ∨ c = -1 then some (called prog calleeIdx ++ ⟨f, is, ctx⟩ :: below) else none
  | ⟨_, [], []⟩ :: below, .finish => some below
  | _, _ => none

/-- The calls and headers that a step passes, with the function they are in. -/
def events : List Activation → Action → List (ℤ × Event)
  | a :: _, .move m => ((step a.place m).map fun t => t.trace.map (Prod.mk a.func)).getD []
  | ⟨f, .call c :: _, _⟩ :: _, .call _ => [(f, .call c)]
  | _, _ => []

/-- The step passes no checkpoint. -/
def Quiet (S : Finset ℤ) (skip : List (ℤ × ℤ)) (s : List Activation) (a : Action) : Prop :=
  ∀ e ∈ events s a, e.2.isCkpt S skip e.1 = false

instance (S : Finset ℤ) (skip : List (ℤ × ℤ)) (s : List Activation) (a : Action) :
    Decidable (Quiet S skip s a) := by unfold Quiet; infer_instance

def Activation.AtHeader (a : Activation) (l : ℤ) : Prop :=
  ∃ rest ctx, a.ctx = .loop l a.code rest :: ctx

/-- The program comes to the header of the loop, and, without a checkpoint, back to it. -/
def Circles (prog : WasmProgram Branch) (S : Finset ℤ) (skip : List (ℤ × ℤ)) (f l : ℤ) : Prop :=
  ∃ main ∈ prog, ∃ a below path, Run.Reaches (execStep prog) [main.enter] (a :: below) ∧
    a.func = f ∧ a.AtHeader l ∧ path ≠ [] ∧
    Run.Along (execStep prog) (Quiet S skip) (a :: below) path ∧
    Run.exec (execStep prog) (a :: below) path = some (a :: below)

variable {prog : WasmProgram Branch} {S : Finset ℤ} {skip : List (ℤ × ℤ)}

theorem exec_cases {s t : List Activation} {act : Action} (h : execStep prog s act = some t) :
    (∃ a below m p, s = a :: below ∧ act = .move m ∧ (∀ c is, a.code ≠ .call c :: is) ∧
      step a.place m = some p ∧ t = ⟨a.func, p.code, p.ctx⟩ :: below) ∨
    (∃ f c is ctx below calleeIdx, s = ⟨f, .call c :: is, ctx⟩ :: below ∧ act = .call calleeIdx ∧
      (c = calleeIdx ∨ c = -1) ∧ t = called prog calleeIdx ++ ⟨f, is, ctx⟩ :: below) ∨
    (∃ f, s = ⟨f, [], []⟩ :: t ∧ act = .finish) := by
  unfold execStep at h
  split at h
  · next a below m =>
    split at h
    · cases h
    · next hcode =>
      obtain ⟨p, hp, rfl⟩ := Option.map_eq_some_iff.mp h
      exact .inl ⟨a, below, m, p, rfl, rfl, hcode, hp, rfl⟩
  · next f c is ctx below calleeIdx =>
    split at h
    · next hc => exact .inr (.inl ⟨f, c, is, ctx, below, calleeIdx, rfl, rfl, hc,
        (Option.some.inj h).symm⟩)
    · cases h
  · next f below =>
    obtain rfl := Option.some.inj h
    exact .inr (.inr ⟨f, rfl, rfl⟩)
  · cases h

/-- A move comes to the header of a loop, or makes what is ahead smaller. -/
theorem move_cases {a : Activation} {m : Move} {p : Place} (h : step a.place m = some p)
    (hcall : ∀ c is, a.code ≠ .call c :: is) :
    (p.trace = [] ∧ movesOf p.code + framesLeft p.ctx < movesOf a.code + framesLeft a.ctx) ∨
    ∃ l rest ctx, p.ctx = .loop l p.code rest :: ctx ∧ p.trace = [.header l] := by
  obtain ⟨f, code, ctx⟩ := a
  rcases step_cases h with ⟨frame, ctx', hcode, hctx, rfl⟩ | ⟨b, is, hcode, -, rfl⟩ |
    ⟨x, is, hcode, rfl⟩ | ⟨c, is, hcode, rfl⟩ | ⟨insts, is, hcode, rfl⟩ |
    ⟨l, insts, is, hcode, rfl⟩ | ⟨b, is, depth, hcode, -, rfl, hjump⟩
  · refine .inl ⟨rfl, ?_⟩
    obtain rfl : ctx = frame :: ctx' := hctx
    simp only [framesLeft, List.map_cons, List.sum_cons]
    omega
  · refine .inl ⟨rfl, ?_⟩
    obtain rfl : code = .branch b :: is := hcode
    simp [movesOf, WasmInst.moves, Activation.place]
  · refine .inl ⟨rfl, ?_⟩
    obtain rfl : code = .set x :: is := hcode
    simp [movesOf, WasmInst.moves, Activation.place]
  · exact absurd hcode (hcall c is)
  · refine .inl ⟨rfl, ?_⟩
    obtain rfl : code = .block insts :: is := hcode
    simp only [movesOf, WasmInst.moves, framesLeft, List.map_cons, List.sum_cons, Frame.rest,
      Activation.place]
    omega
  · exact .inr ⟨l, is, ctx, rfl, rfl⟩
  · obtain rfl : code = .branch b :: is := hcode
    have hdrop := framesLeft_drop ctx depth
    rcases jump_cases hjump with ⟨rest, ctx', he, rfl⟩ | ⟨l, body, rest, ctx', he, rfl⟩ | ⟨-, rfl⟩
    · refine .inl ⟨rfl, ?_⟩
      rw [show ctx.drop depth = .block rest :: ctx' from he] at hdrop
      simp only [framesLeft, List.map_cons, List.sum_cons, Frame.rest] at hdrop ⊢
      omega
    · exact .inr ⟨l, rest, ctx', rfl, rfl⟩
    · refine .inl ⟨rfl, ?_⟩
      simp only [movesOf, WasmInst.moves, framesLeft, List.map_nil, List.sum_nil]
      omega

/-- All functions that are being executed stand at a place of a function of the program. -/
def Placed (prog : WasmProgram Branch) (s : List Activation) : Prop :=
  ∀ a ∈ s, ∃ f ∈ prog, f.funcIdx = a.func ∧ At f.insts a.code a.ctx

theorem mem_called {calleeIdx : ℤ} {a : Activation} (h : a ∈ called prog calleeIdx) :
    ∃ f ∈ prog, f.funcIdx = calleeIdx ∧ a = f.enter := by
  rw [called, Option.mem_toList] at h
  obtain ⟨f, hf, rfl⟩ := Option.map_eq_some_iff.mp h
  exact ⟨f, List.mem_of_find?_eq_some hf, by simpa using List.find?_some hf, rfl⟩

theorem placed_enter {f : WasmFunction Branch} (hf : f ∈ prog) : Placed prog [f.enter] := by
  intro a ha
  rw [List.mem_singleton.mp ha]
  exact ⟨f, hf, rfl, .entry⟩

theorem placed_step {s t : List Activation} {act : Action} (hs : Placed prog s)
    (h : execStep prog s act = some t) : Placed prog t := by
  rcases exec_cases h with ⟨a, below, m, p, rfl, -, -, hp, rfl⟩ |
    ⟨f, c, is, ctx, below, calleeIdx, rfl, -, -, rfl⟩ | ⟨f, rfl, -⟩
  · obtain ⟨⟨g, hg, hidx, hat⟩, hbelow⟩ := List.forall_mem_cons.mp hs
    exact List.forall_mem_cons.mpr ⟨⟨g, hg, hidx, At.step (p := a.place) hat hp⟩, hbelow⟩
  · obtain ⟨⟨g, hg, hidx, hat⟩, hbelow⟩ := List.forall_mem_cons.mp hs
    intro b hb
    rcases List.mem_append.mp hb with hb | hb
    · obtain ⟨g', hg', -, rfl⟩ := mem_called hb
      exact ⟨g', hg', rfl, .entry⟩
    · rcases List.mem_cons.mp hb with rfl | hb
      · exact ⟨g, hg, hidx, hat.later⟩
      · exact hbelow b hb
  · exact (List.forall_mem_cons.mp hs).2

theorem placed_reaches {f : WasmFunction Branch} (hf : f ∈ prog) {s : List Activation}
    (h : Run.Reaches (execStep prog) [f.enter] s) : Placed prog s :=
  h.invariant _ (fun _ _ _ hs hst => placed_step hs hst) (placed_enter hf)

/-! ### The steps without a checkpoint -/

def Activation.left (a : Activation) : ℕ := movesOf a.code + framesLeft a.ctx

/-- The functions whose calls are no checkpoints are functions of the program without loops
and calls. -/
structure SimpleIn (prog : WasmProgram Branch) (S : Finset ℤ) : Prop where
  found : ∀ c ∈ S, ∃ f ∈ prog, f.funcIdx = c
  plain : ∀ f ∈ prog, f.funcIdx ∈ S → allPlain f.insts = true
  direct : -1 ∉ S

/-- The beginning of a simple function. -/
def Activation.JustCalled (prog : WasmProgram Branch) (p : Activation) : Prop :=
  ∃ f ∈ prog, p = f.enter ∧ allPlain f.insts = true

theorem Activation.JustCalled.isPlain {p : Activation} (h : p.JustCalled prog) :
    p.place.IsPlain := by
  obtain ⟨f, -, rfl, hplain⟩ := h
  exact ⟨hplain, fun frame hframe => absurd hframe List.not_mem_nil⟩

theorem called_simple (hS : SimpleIn prog S) {c : ℤ} (hc : c ∈ S) :
    ∃ p, called prog c = [p] ∧ p.JustCalled prog := by
  obtain ⟨f, hf, hidx⟩ := hS.found c hc
  have hsome : (prog.find? fun f => f.funcIdx = c).isSome :=
    List.find?_isSome.mpr ⟨f, hf, by simpa using hidx⟩
  obtain ⟨g, hg⟩ := Option.isSome_iff_exists.mp hsome
  have hgidx : g.funcIdx = c := by simpa using List.find?_some hg
  have hgmem := List.mem_of_find?_eq_some hg
  exact ⟨g.enter, by rw [called, hg]; rfl, g, hgmem, rfl, hS.plain g hgmem (hgidx ▸ hc)⟩

/-- A simple function that was called goes on, or it is left. -/
theorem plain_step {p a : Activation} {below t : List Activation} {act : Action}
    (hp : p.place.IsPlain) (h : execStep prog (p :: a :: below) act = some t) :
    (∃ p' : Activation, t = p' :: a :: below ∧ p'.place.IsPlain ∧ p'.left < p.left) ∨
      t = a :: below := by
  rcases exec_cases h with ⟨b, below', m, q, heq, -, -, hq, rfl⟩ |
    ⟨f, c, is, ctx, below', calleeIdx, heq, -, -, -⟩ | ⟨f, heq, -⟩
  · obtain ⟨rfl, rfl⟩ := List.cons.inj heq
    obtain ⟨hplain, -, hleft⟩ := outcome_plain hp (outcome_of_step hq)
    exact .inl ⟨⟨p.func, q.code, q.ctx⟩, rfl, ⟨hplain.code, hplain.ctx⟩, hleft⟩
  · obtain ⟨rfl, -⟩ := List.cons.inj heq
    cases hp.code
  · exact .inr (List.cons.inj heq).2.symm

/-- A call that is no checkpoint is one of a simple function. -/
theorem quiet_call (hS : SimpleIn prog S) {f c calleeIdx : ℤ} {is : Code} {ctx : List Frame}
    {below : List Activation} (hc : c = calleeIdx ∨ c = -1)
    (hquiet : Quiet S skip (⟨f, .call c :: is, ctx⟩ :: below) (.call calleeIdx)) :
    c ∈ S ∧ ∃ p, called prog calleeIdx = [p] ∧ p.JustCalled prog := by
  have hev := hquiet (f, .call c) (by simp [events])
  have hmem : c ∈ S := by simpa [Event.isCkpt] using hev
  rcases hc with rfl | rfl
  · exact ⟨hmem, called_simple hS hmem⟩
  · exact absurd hmem hS.direct

/-- What the function `fn` does, with `below` under it: it makes a move or a simple call, it
comes to the header of a loop that is reported, or it is left. -/
theorem quiet_step (hS : SimpleIn prog S) {fn : WasmFunction Branch} {a : Activation}
    {below t : List Activation} {act : Action} (hat : At fn.insts a.code a.ctx)
    (hquiet : Quiet S skip (a :: below) act) (h : execStep prog (a :: below) act = some t) :
    (∃ (top : Option Activation) (a' : Activation), t = top.toList ++ a' :: below ∧
      a'.func = a.func ∧ At fn.insts a'.code a'.ctx ∧ a'.left < a.left ∧
      ∀ p ∈ top, p.JustCalled prog) ∨
    (∃ a' l, t = a' :: below ∧ a'.func = a.func ∧ At fn.insts a'.code a'.ctx ∧ a'.AtHeader l ∧
      (a.func, l) ∈ skip) ∨
    t = below := by
  rcases exec_cases h with ⟨b, below', m, p, heq, rfl, hcode, hp, rfl⟩ |
    ⟨f, c, is, ctx, below', calleeIdx, heq, rfl, hc, rfl⟩ | ⟨f, heq, -⟩
  · obtain ⟨rfl, rfl⟩ := List.cons.inj heq
    have hat' : At fn.insts p.code p.ctx := At.step (p := a.place) hat hp
    rcases move_cases hp hcode with ⟨-, hleft⟩ | ⟨l, rest, ctx, hctx, htrace⟩
    · exact .inl ⟨none, _, rfl, rfl, hat', hleft, fun q hq => nomatch hq⟩
    · refine .inr (.inl ⟨_, l, rfl, rfl, hat', ⟨rest, ctx, hctx⟩, ?_⟩)
      have hev := hquiet (a.func, .header l) (by simp [events, hp, htrace])
      simpa [Event.isCkpt] using hev
  · obtain ⟨rfl, rfl⟩ := List.cons.inj heq
    obtain ⟨-, p, hcalled, hp⟩ := quiet_call hS hc hquiet
    refine .inl ⟨some p, ⟨f, is, ctx⟩, by rw [hcalled]; rfl, rfl, hat.later, ?_,
      fun q hq => Option.some.inj hq ▸ hp⟩
    simp [Activation.left, movesOf, WasmInst.moves]
  · exact .inr (.inr (List.cons.inj heq).2.symm)

/-! ### One function -/

/-- The headers of `fn` that the stretch without a checkpoint has come to: from each of them
it has come here. -/
structure Visited (prog : WasmProgram Branch) (S : Finset ℤ) (skip : List (ℤ × ℤ))
    (main fn : WasmFunction Branch) (below : List Activation) (visited : List ℤ)
    (s : List Activation) : Prop where
  nodup : visited.Nodup
  loops : visited ⊆ (loopsOf fn.insts).map Prod.fst
  back : ∀ l ∈ visited, ∃ a path, a.func = fn.funcIdx ∧ a.AtHeader l ∧ At fn.insts a.code a.ctx ∧
    Run.Reaches (execStep prog) [main.enter] (a :: below) ∧
    Run.Along (execStep prog) (Quiet S skip) (a :: below) path ∧
    Run.exec (execStep prog) (a :: below) path = some s

variable {main fn : WasmFunction Branch} {below : List Activation} {visited : List ℤ}

theorem Visited.next {s t : List Activation} {act : Action}
    (h : Visited prog S skip main fn below visited s) (hquiet : Quiet S skip s act)
    (hst : execStep prog s act = some t) : Visited prog S skip main fn below visited t where
  nodup := h.nodup
  loops := h.loops
  back l hl := by
    obtain ⟨a, path, hfunc, hhead, hat, hreach, hpath, hexec⟩ := h.back l hl
    refine ⟨a, path ++ [act], hfunc, hhead, hat, hreach, Run.along_append.mpr ⟨hpath, ?_⟩, ?_⟩
    · intro u hu
      obtain rfl := Option.some.inj (hexec.symm.trans hu)
      exact Run.Along.cons hquiet hst trivial
    · rw [Run.exec_append, hexec, Option.bind_some, Run.exec_cons, hst]
      rfl

theorem atHeader_unique (hnames : ((loopsOf fn.insts).map Prod.fst).Nodup) {a a' : Activation}
    (hfunc : a.func = a'.func) {l : ℤ} (h : a.AtHeader l) (h' : a'.AtHeader l)
    (hat : At fn.insts a.code a.ctx) (hat' : At fn.insts a'.code a'.ctx) : a = a' := by
  obtain ⟨f, code, ctx⟩ := a
  obtain ⟨f', code', ctx'⟩ := a'
  obtain ⟨rest, out, rfl⟩ : ∃ rest out, ctx = .loop l code rest :: out := h
  obtain ⟨rest', out', rfl⟩ : ∃ rest out, ctx' = .loop l code' rest :: out := h'
  obtain rfl : f = f' := hfunc
  obtain ⟨rfl, hctx⟩ := At.header_unique hnames hat.header hat'.header
  rw [hctx]

theorem loop_of_atHeader {a : Activation} {l : ℤ} (h : a.AtHeader l)
    (hat : At fn.insts a.code a.ctx) : l ∈ (loopsOf fn.insts).map Prod.fst := by
  obtain ⟨rest, ctx, hctx⟩ := h
  rw [hctx] at hat
  exact List.mem_map.mpr ⟨_, hat.header.loop_mem, rfl⟩

/-- Where no reported loop circles, the stretch comes to each header once. -/
theorem Visited.arrive (hmain : main ∈ prog) (hno : ∀ f l, (f, l) ∈ skip → ¬Circles prog S skip f l)
    (hnames : ((loopsOf fn.insts).map Prod.fst).Nodup) {s : List Activation} {act : Action}
    (h : Visited prog S skip main fn below visited s) (hquiet : Quiet S skip s act)
    {a : Activation} {l : ℤ} (hst : execStep prog s act = some (a :: below))
    (hfunc : a.func = fn.funcIdx) (hat : At fn.insts a.code a.ctx) (hhead : a.AtHeader l)
    (hskip : (fn.funcIdx, l) ∈ skip)
    (hreach : Run.Reaches (execStep prog) [main.enter] (a :: below)) :
    Visited prog S skip main fn below (l :: visited) (a :: below) := by
  have hnext := h.next hquiet hst
  have hfresh : l ∉ visited := by
    intro hl
    obtain ⟨b, path, hbfunc, hbhead, hbat, -, hpath, hexec⟩ := h.back l hl
    obtain rfl : b = a := atHeader_unique hnames (hbfunc.trans hfunc.symm) hbhead hhead hbat hat
    refine hno fn.funcIdx l hskip ⟨main, hmain, b, below, path ++ [act], hreach, hfunc, hhead,
      by simp, Run.along_append.mpr ⟨hpath, ?_⟩, ?_⟩
    · intro u hu
      obtain rfl := Option.some.inj (hexec.symm.trans hu)
      exact Run.Along.cons hquiet hst trivial
    · rw [Run.exec_append, hexec, Option.bind_some, Run.exec_cons, hst]
      rfl
  refine ⟨List.nodup_cons.mpr ⟨hfresh, h.nodup⟩,
    List.cons_subset.mpr ⟨loop_of_atHeader hhead hat, h.loops⟩, ?_⟩
  intro l' hl'
  rcases List.mem_cons.mp hl' with rfl | hl'
  · exact ⟨a, [], hfunc, hhead, hat, hreach, trivial, rfl⟩
  · exact hnext.back l' hl'

/-- A weight that each step without a checkpoint makes smaller: `loops` headers are still to
come, and a step of the function may be a call that takes `most + 1` steps. -/
def weight (most loops : ℕ) (a : Activation) (top : Option Activation) : ℕ :=
  (loops * (most + 1) + a.left) * (most + 2) + top.elim 0 fun p => p.left + 1

theorem weight_move {most : ℕ} (loops : ℕ) {a a' : Activation} (h : a'.left < a.left)
    {top : Option Activation} (htop : ∀ p ∈ top, p.left ≤ most) :
    weight most loops a' top < weight most loops a none := by
  have hmul := Nat.mul_le_mul_right (most + 2)
    (show loops * (most + 1) + a'.left + 1 ≤ loops * (most + 1) + a.left by omega)
  rw [Nat.add_mul, Nat.one_mul] at hmul
  cases top with
  | none =>
    simp only [weight, Option.elim_none]
    omega
  | some p =>
    have hp := htop p rfl
    simp only [weight, Option.elim_none, Option.elim_some]
    omega

theorem weight_header {most : ℕ} (loops : ℕ) {a a' : Activation} (h : a'.left ≤ most) :
    weight most loops a' none < weight most (loops + 1) a none := by
  have hmul := Nat.mul_le_mul_right (most + 2)
    (show loops * (most + 1) + a'.left + 1 ≤ (loops + 1) * (most + 1) + a.left by
      rw [Nat.add_mul]
      omega)
  rw [Nat.add_mul _ 1, Nat.one_mul] at hmul
  simp only [weight, Option.elim_none]
  omega

theorem Activation.JustCalled.left_le {p : Activation} (h : p.JustCalled prog) {most : ℕ}
    (hmost : ∀ f ∈ prog, movesOf f.insts ≤ most) : p.left ≤ most := by
  obtain ⟨f, hf, rfl, -⟩ := h
  exact hmost f hf

theorem plain_of_some {p : Activation} (h : p.place.IsPlain) : ∀ q ∈ some p, q.place.IsPlain := by
  rintro q ⟨⟩
  exact h

theorem plain_of_none : ∀ q ∈ (none : Option Activation), q.place.IsPlain := by
  rintro q ⟨⟩

theorem visited_length_le (h : visited.Nodup) (hsub : visited ⊆ (loopsOf fn.insts).map Prod.fst) :
    visited.length ≤ (loopsOf fn.insts).length := by
  have hle := (List.subperm_of_subset h hsub).length_le
  rwa [List.length_map] at hle

/-- While `fn` or a simple function that it has called is executed, the stretch is bounded by
the weight, and behind it by what bounds the stretches from `below`. -/
theorem own_length_le (hS : SimpleIn prog S) (hmain : main ∈ prog) (hfn : fn ∈ prog)
    (hno : ∀ f l, (f, l) ∈ skip → ¬Circles prog S skip f l)
    (hnames : ((loopsOf fn.insts).map Prod.fst).Nodup) {most rest : ℕ}
    (hmost : ∀ f ∈ prog, movesOf f.insts ≤ most)
    (hbelow : ∀ path t, Run.Reaches (execStep prog) [main.enter] below →
      Run.Along (execStep prog) (Quiet S skip) below path →
      Run.exec (execStep prog) below path = some t → path.length ≤ rest)
    {path : List Action} {top : Option Activation} {a : Activation} {t : List Activation}
    (htop : ∀ p ∈ top, p.place.IsPlain) (hfunc : a.func = fn.funcIdx)
    (hat : At fn.insts a.code a.ctx)
    (hreach : Run.Reaches (execStep prog) [main.enter] (top.toList ++ a :: below))
    (hvisited : Visited prog S skip main fn below visited (top.toList ++ a :: below))
    (hquiet : Run.Along (execStep prog) (Quiet S skip) (top.toList ++ a :: below) path)
    (hexec : Run.exec (execStep prog) (top.toList ++ a :: below) path = some t) :
    path.length ≤ weight most ((loopsOf fn.insts).length - visited.length) a top + 1 + rest := by
  induction path generalizing top a visited with
  | nil => simp
  | cons act path ih =>
    obtain ⟨u, hu, hrest⟩ := Run.exec_cons_some hexec
    have hreach' := hreach.trans (Run.Reaches.single act hu)
    have hvisited' := hvisited.next hquiet.1 hu
    have hquiet' := hquiet.2 u hu
    cases top with
    | some p =>
      rcases plain_step (htop p rfl) hu with ⟨p', rfl, hplain, hleft⟩ | rfl
      · have hle := ih (plain_of_some hplain) hfunc hat hreach' hvisited' hquiet' hrest
        simp only [weight, Option.elim_some, List.length_cons] at hle ⊢
        omega
      · have hle := ih plain_of_none hfunc hat hreach' hvisited' hquiet' hrest
        simp only [weight, Option.elim_some, Option.elim_none, List.length_cons] at hle ⊢
        omega
    | none =>
      rcases quiet_step hS hat hquiet.1 hu with ⟨top, a', rfl, hfunc', hat', hleft, hcalled⟩ |
        ⟨a', l, rfl, hfunc', hat', hhead, hskip⟩ | rfl
      · have hle := ih (fun p hp => (hcalled p hp).isPlain) (hfunc'.trans hfunc) hat' hreach'
          hvisited' hquiet' hrest
        have hweight := weight_move ((loopsOf fn.insts).length - visited.length) hleft
          fun p hp => (hcalled p hp).left_le hmost
        rw [List.length_cons]
        omega
      · have harrive := hvisited.arrive hmain hno hnames hquiet.1 hu (hfunc'.trans hfunc) hat'
          hhead (hfunc ▸ hskip) hreach'
        have hle := ih plain_of_none (hfunc'.trans hfunc) hat' hreach' harrive hquiet' hrest
        have hcount := visited_length_le harrive.nodup harrive.loops
        rw [List.length_cons] at hcount hle
        have hsub : (loopsOf fn.insts).length - visited.length =
            (loopsOf fn.insts).length - (visited.length + 1) + 1 := by omega
        have hweight := weight_header ((loopsOf fn.insts).length - (visited.length + 1))
          (a := a) (hat'.left_le.trans (hmost fn hfn))
        rw [hsub, List.length_cons]
        omega
      · have hle := hbelow path t hreach' hquiet' hrest
        rw [List.length_cons]
        omega

/-! ### All functions -/

def mostMoves (prog : WasmProgram Branch) : ℕ := (prog.map fun f => movesOf f.insts).sum

def loopCount (prog : WasmProgram Branch) : ℕ := (prog.map fun f => (loopsOf f.insts).length).sum

/-- The bound for one function that is being executed. -/
def latency (prog : WasmProgram Branch) : ℕ :=
  (loopCount prog * (mostMoves prog + 1) + mostMoves prog) * (mostMoves prog + 2) + 1

/-- In all executions of the program, the stretches without a checkpoint have at most `bound`
steps for each function that is being executed when they begin. -/
def StopsWithin (prog : WasmProgram Branch) (S : Finset ℤ) (skip : List (ℤ × ℤ)) (bound : ℕ) :
    Prop :=
  ∀ main ∈ prog, ∀ s t path, Run.Reaches (execStep prog) [main.enter] s →
    Run.Along (execStep prog) (Quiet S skip) s path →
    Run.exec (execStep prog) s path = some t → path.length ≤ bound * s.length

theorem le_mostMoves {f : WasmFunction Branch} (hf : f ∈ prog) :
    movesOf f.insts ≤ mostMoves prog :=
  List.le_sum_of_mem (List.mem_map.mpr ⟨f, hf, rfl⟩)

theorem le_loopCount {f : WasmFunction Branch} (hf : f ∈ prog) :
    (loopsOf f.insts).length ≤ loopCount prog :=
  List.le_sum_of_mem (List.mem_map.mpr ⟨f, hf, rfl⟩)

theorem weight_le_latency {f : WasmFunction Branch} (hf : f ∈ prog) {a : Activation}
    (hat : At f.insts a.code a.ctx) :
    weight (mostMoves prog) (loopsOf f.insts).length a none + 1 ≤ latency prog := by
  have hleft : a.left ≤ mostMoves prog := hat.left_le.trans (le_mostMoves hf)
  have hloops := Nat.mul_le_mul_right (mostMoves prog + 1) (le_loopCount hf)
  rw [weight, latency, Option.elim_none, Nat.add_zero]
  exact Nat.add_le_add_right (Nat.mul_le_mul_right _ (Nat.add_le_add hloops hleft)) 1

theorem stopsWithin_latency (hS : SimpleIn prog S) (hnames : DistinctNames prog)
    (hno : ∀ f l, (f, l) ∈ skip → ¬Circles prog S skip f l) :
    StopsWithin prog S skip (latency prog) := by
  intro main hmain s
  induction s with
  | nil =>
    intro t path _ _ hexec
    cases path with
    | nil => simp
    | cons act path =>
      obtain ⟨u, hu, -⟩ := Run.exec_cons_some hexec
      cases hu
  | cons a below ih =>
    intro t path hreach hquiet hexec
    obtain ⟨fn, hfn, hidx, hat⟩ := placed_reaches hmain hreach a List.mem_cons_self
    have hvisited : Visited prog S skip main fn below [] (a :: below) :=
      ⟨List.nodup_nil, List.nil_subset _, fun l hl => absurd hl List.not_mem_nil⟩
    have hle := own_length_le hS hmain hfn hno (hnames.loops fn hfn)
      (fun f hf => le_mostMoves hf) (fun path t => ih t path) plain_of_none hidx.symm hat hreach
      hvisited hquiet hexec
    have hweight := weight_le_latency hfn hat
    rw [List.length_nil, Nat.sub_zero] at hle
    rw [List.length_cons, Nat.mul_add, Nat.mul_one]
    omega

theorem not_circles_of_stopsWithin {bound : ℕ} (h : StopsWithin prog S skip bound) (f l : ℤ) :
    ¬Circles prog S skip f l := by
  rintro ⟨main, hmain, a, below, path, hreach, -, -, hne, hquiet, hexec⟩
  have hle := h main hmain (a :: below) (a :: below)
    (List.replicate (bound * (a :: below).length + 1) path).flatten hreach
    (hquiet.replicate hexec _) (Run.exec_replicate hexec _)
  have hlen : 1 ≤ path.length := List.length_pos_iff.mpr hne
  rw [List.length_flatten, List.map_replicate, List.sum_replicate_nat] at hle
  have hmul := Nat.mul_le_mul_left (bound * (a :: below).length + 1) hlen
  omega

theorem stopsWithin_iff (hS : SimpleIn prog S) (hnames : DistinctNames prog) :
    (∃ bound, StopsWithin prog S skip bound) ↔
      ∀ f l, (f, l) ∈ skip → ¬Circles prog S skip f l :=
  ⟨fun ⟨_, h⟩ f l _ => not_circles_of_stopsWithin h f l,
    fun hno => ⟨_, stopsWithin_latency hS hnames hno⟩⟩

theorem simpleIn_simpleFuncPass (hnames : (prog.map WasmFunction.funcIdx).Nodup)
    (hidx : ∀ f ∈ prog, f.funcIdx ≠ -1) {fuel : ℕ} (hfuel : 0 < fuel) {simple : List ℤ}
    (h : simpleFuncPass fuel (forget prog) = some simple) : SimpleIn prog simple.toFinset where
  found c hc := by
    obtain ⟨g, hg, -, hgidx⟩ := (mem_simpleFuncPass hfuel h).mp (List.mem_toFinset.mp hc)
    obtain ⟨f, hf, rfl⟩ := List.mem_map.mp hg
    exact ⟨f, hf, hgidx⟩
  plain f hf hc := plain_of_returned hnames hfuel h hf (List.mem_toFinset.mp hc)
  direct hc := by
    obtain ⟨g, hg, -, hgidx⟩ := (mem_simpleFuncPass hfuel h).mp (List.mem_toFinset.mp hc)
    obtain ⟨f, hf, rfl⟩ := List.mem_map.mp hg
    exact hidx f hf hgidx

/-- With the checkpoints that the two passes leave, the stretches without one are bounded just
when no reported loop comes back to its header without a checkpoint; then they have at most
`latency prog` steps for each function that is being executed. -/
theorem checkpoint_latency_iff (prog : WasmProgram Branch) (hnames : DistinctNames (forget prog))
    (hidx : ∀ f ∈ prog, f.funcIdx ≠ -1) (fuel : ℕ) (hfuel : 0 < fuel) :
    ∃ simple, simpleFuncPass fuel (forget prog) = some simple ∧
      let S := simple.toFinset
      let skip := loopCkptPass S (forget prog)
      ((∃ bound, StopsWithin prog S skip bound) ↔
        ∀ f l, (f, l) ∈ skip → ¬Circles prog S skip f l) ∧
      ((∃ bound, StopsWithin prog S skip bound) → StopsWithin prog S skip (latency prog)) := by
  have hpass := simpleFuncPass_eq (forget prog) hfuel
  have hfuncs := (distinctNames_of_forget hnames).funcs
  have hS := simpleIn_simpleFuncPass hfuncs hidx hfuel hpass
  refine ⟨_, hpass, ?_⟩
  intro S skip
  have hiff : (∃ bound, StopsWithin prog S skip bound) ↔
      ∀ f l, (f, l) ∈ skip → ¬Circles prog S skip f l :=
    stopsWithin_iff hS (distinctNames_of_forget hnames)
  exact ⟨hiff, fun hbound => stopsWithin_latency hS (distinctNames_of_forget hnames)
    (hiff.mp hbound)⟩

/-- Its loop is reported, and repeats itself before it comes to the call. -/
theorem repeatThenCall_never_stops :
    ∃ simple, simpleFuncPass 1 (forget [repeatThenCall]) = some simple ∧
      ¬∃ bound, StopsWithin [repeatThenCall] simple.toFinset
        (loopCkptPass simple.toFinset (forget [repeatThenCall])) bound := by
  obtain ⟨simple, hpass, hiff, -⟩ := checkpoint_latency_iff [repeatThenCall]
    (distinctNames_singleton repeatThenCall (by decide)) (by decide) 1 Nat.one_pos
  have hS : SimpleIn [repeatThenCall] simple.toFinset :=
    simpleIn_simpleFuncPass (by decide) (by decide) Nat.one_pos hpass
  have hskip : loopCkptPass simple.toFinset (forget [repeatThenCall]) = [(0, 0)] := by
    have hdirect := hS.direct
    simp [loopCkptPass, forget, repeatThenCall, mapInsts, WasmInst.map, visitBlock, visitInst,
      hdirect]
  refine ⟨simple, hpass, fun hbound => ?_⟩
  rw [hskip] at hiff hbound
  refine hiff.mp hbound 0 0 List.mem_cons_self ⟨repeatThenCall, List.mem_cons_self,
    ⟨0, [.branch (.brIf 0), .call (-1)], [.loop 0 [.branch (.brIf 0), .call (-1)] []]⟩, [],
    [.move (.jump 0)], ⟨[.move .next], rfl⟩, rfl, ⟨_, _, rfl⟩, by simp,
    Run.Along.cons ?_ rfl trivial, rfl⟩
  intro e he
  rw [show e = (0, .header 0) from List.mem_singleton.mp he]
  simp [Event.isCkpt]

end MVVM.Analysis
