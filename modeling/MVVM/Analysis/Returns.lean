import MVVM.Analysis.Latency
import MVVM.Analysis.Reached
import Mathlib.Logic.Relation

/-!
# Loops that come back to their header without a checkpoint (wasm_static_analysis.py:400-470)

The ways through the code of a function can be read off the instruction tree: where control
can come to from the beginning of a block when it may pass only some calls and headers. The
loops that are reported keep the promise of the pass just when no such way leads through the
body of one of them to a branch to its own label.
-/

namespace MVVM.Analysis

open Relation

/-! ### The ways through the tree -/

/-- Where a way ends: behind the code, at a branch over `depth` of the labels around it, or in
front of a loop. -/
inductive Outcome where
  | falls
  | jumps (depth : ℕ)
  | arrives (loopIdx : ℤ) (body : Code)

/-- What an outcome is outside of the innermost label, if it leads out of it. -/
def Outcome.leave : Outcome → Option Outcome
  | .falls => none
  | .jumps 0 => none
  | .jumps (depth + 1) => some (.jumps depth)
  | .arrives l b => some (.arrives l b)

/-- The labels that a branch names; a `return` has none. -/
def Branch.labels : Branch → List ℕ
  | .br depth => [depth]
  | .brIf depth => [depth]
  | .brTable depths default => depths ++ [default]
  | .ret => []

/-- A way through the code that passes the calls and headers in `free` only. It repeats no
loop: what it comes to from a header it comes to the first time. -/
inductive Way (free : Event → Prop) : Code → Outcome → Prop where
  | done : Way free [] .falls
  | falls {b : Branch} {is : Code} {o : Outcome} :
      b.fallsThrough = true → Way free is o → Way free (.branch b :: is) o
  | jumps {b : Branch} {is : Code} {depth : ℕ} :
      depth ∈ b.labels → Way free (.branch b :: is) (.jumps depth)
  | set {x : ℤ} {is : Code} {o : Outcome} : Way free is o → Way free (.set x :: is) o
  | call {c : ℤ} {is : Code} {o : Outcome} :
      free (.call c) → Way free is o → Way free (.call c :: is) o
  | blockOut {b is : Code} {o o' : Outcome} :
      Way free b o' → o'.leave = some o → Way free (.block b :: is) o
  | blockEnd {b is : Code} {o o' : Outcome} :
      Way free b o' → o' = .falls ∨ o' = .jumps 0 → Way free is o → Way free (.block b :: is) o
  | loop {l : ℤ} {b is : Code} : Way free (.loop l b :: is) (.arrives l b)
  | loopOut {l : ℤ} {b is : Code} {o o' : Outcome} :
      free (.header l) → Way free b o' → o'.leave = some o → Way free (.loop l b :: is) o
  | loopEnd {l : ℤ} {b is : Code} {o : Outcome} :
      free (.header l) → Way free b .falls → Way free is o → Way free (.loop l b :: is) o

/-- A loop that the visit of the function comes to and whose body it does not pass over. -/
def Dropped (S : Finset ℤ) (fn : WasmFunction Branch) (l : ℤ) (b : Code) : Prop :=
  Reached S l b fn.insts ∧ ¬Passes S b

/-- The calls and headers of a function where no checkpoint is left. -/
def Free (S : Finset ℤ) (fn : WasmFunction Branch) : Event → Prop
  | .call c => c ∈ S
  | .header l => ∃ b, Dropped S fn l b

/-- Control comes to the loop, and without a checkpoint from its header to a branch back. -/
structure Repeats (S : Finset ℤ) (fn : WasmFunction Branch) (l : ℤ) (b : Code) : Prop where
  dropped : Dropped S fn l b
  entered : Way (fun _ => True) fn.insts (.arrives l b)
  back : Way (Free S fn) b (.jumps 0)

/-- All paths from the header of the loop back to it have a checkpoint. -/
def ReturnsCheckpointed (S : Finset ℤ) (skip : List (ℤ × ℤ)) (fn : WasmFunction Branch) (l : ℤ) :
    Prop :=
  ∀ start finish path, Run.Reaches step (entry fn) start → start.AtHeader l →
    Run.exec step { start with trace := [] } path = some finish →
    finish.trace.getLast? = some (.header l) → Checkpointed S skip fn.funcIdx finish.trace

variable {free : Event → Prop} {code code' : Code} {inner base ctx ctx' : List Frame}
  {o : Outcome}

/-! ### From a place on -/

/-- The code that a branch to the label goes on with. -/
def Frame.again : Frame → Code
  | .block rest => rest
  | .loop l body rest => .loop l body :: rest

/-- What an outcome of the code inside of the labels `inner` becomes outside of them. -/
def After (free : Event → Prop) : Outcome → List Frame → Outcome → Prop
  | o', [], o => o' = o
  | .falls, frame :: inner, o => ∃ o', Way free frame.rest o' ∧ After free o' inner o
  | .jumps 0, frame :: inner, o => ∃ o', Way free frame.again o' ∧ After free o' inner o
  | .jumps (depth + 1), _ :: inner, o => After free (.jumps depth) inner o
  | .arrives l b, _ :: inner, o => After free (.arrives l b) inner o

def Leads (free : Event → Prop) (code : Code) (inner : List Frame) (o : Outcome) : Prop :=
  ∃ o', Way free code o' ∧ After free o' inner o

theorem leads_nil : Leads free code [] o ↔ Way free code o := by
  constructor
  · rintro ⟨o', hway, rfl⟩
    exact hway
  · exact fun hway => ⟨o, hway, rfl⟩

theorem Leads.mono (h : ∀ o, Way free code o → Way free code' o) (hleads : Leads free code inner o) :
    Leads free code' inner o := by
  obtain ⟨o', hway, hafter⟩ := hleads
  exact ⟨o', h o' hway, hafter⟩

theorem Leads.pop {frame : Frame} (h : Leads free frame.rest inner o) :
    Leads free [] (frame :: inner) o :=
  ⟨.falls, .done, h⟩

theorem Leads.block {b is : Code} (h : Leads free b (.block is :: inner) o) :
    Leads free (.block b :: is) inner o := by
  obtain ⟨o', hway, hafter⟩ := h
  match o' with
  | .falls =>
    obtain ⟨o'', hrest, hafter⟩ := hafter
    exact ⟨o'', .blockEnd hway (.inl rfl) hrest, hafter⟩
  | .jumps 0 =>
    obtain ⟨o'', hrest, hafter⟩ := hafter
    exact ⟨o'', .blockEnd hway (.inr rfl) hrest, hafter⟩
  | .jumps (depth + 1) => exact ⟨.jumps depth, .blockOut hway rfl, hafter⟩
  | .arrives l b' => exact ⟨.arrives l b', .blockOut hway rfl, hafter⟩

theorem Leads.loop {l : ℤ} {b is : Code} (hl : free (.header l))
    (h : Leads free b (.loop l b is :: inner) o) : Leads free (.loop l b :: is) inner o := by
  obtain ⟨o', hway, hafter⟩ := h
  match o' with
  | .falls =>
    obtain ⟨o'', hrest, hafter⟩ := hafter
    exact ⟨o'', .loopEnd hl hway hrest, hafter⟩
  | .jumps 0 => exact hafter
  | .jumps (depth + 1) => exact ⟨.jumps depth, .loopOut hl hway rfl, hafter⟩
  | .arrives l' b' => exact ⟨.arrives l' b', .loopOut hl hway rfl, hafter⟩

theorem after_jumps {frame : Frame} {depth : ℕ} {outer : List Frame}
    (hdrop : inner.drop depth = frame :: outer) (h : Leads free frame.again outer o) :
    After free (.jumps depth) inner o := by
  induction depth generalizing inner with
  | zero =>
    rw [List.drop_zero] at hdrop
    rw [hdrop]
    exact h
  | succ depth ih =>
    cases inner with
    | nil => cases hdrop
    | cons frame' inner => exact ih hdrop

theorem after_jumps_out {depth : ℕ} (h : inner.length ≤ depth) :
    After free (.jumps depth) inner (.jumps (depth - inner.length)) := by
  induction inner generalizing depth with
  | nil => rfl
  | cons frame inner ih =>
    rw [List.length_cons] at h ⊢
    obtain ⟨depth, rfl⟩ : ∃ d, depth = d + 1 := ⟨depth - 1, by omega⟩
    rw [Nat.add_sub_add_right]
    exact ih (by omega)

theorem after_arrives (l : ℤ) (b : Code) (inner : List Frame) :
    After free (.arrives l b) inner (.arrives l b) := by
  induction inner with
  | nil => rfl
  | cons frame inner ih => exact ih

/-! ### One step inside of some labels -/

/-- One step, which passes what is in `free` only. -/
def Goes (free : Event → Prop) (p t : Code × List Frame) : Prop :=
  ∃ m trace, step ⟨p.1, p.2, []⟩ m = some ⟨t.1, t.2, trace⟩ ∧ ∀ e ∈ trace, free e

/-- How much code is left outside of all the labels `inner`. -/
def level : Code → List Frame → ℕ
  | code, [] => code.length
  | _, frame :: inner => level frame.rest inner

theorem level_append (code : Code) (inner : List Frame) (frame : Frame) (outer : List Frame) :
    level code (inner ++ frame :: outer) = level frame.rest outer := by
  induction inner generalizing code with
  | nil => rfl
  | cons f inner ih => exact ih f.rest

theorem level_cons_le (i : WasmInst Branch) (is : Code) (inner : List Frame) :
    level is inner ≤ level (i :: is) inner ∧
      (inner = [] → level is inner < level (i :: is) inner) := by
  cases inner with
  | nil => simp [level]
  | cons frame inner => simp [level]

theorem Branch.mem_labels {b : Branch} {depth height : ℕ} (h : depth ∈ b.depths height) :
    depth ∈ b.labels ∨ depth = height := by
  cases b with
  | ret => exact .inr (List.mem_singleton.mp h)
  | br | brIf | brTable => exact .inl h

/-- What a step says about the labels `inner` that it starts and ends inside of. -/
structure Stays (free : Event → Prop) (code code' : Code) (inner inner' : List Frame) : Prop where
  leads : ∀ o, Leads free code' inner' o → Leads free code inner o
  level : level code' inner' ≤ level code inner ∧
    (inner = [] → level code' inner' < level code inner)

theorem goes_jump {b : Branch} {is : Code} {depth : ℕ} {trace : List Event}
    (hdepth : depth ∈ b.depths (inner ++ base).length)
    (hjump : Place.jump ⟨.branch b :: is, inner ++ base, []⟩ depth = some ⟨code', ctx', trace⟩)
    (hfree : ∀ e ∈ trace, free e) :
    (∃ inner', ctx' = inner' ++ base ∧ Stays free (.branch b :: is) code' inner inner') ∨
    (∃ l rest outer depth, base.drop depth = .loop l code' rest :: outer ∧
      ctx' = .loop l code' rest :: outer ∧ free (.header l) ∧
      Leads free (.branch b :: is) inner (.jumps depth)) ∨
    ctx'.length < base.length ∨ (code' = [] ∧ ctx' = []) := by
  by_cases hout : (inner ++ base).drop depth = []
  · rcases jump_cases hjump with ⟨rest, ctx, he, -⟩ | ⟨l, body, rest, ctx, he, -⟩ | ⟨-, ht⟩
    · cases hout.symm.trans he
    · cases hout.symm.trans he
    · obtain ⟨rfl, rfl, -⟩ := Place.mk.inj ht
      exact .inr (.inr (.inr ⟨rfl, rfl⟩))
  have hlt : depth < (inner ++ base).length := by
    by_contra hge
    exact hout (List.drop_eq_nil_of_le (by omega))
  have hway : Way free (.branch b :: is) (.jumps depth) :=
    .jumps ((Branch.mem_labels hdepth).resolve_right (by omega))
  rcases Nat.lt_or_ge depth inner.length with hin | hge
  · -- one of the labels `inner`
    obtain ⟨frame, outer, hdrop⟩ : ∃ frame outer, inner.drop depth = frame :: outer :=
      List.exists_cons_of_ne_nil (by simpa using hin)
    have hinner : inner = inner.take depth ++ frame :: outer := by
      rw [← hdrop, List.take_append_drop]
    have hlevel : level (.branch b :: is) inner = level frame.rest outer := by
      rw [hinner, level_append]
    have hne : inner ≠ [] := by
      rintro rfl
      cases hin
    have hdrop' : (inner ++ base).drop depth = frame :: outer ++ base := by
      rw [List.drop_append_of_le_length (by omega), hdrop]
    rcases jump_cases hjump with ⟨rest, ctx, he, ht⟩ | ⟨l, body, rest, ctx, he, ht⟩ | ⟨he, -⟩
    · obtain ⟨rfl, rfl⟩ := List.cons.inj (hdrop'.symm.trans he)
      obtain ⟨rfl, rfl, -⟩ := Place.mk.inj ht
      refine .inl ⟨outer, rfl, fun o h => ⟨_, hway, after_jumps hdrop h⟩, hlevel.ge, fun h => ?_⟩
      exact absurd h hne
    · obtain ⟨rfl, rfl⟩ := List.cons.inj (hdrop'.symm.trans he)
      obtain ⟨rfl, rfl, rfl⟩ := Place.mk.inj ht
      have hl : free (.header l) := hfree _ (by simp)
      refine .inl ⟨.loop l code' rest :: outer, rfl,
        fun o h => ⟨_, hway, after_jumps hdrop (Leads.loop hl h)⟩, hlevel.ge, fun h => ?_⟩
      exact absurd h hne
    · exact absurd he hout
  · have hdrop : (inner ++ base).drop depth = base.drop (depth - inner.length) := by
      rw [List.drop_append, List.drop_eq_nil_of_le hge, List.nil_append]
    rcases jump_cases hjump with ⟨rest, ctx, he, ht⟩ | ⟨l, body, rest, ctx, he, ht⟩ | ⟨he, -⟩
    · obtain ⟨rfl, rfl, -⟩ := Place.mk.inj ht
      have hlen := congrArg List.length (hdrop.symm.trans he)
      rw [List.length_drop, List.length_cons] at hlen
      exact .inr (.inr (.inl (by omega)))
    · obtain ⟨rfl, rfl, rfl⟩ := Place.mk.inj ht
      have hl : free (.header l) := hfree _ (by simp)
      exact .inr (.inl ⟨l, rest, ctx, _, hdrop.symm.trans he, rfl, hl, _, hway,
        after_jumps_out hge⟩)
    · exact absurd he hout

/-- A step stays inside of the labels `base`, comes to the header of one of them, or leaves
the innermost of them. -/
theorem goes_cases (h : Goes free (code, inner ++ base) (code', ctx')) :
    (∃ inner', ctx' = inner' ++ base ∧ Stays free code code' inner inner') ∨
    (∃ l rest outer depth, base.drop depth = .loop l code' rest :: outer ∧
      ctx' = .loop l code' rest :: outer ∧ free (.header l) ∧
      Leads free code inner (.jumps depth)) ∨
    ctx'.length < base.length ∨ (code' = [] ∧ ctx' = []) := by
  obtain ⟨m, trace, hstep, hfree⟩ := h
  change step ⟨code, inner ++ base, []⟩ m = some ⟨code', ctx', trace⟩ at hstep
  rcases step_cases hstep with ⟨frame, ctx, hcode, hctx, ht⟩ | ⟨b, is, hcode, hfalls, ht⟩ |
    ⟨x, is, hcode, ht⟩ | ⟨c, is, hcode, ht⟩ | ⟨b, is, hcode, ht⟩ | ⟨l, b, is, hcode, ht⟩ |
    ⟨b, is, depth, hcode, hdepth, -, hjump⟩
  · obtain ⟨rfl, rfl, -⟩ := Place.mk.inj ht
    obtain rfl : code = [] := hcode
    cases inner with
    | nil =>
      obtain rfl : base = frame :: ctx' := hctx
      exact .inr (.inr (.inl (Nat.lt_succ_self _)))
    | cons frame' inner =>
      obtain ⟨rfl, rfl⟩ := List.cons.inj hctx
      exact .inl ⟨inner, rfl, fun o => Leads.pop, le_rfl, fun h => by cases h⟩
  · obtain ⟨rfl, rfl, -⟩ := Place.mk.inj ht
    obtain rfl : code = .branch b :: code' := hcode
    exact .inl ⟨inner, rfl, fun o => Leads.mono fun o hway => .falls hfalls hway,
      level_cons_le _ _ _⟩
  · obtain ⟨rfl, rfl, -⟩ := Place.mk.inj ht
    obtain rfl : code = .set x :: code' := hcode
    exact .inl ⟨inner, rfl, fun o => Leads.mono fun o hway => .set hway, level_cons_le _ _ _⟩
  · obtain ⟨rfl, rfl, rfl⟩ := Place.mk.inj ht
    obtain rfl : code = .call c :: code' := hcode
    have hc : free (.call c) := hfree _ (by simp)
    exact .inl ⟨inner, rfl, fun o => Leads.mono fun o hway => .call hc hway,
      level_cons_le _ _ _⟩
  · obtain ⟨rfl, rfl, -⟩ := Place.mk.inj ht
    obtain rfl : code = .block code' :: is := hcode
    exact .inl ⟨.block is :: inner, rfl, fun o => Leads.block,
      level_cons_le (.block code') is inner⟩
  · obtain ⟨rfl, rfl, rfl⟩ := Place.mk.inj ht
    obtain rfl : code = .loop l code' :: is := hcode
    have hl : free (.header l) := hfree _ (by simp)
    exact .inl ⟨.loop l code' is :: inner, rfl, fun o => Leads.loop hl,
      level_cons_le (.loop l code') is inner⟩
  · obtain rfl : code = .branch b :: is := hcode
    exact goes_jump hdepth hjump hfree

/-! ### Circles -/

theorem not_goes_end (t : Code × List Frame) : ¬Goes free ([], []) t := by
  rintro ⟨m, trace, hstep, -⟩
  cases m with
  | next | jump => cases hstep

variable {p q : Code × List Frame}

/-- On a circle through `q`, where no place has fewer labels around it, a step stays inside of
these or comes back to the header of the innermost. -/
theorem circle_step (inner : List Frame) (hcircle : TransGen (Goes free) q q)
    (hmin : ∀ t, ReflTransGen (Goes free) q t → ReflTransGen (Goes free) t q →
      q.2.length ≤ t.2.length)
    (hto : ReflTransGen (Goes free) q (code, inner ++ q.2))
    (hstep : Goes free (code, inner ++ q.2) (code', ctx'))
    (hback : ReflTransGen (Goes free) (code', ctx') q) :
    (∃ inner', ctx' = inner' ++ q.2 ∧ Stays free code code' inner inner') ∨
    (∃ l rest outer, q.2 = .loop l code' rest :: outer ∧ ctx' = q.2 ∧ free (.header l) ∧
      Leads free code inner (.jumps 0)) := by
  have hlen : q.2.length ≤ ctx'.length := hmin _ (hto.tail hstep) hback
  rcases goes_cases hstep with hstays | ⟨l, rest, outer, depth, hdrop, rfl, hl, hleads⟩ |
    hshort | ⟨rfl, rfl⟩
  · exact .inl hstays
  · have hsum := congrArg List.length hdrop
    rw [List.length_drop, List.length_cons] at hsum
    rw [List.length_cons] at hlen
    obtain rfl : depth = 0 := by omega
    rw [List.drop_zero] at hdrop
    exact .inr ⟨l, rest, outer, hdrop, hdrop.symm, hl, hleads⟩
  · exact absurd hlen (by omega)
  · obtain ⟨t, ht, -⟩ := TransGen.head'_iff.mp (TransGen.trans_right hback hcircle)
    exact absurd ht (not_goes_end t)

/-- A circle through `q` comes back by a branch to the header of the innermost loop around. -/
def TurnsBack (free : Event → Prop) (q : Code × List Frame) : Prop :=
  ∃ code inner body l rest outer, q.2 = .loop l body rest :: outer ∧ free (.header l) ∧
    ReflTransGen (Goes free) q (code, inner ++ q.2) ∧ Goes free (code, inner ++ q.2) (body, q.2) ∧
    ReflTransGen (Goes free) (body, q.2) q ∧ Leads free code inner (.jumps 0)

/-- From where less is left at the level of `q` than at `q` itself, only such a branch leads back. -/
theorem turnsBack_of_level_lt (hcircle : TransGen (Goes free) q q)
    (hmin : ∀ t, ReflTransGen (Goes free) q t → ReflTransGen (Goes free) t q →
      q.2.length ≤ t.2.length)
    (hback : ReflTransGen (Goes free) p q) :
    ∀ inner, p.2 = inner ++ q.2 → level p.1 inner < level q.1 [] →
      ReflTransGen (Goes free) q p → TurnsBack free q := by
  induction hback using ReflTransGen.head_induction_on with
  | refl =>
    intro inner hq hlt
    obtain rfl : inner = [] := List.self_eq_append_left.mp hq
    exact absurd hlt (lt_irrefl _)
  | @head p t hstep hback ih =>
    intro inner hp hlt hto
    obtain ⟨code, ctx⟩ := p
    obtain rfl : ctx = inner ++ q.2 := hp
    rcases circle_step _ hcircle hmin hto hstep hback with
      ⟨inner', ht, hstays⟩ | ⟨l, rest, outer, hq, ht, hl, hleads⟩
    · exact ih inner' ht (hstays.level.1.trans_lt hlt) (hto.tail hstep)
    · obtain ⟨body, ctx⟩ := t
      obtain rfl : ctx = q.2 := ht
      exact ⟨code, inner, body, l, rest, outer, hq, hl, hto, hstep, hback, hleads⟩

/-- A circle comes to a loop and from its header back to it. -/
theorem exists_way_back (h : TransGen (Goes free) p p) :
    ∃ l body rest ctx, ReflTransGen (Goes free) p (body, .loop l body rest :: ctx) ∧
      free (.header l) ∧ Way free body (.jumps 0) := by
  obtain ⟨q, ⟨hpq, hqp⟩, hleast⟩ := (measure fun q : Code × List Frame => q.2.length).wf.has_min
    {q | ReflTransGen (Goes free) p q ∧ ReflTransGen (Goes free) q p} ⟨p, .refl, .refl⟩
  have hcircle : TransGen (Goes free) q q :=
    TransGen.trans_right hqp (TransGen.trans_left h hpq)
  have hmin : ∀ t, ReflTransGen (Goes free) q t → ReflTransGen (Goes free) t q →
      q.2.length ≤ t.2.length := fun t hqt htq =>
    Nat.le_of_not_lt (hleast t ⟨hpq.trans hqt, htq.trans hqp⟩)
  obtain ⟨t, hstep, htq⟩ := TransGen.head'_iff.mp hcircle
  obtain ⟨code, inner, body, l, rest, outer, hq, hl, hto, hjump, hback, hleads⟩ :
      TurnsBack free q := by
    rcases circle_step [] hcircle hmin .refl hstep htq with
      ⟨inner, ht, hstays⟩ | ⟨l, rest, outer, hq, ht, hl, hleads⟩
    · exact turnsBack_of_level_lt hcircle hmin htq inner ht (hstays.level.2 rfl) (.single hstep)
    · obtain ⟨body, ctx⟩ := t
      obtain rfl : ctx = q.2 := ht
      exact ⟨q.1, [], body, l, rest, outer, hq, hl, .refl, hstep, htq, hleads⟩
  -- from the header on, each place leads to the branch
  have hall : ∀ x, ReflTransGen (Goes free) x (code, inner ++ q.2) →
      ReflTransGen (Goes free) q x → ∀ inner', x.2 = inner' ++ q.2 →
      Leads free x.1 inner' (.jumps 0) := by
    intro x hx
    induction hx using ReflTransGen.head_induction_on with
    | refl =>
      intro _ inner' hinner
      rwa [← List.append_cancel_right hinner]
    | @head x y hxy hy ih =>
      intro hqx inner' hx
      obtain ⟨code', ctx'⟩ := x
      obtain rfl : ctx' = inner' ++ q.2 := hx
      have hyq : ReflTransGen (Goes free) y q := (hy.tail hjump).trans hback
      rcases circle_step _ hcircle hmin hqx hxy hyq with
        ⟨inner'', hyin, hstays⟩ | ⟨-, -, -, -, -, -, hleads⟩
      · exact hstays.leads _ (ih (hqx.tail hxy) inner'' hyin)
      · exact hleads
  have hheader := hto.tail hjump
  refine ⟨l, body, rest, outer, hq ▸ hpq.trans hheader, hl, leads_nil.mp ?_⟩
  exact hall (body, q.2) (hback.trans hto) hheader [] rfl

/-! ### The loops that control comes to -/

theorem leads_of_reaches {insts : Code} {l : ℤ} {b : Code}
    (h : ReflTransGen (Goes free) (insts, []) (code, ctx))
    (hleads : Leads free code ctx (.arrives l b)) : Way free insts (.arrives l b) := by
  have hall : ∀ x, ReflTransGen (Goes free) x (code, ctx) → Leads free x.1 x.2 (.arrives l b) := by
    intro x hx
    induction hx using ReflTransGen.head_induction_on with
    | refl => exact hleads
    | @head x y hxy hy ih =>
      obtain ⟨code', ctx'⟩ := x
      obtain ⟨code'', ctx''⟩ := y
      rw [← List.append_nil ctx'] at hxy
      rcases goes_cases hxy with ⟨inner, rfl, hstays⟩ | ⟨l', rest, outer, depth, hdrop, -⟩ |
        hshort | ⟨rfl, rfl⟩
      · rw [List.append_nil] at ih
        exact hstays.leads _ ih
      · cases hdrop.symm.trans List.drop_nil
      · cases hshort
      · cases leads_nil.mp ih
  exact leads_nil.mp (hall _ h)

theorem goes_loops {p t : Code × List Frame} (h : Goes free p t) {l : ℤ} {b rest : Code}
    (hmem : .loop l b rest ∈ t.2) : .loop l b rest ∈ p.2 ∨ p.1 = .loop l b :: rest := by
  obtain ⟨m, trace, hstep, -⟩ := h
  obtain ⟨code, ctx⟩ := p
  obtain ⟨code', ctx'⟩ := t
  change step ⟨code, ctx, []⟩ m = some ⟨code', ctx', trace⟩ at hstep
  have hmem' : .loop l b rest ∈ ctx' := hmem
  change .loop l b rest ∈ ctx ∨ code = .loop l b :: rest
  rcases step_cases hstep with ⟨frame, ctx₁, -, hctx, ht⟩ | ⟨_, _, -, -, ht⟩ | ⟨_, _, -, ht⟩ |
    ⟨_, _, -, ht⟩ | ⟨_, _, -, ht⟩ | ⟨l', b', is, hcode, ht⟩ | ⟨_, _, depth, -, -, -, hjump⟩
  · obtain rfl : ctx = frame :: ctx₁ := hctx
    obtain ⟨-, rfl, -⟩ := Place.mk.inj ht
    exact .inl (List.mem_cons_of_mem _ hmem')
  · obtain ⟨-, rfl, -⟩ := Place.mk.inj ht
    exact .inl hmem'
  · obtain ⟨-, rfl, -⟩ := Place.mk.inj ht
    exact .inl hmem'
  · obtain ⟨-, rfl, -⟩ := Place.mk.inj ht
    exact .inl hmem'
  · obtain ⟨-, rfl, -⟩ := Place.mk.inj ht
    exact .inl (by simpa using hmem')
  · obtain ⟨-, rfl, -⟩ := Place.mk.inj ht
    rcases List.mem_cons.mp hmem' with he | hin
    · obtain ⟨rfl, rfl, rfl⟩ := Frame.loop.inj he
      exact .inr hcode
    · exact .inl hin
  · rcases jump_cases hjump with ⟨_, ctx₁, he, ht⟩ | ⟨_, _, _, ctx₁, he, ht⟩ | ⟨-, ht⟩
    · obtain ⟨-, rfl, -⟩ := Place.mk.inj ht
      exact .inl (List.mem_of_mem_drop (he ▸ List.mem_cons_of_mem _ hmem'))
    · obtain ⟨-, rfl, -⟩ := Place.mk.inj ht
      exact .inl (List.mem_of_mem_drop (he ▸ hmem'))
    · obtain ⟨-, rfl, -⟩ := Place.mk.inj ht
      cases hmem'

/-- A loop around a place was come to before. -/
theorem entered_of_mem {insts : Code} {p : Code × List Frame}
    (h : ReflTransGen (Goes free) (insts, []) p) {l : ℤ} {b rest : Code}
    (hmem : .loop l b rest ∈ p.2) : Way free insts (.arrives l b) := by
  induction h with
  | refl => cases hmem
  | @tail p t hp hstep ih =>
    rcases goes_loops hstep hmem with hin | hcode
    · exact ih hin
    · obtain ⟨code, ctx⟩ := p
      obtain rfl : code = .loop l b :: rest := hcode
      exact leads_of_reaches hp ⟨_, .loop, after_arrives l b ctx⟩

/-! ### Each way is taken by a path -/

/-- The place where a way that begins at `p` ends. -/
def Outcome.Taken (free : Event → Prop) (ctx : List Frame) (p : Code × List Frame) :
    Outcome → Prop
  | .falls => ReflTransGen (Goes free) p ([], ctx)
  | .jumps depth => ∃ b is inner, inner.length + depth ∈ b.labels ∧
      ReflTransGen (Goes free) p (.branch b :: is, inner ++ ctx)
  | .arrives l b => ∃ is ctx', ReflTransGen (Goes free) p (.loop l b :: is, ctx')

theorem Outcome.Taken.path {p t : Code × List Frame} (h : o.Taken free ctx t)
    (hpt : ReflTransGen (Goes free) p t) : o.Taken free ctx p := by
  cases o with
  | falls => exact hpt.trans h
  | jumps depth =>
    obtain ⟨b, is, inner, hmem, hpath⟩ := h
    exact ⟨b, is, inner, hmem, hpt.trans hpath⟩
  | arrives l b =>
    obtain ⟨is, ctx', hpath⟩ := h
    exact ⟨is, ctx', hpt.trans hpath⟩

theorem Outcome.Taken.leave {o' : Outcome} {frame : Frame} {p : Code × List Frame}
    (h : o'.Taken free (frame :: ctx) p) (hleave : o'.leave = some o) : o.Taken free ctx p := by
  match o' with
  | .falls => cases hleave
  | .jumps 0 => cases hleave
  | .jumps (depth + 1) =>
    obtain rfl := Option.some.inj hleave
    obtain ⟨b, is, inner, hmem, hpath⟩ := h
    refine ⟨b, is, inner ++ [frame], ?_, by simpa using hpath⟩
    rw [List.length_append, List.length_singleton, Nat.add_assoc, Nat.add_comm 1]
    exact hmem
  | .arrives l b =>
    obtain rfl := Option.some.inj hleave
    exact h

theorem Branch.mem_depths {b : Branch} {depth : ℕ} (h : depth ∈ b.labels) (height : ℕ) :
    depth ∈ b.depths height := by
  cases b with
  | ret => cases h
  | br | brIf | brTable => exact h

/-- A branch over the labels `inner` goes to the label around them. -/
theorem step_branch {b : Branch} (h : inner.length ∈ b.labels) (is : Code) (frame : Frame)
    (ctx : List Frame) (trace : List Event) :
    step ⟨.branch b :: is, inner ++ frame :: ctx, trace⟩ (.jump inner.length) =
      Place.jump ⟨[], frame :: ctx, trace⟩ 0 := by
  have hdrop : (inner ++ frame :: ctx).drop inner.length = frame :: ctx := List.drop_left
  simp only [step, if_pos (Branch.mem_depths h _), Place.jump, hdrop, List.drop_zero]
  cases frame <;> rfl

theorem Way.taken (h : Way free code o) (ctx : List Frame) : o.Taken free ctx (code, ctx) := by
  induction h generalizing ctx with
  | done => exact .refl
  | @falls b is o hfalls _ ih =>
    have hstep : Goes free (.branch b :: is, ctx) (is, ctx) :=
      ⟨.next, [], by simp [step, hfalls], by simp⟩
    exact (ih ctx).path (.single hstep)
  | @jumps b is depth hmem => exact ⟨b, is, [], by simpa using hmem, .refl⟩
  | @set x is o _ ih =>
    have hstep : Goes free (.set x :: is, ctx) (is, ctx) := ⟨.next, [], rfl, by simp⟩
    exact (ih ctx).path (.single hstep)
  | @call c is o hc _ ih =>
    have hstep : Goes free (.call c :: is, ctx) (is, ctx) :=
      ⟨.next, [.call c], rfl, by simpa using hc⟩
    exact (ih ctx).path (.single hstep)
  | @blockOut b is o o' _ hleave ih =>
    have hstep : Goes free (.block b :: is, ctx) (b, .block is :: ctx) :=
      ⟨.next, [], rfl, by simp⟩
    exact ((ih (.block is :: ctx)).leave hleave).path (.single hstep)
  | @blockEnd b is o o' _ ho _ ihb ih =>
    have hstep : Goes free (.block b :: is, ctx) (b, .block is :: ctx) :=
      ⟨.next, [], rfl, by simp⟩
    have hinside := ihb (.block is :: ctx)
    rcases ho with rfl | rfl
    · have hpop : Goes free ([], .block is :: ctx) (is, ctx) := ⟨.next, [], rfl, by simp⟩
      exact (ih ctx).path (.head hstep (hinside.tail hpop))
    · obtain ⟨br, is', inner, hmem, hpath⟩ := hinside
      have hjump : Goes free (.branch br :: is', inner ++ .block is :: ctx) (is, ctx) :=
        ⟨.jump inner.length, [], step_branch hmem is' (.block is) ctx [], by simp⟩
      exact (ih ctx).path (.head hstep (hpath.tail hjump))
  | @loop l b is => exact ⟨is, ctx, .refl⟩
  | @loopOut l b is o o' hl _ hleave ih =>
    have hstep : Goes free (.loop l b :: is, ctx) (b, .loop l b is :: ctx) :=
      ⟨.next, [.header l], rfl, by simpa using hl⟩
    exact ((ih (.loop l b is :: ctx)).leave hleave).path (.single hstep)
  | @loopEnd l b is o hl _ _ ihb ih =>
    have hstep : Goes free (.loop l b :: is, ctx) (b, .loop l b is :: ctx) :=
      ⟨.next, [.header l], rfl, by simpa using hl⟩
    have hpop : Goes free ([], .loop l b is :: ctx) (is, ctx) := ⟨.next, [], rfl, by simp⟩
    exact (ih ctx).path (.head hstep ((ihb (.loop l b is :: ctx)).tail hpop))

/-! ### Paths with their traces -/

theorem step_trace (code : Code) (ctx : List Frame) (trace : List Event) (m : Move) :
    step ⟨code, ctx, trace⟩ m =
      (step ⟨code, ctx, []⟩ m).map fun t => ⟨t.code, t.ctx, trace ++ t.trace⟩ := by
  have hjump : ∀ depth, Place.jump ⟨code, ctx, trace⟩ depth =
      (Place.jump ⟨code, ctx, []⟩ depth).map fun t => ⟨t.code, t.ctx, trace ++ t.trace⟩ := by
    intro depth
    simp only [Place.jump]
    split
    · simp
    · simp
    · split <;> simp
  cases m with
  | next =>
    cases code with
    | nil =>
      cases ctx with
      | nil => rfl
      | cons frame ctx => simp [step]
    | cons i is =>
      cases i with
      | branch b =>
        simp only [step]
        split <;> simp
      | set x => simp [step]
      | call c => simp [step]
      | block b => simp [step]
      | loop l b => simp [step]
  | jump depth =>
    cases code with
    | nil => rfl
    | cons i is =>
      cases i with
      | branch b =>
        simp only [step]
        split
        · exact hjump depth
        · rfl
      | set x => rfl
      | call c => rfl
      | block b => rfl
      | loop l b => rfl

theorem header_of_step {p t : Place} {m : Move} (hp : p.trace = []) (h : step p m = some t) {l : ℤ}
    (hmem : .header l ∈ t.trace) : t.AtHeader l := by
  rcases step_cases h with ⟨frame, ctx, -, -, rfl⟩ | ⟨_, _, -, -, rfl⟩ | ⟨_, _, -, rfl⟩ |
    ⟨_, _, -, rfl⟩ | ⟨_, _, -, rfl⟩ | ⟨l', b', is, -, rfl⟩ | ⟨_, _, depth, -, -, -, hjump⟩
  · simp [hp] at hmem
  · simp [hp] at hmem
  · simp [hp] at hmem
  · simp [hp] at hmem
  · simp [hp] at hmem
  · obtain rfl : l = l' := by simpa [hp] using hmem
    exact ⟨is, p.ctx, rfl⟩
  · rcases jump_cases hjump with ⟨_, ctx, -, rfl⟩ | ⟨l', b, rest, ctx, -, rfl⟩ | ⟨-, rfl⟩
    · simp [hp] at hmem
    · obtain rfl : l = l' := by simpa [hp] using hmem
      exact ⟨rest, ctx, rfl⟩
    · simp [hp] at hmem

/-- A path is a path without its trace, when the trace is free; a header in the trace is one
that it has been at. -/
theorem goes_of_exec (free : Event → Prop) {trace : List Event} {path : List Move} {finish : Place}
    (h : Run.exec step ⟨code, ctx, trace⟩ path = some finish) :
    ∃ passed, finish.trace = trace ++ passed ∧ ((∀ e ∈ passed, free e) →
      ReflTransGen (Goes free) (code, ctx) (finish.code, finish.ctx) ∧
      ∀ l, .header l ∈ passed → ∃ b rest out,
        TransGen (Goes free) (code, ctx) (b, .loop l b rest :: out)) := by
  induction path generalizing code ctx trace with
  | nil =>
    obtain rfl := Option.some.inj h
    exact ⟨[], by simp, fun _ => ⟨.refl, by simp⟩⟩
  | cons m path ih =>
    obtain ⟨t, ht, hrest⟩ := Run.exec_cons_some h
    rw [step_trace] at ht
    obtain ⟨u, hu, rfl⟩ := Option.map_eq_some_iff.mp ht
    obtain ⟨passed, hpassed, hgoes⟩ := ih hrest
    refine ⟨u.trace ++ passed, by rw [hpassed, List.append_assoc], fun hfree => ?_⟩
    rw [List.forall_mem_append] at hfree
    have hstep : Goes free (code, ctx) (u.code, u.ctx) := ⟨m, u.trace, hu, hfree.1⟩
    obtain ⟨hpath, hheaders⟩ := hgoes hfree.2
    refine ⟨.head hstep hpath, fun l hl => ?_⟩
    rcases List.mem_append.mp hl with hin | hin
    · obtain ⟨rest, out, hctx⟩ := header_of_step rfl hu hin
      exact ⟨u.code, rest, out, .single (hctx ▸ hstep)⟩
    · obtain ⟨b, rest, out, hcircle⟩ := hheaders l hin
      exact ⟨b, rest, out, .head hstep hcircle⟩

theorem exec_of_goes {p t : Code × List Frame} (h : ReflTransGen (Goes free) p t)
    (trace : List Event) : ∃ path passed, (∀ e ∈ passed, free e) ∧
      Run.exec step ⟨p.1, p.2, trace⟩ path = some ⟨t.1, t.2, trace ++ passed⟩ := by
  induction h using ReflTransGen.head_induction_on generalizing trace with
  | refl => exact ⟨[], [], by simp, by simp⟩
  | @head p u hstep _ ih =>
    obtain ⟨m, first, hm, hfirst⟩ := hstep
    obtain ⟨path, passed, hpassed, hexec⟩ := ih (trace ++ first)
    refine ⟨m :: path, first ++ passed, List.forall_mem_append.mpr ⟨hfirst, hpassed⟩, ?_⟩
    rw [Run.exec_cons, step_trace, hm, Option.map_some, Option.bind_some, hexec,
      List.append_assoc]

/-! ### What the pass reports -/

variable {S : Finset ℤ} {prog : WasmProgram Branch} {fn : WasmFunction Branch}

theorem free_iff (hnames : DistinctNames prog) (hfn : fn ∈ prog) {e : Event} :
    Free S fn e ↔ e.isCkpt S (loopCkptPass S prog) fn.funcIdx = false := by
  cases e with
  | call c => simp [Free, Event.isCkpt]
  | header l =>
    have hmem : (fn.funcIdx, l) ∈ loopCkptPass S prog ↔ ∃ b, Dropped S fn l b := by
      rw [mem_loopCkptPass]
      constructor
      · rintro ⟨g, hg, hidx, hb⟩
        obtain rfl : g = fn := List.inj_on_of_nodup_map hnames.funcs hg hfn hidx
        exact hb
      · exact fun hb => ⟨fn, hfn, rfl, hb⟩
    simp [Free, Event.isCkpt, hmem]

theorem not_checkpointed_iff (hnames : DistinctNames prog) (hfn : fn ∈ prog)
    {trace : List Event} :
    ¬Checkpointed S (loopCkptPass S prog) fn.funcIdx trace ↔ ∀ e ∈ trace, Free S fn e := by
  simp only [Checkpointed, not_exists, not_and, Bool.not_eq_true, free_iff hnames hfn]

theorem Goes.imp {free' : Event → Prop} (himp : ∀ e, free e → free' e) {p t : Code × List Frame}
    (h : Goes free p t) : Goes free' p t := by
  obtain ⟨m, trace, hstep, hfree⟩ := h
  exact ⟨m, trace, hstep, fun e he => himp e (hfree e he)⟩

theorem At.goes {insts : Code} {p t : Code × List Frame} (hp : At insts p.1 p.2)
    (h : ReflTransGen (Goes free) p t) : At insts t.1 t.2 := by
  induction h with
  | refl => exact hp
  | tail _ hstep ih =>
    obtain ⟨m, trace, hm, -⟩ := hstep
    exact At.step ih hm

/-- Where a path comes back without a checkpoint, a loop of the function repeats itself. -/
theorem exists_repeats (hnames : DistinctNames prog) (hfn : fn ∈ prog) {start finish : Place}
    {path : List Move} {l : ℤ} (hreach : Run.Reaches step (entry fn) start)
    (hat : start.AtHeader l) (hexec : Run.exec step { start with trace := [] } path = some finish)
    (hlast : finish.trace.getLast? = some (.header l))
    (hno : ¬Checkpointed S (loopCkptPass S prog) fn.funcIdx finish.trace) :
    ∃ l b, Repeats S fn l b := by
  obtain ⟨first, hfirst⟩ := hreach
  obtain ⟨_, -, hgoes₀⟩ := goes_of_exec (fun _ => True) hfirst
  have hentry : ReflTransGen (Goes fun _ => True) (fn.insts, []) (start.code, start.ctx) :=
    (hgoes₀ fun _ _ => trivial).1
  obtain ⟨passed, hpassed, hgoes⟩ := goes_of_exec (Free S fn) hexec
  rw [List.nil_append] at hpassed
  subst hpassed
  obtain ⟨-, hheaders⟩ := hgoes ((not_checkpointed_iff hnames hfn).mp hno)
  obtain ⟨b, rest, out, hcircle⟩ := hheaders l (List.mem_of_getLast? hlast)
  have hstart : At fn.insts start.code start.ctx := At.goes (p := (fn.insts, [])) .entry hentry
  -- the header of `l` is one place
  have hsame : (b, .loop l b rest :: out) = (start.code, start.ctx) := by
    obtain ⟨rest', out', hctx⟩ := hat
    have hback : At fn.insts b (.loop l b rest :: out) :=
      At.goes (p := (start.code, start.ctx)) hstart hcircle.to_reflTransGen
    rw [hctx] at hstart ⊢
    obtain ⟨hb, hframes⟩ := At.header_unique (hnames.loops fn hfn) hback.header hstart.header
    exact Prod.ext hb hframes
  rw [hsame] at hcircle
  obtain ⟨l', body, rest', ctx, hpath, ⟨b', hdropped⟩, hback⟩ := exists_way_back hcircle
  have hplace : At fn.insts body (.loop l' body rest' :: ctx) :=
    At.goes (p := (start.code, start.ctx)) hstart hpath
  obtain rfl : b' = body :=
    body_unique (hnames.loops fn hfn) hdropped.1.mem hplace.header.loop_mem
  have hpath' : ReflTransGen (Goes fun _ => True) (fn.insts, []) (b', .loop l' b' rest' :: ctx) :=
    hentry.trans (hpath.lift id fun _ _ => Goes.imp fun _ _ => trivial)
  exact ⟨l', b', hdropped, entered_of_mem hpath' List.mem_cons_self, hback⟩

/-- A loop that repeats itself has a path back to its header without a checkpoint. -/
theorem Repeats.not_returnsCheckpointed (hnames : DistinctNames prog) (hfn : fn ∈ prog) {l : ℤ}
    {b : Code} (h : Repeats S fn l b) : ¬ReturnsCheckpointed S (loopCkptPass S prog) fn l := by
  intro hreturns
  obtain ⟨is, ctx, hto⟩ := h.entered.taken []
  obtain ⟨path, trace, -, hpath⟩ := exec_of_goes hto []
  obtain ⟨br, is', inner, hmem, hback⟩ := h.back.taken (.loop l b is :: ctx)
  obtain ⟨back, passed, hpassed, hexec⟩ := exec_of_goes hback []
  have hckpt := hreturns ⟨b, .loop l b is :: ctx, trace ++ [.header l]⟩
    ⟨b, .loop l b is :: ctx, passed ++ [.header l]⟩ (back ++ [.jump inner.length])
    ⟨path ++ [.next], ?_⟩ ⟨is, ctx, rfl⟩ ?_ (List.getLast?_concat ..)
  · refine (not_checkpointed_iff hnames hfn).mpr ?_ hckpt
    rw [List.forall_mem_append]
    refine ⟨hpassed, fun e he => ?_⟩
    obtain rfl := List.mem_singleton.mp he
    exact ⟨b, h.dropped⟩
  · rw [entry, Run.exec_append, hpath]
    rfl
  · rw [Run.exec_append, hexec]
    have hjump := step_branch (by simpa using hmem) is' (.loop l b is) ctx passed
    rw [List.nil_append, Option.bind_some, Run.exec_cons, hjump]
    rfl

/-- The loops that are reported keep what the pass promises just when none of those that the
visit comes to repeats itself. -/
theorem returns_checkpointed_iff (S : Finset ℤ) (prog : WasmProgram Branch)
    (hnames : DistinctNames (forget prog)) :
    (∀ fn ∈ prog, ∀ l, (fn.funcIdx, l) ∈ loopCkptPass S (forget prog) →
      ReturnsCheckpointed S (loopCkptPass S (forget prog)) fn l) ↔
    ∀ fn ∈ prog, ∀ l b, ¬Repeats S fn l b := by
  have hdistinct := distinctNames_of_forget hnames
  rw [loopCkptPass_forget]
  constructor
  · intro hall fn hfn l b hrepeats
    have hl : (fn.funcIdx, l) ∈ loopCkptPass S prog :=
      mem_loopCkptPass.mpr ⟨fn, hfn, rfl, b, hrepeats.dropped⟩
    exact hrepeats.not_returnsCheckpointed hdistinct hfn (hall fn hfn l hl)
  · intro hnone fn hfn l _ start finish path hreach hat hexec hlast
    by_contra hno
    obtain ⟨l', b, hrepeats⟩ := exists_repeats hdistinct hfn hreach hat hexec hlast hno
    exact hnone fn hfn l' b hrepeats

theorem callThenRepeat_not_repeats (l : ℤ) (b : Code) : ¬Repeats ∅ callThenRepeat l b := by
  rintro ⟨⟨hreached, -⟩, -, hback⟩
  obtain ⟨-, rfl⟩ : l = 0 ∧ b = [.call (-1), .branch (.brIf 0)] := by
    simpa [callThenRepeat, loopsOf, WasmInst.loops] using hreached.mem
  cases hback with
  | call hfree => simp [Free] at hfree

theorem returns_checkpointed_callThenRepeat :
    ReturnsCheckpointed ∅ (loopCkptPass ∅ (forget [callThenRepeat])) callThenRepeat 0 :=
  (returns_checkpointed_iff ∅ [callThenRepeat]
    (distinctNames_singleton callThenRepeat (by decide))).mpr
    (fun fn hfn l b => by
      obtain rfl := List.mem_singleton.mp hfn
      exact callThenRepeat_not_repeats l b)
    callThenRepeat List.mem_cons_self 0 (by decide)

/-- The path that takes the `br_if` comes back to the header of a reported loop with
nothing but this header in its trace. -/
theorem reported_loop_repeats_without_ckpt :
    ¬∀ (S : Finset ℤ) (prog : WasmProgram Branch), DistinctNames (forget prog) →
      ∀ fn ∈ prog, ∀ l, (fn.funcIdx, l) ∈ loopCkptPass S (forget prog) →
        ReturnsCheckpointed S (loopCkptPass S (forget prog)) fn l := by
  intro h
  have hckpt := h ∅ [repeatThenCall] (distinctNames_singleton repeatThenCall (by decide))
    repeatThenCall List.mem_cons_self 0 (by decide)
    ⟨[.branch (.brIf 0), .call (-1)], [.loop 0 [.branch (.brIf 0), .call (-1)] []], [.header 0]⟩
    ⟨[.branch (.brIf 0), .call (-1)], [.loop 0 [.branch (.brIf 0), .call (-1)] []], [.header 0]⟩
    [.jump 0] ⟨[.next], rfl⟩ ⟨_, _, rfl⟩ rfl rfl
  obtain ⟨e, he, hc⟩ := hckpt
  rw [List.mem_singleton.mp he] at hc
  exact absurd hc (by decide)

end MVVM.Analysis
