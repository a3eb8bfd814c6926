import MVVM.Interp.Scanned
import Mathlib.Data.List.TakeWhile

/-!
# The labels that the scan finds

The scan is in step with the tree as long as it meets no `return` and no `br_table` whose
labels it takes for other instructions. It stops at the target, except that it jumps over
the target when this is in an `if` without `else`.
-/

namespace MVVM.Interp

/-- Where a branch to the label goes. -/
def Construct.target (k : Construct) : ℕ := if k.label = .loop then k.start else k.endAddr

def Construct.cellNum (k : Construct) : ℕ :=
  if k.label = .loop then 0 else valueTypeCells k.valueType

def Construct.blockOf (k : Construct) (f : FuncCode) (sp : ℤ) : BranchBlock :=
  ⟨k.start, k.target, f.spOffset sp, k.cellNum⟩

instance (k : Construct) : Decidable k.Elseless := inferInstanceAs (Decidable (_ ∧ _))

/-- Of constructs that enclose the target, the outermost first, those whose labels are
found. -/
def found (ks : List Construct) : List Construct := ks.takeWhile fun k => ¬k.Elseless

def labelsOf (f : FuncCode) (sp : Construct → ℤ) (ks : List Construct) : List BranchBlock :=
  (ks.map fun k => k.blockOf f (sp k)).reverse

variable {n : Internal} {f : FuncCode} {t p q : ℕ} {sp sp' : ℤ} {csp labels : List BranchBlock}
  {b : BranchBlock} {items items' : List Item} {ks : List Construct} {k : Construct}
  {s s' : ScanState} {vt : UInt8} {rest : List UInt8}

/-! ### The steps at constructs -/

theorem scanLoop_block (sp : ℤ) (csp : List BranchBlock) (h : f.code.drop p = 0x02 :: vt :: rest)
    (hp : p < t) {elseAddr : Option ℕ} {endAddr : ℕ}
    (hfind : f.findBlockAddr (p + 2) .block = some (elseAddr, endAddr)) :
    scanLoop n f t ⟨p, sp, csp⟩
      = .inl ⟨p + 2, sp, ⟨p + 2, endAddr, f.spOffset sp, valueTypeCells vt⟩ :: csp⟩ := by
  apply scanLoop_ok hp
  have hcase : caseOf n 0x02 = .block := rfl
  have htype := byteAt_of_drop (drop_of_drop_cons h)
  simp only [scanStep, byteAt_of_drop h, bind, Except.bind, hcase, htype, FuncCode.findBlock,
    Nat.add_assoc, Nat.reduceAdd, hfind, ScanState.pushCsp]

theorem scanLoop_loop (sp : ℤ) (csp : List BranchBlock) (h : f.code.drop p = 0x03 :: vt :: rest)
    (hp : p < t) :
    scanLoop n f t ⟨p, sp, csp⟩
      = .inl ⟨p + 2, sp, ⟨p + 2, p + 2, f.spOffset sp, 0⟩ :: csp⟩ := by
  apply scanLoop_ok hp
  have hcase : caseOf n 0x03 = .loop := rfl
  have htype := byteAt_of_drop (drop_of_drop_cons h)
  simp only [scanStep, byteAt_of_drop h, bind, Except.bind, hcase, htype, Nat.add_assoc,
    Nat.reduceAdd, ScanState.pushCsp]

theorem scanLoop_if_skip (sp : ℤ) (csp : List BranchBlock)
    (h : f.code.drop p = 0x04 :: vt :: rest) (hp : p < t) {endAddr : ℕ}
    (hfind : f.findBlockAddr (p + 2) .ifLabel = some (none, endAddr)) :
    scanLoop n f t ⟨p, sp, csp⟩ = .inl ⟨endAddr + 1, sp, csp⟩ := by
  apply scanLoop_ok hp
  have hcase : caseOf n 0x04 = .ifCase := rfl
  have htype := byteAt_of_drop (drop_of_drop_cons h)
  simp only [scanStep, byteAt_of_drop h, bind, Except.bind, hcase, htype, FuncCode.findBlock,
    Nat.add_assoc, Nat.reduceAdd, hfind]

theorem scanLoop_if_arm (sp : ℤ) (csp : List BranchBlock)
    (h : f.code.drop p = 0x04 :: vt :: rest) (hp : p < t) {elseAddr endAddr : ℕ}
    (hfind : f.findBlockAddr (p + 2) .ifLabel = some (some elseAddr, endAddr)) :
    scanLoop n f t ⟨p, sp, csp⟩
      = .inl ⟨if t ≤ elseAddr then p + 2 else elseAddr + 1, sp,
          ⟨p + 2, endAddr, f.spOffset sp, valueTypeCells vt⟩ :: csp⟩ := by
  apply scanLoop_ok hp
  have hcase : caseOf n 0x04 = .ifCase := rfl
  have htype := byteAt_of_drop (drop_of_drop_cons h)
  simp only [scanStep, byteAt_of_drop h, bind, Except.bind, hcase, htype, FuncCode.findBlock,
    Nat.add_assoc, Nat.reduceAdd, hfind, ScanState.pushCsp]
  by_cases ht : t ≤ elseAddr
  · simp only [if_pos ht]
  · simp only [if_neg ht]

theorem scanLoop_end (sp : ℤ) (b : BranchBlock) (csp : List BranchBlock)
    (h : f.code.drop p = 0x0b :: rest) (hp : p < t) (hcsp : csp ≠ []) :
    scanLoop n f t ⟨p, sp, b :: csp⟩ = .inl ⟨p + 1, sp, csp⟩ := by
  apply scanLoop_ok hp
  have hcase : caseOf n 0x0b = .endCase := rfl
  obtain ⟨c, csp, rfl⟩ := List.exists_cons_of_ne_nil hcsp
  simp only [scanStep, byteAt_of_drop h, bind, Except.bind, hcase]

/-! ### The labels that are found -/

theorem found_cons (hk : ¬k.Elseless) : found (k :: ks) = k :: found ks :=
  List.takeWhile_cons_of_pos (by simpa using hk)

theorem found_cons_elseless (hk : k.Elseless) : found (k :: ks) = [] :=
  List.takeWhile_cons_of_neg (by simpa using hk)

theorem mem_of_mem_found (h : k ∈ found ks) : k ∈ ks := (List.takeWhile_sublist _).subset h

theorem found_eq_self (hif : ∀ k ∈ ks, ¬k.Elseless) : found ks = ks :=
  List.takeWhile_eq_self_iff.mpr fun k hk => by simpa using hif k hk

theorem length_found_lt (hif : ∃ k ∈ ks, k.Elseless) : (found ks).length < ks.length := by
  obtain ⟨k, hk, hless⟩ := hif
  refine Nat.lt_of_le_of_ne (List.takeWhile_sublist _).length_le ?_
  intro hlen
  have heq := (List.takeWhile_prefix fun k : Construct => decide ¬k.Elseless).eq_of_length hlen
  have hall := List.takeWhile_eq_self_iff.mp heq k hk
  exact absurd hless (by simpa using hall)

/-! ### How the scan of a sequence ends -/

/-- From `s`: at position `q` with the labels of the constructs `ks` on top, or in `exit`
when a `return` is among what is read, or behind the target when it is in an `if` without
`else`. -/
inductive Ends (n : Internal) (f : FuncCode) (t : ℕ) (s : ScanState) (q : ℕ) (sp : ℤ)
    (labels : List BranchBlock) (items : List Item) (ks : List Construct) : Prop where
  | stops (hret : ∀ i ∈ items, ¬i.IsReturn) (hif : ∀ k ∈ ks, ¬k.Elseless)
      (h : Loop.Goes (scanLoop n f t) s ⟨q, sp, labels ++ s.csp⟩)
  | exits (hret : ∃ i ∈ items, i.IsReturn)
      (h : Loop.Leaves (scanLoop n f t) s (.error .exited))
  | passes (hret : ∀ i ∈ items, ¬i.IsReturn) (hif : ∃ k ∈ ks, k.Elseless)
      (ip : ℕ) (sp' : ℤ) (outer : List BranchBlock) (hip : t < ip)
      (houter : outer <:+ labels) (hlen : outer.length = (found ks).length)
      (h : Loop.Goes (scanLoop n f t) s ⟨ip, sp', outer ++ s.csp⟩)

theorem Ends.here : Ends n f t s s.ip s.sp [] [] [] :=
  .stops (fun i hi => by cases hi) (fun k hk => by cases hk) (Loop.Goes.refl _)

theorem Ends.after (hret : ∀ i ∈ items, ¬i.IsReturn) (hgoes : Loop.Goes (scanLoop n f t) s s')
    (hcsp : s'.csp = s.csp) (h : Ends n f t s' q sp labels items' ks) :
    Ends n f t s q sp labels (items ++ items') ks := by
  cases h with
  | stops hret' hif h =>
    exact .stops (List.forall_mem_append.mpr ⟨hret, hret'⟩) hif (hcsp ▸ hgoes.trans h)
  | exits hret' h =>
    obtain ⟨i, hi, hr⟩ := hret'
    exact .exits ⟨i, List.mem_append_right _ hi, hr⟩ (hgoes.leaves h)
  | passes hret' hif ip sp' outer hip houter hlen h =>
    exact .passes (List.forall_mem_append.mpr ⟨hret, hret'⟩) hif ip sp' outer hip houter hlen
      (hcsp ▸ hgoes.trans h)

theorem Ends.inside (hk : ¬k.Elseless) (hgoes : Loop.Goes (scanLoop n f t) s s')
    (hcsp : s'.csp = b :: s.csp) (h : Ends n f t s' q sp labels items ks) :
    Ends n f t s q sp (labels ++ [b]) items (k :: ks) := by
  have hassoc : ∀ l : List BranchBlock, l ++ s'.csp = (l ++ [b]) ++ s.csp := by
    intro l
    rw [hcsp, List.append_assoc, List.singleton_append]
  cases h with
  | stops hret hif h =>
    refine .stops hret ?_ (hassoc labels ▸ hgoes.trans h)
    intro l hl
    rcases List.mem_cons.mp hl with rfl | hl
    · exact hk
    · exact hif l hl
  | exits hret h => exact .exits hret (hgoes.leaves h)
  | passes hret hif ip sp' outer hip houter hlen h =>
    obtain ⟨l, hl, hless⟩ := hif
    refine .passes hret ⟨l, List.mem_cons_of_mem _ hl, hless⟩ ip sp' (outer ++ [b]) hip ?_ ?_
      (hassoc outer ▸ hgoes.trans h)
    · obtain ⟨inner, rfl⟩ := houter
      exact ⟨inner, (List.append_assoc inner outer [b]).symm⟩
    · rw [List.length_append, List.length_singleton, found_cons hk, List.length_cons, hlen]

theorem Ends.through {e : ℕ} {sp₁ : ℤ} (hgoes : Loop.Goes (scanLoop n f t) s s')
    (harm : Ends n f t s' e sp₁ [] items [])
    (hend : Loop.Goes (scanLoop n f t) ⟨e, sp₁, s'.csp⟩ ⟨e + 1, sp₁, s.csp⟩)
    (h : Ends n f t ⟨e + 1, sp₁, s.csp⟩ q sp labels items' ks) :
    Ends n f t s q sp labels (items ++ items') ks := by
  cases harm with
  | stops hret hif harm => exact h.after hret (hgoes.trans (harm.trans hend)) rfl
  | exits hret harm =>
    obtain ⟨i, hi, hr⟩ := hret
    exact .exits ⟨i, List.mem_append_left _ hi, hr⟩ (hgoes.leaves harm)
  | passes hret hif =>
    obtain ⟨k, hk, hless⟩ := hif
    cases hk

theorem Ends.cast {q' : ℕ} {labels' : List BranchBlock} {ks' : List Construct}
    (h : Ends n f t s q sp labels items ks) (hq : q = q') (hsp : sp = sp')
    (hlabels : labels = labels') (hitems : items = items') (hks : ks = ks') :
    Ends n f t s q' sp' labels' items' ks' := by
  subst hq hsp hlabels hitems hks
  exact h

theorem labelsOf_congr {g g' : Construct → ℤ} (h : ∀ k ∈ ks, g k = g' k) :
    labelsOf f g ks = labelsOf f g' ks := by
  rw [labelsOf, labelsOf]
  congr 1
  apply List.map_congr_left
  intro k hk
  rw [h k hk]

/-! ### Sequences -/

def Body.EndsAt (n : Internal) (f : FuncCode) (t : ℕ) (c : Body) (p : ℕ) (sp : ℤ)
    (csp : List BranchBlock) : Prop :=
  Ends n f t ⟨p, sp, csp⟩ (min t (p + c.size)) (sp + c.cellsBefore n f.localTypes p t)
    (labelsOf f (fun k => sp + c.cellsBefore n f.localTypes p k.opcode) (c.enclosing p t))
    (c.scanned p t) (c.enclosing p t)

variable {c arm rest' : Body} {a : ℕ}

theorem endsAt_here (c : Body) (sp : ℤ) (csp : List BranchBlock) (h : t = p) :
    c.EndsAt n f t p sp csp := by
  subst h
  have hs := c.scanned_of_le t t (Nat.le_refl t)
  have he := c.enclosing_outside t t (Or.inl (Nat.le_refl t))
  have hcells : c.cellsBefore n f.localTypes t t = 0 := by
    rw [Body.cellsBefore, hs]
    rfl
  exact (Ends.here (s := ⟨t, sp, csp⟩)).cast (by simp) (by simp [hcells])
    (by rw [he]; rfl) hs.symm he.symm

theorem le_of_mem_enclosing (hk : k ∈ c.enclosing p t) :
    p ≤ k.opcode ∧ k.opcode < t ∧ t ≤ k.endAddr ∧ k.endAddr < p + c.size := by
  rw [Body.enclosing, List.mem_filter] at hk
  have hbound := c.le_of_mem_constructs p k hk.1
  have henc := hk.2
  simp only [Construct.encloses, Bool.and_eq_true, decide_eq_true_eq] at henc
  omega

theorem endsAt_after (item : Item) (hret : ¬item.IsReturn)
    (hgoes : Loop.Goes (scanLoop n f t) ⟨p, sp, csp⟩
      ⟨a, sp + item.cells n f.localTypes, csp⟩)
    (h : rest'.EndsAt n f t a (sp + item.cells n f.localTypes) csp)
    (henc : c.enclosing p t = rest'.enclosing a t)
    (hscan : ∀ r, p < r → c.scanned p r = item :: rest'.scanned a r) (hp : p < t)
    (hpa : p < a) (hsize : p + c.size = a + rest'.size) : c.EndsAt n f t p sp csp := by
  have hcells : ∀ r, p < r → sp + c.cellsBefore n f.localTypes p r
      = sp + item.cells n f.localTypes + rest'.cellsBefore n f.localTypes a r := by
    intro r hr
    rw [Body.cellsBefore, hscan r hr, List.map_cons, List.sum_cons, Body.cellsBefore]
    omega
  have hone : ∀ i ∈ [item], ¬i.IsReturn := by simpa using hret
  have hafter := h.after hone hgoes rfl
  refine hafter.cast (by rw [hsize]) (hcells t hp).symm ?_ (hscan t hp).symm henc.symm
  rw [henc]
  apply labelsOf_congr
  intro k hk
  have hbound := le_of_mem_enclosing hk
  exact (hcells k.opcode (by omega)).symm

theorem endsAt_inside (pre : List Item) (hk : ¬k.Elseless) (hop : k.opcode = p)
    (hpre : ∀ i ∈ pre, ¬i.IsReturn)
    (hzero : (pre.map (Item.cells n f.localTypes)).sum = 0)
    (hgoes : Loop.Goes (scanLoop n f t) ⟨p, sp, csp⟩ ⟨a, sp, k.blockOf f sp :: csp⟩)
    (h : arm.EndsAt n f t a sp (k.blockOf f sp :: csp))
    (henc : c.enclosing p t = k :: arm.enclosing a t)
    (hscan : ∀ r, a ≤ r → r ≤ a + arm.size → c.scanned p r = pre ++ arm.scanned a r)
    (ha : a ≤ t) (ht : t ≤ a + arm.size) (hsize : a + arm.size ≤ p + c.size) :
    c.EndsAt n f t p sp csp := by
  have hcells : ∀ r, a ≤ r → r ≤ a + arm.size →
      c.cellsBefore n f.localTypes p r = arm.cellsBefore n f.localTypes a r := by
    intro r har hr
    rw [Body.cellsBefore, hscan r har hr, List.map_append, List.sum_append, hzero, Int.zero_add,
      Body.cellsBefore]
  have hself : c.cellsBefore n f.localTypes p p = 0 := by
    rw [Body.cellsBefore, c.scanned_of_le p p (Nat.le_refl p)]
    rfl
  have hinside := (Ends.inside (s := ⟨p, sp, csp⟩) hk hgoes rfl h).after hpre (Loop.Goes.refl _) rfl
  refine hinside.cast ?_ ?_ ?_ (hscan t ha ht).symm henc.symm
  · rw [Nat.min_eq_left ht, Nat.min_eq_left (ht.trans hsize)]
  · rw [hcells t ha ht]
  · rw [henc, labelsOf, labelsOf, List.map_cons, List.reverse_cons, hop, hself, Int.add_zero]
    congr 2
    apply List.map_congr_left
    intro l hl
    have hbound := le_of_mem_enclosing hl
    rw [hcells l.opcode (by omega) (by omega)]

theorem endsAt_through (pre : List Item) (hpre : ∀ i ∈ pre, ¬i.IsReturn)
    (hzero : (pre.map (Item.cells n f.localTypes)).sum = 0)
    (hgoes : Loop.Goes (scanLoop n f t) ⟨p, sp, csp⟩ ⟨a, sp, b :: csp⟩)
    (harm : arm.EndsAt n f t a sp (b :: csp))
    (hend : ∀ sp₁, Loop.Goes (scanLoop n f t) ⟨a + arm.size, sp₁, b :: csp⟩
      ⟨a + arm.size + 1, sp₁, csp⟩)
    (h : rest'.EndsAt n f t (a + arm.size + 1) (sp + arm.cellsBefore n f.localTypes a t) csp)
    (henc : c.enclosing p t = rest'.enclosing (a + arm.size + 1) t)
    (hscan : ∀ r, a + arm.size < r →
      c.scanned p r = pre ++ (arm.scanned a r ++ rest'.scanned (a + arm.size + 1) r))
    (ht : a + arm.size < t) (hsize : p + c.size = a + arm.size + 1 + rest'.size) :
    c.EndsAt n f t p sp csp := by
  have hcells : ∀ r, a + arm.size < r → sp + c.cellsBefore n f.localTypes p r
      = sp + arm.cellsBefore n f.localTypes a t +
        rest'.cellsBefore n f.localTypes (a + arm.size + 1) r := by
    intro r hr
    rw [Body.cellsBefore, hscan r hr, List.map_append, List.sum_append, hzero, List.map_append,
      List.sum_append, Body.cellsBefore, Body.cellsBefore,
      arm.scanned_of_ge a t r (by omega) (by omega)]
    omega
  have hnone := arm.enclosing_outside a t (Or.inr (by omega))
  have harm' : Ends n f t ⟨a, sp, b :: csp⟩ (a + arm.size)
      (sp + arm.cellsBefore n f.localTypes a t) [] (arm.scanned a t) [] :=
    harm.cast (Nat.min_eq_right (by omega)) rfl (by rw [hnone]; rfl) rfl hnone
  have hthrough := (Ends.through (s := ⟨p, sp, csp⟩) hgoes harm' (hend _) h).after hpre
    (Loop.Goes.refl _) rfl
  refine hthrough.cast (by rw [hsize]) (hcells t ht).symm ?_ (hscan t ht).symm henc.symm
  rw [henc]
  apply labelsOf_congr
  intro l hl
  have hbound := le_of_mem_enclosing hl
  exact (hcells l.opcode (by omega)).symm

/-! ### What encloses the target -/

theorem filter_encloses_nil {ls : List Construct}
    (h : ∀ l ∈ ls, t ≤ l.opcode ∨ l.endAddr < t) : ls.filter (fun l => l.encloses t) = [] := by
  rw [List.filter_eq_nil_iff]
  intro l hl
  have := h l hl
  simp only [Construct.encloses, Bool.and_eq_true, decide_eq_true_eq]
  omega

theorem enclosing_inside (before : List Construct) {after : List Construct}
    (hcon : c.constructs p = k :: (before ++ (arm.constructs a ++ after)))
    (hk : k.opcode < t ∧ t ≤ k.endAddr) (hbefore : ∀ l ∈ before, t ≤ l.opcode ∨ l.endAddr < t)
    (hafter : ∀ l ∈ after, t ≤ l.opcode ∨ l.endAddr < t) :
    c.enclosing p t = k :: arm.enclosing a t := by
  have hself : k.encloses t = true := by
    simpa [Construct.encloses] using hk
  rw [Body.enclosing, hcon, List.filter_cons, if_pos hself, List.filter_append,
    List.filter_append, filter_encloses_nil hbefore, filter_encloses_nil hafter,
    List.nil_append, List.append_nil, Body.enclosing]

theorem enclosing_behind (before : List Construct)
    (hcon : c.constructs p = k :: (before ++ rest'.constructs a)) (hk : k.endAddr < t)
    (hbefore : ∀ l ∈ before, t ≤ l.opcode ∨ l.endAddr < t) :
    c.enclosing p t = rest'.enclosing a t := by
  have hself : ¬k.encloses t = true := by
    simp only [Construct.encloses, Bool.and_eq_true, decide_eq_true_eq]
    omega
  rw [Body.enclosing, hcon, List.filter_cons, if_neg hself, List.filter_append,
    filter_encloses_nil hbefore, List.nil_append, Body.enclosing]

variable {body other : Body}

theorem enclosing_construct (hop : k.opcode = p) (hend : k.endAddr = p + 2 + body.size)
    (hcon : c.constructs p =
      k :: (body.constructs (p + 2) ++ rest'.constructs (p + 2 + body.size + 1))) (hp : p < t) :
    c.enclosing p t = if t ≤ p + 2 + body.size then k :: body.enclosing (p + 2) t
      else rest'.enclosing (p + 2 + body.size + 1) t := by
  by_cases hin : t ≤ p + 2 + body.size
  · rw [if_pos hin]
    refine enclosing_inside [] hcon (by omega) (fun l hl => by cases hl) ?_
    intro l hl
    have := rest'.le_of_mem_constructs _ l hl
    omega
  · rw [if_neg hin]
    refine enclosing_behind _ hcon (by omega) ?_
    intro l hl
    have := body.le_of_mem_constructs _ l hl
    omega

theorem enclosing_ifElse {e : ℕ} (he : e = p + 2 + body.size + 1 + other.size)
    (hk : k = ⟨.ifLabel, vt, p, p + 2, some (p + 2 + body.size), e⟩) (rest' : Body) (hp : p < t) :
    (Body.ifElse vt body other rest').enclosing p t =
      if t ≤ p + 2 + body.size then k :: body.enclosing (p + 2) t
      else if t ≤ e then k :: other.enclosing (p + 2 + body.size + 1) t
      else rest'.enclosing (e + 1) t := by
  have hcon : (Body.ifElse vt body other rest').constructs p =
      k :: (body.constructs (p + 2) ++ (other.constructs (p + 2 + body.size + 1) ++
        rest'.constructs (e + 1))) := by
    rw [hk, he]
    rfl
  have hop : k.opcode = p := by rw [hk]
  have hke : k.endAddr = e := by rw [hk]
  have hrest : ∀ l ∈ rest'.constructs (e + 1), e < l.opcode := by
    intro l hl
    have := rest'.le_of_mem_constructs _ l hl
    omega
  have hother : ∀ l ∈ other.constructs (p + 2 + body.size + 1),
      p + 2 + body.size < l.opcode ∧ l.endAddr < e := by
    intro l hl
    have := other.le_of_mem_constructs _ l hl
    omega
  have hbody : ∀ l ∈ body.constructs (p + 2), l.endAddr < p + 2 + body.size := by
    intro l hl
    have := body.le_of_mem_constructs _ l hl
    omega
  by_cases hthen : t ≤ p + 2 + body.size
  · rw [if_pos hthen]
    refine enclosing_inside [] hcon (by omega) (fun l hl => by cases hl) ?_
    intro l hl
    rcases List.mem_append.mp hl with hl | hl
    · have := hother l hl
      omega
    · have := hrest l hl
      omega
  rw [if_neg hthen]
  have hbefore : ∀ l ∈ body.constructs (p + 2), t ≤ l.opcode ∨ l.endAddr < t := by
    intro l hl
    have := hbody l hl
    omega
  by_cases helse : t ≤ e
  · rw [if_pos helse]
    refine enclosing_inside (body.constructs (p + 2)) hcon (by omega) hbefore ?_
    intro l hl
    have := hrest l hl
    omega
  · rw [if_neg helse]
    rw [← List.append_assoc] at hcon
    refine enclosing_behind _ hcon (by omega) ?_
    intro l hl
    rcases List.mem_append.mp hl with hl | hl
    · exact hbefore l hl
    · have := hother l hl
      omega

/-! ### The scan of a sequence -/

variable {opcode : UInt8} {imm tail : List UInt8}

theorem endsAt_construct (hk : ¬k.Elseless) (hop : k.opcode = p)
    (hend : k.endAddr = p + 2 + body.size)
    (hgoes : Loop.Goes (scanLoop n f t) ⟨p, sp, csp⟩ ⟨p + 2, sp, k.blockOf f sp :: csp⟩)
    (hdrop : f.code.drop (p + 2 + body.size) = 0x0b :: tail)
    (hbody : body.EndsAt n f t (p + 2) sp (k.blockOf f sp :: csp))
    (hrest : p + 2 + body.size < t → rest'.EndsAt n f t (p + 2 + body.size + 1)
      (sp + body.cellsBefore n f.localTypes (p + 2) t) csp)
    (hcon : c.constructs p =
      k :: (body.constructs (p + 2) ++ rest'.constructs (p + 2 + body.size + 1)))
    (hscan : ∀ r, c.scanned p r =
      body.scanned (p + 2) r ++ rest'.scanned (p + 2 + body.size + 1) r)
    (hsize : c.size = 2 + body.size + 1 + rest'.size) (ht : p + 2 ≤ t) (hcsp : csp ≠ []) :
    c.EndsAt n f t p sp csp := by
  have henc := enclosing_construct hop hend hcon (by omega : p < t)
  by_cases hin : t ≤ p + 2 + body.size
  · rw [if_pos hin] at henc
    refine endsAt_inside [] hk hop (fun i hi => by cases hi) rfl hgoes hbody henc ?_ ht hin
      (by omega)
    intro r _ hr
    rw [hscan, rest'.scanned_of_le _ _ (by omega), List.append_nil, List.nil_append]
  · rw [if_neg hin] at henc
    refine endsAt_through [] (fun i hi => by cases hi) rfl hgoes hbody ?_ (hrest (by omega))
      henc ?_ (by omega) (by omega)
    · intro sp₁
      exact Loop.Goes.round (scanLoop_end sp₁ _ csp hdrop (by omega) hcsp)
    · intro r _
      rw [hscan, List.nil_append]

theorem endsAt_ifThen (hdrop : f.code.drop p = 0x04 :: vt :: tail)
    (hfind : f.findBlockAddr (p + 2) .ifLabel = some (none, p + 2 + body.size))
    (hrest : p + 2 + body.size < t →
      rest'.EndsAt n f t (p + 2 + body.size + 1) sp csp) (hp : p < t) :
    (Body.ifThen vt body rest').EndsAt n f t p sp csp := by
  have hgoes : Loop.Goes (scanLoop n f t) ⟨p, sp, csp⟩ ⟨p + 2 + body.size + 1, sp, csp⟩ :=
    Loop.Goes.round (scanLoop_if_skip sp csp hdrop hp hfind)
  have hscan : ∀ r, p < r → (Body.ifThen vt body rest').scanned p r
      = .ifOp :: rest'.scanned (p + 2 + body.size + 1) r := by
    intro r hr
    rw [Body.scanned, if_neg (by omega)]
  have hzero : Item.cells n f.localTypes .ifOp = 0 := rfl
  have henc := enclosing_construct (p := p) (c := Body.ifThen vt body rest')
    (k := ⟨.ifLabel, vt, p, p + 2, none, p + 2 + body.size⟩) rfl rfl rfl hp
  by_cases hin : t ≤ p + 2 + body.size
  · rw [if_pos hin] at henc
    refine .passes ?_ ?_ (p + 2 + body.size + 1) sp [] (by omega) List.nil_suffix ?_ hgoes
    · rw [hscan t hp, rest'.scanned_of_le _ _ (by omega)]
      intro i hi
      obtain rfl := List.mem_singleton.mp hi
      exact id
    · rw [henc]
      exact ⟨_, List.mem_cons_self, rfl, rfl⟩
    · rw [henc, found_cons_elseless ⟨rfl, rfl⟩]
      rfl
  · have hrest := hrest (by omega)
    rw [if_neg hin] at henc
    refine endsAt_after .ifOp id ?_ ?_ henc hscan hp (by omega) (by simp only [Body.size]; omega)
    · rw [hzero, Int.add_zero]
      exact hgoes
    · rw [hzero, Int.add_zero]
      exact hrest

theorem endsAt_ifElse {e : ℕ} (he : e = p + 2 + body.size + 1 + other.size)
    (hk : k = ⟨.ifLabel, vt, p, p + 2, some (p + 2 + body.size), e⟩)
    (hdrop : f.code.drop p = 0x04 :: vt :: tail)
    (hfind : f.findBlockAddr (p + 2) .ifLabel = some (some (p + 2 + body.size), e))
    {tail' : List UInt8} (hend : f.code.drop e = 0x0b :: tail')
    (hbody : t ≤ p + 2 + body.size →
      body.EndsAt n f t (p + 2) sp (k.blockOf f sp :: csp))
    (hother : p + 2 + body.size < t →
      other.EndsAt n f t (p + 2 + body.size + 1) sp (k.blockOf f sp :: csp))
    (hrest : e < t → rest'.EndsAt n f t (e + 1)
      (sp + other.cellsBefore n f.localTypes (p + 2 + body.size + 1) t) csp)
    (ht : p + 2 ≤ t) (hcsp : csp ≠ []) :
    (Body.ifElse vt body other rest').EndsAt n f t p sp csp := by
  have hret : ∀ i ∈ [Item.ifOp], ¬i.IsReturn := by
    intro i hi
    obtain rfl := List.mem_singleton.mp hi
    exact id
  have hless : ¬k.Elseless := by
    rintro ⟨-, h⟩
    rw [hk] at h
    cases h
  have hround := scanLoop_if_arm (n := n) sp csp hdrop (by omega : p < t) hfind
  have hblock : k.blockOf f sp = ⟨p + 2, e, f.spOffset sp, valueTypeCells vt⟩ := by
    rw [hk]
    rfl
  have hsize : (Body.ifElse vt body other rest').size
      = 2 + body.size + 1 + other.size + 1 + rest'.size := rfl
  have hop : k.opcode = p := by rw [hk]
  have henc := enclosing_ifElse he hk rest' (by omega : p < t)
  by_cases hthen : t ≤ p + 2 + body.size
  · rw [if_pos hthen, ← hblock] at hround
    rw [if_pos hthen] at henc
    refine endsAt_inside [.ifOp] hless hop hret rfl (Loop.Goes.round hround) (hbody hthen) henc
      ?_ ht hthen (by omega)
    intro r hr hle
    rw [Body.scanned, if_neg (by omega), if_pos hle, other.scanned_of_le _ _ (by omega),
      rest'.scanned_of_le _ _ (by omega), List.append_nil, List.append_nil]
    rfl
  rw [if_neg hthen, ← hblock] at hround
  rw [if_neg hthen] at henc
  by_cases helse : t ≤ e
  · rw [if_pos helse] at henc
    refine endsAt_inside [.ifOp] hless hop hret rfl (Loop.Goes.round hround) (hother (by omega))
      henc ?_ (by omega) (by omega) (by omega)
    intro r hr hle
    rw [Body.scanned, if_neg (by omega), if_neg (by omega), List.nil_append,
      rest'.scanned_of_le _ _ (by omega), List.append_nil]
    rfl
  · have htail := hrest (by omega)
    rw [if_neg helse, he] at henc
    rw [he] at htail
    refine endsAt_through [.ifOp] hret rfl (Loop.Goes.round hround) (hother (by omega)) ?_ htail
      henc ?_ (by omega) (by omega)
    · intro sp₁
      rw [← he]
      exact Loop.Goes.round (scanLoop_end sp₁ _ csp hend (by omega) hcsp)
    · intro r hr
      rw [Body.scanned, if_neg (by omega), if_neg (by omega), List.nil_append]
      rfl

theorem split_boundaries (body : Body) (a e : ℕ) (behind : List ℕ)
    (h : t ∈ body.boundaries a ++ (a + body.size) :: behind ∨ e ≤ t)
    (hbehind : ∀ x ∈ behind, a + body.size < x) (he : a + body.size < e) :
    a ≤ t ∧ (t ∈ body.boundaries a ∨ a + body.size ≤ t) ∧
      (a + body.size < t → t ∈ behind ∨ e ≤ t) := by
  rw [List.mem_append, List.mem_cons] at h
  rcases h with (h | rfl | h) | h
  · have hbound := body.le_of_mem_boundaries a t h
    exact ⟨hbound.1, .inl h, fun hlt => absurd hlt (by omega)⟩
  · exact ⟨Nat.le_add_right _ _, .inr (Nat.le_refl _), fun hlt => absurd hlt (by omega)⟩
  · have hbound := hbehind t h
    exact ⟨by omega, .inr (by omega), fun _ => .inl h⟩
  · exact ⟨by omega, .inr (by omega), fun _ => .inr h⟩

theorem split_construct (body rest : Body) (hstart : t ≠ p)
    (ht : t ∈ p :: (body.boundaries (p + 2) ++
      (p + 2 + body.size) :: rest.boundaries (p + 2 + body.size + 1)) ∨
      p + (2 + body.size + 1 + rest.size) ≤ t) :
    p + 2 ≤ t ∧ (t ∈ body.boundaries (p + 2) ∨ p + 2 + body.size ≤ t) ∧
      (p + 2 + body.size < t → t ∈ rest.boundaries (p + 2 + body.size + 1) ∨
        p + 2 + body.size + 1 + rest.size ≤ t) := by
  rw [List.mem_cons] at ht
  have hin : t ∈ body.boundaries (p + 2) ++
      (p + 2 + body.size) :: rest.boundaries (p + 2 + body.size + 1) ∨
      p + 2 + body.size + 1 + rest.size ≤ t :=
    ht.imp (fun h => h.resolve_left hstart) fun h => by omega
  refine split_boundaries body (p + 2) _ _ hin ?_ (by omega)
  intro x hx
  have := rest.le_of_mem_boundaries _ x hx
  omega

theorem drop_construct {valueType : UInt8} (body rest : Body)
    (h : f.code.drop p = opcode :: valueType :: (body.encode ++ 0x0b :: rest.encode) ++ tail) :
    f.code.drop p = opcode :: valueType :: (body.encode ++ (0x0b :: (rest.encode ++ tail))) ∧
      f.code.drop (p + 2) = body.encode ++ (0x0b :: (rest.encode ++ tail)) ∧
        f.code.drop (p + 2 + body.size) = 0x0b :: (rest.encode ++ tail) := by
  simp only [List.cons_append, List.append_assoc] at h
  have hbody := drop_of_drop_cons (drop_of_drop_cons h)
  exact ⟨h, hbody, drop_of_drop body.size hbody body.length_encode⟩

theorem endsAt (c : Body) (p : ℕ) (sp : ℤ) (csp : List BranchBlock) (tail : List UInt8)
    (hcode : f.code.drop p = c.encode ++ tail) (hvalid : c.Valid n f.localTypes)
    (hfind : Finds f (c.constructs p)) (hcsp : csp ≠ []) (hp : p ≤ t)
    (ht : t ∈ c.boundaries p ∨ p + c.size ≤ t)
    (hharmless : ∀ i ∈ c.scanned p t, i.Harmless n) : c.EndsAt n f t p sp csp := by
  induction c generalizing p sp csp tail with
  | nil =>
    exact (Ends.here (s := ⟨p, sp, csp⟩)).cast (Nat.min_eq_right hp).symm (Int.add_zero sp).symm
      rfl rfl rfl
  | plain opcode imm rest ih =>
    by_cases hstart : t = p
    · exact endsAt_here _ sp csp hstart
    obtain ⟨hok, hvalid⟩ := hvalid
    have hdrop : f.code.drop p = opcode :: (imm ++ (rest.encode ++ tail)) := by
      rw [hcode, Body.encode, List.cons_append, List.append_assoc]
    have hscan : ∀ r, p < r → (Body.plain opcode imm rest).scanned p r
        = .plain opcode imm :: rest.scanned (p + (1 + imm.length)) r := by
      intro r hr
      rw [Body.scanned, if_neg (by omega)]
    by_cases hret : opcode = 0x0f
    · subst hret
      refine .exits ⟨.plain 0x0f imm, ?_, rfl⟩
        (Loop.Leaves.now (scanLoop_return sp csp hdrop (by omega)))
      rw [hscan t (by omega)]
      exact List.mem_cons_self
    · rw [hscan t (by omega), List.forall_mem_cons] at hharmless
      have hnext : t ∈ rest.boundaries (p + (1 + imm.length)) ∨
          p + (1 + imm.length) + rest.size ≤ t := by
        simp only [Body.boundaries, List.mem_cons, hstart, false_or, Body.size] at ht
        exact ht.imp_right fun h => by omega
      have hle : p + (1 + imm.length) ≤ t := by
        rcases hnext with h | h
        · exact (rest.le_of_mem_boundaries _ t h).1
        · omega
      have htail := drop_of_drop imm.length (drop_of_drop_cons hdrop) rfl
      rw [Nat.add_assoc] at htail
      exact endsAt_after (.plain opcode imm) hret
        (Loop.Goes.round (scanLoop_plain sp csp imm hdrop (by omega) hok hret))
        (ih _ _ csp tail htail hvalid hfind hcsp hle hnext hharmless.2) rfl hscan (by omega)
        (by omega) (by simp only [Body.size]; omega)
  | brTable count labels rest ih =>
    by_cases hstart : t = p
    · exact endsAt_here _ sp csp hstart
    obtain ⟨hcount, -, -, hvalid⟩ := hvalid
    have hdrop : f.code.drop p = 0x0e :: (count ++ (labels.flatten ++ (rest.encode ++ tail))) := by
      rw [hcode, Body.encode, List.cons_append, List.append_assoc, List.append_assoc]
    have hscan : ∀ r, p < r → (Body.brTable count labels rest).scanned p r
        = .table labels :: rest.scanned (p + (1 + count.length + labels.flatten.length)) r := by
      intro r hr
      rw [Body.scanned, if_neg (by omega)]
    rw [hscan t (by omega), List.forall_mem_cons] at hharmless
    have hnext : t ∈ rest.boundaries (p + (1 + count.length + labels.flatten.length)) ∨
        p + (1 + count.length + labels.flatten.length) + rest.size ≤ t := by
      simp only [Body.boundaries, List.mem_cons, hstart, false_or, Body.size] at ht
      exact ht.imp_right fun h => by omega
    have hle : p + (1 + count.length + labels.flatten.length) ≤ t := by
      rcases hnext with h | h
      · exact (rest.le_of_mem_boundaries _ t h).1
      · omega
    have htail := drop_of_drop labels.flatten.length
      (drop_of_drop count.length (drop_of_drop_cons hdrop) rfl) rfl
    have hpos : p + 1 + count.length + labels.flatten.length
        = p + (1 + count.length + labels.flatten.length) := by omega
    rw [hpos] at htail
    exact endsAt_after (.table labels) id (goes_table sp csp hdrop hcount hle hharmless.1)
      (ih _ _ csp tail htail hvalid hfind hcsp hle hnext hharmless.2) rfl hscan (by omega)
      (by omega) (by simp only [Body.size]; omega)
  | block valueType body rest ihb ih =>
    by_cases hstart : t = p
    · exact endsAt_here _ sp csp hstart
    obtain ⟨-, hvalidBody, hvalidRest⟩ := hvalid
    obtain ⟨hdrop, hbodyCode, hendCode⟩ := drop_construct body rest hcode
    obtain ⟨hle, hbody, hrest⟩ := split_construct body rest hstart ht
    rw [Body.scanned, List.forall_mem_append] at hharmless
    have hmem := List.forall_mem_cons.mp hfind
    rw [List.forall_mem_append] at hmem
    obtain ⟨hself, hfindBody, hfindRest⟩ := hmem
    exact endsAt_construct (k := ⟨.block, valueType, p, p + 2, none, p + 2 + body.size⟩)
      (fun h => by cases h.1) rfl rfl
      (Loop.Goes.round (scanLoop_block sp csp hdrop (by omega) (hself (by simp)))) hendCode
      (ihb _ _ _ _ hbodyCode hvalidBody hfindBody (List.cons_ne_nil _ _) hle hbody hharmless.1)
      (fun hlt => ih _ _ _ _ (drop_of_drop_cons hendCode) hvalidRest hfindRest hcsp hlt
        (hrest hlt) hharmless.2) rfl (fun _ => rfl) rfl hle hcsp
  | loop valueType body rest ihb ih =>
    by_cases hstart : t = p
    · exact endsAt_here _ sp csp hstart
    obtain ⟨-, hvalidBody, hvalidRest⟩ := hvalid
    obtain ⟨hdrop, hbodyCode, hendCode⟩ := drop_construct body rest hcode
    obtain ⟨hle, hbody, hrest⟩ := split_construct body rest hstart ht
    rw [Body.scanned, List.forall_mem_append] at hharmless
    have hmem := List.forall_mem_cons.mp hfind
    rw [List.forall_mem_append] at hmem
    obtain ⟨-, hfindBody, hfindRest⟩ := hmem
    exact endsAt_construct (k := ⟨.loop, valueType, p, p + 2, none, p + 2 + body.size⟩)
      (fun h => by cases h.1) rfl rfl
      (Loop.Goes.round (scanLoop_loop sp csp hdrop (by omega))) hendCode
      (ihb _ _ _ _ hbodyCode hvalidBody hfindBody (List.cons_ne_nil _ _) hle hbody hharmless.1)
      (fun hlt => ih _ _ _ _ (drop_of_drop_cons hendCode) hvalidRest hfindRest hcsp hlt
        (hrest hlt) hharmless.2) rfl (fun _ => rfl) rfl hle hcsp
  | ifThen valueType body rest ihb ih =>
    by_cases hstart : t = p
    · exact endsAt_here _ sp csp hstart
    obtain ⟨-, -, hvalidRest⟩ := hvalid
    obtain ⟨hdrop, -, hendCode⟩ := drop_construct body rest hcode
    obtain ⟨hle, -, hrest⟩ := split_construct body rest hstart ht
    rw [Body.scanned, if_neg (by omega), List.forall_mem_cons] at hharmless
    have hmem := List.forall_mem_cons.mp hfind
    rw [List.forall_mem_append] at hmem
    obtain ⟨hself, -, hfindRest⟩ := hmem
    exact endsAt_ifThen hdrop (hself (by simp))
      (fun hlt => ih _ _ _ _ (drop_of_drop_cons hendCode) hvalidRest hfindRest hcsp hlt
        (hrest hlt) hharmless.2) (by omega)
  | ifElse valueType body other rest ihb iho ih =>
    by_cases hstart : t = p
    · exact endsAt_here _ sp csp hstart
    obtain ⟨-, hvalidBody, hvalidOther, hvalidRest⟩ := hvalid
    have hdrop : f.code.drop p = 0x04 :: valueType ::
        (body.encode ++ (0x05 :: (other.encode ++ (0x0b :: (rest.encode ++ tail))))) := by
      rw [hcode, Body.encode]
      simp only [List.cons_append, List.append_assoc]
    have hbodyCode := drop_of_drop_cons (drop_of_drop_cons hdrop)
    have helseCode := drop_of_drop body.size hbodyCode body.length_encode
    have hotherCode := drop_of_drop_cons helseCode
    have hendCode := drop_of_drop other.size hotherCode other.length_encode
    have hbehind : ∀ x ∈ rest.boundaries (p + 2 + body.size + 1 + other.size + 1),
        p + 2 + body.size + 1 + other.size < x := by
      intro x hx
      have := rest.le_of_mem_boundaries _ x hx
      omega
    obtain ⟨hle, hbody, helse⟩ := split_boundaries body (p + 2)
      (p + 2 + body.size + 1 + other.size + 1 + rest.size)
      (other.boundaries (p + 2 + body.size + 1) ++ (p + 2 + body.size + 1 + other.size) ::
        rest.boundaries (p + 2 + body.size + 1 + other.size + 1))
      (by simp only [Body.boundaries, List.mem_cons, hstart, false_or, Body.size] at ht
          exact ht.imp_right fun h => by omega)
      (fun x hx => by
        rcases List.mem_append.mp hx with hx | hx
        · have := other.le_of_mem_boundaries _ x hx
          omega
        · rcases List.mem_cons.mp hx with rfl | hx
          · omega
          · have := hbehind x hx
            omega) (by omega)
    have hsplit := fun hlt => split_boundaries other (p + 2 + body.size + 1)
      (p + 2 + body.size + 1 + other.size + 1 + rest.size)
      (rest.boundaries (p + 2 + body.size + 1 + other.size + 1)) (helse hlt) hbehind (by omega)
    rw [Body.scanned, if_neg (by omega), List.forall_mem_cons, List.forall_mem_append,
      List.forall_mem_append] at hharmless
    obtain ⟨-, hharmlessBody, hharmlessOther, hharmlessRest⟩ := hharmless
    have hmem := List.forall_mem_cons.mp hfind
    rw [List.forall_mem_append, List.forall_mem_append] at hmem
    obtain ⟨hself, hfindBody, hfindOther, hfindRest⟩ := hmem
    refine endsAt_ifElse rfl rfl hdrop (hself (by simp)) hendCode ?_ ?_ ?_ hle hcsp
    · intro hthen
      rw [if_pos hthen] at hharmlessBody
      exact ihb _ _ _ _ hbodyCode hvalidBody hfindBody (List.cons_ne_nil _ _) hle hbody
        hharmlessBody
    · intro hlt
      exact iho _ _ _ _ hotherCode hvalidOther hfindOther (List.cons_ne_nil _ _) hlt
        (hsplit hlt).2.1 hharmlessOther
    · intro hlt
      exact ih _ _ _ _ (drop_of_drop_cons hendCode) hvalidRest hfindRest hcsp hlt
        ((hsplit (by omega)).2.2 hlt) hharmlessRest

end MVVM.Interp
