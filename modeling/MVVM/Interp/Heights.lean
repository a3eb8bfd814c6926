import MVVM.Interp.Typing
import Mathlib.Data.List.Nodup

/-!
# The heights of the labels

The scan never takes the condition of an `if` from the stack, reads over calls as if these
took and left nothing, and goes on counting in dead code. What it counts too much before a
position adds up to a number, and the label is right when that number does not matter.
-/

namespace MVVM.Interp

/-- The cells counted too much before a position, in a sequence that begins at height `h`
and has to end at height `r`: one for each `if`, what calls and `MEMORY_GROW` add, and for
each sequence that ends in dead code the height at the jump and what the dead code adds,
less the height at which the sequence has to end. -/
@[simp]
def Body.drift (n : Internal) (m : ModuleTypes) (localTypes : List UInt8) :
    Body → ℕ → ℤ → ℤ → ℕ → ℤ
  | nil, _, _, _, _ => 0
  | plain opcode imm rest, p, h, r, q =>
    if q ≤ p then 0
    else if IsJump opcode then h + rest.cellsBefore n localTypes (p + (1 + imm.length)) q - r
    else plainError m opcode imm + rest.drift n m localTypes (p + (1 + imm.length))
      (h + plainEffect n m localTypes opcode imm) r q
  | brTable count labels rest, p, h, r, q =>
    if q ≤ p then 0
    else h + Item.cells n localTypes (.table labels) +
      rest.cellsBefore n localTypes (p + (1 + count.length + labels.flatten.length)) q - r
  | block vt body rest, p, h, r, q | loop vt body rest, p, h, r, q =>
    body.drift n m localTypes (p + 2) h (h + valueTypeCells vt) q +
      rest.drift n m localTypes (p + 2 + body.size + 1) (h + valueTypeCells vt) r q
  | ifThen _ body rest, p, h, r, q =>
    if q ≤ p then 0
    else 1 + rest.drift n m localTypes (p + 2 + body.size + 1) (h - 1) r q
  | ifElse vt body other rest, p, h, r, q =>
    if q ≤ p then 0
    else 1 + ((if q ≤ p + 2 + body.size then
        body.drift n m localTypes (p + 2) (h - 1) (h - 1 + valueTypeCells vt) q else 0) +
      (other.drift n m localTypes (p + 2 + body.size + 1) (h - 1) (h - 1 + valueTypeCells vt) q +
        rest.drift n m localTypes (p + 2 + body.size + 1 + other.size + 1)
          (h - 1 + valueTypeCells vt) r q))

variable {n : Internal} {m : ModuleTypes} {localTypes : List UInt8} {p q t : ℕ} {h r : ℤ}
  {k : Construct} {opcode : UInt8} {imm : List UInt8}

theorem drift_of_le (c : Body) (p : ℕ) (h r : ℤ) (hq : q ≤ p) :
    c.drift n m localTypes p h r q = 0 := by
  induction c generalizing p h r with
  | nil => rfl
  | plain opcode imm rest ih => rw [Body.drift, if_pos hq]
  | brTable count labels rest ih => rw [Body.drift, if_pos hq]
  | block vt body rest ihb ih | loop vt body rest ihb ih =>
    rw [Body.drift, ihb _ _ _ (by omega), ih _ _ _ (by omega), Int.add_zero]
  | ifThen vt body rest ihb ih => rw [Body.drift, if_pos hq]
  | ifElse vt body other rest ihb iho ih => rw [Body.drift, if_pos hq]

theorem cellsBefore_of_le (c : Body) (p : ℕ) (hq : q ≤ p) : c.cellsBefore n localTypes p q = 0 := by
  rw [Body.cellsBefore, c.scanned_of_le p q hq]
  rfl

theorem plainEffect_of_type {ty : FuncType} (hty : plainType n m localTypes opcode imm = some ty) :
    plainEffect n m localTypes opcode imm = ty.effect := by
  rw [plainEffect, hty]
  rfl

theorem plainCells_jump (hjump : IsJump opcode) : plainCells n localTypes opcode imm = 0 := by
  rcases hjump with rfl | rfl | rfl <;> rfl

/-! ### The cells of a sequence, by its parts -/

theorem cellsBefore_plain (opcode : UInt8) (imm : List UInt8) (rest : Body) (hp : p < q) :
    (Body.plain opcode imm rest).cellsBefore n localTypes p q
      = plainCells n localTypes opcode imm +
        rest.cellsBefore n localTypes (p + (1 + imm.length)) q := by
  rw [Body.cellsBefore, Body.scanned, if_neg (by omega), List.map_cons, List.sum_cons,
    Body.cellsBefore]
  rfl

theorem cellsBefore_brTable (count : List UInt8) (labels : List (List UInt8)) (rest : Body)
    (hp : p < q) :
    (Body.brTable count labels rest).cellsBefore n localTypes p q
      = Item.cells n localTypes (.table labels) +
        rest.cellsBefore n localTypes (p + (1 + count.length + labels.flatten.length)) q := by
  rw [Body.cellsBefore, Body.scanned, if_neg (by omega), List.map_cons, List.sum_cons,
    Body.cellsBefore]

theorem cellsBefore_ifThen (vt : UInt8) (body rest : Body) (hp : p < q) :
    (Body.ifThen vt body rest).cellsBefore n localTypes p q
      = rest.cellsBefore n localTypes (p + 2 + body.size + 1) q := by
  rw [Body.cellsBefore, Body.scanned, if_neg (by omega), List.map_cons, List.sum_cons,
    Body.cellsBefore]
  exact Int.zero_add _

theorem cellsBefore_block (vt : UInt8) (body rest : Body) (p q : ℕ) :
    (Body.block vt body rest).cellsBefore n localTypes p q
      = body.cellsBefore n localTypes (p + 2) q +
        rest.cellsBefore n localTypes (p + 2 + body.size + 1) q := by
  rw [Body.cellsBefore, Body.scanned, List.map_append, List.sum_append, Body.cellsBefore,
    Body.cellsBefore]

theorem cellsBefore_ifElse (vt : UInt8) (body other rest : Body) (hp : p < q) :
    (Body.ifElse vt body other rest).cellsBefore n localTypes p q
      = (if q ≤ p + 2 + body.size then body.cellsBefore n localTypes (p + 2) q else 0) +
        (other.cellsBefore n localTypes (p + 2 + body.size + 1) q +
          rest.cellsBefore n localTypes (p + 2 + body.size + 1 + other.size + 1) q) := by
  have hitem : Item.cells n localTypes .ifOp = 0 := rfl
  have hskip : ¬q ≤ p := by omega
  simp only [Body.cellsBefore, Body.scanned, if_neg hskip, List.map_cons, List.sum_cons, hitem,
    Int.zero_add, List.map_append, List.sum_append]
  by_cases hthen : q ≤ p + 2 + body.size
  · rw [if_pos hthen, if_pos hthen]
  · rw [if_neg hthen, if_neg hthen]
    rfl

theorem cellsBefore_whole (c : Body) (p : ℕ) (h r : ℤ) (hvalid : c.Valid n localTypes)
    (ht : c.Typed n m localTypes h r) (hq : p + c.size ≤ q) :
    c.cellsBefore n localTypes p q = r - h + c.drift n m localTypes p h r q := by
  induction c generalizing p h r with
  | nil =>
    obtain rfl : h = r := ht
    have hnone : Body.nil.cellsBefore n localTypes p q = 0 := rfl
    rw [hnone, Body.drift, Int.sub_self, Int.add_zero]
  | plain opcode imm rest ih =>
    obtain ⟨hok, hvalid⟩ := hvalid
    simp only [Body.size] at hq
    rw [cellsBefore_plain _ _ _ (by omega), Body.drift, if_neg (by omega)]
    by_cases hjump : IsJump opcode
    · rw [if_pos hjump, plainCells_jump hjump]
      omega
    · obtain ⟨ty, hty, ht⟩ := ht.resolve_left hjump
      have hrest := ih (p + (1 + imm.length)) _ _ hvalid ht (by omega)
      rw [if_neg hjump, hrest, plainCells_eq hok hjump hty, plainEffect_of_type hty]
      omega
  | brTable count labels rest ih =>
    simp only [Body.size] at hq
    rw [cellsBefore_brTable _ _ _ (by omega), Body.drift, if_neg (by omega)]
    omega
  | block vt body rest ihb ih | loop vt body rest ihb ih =>
    obtain ⟨-, hvalidBody, hvalidRest⟩ := hvalid
    simp only [Body.size] at hq
    have hbody := ihb (p + 2) _ _ hvalidBody ht.1 (by omega)
    have hrest := ih (p + 2 + body.size + 1) _ _ hvalidRest ht.2 (by omega)
    change (Body.block vt body rest).cellsBefore n localTypes p q = _
    rw [cellsBefore_block, hbody, hrest, Body.drift]
    omega
  | ifThen vt body rest ihb ih =>
    obtain ⟨-, -, hvalidRest⟩ := hvalid
    obtain ⟨-, -, htypedRest⟩ := ht
    simp only [Body.size] at hq
    have hrest := ih (p + 2 + body.size + 1) _ _ hvalidRest htypedRest (by omega)
    rw [cellsBefore_ifThen _ _ _ (by omega), hrest, Body.drift, if_neg (by omega)]
    omega
  | ifElse vt body other rest ihb iho ih =>
    obtain ⟨-, -, hvalidOther, hvalidRest⟩ := hvalid
    obtain ⟨-, htypedOther, htypedRest⟩ := ht
    simp only [Body.size] at hq
    have hother := iho (p + 2 + body.size + 1) _ _ hvalidOther htypedOther (by omega)
    have hrest := ih (p + 2 + body.size + 1 + other.size + 1) _ _ hvalidRest htypedRest (by omega)
    rw [cellsBefore_ifElse _ _ _ _ (by omega), hother, hrest, Body.drift, if_neg (by omega),
      if_neg (by omega), if_neg (by omega)]
    omega

/-! ### The cells before a position that is reached -/

/-- Before a position the scan has counted the height, and the drift on top of it. -/
def Body.Reckoned (n : Internal) (m : ModuleTypes) (localTypes : List UInt8) (c : Body) (p : ℕ)
    (h r : ℤ) (q : ℕ) : Prop :=
  ∃ height, c.heightAt n m localTypes p h q = some height ∧
    c.cellsBefore n localTypes p q = height - h + c.drift n m localTypes p h r q

variable {vt : UInt8} {body other rest : Body}

theorem reckoned_start {c : Body} (hat : c.heightAt n m localTypes p h p = some h) :
    c.Reckoned n m localTypes p h r p := by
  refine ⟨h, hat, ?_⟩
  rw [cellsBefore_of_le c p (Nat.le_refl p), drift_of_le c p h r (Nat.le_refl p), Int.sub_self,
    Int.add_zero]

theorem reckoned_plain {ty : FuncType} (hok : PlainOk n localTypes opcode imm)
    (hjump : ¬IsJump opcode) (hty : plainType n m localTypes opcode imm = some ty) (hp : p < q)
    (hrest : rest.Reckoned n m localTypes (p + (1 + imm.length)) (h + ty.effect) r q) :
    (Body.plain opcode imm rest).Reckoned n m localTypes p h r q := by
  obtain ⟨height, hat, hcells⟩ := hrest
  have heffect := plainEffect_of_type hty
  refine ⟨height, ?_, ?_⟩
  · rw [Body.heightAt, if_neg (by omega), if_neg hjump, heffect, hat]
  · rw [cellsBefore_plain _ _ _ hp, Body.drift, if_neg (by omega), if_neg hjump, heffect, hcells,
      plainCells_eq hok hjump hty]
    omega

theorem reckoned_block_body (hp : p + 2 ≤ q) (hq : q < p + 2 + body.size)
    (hbody : body.Reckoned n m localTypes (p + 2) h (h + valueTypeCells vt) q) :
    (Body.block vt body rest).Reckoned n m localTypes p h r q := by
  obtain ⟨height, hat, hcells⟩ := hbody
  refine ⟨height, ?_, ?_⟩
  · rw [Body.heightAt, if_neg (by omega), if_pos hq, hat]
  · rw [cellsBefore_block, Body.drift, hcells, cellsBefore_of_le rest _ (by omega),
      drift_of_le rest _ _ _ (by omega)]
    omega

theorem reckoned_block_rest (hvalid : body.Valid n localTypes)
    (ht : body.Typed n m localTypes h (h + valueTypeCells vt)) (hq : p + 2 + body.size < q)
    (hrest : rest.Reckoned n m localTypes (p + 2 + body.size + 1) (h + valueTypeCells vt) r q) :
    (Body.block vt body rest).Reckoned n m localTypes p h r q := by
  obtain ⟨height, hat, hcells⟩ := hrest
  have hbody := cellsBefore_whole body (p + 2) h _ hvalid ht (Nat.le_of_lt hq)
  refine ⟨height, ?_, ?_⟩
  · rw [Body.heightAt, if_neg (by omega), if_neg (by omega), if_neg (by omega), hat]
  · rw [cellsBefore_block, Body.drift, hbody, hcells]
    omega

theorem reckoned_ifThen (hvt : valueTypeCells vt = 0) (hq : p + 2 + body.size < q)
    (hrest : rest.Reckoned n m localTypes (p + 2 + body.size + 1) (h - 1) r q) :
    (Body.ifThen vt body rest).Reckoned n m localTypes p h r q := by
  obtain ⟨height, hat, hcells⟩ := hrest
  refine ⟨height, ?_, ?_⟩
  · rw [Body.heightAt, if_neg (by omega), if_neg (by omega), if_neg (by omega), hvt]
    simpa using hat
  · rw [cellsBefore_ifThen _ _ _ (by omega), Body.drift, if_neg (by omega), hcells]
    omega

theorem reckoned_ifElse_body (hp : p + 2 ≤ q) (hq : q < p + 2 + body.size)
    (hbody : body.Reckoned n m localTypes (p + 2) (h - 1) (h - 1 + valueTypeCells vt) q) :
    (Body.ifElse vt body other rest).Reckoned n m localTypes p h r q := by
  obtain ⟨height, hat, hcells⟩ := hbody
  refine ⟨height, ?_, ?_⟩
  · rw [Body.heightAt, if_neg (by omega), if_pos hq, hat]
  · rw [cellsBefore_ifElse _ _ _ _ (by omega), if_pos (by omega), Body.drift,
      if_neg (by omega : ¬q ≤ p), if_pos (by omega), hcells, cellsBefore_of_le other _ (by omega),
      cellsBefore_of_le rest _ (by omega), drift_of_le other _ _ _ (by omega),
      drift_of_le rest _ _ _ (by omega)]
    omega

theorem reckoned_ifElse_other (hp : p + 2 + body.size < q)
    (hq : q < p + 2 + body.size + 1 + other.size)
    (hother : other.Reckoned n m localTypes (p + 2 + body.size + 1) (h - 1)
      (h - 1 + valueTypeCells vt) q) :
    (Body.ifElse vt body other rest).Reckoned n m localTypes p h r q := by
  obtain ⟨height, hat, hcells⟩ := hother
  refine ⟨height, ?_, ?_⟩
  · rw [Body.heightAt, if_neg (by omega), if_neg (by omega), if_neg (by omega), if_pos hq, hat]
  · rw [cellsBefore_ifElse _ _ _ _ (by omega), Body.drift, if_neg (by omega),
      if_neg (by omega), if_neg (by omega), hcells, cellsBefore_of_le rest _ (by omega),
      drift_of_le rest _ _ _ (by omega)]
    omega

theorem reckoned_ifElse_rest (hvalid : other.Valid n localTypes)
    (ht : other.Typed n m localTypes (h - 1) (h - 1 + valueTypeCells vt))
    (hq : p + 2 + body.size + 1 + other.size < q)
    (hrest : rest.Reckoned n m localTypes (p + 2 + body.size + 1 + other.size + 1)
      (h - 1 + valueTypeCells vt) r q) :
    (Body.ifElse vt body other rest).Reckoned n m localTypes p h r q := by
  obtain ⟨height, hat, hcells⟩ := hrest
  have hother := cellsBefore_whole other (p + 2 + body.size + 1) _ _ hvalid ht (Nat.le_of_lt hq)
  refine ⟨height, ?_, ?_⟩
  · rw [Body.heightAt, if_neg (by omega), if_neg (by omega), if_neg (by omega), if_neg (by omega),
      if_neg (by omega), hat]
  · rw [cellsBefore_ifElse _ _ _ _ (by omega), Body.drift, if_neg (by omega),
      if_neg (by omega), if_neg (by omega), hother, hcells]
    omega

/-! ### The constructs whose labels are found -/

theorem reckoned_construct {k₀ : Construct} (hop : k₀.opcode = p) (hless : ¬k₀.Elseless)
    (hvalidBody : body.Valid n localTypes) (hvalidRest : rest.Valid n localTypes)
    (htBody : body.Typed n m localTypes h (h + valueTypeCells vt))
    (htRest : rest.Typed n m localTypes (h + valueTypeCells vt) r) (hp : p < t)
    (hreach : ((Body.block vt body rest).heightAt n m localTypes p h t).isSome)
    (hk : k ∈ found (if t ≤ p + 2 + body.size then k₀ :: body.enclosing (p + 2) t
      else rest.enclosing (p + 2 + body.size + 1) t))
    (ihb : ∀ p h r, body.Valid n localTypes → body.Typed n m localTypes h r →
      (body.heightAt n m localTypes p h t).isSome → k ∈ found (body.enclosing p t) →
        body.Reckoned n m localTypes p h r k.opcode)
    (ih : ∀ p h r, rest.Valid n localTypes → rest.Typed n m localTypes h r →
      (rest.heightAt n m localTypes p h t).isSome → k ∈ found (rest.enclosing p t) →
        rest.Reckoned n m localTypes p h r k.opcode) :
    (Body.block vt body rest).Reckoned n m localTypes p h r k.opcode := by
  rw [Body.heightAt, if_neg (by omega)] at hreach
  by_cases hin : t ≤ p + 2 + body.size
  · rw [if_pos hin, found_cons hless] at hk
    rcases List.mem_cons.mp hk with rfl | hk
    · rw [hop]
      exact reckoned_start (by simp)
    · have hbound := le_of_mem_enclosing (mem_of_mem_found hk)
      rw [if_pos (by omega)] at hreach
      exact reckoned_block_body (by omega) (by omega) (ihb _ _ _ hvalidBody htBody hreach hk)
  · rw [if_neg hin] at hk
    have hbound := le_of_mem_enclosing (mem_of_mem_found hk)
    rw [if_neg (by omega), if_neg (by omega)] at hreach
    exact reckoned_block_rest hvalidBody htBody (by omega) (ih _ _ _ hvalidRest htRest hreach hk)

theorem reckoned_found (c : Body) (p : ℕ) (h r : ℤ) (hvalid : c.Valid n localTypes)
    (ht : c.Typed n m localTypes h r) (hreach : (c.heightAt n m localTypes p h t).isSome)
    (hk : k ∈ found (c.enclosing p t)) : c.Reckoned n m localTypes p h r k.opcode := by
  induction c generalizing p h r with
  | nil => cases hreach
  | plain opcode imm rest ih =>
    rw [Body.heightAt] at hreach
    by_cases hstart : t = p
    · have henc := (Body.plain opcode imm rest).enclosing_outside p t (Or.inl (by omega))
      rw [henc] at hk
      cases hk
    rw [if_neg hstart] at hreach
    by_cases hjump : IsJump opcode
    · rw [if_pos hjump] at hreach
      cases hreach
    rw [if_neg hjump] at hreach
    obtain ⟨ty, hty, ht⟩ := ht.resolve_left hjump
    rw [plainEffect_of_type hty] at hreach
    have hk' : k ∈ found (rest.enclosing (p + (1 + imm.length)) t) := hk
    have hbound := le_of_mem_enclosing (mem_of_mem_found hk')
    exact reckoned_plain hvalid.1 hjump hty (by omega) (ih _ _ _ hvalid.2 ht hreach hk')
  | brTable count labels rest ih =>
    rw [Body.heightAt] at hreach
    by_cases hstart : t = p
    · have henc := (Body.brTable count labels rest).enclosing_outside p t (Or.inl (by omega))
      rw [henc] at hk
      cases hk
    · rw [if_neg hstart] at hreach
      cases hreach
  | block vt body rest ihb ih =>
    obtain ⟨-, hvalidBody, hvalidRest⟩ := hvalid
    have hp := le_of_mem_enclosing (mem_of_mem_found hk)
    rw [enclosing_construct (p := p) (k := ⟨.block, vt, p, p + 2, none, p + 2 + body.size⟩) rfl rfl
      rfl (by omega)] at hk
    exact reckoned_construct rfl (fun hless => by cases hless.1) hvalidBody hvalidRest ht.1 ht.2
      (by omega) hreach hk ihb ih
  | loop vt body rest ihb ih =>
    obtain ⟨-, hvalidBody, hvalidRest⟩ := hvalid
    have hp := le_of_mem_enclosing (mem_of_mem_found hk)
    rw [enclosing_construct (p := p) (k := ⟨.loop, vt, p, p + 2, none, p + 2 + body.size⟩) rfl rfl
      rfl (by omega)] at hk
    exact reckoned_construct rfl (fun hless => by cases hless.1) hvalidBody hvalidRest ht.1 ht.2
      (by omega) hreach hk ihb ih
  | ifThen vt body rest ihb ih =>
    obtain ⟨-, -, hvalidRest⟩ := hvalid
    obtain ⟨hvt, -, ht⟩ := ht
    have hp := le_of_mem_enclosing (mem_of_mem_found hk)
    have henc := enclosing_construct (t := t) (p := p) (c := .ifThen vt body rest)
      (k := ⟨.ifLabel, vt, p, p + 2, none, p + 2 + body.size⟩) rfl rfl rfl (by omega)
    by_cases hin : t ≤ p + 2 + body.size
    · rw [henc, if_pos hin, found_cons_elseless ⟨rfl, rfl⟩] at hk
      cases hk
    · rw [henc, if_neg hin] at hk
      have hbound := le_of_mem_enclosing (mem_of_mem_found hk)
      rw [Body.heightAt, if_neg (by omega), if_neg (by omega), if_neg (by omega), hvt] at hreach
      exact reckoned_ifThen hvt (by omega) (ih _ _ _ hvalidRest ht (by simpa using hreach) hk)
  | ifElse vt body other rest ihb iho ih =>
    obtain ⟨-, hvalidBody, hvalidOther, hvalidRest⟩ := hvalid
    obtain ⟨htBody, htOther, htRest⟩ := ht
    have hp := le_of_mem_enclosing (mem_of_mem_found hk)
    have hstart : (Body.ifElse vt body other rest).heightAt n m localTypes p h p = some h := by
      simp
    rw [Body.heightAt, if_neg (by omega)] at hreach
    rw [enclosing_ifElse rfl rfl rest (by omega)] at hk
    have hless : ∀ e, ¬Construct.Elseless ⟨.ifLabel, vt, p, p + 2, some (p + 2 + body.size), e⟩ :=
      fun e hless => by cases hless.2
    by_cases hthen : t ≤ p + 2 + body.size
    · rw [if_pos hthen, found_cons (hless _)] at hk
      rcases List.mem_cons.mp hk with rfl | hk
      · exact reckoned_start hstart
      · have hbound := le_of_mem_enclosing (mem_of_mem_found hk)
        rw [if_pos (by omega)] at hreach
        exact reckoned_ifElse_body (by omega) (by omega) (ihb _ _ _ hvalidBody htBody hreach hk)
    rw [if_neg hthen] at hk
    by_cases helse : t ≤ p + 2 + body.size + 1 + other.size
    · rw [if_pos helse, found_cons (hless _)] at hk
      rcases List.mem_cons.mp hk with rfl | hk
      · exact reckoned_start hstart
      · have hbound := le_of_mem_enclosing (mem_of_mem_found hk)
        rw [if_neg (by omega), if_neg (by omega), if_pos (by omega)] at hreach
        exact reckoned_ifElse_other (by omega) (by omega)
          (iho _ _ _ hvalidOther htOther hreach hk)
    · rw [if_neg helse] at hk
      have hbound := le_of_mem_enclosing (mem_of_mem_found hk)
      rw [if_neg (by omega), if_neg (by omega), if_neg (by omega), if_neg (by omega)] at hreach
      exact reckoned_ifElse_rest hvalidOther htOther (by omega)
        (ih _ _ _ hvalidRest htRest hreach hk)

/-! ### The constructs by their positions -/

theorem start_eq (c : Body) (p : ℕ) (k : Construct) (hk : k ∈ c.constructs p) :
    k.start = k.opcode + 2 := by
  induction c generalizing p with
  | nil => cases hk
  | plain opcode imm rest ih => exact ih _ hk
  | brTable count labels rest ih => exact ih _ hk
  | block vt body rest ihb ih | loop vt body rest ihb ih | ifThen vt body rest ihb ih =>
    rcases List.mem_cons.mp hk with rfl | hk
    · rfl
    rcases List.mem_append.mp hk with hk | hk
    · exact ihb _ hk
    · exact ih _ hk
  | ifElse vt body other rest ihb iho ih =>
    rcases List.mem_cons.mp hk with rfl | hk
    · rfl
    rcases List.mem_append.mp hk with hk | hk
    · exact ihb _ hk
    rcases List.mem_append.mp hk with hk | hk
    · exact iho _ hk
    · exact ih _ hk

theorem pairwise_opcodes (c : Body) (p : ℕ) :
    (c.constructs p).Pairwise fun k l => k.opcode < l.opcode := by
  induction c generalizing p with
  | nil => exact .nil
  | plain opcode imm rest ih => exact ih _
  | brTable count labels rest ih => exact ih _
  | block vt body rest ihb ih | loop vt body rest ihb ih | ifThen vt body rest ihb ih =>
    refine List.pairwise_cons.mpr ⟨?_, List.pairwise_append.mpr ⟨ihb _, ih _, ?_⟩⟩
    · intro l hl
      rcases List.mem_append.mp hl with hl | hl
      · have := body.le_of_mem_constructs _ l hl
        simp only
        omega
      · have := rest.le_of_mem_constructs _ l hl
        simp only
        omega
    · intro k hk l hl
      have := body.le_of_mem_constructs _ k hk
      have := rest.le_of_mem_constructs _ l hl
      omega
  | ifElse vt body other rest ihb iho ih =>
    refine List.pairwise_cons.mpr ⟨?_, List.pairwise_append.mpr ⟨ihb _,
      List.pairwise_append.mpr ⟨iho _, ih _, ?_⟩, ?_⟩⟩
    · intro l hl
      simp only [List.mem_append] at hl ⊢
      rcases hl with hl | hl | hl
      · have := body.le_of_mem_constructs _ l hl
        omega
      · have := other.le_of_mem_constructs _ l hl
        omega
      · have := rest.le_of_mem_constructs _ l hl
        omega
    · intro k hk l hl
      have := other.le_of_mem_constructs _ k hk
      have := rest.le_of_mem_constructs _ l hl
      omega
    · intro k hk l hl
      have hlt := body.le_of_mem_constructs _ k hk
      rcases List.mem_append.mp hl with hl | hl
      · have := other.le_of_mem_constructs _ l hl
        omega
      · have := rest.le_of_mem_constructs _ l hl
        omega

theorem construct_unique {c : Body} {k l : Construct} (hk : k ∈ c.constructs p)
    (hl : l ∈ c.constructs p) (heq : k.start = l.start) : k = l := by
  have hnodup : ((c.constructs p).map Construct.opcode).Nodup := by
    rw [List.Nodup, List.pairwise_map]
    exact (pairwise_opcodes c p).imp fun hlt => Nat.ne_of_lt hlt
  have hop : k.opcode = l.opcode := by
    have := start_eq c p k hk
    have := start_eq c p l hl
    omega
  exact List.inj_on_of_nodup_map hnodup hk hl hop

/-! ### The labels -/

/-- The height where a construct is entered, after the condition of an `if` is taken. -/
def Body.entryHeight (n : Internal) (m : ModuleTypes) (localTypes : List UInt8) (c : Body)
    (k : Construct) : Option ℤ :=
  (c.heightAt n m localTypes 0 0 k.opcode).map fun h => if k.label = .ifLabel then h - 1 else h

def Construct.branchTypes (k : Construct) : List UInt8 :=
  if k.label = .loop ∨ k.valueType = 0x40 then [] else [k.valueType]

/-- The label is that of the function, or of a construct with the height at which this is
entered and the cells that a branch to it carries. -/
def BranchBlock.Fits (n : Internal) (m : ModuleTypes) (f : FuncCode) (c : Body)
    (b : BranchBlock) : Prop :=
  (b.beginAddr = 0 ∧ b.frameSp = f.spOffset f.localCells ∧ b.cellNum = f.retCells) ∨
    ∃ k ∈ c.constructs 0, ∃ h, b.beginAddr = k.start ∧
      c.entryHeight n m f.localTypes k = some h ∧ b.frameSp = f.spOffset (f.localCells + h) ∧
        (b.cellNum : ℤ) = cellsOf k.branchTypes

/-- The cells counted too much for a label: the condition of its own `if` is on top. -/
def Body.labelDrift (n : Internal) (m : ModuleTypes) (f : FuncCode) (c : Body)
    (k : Construct) : ℤ :=
  c.drift n m f.localTypes 0 0 f.retCells k.opcode + if k.label = .ifLabel then 1 else 0

variable {f : FuncCode} {c : Body}

theorem spOffset_eq_iff (a b : ℤ) : f.spOffset a = f.spOffset b ↔ (2 ^ 30 : ℤ) ∣ a - b := by
  rw [FuncCode.spOffset, FuncCode.spOffset]
  omega

theorem cellNum_eq (k : Construct) : (k.cellNum : ℤ) = cellsOf k.branchTypes := by
  rw [Construct.cellNum, Construct.branchTypes]
  by_cases hloop : k.label = .loop
  · rw [if_pos hloop, if_pos (.inl hloop)]
    rfl
  rw [if_neg hloop]
  by_cases hnone : k.valueType = 0x40
  · rw [if_pos (.inr hnone), hnone]
    rfl
  · rw [if_neg (by simp [hloop, hnone]), cellsOf, List.map_singleton, List.sum_singleton]

theorem blockOf_fits_iff (hk : k ∈ c.constructs 0)
    (hreckoned : c.Reckoned n m f.localTypes 0 0 f.retCells k.opcode) :
    (k.blockOf f (c.spBefore n f k.opcode)).Fits n m f c ↔
      (2 ^ 30 : ℤ) ∣ c.labelDrift n m f k := by
  obtain ⟨height, hat, hcells⟩ := hreckoned
  have hentry : c.entryHeight n m f.localTypes k
      = some (if k.label = .ifLabel then height - 1 else height) := by
    rw [Body.entryHeight, hat, Option.map_some]
  have hsp : (k.blockOf f (c.spBefore n f k.opcode)).frameSp
      = f.spOffset (f.localCells + (if k.label = .ifLabel then height - 1 else height)) ↔
        (2 ^ 30 : ℤ) ∣ c.labelDrift n m f k := by
    change f.spOffset (c.spBefore n f k.opcode) = _ ↔ _
    rw [spOffset_eq_iff, Body.spBefore, hcells, Body.labelDrift]
    apply iff_of_eq
    congr 1
    split <;> omega
  have hstart := start_eq c 0 k hk
  constructor
  · rintro (⟨hzero, -⟩ | ⟨l, hl, h, hbegin, hheight, hframe, -⟩)
    · change k.start = 0 at hzero
      omega
    · obtain rfl := construct_unique hk hl hbegin
      obtain rfl := Option.some.inj (hentry.symm.trans hheight)
      exact hsp.mp hframe
  · intro hdvd
    exact .inr ⟨k, hk, _, rfl, hentry, hsp.mpr hdvd, cellNum_eq k⟩

/-- The labels of the restored frame have the heights and the cells that validation gives
their constructs exactly when for each of them what the scan counts too much does not
matter: the condition of an `if`, calls, `MEMORY_GROW` and dead code. -/
theorem restoredLabels_fit_iff (n : Internal) (m : ModuleTypes) (f : FuncCode) (c : Body) (t : ℕ)
    (h : IsBody n f c) (hty : c.Typed n m f.localTypes 0 f.retCells) (ht : c.IsBoundary t)
    (hreach : (c.heightAt n m f.localTypes 0 0 t).isSome ∨ t = c.size)
    (hret : ∀ i ∈ c.scanned 0 t, ¬i.IsReturn) (hharmless : ∀ i ∈ c.scanned 0 t, i.Harmless n) :
    (∃ (fuel : ℕ) (ls : List BranchBlock), restoredLabels n f t fuel = some (.ok ls) ∧
        ∀ b ∈ ls, b.Fits n m f c) ↔
      ∀ k ∈ found (c.enclosing 0 t), (2 ^ 30 : ℤ) ∣ c.labelDrift n m f k := by
  have hfits : ∀ k ∈ found (c.enclosing 0 t),
      ((k.blockOf f (c.spBefore n f k.opcode)).Fits n m f c ↔
        (2 ^ 30 : ℤ) ∣ c.labelDrift n m f k) := by
    intro k hk
    have hmem := List.mem_of_mem_filter (mem_of_mem_found hk)
    refine blockOf_fits_iff hmem ?_
    rcases hreach with hreach | rfl
    · exact reckoned_found c 0 0 f.retCells h.valid hty hreach hk
    · have hnone := c.enclosing_outside 0 c.size (Or.inr (by omega))
      rw [hnone] at hk
      cases hk
  obtain ⟨fuel, hrun⟩ := restoredLabels_found h ht hharmless hret
  constructor
  · intro ⟨more, ls, hls, hall⟩ k hk
    obtain rfl := restoredLabels_unique hls hrun
    exact (hfits k hk).mp (hall _ (List.mem_cons_of_mem _ (List.mem_map_of_mem hk)))
  · intro hdvd
    refine ⟨fuel, _, hrun, ?_⟩
    intro b hb
    rcases List.mem_cons.mp hb with rfl | hb
    · exact .inl ⟨rfl, rfl, rfl⟩
    · obtain ⟨k, hk, rfl⟩ := List.mem_map.mp hb
      exact (hfits k hk).mpr (hdvd k hk)

def plainModule : ModuleTypes := ⟨[⟨[], []⟩], [⟨[], []⟩]⟩

theorem tableThenIf_fits : ∃ (fuel : ℕ) (ls : List BranchBlock),
    restoredLabels loaderOpcodes tableThenIfFunction 6 fuel = some (.ok ls) ∧
      ∀ b ∈ ls, b.Fits loaderOpcodes plainModule tableThenIfFunction tableThenIf := by
  have hscanned : tableThenIf.scanned 0 6 = [.plain 0x41 [0x00]] := rfl
  have hfound : ∀ k ∈ found (tableThenIf.enclosing 0 6),
      tableThenIf.labelDrift loaderOpcodes plainModule tableThenIfFunction k = 0 := by
    decide
  refine (restoredLabels_fit_iff loaderOpcodes plainModule tableThenIfFunction tableThenIf 6
    isBody_tableThenIf ?_ (by left; decide) (by left; decide) ?_ ?_).mpr ?_
  · refine ⟨⟨.inr ⟨⟨[], [i32]⟩, rfl, trivial⟩, .inr ⟨⟨[], [i32]⟩, rfl, ?_⟩⟩, rfl⟩
    exact ⟨.inr ⟨⟨[], []⟩, rfl, rfl⟩, .inr ⟨⟨[], []⟩, rfl, rfl⟩, rfl⟩
  · rw [hscanned]
    simp only [List.forall_mem_cons, Item.IsReturn]
    exact ⟨by decide, fun i hi => by cases hi⟩
  · rw [hscanned]
    simp only [List.forall_mem_cons, Item.Harmless]
    exact ⟨trivial, fun i hi => by cases hi⟩
  · intro k hk
    rw [hfound k hk]
    exact dvd_zero _

def nopsInIf : Body :=
  .plain 0x41 [0x01] (.ifElse 0x40 (.plain 0x01 [] .nil) (.plain 0x01 [] .nil) .nil)

def nopsInIfFunction : FuncCode :=
  plainFunction nopsInIf fun ip _ => if ip = 4 then some (some 5, 7) else none

/-- In the first arm the label of the `if` is one cell too high. -/
theorem nopsInIf_not_fits : IsBody loaderOpcodes nopsInIfFunction nopsInIf ∧
    nopsInIf.Typed loaderOpcodes plainModule nopsInIfFunction.localTypes 0
      nopsInIfFunction.retCells ∧
    nopsInIf.IsBoundary 4 ∧
    (nopsInIf.heightAt loaderOpcodes plainModule nopsInIfFunction.localTypes 0 0 4).isSome ∧
    ¬∃ (fuel : ℕ) (ls : List BranchBlock),
      restoredLabels loaderOpcodes nopsInIfFunction 4 fuel = some (.ok ls) ∧
        ∀ b ∈ ls, b.Fits loaderOpcodes plainModule nopsInIfFunction nopsInIf := by
  have hbody : IsBody loaderOpcodes nopsInIfFunction nopsInIf :=
    { code := rfl
      valid := ⟨plainOk_const _ _ rfl, .inl rfl, ⟨plainOk_nop _, trivial⟩,
        ⟨plainOk_nop _, trivial⟩, trivial⟩
      finds := by
        unfold Finds
        decide }
  refine ⟨hbody, ?_, by left; decide, by decide, ?_⟩
  · refine .inr ⟨⟨[], [i32]⟩, rfl, ?_⟩
    exact ⟨.inr ⟨⟨[], []⟩, rfl, rfl⟩, .inr ⟨⟨[], []⟩, rfl, rfl⟩, rfl⟩
  intro ⟨fuel, ls, hrun, hfits⟩
  have hlabels : restoredLabels loaderOpcodes nopsInIfFunction 4 3
      = some (.ok [nopsInIfFunction.functionLabel, ⟨4, 7, 68, 0⟩]) := rfl
  obtain rfl := restoredLabels_unique hrun hlabels
  rcases hfits ⟨4, 7, 68, 0⟩ (by simp) with ⟨hzero, -⟩ | ⟨k, hk, h, -, hheight, hframe, -⟩
  · cases hzero
  · obtain rfl := List.mem_singleton.mp hk
    have hentry : nopsInIf.entryHeight loaderOpcodes plainModule nopsInIfFunction.localTypes
        ⟨.ifLabel, 0x40, 2, 4, some 5, 7⟩ = some 0 := rfl
    obtain rfl := Option.some.inj (hentry.symm.trans hheight)
    exact absurd hframe (by decide)

end MVVM.Interp
