import MVVM.Interp.Body
import Mathlib.Algebra.BigOperators.Group.List.Basic

/-!
# What the scan reads

Of an `if` the scan reads only the arm that leads to the target, and the body of an `if`
without `else` not at all. The steps of the scan over single instructions are here, too.
-/

namespace MVVM.Interp

/-- An instruction that the scan reads. The bytes of the labels of a `br_table` are read as
opcodes. -/
inductive Item where
  | plain (opcode : UInt8) (imm : List UInt8)
  | table (labels : List (List UInt8))
  | ifOp
  deriving DecidableEq, Repr

/-- The instructions that are read before a position is reached. -/
def Body.scanned : Body → ℕ → ℕ → List Item
  | nil, _, _ => []
  | plain opcode imm rest, p, t =>
    if t ≤ p then [] else .plain opcode imm :: rest.scanned (p + (1 + imm.length)) t
  | brTable count labels rest, p, t =>
    if t ≤ p then []
    else .table labels :: rest.scanned (p + (1 + count.length + labels.flatten.length)) t
  | block _ body rest, p, t | loop _ body rest, p, t =>
    body.scanned (p + 2) t ++ rest.scanned (p + 2 + body.size + 1) t
  | ifThen _ body rest, p, t =>
    if t ≤ p then [] else .ifOp :: rest.scanned (p + 2 + body.size + 1) t
  | ifElse _ body other rest, p, t =>
    if t ≤ p then []
    else .ifOp :: ((if t ≤ p + 2 + body.size then body.scanned (p + 2) t else []) ++
      (other.scanned (p + 2 + body.size + 1) t ++
        rest.scanned (p + 2 + body.size + 1 + other.size + 1) t))

def Item.cells (n : Internal) (localTypes : List UInt8) : Item → ℤ
  | .plain opcode imm => plainCells n localTypes opcode imm
  | .table labels => -1 + (labels.flatten.map fun b => plainCells n localTypes b []).sum
  | .ifOp => 0

/-- `frame_sp` at a position, from what it was at the beginning of the sequence. -/
def Body.cellsBefore (n : Internal) (localTypes : List UInt8) (c : Body) (p q : ℕ) : ℤ :=
  ((c.scanned p q).map (Item.cells n localTypes)).sum

def Item.IsReturn : Item → Prop
  | .plain opcode _ => opcode = 0x0f
  | _ => False

/-- As an opcode, a byte has no immediates and no effect on the labels. -/
def HarmlessByte (n : Internal) (b : UInt8) : Prop := ∃ cells, caseOf n b = .plain [] cells

def Item.Harmless (n : Internal) : Item → Prop
  | .table labels => ∀ b ∈ labels.flatten, HarmlessByte n b
  | _ => True

def Construct.Elseless (k : Construct) : Prop := k.label = .ifLabel ∧ k.elseAddr = none

namespace Body

theorem scanned_of_le (c : Body) (p t : ℕ) (h : t ≤ p) : c.scanned p t = [] := by
  induction c generalizing p with
  | nil => rfl
  | plain opcode imm rest ih => rw [scanned, if_pos h]
  | brTable count labels rest ih => rw [scanned, if_pos h]
  | block valueType body rest ihb ih | loop valueType body rest ihb ih =>
    rw [scanned, ihb _ (by omega), ih _ (by omega), List.append_nil]
  | ifThen valueType body rest ihb ih => rw [scanned, if_pos h]
  | ifElse valueType body other rest ihb iho ih => rw [scanned, if_pos h]

theorem scanned_of_ge (c : Body) (p t q : ℕ) (ht : p + c.size ≤ t) (hq : p + c.size ≤ q) :
    c.scanned p t = c.scanned p q := by
  induction c generalizing p with
  | nil => rfl
  | plain opcode imm rest ih =>
    simp only [size] at ht hq
    rw [scanned, scanned, if_neg (by omega), if_neg (by omega), ih _ (by omega) (by omega)]
  | brTable count labels rest ih =>
    simp only [size] at ht hq
    rw [scanned, scanned, if_neg (by omega), if_neg (by omega), ih _ (by omega) (by omega)]
  | block valueType body rest ihb ih | loop valueType body rest ihb ih =>
    simp only [size] at ht hq
    rw [scanned, scanned, ihb _ (by omega) (by omega), ih _ (by omega) (by omega)]
  | ifThen valueType body rest ihb ih =>
    simp only [size] at ht hq
    rw [scanned, scanned, if_neg (by omega), if_neg (by omega), ih _ (by omega) (by omega)]
  | ifElse valueType body other rest ihb iho ih =>
    simp only [size] at ht hq
    rw [scanned, scanned, if_neg (by omega), if_neg (by omega), if_neg (by omega),
      if_neg (by omega), iho _ (by omega) (by omega), ih _ (by omega) (by omega)]

end Body

/-! ### Single instructions -/

variable {n : Internal} {f : FuncCode} {t p : ℕ} {opcode b : UInt8} {bs imm rest : List UInt8}

theorem byteAt_of_drop (h : f.code.drop p = b :: rest) : f.byteAt p = .ok b := by
  have hb : f.code[p]? = some b := by
    have h0 : (f.code.drop p)[0]? = some b := by rw [h]; rfl
    rwa [List.getElem?_drop, Nat.add_zero] at h0
  rw [FuncCode.byteAt, hb]

theorem drop_of_drop (k : ℕ) (h : f.code.drop p = bs ++ rest) (hk : bs.length = k) :
    f.code.drop (p + k) = rest := by
  rw [← List.drop_drop, h, ← hk, List.drop_left]

theorem drop_of_drop_cons (h : f.code.drop p = b :: rest) : f.code.drop (p + 1) = rest := by
  rw [← List.drop_drop, h, List.drop_one, List.tail_cons]

theorem scanLoop_stop (sp : ℤ) (csp : List BranchBlock) (h : t ≤ p) :
    scanLoop n f t ⟨p, sp, csp⟩ = .inr (.ok csp) := by
  rw [scanLoop, if_neg (by simpa using h)]

theorem scanLoop_ok {s s' : ScanState} (h : s.ip < t) (hs : scanStep n f t s = .ok s') :
    scanLoop n f t s = .inl s' := by
  rw [scanLoop, if_pos h, hs]

theorem scanLoop_error {s : ScanState} {e : Stop} (h : s.ip < t)
    (hs : scanStep n f t s = .error e) : scanLoop n f t s = .inr (.error e) := by
  rw [scanLoop, if_pos h, hs]

theorem skipImms_spelt (imms : List Imm) (hspells : Spells imms imm)
    (h : f.code.drop p = imm ++ rest) :
    imms.foldlM (skipImm f.code) p = .ok (p + imm.length) := by
  induction imms generalizing p imm with
  | nil =>
    obtain rfl : imm = [] := hspells
    rfl
  | cons i imms ih =>
    obtain ⟨l, r, rfl, hl, hr⟩ : ∃ l r, imm = l ++ r ∧ skipImm f.code p i = .ok (p + l.length) ∧
        Spells imms r := by
      cases i with
      | leb =>
        obtain ⟨l, r, rfl, hl, hr⟩ := hspells
        rw [List.append_assoc] at h
        exact ⟨l, r, rfl, skipLeb_encoding h hl, hr⟩
      | bytes k =>
        obtain ⟨l, r, rfl, hl, hr⟩ := hspells
        exact ⟨l, r, rfl, by rw [skipImm, hl], hr⟩
      | checkedByte =>
        obtain ⟨l, r, rfl, hl, hr⟩ := hspells
        have hlen : p + 1 ≤ f.code.length := by
          have hlength := congrArg List.length h
          simp only [List.length_drop, List.length_append] at hlength
          omega
        exact ⟨l, r, rfl, by rw [skipImm, if_pos hlen, hl], hr⟩
    rw [List.append_assoc] at h
    have htail := ih hr (drop_of_drop l.length h rfl)
    rw [List.foldlM_cons, hl]
    simp only [bind, Except.bind]
    rw [htail, List.length_append, Nat.add_assoc]

theorem localTypeCells_ok {vt : UInt8} (h : vt = 0x7f ∨ vt = 0x7e ∨ vt = 0x7d ∨ vt = 0x7c) :
    localTypeCells vt = .ok (valueTypeCells vt : ℤ) := by
  rcases h with rfl | rfl | rfl | rfl <;> rfl

theorem readU32_encoding (h : f.code.drop p = bs ++ rest) (hbs : IsLeb32 bs) :
    f.readU32 p = .ok (lebValue bs, p + bs.length) := by
  obtain ⟨r, hr, hvalue⟩ := readLeb_encoding h hbs
  rw [FuncCode.readU32, hr]
  simp only
  rw [hvalue, Nat.mod_eq_of_lt hbs.value]

theorem scanLoop_plain (sp : ℤ) (csp : List BranchBlock) (imm : List UInt8)
    (h : f.code.drop p = opcode :: (imm ++ rest)) (hp : p < t)
    (hok : PlainOk n f.localTypes opcode imm) (hret : opcode ≠ 0x0f) :
    scanLoop n f t ⟨p, sp, csp⟩
      = .inl ⟨p + (1 + imm.length), sp + plainCells n f.localTypes opcode imm, csp⟩ := by
  apply scanLoop_ok hp
  have hbyte := byteAt_of_drop h
  have htail := drop_of_drop_cons h
  have hlen : p + 1 + imm.length = p + (1 + imm.length) := by omega
  simp only [scanStep, hbyte, bind, Except.bind]
  unfold PlainOk at hok
  unfold plainCells
  cases hcase : caseOf n opcode with
  | plain imms cells =>
    rw [hcase] at hok
    simp only at hok ⊢
    rw [skipImms_spelt imms hok htail, hlen, Case.cells]
  | localIndex sign =>
    rw [hcase] at hok
    obtain ⟨hleb, vt, hvt, htype⟩ := hok
    simp only
    rw [readU32_encoding htail hleb]
    simp only [hvt, localTypeCells_ok htype, hlen, Case.cells, Option.map_some, Option.getD_some]
  | localFast sign =>
    rw [hcase] at hok
    simp only at hok
    obtain ⟨offset, rfl⟩ := List.length_eq_one_iff.mp hok
    simp only
    rw [byteAt_of_drop htail]
    simp only [List.length_singleton, Nat.add_assoc]
    rfl
  | fault =>
    rw [hcase] at hok
    exact absurd hok.1 hret
  | block => rw [hcase] at hok; exact hok.elim
  | loop => rw [hcase] at hok; exact hok.elim
  | ifCase => rw [hcase] at hok; exact hok.elim
  | elseCase => rw [hcase] at hok; exact hok.elim
  | endCase => rw [hcase] at hok; exact hok.elim
  | brTable => rw [hcase] at hok; exact hok.elim
  | misc => rw [hcase] at hok; exact hok.elim

theorem scanLoop_return (sp : ℤ) (csp : List BranchBlock) (h : f.code.drop p = 0x0f :: rest)
    (hp : p < t) :
    scanLoop n f t ⟨p, sp, csp⟩ = .inr (.error .exited) := by
  apply scanLoop_error hp
  have hcase : caseOf n 0x0f = .fault := rfl
  simp only [scanStep, byteAt_of_drop h, bind, Except.bind, hcase]

theorem goes_labels (sp : ℤ) (csp : List BranchBlock) (h : f.code.drop p = bs ++ rest)
    (hp : p + bs.length ≤ t)
    (hbs : ∀ b ∈ bs, HarmlessByte n b) :
    Loop.Goes (scanLoop n f t) ⟨p, sp, csp⟩
      ⟨p + bs.length, sp + (bs.map fun b => plainCells n f.localTypes b []).sum, csp⟩ := by
  induction bs generalizing p sp with
  | nil =>
    simp only [List.length_nil, Nat.add_zero, List.map_nil, List.sum_nil, Int.add_zero]
    exact Loop.Goes.refl _
  | cons b bs ih =>
    rw [List.length_cons] at hp
    obtain ⟨cells, hcase⟩ := hbs b List.mem_cons_self
    have hok : PlainOk n f.localTypes b [] := by
      rw [PlainOk, hcase]
      rfl
    have hret : b ≠ 0x0f := by
      rintro rfl
      have hfault : caseOf n 0x0f = .fault := rfl
      rw [hfault] at hcase
      cases hcase
    have hfirst := Loop.Goes.round
      (scanLoop_plain (t := t) sp csp [] h (by omega) hok hret)
    have htail := ih (sp + plainCells n f.localTypes b []) (drop_of_drop_cons h) (by omega)
      fun x hx => hbs x (List.mem_cons_of_mem _ hx)
    have hgoes := hfirst.trans htail
    rw [List.length_cons, List.map_cons, List.sum_cons, ← Int.add_assoc]
    have hlen : p + (bs.length + 1) = p + 1 + bs.length := by omega
    rw [hlen]
    exact hgoes

theorem goes_table (sp : ℤ) (csp : List BranchBlock) {count : List UInt8}
    (h : f.code.drop p = 0x0e :: (count ++ (bs ++ rest)))
    (hcount : IsLeb32 count) (hp : p + (1 + count.length + bs.length) ≤ t)
    (hbs : ∀ b ∈ bs, HarmlessByte n b) :
    Loop.Goes (scanLoop n f t) ⟨p, sp, csp⟩
      ⟨p + (1 + count.length + bs.length),
        sp + (-1 + (bs.map fun b => plainCells n f.localTypes b []).sum), csp⟩ := by
  have htail := drop_of_drop_cons h
  have hcase : caseOf n 0x0e = .brTable := rfl
  have hround : scanLoop n f t ⟨p, sp, csp⟩ = .inl ⟨p + 1 + count.length, sp - 1, csp⟩ := by
    apply scanLoop_ok (show p < t by omega)
    simp only [scanStep, byteAt_of_drop h, bind, Except.bind, hcase, readU32_encoding htail hcount]
  have hlabels := goes_labels (t := t) (n := n) (sp - 1) csp
    (drop_of_drop count.length htail rfl) (by omega) hbs
  have hgoes := (Loop.Goes.round hround).trans hlabels
  have hip : p + (1 + count.length + bs.length) = p + 1 + count.length + bs.length := by omega
  rw [hip, ← Int.add_assoc]
  exact hgoes

end MVVM.Interp
