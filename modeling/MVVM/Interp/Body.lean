import MVVM.Interp.Scan

/-!
# Function bodies

The code of a validated function is the encoding of a tree. A tree is a sequence of
instructions; the constructs among them hold sequences of their own.
-/

namespace MVVM.Interp

/-- A sequence of instructions. An instruction that is no construct has an opcode and the
bytes of its immediates; `br_table` is kept apart. -/
inductive Body where
  | nil
  | plain (opcode : UInt8) (imm : List UInt8) (rest : Body)
  | brTable (count : List UInt8) (labels : List (List UInt8)) (rest : Body)
  | block (valueType : UInt8) (body rest : Body)
  | loop (valueType : UInt8) (body rest : Body)
  | ifThen (valueType : UInt8) (body rest : Body)
  | ifElse (valueType : UInt8) (body other rest : Body)

namespace Body

def encode : Body → List UInt8
  | nil => []
  | plain opcode imm rest => opcode :: (imm ++ rest.encode)
  | brTable count labels rest => 0x0e :: (count ++ (labels.flatten ++ rest.encode))
  | block valueType body rest => 0x02 :: valueType :: (body.encode ++ 0x0b :: rest.encode)
  | loop valueType body rest => 0x03 :: valueType :: (body.encode ++ 0x0b :: rest.encode)
  | ifThen valueType body rest => 0x04 :: valueType :: (body.encode ++ 0x0b :: rest.encode)
  | ifElse valueType body other rest =>
    0x04 :: valueType :: (body.encode ++ 0x05 :: (other.encode ++ 0x0b :: rest.encode))

def size : Body → ℕ
  | nil => 0
  | plain _ imm rest => 1 + imm.length + rest.size
  | brTable count labels rest => 1 + count.length + labels.flatten.length + rest.size
  | block _ body rest => 2 + body.size + 1 + rest.size
  | loop _ body rest => 2 + body.size + 1 + rest.size
  | ifThen _ body rest => 2 + body.size + 1 + rest.size
  | ifElse _ body other rest => 2 + body.size + 1 + other.size + 1 + rest.size

theorem length_encode (c : Body) : c.encode.length = c.size := by
  induction c with
  | nil => rfl
  | plain opcode imm rest ih =>
    simp only [encode, size, List.length_cons, List.length_append, ih]
    omega
  | brTable count labels rest ih =>
    simp only [encode, size, List.length_cons, List.length_append, ih]
    omega
  | block valueType body rest ihb ih =>
    simp only [encode, size, List.length_cons, List.length_append, ihb, ih]
    omega
  | loop valueType body rest ihb ih =>
    simp only [encode, size, List.length_cons, List.length_append, ihb, ih]
    omega
  | ifThen valueType body rest ihb ih =>
    simp only [encode, size, List.length_cons, List.length_append, ihb, ih]
    omega
  | ifElse valueType body other rest ihb iho ih =>
    simp only [encode, size, List.length_cons, List.length_append, ihb, iho, ih]
    omega

end Body

/-- A block, loop or `if` of a body: its block type, and the positions of its opcode, of the
first byte behind the block type, of its `else` and of its `end`. -/
structure Construct where
  label : LabelType
  valueType : UInt8
  opcode : ℕ
  start : ℕ
  elseAddr : Option ℕ
  endAddr : ℕ
  deriving DecidableEq, Repr

namespace Body

/-- The constructs of a sequence that begins at a position, in the order of their
opcodes. -/
def constructs : Body → ℕ → List Construct
  | nil, _ => []
  | plain _ imm rest, p => rest.constructs (p + (1 + imm.length))
  | brTable count labels rest, p =>
    rest.constructs (p + (1 + count.length + labels.flatten.length))
  | block valueType body rest, p =>
    ⟨.block, valueType, p, p + 2, none, p + 2 + body.size⟩ ::
      (body.constructs (p + 2) ++ rest.constructs (p + 2 + body.size + 1))
  | loop valueType body rest, p =>
    ⟨.loop, valueType, p, p + 2, none, p + 2 + body.size⟩ ::
      (body.constructs (p + 2) ++ rest.constructs (p + 2 + body.size + 1))
  | ifThen valueType body rest, p =>
    ⟨.ifLabel, valueType, p, p + 2, none, p + 2 + body.size⟩ ::
      (body.constructs (p + 2) ++ rest.constructs (p + 2 + body.size + 1))
  | ifElse valueType body other rest, p =>
    ⟨.ifLabel, valueType, p, p + 2, some (p + 2 + body.size),
      p + 2 + body.size + 1 + other.size⟩ ::
      (body.constructs (p + 2) ++ (other.constructs (p + 2 + body.size + 1) ++
        rest.constructs (p + 2 + body.size + 1 + other.size + 1)))

/-- The positions of the opcodes, those of `else` and `end` included. -/
def boundaries : Body → ℕ → List ℕ
  | nil, _ => []
  | plain _ imm rest, p => p :: rest.boundaries (p + (1 + imm.length))
  | brTable count labels rest, p =>
    p :: rest.boundaries (p + (1 + count.length + labels.flatten.length))
  | block _ body rest, p | loop _ body rest, p | ifThen _ body rest, p =>
    p :: (body.boundaries (p + 2) ++
      (p + 2 + body.size) :: rest.boundaries (p + 2 + body.size + 1))
  | ifElse _ body other rest, p =>
    p :: (body.boundaries (p + 2) ++
      (p + 2 + body.size) :: (other.boundaries (p + 2 + body.size + 1) ++
        (p + 2 + body.size + 1 + other.size) ::
          rest.boundaries (p + 2 + body.size + 1 + other.size + 1)))

end Body

/-- The byte range of a construct encloses a position: its opcode is behind, and its `end`
is not. -/
def Construct.encloses (k : Construct) (target : ℕ) : Bool :=
  k.opcode < target && target ≤ k.endAddr

def Body.enclosing (c : Body) (p target : ℕ) : List Construct :=
  (c.constructs p).filter fun k => k.encloses target

namespace Body

theorem le_of_mem_boundaries (c : Body) (p t : ℕ) (h : t ∈ c.boundaries p) :
    p ≤ t ∧ t < p + c.size := by
  induction c generalizing p with
  | nil => cases h
  | plain opcode imm rest ih =>
    simp only [boundaries, List.mem_cons, size] at h ⊢
    rcases h with rfl | h
    · omega
    · have := ih _ h
      omega
  | brTable count labels rest ih =>
    simp only [boundaries, List.mem_cons, size] at h ⊢
    rcases h with rfl | h
    · omega
    · have := ih _ h
      omega
  | block valueType body rest ihb ih | loop valueType body rest ihb ih
  | ifThen valueType body rest ihb ih =>
    simp only [boundaries, List.mem_cons, List.mem_append, size] at h ⊢
    rcases h with rfl | h | rfl | h
    · omega
    · have := ihb _ h
      omega
    · omega
    · have := ih _ h
      omega
  | ifElse valueType body other rest ihb iho ih =>
    simp only [boundaries, List.mem_cons, List.mem_append, size] at h ⊢
    rcases h with rfl | h | rfl | h | rfl | h
    · omega
    · have := ihb _ h
      omega
    · omega
    · have := iho _ h
      omega
    · omega
    · have := ih _ h
      omega

theorem le_of_mem_constructs (c : Body) (p : ℕ) (k : Construct) (h : k ∈ c.constructs p) :
    p ≤ k.opcode ∧ k.opcode < k.endAddr ∧ k.endAddr < p + c.size := by
  induction c generalizing p with
  | nil => cases h
  | plain opcode imm rest ih =>
    have := ih _ h
    simp only [size]
    omega
  | brTable count labels rest ih =>
    have := ih _ h
    simp only [size]
    omega
  | block valueType body rest ihb ih | loop valueType body rest ihb ih
  | ifThen valueType body rest ihb ih =>
    simp only [constructs, List.mem_cons, List.mem_append, size] at h ⊢
    rcases h with rfl | h | h
    · simp only
      omega
    · have := ihb _ h
      omega
    · have := ih _ h
      omega
  | ifElse valueType body other rest ihb iho ih =>
    simp only [constructs, List.mem_cons, List.mem_append, size] at h ⊢
    rcases h with rfl | h | h | h
    · simp only
      omega
    · have := ihb _ h
      omega
    · have := iho _ h
      omega
    · have := ih _ h
      omega

theorem enclosing_outside (c : Body) (p t : ℕ) (h : t ≤ p ∨ p + c.size ≤ t) :
    c.enclosing p t = [] := by
  rw [enclosing, List.filter_eq_nil_iff]
  intro k hk
  have := le_of_mem_constructs c p k hk
  simp only [Construct.encloses, Bool.and_eq_true, decide_eq_true_eq]
  omega

end Body

/-! ### Validated bodies -/

def Spells : List Imm → List UInt8 → Prop
  | [], bs => bs = []
  | .leb :: imms, bs => ∃ l r, bs = l ++ r ∧ IsLeb l ∧ Spells imms r
  | .bytes n :: imms, bs => ∃ l r, bs = l ++ r ∧ l.length = n ∧ Spells imms r
  | .checkedByte :: imms, bs => ∃ l r, bs = l ++ r ∧ l.length = 1 ∧ Spells imms r

/-- The cells by which a case moves `frame_sp`. -/
def Case.cells (localTypes imm : List UInt8) : Case → ℤ
  | .plain _ cells => cells
  | .localIndex sign =>
    sign * (localTypes[lebValue imm]?.map fun t => (valueTypeCells t : ℤ)).getD 0
  | .localFast sign => sign * if imm.headD 0 &&& 0x80 = 0 then 1 else 2
  | _ => 0

def plainCells (n : Internal) (localTypes : List UInt8) (opcode : UInt8) (imm : List UInt8) : ℤ :=
  (caseOf n opcode).cells localTypes imm

/-- What validation says about an instruction and its immediates. -/
def PlainOk (n : Internal) (localTypes : List UInt8) (opcode : UInt8) (imm : List UInt8) : Prop :=
  match caseOf n opcode with
  | .plain imms _ => Spells imms imm
  | .localIndex _ => IsLeb32 imm ∧ ∃ t, localTypes[lebValue imm]? = some t ∧
      (t = 0x7f ∨ t = 0x7e ∨ t = 0x7d ∨ t = 0x7c)
  | .localFast _ => imm.length = 1
  | .fault => opcode = 0x0f ∧ imm = []
  | _ => False

def IsBlockType (valueType : UInt8) : Prop :=
  valueType = 0x40 ∨ valueType = 0x7f ∨ valueType = 0x7e ∨ valueType = 0x7d ∨ valueType = 0x7c

/-- What validation says about a body, as far as the scan depends on it. -/
def Body.Valid (n : Internal) (localTypes : List UInt8) : Body → Prop
  | nil => True
  | plain opcode imm rest => PlainOk n localTypes opcode imm ∧ rest.Valid n localTypes
  | brTable count labels rest =>
    IsLeb32 count ∧ lebValue count + 1 = labels.length ∧ (∀ l ∈ labels, IsLeb32 l) ∧
      rest.Valid n localTypes
  | block valueType body rest | loop valueType body rest | ifThen valueType body rest =>
    IsBlockType valueType ∧ body.Valid n localTypes ∧ rest.Valid n localTypes
  | ifElse valueType body other rest =>
    IsBlockType valueType ∧ body.Valid n localTypes ∧ other.Valid n localTypes ∧
      rest.Valid n localTypes

/-- `wasm_loader_find_block_addr` finds the `else` and the `end` of the constructs. -/
def Finds (f : FuncCode) (ks : List Construct) : Prop :=
  ∀ k ∈ ks, k.label ≠ .loop → f.findBlockAddr k.start k.label = some (k.elseAddr, k.endAddr)

end MVVM.Interp
