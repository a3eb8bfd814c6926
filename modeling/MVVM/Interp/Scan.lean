import MVVM.Loop
import MVVM.Interp.Leb
import Mathlib.Data.Int.Notation

/-!
# The replay of a function body (wamr_interp_frame.cpp:216-950)

`wasm_replay_csp_bytecode` reads the code of a function from its beginning up to the
position of the restored frame and rebuilds the stack of labels on the way. Positions in
the code and the words of the frame are counted from `code` and from `frame_lp`.
-/

namespace MVVM.Interp

/-- The numbers of the opcodes that the loader of the runtime writes into the code in
place of others. -/
structure Internal where
  drop64 : UInt8
  select64 : UInt8
  getGlobal64 : UInt8
  setGlobal64 : UInt8
  setGlobalAuxStack : UInt8
  getLocalFast : UInt8
  setLocalFast : UInt8
  teeLocalFast : UInt8

inductive Imm where
  | leb
  | bytes (n : ℕ)
  -- one byte behind `CHECK_BUF`
  | checkedByte
  deriving DecidableEq, Repr

/-- The cases of the `switch`. Those that only skip immediates and move `frame_sp` differ in
what they skip and in the number of cells; `GET_LOCAL` and `SET_LOCAL` differ in the sign. -/
inductive Case where
  | plain (imms : List Imm) (cells : ℤ)
  | block
  | loop
  | ifCase
  | elseCase
  | endCase
  | brTable
  | localIndex (sign : ℤ)
  | localFast (sign : ℤ)
  | misc
  | fault
  deriving DecidableEq, Repr

/-- The cases for the opcodes of WebAssembly, from the first to the last number. -/
def wasmCases : List (ℕ × ℕ × Case) := [
  (0x00, 0x01, .plain [] 0),                     -- UNREACHABLE, NOP
  (0x02, 0x02, .block),
  (0x03, 0x03, .loop),
  (0x04, 0x04, .ifCase),
  (0x05, 0x05, .elseCase),
  (0x0b, 0x0b, .endCase),
  (0x0c, 0x0c, .plain [.leb] 0),                 -- BR
  (0x0d, 0x0d, .plain [.leb] (-1)),              -- BR_IF
  (0x0e, 0x0e, .brTable),
  (0x0f, 0x0f, .fault),                          -- RETURN
  (0x10, 0x10, .plain [.leb] 0),                 -- CALL
  (0x11, 0x11, .plain [.leb, .checkedByte] (-1)), -- CALL_INDIRECT
  (0x1a, 0x1a, .plain [] (-1)),                  -- DROP
  (0x1b, 0x1b, .plain [] (-2)),                  -- SELECT
  (0x20, 0x20, .localIndex 1),                   -- GET_LOCAL
  (0x21, 0x21, .localIndex (-1)),                -- SET_LOCAL
  (0x22, 0x22, .plain [.leb] 0),                 -- TEE_LOCAL
  (0x23, 0x23, .plain [.leb] 1),                 -- GET_GLOBAL
  (0x24, 0x24, .plain [.leb] (-1)),              -- SET_GLOBAL
  (0x28, 0x28, .plain [.leb, .leb] 0),           -- I32_LOAD
  (0x29, 0x29, .plain [.leb, .leb] 1),           -- I64_LOAD
  (0x2a, 0x2a, .plain [.leb, .leb] 0),           -- F32_LOAD
  (0x2b, 0x2b, .plain [.leb, .leb] 1),           -- F64_LOAD
  (0x2c, 0x2f, .plain [.leb, .leb] 0),           -- I32_LOAD8_S to I32_LOAD16_U
  (0x30, 0x35, .plain [.leb, .leb] 1),           -- I64_LOAD8_S to I64_LOAD32_U
  (0x36, 0x36, .plain [.leb, .leb] (-2)),        -- I32_STORE
  (0x37, 0x37, .plain [.leb, .leb] (-3)),        -- I64_STORE
  (0x38, 0x38, .plain [.leb, .leb] (-2)),        -- F32_STORE
  (0x39, 0x39, .plain [.leb, .leb] (-3)),        -- F64_STORE
  (0x3a, 0x3b, .plain [.leb, .leb] (-2)),        -- I32_STORE8, I32_STORE16
  (0x3c, 0x3e, .plain [.leb, .leb] (-3)),        -- I64_STORE8 to I64_STORE32
  (0x3f, 0x40, .plain [.leb] 1),                 -- MEMORY_SIZE, MEMORY_GROW
  (0x41, 0x41, .plain [.leb] 1),                 -- I32_CONST
  (0x42, 0x42, .plain [.leb] 2),                 -- I64_CONST
  (0x43, 0x43, .plain [.bytes 4] 1),             -- F32_CONST
  (0x44, 0x44, .plain [.bytes 8] 2),             -- F64_CONST
  (0x45, 0x45, .plain [] 0),                     -- I32_EQZ
  (0x46, 0x4f, .plain [] (-1)),                  -- I32_EQ to I32_GE_U
  (0x50, 0x50, .plain [] (-1)),                  -- I64_EQZ
  (0x51, 0x5a, .plain [] (-3)),                  -- I64_EQ to I64_GE_U
  (0x5b, 0x60, .plain [] (-1)),                  -- F32_EQ to F32_GE
  (0x61, 0x66, .plain [] (-3)),                  -- F64_EQ to F64_GE
  (0x67, 0x69, .plain [] 0),                     -- I32_CLZ, I32_CTZ, I32_POPCNT
  (0x6a, 0x78, .plain [] (-1)),                  -- I32_ADD to I32_ROTR
  (0x79, 0x7b, .plain [] 0),                     -- I64_CLZ, I64_CTZ, I64_POPCNT
  (0x7c, 0x8a, .plain [] (-2)),                  -- I64_ADD to I64_ROTR
  (0x8b, 0x91, .plain [] 0),                     -- F32_ABS to F32_SQRT
  (0x92, 0x98, .plain [] (-1)),                  -- F32_ADD to F32_COPYSIGN
  (0x99, 0x9f, .plain [] 0),                     -- F64_ABS to F64_SQRT
  (0xa0, 0xa6, .plain [] (-2)),                  -- F64_ADD to F64_COPYSIGN
  (0xa7, 0xa7, .plain [] (-1)),                  -- I32_WRAP_I64
  (0xa8, 0xa9, .plain [] 0),                     -- I32_TRUNC_S_F32, I32_TRUNC_U_F32
  (0xaa, 0xab, .plain [] (-1)),                  -- I32_TRUNC_S_F64, I32_TRUNC_U_F64
  (0xac, 0xaf, .plain [] 1),                     -- I64_EXTEND_S_I32 to I64_TRUNC_U_F32
  (0xb0, 0xb3, .plain [] 0),                     -- I64_TRUNC_S_F64 to F32_CONVERT_U_I32
  (0xb4, 0xb6, .plain [] (-1)),                  -- F32_CONVERT_S_I64 to F32_DEMOTE_F64
  (0xb7, 0xb8, .plain [] 1),                     -- F64_CONVERT_S_I32, F64_CONVERT_U_I32
  (0xb9, 0xba, .plain [] 0),                     -- F64_CONVERT_S_I64, F64_CONVERT_U_I64
  (0xbb, 0xbb, .plain [] 1),                     -- F64_PROMOTE_F32
  (0xbc, 0xbf, .plain [] 0),                     -- I32_REINTERPRET_F32 and the others
  (0xc0, 0xc4, .fault),                          -- I32_EXTEND8_S to I64_EXTEND32_S
  (0xfc, 0xfc, .misc)]

def internalCases (n : Internal) : List (UInt8 × Case) := [
  (n.drop64, .plain [] (-2)),
  (n.select64, .plain [] (-3)),
  (n.getGlobal64, .plain [.leb] 2),
  (n.setGlobal64, .plain [.leb] (-2)),
  (n.setGlobalAuxStack, .plain [.leb] (-1)),
  (n.getLocalFast, .localFast 1),
  (n.setLocalFast, .localFast (-1)),
  (n.teeLocalFast, .plain [.bytes 1] 0)]

/-- The case of an opcode. `default` ends in `exit`, as `EXT_OP_BLOCK` and the like do. -/
def caseOf (n : Internal) (opcode : UInt8) : Case :=
  match wasmCases.find? fun e => e.1 ≤ opcode.toNat && opcode.toNat ≤ e.2.1 with
  | some e => e.2.2
  | none =>
    match (internalCases n).find? fun e => e.1 == opcode with
    | some e => e.2
    | none => .fault

inductive LabelType where
  | func
  | block
  | loop
  | ifLabel
  deriving DecidableEq, Repr

/-- What is read of the function, of its frame and of the runtime: the code, the types of
the parameters and locals, the cells that these take, the cells of the results, where
`frame->lp` is (in bytes from the bottom of the stack), and `wasm_loader_find_block_addr`,
which gives the addresses of `else` and `end` for the position behind a block type. -/
structure FuncCode where
  code : List UInt8
  localTypes : List UInt8
  localCells : ℕ
  retCells : ℕ
  lpOffset : ℕ
  findBlockAddr : ℕ → LabelType → Option (Option ℕ × ℕ)

structure BranchBlock where
  beginAddr : ℕ
  targetAddr : ℕ
  frameSp : ℕ
  cellNum : ℕ
  deriving DecidableEq, Repr

/-- `frame_ip`, `frame_sp` and `csp`, whose back is the head of the list. -/
structure ScanState where
  ip : ℕ
  sp : ℤ
  csp : List BranchBlock
  deriving DecidableEq, Repr

/-- The offset of `frame_sp` from the bottom of the stack, as a `uint32`. -/
def FuncCode.spOffset (f : FuncCode) (sp : ℤ) : ℕ := ((f.lpOffset + 4 * sp) % 2 ^ 32).toNat

/-- `PUSH_CSP`, without parameters of the block. -/
def ScanState.pushCsp (s : ScanState) (f : FuncCode) (cellNum target : ℕ) : ScanState :=
  { s with csp := ⟨s.ip, target, f.spOffset s.sp, cellNum⟩ :: s.csp }

def valueTypeCells (valueType : UInt8) : ℕ :=
  if valueType = 0x7f ∨ valueType = 0x7d then 1
  else if valueType = 0x7e ∨ valueType = 0x7c then 2
  else 0

/-- The cells that `GET_LOCAL` and `SET_LOCAL` count for a local type. -/
def localTypeCells (localType : UInt8) : Except Stop ℤ :=
  if localType = 0x7f ∨ localType = 0x7d then .ok 1
  else if localType = 0x7e ∨ localType = 0x7c then .ok 2
  else .error .exited

def skipImm (code : List UInt8) (ip : ℕ) : Imm → Except Stop ℕ
  | .leb => skipLeb code ip
  | .bytes n => .ok (ip + n)
  | .checkedByte => if ip + 1 ≤ code.length then .ok (ip + 1) else .error .exited

def FuncCode.byteAt (f : FuncCode) (ip : ℕ) : Except Stop UInt8 :=
  match f.code[ip]? with
  | some b => .ok b
  | none => .error .undefined

/-- `read_leb_uint32`. -/
def FuncCode.readU32 (f : FuncCode) (ip : ℕ) : Except Stop (ℕ × ℕ) :=
  match readLeb 32 false f.code ip with
  | some (r, next) => .ok (r.toNat % 2 ^ 32, next)
  | none => .error .exited

def FuncCode.findBlock (f : FuncCode) (ip : ℕ) (label : LabelType) :
    Except Stop (Option ℕ × ℕ) :=
  match f.findBlockAddr ip label with
  | some addrs => .ok addrs
  | none => .error .exited

/-- `WASM_OP_MISC_PREFIX`. -/
def FuncCode.skipMisc (f : FuncCode) (ip : ℕ) : Except Stop ℕ := do
  let (opcode1, ip) ← f.readU32 ip
  if opcode1 ≤ 7 then .ok ip
  else if opcode1 = 8 then do
    let ip ← skipLeb f.code ip
    .ok (ip + 1)
  else if opcode1 = 9 then skipLeb f.code ip
  else if opcode1 = 10 then .ok (ip + 2)
  else if opcode1 = 11 then .ok (ip + 1)
  else .error .exited

def scanStep (n : Internal) (f : FuncCode) (target : ℕ) (s : ScanState) :
    Except Stop ScanState := do
  let opcode ← f.byteAt s.ip
  let ip := s.ip + 1
  match caseOf n opcode with
  | .plain imms cells =>
    let ip ← imms.foldlM (skipImm f.code) ip
    .ok { s with ip := ip, sp := s.sp + cells }
  | .block =>
    let valueType ← f.byteAt ip
    let (_, endAddr) ← f.findBlock (ip + 1) .block
    .ok ({ s with ip := ip + 1 }.pushCsp f (valueTypeCells valueType) endAddr)
  | .loop =>
    let _ ← f.byteAt ip
    .ok ({ s with ip := ip + 1 }.pushCsp f 0 (ip + 1))
  | .ifCase =>
    let valueType ← f.byteAt ip
    let (elseAddr, endAddr) ← f.findBlock (ip + 1) .ifLabel
    let entered := { s with ip := ip + 1 }.pushCsp f (valueTypeCells valueType) endAddr
    match elseAddr with
    -- `target_addr` is not at or before a null pointer
    | none => .ok { s with ip := endAddr + 1 }
    | some elseAddr =>
      if target ≤ elseAddr then .ok entered else .ok { entered with ip := elseAddr + 1 }
  | .elseCase =>
    match s.csp with
    | back :: _ => .ok { s with ip := back.targetAddr }
    | [] => .error .undefined
  | .endCase =>
    match s.csp with
    | _ :: b :: csp => .ok { s with ip := ip, csp := b :: csp }
    | _ => .error .exited
  | .brTable =>
    let (_, ip) ← f.readU32 ip
    .ok { s with ip := ip, sp := s.sp - 1 }
  | .localIndex sign =>
    let (idx, ip) ← f.readU32 ip
    match f.localTypes[idx]? with
    | some localType =>
      let cells ← localTypeCells localType
      .ok { s with ip := ip, sp := s.sp + sign * cells }
    | none => .error .undefined
  | .localFast sign =>
    let offset ← f.byteAt ip
    .ok { s with ip := ip + 1, sp := s.sp + sign * if offset &&& 0x80 = 0 then 1 else 2 }
  | .misc =>
    let ip ← f.skipMisc ip
    .ok { s with ip := ip }
  | .fault => .error .exited

/-- `while (frame_ip < target_addr)`. -/
def scanLoop (n : Internal) (f : FuncCode) (target : ℕ) (s : ScanState) :
    ScanState ⊕ Except Stop (List BranchBlock) :=
  if s.ip < target then
    match scanStep n f target s with
    | .ok t => .inl t
    | .error e => .inr (.error e)
  else .inr (.ok s.csp)

def scanStart (f : FuncCode) : ScanState :=
  (⟨0, f.localCells, []⟩ : ScanState).pushCsp f f.retCells (f.code.length - 1)

/-- `wasm_replay_csp_bytecode`, with a bound on the rounds. The vector is reversed at the
end: its front is the back of `csp`. -/
def wasmReplayCspBytecode (n : Internal) (f : FuncCode) (target fuel : ℕ) :
    Option (Except Stop (List BranchBlock)) :=
  if target ≤ f.code.length then Loop.run (scanLoop n f target) fuel (scanStart f)
  else some (.error .exited)

/-- `restore_impl` of a frame reverses the vector once more. -/
def restoredLabels (n : Internal) (f : FuncCode) (target fuel : ℕ) :
    Option (Except Stop (List BranchBlock)) :=
  (wasmReplayCspBytecode n f target fuel).map fun r => r.map List.reverse

end MVVM.Interp
