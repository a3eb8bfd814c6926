import Mathlib.Algebra.Group.Nat.Defs
import Mathlib.Data.List.Basic
import Mathlib.Data.Nat.Notation

/-!
# Patching the code of a module (wamr_mvvm.cpp:124-280)

The breakpoints of an AoT module are made to nops and back, and the fences before them are
removed. An offset is a `size_t`, and so is what is added to it or taken from it.
-/

namespace MVVM.Patch

inductive Arch where
  | x86_64
  | aarch64
  deriving DecidableEq, Repr

/-- The code of a module; `code_size` is an `uint32`. -/
structure Code where
  bytes : List UInt8
  size : bytes.length < 2 ^ 32
  deriving DecidableEq

/-- `none` outside of the code. -/
def Code.read (c : Code) (i : ℕ) : Option UInt8 := c.bytes[i]?

def Code.write (c : Code) (i : ℕ) (b : UInt8) : Option Code :=
  if i < c.bytes.length then
    some ⟨c.bytes.set i b, by rw [List.length_set]; exact c.size⟩
  else none

def ahead (offset k : ℕ) : ℕ := (offset + k) % 2 ^ 64

def behind (offset k : ℕ) : ℕ := (offset + 2 ^ 64 - k) % 2 ^ 64

/-- The bytes of a nop, in the order in which they are written. -/
def nop : Arch → List (ℕ × UInt8)
  | .x86_64 => [(0, 0x90)]
  | .aarch64 => [(3, 0xd5), (2, 0x03), (1, 0x20), (0, 0x1f)]

def int3 : Arch → List (ℕ × UInt8)
  | .x86_64 => [(0, 0xcc)]
  | .aarch64 => [(3, 0xd4), (2, 0x00), (1, 0x00), (0, 0x01)]

def patchAt (instr : List (ℕ × UInt8)) (c : Code) (offset : ℕ) : Option Code :=
  instr.foldlM (fun c w => c.write (ahead offset w.1) w.2) c

/-- A round of `replace_mfence_with_nop`. -/
def removeFence (c : Code) (offset : ℕ) : Option Code := do
  let b ← c.read (behind offset 3)
  if b ≠ 0x0f then return c
  let b ← c.read (behind offset 2)
  if b ≠ 0xae then return c
  let b ← c.read (behind offset 1)
  if b ≠ 0xf0 then return c
  let c ← c.write (behind offset 3) 0x90
  let c ← c.write (behind offset 2) 0x90
  c.write (behind offset 1) 0x90

/-- The members of `WAMRInstance` that the functions read. -/
structure Patcher where
  arch : Arch
  isAot : Bool
  int3Addr : List ℕ

def replaceInt3WithNop (w : Patcher) (c : Code) : Option Code :=
  if w.isAot then w.int3Addr.foldlM (patchAt (nop w.arch)) c else some c

def replaceNopWithInt3 (w : Patcher) (c : Code) : Option Code :=
  if w.isAot then w.int3Addr.foldlM (patchAt (int3 w.arch)) c else some c

def replaceMfenceWithNop (w : Patcher) (c : Code) : Option Code :=
  if w.isAot then w.int3Addr.foldlM removeFence c else some c

inductive PatchCall where
  | replaceInt3WithNop
  | replaceNopWithInt3
  | replaceMfenceWithNop
  deriving DecidableEq, Repr

def patchStep (w : Patcher) (c : Code) : PatchCall → Option Code
  | .replaceInt3WithNop => replaceInt3WithNop w c
  | .replaceNopWithInt3 => replaceNopWithInt3 w c
  | .replaceMfenceWithNop => replaceMfenceWithNop w c

/-! ### Reading and writing -/

variable {c c' : Code} {i o offset k : ℕ} {b : UInt8}

theorem ahead_of_lt (h : offset + k < 2 ^ 64) : ahead offset k = offset + k := Nat.mod_eq_of_lt h

theorem behind_of_le (h : k ≤ offset) (hlt : offset < 2 ^ 64) : behind offset k = offset - k := by
  have hwrap : offset + 2 ^ 64 - k = offset - k + 2 ^ 64 := by omega
  rw [behind, hwrap, Nat.add_mod_right, Nat.mod_eq_of_lt (by omega)]

theorem behind_of_lt (h : offset < k) (hk : k < 2 ^ 32) : 2 ^ 32 ≤ behind offset k := by
  rw [behind, Nat.mod_eq_of_lt (by omega)]
  omega

theorem read_isSome_iff : (∃ b, c.read i = some b) ↔ i < c.bytes.length :=
  ⟨fun ⟨_, h⟩ => (List.getElem?_eq_some_iff.mp h).1, fun h => ⟨_, List.getElem?_eq_getElem h⟩⟩

theorem write_of_lt (h : i < c.bytes.length) (b : UInt8) :
    ∃ c', c.write i b = some c' ∧ c'.bytes = c.bytes.set i b :=
  ⟨_, if_pos h, rfl⟩

theorem length_write (h : c.write i b = some c') : c'.bytes.length = c.bytes.length := by
  unfold Code.write at h
  split at h
  · obtain rfl := Option.some.inj h
    exact List.length_set
  · cases h

theorem getElem?_write (h : c.write i b = some c') (j : ℕ) :
    c'.bytes[j]? = if i = j then some b else c.bytes[j]? := by
  unfold Code.write at h
  split at h
  · next hlt =>
    obtain rfl := Option.some.inj h
    simp only [List.getElem?_set, if_pos hlt]
  · cases h

/-! ### Fences -/

/-- The bytes before `o` are `0f ae f0`. -/
def HasFence (c : Code) (o : ℕ) : Prop :=
  c.bytes[o - 3]? = some 0x0f ∧ c.bytes[o - 2]? = some 0xae ∧ c.bytes[o - 1]? = some 0xf0

instance (c : Code) (o : ℕ) : Decidable (HasFence c o) := by unfold HasFence; infer_instance

theorem removeFence_of_fence (h3 : 3 ≤ o) (hlen : o ≤ c.bytes.length) (h : HasFence c o) :
    ∃ c', removeFence c o = some c' ∧ c'.bytes.length = c.bytes.length ∧
      ∀ i : ℕ, c'.bytes[i]? = if o ≤ i + 3 ∧ i < o then some 0x90 else c.bytes[i]? := by
  have hsize := c.size
  obtain ⟨hb3, hb2, hb1⟩ := h
  have hat : ∀ k, k ≤ 3 → behind o k = o - k := fun k hk => behind_of_le (by omega) (by omega)
  obtain ⟨c₁, hw1, -⟩ := write_of_lt (c := c) (i := o - 3) (by omega) 0x90
  have hlen1 := length_write hw1
  obtain ⟨c₂, hw2, -⟩ := write_of_lt (c := c₁) (i := o - 2) (by omega) 0x90
  have hlen2 := length_write hw2
  obtain ⟨c₃, hw3, -⟩ := write_of_lt (c := c₂) (i := o - 1) (by omega) 0x90
  have hlen3 := length_write hw3
  refine ⟨c₃, ?_, by omega, fun i => ?_⟩
  · simp [removeFence, Code.read, hat, hb3, hb2, hb1, hw1, hw2, hw3]
  · rw [getElem?_write hw3, getElem?_write hw2, getElem?_write hw1]
    by_cases hi : o ≤ i + 3 ∧ i < o
    · rw [if_pos hi]
      rcases (by omega : o - 1 = i ∨ o - 2 = i ∨ o - 3 = i) with heq | heq | heq <;> simp [heq]
    · rw [if_neg hi, if_neg (by omega), if_neg (by omega), if_neg (by omega)]

theorem removeFence_of_not (h3 : 3 ≤ o) (hlen : o ≤ c.bytes.length) (h : ¬HasFence c o) :
    removeFence c o = some c := by
  have hsize := c.size
  have hat : ∀ k, k ≤ 3 → behind o k = o - k := fun k hk => behind_of_le (by omega) (by omega)
  have hread : ∀ k, 1 ≤ k → k ≤ 3 → ∃ b, c.bytes[o - k]? = some b :=
    fun k hk hk3 => ⟨_, List.getElem?_eq_getElem (by omega)⟩
  obtain ⟨b3, hb3⟩ := hread 3 (by decide) (by decide)
  obtain ⟨b2, hb2⟩ := hread 2 (by decide) (by decide)
  obtain ⟨b1, hb1⟩ := hread 1 (by decide) (by decide)
  have hnot : b3 = 0x0f → b2 = 0xae → b1 ≠ 0xf0 := by
    rintro rfl rfl rfl
    exact h ⟨hb3, hb2, hb1⟩
  simp only [removeFence, Code.read, hat 3 (by decide), hat 2 (by decide), hat 1 (by decide), hb3,
    hb2, hb1]
  by_cases h3' : b3 = 0x0f
  · by_cases h2' : b2 = 0xae
    · simp [h3', h2', hnot h3' h2']
    · simp [h3', h2']
  · simp [h3']

end MVVM.Patch
