import MVVM.Cells
import MVVM.Wasi.Args
import Mathlib.Data.Int.Notation
import Mathlib.Algebra.Group.Nat.Defs

/-!
# Paths that are handed to the guest (wamr.cpp:234-250, 333-351)

`invoke_fopen` and `invoke_preopen` allocate a block in the heap of the guest, copy a path into
it and call a function of the guest with its address.
-/

namespace MVVM.Wasi

/-- The linear memory, by the addresses of the guest. Behind its end a read of the guest traps,
but not a write of the host. -/
structure Memory where
  bytes : ℕ → UInt8
  size : ℕ

def Memory.byteAt (m : Memory) (a : ℕ) : Option UInt8 := if a < m.size then some (m.bytes a) else none

/-- The string that the guest reads at an address, up to a NUL. -/
def Memory.cString (m : Memory) (a : ℕ) : Option Bytes :=
  let tail := Cells.block m.bytes a (m.size - a)
  if 0 ∈ tail then some (tail.takeWhile (· ≠ 0)) else none

def Memory.store (m : Memory) (a : ℕ) (bs : Bytes) : Memory :=
  { m with bytes := Cells.store m.bytes a bs }

/-- `wasm_runtime_module_malloc`, `wasm_runtime_call_wasm` of a function that `find_func` finds,
and `wasm_runtime_module_free`. -/
structure Runtime where
  moduleMalloc : ℕ → Memory → ℕ × Memory
  callWasm : String → List ℕ → Memory → List ℕ × Memory
  moduleFree : ℕ → Memory → Memory
  -- a block of the size that is asked for, whatever it holds
  block_inside : ∀ n m, (moduleMalloc n m).1 ≠ 0 →
    (moduleMalloc n m).1 + n ≤ (moduleMalloc n m).2.size

/-- What `strncpy(dst, src.c_str(), n)` writes from `dst` on. -/
def strncpy (src : Bytes) (n : ℕ) : Bytes :=
  (src.takeWhile (· ≠ 0) ++ List.replicate n 0).take n

/-- The call of the guest: what has been written at the block before it, the memory and the
arguments. -/
structure GuestCall where
  bufferForWasm : ℕ
  written : Bytes
  memory : Memory
  argv : List ℕ

def fopenCall (rt : Runtime) (path : Bytes) (option : ℕ) (m : Memory) : Option GuestCall :=
  let block := rt.moduleMalloc path.length m
  let written := strncpy path path.length
  if block.1 ≠ 0 then
    some ⟨block.1, written, block.2.store block.1 written, [block.1, option, 15]⟩
  else none

def preopenCall (rt : Runtime) (fd : ℕ) (path : Bytes) (m : Memory) : Option GuestCall :=
  let block := rt.moduleMalloc 100 m
  let written := strncpy path path.length
  if block.1 ≠ 0 then
    some ⟨block.1, written, block.2.store block.1 written, [fd, block.1, 102]⟩
  else none

/-- The call, and what comes behind it. -/
def GuestCall.finish (c : GuestCall) (rt : Runtime) (name : String) : ℤ × Memory :=
  let after := rt.callWasm name c.argv c.memory
  (Int.bmod (after.1.getD 0 0) (2 ^ 32), rt.moduleFree c.bufferForWasm after.2)

def invokeFopen (rt : Runtime) (path : Bytes) (option : ℕ) (m : Memory) : ℤ × Memory :=
  match fopenCall rt path option m with
  | some c => c.finish rt "o_"
  | none => (-1, (rt.moduleMalloc path.length m).2)

def invokePreopen (rt : Runtime) (fd : ℕ) (path : Bytes) (m : Memory) : ℤ × Memory :=
  match preopenCall rt fd path m with
  | some c => c.finish rt "__wasilibc_nocwd_openat_nomode"
  | none => (-1, (rt.moduleMalloc 100 m).2)

/-- The guest reads the path at the address in `argv[i]`, and nothing has been written outside
the block of `n` bytes at `a`. -/
structure Delivers (path : Bytes) (a n : ℕ) (c : GuestCall) (i : ℕ) : Prop where
  string : ∃ p ∈ c.argv[i]?, c.memory.cString p = some path
  inside : ∀ b, c.bufferForWasm ≤ b → b < c.bufferForWasm + c.written.length → a ≤ b ∧ b < a + n

/-! ### Strings in memory -/

theorem takeWhile_ne_nul {s : Bytes} (hs : 0 ∉ s) (rest : Bytes) :
    (s ++ rest).takeWhile (· ≠ 0) = s ++ rest.takeWhile (· ≠ 0) := by
  apply List.takeWhile_append_of_pos
  intro b hb
  have hne : b ≠ 0 := fun h => hs (h ▸ hb)
  simpa using hne

theorem takeWhile_eq_iff {s front rest : Bytes} {b : UInt8} (hs : 0 ∉ s)
    (hlen : front.length = s.length) :
    0 ∈ front ++ b :: rest ∧ (front ++ b :: rest).takeWhile (· ≠ 0) = s ↔ front = s ∧ b = 0 := by
  constructor
  · intro ⟨_, htake⟩
    have hbegins := List.takeWhile_prefix (l := front ++ b :: rest) (· ≠ 0)
    rw [htake] at hbegins
    have hfront : front = s :=
      (List.prefix_of_prefix_length_le (List.prefix_append _ _) hbegins hlen.le).eq_of_length hlen
    rw [hfront, takeWhile_ne_nul hs, List.append_right_eq_self] at htake
    refine ⟨hfront, ?_⟩
    by_contra hne
    simp [hne] at htake
  · rintro ⟨rfl, rfl⟩
    rw [takeWhile_ne_nul hs]
    simp

/-- A string is read where its bytes stand, with a NUL behind them. -/
theorem cString_eq_some_iff {m : Memory} {a : ℕ} {s : Bytes} (hs : 0 ∉ s) :
    m.cString a = some s ↔
      Cells.block m.bytes a s.length = s ∧ m.byteAt (a + s.length) = some 0 := by
  unfold Memory.cString Memory.byteAt
  simp only [Option.ite_none_right_eq_some, Option.some.injEq]
  by_cases hlt : a + s.length < m.size
  · obtain ⟨k, hk⟩ : ∃ k, m.size - a = s.length + (1 + k) := ⟨m.size - a - s.length - 1, by omega⟩
    have hnext : Cells.block m.bytes (a + s.length) (1 + k) =
        m.bytes (a + s.length) :: Cells.block m.bytes (a + s.length + 1) k := by
      rw [Cells.block_add]
      rfl
    rw [hk, Cells.block_add, hnext, takeWhile_eq_iff hs (Cells.length_block ..),
      and_iff_right hlt]
  · refine iff_of_false ?_ fun h => hlt h.2.1
    rintro ⟨hmem, htake⟩
    have hbegins := List.takeWhile_prefix (l := Cells.block m.bytes a (m.size - a)) (· ≠ 0)
    rw [htake] at hbegins
    have hlen : (Cells.block m.bytes a (m.size - a)).length = m.size - a := Cells.length_block ..
    have hall := hbegins.eq_of_length (by have := hbegins.length_le; omega)
    exact hs (hall ▸ hmem)

/-- A path without NUL is copied as it is, without a NUL. -/
theorem strncpy_path {path : Bytes} (hpath : 0 ∉ path) : strncpy path path.length = path := by
  have hall : path.takeWhile (· ≠ 0) = path := by
    have h := takeWhile_ne_nul hpath []
    simpa using h
  rw [strncpy, hall, List.take_append_of_le_length (Nat.le_refl _), List.take_length]

/-- What the guest reads depends on the byte behind the path, which nobody writes. -/
theorem delivers_iff {path : Bytes} (hpath : 0 ∉ path) {m : Memory} {a n i : ℕ} {argv : List ℕ}
    (harg : argv[i]? = some a) :
    Delivers path a n
        ⟨a, strncpy path path.length, m.store a (strncpy path path.length), argv⟩ i ↔
      path.length ≤ n ∧ m.byteAt (a + path.length) = some 0 := by
  have hstring : (m.store a path).cString a = some path ↔ m.byteAt (a + path.length) = some 0 := by
    have hbehind : (m.store a path).byteAt (a + path.length) = m.byteAt (a + path.length) := by
      have hsame := Cells.store_of_ge m.bytes path (Nat.le_refl (a + path.length))
      simp only [Memory.byteAt, Memory.store, hsame]
    rw [cString_eq_some_iff hpath, hbehind]
    exact and_iff_right (Cells.block_store m.bytes a path)
  rw [strncpy_path hpath]
  constructor
  · intro h
    obtain ⟨p, hp, hread⟩ := h.string
    obtain rfl : a = p := Option.some.inj (harg.symm.trans hp)
    refine ⟨?_, hstring.mp hread⟩
    by_contra hlong
    have hlast := h.inside (a + n) (Nat.le_add_right _ _) (by show a + n < a + path.length; omega)
    omega
  · intro ⟨hfits, hnul⟩
    refine ⟨⟨a, harg, hstring.mpr hnul⟩, fun b hle hlt => ⟨hle, ?_⟩⟩
    have hlt : b < a + path.length := hlt
    omega

/-- The guest reads the path that `invoke_fopen` gives it just when the byte behind the block
is a NUL, and that of `invoke_preopen` just when the path is not longer than the block and has a
NUL behind it. -/
theorem paths_delivered_iff (rt : Runtime) (path : Bytes) (hpath : 0 ∉ path) (m : Memory) :
    (∀ option c, fopenCall rt path option m = some c →
      (Delivers path (rt.moduleMalloc path.length m).1 path.length c 0 ↔
        (rt.moduleMalloc path.length m).2.byteAt
          ((rt.moduleMalloc path.length m).1 + path.length) = some 0)) ∧
    (∀ fd c, preopenCall rt fd path m = some c →
      (Delivers path (rt.moduleMalloc 100 m).1 100 c 1 ↔ path.length ≤ 100 ∧
        (rt.moduleMalloc 100 m).2.byteAt
          ((rt.moduleMalloc 100 m).1 + path.length) = some 0)) := by
  constructor
  · intro option c hc
    simp only [fopenCall, Option.ite_none_right_eq_some, Option.some.injEq] at hc
    obtain ⟨-, rfl⟩ := hc
    rw [delivers_iff hpath rfl]
    exact and_iff_right (Nat.le_refl _)
  · intro fd c hc
    simp only [preopenCall, Option.ite_none_right_eq_some, Option.some.injEq] at hc
    obtain ⟨-, rfl⟩ := hc
    exact delivers_iff hpath rfl

/-- All blocks are at address 8, if there is room. -/
def oneBlock : Runtime where
  moduleMalloc n m := if 8 + n ≤ m.size then (8, m) else (0, m)
  callWasm _ argv m := (argv, m)
  moduleFree _ m := m
  block_inside n m h := by
    split at h
    · next hfits =>
      rw [if_pos hfits]
      exact hfits
    · exact absurd rfl h

/-- A heap that has held something else, with a NUL behind the first byte of the block. -/
def usedHeap : Memory := ⟨fun a => if a = 9 then 0 else 0x78, 256⟩

/-- The path `a` is read in both calls, since there happens to be a NUL behind it. -/
theorem paths_delivered_iff_nul :
    (∃ c, fopenCall oneBlock [0x61] 3 usedHeap = some c ∧ Delivers [0x61] 8 1 c 0) ∧
      ∃ c, preopenCall oneBlock 3 [0x61] usedHeap = some c ∧ Delivers [0x61] 8 100 c 1 := by
  obtain ⟨hfopen, hpreopen⟩ := paths_delivered_iff oneBlock [0x61] (by decide) usedHeap
  exact ⟨⟨_, rfl, (hfopen 3 _ rfl).mpr (by decide)⟩,
    _, rfl, (hpreopen 3 _ rfl).mpr ⟨by decide, by decide⟩⟩

/-- What the heap held before is read as the end of the path `ab`, and the last byte of a path
of 101 bytes is written behind the block. -/
theorem path_without_terminator :
    (¬∀ (rt : Runtime) (path : Bytes) (m : Memory) (option : ℕ) (c : GuestCall), 0 ∉ path →
      fopenCall rt path option m = some c →
        Delivers path (rt.moduleMalloc path.length m).1 path.length c 0) ∧
    ¬∀ (rt : Runtime) (path : Bytes) (m : Memory) (fd : ℕ) (c : GuestCall), 0 ∉ path →
      preopenCall rt fd path m = some c → Delivers path (rt.moduleMalloc 100 m).1 100 c 1 := by
  constructor
  · intro hclaim
    have hnul := ((delivers_iff (by decide) rfl).mp
      (hclaim oneBlock [0x61, 0x62] usedHeap 3 _ (by decide) rfl)).2
    exact absurd hnul (by decide)
  · intro hclaim
    have hnotin : 0 ∉ List.replicate 101 (0x61 : UInt8) := by
      intro h
      exact absurd (List.eq_of_mem_replicate h) (by decide)
    have hfits := ((delivers_iff hnotin rfl).mp
      (hclaim oneBlock (List.replicate 101 0x61) usedHeap 3 _ hnotin rfl)).1
    rw [List.length_replicate] at hfits
    omega

end MVVM.Wasi
