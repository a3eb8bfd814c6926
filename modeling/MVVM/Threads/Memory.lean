import MVVM.Cells
import MVVM.Run

/-!
# A memory instance across migrations (wamr_memory_instance.h:44-55, wamr_memory_instance.cpp:16-37)

A record carries the bytes of the linear memory and of the heap; they are restored into
blocks that the fresh process allocates. Pointers are addresses here.
-/

namespace MVVM.Threads

structure WASMMemoryInstance where
  moduleType : UInt32
  refCount : UInt16
  isSharedMemory : UInt8
  numBytesPerPage : UInt32
  curPageCount : UInt32
  maxPageCount : UInt32
  memoryDataSize : ℕ
  memoryData : ℕ
  memoryDataEnd : ℕ
  heapData : ℕ
  heapDataEnd : ℕ
  heap_le : heapData ≤ heapDataEnd

structure WAMRMemoryInstance where
  moduleType : UInt32
  refCount : UInt16
  isSharedMemory : UInt8
  numBytesPerPage : UInt32
  curPageCount : UInt32
  maxPageCount : UInt32
  memoryData : List UInt8
  heapData : List UInt8
  deriving DecidableEq, Repr

/-- `WAMRMemoryInstance::dump_impl`, with the bytes that the span leads to. -/
def dumpMemory (mem : ℕ → UInt8) (env : WASMMemoryInstance) : WAMRMemoryInstance where
  moduleType := env.moduleType
  refCount := env.refCount
  numBytesPerPage := env.numBytesPerPage
  curPageCount := env.curPageCount
  maxPageCount := env.maxPageCount
  isSharedMemory := env.isSharedMemory
  memoryData := Cells.block mem env.memoryData env.memoryDataSize
  heapData := Cells.block mem env.heapData (env.heapDataEnd - env.heapData)

/-- A process that restores: its memory, and where the two blocks are allocated. -/
structure Host where
  mem : ℕ → UInt8
  memoryAt : ℕ
  heapAt : ℕ

def zeroed (mem : ℕ → UInt8) (a n : ℕ) : ℕ → UInt8 :=
  fun b => if a ≤ b ∧ b < a + n then 0 else mem b

/-- `WAMRMemoryInstance::restore_impl`; `none` is a `memcpy` past the end of the block. -/
def restoreMemory (heapSize : ℕ) (host : Host) (r : WAMRMemoryInstance) :
    Option ((ℕ → UInt8) × WASMMemoryInstance) :=
  let refCount := r.refCount + 1
  let size := r.memoryData.length
  if refCount > 0 ∧ heapSize < size then none
  else
    let mem := if refCount > 0 then zeroed host.mem host.memoryAt heapSize else host.mem
    let mem := Cells.store mem host.memoryAt r.memoryData
    let mem := Cells.store mem host.heapAt r.heapData
    some (mem,
      { moduleType := r.moduleType
        refCount := refCount
        isSharedMemory := 1
        numBytesPerPage := r.numBytesPerPage
        curPageCount := r.curPageCount
        maxPageCount := r.maxPageCount
        memoryDataSize := size
        memoryData := host.memoryAt
        memoryDataEnd := host.memoryAt + size
        heapData := host.heapAt
        heapDataEnd := host.heapAt + r.heapData.length
        heap_le := Nat.le_add_right _ _ })

/-- One migration: the record is restored, and dumped again. -/
def migrate (heapSize : ℕ) (r : WAMRMemoryInstance) (host : Host) : Option WAMRMemoryInstance :=
  (restoreMemory heapSize host r).map fun (mem, env) => dumpMemory mem env

def Host.Apart (host : Host) (size heapSize : ℕ) : Prop :=
  host.memoryAt + size ≤ host.heapAt ∨ host.heapAt + heapSize ≤ host.memoryAt

/-- A migration raises the count of references and makes the memory shared; all else of
the record stays. -/
theorem migrate_eq {heapSize : ℕ} {r : WAMRMemoryInstance} {host : Host}
    (hfits : r.memoryData.length ≤ heapSize)
    (hapart : host.Apart r.memoryData.length r.heapData.length) :
    migrate heapSize r host =
      some { r with refCount := r.refCount + 1, isSharedMemory := 1 } := by
  have hroom : ¬(r.refCount + 1 > 0 ∧ heapSize < r.memoryData.length) := fun h =>
    absurd h.2 (Nat.not_lt.mpr hfits)
  have hmemory (mem : ℕ → UInt8) :
      Cells.block (Cells.store (Cells.store mem host.memoryAt r.memoryData) host.heapAt r.heapData)
        host.memoryAt r.memoryData.length = r.memoryData := by
    rw [Cells.block_store_of_apart _ hapart, Cells.block_store]
  have hheap (mem : ℕ → UInt8) :
      Cells.block (Cells.store mem host.heapAt r.heapData) host.heapAt
        (host.heapAt + r.heapData.length - host.heapAt) = r.heapData := by
    rw [Nat.add_sub_cancel_left, Cells.block_store]
  simp only [migrate, restoreMemory, if_neg hroom, Option.map_some, dumpMemory, hmemory, hheap]

/-- All processes of a chain of migrations have room for the blocks. -/
def AllApart (hosts : List Host) (r : WAMRMemoryInstance) : Prop :=
  ∀ host ∈ hosts, host.Apart r.memoryData.length r.heapData.length

theorem migrations_eq {heapSize : ℕ} {r : WAMRMemoryInstance} {hosts : List Host}
    (hfits : r.memoryData.length ≤ heapSize) (hapart : AllApart hosts r) :
    Run.exec (migrate heapSize) r hosts = some { r with
      refCount := r.refCount + UInt16.ofNat hosts.length
      isSharedMemory := if hosts = [] then r.isSharedMemory else 1 } := by
  induction hosts generalizing r with
  | nil => simp
  | cons host hosts ih =>
    have hhost : host.Apart r.memoryData.length r.heapData.length :=
      hapart host List.mem_cons_self
    have hrest : AllApart hosts r := fun h hm => hapart h (List.mem_cons_of_mem _ hm)
    have htail := ih (r := { r with refCount := r.refCount + 1, isSharedMemory := 1 }) hfits hrest
    have hcount : r.refCount + 1 + UInt16.ofNat hosts.length =
        r.refCount + UInt16.ofNat (host :: hosts).length := by
      rw [List.length_cons, UInt16.ofNat_add, UInt16.add_assoc,
        UInt16.add_comm (UInt16.ofNat hosts.length)]
      rfl
    rw [Run.exec_cons, migrate_eq hfits hhost, Option.bind_some, htail, hcount]
    simp

/-- However often a program migrates, its memory carries the first record, but that it is
shared then and that each migration has counted one more reference. -/
theorem memory_migrates (heapSize : ℕ) (mem : ℕ → UInt8) (m : WASMMemoryInstance)
    (hosts : List Host) (hfits : m.memoryDataSize ≤ heapSize)
    (hapart : AllApart hosts (dumpMemory mem m)) :
    Run.exec (migrate heapSize) (dumpMemory mem m) hosts = some { dumpMemory mem m with
      refCount := m.refCount + UInt16.ofNat hosts.length
      isSharedMemory := if hosts = [] then m.isSharedMemory else 1 } := by
  have hlen : (dumpMemory mem m).memoryData.length ≤ heapSize := by
    rw [dumpMemory, Cells.length_block]
    exact hfits
  exact migrations_eq hlen hapart

/-- Four bytes of memory, of which the last two are the heap. -/
def fourBytes : WASMMemoryInstance :=
  ⟨0, 0, 0, 65536, 1, 1, 4, 100, 104, 102, 104, by decide⟩

def bytes (a : ℕ) : UInt8 := UInt8.ofNat a

def twoHosts : List Host := [⟨fun _ => 0, 10, 20⟩, ⟨bytes, 50, 40⟩]

theorem memory_migrates_twice :
    Run.exec (migrate 8) (dumpMemory bytes fourBytes) twoHosts =
      some ⟨0, 2, 1, 65536, 1, 1, [100, 101, 102, 103], [102, 103]⟩ := by
  have hapart : AllApart twoHosts (dumpMemory bytes fourBytes) := by
    intro host hm
    rcases List.mem_pair.mp hm with rfl | rfl
    · exact .inl (by decide)
    · exact .inr (by decide)
  exact memory_migrates 8 bytes fourBytes twoHosts (by decide) hapart

theorem memory_changes :
    ¬∀ (heapSize : ℕ) (mem : ℕ → UInt8) (m : WASMMemoryInstance) (host : Host),
      m.memoryDataSize ≤ heapSize →
      host.Apart (dumpMemory mem m).memoryData.length (dumpMemory mem m).heapData.length →
      migrate heapSize (dumpMemory mem m) host = some (dumpMemory mem m) := by
  intro hclaim
  have hsame := hclaim 8 bytes fourBytes ⟨fun _ => 0, 10, 20⟩ (by decide) (.inl (by decide))
  exact absurd hsame (by decide)

end MVVM.Threads
