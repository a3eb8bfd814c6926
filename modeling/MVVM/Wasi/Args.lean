import Mathlib.Data.List.TakeWhile

/-!
# The WASI arguments in a snapshot

Six lists of strings are kept as pointers to C strings, copied into the context of the
snapshot, and handed back to `set_wasi_args` in the restoring process.
-/

namespace MVVM.Wasi

abbrev Bytes : Type := List UInt8

/-- The string that a `const char *` points to: it ends before the first NUL. -/
structure CString where
  bytes : Bytes
  no_nul : 0 ∉ bytes
  deriving DecidableEq

/-- `c_str()`, as the reader of the pointer sees it. -/
def cStr (s : Bytes) : CString where
  bytes := s.takeWhile (· ≠ 0)
  no_nul h := by simpa using List.mem_takeWhile_imp h

/-- `string_vec_to_cstr_array`. The `data()` of an empty vector is null. -/
def stringVecToCstrArray : List Bytes → List CString
  | [] => []
  | s :: rest => if s = [] then [] else (s :: rest).map cStr

structure ArgLists where
  dir : List CString
  mapDir : List CString
  env : List CString
  arg : List CString
  addr : List CString
  nsPool : List CString
  deriving DecidableEq

structure ArgContext where
  dir : List Bytes := []
  mapDir : List Bytes := []
  arg : List Bytes := []
  argvList : List Bytes := []
  envList : List Bytes := []
  addrPool : List Bytes := []
  nsLookupList : List Bytes := []
  deriving DecidableEq

def setWasiArgs (dirList mapDirList envList argList addrList nsLookupPool : List Bytes) :
    ArgLists where
  dir := stringVecToCstrArray dirList
  mapDir := stringVecToCstrArray mapDirList
  env := stringVecToCstrArray envList
  arg := stringVecToCstrArray argList
  addr := stringVecToCstrArray addrList
  nsPool := stringVecToCstrArray nsLookupPool

def setWasiArgsOfContext (c : ArgContext) : ArgLists :=
  setWasiArgs c.dir c.mapDir c.envList c.argvList c.addrPool c.nsLookupList

/-- The loops of `WAMRWASIContext::dump_impl` over the six lists. -/
def dumpArgs (w : ArgLists) (c : ArgContext) : ArgContext :=
  { c with
    dir := c.dir ++ w.dir.map CString.bytes
    mapDir := c.mapDir ++ w.mapDir.map CString.bytes
    envList := c.envList ++ w.env.map CString.bytes
    arg := c.arg ++ w.arg.map CString.bytes
    addrPool := c.addrPool ++ w.addr.map CString.bytes
    nsLookupList := c.nsLookupList ++ w.nsPool.map CString.bytes }

/-- The lists of the process that restores the snapshot. -/
def migratedArgs (w : ArgLists) : ArgLists := setWasiArgsOfContext (dumpArgs w {})

/-! ### One list -/

/-- The first string, if there is one, does not begin with a NUL. -/
def StartsProperly (v : List Bytes) : Prop := ∀ s ∈ v.head?, s.head? ≠ some 0

instance (v : List Bytes) : Decidable (StartsProperly v) := by
  unfold StartsProperly
  exact Option.decidableForallMem _

theorem cStr_bytes (s : CString) : cStr s.bytes = s := by
  obtain ⟨bytes, h⟩ := s
  have hall : bytes.takeWhile (· ≠ 0) = bytes := by
    rw [List.takeWhile_eq_self_iff]
    intro b hb
    have hne : b ≠ 0 := fun h0 => h (h0 ▸ hb)
    simpa using hne
  simp only [cStr, CString.mk.injEq]
  exact hall

theorem cStr_bytes_eq_nil {s : Bytes} (hne : s ≠ []) :
    (cStr s).bytes = [] ↔ s.head? = some 0 := by
  cases s with
  | nil => exact absurd rfl hne
  | cons b s => by_cases hb : b = 0 <;> simp [cStr, hb]

theorem copy_bytes (v : List CString) : (v.map CString.bytes).map cStr = v := by
  rw [List.map_map]
  exact List.map_id'' (fun s => cStr_bytes s) v

theorem stringVecToCstrArray_copy (v : List Bytes) :
    stringVecToCstrArray ((stringVecToCstrArray v).map CString.bytes) = stringVecToCstrArray v ↔
      StartsProperly v := by
  cases v with
  | nil => simp [stringVecToCstrArray, StartsProperly]
  | cons s rest =>
    by_cases hs : s = []
    · simp [stringVecToCstrArray, StartsProperly, hs]
    · have hstart : StartsProperly (s :: rest) ↔ s.head? ≠ some 0 := by simp [StartsProperly]
      have hkept : stringVecToCstrArray (s :: rest) = (s :: rest).map cStr := if_neg hs
      rw [hstart, hkept]
      by_cases hnul : s.head? = some 0
      · have hfirst : (cStr s).bytes = [] := (cStr_bytes_eq_nil hs).mpr hnul
        have hlost : stringVecToCstrArray (((s :: rest).map cStr).map CString.bytes) = [] :=
          if_pos hfirst
        rw [hlost]
        simp [hnul]
      · have hfirst : (cStr s).bytes ≠ [] := fun h => hnul ((cStr_bytes_eq_nil hs).mp h)
        have hcopy : stringVecToCstrArray (((s :: rest).map cStr).map CString.bytes) =
            (((s :: rest).map cStr).map CString.bytes).map cStr := if_neg hfirst
        rw [hcopy, copy_bytes]
        simp [hnul]

theorem stringVecToCstrArray_eq_nil (v : List Bytes) :
    stringVecToCstrArray v = [] ↔ v = [] ∨ v.head? = some [] := by
  cases v with
  | nil => simp [stringVecToCstrArray]
  | cons s rest => by_cases hs : s = [] <;> simp [stringVecToCstrArray, hs]

/-! ### The six lists -/

theorem migratedArgs_eq (w : ArgLists) :
    migratedArgs w = setWasiArgs (w.dir.map CString.bytes) (w.mapDir.map CString.bytes)
      (w.env.map CString.bytes) [] (w.addr.map CString.bytes) (w.nsPool.map CString.bytes) := rfl

/-- The restored process has the six lists of the checkpointed one, and dumps them again,
just when there were no arguments and no list starts with a NUL. -/
theorem migratedArgs_same_iff (dir mapDir env arg addr nsPool : List Bytes) :
    (migratedArgs (setWasiArgs dir mapDir env arg addr nsPool) =
        setWasiArgs dir mapDir env arg addr nsPool ∧
      dumpArgs (migratedArgs (setWasiArgs dir mapDir env arg addr nsPool)) {} =
        dumpArgs (setWasiArgs dir mapDir env arg addr nsPool) {}) ↔
      (arg = [] ∨ arg.head? = some []) ∧ StartsProperly dir ∧ StartsProperly mapDir ∧
        StartsProperly env ∧ StartsProperly addr ∧ StartsProperly nsPool := by
  rw [and_iff_left_of_imp fun h => by rw [h], migratedArgs_eq]
  simp only [setWasiArgs, ArgLists.mk.injEq, stringVecToCstrArray_copy]
  have harg : stringVecToCstrArray [] = stringVecToCstrArray arg ↔
      arg = [] ∨ arg.head? = some [] := eq_comm.trans (stringVecToCstrArray_eq_nil arg)
  rw [harg]
  constructor
  · intro ⟨hdir, hmapDir, henv, harg, haddr, hnsPool⟩
    exact ⟨harg, hdir, hmapDir, henv, haddr, hnsPool⟩
  · intro ⟨harg, hdir, hmapDir, henv, haddr, hnsPool⟩
    exact ⟨hdir, hmapDir, henv, harg, haddr, hnsPool⟩

/-- The one argument `a` is gone after the restore. -/
theorem arguments_lost :
    ¬ ∀ dir mapDir env arg addr nsPool : List Bytes,
      migratedArgs (setWasiArgs dir mapDir env arg addr nsPool) =
          setWasiArgs dir mapDir env arg addr nsPool ∧
        dumpArgs (migratedArgs (setWasiArgs dir mapDir env arg addr nsPool)) {} =
          dumpArgs (setWasiArgs dir mapDir env arg addr nsPool) {} := by
  intro hclaim
  have h := (hclaim [] [] [] [[97]] [] []).1
  exact absurd h (by decide)

end MVVM.Wasi
