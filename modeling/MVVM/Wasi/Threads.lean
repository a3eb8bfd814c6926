import MVVM.Maps
import MVVM.Run
import Mathlib.Algebra.Group.Int.Defs
import Mathlib.Algebra.Group.Nat.Defs
import Mathlib.Data.Int.Notation
import Mathlib.Data.Nat.Notation

/-!
# The tables of threads in a snapshot

`wamr` keeps for each thread its start argument and for each child its parent, under
64-bit thread ids. The context that goes into the snapshot has maps of its own, and one of
them is a map of `int`.
-/

namespace MVVM.Wasi

def narrow (x : UInt64) : Int32 := x.toUInt32.toInt32

def widen (z : Int32) : UInt64 := z.toInt64.toUInt64

/-- The two thread tables of `WAMRInstance`, with the flag that a restore looks at. -/
structure Instance where
  shouldSnapshot : Bool
  tidStartArgMap : Std.TreeMap UInt64 (Int32 × Int32)
  childTidMap : Std.TreeMap UInt64 UInt64

structure Context where
  tidStartArgMap : Std.TreeMap UInt64 (Int32 × Int32)
  childTidMap : Std.TreeMap Int32 Int32

inductive ThreadCall where
  | insertTidStartArg (tid startArg vtid : UInt64)
  | insertParentChild (tid childTid : UInt64)
  deriving DecidableEq, Repr

def insertTidStartArg (w : Instance) (tid startArg vtid : UInt64) : Instance :=
  { w with tidStartArgMap := w.tidStartArgMap.insert tid (narrow startArg, narrow vtid) }

def insertParentChild (w : Instance) (tid childTid : UInt64) : Instance :=
  { w with childTidMap := w.childTidMap.insert childTid tid }

def record (w : Instance) : ThreadCall → Instance
  | .insertTidStartArg tid startArg vtid => insertTidStartArg w tid startArg vtid
  | .insertParentChild tid childTid => insertParentChild w tid childTid

/-- The loops of `WAMRWASIContext::dump_impl` over the two tables. -/
def dumpThreads (w : Instance) (c : Context) : Context where
  tidStartArgMap := Maps.copy id id w.tidStartArgMap c.tidStartArgMap
  childTidMap := Maps.copy narrow narrow w.childTidMap c.childTidMap

/-- The loops of `WAMRWASIContext::restore_impl` over them. -/
def restoreThreads (c : Context) (w : Instance) : Instance :=
  if w.shouldSnapshot = false then
    { w with tidStartArgMap := Maps.copy id id c.tidStartArgMap w.tidStartArgMap,
             childTidMap := Maps.copy widen widen c.childTidMap w.childTidMap }
  else w

/-- `WAMRInstance` and `WAMRWASIContext` as they are constructed. -/
def freshInstance : Instance := ⟨false, ∅, ∅⟩

def freshContext : Context := ⟨∅, ∅⟩

/-! ### The two conversions -/

/-- The ids that a signed number of 32 bits stands for. -/
def Fits (x : UInt64) : Prop := x.toNat < 2 ^ 31 ∨ 2 ^ 64 - 2 ^ 31 ≤ x.toNat

instance (x : UInt64) : Decidable (Fits x) := by unfold Fits; infer_instance

theorem toInt_narrow (x : UInt64) : (narrow x).toBitVec.toInt = (x.toNat : ℤ).bmod (2 ^ 32) := by
  have h : (narrow x).toBitVec.toInt = (x.toBitVec.setWidth 32).toInt := rfl
  rw [h, BitVec.toInt_setWidth]
  rfl

theorem toInt_widen (z : Int32) : (widen z).toBitVec.toInt = z.toBitVec.toInt := by
  have h : (widen z).toBitVec = z.toBitVec.signExtend 64 := rfl
  rw [h, BitVec.toInt_signExtend_of_le (by decide)]

theorem widen_narrow_iff (x : UInt64) : widen (narrow x) = x ↔ Fits x := by
  have hx : x.toNat < 2 ^ 64 := x.toNat_lt
  have hb : x.toBitVec.toInt = (x.toNat : ℤ).bmod (2 ^ 64) := BitVec.toInt_eq_toNat_bmod _
  rw [← UInt64.toBitVec_inj, ← BitVec.toInt_inj, toInt_widen, toInt_narrow, hb, Fits,
    Int.bmod_def, Int.bmod_def]
  split <;> split <;> omega

theorem widen_injective {a b : Int32} (h : widen a = widen b) : a = b := by
  rw [← Int32.toBitVec_inj, ← BitVec.toInt_inj, ← toInt_widen, ← toInt_widen, h]

theorem fits_widen (z : Int32) : Fits (widen z) := by
  have hx : (widen z).toNat < 2 ^ 64 := (widen z).toNat_lt
  have hb : (widen z).toBitVec.toInt = ((widen z).toNat : ℤ).bmod (2 ^ 64) :=
    BitVec.toInt_eq_toNat_bmod _
  have hlo := BitVec.le_two_mul_toInt (x := z.toBitVec)
  have hhi := BitVec.two_mul_toInt_lt (x := z.toBitVec)
  rw [← toInt_widen, hb, Int.bmod_def] at hlo hhi
  unfold Fits
  split at hlo <;> omega

/-! ### The two tables after a restore -/

/-- What the restored process has, when the first environment is restored into a fresh
instance. -/
def migrated (w : Instance) : Instance := restoreThreads (dumpThreads w freshContext) freshInstance

theorem tidStartArgMap_migrated (w : Instance) (tid : UInt64) :
    (migrated w).tidStartArgMap[tid]? = w.tidStartArgMap[tid]? := by
  have hcopy : (migrated w).tidStartArgMap =
      Maps.copy id id (Maps.copy id id w.tidStartArgMap ∅) ∅ := rfl
  rw [hcopy, Maps.getElem?_copy_id, Maps.getElem?_copy_id]

theorem childTidMap_migrated (w : Instance) :
    (migrated w).childTidMap =
      Maps.copy widen widen (dumpThreads w freshContext).childTidMap ∅ := rfl

theorem childTidMap_dumpThreads (w : Instance) :
    (dumpThreads w freshContext).childTidMap = Maps.copy narrow narrow w.childTidMap ∅ := rfl

theorem fits_of_migrated {w : Instance} {child parent : UInt64}
    (h : (migrated w).childTidMap[child]? = some parent) : Fits child ∧ Fits parent := by
  rw [childTidMap_migrated] at h
  obtain ⟨a, b, _, rfl, rfl⟩ := Maps.of_getElem?_copy h
  exact ⟨fits_widen a, fits_widen b⟩

theorem narrow_injective_on {a b : UInt64} (ha : Fits a) (hb : Fits b) (h : narrow a = narrow b) :
    a = b := by
  rw [← (widen_narrow_iff a).mpr ha, ← (widen_narrow_iff b).mpr hb, h]

theorem childTidMap_migrated_of_fits {w : Instance}
    (hfits : ∀ child parent, w.childTidMap[child]? = some parent → Fits child ∧ Fits parent)
    (child : UInt64) : (migrated w).childTidMap[child]? = w.childTidMap[child]? := by
  have hmem : ∀ a, a ∈ w.childTidMap → Fits a := by
    intro a ha
    obtain ⟨v, hv⟩ := Maps.mem_iff_exists.mp ha
    exact (hfits a v hv).1
  rw [childTidMap_migrated]
  refine Option.ext fun parent => ⟨fun h => ?_, fun h => ?_⟩
  · obtain ⟨a, b, hab, rfl, rfl⟩ := Maps.of_getElem?_copy h
    rw [childTidMap_dumpThreads] at hab
    obtain ⟨c, d, hcd, rfl, rfl⟩ := Maps.of_getElem?_copy hab
    obtain ⟨hc, hd⟩ := hfits c d hcd
    rw [(widen_narrow_iff c).mpr hc, (widen_narrow_iff d).mpr hd]
    exact hcd
  · obtain ⟨hc, hp⟩ := hfits child parent h
    have hdumped := Maps.getElem?_copy (∅ : Std.TreeMap Int32 Int32)
      (fun a b ha hb hab => narrow_injective_on (hmem a ha) (hmem b hb) hab) (g := narrow) h
    have hback := Maps.getElem?_copy (∅ : Std.TreeMap UInt64 UInt64)
      (fun a b _ _ hab => widen_injective hab) (g := widen) hdumped
    rw [(widen_narrow_iff child).mpr hc, (widen_narrow_iff parent).mpr hp] at hback
    exact hback

structure Instance.Same (w w' : Instance) : Prop where
  tidStartArg : ∀ tid : UInt64, w'.tidStartArgMap[tid]? = w.tidStartArgMap[tid]?
  childTid : ∀ tid : UInt64, w'.childTidMap[tid]? = w.childTidMap[tid]?

/-- Both tables come back just when every id in the table of children fits an `int`. -/
theorem migrated_same_iff (calls : List ThreadCall) :
    (calls.foldl record freshInstance).Same (migrated (calls.foldl record freshInstance)) ↔
      ∀ child parent : UInt64,
        (calls.foldl record freshInstance).childTidMap[child]? = some parent →
          Fits child ∧ Fits parent := by
  generalize calls.foldl record freshInstance = w
  constructor
  · intro hsame child parent h
    apply fits_of_migrated (w := w)
    rw [hsame.childTid child, h]
  · intro hfits
    exact ⟨tidStartArgMap_migrated w, childTidMap_migrated_of_fits hfits⟩

/-- Two threads whose ids differ by 2^32 become one. -/
theorem children_identified :
    ¬ ∀ calls : List ThreadCall,
      (calls.foldl record freshInstance).Same (migrated (calls.foldl record freshInstance)) := by
  intro hclaim
  have h := (hclaim [.insertParentChild 7 0x100000005, .insertParentChild 9 5]).childTid 0x100000005
  exact absurd h (by decide)

end MVVM.Wasi
