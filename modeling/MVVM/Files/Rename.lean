import MVVM.Files.FdMap

/-!
# Renamed descriptors (wamr_export.cpp:166-228)

The runtime calls `rename_fd` with two paths when a file is renamed, and with empty ones
when a descriptor is renumbered.
-/

namespace MVVM.Files

variable {Sock : Type}

/-- `rename_fd`. The entry of `old_fd` is erased after that of `new_fd` has been written. -/
def renameFd (w : Wamr Sock) (oldFd : ℤ) (oldPath : String) (newFd : ℤ) (newPath : String) :
    Wamr Sock :=
  match w.fdMap[oldFd]? with
  | some res =>
    let w := w.track newFd ⟨if oldPath = "" then newPath else res.path, res.ops⟩
    { w with fdMap := w.fdMap.erase oldFd }
  | none => w

inductive TableCall where
  | fd (c : FdCall)
  | rename (oldFd : ℤ) (oldPath : String) (newFd : ℤ) (newPath : String)
  deriving DecidableEq, Repr

def tableStep (w : Wamr Sock) : TableCall → Option (Wamr Sock)
  | .fd c => step w c
  | .rename oldFd oldPath newFd newPath => some (renameFd w oldFd oldPath newFd newPath)

/-- The path that a descriptor has to have behind a call; nothing is said of calls with one
path. -/
structure PathAfter (oldPath newPath path path' : String) : Prop where
  renamed : oldPath ≠ "" → newPath ≠ "" → path' = newPath
  renumbered : oldPath = "" → newPath = "" → path' = path

/-- The operations of `old_fd` are those of `new_fd`, and nothing else is changed. -/
structure Moved (w w' : Wamr Sock) (oldFd : ℤ) (oldPath : String) (newFd : ℤ) (newPath : String)
    (res : FdRecord) : Prop where
  tracked : ∃ path, w'.fdMap[newFd]? = some ⟨path, res.ops⟩ ∧
    PathAfter oldPath newPath res.path path
  gone : oldFd ≠ newFd → w'.fdMap[oldFd]? = none
  others : ∀ g : ℤ, g ≠ oldFd → g ≠ newFd → w'.fdMap[g]? = w.fdMap[g]?

/-- A call does what it is for when `old_fd` is tracked. -/
def Moves (w : Wamr Sock) : TableCall → Prop
  | .fd _ => True
  | .rename oldFd oldPath newFd newPath => ∀ res, w.fdMap[oldFd]? = some res →
      Moved w (renameFd w oldFd oldPath newFd newPath) oldFd oldPath newFd newPath res

/-- The numbers differ, and a file that is renamed has its new path already, or one whose
descriptor is renumbered has none. -/
def Fits (w : Wamr Sock) : TableCall → Prop
  | .fd _ => True
  | .rename oldFd oldPath newFd newPath => ∀ res, w.fdMap[oldFd]? = some res →
      oldFd ≠ newFd ∧ (oldPath ≠ "" → newPath ≠ "" → res.path = newPath) ∧
        (oldPath = "" → newPath = "" → res.path = "")

theorem getElem?_renameFd {w : Wamr Sock} {oldFd : ℤ} {res : FdRecord}
    (h : w.fdMap[oldFd]? = some res) (oldPath : String) (newFd : ℤ) (newPath : String) (g : ℤ) :
    (renameFd w oldFd oldPath newFd newPath).fdMap[g]? =
      if oldFd = g then none
      else if newFd = g then some ⟨if oldPath = "" then newPath else res.path, res.ops⟩
      else w.fdMap[g]? := by
  unfold renameFd
  rw [h]
  simp only [Wamr.track, Std.TreeMap.getElem?_erase, Std.TreeMap.getElem?_insert,
    Std.compare_eq_iff_eq]

theorem moved_iff {w : Wamr Sock} {oldFd : ℤ} {res : FdRecord} (h : w.fdMap[oldFd]? = some res)
    (oldPath : String) (newFd : ℤ) (newPath : String) :
    Moved w (renameFd w oldFd oldPath newFd newPath) oldFd oldPath newFd newPath res ↔
      oldFd ≠ newFd ∧ (oldPath ≠ "" → newPath ≠ "" → res.path = newPath) ∧
        (oldPath = "" → newPath = "" → res.path = "") := by
  have hget := getElem?_renameFd h oldPath newFd newPath
  constructor
  · intro hmoved
    obtain ⟨path, hpath, hafter⟩ := hmoved.tracked
    rw [hget newFd] at hpath
    have hne : oldFd ≠ newFd := by
      intro heq
      rw [if_pos heq] at hpath
      cases hpath
    rw [if_neg hne, if_pos rfl, Option.some.injEq, FdRecord.mk.injEq] at hpath
    obtain ⟨hpath, -⟩ := hpath
    refine ⟨hne, fun hold hnew => ?_, fun hold hnew => ?_⟩
    · rw [if_neg hold] at hpath
      exact hpath.trans (hafter.renamed hold hnew)
    · rw [if_pos hold] at hpath
      exact (hafter.renumbered hold hnew).symm.trans (hpath.symm.trans hnew)
  · intro ⟨hne, hrenamed, hrenumbered⟩
    refine ⟨⟨if oldPath = "" then newPath else res.path, ?_, ⟨?_, ?_⟩⟩, fun _ => ?_,
      fun g hold hnew => ?_⟩
    · rw [hget newFd, if_neg hne, if_pos rfl]
    · intro hold hnew
      rw [if_neg hold]
      exact hrenamed hold hnew
    · intro hold hnew
      rw [if_pos hold, hnew, hrenumbered hold hnew]
    · rw [hget oldFd, if_pos rfl]
    · rw [hget g, if_neg hold.symm, if_neg hnew.symm]

/-- In a run of any calls each rename does what it is for just when it fits. -/
theorem renames_move_iff (w : Wamr Sock) (calls : List TableCall) :
    Run.Along tableStep Moves w calls ↔ Run.Along tableStep Fits w calls := by
  apply Run.along_congr
  intro w call
  cases call with
  | fd c => exact Iff.rfl
  | rename oldFd oldPath newFd newPath =>
    exact forall_congr' fun res => forall_congr' fun h => moved_iff h oldPath newFd newPath

/-- A file is opened and its descriptor is renumbered: the path is lost. -/
theorem renumbered_path_lost :
    ¬∀ calls : List TableCall,
      Run.Along tableStep Moves (⟨"compression", true, ∅, ∅⟩ : Wamr Unit) calls := by
  intro hclaim
  obtain ⟨-, hrest⟩ := hclaim [.fd (.insert 4 "test3.txt" 0 0 .fopen), .rename 4 "" 5 ""]
  obtain ⟨hmoves, -⟩ := hrest _ rfl
  have hmoved := hmoves ⟨"test3.txt", [⟨0, 0, .fopen⟩]⟩ rfl
  exact absurd ((moved_iff rfl "" 5 "").mp hmoved).2.2 (by decide)

end MVVM.Files
