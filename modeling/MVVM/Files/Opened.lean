import MVVM.Files.Rename
import MVVM.Files.Restore
import MVVM.Maps

/-!
# Files that can be opened again (wamr_export.cpp:166-229)

The restored process opens a file at the first of its operations. Nothing but the order of
the calls sees to it that this is `MVVM_FOPEN` and that there is a path.
-/

namespace MVVM.Files

variable {Sock : Type}

structure FdRecord.Reopens (r : FdRecord) : Prop where
  path : r.path ≠ ""
  opens : r.ops.head?.map OpRecord.op = some .fopen

def Reopenable (w : Wamr Sock) : Prop :=
  ∀ (fd : ℤ) (r : FdRecord), w.fdMap[fd]? = some r → r.Reopens

/-- The call takes no last element of an empty list. -/
def Defined (w : Wamr Sock) (c : TableCall) : Prop := tableStep w c ≠ none

/-- The first call about a descriptor is its open, with a path, and a rename that moves a
file has a path. -/
def OpensFirst (w : Wamr Sock) : TableCall → Prop
  | .fd (.insert fd path _ _ op) => 2 < fd → fd ∉ w.fdMap → path ≠ "" ∧ op = .fopen
  | .fd (.remove _) => True
  | .rename oldFd oldPath newFd newPath =>
    oldFd ∈ w.fdMap → oldFd ≠ newFd → oldPath ≠ "" ∨ newPath ≠ ""

/-! ### The restore -/

/-- The restore starts by opening the file, and all else comes after. -/
theorem FdRecord.Reopens.restoreOps {σ : Type} (rt : FdRuntime σ) {r : FdRecord}
    (h : r.Reopens) (fd : ℤ) (p : σ × Wamr Sock)
    (hpol : p.2.policy = "replay" ∨ p.2.policy = "compression") :
    restoreOps rt fd r p r.ops = restoreOps rt fd r (reopen rt fd r p) r.ops.tail := by
  have hopens := h.opens
  cases hops : r.ops with
  | nil => simp [hops] at hopens
  | cons o ops =>
    have ho : o.op = .fopen := by simpa [hops] using hopens
    have hfirst : restoreOp rt fd r p o = reopen rt fd r p := by
      unfold restoreOp
      rcases hpol with hpol | hpol
      · simp only [hpol, if_true, ho]
      · have hne : ¬("compression" = "replay") := by decide
        simp only [hpol, if_neg hne, if_true, ho]
    simp only [Files.restoreOps, List.foldl_cons, hfirst, List.tail_cons]

/-! ### One call -/

variable {w t : Wamr Sock} {fd : ℤ}

theorem FdRecord.Reopens.append {r : FdRecord} (h : r.Reopens) {path : String}
    (hpath : path ≠ "") (ops : List OpRecord) : FdRecord.Reopens ⟨path, r.ops ++ ops⟩ where
  path := hpath
  opens := by
    have hopens := h.opens
    cases hops : r.ops with
    | nil => simp [hops] at hopens
    | cons o rest => simpa [hops] using hopens

theorem FdRecord.Reopens.replaceLast {r : FdRecord} (h : r.Reopens) (hlen : r.ops.length ≠ 1)
    (o : OpRecord) : FdRecord.Reopens ⟨r.path, r.ops.dropLast ++ [o]⟩ where
  path := h.path
  opens := by
    have hopens := h.opens
    match hops : r.ops with
    | [] => simp [hops] at hopens
    | [a] => simp [hops] at hlen
    | a :: b :: rest => simpa [hops] using hopens

theorem reopenable_track_iff (hw : Reopenable w) {r : FdRecord} :
    Reopenable (w.track fd r) ↔ r.Reopens := by
  simp only [Reopenable, Wamr.track, Std.TreeMap.getElem?_insert, Std.compare_eq_iff_eq]
  constructor
  · intro h
    exact h fd r (if_pos rfl)
  · intro h g r' hg
    split at hg
    · exact Option.some.inj hg ▸ h
    · exact hw g r' hg

/-- An access of a tracked file is recorded behind its open. -/
theorem reopens_insertFd {r : FdRecord} (hfd : 2 < fd) (hget : w.fdMap[fd]? = some r)
    (h : r.Reopens) (path : String) (flags offset : ℤ) (op : FdOp) :
    ∃ r' : FdRecord, insertFd w fd path flags offset op = some (w.track fd r') ∧ r'.Reopens := by
  unfold insertFd
  simp only [if_pos hfd, getD_of_some hget]
  by_cases hpath : path = ""
  · simp only [hpath, ne_eq, not_true_eq_false, if_false]
    split
    · exact ⟨_, rfl, h.append h.path _⟩
    · split
      · exact ⟨_, rfl, h.append h.path _⟩
      · next hlen =>
        split
        · next hnil =>
          have hopens := h.opens
          rw [hnil] at hopens
          cases hopens
        · exact ⟨_, rfl, h.replaceLast hlen _⟩
  · simp only [ne_eq, hpath, not_false_eq_true, if_true, ite_self]
    exact ⟨_, rfl, h.append hpath _⟩

/-- The first record of a descriptor is made from the call alone. -/
theorem insertFd_untracked (hfd : 2 < fd) (hget : w.fdMap[fd]? = none) (path : String)
    (flags offset : ℤ) (op : FdOp) :
    insertFd w fd path flags offset op =
      if w.policy ≠ "replay" ∧ path = "" then none
      else some (w.track fd ⟨path, [⟨flags, offset, op⟩]⟩) := by
  unfold insertFd
  simp only [if_pos hfd, getD_of_none hget, List.nil_append]
  by_cases hpath : path = ""
  · by_cases hpol : w.policy = "replay"
    · simp [hpath, hpol]
    · simp [hpath, hpol]
  · simp [hpath]

theorem opensFirst_insert_iff (hw : Reopenable w) (path : String) (flags offset : ℤ) (op : FdOp) :
    (∀ t, insertFd w fd path flags offset op = some t → Reopenable t) ∧
        insertFd w fd path flags offset op ≠ none ↔
      (2 < fd → fd ∉ w.fdMap → path ≠ "" ∧ op = .fopen) := by
  by_cases hfd : 2 < fd
  · rw [forall_prop_of_true hfd]
    cases hget : w.fdMap[fd]? with
    | some r =>
      have hmem : fd ∈ w.fdMap := Maps.mem_iff_exists.mpr ⟨r, hget⟩
      obtain ⟨r', hins, hr'⟩ := reopens_insertFd hfd hget (hw fd r hget) path flags offset op
      rw [hins]
      refine iff_of_true ⟨fun t ht => ?_, Option.some_ne_none _⟩ fun hnot => absurd hmem hnot
      obtain rfl := Option.some.inj ht
      exact (reopenable_track_iff hw).mpr hr'
    | none =>
      have hmem : fd ∉ w.fdMap := Maps.not_mem_iff.mpr hget
      rw [insertFd_untracked hfd hget, forall_prop_of_true hmem]
      by_cases hnone : w.policy ≠ "replay" ∧ path = ""
      · rw [if_pos hnone]
        exact iff_of_false (fun h => h.2 rfl) fun h => h.1 hnone.2
      · rw [if_neg hnone]
        constructor
        · intro ⟨h, _⟩
          have hr := (reopenable_track_iff hw).mp (h _ rfl)
          exact ⟨hr.path, by simpa using hr.opens⟩
        · intro ⟨hpath, hop⟩
          refine ⟨fun t ht => ?_, Option.some_ne_none _⟩
          obtain rfl := Option.some.inj ht
          exact (reopenable_track_iff hw).mpr ⟨hpath, by simp [hop]⟩
  · have hsame : insertFd w fd path flags offset op = some w := if_neg hfd
    rw [hsame]
    refine iff_of_true ⟨fun t ht => ?_, Option.some_ne_none w⟩ fun h => absurd h hfd
    exact Option.some.inj ht ▸ hw

theorem reopenable_removeFd (hw : Reopenable w) : Reopenable (removeFd w fd) := by
  unfold removeFd
  split
  · intro g r hg
    simp only [Std.TreeMap.getElem?_erase, Std.compare_eq_iff_eq] at hg
    split at hg
    · cases hg
    · exact hw g r hg
  · split
    · exact hw
    · exact hw

theorem reopenable_renameFd_iff (hw : Reopenable w) (oldFd : ℤ) (oldPath : String) (newFd : ℤ)
    (newPath : String) :
    Reopenable (renameFd w oldFd oldPath newFd newPath) ↔
      (oldFd ∈ w.fdMap → oldFd ≠ newFd → oldPath ≠ "" ∨ newPath ≠ "") := by
  cases hget : w.fdMap[oldFd]? with
  | none =>
    have hmem : oldFd ∉ w.fdMap := Maps.not_mem_iff.mpr hget
    have hsame : renameFd w oldFd oldPath newFd newPath = w := by
      unfold renameFd
      rw [hget]
    rw [hsame]
    exact iff_of_true hw fun h => absurd h hmem
  | some res =>
    have hmem : oldFd ∈ w.fdMap := Maps.mem_iff_exists.mpr ⟨res, hget⟩
    have hres : res.Reopens := hw oldFd res hget
    have hafter := getElem?_renameFd hget oldPath newFd newPath
    rw [forall_prop_of_true hmem]
    constructor
    · intro h hne
      have hr := (h newFd _ ((hafter newFd).trans (by rw [if_neg hne, if_pos rfl]))).path
      by_contra hboth
      rw [not_or, not_not, not_not] at hboth
      exact hr ((if_pos hboth.1).trans hboth.2)
    · intro h g r hg
      rw [hafter g] at hg
      split at hg
      · cases hg
      · next hne =>
        split at hg
        · next heq =>
          obtain rfl := Option.some.inj hg
          refine ⟨?_, hres.opens⟩
          show (if oldPath = "" then newPath else res.path) ≠ ""
          split
          · next hold => exact (h (heq ▸ hne)).resolve_left fun hc => hc hold
          · exact hres.path
        · exact hw g r hg

/-- From a state with files that can be opened again, a call leads to such a state and is
defined just when it opens first. -/
theorem opensFirst_iff (hw : Reopenable w) (c : TableCall) :
    (∀ t, tableStep w c = some t → Reopenable t) ∧ Defined w c ↔ OpensFirst w c := by
  match c with
  | .fd (.insert fd path flags offset op) => exact opensFirst_insert_iff hw path flags offset op
  | .fd (.remove fd) =>
    refine iff_of_true ⟨fun t ht => ?_, Option.some_ne_none _⟩ trivial
    obtain rfl := Option.some.inj ht
    exact reopenable_removeFd hw
  | .rename oldFd oldPath newFd newPath =>
    refine Iff.trans ?_ (reopenable_renameFd_iff hw oldFd oldPath newFd newPath)
    constructor
    · intro ⟨h, _⟩
      exact h _ rfl
    · intro h
      exact ⟨fun t ht => Option.some.inj ht ▸ h, Option.some_ne_none _⟩

/-! ### All runs -/

/-- No call takes the last element of an empty list and all tracked files can be opened
again, just when every call opens first. -/
theorem reopenable_iff (policy : String) (shouldSnapshot : Bool)
    (socketFdMap : Std.TreeMap ℤ Sock) (calls : List TableCall) :
    Run.Throughout tableStep Reopenable ⟨policy, shouldSnapshot, ∅, socketFdMap⟩ calls ∧
        Run.Along tableStep Defined ⟨policy, shouldSnapshot, ∅, socketFdMap⟩ calls ↔
      Run.Along tableStep OpensFirst ⟨policy, shouldSnapshot, ∅, socketFdMap⟩ calls := by
  refine Run.throughout_and_along_iff Reopenable (fun _ c hw => opensFirst_iff hw c) ?_
  intro fd r hr
  rw [Std.TreeMap.getElem?_emptyc] at hr
  cases hr

/-- An access of a descriptor whose open was not recorded. -/
theorem access_before_open :
    ¬∀ calls : List TableCall,
      Run.Throughout tableStep Reopenable (⟨"compression", true, ∅, ∅⟩ : Wamr Unit) calls ∧
        Run.Along tableStep Defined (⟨"compression", true, ∅, ∅⟩ : Wamr Unit) calls := by
  intro hclaim
  obtain ⟨-, hdef, -⟩ := hclaim [.fd (.insert 4 "" 0 16 .fread)]
  exact hdef rfl

end MVVM.Files
