import MVVM.Run
import Mathlib.Algebra.Group.Int.Defs
import Mathlib.Algebra.Group.Nat.Defs
import Mathlib.Data.Int.Notation
import Mathlib.Logic.Function.Basic
import Std.Data.TreeMap

/-!
# The table of open files (wamr_export.cpp:166-229)

The runtime reports every open, access and close of the guest; `fd_map_` keeps a list of
operations for each descriptor from which the file can be opened and positioned again.
Under the `compression` policy the list stays short: an access overwrites the record of
the access before it. A `std::map` is a `TreeMap` here, with its entries in key order.
-/

namespace MVVM.Files

inductive FdOp where
  | fopen
  | fwrite
  | fread
  | fseek
  deriving DecidableEq, Repr

/-- `std::tuple<int, int, enum fd_op>`. -/
structure OpRecord where
  flags : ℤ
  offset : ℤ
  op : FdOp
  deriving DecidableEq, Repr

/-- An entry of `fd_map_`: the path and the operations. -/
structure FdRecord where
  path : String
  ops : List OpRecord
  deriving DecidableEq, Repr

/-- The members of `WAMRInstance` that the tables of descriptors need. -/
structure Wamr (Sock : Type) where
  policy : String
  shouldSnapshot : Bool
  fdMap : Std.TreeMap ℤ FdRecord
  socketFdMap : Std.TreeMap ℤ Sock

variable {Sock : Type}

def Wamr.track (w : Wamr Sock) (fd : ℤ) (res : FdRecord) : Wamr Sock :=
  { w with fdMap := w.fdMap.insert fd res }

/-- `insert_fd` (wamr_export.cpp:166-199); `none` is `ops_.back()` of an empty vector. -/
def insertFd (w : Wamr Sock) (fd : ℤ) (path : String) (flags offset : ℤ) (op : FdOp) :
    Option (Wamr Sock) :=
  if fd > 2 then
    let res := w.fdMap.getD fd ⟨"", []⟩
    if w.policy = "replay" then
      some (w.track fd ⟨if path ≠ "" then path else res.path, res.ops ++ [⟨flags, offset, op⟩]⟩)
    else if path ≠ "" then
      some (w.track fd ⟨path, res.ops ++ [⟨flags, offset, op⟩]⟩)
    else if res.ops.length = 1 then
      some (w.track fd ⟨res.path, res.ops ++ [⟨flags, offset, .fseek⟩]⟩)
    else if res.ops = [] then none
    else some (w.track fd ⟨res.path, res.ops.dropLast ++ [⟨1, offset, .fseek⟩]⟩)
  else some w

def removeFd (w : Wamr Sock) (fd : ℤ) : Wamr Sock :=
  if fd ∈ w.fdMap then { w with fdMap := w.fdMap.erase fd }
  else if fd ∈ w.socketFdMap then { w with socketFdMap := w.socketFdMap.erase fd }
  else w

inductive FdCall where
  | insert (fd : ℤ) (path : String) (flags offset : ℤ) (op : FdOp)
  | remove (fd : ℤ)
  deriving DecidableEq, Repr

def step (w : Wamr Sock) : FdCall → Option (Wamr Sock)
  | .insert fd path flags offset op => insertFd w fd path flags offset op
  | .remove fd => some (removeFd w fd)

/-- What the runtime reports: opens with a path, accesses of tracked descriptors without
one and with the position after the access, closes. -/
def Reported (w : Wamr Sock) : FdCall → Prop
  | .insert fd path _ offset op =>
    2 < fd ∧ ((op = .fopen ∧ path ≠ "") ∨
      (op ≠ .fopen ∧ path = "" ∧ fd ∈ w.fdMap ∧ 0 ≤ offset ∧ offset < 2 ^ 31))
  | .remove fd => 2 < fd

/-! ### The files the guest has open -/

structure OpenFile where
  path : String
  pos : ℤ
  deriving DecidableEq, Repr

/-- The guest's view: which descriptor is which file. -/
abbrev FileTable := ℤ → Option OpenFile

def FileTable.after (t : FileTable) : FdCall → FileTable
  | .insert fd path _ offset op =>
    if op = .fopen then Function.update t fd (some ⟨path, 0⟩)
    else Function.update t fd ((t fd).map fun f => { f with pos := offset })
  | .remove fd => Function.update t fd none

def opened (calls : List FdCall) : FileTable := calls.foldl FileTable.after fun _ => none

def posOf (pos : ℤ) (ops : List OpRecord) : ℤ :=
  ops.foldl (fun _ o => if o.op = .fopen then 0 else o.offset) pos

def FdRecord.file (r : FdRecord) : OpenFile := ⟨r.path, posOf 0 r.ops⟩

/-- The operations start by opening the file, and the positions are nonnegative `int`s. -/
structure FdRecord.Good (r : FdRecord) : Prop where
  opens : r.ops.head?.map OpRecord.op = some .fopen
  range : ∀ o ∈ r.ops, o.op ≠ .fopen → 0 ≤ o.offset ∧ o.offset < 2 ^ 31

/-- The map keeps of the history just what the guest's files are. -/
structure Refines (w : Wamr Sock) (t : FileTable) : Prop where
  file : ∀ fd : ℤ, (w.fdMap[fd]?).map FdRecord.file = t fd
  good : ∀ (fd : ℤ) (r : FdRecord), w.fdMap[fd]? = some r → r.Good

theorem posOf_append (pos : ℤ) (ops : List OpRecord) (o : OpRecord) :
    posOf pos (ops ++ [o]) = if o.op = .fopen then 0 else o.offset := by
  simp [posOf]

theorem FdRecord.Good.append {r : FdRecord} (hr : r.Good) {path : String} {o : OpRecord}
    (ho : o.op ≠ .fopen → 0 ≤ o.offset ∧ o.offset < 2 ^ 31) :
    FdRecord.Good ⟨path, r.ops ++ [o]⟩ where
  opens := by
    cases hops : r.ops with
    | nil => simpa [hops] using hr.opens
    | cons a l => simpa [hops] using hr.opens
  range a ha := by
    rcases List.mem_append.mp ha with hold | hnew
    · exact hr.range a hold
    · rw [List.mem_singleton.mp hnew]
      exact ho

theorem FdRecord.Good.replaceLast {r : FdRecord} (hr : r.Good) (hlen : r.ops.length ≠ 1)
    {o : OpRecord} (ho : o.op ≠ .fopen → 0 ≤ o.offset ∧ o.offset < 2 ^ 31) :
    FdRecord.Good ⟨r.path, r.ops.dropLast ++ [o]⟩ := by
  have hdrop : FdRecord.Good ⟨r.path, r.ops.dropLast⟩ := by
    refine ⟨?_, fun a ha => hr.range a (List.dropLast_subset _ ha)⟩
    have hopens := hr.opens
    match hops : r.ops with
    | [] => simp [hops] at hopens
    | [a] => simp [hops] at hlen
    | a :: b :: l => simpa [hops] using hopens
  exact hdrop.append ho

theorem Refines.track {w : Wamr Sock} {t : FileTable} (h : Refines w t) (fd : ℤ) {r : FdRecord}
    (hr : r.Good) : Refines (w.track fd r) (Function.update t fd (some r.file)) where
  file g := by
    simp only [Wamr.track, Std.TreeMap.getElem?_insert, Std.compare_eq_iff_eq]
    by_cases hg : fd = g
    · subst hg; simp
    · rw [if_neg hg, Function.update_of_ne (Ne.symm hg)]
      exact h.file g
  good g r' hr' := by
    simp only [Wamr.track, Std.TreeMap.getElem?_insert, Std.compare_eq_iff_eq] at hr'
    split at hr'
    · exact Option.some.inj hr' ▸ hr
    · exact h.good g r' hr'

theorem getD_of_some {w : Wamr Sock} {fd : ℤ} {r : FdRecord} (h : w.fdMap[fd]? = some r) :
    w.fdMap.getD fd ⟨"", []⟩ = r := by
  rw [Std.TreeMap.getD_eq_getD_getElem?, h, Option.getD_some]

theorem getD_of_none {w : Wamr Sock} {fd : ℤ} (h : w.fdMap[fd]? = none) :
    w.fdMap.getD fd ⟨"", []⟩ = ⟨"", []⟩ := by
  rw [Std.TreeMap.getD_eq_getD_getElem?, h, Option.getD_none]

theorem Refines.open {w w' : Wamr Sock} {t : FileTable} (h : Refines w t)
    (hpol : w.policy ≠ "replay") {fd flags offset : ℤ} {path : String} (hpath : path ≠ "")
    (hfd : 2 < fd) (hw : insertFd w fd path flags offset .fopen = some w') :
    Refines w' (Function.update t fd (some ⟨path, 0⟩)) ∧ w'.policy = w.policy := by
  simp only [insertFd, if_pos hfd, if_neg hpol, if_pos hpath, Option.some.injEq] at hw
  subst hw
  refine ⟨?_, rfl⟩
  have hnew : ((⟨flags, offset, .fopen⟩ : OpRecord).op ≠ .fopen →
      0 ≤ offset ∧ offset < 2 ^ 31) := fun hne => absurd rfl hne
  have hgood : FdRecord.Good
      ⟨path, (w.fdMap.getD fd ⟨"", []⟩).ops ++ [⟨flags, offset, .fopen⟩]⟩ := by
    cases hr : w.fdMap[fd]? with
    | none =>
      rw [getD_of_none hr]
      exact ⟨rfl, fun o ho => by rw [List.mem_singleton.mp ho]; exact hnew⟩
    | some r =>
      rw [getD_of_some hr]
      exact (h.good fd r hr).append hnew
  have hfile := h.track fd hgood
  rwa [FdRecord.file, posOf_append, if_pos rfl] at hfile

theorem Refines.access {w w' : Wamr Sock} {t : FileTable} (h : Refines w t)
    (hpol : w.policy ≠ "replay") {fd flags offset : ℤ} {op : FdOp} (hfd : 2 < fd)
    (hm : fd ∈ w.fdMap) (hoff : 0 ≤ offset ∧ offset < 2 ^ 31)
    (hw : insertFd w fd "" flags offset op = some w') :
    Refines w' (Function.update t fd ((t fd).map fun f => { f with pos := offset })) ∧
      w'.policy = w.policy := by
  obtain ⟨r, hr⟩ : ∃ r, w.fdMap[fd]? = some r :=
    Option.isSome_iff_exists.mp (Std.TreeMap.mem_iff_isSome_getElem?.mp hm)
  have hgood : r.Good := h.good fd r hr
  have hfile : t fd = some r.file := by rw [← h.file fd, hr, Option.map_some]
  simp only [insertFd, if_pos hfd, if_neg hpol, getD_of_some hr, ne_eq, not_true_eq_false,
    if_false] at hw
  have hset : ∀ ops : List OpRecord, ∀ o : OpRecord, o.op = .fseek → o.offset = offset →
      FdRecord.Good ⟨r.path, ops ++ [o]⟩ → w.track fd ⟨r.path, ops ++ [o]⟩ = w' →
      Refines w' (Function.update t fd ((t fd).map fun f => { f with pos := offset })) ∧
        w'.policy = w.policy := by
    rintro ops o hop rfl hnew rfl
    refine ⟨?_, rfl⟩
    have htrack := h.track fd hnew
    rw [FdRecord.file, posOf_append, hop, if_neg (by decide)] at htrack
    rw [hfile]
    exact htrack
  split at hw
  · exact hset r.ops ⟨flags, offset, .fseek⟩ rfl rfl (hgood.append fun _ => hoff)
      (Option.some.inj hw)
  · rename_i hlen
    split at hw
    · cases hw
    · exact hset r.ops.dropLast ⟨1, offset, .fseek⟩ rfl rfl
        (hgood.replaceLast hlen fun _ => hoff) (Option.some.inj hw)

theorem Refines.close {w : Wamr Sock} {t : FileTable} (h : Refines w t) (fd : ℤ) :
    Refines (removeFd w fd) (Function.update t fd none) ∧
      (removeFd w fd).policy = w.policy := by
  by_cases hm : fd ∈ w.fdMap
  · rw [removeFd, if_pos hm]
    refine ⟨⟨fun g => ?_, fun g r hr => ?_⟩, rfl⟩
    · simp only [Std.TreeMap.getElem?_erase, Std.compare_eq_iff_eq]
      by_cases hg : fd = g
      · subst hg; simp
      · rw [if_neg hg, Function.update_of_ne (Ne.symm hg)]
        exact h.file g
    · simp only [Std.TreeMap.getElem?_erase, Std.compare_eq_iff_eq] at hr
      split at hr
      · cases hr
      · exact h.good g r hr
  · have hnone : t fd = none := by
      rw [← h.file fd, Std.TreeMap.getElem?_eq_none hm, Option.map_none]
    rw [removeFd, if_neg hm, ← hnone, Function.update_eq_self]
    split
    · exact ⟨⟨h.file, h.good⟩, rfl⟩
    · exact ⟨h, rfl⟩

theorem refines_step {w w' : Wamr Sock} {t : FileTable} (h : Refines w t)
    (hpol : w.policy ≠ "replay") {c : FdCall} (hc : Reported w c) (hw : step w c = some w') :
    Refines w' (t.after c) ∧ w'.policy = w.policy := by
  cases c with
  | insert fd path flags offset op =>
    obtain ⟨hfd, ⟨rfl, hpath⟩ | ⟨hop, rfl, hm, hoff⟩⟩ := hc
    · rw [FileTable.after, if_pos rfl]
      exact h.open hpol hpath hfd hw
    · rw [FileTable.after, if_neg hop]
      exact h.access hpol hfd hm hoff hw
  | remove fd =>
    obtain rfl := Option.some.inj hw
    exact h.close fd

theorem refines_run {w w' : Wamr Sock} {t : FileTable} {calls : List FdCall} (h : Refines w t)
    (hpol : w.policy ≠ "replay") (hok : Run.Along step Reported w calls)
    (hw : Run.exec step w calls = some w') : Refines w' (calls.foldl FileTable.after t) := by
  induction calls generalizing w t with
  | nil =>
    obtain rfl := Option.some.inj hw
    exact h
  | cons c calls ih =>
    obtain ⟨v, hv, hrest⟩ := Run.exec_cons_some hw
    obtain ⟨hstep, hsame⟩ := refines_step h hpol hok.1 hv
    exact ih hstep (hsame ▸ hpol) (hok.2 v hv) hrest

theorem refines_empty {w : Wamr Sock} (h : w.fdMap = ∅) : Refines w fun _ => none where
  file fd := by rw [h, Std.TreeMap.getElem?_emptyc, Option.map_none]
  good fd r hr := by rw [h, Std.TreeMap.getElem?_emptyc] at hr; cases hr

end MVVM.Files
