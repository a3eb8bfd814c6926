import MVVM.Files.FdMap
import MVVM.Maps
import Mathlib.Data.Nat.Find

/-!
# Snapshot and restore of the open files (wamr_wasi_context.cpp:78-84, 150-185)

The snapshot copies `fd_map_`; the restored process opens every file again, moves the
new descriptor onto the recorded number and seeks. The guest calls that do this are a
parameter, with what they do to the process's descriptors.
-/

namespace MVVM.Files

def u32 (x : ℤ) : ℕ := (x % 2 ^ 32).toNat

/-- The guest functions behind `invoke_fopen`, `invoke_frenumber` and `invoke_fseek`. They act
on the descriptors only: it is assumed that what the guest does inside them is not reported
back through `insert_fd` or `rename_fd`. -/
structure FdRuntime (σ : Type) where
  files : σ → FileTable
  fopen : σ → String → σ × ℤ
  fdRenumber : σ → ℤ → ℤ → σ
  -- `__wasi_fd_seek` gets its offset in two words
  fdSeek : σ → ℤ → (lo hi whence : ℕ) → σ
  fopen_free : ∀ s path, files s (fopen s path).2 = none
  fopen_lowest : ∀ s path m, 0 ≤ m → m < (fopen s path).2 → files s m ≠ none
  files_fopen : ∀ s path,
    files (fopen s path).1 = Function.update (files s) (fopen s path).2 (some ⟨path, 0⟩)
  -- moving `fd` onto `dst` closes what was there
  files_fdRenumber : ∀ s fd dst f, files s fd = some f → fd ≠ dst →
    files (fdRenumber s fd dst) =
      Function.update (Function.update (files s) fd none) dst (some f)
  -- seeking from the start
  files_fdSeek : ∀ s fd lo f, lo < 2 ^ 32 → files s fd = some f →
    files (fdSeek s fd lo 0 0) = Function.update (files s) fd (some { f with pos := lo })

variable {σ Sock : Type} (rt : FdRuntime σ)

def invokeFseek (s : σ) (fd flags offset : ℤ) : σ := rt.fdSeek s fd (u32 offset) 0 (u32 flags)

/-- `MVVM_FOPEN` in `restore_impl`: open, move onto `fd`, keep the record. -/
def reopen (fd : ℤ) (res : FdRecord) (p : σ × Wamr Sock) : σ × Wamr Sock :=
  let (s, r) := rt.fopen p.1 res.path
  (if r ≠ fd then rt.fdRenumber s r fd else s, p.2.track fd res)

/-- The body of the loop over the operations of `fd` (wamr_wasi_context.cpp:154-184); the
`replay` branch falls through from a read or write to the seek. -/
def restoreOp (fd : ℤ) (res : FdRecord) (p : σ × Wamr Sock) (o : OpRecord) : σ × Wamr Sock :=
  if p.2.policy = "replay" then
    match o.op with
    | .fopen => reopen rt fd res p
    | .fwrite | .fread =>
      (invokeFseek rt (invokeFseek rt p.1 fd 1 o.offset) fd o.flags o.offset, p.2)
    | .fseek => (invokeFseek rt p.1 fd o.flags o.offset, p.2)
  else if p.2.policy = "compression" then
    if o.op = .fopen then reopen rt fd res p else (invokeFseek rt p.1 fd 0 o.offset, p.2)
  else p

def restoreOps (fd : ℤ) (res : FdRecord) (p : σ × Wamr Sock) (ops : List OpRecord) :
    σ × Wamr Sock :=
  ops.foldl (restoreOp rt fd res) p

def restoreFds (entries : List (ℤ × FdRecord)) (p : σ × Wamr Sock) : σ × Wamr Sock :=
  entries.foldl (fun p e => restoreOps rt e.1 e.2 p e.2.ops) p

/-- The part of `WAMRWASIContext::dump_impl` that fills the empty `fd_map` of the context. -/
def dumpFds (w : Wamr Sock) : Std.TreeMap ℤ FdRecord :=
  if w.shouldSnapshot then w.fdMap.foldl (fun m fd res => m.insert fd res) ∅ else ∅

/-- The part of `WAMRWASIContext::restore_impl` that reads it. -/
def restoreFdMap (m : Std.TreeMap ℤ FdRecord) (p : σ × Wamr Sock) : σ × Wamr Sock :=
  if p.2.shouldSnapshot = false then restoreFds rt m.toList p else p

/-! ### The copy -/

theorem getElem?_dumpFds {w : Wamr Sock} (hw : w.shouldSnapshot = true) (fd : ℤ) :
    (dumpFds w)[fd]? = w.fdMap[fd]? := by
  refine Option.ext fun r => ?_
  rw [dumpFds, if_pos hw, Std.TreeMap.foldl_eq_foldl_toList,
    Maps.getElem?_foldl_insert _ _ (Maps.keys_ne w.fdMap), Std.TreeMap.getElem?_emptyc,
    Std.TreeMap.mem_toList_iff_getElem?_eq_some]
  simp

/-! ### The descriptors -/

theorem files_reopen (fd : ℤ) (res : FdRecord) (p : σ × Wamr Sock) :
    rt.files (reopen rt fd res p).1 = Function.update (rt.files p.1) fd (some ⟨res.path, 0⟩) := by
  have hfree := rt.fopen_free p.1 res.path
  have hfiles := rt.files_fopen p.1 res.path
  unfold reopen
  generalize rt.fopen p.1 res.path = q at *
  by_cases hr : q.2 = fd
  · subst hr
    simpa using hfiles
  · have hopen : rt.files q.1 q.2 = some ⟨res.path, 0⟩ := by rw [hfiles, Function.update_self]
    simp only [ne_eq, hr, not_false_eq_true, if_true]
    rw [rt.files_fdRenumber _ _ _ _ hopen hr, hfiles, Function.update_idem, ← hfree,
      Function.update_eq_self]

theorem files_restoreOp (fd : ℤ) (res : FdRecord) {p : σ × Wamr Sock} (o : OpRecord) (pos : ℤ)
    (hpol : p.2.policy = "compression")
    (ho : o.op ≠ .fopen → 0 ≤ o.offset ∧ o.offset < 2 ^ 31)
    (hopen : o.op ≠ .fopen → rt.files p.1 fd = some ⟨res.path, pos⟩) :
    rt.files (restoreOp rt fd res p o).1 =
        Function.update (rt.files p.1) fd (some ⟨res.path, posOf pos [o]⟩) ∧
      (restoreOp rt fd res p o).2.policy = "compression" := by
  have hne : ¬ p.2.policy = "replay" := by rw [hpol]; decide
  unfold restoreOp
  rw [if_neg hne, if_pos hpol]
  by_cases hop : o.op = .fopen
  · rw [if_pos hop, files_reopen]
    exact ⟨by simp [posOf, hop], hpol⟩
  · obtain ⟨hlo, hhi⟩ := ho hop
    have hu : (u32 o.offset : ℤ) = o.offset := by unfold u32; omega
    have hlt : u32 o.offset < 2 ^ 32 := by unfold u32; omega
    rw [if_neg hop]
    refine ⟨?_, hpol⟩
    show rt.files (rt.fdSeek p.1 fd (u32 o.offset) 0 0) = _
    rw [rt.files_fdSeek _ _ _ _ hlt (hopen hop), hu]
    simp [posOf, hop]

theorem files_restoreOps_of_open {fd : ℤ} (res : FdRecord) (ops : List OpRecord)
    {p : σ × Wamr Sock} {pos : ℤ} (hpol : p.2.policy = "compression")
    (hrange : ∀ o ∈ ops, o.op ≠ .fopen → 0 ≤ o.offset ∧ o.offset < 2 ^ 31)
    (hopen : rt.files p.1 fd = some ⟨res.path, pos⟩) :
    rt.files (restoreOps rt fd res p ops).1 =
        Function.update (rt.files p.1) fd (some ⟨res.path, posOf pos ops⟩) ∧
      (restoreOps rt fd res p ops).2.policy = "compression" := by
  induction ops generalizing p pos with
  | nil =>
    refine ⟨?_, hpol⟩
    show rt.files p.1 = Function.update (rt.files p.1) fd (some ⟨res.path, pos⟩)
    rw [← hopen, Function.update_eq_self]
  | cons o ops ih =>
    obtain ⟨hfiles, hpol'⟩ := files_restoreOp rt fd res o pos hpol
      (hrange o List.mem_cons_self) fun _ => hopen
    have hopen' : rt.files (restoreOp rt fd res p o).1 fd = some ⟨res.path, posOf pos [o]⟩ := by
      rw [hfiles, Function.update_self]
    obtain ⟨hrest, hpol''⟩ := ih hpol' (fun a ha => hrange a (List.mem_cons_of_mem _ ha)) hopen'
    refine ⟨?_, hpol''⟩
    rw [hfiles, Function.update_idem] at hrest
    exact hrest

theorem files_restoreOps (fd : ℤ) {res : FdRecord} {p : σ × Wamr Sock}
    (hpol : p.2.policy = "compression") (hres : res.Good) :
    rt.files (restoreOps rt fd res p res.ops).1 =
        Function.update (rt.files p.1) fd (some res.file) ∧
      (restoreOps rt fd res p res.ops).2.policy = "compression" := by
  obtain ⟨path, ops⟩ := res
  have hopens := hres.opens
  cases ops with
  | nil => cases hopens
  | cons o ops =>
    have hop : o.op = .fopen := Option.some.inj hopens
    obtain ⟨hfiles, hpol'⟩ := files_restoreOp rt fd ⟨path, o :: ops⟩ o 0 hpol
      (fun hne => absurd hop hne) fun hne => absurd hop hne
    have hopen : rt.files (restoreOp rt fd ⟨path, o :: ops⟩ p o).1 fd =
        some ⟨path, posOf 0 [o]⟩ := by rw [hfiles, Function.update_self]
    obtain ⟨hrest, hpol''⟩ := files_restoreOps_of_open rt ⟨path, o :: ops⟩ ops
      hpol' (fun a ha => hres.range a (List.mem_cons_of_mem _ ha)) hopen
    refine ⟨?_, hpol''⟩
    rw [hfiles, Function.update_idem] at hrest
    exact hrest

theorem files_restoreFds {entries : List (ℤ × FdRecord)} {p : σ × Wamr Sock}
    (hpol : p.2.policy = "compression") (hkeys : entries.Pairwise fun a b => a.1 ≠ b.1)
    (hgood : ∀ e ∈ entries, e.2.Good) :
    (∀ e ∈ entries, rt.files (restoreFds rt entries p).1 e.1 = some e.2.file) ∧
      ∀ fd, (∀ e ∈ entries, e.1 ≠ fd) →
        rt.files (restoreFds rt entries p).1 fd = rt.files p.1 fd := by
  induction entries generalizing p with
  | nil => exact ⟨fun e he => absurd he List.not_mem_nil, fun _ _ => rfl⟩
  | cons e entries ih =>
    obtain ⟨hhead, htail⟩ := List.pairwise_cons.mp hkeys
    obtain ⟨hfiles, hpol'⟩ := files_restoreOps rt e.1 hpol (hgood e List.mem_cons_self)
    obtain ⟨hset, hkeep⟩ := ih hpol' htail fun a ha => hgood a (List.mem_cons_of_mem _ ha)
    refine ⟨fun a ha => ?_, fun fd hfd => ?_⟩
    · rcases List.mem_cons.mp ha with rfl | ha
      · refine (hkeep a.1 fun b hb => (hhead b hb).symm).trans ?_
        rw [hfiles, Function.update_self]
      · exact hset a ha
    · refine (hkeep fd fun b hb => hfd b (List.mem_cons_of_mem _ hb)).trans ?_
      rw [hfiles, Function.update_of_ne (hfd e List.mem_cons_self).symm]

theorem mem_dumped {w : Wamr Sock} (hw : w.shouldSnapshot = true) {fd : ℤ} {r : FdRecord} :
    (fd, r) ∈ (dumpFds w).toList ↔ w.fdMap[fd]? = some r := by
  rw [Std.TreeMap.mem_toList_iff_getElem?_eq_some, getElem?_dumpFds hw]

/-- The files that the guest had open at the snapshot are open in the restored process,
each at its position; of the other descriptors those are open that were so before. Each
descriptor keeps its file from the moment its record has been gone through. -/
theorem restore_reopens_files {w₀ w fresh : Wamr Sock} {calls : List FdCall} (s : σ)
    (hpolicy : w₀.policy = "compression") (hempty : w₀.fdMap = ∅)
    (hreported : Run.Along step Reported w₀ calls) (hrun : Run.exec step w₀ calls = some w)
    (hfresh : fresh.shouldSnapshot = false) (hfpolicy : fresh.policy = "compression") :
    let m := dumpFds { w with shouldSnapshot := true }
    (∀ fd, rt.files (restoreFdMap rt m (s, fresh)).1 fd =
        (opened calls fd).or (rt.files s fd)) ∧
      ∀ done rest, m.toList = done ++ rest → ∀ e ∈ done,
        rt.files (restoreFds rt done (s, fresh)).1 e.1 = opened calls e.1 := by
  intro m
  have hne : w₀.policy ≠ "replay" := by rw [hpolicy]; decide
  have href : Refines w (opened calls) := refines_run (refines_empty hempty) hne hreported hrun
  have hmem : ∀ fd r, (fd, r) ∈ m.toList ↔ w.fdMap[fd]? = some r := fun fd r => mem_dumped rfl
  have hgood : ∀ e ∈ m.toList, e.2.Good := fun e he => href.good e.1 e.2 ((hmem e.1 e.2).mp he)
  have hfile : ∀ e ∈ m.toList, opened calls e.1 = some e.2.file := by
    intro e he
    rw [← href.file e.1, (hmem e.1 e.2).mp he, Option.map_some]
  refine ⟨fun fd => ?_, fun done rest hsplit e he => ?_⟩
  · obtain ⟨hset, hkeep⟩ := files_restoreFds rt (p := (s, fresh)) hfpolicy (Maps.keys_ne m) hgood
    rw [restoreFdMap, if_pos hfresh]
    cases hr : w.fdMap[fd]? with
    | some r =>
      have he : (fd, r) ∈ m.toList := (hmem fd r).mpr hr
      rw [hset (fd, r) he, hfile (fd, r) he, Option.some_or]
    | none =>
      have hnone : opened calls fd = none := by rw [← href.file fd, hr, Option.map_none]
      rw [hnone, Option.none_or]
      refine hkeep fd fun e he heq => ?_
      have hsome := (hmem e.1 e.2).mp he
      rw [heq, hr] at hsome
      cases hsome
  · have hsub : ∀ a ∈ done, a ∈ m.toList := fun a ha => hsplit ▸ List.mem_append_left rest ha
    have hkeys : done.Pairwise fun a b => a.1 ≠ b.1 :=
      (List.pairwise_append.mp (hsplit ▸ Maps.keys_ne m)).1
    obtain ⟨hset, _⟩ := files_restoreFds rt (p := (s, fresh)) hfpolicy hkeys
      fun a ha => hgood a (hsub a ha)
    rw [hset e he, hfile e (hsub e he)]

/-! ### A runtime -/

/-- A table of descriptors of which only finitely many are open. -/
def Table : Type := { t : FileTable // ∃ n : ℕ, ∀ m : ℤ, n ≤ m → t m = none }

theorem Table.exists_free (t : Table) : ∃ n : ℕ, t.1 n = none := by
  obtain ⟨n, hn⟩ := t.2
  exact ⟨n, hn n (Int.le_refl _)⟩

def Table.lowest (t : Table) : ℕ := Nat.find t.exists_free

def Table.set (t : Table) (fd : ℤ) (f : Option OpenFile) : Table :=
  ⟨Function.update t.1 fd f, by
    obtain ⟨n, hn⟩ := t.2
    refine ⟨n + (fd.toNat + 1), fun m hm => ?_⟩
    rw [Function.update_of_ne (by omega)]
    exact hn m (by omega)⟩

/-- The descriptors of a process, with the two seeks that need no file size. -/
def tableRuntime : FdRuntime Table where
  files t := t.1
  fopen t path := (t.set t.lowest (some ⟨path, 0⟩), t.lowest)
  fdRenumber t fd dst := if fd ≠ dst then (t.set fd none).set dst (t.1 fd) else t
  fdSeek t fd lo hi whence :=
    match t.1 fd with
    | none => t
    | some f =>
      if whence = 0 then t.set fd (some { f with pos := hi * 2 ^ 32 + lo })
      else if whence = 1 then t.set fd (some { f with pos := f.pos + (hi * 2 ^ 32 + lo) })
      else t
  fopen_free t _ := Nat.find_spec t.exists_free
  fopen_lowest t _ m h0 hlt hnone := by
    obtain ⟨k, rfl⟩ := Int.eq_ofNat_of_zero_le h0
    exact Nat.find_min t.exists_free (Int.ofNat_lt.mp hlt) hnone
  files_fopen _ _ := rfl
  files_fdRenumber t fd dst f hf hne := by
    simp only [ne_eq, hne, not_false_eq_true, if_true, hf]
    rfl
  files_fdSeek t fd lo f _ hf := by
    simp [hf, Table.set]

/-- A fresh process with its three standard descriptors. -/
def freshTable : Table :=
  ⟨fun fd => if 0 ≤ fd ∧ fd < 3 then some ⟨"tty", 0⟩ else none,
    3, fun m hm => if_neg (by omega)⟩

def freshWamr : Wamr Unit := ⟨"compression", false, ∅, ∅⟩

/-- Two files, one of them opened again on the same descriptor, and a third that is closed. -/
def twoFiles : List FdCall :=
  [.insert 4 "a" 0 0 .fopen, .insert 5 "b" 0 0 .fopen, .insert 4 "" 0 7 .fread,
    .insert 5 "" 0 3 .fwrite, .insert 6 "d" 0 0 .fopen, .insert 4 "c" 0 0 .fopen,
    .insert 5 "" 2 9 .fseek, .remove 6]

theorem restore_reopens_files_twoFiles :
    ∃ w, Run.exec step freshWamr twoFiles = some w ∧
      ∀ t, t = (restoreFdMap tableRuntime (dumpFds { w with shouldSnapshot := true })
        (freshTable, freshWamr)).1 →
        t.1 4 = some ⟨"c", 0⟩ ∧ t.1 5 = some ⟨"b", 9⟩ ∧ t.1 2 = some ⟨"tty", 0⟩ ∧ t.1 6 = none := by
  obtain ⟨w, hw⟩ : ∃ w, Run.exec step freshWamr twoFiles = some w := ⟨_, rfl⟩
  have hok : Run.Along step Reported freshWamr twoFiles := by
    refine Run.Along.cons ⟨by decide, .inl ⟨rfl, by decide⟩⟩ rfl ?_
    refine Run.Along.cons ⟨by decide, .inl ⟨rfl, by decide⟩⟩ rfl ?_
    refine Run.Along.cons ⟨by decide, .inr ⟨by decide, rfl, by decide, by decide⟩⟩ rfl ?_
    refine Run.Along.cons ⟨by decide, .inr ⟨by decide, rfl, by decide, by decide⟩⟩ rfl ?_
    refine Run.Along.cons ⟨by decide, .inl ⟨rfl, by decide⟩⟩ rfl ?_
    refine Run.Along.cons ⟨by decide, .inl ⟨rfl, by decide⟩⟩ rfl ?_
    refine Run.Along.cons ⟨by decide, .inr ⟨by decide, rfl, by decide, by decide⟩⟩ rfl ?_
    exact Run.Along.cons (by decide : (2 : ℤ) < 6) rfl trivial
  have hstart : freshWamr.shouldSnapshot = false := rfl
  have h := (restore_reopens_files tableRuntime freshTable rfl rfl hok hw hstart rfl).1
  refine ⟨w, hw, ?_⟩
  rintro t rfl
  exact ⟨h 4, h 5, h 2, h 6⟩

end MVVM.Files
