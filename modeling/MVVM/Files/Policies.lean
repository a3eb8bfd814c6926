import MVVM.Files.Restore
import Mathlib.Data.List.Induction

/-!
# The two policies (wamr_export.cpp:173-197, wamr_wasi_context.cpp:150-185, wamr.cpp:326-332)

`replay` records every access of a descriptor and repeats them all, `compression` keeps
one record and seeks once. What is compared is the position that the two leave.
-/

namespace MVVM.Files

/-- The guest's `fd_seek` with its three starting points; the files keep their ends. -/
structure SeekRuntime (σ : Type) extends FdRuntime σ where
  fileEnd : String → ℕ
  files_fdSeek_cur : ∀ s fd lo f, lo < 2 ^ 32 → files s fd = some f →
    files (fdSeek s fd lo 0 1) = Function.update (files s) fd (some { f with pos := f.pos + lo })
  files_fdSeek_end : ∀ s fd lo f, lo < 2 ^ 32 → files s fd = some f →
    files (fdSeek s fd lo 0 2) =
      Function.update (files s) fd (some { f with pos := fileEnd f.path + lo })

/-- The calls of `insert_fd`: a file is opened, and the descriptor is accessed. -/
def history (fd : ℤ) (path : String) (opening : OpRecord) (accesses : List OpRecord) :
    List FdCall :=
  .insert fd path opening.flags opening.offset .fopen ::
    accesses.map fun o => .insert fd "" o.flags o.offset o.op

structure Access (o : OpRecord) : Prop where
  op : o.op ≠ .fopen
  flags : o.flags = 0 ∨ o.flags = 1 ∨ o.flags = 2
  offset : 0 ≤ o.offset ∧ o.offset < 2 ^ 31

def recorder (policy : String) : Wamr Unit := ⟨policy, true, ∅, ∅⟩

def restorer (policy : String) : Wamr Unit := ⟨policy, false, ∅, ∅⟩

/-- The position of `fd` after recording, snapshot and restore under one policy. -/
def restoredPos {σ : Type} (rt : FdRuntime σ) (s : σ) (policy : String) (fd : ℤ)
    (calls : List FdCall) : Option ℤ :=
  (Run.exec step (recorder policy) calls).bind fun w =>
    (rt.files (restoreFdMap rt (dumpFds w) (s, restorer policy)).1 fd).map OpenFile.pos

/-! ### Where the policies agree -/

/-- The accesses, the last one first, leave the position at the start of the file. -/
def AtStart (fileEnd : ℕ) : List OpRecord → Prop
  | [] => True
  | o :: earlier =>
    o.offset = 0 ∧
      (o.flags = 0 ∨ (o.flags = 1 ∧ AtStart fileEnd earlier) ∨ (o.flags = 2 ∧ fileEnd = 0))

/-- The last access is from the start of the file, or from where the file starts anyway. -/
def FromStart (fileEnd : ℕ) : List OpRecord → Prop
  | [] => True
  | o :: earlier =>
    o.flags = 0 ∨
      (o.flags = 1 ∧ AtStart fileEnd earlier ∧ (o.op = .fseek ∨ o.offset = 0)) ∨
      (o.flags = 2 ∧ fileEnd = 0)

/-! ### The records -/

def Only (w : Wamr Unit) (fd : ℤ) (r : FdRecord) : Prop :=
  ∀ g : ℤ, w.fdMap[g]? = if fd = g then some r else none

variable {w : Wamr Unit} {fd : ℤ} {r : FdRecord} {path : String}

theorem only_track (h : ∀ g : ℤ, fd ≠ g → w.fdMap[g]? = none) (r : FdRecord) :
    Only (w.track fd r) fd r := by
  intro g
  simp only [Wamr.track, Std.TreeMap.getElem?_insert, Std.compare_eq_iff_eq]
  split
  · rfl
  · next hne => exact h g hne

theorem Only.other (h : Only w fd r) (g : ℤ) (hne : fd ≠ g) : w.fdMap[g]? = none := by
  rw [h g, if_neg hne]

theorem Only.getD (h : Only w fd r) : w.fdMap.getD fd ⟨"", []⟩ = r :=
  getD_of_some (by rw [h fd, if_pos rfl])

theorem insertFd_open (policy : String) (hfd : 2 < fd) (hpath : path ≠ "") (opening : OpRecord) :
    ∃ w, insertFd (recorder policy) fd path opening.flags opening.offset .fopen = some w ∧
      w.policy = policy ∧ w.shouldSnapshot = true ∧
      Only w fd ⟨path, [⟨opening.flags, opening.offset, .fopen⟩]⟩ := by
  have hempty : ∀ g : ℤ, fd ≠ g → (∅ : Std.TreeMap ℤ FdRecord)[g]? = none := fun g _ =>
    Std.TreeMap.getElem?_emptyc
  have hnew : (∅ : Std.TreeMap ℤ FdRecord).getD fd ⟨"", []⟩ = ⟨"", []⟩ := Std.TreeMap.getD_emptyc
  unfold insertFd
  simp only [recorder, if_pos hfd, hnew, if_pos hpath, List.nil_append]
  split <;> exact ⟨_, rfl, rfl, rfl, only_track hempty _⟩

theorem insertFd_replay (h : Only w fd r) (hpolicy : w.policy = "replay") (hfd : 2 < fd)
    (o : OpRecord) :
    ∃ w', insertFd w fd "" o.flags o.offset o.op = some w' ∧ w'.policy = w.policy ∧
      w'.shouldSnapshot = w.shouldSnapshot ∧ Only w' fd ⟨r.path, r.ops ++ [o]⟩ := by
  unfold insertFd
  simp only [if_pos hfd, if_pos hpolicy, h.getD]
  exact ⟨_, rfl, rfl, rfl, only_track h.other _⟩

theorem insertFd_compression (h : Only w fd r) (hpolicy : w.policy = "compression")
    (hfd : 2 < fd) {first : OpRecord} (hops : r.ops = [first] ∨ ∃ o, r.ops = [first, o])
    (o : OpRecord) :
    ∃ w' flags, insertFd w fd "" o.flags o.offset o.op = some w' ∧ w'.policy = w.policy ∧
      w'.shouldSnapshot = w.shouldSnapshot ∧
      Only w' fd ⟨r.path, [first, ⟨flags, o.offset, .fseek⟩]⟩ := by
  have hne : ¬w.policy = "replay" := by rw [hpolicy]; decide
  unfold insertFd
  simp only [if_pos hfd, if_neg hne, h.getD]
  rcases hops with hops | ⟨o', hops⟩
  · rw [if_neg (by simp), if_pos (by simp [hops]), hops]
    exact ⟨_, o.flags, rfl, rfl, rfl, only_track h.other _⟩
  · rw [if_neg (by simp), if_neg (by simp [hops]), if_neg (by simp [hops]), hops]
    exact ⟨_, 1, rfl, rfl, rfl, only_track h.other _⟩

theorem record_replay (h : Only w fd r) (hpolicy : w.policy = "replay") (hfd : 2 < fd)
    (accesses : List OpRecord) :
    ∃ w', Run.exec step w (accesses.map fun o => .insert fd "" o.flags o.offset o.op) = some w' ∧
      w'.shouldSnapshot = w.shouldSnapshot ∧ Only w' fd ⟨r.path, r.ops ++ accesses⟩ := by
  induction accesses generalizing w r with
  | nil => exact ⟨w, rfl, rfl, by simpa using h⟩
  | cons o accesses ih =>
    obtain ⟨w₁, hstep, hpolicy₁, hsnap₁, honly₁⟩ := insertFd_replay h hpolicy hfd o
    obtain ⟨w', hrun, hsnap, honly⟩ := ih honly₁ (hpolicy₁.trans hpolicy)
    refine ⟨w', ?_, hsnap.trans hsnap₁, by simpa using honly⟩
    rw [List.map_cons, Run.exec_cons, step, hstep]
    exact hrun

theorem record_compression (h : Only w fd r) (hpolicy : w.policy = "compression")
    (hfd : 2 < fd) {first : OpRecord} (hops : r.ops = [first] ∨ ∃ o, r.ops = [first, o])
    (accesses : List OpRecord) :
    ∃ w', Run.exec step w (accesses.map fun o => .insert fd "" o.flags o.offset o.op) = some w' ∧
      w'.shouldSnapshot = w.shouldSnapshot ∧
      match accesses.getLast? with
      | none => Only w' fd r
      | some o => ∃ flags, Only w' fd ⟨r.path, [first, ⟨flags, o.offset, .fseek⟩]⟩ := by
  induction accesses generalizing w r with
  | nil => exact ⟨w, rfl, rfl, h⟩
  | cons o accesses ih =>
    obtain ⟨w₁, flags, hstep, hpolicy₁, hsnap₁, honly₁⟩ := insertFd_compression h hpolicy hfd hops o
    obtain ⟨w', hrun, hsnap, honly⟩ := ih honly₁ (hpolicy₁.trans hpolicy) (.inr ⟨_, rfl⟩)
    refine ⟨w', ?_, hsnap.trans hsnap₁, ?_⟩
    · rw [List.map_cons, Run.exec_cons, step, hstep]
      exact hrun
    · cases hlast : accesses.getLast? with
      | none =>
        rw [hlast] at honly
        rw [List.getLast?_eq_none_iff.mp hlast]
        exact ⟨flags, honly⟩
      | some last =>
        rw [hlast] at honly
        rw [List.getLast?_cons, hlast]
        exact honly

/-! ### Restoring -/

theorem Only.dumped (h : Only w fd r) (hsnap : w.shouldSnapshot = true) :
    (dumpFds w).toList = [(fd, r)] := by
  have hmem : ∀ e, e ∈ (dumpFds w).toList ↔ e ∈ [(fd, r)] := by
    intro (g, r')
    rw [mem_dumped hsnap, h g, List.mem_singleton, Prod.mk.injEq]
    by_cases hg : fd = g
    · subst hg
      simp [eq_comm]
    · simp [hg, Ne.symm hg]
  have hnodup : (dumpFds w).toList.Nodup :=
    (Maps.keys_ne (dumpFds w)).imp fun hne he => hne (congrArg Prod.fst he)
  exact List.perm_singleton.mp
    ((List.perm_ext_iff_of_nodup hnodup (List.pairwise_singleton _ _)).mpr hmem)

def seekPos (fileEnd : ℕ) (pos : ℤ) (flags offset : ℤ) : ℤ :=
  if flags = 0 then offset else if flags = 1 then pos + offset else fileEnd + offset

/-- What the `replay` branch does with a record; a read or a write seeks twice. -/
def replayPos (fileEnd : ℕ) (pos : ℤ) (o : OpRecord) : ℤ :=
  seekPos fileEnd (if o.op = .fseek then pos else pos + o.offset) o.flags o.offset

variable {σ : Type} (rt : SeekRuntime σ)

theorem files_invokeFseek {s : σ} {pos flags offset : ℤ}
    (hfile : rt.files s fd = some ⟨path, pos⟩) (hflags : flags = 0 ∨ flags = 1 ∨ flags = 2)
    (hoffset : 0 ≤ offset ∧ offset < 2 ^ 31) :
    rt.files (invokeFseek rt.toFdRuntime s fd flags offset) fd =
      some ⟨path, seekPos (rt.fileEnd path) pos flags offset⟩ := by
  have hu : (u32 offset : ℤ) = offset := by unfold u32; omega
  have hlt : u32 offset < 2 ^ 32 := by unfold u32; omega
  rcases hflags with rfl | rfl | rfl
  · have hseek := rt.files_fdSeek s fd _ _ hlt hfile
    change rt.files (rt.fdSeek s fd (u32 offset) 0 0) fd = _
    rw [hseek, Function.update_self, hu]
    rfl
  · have hseek := rt.files_fdSeek_cur s fd _ _ hlt hfile
    change rt.files (rt.fdSeek s fd (u32 offset) 0 1) fd = _
    rw [hseek, Function.update_self, hu]
    rfl
  · have hseek := rt.files_fdSeek_end s fd _ _ hlt hfile
    change rt.files (rt.fdSeek s fd (u32 offset) 0 2) fd = _
    rw [hseek, Function.update_self, hu]
    rfl

theorem files_restoreOp_replay (res : FdRecord) {p : σ × Wamr Unit} {pos : ℤ} {o : OpRecord}
    (hpolicy : p.2.policy = "replay") (ho : Access o)
    (hfile : rt.files p.1 fd = some ⟨path, pos⟩) :
    rt.files (restoreOp rt.toFdRuntime fd res p o).1 fd =
        some ⟨path, replayPos (rt.fileEnd path) pos o⟩ ∧
      (restoreOp rt.toFdRuntime fd res p o).2.policy = "replay" := by
  unfold restoreOp
  rw [if_pos hpolicy]
  cases hop : o.op with
  | fopen => exact absurd hop ho.op
  | fwrite | fread =>
    have hmove := files_invokeFseek rt hfile (.inr (.inl rfl)) ho.offset
    refine ⟨?_, hpolicy⟩
    rw [files_invokeFseek rt hmove ho.flags ho.offset]
    simp [replayPos, hop, seekPos]
  | fseek =>
    refine ⟨?_, hpolicy⟩
    rw [files_invokeFseek rt hfile ho.flags ho.offset]
    simp [replayPos, hop]

theorem files_restoreOps_replay (res : FdRecord) {p : σ × Wamr Unit} {pos : ℤ}
    {ops : List OpRecord} (hpolicy : p.2.policy = "replay") (hops : ∀ o ∈ ops, Access o)
    (hfile : rt.files p.1 fd = some ⟨path, pos⟩) :
    rt.files (restoreOps rt.toFdRuntime fd res p ops).1 fd =
      some ⟨path, ops.foldl (replayPos (rt.fileEnd path)) pos⟩ := by
  induction ops generalizing p pos with
  | nil => exact hfile
  | cons o ops ih =>
    rw [List.forall_mem_cons] at hops
    obtain ⟨hfile', hpolicy'⟩ := files_restoreOp_replay rt res hpolicy hops.1 hfile
    exact ih hpolicy' hops.2 hfile'

theorem Only.reopened (h : Only w fd r) (hsnap : w.shouldSnapshot = true) (s : σ)
    (policy : String) :
    restoreFdMap rt.toFdRuntime (dumpFds w) (s, restorer policy) =
      restoreOps rt.toFdRuntime fd r (s, restorer policy) r.ops := by
  have hready : (restorer policy).shouldSnapshot = false := rfl
  rw [restoreFdMap, if_pos hready, h.dumped hsnap]
  rfl

theorem restoredPos_replay (s : σ) (hfd : 2 < fd) (hpath : path ≠ "") (opening : OpRecord)
    {accesses : List OpRecord} (haccesses : ∀ o ∈ accesses, Access o) :
    restoredPos rt.toFdRuntime s "replay" fd (history fd path opening accesses) =
      some (accesses.foldl (replayPos (rt.fileEnd path)) 0) := by
  obtain ⟨w₁, hopen, hpolicy₁, hsnap₁, honly₁⟩ := insertFd_open "replay" hfd hpath opening
  obtain ⟨w, hrun, hsnap, honly⟩ := record_replay honly₁ hpolicy₁ hfd accesses
  have hexec : Run.exec step (recorder "replay")
      (history fd path opening accesses) = some w := by
    rw [history, Run.exec_cons, step, hopen]
    exact hrun
  rw [restoredPos, hexec, Option.bind_some, honly.reopened rt (hsnap.trans hsnap₁)]
  generalize hres : (⟨path, [⟨opening.flags, opening.offset, .fopen⟩] ++ accesses⟩ : FdRecord) = res
  have hfile : rt.files (reopen rt.toFdRuntime fd res (s, restorer "replay")).1 fd =
      some ⟨path, 0⟩ := by
    rw [files_reopen, Function.update_self, ← hres]
  have hrest := files_restoreOps_replay rt res (p := reopen rt.toFdRuntime fd res
    (s, restorer "replay")) rfl haccesses hfile
  have hops : restoreOps rt.toFdRuntime fd res (s, restorer "replay") res.ops =
      restoreOps rt.toFdRuntime fd res
        (reopen rt.toFdRuntime fd res (s, restorer "replay")) accesses := by
    rw [← hres]
    rfl
  rw [hops, hrest]
  rfl

theorem restoredPos_compression (s : σ) (hfd : 2 < fd) (hpath : path ≠ "") (opening : OpRecord)
    {accesses : List OpRecord} (haccesses : ∀ o ∈ accesses, Access o) :
    restoredPos rt.toFdRuntime s "compression" fd (history fd path opening accesses) =
      some ((accesses.getLast?.map OpRecord.offset).getD 0) := by
  obtain ⟨w₁, hopen, hpolicy₁, hsnap₁, honly₁⟩ := insertFd_open "compression" hfd hpath opening
  obtain ⟨w, hrun, hsnap, honly⟩ :=
    record_compression honly₁ hpolicy₁ hfd (.inl rfl) accesses
  have hexec : Run.exec step (recorder "compression")
      (history fd path opening accesses) = some w := by
    rw [history, Run.exec_cons, step, hopen]
    exact hrun
  have hpos {res : FdRecord} (hres : Only w fd res) (hgood : res.Good) :
      restoredPos rt.toFdRuntime s "compression" fd (history fd path opening accesses) =
        some (posOf 0 res.ops) := by
    rw [restoredPos, hexec, Option.bind_some, hres.reopened rt (hsnap.trans hsnap₁),
      (files_restoreOps rt.toFdRuntime fd (p := (s, restorer "compression"))
        rfl hgood).1, Function.update_self]
    rfl
  cases hlast : accesses.getLast? with
  | none =>
    rw [hlast] at honly
    refine (hpos honly ⟨rfl, ?_⟩).trans rfl
    intro o ho hne
    rw [List.mem_singleton.mp ho] at hne
    exact absurd rfl hne
  | some o =>
    rw [hlast] at honly
    obtain ⟨flags, honly⟩ := honly
    have hoffset := (haccesses o (List.mem_of_getLast? hlast)).offset
    refine (hpos honly ⟨rfl, ?_⟩).trans rfl
    intro o' ho' hne
    rcases List.mem_cons.mp ho' with rfl | ho'
    · exact absurd rfl hne
    · rw [List.mem_singleton.mp ho']
      exact hoffset

/-! ### The positions -/

theorem seekPos_nonneg (fileEnd : ℕ) {pos : ℤ} (hpos : 0 ≤ pos) {o : OpRecord} (ho : Access o) :
    0 ≤ seekPos fileEnd pos o.flags o.offset := by
  have hoffset := ho.offset
  unfold seekPos
  split
  · omega
  · split <;> omega

theorem replayPos_nonneg (fileEnd : ℕ) {pos : ℤ} (hpos : 0 ≤ pos) {o : OpRecord}
    (ho : Access o) : 0 ≤ replayPos fileEnd pos o := by
  have hoffset := ho.offset
  unfold replayPos
  split
  · exact seekPos_nonneg fileEnd hpos ho
  · exact seekPos_nonneg fileEnd (by omega) ho

theorem replay_nonneg (fileEnd : ℕ) {accesses : List OpRecord}
    (h : ∀ o ∈ accesses, Access o) : 0 ≤ accesses.foldl (replayPos fileEnd) 0 := by
  induction accesses using List.reverseRecOn with
  | nil => exact Int.le_refl 0
  | append_singleton accesses o ih =>
    rw [List.foldl_append]
    exact replayPos_nonneg fileEnd (ih fun o' ho' => h o' (List.mem_append_left _ ho'))
      (h o (by simp))

theorem replayPos_cases (fileEnd : ℕ) (pos : ℤ) {o : OpRecord} (ho : Access o) :
    (o.flags = 0 ∧ replayPos fileEnd pos o = o.offset) ∨
    (o.flags = 1 ∧ replayPos fileEnd pos o =
      (if o.op = .fseek then pos else pos + o.offset) + o.offset) ∨
    (o.flags = 2 ∧ replayPos fileEnd pos o = fileEnd + o.offset) := by
  unfold replayPos seekPos
  rcases ho.flags with hf | hf | hf
  · exact .inl ⟨hf, if_pos hf⟩
  · exact .inr (.inl ⟨hf, by rw [hf]; rfl⟩)
  · exact .inr (.inr ⟨hf, by rw [hf]; rfl⟩)

theorem replayPos_eq_zero_iff (fileEnd : ℕ) {pos : ℤ} (hpos : 0 ≤ pos) {o : OpRecord}
    (ho : Access o) :
    replayPos fileEnd pos o = 0 ↔ o.offset = 0 ∧
      (o.flags = 0 ∨ (o.flags = 1 ∧ pos = 0) ∨ (o.flags = 2 ∧ fileEnd = 0)) := by
  have hoffset := ho.offset
  rcases replayPos_cases fileEnd pos ho with ⟨hf, hr⟩ | ⟨hf, hr⟩ | ⟨hf, hr⟩
  · rw [hr]
    omega
  · rw [hr]
    split <;> omega
  · rw [hr]
    omega

theorem replayPos_eq_offset_iff (fileEnd : ℕ) {pos : ℤ} (hpos : 0 ≤ pos) {o : OpRecord}
    (ho : Access o) :
    replayPos fileEnd pos o = o.offset ↔
      o.flags = 0 ∨ (o.flags = 1 ∧ pos = 0 ∧ (o.op = .fseek ∨ o.offset = 0)) ∨
        (o.flags = 2 ∧ fileEnd = 0) := by
  have hoffset := ho.offset
  rcases replayPos_cases fileEnd pos ho with ⟨hf, hr⟩ | ⟨hf, hr⟩ | ⟨hf, hr⟩
  · exact iff_of_true hr (.inl hf)
  · by_cases hop : o.op = .fseek
    · rw [hr, if_pos hop]
      simp only [hop, true_or, and_true]
      omega
    · rw [hr, if_neg hop]
      simp only [hop, false_or]
      omega
  · rw [hr]
    omega

theorem replay_zero_iff (fileEnd : ℕ) {accesses : List OpRecord}
    (h : ∀ o ∈ accesses, Access o) :
    accesses.foldl (replayPos fileEnd) 0 = 0 ↔ AtStart fileEnd accesses.reverse := by
  induction accesses using List.reverseRecOn with
  | nil => simp [AtStart]
  | append_singleton accesses o ih =>
    have hbefore : ∀ o' ∈ accesses, Access o' := fun o' ho' => h o' (List.mem_append_left _ ho')
    rw [List.foldl_append, List.foldl_cons, List.foldl_nil,
      replayPos_eq_zero_iff fileEnd (replay_nonneg fileEnd hbefore) (h o (by simp)), ih hbefore,
      List.reverse_append, List.reverse_singleton, List.singleton_append, AtStart]

theorem positions_agree_iff (fileEnd : ℕ) {accesses : List OpRecord}
    (h : ∀ o ∈ accesses, Access o) :
    accesses.foldl (replayPos fileEnd) 0 = (accesses.getLast?.map OpRecord.offset).getD 0 ↔
      FromStart fileEnd accesses.reverse := by
  induction accesses using List.reverseRecOn with
  | nil => simp [FromStart]
  | append_singleton accesses o ih =>
    have hbefore : ∀ o' ∈ accesses, Access o' := fun o' ho' => h o' (List.mem_append_left _ ho')
    rw [List.getLast?_concat, Option.map_some, Option.getD_some, List.foldl_append,
      List.foldl_cons, List.foldl_nil,
      replayPos_eq_offset_iff fileEnd (replay_nonneg fileEnd hbefore) (h o (by simp)),
      replay_zero_iff fileEnd hbefore, List.reverse_append, List.reverse_singleton,
      List.singleton_append, FromStart]

/-- The two policies leave the descriptor at one position just when the last access was
from the start of the file. -/
theorem policies_agree_iff (s : σ) {fd : ℤ} {path : String} (hfd : 2 < fd) (hpath : path ≠ "")
    (opening : OpRecord) {accesses : List OpRecord} (haccesses : ∀ o ∈ accesses, Access o) :
    restoredPos rt.toFdRuntime s "replay" fd (history fd path opening accesses) =
        restoredPos rt.toFdRuntime s "compression" fd (history fd path opening accesses) ↔
      FromStart (rt.fileEnd path) accesses.reverse := by
  rw [restoredPos_replay rt s hfd hpath opening haccesses,
    restoredPos_compression rt s hfd hpath opening haccesses, Option.some.injEq,
    positions_agree_iff _ haccesses]

def diskRuntime : SeekRuntime Table :=
  { tableRuntime with
    fdSeek := fun t fd lo hi whence =>
      match t.1 fd with
      | none => t
      | some f =>
        t.set fd (some { f with pos :=
          (if whence = 0 then 0 else if whence = 1 then f.pos else 30) + (hi * 2 ^ 32 + lo) })
    files_fdSeek := by
      intro t fd lo f _ hf
      change t.1 fd = some f at hf
      simp [hf, tableRuntime, Table.set]
    fileEnd := fun _ => 30
    files_fdSeek_cur := by
      intro t fd lo f _ hf
      change t.1 fd = some f at hf
      simp [hf, tableRuntime, Table.set]
    files_fdSeek_end := by
      intro t fd lo f _ hf
      change t.1 fd = some f at hf
      simp [hf, tableRuntime, Table.set] }

/-- The file is read, and then a place in it is sought from its start. -/
def readThenSeek : List OpRecord := [⟨1, 5, .fread⟩, ⟨0, 7, .fseek⟩]

theorem policies_agree_iff_seek :
    restoredPos diskRuntime.toFdRuntime freshTable "replay" 4
        (history 4 "test3.txt" ⟨0, 0, .fopen⟩ readThenSeek) =
      restoredPos diskRuntime.toFdRuntime freshTable "compression" 4
        (history 4 "test3.txt" ⟨0, 0, .fopen⟩ readThenSeek) := by
  have haccesses : ∀ o ∈ readThenSeek, Access o := by
    intro o ho
    rcases List.mem_pair.mp ho with rfl | rfl
    · exact ⟨by decide, by decide, by decide⟩
    · exact ⟨by decide, by decide, by decide⟩
  have hstart : FromStart (diskRuntime.fileEnd "test3.txt") readThenSeek.reverse := .inl rfl
  exact (policies_agree_iff diskRuntime freshTable (by decide) (by decide) ⟨0, 0, .fopen⟩
    haccesses).mpr hstart

/-- Five bytes are read: `replay` seeks forward twice. -/
theorem policies_disagree :
    ¬∀ (σ : Type) (rt : SeekRuntime σ) (s : σ) (fd : ℤ) (path : String) (opening : OpRecord)
        (accesses : List OpRecord), 2 < fd → path ≠ "" → (∀ o ∈ accesses, Access o) →
      restoredPos rt.toFdRuntime s "replay" fd (history fd path opening accesses) =
        restoredPos rt.toFdRuntime s "compression" fd (history fd path opening accesses) := by
  intro hclaim
  have haccesses : ∀ o ∈ [(⟨1, 5, .fread⟩ : OpRecord)], Access o := by
    intro o ho
    rw [List.mem_singleton.mp ho]
    exact ⟨by decide, by decide, by decide⟩
  have hsame := hclaim Table diskRuntime freshTable 4 "test3.txt" ⟨0, 0, .fopen⟩ _ (by decide)
    (by decide) haccesses
  rw [restoredPos_replay diskRuntime freshTable (by decide) (by decide) ⟨0, 0, .fopen⟩ haccesses,
    restoredPos_compression diskRuntime freshTable (by decide) (by decide) ⟨0, 0, .fopen⟩
      haccesses] at hsame
  exact absurd hsame (by decide)

end MVVM.Files
