import MVVM.Files.Policies

/-!
# The replayed positions (wamr_wasi_context.cpp:150-185, wamr.cpp:326-332)

Under the `replay` policy a descriptor is opened again and all its accesses are repeated as
seeks. A recorded offset is an `int`; it is handed over as the low one of two words.
-/

namespace MVVM.Files

/-- `fd_seek` with any starting point, and for any descriptor. -/
structure ReplayRuntime (σ : Type) extends SeekRuntime σ where
  -- there are three starting points
  files_fdSeek_invalid : ∀ s fd lo hi whence, 2 < whence →
    files (fdSeek s fd lo hi whence) = files s
  files_fdSeek_other : ∀ s fd lo hi whence g, g ≠ fd →
    files (fdSeek s fd lo hi whence) g = files s g

/-- A record behind the first one. What is written or read is as long as the offset says. -/
structure Recorded (o : OpRecord) : Prop where
  op : o.op ≠ .fopen
  flags : -2 ^ 31 ≤ o.flags ∧ o.flags < 2 ^ 31
  offset : -2 ^ 31 ≤ o.offset ∧ o.offset < 2 ^ 31
  length : o.op ≠ .fseek → 0 ≤ o.offset
  whence : o.op = .fseek → o.flags = 0 ∨ o.flags = 1 ∨ o.flags = 2

/-- Where an access takes the position. -/
def accessPos (fileEnd : ℕ) (pos : ℤ) (o : OpRecord) : ℤ :=
  if o.op = .fseek then seekPos fileEnd pos o.flags o.offset else pos + o.offset

/-- The position behind the accesses, as the guest has made them. -/
def position (fileEnd : ℕ) (accesses : List OpRecord) : ℤ :=
  accesses.foldl (accessPos fileEnd) 0

/-- What a negative offset gains when its sign is lost. -/
def signLoss (offset : ℤ) : ℤ := if offset < 0 then 2 ^ 32 else 0

/-- How far behind the position the replay ends, for the accesses with the last one first. -/
def excess (fileEnd : ℕ) : List OpRecord → ℤ
  | [] => 0
  | o :: earlier =>
    if o.op = .fseek then
      if o.flags = 1 then excess fileEnd earlier + signLoss o.offset else signLoss o.offset
    else if o.flags = 0 then -position fileEnd earlier.reverse
    else if o.flags = 1 then excess fileEnd earlier + o.offset
    else if o.flags = 2 then fileEnd - position fileEnd earlier.reverse
    else excess fileEnd earlier

/-! ### The replay of one descriptor -/

def seekTo (fileEnd : ℕ) (pos flags : ℤ) (lo : ℕ) : ℤ :=
  if flags = 0 then lo else if flags = 1 then pos + lo
  else if flags = 2 then fileEnd + lo else pos

/-- What the loop does with a record. -/
def replayedPos (fileEnd : ℕ) (pos : ℤ) (o : OpRecord) : ℤ :=
  seekTo fileEnd (if o.op = .fseek then pos else pos + u32 o.offset) o.flags (u32 o.offset)

variable {σ Sock : Type} (rt : ReplayRuntime σ) {fd : ℤ} {path : String}

theorem u32_eq {offset : ℤ} (h : -2 ^ 31 ≤ offset ∧ offset < 2 ^ 31) :
    (u32 offset : ℤ) = offset + signLoss offset := by
  unfold u32 signLoss
  split <;> omega

theorem files_seek {s : σ} {pos flags : ℤ} (offset : ℤ) (hfile : rt.files s fd = some ⟨path, pos⟩)
    (hflags : -2 ^ 31 ≤ flags ∧ flags < 2 ^ 31) :
    rt.files (invokeFseek rt.toFdRuntime s fd flags offset) fd =
      some ⟨path, seekTo (rt.fileEnd path) pos flags (u32 offset)⟩ := by
  have hlt : u32 offset < 2 ^ 32 := by unfold u32; omega
  unfold invokeFseek seekTo
  by_cases h0 : flags = 0
  · subst h0
    have hseek := rt.files_fdSeek s fd _ _ hlt hfile
    rw [if_pos rfl]
    exact (congrFun hseek fd).trans (Function.update_self ..)
  · by_cases h1 : flags = 1
    · subst h1
      have hseek := rt.files_fdSeek_cur s fd _ _ hlt hfile
      rw [if_neg h0, if_pos rfl]
      exact (congrFun hseek fd).trans (Function.update_self ..)
    · by_cases h2 : flags = 2
      · subst h2
        have hseek := rt.files_fdSeek_end s fd _ _ hlt hfile
        rw [if_neg h0, if_neg h1, if_pos rfl]
        exact (congrFun hseek fd).trans (Function.update_self ..)
      · have hinvalid : 2 < u32 flags := by unfold u32; omega
        rw [if_neg h0, if_neg h1, if_neg h2, rt.files_fdSeek_invalid s fd _ _ _ hinvalid]
        exact hfile

theorem files_replayOp (res : FdRecord) {p : σ × Wamr Sock} {pos : ℤ} {o : OpRecord}
    (hpolicy : p.2.policy = "replay") (ho : Recorded o)
    (hfile : rt.files p.1 fd = some ⟨path, pos⟩) :
    rt.files (restoreOp rt.toFdRuntime fd res p o).1 fd =
      some ⟨path, replayedPos (rt.fileEnd path) pos o⟩ := by
  unfold restoreOp
  rw [if_pos hpolicy]
  cases hop : o.op with
  | fopen => exact absurd hop ho.op
  | fwrite | fread =>
    have hone : -2 ^ 31 ≤ (1 : ℤ) ∧ (1 : ℤ) < 2 ^ 31 := by decide
    have hmove := files_seek rt o.offset hfile hone
    refine (files_seek rt o.offset hmove ho.flags).trans ?_
    simp [replayedPos, hop, seekTo]
  | fseek =>
    refine (files_seek rt o.offset hfile ho.flags).trans ?_
    simp [replayedPos, hop]

theorem policy_restoreOp (fd : ℤ) (res : FdRecord) (p : σ × Wamr Sock) (o : OpRecord) :
    (restoreOp rt.toFdRuntime fd res p o).2.policy = p.2.policy := by
  unfold restoreOp
  split
  · cases o.op <;> rfl
  · split
    · split <;> rfl
    · rfl

theorem policy_restoreOps (fd : ℤ) (res : FdRecord) (p : σ × Wamr Sock) (ops : List OpRecord) :
    (restoreOps rt.toFdRuntime fd res p ops).2.policy = p.2.policy := by
  induction ops generalizing p with
  | nil => rfl
  | cons o ops ih => exact (ih _).trans (policy_restoreOp rt fd res p o)

theorem files_replayOps (res : FdRecord) {p : σ × Wamr Sock} {pos : ℤ} {ops : List OpRecord}
    (hpolicy : p.2.policy = "replay") (hops : ∀ o ∈ ops, Recorded o)
    (hfile : rt.files p.1 fd = some ⟨path, pos⟩) :
    rt.files (restoreOps rt.toFdRuntime fd res p ops).1 fd =
      some ⟨path, ops.foldl (replayedPos (rt.fileEnd path)) pos⟩ := by
  induction ops generalizing p pos with
  | nil => exact hfile
  | cons o ops ih =>
    rw [List.forall_mem_cons] at hops
    have hfile' := files_replayOp rt res hpolicy hops.1 hfile
    exact ih ((policy_restoreOp rt fd res p o).trans hpolicy) hops.2 hfile'

/-- The records of one descriptor leave the others alone. -/
theorem files_restoreOps_other {fd g : ℤ} (hne : g ≠ fd) (res : FdRecord) (p : σ × Wamr Sock)
    (ops : List OpRecord) :
    rt.files (restoreOps rt.toFdRuntime fd res p ops).1 g = rt.files p.1 g := by
  have hseek : ∀ s flags offset,
      rt.files (invokeFseek rt.toFdRuntime s fd flags offset) g = rt.files s g :=
    fun s _ _ => rt.files_fdSeek_other s fd _ _ _ g hne
  have hopen : ∀ p : σ × Wamr Sock,
      rt.files (reopen rt.toFdRuntime fd res p).1 g = rt.files p.1 g := by
    intro p
    rw [files_reopen, Function.update_of_ne hne]
  induction ops generalizing p with
  | nil => rfl
  | cons o ops ih =>
    refine (ih _).trans ?_
    unfold restoreOp
    split
    · cases o.op with
      | fopen => exact hopen p
      | fwrite | fread => exact (hseek _ _ _).trans (hseek _ _ _)
      | fseek => exact hseek _ _ _
    · split
      · split
        · exact hopen p
        · exact hseek _ _ _
      · rfl

theorem policy_restoreFds (entries : List (ℤ × FdRecord)) (p : σ × Wamr Sock) :
    (restoreFds rt.toFdRuntime entries p).2.policy = p.2.policy := by
  induction entries generalizing p with
  | nil => rfl
  | cons e entries ih => exact (ih _).trans (policy_restoreOps rt e.1 e.2 p e.2.ops)

theorem files_restoreFds_other {g : ℤ} {entries : List (ℤ × FdRecord)}
    (hne : ∀ e ∈ entries, g ≠ e.1) (p : σ × Wamr Sock) :
    rt.files (restoreFds rt.toFdRuntime entries p).1 g = rt.files p.1 g := by
  induction entries generalizing p with
  | nil => rfl
  | cons e entries ih =>
    rw [List.forall_mem_cons] at hne
    exact (ih hne.2 _).trans (files_restoreOps_other rt hne.1 e.2 p e.2.ops)

/-- A descriptor is where its own records have left it, whatever else the map has. -/
theorem files_restoreFdMap {m : Std.TreeMap ℤ FdRecord} {opening : OpRecord}
    {accesses : List OpRecord} (hm : m[fd]? = some ⟨path, opening :: accesses⟩)
    (hopening : opening.op = .fopen) (haccesses : ∀ o ∈ accesses, Recorded o) (s : σ)
    {w : Wamr Sock} (hw : w.shouldSnapshot = false) (hpolicy : w.policy = "replay") :
    rt.files (restoreFdMap rt.toFdRuntime m (s, w)).1 fd =
      some ⟨path, accesses.foldl (replayedPos (rt.fileEnd path)) 0⟩ := by
  obtain ⟨before, behind, hsplit⟩ :=
    List.append_of_mem (Std.TreeMap.mem_toList_iff_getElem?_eq_some.mpr hm)
  have hkeys := Maps.keys_ne m
  rw [hsplit, List.pairwise_append, List.pairwise_cons] at hkeys
  have hbehind : ∀ e ∈ behind, fd ≠ e.1 := fun e he => hkeys.2.1.1 e he
  rw [restoreFdMap, if_pos hw, hsplit, restoreFds, List.foldl_append, List.foldl_cons]
  refine (files_restoreFds_other rt hbehind _).trans ?_
  have hbefore := (policy_restoreFds rt before (s, w)).trans hpolicy
  change (restoreFds rt.toFdRuntime before (s, w)).2.policy = "replay" at hbefore
  generalize hres : (⟨path, opening :: accesses⟩ : FdRecord) = res
  -- the first record opens the file, at its start
  have hopen : restoreOp rt.toFdRuntime fd res (restoreFds rt.toFdRuntime before (s, w)) opening =
      reopen rt.toFdRuntime fd res (restoreFds rt.toFdRuntime before (s, w)) := by
    unfold restoreOp
    rw [if_pos hbefore, hopening]
  have hfile : rt.files (reopen rt.toFdRuntime fd res
      (restoreFds rt.toFdRuntime before (s, w))).1 fd = some ⟨path, 0⟩ := by
    rw [files_reopen, Function.update_self, ← hres]
  have hops : res.ops = opening :: accesses := by rw [← hres]
  rw [restoreOps, hops, List.foldl_cons]
  change rt.files (restoreOps rt.toFdRuntime fd res (restoreOp rt.toFdRuntime fd res
    (restoreFds rt.toFdRuntime before (s, w)) opening) accesses).1 fd = _
  rw [hopen]
  exact files_replayOps rt res hbefore haccesses hfile

/-! ### How far off it ends -/

theorem replayedPos_eq (fileEnd : ℕ) (earlier : List OpRecord) {o : OpRecord} (ho : Recorded o) :
    replayedPos fileEnd (position fileEnd earlier.reverse + excess fileEnd earlier) o =
      accessPos fileEnd (position fileEnd earlier.reverse) o + excess fileEnd (o :: earlier) := by
  have hu := u32_eq ho.offset
  rw [excess]
  generalize position fileEnd earlier.reverse = pos
  unfold replayedPos accessPos seekTo seekPos
  rw [hu]
  by_cases hop : o.op = .fseek
  · simp only [if_pos hop]
    rcases ho.whence hop with hf | hf | hf
    · simp [hf]
    · simp [hf]
      omega
    · simp [hf]
      omega
  · have hloss : signLoss o.offset = 0 := if_neg (by have hlen := ho.length hop; omega)
    simp only [if_neg hop, hloss]
    split
    · omega
    · split
      · omega
      · split <;> omega

theorem replayed_eq_add (fileEnd : ℕ) {accesses : List OpRecord}
    (h : ∀ o ∈ accesses, Recorded o) :
    accesses.foldl (replayedPos fileEnd) 0 =
      position fileEnd accesses + excess fileEnd accesses.reverse := by
  induction accesses using List.reverseRecOn with
  | nil => rfl
  | append_singleton accesses o ih =>
    have hbefore : ∀ o' ∈ accesses, Recorded o' := fun o' ho' => h o' (List.mem_append_left _ ho')
    have ho : Recorded o := h o (List.mem_append_right _ List.mem_cons_self)
    have hstep := replayedPos_eq fileEnd accesses.reverse ho
    rw [List.reverse_reverse] at hstep
    rw [List.foldl_append, List.foldl_cons, List.foldl_nil, ih hbefore, hstep, position, position,
      List.foldl_append, List.foldl_cons, List.foldl_nil, List.reverse_append,
      List.reverse_singleton, List.singleton_append]

/-- The descriptor is where the guest has left it just when what the replay adds cancels
out. -/
theorem replay_position_iff (s : σ) {w : Wamr Sock} (hw : w.shouldSnapshot = false)
    (hpolicy : w.policy = "replay") {m : Std.TreeMap ℤ FdRecord} {opening : OpRecord}
    {accesses : List OpRecord} (hm : m[fd]? = some ⟨path, opening :: accesses⟩)
    (hopening : opening.op = .fopen) (haccesses : ∀ o ∈ accesses, Recorded o) :
    rt.files (restoreFdMap rt.toFdRuntime m (s, w)).1 fd =
        some ⟨path, position (rt.fileEnd path) accesses⟩ ↔
      excess (rt.fileEnd path) accesses.reverse = 0 := by
  rw [files_restoreFdMap rt hm hopening haccesses s hw hpolicy, replayed_eq_add _ haccesses,
    Option.some.injEq, OpenFile.mk.injEq, and_iff_right rfl]
  omega

/-- A file of 30 bytes, with seeks from all three starting points. -/
def seekableRuntime : ReplayRuntime Table :=
  { diskRuntime with
    fdSeek := fun t fd lo hi whence =>
      if 2 < whence then t else diskRuntime.fdSeek t fd lo hi whence
    files_fdSeek := fun t fd lo f hlo hf => diskRuntime.files_fdSeek t fd lo f hlo hf
    files_fdSeek_cur := fun t fd lo f hlo hf => diskRuntime.files_fdSeek_cur t fd lo f hlo hf
    files_fdSeek_end := fun t fd lo f hlo hf => diskRuntime.files_fdSeek_end t fd lo f hlo hf
    files_fdSeek_invalid := by
      intro t fd lo hi whence hinvalid
      rw [if_pos hinvalid]
    files_fdSeek_other := by
      intro t fd lo hi whence g hne
      split
      · rfl
      · change (match t.1 fd with
          | none => t
          | some f => t.set fd (some { f with pos :=
            (if whence = 0 then 0 else if whence = 1 then f.pos else 30) +
              (hi * 2 ^ 32 + lo) })).1 g = t.1 g
        cases t.1 fd with
        | none => rfl
        | some f => exact Function.update_of_ne hne _ _ }

def recordedMap (accesses : List OpRecord) : Std.TreeMap ℤ FdRecord :=
  (∅ : Std.TreeMap ℤ FdRecord).insert 4 ⟨"test3.txt", ⟨0, 0, .fopen⟩ :: accesses⟩

theorem getElem?_recordedMap (accesses : List OpRecord) :
    (recordedMap accesses)[(4 : ℤ)]? = some ⟨"test3.txt", ⟨0, 0, .fopen⟩ :: accesses⟩ :=
  Std.TreeMap.getElem?_insert_self

/-- The seven bytes before the one sought are skipped, and twelve are read. -/
theorem replay_position_iff_read :
    seekableRuntime.files (restoreFdMap seekableRuntime.toFdRuntime
      (recordedMap [⟨0, 7, .fseek⟩, ⟨3, 12, .fread⟩]) (freshTable, restorer "replay")).1 4 =
        some ⟨"test3.txt", 19⟩ := by
  have haccesses : ∀ o ∈ [(⟨0, 7, .fseek⟩ : OpRecord), ⟨3, 12, .fread⟩], Recorded o := by
    intro o ho
    rcases List.mem_pair.mp ho with rfl | rfl
    · exact ⟨by decide, by decide, by decide, by decide, by decide⟩
    · exact ⟨by decide, by decide, by decide, by decide, by decide⟩
  exact (replay_position_iff seekableRuntime freshTable rfl rfl (getElem?_recordedMap _) rfl
    haccesses).mpr (by decide)

/-- A place is sought that is 15 bytes before the end of the file. -/
theorem seek_from_end_lost :
    ¬∀ (σ : Type) (rt : ReplayRuntime σ) (s : σ) (w : Wamr Unit) (m : Std.TreeMap ℤ FdRecord)
        (fd : ℤ) (path : String) (opening : OpRecord) (accesses : List OpRecord),
      w.shouldSnapshot = false → w.policy = "replay" →
      m[fd]? = some ⟨path, opening :: accesses⟩ → opening.op = .fopen →
      (∀ o ∈ accesses, Recorded o) →
      rt.files (restoreFdMap rt.toFdRuntime m (s, w)).1 fd =
        some ⟨path, position (rt.fileEnd path) accesses⟩ := by
  intro hclaim
  have haccesses : ∀ o ∈ [(⟨2, -15, .fseek⟩ : OpRecord)], Recorded o := by
    intro o ho
    rw [List.mem_singleton.mp ho]
    exact ⟨by decide, by decide, by decide, by decide, by decide⟩
  have hfiles := hclaim Table seekableRuntime freshTable (restorer "replay") _ 4 "test3.txt" _ _
    rfl rfl (getElem?_recordedMap [⟨2, -15, .fseek⟩]) rfl haccesses
  rw [files_restoreFdMap seekableRuntime (getElem?_recordedMap _) rfl haccesses freshTable rfl rfl,
    replayed_eq_add _ haccesses, Option.some.injEq, OpenFile.mk.injEq] at hfiles
  have hexcess : excess (seekableRuntime.fileEnd "test3.txt") [⟨2, -15, .fseek⟩] = 2 ^ 32 := by
    decide
  rw [List.reverse_singleton, hexcess] at hfiles
  omega

end MVVM.Files
