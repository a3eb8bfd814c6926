import MVVM.Cells
import Mathlib.Algebra.Group.Int.Defs
import Mathlib.Algebra.Group.Nat.Defs
import Mathlib.Algebra.GroupWithZero.Nat
import Mathlib.Data.Int.Notation
import Mathlib.Logic.Function.Basic

/-!
# Snapshot and restore of the AOT frames (wamr_exec_env.cpp:18-61, wamr_interp_frame.cpp:77-91)

The frames of a thread are a list linked through `prev_frame`, the innermost first. The
snapshot walks it; the restore reverses the frames and lets the runtime allocate one after
the other on the stack of another thread. Addresses count cells; a field of a frame is one
cell, wherever in the frame the runtime has it.
-/

namespace MVVM.Frames

/-- Where `AOTFrame` has the fields that are used, and where `lp` begins. -/
structure FrameLayout where
  prevFrame : ℕ
  funcIndex : ℕ
  ipOffset : ℕ
  sp : ℕ
  lp : ℕ
  distinct : [prevFrame, funcIndex, ipOffset, sp].Nodup
  below_lp : ∀ o ∈ [prevFrame, funcIndex, ipOffset, sp], o < lp

/-- The contents of a frame; the cells are those from `lp` to `sp`. -/
structure Frame where
  funcIndex : ℕ
  ipOffset : ℕ
  cells : List ℕ
  deriving DecidableEq, Repr

structure FrameLayout.Holds (L : FrameLayout) (m : ℕ → ℕ) (p : ℕ) (f : Frame) : Prop where
  funcIndex : m (p + L.funcIndex) = f.funcIndex
  ipOffset : m (p + L.ipOffset) = f.ipOffset
  sp : m (p + L.sp) = p + L.lp + f.cells.length
  cells : Cells.block m (p + L.lp) f.cells.length = f.cells

/-- The frames that `p` leads to, the innermost first. -/
inductive FrameLayout.Chain (L : FrameLayout) (m : ℕ → ℕ) : ℕ → List Frame → Prop
  | nil : L.Chain m 0 []
  | cons {p : ℕ} {f : Frame} {fs : List Frame} (hp : p ≠ 0) (hf : L.Holds m p f)
      (hfs : L.Chain m (m (p + L.prevFrame)) fs) : L.Chain m p (f :: fs)

def FrameLayout.LaidOut (L : FrameLayout) (size : ℕ → ℕ) (m : ℕ → ℕ) : ℕ → List Frame → Prop
  | _, [] => True
  | p, f :: fs => L.Holds m p f ∧ L.LaidOut size m (p + size f.funcIndex) fs

/-- `WAMRInterpFrame`: an `int32` and two `uint32`. -/
structure DumpedFrame where
  functionIndex : ℤ
  ip : ℕ
  sp : ℕ
  stackFrame : List ℕ
  deriving DecidableEq, Repr

/-- The members of `WASMExecEnv` that are dumped or restored. -/
structure ExecEnv where
  mem : ℕ → ℕ
  curFrame : ℕ
  top : ℕ
  topBoundary : ℕ
  callChainSize : ℕ
  handle : ℕ
  flags : ℕ
  auxBoundary : ℕ
  auxBottom : ℕ

structure DumpedEnv where
  curCount : ℕ
  flags : ℕ
  auxBoundary : ℕ
  auxBottom : ℕ
  frames : List DumpedFrame
  deriving DecidableEq, Repr

def u32 (x : ℤ) : ℕ := (x % 2 ^ 32).toNat

/-- `env->sp - env->lp`. -/
def spOffset (L : FrameLayout) (m : ℕ → ℕ) (p : ℕ) : ℕ := m (p + L.sp) - (p + L.lp)

/-- `WAMRInterpFrame::dump_impl(AOTFrame *)` (wamr_interp_frame.cpp:77-91). -/
def dumpFrame (L : FrameLayout) (m : ℕ → ℕ) (p : ℕ) : DumpedFrame where
  functionIndex := Int.bmod (m (p + L.funcIndex)) (2 ^ 32)
  ip := m (p + L.ipOffset) % 2 ^ 32
  sp := spOffset L m p % 2 ^ 32
  stackFrame := Cells.block m (p + L.lp) (spOffset L m p)

def dumpFrames (L : FrameLayout) (m : ℕ → ℕ) : ℕ → ℕ → Option (List DumpedFrame)
  | 0, _ => none
  | fuel + 1, p =>
    if p = 0 then some []
    else (dumpFrames L m fuel (m (p + L.prevFrame))).map (dumpFrame L m p :: ·)

/-- `WAMRExecEnv::dump_impl` (wamr_exec_env.cpp:18-35), without the module instance. -/
def dumpEnv (L : FrameLayout) (fuel : ℕ) (env : ExecEnv) : Option DumpedEnv :=
  (dumpFrames L env.mem fuel env.curFrame).map fun frames =>
    ⟨env.handle, env.flags, env.auxBoundary, env.auxBottom, frames⟩

/-- `aot_alloc_frame` of the runtime: it takes a frame at the top of the stack, if `fits` lets it
have that many of the free cells, and makes it the current one. -/
structure FrameAlloc where
  alloc : ExecEnv → ℕ → Option ExecEnv
  size : ℕ → ℕ
  fits : ℕ → ℕ → Bool
  room : ∀ env f, (alloc env f).isSome = fits (size f) (env.topBoundary - env.top)
  curFrame : ∀ env f env', alloc env f = some env' → env'.curFrame = env.top
  top : ∀ env f env', alloc env f = some env' → env'.top = env.top + size f
  topBoundary : ∀ env f env', alloc env f = some env' → env'.topBoundary = env.topBoundary
  below : ∀ env f env', alloc env f = some env' → ∀ a < env.top, env'.mem a = env.mem a

/-- The body of the loop over the dumped frames (wamr_exec_env.cpp:47-57); `none` is the
`exit` when there is no room. -/
def restoreFrame (L : FrameLayout) (A : FrameAlloc) (env : ExecEnv) (d : DumpedFrame) :
    Option ExecEnv :=
  (A.alloc env (u32 d.functionIndex)).map fun env =>
    let p := env.curFrame
    let m := Function.update env.mem (p + L.ipOffset) d.ip
    let m := Function.update m (p + L.sp) (p + L.lp + d.sp)
    let m := Function.update m (p + L.funcIndex) (d.functionIndex % 2 ^ 64).toNat
    { env with mem := Cells.store m (p + L.lp) d.stackFrame }

/-- `WAMRExecEnv::restore_impl` for AOT code (wamr_exec_env.cpp:36-61, 114). -/
def restoreEnv (L : FrameLayout) (A : FrameAlloc) (d : DumpedEnv) (env : ExecEnv) :
    Option ExecEnv :=
  let env := { env with
    flags := d.flags, auxBoundary := d.auxBoundary, auxBottom := d.auxBottom, callChainSize := 0 }
  (d.frames.reverse.foldlM (restoreFrame L A) env).map fun env' =>
    { env' with
      curFrame := 0, top := env.top, callChainSize := d.frames.length, handle := d.curCount }

/-! ### Dumping -/

variable {L : FrameLayout} {A : FrameAlloc}

/-- The numbers of a frame fit the types they are dumped in, and its cells its allocation. -/
structure Frame.Fits (A : FrameAlloc) (L : FrameLayout) (f : Frame) : Prop where
  funcIndex : f.funcIndex < 2 ^ 31
  ipOffset : f.ipOffset < 2 ^ 31
  cells : f.cells.length < 2 ^ 31
  size : L.lp + f.cells.length ≤ A.size f.funcIndex

def Frame.dumped (f : Frame) : DumpedFrame :=
  ⟨f.funcIndex, f.ipOffset, f.cells.length, f.cells⟩

theorem dumpFrame_of_holds {m : ℕ → ℕ} {p : ℕ} {f : Frame} (h : L.Holds m p f)
    (hf : f.Fits A L) : dumpFrame L m p = f.dumped := by
  have hsize : spOffset L m p = f.cells.length := by rw [spOffset, h.sp]; omega
  have hfunc : Int.bmod (f.funcIndex : ℤ) (2 ^ 32) = f.funcIndex := by
    have := hf.funcIndex
    exact Int.bmod_eq_of_le (by omega) (by omega)
  have hip : f.ipOffset % 2 ^ 32 = f.ipOffset := Nat.mod_eq_of_lt (by have := hf.ipOffset; omega)
  have hsp : f.cells.length % 2 ^ 32 = f.cells.length :=
    Nat.mod_eq_of_lt (by have := hf.cells; omega)
  calc dumpFrame L m p = ⟨Int.bmod (m (p + L.funcIndex)) (2 ^ 32), m (p + L.ipOffset) % 2 ^ 32,
        spOffset L m p % 2 ^ 32, Cells.block m (p + L.lp) (spOffset L m p)⟩ := rfl
    _ = ⟨f.funcIndex, f.ipOffset, f.cells.length, f.cells⟩ := by
      rw [hsize, h.funcIndex, h.ipOffset, h.cells, hfunc, hip, hsp]

theorem dumpFrames_of_chain {m : ℕ → ℕ} {p : ℕ} {fs : List Frame} (h : L.Chain m p fs)
    (hfs : ∀ f ∈ fs, f.Fits A L) {fuel : ℕ} (hfuel : fs.length < fuel) :
    dumpFrames L m fuel p = some (fs.map Frame.dumped) := by
  induction h generalizing fuel with
  | nil =>
    obtain ⟨n, rfl⟩ := Nat.exists_eq_add_of_lt hfuel
    rfl
  | cons hp hf hchain ih =>
    obtain ⟨n, rfl⟩ := Nat.exists_eq_add_of_lt hfuel
    rw [dumpFrames, if_neg hp, ih (fun g hg => hfs g (List.mem_cons_of_mem _ hg)) (by simp; omega),
      dumpFrame_of_holds hf (hfs _ List.mem_cons_self)]
    rfl

/-! ### Restoring -/

theorem FrameLayout.Holds.congr {m m' : ℕ → ℕ} {p : ℕ} {f : Frame} (h : L.Holds m p f)
    (hm : ∀ a, p ≤ a → a < p + (L.lp + f.cells.length) → m' a = m a) : L.Holds m' p f := by
  have hlt : ∀ o ∈ [L.prevFrame, L.funcIndex, L.ipOffset, L.sp], m' (p + o) = m (p + o) := by
    intro o ho
    have := L.below_lp o ho
    exact hm (p + o) (by omega) (by omega)
  refine ⟨?_, ?_, ?_, ?_⟩
  · rw [hlt _ (by simp), h.funcIndex]
  · rw [hlt _ (by simp), h.ipOffset]
  · rw [hlt _ (by simp), h.sp]
  · rw [Cells.block_congr fun a ha hb => hm a (by omega) (by omega), h.cells]

theorem u32_of_lt {n : ℕ} (h : n < 2 ^ 31) : u32 (n : ℤ) = n := by
  unfold u32
  omega

theorem restoreFrame_spec {env env' : ExecEnv} {f : Frame} (hf : f.Fits A L)
    (h : restoreFrame L A env f.dumped = some env') :
    L.Holds env'.mem env.top f ∧ env'.top = env.top + A.size f.funcIndex ∧
      env'.topBoundary = env.topBoundary ∧ ∀ a < env.top, env'.mem a = env.mem a := by
  obtain ⟨env₁, hal, rfl⟩ := Option.map_eq_some_iff.mp h
  have hcur : env₁.curFrame = env.top := A.curFrame _ _ _ hal
  have htop := A.top _ _ _ hal
  have hbound := A.topBoundary _ _ _ hal
  rw [show u32 f.dumped.functionIndex = f.funcIndex from u32_of_lt hf.funcIndex] at htop
  have hfunc : ((f.funcIndex : ℤ) % 2 ^ 64).toNat = f.funcIndex := by
    have := hf.funcIndex
    omega
  have hdist := L.distinct
  have hlp := L.below_lp
  simp only [List.nodup_cons, List.mem_cons, List.not_mem_nil, not_or, or_false, not_false_eq_true,
    List.nodup_nil, and_true, forall_eq_or_imp, forall_eq] at hdist hlp
  refine ⟨⟨?_, ?_, ?_, ?_⟩, htop, hbound, fun a ha => ?_⟩
  all_goals simp only [hcur, Frame.dumped]
  · rw [Cells.store_of_lt _ _ (by omega), Function.update_self, hfunc]
  · rw [Cells.store_of_lt _ _ (by omega), Function.update_of_ne (by omega),
      Function.update_of_ne (by omega), Function.update_self]
  · rw [Cells.store_of_lt _ _ (by omega), Function.update_of_ne (by omega), Function.update_self]
  · exact Cells.block_store _ _ _
  · rw [Cells.store_of_lt _ _ (by omega), Function.update_of_ne (by omega),
      Function.update_of_ne (by omega), Function.update_of_ne (by omega)]
    exact A.below _ _ _ hal a ha

theorem restoreFrames_spec {env env' : ExecEnv} {fs : List Frame} (hfs : ∀ f ∈ fs, f.Fits A L)
    (h : (fs.map Frame.dumped).foldlM (restoreFrame L A) env = some env') :
    L.LaidOut A.size env'.mem env.top fs ∧ ∀ a < env.top, env'.mem a = env.mem a := by
  induction fs generalizing env with
  | nil =>
    obtain rfl := Option.some.inj h
    exact ⟨trivial, fun _ _ => rfl⟩
  | cons f fs ih =>
    have hf : f.Fits A L := hfs f List.mem_cons_self
    obtain ⟨env₁, h₁, h₂⟩ := Option.bind_eq_some_iff.mp h
    obtain ⟨hholds, htop, _, hbelow⟩ := restoreFrame_spec hf h₁
    obtain ⟨hlaid, hkeep⟩ := ih (fun g hg => hfs g (List.mem_cons_of_mem _ hg)) h₂
    rw [htop] at hlaid hkeep
    have hsize := hf.size
    refine ⟨⟨hholds.congr fun a _ hb => hkeep a (by omega), hlaid⟩, fun a ha => ?_⟩
    rw [hkeep a (by omega), hbelow a ha]

/-- The stack has room for frames from `top` on, the outermost first. -/
def FrameAlloc.HasRoom (A : FrameAlloc) (topBoundary : ℕ) : ℕ → List Frame → Prop
  | _, [] => True
  | top, f :: fs => A.fits (A.size f.funcIndex) (topBoundary - top) = true ∧
      A.HasRoom topBoundary (top + A.size f.funcIndex) fs

theorem restoreFrame_isSome (L : FrameLayout) (env : ExecEnv) {f : Frame} (hf : f.Fits A L) :
    (restoreFrame L A env f.dumped).isSome =
      A.fits (A.size f.funcIndex) (env.topBoundary - env.top) := by
  rw [restoreFrame, Option.isSome_map, A.room,
    show u32 f.dumped.functionIndex = f.funcIndex from u32_of_lt hf.funcIndex]

theorem restoreFrames_isSome_iff {env : ExecEnv} {fs : List Frame} (hfs : ∀ f ∈ fs, f.Fits A L) :
    ((fs.map Frame.dumped).foldlM (restoreFrame L A) env).isSome ↔
      A.HasRoom env.topBoundary env.top fs := by
  induction fs generalizing env with
  | nil => exact iff_of_true rfl trivial
  | cons f fs ih =>
    have hf : f.Fits A L := hfs f List.mem_cons_self
    have hfirst := restoreFrame_isSome L env hf
    rw [List.map_cons, List.foldlM_cons, FrameAlloc.HasRoom, ← hfirst]
    cases h₁ : restoreFrame L A env f.dumped with
    | none => simp
    | some env₁ =>
      obtain ⟨_, htop, hbound, _⟩ := restoreFrame_spec hf h₁
      rw [← htop, ← hbound]
      exact (ih fun g hg => hfs g (List.mem_cons_of_mem _ hg)).trans
        (and_iff_right Option.isSome_some).symm

/-- Dumping the frames of a thread and restoring them in another one: they stand on its
stack from its top on, the outermost first, each as it was; nothing below is changed, and
the thread is left without a current frame. It gets there just when the stack has the room. -/
theorem restore_lays_out_frames (L : FrameLayout) (A : FrameAlloc) (env target : ExecEnv)
    (fs : List Frame) (hchain : L.Chain env.mem env.curFrame fs) (hfs : ∀ f ∈ fs, f.Fits A L) :
    ∃ d, (∀ fuel, fs.length < fuel → dumpEnv L fuel env = some d) ∧
      ((restoreEnv L A d target).isSome ↔
        A.HasRoom target.topBoundary target.top fs.reverse) ∧
      ∀ target', restoreEnv L A d target = some target' →
        L.LaidOut A.size target'.mem target.top fs.reverse ∧
        (∀ a < target.top, target'.mem a = target.mem a) ∧ target'.top = target.top ∧
        target'.curFrame = 0 ∧ target'.callChainSize = fs.length := by
  have hrev : ∀ f ∈ fs.reverse, f.Fits A L := fun f hf => hfs f (List.mem_reverse.mp hf)
  have hframes : (fs.map Frame.dumped).reverse = fs.reverse.map Frame.dumped :=
    List.map_reverse.symm
  refine ⟨⟨env.handle, env.flags, env.auxBoundary, env.auxBottom, fs.map Frame.dumped⟩,
    fun fuel hfuel => ?_, ?_, fun target' h => ?_⟩
  · rw [dumpEnv, dumpFrames_of_chain hchain hfs hfuel]
    rfl
  · simp only [restoreEnv, Option.isSome_map, hframes]
    exact restoreFrames_isSome_iff hrev
  · simp only [restoreEnv, hframes] at h
    obtain ⟨env₁, h₁, rfl⟩ := Option.map_eq_some_iff.mp h
    obtain ⟨hlaid, hbelow⟩ := restoreFrames_spec hrev h₁
    exact ⟨hlaid, hbelow, rfl, rfl, List.length_map _⟩

/-! ### A runtime -/

/-- Frames of 8 cells and as many more as their function's index, linked where they start. Half of
the stack that is free stays so. -/
def bumpAlloc : FrameAlloc where
  alloc env f :=
    if 2 * (8 + f) ≤ env.topBoundary - env.top then
      some { env with
        mem := Function.update env.mem env.top env.curFrame
        curFrame := env.top
        top := env.top + (8 + f) }
    else none
  size f := 8 + f
  fits size free := decide (2 * size ≤ free)
  room env f := by
    split
    · next h => simp [h]
    · next h => simp [h]
  curFrame env f env' h := by
    obtain ⟨_, rfl⟩ := by simpa using h
    rfl
  top env f env' h := by
    obtain ⟨_, rfl⟩ := by simpa using h
    rfl
  topBoundary env f env' h := by
    obtain ⟨_, rfl⟩ := by simpa using h
    rfl
  below env f env' h a ha := by
    obtain ⟨_, rfl⟩ := by simpa using h
    exact Function.update_of_ne (Nat.ne_of_lt ha) _ _

def fourFields : FrameLayout where
  prevFrame := 0
  funcIndex := 1
  ipOffset := 2
  sp := 3
  lp := 4
  distinct := by decide
  below_lp := by decide

/-- Function 3 at address 200 has called function 4 at address 100. -/
def twoFrames : ExecEnv where
  mem := Cells.store (Cells.store (fun _ => 0) 200 [0, 3, 10, 205, 5]) 100 [200, 4, 20, 106, 7, 8]
  curFrame := 100
  top := 300
  topBoundary := 400
  callChainSize := 2
  handle := 1
  flags := 0
  auxBoundary := 0
  auxBottom := 0

def emptyStack : ExecEnv :=
  { twoFrames with
    mem := fun _ => 0
    curFrame := 0
    top := 1000
    topBoundary := 2000
    callChainSize := 0 }

theorem restore_lays_out_frames_two :
    ∃ d env', dumpEnv fourFields 3 twoFrames = some d ∧
      restoreEnv fourFields bumpAlloc d emptyStack = some env' ∧
      fourFields.LaidOut bumpAlloc.size env'.mem 1000 [⟨3, 10, [5]⟩, ⟨4, 20, [7, 8]⟩] ∧
      env'.top = 1000 ∧ env'.callChainSize = 2 := by
  have hchain : fourFields.Chain twoFrames.mem twoFrames.curFrame
      [⟨4, 20, [7, 8]⟩, ⟨3, 10, [5]⟩] :=
    .cons (by decide) ⟨rfl, rfl, rfl, rfl⟩ (.cons (by decide) ⟨rfl, rfl, rfl, rfl⟩ .nil)
  have hfits : ∀ f ∈ ([⟨4, 20, [7, 8]⟩, ⟨3, 10, [5]⟩] : List Frame),
      f.Fits bumpAlloc fourFields := by
    intro f hf
    rcases List.mem_pair.mp hf with rfl | rfl
    · exact ⟨by decide, by decide, by decide, by decide⟩
    · exact ⟨by decide, by decide, by decide, by decide⟩
  obtain ⟨d, hdump, hroom, hrestore⟩ :=
    restore_lays_out_frames fourFields bumpAlloc twoFrames emptyStack _ hchain hfits
  obtain ⟨env', henv'⟩ := Option.isSome_iff_exists.mp (hroom.mpr ⟨by decide, by decide, trivial⟩)
  obtain ⟨hlaid, _, htop, _, hsize⟩ := hrestore env' henv'
  exact ⟨d, env', hdump 3 (by decide), henv', hlaid, htop, hsize⟩

end MVVM.Frames
