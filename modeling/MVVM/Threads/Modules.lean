import Mathlib.Data.List.Forall2
import Mathlib.Data.Nat.Notation

/-!
# The module instances of the threads

Every thread has a module instance of its own. The main thread dumps memories and tables;
the first environment that is restored makes the memories, and the others share them
through `tmp_buf`.
-/

namespace MVVM.Threads

/-- The parts of a `WASMModuleInstance` that are dumped: its memories and tables are
pointers, here to what they point to. Of a table that is all of its `WASMTableInstance`,
which the dump copies by value. -/
structure ModuleInstance (Mem Tab : Type) where
  memoryCount : ℕ
  memories : List Mem
  tableCount : ℕ
  tables : List Tab
  globalData : List UInt8

structure DumpedModule (Rec Tab : Type) where
  memories : List Rec
  tables : List Tab
  globalData : List UInt8

/-- `tmp_buf` and `tmp_buf_size` of `WAMRInstance`. -/
structure SharedMemories (Mem : Type) where
  tmpBuf : Option (List Mem)
  tmpBufSize : ℕ

structure Thread (Mem Tab : Type) where
  handle : ℕ
  inst : ModuleInstance Mem Tab

section

-- `WAMRMemoryInstance::dump_impl` and `restore_impl`
variable {Mem Rec Tab : Type} (dumpMemory : Mem → Rec) (restoreMemory : Rec → Mem → Mem)

/-- `WAMRModuleInstance::dump_impl`, for the thread `cur_count` of an instance whose main
thread has the handle `main`. -/
def dumpModule (main : ℕ) (t : Thread Mem Tab) : DumpedModule Rec Tab where
  memories := if t.handle = main then
    (t.inst.memories.take t.inst.memoryCount).map dumpMemory else []
  tables := if t.handle = main then t.inst.tables.take t.inst.tableCount else []
  globalData := t.inst.globalData

def restoreMemories : List Rec → List Mem → Option (List Mem)
  | [], ms => some ms
  | r :: rs, m :: ms => (restoreMemories rs ms).map (restoreMemory r m :: ·)
  | _ :: _, [] => none

/-- The loop over the first `n` tables of the instance: it reads `tables[i]` of the dumped
vector, wherever that ends. -/
def restoreTables : ℕ → List Tab → List Tab → Option (List Tab)
  | 0, _, tabs => some tabs
  | n + 1, t :: ts, _ :: tabs => (restoreTables n ts tabs).map (t :: ·)
  | _ + 1, _, _ => none

/-- `WAMRModuleInstance::restore_impl`. At its end the first memory is copied once more,
which fails when there is none. -/
def restoreModule (d : DumpedModule Rec Tab) (w : SharedMemories Mem)
    (env : ModuleInstance Mem Tab) : Option (SharedMemories Mem × ModuleInstance Mem Tab) :=
  match w.tmpBuf with
  | none =>
    (restoreMemories restoreMemory d.memories env.memories).bind fun mems =>
      (restoreTables env.tableCount d.tables env.tables).bind fun tabs =>
        if mems = [] then none
        else some (⟨some mems, d.memories.length⟩,
          ⟨d.memories.length, mems, d.tables.length, tabs, d.globalData⟩)
  | some mems =>
    (restoreTables env.tableCount d.tables env.tables).bind fun tabs =>
      if mems = [] then none
      else some (w, ⟨w.tmpBufSize, mems, d.tables.length, tabs, d.globalData⟩)

def restoreModules : SharedMemories Mem → List (DumpedModule Rec Tab × ModuleInstance Mem Tab) →
    Option (List (ModuleInstance Mem Tab))
  | _, [] => some []
  | w, (d, env) :: rest =>
    (restoreModule restoreMemory d w env).bind fun p =>
      (restoreModules p.1 rest).map (p.2 :: ·)

end

structure Instantiated {Mem Tab : Type} (memories tables : ℕ) (env : ModuleInstance Mem Tab) :
    Prop where
  memoryCount : env.memoryCount = memories
  length_memories : env.memories.length = memories
  tableCount : env.tableCount = tables
  length_tables : env.tables.length = tables

/-- What a restored instance has of the checkpointed one. -/
structure Regained {Mem Tab : Type} (t : Thread Mem Tab) (env : ModuleInstance Mem Tab) :
    Prop where
  memoryCount : env.memoryCount = t.inst.memoryCount
  tableCount : env.tableCount = t.inst.tableCount
  tables : env.tables = t.inst.tables

variable {Mem Rec Tab : Type} (dumpMemory : Mem → Rec) (restoreMemory : Rec → Mem → Mem)

/-! ### The loops -/

theorem restoreMemories_spec {rs : List Rec} {ms : List Mem} (h : rs.length ≤ ms.length) :
    ∃ out, restoreMemories restoreMemory rs ms = some out ∧ out.length = ms.length := by
  induction rs generalizing ms with
  | nil => exact ⟨ms, rfl, rfl⟩
  | cons r rs ih =>
    cases ms with
    | nil => simp at h
    | cons m ms =>
      obtain ⟨out, hout, hlen⟩ := ih (Nat.le_of_succ_le_succ h)
      exact ⟨restoreMemory r m :: out, by rw [restoreMemories, hout]; rfl, by simp [hlen]⟩

theorem restoreTables_spec {dumped tabs : List Tab} (h : dumped.length = tabs.length) :
    restoreTables tabs.length dumped tabs = some dumped := by
  induction dumped generalizing tabs with
  | nil =>
    obtain rfl := List.length_eq_zero_iff.mp h.symm
    rfl
  | cons t ts ih =>
    cases tabs with
    | nil => simp at h
    | cons u tabs =>
      rw [List.length_cons, restoreTables, ih (Nat.succ.inj h)]
      rfl

theorem restoreTables_empty {n : ℕ} (hn : 0 < n) (tabs : List Tab) :
    restoreTables n [] tabs = none := by
  cases n with
  | zero => omega
  | succ n => rfl

/-! ### One environment -/

theorem dumpModule_main (t : Thread Mem Tab) {memories tables : ℕ}
    (ht : Instantiated memories tables t.inst) :
    dumpModule dumpMemory t.handle t =
      ⟨t.inst.memories.map dumpMemory, t.inst.tables, t.inst.globalData⟩ := by
  have hmem : t.inst.memories.take t.inst.memoryCount = t.inst.memories :=
    List.take_of_length_le (Nat.le_of_eq (ht.length_memories.trans ht.memoryCount.symm))
  have htab : t.inst.tables.take t.inst.tableCount = t.inst.tables :=
    List.take_of_length_le (Nat.le_of_eq (ht.length_tables.trans ht.tableCount.symm))
  rw [dumpModule, if_pos rfl, if_pos rfl, hmem, htab]

theorem dumpModule_other {main : ℕ} {t : Thread Mem Tab} (h : t.handle ≠ main) :
    dumpModule dumpMemory main t = ⟨[], [], t.inst.globalData⟩ := by
  rw [dumpModule, if_neg h, if_neg h]

theorem restoreModule_first {memories tables : ℕ} {t : Thread Mem Tab}
    {env : ModuleInstance Mem Tab} (ht : Instantiated memories tables t.inst)
    (henv : Instantiated memories tables env) (hpos : 0 < memories) :
    ∃ mems out, mems ≠ [] ∧ Regained t out ∧
      restoreModule restoreMemory (dumpModule dumpMemory t.handle t) ⟨none, 0⟩ env =
        some (⟨some mems, memories⟩, out) := by
  have hlen : (t.inst.memories.map dumpMemory).length = memories := by
    rw [List.length_map, ht.length_memories]
  obtain ⟨mems, hmems, hcount⟩ := restoreMemories_spec restoreMemory
    (Nat.le_of_eq (hlen.trans henv.length_memories.symm))
  have hne : mems ≠ [] := by
    apply List.ne_nil_of_length_pos
    rw [hcount, henv.length_memories]
    exact hpos
  have htabs : restoreTables env.tableCount t.inst.tables env.tables = some t.inst.tables := by
    rw [henv.tableCount, ← henv.length_tables]
    exact restoreTables_spec (ht.length_tables.trans henv.length_tables.symm)
  refine ⟨mems, ⟨memories, mems, t.inst.tables.length, t.inst.tables, t.inst.globalData⟩, hne,
    ⟨ht.memoryCount.symm, ht.length_tables.trans ht.tableCount.symm, rfl⟩, ?_⟩
  rw [dumpModule_main dumpMemory t ht, restoreModule]
  simp only [hmems, htabs, Option.bind_some, if_neg hne, hlen]

theorem restoreModule_no_memory {tables : ℕ} {t : Thread Mem Tab} {env : ModuleInstance Mem Tab}
    (ht : Instantiated 0 tables t.inst) (henv : Instantiated 0 tables env) :
    restoreModule restoreMemory (dumpModule dumpMemory t.handle t) ⟨none, 0⟩ env = none := by
  have hsrc : t.inst.memories = [] := List.length_eq_zero_iff.mp ht.length_memories
  have hdst : env.memories = [] := List.length_eq_zero_iff.mp henv.length_memories
  rw [dumpModule_main dumpMemory t ht, restoreModule, hsrc, hdst]
  cases restoreTables env.tableCount t.inst.tables env.tables with
  | none => rfl
  | some tabs => rfl

theorem restoreModule_other {main memories : ℕ} {t : Thread Mem Tab} {env : ModuleInstance Mem Tab}
    {mems : List Mem} (hmain : t.handle ≠ main) (ht : Instantiated memories 0 t.inst)
    (henv : Instantiated memories 0 env) (hne : mems ≠ []) :
    ∃ out, Regained t out ∧ restoreModule restoreMemory (dumpModule dumpMemory main t)
      ⟨some mems, memories⟩ env = some (⟨some mems, memories⟩, out) := by
  have hsrc : t.inst.tables = [] := List.length_eq_zero_iff.mp ht.length_tables
  have hdst : env.tables = [] := List.length_eq_zero_iff.mp henv.length_tables
  refine ⟨⟨memories, mems, 0, [], t.inst.globalData⟩,
    ⟨ht.memoryCount.symm, ht.tableCount.symm, hsrc.symm⟩, ?_⟩
  rw [dumpModule_other dumpMemory hmain, restoreModule, henv.tableCount, hdst]
  simp only [restoreTables, Option.bind_some, if_neg hne, List.length_nil]

theorem restoreModule_past_end {main memories tables : ℕ} {t : Thread Mem Tab}
    {env : ModuleInstance Mem Tab} {mems : List Mem} (hmain : t.handle ≠ main)
    (henv : Instantiated memories tables env) (hpos : 0 < tables) :
    restoreModule restoreMemory (dumpModule dumpMemory main t) ⟨some mems, memories⟩ env =
      none := by
  rw [dumpModule_other dumpMemory hmain, restoreModule, henv.tableCount]
  simp only [restoreTables_empty hpos, Option.bind_none]

/-! ### All environments -/

theorem restoreModules_others {main memories : ℕ} {mems : List Mem} (hne : mems ≠ [])
    {others : List (Thread Mem Tab × ModuleInstance Mem Tab)}
    (hmain : ∀ p ∈ others, p.1.handle ≠ main)
    (hsrc : ∀ p ∈ others, Instantiated memories 0 p.1.inst)
    (hdst : ∀ p ∈ others, Instantiated memories 0 p.2) :
    ∃ outs, restoreModules restoreMemory ⟨some mems, memories⟩
        (others.map fun p => (dumpModule dumpMemory main p.1, p.2)) = some outs ∧
      List.Forall₂ Regained (others.map Prod.fst) outs := by
  induction others with
  | nil => exact ⟨[], rfl, .nil⟩
  | cons p others ih =>
    obtain ⟨out, hout, hrun⟩ := restoreModule_other dumpMemory restoreMemory
      (hmain p List.mem_cons_self) (hsrc p List.mem_cons_self)
      (hdst p List.mem_cons_self) hne
    obtain ⟨outs, hruns, houts⟩ := ih (fun q hq => hmain q (List.mem_cons_of_mem _ hq))
      (fun q hq => hsrc q (List.mem_cons_of_mem _ hq))
      (fun q hq => hdst q (List.mem_cons_of_mem _ hq))
    refine ⟨out :: outs, ?_, .cons hout houts⟩
    rw [List.map_cons, restoreModules, hrun, Option.bind_some, hruns]
    rfl

/-- Every thread regains its memories and tables just when the module has a memory and
there is only one thread or no table. -/
theorem restoreModules_regains_iff (memories tables : ℕ) (main : Thread Mem Tab)
    (target : ModuleInstance Mem Tab)
    (others : List (Thread Mem Tab × ModuleInstance Mem Tab))
    (hhandles : ∀ p ∈ others, p.1.handle ≠ main.handle)
    (hmain : Instantiated memories tables main.inst)
    (htarget : Instantiated memories tables target)
    (hothers : ∀ p ∈ others, Instantiated memories tables p.1.inst ∧
      Instantiated memories tables p.2) :
    (∃ outs, restoreModules restoreMemory ⟨none, 0⟩
          ((dumpModule dumpMemory main.handle main, target) ::
            others.map fun p => (dumpModule dumpMemory main.handle p.1, p.2)) = some outs ∧
        List.Forall₂ Regained (main :: others.map Prod.fst) outs) ↔
      0 < memories ∧ (others = [] ∨ tables = 0) := by
  rw [restoreModules]
  constructor
  · intro ⟨outs, hrun, _⟩
    rcases Nat.eq_zero_or_pos memories with rfl | hpos
    · rw [restoreModule_no_memory dumpMemory restoreMemory hmain htarget] at hrun
      cases hrun
    · refine ⟨hpos, ?_⟩
      by_contra hno
      obtain ⟨hne, htables⟩ := not_or.mp hno
      obtain ⟨p, rest, rfl⟩ := List.exists_cons_of_ne_nil hne
      obtain ⟨mems, out, _, _, hfirst⟩ := restoreModule_first dumpMemory restoreMemory
        hmain htarget hpos
      rw [hfirst, Option.bind_some, List.map_cons, restoreModules,
        restoreModule_past_end dumpMemory restoreMemory (hhandles p List.mem_cons_self)
          (hothers p List.mem_cons_self).2 (Nat.pos_of_ne_zero htables)] at hrun
      cases hrun
  · intro ⟨hpos, hcase⟩
    obtain ⟨mems, out, hne, hout, hfirst⟩ := restoreModule_first dumpMemory restoreMemory
      hmain htarget hpos
    rw [hfirst, Option.bind_some]
    rcases hcase with rfl | rfl
    · exact ⟨[out], rfl, .cons hout .nil⟩
    · obtain ⟨outs, hruns, houts⟩ := restoreModules_others dumpMemory restoreMemory
        hne hhandles (fun p hp => (hothers p hp).1)
        fun p hp => (hothers p hp).2
      refine ⟨out :: outs, ?_, .cons hout houts⟩
      simp only [hruns]
      rfl

/-- A thread of a module with one memory. -/
def smallThread (tables : List (List ℕ)) (handle : ℕ) : Thread ℕ (List ℕ) :=
  ⟨handle, ⟨1, [0], tables.length, tables, []⟩⟩

theorem smallThread_instantiated (tables : List (List ℕ)) (handle : ℕ) :
    Instantiated 1 tables.length (smallThread tables handle).inst :=
  ⟨rfl, rfl, rfl, rfl⟩

/-- Two threads, and no table. -/
theorem restoreModules_regains_iff_two :
    ∃ outs, restoreModules (fun r _ => r) ⟨none, 0⟩
        [(dumpModule id 1 (smallThread [] 1), (smallThread [] 1).inst),
          (dumpModule id 1 (smallThread [] 2), (smallThread [] 2).inst)] = some outs ∧
      List.Forall₂ Regained [smallThread [] 1, smallThread [] 2] outs := by
  refine (restoreModules_regains_iff id (fun r _ => r) 1 0 (smallThread [] 1)
    (smallThread [] 1).inst [(smallThread [] 2, (smallThread [] 2).inst)] (fun p hp => ?_)
    (smallThread_instantiated [] 1) (smallThread_instantiated [] 1) fun p hp => ?_).mpr
    ⟨by decide, .inr rfl⟩
  · rw [List.mem_singleton.mp hp]
    decide
  · rw [List.mem_singleton.mp hp]
    exact ⟨smallThread_instantiated [] 2, smallThread_instantiated [] 2⟩

/-- With a second thread the restore reads past the end of a dumped vector. -/
theorem second_thread_past_end :
    ¬ ∀ (memories tables : ℕ) (main : Thread ℕ (List ℕ)) (target : ModuleInstance ℕ (List ℕ))
        (others : List (Thread ℕ (List ℕ) × ModuleInstance ℕ (List ℕ))),
      (∀ p ∈ others, p.1.handle ≠ main.handle) → Instantiated memories tables main.inst →
      Instantiated memories tables target →
      (∀ p ∈ others, Instantiated memories tables p.1.inst ∧ Instantiated memories tables p.2) →
      ∃ outs, restoreModules (fun r _ => r) ⟨none, 0⟩
          ((dumpModule id main.handle main, target) ::
            others.map fun p => (dumpModule id main.handle p.1, p.2)) = some outs ∧
        List.Forall₂ Regained (main :: others.map Prod.fst) outs := by
  intro hclaim
  obtain ⟨outs, hrun, _⟩ := hclaim 1 1 (smallThread [[3]] 1) (smallThread [[3]] 1).inst
    [(smallThread [[3]] 2, (smallThread [[3]] 2).inst)]
    (fun p hp => by rw [List.mem_singleton.mp hp]; decide) (smallThread_instantiated [[3]] 1)
    (smallThread_instantiated [[3]] 1)
    (fun p hp => by
      rw [List.mem_singleton.mp hp]
      exact ⟨smallThread_instantiated [[3]] 2, smallThread_instantiated [[3]] 2⟩)
  cases hrun

end MVVM.Threads
