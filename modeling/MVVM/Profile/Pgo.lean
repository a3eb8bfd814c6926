import MVVM.Histogram
import MVVM.Sorting
import Mathlib.Algebra.Order.Field.Rat
import Mathlib.Tactic.NormNum

/-!
# The samples of the profiler (profile.cpp:33-46, 186-204, 240-280)

`unwind` records the stack of the guest whenever a trap samples it. `main` counts what it finds
in the stacks, and writes the places that are frequent to a file.
-/

namespace MVVM.Profile

open Histogram (bump Counts)

structure AotFrame where
  funcIndex : ℕ
  ipOffset : ℕ
  deriving DecidableEq

/-- The functions and positions of a sample, the innermost frame first. -/
abbrev Stack : Type := List (ℕ × ℕ)

/-- The frames from `cur_frame` on along `prev_frame`. There is a first one, which is read before
the loop. -/
def unwind (stackRecord : List Stack) (curFrame : List AotFrame) : List Stack :=
  stackRecord ++ [curFrame.map fun frame => (frame.funcIndex, frame.ipOffset)]

structure Counters where
  funcCount : Std.TreeMap ℕ ℕ
  lastFuncCount : Std.TreeMap ℕ ℕ
  ipCountPerFunc : Std.TreeMap ℕ (Std.TreeMap ℕ ℕ)

def countFrame (c : Counters) (frame : ℕ × ℕ) : Counters where
  funcCount := bump c.funcCount frame.1
  lastFuncCount := c.lastFuncCount
  ipCountPerFunc :=
    c.ipCountPerFunc.insert frame.1 (bump (c.ipCountPerFunc.getD frame.1 ∅) frame.2)

def countStack (c : Counters) (stack : Stack) : Counters :=
  match stack.head? with
  | none => c
  | some top => stack.foldl countFrame { c with lastFuncCount := bump c.lastFuncCount top.1 }

def countRecord (stackRecord : List Stack) : Counters := stackRecord.foldl countStack ⟨∅, ∅, ∅⟩

/-- The order of `last_func_idx`: by how often the function has been on top, the most first. -/
def IsLastFuncIdx (c : Counters) (lastFuncIdx : List ℕ) : Prop :=
  Sorting.Sorts (fun a b => decide (c.lastFuncCount.getD b 0 < c.lastFuncCount.getD a 0))
    c.lastFuncCount.keys lastFuncIdx

/-- A line of the report, `pgo` or `no pgo`. The frequency is compared as it is, without
rounding. -/
structure PgoLine where
  func : ℕ
  idx : ℕ
  ip : ℕ
  freq : ℚ
  isPgo : Bool

def pgoLine (aotIdx : ℕ → ℕ) (totalSampleCount e : ℕ) (entry : ℕ × ℕ) : PgoLine where
  func := e
  idx := aotIdx e
  ip := entry.1
  freq := entry.2 / totalSampleCount
  isPgo := decide ((15 / 100 : ℚ) < entry.2 / totalSampleCount)

def pgoLines (aotIdx : ℕ → ℕ) (c : Counters) (totalSampleCount : ℕ) (lastFuncIdx : List ℕ) :
    List PgoLine :=
  lastFuncIdx.flatMap fun e =>
    (c.ipCountPerFunc.getD e ∅).toList.map (pgoLine aotIdx totalSampleCount e)

/-- The number on the first line of the `.pgo` file, and the pairs on the others. -/
structure PgoFile where
  size : ℕ
  pairs : List (ℕ × ℕ)

def pgoFile (lines : List PgoLine) : PgoFile :=
  let pgoList := (lines.filter (·.isPgo)).map fun l => (l.idx, l.ip)
  ⟨pgoList.length, pgoList⟩

/-! ### Shares -/

/-- The share of the samples whose stack contains the frame. -/
def share (stackRecord : List Stack) (frame : ℕ × ℕ) : ℚ :=
  stackRecord.countP (fun stack => frame ∈ stack) / stackRecord.length

def Innermost (stackRecord : List Stack) (func : ℕ) : Prop :=
  ∃ stack ∈ stackRecord, ∃ ip, stack.head? = some (func, ip)

/-- The report gives shares, and the file has the pairs with a share above 0.15 of functions
that have been innermost, behind their number. -/
structure Faithful (aotIdx : ℕ → ℕ) (stackRecord : List Stack) (lines : List PgoLine)
    (file : PgoFile) : Prop where
  freq : ∀ l ∈ lines, l.freq = share stackRecord (l.func, l.ip) ∧ l.freq ≤ 1
  written : ∀ idx ip, (idx, ip) ∈ file.pairs ↔ ∃ func, aotIdx func = idx ∧
    Innermost stackRecord func ∧ 15 / 100 < share stackRecord (func, ip)
  size : file.size = file.pairs.length

/-! ### The counters -/

/-- The counters after some functions have been on top and some frames have been counted. -/
structure Tallies (c : Counters) (tops : List ℕ) (frames : List (ℕ × ℕ)) : Prop where
  func : Counts c.funcCount (frames.map (·.1))
  last : Counts c.lastFuncCount tops
  ips : ∀ f, Counts (c.ipCountPerFunc.getD f ∅) ((frames.filter (·.1 = f)).map (·.2))

variable {c : Counters} {tops : List ℕ} {frames : List (ℕ × ℕ)} {stackRecord : List Stack}

theorem tallies_start : Tallies ⟨∅, ∅, ∅⟩ [] [] where
  func := Histogram.counts_empty
  last := Histogram.counts_empty
  ips f := by
    rw [Std.TreeMap.getD_emptyc]
    exact Histogram.counts_empty

theorem Tallies.countFrame (h : Tallies c tops frames) (frame : ℕ × ℕ) :
    Tallies (countFrame c frame) tops (frames ++ [frame]) where
  func := by
    rw [List.map_append]
    exact h.func.bump frame.1
  last := h.last
  ips f := by
    have hold := h.ips f
    rw [Profile.countFrame, Std.TreeMap.getD_insert, List.filter_append, List.map_append]
    by_cases hf : frame.1 = f
    · subst hf
      rw [if_pos Std.ReflCmp.compare_self, List.filter_cons_of_pos (by simp)]
      exact hold.bump frame.2
    · have hne : compare frame.1 f ≠ .eq := fun he => hf (Std.LawfulEqCmp.compare_eq_iff_eq.mp he)
      rw [if_neg hne, List.filter_cons_of_neg (by simpa using hf), List.filter_nil, List.map_nil,
        List.append_nil]
      exact hold

theorem Tallies.countFrames (h : Tallies c tops frames) (stack : Stack) :
    Tallies (stack.foldl Profile.countFrame c) tops (frames ++ stack) := by
  induction stack generalizing c frames with
  | nil =>
    rw [List.append_nil]
    exact h
  | cons frame stack ih =>
    rw [List.append_cons]
    exact ih (h.countFrame frame)

theorem Tallies.countStack (h : Tallies c tops frames) (stack : Stack) :
    Tallies (countStack c stack) (tops ++ (stack.head?.map (·.1)).toList) (frames ++ stack) := by
  cases stack with
  | nil =>
    rw [List.append_nil]
    simpa [Profile.countStack] using h
  | cons top stack =>
    have htop : Tallies { c with lastFuncCount := bump c.lastFuncCount top.1 } (tops ++ [top.1])
        frames := ⟨h.func, h.last.bump top.1, h.ips⟩
    exact htop.countFrames (top :: stack)

theorem Tallies.countStacks (h : Tallies c tops frames) (stackRecord : List Stack) :
    Tallies (stackRecord.foldl Profile.countStack c)
      (tops ++ stackRecord.flatMap fun stack => (stack.head?.map (·.1)).toList)
      (frames ++ stackRecord.flatten) := by
  induction stackRecord generalizing c tops frames with
  | nil =>
    simpa using h
  | cons stack stackRecord ih =>
    have hrest := ih (h.countStack stack)
    rw [List.append_assoc, List.append_assoc] at hrest
    exact hrest

theorem tallies_record (stackRecord : List Stack) : Tallies (countRecord stackRecord)
    (stackRecord.flatMap fun stack => (stack.head?.map (·.1)).toList) stackRecord.flatten := by
  have h := tallies_start.countStacks stackRecord
  rw [List.nil_append, List.nil_append] at h
  exact h

theorem count_ips (frames : List (ℕ × ℕ)) (f ip : ℕ) :
    ((frames.filter (·.1 = f)).map (·.2)).count ip = frames.count (f, ip) := by
  induction frames with
  | nil => rfl
  | cons frame frames ih =>
    rw [List.count_cons, ← ih]
    by_cases hf : frame.1 = f
    · rw [List.filter_cons_of_pos (by simpa using hf), List.map_cons, List.count_cons]
      congr 1
      simp [Prod.ext_iff, hf]
    · have hne : ¬frame = (f, ip) := fun h => hf (congrArg Prod.fst h)
      rw [List.filter_cons_of_neg (by simpa using hf), if_neg (by simpa using hne), Nat.add_zero]

theorem mem_ips (stackRecord : List Stack) (f ip n : ℕ) :
    (ip, n) ∈ ((countRecord stackRecord).ipCountPerFunc.getD f ∅).toList ↔
      (f, ip) ∈ stackRecord.flatten ∧ n = stackRecord.flatten.count (f, ip) := by
  rw [((tallies_record stackRecord).ips f).mem_toList, count_ips]
  refine and_congr_left fun _ => ?_
  simp

theorem mem_lastFuncIdx {lastFuncIdx : List ℕ}
    (h : IsLastFuncIdx (countRecord stackRecord) lastFuncIdx) (f : ℕ) :
    f ∈ lastFuncIdx ↔ Innermost stackRecord f := by
  rw [h.1.mem_iff, Std.TreeMap.mem_keys, (tallies_record stackRecord).last.mem_iff,
    List.mem_flatMap]
  refine exists_congr fun stack => and_congr_right fun _ => ?_
  simp

/-! ### The report -/

theorem mem_pgoLines {lastFuncIdx : List ℕ}
    (h : IsLastFuncIdx (countRecord stackRecord) lastFuncIdx) (aotIdx : ℕ → ℕ) (total : ℕ)
    (l : PgoLine) : l ∈ pgoLines aotIdx (countRecord stackRecord) total lastFuncIdx ↔
      ∃ f ip, Innermost stackRecord f ∧ (f, ip) ∈ stackRecord.flatten ∧
        l = pgoLine aotIdx total f (ip, stackRecord.flatten.count (f, ip)) := by
  rw [pgoLines, List.mem_flatMap]
  constructor
  · rintro ⟨f, hf, hl⟩
    obtain ⟨entry, hentry, rfl⟩ := List.mem_map.mp hl
    obtain ⟨hmem, hn⟩ := (mem_ips stackRecord f entry.1 entry.2).mp hentry
    exact ⟨f, entry.1, (mem_lastFuncIdx h f).mp hf, hmem, by rw [← hn]⟩
  · rintro ⟨f, ip, hf, hmem, rfl⟩
    exact ⟨f, (mem_lastFuncIdx h f).mpr hf,
      List.mem_map_of_mem ((mem_ips stackRecord f ip _).mpr ⟨hmem, rfl⟩)⟩

theorem share_le_one (stackRecord : List Stack) (frame : ℕ × ℕ) : share stackRecord frame ≤ 1 := by
  have hle : ((stackRecord.countP fun stack => frame ∈ stack : ℕ) : ℚ) ≤ stackRecord.length :=
    Nat.cast_le.mpr List.countP_le_length
  exact div_le_one_of_le₀ hle (Nat.cast_nonneg _)

/-- The occurrences of a frame give its share just when no stack has it twice. -/
theorem count_div_eq_share_iff {frame : ℕ × ℕ} (hmem : frame ∈ stackRecord.flatten) :
    (stackRecord.flatten.count frame : ℚ) / stackRecord.length = share stackRecord frame ↔
      ∀ stack ∈ stackRecord, stack.count frame ≤ 1 := by
  obtain ⟨stack, hstack, -⟩ := List.mem_flatten.mp hmem
  have hne : (stackRecord.length : ℚ) ≠ 0 :=
    Nat.cast_ne_zero.mpr (List.length_pos_of_mem hstack).ne'
  rw [share, div_left_inj' hne, Nat.cast_inj, Histogram.count_flatten_eq_iff]

theorem mem_flatten_of_share {frame : ℕ × ℕ} (h : 15 / 100 < share stackRecord frame) :
    frame ∈ stackRecord.flatten := by
  by_contra hno
  have hzero : stackRecord.countP (fun stack => frame ∈ stack) = 0 := by
    rw [List.countP_eq_zero]
    intro stack hstack hmem
    exact hno (List.mem_flatten.mpr ⟨stack, hstack, by simpa using hmem⟩)
  rw [share, hzero, Nat.cast_zero, zero_div] at h
  norm_num at h

theorem faithful_iff (aotIdx : ℕ → ℕ) {lastFuncIdx : List ℕ}
    (h : IsLastFuncIdx (countRecord stackRecord) lastFuncIdx) {lines : List PgoLine}
    (hlines : lines = pgoLines aotIdx (countRecord stackRecord) stackRecord.length lastFuncIdx) :
    Faithful aotIdx stackRecord lines (pgoFile lines) ↔
      ∀ stack ∈ stackRecord, ∀ frame ∈ stack, Innermost stackRecord frame.1 →
        stack.count frame ≤ 1 := by
  have hmemlines := mem_pgoLines h aotIdx stackRecord.length
  rw [← hlines] at hmemlines
  constructor
  · intro hfaithful stack hstack frame hframe hinner
    have hmem : frame ∈ stackRecord.flatten := List.mem_flatten_of_mem hstack hframe
    have hfreq := (hfaithful.freq _ ((hmemlines _).mpr ⟨frame.1, frame.2, hinner, hmem, rfl⟩)).1
    exact (count_div_eq_share_iff hmem).mp hfreq stack hstack
  · intro honce
    -- the frequency of a line is the share of its frame
    have hfreq : ∀ f ip, Innermost stackRecord f → (f, ip) ∈ stackRecord.flatten →
        (stackRecord.flatten.count (f, ip) : ℚ) / stackRecord.length = share stackRecord (f, ip) := by
      intro f ip hf hmem
      rw [count_div_eq_share_iff hmem]
      intro stack hstack
      by_cases hin : (f, ip) ∈ stack
      · exact honce stack hstack (f, ip) hin hf
      · rw [List.count_eq_zero.mpr hin]
        exact Nat.zero_le 1
    refine ⟨?_, ?_, rfl⟩
    · intro l hl
      obtain ⟨f, ip, hf, hmem, rfl⟩ := (hmemlines l).mp hl
      exact ⟨hfreq f ip hf hmem, (hfreq f ip hf hmem).trans_le (share_le_one stackRecord (f, ip))⟩
    · intro idx ip
      simp only [pgoFile, List.mem_map, List.mem_filter]
      constructor
      · rintro ⟨l, ⟨hl, hpgo⟩, hpair⟩
        obtain ⟨f, ip', hf, hmem, rfl⟩ := (hmemlines l).mp hl
        obtain ⟨hidx, hip⟩ := Prod.mk.inj hpair
        obtain rfl : ip' = ip := hip
        refine ⟨f, hidx, hf, ?_⟩
        rw [← hfreq f ip' hf hmem]
        exact of_decide_eq_true hpgo
      · rintro ⟨f, hidx, hf, hshare⟩
        have hmem := mem_flatten_of_share hshare
        refine ⟨_, ⟨(hmemlines _).mpr ⟨f, ip, hf, hmem, rfl⟩, ?_⟩, Prod.ext hidx rfl⟩
        rw [← hfreq f ip hf hmem] at hshare
        exact decide_eq_true hshare

/-- The report and the file are those of the shares just when no function that has been
innermost has one of its positions twice in a stack. -/
theorem pgo_faithful_iff (aotIdx : ℕ → ℕ) (samples : List (List AotFrame)) (lastFuncIdx : List ℕ)
    (h : IsLastFuncIdx (countRecord (samples.foldl unwind [])) lastFuncIdx) :
    let stackRecord := samples.foldl unwind []
    let lines := pgoLines aotIdx (countRecord stackRecord) stackRecord.length lastFuncIdx
    Faithful aotIdx stackRecord lines (pgoFile lines) ↔
      ∀ stack ∈ stackRecord, ∀ frame ∈ stack, Innermost stackRecord frame.1 →
        stack.count frame ≤ 1 :=
  faithful_iff aotIdx h rfl

/-- Function 5 is on top of both samples, at another position than below. -/
theorem pgo_faithful_iff_once :
    let stackRecord := [[⟨5, 8⟩, ⟨5, 4⟩], [⟨5, 8⟩]].foldl unwind []
    let lines := pgoLines id (countRecord stackRecord) stackRecord.length [5]
    Faithful id stackRecord lines (pgoFile lines) := by
  refine (pgo_faithful_iff id [[⟨5, 8⟩, ⟨5, 4⟩], [⟨5, 8⟩]] [5] ?_).mpr ?_
  · exact ⟨by decide, List.pairwise_singleton _ _⟩
  · intro stack hstack frame hframe _
    have honce : ∀ stack ∈ [[(5, 8), (5, 4)], [(5, 8)]], ∀ frame ∈ stack,
        stack.count frame ≤ 1 := by decide
    exact honce stack hstack frame hframe

/-- A function that calls itself from one position has a frequency of 2 in its only sample. -/
theorem recursion_counts_twice :
    ¬∀ (aotIdx : ℕ → ℕ) (samples : List (List AotFrame)) (lastFuncIdx : List ℕ),
      IsLastFuncIdx (countRecord (samples.foldl unwind [])) lastFuncIdx →
      let stackRecord := samples.foldl unwind []
      let lines := pgoLines aotIdx (countRecord stackRecord) stackRecord.length lastFuncIdx
      Faithful aotIdx stackRecord lines (pgoFile lines) := by
  intro hclaim
  have hidx : IsLastFuncIdx (countRecord ([[⟨5, 4⟩, ⟨5, 4⟩]].foldl unwind [])) [5] :=
    ⟨by decide, List.pairwise_singleton _ _⟩
  have honce := (faithful_iff id hidx rfl).mp (hclaim id [[⟨5, 4⟩, ⟨5, 4⟩]] [5] hidx)
  have hinner : Innermost ([[⟨5, 4⟩, ⟨5, 4⟩]].foldl unwind []) 5 :=
    ⟨_, List.mem_cons_self, 4, rfl⟩
  have htwice := honce [(5, 4), (5, 4)] List.mem_cons_self (5, 4) List.mem_cons_self hinner
  exact absurd htwice (by decide)

end MVVM.Profile
