import MVVM.Run
import MVVM.Text
import MVVM.Gateway.Packet
import MVVM.Patch.Code

/-!
# The breakpoints of a listing (wamr_mvvm.cpp:19-113)

The offsets of the breakpoints are taken from a disassembly of the object file. The code is
looked at before the offset is compared with its size, and at different places on the two
architectures; the functions that patch it reach three bytes to the left or to the right.
-/

namespace MVVM.Patch

open Text (Str find)
open Gateway (digitValue)

def isspace (c : Char) : Bool := c.toNat = 32 || (9 ≤ c.toNat && c.toNat ≤ 13)

/-- `std::stoul(addr, nullptr, 16)`; `none` when it throws. -/
def stoul16 (addr : Str) : Option ℕ :=
  let s := addr.dropWhile isspace
  let negative := s.head? = some '-'
  let s := if s.head? = some '-' ∨ s.head? = some '+' then s.tail else s
  let s := match s with
    | '0' :: x :: d :: rest =>
      if (x = 'x' ∨ x = 'X') ∧ digitValue d < 16 then d :: rest else s
    | _ => s
  let digits := s.takeWhile fun d => digitValue d < 16
  let n := digits.foldl (fun n d => 16 * n + digitValue d) 0
  if digits = [] ∨ 2 ^ 64 ≤ n then none
  else some (if negative then (2 ^ 64 - n) % 2 ^ 64 else n)

/-- The text in front of the first colon of a line. -/
def addressOf (line : Str) : Option Str := (find [':'] line).map fun pos => line.take pos

inductive Fault where
  | thrown
  | outside
  deriving DecidableEq, Repr

/-- Where the code is looked at for a breakpoint, and the byte that has to be there. -/
def testIndex : Arch → ℕ → ℕ
  | .x86_64, offset => offset
  | .aarch64, offset => ahead offset 3

def trap : Arch → UInt8
  | .x86_64 => 0xcc
  | .aarch64 => 0xd4

/-- The loop over the offsets. -/
def scanListing (arch : Arch) (c : Code) : List Str → List ℕ → Except Fault (Bool × List ℕ)
  | [], int3Addr => .ok (true, int3Addr)
  | addr :: rest, int3Addr =>
    match stoul16 addr with
    | none => .error .thrown
    | some offset =>
      match c.read (testIndex arch offset) with
      | none => .error .outside
      | some b =>
        if b ≠ trap arch then .ok (false, int3Addr)
        else scanListing arch c rest
          (if offset < c.bytes.length then int3Addr ++ [offset] else int3Addr)

/-- `get_int3_addr`, with what it returns and what is in `int3_addr` then. There is no listing
when the object file does not exist or the disassembler cannot be started. -/
def getInt3Addr (arch : Arch) (isAot : Bool) (c : Code) (listing : Option (List Str)) :
    Except Fault (Bool × List ℕ) :=
  if isAot = false then .ok (true, [])
  else
    match listing with
    | none => .ok (false, [])
    | some lines => scanListing arch c (lines.filterMap addressOf) []

/-- Nothing outside of the code is touched, neither by `get_int3_addr` nor, when it has
returned true, by any calls of the functions that patch the code. -/
structure Safe (arch : Arch) (isAot : Bool) (c : Code) (listing : Option (List Str)) : Prop where
  lookup : getInt3Addr arch isAot c listing ≠ .error .outside
  patches : ∀ int3Addr, getInt3Addr arch isAot c listing = .ok (true, int3Addr) →
    ∀ calls, Run.exec (patchStep ⟨arch, isAot, int3Addr⟩) c calls ≠ none

/-- An offset that is a number and has a breakpoint. -/
def Passes (arch : Arch) (c : Code) (addr : Str) : Prop :=
  ∃ o, stoul16 addr = some o ∧ c.read (testIndex arch o) = some (trap arch)

/-- All that is looked at until the first offset without a breakpoint is inside of the
code. -/
def Tested (arch : Arch) (c : Code) (addrs : List Str) : Prop :=
  ∀ before addr after, addrs = before ++ addr :: after → (∀ a ∈ before, Passes arch c a) →
    ∀ o, stoul16 addr = some o → testIndex arch o < c.bytes.length

/-- Also, if all offsets have a breakpoint, none of those inside of the code is below 3. -/
structure OffsetsFit (arch : Arch) (c : Code) (addrs : List Str) : Prop where
  tested : Tested arch c addrs
  room : (∀ a ∈ addrs, Passes arch c a) →
    ∀ a ∈ addrs, ∀ o, stoul16 a = some o → o < c.bytes.length → 3 ≤ o

example : stoul16 " 0040a1\t".toList = some 0x40a1 := by decide

/-! ### The loop over the offsets -/

variable {arch : Arch} {c c' : Code} {addrs lines : List Str} {sites out : List ℕ} {o : ℕ}

/-- The offsets that are recorded when all pass. -/
def recorded (c : Code) (addrs : List Str) : List ℕ :=
  (addrs.filterMap stoul16).filter fun o => o < c.bytes.length

theorem tested_cons {addr : Str} : Tested arch c (addr :: addrs) ↔
    (∀ o, stoul16 addr = some o → testIndex arch o < c.bytes.length) ∧
      (Passes arch c addr → Tested arch c addrs) := by
  constructor
  · intro h
    refine ⟨h [] addr addrs rfl fun a ha => absurd ha List.not_mem_nil,
      fun hpass before a after hsplit hbefore => ?_⟩
    exact h (addr :: before) a after (congrArg (List.cons addr) hsplit)
      (List.forall_mem_cons.mpr ⟨hpass, hbefore⟩)
  · intro ⟨hhead, htail⟩ before a after hsplit hbefore
    cases before with
    | nil =>
      obtain ⟨rfl, -⟩ := List.cons.inj hsplit
      exact hhead
    | cons a' before =>
      obtain ⟨rfl, hrest⟩ := List.cons.inj hsplit
      rw [List.forall_mem_cons] at hbefore
      exact htail hbefore.1 before a after hrest hbefore.2

theorem passes_iff {addr : Str} (h : stoul16 addr = some o) :
    Passes arch c addr ↔ c.read (testIndex arch o) = some (trap arch) := by
  simp only [Passes, h, Option.some.injEq, exists_eq_left']

theorem not_passes {addr : Str} (h : stoul16 addr = none) : ¬Passes arch c addr := by
  rintro ⟨o, ho, -⟩
  rw [h] at ho
  cases ho

theorem scanListing_outside_iff :
    scanListing arch c addrs sites ≠ .error .outside ↔ Tested arch c addrs := by
  induction addrs generalizing sites with
  | nil =>
    refine iff_of_true (fun h => by cases h) fun before addr after hsplit => ?_
    exact absurd hsplit (by simp)
  | cons addr rest ih =>
    rw [tested_cons, scanListing]
    cases hnum : stoul16 addr with
    | none =>
      refine iff_of_true (fun h => by cases h) ⟨fun o ho => ?_, fun hpass => ?_⟩
      · cases ho
      · exact absurd hpass (not_passes hnum)
    | some o =>
      have hhead : (∀ o', some o = some o' → testIndex arch o' < c.bytes.length) ↔
          testIndex arch o < c.bytes.length := by
        simp only [Option.some.injEq, forall_eq']
      rw [hhead, passes_iff hnum, ← read_isSome_iff]
      simp only
      cases hread : c.read (testIndex arch o) with
      | none => exact iff_of_false (fun h => h rfl) fun ⟨⟨b, hb⟩, _⟩ => by cases hb
      | some b =>
        rw [and_iff_right ⟨b, rfl⟩]
        by_cases hb : b = trap arch
        · simp only [hb, ne_eq, not_true_eq_false, if_false, forall_true_left]
          exact ih
        · simp only [ne_eq, hb, not_false_eq_true, if_true]
          refine iff_of_true (fun h => by cases h) fun hpass => ?_
          exact absurd (Option.some.inj hpass) hb

theorem scanListing_true_iff :
    scanListing arch c addrs sites = .ok (true, out) ↔
      (∀ a ∈ addrs, Passes arch c a) ∧ out = sites ++ recorded c addrs := by
  induction addrs generalizing sites with
  | nil => simp [scanListing, recorded, eq_comm]
  | cons addr rest ih =>
    rw [List.forall_mem_cons, scanListing]
    cases hnum : stoul16 addr with
    | none => exact iff_of_false (fun h => by cases h) fun ⟨⟨hpass, _⟩, _⟩ => not_passes hnum hpass
    | some o =>
      rw [passes_iff hnum]
      simp only
      cases hread : c.read (testIndex arch o) with
      | none => exact iff_of_false (fun h => by cases h) fun ⟨⟨h, _⟩, _⟩ => by cases h
      | some b =>
        by_cases hb : b = trap arch
        · simp only [hb, ne_eq, not_true_eq_false, if_false, true_and]
          rw [ih]
          by_cases hlt : o < c.bytes.length <;> simp [recorded, hnum, hlt]
        · simp only [ne_eq, hb, not_false_eq_true, if_true]
          refine iff_of_false (fun h => by cases h) fun ⟨⟨h, _⟩, _⟩ => ?_
          exact hb (Option.some.inj h)

/-! ### The calls that patch the code -/

/-- Where an instruction and a fence before it are inside of the code. -/
structure Reach (instr : ℕ) (c : Code) (o : ℕ) : Prop where
  room : 3 ≤ o
  inside : o + instr ≤ c.bytes.length

def instrSize : Arch → ℕ
  | .x86_64 => 1
  | .aarch64 => 4

theorem patchAt_defined {instr : List (ℕ × UInt8)}
    (h : ∀ w ∈ instr, o + w.1 < c.bytes.length) :
    ∃ c', patchAt instr c o = some c' ∧ c'.bytes.length = c.bytes.length := by
  rw [patchAt, Run.foldlM_eq_exec]
  refine Run.exec_of_history (fun _ (c' : Code) => c'.bytes.length = c.bytes.length) (h := [])
    (fun _ c₁ w hw hlen => ?_) rfl
  have hlt := h w hw
  have hsize := c.size
  have hat : ahead o w.1 = o + w.1 := ahead_of_lt (by omega)
  obtain ⟨c', hwrite, -⟩ := write_of_lt (hlen.symm ▸ hlt) w.2
  refine ⟨c', ?_, (length_write hwrite).trans hlen⟩
  rw [hat]
  exact hwrite

theorem removeFence_defined (h3 : 3 ≤ o) (hlen : o ≤ c.bytes.length) :
    ∃ c', removeFence c o = some c' ∧ c'.bytes.length = c.bytes.length := by
  by_cases hc : HasFence c o
  · obtain ⟨c', hrun, hlen', -⟩ := removeFence_of_fence h3 hlen hc
    exact ⟨c', hrun, hlen'⟩
  · exact ⟨c, removeFence_of_not h3 hlen hc, rfl⟩

/-- Below 3 the first byte of a fence would be in front of the code. -/
theorem removeFence_room (h : removeFence c o = some c') : 3 ≤ o := by
  by_contra hlt
  have hout : 2 ^ 32 ≤ behind o 3 := behind_of_lt (by omega) (by decide)
  have hsize := c.size
  have hread : c.read (behind o 3) = none := List.getElem?_eq_none (by omega)
  rw [removeFence, hread] at h
  cases h

theorem removeFences_room (h : sites.foldlM removeFence c = some c') : ∀ o ∈ sites, 3 ≤ o := by
  induction sites generalizing c with
  | nil => exact fun o ho => absurd ho List.not_mem_nil
  | cons o sites ih =>
    rw [List.foldlM_cons] at h
    obtain ⟨c₁, hone, hrest⟩ := Option.bind_eq_some_iff.mp h
    exact List.forall_mem_cons.mpr ⟨removeFence_room hone, ih hrest⟩

theorem foldlM_defined {body : Code → ℕ → Option Code} {instr : ℕ}
    (hbody : ∀ c o, Reach instr c o → ∃ c', body c o = some c' ∧ c'.bytes.length = c.bytes.length)
    (h : ∀ o ∈ sites, Reach instr c o) :
    ∃ c', sites.foldlM body c = some c' ∧ c'.bytes.length = c.bytes.length := by
  rw [Run.foldlM_eq_exec]
  refine Run.exec_of_history (fun _ (c' : Code) => c'.bytes.length = c.bytes.length) (h := [])
    (fun _ c₁ o ho hlen => ?_) rfl
  obtain ⟨c', hrun, hlen'⟩ := hbody c₁ o ⟨(h o ho).room, hlen ▸ (h o ho).inside⟩
  exact ⟨c', hrun, hlen'.trans hlen⟩

theorem patchStep_defined (isAot : Bool) (h : ∀ o ∈ sites, Reach (instrSize arch) c o)
    (call : PatchCall) :
    ∃ c', patchStep ⟨arch, isAot, sites⟩ c call = some c' ∧
      c'.bytes.length = c.bytes.length := by
  have hinstr : ∀ instr : List (ℕ × UInt8), (∀ w ∈ instr, w.1 < instrSize arch) →
      ∃ c', sites.foldlM (patchAt instr) c = some c' ∧ c'.bytes.length = c.bytes.length := by
    intro instr hw
    refine foldlM_defined (fun c o ho => patchAt_defined fun w hin => ?_) h
    have hin := hw w hin
    have hinside := ho.inside
    omega
  cases isAot with
  | false =>
    cases call with
    | replaceInt3WithNop => exact ⟨c, rfl, rfl⟩
    | replaceNopWithInt3 => exact ⟨c, rfl, rfl⟩
    | replaceMfenceWithNop => exact ⟨c, rfl, rfl⟩
  | true =>
    cases call with
    | replaceInt3WithNop => exact hinstr (nop arch) (by cases arch <;> decide)
    | replaceNopWithInt3 => exact hinstr (int3 arch) (by cases arch <;> decide)
    | replaceMfenceWithNop =>
      refine foldlM_defined (fun c o ho => removeFence_defined ho.room ?_) h
      have hinside := ho.inside
      omega

theorem patches_defined (isAot : Bool) (h : ∀ o ∈ sites, Reach (instrSize arch) c o)
    (calls : List PatchCall) : Run.exec (patchStep ⟨arch, isAot, sites⟩) c calls ≠ none := by
  have hrun : ∃ c', Run.exec (patchStep ⟨arch, isAot, sites⟩) c calls = some c' ∧
      c'.bytes.length = c.bytes.length := by
    refine Run.exec_of_history (fun _ (c' : Code) => c'.bytes.length = c.bytes.length) (h := [])
      (fun _ c₁ call _ hlen => ?_) rfl
    obtain ⟨c', hstep, hlen'⟩ := patchStep_defined (c := c₁) isAot
      (fun o ho => ⟨(h o ho).room, hlen ▸ (h o ho).inside⟩) call
    exact ⟨c', hstep, hlen'.trans hlen⟩
  obtain ⟨c', hrun, -⟩ := hrun
  exact hrun ▸ Option.some_ne_none c'

/-! ### The listing -/

theorem mem_recorded : o ∈ recorded c addrs ↔
    (∃ a ∈ addrs, stoul16 a = some o) ∧ o < c.bytes.length := by
  simp only [recorded, List.mem_filter, List.mem_filterMap, decide_eq_true_eq]

/-- A breakpoint inside of the code that passes the test is whole. -/
theorem recorded_inside (h : ∀ a ∈ addrs, Passes arch c a) (ho : o ∈ recorded c addrs) :
    o + instrSize arch ≤ c.bytes.length := by
  obtain ⟨⟨a, ha, hnum⟩, hlt⟩ := mem_recorded.mp ho
  have hsize := c.size
  have hin : testIndex arch o < c.bytes.length :=
    read_isSome_iff.mp ⟨_, (passes_iff hnum).mp (h a ha)⟩
  cases arch with
  | x86_64 => exact hin
  | aarch64 =>
    rw [testIndex, ahead_of_lt (by omega)] at hin
    exact hin

theorem safe_scan_iff : Safe arch true c (some lines) ↔
    OffsetsFit arch c (lines.filterMap addressOf) := by
  constructor
  · intro h
    refine ⟨scanListing_outside_iff.mp h.lookup, fun hpass a ha o ho hlt => ?_⟩
    have hall : scanListing arch c (lines.filterMap addressOf) [] =
        .ok (true, recorded c (lines.filterMap addressOf)) := scanListing_true_iff.mpr ⟨hpass, rfl⟩
    have hrun := h.patches _ hall [.replaceMfenceWithNop]
    obtain ⟨c', hc'⟩ := Option.ne_none_iff_exists'.mp hrun
    obtain ⟨d, hd, -⟩ := Run.exec_cons_some hc'
    exact removeFences_room hd o (mem_recorded.mpr ⟨⟨a, ha, ho⟩, hlt⟩)
  · intro h
    refine ⟨scanListing_outside_iff.mpr h.tested, fun out hout calls => ?_⟩
    obtain ⟨hpass, rfl⟩ := scanListing_true_iff.mp hout
    refine patches_defined true (fun o ho => ⟨?_, recorded_inside hpass ho⟩) calls
    obtain ⟨⟨a, ha, hnum⟩, hlt⟩ := mem_recorded.mp ho
    exact h.room hpass a ha o hnum hlt

/-- Nothing outside of the code is touched just when what is looked at in an AoT module is
inside of the code and every breakpoint that is patched has three bytes before it. -/
theorem patching_safe_iff (arch : Arch) (isAot : Bool) (c : Code) (listing : Option (List Str)) :
    Safe arch isAot c listing ↔
      (isAot = true → ∀ lines, listing = some lines →
        OffsetsFit arch c (lines.filterMap addressOf)) := by
  cases isAot with
  | false =>
    refine iff_of_true ⟨(fun h => by cases h), fun out hout calls => ?_⟩ fun h => by cases h
    obtain rfl : [] = out := (Prod.mk.inj (Except.ok.inj hout)).2
    exact patches_defined false (fun o ho => absurd ho List.not_mem_nil) calls
  | true =>
    rw [forall_prop_of_true rfl]
    cases listing with
    | none =>
      refine iff_of_true ⟨(fun h => by cases h), fun out hout => ?_⟩ fun lines h => by cases h
      cases (Prod.mk.inj (Except.ok.inj hout)).1
    | some lines =>
      rw [safe_scan_iff]
      exact ⟨fun h _ heq => Option.some.inj heq ▸ h, fun h => h lines rfl⟩

/-- The code is one byte long and is looked at for a breakpoint at 5. -/
theorem listing_outside :
    ¬∀ (arch : Arch) (isAot : Bool) (c : Code) (listing : Option (List Str)),
      Safe arch isAot c listing := by
  intro hclaim
  have hsafe := hclaim .x86_64 true ⟨[0xcc], by decide⟩ (some [" 5:	cc	int3".toList])
  exact hsafe.lookup (by decide)

end MVVM.Patch
