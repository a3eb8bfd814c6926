import MVVM.Interp.Restored
import Mathlib.Data.DFinsupp.WellFounded

/-!
# When the scan ends

The position moves forward except at `ELSE`, which goes to the target of the innermost
label. Behind the count of a `br_table` the scan takes the labels for instructions, so that
an `ELSE` can be read in a loop, and the target of a loop is its beginning.
-/

namespace MVVM.Interp

/-- `wasm_loader_find_block_addr` gives the address of an `end` behind the position, and
between the two that of an `else`. -/
structure FindsEnds (f : FuncCode) : Prop where
  ends : ∀ start label elseAddr endAddr,
    f.findBlockAddr start label = some (elseAddr, endAddr) →
      start ≤ endAddr ∧ f.code[endAddr]? = some 0x0b
  elses : ∀ start label elseAddr endAddr,
    f.findBlockAddr start label = some (some elseAddr, endAddr) →
      start ≤ elseAddr ∧ elseAddr < endAddr

/-- An `ELSE` is read under a label whose target is where it begins. -/
def ScanState.JumpsBack (f : FuncCode) (s : ScanState) : Prop :=
  f.code[s.ip]? = some 0x05 ∧ ∃ label ∈ s.csp.head?, label.targetAddr = label.beginAddr

/-- The immediates that the instruction skips end in the code, and the index of a local is
one of the function. -/
def Case.Readable (f : FuncCode) (ip : ℕ) : Case → Prop
  | .plain imms _ => imms.foldlM (skipImm f.code) ip ≠ .error .undefined
  | .localIndex _ => ∀ idx next, f.readU32 ip = .ok (idx, next) → idx < f.localTypes.length
  | .misc => f.skipMisc ip ≠ .error .undefined
  | _ => True

def ScanState.Readable (n : Internal) (f : FuncCode) (s : ScanState) : Prop :=
  ∀ opcode ∈ f.code[s.ip]?, (caseOf n opcode).Readable f (s.ip + 1)

/-- The target of a label is where it begins, or an `end`. -/
def BranchBlock.Lands (f : FuncCode) (b : BranchBlock) : Prop :=
  b.targetAddr = b.beginAddr ∨ b.beginAddr ≤ b.targetAddr ∧ f.code[b.targetAddr]? = some 0x0b

/-- What a step does to the position and to the labels. -/
inductive Moves (f : FuncCode) (s s' : ScanState) : Prop
  | forward (hip : s.ip < s'.ip) (hcsp : s'.csp = s.csp)
  | enters (b : BranchBlock) (hcsp : s'.csp = b :: s.csp) (hbegin : s.ip < b.beginAddr)
      (hip : b.beginAddr ≤ s'.ip) (hlands : b.Lands f)
      (hloop : b.targetAddr = b.beginAddr → s'.ip = b.beginAddr)
  | leaves (b c : BranchBlock) (csp : List BranchBlock) (hcsp : s.csp = b :: c :: csp)
      (hip : s'.ip = s.ip + 1) (hcsp' : s'.csp = c :: csp)
  | jumps (b : BranchBlock) (csp : List BranchBlock) (hop : f.code[s.ip]? = some 0x05)
      (hcsp : s.csp = b :: csp) (heq : s' = { s with ip := b.targetAddr })

variable {n : Internal} {f : FuncCode} {t p q : ℕ} {s s' : ScanState} {code : List UInt8}

/-! ### Immediates -/

theorem ok_of_bind {ε α β : Type} {x : Except ε α} {g : α → Except ε β} {b : β}
    (h : x >>= g = .ok b) : ∃ a, x = .ok a ∧ g a = .ok b := by
  cases x with
  | error e => cases h
  | ok a => exact ⟨a, rfl, h⟩

theorem lt_of_skipLeb (h : skipLeb code p = .ok q) : p < q := by
  rw [skipLeb] at h
  split at h
  · obtain rfl := Except.ok.inj h
    omega
  · cases h

theorem lt_of_readLebLoop {maxbits bcnt k : ℕ} {bytes : List UInt8} {result r : UInt64}
    {last : UInt8} (h : readLebLoop maxbits bytes result bcnt = some (r, last, k)) : bcnt < k := by
  induction bytes generalizing result bcnt with
  | nil => cases h
  | cons byte bytes ih =>
    rw [readLebLoop] at h
    split at h
    · cases h
    · dsimp only at h
      split at h
      · cases h
        exact Nat.lt_succ_self _
      · exact Nat.lt_of_succ_lt (ih h)

theorem lt_of_readLeb {maxbits : ℕ} {sign : Bool} {r : UInt64}
    (h : readLeb maxbits sign code p = some (r, q)) : p < q := by
  rw [readLeb] at h
  cases hloop : readLebLoop maxbits (code.drop p) 0 0 with
  | none =>
    rw [hloop] at h
    cases h
  | some found =>
    obtain ⟨result, byte, bcnt⟩ := found
    have hpos := lt_of_readLebLoop hloop
    have hq : q = p + bcnt := by
      rw [hloop] at h
      grind
    omega

theorem lt_of_readU32 {r : ℕ} (h : f.readU32 p = .ok (r, q)) : p < q := by
  rw [FuncCode.readU32] at h
  split at h
  · next hread =>
    cases h
    exact lt_of_readLeb hread
  · cases h

theorem readU32_defined (p : ℕ) : f.readU32 p ≠ .error .undefined := by
  rw [FuncCode.readU32]
  split
  · simp
  · simp

theorem le_of_skipImm {imm : Imm} (h : skipImm code p imm = .ok q) : p ≤ q := by
  cases imm with
  | leb => exact Nat.le_of_lt (lt_of_skipLeb h)
  | bytes k =>
    cases h
    exact Nat.le_add_right _ k
  | checkedByte =>
    rw [skipImm] at h
    split at h
    · cases h
      exact Nat.le_succ p
    · cases h

theorem le_of_skipImms {imms : List Imm} (h : imms.foldlM (skipImm code) p = .ok q) : p ≤ q := by
  induction imms generalizing p with
  | nil =>
    cases h
    exact Nat.le_refl _
  | cons imm imms ih =>
    obtain ⟨m, hskip, hrest⟩ := ok_of_bind h
    exact Nat.le_trans (le_of_skipImm hskip) (ih hrest)

theorem lt_of_skipMisc (h : f.skipMisc p = .ok q) : p < q := by
  obtain ⟨⟨opcode1, m⟩, hread, h⟩ := ok_of_bind h
  have hm := lt_of_readU32 hread
  dsimp only at h
  split_ifs at h
  · cases h
    exact hm
  -- MEMORY_INIT
  · obtain ⟨m', hskip, h⟩ := ok_of_bind h
    have := lt_of_skipLeb hskip
    cases h
    omega
  -- DATA_DROP
  · exact Nat.lt_trans hm (lt_of_skipLeb h)
  -- MEMORY_COPY and MEMORY_FILL
  · cases h
    omega
  · cases h
    omega

/-! ### What a step does -/

theorem byteAt_eq_ok {opcode : UInt8} : f.byteAt p = .ok opcode ↔ f.code[p]? = some opcode := by
  rw [FuncCode.byteAt]
  cases f.code[p]? with
  | none => simp
  | some b => simp

theorem find_of_findBlock {label : LabelType} {addrs : Option ℕ × ℕ}
    (h : f.findBlock p label = .ok addrs) : f.findBlockAddr p label = some addrs := by
  rw [FuncCode.findBlock] at h
  split at h
  · cases h
    assumption
  · cases h

theorem eq_else_of_caseOf {opcode : UInt8} (h : caseOf n opcode = .elseCase) : opcode = 0x05 := by
  have hwasm : ∀ e ∈ wasmCases, e.2.2 = .elseCase → e.1 = 5 ∧ e.2.1 = 5 := by decide
  have hinternal : ∀ e ∈ internalCases n, e.2 ≠ .elseCase := by simp [internalCases]
  rw [caseOf] at h
  split at h
  · next e hfind =>
    obtain ⟨hlow, hhigh⟩ := hwasm e (List.mem_of_find?_eq_some hfind) h
    have hrange := List.find?_some hfind
    simp only [hlow, hhigh, Bool.and_eq_true, decide_eq_true_eq] at hrange
    exact UInt8.toNat.inj (Nat.le_antisymm hrange.2 hrange.1)
  · split at h
    · next e hfind => exact absurd h (hinternal e (List.mem_of_find?_eq_some hfind))
    · cases h

theorem scanStep_moves (hfinds : FindsEnds f) (h : scanStep n f t s = .ok s') : Moves f s s' := by
  rw [scanStep] at h
  obtain ⟨opcode, hop, h⟩ := ok_of_bind h
  dsimp only at h
  have hnext : s.ip < s.ip + 1 + 1 := by omega
  cases hcase : caseOf n opcode with
  | plain imms cells =>
    rw [hcase] at h
    obtain ⟨ip, himms, h⟩ := ok_of_bind h
    cases h
    exact .forward (le_of_skipImms himms) rfl
  | block =>
    rw [hcase] at h
    obtain ⟨valueType, -, h⟩ := ok_of_bind h
    obtain ⟨⟨elseAddr, endAddr⟩, hfind, h⟩ := ok_of_bind h
    cases h
    obtain ⟨hle, hend⟩ := hfinds.ends _ _ _ _ (find_of_findBlock hfind)
    refine .enters _ rfl hnext (Nat.le_refl _) (.inr ⟨hle, hend⟩)
      fun _ => rfl
  | loop =>
    rw [hcase] at h
    obtain ⟨valueType, -, h⟩ := ok_of_bind h
    cases h
    exact .enters _ rfl hnext (Nat.le_refl _) (.inl rfl)
      fun _ => rfl
  | ifCase =>
    rw [hcase] at h
    obtain ⟨valueType, -, h⟩ := ok_of_bind h
    obtain ⟨⟨elseAddr, endAddr⟩, hfind, h⟩ := ok_of_bind h
    have hfind := find_of_findBlock hfind
    obtain ⟨hle, hend⟩ := hfinds.ends _ _ _ _ hfind
    cases elseAddr with
    | none =>
      cases h
      exact .forward (show s.ip < endAddr + 1 by omega) rfl
    | some elseAddr =>
      obtain ⟨hstart, hbefore⟩ := hfinds.elses _ _ _ _ hfind
      dsimp only at h
      split at h
      · cases h
        exact .enters _ rfl hnext (Nat.le_refl _)
          (.inr ⟨hle, hend⟩) fun _ => rfl
      · cases h
        refine .enters _ rfl hnext (Nat.le_succ_of_le hstart)
          (.inr ⟨hle, hend⟩) fun heq => ?_
        have heq : endAddr = s.ip + 1 + 1 := heq
        omega
  | elseCase =>
    rw [hcase] at h
    obtain rfl := eq_else_of_caseOf hcase
    dsimp only at h
    split at h
    · next b csp hcsp =>
      cases h
      exact .jumps b csp (byteAt_eq_ok.mp hop) hcsp rfl
    · cases h
  | endCase =>
    rw [hcase] at h
    dsimp only at h
    split at h
    · next b c csp hcsp =>
      cases h
      exact .leaves b c csp hcsp rfl rfl
    · cases h
  | brTable =>
    rw [hcase] at h
    obtain ⟨⟨count, ip⟩, hread, h⟩ := ok_of_bind h
    cases h
    exact .forward (Nat.lt_of_succ_lt (lt_of_readU32 hread)) rfl
  | localIndex sign =>
    rw [hcase] at h
    obtain ⟨⟨idx, ip⟩, hread, h⟩ := ok_of_bind h
    dsimp only at h
    split at h
    · obtain ⟨cells, -, h⟩ := ok_of_bind h
      cases h
      exact .forward (Nat.lt_of_succ_lt (lt_of_readU32 hread)) rfl
    · cases h
  | localFast sign =>
    rw [hcase] at h
    obtain ⟨offset, -, h⟩ := ok_of_bind h
    cases h
    exact .forward hnext rfl
  | misc =>
    rw [hcase] at h
    obtain ⟨ip, hmisc, h⟩ := ok_of_bind h
    cases h
    exact .forward (Nat.lt_of_succ_lt (lt_of_skipMisc hmisc)) rfl
  | fault =>
    rw [hcase] at h
    cases h

/-! ### Undefined reads -/

theorem byteAt_next {opcode : UInt8} (hend : f.code.getLast? = some 0x0b)
    (hop : f.code[p]? = some opcode) (hcase : caseOf n opcode ≠ .endCase) :
    ∃ b, f.byteAt (p + 1) = .ok b := by
  obtain ⟨hp, -⟩ := List.getElem?_eq_some_iff.mp hop
  by_cases hlast : p + 1 = f.code.length
  · rw [List.getLast?_eq_getElem?, ← hlast, Nat.add_sub_cancel, hop] at hend
    obtain rfl := Option.some.inj hend
    exact absurd rfl hcase
  · exact ⟨_, byteAt_eq_ok.mpr (List.getElem?_eq_getElem (by omega))⟩

theorem findBlock_defined (p : ℕ) (label : LabelType) :
    f.findBlock p label ≠ .error .undefined := by
  rw [FuncCode.findBlock]
  split
  · simp
  · simp

theorem localTypeCells_defined (vt : UInt8) : localTypeCells vt ≠ .error .undefined := by
  rw [localTypeCells]
  split_ifs
  · simp
  · simp
  · simp

theorem scanStep_undefined_iff (hend : f.code.getLast? = some 0x0b) (hcsp : s.csp ≠ [])
    {opcode : UInt8} (hop : f.code[s.ip]? = some opcode) :
    scanStep n f t s = .error .undefined ↔ ¬(caseOf n opcode).Readable f (s.ip + 1) := by
  have hnext := byteAt_next (n := n) hend hop
  rw [scanStep, byteAt_eq_ok.mpr hop]
  simp only [bind, Except.bind]
  cases hcase : caseOf n opcode with
  | plain imms cells =>
    cases hx : imms.foldlM (skipImm f.code) (s.ip + 1) with
    | error e => simp [Case.Readable, hx]
    | ok ip => simp [Case.Readable, hx]
  | block =>
    obtain ⟨valueType, hb⟩ := hnext (by simp [hcase])
    have hfind := findBlock_defined (f := f) (s.ip + 1 + 1) .block
    simp only [Case.Readable, hb]
    cases hx : f.findBlock (s.ip + 1 + 1) .block with
    | error e => simpa [hx] using hfind
    | ok addrs => simp
  | loop =>
    obtain ⟨valueType, hb⟩ := hnext (by simp [hcase])
    simp [Case.Readable, hb]
  | ifCase =>
    obtain ⟨valueType, hb⟩ := hnext (by simp [hcase])
    have hfind := findBlock_defined (f := f) (s.ip + 1 + 1) .ifLabel
    simp only [Case.Readable, hb]
    cases hx : f.findBlock (s.ip + 1 + 1) .ifLabel with
    | error e => simpa [hx] using hfind
    | ok addrs =>
      obtain ⟨elseAddr, endAddr⟩ := addrs
      cases elseAddr with
      | none => simp
      | some elseAddr =>
        dsimp only
        split
        · simp
        · simp
  | elseCase =>
    obtain ⟨b, csp, hb⟩ := List.exists_cons_of_ne_nil hcsp
    simp [Case.Readable, hb]
  | endCase =>
    simp only [Case.Readable]
    split
    · simp
    · simp
  | brTable =>
    have hread := readU32_defined (f := f) (s.ip + 1)
    simp only [Case.Readable]
    cases hx : f.readU32 (s.ip + 1) with
    | error e => simpa [hx] using hread
    | ok r => simp
  | localIndex sign =>
    have hread := readU32_defined (f := f) (s.ip + 1)
    simp only [Case.Readable]
    cases hx : f.readU32 (s.ip + 1) with
    | error e => simpa [hx] using hread
    | ok r =>
      obtain ⟨idx, ip⟩ := r
      cases hlocal : f.localTypes[idx]? with
      | none => simpa [hlocal] using List.getElem?_eq_none_iff.mp hlocal
      | some vt =>
        obtain ⟨hidx, -⟩ := List.getElem?_eq_some_iff.mp hlocal
        have hcells := localTypeCells_defined vt
        cases hx : localTypeCells vt with
        | error e =>
          simp only [hlocal, hx]
          simpa [hx, hidx] using hcells
        | ok cells =>
          simp only [hlocal, hx]
          simp [hidx]
  | localFast sign =>
    obtain ⟨offset, hb⟩ := hnext (by simp [hcase])
    simp [Case.Readable, hb]
  | misc =>
    rw [Case.Readable]
    cases f.skipMisc (s.ip + 1) with
    | error e => simp
    | ok ip => simp
  | fault => simp [Case.Readable]

/-! ### What a step depends on -/

/-- The position and the addresses of the labels. -/
def ScanState.view (s : ScanState) : ℕ × List (ℕ × ℕ) :=
  (s.ip, s.csp.map fun b => (b.beginAddr, b.targetAddr))

theorem map_bind_congr {ε α β γ : Type} {x : Except ε α} {g g' : α → Except ε β} {v : β → γ}
    (h : ∀ a, (g a).map v = (g' a).map v) : (x >>= g).map v = (x >>= g').map v := by
  cases x with
  | error e => rfl
  | ok a => exact h a

theorem scanStep_view (h : s.view = s'.view) :
    (scanStep n f t s).map ScanState.view = (scanStep n f t s').map ScanState.view := by
  obtain ⟨ip, sp, csp⟩ := s
  obtain ⟨ip', sp', csp'⟩ := s'
  obtain ⟨hip, hcsp⟩ := Prod.mk.inj h
  obtain rfl : ip = ip' := hip
  simp only at hcsp
  -- the new states have the position and the labels from the same immediates
  have hok : ∀ (ip : ℕ) (sp sp' : ℤ),
      (Except.ok ⟨ip, sp, csp⟩ : Except Stop ScanState).map ScanState.view
        = (Except.ok ⟨ip, sp', csp'⟩ : Except Stop ScanState).map ScanState.view := by
    intro ip sp sp'
    simp only [Except.map, ScanState.view, hcsp]
  have hpush : ∀ ip start target cells,
      (Except.ok ⟨ip, sp, ⟨start, target, f.spOffset sp, cells⟩ :: csp⟩ :
        Except Stop ScanState).map ScanState.view
        = (Except.ok ⟨ip, sp', ⟨start, target, f.spOffset sp', cells⟩ :: csp'⟩ :
          Except Stop ScanState).map ScanState.view := by
    intro ip start target cells
    simp only [Except.map, ScanState.view, List.map_cons, hcsp]
  rw [scanStep, scanStep]
  refine map_bind_congr fun opcode => ?_
  dsimp only
  cases caseOf n opcode with
  | plain imms cells => exact map_bind_congr fun ip => hok ip _ _
  | block =>
    exact map_bind_congr fun valueType => map_bind_congr fun addrs => hpush _ _ _ _
  | loop => exact map_bind_congr fun valueType => hpush _ _ _ _
  | ifCase =>
    refine map_bind_congr fun valueType => map_bind_congr fun addrs => ?_
    obtain ⟨elseAddr, endAddr⟩ := addrs
    cases elseAddr with
    | none => exact hok _ _ _
    | some elseAddr =>
      dsimp only
      split
      · exact hpush _ _ _ _
      · exact hpush _ _ _ _
  | elseCase =>
    cases csp with
    | nil =>
      obtain rfl : csp' = [] := List.map_eq_nil_iff.mp hcsp.symm
      rfl
    | cons b csp =>
      cases csp' with
      | nil => cases hcsp
      | cons b' csp' =>
        obtain ⟨hb, -⟩ := List.cons.inj hcsp
        obtain ⟨-, htarget⟩ := Prod.mk.inj hb
        dsimp only
        rw [htarget]
        exact hok _ _ _
  | endCase =>
    rcases csp with _ | ⟨b, _ | ⟨c, csp⟩⟩
    · obtain rfl : csp' = [] := List.map_eq_nil_iff.mp hcsp.symm
      rfl
    · rcases csp' with _ | ⟨b', _ | ⟨c', csp'⟩⟩
      · rfl
      · rfl
      · simp at hcsp
    · rcases csp' with _ | ⟨b', _ | ⟨c', csp'⟩⟩
      · simp at hcsp
      · simp at hcsp
      · obtain ⟨-, htail⟩ := List.cons.inj hcsp
        simp only [Except.map, ScanState.view, htail]
  | brTable => exact map_bind_congr fun read => hok _ _ _
  | localIndex sign =>
    refine map_bind_congr fun read => ?_
    obtain ⟨idx, ip⟩ := read
    dsimp only
    split
    · exact map_bind_congr fun cells => hok _ _ _
    · rfl
  | localFast sign => exact map_bind_congr fun offset => hok _ _ _
  | misc => exact map_bind_congr fun ip => hok _ _ _
  | fault => rfl

theorem of_scanLoop_inl (h : scanLoop n f t s = .inl s') :
    s.ip < t ∧ scanStep n f t s = .ok s' := by
  rw [scanLoop] at h
  split at h
  · next hlt =>
    cases hstep : scanStep n f t s with
    | error e =>
      rw [hstep] at h
      cases h
    | ok u =>
      rw [hstep] at h
      cases h
      exact ⟨hlt, rfl⟩
  · cases h

theorem scanLoop_view (h : s.view = s'.view) {u : ScanState} (hs : scanLoop n f t s = .inl u) :
    ∃ u', scanLoop n f t s' = .inl u' ∧ u.view = u'.view := by
  obtain ⟨hlt, hu⟩ := of_scanLoop_inl hs
  have hip : s.ip = s'.ip := congrArg Prod.fst h
  have hstep := scanStep_view (n := n) (f := f) (t := t) h
  rw [hu] at hstep
  cases hu' : scanStep n f t s' with
  | error e =>
    rw [hu'] at hstep
    cases hstep
  | ok u' =>
    rw [hu'] at hstep
    exact ⟨u', scanLoop_ok (by omega) hu', Except.ok.inj hstep⟩

/-! ### The labels during the scan -/

/-- There is a label, the inner labels begin behind the outer ones, and all begin before the
position. -/
structure Labelled (f : FuncCode) (s : ScanState) : Prop where
  nonempty : s.csp ≠ []
  nested : s.csp.Pairwise fun b c => c.beginAddr < b.beginAddr
  begun : ∀ b ∈ s.csp, b.beginAddr ≤ s.ip
  lands : ∀ b ∈ s.csp, b.Lands f

theorem labelled_start (hend : f.code.getLast? = some 0x0b) : Labelled f (scanStart f) where
  nonempty := List.cons_ne_nil _ _
  nested := List.pairwise_singleton _ _
  begun := by
    intro b hb
    obtain rfl := List.mem_singleton.mp hb
    exact Nat.le_refl _
  lands := by
    intro b hb
    obtain rfl := List.mem_singleton.mp hb
    rw [List.getLast?_eq_getElem?] at hend
    exact .inr ⟨Nat.zero_le _, hend⟩

theorem BranchBlock.Lands.le {b : BranchBlock} (h : b.Lands f) : b.beginAddr ≤ b.targetAddr := by
  rcases h with heq | ⟨hle, -⟩
  · exact Nat.le_of_eq heq.symm
  · exact hle

theorem Labelled.pop {b c : BranchBlock} {csp : List BranchBlock} (h : Labelled f s)
    (hcsp : s.csp = b :: c :: csp) (hip : b.beginAddr ≤ s'.ip) (hcsp' : s'.csp = c :: csp) :
    Labelled f s' := by
  have hnested := h.nested
  rw [hcsp] at hnested
  obtain ⟨hinner, hnested⟩ := List.pairwise_cons.mp hnested
  refine ⟨by simp [hcsp'], hcsp' ▸ hnested, ?_, ?_⟩
  · intro d hd
    rw [hcsp'] at hd
    exact Nat.le_trans (Nat.le_of_lt (hinner d hd)) hip
  · intro d hd
    rw [hcsp'] at hd
    exact h.lands d (hcsp ▸ List.mem_cons_of_mem b hd)

theorem Labelled.moves (h : Labelled f s) (hmoves : Moves f s s') : Labelled f s' := by
  cases hmoves with
  | forward hip hcsp =>
    refine ⟨hcsp ▸ h.nonempty, hcsp ▸ h.nested, ?_, hcsp ▸ h.lands⟩
    intro b hb
    exact Nat.le_trans (h.begun b (hcsp ▸ hb)) (Nat.le_of_lt hip)
  | enters b hcsp hbegin hip hlands hloop =>
    refine ⟨by simp [hcsp], ?_, ?_, ?_⟩
    · rw [hcsp, List.pairwise_cons]
      exact ⟨fun c hc => Nat.lt_of_le_of_lt (h.begun c hc) hbegin, h.nested⟩
    · rw [hcsp, List.forall_mem_cons]
      refine ⟨hip, fun c hc => ?_⟩
      have := h.begun c hc
      omega
    · rw [hcsp, List.forall_mem_cons]
      exact ⟨hlands, h.lands⟩
  | leaves b c csp hcsp hip hcsp' =>
    have hb := h.begun b (hcsp ▸ List.mem_cons_self)
    exact h.pop hcsp (by omega) hcsp'
  | jumps b csp hop hcsp heq =>
    subst heq
    refine ⟨h.nonempty, h.nested, ?_, h.lands⟩
    have hb := (h.lands b (hcsp ▸ List.mem_cons_self)).le
    have hnested := h.nested
    rw [hcsp] at hnested ⊢
    obtain ⟨hinner, -⟩ := List.pairwise_cons.mp hnested
    rw [List.forall_mem_cons]
    refine ⟨hb, fun c hc => ?_⟩
    have := hinner c hc
    exact Nat.le_trans (Nat.le_of_lt this) hb

/-! ### What a step makes smaller -/

/-- A position is in front of the scan, or the beginning of an open label, or done with. -/
def ScanState.rank (s : ScanState) (x : ℕ) : ℕ :=
  if s.ip < x then 2 else if ∃ b ∈ s.csp, b.beginAddr = x then 1 else 0

theorem rank_ahead {x : ℕ} (h : s.ip < x) : s.rank x = 2 := if_pos h

theorem rank_behind {x : ℕ} (h : x ≤ s.ip) :
    s.rank x = if ∃ b ∈ s.csp, b.beginAddr = x then 1 else 0 := if_neg (Nat.not_lt.mpr h)

/-- The first position up to the target with another rank has a smaller one. -/
def Below (t : ℕ) (s' s : ScanState) : Prop :=
  Pi.Lex (· < ·) (· < ·) (fun x : Fin (t + 1) => s'.rank x) fun x : Fin (t + 1) => s.rank x

theorem wellFounded_below (t : ℕ) : WellFounded (Below t) :=
  InvImage.wf (fun (s : ScanState) (x : Fin (t + 1)) => s.rank x)
    (Pi.Lex.wellFounded _ fun _ => Nat.lt_wfRel.wf)

theorem below_of_rank {x : ℕ} (hx : x ≤ t) (hs : x ≤ s.ip + 1) (hs' : x ≤ s'.ip + 1)
    (hsame : ∀ y < x, (∃ b ∈ s'.csp, b.beginAddr = y) ↔ ∃ b ∈ s.csp, b.beginAddr = y)
    (hlt : s'.rank x < s.rank x) : Below t s' s := by
  refine ⟨⟨x, by omega⟩, fun y hy => ?_, hlt⟩
  have hy : y.val < x := hy
  change s'.rank y = s.rank y
  rw [rank_behind (by omega), rank_behind (by omega)]
  simp only [hsame y hy]

theorem below_forward (hip : s.ip < s'.ip) (ht : s.ip < t)
    (hsame : ∀ y ≤ s.ip, (∃ b ∈ s'.csp, b.beginAddr = y) ↔ ∃ b ∈ s.csp, b.beginAddr = y) :
    Below t s' s := by
  refine below_of_rank (x := s.ip + 1) ht (Nat.le_refl _) (by omega)
    (fun y hy => hsame y (by omega)) ?_
  rw [rank_behind (s := s') hip, rank_ahead (Nat.lt_succ_self _)]
  split
  · decide
  · decide

theorem below_pop {b : BranchBlock} {csp : List BranchBlock} (h : Labelled f s)
    (hcsp : s.csp = b :: csp) (ht : s.ip < t) (hip : b.beginAddr ≤ s'.ip) (hcsp' : s'.csp = csp) :
    Below t s' s := by
  have hb := h.begun b (hcsp ▸ List.mem_cons_self)
  have hnested := h.nested
  rw [hcsp] at hnested
  obtain ⟨hinner, -⟩ := List.pairwise_cons.mp hnested
  refine below_of_rank (x := b.beginAddr) (by omega) (by omega) (by omega) ?_ ?_
  · intro y hy
    rw [hcsp, hcsp', List.exists_mem_cons_iff]
    constructor
    · exact .inr
    · rintro (heq | hrest)
      · omega
      · exact hrest
  · have hnone : ¬∃ c ∈ s'.csp, c.beginAddr = b.beginAddr := by
      rintro ⟨c, hc, heq⟩
      have := hinner c (hcsp' ▸ hc)
      omega
    have hopen : ∃ c ∈ s.csp, c.beginAddr = b.beginAddr := ⟨b, hcsp ▸ List.mem_cons_self, rfl⟩
    rw [rank_behind hip, rank_behind hb, if_neg hnone, if_pos hopen]
    decide

/-! ### The scan ends -/

theorem scanLoop_moves (hfinds : FindsEnds f) (h : scanLoop n f t s = .inl s') :
    s.ip < t ∧ Moves f s s' := by
  obtain ⟨hlt, hstep⟩ := of_scanLoop_inl h
  exact ⟨hlt, scanStep_moves hfinds hstep⟩

/-- At the `end` of a label the scan leaves this label, or the whole loop. -/
theorem scan_end {b : BranchBlock} {csp : List BranchBlock} (hcsp : s.csp = b :: csp)
    (hop : f.code[s.ip]? = some 0x0b) :
    (∃ c csp', csp = c :: csp' ∧ scanStep n f t s = .ok { s with ip := s.ip + 1, csp := csp }) ∨
      scanStep n f t s = .error .exited := by
  have hcase : caseOf n 0x0b = .endCase := rfl
  rw [scanStep, byteAt_eq_ok.mpr hop]
  cases csp with
  | nil => exact .inr (by simp only [bind, Except.bind, hcase, hcsp])
  | cons c csp =>
    refine .inl ⟨c, csp, rfl, ?_⟩
    simp only [bind, Except.bind, hcase, hcsp]

/-- What follows an `ELSE` under a label that lands at an `end`. -/
theorem scan_else (h : Labelled f s) (ht : s.ip < t) {b : BranchBlock} {csp : List BranchBlock}
    (hcsp : s.csp = b :: csp) (hne : b.targetAddr ≠ b.beginAddr)
    (hround : scanLoop n f t s = .inl { s with ip := b.targetAddr }) :
    (∃ s', Loop.Reaches (scanLoop n f t) s s' ∧ Below t s' s) ∨
      ∃ r, Loop.Leaves (scanLoop n f t) s r := by
  obtain ⟨hle, hend⟩ := (h.lands b (hcsp ▸ List.mem_cons_self)).resolve_left hne
  by_cases hstop : t ≤ b.targetAddr
  · exact .inr ⟨_, (Loop.Goes.round hround).leaves (Loop.Leaves.now (scanLoop_stop _ _ hstop))⟩
  · have hlt : b.targetAddr < t := by omega
    rcases scan_end (n := n) (t := t) (s := { s with ip := b.targetAddr }) hcsp hend with
      ⟨c, csp', rfl, hstep⟩ | hexit
    · refine .inl ⟨_, .tail (.single hround) (scanLoop_ok hlt hstep), ?_⟩
      exact below_pop h hcsp ht (Nat.le_succ_of_le hle) rfl
    · exact .inr ⟨_, (Loop.Goes.round hround).leaves (Loop.Leaves.now (scanLoop_error hlt hexit))⟩

theorem scan_below (hfinds : FindsEnds f) (h : Labelled f s) (hjump : s.ip < t → ¬s.JumpsBack f) :
    (∃ s', Loop.Reaches (scanLoop n f t) s s' ∧ Below t s' s) ∨
      ∃ r, Loop.Leaves (scanLoop n f t) s r := by
  cases hround : scanLoop n f t s with
  | inr r => exact .inr ⟨r, Loop.Leaves.now hround⟩
  | inl s' =>
    obtain ⟨ht, hmoves⟩ := scanLoop_moves hfinds hround
    cases hmoves with
    | forward hip hcsp =>
      refine .inl ⟨s', .single hround, below_forward hip ht fun y hy => ?_⟩
      rw [hcsp]
    | enters b hcsp hbegin hip hlands hloop =>
      refine .inl ⟨s', .single hround, below_forward (by omega) ht fun y hy => ?_⟩
      rw [hcsp, List.exists_mem_cons_iff]
      exact or_iff_right (by omega)
    | leaves b c csp hcsp hip hcsp' =>
      have hb := h.begun b (hcsp ▸ List.mem_cons_self)
      exact .inl ⟨s', .single hround, below_pop h hcsp ht (by omega) hcsp'⟩
    | jumps b csp hop hcsp heq =>
      subst heq
      refine scan_else h ht hcsp (fun heq => hjump ht ⟨hop, b, ?_, heq⟩) hround
      rw [hcsp]
      rfl

theorem labelled_of_reaches (hend : f.code.getLast? = some 0x0b) (hfinds : FindsEnds f)
    (h : Loop.Reaches (scanLoop n f t) (scanStart f) s) : Labelled f s :=
  h.invariant (fun _ _ hs hround => hs.moves (scanLoop_moves hfinds hround).2) (labelled_start hend)

theorem scan_leaves (hend : f.code.getLast? = some 0x0b) (hfinds : FindsEnds f)
    (hjump : ∀ s, Loop.Reaches (scanLoop n f t) (scanStart f) s → s.ip < t → ¬s.JumpsBack f) :
    ∃ r, Loop.Leaves (scanLoop n f t) (scanStart f) r := by
  refine Loop.leaves_of_wellFounded (wellFounded_below t)
    (Loop.Reaches (scanLoop n f t) (scanStart f)) ?_ _ .refl
  intro s hs
  rcases scan_below (n := n) hfinds (labelled_of_reaches hend hfinds hs) (hjump s hs) with
    ⟨s', hreach, hbelow⟩ | hleaves
  · exact .inl ⟨s', hreach, hs.trans hreach, hbelow⟩
  · exact .inr hleaves

/-! ### The scan does not end -/

/-- The scan has come through the target of each open label that is a loop. -/
def Entered (n : Internal) (f : FuncCode) (t : ℕ) (s : ScanState) : Prop :=
  ∀ b csp, b :: csp <:+ s.csp → b.targetAddr = b.beginAddr →
    ∃ sp, Loop.Reaches (scanLoop n f t) ⟨b.targetAddr, sp, b :: csp⟩ s

theorem Entered.moves (h : Entered n f t s) (hround : scanLoop n f t s = .inl s')
    (hmoves : Moves f s s') : Entered n f t s' := by
  have hold : ∀ b csp, b :: csp <:+ s.csp → b.targetAddr = b.beginAddr →
      ∃ sp, Loop.Reaches (scanLoop n f t) ⟨b.targetAddr, sp, b :: csp⟩ s' := by
    intro b csp hsuffix hloop
    obtain ⟨sp, hreach⟩ := h b csp hsuffix hloop
    exact ⟨sp, hreach.tail hround⟩
  intro b csp hsuffix hloop
  cases hmoves with
  | forward hip hcsp => exact hold b csp (hcsp ▸ hsuffix) hloop
  | enters c hcsp hbegin hip hlands hentry =>
    rw [hcsp] at hsuffix
    rcases List.suffix_cons_iff.mp hsuffix with heq | hsuffix
    · obtain ⟨rfl, rfl⟩ := List.cons.inj heq
      refine ⟨s'.sp, ?_⟩
      rw [hloop, ← hentry hloop, ← hcsp]
      exact .refl
    · exact hold b csp hsuffix hloop
  | leaves c d rest hcsp hip hcsp' =>
    refine hold b csp (hsuffix.trans ?_) hloop
    rw [hcsp, hcsp']
    exact List.suffix_cons _ _
  | jumps c rest hop hcsp heq =>
    subst heq
    exact hold b csp hsuffix hloop

theorem entered_start : Entered n f t (scanStart f) := by
  intro b csp hsuffix hloop
  obtain ⟨rfl, rfl⟩ : b = f.functionLabel ∧ csp = [] := by
    rcases List.suffix_cons_iff.mp hsuffix with heq | hnil
    · exact List.cons.inj heq
    · cases List.suffix_nil.mp hnil
  refine ⟨f.localCells, ?_⟩
  rw [hloop]
  exact .refl

theorem entered_of_reaches (hfinds : FindsEnds f)
    (h : Loop.Reaches (scanLoop n f t) (scanStart f) s) : Entered n f t s :=
  h.invariant (fun _ _ hs hround => hs.moves hround (scanLoop_moves hfinds hround).2) entered_start

theorem not_leaves_of_jumpsBack (hentered : Entered n f t s) (ht : s.ip < t)
    (hjump : s.JumpsBack f) (r : Except Stop (List BranchBlock)) :
    ¬Loop.Leaves (scanLoop n f t) s r := by
  obtain ⟨hop, b, hb, hloop⟩ := hjump
  obtain ⟨csp, hcsp⟩ : ∃ csp, s.csp = b :: csp := List.head?_eq_some_iff.mp hb
  obtain ⟨sp, hreach⟩ := hentered b csp (by rw [hcsp]) hloop
  have hcase : caseOf n 0x05 = .elseCase := rfl
  have hstep : scanStep n f t s = .ok { s with ip := b.targetAddr } := by
    rw [scanStep, byteAt_eq_ok.mpr hop]
    simp only [bind, Except.bind, hcase, hcsp]
  have hview : (⟨b.targetAddr, sp, b :: csp⟩ : ScanState).view
      = ({ s with ip := b.targetAddr } : ScanState).view := by
    rw [ScanState.view, ScanState.view, hcsp]
  rw [← hreach.goes.leaves_iff]
  exact Loop.not_leaves_of_return (fun _ _ _ h => scanLoop_view h) hreach (scanLoop_ok ht hstep)
    hview r

/-! ### The result -/

theorem scanLoop_stopped {e : Stop} (h : scanLoop n f t s = .inr (.error e)) :
    s.ip < t ∧ scanStep n f t s = .error e := by
  rw [scanLoop] at h
  split at h
  · next hlt =>
    cases hstep : scanStep n f t s with
    | error e' =>
      rw [hstep] at h
      cases h
      exact ⟨hlt, rfl⟩
    | ok u =>
      rw [hstep] at h
      cases h
  · cases h

/-- The scan of code that ends with an `end` reaches the target or an error exit exactly
when it reads no `ELSE` under the label of a loop, no immediate behind the code and no local
that the function does not have. -/
theorem scan_ends_iff (n : Internal) (f : FuncCode) (t : ℕ)
    (hend : f.code.getLast? = some 0x0b) (hfinds : FindsEnds f) (ht : t ≤ f.code.length) :
    (∃ fuel r, wasmReplayCspBytecode n f t fuel = some r ∧ r ≠ .error .undefined) ↔
      ∀ s, Loop.Reaches (scanLoop n f t) (scanStart f) s → s.ip < t →
        ¬s.JumpsBack f ∧ s.Readable n f := by
  constructor
  · intro ⟨fuel, r, hrun, hr⟩ s hs hlt
    rw [wasmReplayCspBytecode, if_pos ht] at hrun
    have hleaves : Loop.Leaves (scanLoop n f t) s r := hs.goes.leaves_iff.mp ⟨fuel, hrun⟩
    refine ⟨fun hjump =>
      not_leaves_of_jumpsBack (entered_of_reaches hfinds hs) hlt hjump r hleaves, ?_⟩
    intro opcode hop
    by_contra hno
    have hnonempty := (labelled_of_reaches hend hfinds hs).nonempty
    have hundefined := (scanStep_undefined_iff (t := t) hend hnonempty hop).mpr hno
    exact hr (hleaves.unique (.now (scanLoop_error hlt hundefined)))
  · intro hcond
    obtain ⟨r, fuel, hrun⟩ := scan_leaves hend hfinds fun s hs hlt => (hcond s hs hlt).1
    refine ⟨fuel, r, by rw [wasmReplayCspBytecode, if_pos ht, hrun], ?_⟩
    rintro rfl
    obtain ⟨s, hs, hstop⟩ := Loop.Leaves.reaches ⟨fuel, hrun⟩
    obtain ⟨hlt, hstep⟩ := scanLoop_stopped hstop
    have hnonempty := (labelled_of_reaches hend hfinds hs).nonempty
    have hop : f.code[s.ip]? = some f.code[s.ip] := List.getElem?_eq_getElem (by omega)
    exact (scanStep_undefined_iff hend hnonempty hop).mp hstep ((hcond s hs hlt).2 _ hop)

theorem findsEnds_tableThenIf : FindsEnds tableThenIfFunction where
  ends := by
    intro start label elseAddr endAddr h
    simp only [tableThenIfFunction, plainFunction] at h
    split at h
    · cases h
      subst start
      decide
    · split at h
      · cases h
        subst start
        decide
      · cases h
  elses := by
    intro start label elseAddr endAddr h
    simp only [tableThenIfFunction, plainFunction] at h
    split at h
    · cases h
    · split at h
      · cases h
        subst start
        decide
      · cases h

theorem scan_ends_tableThenIf :
    (∃ fuel r, wasmReplayCspBytecode loaderOpcodes tableThenIfFunction 17 fuel = some r ∧
      r ≠ .error .undefined) ∧
    ∀ s, Loop.Reaches (scanLoop loaderOpcodes tableThenIfFunction 17)
        (scanStart tableThenIfFunction) s →
      s.ip < 17 →
        ¬s.JumpsBack tableThenIfFunction ∧ s.Readable loaderOpcodes tableThenIfFunction := by
  have hends : ∃ fuel r, wasmReplayCspBytecode loaderOpcodes tableThenIfFunction 17 fuel = some r ∧
      r ≠ .error .undefined := ⟨20, _, rfl, nofun⟩
  refine ⟨hends, ?_⟩
  exact (scan_ends_iff loaderOpcodes tableThenIfFunction 17 rfl findsEnds_tableThenIf
    (by decide)).mp hends

/-- A loop in five blocks, with a `br_table` to the label of the outermost block. -/
def tableInLoop : Body :=
  .block 0x40 (.block 0x40 (.block 0x40 (.block 0x40 (.block 0x40
    (.loop 0x40 (.plain 0x41 [0x00] (.brTable [0x00] [[0x05]] .nil)) .nil)
    .nil) .nil) .nil) .nil) .nil

def tableInLoopFunction : FuncCode :=
  plainFunction tableInLoop fun ip label =>
    if label = .block ∧ ip ∈ [2, 4, 6, 8, 10] then some (none, 23 - ip / 2) else none

theorem isBody_tableInLoop : IsBody loaderOpcodes tableInLoopFunction tableInLoop where
  code := rfl
  valid := by
    refine ⟨.inl rfl, ⟨.inl rfl, ⟨.inl rfl, ⟨.inl rfl, ⟨.inl rfl, ⟨.inl rfl, ⟨plainOk_const _ _ rfl,
      isLeb32_singleton _ rfl, rfl, ?_, trivial⟩, trivial⟩, trivial⟩, trivial⟩, trivial⟩, trivial⟩,
      trivial⟩
    intro l hl
    obtain rfl := List.mem_singleton.mp hl
    exact isLeb32_singleton _ rfl
  finds := by
    unfold Finds
    decide

theorem findsEnds_tableInLoop : FindsEnds tableInLoopFunction where
  ends := by
    have hall : ∀ start ∈ [2, 4, 6, 8, 10],
        start ≤ 23 - start / 2 ∧ tableInLoopFunction.code[23 - start / 2]? = some 0x0b := by decide
    intro start label elseAddr endAddr h
    simp only [tableInLoopFunction, plainFunction] at h
    split at h
    · next hstart =>
      cases h
      exact hall start hstart.2
    · cases h
  elses := by
    intro start label elseAddr endAddr h
    simp only [tableInLoopFunction, plainFunction] at h
    split at h
    · cases h
    · cases h

/-- The label 5 is read as an `ELSE`, and the scan goes back to the beginning of the loop. -/
theorem tableInLoop_jumpsBack : ∃ s,
    Loop.Reaches (scanLoop loaderOpcodes tableInLoopFunction 23) (scanStart tableInLoopFunction) s ∧
      s.ip < 23 ∧ s.JumpsBack tableInLoopFunction := by
  refine ⟨_, .head rfl (.head rfl (.head rfl (.head rfl (.head rfl (.head rfl (.head rfl
    (.head rfl .refl))))))), ?_, ?_, _, rfl, ?_⟩
  · decide
  · rfl
  · rfl

/-- Not every scan of a function body ends. -/
theorem scan_unending : ¬∀ n f c t, IsBody n f c → FindsEnds f → c.IsBoundary t →
    ∃ fuel r, wasmReplayCspBytecode n f t fuel = some r ∧ r ≠ .error .undefined := by
  intro hends
  obtain ⟨fuel, r, hrun, -⟩ := hends loaderOpcodes tableInLoopFunction tableInLoop 23
    isBody_tableInLoop findsEnds_tableInLoop (.inr rfl)
  obtain ⟨s, hs, hlt, hjump⟩ := tableInLoop_jumpsBack
  exact not_leaves_of_jumpsBack (entered_of_reaches findsEnds_tableInLoop hs) hlt hjump r
    (hs.goes.leaves_iff.mp ⟨fuel, hrun⟩)

end MVVM.Interp
