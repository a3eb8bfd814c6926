import MVVM.Patch.Listing

/-!
# Arming and disarming the breakpoints of x86_64

The sites may be next to each other, and a fence is looked for in code that has been
patched. None of this matters: the bytes that are written, `cc` and `90`, are none of a
fence, and two fences have no byte in common.
-/

namespace MVVM.Patch

/-- Offsets at which the code has an `int3`, with room for a fence before each. -/
structure Sites (orig : Code) (sites : List ℕ) : Prop where
  int3 : ∀ o ∈ sites, orig.bytes[o]? = some 0xcc
  room : ∀ o ∈ sites, 3 ≤ o

/-- What a successful `get_int3_addr` records are sites, unless an offset is below 3. -/
theorem sites_of_getInt3Addr {c : Code} {listing : Option (List Text.Str)} {int3Addr : List ℕ}
    (h : getInt3Addr .x86_64 true c listing = .ok (true, int3Addr))
    (hroom : ∀ o ∈ int3Addr, 3 ≤ o) : Sites c int3Addr := by
  cases listing with
  | none => cases (Prod.mk.inj (Except.ok.inj h)).1
  | some lines =>
    obtain ⟨hpass, rfl⟩ := scanListing_true_iff.mp h
    refine ⟨fun o ho => ?_, hroom⟩
    obtain ⟨⟨a, ha, hnum⟩, -⟩ := mem_recorded.mp ho
    exact (passes_iff hnum).mp (hpass a ha)

/-- A byte of a fence before one of the sites. -/
def InFence (orig : Code) (sites : List ℕ) (i : ℕ) : Prop :=
  ∃ o ∈ sites, HasFence orig o ∧ o ≤ i + 3 ∧ i < o

instance (orig : Code) (sites : List ℕ) (i : ℕ) : Decidable (InFence orig sites i) := by
  unfold InFence; infer_instance

/-- The last call that was about the breakpoints has set them. -/
def Armed (calls : List PatchCall) : Prop :=
  (calls.filter fun c => c ≠ .replaceMfenceWithNop).getLast? ≠ some .replaceInt3WithNop

instance (calls : List PatchCall) : Decidable (Armed calls) := by unfold Armed; infer_instance

/-- The byte that has to be at `i` after some calls. -/
def expected (orig : Code) (sites : List ℕ) (calls : List PatchCall) (i : ℕ) : Option UInt8 :=
  if i ∈ sites then some (if Armed calls then 0xcc else 0x90)
  else if PatchCall.replaceMfenceWithNop ∈ calls ∧ InFence orig sites i then some 0x90
  else orig.bytes[i]?

/-! ### All sites -/

theorem patchAt_one {c : Code} {o : ℕ} (h : o < c.bytes.length) (b : UInt8) :
    ∃ c', patchAt [(0, b)] c o = some c' ∧ c'.bytes.length = c.bytes.length ∧
      ∀ i : ℕ, c'.bytes[i]? = if o = i then some b else c.bytes[i]? := by
  have hlt := c.size
  have hat : ahead o 0 = o := ahead_of_lt (by omega)
  obtain ⟨c', hwrite, -⟩ := write_of_lt h b
  refine ⟨c', ?_, length_write hwrite, getElem?_write hwrite⟩
  simp only [patchAt, List.foldlM_cons, List.foldlM_nil, hat, hwrite]
  rfl

theorem patchAll_one {sites : List ℕ} {c : Code} (h : ∀ o ∈ sites, o < c.bytes.length)
    (b : UInt8) :
    ∃ c', sites.foldlM (patchAt [(0, b)]) c = some c' ∧ c'.bytes.length = c.bytes.length ∧
      ∀ i : ℕ, c'.bytes[i]? = if i ∈ sites then some b else c.bytes[i]? := by
  rw [Run.foldlM_eq_exec]
  refine Run.exec_of_history (fun done (c' : Code) => c'.bytes.length = c.bytes.length ∧
    ∀ i : ℕ, c'.bytes[i]? = if i ∈ done then some b else c.bytes[i]?) (h := []) ?_
    ⟨rfl, fun i => rfl⟩
  intro done c₁ o ho ⟨hlen, hbyte⟩
  obtain ⟨c', hone, hlen', hbyte'⟩ := patchAt_one (hlen.symm ▸ h o ho) b
  refine ⟨c', hone, hlen'.trans hlen, fun i => ?_⟩
  rw [hbyte' i, hbyte i]
  by_cases hi : o = i
  · rw [if_pos hi, if_pos (by simp [hi])]
  · have hconcat : i ∈ done ++ [o] ↔ i ∈ done := by
      rw [List.mem_append, List.mem_singleton, or_iff_left (Ne.symm hi)]
    simp only [if_neg hi, hconcat]

/-! ### Fences -/

variable {orig c c' : Code} {sites removed : List ℕ} {o i : ℕ} {armed : Bool}

theorem HasFence.byte (h : HasFence c o) (hlow : o ≤ i + 3) (hhigh : i < o) :
    (o = i + 3 ∧ c.bytes[i]? = some 0x0f) ∨ (o = i + 2 ∧ c.bytes[i]? = some 0xae) ∨
      (o = i + 1 ∧ c.bytes[i]? = some 0xf0) := by
  obtain ⟨h3, h2, h1⟩ := h
  rcases (by omega : o = i + 3 ∨ o = i + 2 ∨ o = i + 1) with rfl | rfl | rfl
  · exact .inl ⟨rfl, h3⟩
  · exact .inr (.inl ⟨rfl, h2⟩)
  · exact .inr (.inr ⟨rfl, h1⟩)

/-- Two fences that have a byte in common are one. -/
theorem HasFence.unique {o' : ℕ} (h : HasFence c o) (h' : HasFence c o') (hlow : o ≤ i + 3)
    (hhigh : i < o) (hlow' : o' ≤ i + 3) (hhigh' : i < o') : o = o' := by
  rcases h.byte hlow hhigh with ⟨rfl, hb⟩ | ⟨rfl, hb⟩ | ⟨rfl, hb⟩ <;>
  rcases h'.byte hlow' hhigh' with ⟨rfl, hb'⟩ | ⟨rfl, hb'⟩ | ⟨rfl, hb'⟩ <;>
  first | rfl | exact absurd (hb.symm.trans hb') (by decide)

theorem HasFence.byte_ne (h : HasFence c o) (hlow : o ≤ i + 3) (hhigh : i < o) :
    c.bytes[i]? ≠ some 0xcc ∧ c.bytes[i]? ≠ some 0x90 := by
  rcases h.byte hlow hhigh with ⟨-, hb⟩ | ⟨-, hb⟩ | ⟨-, hb⟩
  · rw [hb]; decide
  · rw [hb]; decide
  · rw [hb]; decide

/-! ### One call -/

/-- The code with its sites armed or not, and without the fences before some of them. -/
structure Shape (orig : Code) (sites : List ℕ) (armed : Bool) (removed : List ℕ) (c : Code) :
    Prop where
  length : c.bytes.length = orig.bytes.length
  byte : ∀ i : ℕ, c.bytes[i]? = if i ∈ sites then some (if armed then 0xcc else 0x90)
    else if InFence orig removed i then some 0x90 else orig.bytes[i]?

theorem Sites.inside (h : Sites orig sites) (ho : o ∈ sites) : o < orig.bytes.length :=
  (List.getElem?_eq_some_iff.mp (h.int3 o ho)).1

theorem inFence_congr {removed' : List ℕ} (h : ∀ o, o ∈ removed ↔ o ∈ removed') (i : ℕ) :
    InFence orig removed i ↔ InFence orig removed' i :=
  exists_congr fun o => and_congr_left fun _ => h o

theorem Shape.congr {removed' : List ℕ} (h : Shape orig sites armed removed c)
    (hr : ∀ o, o ∈ removed ↔ o ∈ removed') : Shape orig sites armed removed' c := by
  refine ⟨h.length, fun i => ?_⟩
  simp only [h.byte i, inFence_congr hr i]

/-- What stands in the code is the original byte, or one of those that are written. -/
theorem Shape.byte_cases (h : Shape orig sites armed removed c) (i : ℕ) :
    c.bytes[i]? = orig.bytes[i]? ∨ c.bytes[i]? = some 0xcc ∨ c.bytes[i]? = some 0x90 := by
  rw [h.byte i]
  split
  · cases armed with
    | true => exact .inr (.inl rfl)
    | false => exact .inr (.inr rfl)
  · split
    · exact .inr (.inr rfl)
    · exact .inl rfl

theorem Shape.hasFence (h : Shape orig sites armed removed c) (hc : HasFence c o) :
    HasFence orig o := by
  have hsame : ∀ (i : ℕ) (b : UInt8), c.bytes[i]? = some b → b ≠ 0xcc → b ≠ 0x90 →
      orig.bytes[i]? = some b := by
    intro i b hb hcc h90
    rcases h.byte_cases i with heq | heq | heq
    · exact heq.symm.trans hb
    · exact absurd (Option.some.inj (hb.symm.trans heq)) hcc
    · exact absurd (Option.some.inj (hb.symm.trans heq)) h90
  obtain ⟨h3, h2, h1⟩ := hc
  exact ⟨hsame _ _ h3 (by decide) (by decide), hsame _ _ h2 (by decide) (by decide),
    hsame _ _ h1 (by decide) (by decide)⟩

theorem HasFence.not_site (h : HasFence orig o) (hs : Sites orig sites) (hlow : o ≤ i + 3)
    (hhigh : i < o) : i ∉ sites := fun hi => (h.byte_ne hlow hhigh).1 (hs.int3 i hi)

/-- A fence of the original is found in the code until it has been removed. -/
theorem Shape.hasFence_iff (h : Shape orig sites armed removed c) (hs : Sites orig sites)
    (ho3 : 3 ≤ o) : HasFence c o ↔ HasFence orig o ∧ o ∉ removed := by
  constructor
  · intro hc
    have horig := h.hasFence hc
    refine ⟨horig, fun hin => ?_⟩
    have hgone : c.bytes[o - 3]? = some 0x90 := by
      rw [h.byte, if_neg (horig.not_site hs (by omega) (by omega)),
        if_pos ⟨o, hin, horig, by omega, by omega⟩]
    exact absurd (hc.1.symm.trans hgone) (by decide)
  · intro ⟨horig, hnot⟩
    have hsame : ∀ i, o ≤ i + 3 → i < o → c.bytes[i]? = orig.bytes[i]? := by
      intro i hlow hhigh
      rw [h.byte, if_neg (horig.not_site hs hlow hhigh), if_neg]
      rintro ⟨o', hin, horig', hlow', hhigh'⟩
      exact hnot (horig.unique horig' hlow hhigh hlow' hhigh' ▸ hin)
    refine ⟨?_, ?_, ?_⟩
    · rw [hsame _ (by omega) (by omega)]
      exact horig.1
    · rw [hsame _ (by omega) (by omega)]
      exact horig.2.1
    · rw [hsame _ (by omega) (by omega)]
      exact horig.2.2

theorem inFence_cons {i : ℕ} : InFence orig (o :: removed) i ↔
    (HasFence orig o ∧ o ≤ i + 3 ∧ i < o) ∨ InFence orig removed i := by
  simp only [InFence, List.mem_cons, or_and_right, exists_or, exists_eq_left]

theorem shape_removeFence (h : Shape orig sites armed removed c) (hs : Sites orig sites)
    (ho : o ∈ sites) :
    ∃ c', removeFence c o = some c' ∧ Shape orig sites armed (o :: removed) c' := by
  have ho3 := hs.room o ho
  have hlen : o ≤ c.bytes.length := h.length ▸ Nat.le_of_lt (hs.inside ho)
  have hiff := h.hasFence_iff hs ho3
  by_cases hc : HasFence c o
  · obtain ⟨c', hrun, hlen', hbyte⟩ := removeFence_of_fence ho3 hlen hc
    have horig := (hiff.mp hc).1
    refine ⟨c', hrun, hlen'.trans h.length, fun i => ?_⟩
    rw [hbyte i]
    by_cases hi : o ≤ i + 3 ∧ i < o
    · rw [if_pos hi, if_neg (horig.not_site hs hi.1 hi.2),
        if_pos (inFence_cons.mpr (.inl ⟨horig, hi⟩))]
    · rw [if_neg hi, h.byte i]
      simp only [inFence_cons, hi, and_false, false_or]
  · refine ⟨c, removeFence_of_not ho3 hlen hc, h.length, fun i => ?_⟩
    have hcons : InFence orig (o :: removed) i ↔ InFence orig removed i := by
      refine inFence_cons.trans (or_iff_right_of_imp fun hold => ?_)
      have hin : o ∈ removed := by
        by_contra hnot
        exact hc (hiff.mpr ⟨hold.1, hnot⟩)
      exact ⟨o, hin, hold⟩
    rw [h.byte i]
    simp only [hcons]

theorem shape_removeFences (hs : Sites orig sites) (h : Shape orig sites armed removed c) :
    ∃ c', sites.foldlM removeFence c = some c' ∧
      Shape orig sites armed (removed ++ sites) c' := by
  rw [Run.foldlM_eq_exec]
  refine Run.exec_of_history (Shape orig sites armed) (fun done c₁ o ho hshape => ?_) h
  obtain ⟨c', hone, hshape'⟩ := shape_removeFence hshape hs ho
  exact ⟨c', hone, hshape'.congr fun o' => by simp [or_comm]⟩

theorem shape_patchAll (hs : Sites orig sites) (h : Shape orig sites armed removed c) (b : UInt8)
    (armed' : Bool) (hb : b = if armed' then 0xcc else 0x90) :
    ∃ c', sites.foldlM (patchAt [(0, b)]) c = some c' ∧ Shape orig sites armed' removed c' := by
  have hinside : ∀ o ∈ sites, o < c.bytes.length := fun o ho => h.length ▸ hs.inside ho
  obtain ⟨c', hrun, hlen, hbyte⟩ := patchAll_one hinside b
  refine ⟨c', hrun, hlen.trans h.length, fun i => ?_⟩
  rw [hbyte i, hb]
  by_cases hi : i ∈ sites
  · rw [if_pos hi, if_pos hi]
  · rw [if_neg hi, if_neg hi, h.byte i, if_neg hi]

/-! ### All sequences of calls -/

/-- The sites whose fences have been looked for. -/
def unfenced (sites : List ℕ) (calls : List PatchCall) : List ℕ :=
  if PatchCall.replaceMfenceWithNop ∈ calls then sites else []

theorem armed_snoc (calls : List PatchCall) (call : PatchCall) :
    Armed (calls ++ [call]) ↔
      call = .replaceNopWithInt3 ∨ call = .replaceMfenceWithNop ∧ Armed calls := by
  unfold Armed
  rw [List.filter_append]
  cases call with
  | replaceInt3WithNop => simp
  | replaceNopWithInt3 => simp
  | replaceMfenceWithNop => simp

theorem shape_step (hs : Sites orig sites) {calls : List PatchCall}
    (h : Shape orig sites (decide (Armed calls)) (unfenced sites calls) c) (call : PatchCall) :
    ∃ c', patchStep ⟨.x86_64, true, sites⟩ c call = some c' ∧ Shape orig sites
      (decide (Armed (calls ++ [call]))) (unfenced sites (calls ++ [call])) c' := by
  have hsnoc := armed_snoc calls call
  cases call with
  | replaceInt3WithNop =>
    have hsame : unfenced sites (calls ++ [.replaceInt3WithNop]) = unfenced sites calls := by
      simp [unfenced]
    rw [hsame, decide_eq_false (by simp [hsnoc])]
    exact shape_patchAll hs h 0x90 false rfl
  | replaceNopWithInt3 =>
    have hsame : unfenced sites (calls ++ [.replaceNopWithInt3]) = unfenced sites calls := by
      simp [unfenced]
    rw [hsame, decide_eq_true (hsnoc.mpr (.inl rfl))]
    exact shape_patchAll hs h 0xcc true rfl
  | replaceMfenceWithNop =>
    have hsame : decide (Armed (calls ++ [.replaceMfenceWithNop])) = decide (Armed calls) := by
      simp [hsnoc]
    obtain ⟨c', hrun, hshape⟩ := shape_removeFences hs h
    refine ⟨c', hrun, ?_⟩
    rw [hsame]
    refine hshape.congr fun o => ?_
    unfold unfenced
    split <;> simp

theorem shape_run (hs : Sites orig sites) (calls : List PatchCall) :
    ∃ c, Run.exec (patchStep ⟨.x86_64, true, sites⟩) orig calls = some c ∧
      Shape orig sites (decide (Armed calls)) (unfenced sites calls) c := by
  refine Run.exec_of_history (h := [])
    (fun calls c => Shape orig sites (decide (Armed calls)) (unfenced sites calls) c)
    (fun _ _ call _ hshape => shape_step hs hshape call) ⟨rfl, fun i => ?_⟩
  split
  · next hi => exact hs.int3 i hi
  · rw [if_neg]
    rintro ⟨o, ho, -⟩
    exact List.not_mem_nil ho

/-- After any calls each site has the byte of the last call about the breakpoints, the
fences before the sites are gone if there was a call to remove them, and all else is as it
was; so arming restores the code up to these fences. -/
theorem toggles_restore (orig : Code) (sites : List ℕ) (hs : Sites orig sites)
    (calls : List PatchCall) :
    ∃ c, Run.exec (patchStep ⟨.x86_64, true, sites⟩) orig calls = some c ∧
      c.bytes.length = orig.bytes.length ∧ (∀ i : ℕ, c.bytes[i]? = expected orig sites calls i) ∧
      (Armed calls → ∀ i : ℕ,
        ¬(PatchCall.replaceMfenceWithNop ∈ calls ∧ InFence orig sites i) →
          c.bytes[i]? = orig.bytes[i]?) := by
  obtain ⟨c, hrun, hshape⟩ := shape_run hs calls
  have hfence : ∀ i, InFence orig (unfenced sites calls) i ↔
      PatchCall.replaceMfenceWithNop ∈ calls ∧ InFence orig sites i := by
    intro i
    unfold unfenced
    split
    · next hm => exact (and_iff_right hm).symm
    · next hm =>
      refine iff_of_false (fun ⟨o, ho, _⟩ => List.not_mem_nil ho) fun hand => hm hand.1
  have hbyte : ∀ i : ℕ, c.bytes[i]? = expected orig sites calls i := by
    intro i
    rw [hshape.byte i]
    simp only [expected, hfence i, decide_eq_true_eq]
  refine ⟨c, hrun, hshape.length, hbyte, fun harmed i hi => ?_⟩
  rw [hbyte i, expected, if_neg hi, if_pos harmed]
  split
  · next hin => exact (hs.int3 i hin).symm
  · rfl

/-- A breakpoint behind a fence. -/
def fencedInt3 : Code := ⟨[0x0f, 0xae, 0xf0, 0xcc], by decide⟩

theorem toggles_restore_fenced :
    ∃ c, Run.exec (patchStep ⟨.x86_64, true, [3]⟩) fencedInt3
        [.replaceInt3WithNop, .replaceMfenceWithNop, .replaceNopWithInt3] = some c ∧
      ∀ i : ℕ, c.bytes[i]? = expected fencedInt3 [3]
        [.replaceInt3WithNop, .replaceMfenceWithNop, .replaceNopWithInt3] i := by
  obtain ⟨c, hrun, -, hbyte, -⟩ := toggles_restore fencedInt3 [3] ⟨by decide, by decide⟩
    [.replaceInt3WithNop, .replaceMfenceWithNop, .replaceNopWithInt3]
  exact ⟨c, hrun, hbyte⟩

end MVVM.Patch
