import Mathlib.Data.Nat.Notation
import Mathlib.Tactic.Ring

/-!
# Numbers in the code (wamr_interp_frame.cpp:97-214)

`skip_leb` and `read_leb`. A position in the code is an index; what is read behind the end
is undefined.
-/

namespace MVVM.Interp

/-- How a function ends that does not return: in `exit`, or in undefined behaviour. -/
inductive Stop where
  | exited
  | undefined
  deriving DecidableEq, Repr

def skipLeb (code : List UInt8) (ip : ℕ) : Except Stop ℕ :=
  match (code.drop ip).findIdx? fun b => b &&& 0x80 == 0 with
  | some k => .ok (ip + k + 1)
  | none => .error .undefined

/-- The loop of `read_leb`: the result, the last byte and the number of bytes. -/
def readLebLoop (maxbits : ℕ) : List UInt8 → UInt64 → ℕ → Option (UInt64 × UInt8 × ℕ)
  | [], _, _ => none
  | byte :: bytes, result, bcnt =>
    if (maxbits + 6) / 7 < bcnt + 1 then none
    else
      let result := result ||| (byte &&& 0x7f).toUInt64 <<< (7 * bcnt).toUInt64
      if byte &&& 0x80 = 0 then some (result, byte, bcnt + 1)
      else readLebLoop maxbits bytes result (bcnt + 1)

/-- `read_leb`: the result and the position behind the number. -/
def readLeb (maxbits : ℕ) (sign : Bool) (code : List UInt8) (ip : ℕ) : Option (UInt64 × ℕ) :=
  match readLebLoop maxbits (code.drop ip) 0 0 with
  | none => none
  | some (result, byte, bcnt) =>
    let shift := 7 * bcnt
    let signExtended :=
      if byte &&& 0x40 = 0 then result else result ||| (~~~0 : UInt64) <<< shift.toUInt64
    if !sign && maxbits == 32 && maxbits ≤ shift then
      if byte &&& 0xf0 = 0 then some (result, ip + bcnt) else none
    else if sign && maxbits == 32 then
      if shift < maxbits then some (signExtended, ip + bcnt)
      else if byte &&& 0xf0 = (if byte &&& 0x8 = 0 then 0 else 0x70) then some (result, ip + bcnt)
      else none
    else if sign && maxbits == 64 then
      if shift < maxbits then some (signExtended, ip + bcnt)
      else if byte &&& 0xfe = (if byte &&& 0x1 = 0 then 0 else 0x7e) then some (result, ip + bcnt)
      else none
    else some (result, ip + bcnt)

/-! ### Encodings -/

/-- All bytes but the last have the top bit. -/
def IsLeb : List UInt8 → Prop
  | [] => False
  | [b] => b &&& 0x80 = 0
  | b :: bs => b &&& 0x80 ≠ 0 ∧ IsLeb bs

def lebValue : List UInt8 → ℕ
  | [] => 0
  | b :: bs => (b &&& 0x7f).toNat + 2 ^ 7 * lebValue bs

/-- An encoding of a `u32`. -/
structure IsLeb32 (bs : List UInt8) : Prop where
  isLeb : IsLeb bs
  length : bs.length ≤ 5
  value : lebValue bs < 2 ^ 32

theorem isLeb_cons {b c : UInt8} {bs : List UInt8} :
    IsLeb (b :: c :: bs) ↔ b &&& 0x80 ≠ 0 ∧ IsLeb (c :: bs) := Iff.rfl

theorem lebValue_cons (b : UInt8) (bs : List UInt8) :
    lebValue (b :: bs) = (b &&& 0x7f).toNat + 2 ^ 7 * lebValue bs := rfl

theorem skipLeb_encoding {code bs rest : List UInt8} {ip : ℕ} (h : code.drop ip = bs ++ rest)
    (hbs : IsLeb bs) : skipLeb code ip = .ok (ip + bs.length) := by
  have hfind : ∀ bs : List UInt8, IsLeb bs →
      (bs ++ rest).findIdx? (fun b => b &&& 0x80 == 0) = some (bs.length - 1) := by
    intro bs hbs
    induction bs with
    | nil => exact hbs.elim
    | cons b bs ih =>
      cases bs with
      | nil =>
        have hb : b &&& 0x80 = 0 := hbs
        simp [List.findIdx?_cons, hb]
      | cons c bs =>
        obtain ⟨hb, htail⟩ := isLeb_cons.mp hbs
        have htail := ih htail
        rw [List.cons_append, List.findIdx?_cons]
        simp only [beq_iff_eq, hb, if_false, htail]
        simp
  have hne : bs ≠ [] := by
    rintro rfl
    exact hbs.elim
  have hpos : 0 < bs.length := List.length_pos_iff.mpr hne
  rw [skipLeb, h, hfind bs hbs]
  simp only
  congr 1
  omega

theorem and_eq_iff (b m c : UInt8) : b &&& m = c ↔ b.toNat &&& m.toNat = c.toNat := by
  rw [← UInt8.toNat_inj, UInt8.toNat_and]

theorem toNat_and_lt (b : UInt8) : (b &&& 0x7f).toNat < 2 ^ 7 := by
  rw [UInt8.toNat_and]
  exact Nat.lt_of_le_of_lt Nat.and_le_right (by decide)

/-- Seven more bits, of which those behind the 64th are lost. -/
theorem toNat_accumulate {result : UInt64} (byte : UInt8) {bcnt : ℕ} (hcnt : bcnt ≤ 9)
    (hresult : result.toNat < 2 ^ (7 * bcnt)) :
    (result ||| (byte &&& 0x7f).toUInt64 <<< (7 * bcnt).toUInt64).toNat
      = (result.toNat + 2 ^ (7 * bcnt) * (byte &&& 0x7f).toNat) % 2 ^ 64 := by
  have hshift : (7 * bcnt).toUInt64.toNat % 64 = 7 * bcnt := by
    simp only [Nat.toUInt64_eq, UInt64.toNat_ofNat']
    omega
  have hwidth : 2 ^ 64 = 2 ^ (7 * bcnt) * 2 ^ (64 - 7 * bcnt) := by
    rw [← Nat.pow_add]
    congr 1
    omega
  have hlost : 2 ^ (7 * bcnt) * (byte &&& 0x7f).toNat % 2 ^ 64
      = 2 ^ (7 * bcnt) * ((byte &&& 0x7f).toNat % 2 ^ (64 - 7 * bcnt)) := by
    rw [hwidth, Nat.mul_mod_mul_left]
  have hshifted : ((byte &&& 0x7f).toUInt64 <<< (7 * bcnt).toUInt64).toNat
      = 2 ^ (7 * bcnt) * ((byte &&& 0x7f).toNat % 2 ^ (64 - 7 * bcnt)) := by
    rw [UInt64.toNat_shiftLeft, hshift, UInt8.toNat_toUInt64, Nat.shiftLeft_eq, Nat.mul_comm, hlost]
  have hkept : (byte &&& 0x7f).toNat % 2 ^ (64 - 7 * bcnt) < 2 ^ (64 - 7 * bcnt) :=
    Nat.mod_lt _ (Nat.two_pow_pos _)
  have hfits : result.toNat + 2 ^ (7 * bcnt) * ((byte &&& 0x7f).toNat % 2 ^ (64 - 7 * bcnt))
      < 2 ^ 64 := by
    have hle := Nat.mul_le_mul_left (2 ^ (7 * bcnt)) (Nat.succ_le_of_lt hkept)
    rw [Nat.mul_succ, ← hwidth] at hle
    omega
  rw [UInt64.toNat_or, hshifted, Nat.or_comm, ← Nat.two_pow_add_eq_or_of_lt hresult,
    ← Nat.add_mod_mod, hlost, Nat.mod_eq_of_lt hfits, Nat.add_comm]

theorem IsLeb.length_pos {bs : List UInt8} (h : IsLeb bs) : 0 < bs.length := by
  apply List.length_pos_iff.mpr
  rintro rfl
  exact h.elim

/-- The last byte has the highest bits of the number, and no other bit. -/
theorem IsLeb.exists_last {bs : List UInt8} (h : IsLeb bs) :
    ∃ low last, bs.getLast? = some last ∧ last.toNat < 128 ∧
      low < 2 ^ (7 * (bs.length - 1)) ∧
      lebValue bs = low + 2 ^ (7 * (bs.length - 1)) * last.toNat := by
  have hlow : ∀ n < 256, n &&& 0x80 = 0 → n < 128 ∧ n &&& 0x7f = n := by decide +kernel
  induction bs with
  | nil => exact h.elim
  | cons b bs ih =>
    cases bs with
    | nil =>
      obtain ⟨hlt, hb⟩ := hlow b.toNat b.toNat_lt ((and_eq_iff b 0x80 0).mp h)
      refine ⟨0, b, rfl, hlt, Nat.one_pos, ?_⟩
      rw [lebValue_cons, UInt8.toNat_and]
      simpa [lebValue] using hb
    | cons c bs =>
      obtain ⟨low, last, hlast, hlt, hsmall, hvalue⟩ := ih (isLeb_cons.mp h).2
      have hpow : 2 ^ (7 * (bs.length + 1)) = 2 ^ 7 * 2 ^ (7 * bs.length) := by
        rw [← Nat.pow_add]
        congr 1
        omega
      have hbyte := toNat_and_lt b
      refine ⟨(b &&& 0x7f).toNat + 2 ^ 7 * low, last, hlast, hlt, ?_, ?_⟩
      · simp only [List.length_cons, Nat.add_sub_cancel] at hsmall ⊢
        omega
      · rw [lebValue_cons, hvalue]
        simp only [List.length_cons, Nat.add_sub_cancel]
        rw [hpow]
        ring

/-- What the loop returns for an encoding that is not longer than it allows. -/
theorem readLebLoop_encoding {maxbits : ℕ} (hmax : (maxbits + 6) / 7 ≤ 10) (bs rest : List UInt8)
    (result : UInt64) (bcnt : ℕ) (hbs : IsLeb bs) (hlen : bcnt + bs.length ≤ (maxbits + 6) / 7)
    (hresult : result.toNat < 2 ^ (7 * bcnt)) :
    ∃ (r : UInt64) (last : UInt8),
      readLebLoop maxbits (bs ++ rest) result bcnt = some (r, last, bcnt + bs.length) ∧
      bs.getLast? = some last ∧
      r.toNat = (result.toNat + 2 ^ (7 * bcnt) * lebValue bs) % 2 ^ 64 := by
  induction bs generalizing result bcnt with
  | nil => exact hbs.elim
  | cons b bs ih =>
    rw [List.length_cons] at hlen
    have hacc := toNat_accumulate b (by omega) hresult
    have hfew : ¬(maxbits + 6) / 7 < bcnt + 1 := by omega
    cases bs with
    | nil =>
      have hb : b &&& 0x80 = 0 := hbs
      refine ⟨_, b, ?_, rfl, hacc.trans ?_⟩
      · simp only [List.cons_append, List.nil_append, readLebLoop, hfew, if_false, hb, if_true,
          List.length_singleton]
      · simp [lebValue]
    | cons c bs =>
      obtain ⟨hb, htail⟩ := isLeb_cons.mp hbs
      have hpow : 2 ^ (7 * (bcnt + 1)) = 2 ^ (7 * bcnt) * 2 ^ 7 := by
        rw [← Nat.pow_add]
        congr 1
      have hnext : (result ||| (b &&& 0x7f).toUInt64 <<< (7 * bcnt).toUInt64).toNat
          < 2 ^ (7 * (bcnt + 1)) := by
        have hmul : 2 ^ (7 * bcnt) * (b &&& 0x7f).toNat ≤ 2 ^ (7 * bcnt) * (2 ^ 7 - 1) :=
          Nat.mul_le_mul_left _ (by have := toNat_and_lt b; omega)
        rw [hacc]
        refine Nat.lt_of_le_of_lt (Nat.mod_le _ _) ?_
        omega
      obtain ⟨r, last, hloop, hlast, hr⟩ := ih _ (bcnt + 1) htail (by omega) hnext
      refine ⟨r, last, ?_, hlast, ?_⟩
      · rw [List.cons_append, readLebLoop, if_neg hfew]
        simp only [hb, if_false]
        rw [hloop]
        simp only [List.length_cons]
        congr 3
        omega
      · rw [hr, hacc, Nat.mod_add_mod, lebValue_cons b, hpow]
        congr 1
        ring

/-- The loop returns only behind an encoding. -/
theorem exists_encoding_of_readLebLoop {maxbits : ℕ} (l : List UInt8) (result : UInt64) (bcnt : ℕ)
    {found : UInt64 × UInt8 × ℕ} (h : readLebLoop maxbits l result bcnt = some found) :
    ∃ bs, bs <+: l ∧ IsLeb bs ∧ bcnt + bs.length ≤ (maxbits + 6) / 7 := by
  induction l generalizing result bcnt with
  | nil => cases h
  | cons b l ih =>
    rw [readLebLoop] at h
    split at h
    · cases h
    · rename_i hfew
      by_cases hb : b &&& 0x80 = 0
      · refine ⟨[b], List.prefix_iff_eq_append.mpr rfl, hb, ?_⟩
        rw [List.length_singleton]
        omega
      · simp only [hb, if_false] at h
        obtain ⟨bs, hbegins, hbs, hlen⟩ := ih _ _ h
        refine ⟨b :: bs, List.cons_prefix_cons.mpr ⟨rfl, hbegins⟩, ?_, ?_⟩
        · cases bs with
          | nil => exact hbs.elim
          | cons c bs => exact isLeb_cons.mpr ⟨hb, hbs⟩
        · rw [List.length_cons]
          omega

theorem readLeb_encoding {code bs rest : List UInt8} {ip : ℕ} (h : code.drop ip = bs ++ rest)
    (hbs : IsLeb32 bs) :
    ∃ r, readLeb 32 false code ip = some (r, ip + bs.length) ∧ r.toNat = lebValue bs := by
  have hlen := hbs.length
  have hvalue := hbs.value
  obtain ⟨r, last, hloop, hlast, hr⟩ := @readLebLoop_encoding 32 (by decide) bs rest 0 0
    hbs.isLeb (by omega) (by decide)
  have hexact : r.toNat = lebValue bs := by
    have hzero : (0 : UInt64).toNat = 0 := rfl
    rw [hr, hzero]
    omega
  refine ⟨r, ?_, hexact⟩
  rw [Nat.zero_add] at hloop
  simp only [readLeb, h, hloop]
  by_cases hlong : 32 ≤ 7 * bs.length
  · have hfive : bs.length = 5 := by omega
    obtain ⟨low, last', hlast', -, -, hsplit⟩ := hbs.isLeb.exists_last
    obtain rfl := Option.some.inj (hlast.symm.trans hlast')
    have hsmall : last.toNat < 16 := by
      rw [hfive] at hsplit
      omega
    have hmask : ∀ n < 16, n &&& 0xf0 = 0 := by decide
    have hzero : last &&& 0xf0 = 0 := (and_eq_iff last 0xf0 0).mpr (hmask last.toNat hsmall)
    simp [hlong, hzero]
  · simp [hlong]

end MVVM.Interp
