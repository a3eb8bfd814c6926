import MVVM.Interp.Leb
import Mathlib.Data.Int.Notation
import Mathlib.Algebra.Group.Int.Defs

/-!
# The numbers that `read_leb` accepts (wamr_interp_frame.cpp:120-214)

`read_leb_uint32`, `read_leb_int32` and `read_leb_int64` are `read_leb` with 32 bits, with 32
bits and a sign, and with 64 bits and a sign.
-/

namespace MVVM.Interp

/-- An encoding of a number of `maxbits` bits: the bits of its last byte that lie behind them
extend the number. -/
structure IsLebOf (maxbits : ℕ) (sign : Bool) (bs : List UInt8) : Prop where
  isLeb : IsLeb bs
  length : bs.length ≤ (maxbits + 6) / 7
  unused : ∀ last ∈ bs.getLast?, ∀ i < 7, maxbits ≤ 7 * (bs.length - 1) + i →
    last.toNat.testBit i = (sign && last.toNat.testBit (maxbits - 1 - 7 * (bs.length - 1)))

/-- The number that is encoded. -/
def lebNumber (sign : Bool) (bs : List UInt8) : ℤ :=
  lebValue bs - if sign && bs.getLast?.any (·.toNat.testBit 6) then 2 ^ (7 * bs.length) else 0

/-- `(uint32)res64`, `(int32)res64` or `(int64)res64`. -/
def lowBits (maxbits : ℕ) (sign : Bool) (res64 : UInt64) : ℤ :=
  if sign then Int.bmod res64.toNat (2 ^ maxbits) else (res64.toNat % 2 ^ maxbits : ℕ)

/-- What `read_leb` stores in its result if it is true, and where it leaves `*p_buf`. -/
def callReadLeb (maxbits : ℕ) (sign : Bool) (code : List UInt8) (ip : ℕ) : Option UInt64 × ℕ :=
  match readLeb maxbits sign code ip with
  | some (result, behind) => (some result, behind)
  | none => (none, ip)

/-! ### Signed numbers -/

theorem testBit_six : ∀ n < 128, n.testBit 6 = decide (64 ≤ n) := by decide +kernel

theorem lebNumber_unsigned (bs : List UInt8) : lebNumber false bs = lebValue bs := by
  simp [lebNumber]

/-- A signed number by the last byte of its encoding. -/
theorem lebNumber_signed {bs : List UInt8} {last : UInt8} (hlast : bs.getLast? = some last)
    (hlt : last.toNat < 128) :
    lebNumber true bs = lebValue bs - if 64 ≤ last.toNat then 2 ^ (7 * bs.length) else 0 := by
  simp [lebNumber, hlast, testBit_six last.toNat hlt]

theorem lowBits_signed {maxbits : ℕ} {r : UInt64} {v k : ℤ}
    (hr : (r.toNat : ℤ) = v + k * (2 ^ maxbits : ℕ)) (hle : -(2 ^ maxbits : ℕ) ≤ v * 2)
    (hlt : v * 2 < (2 ^ maxbits : ℕ)) : lowBits maxbits true r = v := by
  rw [lowBits, if_pos rfl, hr, Int.add_mul_bmod_self_right, Int.bmod_eq_of_le_mul_two hle hlt]

/-- All bits from the `n`th on are set. -/
theorem toNat_signExtended {r : UInt64} {n : ℕ} (hn : n < 64) (hr : r.toNat < 2 ^ n) :
    (r ||| (~~~0 : UInt64) <<< n.toUInt64).toNat = r.toNat + (2 ^ 64 - 2 ^ n) := by
  have hwidth : 2 ^ 64 = 2 ^ n * 2 ^ (64 - n) := by
    rw [← Nat.pow_add]
    congr 1
    omega
  have hshift : n.toUInt64.toNat % 64 = n := by
    simp only [Nat.toUInt64_eq, UInt64.toNat_ofNat']
    omega
  have hones : (~~~0 : UInt64).toNat % 2 ^ (64 - n) = 2 ^ (64 - n) - 1 := by
    have hall : (~~~0 : UInt64).toNat = 2 ^ n * 2 ^ (64 - n) - 1 := by
      rw [← hwidth]
      rfl
    have hsplit : 2 ^ n * 2 ^ (64 - n) - 1
        = (2 ^ (64 - n) - 1) + 2 ^ (64 - n) * (2 ^ n - 1) := by
      have hpos := Nat.two_pow_pos (64 - n)
      have hle : 2 ^ (64 - n) ≤ 2 ^ (64 - n) * 2 ^ n := Nat.le_mul_of_pos_right _ (Nat.two_pow_pos n)
      rw [Nat.mul_sub, Nat.mul_one, Nat.mul_comm (2 ^ n)]
      omega
    rw [hall, hsplit, Nat.add_mul_mod_self_left, Nat.mod_eq_of_lt]
    exact Nat.sub_lt (Nat.two_pow_pos _) Nat.one_pos
  have hmask : ((~~~0 : UInt64) <<< n.toUInt64).toNat = 2 ^ n * (2 ^ (64 - n) - 1) := by
    rw [UInt64.toNat_shiftLeft, hshift, Nat.shiftLeft_eq, Nat.mul_comm, hwidth,
      Nat.mul_mod_mul_left, hones]
  rw [UInt64.toNat_or, hmask, Nat.or_comm, ← Nat.two_pow_add_eq_or_of_lt hr, Nat.mul_sub,
    Nat.mul_one, ← hwidth, Nat.add_comm]

/-! ### The loop -/

/-- How the loop of `read_leb` ends at an encoding that is not too long. -/
structure LoopEnds (maxbits : ℕ) (code : List UInt8) (ip : ℕ) (bs : List UInt8) (r : UInt64)
    (low : ℕ) (last : UInt8) : Prop where
  loop : readLebLoop maxbits (code.drop ip) 0 0 = some (r, last, bs.length)
  isLeb : IsLeb bs
  length : bs.length ≤ (maxbits + 6) / 7
  getLast : bs.getLast? = some last
  last_lt : last.toNat < 128
  low_lt : low < 2 ^ (7 * (bs.length - 1))
  value : lebValue bs = low + 2 ^ (7 * (bs.length - 1)) * last.toNat
  result : r.toNat = lebValue bs % 2 ^ 64

theorem exists_loopEnds {maxbits : ℕ} (hmax : (maxbits + 6) / 7 ≤ 10) {code bs : List UInt8}
    {ip : ℕ} (hbegins : bs <+: code.drop ip) (hbs : IsLeb bs)
    (hlen : bs.length ≤ (maxbits + 6) / 7) :
    ∃ r low last, LoopEnds maxbits code ip bs r low last := by
  obtain ⟨rest, hrest⟩ := hbegins
  obtain ⟨r, last, hloop, hlast, hr⟩ :=
    readLebLoop_encoding hmax bs rest 0 0 hbs (by omega) (by decide)
  obtain ⟨low, last', hlast', hlt, hlow, hvalue⟩ := hbs.exists_last
  obtain rfl := Option.some.inj (hlast.symm.trans hlast')
  rw [hrest, Nat.zero_add] at hloop
  have hzero : (0 : UInt64).toNat + 2 ^ (7 * 0) * lebValue bs = lebValue bs := by
    have h0 : (0 : UInt64).toNat = 0 := rfl
    rw [h0]
    omega
  rw [hzero] at hr
  exact ⟨r, low, last, hloop, hbs, hlen, hlast, hlt, hlow, hvalue, hr⟩

variable {maxbits : ℕ} {sign : Bool} {code bs : List UInt8} {ip low : ℕ} {r : UInt64}
  {last : UInt8}

theorem LoopEnds.value_lt (h : LoopEnds maxbits code ip bs r low last) :
    lebValue bs < 2 ^ (7 * bs.length) := by
  have hpos := h.isLeb.length_pos
  have hpow : 2 ^ (7 * bs.length) = 2 ^ (7 * (bs.length - 1)) * 128 := by
    rw [(by omega : 7 * bs.length = 7 * (bs.length - 1) + 7), Nat.pow_add]
  have hmul : 2 ^ (7 * (bs.length - 1)) * last.toNat ≤ 2 ^ (7 * (bs.length - 1)) * 127 :=
    Nat.mul_le_mul_left _ (Nat.le_of_lt_succ h.last_lt)
  have hlow := h.low_lt
  rw [h.value, hpow]
  omega

/-- An encoding whose bits end before `maxbits` has no unused bits. -/
theorem LoopEnds.isLebOf_short (h : LoopEnds maxbits code ip bs r low last)
    (hshort : 7 * bs.length < maxbits) : IsLebOf maxbits sign bs where
  isLeb := h.isLeb
  length := h.length
  unused last _ i hi hbehind := by
    have hpos := h.isLeb.length_pos
    omega

theorem LoopEnds.lowBits_short (h : LoopEnds maxbits code ip bs r low last) (hmax : maxbits ≤ 64)
    (hshort : 7 * bs.length < maxbits) : lowBits maxbits false r = lebNumber false bs := by
  have hvalue := h.value_lt
  have hbits : 2 ^ (7 * bs.length) ≤ 2 ^ maxbits := Nat.pow_le_pow_right (by decide) hshort.le
  have hword : 2 ^ maxbits ≤ 2 ^ 64 := Nat.pow_le_pow_right (by decide) hmax
  rw [lebNumber_unsigned, lowBits, h.result, Nat.mod_eq_of_lt (by omega),
    Nat.mod_eq_of_lt (by omega)]
  rfl

/-- The sign of a short encoding is extended. -/
theorem LoopEnds.lowBits_signExtended (h : LoopEnds maxbits code ip bs r low last)
    (hmax : maxbits ≤ 64) (hshort : 7 * bs.length < maxbits) :
    lowBits maxbits true (if last &&& 0x40 = 0 then r
      else r ||| (~~~0 : UInt64) <<< (7 * bs.length).toUInt64) = lebNumber true bs := by
  have hpos := h.isLeb.length_pos
  have hlow := h.low_lt
  have hvalue := h.value
  have hlt := h.last_lt
  have hpow : 2 ^ (7 * bs.length) = 2 ^ (7 * (bs.length - 1)) * 128 := by
    rw [(by omega : 7 * bs.length = 7 * (bs.length - 1) + 7), Nat.pow_add]
  have hbits : 2 ^ (7 * bs.length) ≤ 2 ^ maxbits := Nat.pow_le_pow_right (by decide) hshort.le
  have hword : 2 ^ 64 = 2 ^ (64 - maxbits) * 2 ^ maxbits := by
    rw [← Nat.pow_add]
    congr 1
    omega
  have hfits : 2 ^ maxbits ≤ 2 ^ 64 := Nat.pow_le_pow_right (by decide) hmax
  have hexact : r.toNat = lebValue bs := by
    have hsmall := h.value_lt
    rw [h.result, Nat.mod_eq_of_lt (by omega)]
  have hmask : ∀ n < 128, n &&& 0x40 = 0 ↔ n < 64 := by decide +kernel
  have hsign : last &&& 0x40 = 0 ↔ last.toNat < 64 :=
    (and_eq_iff last 0x40 0).trans (hmask last.toNat hlt)
  have hcast : ((2 ^ (7 * bs.length) : ℕ) : ℤ) = 2 ^ (7 * bs.length) := by norm_cast
  rw [lebNumber_signed h.getLast hlt]
  by_cases hneg : last.toNat < 64
  · have hmul : 2 ^ (7 * (bs.length - 1)) * last.toNat ≤ 2 ^ (7 * (bs.length - 1)) * 63 :=
      Nat.mul_le_mul_left _ (Nat.le_of_lt_succ hneg)
    rw [if_pos (hsign.mpr hneg), if_neg (by omega)]
    refine lowBits_signed (k := 0) ?_ ?_ ?_
    · omega
    · omega
    · omega
  · have hmul : 2 ^ (7 * (bs.length - 1)) * 64 ≤ 2 ^ (7 * (bs.length - 1)) * last.toNat :=
      Nat.mul_le_mul_left _ (Nat.le_of_not_lt hneg)
    have hmul' : 2 ^ (7 * (bs.length - 1)) * last.toNat ≤ 2 ^ (7 * (bs.length - 1)) * 127 :=
      Nat.mul_le_mul_left _ (Nat.le_of_lt_succ hlt)
    rw [if_neg (fun h0 => hneg (hsign.mp h0)), if_pos (by omega), ← hcast]
    refine lowBits_signed (k := (2 ^ (64 - maxbits) : ℕ)) ?_ ?_ ?_
    · rw [toNat_signExtended (by omega) (by omega), hexact, ← Nat.cast_mul, ← hword]
      omega
    · omega
    · omega

theorem LoopEnds.isLebOf_iff (h : LoopEnds maxbits code ip bs r low last) :
    IsLebOf maxbits sign bs ↔ ∀ i < 7, maxbits ≤ 7 * (bs.length - 1) + i →
      last.toNat.testBit i = (sign && last.toNat.testBit (maxbits - 1 - 7 * (bs.length - 1))) := by
  constructor
  · intro hleb
    exact hleb.unused last h.getLast
  · intro hunused
    refine ⟨h.isLeb, h.length, fun last' hlast' => ?_⟩
    obtain rfl := Option.some.inj (h.getLast.symm.trans hlast')
    exact hunused

/-! ### The call -/

/-- The test of the bits behind a number, which has to be a copy of its sign. -/
theorem extends_iff (b unused sign ones : UInt8) :
    (b &&& unused = if b &&& sign = 0 then 0 else ones) ↔
      (b.toNat &&& unused.toNat = if b.toNat &&& sign.toNat = 0 then 0 else ones.toNat) := by
  have hsign : b &&& sign = 0 ↔ b.toNat &&& sign.toNat = 0 := and_eq_iff b sign 0
  by_cases h : b &&& sign = 0
  · rw [if_pos h, if_pos (hsign.mp h)]
    exact and_eq_iff b unused 0
  · rw [if_neg h, if_neg (mt hsign.mpr h)]
    exact and_eq_iff b unused ones

/-- `read_leb` is true just for the encodings of its kind, and has read their number. -/
structure Decodes (maxbits : ℕ) (sign : Bool) (code : List UInt8) (ip : ℕ) (bs : List UInt8) :
    Prop where
  accepts : IsLebOf maxbits sign bs → ∃ r, readLeb maxbits sign code ip = some (r, ip + bs.length) ∧
    lowBits maxbits sign r = lebNumber sign bs
  refuses : ¬IsLebOf maxbits sign bs → readLeb maxbits sign code ip = none

/-- A test of the last byte decides, which holds for the encodings of the kind. -/
theorem decodes_of_test {c : Prop} [Decidable c] (hiff : IsLebOf maxbits sign bs ↔ c)
    (hread : readLeb maxbits sign code ip = if c then some (r, ip + bs.length) else none)
    (hlow : c → lowBits maxbits sign r = lebNumber sign bs) : Decodes maxbits sign code ip bs where
  accepts hleb := ⟨r, hread.trans (if_pos (hiff.mp hleb)), hlow (hiff.mp hleb)⟩
  refuses hleb := hread.trans (if_neg fun hc => hleb (hiff.mpr hc))

theorem decodes_of_short (hends : LoopEnds maxbits code ip bs r low last)
    (hshort : 7 * bs.length < maxbits) {r' : UInt64}
    (hread : readLeb maxbits sign code ip = some (r', ip + bs.length))
    (hlow : lowBits maxbits sign r' = lebNumber sign bs) : Decodes maxbits sign code ip bs where
  accepts _ := ⟨r', hread, hlow⟩
  refuses hleb := absurd (hends.isLebOf_short hshort) hleb

theorem decodes_uint32 (h : LoopEnds 32 code ip bs r low last) : Decodes 32 false code ip bs := by
  have hlen := h.length
  by_cases hshort : 7 * bs.length < 32
  · refine decodes_of_short h hshort ?_ (h.lowBits_short (by decide) hshort)
    simp only [readLeb, h.loop]
    simp [hshort]
  · have hfive : bs.length = 5 := by omega
    have hlow := h.low_lt
    have hvalue := h.value
    have hlt := h.last_lt
    rw [hfive] at hlow hvalue
    have hbits : ∀ n < 128, ((∀ i < 7, 32 ≤ 28 + i → n.testBit i = false) ↔ n &&& 0xf0 = 0) ∧
        (n &&& 0xf0 = 0 → n < 16) := by decide +kernel
    obtain ⟨hunused, hsmall⟩ := hbits last.toNat hlt
    have htest := and_eq_iff last 0xf0 0
    refine decodes_of_test (c := last &&& 0xf0 = 0) (r := r) ?_ ?_ ?_
    · rw [h.isLebOf_iff, htest, hfive]
      exact hunused
    · simp only [readLeb, h.loop]
      simp [hfive]
    · intro hc
      have hhigh := hsmall (htest.mp hc)
      rw [lebNumber_unsigned, lowBits, if_neg Bool.false_ne_true, h.result]
      omega

/-- The last byte of a signed number of maximal length: in its values up to `pos` and from `neg`
on the unused bits are copies of the sign, and the test of `read_leb` holds. -/
theorem decodes_signed (h : LoopEnds maxbits code ip bs r low last) (unused top ones : UInt8)
    (pos neg : ℕ)
    (hunused : ∀ n < 128, (∀ i < 7, maxbits ≤ 7 * (bs.length - 1) + i →
      n.testBit i = (true && n.testBit (maxbits - 1 - 7 * (bs.length - 1)))) ↔ n < pos ∨ neg ≤ n)
    (htest : ∀ n < 128, (n &&& unused.toNat = if n &&& top.toNat = 0 then 0 else ones.toNat) ↔
      n < pos ∨ neg ≤ n)
    (hread : readLeb maxbits true code ip =
      if last &&& unused = (if last &&& top = 0 then 0 else ones) then some (r, ip + bs.length)
      else none)
    (hlow : last.toNat < pos ∨ neg ≤ last.toNat → lowBits maxbits true r = lebNumber true bs) :
    Decodes maxbits true code ip bs := by
  have hc := (extends_iff last unused top ones).trans (htest last.toNat h.last_lt)
  have hiff : IsLebOf maxbits true bs ↔ last.toNat < pos ∨ neg ≤ last.toNat :=
    h.isLebOf_iff.trans (hunused last.toNat h.last_lt)
  exact decodes_of_test (hiff.trans hc.symm) hread fun htrue => hlow (hc.mp htrue)

theorem decodes_int32 (h : LoopEnds 32 code ip bs r low last) : Decodes 32 true code ip bs := by
  have hlen := h.length
  by_cases hshort : 7 * bs.length < 32
  · refine decodes_of_short h hshort ?_ (h.lowBits_signExtended (by decide) hshort)
    simp only [readLeb, h.loop]
    simp [hshort]
  · have hfive : bs.length = 5 := by omega
    refine decodes_signed h 0xf0 0x8 0x70 8 0x78 ?_ (by decide +kernel) ?_ ?_
    · rw [hfive]
      decide +kernel
    · simp only [readLeb, h.loop]
      simp [hfive]
    · have hlow := h.low_lt
      have hvalue := h.value
      have hresult := h.result
      have hlt := h.last_lt
      rw [hfive] at hlow hvalue
      rw [lebNumber_signed h.getLast hlt, hfive]
      rintro (hpos | hneg)
      · refine lowBits_signed (k := 0) ?_ ?_ ?_ <;> omega
      · refine lowBits_signed (k := 8) ?_ ?_ ?_ <;> omega

theorem decodes_int64 (h : LoopEnds 64 code ip bs r low last) : Decodes 64 true code ip bs := by
  have hlen := h.length
  by_cases hshort : 7 * bs.length < 64
  · refine decodes_of_short h hshort ?_ (h.lowBits_signExtended (by decide) hshort)
    simp only [readLeb, h.loop]
    simp [hshort]
  · have hten : bs.length = 10 := by omega
    refine decodes_signed h 0xfe 0x1 0x7e 1 0x7f ?_ (by decide +kernel) ?_ ?_
    · rw [hten]
      decide +kernel
    · simp only [readLeb, h.loop]
      simp [hten]
    · have hlow := h.low_lt
      have hvalue := h.value
      have hresult := h.result
      have hlt := h.last_lt
      rw [hten] at hlow hvalue
      rw [lebNumber_signed h.getLast hlt, hten]
      rintro (hpos | hneg)
      · refine lowBits_signed (k := 0) ?_ ?_ ?_ <;> omega
      · refine lowBits_signed (k := 1) ?_ ?_ ?_ <;> omega

theorem decodes_of_loopEnds (hkind : (maxbits, sign) ∈ [(32, false), (32, true), (64, true)])
    (h : LoopEnds maxbits code ip bs r low last) : Decodes maxbits sign code ip bs := by
  simp only [List.mem_cons, List.not_mem_nil, or_false, Prod.mk.injEq] at hkind
  rcases hkind with ⟨rfl, rfl⟩ | ⟨rfl, rfl⟩ | ⟨rfl, rfl⟩
  · exact decodes_uint32 h
  · exact decodes_int32 h
  · exact decodes_int64 h

/-- `read_leb` is true just where an encoding of its kind begins, and ends behind it with the
number; otherwise it leaves the position. -/
theorem callReadLeb_decodes (hkind : (maxbits, sign) ∈ [(32, false), (32, true), (64, true)])
    (code : List UInt8) (ip : ℕ) :
    (∀ bs, IsLebOf maxbits sign bs → bs <+: code.drop ip →
      ∃ r, callReadLeb maxbits sign code ip = (some r, ip + bs.length) ∧
        lowBits maxbits sign r = lebNumber sign bs ∧ skipLeb code ip = .ok (ip + bs.length)) ∧
    ((¬∃ bs, IsLebOf maxbits sign bs ∧ bs <+: code.drop ip) →
      callReadLeb maxbits sign code ip = (none, ip)) := by
  have hmax : (maxbits + 6) / 7 ≤ 10 := by
    simp only [List.mem_cons, List.not_mem_nil, or_false, Prod.mk.injEq] at hkind
    omega
  constructor
  · intro bs hleb hbegins
    obtain ⟨r, low, last, hends⟩ := exists_loopEnds hmax hbegins hleb.isLeb hleb.length
    obtain ⟨r', hread, hlow⟩ := (decodes_of_loopEnds hkind hends).accepts hleb
    obtain ⟨rest, hrest⟩ := hbegins
    refine ⟨r', ?_, hlow, skipLeb_encoding hrest.symm hleb.isLeb⟩
    rw [callReadLeb, hread]
  · intro hnone
    have hread : readLeb maxbits sign code ip = none := by
      cases hloop : readLebLoop maxbits (code.drop ip) 0 0 with
      | none => simp only [readLeb, hloop]
      | some found =>
        obtain ⟨bs, hbegins, hbs, hlen⟩ := exists_encoding_of_readLebLoop _ _ _ hloop
        obtain ⟨r, low, last, hends⟩ := exists_loopEnds hmax hbegins hbs (by omega)
        exact (decodes_of_loopEnds hkind hends).refuses fun hleb => hnone ⟨bs, hleb, hbegins⟩
    rw [callReadLeb, hread]

/-- The number -2 of 32 bits in five bytes, behind another byte. -/
theorem callReadLeb_decodes_minus_two :
    ∃ r, callReadLeb 32 true [0x41, 0xfe, 0xff, 0xff, 0xff, 0x7f, 0x0b] 1 = (some r, 6) ∧
      lowBits 32 true r = -2 := by
  have hleb : IsLebOf 32 true [0xfe, 0xff, 0xff, 0xff, 0x7f] := by
    refine ⟨⟨by decide, by decide, by decide, by decide, rfl⟩, by decide, ?_⟩
    intro last hlast
    obtain rfl : last = 0x7f := Option.some.inj (hlast.symm.trans rfl)
    decide
  obtain ⟨r, hread, hlow, -⟩ := (callReadLeb_decodes (by decide)
    [0x41, 0xfe, 0xff, 0xff, 0xff, 0x7f, 0x0b] 1).1 _ hleb ⟨[0x0b], rfl⟩
  exact ⟨r, hread, hlow.trans (by decide)⟩

end MVVM.Interp
