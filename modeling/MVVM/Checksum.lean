import Mathlib.Data.Nat.ModEq
import Mathlib.Data.Nat.Prime.Basic
import Mathlib.Tactic.NormNum

/-!
# One's-complement checksums

A sum of words of 16 bits in which the carries are added at the low end. It checks when it
is all ones, which does not depend on the order of the two bytes of a word.
-/

namespace MVVM.Checksum

/-- The sum with its carries added at the low end. -/
def onesSum (n : ℕ) : ℕ := if n < 2 ^ 16 then n else onesSum (n / 2 ^ 16 + n % 2 ^ 16)
decreasing_by omega

def Checks (n : ℕ) : Prop := onesSum n = 2 ^ 16 - 1

/-- Addition with the carry added at the low end. -/
def onesAdd (a b : ℕ) : ℕ := if a + b < 2 ^ 16 then a + b else a + b - (2 ^ 16 - 1)

/-- The bytes with the weights `x` and `y` by turns. -/
def pairSum (x y : ℕ) : List UInt8 → ℕ
  | [] => 0
  | a :: l => x * a.toNat + pairSum y x l

/-! ### Sums -/

theorem onesSum_modEq (n : ℕ) : onesSum n ≡ n [MOD 65535] := by
  induction n using onesSum.induct with
  | case1 n h => rw [onesSum, if_pos h]
  | case2 n h ih =>
    rw [onesSum, if_neg h]
    refine ih.trans ?_
    unfold Nat.ModEq
    omega

theorem onesSum_lt (n : ℕ) : onesSum n < 2 ^ 16 := by
  induction n using onesSum.induct with
  | case1 n h => rwa [onesSum, if_pos h]
  | case2 n h ih => rwa [onesSum, if_neg h]

theorem onesSum_pos {n : ℕ} (hn : 0 < n) : 0 < onesSum n := by
  induction n using onesSum.induct with
  | case1 n h => rwa [onesSum, if_pos h]
  | case2 n h ih =>
    rw [onesSum, if_neg h]
    exact ih (by omega)

/-- A sum checks when it is divisible by 65535 and there is something in it. -/
theorem checks_iff (n : ℕ) : Checks n ↔ n ≡ 0 [MOD 65535] ∧ 0 < n := by
  have hmod : onesSum n ≡ n [MOD 65535] := onesSum_modEq n
  have hlt := onesSum_lt n
  unfold Checks
  constructor
  · intro h
    refine ⟨hmod.symm.trans (by rw [h]; decide), Nat.pos_of_ne_zero ?_⟩
    rintro rfl
    rw [onesSum, if_pos (by decide)] at h
    cases h
  · intro ⟨hzero, hpos⟩
    have hsum := onesSum_pos hpos
    have hdvd : onesSum n % 65535 = 0 := hmod.trans hzero
    omega

/-- There are two zeros, and a sum is the first one just when there is nothing in it. -/
theorem eq_onesSum {n k : ℕ} (hk : k < 2 ^ 16) (hmod : k ≡ n [MOD 65535]) (hzero : k = 0 ↔ n = 0) :
    k = onesSum n := by
  have hsame : k % 65535 = onesSum n % 65535 := hmod.trans (onesSum_modEq n).symm
  have hlt := onesSum_lt n
  rcases Nat.eq_zero_or_pos n with h | h
  · rw [h, onesSum, if_pos (by decide)]
    exact hzero.mpr h
  · have hpos := onesSum_pos h
    omega

theorem onesSum_eq_zero_iff (n : ℕ) : onesSum n = 0 ↔ n = 0 := by
  constructor
  · intro h
    rcases Nat.eq_zero_or_pos n with hn | hn
    · exact hn
    · have hpos := onesSum_pos hn
      omega
  · rintro rfl
    rw [onesSum, if_pos (by decide)]

theorem onesSum_add (a b : ℕ) : onesSum (a + b) = onesAdd (onesSum a) (onesSum b) := by
  have ha : onesSum a % 65535 = a % 65535 := onesSum_modEq a
  have hb : onesSum b % 65535 = b % 65535 := onesSum_modEq b
  have halt := onesSum_lt a
  have hblt := onesSum_lt b
  have hazero := onesSum_eq_zero_iff a
  have hbzero := onesSum_eq_zero_iff b
  symm
  apply eq_onesSum
  · unfold onesAdd
    split <;> omega
  · unfold onesAdd Nat.ModEq
    split <;> omega
  · unfold onesAdd
    split <;> omega

/-- Two foldings add all carries of a sum of up to 2^16 words. -/
theorem fold_twice {n : ℕ} (hn : n ≤ 2 ^ 16 * (2 ^ 16 - 1)) :
    (n / 2 ^ 16 + n % 2 ^ 16 + (n / 2 ^ 16 + n % 2 ^ 16) / 2 ^ 16) % 2 ^ 16 = onesSum n := by
  have hcarry : n / 2 ^ 16 + n % 2 ^ 16 ≤ 2 * (2 ^ 16 - 1) := by omega
  have honce : (n / 2 ^ 16 + n % 2 ^ 16) % 65535 = n % 65535 := by omega
  have hsome : n / 2 ^ 16 + n % 2 ^ 16 = 0 ↔ n = 0 := by omega
  generalize n / 2 ^ 16 + n % 2 ^ 16 = folded at hcarry honce hsome
  -- the first folding makes one carry at most, which fits into the second one
  have hlast : (folded + folded / 2 ^ 16) % 2 ^ 16
      = if folded < 2 ^ 16 then folded else folded - (2 ^ 16 - 1) := by
    split <;> omega
  rw [hlast]
  apply eq_onesSum
  · split <;> omega
  · unfold Nat.ModEq
    split <;> omega
  · rw [← hsome]
    split <;> omega

/-! ### Bytes -/

theorem pairSum_set (x y : ℕ) (l : List UInt8) (i : ℕ) (b : UInt8) (hi : i < l.length) :
    pairSum x y (l.set i b) + (if i % 2 = 0 then x else y) * l[i].toNat =
      pairSum x y l + (if i % 2 = 0 then x else y) * b.toNat := by
  induction l generalizing x y i with
  | nil => cases hi
  | cons a l ih =>
    cases i with
    | zero =>
      rw [List.set_cons_zero, pairSum, pairSum, List.getElem_cons_zero, if_pos rfl]
      omega
    | succ i =>
      have hrest := ih y x i (Nat.lt_of_succ_lt_succ hi)
      have hweight : (if (i + 1) % 2 = 0 then x else y) = if i % 2 = 0 then y else x := by
        split <;> split <;> omega
      rw [List.set_cons_succ, pairSum, pairSum, List.getElem_cons_succ, hweight]
      omega

theorem pairSum_mul (k x y : ℕ) (l : List UInt8) :
    pairSum (k * x) (k * y) l = k * pairSum x y l := by
  induction l generalizing x y with
  | nil => rfl
  | cons a l ih => rw [pairSum, pairSum, ih, Nat.mul_add, Nat.mul_assoc]

theorem pairSum_modEq {n x y x' y' : ℕ} (hx : x ≡ x' [MOD n]) (hy : y ≡ y' [MOD n])
    (l : List UInt8) : pairSum x y l ≡ pairSum x' y' l [MOD n] := by
  induction l generalizing x y x' y' with
  | nil => rfl
  | cons a l ih => exact (hx.mul_right a.toNat).add (ih hy hx)

theorem pairSum_pos_iff {x y : ℕ} (hx : 0 < x) (hy : 0 < y) (l : List UInt8) :
    0 < pairSum x y l ↔ ∃ a ∈ l, 0 < a.toNat := by
  induction l generalizing x y with
  | nil => simp [pairSum]
  | cons a l ih =>
    rw [pairSum, Nat.add_pos_iff_pos_or_pos, ih hy hx, Nat.mul_pos_iff_of_pos_left hx]
    simp

/-- The sum of the words checks in both byte orders or in none. -/
theorem checks_swap_iff (l : List UInt8) :
    Checks (pairSum 1 256 l) ↔ Checks (pairSum 256 1 l) := by
  have hpos : 0 < pairSum 1 256 l ↔ 0 < pairSum 256 1 l := by
    rw [pairSum_pos_iff (by decide) (by decide), pairSum_pos_iff (by decide) (by decide)]
  have hswap : 256 * pairSum 1 256 l ≡ pairSum 256 1 l [MOD 65535] := by
    have hodd : 256 * 256 ≡ 1 [MOD 65535] := by decide
    rw [← pairSum_mul]
    exact pairSum_modEq (Nat.ModEq.refl (256 * 1)) hodd l
  rw [checks_iff, checks_iff, hpos]
  refine and_congr_left fun _ => ?_
  unfold Nat.ModEq at *
  omega

end MVVM.Checksum
