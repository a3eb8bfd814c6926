import MVVM.Maps
import Mathlib.Data.List.Count

/-!
# Counting in ordered maps

A map that is incremented for each element of a list holds how often each of them occurs. In a
list of lists an element may be counted by its occurrences or by the lists that contain it. The
file names nothing of a particular program.
-/

namespace MVVM.Histogram

variable {κ : Type*} [BEq κ] [LawfulBEq κ] {cmp : κ → κ → Ordering} {m : Std.TreeMap κ ℕ cmp}
  {l : List κ}

/-- `m[k]++`. -/
def bump (m : Std.TreeMap κ ℕ cmp) (k : κ) : Std.TreeMap κ ℕ cmp := m.insert k (m.getD k 0 + 1)

/-- The map holds how often each element is in the list, and no other keys. -/
def Counts (m : Std.TreeMap κ ℕ cmp) (l : List κ) : Prop :=
  ∀ k, m[k]? = if k ∈ l then some (l.count k) else none

section

variable [Std.TransCmp cmp]

theorem counts_empty : Counts (∅ : Std.TreeMap κ ℕ cmp) [] := by
  intro k
  rw [Std.TreeMap.getElem?_emptyc, if_neg List.not_mem_nil]

theorem Counts.getD (h : Counts m l) (k : κ) : m.getD k 0 = l.count k := by
  rw [Std.TreeMap.getD_eq_getD_getElem?, h k]
  split
  · rfl
  · next hk => exact (List.count_eq_zero.mpr hk).symm

theorem Counts.bump [Std.LawfulEqCmp cmp] (h : Counts m l) (k : κ) :
    Counts (bump m k) (l ++ [k]) := by
  intro j
  rw [Histogram.bump, Std.TreeMap.getElem?_insert, h.getD]
  by_cases hj : k = j
  · subst hj
    rw [if_pos Std.ReflCmp.compare_self, if_pos (List.mem_append_right l List.mem_cons_self),
      List.count_append, List.count_singleton_self]
  · have hne : cmp k j ≠ .eq := fun he => hj (Std.LawfulEqCmp.compare_eq_iff_eq.mp he)
    have hcount : (l ++ [k]).count j = l.count j := by
      rw [List.count_append, List.count_singleton, if_neg (by simpa using hj), Nat.add_zero]
    rw [if_neg hne, h j, hcount]
    simp [Ne.symm hj]

theorem Counts.mem_iff (h : Counts m l) (k : κ) : k ∈ m ↔ k ∈ l := by
  rw [Std.TreeMap.mem_iff_isSome_getElem?, h k]
  split
  · next hk => exact iff_of_true rfl hk
  · next hk => exact iff_of_false (by simp) hk

theorem Counts.mem_toList [Std.LawfulEqCmp cmp] (h : Counts m l) (k : κ) (n : ℕ) :
    (k, n) ∈ m.toList ↔ k ∈ l ∧ n = l.count k := by
  rw [Maps.mem_toList_iff, h k]
  split
  · next hk => exact Iff.trans (by rw [Option.some.injEq, eq_comm]) (and_iff_right hk).symm
  · next hk => exact iff_of_false (by simp) fun hmem => hk hmem.1

end

/-! ### Lists of lists -/

theorem countP_mem_le (ls : List (List κ)) (k : κ) :
    ls.countP (fun l => k ∈ l) ≤ ls.flatten.count k := by
  induction ls with
  | nil => exact Nat.le_refl 0
  | cons l ls ih =>
    rw [List.countP_cons, List.flatten_cons, List.count_append]
    by_cases hk : k ∈ l
    · have hpos := List.count_pos_iff.mpr hk
      rw [if_pos (by simpa using hk)]
      omega
    · rw [if_neg (by simpa using hk)]
      omega

/-- The occurrences are as many as the lists just when no list has two of them. -/
theorem count_flatten_eq_iff (ls : List (List κ)) (k : κ) :
    ls.flatten.count k = ls.countP (fun l => k ∈ l) ↔ ∀ l ∈ ls, l.count k ≤ 1 := by
  induction ls with
  | nil => simp
  | cons l ls ih =>
    have hle := countP_mem_le ls k
    rw [List.forall_mem_cons, ← ih, List.countP_cons, List.flatten_cons, List.count_append]
    by_cases hk : k ∈ l
    · have hpos := List.count_pos_iff.mpr hk
      rw [if_pos (by simpa using hk)]
      omega
    · have hzero := List.count_eq_zero.mpr hk
      rw [if_neg (by simpa using hk), hzero]
      omega

end MVVM.Histogram
