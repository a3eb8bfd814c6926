import Mathlib.Data.List.Perm.Basic
import Mathlib.Data.Prod.Lex
import Mathlib.Order.Defs.LinearOrder
import Mathlib.Order.Lattice

/-!
# Sorting that is not stable

A sort returns the elements in some order in which none comes before one that is less; equal
elements may come in any order. The lemmas say which element is sure to come first. The
file names nothing of a particular program.
-/

namespace MVVM.Sorting

variable {α β : Type*}

/-- The results that a sort may have. -/
def Sorts (less : α → α → Bool) (xs ys : List α) : Prop :=
  ys.Perm xs ∧ ys.Pairwise fun a b => less b a = false

variable [LinearOrder β] {key : α → β}

def lessBy (key : α → β) (a b : α) : Bool := decide (key a < key b)

theorem lessBy_eq_false {a b : α} : lessBy key b a = false ↔ key a ≤ key b := by
  simp [lessBy]

theorem exists_sorts (key : α → β) (xs : List α) : ∃ ys, Sorts (lessBy key) xs ys := by
  have hsorted : (xs.mergeSort fun a b => decide (key a ≤ key b)).Pairwise
      fun a b => decide (key a ≤ key b) = true := by
    apply List.pairwise_mergeSort
    · intro a b c hab hbc
      simp only [decide_eq_true_eq] at hab hbc ⊢
      exact le_trans hab hbc
    · intro a b
      simpa using le_total (key a) (key b)
  refine ⟨_, List.mergeSort_perm xs _, hsorted.imp fun hab => ?_⟩
  rw [lessBy_eq_false]
  simpa using hab

theorem head_of_sorts {xs ys : List α} {a : α} (h : Sorts (lessBy key) xs ys) (ha : a ∈ xs)
    (hleast : ∀ b ∈ xs, b ≠ a → key a < key b) : ys.head? = some a := by
  obtain ⟨hperm, hsorted⟩ := h
  have hay : a ∈ ys := hperm.mem_iff.mpr ha
  cases ys with
  | nil => simp at hay
  | cons b ys =>
    by_cases hb : b = a
    · rw [hb, List.head?_cons]
    · have hbx : b ∈ xs := hperm.mem_iff.mp List.mem_cons_self
      have hmem : a ∈ ys := (List.mem_cons.mp hay).resolve_left fun h => hb h.symm
      have hle : key b ≤ key a := lessBy_eq_false.mp ((List.pairwise_cons.mp hsorted).1 a hmem)
      exact absurd (hleast b hbx hb) (not_lt.mpr hle)

theorem Sorts.move_front {xs pre post : List α} {a b : α}
    (h : Sorts (lessBy key) xs (a :: (pre ++ b :: post))) (hle : key b ≤ key a) :
    Sorts (lessBy key) xs (b :: a :: (pre ++ post)) := by
  obtain ⟨hperm, hsorted⟩ := h
  obtain ⟨hhead, htail⟩ := List.pairwise_cons.mp hsorted
  have hsub : (pre ++ post).Sublist (pre ++ b :: post) :=
    (List.Sublist.refl pre).append (List.sublist_cons_self b post)
  refine ⟨?_, List.pairwise_cons.mpr ⟨fun c hc => ?_, List.pairwise_cons.mpr
    ⟨fun c hc => hhead c (hsub.subset hc), htail.sublist hsub⟩⟩⟩
  · refine List.Perm.trans ?_ hperm
    refine (List.Perm.swap a b _).trans (List.Perm.cons a ?_)
    exact List.perm_middle.symm
  · rw [lessBy_eq_false]
    rcases List.mem_cons.mp hc with rfl | hc
    · exact hle
    · exact le_trans hle (lessBy_eq_false.mp (hhead c (hsub.subset hc)))

theorem exists_sorts_head_ne {xs : List α} {a b : α} (hb : b ∈ xs) (hne : b ≠ a)
    (hle : key b ≤ key a) : ∃ ys, Sorts (lessBy key) xs ys ∧ ys.head? ≠ some a := by
  obtain ⟨ys, hys⟩ := exists_sorts key xs
  by_cases hhead : ys.head? = some a
  · cases ys with
    | nil => cases hhead
    | cons c ys =>
      obtain rfl : c = a := Option.some.inj hhead
      have hmem : b ∈ ys := (List.mem_cons.mp (hys.1.mem_iff.mpr hb)).resolve_left hne
      obtain ⟨pre, post, rfl⟩ := List.append_of_mem hmem
      exact ⟨_, hys.move_front hle, fun h => hne (Option.some.inj h)⟩
  · exact ⟨ys, hys, hhead⟩

/-- What is less comes earlier. -/
theorem Sorts.index_lt {xs ys : List α} {a b : α} {i j : ℕ} (h : Sorts (lessBy key) xs ys)
    (ha : ys[i]? = some a) (hb : ys[j]? = some b) (hlt : key a < key b) : i < j := by
  obtain ⟨hi, rfl⟩ := List.getElem?_eq_some_iff.mp ha
  obtain ⟨hj, rfl⟩ := List.getElem?_eq_some_iff.mp hb
  by_contra hle
  rcases Nat.lt_or_eq_of_le (Nat.le_of_not_lt hle) with hji | rfl
  · have hsorted := List.pairwise_iff_getElem.mp h.2 j i hj hi hji
    exact absurd (lessBy_eq_false.mp hsorted) (not_le.mpr hlt)
  · exact lt_irrefl _ hlt

/-- An element may come before all that are not less. -/
theorem exists_sorts_front (key : α → β) {xs : List α} {a : α} (ha : a ∈ xs) :
    ∃ pre post, Sorts (lessBy key) xs (pre ++ a :: post) ∧ ∀ b ∈ pre, key b < key a := by
  classical
  obtain ⟨ys, hperm, hsorted⟩ := exists_sorts (fun b => toLex (key b, if b = a then 0 else 1)) xs
  obtain ⟨pre, post, rfl, hno⟩ := List.eq_append_cons_of_mem (hperm.mem_iff.mpr ha)
  have hlex : ∀ {b c : α}, lessBy (fun b => toLex (key b, if b = a then 0 else 1)) c b = false →
      key b < key c ∨ key b = key c ∧ (if b = a then 0 else 1) ≤ if c = a then 0 else 1 :=
    fun hbc => Prod.Lex.toLex_le_toLex.mp (lessBy_eq_false.mp hbc)
  refine ⟨pre, post, ⟨hperm, hsorted.imp fun hbc => ?_⟩, fun b hb => ?_⟩
  · rw [lessBy_eq_false]
    exact (hlex hbc).elim le_of_lt fun heq => le_of_eq heq.1
  · have hba := (List.pairwise_append.mp hsorted).2.2 b hb a List.mem_cons_self
    have hne : b ≠ a := fun heq => hno (heq ▸ hb)
    refine (hlex hba).resolve_right fun heq => ?_
    rw [if_neg hne, if_pos rfl] at heq
    omega

end MVVM.Sorting
