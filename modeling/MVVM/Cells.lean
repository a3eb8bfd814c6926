import Mathlib.Data.List.Basic
import Mathlib.Logic.Function.Basic

/-!
# Blocks of cells in a memory

A memory maps addresses to cells. A block is read and written as a list; the lemmas say
which cells a write changes and which ones a read depends on. The file names nothing of
a particular program.
-/

namespace MVVM.Cells

variable {β : Type*}

/-- The `n` cells from address `a` on. -/
def block (m : ℕ → β) (a n : ℕ) : List β := (List.range n).map fun i => m (a + i)

def store (m : ℕ → β) (a : ℕ) (xs : List β) : ℕ → β :=
  fun b => if a ≤ b then (xs[b - a]?).getD (m b) else m b

@[simp] theorem length_block (m : ℕ → β) (a n : ℕ) : (block m a n).length = n := by
  simp [block]

theorem block_add (m : ℕ → β) (a k n : ℕ) : block m a (k + n) = block m a k ++ block m (a + k) n := by
  simp [block, List.range_add, Nat.add_assoc]

theorem store_of_lt (m : ℕ → β) {a b : ℕ} (xs : List β) (h : b < a) : store m a xs b = m b :=
  if_neg (Nat.not_le.mpr h)

theorem store_of_ge (m : ℕ → β) {a b : ℕ} (xs : List β) (h : a + xs.length ≤ b) :
    store m a xs b = m b := by
  have hnone : xs[b - a]? = none := List.getElem?_eq_none (by omega)
  rw [store, hnone, Option.getD_none, ite_self]

theorem block_store (m : ℕ → β) (a : ℕ) (xs : List β) : block (store m a xs) a xs.length = xs := by
  refine List.ext_getElem (by simp) fun i hi hi' => ?_
  simp [block, store, hi']

theorem block_congr {m m' : ℕ → β} {a n : ℕ} (h : ∀ b, a ≤ b → b < a + n → m b = m' b) :
    block m a n = block m' a n := by
  refine List.map_congr_left fun i hi => ?_
  have hlt : i < n := List.mem_range.mp hi
  exact h (a + i) (by omega) (by omega)

/-- A block next to which another one is stored. -/
theorem block_store_of_apart (m : ℕ → β) {a b n : ℕ} {xs : List β}
    (h : a + n ≤ b ∨ b + xs.length ≤ a) : block (store m b xs) a n = block m a n := by
  refine block_congr fun c hlo hhi => ?_
  rcases h with hbelow | habove
  · exact store_of_lt m xs (by omega)
  · exact store_of_ge m xs (by omega)

/-! ### Records -/

/-- A record at `p`: the cells at some offsets, written one after the other. -/
def put (m : ℕ → β) (p : ℕ) (fields : List (ℕ × β)) : ℕ → β :=
  fields.foldl (fun m f => Function.update m (p + f.1) f.2) m

variable {m : ℕ → β} {p : ℕ} {fields more : List (ℕ × β)}

theorem put_cons (f : ℕ × β) :
    put m p (f :: fields) = put (Function.update m (p + f.1) f.2) p fields := rfl

theorem put_append : put m p (fields ++ more) = put (put m p fields) p more :=
  List.foldl_append

theorem put_of_notMem {a : ℕ} (h : ∀ f ∈ fields, a ≠ p + f.1) : put m p fields a = m a := by
  induction fields generalizing m with
  | nil => rfl
  | cons f fields ih =>
    rw [put_cons, ih fun g hg => h g (List.mem_cons_of_mem f hg)]
    exact Function.update_of_ne (h f List.mem_cons_self) _ _

theorem put_of_mem (hnodup : (fields.map Prod.fst).Nodup) {o : ℕ} {v : β}
    (h : (o, v) ∈ fields) : put m p fields (p + o) = v := by
  induction fields generalizing m with
  | nil => exact absurd h List.not_mem_nil
  | cons f fields ih =>
    rw [List.map_cons, List.nodup_cons] at hnodup
    rw [put_cons]
    rcases List.mem_cons.mp h with rfl | h
    · rw [put_of_notMem fun g hg heq => ?_, Function.update_self]
      have hoffset : g.1 = o := by omega
      exact hnodup.1 (List.mem_map.mpr ⟨g, hg, hoffset⟩)
    · exact ih hnodup.2 h

/-- What a record holds depends on what was there only where it has no field. -/
theorem put_congr {m' : ℕ → β} {a : ℕ} (h : m a = m' a) : put m p fields a = put m' p fields a := by
  induction fields generalizing m m' with
  | nil => exact h
  | cons f fields ih =>
    rw [put_cons, put_cons]
    refine ih ?_
    by_cases ha : a = p + f.1
    · rw [ha, Function.update_self, Function.update_self]
    · rw [Function.update_of_ne ha, Function.update_of_ne ha, h]

end MVVM.Cells
