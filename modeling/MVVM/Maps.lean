import Mathlib.Data.List.Basic
import Mathlib.Order.Lattice
import Std.Data.TreeMap

/-!
# Loops over ordered maps

A loop over a map that writes each entry, converted, into another map. A key that two
entries are converted to keeps the later one. A loop that counts the entries of a map
counts, before each, those that come earlier in the order. The file names nothing of a
particular program.
-/

namespace MVVM.Maps

variable {κ κ' ν ν' : Type*}

/-- In a descending list an element stands behind the greater ones. -/
theorem getElem?_iff_countP [LinearOrder κ] {l : List (κ × ν)}
    (hdesc : l.Pairwise fun a b => b.1 < a.1) {k : ℕ} {x : κ × ν} :
    l[k]? = some x ↔ x ∈ l ∧ (l.countP fun e => x.1 < e.1) = k := by
  induction l generalizing k with
  | nil => simp
  | cons a l ih =>
    obtain ⟨hlt, hdesc⟩ := List.pairwise_cons.mp hdesc
    have hnone : (l.countP fun e => a.1 < e.1) = 0 := by
      rw [List.countP_eq_zero]
      intro b hb
      simpa using le_of_lt (hlt b hb)
    cases k with
    | zero =>
      rw [List.getElem?_cons_zero, Option.some.injEq]
      constructor
      · rintro rfl
        refine ⟨List.mem_cons_self, ?_⟩
        rw [List.countP_cons_of_neg (by simp), hnone]
      · intro ⟨hx, hcount⟩
        rcases List.mem_cons.mp hx with rfl | hx
        · rfl
        · rw [List.countP_cons_of_pos (by simpa using hlt x hx)] at hcount
          omega
    | succ k =>
      rw [List.getElem?_cons_succ, ih hdesc]
      constructor
      · intro ⟨hx, hcount⟩
        refine ⟨List.mem_cons_of_mem a hx, ?_⟩
        rw [List.countP_cons_of_pos (by simpa using hlt x hx), hcount]
      · intro ⟨hx, hcount⟩
        rcases List.mem_cons.mp hx with rfl | hx
        · rw [List.countP_cons_of_neg (by simp), hnone] at hcount
          omega
        · rw [List.countP_cons_of_pos (by simpa using hlt x hx)] at hcount
          exact ⟨hx, Nat.succ.inj hcount⟩

section

variable {cmp : κ → κ → Ordering}

theorem mem_iff_exists [Std.TransCmp cmp] {m : Std.TreeMap κ ν cmp} {k : κ} :
    k ∈ m ↔ ∃ v, m[k]? = some v :=
  Std.TreeMap.mem_iff_isSome_getElem?.trans Option.isSome_iff_exists

theorem not_mem_iff [Std.TransCmp cmp] {m : Std.TreeMap κ ν cmp} {k : κ} :
    k ∉ m ↔ m[k]? = none := by
  rw [Std.TreeMap.mem_iff_isSome_getElem?, Bool.not_eq_true, Option.isSome_eq_false_iff,
    Option.isNone_iff_eq_none]

variable [Std.TransCmp cmp] [Std.LawfulEqCmp cmp]

theorem keys_ne (m : Std.TreeMap κ ν cmp) : m.toList.Pairwise fun a b => a.1 ≠ b.1 :=
  Std.TreeMap.distinct_keys_toList.imp fun h he => h (Std.LawfulEqCmp.compare_eq_iff_eq.mpr he)

theorem mem_toList_iff (m : Std.TreeMap κ ν cmp) (k : κ) (v : ν) :
    (k, v) ∈ m.toList ↔ m[k]? = some v :=
  Std.TreeMap.mem_toList_iff_getElem?_eq_some

theorem of_getElem?_foldl_insert (l : List (κ × ν)) (m : Std.TreeMap κ ν cmp) {k : κ} {v : ν}
    (h : (l.foldl (fun m e => m.insert e.1 e.2) m)[k]? = some v) :
    (k, v) ∈ l ∨ m[k]? = some v := by
  induction l generalizing m with
  | nil => exact .inr h
  | cons e l ih =>
    rcases ih _ h with hm | hm
    · exact .inl (List.mem_cons_of_mem _ hm)
    · rw [Std.TreeMap.getElem?_insert] at hm
      split at hm
      · rename_i he
        have hk : e.1 = k := Std.LawfulEqCmp.compare_eq_iff_eq.mp he
        exact .inl (by rw [← hk, ← Option.some.inj hm]; exact List.mem_cons_self)
      · exact .inr hm

theorem getElem?_foldl_insert (l : List (κ × ν)) (m : Std.TreeMap κ ν cmp)
    (hl : l.Pairwise fun a b => a.1 ≠ b.1) (k : κ) (v : ν) :
    (l.foldl (fun m e => m.insert e.1 e.2) m)[k]? = some v ↔
      (k, v) ∈ l ∨ ((∀ e ∈ l, e.1 ≠ k) ∧ m[k]? = some v) := by
  induction l generalizing m with
  | nil => simp
  | cons e l ih =>
    obtain ⟨hhead, htail⟩ := List.pairwise_cons.mp hl
    have hcmp (a b : κ) : cmp a b = .eq ↔ a = b := Std.LawfulEqCmp.compare_eq_iff_eq
    rw [List.foldl_cons, ih _ htail, Std.TreeMap.getElem?_insert]
    simp only [List.mem_cons, forall_eq_or_imp]
    constructor
    · rintro (hm | ⟨hne, hr⟩)
      · exact .inl (.inr hm)
      · split at hr
        · rename_i he
          exact .inl (.inl (Prod.ext ((hcmp _ _).mp he).symm (Option.some.inj hr).symm))
        · rename_i he
          exact .inr ⟨⟨fun h => he ((hcmp _ _).mpr h), hne⟩, hr⟩
    · rintro ((he | hm) | ⟨⟨he, hne⟩, hr⟩)
      · subst he
        exact .inr ⟨fun e' he' => (hhead e' he').symm, if_pos ((hcmp _ _).mpr rfl)⟩
      · exact .inl hm
      · exact .inr ⟨hne, (if_neg fun h => he ((hcmp _ _).mp h)).trans hr⟩

theorem getElem?_foldl_insert_of_mem {l : List (κ × ν)} (m : Std.TreeMap κ ν cmp)
    (hl : l.Pairwise fun a b => a.1 ≠ b.1) {k : κ} {v : ν} (h : (k, v) ∈ l) :
    (l.foldl (fun m e => m.insert e.1 e.2) m)[k]? = some v :=
  (getElem?_foldl_insert l m hl k v).mpr (.inl h)

end

/-- `for (auto &[k, v] : m) n[f k] = g v`. -/
def copy {cmp : κ → κ → Ordering} {cmp' : κ' → κ' → Ordering} (f : κ → κ') (g : ν → ν')
    (m : Std.TreeMap κ ν cmp) (n : Std.TreeMap κ' ν' cmp') : Std.TreeMap κ' ν' cmp' :=
  (m.toList.map fun e => (f e.1, g e.2)).foldl (fun n e => n.insert e.1 e.2) n

section

variable {cmp : κ → κ → Ordering} [Std.TransCmp cmp] [Std.LawfulEqCmp cmp]
  {cmp' : κ' → κ' → Ordering} [Std.TransCmp cmp'] [Std.LawfulEqCmp cmp']
  {f : κ → κ'} {g : ν → ν'}

theorem of_getElem?_copy {m : Std.TreeMap κ ν cmp} {k : κ'} {v : ν'}
    (h : (copy f g m (∅ : Std.TreeMap κ' ν' cmp'))[k]? = some v) :
    ∃ a b, m[a]? = some b ∧ f a = k ∧ g b = v := by
  rcases of_getElem?_foldl_insert _ _ h with hm | hm
  · obtain ⟨⟨a, b⟩, hab, heq⟩ := List.mem_map.mp hm
    obtain ⟨rfl, rfl⟩ := Prod.mk.inj heq
    exact ⟨a, b, (mem_toList_iff m a b).mp hab, rfl, rfl⟩
  · rw [Std.TreeMap.getElem?_emptyc] at hm
    cases hm

theorem getElem?_copy {m : Std.TreeMap κ ν cmp} (n : Std.TreeMap κ' ν' cmp')
    (hf : ∀ a b, a ∈ m → b ∈ m → f a = f b → a = b) {k : κ} {v : ν} (h : m[k]? = some v) :
    (copy f g m n)[f k]? = some (g v) := by
  have hmem : ∀ e ∈ m.toList, e.1 ∈ m := fun e he => by
    exact mem_iff_exists.mpr ⟨e.2, (mem_toList_iff m e.1 e.2).mp he⟩
  have hkeys : (m.toList.map fun e => (f e.1, g e.2)).Pairwise fun a b => a.1 ≠ b.1 := by
    rw [List.pairwise_map]
    exact (keys_ne m).imp_of_mem fun ha hb hne heq => hne (hf _ _ (hmem _ ha) (hmem _ hb) heq)
  exact getElem?_foldl_insert_of_mem n hkeys
    (List.mem_map_of_mem ((mem_toList_iff m k v).mpr h))

theorem getElem?_copy_id (m : Std.TreeMap κ ν cmp) (k : κ) :
    (copy id id m (∅ : Std.TreeMap κ ν cmp))[k]? = m[k]? := by
  refine Option.ext fun v => ⟨fun h => ?_, fun h => ?_⟩
  · obtain ⟨a, b, hab, rfl, rfl⟩ := of_getElem?_copy h
    exact hab
  · exact getElem?_copy ∅ (fun a b _ _ hab => hab) h

end

end MVVM.Maps
