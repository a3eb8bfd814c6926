import Mathlib.Data.List.DropRight
import Mathlib.Data.Int.Notation
import Mathlib.Tactic.NormNum

/-!
# Text, with the string operations of Python

Strings are lists of characters. The operations are those of `str`: `strip`, `split`,
`startswith`, `find`, and the decimal numbers of `int` and of formatting.
-/

namespace MVVM.Text

abbrev Str := List Char

instance lawfulBEqStr : LawfulBEq Str := inferInstance

-- Going through the text comes before going through all characters.
instance (priority := high) decidableForallMem (s : Str) (P : Char → Prop) [DecidablePred P] :
    Decidable (∀ c ∈ s, P c) := List.decidableBAll P s

instance (priority := high) decidableForallMemOption (o : Option Char) (P : Char → Prop)
    [DecidablePred P] : Decidable (∀ c ∈ o, P c) := Option.decidableForallMem o

/-- `str.isspace` of one character. -/
def isSpace (c : Char) : Bool :=
  c.toNat ∈ [9, 10, 11, 12, 13, 28, 29, 30, 31, 32, 133, 160, 5760, 8232, 8233, 8239, 8287,
      12288] ||
    (8192 ≤ c.toNat && c.toNat ≤ 8202)

/-- `strip`, of the characters that satisfy `p`. -/
def strip (p : Char → Bool) (s : Str) : Str := (s.dropWhile p).rdropWhile p

def words (s : Str) : List Str := (s.splitOnP isSpace).filter (· ≠ [])

def startsWith (s : Str) (pre : String) : Bool := pre.toList.isPrefixOf s

def find (sub : Str) : Str → Option ℕ
  | [] => if sub = [] then some 0 else none
  | c :: cs => if sub.isPrefixOf (c :: cs) then some 0 else (find sub cs).map (· + 1)

/-! ### Stripping -/

theorem dropWhile_of_head {p : Char → Bool} {s : Str} (h : ∀ c ∈ s.head?, p c = false) :
    s.dropWhile p = s := by
  cases s with
  | nil => rfl
  | cons c cs => simp [h c rfl]

theorem rdropWhile_of_last {p : Char → Bool} {s : Str}
    (h : ∀ c ∈ s.getLast?, p c = false) : s.rdropWhile p = s := by
  rw [List.rdropWhile_eq_self_iff]
  intro hne
  simp [h _ (List.getLast?_eq_some_getLast hne)]

theorem rdropWhile_append_of_all {p : Char → Bool} {s t : Str} (h : ∀ c ∈ t, p c = true) :
    (s ++ t).rdropWhile p = s.rdropWhile p := by
  rw [List.rdropWhile, List.rdropWhile, List.reverse_append, List.dropWhile_append_of_pos]
  intro c hc
  exact h c (List.mem_reverse.mp hc)

theorem rdropWhile_append_of_last {p : Char → Bool} {s : Str} (t : Str)
    (h : ∀ c ∈ s.getLast?, p c = false) : (s ++ t).rdropWhile p = s ++ t.rdropWhile p := by
  induction t using List.reverseRecOn with
  | nil => simp [rdropWhile_of_last h]
  | append_singleton t c ih =>
    rw [← List.append_assoc]
    by_cases hc : p c = true
    · rw [List.rdropWhile_concat_pos p _ c hc, List.rdropWhile_concat_pos p _ c hc, ih]
    · rw [List.rdropWhile_concat_neg p _ c hc, List.rdropWhile_concat_neg p _ c hc,
        List.append_assoc]

theorem strip_append {p : Char → Bool} {pre s post : Str} (hpre : ∀ c ∈ pre, p c = true)
    (hpost : ∀ c ∈ post, p c = true) (hne : s ≠ []) (hhead : ∀ c ∈ s.head?, p c = false)
    (hlast : ∀ c ∈ s.getLast?, p c = false) : strip p (pre ++ s ++ post) = s := by
  have hdrop : (pre ++ s ++ post).dropWhile p = s ++ post := by
    rw [List.append_assoc, List.dropWhile_append_of_pos hpre]
    refine dropWhile_of_head ?_
    rw [List.head?_append_of_ne_nil _ hne]
    exact hhead
  rw [strip, hdrop, rdropWhile_append_of_all hpost, rdropWhile_of_last hlast]

/-! ### Words -/

/-- What may follow a word: nothing, or something after a blank. -/
def Open (s : Str) : Prop := s = [] ∨ s.head? = some ' '

theorem words_cons_word {w rest : Str} (hw : ∀ c ∈ w, isSpace c = false) (hne : w ≠ [])
    (hrest : Open rest) : words (w ++ rest) = w :: words rest := by
  rcases hrest with rfl | hrest
  · rw [List.append_nil, words, List.splitOnP_eq_singleton hw]
    simp [words, hne]
  · obtain ⟨tail, rfl⟩ : ∃ tail, rest = ' ' :: tail := by
      cases rest with
      | nil => cases hrest
      | cons c tail => exact ⟨tail, by rw [Option.some.inj hrest]⟩
    have hblank : words (' ' :: tail) = words tail := by
      rw [words, List.splitOnP_cons_eq_if_modifyHead, if_pos (by decide)]
      simp [words]
    rw [words, List.splitOnP_append_cons_of_forall_mem hw ' ' (by decide), hblank]
    simp [words, hne]

theorem words_blank (s : Str) : words (' ' :: s) = words s := by
  rw [words, List.splitOnP_cons_eq_if_modifyHead, if_pos (by decide)]
  simp [words]

/-! ### Prefixes and the place of a substring -/

theorem startsWith_append {w rest : Str} {pre : String} (hblank : ' ' ∉ pre.toList)
    (hrest : Open rest) : startsWith (w ++ rest) pre = startsWith w pre := by
  rw [startsWith, startsWith, Bool.eq_iff_iff, List.isPrefixOf_iff_prefix,
    List.isPrefixOf_iff_prefix]
  refine ⟨fun h => ?_, fun h => h.trans (List.prefix_append w rest)⟩
  rcases List.prefix_or_prefix_of_prefix h (List.prefix_append w rest) with hw | ⟨t, ht⟩
  · exact hw
  · rw [← ht, List.prefix_append_right_inj] at h
    obtain ⟨tail, htail⟩ := h
    cases t with
    | nil => exact ⟨[], by simpa using ht.symm⟩
    | cons c t =>
      rcases hrest with rfl | hrest
      · cases htail
      · rw [← htail, List.cons_append, List.head?_cons] at hrest
        rw [← ht, Option.some.inj hrest] at hblank
        exact absurd (by simp) hblank

theorem startsWith_of_isPrefix {s t : Str} {pre : String} (h : s <+: t)
    (ht : startsWith t pre = false) : startsWith s pre = false := by
  rw [Bool.eq_false_iff, startsWith, ne_eq, List.isPrefixOf_iff_prefix] at ht ⊢
  exact fun hs => ht (hs.trans h)

theorem find_append {c : Char} {sub pre rest : Str} (h : c ∉ pre) :
    find (c :: sub) (pre ++ c :: sub ++ rest) = some pre.length := by
  induction pre with
  | nil => simp [find]
  | cons d pre ih =>
    have hd : (c == d) = false := by
      rw [beq_eq_false_iff_ne]
      rintro rfl
      exact h List.mem_cons_self
    have hpre : c ∉ pre := fun hc => h (List.mem_cons_of_mem _ hc)
    simp only [List.cons_append, find, List.isPrefixOf, hd, Bool.false_and, if_neg
      Bool.false_ne_true]
    simpa using ih hpre

/-! ### Numbers -/

/-- Digits behind the first one, single underscores between them. -/
def readDigits (acc : ℕ) : Str → Option ℕ
  | [] => some acc
  | '_' :: c :: cs =>
    if c.isDigit then readDigits (10 * acc + (c.toNat - 48)) cs else none
  | c :: cs => if c.isDigit then readDigits (10 * acc + (c.toNat - 48)) cs else none

def readNat : Str → Option ℕ
  | [] => none
  | c :: cs => if c.isDigit then readDigits (c.toNat - 48) cs else none

/-- `int` of a word: a decimal number with an optional sign. -/
def readInt : Str → Option ℤ
  | '-' :: cs => (readNat cs).map fun n => -(n : ℤ)
  | '+' :: cs => (readNat cs).map fun n => (n : ℤ)
  | cs => (readNat cs).map fun n => (n : ℤ)

def showInt : ℤ → Str
  | .ofNat n => Nat.toDigits 10 n
  | .negSucc n => '-' :: Nat.toDigits 10 (n + 1)

theorem isDigit_of_mem_toDigits {c : Char} {n : ℕ} (h : c ∈ Nat.toDigits 10 n) :
    c.isDigit = true := Nat.isDigit_of_mem_toDigits (by decide) (by decide) h

theorem readDigits_of_digits (cs : Str) (h : ∀ c ∈ cs, c.isDigit = true) (acc : ℕ) :
    readDigits acc cs = some (Nat.ofDigitChars 10 cs acc) := by
  induction cs generalizing acc with
  | nil => simp [readDigits]
  | cons c cs ih =>
    rw [List.forall_mem_cons] at h
    have hc : c ≠ '_' := by
      rintro rfl
      exact absurd h.1 (by decide)
    rw [readDigits, if_pos h.1, ih h.2, Nat.ofDigitChars_cons]
    · rfl
    · rintro _ _ rfl
      exact absurd rfl hc

theorem readNat_toDigits (n : ℕ) : readNat (Nat.toDigits 10 n) = some n := by
  have hdigits : ∀ c ∈ Nat.toDigits 10 n, c.isDigit = true := fun c => isDigit_of_mem_toDigits
  have hvalue : Nat.ofDigitChars 10 (Nat.toDigits 10 n) 0 = n := Nat.ofDigitChars_ten_toDigits
  cases hcs : Nat.toDigits 10 n with
  | nil => exact absurd hcs Nat.toDigits_ne_nil
  | cons c cs =>
    rw [hcs, List.forall_mem_cons] at hdigits
    rw [hcs, Nat.ofDigitChars_cons] at hvalue
    rw [readNat, if_pos hdigits.1, readDigits_of_digits cs hdigits.2, ← hvalue]
    simp

theorem readInt_showInt (z : ℤ) : readInt (showInt z) = some z := by
  cases z with
  | ofNat n =>
    rw [showInt, readInt, readNat_toDigits]
    · rfl
    · intro cs hcs
      have h : '-'.isDigit = true := isDigit_of_mem_toDigits (hcs ▸ List.mem_cons_self)
      exact absurd h (by decide)
    · intro cs hcs
      have h : '+'.isDigit = true := isDigit_of_mem_toDigits (hcs ▸ List.mem_cons_self)
      exact absurd h (by decide)
  | negSucc n =>
    rw [showInt, readInt, readNat_toDigits]
    rfl

theorem isSpace_of_range {c : Char} (hlow : 33 ≤ c.toNat) (hhigh : c.toNat ≤ 126) :
    isSpace c = false := by
  unfold isSpace
  generalize c.toNat = n at hlow hhigh
  simp only [List.mem_cons, List.not_mem_nil, or_false, Bool.or_eq_false_iff,
    decide_eq_false_iff_not, Bool.and_eq_false_iff]
  omega

theorem isSpace_of_isDigit {c : Char} (h : c.isDigit = true) : isSpace c = false := by
  have hrange : 48 ≤ c.toNat ∧ c.toNat ≤ 57 := Char.isDigit_iff_toNat.mp h
  exact isSpace_of_range (by omega) (by omega)

theorem isSpace_showInt {z : ℤ} {c : Char} (h : c ∈ showInt z) : isSpace c = false := by
  cases z with
  | ofNat n => exact isSpace_of_isDigit (isDigit_of_mem_toDigits h)
  | negSucc n =>
    rcases List.mem_cons.mp h with rfl | hc
    · decide
    · exact isSpace_of_isDigit (isDigit_of_mem_toDigits hc)

theorem showInt_ne_nil (z : ℤ) : showInt z ≠ [] := by
  cases z with
  | ofNat n => exact Nat.toDigits_ne_nil
  | negSucc n => exact List.cons_ne_nil _ _

end MVVM.Text
