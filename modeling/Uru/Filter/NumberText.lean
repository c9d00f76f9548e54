import Mathlib.Data.Nat.Digits.Lemmas
import Uru.Filter.Value

/-!
# The texts of numbers

`repr` of an integer, and the text that a float carries. Different numbers
have different texts, no integer has the text of a float, and JSON can tell
each of them for a number.
-/

set_option autoImplicit false

namespace Uru.Filter

open Uru.Lib

def decimal (n : ℕ) : PyStr := if n = 0 then [digit 0] else ((Nat.digits 10 n).reverse).map digit

def intText : ℤ → PyStr
  | .ofNat n => decimal n
  | .negSucc n => point '-' ::decimal (n+1)

def PyFloat.text : PyFloat → PyStr
  | .finite t => t.text
  | .inf neg => if neg then py "-Infinity" else py "Infinity"
  | .nan => py "NaN"

def isNumberLetter (c : CodePoint) : Bool :=
  c.val < 127 && c ∉ [letter ',',letter ']',letter '}']

def isNumberStart (c : CodePoint) : Bool :=
  isDigit c || c = point '-' || c = point 'N' || c = point 'I'

theorem isDigit_numberLetter {c : CodePoint} (h : isDigit c = true) : isNumberLetter c = true := by
  have hall : ∀ k : Fin 10, isNumberLetter ⟨48+k.val, by omega⟩ = true := by decide
  simp only [isDigit, Bool.decide_and, Bool.and_eq_true, decide_eq_true_eq] at h
  have hc : c = ⟨48+(⟨c.val-48, by omega⟩ : Fin 10).val, by simp only; omega⟩ :=
    Fin.ext (by simp only; omega)
  rw [hc]
  exact hall _

theorem digit_isDigit (n : ℕ) : isDigit (digit n) = true := by
  refine decide_eq_true ⟨Nat.le_add_right _ _, ?_⟩
  simp only [digit]
  omega

theorem decimal_digits (n : ℕ) : ∀ c ∈ decimal n, isDigit c = true := by
  unfold decimal
  split_ifs
  · intro c hc
    rw [List.mem_singleton.mp hc]
    exact digit_isDigit 0
  · intro c hc
    obtain ⟨d, _, rfl⟩ := List.mem_map.mp hc
    exact digit_isDigit d

theorem decimal_ne_nil (n : ℕ) : decimal n ≠ [] := by
  unfold decimal
  split_ifs with h
  · exact List.cons_ne_nil _ _
  · simpa [Nat.digits_eq_nil_iff_eq_zero] using h

theorem digits_inj {l m : List ℕ} (hl : ∀ d ∈ l, d < 10) (hm : ∀ d ∈ m, d < 10)
    (h : l.map digit = m.map digit) : l = m := by
  induction l generalizing m with
  | nil =>
    cases m with
    | nil => rfl
    | cons d m => cases h
  | cons d l ih =>
    cases m with
    | nil => cases h
    | cons e m =>
      have hd := (digit_inj (hl d (by simp)) (hm e (by simp))).mp (List.head_eq_of_cons_eq h)
      rw [hd, ih (fun x hx => hl x (by simp [hx])) (fun x hx => hm x (by simp [hx]))
        (List.tail_eq_of_cons_eq h)]

theorem decimal_inj {m n : ℕ} (h : decimal m = decimal n) : m = n := by
  have hdig : ∀ n : ℕ, ∃ l : List ℕ, decimal n = l.map digit ∧ (∀ d ∈ l, d < 10) ∧
      Nat.ofDigits 10 l.reverse = n := by
    intro n
    unfold decimal
    split_ifs with h0
    · exact ⟨[0], rfl, by simp, by simp [h0]⟩
    · refine ⟨(Nat.digits 10 n).reverse, rfl, fun d hd => ?_, ?_⟩
      · exact Nat.digits_lt_base (by decide) (List.mem_reverse.mp hd)
      · rw [List.reverse_reverse, Nat.ofDigits_digits]
  obtain ⟨l, hl, hl10, hlm⟩ := hdig m
  obtain ⟨k, hk, hk10, hkn⟩ := hdig n
  rw [hl, hk] at h
  rw [← hlm, ← hkn, digits_inj hl10 hk10 h]

theorem decimal_ne_minus (n : ℕ) (s : PyStr) : decimal n ≠ point '-' ::s := by
  intro he
  have hd := decimal_digits n (point '-') (by rw [he]; simp)
  revert hd
  decide

theorem intText_inj {i j : ℤ} (h : intText i = intText j) : i = j := by
  cases i with
  | ofNat m =>
    cases j with
    | ofNat n => rw [decimal_inj h]
    | negSucc n => exact absurd h (decimal_ne_minus m _)
  | negSucc m =>
    cases j with
    | ofNat n => exact absurd h.symm (decimal_ne_minus n _)
    | negSucc n => rw [Nat.succ.inj (decimal_inj (List.tail_eq_of_cons_eq h))]

/-- A text that JSON can tell for a number. -/
structure NumberText (s : PyStr) : Prop where
  start : ∃ c t, s = c::t ∧ isNumberStart c = true
  letters : ∀ c ∈ s, isNumberLetter c = true

theorem digits_number {s : PyStr} (hne : s ≠ []) (h : ∀ c ∈ s, isDigit c = true) : NumberText s := by
  cases s with
  | nil => exact absurd rfl hne
  | cons c s =>
    refine ⟨⟨c, s, rfl, ?_⟩, fun d hd => isDigit_numberLetter (h d hd)⟩
    simp [isNumberStart, h c (by simp)]

theorem minus_number {s : PyStr} (h : ∀ c ∈ s, isNumberLetter c = true) : NumberText (point '-' ::s) := by
  refine ⟨⟨_, s, rfl, by decide⟩, fun c hc => ?_⟩
  rcases List.mem_cons.mp hc with rfl | hc
  · decide
  · exact h c hc

theorem intText_number (i : ℤ) : NumberText (intText i) := by
  cases i with
  | ofNat n => exact digits_number (decimal_ne_nil n) (decimal_digits n)
  | negSucc n => exact minus_number (fun c hc => isDigit_numberLetter (decimal_digits _ c hc))

theorem splitDigits_letters {s : PyStr} (h : ∀ c ∈ (splitDigits s).2, isNumberLetter c = true) :
    ∀ c ∈ s, isNumberLetter c = true := by
  intro c hc
  rw [← List.takeWhile_append_dropWhile (p := isDigit) (l := s)] at hc
  rcases List.mem_append.mp hc with hc | hc
  · exact isDigit_numberLetter (List.mem_takeWhile_imp hc)
  · exact h c hc

theorem readExponent_letters {s : PyStr} {e : ℤ} (h : readExponent s = some e) :
    ∀ c ∈ s, isNumberLetter c = true := by
  unfold readExponent at h
  split at h
  · exact fun c hc => absurd hc List.not_mem_nil
  · rename_i x sign t
    split_ifs at h with hx hm hp
    · simp only [List.mem_cons]
      rintro c (rfl | rfl | hc)
      · rw [hx.1]; decide
      · rw [hm]; decide
      · exact isDigit_numberLetter (List.all_eq_true.mp hx.2.2 c hc)
    · simp only [List.mem_cons]
      rintro c (rfl | rfl | hc)
      · rw [hx.1]; decide
      · rw [hp]; decide
      · exact isDigit_numberLetter (List.all_eq_true.mp hx.2.2 c hc)
  · cases h

/-- The parts of a text that reads as a decimal. -/
theorem readDecimal_parts {s : PyStr} (h : (readDecimal s).isSome = true) :
    ∃ u e, (s = u ∧ s.head? ≠ some (point '-') ∨ s = point '-' ::u) ∧
      (splitDigits u).1 ≠ [] ∧ (splitDigits u).2 ≠ [] ∧
      readExponent (if (splitDigits u).2.head? = some (point '.') then
        (splitDigits (splitDigits u).2.tail).2 else (splitDigits u).2) = some e := by
  have hsign : s = (if s.head? = some (point '-') then s.tail else s) ∧ s.head? ≠ some (point '-') ∨
      s = point '-' ::(if s.head? = some (point '-') then s.tail else s) := by
    by_cases hs : s.head? = some (point '-')
    · rw [if_pos hs]
      exact .inr (List.eq_cons_of_mem_head? hs)
    · rw [if_neg hs]
      exact .inl ⟨rfl, hs⟩
  unfold readDecimal at h
  simp only at h
  generalize (if s.head? = some (point '-') then s.tail else s) = u at h hsign
  by_cases hw : (splitDigits u).1 = [] ∨ (splitDigits u).2 = []
  · rw [if_pos hw] at h
    cases h
  rw [if_neg hw] at h
  refine ⟨u, ?_⟩
  by_cases hp : (splitDigits u).2.head? = some (point '.')
  · simp only [hp, if_true, true_and] at h ⊢
    by_cases hf : (splitDigits (splitDigits u).2.tail).1 = []
    · rw [if_pos hf] at h
      cases h
    rw [if_neg hf] at h
    cases he : readExponent (splitDigits (splitDigits u).2.tail).2 with
    | none =>
      rw [he] at h
      cases h
    | some e => exact ⟨e, hsign, fun ht => hw (.inl ht), fun ht => hw (.inr ht), rfl⟩
  · simp only [hp, if_false, false_and] at h ⊢
    cases he : readExponent (splitDigits u).2 with
    | none =>
      rw [he] at h
      cases h
    | some e => exact ⟨e, hsign, fun ht => hw (.inl ht), fun ht => hw (.inr ht), rfl⟩

theorem floatText_number (t : FloatText) : NumberText t.text := by
  obtain ⟨u, e, hs, hw, _, he⟩ := readDecimal_parts t.reads
  have hlast := readExponent_letters he
  have hu : ∀ c ∈ u, isNumberLetter c = true := by
    refine splitDigits_letters ?_
    by_cases hp : (splitDigits u).2.head? = some (point '.')
    · rw [if_pos hp] at hlast
      rw [List.eq_cons_of_mem_head? hp]
      intro c hc
      rcases List.mem_cons.mp hc with rfl | hc
      · decide
      · exact splitDigits_letters hlast c hc
    · rwa [if_neg hp] at hlast
  rcases hs with ⟨hs, _⟩ | hs
  · rw [hs]
    refine ⟨?_, hu⟩
    cases u with
    | nil => exact absurd rfl hw
    | cons c u =>
      have hc : isDigit c = true := by
        by_contra hc
        exact hw (List.takeWhile_cons_of_neg hc)
      exact ⟨c, u, rfl, by simp [isNumberStart, hc]⟩
  · rw [hs]
    exact minus_number hu

/-- No text reads both as an integer and as a float. -/
theorem readDecimal_intText (i : ℤ) : (readDecimal (intText i)).isSome = false := by
  have hdig : ∀ n, (splitDigits (decimal n)).2 = [] := fun n =>
    List.dropWhile_eq_nil_iff.mpr (decimal_digits n)
  rw [← Bool.not_eq_true]
  intro h
  obtain ⟨u, e, hs, _, ht, _⟩ := readDecimal_parts h
  cases i with
  | ofNat n =>
    rcases hs with ⟨rfl, _⟩ | hs
    · exact ht (hdig n)
    · exact decimal_ne_minus n u hs
  | negSucc n =>
    rcases hs with ⟨_, hs⟩ | hs
    · exact hs rfl
    · rw [← List.tail_eq_of_cons_eq hs] at ht
      exact ht (hdig _)

/-- The texts of the floats that are no finite number. -/
def PyFloat.Special (s : PyStr) : Prop := s = py "NaN" ∨ s = py "Infinity" ∨ s = py "-Infinity"

theorem special_unread {s : PyStr} (h : PyFloat.Special s) : (readDecimal s).isSome = false := by
  rcases h with rfl | rfl | rfl <;> decide

theorem text_special (f : PyFloat) : (∃ t, f = .finite t) ∨ PyFloat.Special f.text := by
  cases f with
  | finite t => exact .inl ⟨t, rfl⟩
  | inf neg =>
    cases neg
    · exact .inr (.inr (.inl rfl))
    · exact .inr (.inr (.inr rfl))
  | nan => exact .inr (.inl rfl)

theorem floatText_inj {f g : PyFloat} (h : f.text = g.text) : f = g := by
  have hfin : ∀ (t : FloatText) (g : PyFloat), t.text = g.text → PyFloat.finite t = g := by
    intro t g h
    rcases text_special g with ⟨u, rfl⟩ | hs
    · rcases t with ⟨t, _⟩
      rcases u with ⟨u, _⟩
      cases h
      rfl
    · have hr := t.reads
      rw [h, special_unread hs] at hr
      cases hr
  cases f with
  | finite t => exact hfin t g h
  | inf b =>
    cases g with
    | finite u => exact (hfin u _ h.symm).symm
    | inf c =>
      cases b <;> cases c
      · rfl
      · exact absurd h (by decide)
      · exact absurd h (by decide)
      · rfl
    | nan => cases b <;> exact absurd h (by decide)
  | nan =>
    cases g with
    | finite u => exact (hfin u _ h.symm).symm
    | inf c => cases c <;> exact absurd h (by decide)
    | nan => rfl

theorem float_number (f : PyFloat) : NumberText f.text := by
  rcases text_special f with ⟨t, rfl⟩ | hs
  · exact floatText_number t
  · rcases hs with hs | hs | hs
    all_goals
      rw [hs]
      exact ⟨⟨_, _, rfl, by decide⟩, List.all_eq_true.mp (by decide)⟩

theorem intText_ne_float (i : ℤ) (f : PyFloat) : intText i ≠ f.text := by
  intro h
  rcases text_special f with ⟨t, rfl⟩ | hs
  · have hr := t.reads
    rw [← show intText i = t.text from h, readDecimal_intText] at hr
    cases hr
  · rw [← h] at hs
    have hdig : ∀ c ∈ intText i, isDigit c = true ∨ c = point '-' := by
      cases i with
      | ofNat n => exact fun c hc => .inl (decimal_digits n c hc)
      | negSucc n =>
        exact fun c hc => (List.mem_cons.mp hc).elim .inr (fun hc => .inl (decimal_digits _ c hc))
    have hno : ∀ c : CodePoint, c = point 'N' ∨ c = point 'I' → c ∉ intText i := by
      rintro c (rfl | rfl) hc
      · exact absurd (hdig _ hc) (by decide)
      · exact absurd (hdig _ hc) (by decide)
    rcases hs with hs | hs | hs
    · exact hno (point 'N') (.inl rfl) (by rw [hs]; decide)
    · exact hno (point 'I') (.inr rfl) (by rw [hs]; decide)
    · exact hno (point 'I') (.inr rfl) (by rw [hs]; decide)

end Uru.Filter
