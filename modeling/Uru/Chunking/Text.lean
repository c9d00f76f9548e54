import Mathlib.Data.List.Basic
import Mathlib.Data.List.TakeWhile
import Mathlib.Tactic
import Uru.Lib.Json

/-!
# Texts

A Python string is a list of code points. Indices of slices and searches may be
negative, and then count from the end. White space is what `str.isspace`
accepts.
-/

set_option autoImplicit false

namespace Uru.Chunking

open Uru.Lib

abbrev Text := List Letter

def text (s : String) : Text := s.toList.map letter

def isspace (c : Letter) : Bool :=
  (9 ≤ c.val && c.val ≤ 13) || (28 ≤ c.val && c.val ≤ 32) || c.val = 0x85 || c.val = 0xA0 ||
    c.val = 0x1680 || (0x2000 ≤ c.val && c.val ≤ 0x200A) || c.val = 0x2028 || c.val = 0x2029 ||
    c.val = 0x202F || c.val = 0x205F || c.val = 0x3000

def strip (t : Text) : Text := ((t.dropWhile isspace).reverse.dropWhile isspace).reverse

/-- An index of a slice, brought into the range of the text. -/
def adjust (t : Text) (i : ℤ) : ℕ := if i < 0 then (i+t.length).toNat else min i.toNat t.length

/-- `t[a:b]`. -/
def slice (t : Text) (a b : ℤ) : Text := (t.take (adjust t b)).drop (adjust t a)

/-- `t.rfind(c, a, b)` for a single character. -/
def rfind (t : Text) (c : Letter) (a b : ℤ) : ℤ :=
  ((List.range (adjust t b)).filter (fun p => adjust t a ≤ p ∧ t[p]? = some c)).getLast?.elim (-1)
    (fun p => (p:ℤ))

theorem adjust_of_nonneg {t : Text} {i : ℤ} (h : 0 ≤ i) (hlen : i ≤ t.length) :
    adjust t i = i.toNat := by
  unfold adjust
  rw [if_neg (by omega)]
  omega

/-- A character that is found is there, within the bounds. -/
theorem rfind_bounds {t : Text} {c : Letter} {a b : ℤ} (ha : 0 ≤ a) (hb : 0 ≤ b)
    (hlen : b ≤ t.length) (h : rfind t c a b ≠ -1) :
    min a t.length ≤ rfind t c a b ∧ rfind t c a b < b := by
  unfold rfind at *
  rcases hlast : ((List.range (adjust t b)).filter
      (fun p => adjust t a ≤ p ∧ t[p]? = some c)).getLast? with _ | p
  · rw [hlast] at h
    exact absurd rfl h
  · obtain ⟨hp, hpa⟩ := List.mem_filter.mp (List.mem_of_getLast? hlast)
    rw [List.mem_range, adjust_of_nonneg hb hlen] at hp
    have hmin := (of_decide_eq_true hpa).1
    rw [adjust, if_neg (by omega)] at hmin
    rw [Option.elim_some]
    omega

/-- The last place of the character within the bounds is the one found. -/
theorem rfind_eq {t : Text} {c : Letter} {a b : ℤ} {p : ℕ} (ha : adjust t a ≤ p)
    (hb : p < adjust t b) (hp : t[p]? = some c) (hlast : ∀ q, p < q → t[q]? ≠ some c) :
    rfind t c a b = p := by
  obtain ⟨m, hm⟩ := Nat.exists_eq_add_of_le (Nat.succ_le_of_lt hb)
  have hnone : ((List.range m).map (p.succ+·)).filter
      (fun q => adjust t a ≤ q ∧ t[q]? = some c) = [] := by
    refine List.filter_eq_nil_iff.mpr (fun q hq => ?_)
    obtain ⟨r, -, rfl⟩ := List.mem_map.mp hq
    simpa using fun _ => hlast _ (by omega)
  unfold rfind
  rw [hm, List.range_add, List.filter_append, hnone, List.append_nil, List.range_succ,
    List.filter_append]
  simp [ha, hp]

end Uru.Chunking
