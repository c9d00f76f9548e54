import Mathlib.Computability.Language
import Mathlib.Tactic

/-!
# Anchored patterns and the languages they match

A pattern is a sequence of pieces, each for one character of a class or for a
greedy repetition of such characters, and of the assertions of the start and
the end of the text. Matching backtracks. An anchored pattern matches exactly
the product of the languages of its pieces.
-/

set_option autoImplicit false

namespace Uru.Lib
open scoped Computability

variable {α : Type*}

inductive Piece (α : Type*)
  | one (p : α → Bool)
  | many (p : α → Bool)

inductive Term (α : Type*)
  | piece (x : Piece α)
  | start
  | stop

/-- The longest repetition first, then the shorter ones; `k` matches the rest
and is told whether it is still at the start of the text. -/
def repeatThen (p : α → Bool) (k : Bool → List α → Bool) : Bool → List α → Bool
  | b, [] => k b []
  | b, c::cs => (p c && repeatThen p k false cs) || k b (c::cs)

def matchHere : List (Term α) → Bool → List α → Bool
  | [], _, _ => true
  | .start::ts, b, s => b && matchHere ts b s
  | .stop::ts, b, s => s.isEmpty && matchHere ts b s
  | .piece (.one _)::_, _, [] => false
  | .piece (.one p)::ts, _, c::cs => p c && matchHere ts false cs
  | .piece (.many p)::ts, b, s => repeatThen p (matchHere ts) b s

/-- Match somewhere after the start of the text. -/
def matchLater (ts : List (Term α)) : List α → Bool
  | [] => false
  | _::cs => matchHere ts false cs || matchLater ts cs

def test (ts : List (Term α)) (s : List α) : Bool := matchHere ts true s || matchLater ts s

def Piece.language : Piece α → Language α
  | .one p => {w | ∃ c, p c = true ∧ w = [c]}
  | .many p => {w | ∀ c ∈ w, p c = true}

def anchored (xs : List (Piece α)) : List (Term α) := .start::(xs.map Term.piece++[.stop])

theorem repeatThen_iff (p : α → Bool) (k : Bool → List α → Bool) (b : Bool) (s : List α) :
    repeatThen p k b s = true ↔
      ∃ u v, s = u++v ∧ (∀ c ∈ u, p c = true) ∧ k (b && u.isEmpty) v = true := by
  induction s generalizing b with
  | nil =>
    constructor
    · intro h
      exact ⟨[],[],rfl,by simp,by simpa [repeatThen] using h⟩
    · rintro ⟨u, v, hs, -, hk⟩
      obtain ⟨rfl, rfl⟩ := List.append_eq_nil_iff.mp hs.symm
      simpa [repeatThen] using hk
  | cons c cs ih =>
    rw [repeatThen, Bool.or_eq_true, Bool.and_eq_true, ih]
    constructor
    · rintro (⟨hp, u, v, rfl, hu, hk⟩ | hk)
      · exact ⟨c::u,v,rfl,by simpa [hp] using hu,by simpa using hk⟩
      · exact ⟨[],c::cs,rfl,by simp,by simpa using hk⟩
    · rintro ⟨u, v, hs, hu, hk⟩
      cases u with
      | nil =>
        cases hs
        exact Or.inr (by simpa using hk)
      | cons d u =>
        obtain ⟨rfl, rfl⟩ := List.cons_eq_cons.mp hs
        rw [List.forall_mem_cons] at hu
        exact Or.inl ⟨hu.1,u,v,rfl,hu.2,by simpa using hk⟩

theorem matchHere_pieces (xs : List (Piece α)) (b : Bool) (s : List α) :
    matchHere (xs.map Term.piece++[.stop]) b s = true ↔ s ∈ (xs.map Piece.language).prod := by
  induction xs generalizing b s with
  | nil => simp [matchHere, Language.mem_one]
  | cons x xs ih =>
    rw [List.map_cons, List.map_cons, List.prod_cons, List.cons_append, Language.mem_mul]
    cases x with
    | one p =>
      cases s with
      | nil =>
        simp only [matchHere, Bool.false_eq_true, false_iff]
        rintro ⟨_, ⟨c, -, rfl⟩, v, -, h⟩
        cases h
      | cons c cs =>
        rw [matchHere, Bool.and_eq_true, ih]
        constructor
        · rintro ⟨hp, hcs⟩
          exact ⟨[c],⟨c,hp,rfl⟩,cs,hcs,rfl⟩
        · rintro ⟨_, ⟨d, hp, rfl⟩, v, hv, h⟩
          cases h
          exact ⟨hp,hv⟩
    | many p =>
      rw [matchHere, repeatThen_iff]
      constructor
      · rintro ⟨u, v, rfl, hu, hk⟩
        exact ⟨u,hu,v,(ih _ v).mp hk,rfl⟩
      · rintro ⟨u, hu, v, hv, rfl⟩
        exact ⟨u,v,rfl,hu,(ih _ v).mpr hv⟩

theorem matchLater_anchored (xs : List (Piece α)) (s : List α) :
    matchLater (anchored xs) s = false := by
  induction s with
  | nil => rfl
  | cons c cs ih => simpa [matchLater, anchored, matchHere] using ih

/-- An anchored pattern matches the words of its pieces in sequence. -/
theorem test_anchored (xs : List (Piece α)) (s : List α) :
    test (anchored xs) s = true ↔ s ∈ (xs.map Piece.language).prod := by
  rw [test, matchLater_anchored, Bool.or_false, anchored, matchHere, Bool.true_and,
    matchHere_pieces]

/-- Match the pieces from the start of the text and hand what is left to `k`. -/
def matchThen (k : List α → Bool) : List (Piece α) → List α → Bool
  | [], s => k s
  | .one _::_, [] => false
  | .one p::xs, c::cs => p c && matchThen k xs cs
  | .many p::xs, s => repeatThen p (fun _ => matchThen k xs) true s

theorem matchThen_iff (k : List α → Bool) (xs : List (Piece α)) (s : List α) :
    matchThen k xs s = true ↔ ∃ u v, s = u++v ∧ u ∈ (xs.map Piece.language).prod ∧ k v = true := by
  induction xs generalizing s with
  | nil => simp [matchThen, Language.mem_one]
  | cons x xs ih =>
    simp only [List.map_cons, List.prod_cons, Language.mem_mul]
    cases x with
    | one p =>
      cases s with
      | nil =>
        simp only [matchThen, Bool.false_eq_true, false_iff]
        rintro ⟨u, v, hs, ⟨_, ⟨c, -, rfl⟩, w, -, rfl⟩, -⟩
        cases hs
      | cons c cs =>
        rw [matchThen, Bool.and_eq_true, ih]
        constructor
        · rintro ⟨hp, u, v, rfl, hu, hk⟩
          exact ⟨c::u,v,rfl,⟨[c],⟨c,hp,rfl⟩,u,hu,rfl⟩,hk⟩
        · rintro ⟨u, v, hs, ⟨_, ⟨d, hp, rfl⟩, w, hw, rfl⟩, hk⟩
          obtain ⟨rfl, rfl⟩ := List.cons_eq_cons.mp hs
          exact ⟨hp,w,v,rfl,hw,hk⟩
    | many p =>
      rw [matchThen, repeatThen_iff]
      constructor
      · rintro ⟨u, v, rfl, hu, hk⟩
        obtain ⟨w, t, rfl, hw, hk⟩ := (ih v).mp hk
        exact ⟨u++w,t,(List.append_assoc u w t).symm,⟨u,hu,w,hw,rfl⟩,hk⟩
      · rintro ⟨_, t, rfl, ⟨u, hu, w, hw, rfl⟩, hk⟩
        exact ⟨u,w++t,List.append_assoc u w t,hu,(ih _).mpr ⟨w,t,rfl,hw,hk⟩⟩

end Uru.Lib
