import Mathlib.Data.List.Flatten
import Mathlib.Tactic

/-!
# Splitting a stream that arrives in chunks

A reader keeps the text after the last separator and cuts off complete pieces
as more text arrives. The pieces it finds, and what it keeps, depend on the
concatenated text only, however that was cut into chunks.
-/

set_option autoImplicit false

namespace Uru.Lib

variable {α : Type*} [DecidableEq α] (sep : α)

/-- The complete pieces of `line++xs` and the rest after the last separator,
where `line` is what has been read of the first piece. -/
def piecesFrom (line : List α) : List α → List (List α) × List α
  | [] => ([],line)
  | c::cs =>
    if c = sep then (line::(piecesFrom [] cs).1,(piecesFrom [] cs).2)
    else piecesFrom (line++[c]) cs

def pieces (buf : List α) : List (List α) × List α := piecesFrom sep [] buf

theorem piecesFrom_append (line xs ys : List α) :
    piecesFrom sep line (xs++ys) =
      ((piecesFrom sep line xs).1++(piecesFrom sep (piecesFrom sep line xs).2 ys).1,
        (piecesFrom sep (piecesFrom sep line xs).2 ys).2) := by
  induction xs generalizing line with
  | nil => rfl
  | cons c cs ih =>
    by_cases h : c = sep
    · simp [piecesFrom, h, ih]
    · simp [piecesFrom, h, ih]

theorem piecesFrom_unbroken (line xs : List α) (h : sep ∉ xs) :
    piecesFrom sep line xs = ([],line++xs) := by
  induction xs generalizing line with
  | nil => simp [piecesFrom]
  | cons c cs ih =>
    obtain ⟨hc, hcs⟩ := not_or.mp (mt List.mem_cons.mpr h)
    rw [piecesFrom, if_neg (Ne.symm hc), ih _ hcs]
    simp

/-- The rest holds no separator: nothing complete is ever carried over. -/
theorem rest_unbroken (line xs : List α) (h : sep ∉ line) : sep ∉ (piecesFrom sep line xs).2 := by
  induction xs generalizing line with
  | nil => exact h
  | cons c cs ih =>
    by_cases hc : c = sep
    · simpa [piecesFrom, hc] using ih [] List.not_mem_nil
    · simpa [piecesFrom, hc] using ih (line++[c]) (by simp [h, Ne.symm hc])

/-- Cutting what arrives off the carried rest is cutting the whole. -/
theorem pieces_append (buf xs : List α) :
    pieces sep (buf++xs) =
      ((pieces sep buf).1++(pieces sep ((pieces sep buf).2++xs)).1,
        (pieces sep ((pieces sep buf).2++xs)).2) := by
  have hrest := rest_unbroken sep [] buf List.not_mem_nil
  have hcarry : pieces sep ((pieces sep buf).2++xs) = piecesFrom sep (pieces sep buf).2 xs := by
    rw [show pieces sep ((pieces sep buf).2++xs) = piecesFrom sep [] ((pieces sep buf).2++xs)
      from rfl, piecesFrom_append]
    simp [pieces, piecesFrom_unbroken sep [] _ hrest]
  rw [hcarry]
  exact piecesFrom_append sep [] buf xs

section Consumer

variable {σ ε : Type*} (f : σ → List α → σ × Option ε)

/-- Take pieces in order up to the first failure. -/
def consume : σ → List (List α) → σ × Option ε
  | s, [] => (s,none)
  | s, l::ls =>
    match f s l with
    | (s',some e) => (s',some e)
    | (s',none) => consume s' ls

/-- Pass every chunk on, then take the pieces it completes. A failure ends the
stream. The result is the chunks passed on, the state and the failure. -/
def feed : σ → List α → List (List α) → List (List α) × σ × Option ε
  | s, _, [] => ([],s,none)
  | s, buf, c::cs =>
    match consume f s (pieces sep (buf++c)).1 with
    | (s',some e) => ([c],s',some e)
    | (s',none) =>
      let t := feed s' (pieces sep (buf++c)).2 cs
      (c::t.1,t.2)

omit [DecidableEq α] in
theorem consume_append (s : σ) (ls ms : List (List α)) :
    consume f s (ls++ms) =
      match consume f s ls with
      | (s',some e) => (s',some e)
      | (s',none) => consume f s' ms := by
  induction ls generalizing s with
  | nil => rfl
  | cons l ls ih =>
    rw [List.cons_append, consume, consume]
    split
    · rfl
    · exact ih _

omit [DecidableEq α] in
/-- Where a piece fails whatever the state, nothing fails if no piece does. -/
theorem consume_none_iff (g : List α → Option ε) (hg : ∀ s l, (f s l).2 = g l) (s : σ)
    (ls : List (List α)) : (consume f s ls).2 = none ↔ ∀ l ∈ ls, g l = none := by
  induction ls generalizing s with
  | nil => simp [consume]
  | cons l ls ih =>
    have hl := hg s l
    rw [consume, List.forall_mem_cons]
    split
    · rename_i s' e he
      rw [he] at hl
      simp [← hl]
    · rename_i s' he
      rw [he] at hl
      simp [← hl, ih]

omit [DecidableEq α] in
theorem consume_state (s : σ) (ls : List (List α)) (h : (consume f s ls).2 = none) :
    (consume f s ls).1 = ls.foldl (fun s l => (f s l).1) s := by
  induction ls generalizing s with
  | nil => rfl
  | cons l ls ih =>
    rw [consume] at h ⊢
    split at h
    · cases h
    · rename_i s' he
      simpa [he] using ih s' h

/-- State and failure depend on the concatenated text only. -/
theorem feed_outcome (s : σ) (buf : List α) (cs : List (List α)) (h : sep ∉ buf) :
    (feed sep f s buf cs).2 = consume f s (pieces sep (buf++cs.flatten)).1 := by
  induction cs generalizing s buf with
  | nil =>
    rw [pieces, List.flatten_nil, List.append_nil, piecesFrom_unbroken sep [] buf h]
    rfl
  | cons c cs ih =>
    have hwhole := congrArg Prod.fst (pieces_append sep (buf++c) cs.flatten)
    rw [List.flatten_cons, ← List.append_assoc, hwhole, consume_append, feed]
    split
    · rfl
    · exact ih _ _ (rest_unbroken sep [] (buf++c) List.not_mem_nil)

theorem feed_passes (s : σ) (buf : List α) (cs : List (List α))
    (h : (feed sep f s buf cs).2.2 = none) : (feed sep f s buf cs).1 = cs := by
  induction cs generalizing s buf with
  | nil => rfl
  | cons c cs ih =>
    rw [feed] at h ⊢
    split at h
    · cases h
    · exact congrArg (c::·) (ih _ _ h)

/-- With or without a failure, what has been passed on begins the stream. -/
theorem feed_prefix (s : σ) (buf : List α) (cs : List (List α)) :
    (feed sep f s buf cs).1 <+: cs := by
  induction cs generalizing s buf with
  | nil => exact List.prefix_rfl
  | cons c cs ih =>
    rw [feed]
    split
    · exact ⟨cs,rfl⟩
    · exact List.cons_prefix_cons.mpr ⟨rfl,ih _ _⟩

end Consumer

end Uru.Lib
