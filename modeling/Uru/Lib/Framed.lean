import Mathlib.Data.Nat.Digits.Lemmas
import Mathlib.Tactic
import Uru.Lib.Record

/-!
# Self-delimiting text formats

A framed format writes a value as text and reads a value off the front of a
text. Reading stops where the value ends, whatever follows, and no later text
can change a value already read. A strict prefix of a written value therefore
never reads as a complete one, which is what makes a torn file detectable.
-/

set_option autoImplicit false

namespace Uru.Lib

abbrev Text := List Char

/-- A whole-file format. Text that a crash has cut short does not parse, and
neither does the empty text of a truncated file. -/
structure Codec (α : Type) where
  stringify : α → Text
  parse : Text → Option α
  parse_stringify : ∀ a, parse (stringify a) = some a
  parse_nil : parse [] = none
  parse_torn : ∀ a n, n < (stringify a).length → parse ((stringify a).take n) = none

structure Framed (α : Type) where
  write : α → Text
  read : Text → Option (α × Text)
  read_write : ∀ a rest, read (write a++rest) = some (a,rest)
  read_extend : ∀ t a rest more, read t = some (a,rest) → read (t++more) = some (a,rest++more)
  write_ne : ∀ a, write a ≠ []

namespace Framed

variable {α β : Type}

def parse (f : Framed α) (t : Text) : Option α :=
  match f.read t with
  | some (a,[]) => some a
  | _ => none

theorem parse_some (f : Framed α) (t : Text) (a : α) :
    f.parse t = some a ↔ f.read t = some (a,[]) := by
  unfold parse
  split
  · rename_i b h
    simp [h]
  · rename_i h
    simp only [reduceCtorEq, false_iff]
    exact fun hr => h a hr

theorem parse_initial (f : Framed α) (a : α) (t more : Text) (h : t++more = f.write a)
    (hm : more ≠ []) : f.parse t = none := by
  cases hp : f.parse t with
  | none => rfl
  | some b =>
    have hr := f.read_extend t b [] more ((f.parse_some t b).mp hp)
    have hw := f.read_write a []
    rw [List.append_nil, ← h, hr, Option.some.injEq, Prod.mk.injEq] at hw
    exact absurd hw.2 hm

def codec (f : Framed α) : Codec α where
  stringify := f.write
  parse := f.parse
  parse_stringify a := (f.parse_some _ a).mpr (by simpa using f.read_write a [])
  parse_nil := by
    cases hp : f.parse [] with
    | none => rfl
    | some a => rw [← hp]; exact f.parse_initial a [] (f.write a) rfl (f.write_ne a)
  parse_torn a n hn := by
    refine f.parse_initial a _ ((f.write a).drop n) (List.take_append_drop n _) ?_
    simpa using hn

def readLiteral : Text → Text → Option Text
  | [], t => some t
  | _::_, [] => none
  | c::cs, d::t => if c = d then readLiteral cs t else none

theorem readLiteral_append (cs t : Text) : readLiteral cs (cs++t) = some t := by
  induction cs with
  | nil => rfl
  | cons c cs ih => simp [readLiteral, ih]

theorem readLiteral_extend (cs t rest more : Text) (h : readLiteral cs t = some rest) :
    readLiteral cs (t++more) = some (rest++more) := by
  induction cs generalizing t with
  | nil => cases h; rfl
  | cons c cs ih =>
    cases t with
    | nil => simp [readLiteral] at h
    | cons d t =>
      by_cases hc : c = d
      · simp only [readLiteral, if_pos hc] at h
        simpa [readLiteral, hc] using ih t h
      · simp [readLiteral, hc] at h

def between (left : Text) (f : Framed α) (right : Text) : Framed α where
  write a := left++(f.write a++right)
  read t := do
    let t ← readLiteral left t
    let (a,t) ← f.read t
    let t ← readLiteral right t
    some (a,t)
  read_write a rest := by
    simp [readLiteral_append, f.read_write]
  read_extend t a rest more h := by
    simp only [Option.bind_eq_bind, Option.bind_eq_some_iff, Prod.exists, Option.some.injEq,
      Prod.mk.injEq] at h ⊢
    obtain ⟨t₁, h₁, b, t₂, h₂, t₃, h₃, rfl, rfl⟩ := h
    exact ⟨_, readLiteral_extend left t t₁ more h₁, b, _, f.read_extend t₁ b t₂ more h₂,
      _, readLiteral_extend right t₂ t₃ more h₃, rfl, rfl⟩
  write_ne a h := by
    simp only [List.append_eq_nil_iff] at h
    exact f.write_ne a h.2.1

def pair (f : Framed α) (g : Framed β) : Framed (α × β) where
  write p := f.write p.1++g.write p.2
  read t := do
    let (a,t) ← f.read t
    let (b,t) ← g.read t
    some ((a,b),t)
  read_write p rest := by
    simp [f.read_write, g.read_write]
  read_extend t p rest more h := by
    simp only [Option.bind_eq_bind, Option.bind_eq_some_iff, Prod.exists, Option.some.injEq,
      Prod.mk.injEq] at h ⊢
    obtain ⟨a, t₁, h₁, b, t₂, h₂, rfl, rfl⟩ := h
    exact ⟨a, _, f.read_extend t a t₁ more h₁, b, _, g.read_extend t₁ b t₂ more h₂, rfl, rfl⟩
  write_ne p h := f.write_ne p.1 (List.append_eq_nil_iff.mp h).1

def map (f : Framed α) (make : α → β) (back : β → α) (h : ∀ b, make (back b) = b) : Framed β where
  write b := f.write (back b)
  read t := (f.read t).map (fun p => (make p.1,p.2))
  read_write b rest := by simp [f.read_write, h]
  read_extend t b rest more hr := by
    simp only [Option.map_eq_some_iff, Prod.exists, Prod.mk.injEq] at hr ⊢
    obtain ⟨a, t₁, h₁, rfl, rfl⟩ := hr
    exact ⟨a, _, f.read_extend t a t₁ more h₁, rfl, rfl⟩
  write_ne b := f.write_ne (back b)

def readTail (f : Framed α) : ℕ → Text → Option (List α × Text)
  | 0, _ => none
  | n+1, t =>
    match t with
    | '}'::t => some ([],t)
    | ','::t => do
      let (a,t) ← f.read t
      let (as,t) ← readTail f n t
      some (a::as,t)
    | _ => none

def writeTail (f : Framed α) : List α → Text
  | [] => ['}']
  | a::as => ','::(f.write a++writeTail f as)

theorem readTail_write (f : Framed α) (as : List α) (n : ℕ) (h : as.length < n) (rest : Text) :
    readTail f n (writeTail f as++rest) = some (as,rest) := by
  induction as generalizing n with
  | nil =>
    obtain ⟨m, rfl⟩ := Nat.exists_eq_succ_of_ne_zero (by omega : n ≠ 0)
    rfl
  | cons a as ih =>
    obtain ⟨m, rfl⟩ := Nat.exists_eq_succ_of_ne_zero (by omega : n ≠ 0)
    have hm : as.length < m := by simpa using h
    simp [readTail, writeTail, f.read_write, ih m hm]

theorem readTail_extend (f : Framed α) (n k : ℕ) (t : Text) (as : List α) (rest more : Text)
    (h : readTail f n t = some (as,rest)) :
    readTail f (n+k) (t++more) = some (as,rest++more) := by
  induction n generalizing t as with
  | zero => simp [readTail] at h
  | succ n ih =>
    rw [Nat.succ_add]
    unfold readTail at h ⊢
    split at h
    · cases h
      rfl
    · rename_i t'
      simp only [Option.bind_eq_bind, Option.bind_eq_some_iff, Prod.exists, Option.some.injEq,
        Prod.mk.injEq] at h
      obtain ⟨a, t₁, h₁, bs, t₂, h₂, rfl, rfl⟩ := h
      simp [f.read_extend t' a t₁ more h₁, ih t₁ bs h₂]
    · cases h

theorem writeTail_length (f : Framed α) (as : List α) : as.length < (writeTail f as).length := by
  induction as with
  | nil => simp [writeTail]
  | cons a as ih =>
    simp only [writeTail, List.length_cons, List.length_append]
    omega

def writeBraces (f : Framed α) : List α → Text
  | [] => ['{','}']
  | a::as => '{'::(f.write a++writeTail f as)

def readBraces (f : Framed α) : Text → Option (List α × Text)
  | '{' :: '}' :: t => some ([],t)
  | '{'::t => do
    let (a,t) ← f.read t
    let (as,t) ← readTail f t.length t
    some (a::as,t)
  | _ => none

/-- Comma-separated items between braces. The items must not begin with the
closing brace, or the empty list would be ambiguous. -/
def braces (f : Framed α) (hf : ∀ t, f.read ('}'::t) = none) : Framed (List α) where
  write := writeBraces f
  read := readBraces f
  read_write as rest := by
    cases as with
    | nil => rfl
    | cons a as =>
      have hw := f.read_write a (writeTail f as++rest)
      have hl : as.length < (writeTail f as++rest).length := by
        have := writeTail_length f as
        simp only [List.length_append]
        omega
      simp only [writeBraces, List.cons_append, List.append_assoc]
      unfold readBraces
      split
      · rename_i t he
        rw [List.cons.injEq] at he
        rw [he.2, hf] at hw
        cases hw
      · rename_i t _ he
        rw [List.cons.injEq] at he
        have hr := readTail_write f as _ hl rest
        rw [← he.2, hw]
        simp only [Option.bind_eq_bind, Option.bind_some, hr]
      · rename_i h₁ h₂
        exact absurd rfl (h₂ _)
  read_extend t as rest more h := by
    unfold readBraces at h
    split at h
    · cases h
      rfl
    · rename_i t' hne
      simp only [Option.bind_eq_bind, Option.bind_eq_some_iff, Prod.exists, Option.some.injEq,
        Prod.mk.injEq] at h
      obtain ⟨a, t₁, h₁, bs, t₂, h₂, rfl, rfl⟩ := h
      have hr := f.read_extend t' a t₁ more h₁
      have ht := readTail_extend f t₁.length more.length t₁ bs t₂ more h₂
      rw [← List.length_append] at ht
      unfold readBraces
      split
      · rename_i u he
        rw [List.cons_append, List.cons.injEq] at he
        rw [he.2, hf] at hr
        cases hr
      · rename_i u _ he
        rw [List.cons_append, List.cons.injEq] at he
        rw [← he.2, hr]
        simp only [Option.bind_eq_bind, Option.bind_some, ht]
      · rename_i h₃ h₄
        exact absurd rfl (h₄ _)
    · cases h
  write_ne as h := by
    cases as <;> cases h

def isDigit (c : Char) : Bool := '0' ≤ c ∧ c ≤ '9'

def readDigits : ℕ → Text → Option (ℕ × Text)
  | _, [] => none
  | n, c::t => if isDigit c then readDigits (10*n+(c.toNat-48)) t else some (n,c::t)

def writeDigits (n : ℕ) : Text :=
  if n = 0 then ['0'] else ((Nat.digits 10 n).map (fun d => Char.ofNat (48+d))).reverse

theorem digit_char (d : ℕ) (h : d < 10) :
    isDigit (Char.ofNat (48+d)) = true ∧ (Char.ofNat (48+d)).toNat-48 = d := by
  interval_cases d <;> decide

theorem readDigits_append (ds : List ℕ) (hd : ∀ d ∈ ds, d < 10) (n : ℕ) (c : Char) (rest : Text)
    (hc : isDigit c = false) :
    readDigits n (ds.map (fun d => Char.ofNat (48+d))++c::rest) =
      some (ds.foldl (fun m d => 10*m+d) n,c::rest) := by
  induction ds generalizing n with
  | nil => simp [readDigits, hc]
  | cons d ds ih =>
    obtain ⟨hdig, hval⟩ := digit_char d (hd d (by simp))
    simp [readDigits, hdig, hval, ih (fun e he => hd e (by simp [he]))]

theorem readDigits_write (n : ℕ) (c : Char) (rest : Text) (hc : isDigit c = false) :
    readDigits 0 (writeDigits n++c::rest) = some (n,c::rest) := by
  unfold writeDigits
  split
  · rename_i h
    subst h
    have h0 : isDigit '0' = true := by decide
    simp [readDigits, hc, h0]
  · rw [← List.map_reverse, readDigits_append _ _ 0 c rest hc, List.foldl_reverse]
    · have hv := Nat.ofDigits_digits 10 n
      rw [Nat.ofDigits_eq_foldr] at hv
      simpa [add_comm] using hv
    · intro d hd
      exact Nat.digits_lt_base (by decide) (List.mem_reverse.mp hd)

theorem readDigits_extend (n m : ℕ) (t rest more : Text) (h : readDigits n t = some (m,rest)) :
    readDigits n (t++more) = some (m,rest++more) := by
  induction t generalizing n with
  | nil => simp [readDigits] at h
  | cons c t ih =>
    by_cases hc : isDigit c = true
    · simp only [readDigits, if_pos hc] at h
      simpa [readDigits, hc] using ih _ h
    · simp only [readDigits, if_neg hc, Option.some.injEq, Prod.mk.injEq] at h
      obtain ⟨rfl, rfl⟩ := h
      simp [readDigits, hc]

/-- A decimal number up to a fixed character that is not a digit. -/
def numberThen (stop : Char) (hs : isDigit stop = false) : Framed ℕ where
  write n := writeDigits n++[stop]
  read t := do
    let (n,t) ← readDigits 0 t
    let t ← readLiteral [stop] t
    some (n,t)
  read_write n rest := by
    simp [readDigits_write n stop rest hs, readLiteral]
  read_extend t n rest more h := by
    simp only [Option.bind_eq_bind, Option.bind_eq_some_iff, Prod.exists, Option.some.injEq,
      Prod.mk.injEq] at h ⊢
    obtain ⟨m, t₁, h₁, t₂, h₂, rfl, rfl⟩ := h
    exact ⟨m, _, readDigits_extend 0 m t t₁ more h₁, _,
      readLiteral_extend [stop] t₁ t₂ more h₂, rfl, rfl⟩
  write_ne n := by simp

end Framed

end Uru.Lib
