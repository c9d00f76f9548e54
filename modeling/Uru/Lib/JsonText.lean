import Uru.Lib.Framed

/-!
# JSON strings

The quoted strings of JSON, written with the escapes that a serializer emits
and read with all the escapes that the format allows. Reading refuses a raw
control character and an unknown escape.
-/

set_option autoImplicit false

namespace Uru.Lib.JsonText

def hexDigit (n : ℕ) : Char := Char.ofNat (if n < 10 then 48+n else 87+n)

def hexValue (c : Char) : Option ℕ :=
  if '0' ≤ c ∧ c ≤ '9' then some (c.toNat-48)
  else if 'a' ≤ c ∧ c ≤ 'f' then some (c.toNat-87)
  else if 'A' ≤ c ∧ c ≤ 'F' then some (c.toNat-55)
  else none

def escape (c : Char) : Text :=
  if c = '"' then ['\\','"']
  else if c = '\\' then ['\\','\\']
  else if c.toNat = 8 then ['\\','b']
  else if c.toNat = 9 then ['\\','t']
  else if c.toNat = 10 then ['\\','n']
  else if c.toNat = 12 then ['\\','f']
  else if c.toNat = 13 then ['\\','r']
  else if c.toNat < 32 then ['\\','u','0','0',hexDigit (c.toNat/16),hexDigit (c.toNat%16)]
  else [c]

def unescape : Char → Option Char
  | '"' => some '"'
  | '\\' => some '\\'
  | '/' => some '/'
  | 'b' => some (Char.ofNat 8)
  | 't' => some (Char.ofNat 9)
  | 'n' => some (Char.ofNat 10)
  | 'f' => some (Char.ofNat 12)
  | 'r' => some (Char.ofNat 13)
  | _ => none

def readHex (a b c d : Char) : Option Char := do
  let a ← hexValue a
  let b ← hexValue b
  let c ← hexValue c
  let d ← hexValue d
  some (Char.ofNat (4096*a+256*b+16*c+d))

def readBody : Text → Option (Text × Text)
  | [] => none
  | '"'::t => some ([],t)
  | '\\' :: 'u' :: a::b::c::d::t => do
    let e ← readHex a b c d
    let (s,t) ← readBody t
    some (e::s,t)
  | '\\'::c::t => do
    let e ← unescape c
    let (s,t) ← readBody t
    some (e::s,t)
  | c::t => if c.toNat < 32 then none else do
    let (s,t) ← readBody t
    some (c::s,t)

theorem readHex_control (n : ℕ) (h : n < 32) :
    readHex '0' '0' (hexDigit (n/16)) (hexDigit (n%16)) = some (Char.ofNat n) := by
  interval_cases n <;> decide

theorem char_toNat {c : Char} {n : ℕ} (h : c.toNat = n) : c = Char.ofNat n := by
  rw [← h, Char.ofNat_toNat]

theorem readBody_backslash (c : Char) (t : Text) (hu : c ≠ 'u') :
    readBody ('\\'::c::t) =
      (unescape c).bind (fun e => (readBody t).map (fun p => (e::p.1,p.2))) := by
  rw [readBody]
  · cases unescape c <;> cases readBody t <;> rfl
  · exact fun _ _ _ _ _ h _ => hu h

theorem readBody_plain (c : Char) (t : Text) (h₁ : c ≠ '"') (h₂ : c ≠ '\\') :
    readBody (c::t) = if c.toNat < 32 then none else
      (readBody t).map (fun p => (c::p.1,p.2)) := by
  rw [readBody]
  · cases readBody t <;> rfl
  · exact fun h => h₁ h
  · exact fun _ _ _ _ _ h _ => h₂ h
  · exact fun _ _ h _ => h₂ h

theorem readBody_short {e c : Char} (hu : e ≠ 'u') (he : unescape e = some c) (t : Text) :
    readBody ('\\'::e::t) = (readBody t).map (fun p => (c::p.1,p.2)) := by
  rw [readBody_backslash e t hu, he]
  rfl

theorem readBody_escape (c : Char) (t : Text) :
    readBody (escape c++t) = (readBody t).map (fun p => (c::p.1,p.2)) := by
  unfold escape
  by_cases hq : c = '"'
  · rw [if_pos hq, hq]
    exact readBody_short (by decide) rfl t
  rw [if_neg hq]
  by_cases hb : c = '\\'
  · rw [if_pos hb, hb]
    exact readBody_short (by decide) rfl t
  rw [if_neg hb]
  by_cases h8 : c.toNat = 8
  · rw [if_pos h8, char_toNat h8]
    exact readBody_short (by decide) rfl t
  rw [if_neg h8]
  by_cases h9 : c.toNat = 9
  · rw [if_pos h9, char_toNat h9]
    exact readBody_short (by decide) rfl t
  rw [if_neg h9]
  by_cases h10 : c.toNat = 10
  · rw [if_pos h10, char_toNat h10]
    exact readBody_short (by decide) rfl t
  rw [if_neg h10]
  by_cases h12 : c.toNat = 12
  · rw [if_pos h12, char_toNat h12]
    exact readBody_short (by decide) rfl t
  rw [if_neg h12]
  by_cases h13 : c.toNat = 13
  · rw [if_pos h13, char_toNat h13]
    exact readBody_short (by decide) rfl t
  rw [if_neg h13]
  by_cases hlow : c.toNat < 32
  · have hx := readHex_control c.toNat hlow
    rw [Char.ofNat_toNat] at hx
    rw [if_pos hlow]
    simp only [List.cons_append, List.nil_append, readBody, hx, Option.bind_eq_bind, Option.bind_some]
    cases readBody t <;> rfl
  · rw [if_neg hlow, List.cons_append, List.nil_append, readBody_plain c t hq hb, if_neg hlow]

theorem readBody_write (s t : Text) :
    readBody (s.flatMap escape ++ '"' :: t) = some (s,t) := by
  induction s with
  | nil => rfl
  | cons c s ih => rw [List.flatMap_cons, List.append_assoc, readBody_escape, ih]; rfl

theorem readBody_extend (t s rest more : Text) (h : readBody t = some (s,rest)) :
    readBody (t++more) = some (s,rest++more) := by
  induction t using readBody.induct generalizing s with
  | case1 => simp [readBody] at h
  | case2 t => cases h; rfl
  | case3 a b c d t ih =>
    simp only [readBody, Option.bind_eq_bind, Option.bind_eq_some_iff, Prod.exists,
      Option.some.injEq, Prod.mk.injEq] at h
    obtain ⟨e, he, s', r, hr, rfl, rfl⟩ := h
    simp [readBody, he, ih s' hr]
  | case4 c t hshort ih =>
    rw [readBody] at h
    · simp only [Option.bind_eq_bind, Option.bind_eq_some_iff, Prod.exists,
        Option.some.injEq, Prod.mk.injEq] at h
      obtain ⟨e, he, s', r, hr, rfl, rfl⟩ := h
      have hu : c ≠ 'u' := fun hc => by subst hc; cases he
      rw [List.cons_append, List.cons_append, readBody_backslash c _ hu]
      simp [he, ih s' hr]
    · exact hshort
  | case5 c t h₁ h₂ h₃ hc =>
    rw [readBody, if_pos hc] at h
    · cases h
    · exact h₁
    · exact h₂
    · exact h₃
  | case6 c t h₁ h₂ h₃ hc ih =>
    rw [readBody, if_neg hc] at h
    · simp only [Option.bind_eq_bind, Option.bind_eq_some_iff, Prod.exists,
        Option.some.injEq, Prod.mk.injEq] at h
      obtain ⟨s', r, hr, rfl, rfl⟩ := h
      have hb : c ≠ '\\' := by
        cases t with
        | nil => simp [readBody] at hr
        | cons d t => exact fun hc' => h₃ d t hc' rfl
      rw [List.cons_append, readBody_plain c _ h₁ hb, if_neg hc, ih s' hr]
      rfl
    · exact h₁
    · exact h₂
    · exact h₃

def quoted : Framed Text where
  write s := '"'::(s.flatMap escape++['"'])
  read t := do
    let t ← Framed.readLiteral ['"'] t
    readBody t
  read_write s rest := by simp [Framed.readLiteral, readBody_write]
  read_extend t s rest more h := by
    simp only [Option.bind_eq_bind, Option.bind_eq_some_iff] at h ⊢
    obtain ⟨t₁, h₁, h₂⟩ := h
    exact ⟨_, Framed.readLiteral_extend _ t t₁ more h₁, readBody_extend t₁ s rest more h₂⟩
  write_ne s h := by cases h

end Uru.Lib.JsonText
