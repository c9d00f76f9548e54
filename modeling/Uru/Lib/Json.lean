import Mathlib.Tactic

/-!
# JSON values and their compact texts

JSON values over code points, surrogates included, and the compact text of a
value, with the members of an object in the order in which they stand. A text
may write every code point outside printable ASCII as an escape, or only the
ones that JSON requires. Equal texts come from equal values; where all is
escaped, this holds for strings without surrogates, because a pair of these
has the escape of the code point that it encodes.
-/

set_option autoImplicit false

namespace Uru.Lib

abbrev Letter := Fin 0x110000

theorem Letter.char_lt (c : Char) : c.toNat < 0x110000 := by
  have h := c.valid
  unfold UInt32.isValidChar Nat.isValidChar at h
  unfold Char.toNat
  omega

def letter (c : Char) : Letter := ⟨c.toNat, Letter.char_lt c⟩

def Letter.isSurrogate (c : Letter) : Bool := 0xd800 ≤ c.val ∧ c.val < 0xe000

namespace Json

def hexDigit (n : ℕ) : Letter := if n%16 < 10 then ⟨48+n%16, by omega⟩ else ⟨87+n%16, by omega⟩

def hexValue (c : Letter) : ℕ := if c.val < 58 then c.val-48 else c.val-87

def unicode (n : ℕ) : List Letter :=
  [letter '\\',letter 'u',hexDigit (n/4096),hexDigit (n/256),hexDigit (n/16),hexDigit n]

def escape (ascii : Bool) (c : Letter) : List Letter :=
  if c = letter '"' then [letter '\\',letter '"']
  else if c = letter '\\' then [letter '\\',letter '\\']
  else if c.val = 8 then [letter '\\',letter 'b']
  else if c.val = 9 then [letter '\\',letter 't']
  else if c.val = 10 then [letter '\\',letter 'n']
  else if c.val = 12 then [letter '\\',letter 'f']
  else if c.val = 13 then [letter '\\',letter 'r']
  else if c.val < 32 then unicode c.val
  else if !ascii || c.val < 127 then [c]
  else if c.val < 0x10000 then unicode c.val
  else unicode (0xd800+(c.val-0x10000)/1024)++unicode (0xdc00+(c.val-0x10000)%1024)

def shortEscape (e : Letter) : Letter :=
  if e = letter 'b' then ⟨8, by omega⟩
  else if e = letter 't' then ⟨9, by omega⟩
  else if e = letter 'n' then ⟨10, by omega⟩
  else if e = letter 'f' then ⟨12, by omega⟩
  else if e = letter 'r' then ⟨13, by omega⟩
  else e

def readHex (a b c d : Letter) : ℕ :=
  4096*hexValue a+256*hexValue b+16*hexValue c+hexValue d

def unescape (s : List Letter) : Option (ℕ × List Letter) :=
  match s with
  | [] => none
  | x::s =>
    if x = letter '\\' then
      match s with
      | [] => none
      | e::s =>
        if e = letter 'u' then
          match s with
          | a::b::c::d::s =>
            let n := readHex a b c d
            if 0xd800 ≤ n ∧ n < 0xdc00 then
              match s with
              | _::_::a::b::c::d::s => some (0x10000+(n-0xd800)*1024+(readHex a b c d-0xdc00),s)
              | _ => none
            else some (n,s)
          | _ => none
        else some ((shortEscape e).val,s)
    else some (x.val,s)

theorem hexValue_digit (n : ℕ) : hexValue (hexDigit n) = n%16 := by
  unfold hexDigit hexValue
  by_cases h : n%16 < 10
  · rw [if_pos h, if_pos (by simp only; omega)]
    exact Nat.add_sub_cancel_left _ _
  · rw [if_neg h, if_neg (by simp only; omega)]
    exact Nat.add_sub_cancel_left _ _

theorem readHex_unicode (n : ℕ) (h : n < 0x10000) :
    readHex (hexDigit (n/4096)) (hexDigit (n/256)) (hexDigit (n/16)) (hexDigit n) = n := by
  simp only [readHex, hexValue_digit]
  omega

theorem unescape_unicode (n : ℕ) (h : n < 0x10000) (hs : ¬ (0xd800 ≤ n ∧ n < 0xdc00))
    (t : List Letter) : unescape (unicode n++t) = some (n,t) := by
  simp [unescape, unicode, readHex_unicode n h, hs]

theorem unescape_pair (m n : ℕ) (hm : 0xd800 ≤ m ∧ m < 0xdc00) (hn : n < 0x10000)
    (t : List Letter) :
    unescape (unicode m++unicode n++t) = some (0x10000+(m-0xd800)*1024+(n-0xdc00),t) := by
  simp [unescape, unicode, readHex_unicode m (by omega), readHex_unicode n hn, hm]

inductive EscapeForm (ascii : Bool) (c : Letter) : List Letter → Prop
  | short (e : Letter) (hu : e ≠ letter 'u') (he : e.val < 128) (hc : c.val < 128)
      (h : shortEscape e = c) : EscapeForm ascii c [letter '\\',e]
  | plain (hq : c ≠ letter '"') (hb : c ≠ letter '\\') : EscapeForm ascii c [c]
  | unit (h : c.val < 32 ∨ ascii = true ∧ c.val < 0x10000) : EscapeForm ascii c (unicode c.val)
  | pair (ha : ascii = true) (h : 0x10000 ≤ c.val) : EscapeForm ascii c
      (unicode (0xd800+(c.val-0x10000)/1024)++unicode (0xdc00+(c.val-0x10000)%1024))

theorem short_form {ascii : Bool} {c : Letter} {n : ℕ} (hn : n < 128) (h : c.val = n) (e : Letter)
    (hu : e ≠ letter 'u') (he : e.val < 128) (hs : (shortEscape e).val = n) :
    EscapeForm ascii c [letter '\\',e] :=
  .short e hu he (h ▸ hn) (Fin.ext (hs.trans h.symm))

theorem escape_form (ascii : Bool) (c : Letter) : EscapeForm ascii c (escape ascii c) := by
  unfold escape
  by_cases hq : c = letter '"'
  · rw [if_pos hq]
    exact @short_form _ c 34 (by omega) (congrArg Fin.val hq) _ (by decide) (by decide) (by decide)
  rw [if_neg hq]
  by_cases hb : c = letter '\\'
  · rw [if_pos hb]
    exact @short_form _ c 92 (by omega) (congrArg Fin.val hb) _ (by decide) (by decide) (by decide)
  rw [if_neg hb]
  by_cases h8 : c.val = 8
  · rw [if_pos h8]
    exact short_form (by omega) h8 _ (by decide) (by decide) (by decide)
  rw [if_neg h8]
  by_cases h9 : c.val = 9
  · rw [if_pos h9]
    exact short_form (by omega) h9 _ (by decide) (by decide) (by decide)
  rw [if_neg h9]
  by_cases h10 : c.val = 10
  · rw [if_pos h10]
    exact short_form (by omega) h10 _ (by decide) (by decide) (by decide)
  rw [if_neg h10]
  by_cases h12 : c.val = 12
  · rw [if_pos h12]
    exact short_form (by omega) h12 _ (by decide) (by decide) (by decide)
  rw [if_neg h12]
  by_cases h13 : c.val = 13
  · rw [if_pos h13]
    exact short_form (by omega) h13 _ (by decide) (by decide) (by decide)
  rw [if_neg h13]
  by_cases hlow : c.val < 32
  · rw [if_pos hlow]
    exact .unit (.inl hlow)
  rw [if_neg hlow]
  cases ascii with
  | false => exact .plain hq hb
  | true =>
    by_cases hprint : c.val < 127
    · rw [if_pos (by simp [hprint])]
      exact .plain hq hb
    rw [if_neg (by simp [hprint])]
    by_cases hunit : c.val < 0x10000
    · rw [if_pos hunit]
      exact .unit (.inr ⟨rfl, hunit⟩)
    rw [if_neg hunit]
    exact .pair rfl (not_lt.mp hunit)

theorem unescape_escape (ascii : Bool) (c : Letter) (h : ascii = true → c.isSurrogate = false)
    (t : List Letter) : unescape (escape ascii c++t) = some (c.val,t) := by
  have hlt := c.isLt
  have hform := escape_form ascii c
  generalize escape ascii c = s at hform ⊢
  cases hform with
  | short e hu _ _ he => simp [unescape, hu, he]
  | plain _ hb => simp [unescape, hb]
  | unit hc =>
    refine unescape_unicode _ (by omega) ?_ t
    rcases hc with hc | ⟨ha, -⟩
    · omega
    · have hs := h ha
      rw [Letter.isSurrogate, decide_eq_false_iff_not] at hs
      omega
  | pair ha hc =>
    rw [unescape_pair _ _ (by omega) (by omega)]
    have he : 0x10000+(0xd800+(c.val-0x10000)/1024-0xd800)*1024+
        (0xdc00+(c.val-0x10000)%1024-0xdc00) = c.val := by omega
    rw [he]

theorem escape_inj {ascii : Bool} {c d : Letter} (hc : ascii = true → c.isSurrogate = false)
    (hd : ascii = true → d.isSurrogate = false) {s t : List Letter}
    (h : escape ascii c++s = escape ascii d++t) : c = d ∧ s = t := by
  have he := congrArg unescape h
  rw [unescape_escape ascii c hc, unescape_escape ascii d hd] at he
  injection he with he
  injection he with hv hs
  exact ⟨Fin.ext hv, hs⟩

theorem escape_head (ascii : Bool) (c : Letter) :
    ∃ e s, escape ascii c = e::s ∧ e ≠ letter '"' := by
  have hform := escape_form ascii c
  generalize escape ascii c = s at hform ⊢
  cases hform with
  | short e _ _ _ _ => exact ⟨_, _, rfl, by decide⟩
  | plain hq _ => exact ⟨_, _, rfl, hq⟩
  | unit _ => exact ⟨_, _, rfl, by decide⟩
  | pair _ _ => exact ⟨_, _, rfl, by decide⟩

/-- A string that the escapes tell from every other. -/
def Plain (ascii : Bool) (s : List Letter) : Prop :=
  ascii = true → ∀ c ∈ s, c.isSurrogate = false

def quote (ascii : Bool) (s : List Letter) : List Letter :=
  letter '"' ::(s.flatMap (escape ascii)++[letter '"'])

theorem body_inj {ascii : Bool} (s t : List Letter) (hs : Plain ascii s) (ht : Plain ascii t)
    {x y : List Letter}
    (h : s.flatMap (escape ascii)++letter '"' ::x = t.flatMap (escape ascii)++letter '"' ::y) :
    s = t ∧ x = y := by
  induction s generalizing t with
  | nil =>
    cases t with
    | nil => exact ⟨rfl, List.tail_eq_of_cons_eq h⟩
    | cons d t =>
      obtain ⟨e, u, he, hne⟩ := escape_head ascii d
      rw [List.flatMap_cons, he] at h
      exact absurd (List.head_eq_of_cons_eq h).symm hne
  | cons c s ih =>
    cases t with
    | nil =>
      obtain ⟨e, u, he, hne⟩ := escape_head ascii c
      rw [List.flatMap_cons, he] at h
      exact absurd (List.head_eq_of_cons_eq h) hne
    | cons d t =>
      rw [List.flatMap_cons, List.flatMap_cons, List.append_assoc, List.append_assoc] at h
      obtain ⟨hcd, hst⟩ := escape_inj (fun ha => hs ha c (by simp)) (fun ha => ht ha d (by simp)) h
      obtain ⟨he, hx⟩ := ih t (fun ha c hc => hs ha c (by simp [hc]))
        (fun ha c hc => ht ha c (by simp [hc])) hst
      exact ⟨by rw [hcd, he], hx⟩

theorem quote_inj {ascii : Bool} {s t : List Letter} (hs : Plain ascii s) (ht : Plain ascii t)
    {x y : List Letter} (h : quote ascii s++x = quote ascii t++y) : s = t ∧ x = y := by
  have hq : ∀ (s x : List Letter), quote ascii s++x =
      letter '"' ::(s.flatMap (escape ascii)++letter '"' ::x) := fun s x => by simp [quote]
  rw [hq, hq, List.cons_inj_right] at h
  exact body_inj s t hs ht h

end Json

/-- The text of a number: it starts as no other value does, and holds neither
a delimiter nor a surrogate. -/
structure NumText where
  text : List Letter
  starts : ∃ c s, text = c::s ∧ c ∉ [letter 'n',letter 't',letter 'f',letter '"',letter '[',letter '{']
  inside : ∀ c ∈ text, c ∉ [letter ',',letter ']',letter '}']
  plain : ∀ c ∈ text, c.isSurrogate = false

theorem NumText.eq_of_text {m n : NumText} (h : m.text = n.text) : m = n := by
  cases m
  cases n
  cases h
  rfl

inductive Json
  | null
  | bool (b : Bool)
  | num (t : NumText)
  | str (s : List Letter)
  | arr (xs : List Json)
  | obj (kvs : List (List Letter × Json))

namespace Json

theorem ind {P : Json → Prop} (null : P null) (bool : ∀ b, P (bool b)) (num : ∀ t, P (num t))
    (str : ∀ s, P (str s)) (arr : ∀ xs, (∀ x ∈ xs, P x) → P (arr xs))
    (obj : ∀ kvs, (∀ kv ∈ kvs, P kv.2) → P (obj kvs)) : ∀ v, P v
  | .null => null
  | .bool b => bool b
  | .num t => num t
  | .str s => str s
  | .arr xs => arr xs (goList xs)
  | .obj kvs => obj kvs (goObj kvs)
where
  goList : ∀ xs : List Json, ∀ x ∈ xs, P x
    | [], _, h => absurd h List.not_mem_nil
    | y::ys, x, h => (List.mem_cons.mp h).elim
        (fun he => he ▸ ind null bool num str arr obj y) (goList ys x)
  goObj : ∀ kvs : List (List Letter × Json), ∀ kv ∈ kvs, P kv.2
    | [], _, h => absurd h List.not_mem_nil
    | (_,y)::ys, kv, h => (List.mem_cons.mp h).elim
        (fun he => he ▸ ind null bool num str arr obj y) (goObj ys kv)

def word (s : String) : List Letter := s.toList.map letter

def dump (ascii : Bool) : Json → List Letter
  | null => word "null"
  | bool b => if b then word "true" else word "false"
  | num t => t.text
  | str s => quote ascii s
  | arr xs => letter '[' ::items xs
  | obj kvs => letter '{' ::members kvs
where
  items : List Json → List Letter
    | [] => [letter ']']
    | x::xs => dump ascii x++moreItems xs
  moreItems : List Json → List Letter
    | [] => [letter ']']
    | x::xs => letter ',' ::(dump ascii x++moreItems xs)
  members : List (List Letter × Json) → List Letter
    | [] => [letter '}']
    | (k,x)::kvs => quote ascii k++letter ':' ::(dump ascii x++moreMembers kvs)
  moreMembers : List (List Letter × Json) → List Letter
    | [] => [letter '}']
    | (k,x)::kvs => letter ',' ::(quote ascii k++letter ':' ::(dump ascii x++moreMembers kvs))

def PlainTexts (ascii : Bool) : Json → Prop
  | str s => Plain ascii s
  | arr xs => all xs
  | obj kvs => allMembers kvs
  | _ => True
where
  all : List Json → Prop
    | [] => True
    | x::xs => PlainTexts ascii x ∧ all xs
  allMembers : List (List Letter × Json) → Prop
    | [] => True
    | (k,x)::kvs => Plain ascii k ∧ PlainTexts ascii x ∧ allMembers kvs

def Ends (s : List Letter) : Prop :=
  s = [] ∨ ∃ c t, s = c::t ∧ c ∈ [letter ',',letter ']',letter '}']

theorem ends_more (ascii : Bool) (xs : List Json) (s : List Letter) :
    Ends (dump.moreItems ascii xs++s) := by
  cases xs with
  | nil => exact .inr ⟨_, _, rfl, by simp⟩
  | cons x xs => exact .inr ⟨_, _, rfl, by simp⟩

theorem ends_moreMembers (ascii : Bool) (kvs : List (List Letter × Json)) (s : List Letter) :
    Ends (dump.moreMembers ascii kvs++s) := by
  cases kvs with
  | nil => exact .inr ⟨_, _, rfl, by simp⟩
  | cons kv kvs => exact .inr ⟨_, _, rfl, by simp⟩

inductive Kind
  | null | true_ | false_ | num | str | arr | obj
deriving DecidableEq

def kind : Json → Kind
  | null => .null
  | bool b => if b then .true_ else .false_
  | num _ => .num
  | str _ => .str
  | arr _ => .arr
  | obj _ => .obj

def letterKind (c : Letter) : Kind :=
  if c = letter 'n' then .null
  else if c = letter 't' then .true_
  else if c = letter 'f' then .false_
  else if c = letter '"' then .str
  else if c = letter '[' then .arr
  else if c = letter '{' then .obj
  else .num

theorem dump_kind (ascii : Bool) (v : Json) :
    ∃ c s, dump ascii v = c::s ∧ letterKind c = v.kind ∧ c ∉ [letter ',',letter ']',letter '}'] := by
  cases v with
  | null => exact ⟨_, _, rfl, rfl, by decide⟩
  | bool b => cases b <;> exact ⟨_, _, rfl, rfl, by decide⟩
  | num t =>
    obtain ⟨c, s, ht, hc⟩ := t.starts
    have hin := t.inside c (by simp [ht])
    simp only [List.mem_cons, List.not_mem_nil, or_false, not_or] at hc
    exact ⟨c, s, ht, by simp [letterKind, hc, kind], hin⟩
  | str s => exact ⟨_, _, rfl, rfl, by decide⟩
  | arr xs => exact ⟨_, _, rfl, rfl, by decide⟩
  | obj kvs => exact ⟨_, _, rfl, rfl, by decide⟩

theorem kind_of_dump {ascii : Bool} {v w : Json} {x y : List Letter}
    (h : dump ascii v++x = dump ascii w++y) : v.kind = w.kind := by
  obtain ⟨c, s, hv, hc, _⟩ := dump_kind ascii v
  obtain ⟨d, t, hw, hd, _⟩ := dump_kind ascii w
  rw [hv, hw] at h
  rw [← hc, ← hd, List.head_eq_of_cons_eq h]

/-- No value starts with a closing bracket. -/
theorem dump_ne_close {ascii : Bool} {v : Json} {x y : List Letter} :
    dump ascii v++x ≠ letter ']' ::y := by
  obtain ⟨c, s, hv, _, hc⟩ := dump_kind ascii v
  intro h
  rw [hv] at h
  exact hc (by simp [List.head_eq_of_cons_eq h])

theorem num_inj {m n : NumText} {x y : List Letter} (hx : Ends x) (hy : Ends y)
    (h : m.text++x = n.text++y) : m = n ∧ x = y := by
  have key : ∀ (s t x y : List Letter), (∀ c ∈ s, c ∉ [letter ',',letter ']',letter '}']) →
      (∀ c ∈ t, c ∉ [letter ',',letter ']',letter '}']) → Ends x → Ends y → s++x = t++y →
      s = t ∧ x = y := by
    intro s
    induction s with
    | nil =>
      intro t x y _ ht hx _ h
      cases t with
      | nil => exact ⟨rfl, h⟩
      | cons d t =>
        rcases hx with rfl | ⟨c, u, rfl, hc⟩
        · cases h
        · exact absurd (List.head_eq_of_cons_eq h ▸ hc) (ht d (by simp))
    | cons c s ih =>
      intro t x y hs ht hx hy h
      cases t with
      | nil =>
        rcases hy with rfl | ⟨d, u, rfl, hd⟩
        · cases h
        · exact absurd (List.head_eq_of_cons_eq h ▸ hd) (hs c (by simp))
      | cons d t =>
        obtain ⟨he, hx⟩ := ih t x y (fun c hc => hs c (by simp [hc])) (fun c hc => ht c (by simp [hc]))
          hx hy (List.tail_eq_of_cons_eq h)
        exact ⟨by rw [List.head_eq_of_cons_eq h, he], hx⟩
  obtain ⟨ht, hxy⟩ := key _ _ x y m.inside n.inside hx hy h
  exact ⟨NumText.eq_of_text ht, hxy⟩

/-- The text of `v` tells it from every other value, whatever follows. -/
def Told (ascii : Bool) (v : Json) : Prop :=
  ∀ w x y, PlainTexts ascii v → PlainTexts ascii w → Ends x → Ends y →
    dump ascii v++x = dump ascii w++y → v = w ∧ x = y

section Told

variable {ascii : Bool}

theorem moreItems_inj (xs : List Json) (ih : ∀ x ∈ xs, Told ascii x) (ys : List Json)
    (s t : List Letter) (hxs : PlainTexts.all ascii xs) (hys : PlainTexts.all ascii ys)
    (h : dump.moreItems ascii xs++s = dump.moreItems ascii ys++t) : xs = ys ∧ s = t := by
  induction xs generalizing ys with
  | nil =>
    cases ys with
    | nil => exact ⟨rfl, List.tail_eq_of_cons_eq h⟩
    | cons y ys => cases List.head_eq_of_cons_eq h
  | cons x xs ihx =>
    cases ys with
    | nil => cases List.head_eq_of_cons_eq h
    | cons y ys =>
      have htail := List.tail_eq_of_cons_eq h
      change (dump ascii x++dump.moreItems ascii xs)++s = (dump ascii y++dump.moreItems ascii ys)++t
        at htail
      rw [List.append_assoc, List.append_assoc] at htail
      obtain ⟨hxy, hrest⟩ := ih x (by simp) y _ _ hxs.1 hys.1 (ends_more ascii xs s)
        (ends_more ascii ys t) htail
      obtain ⟨he, hst⟩ := ihx (fun z hz => ih z (by simp [hz])) ys hxs.2 hys.2 hrest
      exact ⟨by rw [hxy, he], hst⟩

theorem items_inj (xs : List Json) (ih : ∀ x ∈ xs, Told ascii x) (ys : List Json)
    (s t : List Letter) (hxs : PlainTexts.all ascii xs) (hys : PlainTexts.all ascii ys)
    (h : dump.items ascii xs++s = dump.items ascii ys++t) : xs = ys ∧ s = t := by
  cases xs with
  | nil =>
    cases ys with
    | nil => exact ⟨rfl, List.tail_eq_of_cons_eq h⟩
    | cons y ys =>
      rw [dump.items, dump.items, List.append_assoc] at h
      exact absurd h.symm dump_ne_close
  | cons x xs =>
    cases ys with
    | nil =>
      rw [dump.items, dump.items, List.append_assoc] at h
      exact absurd h dump_ne_close
    | cons y ys =>
      rw [dump.items, dump.items, List.append_assoc, List.append_assoc] at h
      obtain ⟨hxy, hrest⟩ := ih x (by simp) y _ _ hxs.1 hys.1 (ends_more ascii xs s)
        (ends_more ascii ys t) h
      obtain ⟨he, hst⟩ := moreItems_inj xs (fun z hz => ih z (by simp [hz])) ys s t hxs.2 hys.2 hrest
      exact ⟨by rw [hxy, he], hst⟩

/-- The text of one member tells the member. -/
theorem member_inj {k l : List Letter} {v w : Json} {s t : List Letter} (hv : Told ascii v)
    (hk : Plain ascii k) (hl : Plain ascii l) (hvt : PlainTexts ascii v) (hwt : PlainTexts ascii w)
    (hs : Ends s) (ht : Ends t)
    (h : quote ascii k++letter ':' ::(dump ascii v++s) = quote ascii l++letter ':' ::(dump ascii w++t)) :
    (k,v) = (l,w) ∧ s = t := by
  obtain ⟨hkl, hrest⟩ := quote_inj hk hl h
  obtain ⟨hvw, hst⟩ := hv w s t hvt hwt hs ht (List.tail_eq_of_cons_eq hrest)
  exact ⟨by rw [hkl, hvw], hst⟩

theorem moreMembers_inj (xs : List (List Letter × Json)) (ih : ∀ x ∈ xs, Told ascii x.2)
    (ys : List (List Letter × Json)) (s t : List Letter) (hxs : PlainTexts.allMembers ascii xs)
    (hys : PlainTexts.allMembers ascii ys)
    (h : dump.moreMembers ascii xs++s = dump.moreMembers ascii ys++t) : xs = ys ∧ s = t := by
  induction xs generalizing ys with
  | nil =>
    cases ys with
    | nil => exact ⟨rfl, List.tail_eq_of_cons_eq h⟩
    | cons y ys => cases List.head_eq_of_cons_eq h
  | cons x xs ihx =>
    cases ys with
    | nil => cases List.head_eq_of_cons_eq h
    | cons y ys =>
      have htail := List.tail_eq_of_cons_eq h
      simp only [List.append_eq, List.append_assoc, List.cons_append] at htail
      obtain ⟨hxy, hrest⟩ := member_inj (ih x (by simp)) hxs.1 hys.1 hxs.2.1 hys.2.1
        (ends_moreMembers ascii xs s) (ends_moreMembers ascii ys t) htail
      obtain ⟨he, hst⟩ := ihx (fun z hz => ih z (by simp [hz])) ys hxs.2.2 hys.2.2 hrest
      exact ⟨congrArg₂ List.cons hxy he, hst⟩

theorem members_inj (xs : List (List Letter × Json)) (ih : ∀ x ∈ xs, Told ascii x.2)
    (ys : List (List Letter × Json)) (s t : List Letter) (hxs : PlainTexts.allMembers ascii xs)
    (hys : PlainTexts.allMembers ascii ys)
    (h : dump.members ascii xs++s = dump.members ascii ys++t) : xs = ys ∧ s = t := by
  cases xs with
  | nil =>
    cases ys with
    | nil => exact ⟨rfl, List.tail_eq_of_cons_eq h⟩
    | cons y ys => cases List.head_eq_of_cons_eq h
  | cons x xs =>
    cases ys with
    | nil => cases List.head_eq_of_cons_eq h
    | cons y ys =>
      simp only [dump.members, List.append_assoc, List.cons_append] at h
      obtain ⟨hxy, hrest⟩ := member_inj (ih x (by simp)) hxs.1 hys.1 hxs.2.1 hys.2.1
        (ends_moreMembers ascii xs s) (ends_moreMembers ascii ys t) h
      obtain ⟨he, hst⟩ := moreMembers_inj xs (fun z hz => ih z (by simp [hz])) ys s t hxs.2.2 hys.2.2
        hrest
      exact ⟨congrArg₂ List.cons hxy he, hst⟩

theorem dump_told (v : Json) : Told ascii v := by
  induction v using Json.ind with
  | null =>
    intro w x y _ _ _ _ h
    have hk := kind_of_dump h
    cases w with
    | null => exact ⟨rfl, List.append_cancel_left h⟩
    | bool b => cases b <;> cases hk
    | _ => cases hk
  | bool b =>
    intro w x y _ _ _ _ h
    have hk := kind_of_dump h
    cases w with
    | bool b' =>
      cases b <;> cases b'
      · exact ⟨rfl, List.append_cancel_left h⟩
      · cases hk
      · cases hk
      · exact ⟨rfl, List.append_cancel_left h⟩
    | _ => cases b <;> cases hk
  | num m =>
    intro w x y _ _ hx hy h
    have hk := kind_of_dump h
    cases w with
    | num n =>
      obtain ⟨hmn, hxy⟩ := num_inj hx hy h
      exact ⟨by rw [hmn], hxy⟩
    | bool b => cases b <;> cases hk
    | _ => cases hk
  | str s =>
    intro w x y hv hw _ _ h
    have hk := kind_of_dump h
    cases w with
    | str t =>
      obtain ⟨hst, hxy⟩ := quote_inj hv hw h
      exact ⟨by rw [hst], hxy⟩
    | bool b => cases b <;> cases hk
    | _ => cases hk
  | arr xs ih =>
    intro w x y hv hw _ _ h
    have hk := kind_of_dump h
    cases w with
    | arr ys =>
      obtain ⟨he, hxy⟩ := items_inj xs ih ys x y hv hw (List.tail_eq_of_cons_eq h)
      exact ⟨by rw [he], hxy⟩
    | bool b => cases b <;> cases hk
    | _ => cases hk
  | obj kvs ih =>
    intro w x y hv hw _ _ h
    have hk := kind_of_dump h
    cases w with
    | obj kvs' =>
      obtain ⟨he, hxy⟩ := members_inj kvs ih kvs' x y hv hw (List.tail_eq_of_cons_eq h)
      exact ⟨by rw [he], hxy⟩
    | bool b => cases b <;> cases hk
    | _ => cases hk

theorem dump_inj {v w : Json} (hv : PlainTexts ascii v) (hw : PlainTexts ascii w)
    (h : dump ascii v = dump ascii w) : v = w :=
  (dump_told v w [] [] hv hw (.inl rfl) (.inl rfl) (by rw [h])).1

end Told

def Surrogateless (s : List Letter) : Prop := ∀ c ∈ s, c.isSurrogate = false

theorem surrogateless_nil : Surrogateless [] := fun _ h => absurd h List.not_mem_nil

theorem surrogateless_cons (c : Letter) (s : List Letter) :
    Surrogateless (c::s) ↔ c.isSurrogate = false ∧ Surrogateless s := by
  simp [Surrogateless]

theorem surrogateless_append (s t : List Letter) :
    Surrogateless (s++t) ↔ Surrogateless s ∧ Surrogateless t := by
  simp only [Surrogateless, List.mem_append]
  exact ⟨fun h => ⟨fun c hc => h c (.inl hc), fun c hc => h c (.inr hc)⟩,
    fun h c hc => hc.elim (h.1 c) (h.2 c)⟩

theorem hexDigit_plain (n : ℕ) : (hexDigit n).isSurrogate = false := by
  unfold hexDigit Letter.isSurrogate
  split_ifs <;> simp only [decide_eq_false_iff_not] <;> omega

theorem unicode_surrogateless (n : ℕ) : Surrogateless (unicode n) := by
  simp only [unicode, surrogateless_cons, hexDigit_plain, surrogateless_nil, and_true]
  decide

theorem low_plain {c : Letter} (h : c.val < 128) : c.isSurrogate = false := by
  rw [Letter.isSurrogate, decide_eq_false_iff_not]
  omega

theorem escape_surrogateless (c : Letter) :
    Surrogateless (escape false c) ↔ c.isSurrogate = false := by
  have hform := escape_form false c
  generalize escape false c = s at hform ⊢
  cases hform with
  | short e _ he hc _ =>
    have hb : (letter '\\').isSurrogate = false := by decide
    simp only [surrogateless_cons, surrogateless_nil, hb, low_plain he, low_plain hc, and_self]
  | plain _ _ => simp only [surrogateless_cons, surrogateless_nil, and_true]
  | unit hc => exact ⟨fun _ => low_plain (by simp at hc; omega), fun _ => unicode_surrogateless _⟩
  | pair ha _ => cases ha

theorem quote_surrogateless (s : List Letter) :
    Surrogateless (quote false s) ↔ Plain true s := by
  have hbody : ∀ s : List Letter, Surrogateless (s.flatMap (escape false)) ↔ Surrogateless s := by
    intro s
    induction s with
    | nil => exact Iff.rfl
    | cons c s ih => rw [List.flatMap_cons, surrogateless_append, escape_surrogateless, ih,
        surrogateless_cons]
  have hq : (letter '"').isSurrogate = false := by decide
  rw [quote, surrogateless_cons, surrogateless_append, hbody, surrogateless_cons]
  simp [hq, Plain, Surrogateless]

/-- No Unicode scalar value is a surrogate. -/
theorem letter_plain (c : Char) : (letter c).isSurrogate = false := by
  have hv := c.valid
  unfold UInt32.isValidChar Nat.isValidChar at hv
  refine decide_eq_false (fun h => ?_)
  simp only [letter, Char.toNat] at h
  omega

theorem word_surrogateless (s : String) : Surrogateless (word s) := by
  intro c hc
  obtain ⟨ch, _, rfl⟩ := List.mem_map.mp hc
  exact letter_plain ch

theorem items_surrogateless (xs : List Json)
    (ih : ∀ x ∈ xs, Surrogateless (dump false x) ↔ PlainTexts true x) :
    (Surrogateless (dump.items false xs) ↔ PlainTexts.all true xs) ∧
      (Surrogateless (dump.moreItems false xs) ↔ PlainTexts.all true xs) := by
  have hb : (letter ']').isSurrogate = false := by decide
  have hc : (letter ',').isSurrogate = false := by decide
  induction xs with
  | nil => simp [dump.items, dump.moreItems, PlainTexts.all, surrogateless_cons, hb, surrogateless_nil]
  | cons x xs ihx =>
    have hx := ih x (by simp)
    have hxs := (ihx (fun y hy => ih y (by simp [hy]))).2
    simp only [dump.items, dump.moreItems, PlainTexts.all, surrogateless_cons, surrogateless_append,
      hx, hxs, hc, true_and, and_self]

theorem members_surrogateless (kvs : List (List Letter × Json))
    (ih : ∀ kv ∈ kvs, Surrogateless (dump false kv.2) ↔ PlainTexts true kv.2) :
    (Surrogateless (dump.members false kvs) ↔ PlainTexts.allMembers true kvs) ∧
      (Surrogateless (dump.moreMembers false kvs) ↔ PlainTexts.allMembers true kvs) := by
  have hb : (letter '}').isSurrogate = false := by decide
  have hc : (letter ',').isSurrogate = false := by decide
  have hk : (letter ':').isSurrogate = false := by decide
  induction kvs with
  | nil => simp [dump.members, dump.moreMembers, PlainTexts.allMembers, surrogateless_cons, hb,
      surrogateless_nil]
  | cons kv kvs ihk =>
    have hx := ih kv (by simp)
    have hxs := (ihk (fun y hy => ih y (by simp [hy]))).2
    simp only [dump.members, dump.moreMembers, PlainTexts.allMembers, surrogateless_cons,
      surrogateless_append, quote_surrogateless, hx, hxs, hc, hk, true_and, and_self]

/-- Where only what JSON requires is escaped, a text has a surrogate exactly
when a string or a key in the value has one. -/
theorem dump_surrogateless (v : Json) : Surrogateless (dump false v) ↔ PlainTexts true v := by
  induction v using Json.ind with
  | null => exact ⟨fun _ => trivial, fun _ => word_surrogateless "null"⟩
  | bool b =>
    cases b with
    | false => exact ⟨fun _ => trivial, fun _ => word_surrogateless "false"⟩
    | true => exact ⟨fun _ => trivial, fun _ => word_surrogateless "true"⟩
  | num t => exact ⟨fun _ => trivial, fun _ => t.plain⟩
  | str s => exact quote_surrogateless s
  | arr xs ih =>
    have hb : (letter '[').isSurrogate = false := by decide
    rw [dump, surrogateless_cons, (items_surrogateless xs ih).1]
    exact ⟨fun h => h.2, fun h => ⟨hb, h⟩⟩
  | obj kvs ih =>
    have hb : (letter '{').isSurrogate = false := by decide
    rw [dump, surrogateless_cons, (members_surrogateless kvs ih).1]
    exact ⟨fun h => h.2, fun h => ⟨hb, h⟩⟩

end Json

end Uru.Lib
