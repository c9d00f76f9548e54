import Uru.Lib.Pattern

/-!
# Ignore globs

A glob becomes the text of a regular expression, anchored at both ends, and
this text becomes a matcher. The texts are sequences of UTF-16 code units, and
a character is one code unit, in the glob, in the path and for the matcher. Of
the grammar of regular expressions the model has what such a text can contain:
assertions, the dot, negated classes, escaped and plain characters, and the
star; any other text does not compile.
-/

set_option autoImplicit false

namespace Uru.Indexing.Glob
open Uru.Lib
open scoped Computability

abbrev CodeUnit := UInt16

abbrev Text := List CodeUnit

def unit (c : Char) : CodeUnit := UInt16.ofNat c.toNat

def units (s : String) : Text := s.toList.map unit

def syntaxCharacters : Text := units "^$\\.*+?()[]\x7b\x7d|"

def lineTerminators : Text := [0x0A,0x0D,0x2028,0x2029]

def dot (c : CodeUnit) : Bool := c ∉ lineTerminators

def classBody : Text → Option (Text × Text)
  | [] => none
  | c::t =>
    if c = unit ']' then some ([],t)
    else if c = unit '\\' ∨ c = unit '-' then none
    else (classBody t).map (fun r => (c::r.1,r.2))

def negatedClass : Text → Option ((CodeUnit → Bool) × Text)
  | c::t =>
    if c = unit '^' then (classBody t).map (fun r => (fun d => decide (d ∉ r.1),r.2)) else none
  | [] => none

def literal (c d : CodeUnit) : Bool := d = c

def escaped : Text → Option ((CodeUnit → Bool) × Text)
  | c::t => if c ∈ syntaxCharacters then some (literal c,t) else none
  | [] => none

def atom (c : CodeUnit) (t : Text) : Option ((CodeUnit → Bool) × Text) :=
  if c = unit '.' then some (dot,t)
  else if c = unit '\\' then escaped t
  else if c = unit '[' then negatedClass t
  else if c ∈ syntaxCharacters then none
  else some (literal c,t)

def quantified (p : CodeUnit → Bool) : Text → Piece CodeUnit × Text
  | [] => (.one p,[])
  | c::t => if c = unit '*' then (.many p,t) else (.one p,c::t)

/-- Reading takes one step for each term and so has enough of them when there
are as many as characters. -/
def readTerms : ℕ → Text → Option (List (Term CodeUnit))
  | _, [] => some []
  | 0, _::_ => none
  | n+1, c::t =>
    if c = unit '^' then (readTerms n t).map (Term.start::·)
    else if c = unit '$' then (readTerms n t).map (Term.stop::·)
    else (atom c t).bind (fun a =>
      (readTerms n (quantified a.1 a.2).2).map (Term.piece (quantified a.1 a.2).1::·))

/-- `new RegExp(text)`, which is none for a syntax error. -/
def newRegExp (text : Text) : Option (List (Term CodeUnit)) := readTerms text.length text

def metacharacters : Text := units ".+^$\x7b\x7d()|[]\\"

def escape (c : CodeUnit) : Text := if c ∈ metacharacters then [unit '\\',c] else [c]

/-- The loop over the glob, with its look ahead of up to two characters. -/
def globSource : Text → Text
  | [] => []
  | c::t =>
    if c = unit '*' then
      match t with
      | [] => units "[^/]*"
      | d::u =>
        if d = unit '*' then
          match u with
          | [] => units ".*"
          | e::v => if e = unit '/' then units ".*"++globSource v else units ".*"++globSource (e::v)
        else units "[^/]*"++globSource (d::u)
    else if c = unit '?' then units "[^/]"++globSource t
    else escape c++globSource t

def globToRegExp (glob : Text) : Option (List (Term CodeUnit)) :=
  newRegExp (unit '^' ::(globSource glob++[unit '$']))

inductive Token
  | segments
  | anything
  | star
  | question
  | char (c : CodeUnit)
deriving DecidableEq

def tokenize : Text → List Token
  | [] => []
  | c::t =>
    if c = unit '*' then
      match t with
      | [] => [.star]
      | d::u =>
        if d = unit '*' then
          match u with
          | [] => [.anything]
          | e::v => if e = unit '/' then .segments::tokenize v else .anything::tokenize (e::v)
        else .star::tokenize (d::u)
    else if c = unit '?' then .question::tokenize t
    else .char c::tokenize t

def withinSegment : Language CodeUnit := {w | unit '/' ∉ w}

/-- Zero or more whole segments, any text, any text without a slash, one
character that is no slash, and the character itself. -/
def Token.language : Token → Language CodeUnit
  | .segments => (withinSegment*{[unit '/']})∗
  | .anything => ⊤
  | .star => withinSegment
  | .question => {w | ∃ c, c ≠ unit '/' ∧ w = [c]}
  | .char c => {[c]}

def language (glob : Text) : Language CodeUnit := ((tokenize glob).map Token.language).prod

def Exact (glob : Text) : Prop :=
  ∃ re, globToRegExp glob = some re ∧ ∀ path, test re path = true ↔ path ∈ language glob

def Token.source : Token → Text
  | .segments | .anything => units ".*"
  | .star => units "[^/]*"
  | .question => units "[^/]"
  | .char c => escape c

def noSlash (c : CodeUnit) : Bool := c ∉ [unit '/']

def Token.piece : Token → Piece CodeUnit
  | .segments | .anything => .many dot
  | .star => .many noSlash
  | .question => .one noSlash
  | .char c => .one (literal c)

theorem globSource_eq (glob : Text) : globSource glob = (tokenize glob).flatMap Token.source := by
  induction glob using globSource.induct with
  | case1 => rfl
  | case2 => simp [globSource, tokenize, Token.source]
  | case3 => simp [globSource, tokenize, Token.source]
  | case4 v ih => simp [globSource, tokenize, Token.source, ih]
  | case5 e v he ih =>
    rw [globSource.eq_def, tokenize.eq_def]
    simp [he, Token.source, ih]
  | case6 d u hd ih =>
    rw [globSource.eq_def, tokenize.eq_def]
    simp [hd, Token.source, ih]
  | case7 t hq ih =>
    rw [globSource.eq_def, tokenize.eq_def]
    simp [hq, Token.source, ih]
  | case8 c t hs hq ih =>
    rw [globSource.eq_def, tokenize.eq_def]
    simp [hs, hq, Token.source, ih]

/-- The characters that tokens stand for are no wildcards. -/
theorem tokenize_char (glob : Text) (c : CodeUnit) (h : Token.char c ∈ tokenize glob) :
    c ≠ unit '*' ∧ c ≠ unit '?' := by
  induction glob using tokenize.induct with
  | case1 => cases h
  | case2 => simp [tokenize] at h
  | case3 => simp [tokenize] at h
  | case4 v ih =>
    simp only [tokenize, if_true, List.mem_cons, reduceCtorEq, false_or] at h
    exact ih h
  | case5 e v he ih =>
    rw [tokenize.eq_def] at h
    simp only [he, if_true, if_false, List.mem_cons, reduceCtorEq, false_or] at h
    exact ih h
  | case6 d u hd ih =>
    rw [tokenize.eq_def] at h
    simp only [hd, if_true, if_false, List.mem_cons, reduceCtorEq, false_or] at h
    exact ih h
  | case7 t hq ih =>
    rw [tokenize.eq_def] at h
    simp only [hq, if_true, if_false, List.mem_cons, reduceCtorEq, false_or] at h
    exact ih h
  | case8 d t hs hq ih =>
    rw [tokenize.eq_def] at h
    simp only [hs, hq, if_false, List.mem_cons, Token.char.injEq] at h
    rcases h with rfl | h
    · exact ⟨hs,hq⟩
    · exact ih h

def Unstarred (t : Text) : Prop := t.head? ≠ some (unit '*')

theorem quantified_unstarred (p : CodeUnit → Bool) (t : Text) (h : Unstarred t) :
    quantified p t = (.one p,t) := by
  cases t with
  | nil => rfl
  | cons c t => exact if_neg fun hc => h (congrArg some hc)

theorem source_unstarred (toks : List Token) (t : Text) (ht : Unstarred t)
    (hc : ∀ c, Token.char c ∈ toks → c ≠ unit '*') :
    Unstarred (toks.flatMap Token.source++t) := by
  cases toks with
  | nil => exact ht
  | cons tok toks =>
    cases tok with
    | char c =>
      have hne := hc c List.mem_cons_self
      simp only [Unstarred, List.flatMap_cons, Token.source, escape]
      split_ifs
      · simp [unit]
      · simpa using hne
    | _ => simp [Unstarred, Token.source, units, unit]

theorem mem_syntaxCharacters (c : CodeUnit) (h : c ∈ syntaxCharacters) :
    c ∈ metacharacters ∨ c = unit '*' ∨ c = unit '?' := by
  have hall : syntaxCharacters.all
      (fun c => c ∈ metacharacters ∨ c = unit '*' ∨ c = unit '?') = true := by decide
  exact of_decide_eq_true (List.all_eq_true.mp hall c h)

theorem plain_ne (c d : CodeUnit) (h : c ∉ syntaxCharacters) (hd : d ∈ syntaxCharacters) :
    c ≠ d := fun he => h (he ▸ hd)

theorem atom_literal (c : CodeUnit) (t : Text) (h : c ∉ syntaxCharacters) :
    atom c t = some (literal c,t) := by
  rw [atom, if_neg (plain_ne c _ h (by decide)), if_neg (plain_ne c _ h (by decide)),
    if_neg (plain_ne c _ h (by decide)), if_neg h]

theorem readTerms_piece (n : ℕ) (c : CodeUnit) (t u rest : Text) (p : CodeUnit → Bool)
    (x : Piece CodeUnit) (hs : c ≠ unit '^') (he : c ≠ unit '$') (ha : atom c t = some (p,u))
    (hq : quantified p u = (x,rest)) :
    readTerms (n+1) (c::t) = (readTerms n rest).map (Term.piece x::·) := by
  rw [readTerms, if_neg hs, if_neg he, ha, Option.bind_some, hq]

theorem readTerms_token (tok : Token) (n : ℕ) (t : Text) (ht : Unstarred t)
    (hc : ∀ c, tok = .char c → c ≠ unit '*' ∧ c ≠ unit '?') :
    readTerms (n+1) (tok.source++t) = (readTerms n t).map (Term.piece tok.piece::·) := by
  cases tok with
  | segments => exact readTerms_piece n _ _ (unit '*' ::t) t dot _ (by decide) (by decide) rfl rfl
  | anything => exact readTerms_piece n _ _ (unit '*' ::t) t dot _ (by decide) (by decide) rfl rfl
  | star =>
    exact readTerms_piece n _ _ (unit '*' ::t) t noSlash _ (by decide) (by decide) rfl rfl
  | question =>
    exact readTerms_piece n _ _ t t noSlash _ (by decide) (by decide) rfl
      (quantified_unstarred noSlash t ht)
  | char c =>
    simp only [Token.source, escape]
    split_ifs with hm
    · have hsyn : c ∈ syntaxCharacters := by
        have hall : metacharacters.all (fun c => c ∈ syntaxCharacters) = true := by decide
        exact of_decide_eq_true (List.all_eq_true.mp hall c hm)
      exact readTerms_piece n (unit '\\') _ t t (literal c) _ (by decide) (by decide)
        (by simp [atom, escaped, hsyn, unit]) (quantified_unstarred _ t ht)
    · have hsyn : c ∉ syntaxCharacters := fun hs => by
        rcases mem_syntaxCharacters c hs with h | h | h
        · exact hm h
        · exact (hc c rfl).1 h
        · exact (hc c rfl).2 h
      exact readTerms_piece n c _ t t (literal c) _ (plain_ne c _ hsyn (by decide))
        (plain_ne c _ hsyn (by decide)) (atom_literal c t hsyn) (quantified_unstarred _ t ht)

theorem readTerms_tokens (toks : List Token)
    (hc : ∀ c, Token.char c ∈ toks → c ≠ unit '*' ∧ c ≠ unit '?') (n : ℕ) (hn : toks.length < n) :
    readTerms n (toks.flatMap Token.source++[unit '$']) =
      some ((toks.map Token.piece).map Term.piece++[.stop]) := by
  induction toks generalizing n with
  | nil =>
    obtain ⟨n, rfl⟩ := Nat.exists_eq_add_of_lt hn
    cases n <;> rfl
  | cons tok toks ih =>
    obtain ⟨n, rfl⟩ := Nat.exists_eq_succ_of_ne_zero (Nat.ne_zero_of_lt hn)
    have htail : ∀ c, Token.char c ∈ toks → c ≠ unit '*' ∧ c ≠ unit '?' :=
      fun c h => hc c (List.mem_cons_of_mem _ h)
    have hrest : Unstarred (toks.flatMap Token.source++[unit '$']) :=
      source_unstarred toks _ (by simp [Unstarred, unit]) fun c h => (htail c h).1
    rw [List.flatMap_cons, List.append_assoc, readTerms_token tok n _ hrest
      (fun c h => hc c (h ▸ List.mem_cons_self)), ih htail n (Nat.lt_of_succ_lt_succ hn)]
    rfl

theorem source_ne_nil (tok : Token) : tok.source ≠ [] := by
  cases tok with
  | char c => simp only [Token.source, escape]; split_ifs <;> simp
  | _ => simp [Token.source, units]

theorem length_le_source (toks : List Token) : toks.length ≤ (toks.flatMap Token.source).length := by
  induction toks with
  | nil => simp
  | cons tok toks ih =>
    have hpos := List.length_pos_iff.mpr (source_ne_nil tok)
    simp only [List.flatMap_cons, List.length_append, List.length_cons]
    omega

/-- Every glob compiles, to the anchored sequence of its tokens' pieces. -/
theorem globToRegExp_eq (glob : Text) :
    globToRegExp glob = some (anchored ((tokenize glob).map Token.piece)) := by
  have hlen := length_le_source (tokenize glob)
  rw [globToRegExp, newRegExp, globSource_eq, List.length_cons, readTerms, if_pos rfl,
    readTerms_tokens _ (tokenize_char glob) _ (by simpa using Nat.lt_succ_of_le hlen)]
  rfl

theorem test_glob (glob : Text) (re : List (Term CodeUnit)) (h : globToRegExp glob = some re)
    (path : Text) :
    test re path = true ↔
      path ∈ ((tokenize glob).map fun tok => tok.piece.language).prod := by
  rw [globToRegExp_eq] at h
  cases h
  rw [test_anchored, List.map_map]
  rfl

def Token.wide : Token → Bool
  | .segments | .anything => true
  | _ => false

theorem piece_language (tok : Token) (h : tok.wide = false) :
    tok.piece.language = tok.language := by
  cases tok with
  | segments => cases h
  | anything => cases h
  | star =>
    ext w
    simp only [Token.piece, Piece.language, Token.language, withinSegment, noSlash]
    constructor
    · intro hw hs
      simpa using hw _ hs
    · intro hw c hc
      have hne : c ≠ unit '/' := fun he => hw (he ▸ hc)
      simpa using hne
  | question =>
    ext w
    simp [Token.piece, Piece.language, Token.language, noSlash]
  | char c =>
    ext w
    simp only [Token.piece, Piece.language, Token.language, literal, decide_eq_true_eq]
    constructor
    · rintro ⟨d, rfl, rfl⟩
      rfl
    · rintro rfl
      exact ⟨c,rfl,rfl⟩

theorem wide_cons (tok : Token) (toks : List Token) (h : tok.wide = false) :
    (∃ t ∈ tok::toks, t.wide = true) ↔ ∃ t ∈ toks, t.wide = true := by
  simp [h]

theorem wide_iff (glob : Text) :
    (∃ tok ∈ tokenize glob, tok.wide = true) ↔ [unit '*',unit '*'] <:+: glob := by
  induction glob using tokenize.induct with
  | case1 => simp [tokenize]
  | case2 => exact iff_of_false (by simp [tokenize, Token.wide]) (by decide)
  | case3 => exact iff_of_true ⟨.anything,by simp [tokenize],rfl⟩ List.infix_rfl
  | case4 v ih =>
    exact iff_of_true ⟨.segments,by simp [tokenize],rfl⟩ ⟨[],unit '/' ::v,rfl⟩
  | case5 e v he ih =>
    refine iff_of_true ⟨.anything,?_,rfl⟩ ⟨[],e::v,rfl⟩
    rw [tokenize.eq_def]
    simp [he]
  | case6 d u hd ih =>
    rw [tokenize.eq_def, List.infix_cons_iff]
    simp only [hd, if_true, if_false]
    rw [wide_cons _ _ rfl, ih]
    refine (or_iff_right fun hp => hd ?_).symm
    exact (List.cons_prefix_cons.mp (List.cons_prefix_cons.mp hp).2).1.symm
  | case7 t hq ih =>
    rw [tokenize.eq_def, List.infix_cons_iff]
    simp only [hq, if_true, if_false]
    rw [wide_cons _ _ rfl, ih]
    exact (or_iff_right fun hp => hq (List.cons_prefix_cons.mp hp).1.symm).symm
  | case8 c t hs hq ih =>
    rw [tokenize.eq_def, List.infix_cons_iff]
    simp only [hs, hq, if_false]
    rw [wide_cons _ _ rfl, ih]
    exact (or_iff_right fun hp => hs (List.cons_prefix_cons.mp hp).1.symm).symm

def lf : CodeUnit := 0x0A

def breaks : Text → ℕ
  | [] => 0
  | [_] => 0
  | c::d::t => (if c = lf ∧ d = unit '/' then 1 else 0)+breaks (d::t)

def block (k : ℕ) : Text := (List.replicate k [lf,unit '/']).flatten

theorem breaks_cons (c : CodeUnit) (t : Text) :
    breaks t ≤ breaks (c::t) ∧ breaks (c::t) ≤ breaks t+1 := by
  cases t with
  | nil => simp [breaks]
  | cons d t =>
    rw [breaks]
    split_ifs <;> omega

theorem breaks_other (c : CodeUnit) (t : Text) (h : c ≠ lf) : breaks (c::t) = breaks t := by
  cases t with
  | nil => rfl
  | cons d t => simp [breaks, h]

theorem le_breaks_append (u t : Text) : breaks t ≤ breaks (u++t) := by
  induction u with
  | nil => exact le_rfl
  | cons c u ih => exact ih.trans (breaks_cons c _).1

theorem breaks_dots (u t : Text) (h : ∀ c ∈ u, dot c = true) : breaks (u++t) = breaks t := by
  induction u with
  | nil => rfl
  | cons c u ih =>
    rw [List.forall_mem_cons] at h
    have hc : c ≠ lf := by
      rintro rfl
      exact absurd h.1 (by decide)
    rw [List.cons_append, breaks_other c _ hc, ih h.2]

theorem breaks_within (u t : Text) (h : ∀ c ∈ u, noSlash c = true) :
    breaks (u++t) ≤ breaks t+1 := by
  induction u with
  | nil => exact Nat.le_succ _
  | cons c u ih =>
    rw [List.forall_mem_cons] at h
    cases u with
    | nil => exact (breaks_cons c t).2
    | cons d u =>
      have hd : d ≠ unit '/' := by
        rintro rfl
        exact absurd (h.2 _ List.mem_cons_self) (by decide)
      simpa [breaks, hd] using ih h.2

/-- A word of a piece meets at most one of the line feeds before slashes. -/
theorem breaks_piece (tok : Token) (u t : Text) (h : u ∈ tok.piece.language) :
    breaks (u++t) ≤ breaks t+1 := by
  cases tok with
  | segments => exact (breaks_dots u t h).le.trans (Nat.le_succ _)
  | anything => exact (breaks_dots u t h).le.trans (Nat.le_succ _)
  | star => exact breaks_within u t h
  | question =>
    obtain ⟨c, -, rfl⟩ := h
    exact (breaks_cons c t).2
  | char d =>
    obtain ⟨c, -, rfl⟩ := h
    exact (breaks_cons c t).2

theorem breaks_matched (toks : List Token) (path : Text)
    (h : path ∈ (toks.map fun tok => tok.piece.language).prod) : breaks path ≤ toks.length := by
  induction toks generalizing path with
  | nil =>
    rw [List.map_nil, List.prod_nil, Language.mem_one] at h
    simp [h, breaks]
  | cons tok toks ih =>
    rw [List.map_cons, List.prod_cons, Language.mem_mul] at h
    obtain ⟨u, hu, v, hv, rfl⟩ := h
    exact (breaks_piece tok u v hu).trans (Nat.succ_le_succ (ih v hv))

theorem le_breaks_block (k : ℕ) (t : Text) : k ≤ breaks (block k++t) := by
  induction k with
  | zero => exact Nat.zero_le _
  | succ k ih =>
    have hstep : breaks (block (k+1)++t) = 1+breaks (unit '/' ::(block k++t)) := by
      simp [block, List.replicate_succ, breaks]
    have hslash := breaks_other (unit '/') (block k++t) (by decide)
    omega

def Token.word : Token → Text
  | .question => [unit 'x']
  | .char c => [c]
  | _ => []

theorem word_mem (tok : Token) : tok.word ∈ tok.language := by
  cases tok with
  | segments => exact Language.nil_mem_kstar _
  | anything => trivial
  | star => exact List.not_mem_nil
  | question => exact ⟨_,by decide,rfl⟩
  | char c => rfl

theorem block_mem (tok : Token) (h : tok.wide = true) (k : ℕ) : block k ∈ tok.language := by
  cases tok with
  | segments =>
    refine Language.mem_kstar.mpr ⟨_,rfl,fun y hy => ?_⟩
    rw [List.eq_of_mem_replicate hy]
    exact ⟨[lf],by simp [withinSegment, lf, unit],[unit '/'],rfl,rfl⟩
  | anything => trivial
  | _ => cases h

theorem words_mem (toks : List Token) :
    (toks.map Token.word).flatten ∈ (toks.map Token.language).prod := by
  induction toks with
  | nil => exact Language.nil_mem_one
  | cons tok toks ih => exact Language.append_mem_mul (word_mem tok) ih

/-- A glob is compiled exactly when no two stars in it stand side by side. -/
theorem exact_iff (glob : Text) : Exact glob ↔ ¬[unit '*',unit '*'] <:+: glob := by
  rw [← wide_iff]
  constructor
  · rintro ⟨re, hre, hall⟩ ⟨tok, hm, hw⟩
    obtain ⟨pre, post, htoks⟩ := List.append_of_mem hm
    let k := (tokenize glob).length+1
    let path := (pre.map Token.word).flatten++(block k++(post.map Token.word).flatten)
    have hin : path ∈ language glob := by
      rw [language, htoks, List.map_append, List.prod_append, List.map_cons, List.prod_cons]
      exact Language.append_mem_mul (words_mem pre)
        (Language.append_mem_mul (block_mem tok hw k) (words_mem post))
    have hmany : k ≤ breaks path :=
      (le_breaks_block k _).trans (le_breaks_append _ _)
    have hfew := breaks_matched _ path ((test_glob glob re hre path).mp ((hall path).mpr hin))
    omega
  · intro h
    refine ⟨_,globToRegExp_eq glob,fun path => ?_⟩
    rw [test_glob glob _ (globToRegExp_eq glob) path, language]
    have hpieces : (tokenize glob).map (fun tok => tok.piece.language) =
        (tokenize glob).map Token.language := by
      refine List.map_congr_left fun tok hm => piece_language tok ?_
      by_contra hw
      exact h ⟨tok,hm,by simpa using hw⟩
    rw [hpieces]

theorem matched_iff (toks : List Token) (h : Token.segments ∉ toks) (path : Text)
    (hl : ∀ c ∈ path, dot c = true) :
    path ∈ (toks.map fun tok => tok.piece.language).prod ↔
      path ∈ (toks.map Token.language).prod := by
  induction toks generalizing path with
  | nil => rfl
  | cons tok toks ih =>
    obtain ⟨htok, htoks⟩ := not_or.mp (mt List.mem_cons.mpr h)
    have hhead (u : Text) (hu : ∀ c ∈ u, dot c = true) :
        u ∈ tok.piece.language ↔ u ∈ tok.language := by
      cases tok with
      | segments => exact absurd rfl htok
      | anything => exact iff_of_true hu trivial
      | _ => rw [piece_language _ rfl]
    simp only [List.map_cons, List.prod_cons, Language.mem_mul]
    constructor
    · rintro ⟨u, hu, v, hv, rfl⟩
      rw [List.forall_mem_append] at hl
      exact ⟨u,(hhead u hl.1).mp hu,v,(ih htoks v hl.2).mp hv,rfl⟩
    · rintro ⟨u, hu, v, hv, rfl⟩
      rw [List.forall_mem_append] at hl
      exact ⟨u,(hhead u hl.1).mpr hu,v,(ih htoks v hl.2).mpr hv,rfl⟩

/-- On the paths without line terminators two stars side by side do no harm,
unless a slash follows them. -/
theorem test_on_lines (glob : Text) (h : Token.segments ∉ tokenize glob) (path : Text)
    (hl : ∀ c ∈ path, dot c = true) :
    ∃ re, globToRegExp glob = some re ∧ (test re path = true ↔ path ∈ language glob) :=
  ⟨_,globToRegExp_eq glob,
    (test_glob glob _ (globToRegExp_eq glob) path).trans (matched_iff _ h path hl)⟩

theorem segments_last (u : Text) (h : u ∈ Token.segments.language) :
    u = [] ∨ u.getLast? = some (unit '/') := by
  obtain ⟨L, rfl, hL⟩ := Language.mem_kstar.mp h
  induction L using List.reverseRecOn with
  | nil => exact Or.inl rfl
  | append_singleton L y _ =>
    obtain ⟨w, -, _, rfl, rfl⟩ := Language.mem_mul.mp (hL y (by simp))
    exact Or.inr (by simp)

theorem chars_language (cs : Text) : ((cs.map Token.char).map Token.language).prod = {cs} := by
  induction cs with
  | nil => rfl
  | cons c cs ih =>
    rw [List.map_cons, List.map_cons, List.prod_cons, ih]
    ext w
    simp only [Language.mem_mul, Token.language]
    constructor
    · rintro ⟨_, rfl, _, rfl, rfl⟩
      rfl
    · rintro rfl
      exact ⟨[c],rfl,cs,rfl,rfl⟩

theorem chars_matched (cs : Text) :
    cs ∈ ((cs.map Token.char).map fun tok => tok.piece.language).prod := by
  have hpieces : (cs.map Token.char).map (fun tok => tok.piece.language) =
      (cs.map Token.char).map Token.language := by
    refine List.map_congr_left fun tok hm => piece_language tok ?_
    obtain ⟨c, -, rfl⟩ := List.mem_map.mp hm
    rfl
  rw [hpieces, chars_language]
  rfl

theorem tokenize_plain (name : Text) (h : ∀ c ∈ name, c ≠ unit '*' ∧ c ≠ unit '?') :
    tokenize name = name.map Token.char := by
  induction name with
  | nil => rfl
  | cons c t ih =>
    rw [List.forall_mem_cons] at h
    rw [tokenize.eq_def]
    simp [h.1.1, h.1.2, ih h.2]

/-- The slash of a leading `**/` is swallowed: a path that merely ends with
the name is matched, although it is not in the language. -/
theorem slash_swallowed (name u : Text) (h : ∀ c ∈ name, c ≠ unit '*' ∧ c ≠ unit '?')
    (hu : ∀ c ∈ u, dot c = true) (hne : u ≠ []) (hlast : u.getLast? ≠ some (unit '/')) :
    test (anchored ((tokenize (unit '*' ::unit '*' ::unit '/' ::name)).map Token.piece))
      (u++name) = true ∧ u++name ∉ language (unit '*' ::unit '*' ::unit '/' ::name) := by
  have htoks : tokenize (unit '*' ::unit '*' ::unit '/' ::name) =
      .segments::name.map Token.char := by
    rw [tokenize.eq_def]
    simp [tokenize_plain name h]
  constructor
  · rw [test_glob _ _ (globToRegExp_eq _), htoks, List.map_cons, List.prod_cons]
    exact Language.append_mem_mul hu (chars_matched name)
  · rw [language, htoks, List.map_cons, List.prod_cons, chars_language, Language.mem_mul]
    rintro ⟨v, hv, _, rfl, he⟩
    cases List.append_cancel_right he
    rcases segments_last u hv with hs | hs
    · exact hne hs
    · exact hlast hs

/-- `**/private.md` ignores `notprivate.md`. -/
theorem private_ignores_more :
    (∃ re, globToRegExp (unit '*' ::unit '*' ::unit '/' ::units "private.md") = some re ∧
      test re (units "not"++units "private.md") = true) ∧
    ¬Exact (unit '*' ::unit '*' ::unit '/' ::units "private.md") := by
  have hplain : (units "private.md").all (fun c => c ≠ unit '*' ∧ c ≠ unit '?') = true := by
    decide +kernel
  have hdots : (units "not").all dot = true := by decide +kernel
  obtain ⟨htest, hout⟩ := slash_swallowed (units "private.md") (units "not")
    (fun c hc => of_decide_eq_true (List.all_eq_true.mp hplain c hc)) (List.all_eq_true.mp hdots)
    (by decide +kernel) (by decide +kernel)
  refine ⟨⟨_,globToRegExp_eq _,htest⟩,?_⟩
  rintro ⟨re, hre, hall⟩
  rw [globToRegExp_eq] at hre
  cases hre
  exact hout ((hall _).mp htest)

end Uru.Indexing.Glob
