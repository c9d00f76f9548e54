import Uru.Indexing.Note

/-!
# Frontmatter, line by line

A note is cut into lines, and its frontmatter is what a first line of three
dashes and the next such line enclose. The indexer searches the text instead:
it does not look at the second line, and takes the first later line that begins
with the dashes for the closing one. Where that is the same line, what it sends
is the note without its frontmatter and without leading white space.
-/

set_option autoImplicit false

namespace Uru.Indexing.Frontmatter
open Uru.Lib

abbrev Line := Text × Text

/-- The lines of a text with their line ends, where `line` is what has been
read of the first one. The last line has no line end and may be empty. -/
def lines : Text → Text → List Line
  | line, '\r' :: '\n' :: t => (line,['\r','\n'])::lines [] t
  | line, '\n' ::t => (line,['\n'])::lines [] t
  | line, c::t => lines (line++[c]) t
  | line, [] => [(line,[])]

def join (ls : List Line) : Text := ls.flatMap (fun l => l.1++l.2)

def fence : Text := ['-','-','-']

def firstOf (g : Line → List Line → Option Text) : List Line → Option Text
  | [] => none
  | l::ls => (g l ls).or (firstOf g ls)

def afterFence (l : Line) (ls : List Line) : Option Text :=
  if l.1 = fence then some (join ls) else none

def withoutFrontmatter (raw : Text) : Text :=
  match lines [] raw with
  | first::later => if first.1 = fence then (firstOf afterFence later).getD raw else raw
  | [] => raw

/-- If the first line is the dashes, the second is not, and the first line
from the third on that begins with the dashes goes no further. -/
def Plain (raw : Text) : Prop :=
  match lines [] raw with
  | first::second::later => first.1 = fence → second.1 ≠ fence ∧
      ∀ l ∈ later.find? (fun l => fence.isPrefixOf l.1), l.1 = fence
  | _ => True

theorem join_lines (line t : Text) : join (lines line t) = line++t := by
  induction line, t using lines.induct with
  | case1 line t ih => simpa [lines, join] using ih
  | case2 line t ih => simpa [lines, join] using ih
  | case3 line c t h1 h2 ih =>
    rw [lines]
    · simpa using ih
    · exact h1
    · exact h2
  | case4 line => simp [lines, join]

theorem lines_newline (line t rest : Text) (h : newline t = some rest) :
    ∃ e, lines line t = (line,e)::lines [] rest := by
  unfold newline at h
  split at h
  · cases h
    exact ⟨_,rfl⟩
  · cases h
    exact ⟨_,rfl⟩
  · cases h

theorem lines_char (line t : Text) (c : Char) (h : newline (c::t) = none) :
    lines line (c::t) = lines (line++[c]) t := by
  rw [lines]
  · rintro u rfl rfl
    simp [newline] at h
  · rintro rfl
    simp [newline] at h

theorem lines_head (line t : Text) :
    ∃ more e later, lines line t = (line++more,e)::later := by
  induction t generalizing line with
  | nil => exact ⟨[],[],[],by simp [lines]⟩
  | cons c t ih =>
    cases hn : newline (c::t) with
    | some rest =>
      obtain ⟨e, he⟩ := lines_newline line (c::t) rest hn
      exact ⟨[],e,_,by simpa using he⟩
    | none =>
      obtain ⟨more, e, later, he⟩ := ih (line++[c])
      exact ⟨c::more,e,later,by rw [lines_char line t c hn, he]; simp⟩

def Ended : List Line → Prop
  | [] => True
  | [l] => l.2 = []
  | l::l'::ls => (∀ x, newline (l.2++x) = some x) ∧ Ended (l'::ls)

theorem ended_cons (l : Line) (ls : List Line) (h : ∀ x, newline (l.2++x) = some x)
    (hs : Ended ls) (hne : ls ≠ []) : Ended (l::ls) := by
  cases ls with
  | nil => exact absurd rfl hne
  | cons l' ls => exact ⟨h,hs⟩

theorem ended_tail (l : Line) (ls : List Line) (h : Ended (l::ls)) : Ended ls := by
  cases ls with
  | nil => trivial
  | cons l' ls => exact h.2

theorem lines_ne_nil (line t : Text) : lines line t ≠ [] := by
  obtain ⟨more, e, later, h⟩ := lines_head line t
  simp [h]

theorem ended_lines (line t : Text) : Ended (lines line t) := by
  induction line, t using lines.induct with
  | case1 line t ih => exact ended_cons _ _ (fun _ => rfl) ih (lines_ne_nil [] t)
  | case2 line t ih => exact ended_cons _ _ (fun _ => rfl) ih (lines_ne_nil [] t)
  | case3 line c t h1 h2 ih =>
    rw [lines]
    · exact ih
    · exact h1
    · exact h2
  | case4 line => rfl

def afterDashes (l : Line) (ls : List Line) : Option Text :=
  if fence.isPrefixOf l.1 then some (l.1.drop 3++(l.2++join ls)) else none

theorem dashes_some (t u : Text) (h : dashes t = some u) : t = fence++u := by
  unfold dashes at h
  split at h
  · cases h
    rfl
  · cases h

theorem dashes_none (t u : Text) (h : dashes t = none) : t ≠ fence++u := by
  rintro rfl
  cases h

theorem lines_dashes (u : Text) : lines [] (fence++u) = lines fence u := by
  rw [fence, List.cons_append, lines_char _ _ _ rfl, List.cons_append, lines_char _ _ _ rfl,
    List.cons_append, lines_char _ _ _ rfl]
  rfl

theorem dashes_lines (t : Text) (l : Line) (ls : List Line) (h : lines [] t = l::ls) :
    dashes t = afterDashes l ls := by
  have hjoin : t = l.1++(l.2++join ls) := by
    have hj := join_lines [] t
    rw [h] at hj
    simpa [join] using hj.symm
  unfold afterDashes
  cases hd : dashes t with
  | some u =>
    have ht := dashes_some t u hd
    obtain ⟨more, e, later, hl⟩ := lines_head fence u
    rw [← lines_dashes, ← ht, h] at hl
    cases hl
    rw [if_pos (by simp)]
    have hu := ht.symm.trans hjoin
    rw [List.append_assoc] at hu
    rw [List.append_cancel_left hu]
    rfl
  | none =>
    rw [if_neg]
    intro hp
    obtain ⟨more, hm⟩ := List.isPrefixOf_iff_prefix.mp hp
    refine dashes_none t (more++(l.2++join ls)) hd ?_
    rw [hjoin, ← hm]
    simp

theorem afterFrontmatter_lines (line t : Text) :
    afterFrontmatter t = firstOf afterDashes (lines line t).tail := by
  have hstart (t : Text) (ih : afterFrontmatter t = firstOf afterDashes (lines [] t).tail) :
      (dashes t).or (afterFrontmatter t) = firstOf afterDashes (lines [] t) := by
    obtain ⟨more, e, later, hl⟩ := lines_head [] t
    rw [ih, dashes_lines t _ _ hl, hl]
    rfl
  induction line, t using lines.induct with
  | case1 line t ih =>
    rw [lines, List.tail_cons, ← hstart t ih]
    cases hd : dashes t <;> simp [afterFrontmatter, newline, hd]
  | case2 line t ih =>
    rw [lines, List.tail_cons, ← hstart t ih]
    simp [afterFrontmatter, newline]
  | case3 line c t h1 h2 ih =>
    have hn : newline (c::t) = none := by
      unfold newline
      split
      · rename_i u heq
        cases heq
        exact absurd rfl (h1 u rfl)
      · rename_i u heq
        cases heq
        exact absurd rfl h2
      · rfl
    rw [afterFrontmatter, hn, lines_char line t c hn, ← ih]
    rfl
  | case4 line => rfl

def cut (rest : Text) : Text := (newline rest).getD rest

theorem strip_lines (raw : Text) :
    stripFrontmatter raw = match lines [] raw with
      | first::_::later =>
        if first.1 = fence then ((firstOf afterDashes later).map cut).getD raw else raw
      | _ => raw := by
  unfold stripFrontmatter
  cases hd : dashes raw with
  | none =>
    obtain ⟨more, e, later, hl⟩ := lines_head [] raw
    have hne : more ≠ fence := by
      rintro rfl
      have hj := join_lines [] raw
      rw [hl] at hj
      exact dashes_none raw (e++join later) hd (by simpa [join] using hj.symm)
    rw [hl]
    cases later with
    | nil => rfl
    | cons second later => simp [hne]
  | some u =>
    have hraw := dashes_some raw u hd
    rw [hraw, lines_dashes, Option.bind_some]
    cases hn : newline u with
    | some v =>
      obtain ⟨e, he⟩ := lines_newline fence u v hn
      obtain ⟨more, e', later, hv⟩ := lines_head [] v
      rw [he, hv, Option.bind_some, afterFrontmatter_lines [] v, hv]
      simp only [List.tail_cons, if_true]
      cases firstOf afterDashes later <;> rfl
    | none =>
      cases u with
      | nil => rfl
      | cons c t =>
        obtain ⟨more, e, later, hl⟩ := lines_head (fence++[c]) t
        rw [lines_char fence t c hn, hl]
        cases later with
        | nil => rfl
        | cons second later => simp

theorem newline_keeps (p q rest : Text) (h : newline (p++ '-' ::q) = some rest) :
    ∃ x, rest = x++ '-' ::q := by
  match p with
  | [] => cases h
  | [c] =>
    unfold newline at h
    split at h
    · rename_i heq
      cases heq
    · rename_i heq
      cases heq
      cases h
      exact ⟨[],rfl⟩
    · cases h
  | c::d::p =>
    unfold newline at h
    split at h
    · rename_i heq
      cases heq
      cases h
      exact ⟨p,rfl⟩
    · rename_i heq
      cases heq
      cases h
      exact ⟨d::p,rfl⟩
    · cases h

theorem cut_keeps (p q : Text) : ∃ x, cut (p++ '-' ::q) = x++ '-' ::q := by
  unfold cut
  cases hn : newline (p++ '-' ::q) with
  | none => exact ⟨p,rfl⟩
  | some rest => exact newline_keeps p q rest hn

theorem newline_suffix (t rest : Text) (h : newline t = some rest) : ∃ x, t = x++rest := by
  unfold newline at h
  split at h
  · cases h
    exact ⟨['\r','\n'],rfl⟩
  · cases h
    exact ⟨['\n'],rfl⟩
  · cases h

theorem cut_suffix (rest : Text) : ∃ x, rest = x++cut rest := by
  unfold cut
  cases hn : newline rest with
  | none => exact ⟨[],rfl⟩
  | some t => exact newline_suffix rest t hn

/-- Where the first line that begins with the dashes is exactly the dashes,
the search and the lines agree. -/
theorem search_agrees (ls : List Line) (he : Ended ls)
    (h : ∀ l ∈ ls.find? (fun l => fence.isPrefixOf l.1), l.1 = fence) :
    (firstOf afterDashes ls).map cut = firstOf afterFence ls := by
  induction ls with
  | nil => rfl
  | cons l ls ih =>
    by_cases hp : fence.isPrefixOf l.1 = true
    · have hl := h l (by simp [hp])
      have hcut : cut (l.2++join ls) = join ls := by
        cases ls with
        | nil =>
          rw [show l.2 = [] from he]
          rfl
        | cons l' ls =>
          rw [cut, he.1]
          rfl
      simp [firstOf, afterDashes, afterFence, hl, fence, hcut]
    · have hne : l.1 ≠ fence := by
        intro hl
        rw [hl] at hp
        exact hp (by decide)
      have htail := ih (ended_tail l ls he) (by simpa [List.find?_cons, hp] using h)
      simpa [firstOf, afterDashes, afterFence, hp, hne] using htail

def Beyond (long short : Text) : Prop := ∃ x y, long = x++ '-' ::(y++short)

theorem beyond_append (x long short : Text) (h : Beyond long short) : Beyond (x++long) short := by
  obtain ⟨a, b, rfl⟩ := h
  exact ⟨x++a,b,by simp⟩

theorem beyond_fence (t : Text) : Beyond (fence++t) t := ⟨[],['-','-'],rfl⟩

theorem beyond_suffix (long x short : Text) (h : Beyond long (x++short)) : Beyond long short := by
  obtain ⟨a, b, rfl⟩ := h
  exact ⟨a,b++x,by simp⟩

theorem trimStart_dash (x t : Text) : t.length < (trimStart (x++ '-' ::t)).length := by
  induction x with
  | nil => simp [trimStart, isSpace]
  | cons c x ih =>
    unfold trimStart at ih ⊢
    rw [List.cons_append, List.dropWhile_cons]
    split_ifs
    · exact ih
    · simp only [List.length_cons, List.length_append]
      omega

theorem beyond_differs (long short : Text) (h : Beyond long short) :
    trimStart long ≠ trimStart short := by
  obtain ⟨x, y, rfl⟩ := h
  intro he
  have hlong := trimStart_dash x (y++short)
  have hshort := (List.dropWhile_suffix isSpace (l := short)).length_le
  rw [he, List.length_append] at hlong
  unfold trimStart at hlong
  omega

theorem beyond_dashes (ls : List Line) (rest : Text) (h : firstOf afterDashes ls = some rest) :
    Beyond (join ls) rest := by
  induction ls with
  | nil => cases h
  | cons l ls ih =>
    have hjoin : join (l::ls) = l.1++l.2++join ls := rfl
    by_cases hp : fence.isPrefixOf l.1 = true
    · obtain ⟨more, hm⟩ := List.isPrefixOf_iff_prefix.mp hp
      have hr : rest = more++(l.2++join ls) := by
        simp only [firstOf, afterDashes, if_pos hp, Option.some_or, Option.some.injEq] at h
        rw [← h, ← hm]
        rfl
      rw [hjoin, hr, ← hm]
      simpa using beyond_fence (more++(l.2++join ls))
    · have hrest : firstOf afterDashes ls = some rest := by
        simpa [firstOf, afterDashes, hp] using h
      rw [hjoin]
      exact beyond_append _ _ _ (ih hrest)

theorem beyond_exact (ls : List Line) (rest : Text) (h : firstOf afterFence ls = some rest) :
    Beyond (join ls) rest := by
  induction ls with
  | nil => cases h
  | cons l ls ih =>
    have hjoin : join (l::ls) = l.1++l.2++join ls := rfl
    by_cases hl : l.1 = fence
    · have hr : join ls = rest := by simpa [firstOf, afterFence, hl] using h
      rw [hjoin, hl, hr, List.append_assoc]
      exact beyond_suffix _ l.2 rest (beyond_fence (l.2++rest))
    · have hrest : firstOf afterFence ls = some rest := by simpa [firstOf, afterFence, hl] using h
      rw [hjoin]
      exact beyond_append _ _ _ (ih hrest)

theorem beyond_cut (t rest : Text) (h : Beyond t rest) : Beyond t (cut rest) := by
  obtain ⟨x, hx⟩ := cut_suffix rest
  rw [hx] at h
  exact beyond_suffix t x _ h

/-- Where the first line that begins with the dashes goes further, the search
stops there, before any closing line. -/
theorem search_early (ls : List Line) (l : Line)
    (hf : ls.find? (fun l => fence.isPrefixOf l.1) = some l) (hl : l.1 ≠ fence) :
    ∃ rest, firstOf afterDashes ls = some rest ∧
      ∀ after, firstOf afterFence ls = some after → Beyond (cut rest) after := by
  induction ls with
  | nil => cases hf
  | cons l' ls ih =>
    by_cases hp : fence.isPrefixOf l'.1 = true
    · simp only [List.find?_cons, hp, Option.some.injEq] at hf
      subst hf
      refine ⟨l'.1.drop 3++(l'.2++join ls),by simp [firstOf, afterDashes, hp],fun after ha => ?_⟩
      have hls : firstOf afterFence ls = some after := by
        simpa [firstOf, afterFence, hl] using ha
      obtain ⟨x, y, hj⟩ := beyond_exact ls after hls
      rw [hj, ← List.append_assoc, ← List.append_assoc]
      obtain ⟨z, hz⟩ := cut_keeps (l'.1.drop 3++l'.2++x) (y++after)
      exact ⟨z,y,hz⟩
    · have hne : l'.1 ≠ fence := by
        intro he
        rw [he] at hp
        exact hp (by decide)
      simp only [List.find?_cons, hp] at hf
      obtain ⟨rest, hr, hafter⟩ := ih hf
      refine ⟨rest,by simpa [firstOf, afterDashes, hp] using hr,fun after ha => hafter after ?_⟩
      simpa [firstOf, afterFence, hne] using ha

/-- What is sent is the note without its frontmatter and without leading white
space, exactly where the search and the lines cannot part. -/
theorem sent_iff (raw : Text) :
    readContent false raw = trimStart (withoutFrontmatter raw) ↔ Plain raw := by
  have hjoin := join_lines [] raw
  have hended := ended_lines [] raw
  have hread : readContent false raw = trimStart (stripFrontmatter raw) := rfl
  rw [hread, strip_lines]
  unfold withoutFrontmatter Plain
  match lines [] raw, hjoin, hended with
  | [], _, _ => simp
  | [first], _, _ => simp [firstOf]
  | first::second::later, hjoin, hended =>
    by_cases hf : first.1 = fence
    swap
    · simp [hf]
    have hraw : raw = fence++(first.2++(second.1++second.2++join later)) := by
      simpa [join, hf] using hjoin.symm
    have hbeyond (t : Text) (x : Text) (h : first.2++(second.1++second.2++join later) = x++t) :
        Beyond raw t := by
      rw [hraw, h]
      exact beyond_suffix _ x t (beyond_fence (x++t))
    simp only [hf, if_true, forall_const]
    by_cases hs : second.1 = fence
    · have hexact : firstOf afterFence (second::later) = some (join later) := by
        simp [firstOf, afterFence, hs]
      rw [hexact, Option.getD_some]
      refine iff_of_false ?_ (fun h => h.1 hs)
      cases hd : firstOf afterDashes later with
      | none =>
        refine beyond_differs raw _ (hbeyond _ (first.2++(second.1++second.2)) ?_)
        simp
      | some rest =>
        exact (beyond_differs _ _ (beyond_cut _ _ (beyond_dashes later rest hd))).symm
    · have hskip : firstOf afterFence (second::later) = firstOf afterFence later := by
        simp [firstOf, afterFence, hs]
      rw [hskip]
      by_cases hall : ∀ l ∈ later.find? (fun l => fence.isPrefixOf l.1), l.1 = fence
      · have hlater := ended_tail _ _ (ended_tail _ _ hended)
        rw [search_agrees later hlater hall]
        exact iff_of_true rfl ⟨hs,hall⟩
      · refine iff_of_false ?_ (fun h => hall h.2)
        simp only [not_forall] at hall
        obtain ⟨l, hfind, hne⟩ := hall
        obtain ⟨rest, hrest, hafter⟩ := search_early later l hfind hne
        rw [hrest, Option.map_some, Option.getD_some]
        cases hx : firstOf afterFence later with
        | some after => exact beyond_differs _ _ (hafter after hx)
        | none =>
          obtain ⟨x, y, hj⟩ := beyond_dashes later rest hrest
          refine (beyond_differs raw _ (beyond_cut raw rest (hbeyond rest
            (first.2++(second.1++second.2)++x++ '-' ::y) ?_))).symm
          rw [hj]
          simp

/-- An empty block: the search runs on to a rule in the body. -/
example : readContent false "---\n---\nbody\n---\nmore".toList = "more".toList := by decide

/-- Leading white space goes, also of a note without frontmatter. -/
theorem leading_space_trimmed :
    readContent false "\n# Title".toList ≠ withoutFrontmatter "\n# Title".toList := by decide

end Uru.Indexing.Frontmatter
