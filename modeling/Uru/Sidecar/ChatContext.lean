import Mathlib.Data.List.Nodup
import Mathlib.Tactic

/-!
# Numbered blocks and their citations

Chat over the vault puts every recalled chunk into the prompt under a number
and returns citations that map numbers to notes. A number is spent on every
chunk, a citation only on the first chunk of a note, so the numbers the model
may cite all resolve exactly when no note contributes two chunks.
-/

set_option autoImplicit false

namespace Uru.Sidecar.ChatContext

variable {UUID : Type*} [DecidableEq UUID]

structure DocumentProjection (UUID : Type*) where
  id : UUID
  title : Option String
  externalId : Option String

structure RecallChunk (UUID : Type*) where
  documentId : UUID
  content : String

structure RecallResult (UUID : Type*) where
  documents : List (DocumentProjection UUID)
  chunks : List (RecallChunk UUID)

structure NoteContext where
  externalId : Option String
  title : Option String
  content : String

structure Citation where
  index : ℕ
  externalId : Option String
  title : String
deriving DecidableEq

structure Block where
  index : ℕ
  title : String
  content : String
deriving DecidableEq

def Block.text (b : Block) : String := "["++toString b.index++"] "++b.title++"\n"++b.content

/-- The white space that `strip` removes. -/
def isSpace (c : Char) : Bool :=
  (0x09 ≤ c.toNat && c.toNat ≤ 0x0D) || (0x1C ≤ c.toNat && c.toNat ≤ 0x20) ||
    (0x2000 ≤ c.toNat && c.toNat ≤ 0x200A) ||
    c.toNat ∈ [0x85,0xA0,0x1680,0x2028,0x2029,0x202F,0x205F,0x3000]

def strip (s : String) : String :=
  String.ofList (((s.toList.dropWhile isSpace).reverse.dropWhile isSpace).reverse)

/-- `s or …` of a string that may be missing: the empty string counts as missing. -/
def present (s : Option String) : Option String := s.filter (fun t => t ≠ "")

/-- `xs[:n]`, which counts from the end for a negative bound. -/
def upTo {α : Type*} (xs : List α) : ℤ → List α
  | .ofNat n => xs.take n
  | .negSucc n => xs.take (xs.length-(n+1))

/-- The lookup in the dict that the documents build by id: the last one wins. -/
def document (docs : List (DocumentProjection UUID)) (id : UUID) :
    Option (DocumentProjection UUID) := docs.reverse.find? (fun d => d.id = id)

def titleOf (doc : Option (DocumentProjection UUID)) : String :=
  ((present (doc.bind DocumentProjection.title)).or
    (present (doc.bind DocumentProjection.externalId))).getD "source"

def externalIdOf (doc : Option (DocumentProjection UUID)) : Option String :=
  present (doc.bind DocumentProjection.externalId)

structure Collected where
  blocks : List Block
  citations : List Citation
  seen : List String

def collectChunk (docs : List (DocumentProjection UUID)) (a : Collected)
    (ci : RecallChunk UUID × ℕ) : Collected :=
  let doc := document docs ci.1.documentId
  let title := titleOf doc
  let blocks := a.blocks++[⟨ci.2,title,strip ci.1.content⟩]
  match externalIdOf doc with
  | some ext =>
    if ext ∈ a.seen then { a with blocks := blocks } else
      { blocks := blocks
        citations := a.citations++[⟨ci.2,some ext,title⟩]
        seen := ext::a.seen }
  | none => { a with blocks := blocks }

def collect (docs : List (DocumentProjection UUID)) (chunks : List (RecallChunk UUID)) : Collected :=
  (chunks.zipIdx 1).foldl (collectChunk docs) ⟨[],[],[]⟩

def context (blocks : List Block) : String :=
  if blocks = [] then "(no matching notes)" else "\n\n".intercalate (blocks.map Block.text)

def noteBlock (note : NoteContext) : Block where
  index := 1
  title := ((present note.title).or (present note.externalId)).getD "current note"
  content := String.ofList (note.content.toList.take 16000)

def chatContext (note : Option NoteContext) (res : RecallResult UUID) (limit : ℤ) :
    String × List Citation :=
  match note with
  | some note =>
    ((noteBlock note).text,[⟨1,note.externalId,(noteBlock note).title⟩])
  | none =>
    let a := collect res.documents (upTo res.chunks limit)
    (context a.blocks,a.citations)

def cited (note : Option NoteContext) (res : RecallResult UUID) (limit : ℤ) :
    List (Option String) :=
  match note with
  | some note => [present note.externalId]
  | none =>
    (upTo res.chunks limit).map (fun c => externalIdOf (document res.documents c.documentId))

/-- Blocks are numbered 1, 2, … in context order, every block of a document
with an external id is cited under its number, and a number is cited for one
document only, the one behind its block. -/
structure Resolvable (exts : List (Option String)) (answer : String × List Citation) : Prop where
  numbered : ∃ blocks : List Block,
    answer.1 = context blocks ∧ blocks.map Block.index = List.range' 1 exts.length
  resolved : ∀ (i : ℕ) (ext : String), exts[i]? = some (some ext) →
    ∃ c ∈ answer.2, c.index = i+1 ∧ c.externalId = some ext
  faithful : ∀ c ∈ answer.2, ∀ ext, present c.externalId = some ext →
    ∃ i, c.index = i+1 ∧ exts[i]? = some (some ext)
  single : (answer.2.map Citation.index).Nodup

/-- The position where an external id occurs first in context order. -/
def First (exts : List (Option String)) (i : ℕ) (ext : String) : Prop :=
  exts[i]? = some (some ext) ∧ ∀ j, j < i → exts[j]? ≠ some (some ext)

theorem first_append (exts : List (Option String)) (e : Option String) (i : ℕ) (ext : String) :
    First (exts++[e]) i ext ↔
      First exts i ext ∨ (i = exts.length ∧ e = some ext ∧ some ext ∉ exts) := by
  rcases lt_trichotomy i exts.length with hi | hi | hi
  · have hold (j : ℕ) (hj : j ≤ i) : (exts++[e])[j]? = exts[j]? :=
      List.getElem?_append_left (hj.trans_lt hi)
    constructor
    · intro h
      refine Or.inl ⟨hold i le_rfl ▸ h.1,fun j hj => ?_⟩
      rw [← hold j hj.le]
      exact h.2 j hj
    · rintro (h | h)
      · refine ⟨(hold i le_rfl).trans h.1,fun j hj => ?_⟩
        rw [hold j hj.le]
        exact h.2 j hj
      · omega
  · subst hi
    have hnew : (exts++[e])[exts.length]? = some e := by simp
    have hnone : exts[exts.length]? = none := by simp
    constructor
    · intro h
      refine Or.inr ⟨rfl,Option.some.inj (hnew.symm.trans h.1),fun hm => ?_⟩
      obtain ⟨j, hj, he⟩ := List.mem_iff_getElem.mp hm
      apply h.2 j hj
      rw [List.getElem?_append_left hj, List.getElem?_eq_getElem hj, he]
    · rintro (h | ⟨-, he, hm⟩)
      · have := h.1
        simp at this
      · refine ⟨hnew.trans (congrArg some he),fun j hj hc => hm ?_⟩
        rw [List.getElem?_append_left hj] at hc
        exact List.mem_of_getElem? hc
  · constructor
    · intro h
      have hlt := (List.getElem?_eq_some_iff.mp h.1).1
      simp only [List.length_append, List.length_singleton] at hlt
      omega
    · rintro (h | h)
      · have hlt := (List.getElem?_eq_some_iff.mp h.1).1
        omega
      · omega

structure Collects (exts : List (Option String)) (a : Collected) : Prop where
  numbered : a.blocks.map Block.index = List.range' 1 exts.length
  seen : ∀ ext, ext ∈ a.seen ↔ some ext ∈ exts
  citations : ∀ i ext, (∃ c ∈ a.citations, c.index = i+1 ∧ c.externalId = some ext) ↔
    First exts i ext
  positions : ∀ c ∈ a.citations, ∃ i ext, c.index = i+1 ∧ c.externalId = some ext
  single : (a.citations.map Citation.index).Nodup

theorem collects_nil : Collects [] ⟨[],[],[]⟩ :=
  ⟨rfl,by simp,by simp [First],by simp,by simp⟩

theorem collects_chunk (docs : List (DocumentProjection UUID)) (exts : List (Option String))
    (a : Collected) (c : RecallChunk UUID) (h : Collects exts a) :
    Collects (exts++[externalIdOf (document docs c.documentId)])
      (collectChunk docs a (c,exts.length+1)) := by
  have hnum (b : Block) (hb : b.index = exts.length+1) :
      (a.blocks++[b]).map Block.index = List.range' 1 (exts.length+1) := by
    rw [List.map_append, h.numbered, List.range'_concat]
    simp [hb, Nat.add_comm]
  have hbound (ci : Citation) (hc : ci ∈ a.citations) : ci.index ≤ exts.length := by
    obtain ⟨i, ext, hi, he⟩ := h.positions ci hc
    have hf := (h.citations i ext).mp ⟨ci,hc,hi,he⟩
    have := (List.getElem?_eq_some_iff.mp hf.1).1
    omega
  unfold collectChunk
  simp only
  cases he : externalIdOf (document docs c.documentId) with
  | none =>
    refine ⟨(hnum _ rfl).trans (by simp),by simpa using h.seen,fun i ext => ?_,h.positions,h.single⟩
    rw [first_append, ← h.citations i ext]
    simp
  | some e =>
    by_cases hs : e ∈ a.seen
    · simp only [if_pos hs]
      have hm := (h.seen e).mp hs
      refine ⟨(hnum _ rfl).trans (by simp),fun ext => ?_,fun i ext => ?_,h.positions,h.single⟩
      · simp only [h.seen, List.mem_append, List.mem_singleton, Option.some.injEq]
        constructor
        · exact Or.inl
        · rintro (hx | rfl)
          · exact hx
          · exact hm
      · rw [first_append, ← h.citations i ext]
        constructor
        · exact Or.inl
        · rintro (hx | ⟨-, hx, hn⟩)
          · exact hx
          · cases hx
            exact absurd hm hn
    · simp only [if_neg hs]
      have hm : some e ∉ exts := fun hx => hs ((h.seen e).mpr hx)
      refine ⟨(hnum _ rfl).trans (by simp),fun ext => ?_,fun i ext => ?_,fun ci hc => ?_,?_⟩
      · simp only [List.mem_cons, h.seen, List.mem_append, List.not_mem_nil, or_false,
          Option.some.injEq]
        exact or_comm
      · rw [first_append, ← h.citations i ext]
        simp only [List.mem_append, List.mem_singleton, or_and_right, exists_or,
          exists_eq_left, Option.some.injEq, Nat.add_right_cancel_iff]
        refine or_congr_right ⟨?_,?_⟩
        · rintro ⟨rfl, rfl⟩
          exact ⟨rfl,rfl,hm⟩
        · rintro ⟨rfl, rfl, -⟩
          exact ⟨rfl,rfl⟩
      · rcases List.mem_append.mp hc with hc | hc
        · exact h.positions ci hc
        · rw [List.mem_singleton] at hc
          exact ⟨exts.length,e,hc ▸ rfl,hc ▸ rfl⟩
      · rw [List.map_append]
        refine List.nodup_append.mpr ⟨h.single,by simp,?_⟩
        rintro x hx y hy rfl
        obtain ⟨ci, hc, rfl⟩ := List.mem_map.mp hx
        have := hbound ci hc
        simp only [List.map_cons, List.map_nil, List.mem_singleton] at hy
        omega

theorem collects (docs : List (DocumentProjection UUID)) (chunks : List (RecallChunk UUID)) :
    Collects (chunks.map fun c => externalIdOf (document docs c.documentId))
      (collect docs chunks) := by
  induction chunks using List.reverseRecOn with
  | nil => exact collects_nil
  | append_singleton chunks c ih =>
    have hstep := collects_chunk docs _ _ c ih
    rw [List.length_map] at hstep
    simpa [collect, List.zipIdx_append, Nat.add_comm] using hstep

def Distinct (exts : List (Option String)) : Prop :=
  ∀ (i j : ℕ) (ext : String), exts[i]? = some (some ext) → exts[j]? = some (some ext) → i = j

theorem first_of_distinct (exts : List (Option String)) (h : Distinct exts) (i : ℕ) (ext : String)
    (hi : exts[i]? = some (some ext)) : First exts i ext :=
  ⟨hi,fun j hj hc => hj.ne (h j i ext hc hi)⟩

theorem distinct_of_first (exts : List (Option String))
    (h : ∀ (i : ℕ) (ext : String), exts[i]? = some (some ext) → First exts i ext) : Distinct exts := by
  intro i j ext hi hj
  rcases lt_trichotomy i j with hlt | heq | hlt
  · exact absurd hi ((h j ext hj).2 i hlt)
  · exact heq
  · exact absurd hj ((h i ext hi).2 j hlt)

theorem collected_resolvable (exts : List (Option String)) (a : Collected) (h : Collects exts a) :
    Resolvable exts (context a.blocks,a.citations) ↔ Distinct exts := by
  constructor
  · intro hr
    refine distinct_of_first exts fun i ext hi => (h.citations i ext).mp ?_
    exact hr.resolved i ext hi
  · intro hd
    refine ⟨⟨a.blocks,rfl,h.numbered⟩,fun i ext hi => ?_,fun c hc ext he => ?_,h.single⟩
    · exact (h.citations i ext).mpr (first_of_distinct exts hd i ext hi)
    · obtain ⟨i, ext', hi, he'⟩ := h.positions c hc
      rw [he'] at he
      cases (Option.filter_eq_some_iff.mp he).1
      exact ⟨i,hi,((h.citations i ext).mp ⟨c,hc,hi,he'⟩).1⟩

theorem note_resolvable (note : NoteContext) :
    Resolvable [present note.externalId]
      ((noteBlock note).text,[⟨1,note.externalId,(noteBlock note).title⟩]) := by
  refine ⟨⟨[noteBlock note],by simp [context],rfl⟩,fun i ext hi => ?_,fun c hc ext he => ?_,by simp⟩
  · cases i with
    | zero => exact ⟨_,List.mem_singleton.mpr rfl,rfl,(Option.filter_eq_some_iff.mp (Option.some.inj hi)).1⟩
    | succ i => simp at hi
  · rw [List.mem_singleton] at hc
    subst hc
    exact ⟨0,rfl,by simpa using he⟩

/-- The numbers of the prompt resolve exactly when no document behind its
blocks contributes two of them. -/
theorem numbers_resolve_iff (note : Option NoteContext) (res : RecallResult UUID) (limit : ℤ) :
    Resolvable (cited note res limit) (chatContext note res limit) ↔
      Distinct (cited note res limit) := by
  cases note with
  | none => exact collected_resolvable _ _ (collects res.documents (upTo res.chunks limit))
  | some note =>
    refine iff_of_true (note_resolvable note) fun i j ext hi hj => ?_
    have hi' := (List.getElem?_eq_some_iff.mp hi).1
    have hj' := (List.getElem?_eq_some_iff.mp hj).1
    simp only [cited, List.length_singleton] at hi' hj'
    omega

/-- Whatever the chunks, the context shows them in order under the numbers
1, 2, …, and each external id is cited once, under its first block. -/
theorem cited_at_first (docs : List (DocumentProjection UUID)) (chunks : List (RecallChunk UUID))
    (i : ℕ) (ext : String) :
    (∃ c ∈ (collect docs chunks).citations, c.index = i+1 ∧ c.externalId = some ext) ↔
      First (chunks.map fun c => externalIdOf (document docs c.documentId)) i ext :=
  (collects docs chunks).citations i ext

/-- Two chunks of one note: the model may cite the second number, and no
citation carries it. -/
theorem second_chunk_unresolved : ¬Resolvable
    (cited none ⟨[⟨0,some "Curie",some "Curie.md"⟩],[⟨0,"a"⟩,⟨0,"b"⟩]⟩ 8)
    (chatContext none ⟨[⟨0,some "Curie",some "Curie.md"⟩],[⟨0,"a"⟩,⟨0,"b"⟩]⟩ 8) := by
  intro h
  obtain ⟨c, hc, hi, -⟩ := h.resolved 1 "Curie.md" (by decide)
  have hcs : (chatContext none ⟨[⟨0,some "Curie",some "Curie.md"⟩],[⟨0,"a"⟩,⟨0,"b"⟩]⟩ 8).2 =
      [⟨1,some "Curie.md","Curie"⟩] := by decide
  rw [hcs, List.mem_singleton] at hc
  subst hc
  exact absurd hi (by decide)

end Uru.Sidecar.ChatContext
