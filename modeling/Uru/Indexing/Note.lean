import Uru.Lib.Framed
import Mathlib.Data.List.Nodup
import Mathlib.Tactic

/-!
# Notes and the documents sent for them

A note is read whole, loses its leading frontmatter unless the settings keep
it, and yields a document unless nothing but white space remains. Only
Markdown paths outside the ignore list take part in indexing.
-/

set_option autoImplicit false

namespace Uru.Indexing
open Uru.Lib

/-- The white space and line terminators that `trim` removes. -/
def isSpace (c : Char) : Bool :=
  c.toNat ∈ [0x09,0x0A,0x0B,0x0C,0x0D,0x20,0xA0,0x1680,0x2028,0x2029,0x202F,0x205F,0x3000,0xFEFF] ||
    (0x2000 ≤ c.toNat && c.toNat ≤ 0x200A)

def trimStart (t : Text) : Text := t.dropWhile isSpace

def isBlank (t : Text) : Bool := t.all isSpace

def newline : Text → Option Text
  | '\r' :: '\n' :: t => some t
  | '\n'::t => some t
  | _ => none

def dashes : Text → Option Text
  | '-' :: '-' :: '-' :: t => some t
  | _ => none

/-- The text after the first line that opens with the closing dashes. -/
def afterFrontmatter : Text → Option Text
  | [] => none
  | c::t => ((newline (c::t)).bind dashes).or (afterFrontmatter t)

def stripFrontmatter (t : Text) : Text :=
  match ((dashes t).bind newline).bind afterFrontmatter with
  | some rest => (newline rest).getD rest
  | none => t

def readContent (includeFrontmatter : Bool) (raw : Text) : Text :=
  if includeFrontmatter then raw else trimStart (stripFrontmatter raw)

example : readContent false "---\r\ntags: x\r\n---\r\n\n# Title".toList = "# Title".toList := by
  decide

structure TFile where
  path : String
  basename : String
  mtime : ℕ
  /-- What reading the note yields, or the message of the failed read. -/
  raw : Except String Text

structure Vault where
  files : List TFile
  nodup : (files.map TFile.path).Nodup

structure Settings where
  includeFrontmatter : Bool
  /-- The compiled ignore globs, each as the test it makes of a path. -/
  ignore : List (String → Bool)

structure BatchDocument where
  externalId : String
  content : Text
  title : String
  mtime : ℕ
  hash : String
  deriving DecidableEq

def isMarkdown (path : String) : Bool := ".md".toList.isSuffixOf path.toList

def isIgnored (settings : Settings) (path : String) : Bool :=
  if !isMarkdown path then true else settings.ignore.any (fun re => re path)

def toDocument (hash : Text → String) (settings : Settings) (file : TFile) :
    Except String (Option BatchDocument) :=
  file.raw.map (fun raw =>
    let content := readContent settings.includeFrontmatter raw
    if isBlank content then none
    else some ⟨file.path,content,file.basename,file.mtime,hash content⟩)

theorem toDocument_some (hash : Text → String) (settings : Settings) (file : TFile)
    (doc : BatchDocument) (h : toDocument hash settings file = .ok (some doc)) :
    doc.externalId = file.path ∧ doc.hash = hash doc.content ∧ isBlank doc.content = false ∧
      ∃ raw, file.raw = .ok raw ∧ doc.content = readContent settings.includeFrontmatter raw := by
  cases hr : file.raw with
  | error m => simp [toDocument, hr, Except.map] at h
  | ok raw =>
    simp only [toDocument, hr, Except.map, Except.ok.injEq] at h
    split_ifs at h with hb
    cases h
    exact ⟨rfl,rfl,by simpa using hb,raw,rfl,rfl⟩

/-- The eligible notes of a full index: Obsidian's Markdown files that no
ignore glob excludes. -/
def eligible (settings : Settings) (vault : Vault) : List TFile :=
  vault.files.filter (fun f => !isIgnored settings f.path)

theorem eligible_nodup (settings : Settings) (vault : Vault) :
    ((eligible settings vault).map TFile.path).Nodup :=
  vault.nodup.sublist (List.filter_sublist.map TFile.path)

end Uru.Indexing
