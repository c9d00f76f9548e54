import Uru.Lib.Record
import Uru.Lib.JsonText
import Uru.Lib.AtomicFile

/-!
# The hash store

The map from a vault path to what was last indexed under it, its state file
and the JSON text of that file. The map is an insertion-ordered record, as the
object it models is, and a save replaces the state file through its `.tmp`.
-/

set_option autoImplicit false

namespace Uru.Indexing
open Uru.Lib Uru.Lib.AtomicFile

structure IndexEntry where
  hash : String
  docId : String
  lastIndexed : ℕ
  deriving DecidableEq, Repr

abbrev Entries := Record String IndexEntry

structure HashStore where
  entries : Entries
  loaded : Bool

namespace HashStore

def fresh : HashStore := ⟨∅,false⟩

def get (s : HashStore) (externalId : String) : Option IndexEntry := s.entries.get externalId

def isUnchanged (s : HashStore) (externalId hash : String) : Bool :=
  (s.get externalId).map IndexEntry.hash = some hash

def set (s : HashStore) (externalId : String) (entry : IndexEntry) : HashStore :=
  { s with entries := s.entries.set externalId entry }

def delete (s : HashStore) (externalId : String) : HashStore :=
  { s with entries := s.entries.delete externalId }

def knownPaths (s : HashStore) : List String := s.entries.keys

@[simp] theorem get_set (s : HashStore) (p q : String) (e : IndexEntry) :
    (s.set p e).get q = if q = p then some e else s.get q := Record.get_set _ _ _ _

@[simp] theorem get_delete (s : HashStore) (p q : String) :
    (s.delete p).get q = if q = p then none else s.get q := Record.get_delete _ _ _

theorem mem_knownPaths (s : HashStore) (p : String) :
    p ∈ s.knownPaths ↔ (s.get p).isSome := Record.mem_keys _ _

theorem isUnchanged_iff (s : HashStore) (p h : String) :
    s.isUnchanged p h = true ↔ ∃ e, s.get p = some e ∧ e.hash = h := by
  simp [isUnchanged, Option.map_eq_some_iff]

def readIfValid (c : Codec Entries) (f : Option Text) : Option Entries := read c f

/-- The committed file first, then a leftover temporary one, then the empty
map; the temporary file is removed. -/
def load (c : Codec Entries) (d : Disk) : HashStore × Disk :=
  (⟨((readIfValid c d.file).or (readIfValid c d.tmp)).getD ∅,true⟩,FsCall.unlink.apply d)

def saveCalls (c : Codec Entries) (s : HashStore) : List FsCall :=
  if s.loaded then replaceCalls (c.stringify s.entries) else []

def save (c : Codec Entries) (s : HashStore) (d : Disk) : Disk := applyAll (saveCalls c s) d

theorem save_loaded (c : Codec Entries) (s : HashStore) (d : Disk) (h : s.loaded = true) :
    save c s d = ⟨some (c.stringify s.entries),none,true⟩ := by
  simp [save, saveCalls, h, replace_done]

end HashStore

def stringField : Framed String :=
  JsonText.quoted.map String.ofList String.toList (fun _ => String.ofList_toList)

def entryFields : Framed (String × String × ℕ) :=
  (Framed.between "\x7b\"hash\":".toList stringField []).pair
    ((Framed.between ",\"docId\":".toList stringField ",\"lastIndexed\":".toList).pair
      (Framed.numberThen '}' (by decide)))

def entryText : Framed IndexEntry :=
  entryFields.map (fun p => ⟨p.1,p.2.1,p.2.2⟩) (fun e => (e.hash,e.docId,e.lastIndexed))
    (fun _ => rfl)

def memberText : Framed (String × IndexEntry) :=
  (Framed.between [] stringField [':']).pair entryText

def entriesText : Framed Entries :=
  (memberText.braces (fun _ => rfl)).map Record.ofList Record.entries Record.ofList_entries

/-- The text of the state file, as `JSON.stringify` writes it. -/
def stateFile : Codec Entries := entriesText.codec

example : String.ofList (stateFile.stringify ((∅ : Entries).set "a.md" ⟨"9f","d\"1",7⟩)) =
    "\x7b\"a.md\":\x7b\"hash\":\"9f\",\"docId\":\"d\\\"1\",\"lastIndexed\":7\x7d\x7d" := by decide

end Uru.Indexing
