import Uru.Lib.Machine
import Uru.Lib.RemoteCopy
import Uru.Indexing.Note
import Uru.Indexing.HashStore

/-!
# The indexer among the events of the vault

The user's changes to the vault, the debounce timers, the handlers of the
vault events and one full index. Handlers and full index are suspended at each
of their awaits, and what runs between two awaits is one step; the backend
applies a request at any moment before its sender is resumed. The client is
there and every request is granted.
-/

set_option autoImplicit false

namespace Uru.Indexing.Interleaving
open Uru.Lib Uru.Lib.RemoteCopy

structure Config where
  hash : Text → String
  settings : Settings

/-- A suspended handler, by its await: the three of `toDocument` on the way to
`reindexOne`, then the replies and the save. A handler of a rename goes on to
reindex the renamed file. -/
inductive Task where
  | reading (file : ℕ)
  | read (file : ℕ) (raw : Text)
  | built (file : ℕ) (doc : Option BatchDocument)
  | remembering (file : ℕ) (doc : BatchDocument) (applied : Bool)
  | forgetting (path : String) (renamed : Option ℕ) (applied : Bool)
  | saving (renamed : Option ℕ)

/-- The awaits of `fullIndex`. -/
inductive Phase where
  | forgetting (known : String) (rest : List String) (applied : Bool)
  | reading (file : ℕ)
  | read (file : ℕ) (raw : Text)
  | built (file : ℕ) (doc : Option BatchDocument)
  | dropping (doc : BatchDocument) (applied : Bool)
  | remembering (doc : BatchDocument) (applied : Bool)
  | saving
  | finishing

/-- A full index under way: the paths that were present at its start, the
files it has still to read and the documents it has still to send. -/
structure FullRun where
  force : Bool
  present : List String
  files : List ℕ
  docs : List (BatchDocument × Bool)
  done : ℕ
  phase : Phase

/-- The vault maps paths to file objects. A file object that was deleted keeps
its last path, and reading it yields what the vault has there. -/
structure Indexer where
  vault : Record String ℕ
  objects : ℕ → TFile
  nextFile : ℕ
  pending : String → Option ℕ
  timers : ℕ → Option ℕ
  nextTimer : ℕ
  tasks : ℕ → Option Task
  full : Option FullRun
  cancelRequested : Bool
  store : HashStore
  backend : String → Option Text

abbrev Asked := String × Request Text × Bool

def Task.request : Task → Option Asked
  | .remembering _ doc applied => some (doc.externalId,.put doc.content,applied)
  | .forgetting p _ applied => some (p,.drop,applied)
  | _ => none

def Phase.request : Phase → Option Asked
  | .forgetting k _ applied => some (k,.drop,applied)
  | .dropping doc applied => some (doc.externalId,.replace doc.content,applied)
  | .remembering doc applied => some (doc.externalId,.put doc.content,applied)
  | _ => none

def Task.applied : Task → Task
  | .remembering f doc _ => .remembering f doc true
  | .forgetting p renamed _ => .forgetting p renamed true
  | k => k

def Phase.applied : Phase → Phase
  | .forgetting k rest _ => .forgetting k rest true
  | .dropping doc _ => .dropping doc true
  | .remembering doc _ => .remembering doc true
  | w => w

def document (c : Config) (file : TFile) (raw : Text) : Option BatchDocument :=
  (toDocument c.hash c.settings { file with raw := .ok raw }).toOption.join

namespace FullRun

def sendNext (w : FullRun) (cancel : Bool) : FullRun :=
  match w.docs with
  | [] => { w with phase := .finishing }
  | (doc,forgetFirst)::docs =>
    if cancel then { w with phase := .finishing }
    else { w with
      docs := docs, phase := if forgetFirst then .dropping doc false else .remembering doc false }

def readNext (w : FullRun) (cancel : Bool) : Option FullRun :=
  match w.files with
  | f::files => some { w with files := files, phase := .reading f }
  | [] => if w.docs.isEmpty then none else some (w.sendNext cancel)

def forgetNext (w : FullRun) (cancel : Bool) : List String → Option FullRun
  | [] => w.readNext cancel
  | k::rest =>
    if k ∈ w.present then w.forgetNext cancel rest
    else some { w with phase := .forgetting k rest false }

end FullRun

namespace Indexer

def path (s : Indexer) (f : ℕ) : String := (s.objects f).path

def noteAt (s : Indexer) (p : String) : Option Text :=
  (s.vault.get p).bind (fun f => (s.objects f).raw.toOption)

def cachedRead (s : Indexer) (f : ℕ) : Option Text := s.noteAt (s.path f)

def setTask (s : Indexer) (t : ℕ) (k : Option Task) : Indexer :=
  { s with tasks := Function.update s.tasks t k }

def setFull (s : Indexer) (w : Option FullRun) : Indexer :=
  { s with full := w, cancelRequested := w.isSome && s.cancelRequested }

/-- The timers without the one that is pending at the path of the file. -/
def cleared (s : Indexer) (f : ℕ) : ℕ → Option ℕ :=
  match s.pending (s.path f) with
  | some prev => Function.update s.timers prev none
  | none => s.timers

def debounce (s : Indexer) (f : ℕ) : Indexer :=
  { s with
    timers := Function.update (s.cleared f) s.nextTimer (some f)
    pending := Function.update s.pending (s.path f) (some s.nextTimer)
    nextTimer := s.nextTimer+1 }

def onChange (s : Indexer) (c : Config) (f : ℕ) : Indexer :=
  if isIgnored c.settings (s.path f) then s else s.debounce f

def resume (s : Indexer) (c : Config) (t : ℕ) : Task → Option Indexer
  | .reading f => some (s.setTask t ((s.cachedRead f).map (Task.read f)))
  | .read f raw => some (s.setTask t (some (.built f (document c (s.objects f) raw))))
  | .built _ none => some (s.setTask t none)
  | .built f (some doc) =>
    some (s.setTask t (if s.store.isUnchanged (s.path f) doc.hash then none
      else some (.remembering f doc false)))
  | .remembering _ _ _ => none
  | .forgetting p renamed applied =>
    if applied then some ({ s with store := s.store.delete p }.setTask t (some (.saving renamed)))
    else none
  | .saving none => some (s.setTask t none)
  | .saving (some f) =>
    some (s.setTask t (if isIgnored c.settings (s.path f) then none else some (.reading f)))

/-- The full index goes on after an await that is not a `/remember`. -/
def resumeFull (s : Indexer) (c : Config) (w : FullRun) : Phase → Option Indexer
  | .forgetting k rest applied =>
    if applied then
      some ({ s with store := s.store.delete k }.setFull (w.forgetNext s.cancelRequested rest))
    else none
  | .reading f => some (s.setFull ((s.cachedRead f).map (fun raw => { w with phase := .read f raw })))
  | .read f raw =>
    some (s.setFull (some { w with phase := .built f (document c (s.objects f) raw) }))
  | .built _ none => some (s.setFull (w.readNext s.cancelRequested))
  | .built f (some doc) =>
    let contentSame := s.store.isUnchanged (s.path f) doc.hash
    if !w.force && contentSame then some (s.setFull (w.readNext s.cancelRequested))
    else some (s.setFull ({ w with docs := w.docs++[(doc,contentSame && w.force)] }.readNext
      s.cancelRequested))
  | .dropping doc applied =>
    if applied then some (s.setFull (some { w with phase := .remembering doc false })) else none
  | .remembering _ _ => none
  | .saving => some (s.setFull (some (w.sendNext s.cancelRequested)))
  | .finishing => some (s.setFull none)

def startFull (s : Indexer) (c : Config) (force : Bool) : Indexer :=
  let files := s.vault.entries.filter (fun e => !isIgnored c.settings e.1)
  let w : FullRun := ⟨force,files.map Prod.fst,files.map Prod.snd,[],0,.finishing⟩
  { s with cancelRequested := false }.setFull (w.forgetNext false s.store.knownPaths)

def afterNote (w : FullRun) (cancel : Bool) : FullRun :=
  let w := { w with done := w.done+1 }
  if w.done%10 = 0 then { w with phase := .saving } else w.sendNext cancel

end Indexer

/-- What the user does, the timers, the resumptions and what the backend does.
A new handler takes a free task number. -/
inductive Event where
  | create (path basename : String) (mtime : ℕ) (raw : Text)
  | modify (path : String) (mtime : ℕ) (raw : Text)
  | delete (path : String) (t : ℕ)
  | rename (path newPath basename : String) (t : ℕ)
  | fire (timer t : ℕ)
  | resume (t : ℕ)
  | remembered (t : ℕ) (docId : String) (now : ℕ)
  | apply (t : ℕ)
  | fullIndex (force : Bool)
  | resumeFull
  | rememberedFull (docId : String) (now : ℕ)
  | applyFull
  | stop

def step (c : Config) (s : Indexer) : Event → Option Indexer
  | .create p basename mtime raw => match s.vault.get p with
    | none => some ({ s with
        vault := s.vault.set p s.nextFile
        objects := Function.update s.objects s.nextFile ⟨p,basename,mtime,.ok raw⟩
        nextFile := s.nextFile+1 }.onChange c s.nextFile)
    | some _ => none
  | .modify p mtime raw => match s.vault.get p with
    | some f => some ({ s with
        objects := Function.update s.objects f
          { s.objects f with mtime := mtime, raw := .ok raw } }.onChange c f)
    | none => none
  | .delete p t => match s.vault.get p, s.tasks t with
    | some _, none =>
      some ({ s with vault := s.vault.delete p }.setTask t (some (.forgetting p none false)))
    | _, _ => none
  | .rename p q basename t => match s.vault.get p, s.vault.get q, s.tasks t with
    | some f, none, none => some ({ s with
        vault := (s.vault.delete p).set q f
        objects := Function.update s.objects f
          { s.objects f with path := q, basename := basename } }.setTask t
            (some (.forgetting p (some f) false)))
    | _, _, _ => none
  | .fire n t => match s.timers n, s.tasks t with
    | some f, none => some ({ s with
        timers := Function.update s.timers n none
        pending := Function.update s.pending (s.path f) none }.setTask t (some (.reading f)))
    | _, _ => none
  | .resume t => (s.tasks t).bind (s.resume c t)
  | .remembered t docId now => match s.tasks t with
    | some (.remembering f doc true) => some ({ s with
        store := s.store.set (s.path f) ⟨doc.hash,docId,now⟩ }.setTask t (some (.saving none)))
    | _ => none
  | .apply t => (s.tasks t).bind (fun k => match k.request with
    | some (p,r,false) => some ({ s with
        backend := Function.update s.backend p r.result }.setTask t (some k.applied))
    | _ => none)
  | .fullIndex force => match s.full with
    | none => some (s.startFull c force)
    | some _ => some s
  | .resumeFull => s.full.bind (fun w => s.resumeFull c w w.phase)
  | .rememberedFull docId now => s.full.bind (fun w => match w.phase with
    | .remembering doc true => some ({ s with
        store := s.store.set doc.externalId ⟨doc.hash,docId,now⟩ }.setFull
          (some (Indexer.afterNote w s.cancelRequested)))
    | _ => none)
  | .applyFull => s.full.bind (fun w => match w.phase.request with
    | some (p,r,false) => some { s with
        backend := Function.update s.backend p r.result
        full := some { w with phase := w.phase.applied } }
    | _ => none)
  | .stop => some { s with cancelRequested := s.full.isSome || s.cancelRequested }

def init : Indexer where
  vault := ∅
  objects := fun _ => ⟨"","",0,.error ""⟩
  nextFile := 0
  pending := fun _ => none
  timers := fun _ => none
  nextTimer := 0
  tasks := fun _ => none
  full := none
  cancelRequested := false
  store := ⟨∅,true⟩
  backend := fun _ => none

def Quiescent (s : Indexer) : Prop :=
  (∀ n, s.timers n = none) ∧ (∀ t, s.tasks t = none) ∧ s.full = none

def Converged (c : Config) (s : Indexer) : Prop :=
  ∀ p t, s.backend p = some t ↔ isIgnored c.settings p = false ∧ ∃ raw, s.noteAt p = some raw ∧
    t = readContent c.settings.includeFrontmatter raw ∧ isBlank t = false

end Uru.Indexing.Interleaving
