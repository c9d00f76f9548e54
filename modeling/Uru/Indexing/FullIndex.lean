import Uru.Indexing.Note
import Uru.Indexing.HashStore

/-!
# The full index

One call of `fullIndex` as the list of effects it has on the store, the
backend, the state file and the progress display, in order. The replies to
the requests and the moment of a stop are inputs of the call. What the call
does to one path is the part of its effects that names the path.
-/

set_option autoImplicit false

namespace Uru.Indexing
open Uru.Lib Uru.Lib.AtomicFile

abbrev Backend := String → Option Text

structure World where
  store : HashStore
  backend : Backend
  disk : Disk

inductive Effect where
  | forget (externalId : String) (ok : Bool)
  | remember (externalId : String) (content : Text) (ok : Bool)
  | set (externalId : String) (entry : IndexEntry)
  | delete (externalId : String)
  | save
  | status (done total : ℕ)
  deriving DecidableEq

/-- A request that failed has no effect on the backend. -/
def Effect.apply (c : Codec Entries) : Effect → World → World
  | .forget p ok, w => if ok then { w with backend := Function.update w.backend p none } else w
  | .remember p t ok, w =>
    if ok then { w with backend := Function.update w.backend p (some t) } else w
  | .set p e, w => { w with store := w.store.set p e }
  | .delete p, w => { w with store := w.store.delete p }
  | .save, w => { w with disk := w.store.save c w.disk }
  | .status _ _, w => w

def applyEffects (c : Codec Entries) (es : List Effect) (w : World) : World :=
  es.foldl (fun w e => e.apply c w) w

@[simp] theorem applyEffects_nil (c : Codec Entries) (w : World) : applyEffects c [] w = w := rfl

@[simp] theorem applyEffects_cons (c : Codec Entries) (e : Effect) (es : List Effect) (w : World) :
    applyEffects c (e::es) w = applyEffects c es (e.apply c w) := rfl

theorem applyEffects_append (c : Codec Entries) (es fs : List Effect) (w : World) :
    applyEffects c (es++fs) w = applyEffects c fs (applyEffects c es w) := List.foldl_append

/-- The inputs of one call: the client, the vault as it stands, the replies
and the checkpoint from which `cancelRequested` is seen. Checkpoint `(i,0)` is
the head of the loop at note `i`, `(i,a+1)` the start of attempt `a` at it. -/
structure Invocation where
  client : Bool
  vault : Vault
  settings : Settings
  force : Bool
  forget : String → Bool
  remember : String → ℕ → Option String
  now : ℕ → ℕ
  stop : Option (ℕ × ℕ)

def Invocation.cancelled (inv : Invocation) (i k : ℕ) : Bool :=
  match inv.stop with
  | none => false
  | some (j,l) => j < i || (j = i && l ≤ k)

def forgetAbsent (inv : Invocation) (s : HashStore) : List Effect :=
  (s.knownPaths.filter (fun p => p ∉ (eligible inv.settings inv.vault).map TFile.path)).flatMap
    (fun p => [.forget p (inv.forget p),.delete p])

/-- The documents to send, each with whether its old one is dropped first. -/
def documents (hash : Text → String) (inv : Invocation) (s : HashStore) :
    List TFile → Except String (List (BatchDocument × Bool))
  | [] => .ok []
  | file::files =>
    match toDocument hash inv.settings file with
    | .error m => .error m
    | .ok none => documents hash inv s files
    | .ok (some doc) =>
      let contentSame := s.isUnchanged file.path doc.hash
      if !inv.force && contentSame then documents hash inv s files
      else (documents hash inv s files).map (fun docs => (doc,contentSame && inv.force)::docs)

/-- Attempts in order: the old document is dropped at the first one only. -/
def rememberFrom (inv : Invocation) (i : ℕ) (doc : BatchDocument) :
    Bool → List ℕ → List Effect × Option String
  | _, [] => ([],none)
  | forgetFirst, a::as =>
    if inv.cancelled i (a+1) then ([],none) else
    let forgotten := if forgetFirst then [.forget doc.externalId (inv.forget doc.externalId)] else []
    match inv.remember doc.externalId a with
    | some id => (forgotten++[.remember doc.externalId doc.content true],some id)
    | none =>
      let later := rememberFrom inv i doc false as
      (forgotten++.remember doc.externalId doc.content false::later.1,later.2)

def rememberWithRetry (inv : Invocation) (i : ℕ) (doc : BatchDocument) (forgetFirst : Bool) :
    List Effect × Option String :=
  rememberFrom inv i doc forgetFirst [0,1,2]

def noteEffects (inv : Invocation) (i : ℕ) (doc : BatchDocument) (forgetFirst : Bool) :
    List Effect :=
  let sent := rememberWithRetry inv i doc forgetFirst
  sent.1++match sent.2 with
    | some id => [.set doc.externalId ⟨doc.hash,id,inv.now i⟩]
    | none => []

def sendLoop (inv : Invocation) (total : ℕ) :
    ℕ → List (BatchDocument × Bool) → List Effect × Bool
  | _, [] => ([],false)
  | done, (doc,forgetFirst)::docs =>
    if inv.cancelled done 0 then ([],true) else
    let rest := sendLoop inv total (done+1) docs
    (.status done total::noteEffects inv done doc forgetFirst++
      (if (done+1)%10 = 0 then [.save] else [])++rest.1,rest.2)

def fullIndex (c : Codec Entries) (hash : Text → String) (inv : Invocation) (w : World) :
    List Effect × Bool :=
  if !inv.client then ([],false) else
  let forgotten := forgetAbsent inv w.store
  match documents hash inv (applyEffects c forgotten w).store (eligible inv.settings inv.vault) with
  | .error _ => (forgotten,false)
  | .ok [] => (forgotten,true)
  | .ok docs =>
    let sent := sendLoop inv docs.length 0 docs
    (forgotten++sent.1++[.save],!sent.2)

def afterFullIndex (c : Codec Entries) (hash : Text → String) (inv : Invocation) (w : World) :
    World :=
  applyEffects c (fullIndex c hash inv w).1 w

end Uru.Indexing
