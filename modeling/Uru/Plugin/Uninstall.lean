import Uru.Lib.Machine
import Uru.Plugin.VaultRegistry

/-!
# Uninstalling next to other vaults

Any number of plugin instances share the registry file, the runtime directory
and the `vaults/` directory, and interleave at every single read, write and
removal. Writes may fail silently or be torn, the file may be lost or become
unparsable, and an instance may die between two of its calls.
-/

set_option autoImplicit false

namespace Uru.Plugin.Uninstall
open Uru.Lib Uru.Lib.Machine

structure Instance where
  vaultKey : String
  vaultPath : String

/-- Where an instance stands in `touchVault` or `deleteData`, with what it has
read. `decided` is the registry file on which the removal was decided. -/
inductive Pc where
  | idle
  | touching (read : RegistryFile) (reg : Registry) (entry : VaultRegistryEntry)
  | removing
  | removeWriting (read : RegistryFile) (reg : Registry)
  | checking
  | clearing (decided : RegistryFile)
  | pruneReading (decided : RegistryFile)
  | listing (decided : RegistryFile) (reg : Registry)
  | pruning (decided : RegistryFile) (reg : Registry) (names : List String)

/-- A removal of the runtime directory or of another key's data directory:
the vaults at other paths in use at that moment, and whether the content of
the registry was unknown. -/
structure Removal where
  others : List String
  unknown : Bool

structure State (ι : Type) where
  registry : RegistryFile
  lost : Bool
  runtime : Bool
  dirs : List String
  /-- The vaults that completed a touch and no later removal. -/
  active : List String
  removals : List Removal
  pc : ι → Pc

inductive WriteResult where
  | done
  | unchanged
  | torn
  deriving DecidableEq

def WriteResult.apply (r : WriteResult) (old : RegistryFile) (reg : Registry) : RegistryFile :=
  match r with
  | .done => .registry reg
  | .unchanged => old
  | .torn => .unparsable

inductive Event (ι : Type) where
  | boot (a : ι)
  | touch (a : ι) (vaultName : String) (lastSeen : ℕ)
  | deleteData (a : ι) (ok : Bool)
  | read (a : ι)
  | write (a : ι) (result : WriteResult)
  | remove (a : ι) (ok : Bool)
  | list (a : ι) (ok : Bool)
  | die (a : ι)
  | lose
  | corrupt

/-- The names that `in` finds on every object. -/
def objectPrototype : List String :=
  ["constructor","__defineGetter__","__defineSetter__","hasOwnProperty","__lookupGetter__",
    "__lookupSetter__","isPrototypeOf","propertyIsEnumerable","toString","valueOf","__proto__",
    "toLocaleString"]

def inRegistry (name : String) (reg : Registry) : Bool :=
  (reg.get name).isSome || objectPrototype.contains name

section
variable {ι : Type} [DecidableEq ι] (resolve : String → String) (cfg : ι → Instance)

def vaultOf (a : ι) : String := resolve (cfg a).vaultPath

def State.setPc (s : State ι) (a : ι) (pc : Pc) : State ι :=
  { s with pc := Function.update s.pc a pc }

def State.activate (s : State ι) (vault : String) : State ι :=
  { s with active := vault::s.active }

def State.deactivate (s : State ι) (vault : String) : State ι :=
  { s with active := s.active.filter (fun v => v ≠ vault) }

def State.unknown (s : State ι) : Bool :=
  s.registry = .unparsable || (s.registry = .missing && s.lost)

def State.recordRemoval (s : State ι) (vault : String) : State ι :=
  { s with removals := ⟨s.active.filter (fun v => v ≠ vault),s.unknown⟩::s.removals }

def stepTouch (s : State ι) (a : ι) (vaultName : String) (lastSeen : ℕ) : State ι :=
  match readRegistry s.registry with
  | none => s.activate (vaultOf resolve cfg a)
  | some reg => s.setPc a (.touching s.registry reg
      ⟨(cfg a).vaultKey,(cfg a).vaultPath,vaultName,lastSeen⟩)

def stepRead (s : State ι) (a : ι) : Option (State ι) :=
  match s.pc a with
  | .removing => some (match readRegistry s.registry with
    | none => (s.deactivate (vaultOf resolve cfg a)).setPc a .checking
    | some reg => s.setPc a (.removeWriting s.registry reg))
  | .checking => some (match readRegistry s.registry with
    | none => s.setPc a (.clearing s.registry)
    | some reg =>
      if computeOtherActiveVaults resolve reg (cfg a).vaultKey (cfg a).vaultPath = [] then
        s.setPc a (.clearing s.registry)
      else s.setPc a .idle)
  | .pruneReading decided => some (match readRegistry s.registry with
    | none => s.setPc a .idle
    | some reg => s.setPc a (.listing decided reg))
  | _ => none

def stepWrite (s : State ι) (a : ι) (result : WriteResult) : Option (State ι) :=
  match s.pc a with
  | .touching _ reg entry => some
      (({ s with registry := result.apply s.registry (applyTouch resolve reg entry) }.activate
        (vaultOf resolve cfg a)).setPc a .idle)
  | .removeWriting _ reg => some
      (({ s with registry := result.apply s.registry (reg.delete (cfg a).vaultKey) }.deactivate
        (vaultOf resolve cfg a)).setPc a .checking)
  | _ => none

def stepRemove (s : State ι) (a : ι) (ok : Bool) : Option (State ι) :=
  match s.pc a with
  | .clearing decided =>
    let s := s.recordRemoval (vaultOf resolve cfg a)
    some (if ok then { s with runtime := false }.setPc a (.pruneReading decided)
      else s.setPc a .idle)
  | .pruning _ _ [] => some (s.setPc a .idle)
  | .pruning decided reg (name::names) =>
    if inRegistry name reg then some (s.setPc a (.pruning decided reg names)) else
    let s := if name = (cfg a).vaultKey then s else s.recordRemoval (vaultOf resolve cfg a)
    let s := if ok then { s with dirs := s.dirs.filter (fun n => n ≠ name) } else s
    some (s.setPc a (.pruning decided reg names))
  | _ => none

def step (s : State ι) : Event ι → Option (State ι)
  | .boot a => match s.pc a with
    | .idle => some { s with
        runtime := true,
        dirs := if (cfg a).vaultKey ∈ s.dirs then s.dirs else s.dirs++[(cfg a).vaultKey] }
    | _ => none
  | .touch a vaultName lastSeen => match s.pc a with
    | .idle => some (stepTouch resolve cfg s a vaultName lastSeen)
    | _ => none
  | .deleteData a ok => match s.pc a with
    | .idle => some (if (cfg a).vaultKey = "" || !ok then s else
        { s with dirs := s.dirs.filter (fun n => n ≠ (cfg a).vaultKey) }.setPc a .removing)
    | _ => none
  | .read a => stepRead resolve cfg s a
  | .write a result => stepWrite resolve cfg s a result
  | .remove a ok => stepRemove resolve cfg s a ok
  | .list a ok => match s.pc a with
    | .listing decided reg =>
      some (s.setPc a (if ok then .pruning decided reg s.dirs else .idle))
    | _ => none
  | .die a => some (s.setPc a .idle)
  | .lose => some { s with registry := .missing, lost := true }
  | .corrupt => some { s with registry := .unparsable }

def init (runtime : Bool) (dirs : List String) : State ι :=
  ⟨.missing,false,runtime,dirs,[],[],fun _ => .idle⟩

/-- Nothing that other vaults use was removed, and nothing while the content
of the registry was unknown. -/
def NothingDestroyed (s : State ι) : Prop := ∀ x ∈ s.removals, x.others = [] ∧ x.unknown = false

/-- Writes and removals happen while the registry still is what the instance
read, a touch that fails silently changes nothing that matters, the file is
never lost, and no removal is decided on an unparsable one. -/
def Undisturbed (s : State ι) : Event ι → Prop
  | .write a result => match s.pc a with
    | .touching read _ _ => s.registry = read ∧ (result = .unchanged → ∃ reg,
        s.registry = .registry reg ∧ Lists resolve reg (vaultOf resolve cfg a) (cfg a).vaultKey)
    | .removeWriting read _ => s.registry = read
    | _ => True
  | .read a => match s.pc a with
    | .checking => s.registry ≠ .unparsable
    | _ => True
  | .remove a _ => match s.pc a with
    | .clearing decided => s.registry = decided
    | .pruning decided reg (name::_) =>
      inRegistry name reg = false → name ≠ (cfg a).vaultKey → s.registry = decided
    | _ => True
  | .lose => False
  | _ => True

/-- Vaults at different paths have different keys. -/
def DistinctKeys : Prop :=
  ∀ a b, vaultOf resolve cfg a ≠ vaultOf resolve cfg b → (cfg a).vaultKey ≠ (cfg b).vaultKey

end

section
variable {ι : Type} (resolve : String → String) (cfg : ι → Instance)

def PcOk (a : ι) : Pc → Prop
  | .touching read reg entry => readRegistry read = some reg ∧
      entry.vaultKey = (cfg a).vaultKey ∧ entry.vaultPath = (cfg a).vaultPath
  | .removeWriting read reg => readRegistry read = some reg
  | .clearing decided | .pruneReading decided | .listing decided _ | .pruning decided _ _ =>
      ∃ reg, readRegistry decided = some reg ∧
        computeOtherActiveVaults resolve reg (cfg a).vaultKey (cfg a).vaultPath = []
  | .idle | .removing | .checking => True

def Listed (file : RegistryFile) (vault : String) : Prop :=
  ∃ reg b, file = .registry reg ∧ vault = vaultOf resolve cfg b ∧
    Lists resolve reg vault (cfg b).vaultKey

structure Inv (s : State ι) : Prop where
  safe : NothingDestroyed s
  kept : s.lost = false
  listed : s.registry = .unparsable ∨ ∀ v ∈ s.active, Listed resolve cfg s.registry v
  pcs : ∀ a, PcOk resolve cfg a (s.pc a)

theorem inv_init (runtime : Bool) (dirs : List String) :
    Inv resolve cfg (init (ι := ι) runtime dirs) :=
  ⟨by simp [NothingDestroyed, init],rfl,Or.inr (by simp [init]),fun _ => trivial⟩

variable {resolve cfg}

theorem inv_disk (s : State ι) (h : Inv resolve cfg s) (runtime : Bool) (dirs : List String) :
    Inv resolve cfg { s with runtime := runtime, dirs := dirs } := ⟨h.safe,h.kept,h.listed,h.pcs⟩

theorem inv_unparsable (s : State ι) (h : Inv resolve cfg s) (active : List String) :
    Inv resolve cfg { s with registry := .unparsable, active := active } :=
  ⟨h.safe,h.kept,Or.inl rfl,h.pcs⟩

theorem inv_deactivate (s : State ι) (h : Inv resolve cfg s) (vault : String) :
    Inv resolve cfg (s.deactivate vault) :=
  ⟨h.safe,h.kept,h.listed.imp id (fun hl v hv => hl v (List.mem_of_mem_filter hv)),h.pcs⟩

/-- What an instance reads lists the vaults that the file lists. -/
theorem lists_read (s : State ι) (h : Inv resolve cfg s) (reg : Registry)
    (hr : readRegistry s.registry = some reg) (v : String) (hv : v ∈ s.active) :
    ∃ b, v = vaultOf resolve cfg b ∧ Lists resolve reg v (cfg b).vaultKey := by
  rcases h.listed with hu | hl
  · rw [hu] at hr
    cases hr
  · obtain ⟨reg', b, hreg, hb, hlist⟩ := hl v hv
    rw [hreg] at hr
    cases hr
    exact ⟨b,hb,hlist⟩

theorem inv_touched (s : State ι) (h : Inv resolve cfg s) (hk : DistinctKeys resolve cfg) (a : ι)
    (reg : Registry) (entry : VaultRegistryEntry) (hr : readRegistry s.registry = some reg)
    (hkey : entry.vaultKey = (cfg a).vaultKey) (hpath : entry.vaultPath = (cfg a).vaultPath) :
    Inv resolve cfg ({ s with registry := .registry (applyTouch resolve reg entry) }.activate
      (vaultOf resolve cfg a)) := by
  refine ⟨h.safe,h.kept,Or.inr (fun v hv => ?_),h.pcs⟩
  have hself : resolve entry.vaultPath = vaultOf resolve cfg a := by rw [hpath]; rfl
  by_cases hva : v = vaultOf resolve cfg a
  · subst hva
    refine ⟨_,a,rfl,rfl,?_⟩
    rw [← hself, ← hkey]
    exact lists_touched resolve reg entry
  · have hold : v ∈ s.active := by simpa [State.activate, hva] using hv
    obtain ⟨b, hb, hlist⟩ := lists_read s h reg hr v hold
    refine ⟨_,b,rfl,hb,lists_applyTouch resolve reg entry v _ (hself ▸ hva) ?_ hlist⟩
    rw [hkey]
    exact hk b a (hb ▸ hva)

theorem inv_removed (s : State ι) (h : Inv resolve cfg s) (hk : DistinctKeys resolve cfg) (a : ι)
    (reg : Registry) (hr : readRegistry s.registry = some reg) :
    Inv resolve cfg ({ s with registry := .registry (reg.delete (cfg a).vaultKey) }.deactivate
      (vaultOf resolve cfg a)) := by
  refine ⟨h.safe,h.kept,Or.inr (fun v hv => ?_),h.pcs⟩
  simp only [State.deactivate, List.mem_filter, decide_eq_true_eq] at hv
  obtain ⟨b, hb, hlist⟩ := lists_read s h reg hr v hv.1
  exact ⟨_,b,rfl,hb,lists_delete resolve reg v _ _ (hk b a (hb ▸ hv.2)) hlist⟩

/-- A removal decided on a registry that is still there concerns no other
vault in use. -/
theorem inv_recordRemoval (s : State ι) (h : Inv resolve cfg s) (hk : DistinctKeys resolve cfg)
    (a : ι) (reg : Registry) (hr : readRegistry s.registry = some reg)
    (ho : computeOtherActiveVaults resolve reg (cfg a).vaultKey (cfg a).vaultPath = []) :
    Inv resolve cfg (s.recordRemoval (vaultOf resolve cfg a)) := by
  refine ⟨?_,h.kept,h.listed,h.pcs⟩
  intro x hx
  rcases List.mem_cons.mp hx with rfl | hx
  · constructor
    · refine List.filter_eq_nil_iff.mpr (fun v hv => ?_)
      simp only [decide_eq_true_eq, ne_eq, not_not]
      by_contra hva
      obtain ⟨b, hb, hlist⟩ := lists_read s h reg hr v hv
      exact listed_others resolve reg v _ _ _ hva (hk b a (hb ▸ hva)) hlist ho
    · have hnot : s.registry ≠ .unparsable := by
        intro hu
        rw [hu] at hr
        cases hr
      simp [State.unknown, hnot, h.kept]
  · exact h.safe x hx

variable [DecidableEq ι]

theorem inv_setPc (s : State ι) (h : Inv resolve cfg s) (a : ι) (pc : Pc)
    (hp : PcOk resolve cfg a pc) : Inv resolve cfg (s.setPc a pc) := by
  refine ⟨h.safe,h.kept,h.listed,fun b => ?_⟩
  by_cases hb : b = a
  · subst hb
    simpa [State.setPc] using hp
  · simpa [State.setPc, hb] using h.pcs b

theorem inv_touch (s : State ι) (h : Inv resolve cfg s) (a : ι) (vaultName : String)
    (lastSeen : ℕ) : Inv resolve cfg (stepTouch resolve cfg s a vaultName lastSeen) := by
  rw [stepTouch]
  split
  · rename_i hr
    have hu : s.registry = .unparsable := by
      cases hs : s.registry <;> simp [hs, readRegistry] at hr
      rfl
    exact ⟨h.safe,h.kept,Or.inl hu,h.pcs⟩
  · rename_i reg hr
    exact inv_setPc s h a _ ⟨hr,rfl,rfl⟩

theorem inv_read (s : State ι) (h : Inv resolve cfg s) (a : ι)
    (hu : Undisturbed resolve cfg s (.read a)) (t : State ι)
    (hst : stepRead resolve cfg s a = some t) : Inv resolve cfg t := by
  unfold stepRead at hst
  simp only [Undisturbed] at hu
  split at hst
  · cases hst
    split
    · exact inv_setPc _ (inv_deactivate s h _) a _ trivial
    · rename_i reg hr
      exact inv_setPc s h a _ hr
  · rename_i hpc
    cases hst
    rw [hpc] at hu
    split
    · rename_i hr
      cases hs : s.registry <;> simp [hs, readRegistry] at hr hu
    · rename_i reg hr
      split_ifs with ho
      · exact inv_setPc s h a _ ⟨reg,hr,ho⟩
      · exact inv_setPc s h a _ trivial
  · rename_i decided hpc
    cases hst
    have hp := h.pcs a
    rw [hpc] at hp
    split
    · exact inv_setPc s h a _ trivial
    · exact inv_setPc s h a _ hp
  · cases hst

theorem inv_write (s : State ι) (h : Inv resolve cfg s) (hk : DistinctKeys resolve cfg) (a : ι)
    (result : WriteResult) (hu : Undisturbed resolve cfg s (.write a result)) (t : State ι)
    (hst : stepWrite resolve cfg s a result = some t) : Inv resolve cfg t := by
  unfold stepWrite at hst
  have hp := h.pcs a
  simp only [Undisturbed] at hu
  split at hst
  · rename_i read reg entry hpc
    cases hst
    rw [hpc] at hp hu
    obtain ⟨hr, hkey, hpath⟩ := hp
    obtain ⟨hread, hsilent⟩ := hu
    refine inv_setPc _ ?_ a _ trivial
    cases result with
    | done => exact inv_touched s h hk a reg entry (hread ▸ hr) hkey hpath
    | unchanged =>
      obtain ⟨reg', hreg, hlist⟩ := hsilent rfl
      refine ⟨h.safe,h.kept,h.listed.imp id (fun hl v hv => ?_),h.pcs⟩
      rcases List.mem_cons.mp hv with rfl | hv
      · exact ⟨reg',a,hreg,rfl,hlist⟩
      · exact hl v hv
    | torn => exact inv_unparsable s h _
  · rename_i read reg hpc
    cases hst
    rw [hpc] at hp hu
    refine inv_setPc _ ?_ a _ trivial
    cases result with
    | done => exact inv_removed s h hk a reg (by rw [hu]; exact hp)
    | unchanged => exact inv_deactivate s h _
    | torn => exact inv_unparsable s h _
  · cases hst

theorem inv_remove (s : State ι) (h : Inv resolve cfg s) (hk : DistinctKeys resolve cfg) (a : ι)
    (ok : Bool) (hu : Undisturbed resolve cfg s (.remove a ok)) (t : State ι)
    (hst : stepRemove resolve cfg s a ok = some t) : Inv resolve cfg t := by
  unfold stepRemove at hst
  have hp := h.pcs a
  simp only [Undisturbed] at hu
  split at hst
  · rename_i decided hpc
    cases hst
    rw [hpc] at hp hu
    obtain ⟨reg, hr, ho⟩ := hp
    have hrec := inv_recordRemoval s h hk a reg (hu ▸ hr) ho
    split_ifs
    · exact inv_setPc _ (inv_disk _ hrec false _) a _ ⟨reg,hr,ho⟩
    · exact inv_setPc _ hrec a _ trivial
  · cases hst
    exact inv_setPc s h a _ trivial
  · rename_i decided reg name names hpc
    rw [hpc] at hp hu
    by_cases hin : inRegistry name reg = true
    · rw [if_pos hin] at hst
      cases hst
      exact inv_setPc s h a _ hp
    · rw [if_neg hin] at hst
      cases hst
      refine inv_setPc _ ?_ a _ hp
      have hrec : Inv resolve cfg (if name = (cfg a).vaultKey then s
          else s.recordRemoval (vaultOf resolve cfg a)) := by
        split_ifs with hname
        · exact h
        · obtain ⟨reg', hr, ho⟩ := hp
          exact inv_recordRemoval s h hk a reg' (hu (by simpa using hin) hname ▸ hr) ho
      cases ok with
      | true => exact inv_disk _ hrec _ _
      | false => exact hrec
  · cases hst

theorem inv_step (hk : DistinctKeys resolve cfg) (s : State ι) (e : Event ι) (t : State ι)
    (h : Inv resolve cfg s) (hu : Undisturbed resolve cfg s e)
    (hst : step resolve cfg s e = some t) : Inv resolve cfg t := by
  cases e with
  | boot a =>
    simp only [step] at hst
    split at hst
    · cases hst
      exact inv_disk s h _ _
    · cases hst
  | touch a vaultName lastSeen =>
    simp only [step] at hst
    split at hst
    · cases hst
      exact inv_touch s h a vaultName lastSeen
    · cases hst
  | deleteData a ok =>
    simp only [step] at hst
    split at hst
    · cases hst
      split
      · exact h
      · exact inv_setPc _ (inv_disk s h _ _) a _ trivial
    · cases hst
  | read a => exact inv_read s h a hu t hst
  | write a result => exact inv_write s h hk a result hu t hst
  | remove a ok => exact inv_remove s h hk a ok hu t hst
  | list a ok =>
    simp only [step] at hst
    split at hst
    · rename_i decided reg hpc
      cases hst
      have hp := h.pcs a
      rw [hpc] at hp
      refine inv_setPc s h a _ ?_
      cases ok with
      | true => exact hp
      | false => trivial
    · cases hst
  | die a =>
    cases hst
    exact inv_setPc s h a _ trivial
  | lose => exact hu.elim
  | corrupt =>
    cases hst
    exact inv_unparsable s h _

variable (resolve cfg)

/-- Whatever the interleaving, no run removes what another vault uses, or
anything while the registry is unknown, as long as it leaves the read and
write sequences on the registry undisturbed. -/
theorem nothing_destroyed (hk : DistinctKeys resolve cfg) (runtime : Bool) (dirs : List String)
    (es : List (Event ι)) (h : Meets (step resolve cfg) (Undisturbed resolve cfg)
      (init runtime dirs) es) :
    Always (step resolve cfg) NothingDestroyed (init runtime dirs) es :=
  always_of_invariant (inv_step hk) (fun _ h => h.safe) es _ (inv_init resolve cfg runtime dirs) h

end

instance {ι : Type} (s : State ι) : Decidable (NothingDestroyed s) :=
  inferInstanceAs (Decidable (∀ x ∈ s.removals, _))

def twoVaults : Bool → Instance
  | true => ⟨"ka","/a"⟩
  | false => ⟨"kb","/b"⟩

/-- A vault alone registers and uninstalls. -/
theorem nothing_destroyed_alone :
    Always (step id twoVaults) NothingDestroyed (init false []) [.boot true,.touch true "A" 1,
      .write true .done,.deleteData true true,.read true,.write true .done,.read true,
      .remove true true] := by
  refine nothing_destroyed id twoVaults ?_ false [] _ ?_
  · intro a b hab
    cases a <;> cases b <;> simp_all [vaultOf, twoVaults]
  · refine ⟨trivial,fun _ h => ?_⟩
    cases h
    refine ⟨trivial,fun _ h => ?_⟩
    cases h
    refine ⟨⟨rfl,fun h => absurd h (by decide)⟩,fun _ h => ?_⟩
    cases h
    refine ⟨trivial,fun _ h => ?_⟩
    cases h
    refine ⟨trivial,fun _ h => ?_⟩
    cases h
    refine ⟨rfl,fun _ h => ?_⟩
    cases h
    refine ⟨(by rintro ⟨⟩),fun _ h => ?_⟩
    cases h
    exact ⟨rfl,fun _ _ => trivial⟩

def uninstallFirst : List (Event Bool) :=
  [.deleteData true true,.read true,.write true .done,.read true,.remove true true]

/-- Two touches that both read the registry before either writes, and a
registry lost after a touch: each time the uninstall that follows removes the
runtime that the other vault uses. -/
theorem uninstall_destroys :
    (∃ s, run (step id twoVaults) (init true []) ([.touch true "A" 1,.touch false "B" 2,
        .write false .done,.write true .done]++uninstallFirst) = some s ∧ ¬ NothingDestroyed s) ∧
      ∃ s, run (step id twoVaults) (init true []) ([.touch false "B" 2,.write false .done,
        .lose]++uninstallFirst) = some s ∧ ¬ NothingDestroyed s :=
  ⟨⟨_,rfl,by decide⟩,⟨_,rfl,by decide⟩⟩

end Uru.Plugin.Uninstall
