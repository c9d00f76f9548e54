import Uru.Lib.Record

/-!
# The vault registry

The registry records which vaults use the shared runtime. A vault is its path
once resolved; its key may change when the plugin is installed again. The
file is read whole and written whole: one that is missing reads as the empty
registry and one that does not parse reads as unknown.
-/

set_option autoImplicit false

namespace Uru.Plugin
open Uru.Lib

structure VaultRegistryEntry where
  vaultKey : String
  vaultPath : String
  vaultName : String
  lastSeen : ℕ
  deriving DecidableEq

abbrev Registry := Record String VaultRegistryEntry

def sameVaultPath (resolve : String → String) (a b : String) : Bool :=
  if a = "" || b = "" then false else resolve a = resolve b

def computeOtherActiveVaults (resolve : String → String) (reg : Registry)
    (currentKey currentPath : String) : List VaultRegistryEntry :=
  reg.values.filter (fun v =>
    v.vaultKey ≠ currentKey && !sameVaultPath resolve v.vaultPath currentPath)

def applyTouch (resolve : String → String) (reg : Registry) (entry : VaultRegistryEntry) : Registry :=
  (reg.filter (fun key v =>
    !(key ≠ entry.vaultKey && sameVaultPath resolve v.vaultPath entry.vaultPath))).set
      entry.vaultKey entry

/-- The content of the registry file: none at all, text that does not parse,
or a registry. -/
inductive RegistryFile where
  | missing
  | unparsable
  | registry (reg : Registry)
  deriving DecidableEq

def readRegistry : RegistryFile → Option Registry
  | .missing => some ∅
  | .unparsable => none
  | .registry reg => some reg

/-- The registry as a file lists a vault: under its own key, with a path that
resolves to the vault's. -/
def Lists (resolve : String → String) (reg : Registry) (vault key : String) : Prop :=
  ∃ e, reg.get key = some e ∧ e.vaultKey = key ∧ resolve e.vaultPath = vault

theorem sameVaultPath_resolve (resolve : String → String) (a b : String)
    (h : sameVaultPath resolve a b = true) : resolve a = resolve b := by
  unfold sameVaultPath at h
  split_ifs at h
  simpa using h

theorem lists_touched (resolve : String → String) (reg : Registry) (entry : VaultRegistryEntry) :
    Lists resolve (applyTouch resolve reg entry) (resolve entry.vaultPath) entry.vaultKey :=
  ⟨entry,by simp [applyTouch],rfl,rfl⟩

/-- A touch keeps every vault at another path that has another key. -/
theorem lists_applyTouch (resolve : String → String) (reg : Registry) (entry : VaultRegistryEntry)
    (vault key : String) (hv : vault ≠ resolve entry.vaultPath) (hk : key ≠ entry.vaultKey)
    (h : Lists resolve reg vault key) : Lists resolve (applyTouch resolve reg entry) vault key := by
  obtain ⟨e, he, hek, hep⟩ := h
  refine ⟨e,?_,hek,hep⟩
  have hpath : sameVaultPath resolve e.vaultPath entry.vaultPath = false := by
    by_contra hn
    exact hv (hep.symm.trans (sameVaultPath_resolve resolve _ _ (by simpa using hn)))
  simp [applyTouch, hk, he, Option.filter, hpath]

theorem lists_delete (resolve : String → String) (reg : Registry) (vault key removed : String)
    (hk : key ≠ removed) (h : Lists resolve reg vault key) :
    Lists resolve (reg.delete removed) vault key := by
  obtain ⟨e, he, hek, hep⟩ := h
  exact ⟨e,by simp [hk, he],hek,hep⟩

/-- A listed vault at another path and under another key is among the others. -/
theorem listed_others (resolve : String → String) (reg : Registry) (vault key currentKey
    currentPath : String) (hv : vault ≠ resolve currentPath) (hk : key ≠ currentKey)
    (h : Lists resolve reg vault key) :
    computeOtherActiveVaults resolve reg currentKey currentPath ≠ [] := by
  obtain ⟨e, he, hek, hep⟩ := h
  have hpath : sameVaultPath resolve e.vaultPath currentPath = false := by
    by_contra hn
    exact hv (hep.symm.trans (sameVaultPath_resolve resolve _ _ (by simpa using hn)))
  refine List.ne_nil_of_mem (a := e) (List.mem_filter.mpr ⟨reg.mem_values key e he,?_⟩)
  simp [hek, hk, hpath]

end Uru.Plugin
