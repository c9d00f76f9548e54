import Uru.Lib.Machine
import Uru.Plugin.VaultRegistry

/-!
# The laws of the vault registry

What the registry is for is a map from resolved paths to the vaults that were
touched there and not removed since. The registry keeps its entries by vault
key and represents this map along exactly the runs that start with one entry
for each path and use no key for a path other than the one it is stored with.
-/

set_option autoImplicit false

namespace Uru.Plugin.RegistryLaws
open Uru.Lib Uru.Lib.Machine

structure Recorded where
  reg : Registry
  named : ∀ k e, reg.get k = some e → e.vaultPath ≠ ""

/-- The registry beside the vaults that it should know, by their resolved
paths, and the last answer about the vaults other than the one at a path. -/
structure Ledger where
  reg : Registry
  live : String → Option (String × VaultRegistryEntry)
  answer : Option (String × List VaultRegistryEntry)

inductive Operation where
  | touch (entry : VaultRegistryEntry) (named : entry.vaultPath ≠ "")
  | remove (key path : String)
  | others (key path : String) (named : path ≠ "")

section Resolve

variable (resolve : String → String)

def removeVault (reg : Registry) (key : String) : Registry := reg.delete key

def step (s : Ledger) : Operation → Option Ledger
  | .touch entry _ => some {
      reg := applyTouch resolve s.reg entry
      live := Function.update s.live (resolve entry.vaultPath) (some (entry.vaultKey,entry))
      answer := none }
  | .remove key path => some {
      reg := removeVault s.reg key
      live := Function.update s.live (resolve path) none
      answer := none }
  | .others key path _ => some { s with
      answer := some (resolve path,computeOtherActiveVaults resolve s.reg key path) }

def start (r : Recorded) : Ledger where
  reg := r.reg
  live := fun p => r.reg.entries.find? (fun x => resolve x.2.vaultPath = p)
  answer := none

def Single (reg : Registry) : Prop :=
  ∀ k k' e e', reg.get k = some e → reg.get k' = some e' →
    resolve e.vaultPath = resolve e'.vaultPath → k = k'

/-- A path has one entry at most, the entries are those of the live vaults,
in place, and an answer names the live vaults at the other paths. -/
structure Lawful (s : Ledger) : Prop where
  single : Single resolve s.reg
  kept : ∀ p k e, s.live p = some (k,e) ↔ s.reg.get k = some e ∧ resolve e.vaultPath = p
  answered : ∀ self vs, s.answer = some (self,vs) →
    ∀ e, e ∈ vs ↔ ∃ p k, p ≠ self ∧ s.live p = some (k,e)

/-- A key is touched, removed or asked for with the path it is stored with,
and a path is removed under the key it is stored with. -/
def Consistent (s : Ledger) : Operation → Prop
  | .touch entry _ => ∀ e, s.reg.get entry.vaultKey = some e →
      resolve e.vaultPath = resolve entry.vaultPath
  | .remove key path => (∀ e, s.reg.get key = some e → resolve e.vaultPath = resolve path) ∧
      ∀ k e, s.reg.get k = some e → resolve e.vaultPath = resolve path → k = key
  | .others key path _ => ∀ k e, s.reg.get k = some e → e.vaultKey = key →
      resolve e.vaultPath = resolve path

structure Inv (s : Ledger) : Prop extends Lawful resolve s where
  named : ∀ k e, s.reg.get k = some e → e.vaultPath ≠ ""

theorem single_of_kept (s : Ledger)
    (h : ∀ p k e, s.live p = some (k,e) ↔ s.reg.get k = some e ∧ resolve e.vaultPath = p) :
    Single resolve s.reg := by
  intro k k' e e' he he' hp
  have hk := (h _ k e).mpr ⟨he,rfl⟩
  have hk' := (h _ k' e').mpr ⟨he',rfl⟩
  rw [hp, hk'] at hk
  cases hk
  rfl

theorem samePath_iff (a b : String) (ha : a ≠ "") (hb : b ≠ "") :
    sameVaultPath resolve a b = true ↔ resolve a = resolve b := by
  simp [sameVaultPath, ha, hb]

theorem get_touch (reg : Registry) (entry : VaultRegistryEntry) (k : String)
    (e : VaultRegistryEntry) (hk : k ≠ entry.vaultKey) (hn : entry.vaultPath ≠ "")
    (hnamed : ∀ k e, reg.get k = some e → e.vaultPath ≠ "") :
    (applyTouch resolve reg entry).get k = some e ↔
      reg.get k = some e ∧ resolve e.vaultPath ≠ resolve entry.vaultPath := by
  simp only [applyTouch, Record.get_set, if_neg hk, Record.get_filter, Option.filter_eq_some_iff]
  refine and_congr_right fun he => ?_
  have hsame := samePath_iff resolve e.vaultPath entry.vaultPath (hnamed k e he) hn
  simp [hk, ← hsame]

theorem touched_named (reg : Registry) (entry : VaultRegistryEntry) (hn : entry.vaultPath ≠ "")
    (hnamed : ∀ k e, reg.get k = some e → e.vaultPath ≠ "") (k : String) (e : VaultRegistryEntry)
    (h : (applyTouch resolve reg entry).get k = some e) : e.vaultPath ≠ "" := by
  by_cases hk : k = entry.vaultKey
  · simp only [applyTouch, Record.get_set, if_pos hk, Option.some.injEq] at h
    exact h ▸ hn
  · exact hnamed k e ((get_touch resolve reg entry k e hk hn hnamed).mp h).1

theorem inv_touch (s : Ledger) (h : Inv resolve s) (entry : VaultRegistryEntry)
    (hn : entry.vaultPath ≠ "") (hok : Consistent resolve s (.touch entry hn)) :
    Inv resolve {
      reg := applyTouch resolve s.reg entry
      live := Function.update s.live (resolve entry.vaultPath) (some (entry.vaultKey,entry))
      answer := none } := by
  have hkept : ∀ p k e,
      Function.update s.live (resolve entry.vaultPath) (some (entry.vaultKey,entry)) p =
          some (k,e) ↔
        (applyTouch resolve s.reg entry).get k = some e ∧ resolve e.vaultPath = p := by
    intro p k e
    have hnew : (applyTouch resolve s.reg entry).get entry.vaultKey = some entry := by
      simp [applyTouch]
    by_cases hp : p = resolve entry.vaultPath
    · subst hp
      rw [Function.update_self, Option.some.injEq, Prod.mk.injEq]
      constructor
      · rintro ⟨rfl, rfl⟩
        exact ⟨hnew,rfl⟩
      · rintro ⟨he, hpe⟩
        by_cases hk : k = entry.vaultKey
        · subst hk
          exact ⟨rfl,Option.some.inj (hnew.symm.trans he)⟩
        · exact absurd hpe ((get_touch resolve s.reg entry k e hk hn h.named).mp he).2
    · rw [Function.update_of_ne hp, h.kept p k e]
      by_cases hk : k = entry.vaultKey
      · subst hk
        constructor
        · rintro ⟨he, rfl⟩
          exact absurd (hok e he) hp
        · rintro ⟨he, rfl⟩
          cases Option.some.inj (hnew.symm.trans he)
          exact absurd rfl hp
      · rw [get_touch resolve s.reg entry k e hk hn h.named]
        constructor
        · rintro ⟨he, rfl⟩
          exact ⟨⟨he,hp⟩,rfl⟩
        · rintro ⟨⟨he, -⟩, rfl⟩
          exact ⟨he,rfl⟩
  exact ⟨⟨single_of_kept resolve _ hkept,hkept,fun _ _ ha => by cases ha⟩,
    touched_named resolve s.reg entry hn h.named⟩

theorem inv_remove (s : Ledger) (h : Inv resolve s) (key path : String)
    (hok : Consistent resolve s (.remove key path)) :
    Inv resolve {
      reg := removeVault s.reg key
      live := Function.update s.live (resolve path) none
      answer := none } := by
  have hget (k : String) (e : VaultRegistryEntry) :
      (removeVault s.reg key).get k = some e ↔ k ≠ key ∧ s.reg.get k = some e := by
    simp only [removeVault, Record.get_delete]
    split_ifs with hk <;> simp [hk]
  have hkept : ∀ p k e, Function.update s.live (resolve path) none p = some (k,e) ↔
      (removeVault s.reg key).get k = some e ∧ resolve e.vaultPath = p := by
    intro p k e
    rw [hget]
    by_cases hp : p = resolve path
    · subst hp
      rw [Function.update_self]
      refine iff_of_false (by simp) ?_
      rintro ⟨⟨hk, he⟩, hpe⟩
      exact hk (hok.2 k e he hpe)
    · rw [Function.update_of_ne hp, h.kept p k e]
      constructor
      · rintro ⟨he, rfl⟩
        refine ⟨⟨?_,he⟩,rfl⟩
        rintro rfl
        exact hp (hok.1 e he)
      · rintro ⟨⟨-, he⟩, rfl⟩
        exact ⟨he,rfl⟩
  exact ⟨⟨single_of_kept resolve _ hkept,hkept,fun _ _ ha => by cases ha⟩,
    fun k e he => h.named k e ((hget k e).mp he).2⟩

theorem mem_values_iff (reg : Registry) (e : VaultRegistryEntry) :
    e ∈ reg.values ↔ ∃ k, reg.get k = some e := by
  constructor
  · intro h
    obtain ⟨⟨k, e'⟩, hm, rfl⟩ := List.mem_map.mp h
    exact ⟨k,(reg.mem_entries k e').mp hm⟩
  · rintro ⟨k, hk⟩
    exact reg.mem_values k e hk

theorem mem_others (s : Ledger) (h : Inv resolve s) (key path : String) (hn : path ≠ "")
    (e : VaultRegistryEntry) :
    e ∈ computeOtherActiveVaults resolve s.reg key path ↔
      ∃ p k, p ≠ resolve path ∧ s.live p = some (k,e) ∧ e.vaultKey ≠ key := by
  simp only [computeOtherActiveVaults, List.mem_filter, mem_values_iff, Bool.and_eq_true,
    decide_eq_true_eq, Bool.not_eq_true']
  constructor
  · rintro ⟨⟨k, he⟩, hkey, hpath⟩
    refine ⟨resolve e.vaultPath,k,fun hp => ?_,(h.kept _ k e).mpr ⟨he,rfl⟩,hkey⟩
    rw [(samePath_iff resolve _ _ (h.named k e he) hn).mpr hp] at hpath
    cases hpath
  · rintro ⟨p, k, hp, hl, hkey⟩
    obtain ⟨he, rfl⟩ := (h.kept p k e).mp hl
    refine ⟨⟨k,he⟩,hkey,?_⟩
    rw [Bool.eq_false_iff]
    exact fun hs => hp ((samePath_iff resolve _ _ (h.named k e he) hn).mp hs)

theorem inv_others (s : Ledger) (h : Inv resolve s) (key path : String) (hn : path ≠ "")
    (hok : Consistent resolve s (.others key path hn)) :
    Inv resolve { s with
      answer := some (resolve path,computeOtherActiveVaults resolve s.reg key path) } := by
  refine ⟨⟨h.single,h.kept,fun self vs ha e => ?_⟩,h.named⟩
  cases ha
  rw [mem_others resolve s h key path hn e]
  constructor
  · rintro ⟨p, k, hp, hl, -⟩
    exact ⟨p,k,hp,hl⟩
  · rintro ⟨p, k, hp, hl⟩
    obtain ⟨he, rfl⟩ := (h.kept p k e).mp hl
    exact ⟨_,k,hp,hl,fun hkey => hp (hok k e he hkey)⟩

theorem inv_step (s : Ledger) (op : Operation) (t : Ledger) (h : Inv resolve s)
    (hok : Consistent resolve s op) (ht : step resolve s op = some t) : Inv resolve t := by
  cases op with
  | touch entry hn =>
    cases ht
    exact inv_touch resolve s h entry hn hok
  | remove key path =>
    cases ht
    exact inv_remove resolve s h key path hok
  | others key path hn =>
    cases ht
    exact inv_others resolve s h key path hn hok

/-- An operation outside the condition breaks a law at once. -/
theorem unlawful_step (s : Ledger) (op : Operation) (h : Inv resolve s)
    (hbad : ¬Consistent resolve s op) : ∃ t, step resolve s op = some t ∧ ¬Lawful resolve t := by
  cases op with
  | touch entry hn =>
    simp only [Consistent, not_forall] at hbad
    obtain ⟨e, he, hp⟩ := hbad
    refine ⟨_,rfl,fun hl => ?_⟩
    have hold := (h.kept _ _ e).mpr ⟨he,rfl⟩
    have hgone := ((hl.kept (resolve e.vaultPath) entry.vaultKey e).mp (by
      rw [← hold]
      exact Function.update_of_ne hp _ _)).1
    simp only [applyTouch, Record.get_set, if_true, Option.some.injEq] at hgone
    exact hp (congrArg (fun v => resolve v.vaultPath) hgone.symm)
  | remove key path =>
    refine ⟨_,rfl,fun hl => hbad ⟨fun e he => ?_,fun k e he hp => ?_⟩⟩
    · by_contra hp
      have hgone := ((hl.kept (resolve e.vaultPath) key e).mp (by
        rw [← (h.kept _ key e).mpr ⟨he,rfl⟩]
        exact Function.update_of_ne hp _ _)).1
      simp [removeVault] at hgone
    · by_contra hk
      have hstays := (hl.kept (resolve path) k e).mpr ⟨by simp [removeVault, hk, he],hp⟩
      simp at hstays
  | others key path hn =>
    simp only [Consistent, not_forall] at hbad
    obtain ⟨k, e, he, hkey, hp⟩ := hbad
    refine ⟨_,rfl,fun hl => ?_⟩
    have hin := (hl.answered _ _ rfl e).mpr ⟨_,k,hp,(h.kept _ k e).mpr ⟨he,rfl⟩⟩
    obtain ⟨_, _, _, _, hne⟩ := (mem_others resolve s h key path hn e).mp hin
    exact hne hkey

theorem start_kept (r : Recorded) (h : Single resolve r.reg) (p k : String)
    (e : VaultRegistryEntry) :
    (start resolve r).live p = some (k,e) ↔ r.reg.get k = some e ∧ resolve e.vaultPath = p := by
  constructor
  · intro hf
    exact ⟨(r.reg.mem_entries k e).mp (List.mem_of_find?_eq_some hf),
      by simpa using List.find?_some hf⟩
  · rintro ⟨he, hp⟩
    have hm := (r.reg.mem_entries k e).mpr he
    cases hf : (start resolve r).live p with
    | none => exact absurd (by simpa using hp) (List.find?_eq_none.mp hf (k,e) hm)
    | some x =>
      obtain ⟨k', e'⟩ := x
      have he' := (r.reg.mem_entries k' e').mp (List.mem_of_find?_eq_some hf)
      have hp' : resolve e'.vaultPath = p := by simpa using List.find?_some hf
      cases h k k' e e' he he' (hp.trans hp'.symm)
      cases Option.some.inj (he.symm.trans he')
      rfl

theorem inv_start (r : Recorded) (h : Single resolve r.reg) : Inv resolve (start resolve r) :=
  ⟨⟨h,start_kept resolve r h,fun _ _ ha => by cases ha⟩,r.named⟩

/-- Touching a vault twice is touching it the second time. -/
theorem touch_again (reg : Registry) (a b : VaultRegistryEntry) (hk : a.vaultKey = b.vaultKey)
    (ha : a.vaultPath ≠ "") (hb : b.vaultPath ≠ "")
    (hp : resolve a.vaultPath = resolve b.vaultPath) :
    applyTouch resolve (applyTouch resolve reg a) b = applyTouch resolve reg b := by
  have hsame (v : VaultRegistryEntry) :
      sameVaultPath resolve v.vaultPath a.vaultPath =
        sameVaultPath resolve v.vaultPath b.vaultPath := by
    simp [sameVaultPath, ha, hb, hp]
  simp only [applyTouch, hk, hsame]
  rw [Record.filter_set _ _ _ _ (by simp), Record.filter_filter, Record.set_set]

/-- Touches at different paths commute exactly under different keys. -/
theorem touch_comm_iff (reg : Registry) (a b : VaultRegistryEntry)
    (hp : resolve a.vaultPath ≠ resolve b.vaultPath) :
    (applyTouch resolve (applyTouch resolve reg a) b).get =
        (applyTouch resolve (applyTouch resolve reg b) a).get ↔ a.vaultKey ≠ b.vaultKey := by
  have hab : sameVaultPath resolve a.vaultPath b.vaultPath = false := by
    rw [Bool.eq_false_iff]
    exact fun hs => hp (sameVaultPath_resolve resolve _ _ hs)
  have hba : sameVaultPath resolve b.vaultPath a.vaultPath = false := by
    rw [Bool.eq_false_iff]
    exact fun hs => hp (sameVaultPath_resolve resolve _ _ hs).symm
  constructor
  · intro h hk
    have hget := congrFun h a.vaultKey
    simp only [applyTouch, Record.get_set, if_true, hk, Option.some.injEq] at hget
    exact hp (congrArg (fun v => resolve v.vaultPath) hget.symm)
  · intro hk
    funext k
    by_cases ha : k = a.vaultKey
    · subst ha
      simp [applyTouch, hk, hab, Option.filter]
    · by_cases hb : k = b.vaultKey
      · subst hb
        simp [applyTouch, hk.symm, hba, Option.filter]
      · simp only [applyTouch, Record.get_set, Record.get_filter, if_neg ha, if_neg hb,
          Option.filter_filter]
        congr 1
        funext v
        exact Bool.and_comm _ _

/-- The registry obeys its laws along exactly the consistent runs from a
registry with one entry for each path; a repeated touch counts once; and the
touches of two vaults commute exactly if their keys differ. -/
theorem registry_laws (r : Recorded) (ops : List Operation) :
    (Always (step resolve) (Lawful resolve) (start resolve r) ops ↔
      Single resolve r.reg ∧
        Meets (step resolve) (Consistent resolve) (start resolve r) ops) ∧
    (∀ reg a b, a.vaultKey = b.vaultKey → a.vaultPath ≠ "" → b.vaultPath ≠ "" →
      resolve a.vaultPath = resolve b.vaultPath →
        applyTouch resolve (applyTouch resolve reg a) b = applyTouch resolve reg b) ∧
    (∀ reg a b, resolve a.vaultPath ≠ resolve b.vaultPath →
      ((applyTouch resolve (applyTouch resolve reg a) b).get =
        (applyTouch resolve (applyTouch resolve reg b) a).get ↔ a.vaultKey ≠ b.vaultKey)) := by
  refine ⟨?_,touch_again resolve,touch_comm_iff resolve⟩
  have hrun (h : Single resolve r.reg) :=
    always_iff_meets (inv_step resolve) (fun s hs => hs.toLawful) (unlawful_step resolve) ops
      (start resolve r) (inv_start resolve r h)
  constructor
  · intro h
    have hfirst : Single resolve r.reg := by
      cases ops with
      | nil => exact h.single
      | cons op ops => exact h.1.single
    exact ⟨hfirst,(hrun hfirst).mp h⟩
  · rintro ⟨hfirst, hm⟩
    exact (hrun hfirst).mpr hm

end Resolve

/-- A vault folder copied with its settings carries the key of the original,
and its first touch takes the original off the registry. -/
theorem copied_vault_drops_original :
    ¬Always (step fun p => p) (Lawful fun p => p) (start (fun p => p) ⟨∅,by simp⟩)
      [.touch ⟨"k","/a","a",0⟩ (by decide),.touch ⟨"k","/b","b",1⟩ (by decide)] := by
  intro h
  have hlast := (h.2 _ rfl).2 _ rfl
  have hkept := ((hlast.kept "/a" "k" ⟨"k","/a","a",0⟩).mp (by decide)).1
  exact absurd hkept (by decide)

end Uru.Plugin.RegistryLaws
