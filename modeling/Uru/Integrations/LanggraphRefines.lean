import Mathlib.Data.List.Infix
import Mathlib.Tactic
import Uru.Integrations.LanggraphStore

/-!
# The LangGraph store refines items by name

Where no two names share an external id, a batch on the store gives what it
gives on the items by name. Without that, a name reads what was last written
under its external id, or nothing if that was of another namespace. External
ids are apart when no namespace has two colons in it or one at its end.
-/

set_option autoImplicit false

namespace Uru.Integrations.LanggraphStore
open Uru.Lib

section Apart

variable {ν : Type} (c : Setting ν)

def Apart (names : Set (Namespace × Text)) : Prop :=
  ∀ a ∈ names, ∀ b ∈ names, packed c a.1 a.2 = packed c b.1 b.2 → a = b

structure Represents (names : Set (Namespace × Text)) (s : Store ν) (m : Memory ν) : Prop where
  kept : Kept c s
  named : ∀ d ∈ s.documents, ∀ i, d.item = some i → (i.segments,i.key) ∈ names
  items : m.items = s.documents.filterMap Document.item
  seen : m.seen = s.seenNamespaces

variable {c} {names : Set (Namespace × Text)} {s : Store ν} {m : Memory ν}

theorem named_iff {i : Item ν} {ns : Namespace} {key : Text} :
    i.named ns key = true ↔ i.segments = ns ∧ i.key = key := decide_eq_true_iff

/-- A document's item has the name that the document is found by. -/
theorem packed_iff (hap : Apart c names) (h : Represents c names s m) {ns : Namespace} {key : Text}
    (hn : (ns,key) ∈ names) {d : Document ν} (hd : d ∈ s.documents) {i : Item ν}
    (hi : d.item = some i) : d.externalId = some (packed c ns key) ↔ i.named ns key = true := by
  rw [h.kept.items d hd i hi, named_iff, Option.some.injEq]
  constructor
  · intro heq
    exact Prod.mk.inj (hap (i.segments,i.key) (h.named d hd i hi) (ns,key) hn heq)
  · rintro ⟨rfl, rfl⟩
    rfl

theorem get_item (hap : Apart c names) (h : Represents c names s m) {ns : Namespace} {key : Text}
    (hn : (ns,key) ∈ names) :
    (s.getDocumentByExternalId (packed c ns key)).bind (fun d => d.item.bind (fun item =>
      if item.segments = ns then some item else none)) = m.items.find? (Item.named ns key) := by
  rw [h.items]
  cases hget : s.getDocumentByExternalId (packed c ns key) with
  | none =>
    symm
    apply List.find?_eq_none.mpr
    intro i hi hnamed
    obtain ⟨d, hd, hdi⟩ := List.mem_filterMap.mp hi
    exact get_none.mp hget d hd ((packed_iff hap h hn hd hdi).mpr hnamed)
  | some d =>
    obtain ⟨hd, hext⟩ := get_some hget
    have honly : ∀ i ∈ s.documents.filterMap Document.item, i.named ns key = true →
        d.item = some i := by
      intro i hi hnamed
      obtain ⟨d', hd', hdi⟩ := List.mem_filterMap.mp hi
      have hget' := (get_iff h.kept).mpr ⟨hd', (packed_iff hap h hn hd' hdi).mpr hnamed⟩
      rw [hget, Option.some.injEq] at hget'
      rw [hget', hdi]
    cases hitem : d.item with
    | none =>
      symm
      rw [Option.bind_some, hitem, Option.bind_none]
      apply List.find?_eq_none.mpr
      intro i hi hnamed
      rw [honly i hi hnamed] at hitem
      cases hitem
    | some i =>
      have hnamed := (packed_iff hap h hn hd hitem).mp hext
      have hmem : i ∈ s.documents.filterMap Document.item := List.mem_filterMap.mpr ⟨d, hd, hitem⟩
      rw [Option.bind_some, hitem, Option.bind_some, if_pos (named_iff.mp hnamed).1]
      cases hfind : (s.documents.filterMap Document.item).find? (Item.named ns key) with
      | none => exact absurd hnamed (List.find?_eq_none.mp hfind i hmem)
      | some j =>
        have hj := honly j (List.mem_of_find?_eq_some hfind) (List.find?_some hfind)
        rw [hitem] at hj
        exact hj

theorem forgotten_items (hap : Apart c names) (h : Represents c names s m) {ns : Namespace}
    {key : Text} (hn : (ns,key) ∈ names) :
    (s.documents.filter (fun d => d.externalId ≠ some (packed c ns key))).filterMap
      Document.item = m.items.filter (fun i => !i.named ns key) := by
  rw [h.items]
  have hiff := fun d hd i => packed_iff hap h hn (d := d) hd (i := i)
  generalize s.documents = l at hiff
  induction l with
  | nil => rfl
  | cons d l ih =>
    have hl := ih (fun d hd => hiff d (List.mem_cons_of_mem _ hd))
    rw [List.filter_cons]
    cases hitem : d.item with
    | none =>
      rw [List.filterMap_cons_none hitem, ← hl]
      split_ifs
      · rw [List.filterMap_cons_none hitem]
      · rfl
    | some i =>
      have hd := hiff d List.mem_cons_self i hitem
      rw [List.filterMap_cons_some hitem, List.filter_cons, ← hl]
      by_cases hext : d.externalId = some (packed c ns key)
      · simp [hext, hd.mp hext]
      · have hnot : i.named ns key = false := Bool.eq_false_iff.mpr (fun hi => hext (hd.mpr hi))
        simp [hext, hnot, List.filterMap_cons_some hitem]

def Op.subjects : Op ν → Set (Namespace × Text)
  | .get ns key => {(ns,key)}
  | .put ns key _ => {(ns,key)}
  | .search .. => ∅
  | .listNamespaces .. => ∅

def Store.fits (s : Store ν) : Op ν → Prop
  | .search _ _ limit offset => s.documents.length ≤ max (limit+offset) 100
  | .listNamespaces _ _ _ limit offset => s.documents.length ≤ max (limit*8+offset) 200
  | _ => True

variable [DecidableEq ν]

theorem slice_take {α : Type} (l : List α) (limit offset : ℕ) :
    slice (l.take (limit+offset)) limit offset = slice l limit offset := by
  unfold slice
  rw [List.drop_take, List.take_take]
  congr 1
  omega

omit [DecidableEq ν] in
theorem after_represents (hap : Apart c names) (h : Represents c names s m) {op : Op ν}
    (hop : op.subjects ⊆ names) (hcheck : op.check c = .ok ()) : Represents c names (s.after c op) (m.after op) := by
  cases op with
  | get ns key => exact h
  | put ns key value =>
    have hn : (ns,key) ∈ names := hop (Set.mem_singleton _)
    cases value with
    | none =>
      dsimp only [Store.after, Memory.after]
      constructor
      · exact forgotten_kept h.kept _
      · rw [forgotten_documents h.kept]
        exact fun d hd => h.named d (List.mem_filter.mp hd).1
      · rw [forgotten_documents h.kept]
        exact (forgotten_items hap h hn).symm
      · rw [forgotten_seen]
        exact h.seen
    | some value =>
      dsimp only [Store.after, Memory.after]
      constructor
      · exact written_kept h.kept (putCheck_length hcheck) value
      · rw [written_documents h.kept]
        intro d hd i hi
        rcases List.mem_cons.mp hd with rfl | hd
        · cases hi
          exact hn
        · exact h.named d (List.mem_filter.mp hd).1 i hi
      · dsimp only
        rw [written_documents h.kept, ← forgotten_items hap h hn]
        rfl
      · rw [written_seen, h.seen]
  | search pre filter limit offset => exact h
  | listNamespaces pre suf maxDepth limit offset => exact h

theorem answer_represents (hap : Apart c names) (h : Represents c names s m) {op : Op ν}
    (hop : op.subjects ⊆ names) (hfit : s.fits op) : s.answer c op = m.answer c op := by
  cases op with
  | get ns key => exact congrArg Result.item (get_item hap h (hop (Set.mem_singleton _)))
  | put ns key value => rfl
  | search pre filter limit offset =>
    dsimp only [Store.answer, Memory.answer]
    rw [Store.asearch, List.take_of_length_le hfit, slice_take, h.items]
  | listNamespaces pre suf maxDepth limit offset =>
    dsimp only [Store.answer, Memory.answer]
    rw [Store.alistNamespaces, List.take_of_length_le hfit, h.items, h.seen]

def Store.Fit (c : Setting ν) (s : Store ν) : List (Op ν) → Prop
  | [] => True
  | op::ops => s.fits op ∧ (s.after c op).Fit c ops

/-- Where no two names are packed alike, a batch gives what the items by name give. -/
theorem batch_refines (hap : Apart c names) (h : Represents c names s m) {ops : List (Op ν)}
    (hops : ∀ op ∈ ops, op.subjects ⊆ names) (hfit : s.Fit c ops) :
    (s.abatch c ops).2 = (m.batch c ops).2 ∧
      Represents c names (s.abatch c ops).1 (m.batch c ops).1 := by
  induction ops generalizing s m with
  | nil => exact ⟨rfl, h⟩
  | cons op ops ih =>
    have hop := hops op List.mem_cons_self
    unfold Store.abatch Memory.batch Memory.step
    rw [step_eq h.kept, answer_represents hap h hop hfit.1]
    cases hcheck : op.check c with
    | error e => exact ⟨rfl, h⟩
    | ok u =>
      obtain ⟨hresults, hrest⟩ := ih (after_represents hap h hop hcheck)
        (fun op hop => hops op (List.mem_cons_of_mem _ hop)) hfit.2
      refine ⟨?_, hrest⟩
      show Except.map _ _ = Except.map _ _
      rw [hresults]

end Apart

section Reading

variable {ν : Type} {c : Setting ν}

def Op.effect (c : Setting ν) (e : Text) : Op ν → Option (Option (Item ν))
  | .put ns key value =>
    if packed c ns key = e then some (value.map (fun v => ⟨ns,key,v⟩)) else none
  | _ => none

def Op.accepted (c : Setting ν) (op : Op ν) : Bool := (op.check c).isOk

def lastEffect (c : Setting ν) (e : Text) (ops : List (Op ν)) : Option (Option (Item ν)) :=
  ((ops.takeWhile (Op.accepted c)).filterMap (Op.effect c e)).getLast?

def Store.itemAt (s : Store ν) (e : Text) : Option (Item ν) :=
  (s.getDocumentByExternalId e).bind Document.item

theorem forgotten_itemAt {s : Store ν} (h : Kept c s) (e e' : Text) :
    (s.forgetExternalId e).itemAt e' = if e = e' then none else s.itemAt e' := by
  unfold Store.itemAt
  split_ifs with he
  · rw [← he, forgotten_none h, Option.bind_none]
  · have hget : (s.forgetExternalId e).getDocumentByExternalId e' =
        s.getDocumentByExternalId e' := by
      apply Option.ext
      intro d
      rw [get_iff (forgotten_kept h e), get_iff h, forgotten_documents h, List.mem_filter]
      constructor
      · exact fun hd => ⟨hd.1.1, hd.2⟩
      · rintro ⟨hd, hext⟩
        refine ⟨⟨hd, decide_eq_true ?_⟩, hext⟩
        rw [hext]
        exact fun heq => he (Option.some.inj heq).symm
    rw [hget]

theorem written_itemAt {s : Store ν} (h : Kept c s) (ns : Namespace) (key : Text)
    (value : Record Text ν) (e : Text) :
    (s.written c ns key value).itemAt e =
      if packed c ns key = e then some ⟨ns,key,value⟩ else s.itemAt e := by
  have hold := forgotten_itemAt h (packed c ns key) e
  unfold Store.itemAt Store.getDocumentByExternalId at hold ⊢
  rw [forgotten_documents h] at hold
  rw [written_documents h, List.find?_cons]
  split_ifs with he
  · rw [he]
    simp
  · rw [if_neg he] at hold
    rw [← hold]
    simp [he]

theorem after_itemAt {s : Store ν} (h : Kept c s) (op : Op ν) (e : Text) :
    (s.after c op).itemAt e = (op.effect c e).getD (s.itemAt e) := by
  cases op with
  | get ns key => rfl
  | put ns key value =>
    cases value with
    | none =>
      dsimp only [Store.after, Op.effect]
      rw [forgotten_itemAt h]
      split_ifs
      · rfl
      · rfl
    | some value =>
      dsimp only [Store.after, Op.effect]
      rw [written_itemAt h]
      split_ifs
      · rfl
      · rfl
  | search pre filter limit offset => rfl
  | listNamespaces pre suf maxDepth limit offset => rfl

theorem batch_itemAt [DecidableEq ν] {s : Store ν} (h : Kept c s) (ops : List (Op ν)) (e : Text) :
    (s.abatch c ops).1.itemAt e = (lastEffect c e ops).getD (s.itemAt e) := by
  induction ops generalizing s with
  | nil => rfl
  | cons op ops ih =>
    unfold Store.abatch lastEffect
    rw [step_eq h]
    cases hcheck : op.check c with
    | error x =>
      rw [List.takeWhile_cons_of_neg (by simp [Op.accepted, hcheck, Except.isOk, Except.toBool])]
      rfl
    | ok u =>
      rw [List.takeWhile_cons_of_pos (by rw [Op.accepted, hcheck]; rfl), List.filterMap_cons]
      show ((s.after c op).abatch c ops).1.itemAt e = _
      rw [ih (after_kept h hcheck), after_itemAt h, lastEffect]
      cases op.effect c e with
      | none => rfl
      | some w =>
        rw [List.getLast?_cons]
        rfl

theorem aget_itemAt (s : Store ν) (ns : Namespace) (key : Text) :
    s.aget c ns key = (nameCheck c ns).map (fun _ => (s.itemAt (packed c ns key)).bind (fun item =>
      if item.segments = ns then some item else none)) := by
  rw [aget_eq, Store.itemAt, Option.bind_assoc]

def Short (c : Setting ν) (ns : Namespace) (key : Text) : Prop :=
  ([c.namespaceSep].intercalate ns++[':',':']++key).length ≤ EXTERNAL_ID_MAX_LEN

theorem same_key {ns : Namespace} {key key' : Text} (h : packed c ns key = packed c ns key')
    (hshort : Short c ns key ↔ Short c ns key') : key = key' := by
  unfold packed compositeExternalId at h
  dsimp only at h
  split_ifs at h with h1 h2 h2
  · exact List.append_cancel_left h
  · exact absurd (hshort.mp h1) h2
  · exact absurd (hshort.mpr h2) h1
  · exact List.append_cancel_left h

theorem batch_kept [DecidableEq ν] {s : Store ν} (h : Kept c s) (ops : List (Op ν)) :
    Kept c (s.abatch c ops).1 := by
  induction ops generalizing s with
  | nil => exact h
  | cons op ops ih =>
    unfold Store.abatch
    rw [step_eq h]
    cases hcheck : op.check c with
    | error x => exact h
    | ok u => exact ih (after_kept h hcheck)

/-- A name reads what the last operation on its external id left there, if that is of the namespace
asked for; and of one namespace only a name packed as it is and a hashed one share an id. -/
theorem get_last [DecidableEq ν] {s : Store ν} (h : Kept c s) (ops : List (Op ν)) (ns : Namespace)
    (key : Text) :
    (s.abatch c ops).1.aget c ns key =
      (lastEffect c (packed c ns key) ops).elim (s.aget c ns key) (fun left =>
        (nameCheck c ns).map (fun _ => left.bind (fun item =>
          if item.segments = ns then some item else none))) ∧
    ∀ item, (s.abatch c ops).1.aget c ns key = .ok (some item) →
      item.segments = ns ∧ ((Short c ns item.key ↔ Short c ns key) → item.key = key) := by
  constructor
  · rw [aget_itemAt, aget_itemAt, batch_itemAt h]
    cases lastEffect c (packed c ns key) ops with
    | none => rfl
    | some left => rfl
  · intro item hitem
    rw [aget_itemAt] at hitem
    cases hcheck : nameCheck c ns with
    | error x =>
      rw [hcheck] at hitem
      cases hitem
    | ok u =>
      rw [hcheck] at hitem
      obtain ⟨i, hi, hns⟩ := Option.bind_eq_some_iff.mp (Except.ok.inj hitem)
      rw [Option.ite_none_right_eq_some] at hns
      obtain ⟨hns, heq⟩ := hns
      cases heq
      obtain ⟨d, hd, hdi⟩ := Option.bind_eq_some_iff.mp hi
      obtain ⟨hmem, hext⟩ := get_some hd
      have hpacked := (batch_kept h ops).items d hmem item hdi
      rw [hext, hns, Option.some.injEq] at hpacked
      exact ⟨hns, fun hshort => same_key hpacked.symm hshort⟩

end Reading

section Packing

def Plain (t : Text) : Prop := ¬ [':',':'] <:+: t++[':']

theorem plain_tail {x : Char} {t : Text} (h : Plain (x::t)) : Plain t :=
  fun hin => h (hin.trans (List.suffix_cons x (t++[':'])).isInfix)

theorem plain_start {t rest k : Text} (h : Plain t) (he : [':',':']++k = t++[':',':']++rest) :
    t = [] := by
  cases t with
  | nil => rfl
  | cons x t =>
    exfalso
    cases t with
    | nil =>
      cases (List.cons.inj he).1
      exact h (List.infix_refl _)
    | cons y t =>
      cases (List.cons.inj he).1
      cases (List.cons.inj (List.cons.inj he).2).1
      exact h ⟨[], t++[':'], rfl⟩

/-- The first two colons part a packed name. -/
theorem parted {a b k k' : Text} (ha : Plain a) (hb : Plain b)
    (h : a++[':',':']++k = b++[':',':']++k') : a = b ∧ k = k' := by
  induction a generalizing b with
  | nil =>
    have hnil := plain_start hb h
    subst hnil
    exact ⟨rfl, List.append_cancel_left h⟩
  | cons x a ih =>
    cases b with
    | nil => cases plain_start ha h.symm
    | cons y b =>
      obtain ⟨hx, hrest⟩ := List.cons.inj h
      obtain ⟨hab, hk⟩ := ih (plain_tail ha) (plain_tail hb) hrest
      exact ⟨by rw [hx, hab], hk⟩

theorem plain_of_not_mem {t : Text} (h : ':' ∉ t) : Plain t := by
  rintro ⟨u, v, he⟩
  have hlen := congrArg List.length he
  simp only [List.length_append, List.length_cons, List.length_nil] at hlen
  have hget : (t++[':'])[u.length]? = some ':' := by
    rw [← he]
    simp
  rw [List.getElem?_append_left (by omega)] at hget
  exact h (List.mem_of_getElem? hget)

theorem checkSegments_ok {sep : Char} {ns : Namespace} (h : checkSegments sep ns = .ok ()) :
    ∀ segment ∈ ns, sep ∉ segment := by
  induction ns with
  | nil => simp
  | cons segment ns ih =>
    unfold checkSegments at h
    split_ifs at h with h1 h2
    intro segment' hmem
    rcases List.mem_cons.mp hmem with rfl | hmem
    · exact h2
    · exact ih h segment' hmem

theorem flatten_segments {sep : Char} {ns : Namespace} {flat : Text}
    (h : flattenNamespace sep ns = .ok flat) : ns ≠ [] ∧ ∀ segment ∈ ns, sep ∉ segment := by
  unfold flattenNamespace at h
  split_ifs at h with hnil
  refine ⟨hnil, ?_⟩
  cases hs : checkSegments sep ns with
  | error x =>
    rw [hs] at h
    cases h
  | ok u => exact checkSegments_ok hs

variable {ν : Type} {c : Setting ν}

/-- Names are packed apart when their namespaces' texts neither hold two colons nor end in one, and
are not the digest of one another. -/
theorem packed_injective {ns ns' : Namespace} {flat flat' key key' : Text}
    (hflat : flattenNamespace c.namespaceSep ns = .ok flat)
    (hflat' : flattenNamespace c.namespaceSep ns' = .ok flat') (hplain : Plain flat)
    (hplain' : Plain flat') (hdigest : ':' ∉ c.sha1 flat) (hdigest' : ':' ∉ c.sha1 flat')
    (hinjective : c.sha1 flat = c.sha1 flat' → flat = flat') (hclear : flat ≠ 'h'::c.sha1 flat')
    (hclear' : flat' ≠ 'h'::c.sha1 flat) (h : packed c ns key = packed c ns' key') :
    ns = ns' ∧ key = key' := by
  have hsame : flat = flat' ∧ key = key' := by
    unfold packed compositeExternalId at h
    rw [← flatten_ok hflat, ← flatten_ok hflat'] at h
    have hhash : Plain ('h'::c.sha1 flat) := plain_of_not_mem (by simp [hdigest])
    have hhash' : Plain ('h'::c.sha1 flat') := plain_of_not_mem (by simp [hdigest'])
    dsimp only at h
    split_ifs at h
    · exact parted hplain hplain' h
    · exact absurd (parted hplain hhash' h).1 hclear
    · exact absurd (parted hhash hplain' h).1.symm hclear'
    · obtain ⟨heq, hkey⟩ := parted hhash hhash' h
      exact ⟨hinjective (List.cons.inj heq).2, hkey⟩
  obtain ⟨hne, hsegments⟩ := flatten_segments hflat
  obtain ⟨hne', hsegments'⟩ := flatten_segments hflat'
  refine ⟨?_, hsame.2⟩
  have hjoin := flatten_ok hflat
  rw [hsame.1, flatten_ok hflat'] at hjoin
  rw [← List.splitOn_intercalate c.namespaceSep hsegments hne, ← hjoin,
    List.splitOn_intercalate c.namespaceSep hsegments' hne']

end Packing

section Small

def small : Setting ℕ where
  validateNamespace ns := decide (ns ≠ [] ∧ ∀ segment ∈ ns, segment ≠ [] ∧ '.' ∉ segment)
  sha1 t := (t.filter (fun x => x ≠ ':')).take 40
  sha256 t := t
  valueToContent value := value.keys.flatten
  null := 0

def emptyStore : Store ℕ := ⟨[],0,[]⟩

theorem empty_kept : Kept small emptyStore := by
  constructor
  · exact List.nodup_nil
  · simp [emptyStore]
  · simp [emptyStore]
  · simp [emptyStore]
  · simp [emptyStore]

def users : Namespace := ["users".toList,"a".toList]

def note (n : ℕ) : Record Text ℕ := (∅ : Record Text ℕ).set "n".toList n

def smallOps : List (Op ℕ) :=
  [.put users "k".toList (some (note 1)),.put users "k".toList (some (note 2)),
    .put users "l".toList (some (note 2)),.put users "l".toList none]

theorem get_last_small :
    ((emptyStore.abatch small smallOps).1.aget small users "k".toList).toOption.map
      (fun i => i.map (fun i => i.value.get "n".toList)) = some (some (some 2)) := by
  rw [(get_last empty_kept smallOps users "k".toList).1]
  decide

def smallNames : Set (Namespace × Text) := {n | n = (users,"k".toList) ∨ n = (users,"l".toList)}

theorem small_apart : Apart small smallNames := by
  have hne : packed small users "k".toList ≠ packed small users "l".toList := by decide
  rintro a (rfl | rfl) b (rfl | rfl) h
  · rfl
  · exact absurd h hne
  · exact absurd h.symm hne
  · rfl

theorem batch_refines_small :
    (emptyStore.abatch small smallOps).2 = ((⟨[],[]⟩ : Memory ℕ).batch small smallOps).2 := by
  apply (batch_refines small_apart ⟨empty_kept,by simp [emptyStore],rfl,rfl⟩ _ _).1
  · intro op hop
    simp only [smallOps, List.mem_cons, List.not_mem_nil, or_false] at hop
    rcases hop with rfl | rfl | rfl | rfl
    · exact fun n hn => Or.inl hn
    · exact fun n hn => Or.inl hn
    · exact fun n hn => Or.inr hn
    · exact fun n hn => Or.inr hn
  · exact ⟨trivial, trivial, trivial, trivial, trivial⟩

def repeated (x : Char) (n : ℕ) : Text := List.replicate (n+1) x

theorem not_mem_repeated {x y : Char} (h : y ≠ x) (n : ℕ) : y ∉ repeated x n :=
  fun hmem => h (List.eq_of_mem_replicate hmem)

theorem repeated_flat {x : Char} (hx : '/' ≠ x) (n : ℕ) :
    flattenNamespace small.namespaceSep [repeated x n] = .ok (repeated x n) := by
  have hsep : small.namespaceSep ∉ repeated x n := not_mem_repeated hx n
  have hne : repeated x n ≠ [] := List.cons_ne_nil _ _
  rw [flattenNamespace, if_neg (List.cons_ne_nil _ _), checkSegments, if_neg hne, if_neg hsep,
    List.intercalate_singleton]
  rfl

theorem repeated_digest {x y : Char} (hx : y ≠ x) (n : ℕ) :
    y ∉ small.sha1 (repeated x n) :=
  fun hmem => not_mem_repeated hx n (List.mem_filter.mp (List.mem_of_mem_take hmem)).1

theorem repeated_short (x : Char) (n : ℕ) (key : Text) :
    Short small [repeated x n] key ↔ n+3+key.length ≤ EXTERNAL_ID_MAX_LEN := by
  simp only [Short, repeated, List.intercalate_singleton, List.length_append, List.length_cons,
    List.length_nil, List.length_replicate]

theorem packed_injective_small :
    packed small users "k".toList ≠ packed small ["users".toList] "a".toList ∧
      ¬ Short small [repeated 'a' 520] "k".toList ∧
      packed small [repeated 'a' 520] "k".toList ≠ packed small [repeated 'b' 520] "k".toList := by
  have hflat : flattenNamespace small.namespaceSep users = .ok "users/a".toList := rfl
  have hflat' : flattenNamespace small.namespaceSep ["users".toList] = .ok "users".toList := rfl
  refine ⟨fun h => ?_, ?_, fun h => ?_⟩
  · have hsame := packed_injective hflat hflat' (plain_of_not_mem (by decide))
      (plain_of_not_mem (by decide)) (by decide) (by decide) (by decide)
      (by decide) (by decide) h
    exact absurd hsame.2 (by decide)
  · rw [repeated_short]
    decide
  · have hdigest : small.sha1 (repeated 'a' 520) ≠ small.sha1 (repeated 'b' 520) := by
      intro heq
      have hmem : 'a' ∈ small.sha1 (repeated 'a' 520) := List.mem_cons_self
      exact repeated_digest (by decide) 520 (heq ▸ hmem)
    have hsame := packed_injective (repeated_flat (by decide) 520) (repeated_flat (by decide) 520)
      (plain_of_not_mem (not_mem_repeated (by decide) 520))
      (plain_of_not_mem (not_mem_repeated (by decide) 520))
      (repeated_digest (by decide) 520) (repeated_digest (by decide) 520)
      (fun heq => absurd heq hdigest) (fun heq => absurd (List.cons.inj heq).1 (by decide))
      (fun heq => absurd (List.cons.inj heq).1 (by decide)) h
    exact absurd (List.cons.inj (List.cons.inj hsame.1).1).1 (by decide)

end Small

end Uru.Integrations.LanggraphStore
