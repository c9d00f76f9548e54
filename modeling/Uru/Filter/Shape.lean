import Uru.Filter.Similar

/-!
# Shapes of trees

The representation of a tree with the siblings sorted on a text that tells
any two values apart. It depends on the siblings alone and not on their
order, and normalization flattens a nested node of the same operator, so that
neither the order nor the nesting of siblings can be seen in the shape of a
normalized tree. Where no text holds a surrogate, trees of the same shape have
the same representation.
-/

set_option autoImplicit false

namespace Uru.Filter

open Uru.Lib

def shape : Ast → Json := canonicalizeOn (Json.dump false)

theorem plainTexts_false (v : Json) : v.PlainTexts false := by
  induction v using Json.ind with
  | str s => exact fun h => nomatch h
  | arr xs ih =>
    change Json.PlainTexts.all false xs
    induction xs with
    | nil => trivial
    | cons x xs ihx => exact ⟨ih x (by simp), ihx (fun y hy => ih y (by simp [hy]))⟩
  | obj kvs ih =>
    change Json.PlainTexts.allMembers false kvs
    induction kvs with
    | nil => trivial
    | cons kv kvs ihk =>
      obtain ⟨k, x⟩ := kv
      exact ⟨fun h => (nomatch h), ih (k,x) (by simp), ihk (fun y hy => ih y (by simp [hy]))⟩
  | _ => trivial

theorem sorted_shapes {xs ys : List Json} (h : xs.Perm ys) :
    sortOn (Json.dump false) xs = sortOn (Json.dump false) ys :=
  sortOn_congr h (fun x _ y _ he => Json.dump_inj (plainTexts_false x) (plainTexts_false y) he)

/-- Nodes with the same children, up to their order and to their shapes. -/
theorem shape_node {op : Connective} {fs gs : List Ast} (hn : op = .not → fs.map shape = gs.map shape)
    (h : (fs.map shape).Perm (gs.map shape)) : shape (.node op fs) = shape (.node op gs) := by
  by_cases ho : op = .not
  · subst ho
    rw [shape, canonicalizeOn_not, canonicalizeOn_not]
    exact congrArg _ (hn rfl)
  · rw [shape, canonicalizeOn_node _ ho, canonicalizeOn_node _ ho]
    exact congrArg _ (sorted_shapes h)

theorem shape_not {a b : Ast} (h : shape a = shape b) : shape (.node .not [a]) = shape (.node .not [b]) :=
  shape_node (fun _ => by simp [h]) (by simp [h])

theorem spliced_shape {op : Connective} {a b : Ast} (h : shape a = shape b) :
    ((spliced op a).map shape).Perm ((spliced op b).map shape) := by
  cases a with
  | leaf c =>
    cases b with
    | leaf d => exact .of_eq (by simp [spliced, h])
    | node op' gs =>
      obtain ⟨_, he, _⟩ := children_perm h.symm
      cases he
  | node op' fs =>
    obtain ⟨gs, rfl, hperm⟩ := children_perm h
    by_cases hop : op' = op
    · rw [spliced, spliced, if_pos hop, if_pos hop]
      exact hperm
    · rw [spliced, spliced, if_neg hop, if_neg hop]
      exact .of_eq (by simp [h])

theorem collapsed_shape {op : Connective} (ho : op ≠ .not) {fs gs : List Ast}
    (h : (fs.map shape).Perm (gs.map shape)) : shape (collapsed op fs) = shape (collapsed op gs) := by
  have hlen : fs.length = gs.length := by simpa using h.length_eq
  by_cases hl : fs.length = 1
  · obtain ⟨f, rfl⟩ := List.length_eq_one_iff.mp hl
    obtain ⟨g, rfl⟩ := List.length_eq_one_iff.mp (hlen.symm.trans hl)
    have hfg : shape f = shape g := by simpa using h
    cases f with
    | leaf c =>
      cases g with
      | leaf d => exact shape_node (fun he => nomatch he) (by simpa using hfg)
      | node op' gs =>
        obtain ⟨_, he, _⟩ := children_perm hfg.symm
        cases he
    | node op' fs =>
      obtain ⟨gs, rfl, _⟩ := children_perm hfg
      exact hfg
  · rw [collapsed_of_length hl, collapsed_of_length (hlen ▸ hl)]
    exact shape_node (fun he => absurd he ho) h

def parts (op : Connective) (as : List Ast) : Multiset Json :=
  (((as.map normalize).flatMap (spliced op)).map shape : List Json)

theorem parts_append (op : Connective) (as bs : List Ast) :
    parts op (as++bs) = parts op as+parts op bs := by
  simp [parts]

theorem parts_perm {op : Connective} {as bs : List Ast} (h : as.Perm bs) : parts op as = parts op bs :=
  Multiset.coe_eq_coe.mpr (((h.map _).flatMap_right _).map _)

theorem normalize_parts {op : Connective} (ho : op ≠ .not) {as bs : List Ast}
    (h : parts op as = parts op bs) :
    shape (normalize (.node op as)) = shape (normalize (.node op bs)) := by
  rw [normalize_node ho, normalize_node ho]
  exact collapsed_shape ho (Multiset.coe_eq_coe.mp h)

theorem parts_cons (op : Connective) (a : Ast) (as : List Ast) :
    parts op (a::as) = (((spliced op (normalize a)).map shape : List Json):Multiset Json)+parts op as := by
  simp [parts]

theorem parts_congr {op : Connective} {as bs : List Ast}
    (h : List.Forall₂ (fun a b => shape (normalize a) = shape (normalize b)) as bs) :
    parts op as = parts op bs := by
  induction h with
  | nil => rfl
  | cons hab _ ih => rw [parts_cons, parts_cons, ih, Multiset.coe_eq_coe.mpr (spliced_shape hab)]

/-- Trees of the same shape normalize to the same shape. -/
theorem normalize_shape (a b : Ast) (h : shape a = shape b) :
    shape (normalize a) = shape (normalize b) := by
  induction a using Formula.ind generalizing b with
  | hleaf c =>
    cases b with
    | leaf d => exact h
    | node op gs =>
      obtain ⟨_, he, _⟩ := children_perm h.symm
      cases he
  | hnode op fs ih =>
    obtain ⟨gs, gs', rfl, hgs, hnot, hmatch⟩ := children_matched h
    have hchildren := forall₂_imp_mem hmatch (fun f hf g _ hfg => ih f hf g hfg)
    by_cases ho : op = .not
    · subst ho
      have hmap : (fs.map normalize).map shape = (gs.map normalize).map shape := by
        rw [List.map_map, List.map_map, ← hnot rfl]
        exact map_eq_of_forall₂ hchildren
      rw [normalize_not, normalize_not]
      exact shape_node (fun _ => hmap) (.of_eq hmap)
    · exact normalize_parts ho ((parts_congr hchildren).trans (parts_perm hgs))

/-- Trees with the same shapes, up to order, contribute the same siblings. -/
theorem parts_of_shapes {op : Connective} {as bs : List Ast} (h : (as.map shape).Perm (bs.map shape)) :
    parts op as = parts op bs := by
  obtain ⟨bs', hbs, hmatch⟩ := exists_perm_of_map h
  exact (parts_congr (hmatch.imp normalize_shape)).trans (parts_perm hbs)

/-- A settled node is what remains of it alone in a conjunction. -/
theorem collapsed_self {op : Connective} {fs : List Ast} (h : Settled (.node op fs)) :
    collapsed .and (spliced .and (.node op fs)) = .node op fs := by
  by_cases hop : op = .and
  · subst hop
    rw [spliced, if_pos rfl]
    by_cases hl : fs.length = 1
    · have hand : Connective.and ≠ .not := by decide
      obtain ⟨_, c, rfl⟩ := (((Formula.atNodes_node _ _ _).mp h).1 hand).2 hl
      rfl
    · exact collapsed_of_length hl
  · rw [spliced, if_neg hop]
    rfl

/-- A single clause among the siblings below nodes was in a conjunction. -/
theorem single_clause {op : Connective} (ho : op ≠ .not) {as : List Ast} {c : FilterClause}
    (has : ∀ a ∈ as, ∃ op' fs, a = .node op' fs)
    (h : (as.map normalize).flatMap (spliced op) = [.leaf c]) : op = .and := by
  have hmem : Formula.leaf c ∈ (as.map normalize).flatMap (spliced op) := by rw [h]; simp
  obtain ⟨b, hb, hc⟩ := List.mem_flatMap.mp hmem
  obtain ⟨a, ha, rfl⟩ := List.mem_map.mp hb
  obtain ⟨o, fs, rfl⟩ := has a ha
  obtain ⟨op', gs, hn⟩ := normalize_root o fs
  have hsub : (spliced op (normalize (.node o fs))).length ≤ 1 := by
    have hl := ((List.sublist_flatten_of_mem (List.mem_map_of_mem (f := spliced op) hb)).length_le)
    rwa [← List.flatMap_def, h] at hl
  have hset := normalize_settled (.node o fs)
  rw [hn] at hc hsub hset
  by_cases hop : op' = op
  · subst hop
    rw [spliced, if_pos rfl] at hc hsub
    have hone : gs.length = 1 := by
      have hpos := List.length_pos_of_mem hc
      omega
    exact ((((Formula.atNodes_node _ _ _).mp hset).1 ho).2 hone).1
  · rw [spliced, if_neg hop] at hc
    cases List.mem_singleton.mp hc

/-- The siblings that a node of the same operator adds are its own children,
whatever their number. -/
theorem spliced_collapsed {op : Connective} {fs : List Ast} (h : ∀ f ∈ fs, ∀ gs, f ≠ .node op gs)
    (hc : ∀ c, fs = [.leaf c] → op = .and) : spliced op (collapsed op fs) = fs := by
  by_cases hl : fs.length = 1
  · obtain ⟨f, rfl⟩ := List.length_eq_one_iff.mp hl
    cases f with
    | leaf c =>
      cases hc c rfl
      rfl
    | node op' gs => exact spliced_self (h (.node op' gs) (by simp))
  · rw [collapsed_of_length hl, spliced, if_pos rfl]

/-- A node that is alone in a conjunction adds its own siblings to a node of
the same operator around it. A disjunction around a single clause would become
a conjunction, but the documents in it are never single clauses. -/
theorem parts_nested {op : Connective} (ho : op ≠ .not) (as : List Ast)
    (has : ∀ a ∈ as, ∃ op' fs, a = .node op' fs) :
    parts op [normalize (.node .and [.node op as])] = parts op as := by
  have hand : Connective.and ≠ .not := fun he => nomatch he
  have halone : normalize (.node .and [.node op as]) = normalize (.node op as) := by
    obtain ⟨op', fs, hroot⟩ := normalize_root op as
    rw [normalize_node hand, List.map_singleton, List.flatMap_singleton, hroot]
    exact collapsed_self (hroot ▸ normalize_settled _)
  rw [parts, parts, List.map_singleton, List.flatMap_singleton, normalize_normalize, halone,
    normalize_node ho, spliced_collapsed _ (fun c hc => single_clause ho has hc)]
  intro f hf
  obtain ⟨b, hb, hfb⟩ := List.mem_flatMap.mp hf
  obtain ⟨a, _, rfl⟩ := List.mem_map.mp hb
  exact (spliced_settled ho (normalize_settled a) f hfb).2

theorem plain_arr {ascii : Bool} {xs : List Json} :
    (Json.arr xs).PlainTexts ascii ↔ ∀ x ∈ xs, x.PlainTexts ascii := by
  rw [Json.PlainTexts]
  induction xs with
  | nil => simp [Json.PlainTexts.all]
  | cons x xs ih => simp [Json.PlainTexts.all, ih]

theorem py_plain (s : String) : Json.Plain true (py s) := fun _ => Json.word_surrogateless s

theorem opKey_plain (op : Connective) : Json.Plain true (opKey op) := by
  cases op <;> exact py_plain _

theorem plain_node {op : Connective} {xs : List Json} :
    (canonicalizeNode op xs).PlainTexts true ↔ ∀ x ∈ xs, x.PlainTexts true := by
  rw [← plain_arr]
  exact ⟨fun h => h.2.2.2.2.2.1,
    fun h => ⟨py_plain _, py_plain _, py_plain _, opKey_plain op, py_plain _, h, trivial⟩⟩

theorem plain_canonicalize (key : Json → PyStr) (a : Ast) :
    (canonicalizeOn key a).PlainTexts true ↔ ∀ c ∈ a.leaves, (canonicalizeClause c).PlainTexts true := by
  induction a using Formula.ind with
  | hleaf c =>
    rw [Formula.leaves_leaf]
    simp [canonicalizeOn]
  | hnode op fs ih =>
    have hchildren : (∀ x ∈ fs.map (canonicalizeOn key), x.PlainTexts true) ↔
        ∀ c ∈ (Formula.node op fs).leaves, (canonicalizeClause c).PlainTexts true := by
      rw [Formula.leaves_node]
      constructor
      · intro h c hc
        obtain ⟨f, hf, hcf⟩ := List.mem_flatMap.mp hc
        exact (ih f hf).mp (h _ (List.mem_map_of_mem hf)) c hcf
      · intro h x hx
        obtain ⟨f, hf, rfl⟩ := List.mem_map.mp hx
        exact (ih f hf).mpr (fun c hc => h c (List.mem_flatMap.mpr ⟨f, hf, hc⟩))
    rw [← hchildren]
    by_cases ho : op = .not
    · subst ho
      rw [canonicalizeOn_not, plain_node]
    · rw [canonicalizeOn_node key ho, plain_node]
      exact ⟨fun h x hx => h x (mem_sortOn.mpr hx), fun h x hx => h x (mem_sortOn.mp hx)⟩

/-- Where no text holds a surrogate, the text in ASCII tells any two values
apart as well, and trees of the same shape have the same representation. -/
theorem canonicalize_of_shape (a b : Ast)
    (ha : ∀ c ∈ a.leaves, (canonicalizeClause c).PlainTexts true) (h : shape a = shape b) :
    canonicalize a = canonicalize b := by
  induction a using Formula.ind generalizing b with
  | hleaf c =>
    cases b with
    | leaf d => exact h
    | node op gs =>
      obtain ⟨_, he, _⟩ := children_perm h.symm
      cases he
  | hnode op fs ih =>
    obtain ⟨gs, gs', rfl, hgs, hnot, hmatch⟩ := children_matched h
    have hleaves : ∀ f ∈ fs, ∀ c ∈ f.leaves, (canonicalizeClause c).PlainTexts true := by
      intro f hf c hc
      refine ha c ?_
      rw [Formula.leaves_node]
      exact List.mem_flatMap.mpr ⟨f, hf, hc⟩
    have hmap : fs.map canonicalize = gs'.map canonicalize :=
      map_eq_of_forall₂ (forall₂_imp_mem hmatch (fun f hf g _ hfg => ih f hf g (hleaves f hf) hfg))
    have hplain : ∀ x ∈ fs.map canonicalize, x.PlainTexts true := by
      intro x hx
      obtain ⟨f, hf, rfl⟩ := List.mem_map.mp hx
      exact (plain_canonicalize _ f).mpr (hleaves f hf)
    by_cases ho : op = .not
    · subst ho
      rw [canonicalize, canonicalizeOn_not, canonicalizeOn_not, ← hnot rfl]
      exact congrArg _ hmap
    · have hperm : (fs.map canonicalize).Perm (gs.map canonicalize) := hmap ▸ hgs.map _
      rw [canonicalize, canonicalizeOn_node _ ho, canonicalizeOn_node _ ho]
      exact congrArg _ (sortOn_congr hperm
        (fun x hx y hy he => Json.dump_inj (hplain x hx) (hplain y hy) he))

end Uru.Filter
