import Uru.Filter.Raising
import Uru.Filter.Rearranged

/-!
# What the canonical hash tells

The hash exists when the operands of the tree can be printed and encoded. It
does not change when the document is rearranged. Two documents with the same
encoding accept the same records on which their leaves answer, unless one has
a date where the other has the object that the date is written as.
-/

set_option autoImplicit false

namespace Uru.Filter

open Uru.Lib

def Val.Plain : Val → Prop
  | .str s => Json.Surrogateless s
  | .list xs => goList xs
  | .dict kvs => goDict kvs
  | _ => True
where
  goList : List Val → Prop
    | [] => True
    | x::xs => Plain x ∧ goList xs
  goDict : Dict → Prop
    | [] => True
    | (k,x)::xs => Json.Surrogateless k ∧ Plain x ∧ goDict xs

def Atom.Plain : Atom → Prop
  | .val v => v.Plain
  | .date _ => True

def Operand.Plain : Operand → Prop
  | .atom a => a.Plain
  | .tuple as => ∀ a ∈ as, a.Plain

structure FilterClause.Printable (c : FilterClause) : Prop where
  path : ∀ s ∈ c.path, Json.Surrogateless s
  texts : c.operand.Plain
  integers : c.operand.printable = true

theorem plain_iff (s : PyStr) : Json.Plain true s ↔ Json.Surrogateless s :=
  ⟨fun h => h rfl, fun h _ => h⟩

theorem pad_plain (k n : ℕ) : Json.Surrogateless (pad k n) := by
  induction k generalizing n with
  | zero => exact Json.surrogateless_nil
  | succ k ih =>
    have hd : (digit n).isSurrogate = false := by
      refine decide_eq_false (fun h => ?_)
      simp only [digit] at h
      omega
    exact (Json.surrogateless_append _ _).mpr
      ⟨ih _, (Json.surrogateless_cons _ _).mpr ⟨hd, Json.surrogateless_nil⟩⟩

theorem cons_plain (c : Char) {s : PyStr} (hs : Json.Surrogateless s) :
    Json.Surrogateless (point c ::s) :=
  (Json.surrogateless_cons _ _).mpr ⟨Json.letter_plain c, hs⟩

theorem append_plain {s t : PyStr} (hs : Json.Surrogateless s) (ht : Json.Surrogateless t) :
    Json.Surrogateless (s++t) :=
  (Json.surrogateless_append _ _).mpr ⟨hs, ht⟩

theorem fraction_plain (n : ℕ) : Json.Surrogateless (fraction n) := by
  unfold fraction
  split_ifs
  · exact Json.surrogateless_nil
  · exact cons_plain _ (pad_plain 6 n)

theorem offset_plain (o : Offset) : Json.Surrogateless o.isoformat := by
  have hseconds : Json.Surrogateless (Offset.seconds o.micros.natAbs) := by
    unfold Offset.seconds
    split_ifs
    · exact Json.surrogateless_nil
    · exact cons_plain _ (append_plain (pad_plain _ _) (fraction_plain _))
  have hrest := append_plain (pad_plain 2 (o.micros.natAbs/1000000/3600)) (cons_plain ':'
    (append_plain (pad_plain 2 (o.micros.natAbs/1000000/60%60)) hseconds))
  rw [offset_text]
  by_cases h : o.micros < 0
  · rw [if_pos h]
    exact cons_plain '-' hrest
  · rw [if_neg h]
    exact cons_plain '+' hrest

theorem isoformat_plain (d : DateTime) : Json.Surrogateless d.isoformat := by
  have hoff : Json.Surrogateless (d.offset.elim [] Offset.isoformat) := by
    cases d.offset with
    | none => exact Json.surrogateless_nil
    | some o => exact offset_plain o
  refine append_plain ?_ hoff
  exact append_plain (pad_plain _ _) (cons_plain _ (append_plain (pad_plain _ _) (cons_plain _
    (append_plain (pad_plain _ _) (cons_plain _ (append_plain (pad_plain _ _) (cons_plain _
      (append_plain (pad_plain _ _) (cons_plain _ (append_plain (pad_plain _ _)
        (fraction_plain _)))))))))))

theorem plain_obj {kvs : List (PyStr × Json)} :
    (Json.obj kvs).PlainTexts true ↔ ∀ kv ∈ kvs, Json.Surrogateless kv.1 ∧ kv.2.PlainTexts true := by
  rw [Json.PlainTexts]
  induction kvs with
  | nil => simp [Json.PlainTexts.allMembers]
  | cons kv kvs ih =>
    simp only [Json.PlainTexts.allMembers, plain_iff, ih, List.forall_mem_cons, and_assoc]

theorem tagged_plain (tag : String) {text : PyStr} (h : Json.Surrogateless text) :
    (tagged (py tag) text).PlainTexts true :=
  ⟨py_plain tag, fun _ => h, trivial⟩

theorem plain_list (xs : List Val) : (Val.list xs).Plain ↔ ∀ x ∈ xs, x.Plain := by
  rw [Val.Plain]
  induction xs with
  | nil => simp [Val.Plain.goList]
  | cons x xs ih => simp [Val.Plain.goList, ih]

theorem plain_dict (kvs : Dict) :
    (Val.dict kvs).Plain ↔ ∀ kv ∈ kvs, Json.Surrogateless kv.1 ∧ kv.2.Plain := by
  rw [Val.Plain]
  induction kvs with
  | nil => simp [Val.Plain.goDict]
  | cons kv kvs ih => simp only [Val.Plain.goDict, ih, List.forall_mem_cons, and_assoc]

theorem plain_value (v : Val) : (canonicalizeValue v).PlainTexts true ↔ v.Plain := by
  induction v using Val.ind with
  | str s => exact plain_iff s
  | datetime d => exact ⟨fun _ => trivial, fun _ => tagged_plain _ (isoformat_plain d)⟩
  | list xs ih =>
    rw [canonicalizeValue_list, plain_arr, plain_list]
    constructor
    · exact fun h x hx => (ih x hx).mp (h _ (List.mem_map_of_mem hx))
    · intro h y hy
      obtain ⟨x, hx, rfl⟩ := List.mem_map.mp hy
      exact (ih x hx).mpr (h x hx)
  | dict kvs ih =>
    rw [canonicalizeValue_dict, plain_obj, plain_dict]
    constructor
    · intro h kv hkv
      have hm := h (kv.1,canonicalizeValue kv.2) (mem_sortOn.mpr (List.mem_map_of_mem hkv))
      exact ⟨hm.1, (ih kv hkv).mp hm.2⟩
    · intro h p hp
      obtain ⟨kv, hkv, rfl⟩ := List.mem_map.mp (mem_sortOn.mp hp)
      exact ⟨(h kv hkv).1, (ih kv hkv).mpr (h kv hkv).2⟩
  | _ => exact ⟨fun _ => trivial, fun _ => trivial⟩

theorem plain_atom (a : Atom) : a.canonicalize.PlainTexts true ↔ a.Plain := by
  cases a with
  | val v => exact plain_value v
  | date t => exact ⟨fun _ => trivial, fun _ => tagged_plain _ (isoformat_plain t.aware)⟩

theorem plain_operand (x : Operand) : (canonicalizeOperand x).PlainTexts true ↔ x.Plain := by
  cases x with
  | atom a => exact plain_atom a
  | tuple as =>
    rw [canonicalizeOperand, plain_arr]
    constructor
    · exact fun h a ha => (plain_atom a).mp (h _ (List.mem_map_of_mem ha))
    · intro h y hy
      obtain ⟨a, ha, rfl⟩ := List.mem_map.mp hy
      exact (plain_atom a).mpr (h a ha)

theorem plain_clause (c : FilterClause) : (canonicalizeClause c).PlainTexts true ↔
    (∀ s ∈ c.path, Json.Surrogateless s) ∧ c.operand.Plain := by
  have hop : Json.Plain true c.op.key := by cases c.op <;> exact py_plain _
  have hkind : Json.Plain true (operandKind c.operand) := by
    unfold operandKind
    split <;> exact py_plain _
  have hpath : (Json.arr (c.path.map .str)).PlainTexts true ↔ ∀ s ∈ c.path, Json.Surrogateless s := by
    rw [plain_arr]
    constructor
    · exact fun h s hs => (plain_iff s).mp (h _ (List.mem_map_of_mem hs))
    · intro h y hy
      obtain ⟨s, hs, rfl⟩ := List.mem_map.mp hy
      exact (plain_iff s).mpr (h s hs)
  rw [← hpath, ← plain_operand]
  constructor
  · exact fun h => ⟨h.2.2.2.1, h.2.2.2.2.2.2.2.2.2.1⟩
  · exact fun h => ⟨py_plain _, py_plain _, py_plain _, h.1, py_plain _, hop, py_plain _, hkind,
      py_plain _, h.2, trivial⟩

/-- The hash exists exactly when every leaf can be printed. -/
theorem canonicalHash_isSome {H : Type} (sha256 : PyStr → H) (a : Ast) :
    (canonicalHash sha256 a).isSome = true ↔ ∀ c ∈ a.leaves, c.Printable := by
  have htext : (encoding a).any Letter.isSurrogate = false ↔
      ∀ c ∈ a.leaves, (∀ s ∈ c.path, Json.Surrogateless s) ∧ c.operand.Plain := by
    rw [List.any_eq_false]
    simp only [Bool.not_eq_true]
    refine (Json.dump_surrogateless _).trans ((plain_canonicalize _ a).trans ?_)
    exact forall₂_congr (fun c _ => plain_clause c)
  unfold canonicalHash
  split_ifs with h
  · rw [Bool.and_eq_true, Bool.not_eq_true', htext, List.all_eq_true] at h
    exact ⟨fun _ c hc => ⟨(h.2 c hc).1, (h.2 c hc).2, h.1 c hc⟩, fun _ => rfl⟩
  · refine ⟨fun hn => (nomatch hn), fun hp => absurd ?_ h⟩
    rw [Bool.and_eq_true, Bool.not_eq_true', htext, List.all_eq_true]
    exact ⟨fun c hc => (hp c hc).integers, fun c hc => ⟨(hp c hc).path, (hp c hc).texts⟩⟩

def uniqueKeys : Content := ⟨fun _ => True, fun _ => True, Val.Unique⟩

theorem uniqueKeys_hereditary : uniqueKeys.Hereditary :=
  ⟨fun xs h => (unique_list xs).mp h, fun kvs h => ((unique_dict kvs).mp h).2⟩

theorem lowered_unique {a : Atom} (h : a.Lowered Val.Unique) : a.Unique := by
  cases a with
  | val v => exact h.1
  | date t => trivial

theorem unique_values {α : Type} {f : α → Val} (hf : ∀ x, (f x).Unique) (xs : List α) :
    (Operand.tuple (xs.map (fun x => .val (f x)))).Unique := by
  intro a ha
  obtain ⟨x, _, rfl⟩ := List.mem_map.mp ha
  exact hf x

theorem dateOperand_unique {op : Op} {x : Operand} (h : DateOperand op x) : x.Unique := by
  cases op with
  | in_ | nin =>
    obtain ⟨ts, rfl⟩ := h
    exact unique_values (f := UtcTime.val) (fun _ => trivial) ts
  | and | or | nor | not | date | exists_ => exact h.elim
  | _ => rcases h with rfl | ⟨t, rfl⟩ <;> trivial

theorem stringOperand_unique {P : PyStr → Prop} {op : Op} {x : Operand} (h : StringOperand P op x) :
    x.Unique := by
  cases op with
  | in_ | nin =>
    obtain ⟨xs, rfl, _⟩ := h
    exact unique_values (f := Val.str) (fun _ => trivial) xs
  | eq =>
    rcases h with rfl | ⟨s, rfl, _⟩ | ⟨xs, rfl, _⟩
    · trivial
    · trivial
    · exact unique_values (f := Val.str) (fun _ => trivial) xs
  | ne => rcases h with rfl | ⟨s, rfl, _⟩ <;> trivial
  | exists_ => rcases h with rfl | ⟨b, rfl⟩ <;> trivial
  | _ => exact h.elim

theorem foldedOperand_unique {op : Op} {x : Operand} (h : FoldedOperand Val.Unique op x) :
    x.Unique := by
  cases op with
  | in_ | nin =>
    obtain ⟨as, rfl, has⟩ := h
    exact fun a ha => lowered_unique (has a ha)
  | eq =>
    rcases h with ⟨a, rfl, ha⟩ | ⟨xs, rfl, hxs⟩
    · exact lowered_unique ha
    · intro a ha
      obtain ⟨x, hx, rfl⟩ := List.mem_map.mp ha
      exact (unique_list xs).mp hxs x hx
  | exists_ =>
    obtain ⟨b, rfl⟩ := h
    trivial
  | and | or | nor | not | date => exact h.elim
  | _ =>
    obtain ⟨a, rfl, ha⟩ := h
    exact lowered_unique ha

theorem emitted_unique {c : FilterClause} (h : Emitted uniqueKeys c) : c.operand.Unique := by
  cases h with
  | date k op x h => exact dateOperand_unique h
  | text k op x h => exact stringOperand_unique h
  | blob d h => exact h
  | folded key op x hk h => exact foldedOperand_unique h

/-- The hash exists exactly when the leaves can be printed. Documents with the
same encoding answer alike on every record on which the leaves answer, when
none of them has a date where the other has the object of that date. A
rearranged document has the same encoding, when the leaves can be printed. -/
theorem canonical_hashing {H : Type} (sha256 : PyStr → H) (f : RecallFilter)
    (hacc : f.accepted = true) (hf : f.Within uniqueKeys) (a : Ast) (ha : f.parseToAst = .ok a) :
    ((canonicalHash sha256 a).isSome = true ↔ ∀ c ∈ a.leaves, c.Printable) ∧
    (∀ (g : RecallFilter) (b : Ast), g.accepted = true → g.Within uniqueKeys → g.parseToAst = .ok b →
      (∀ c ∈ a.leaves, ∀ d ∈ b.leaves, c.confused d = false) → encoding a = encoding b →
      ∀ r, (∀ c ∈ a.leaves, ∃ x, compileClause c r = some x) → compilePython a r = compilePython b r) ∧
    ((∀ c ∈ a.leaves, c.Printable) → ∀ g, Rearranged .and [f] [g] →
      ∃ b, g.parseToAst = .ok b ∧ encoding a = encoding b) := by
  have hba := parseToAst_built uniqueKeys_hereditary f hacc hf a ha
  refine ⟨canonicalHash_isSome sha256 a, ?_, ?_⟩
  · intro g b hgacc hg hb hab he r hans
    have hbb := parseToAst_built uniqueKeys_hereditary g hgacc hg b hb
    exact run_similar _ r a b hba.1 (fun c hc => emitted_unique (hba.2 c hc))
      (fun d hd => emitted_unique (hbb.2 d hd)) hab hans
      (Json.dump_inj (plainTexts_false _) (plainTexts_false _) he)
  · intro hp g hfg
    obtain ⟨b, hb, hshape⟩ := (rearranged_shape hfg).of_ok ha
    refine ⟨b, hb, congrArg (Json.dump false) (canonicalize_of_shape a b (fun c hc => ?_) hshape)⟩
    exact (plain_clause c).mpr ⟨(hp c hc).path, (hp c hc).texts⟩

theorem notDraft_within : notDraft.Within uniqueKeys := by
  refine ⟨fun _ _ h => (nomatch h), fun _ h => (nomatch h), fun kv hkv => ⟨trivial, ?_⟩, trivial,
    trivial, trivial, trivial⟩
  rw [List.mem_singleton.mp hkv]
  exact ⟨List.nodup_singleton _, ⟨List.nodup_singleton _, trivial, trivial⟩, trivial⟩

theorem notDraft_printable {c : FilterClause}
    (hc : c ∈ [(⟨splitDots (py "metadata.status"), .eq, .val (.str (py "draft"))⟩ : FilterClause)]) :
    c.Printable := by
  have hpath : splitDots (py "metadata.status") = [py "metadata",py "status"] := by decide
  rw [List.mem_singleton.mp hc]
  refine ⟨fun s hs => ?_, Json.word_surrogateless "draft", rfl⟩
  rw [hpath] at hs
  rcases List.mem_cons.mp hs with rfl | hs
  · exact Json.word_surrogateless "metadata"
  · rw [List.mem_singleton.mp hs]
    exact Json.word_surrogateless "status"

/-- `{"metadata.status": {"$not": {"$eq": "draft"}}}` has a hash. -/
theorem notDraft_hashed : ∃ a, notDraft.parseToAst = .ok a ∧ (canonicalHash id a).isSome = true :=
  ⟨_, rfl, (canonical_hashing id notDraft (by decide) notDraft_within _ rfl).1.mpr
    (fun _ hc => notDraft_printable hc)⟩

theorem sevenSharp_valid : Civil.Valid ⟨2024, 1, 15, 7, 0, 0, 0⟩ := by decide

def sevenSharp : UtcTime := ⟨⟨2024, 1, 15, 7, 0, 0, 0⟩, sevenSharp_valid⟩

/-- `{"metadata.at": datetime(2024, 1, 15, 7, tzinfo=UTC)}` -/
def atDatetime : RecallFilter := metadataFilter [(py "metadata.at",.datetime sevenSharp.aware)]

/-- `{"metadata.at": {"$eq": {"$dt": "2024-01-15T07:00:00+00:00"}}}` -/
def atObject : RecallFilter :=
  metadataFilter [(py "metadata.at",.dict [(py "$eq",.dict [(py "$dt",.str sevenSharp.isoformat)])])]

/-- `{"metadata.at": "\ud800"}` -/
def atSurrogate : RecallFilter := metadataFilter [(py "metadata.at",.str [⟨0xd800, by decide⟩])]

def atSeven : Record := ⟨fun _ => .null, [(py "at",.str sevenSharp.isoformat)]⟩

/-- A date and the object that it is written as share a key and not their
meaning, and a lone surrogate cannot be hashed. -/
theorem dates_collide : atDatetime.accepted = true ∧ atObject.accepted = true ∧
    atSurrogate.accepted = true ∧
    (∃ a b, atDatetime.parseToAst = .ok a ∧ atObject.parseToAst = .ok b ∧ encoding a = encoding b ∧
      compilePython a atSeven = some true ∧ compilePython b atSeven = some false) ∧
    ∃ c, atSurrogate.parseToAst = .ok c ∧ canonicalHash id c = none := by
  refine ⟨by decide, by decide, by decide, ⟨_, _, rfl, rfl, rfl, by decide, by decide⟩, ⟨_, rfl, ?_⟩⟩
  rw [← Option.not_isSome_iff_eq_none, canonicalHash_isSome]
  intro h
  have htext := (h _ (List.mem_singleton.mpr rfl)).texts _ (List.mem_singleton.mpr rfl)
  cases htext

end Uru.Filter
