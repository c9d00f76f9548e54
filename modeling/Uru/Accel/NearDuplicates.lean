import Mathlib.Algebra.Order.Field.Rat
import Mathlib.Data.List.OfFn
import Mathlib.Data.List.Dedup
import Mathlib.Data.List.GetD
import Mathlib.Data.List.Range
import Mathlib.Tactic
import Uru.Lib.Record
import Uru.Lib.SortOn
import Uru.Lib.StarForest

/-!
# Near duplicates among chunks

Each chunk has a signature, an arbitrary function of the chunk, and two chunks
are as similar as the share of equal positions. The kernel compares the chunks
that share a bucket for a band of their signatures, in the order of the pairs,
and follows the marks to a representative. The fallback compares all pairs. A
chunk that is similar enough to an earlier one is marked with it.
-/

set_option autoImplicit false

namespace Uru.Accel.NearDuplicates
open Uru.Lib

def matching (sigA sigB : List ℕ) : ℕ := ((sigA.zip sigB).filter (fun p => p.1 = p.2)).length

/-- The share of equal positions; without positions there is none. -/
def minhashSimilarity (sigA sigB : List ℕ) : Option ℚ :=
  if sigA.length = 0 then none else some (matching sigA sigB/sigA.length)

/-- A comparison with a number that is not there fails. -/
def atLeast (threshold : ℚ) : Option ℚ → Bool
  | none => false
  | some sim => threshold ≤ sim

def signatureAt (signatures : List (List ℕ)) (i : ℕ) : List ℕ := signatures.getD i []

/-- `diff` says how far the threshold of a number of bands is from the one that
is wanted. -/
def optimalBands (diff : ℕ → ℚ) (numPerm : ℕ) : ℕ :=
  ((List.range' 1 numPerm).foldl (fun (best : ℕ × Option ℚ) bands =>
    let rows := numPerm/bands
    if rows = 0 ∨ bands*rows ≠ numPerm then best
    else
      match best.2 with
      | none => (bands,some (diff bands))
      | some bestDiff => if diff bands < bestDiff then (bands,some (diff bands)) else best)
    (1,none)).1

def band (signature : List ℕ) (rows bandIdx : ℕ) : List ℕ :=
  (signature.drop (bandIdx*rows)).take rows

section Buckets

variable (hashBand : List ℕ → ℕ) (bands rows : ℕ)

def pushBucket (buckets : Record (ℕ × ℕ) (List ℕ)) (key : ℕ × ℕ) (idx : ℕ) :
    Record (ℕ × ℕ) (List ℕ) :=
  buckets.set key ((buckets.get key).getD []++[idx])

def addSignature (buckets : Record (ℕ × ℕ) (List ℕ)) (e : List ℕ × ℕ) :
    Record (ℕ × ℕ) (List ℕ) :=
  (List.range bands).foldl (fun buckets bandIdx =>
    pushBucket buckets (bandIdx,hashBand (band e.1 rows bandIdx)) e.2) buckets

def fillBuckets (signatures : List (List ℕ)) : Record (ℕ × ℕ) (List ℕ) :=
  signatures.zipIdx.foldl (addSignature hashBand bands rows) ∅

def memberPairs : List ℕ → List (ℕ × ℕ)
  | [] => []
  | a::members => members.map (fun b => if a < b then (a,b) else (b,a))++memberPairs members

def candidatePairs (signatures : List (List ℕ)) : List (ℕ × ℕ) :=
  sortOn (fun p => toLex p)
    ((fillBuckets hashBand bands rows signatures).values.flatMap memberPairs).dedup

end Buckets

def follow (duplicateOf : ℕ → Option ℕ) : ℕ → ℕ → Option ℕ
  | 0, _ => none
  | fuel+1, c =>
    match duplicateOf c with
    | some parent => follow duplicateOf fuel parent
    | none => some c

def verify (similarity : ℕ → ℕ → Option ℚ) (threshold : ℚ) (n : ℕ) :
    List (ℕ × ℕ) → (ℕ → Option ℕ) → Option (ℕ → Option ℕ)
  | [], duplicateOf => some duplicateOf
  | (a,b)::pairs, duplicateOf =>
    if (duplicateOf b).isSome = true then verify similarity threshold n pairs duplicateOf
    else
      match follow duplicateOf n a with
      | none => none
      | some canonicalA =>
        verify similarity threshold n pairs
          (if atLeast threshold (similarity canonicalA b) = true then
            Function.update duplicateOf b (some canonicalA)
          else duplicateOf)

def similarity (signatures : List (List ℕ)) (i j : ℕ) : Option ℚ :=
  minhashSimilarity (signatureAt signatures i) (signatureAt signatures j)

/-- Without an answer the kernel would follow the marks for ever. -/
def deduplicateChunksInner (hashBand : List ℕ → ℕ) (diff : ℕ → ℚ) (threshold : ℚ)
    (numPerm : ℕ) (signatures : List (List ℕ)) : Option (List (ℕ × Option ℕ)) :=
  let n := signatures.length
  if n = 0 then some []
  else
    let bands := optimalBands diff numPerm
    let rows := numPerm/bands
    let pairs := candidatePairs hashBand bands rows signatures
    (verify (similarity signatures) threshold n pairs (fun _ => none)).map
      (fun duplicateOf => (List.range n).map (fun i => (i,duplicateOf i)))

/-- The inner loop; a division by zero ends it. -/
def compareFrom (signatures : List (List ℕ)) (threshold : ℚ) (numPerm i : ℕ) :
    List ℕ → (ℕ → Option ℕ) → Option (ℕ → Option ℕ)
  | [], duplicateOf => some duplicateOf
  | j::js, duplicateOf =>
    if (duplicateOf j).isSome = true then
      compareFrom signatures threshold numPerm i js duplicateOf
    else if numPerm = 0 then none
    else
      let sim := (matching (signatureAt signatures i) (signatureAt signatures j) : ℚ)/numPerm
      compareFrom signatures threshold numPerm i js
        (if threshold ≤ sim then Function.update duplicateOf j (some i) else duplicateOf)

def compareAll (signatures : List (List ℕ)) (threshold : ℚ) (numPerm : ℕ) :
    List ℕ → (ℕ → Option ℕ) → Option (ℕ → Option ℕ)
  | [], duplicateOf => some duplicateOf
  | i::is, duplicateOf =>
    if (duplicateOf i).isSome = true then
      compareAll signatures threshold numPerm is duplicateOf
    else
      (compareFrom signatures threshold numPerm i
        (List.range' (i+1) (signatures.length-(i+1))) duplicateOf).bind
          (compareAll signatures threshold numPerm is)

/-- Without an answer the fallback has raised `ZeroDivisionError`. -/
def _pyDeduplicateChunks (threshold : ℚ) (numPerm : ℕ) (signatures : List (List ℕ)) :
    Option (List (ℕ × Option ℕ)) :=
  let n := signatures.length
  if n = 0 then some []
  else
    (compareAll signatures threshold numPerm (List.range n) (fun _ => none)).map
      (fun duplicateOf => (List.range n).map (fun i => (i,duplicateOf i)))

section Buckets

variable {hashBand : List ℕ → ℕ} {bands rows : ℕ}

def InBucket (hashBand : List ℕ → ℕ) (bands rows : ℕ) (key : ℕ × ℕ) (signature : List ℕ) : Prop :=
  key.1 < bands ∧ hashBand (band signature rows key.1) = key.2

instance (hashBand : List ℕ → ℕ) (bands rows : ℕ) (key : ℕ × ℕ) (signature : List ℕ) :
    Decidable (InBucket hashBand bands rows key signature) :=
  inferInstanceAs (Decidable (_ ∧ _))

theorem addSignature_get (buckets : Record (ℕ × ℕ) (List ℕ)) (e : List ℕ × ℕ) (key : ℕ × ℕ) :
    ((addSignature hashBand bands rows buckets e).get key).getD [] =
      (buckets.get key).getD []++if InBucket hashBand bands rows key e.1 then [e.2] else [] := by
  unfold addSignature InBucket
  induction bands with
  | zero => simp
  | succ bands ih =>
    rw [List.range_succ, List.foldl_append, List.foldl_cons, List.foldl_nil, pushBucket,
      Record.get_set]
    by_cases hkey : key = (bands,hashBand (band e.1 rows bands))
    · subst hkey
      rw [if_pos rfl, Option.getD_some, ih]
      simp
    · rw [if_neg hkey, ih]
      have hsame : (key.1 < bands ∧ hashBand (band e.1 rows key.1) = key.2) ↔
          (key.1 < bands+1 ∧ hashBand (band e.1 rows key.1) = key.2) := by
        constructor
        · exact fun h => ⟨by omega, h.2⟩
        · rintro ⟨hlt, hhash⟩
          refine ⟨?_, hhash⟩
          by_contra hge
          have hlast : key.1 = bands := by omega
          exact hkey (Prod.ext hlast (by rw [← hhash, hlast]))
      exact congrArg _ (if_congr hsame rfl rfl)

theorem fillBuckets_get (signatures : List (List ℕ)) (key : ℕ × ℕ) :
    ((fillBuckets hashBand bands rows signatures).get key).getD [] =
      (List.range signatures.length).filter
        (fun i => InBucket hashBand bands rows key (signatureAt signatures i)) := by
  unfold fillBuckets
  induction signatures using List.reverseRecOn with
  | nil => rfl
  | append_singleton signatures signature ih =>
    have hbefore : ∀ i ∈ List.range signatures.length,
        signatureAt (signatures++[signature]) i = signatureAt signatures i := by
      intro i hi
      simp only [signatureAt, List.getD_eq_getElem?_getD,
        List.getElem?_append_left (List.mem_range.mp hi)]
    have hlast : signatureAt (signatures++[signature]) signatures.length = signature := by
      simp [signatureAt]
    rw [List.zipIdx_append, List.foldl_append, List.zipIdx_singleton, List.foldl_cons,
      List.foldl_nil, addSignature_get, ih, List.length_append, List.length_singleton,
      List.range_succ, List.filter_append]
    congr 1
    · exact List.filter_congr (fun i hi => by rw [hbefore i hi])
    · rw [Nat.zero_add]
      by_cases h : InBucket hashBand bands rows key signature
      · simp [hlast, h]
      · simp [hlast, h]

/-- The pairs of a bucket whose members ascend. -/
theorem mem_memberPairs {members : List ℕ} (h : members.Pairwise (· < ·)) {a b : ℕ} :
    (a,b) ∈ memberPairs members ↔ a ∈ members ∧ b ∈ members ∧ a < b := by
  induction members with
  | nil => simp [memberPairs]
  | cons m members ih =>
    obtain ⟨hm, hmembers⟩ := List.pairwise_cons.mp h
    rw [memberPairs, List.mem_append, ih hmembers, List.mem_map]
    constructor
    · rintro (⟨b', hb', heq⟩ | ⟨ha, hb, hlt⟩)
      · rw [if_pos (hm b' hb'), Prod.mk.injEq] at heq
        obtain ⟨rfl, rfl⟩ := heq
        exact ⟨List.mem_cons_self, List.mem_cons_of_mem m hb', hm b' hb'⟩
      · exact ⟨List.mem_cons_of_mem m ha, List.mem_cons_of_mem m hb, hlt⟩
    · rintro ⟨ha, hb, hlt⟩
      rcases List.mem_cons.mp ha with ha' | ha'
      · rcases List.mem_cons.mp hb with hb' | hb'
        · omega
        · exact Or.inl ⟨b, hb', by rw [if_pos (hm b hb'), ha']⟩
      · rcases List.mem_cons.mp hb with hb' | hb'
        · have hlt' := hm a ha'
          omega
        · exact Or.inr ⟨ha', hb', hlt⟩

def Shares (hashBand : List ℕ → ℕ) (bands rows : ℕ) (signatures : List (List ℕ)) (a b : ℕ) : Prop :=
  ∃ bandIdx < bands, hashBand (band (signatureAt signatures a) rows bandIdx) =
    hashBand (band (signatureAt signatures b) rows bandIdx)

theorem mem_candidatePairs {signatures : List (List ℕ)} {a b : ℕ} :
    (a,b) ∈ candidatePairs hashBand bands rows signatures ↔
      a < b ∧ b < signatures.length ∧ Shares hashBand bands rows signatures a b := by
  have hget := @fillBuckets_get hashBand bands rows signatures
  rw [candidatePairs, mem_sortOn, List.mem_dedup, List.mem_flatMap]
  constructor
  · rintro ⟨members, hmembers, hpair⟩
    obtain ⟨⟨key, members⟩, hentry, rfl⟩ := List.mem_map.mp hmembers
    have hkey := hget key
    rw [(Record.mem_entries _ key members).mp hentry, Option.getD_some] at hkey
    simp only at hpair
    rw [hkey, mem_memberPairs (List.Pairwise.filter _ (List.pairwise_lt_range))] at hpair
    obtain ⟨ha, hb, hlt⟩ := hpair
    have ha' := of_decide_eq_true (List.mem_filter.mp ha).2
    have hb' := of_decide_eq_true (List.mem_filter.mp hb).2
    exact ⟨hlt, List.mem_range.mp (List.mem_filter.mp hb).1, key.1, ha'.1, ha'.2.trans hb'.2.symm⟩
  · rintro ⟨hlt, hb, bandIdx, hband, hhash⟩
    have hkey := hget (bandIdx,hashBand (band (signatureAt signatures b) rows bandIdx))
    have hmem : ∀ i < signatures.length, hashBand (band (signatureAt signatures i) rows bandIdx) =
        hashBand (band (signatureAt signatures b) rows bandIdx) →
          i ∈ ((fillBuckets hashBand bands rows signatures).get
            (bandIdx,hashBand (band (signatureAt signatures b) rows bandIdx))).getD [] := by
      intro i hi hi'
      rw [hkey]
      exact List.mem_filter.mpr ⟨List.mem_range.mpr hi, decide_eq_true ⟨hband, hi'⟩⟩
    have ha := hmem a (hlt.trans hb) hhash
    have hb' := hmem b hb rfl
    rcases hbucket : (fillBuckets hashBand bands rows signatures).get
        (bandIdx,hashBand (band (signatureAt signatures b) rows bandIdx)) with _ | members
    · rw [hbucket] at ha
      cases ha
    · rw [hbucket, Option.getD_some] at ha hb' hkey
      refine ⟨members, Record.mem_values _ _ _ hbucket, (mem_memberPairs ?_).mpr ⟨ha, hb', hlt⟩⟩
      rw [hkey]
      exact List.Pairwise.filter _ List.pairwise_lt_range

theorem candidatePairs_sorted (signatures : List (List ℕ)) :
    (candidatePairs hashBand bands rows signatures).Pairwise (fun p q => toLex p < toLex q) := by
  have hle := sortOn_pairwise (fun p : ℕ × ℕ => toLex p)
    ((fillBuckets hashBand bands rows signatures).values.flatMap memberPairs).dedup
  have hne : (candidatePairs hashBand bands rows signatures).Pairwise (· ≠ ·) :=
    (sortOn_perm _ _).nodup_iff.mpr (List.nodup_dedup _)
  refine (hle.and hne).imp (fun {p q} h => ?_)
  exact lt_of_le_of_ne h.1 (fun he => h.2 (toLex_inj.mp he))

end Buckets

section Kernel

variable {similarity : ℕ → ℕ → Option ℚ} {threshold : ℚ} {n : ℕ}

def passes (similarity : ℕ → ℕ → Option ℚ) (threshold : ℚ) (a b : ℕ) : Bool :=
  atLeast threshold (similarity a b)

theorem follow_free {d : ℕ → Option ℕ} {fuel a c : ℕ} (h : follow d fuel a = some c) :
    d c = none := by
  induction fuel generalizing a with
  | zero => cases h
  | succ fuel ih =>
    rw [follow] at h
    rcases ha : d a with _ | parent
    · rw [ha] at h
      obtain rfl := Option.some.inj h
      exact ha
    · rw [ha] at h
      exact ih h

theorem follow_le {d : ℕ → Option ℕ} (hd : ∀ b c, d b = some c → c < b) {fuel a c : ℕ}
    (h : follow d fuel a = some c) : c ≤ a := by
  induction fuel generalizing a with
  | zero => cases h
  | succ fuel ih =>
    rw [follow] at h
    rcases ha : d a with _ | parent
    · rw [ha] at h
      obtain rfl := Option.some.inj h
      exact le_rfl
    · rw [ha] at h
      exact (ih h).trans (hd a parent ha).le

theorem follow_represents {test : ℕ → ℕ → Bool} {pairs : List (ℕ × ℕ)} {d : ℕ → Option ℕ}
    (h : Marked test pairs d) (hn : 0 < n) : Represents (fun d a => follow d n a) d where
  free _ _ hc := follow_free hc
  le _ _ hc := follow_le h.before hc
  self a ha := by
    obtain ⟨fuel, rfl⟩ := Nat.exists_eq_succ_of_ne_zero hn.ne'
    rw [follow, ha]

/-- Marks point to unmarked chunks, so that two steps are enough. -/
theorem follow_ends {test : ℕ → ℕ → Bool} {pairs : List (ℕ × ℕ)} {d : ℕ → Option ℕ}
    (h : Marked test pairs d) (hn : 2 ≤ n) (a : ℕ) : ∃ c, follow d n a = some c := by
  obtain ⟨fuel, rfl⟩ := Nat.exists_eq_add_of_le' hn
  rw [follow]
  rcases ha : d a with _ | parent
  · exact ⟨a, rfl⟩
  · simp only
    rw [follow, h.free a parent ha]
    exact ⟨parent, rfl⟩

theorem verify_run {pairs : List (ℕ × ℕ)} (hn : pairs ≠ [] → 2 ≤ n)
    (hsorted : pairs.Pairwise (fun p q => toLex p < toLex q)) (hlt : ∀ p ∈ pairs, p.1 < p.2) :
    verify similarity threshold n pairs (fun _ => none) =
      some (pairs.foldl (mark (passes similarity threshold) (fun d a => follow d n a))
        (fun _ => none)) := by
  have hfrom : ∀ (rest done : List (ℕ × ℕ)), done++rest = pairs →
      verify similarity threshold n rest
        (done.foldl (mark (passes similarity threshold) (fun d a => follow d n a)) (fun _ => none)) =
          some (pairs.foldl (mark (passes similarity threshold) (fun d a => follow d n a))
            (fun _ => none)) := by
    intro rest
    induction rest with
    | nil =>
      intro done hdone
      rw [List.append_nil] at hdone
      rw [verify, hdone]
    | cons p rest ih =>
      intro done hdone
      obtain ⟨a, b⟩ := p
      have hnext := ih (done++[(a,b)]) (by rw [List.append_assoc]; exact hdone)
      have htwo : 2 ≤ n := hn (by rw [← hdone]; simp)
      have hmarked : Marked (passes similarity threshold) done (done.foldl
          (mark (passes similarity threshold) (fun d a => follow d n a)) (fun _ => none)) := by
        rw [← hdone, List.pairwise_append] at hsorted
        exact marked_run hsorted.1 (fun q hq => hlt q (hdone ▸ List.mem_append_left _ hq))
          (fun _ _ h => follow_represents h (by omega))
      obtain ⟨c, hc⟩ := follow_ends hmarked htwo a
      rw [List.foldl_append, List.foldl_cons, List.foldl_nil, mark] at hnext
      simp only [hc] at hnext
      rw [verify, hc]
      by_cases hb : (done.foldl (mark (passes similarity threshold) (fun d a => follow d n a))
          (fun _ => none) b).isSome = true
      · rw [if_pos hb] at hnext ⊢
        exact hnext
      · rw [if_neg hb] at hnext ⊢
        exact hnext
  exact hfrom pairs [] rfl

end Kernel

section Fallback

variable {signatures : List (List ℕ)} {threshold : ℚ} {numPerm : ℕ}

def unmarked (d : ℕ → Option ℕ) (a : ℕ) : Option ℕ := if d a = none then some a else none

theorem unmarked_represents (d : ℕ → Option ℕ) : Represents unmarked d where
  free a c h := by
    unfold unmarked at h
    split_ifs at h with ha
    obtain rfl := Option.some.inj h
    exact ha
  le a c h := by
    unfold unmarked at h
    split_ifs at h
    exact (Option.some.inj h).ge
  self a h := if_pos h

def allPairs (n : ℕ) : List (ℕ × ℕ) :=
  (List.range n).flatMap (fun i => (List.range' (i+1) (n-(i+1))).map (fun j => (i,j)))

theorem mem_allPairs {n a b : ℕ} : (a,b) ∈ allPairs n ↔ a < b ∧ b < n := by
  simp only [allPairs, List.mem_flatMap, List.mem_range, List.mem_map, List.mem_range'_1,
    Prod.mk.injEq]
  constructor
  · rintro ⟨i, hi, j, hj, rfl, rfl⟩
    omega
  · rintro ⟨hab, hb⟩
    exact ⟨a, by omega, b, by omega, rfl, rfl⟩

theorem allPairs_sorted (n : ℕ) : (allPairs n).Pairwise (fun p q => toLex p < toLex q) := by
  rw [allPairs, List.pairwise_flatMap]
  constructor
  · intro i _
    rw [List.pairwise_map]
    refine (List.pairwise_lt_range' ..).imp (fun {j j'} h => ?_)
    exact Prod.Lex.toLex_lt_toLex.mpr (Or.inr ⟨rfl, h⟩)
  · refine List.pairwise_lt_range.imp (fun {i i'} h => ?_)
    intro p hp q hq
    obtain ⟨j, _, rfl⟩ := List.mem_map.mp hp
    obtain ⟨j', _, rfl⟩ := List.mem_map.mp hq
    exact Prod.Lex.toLex_lt_toLex.mpr (Or.inl h)

theorem mark_marked {test : ℕ → ℕ → Bool} {d : ℕ → Option ℕ} {i : ℕ} (h : (d i).isSome = true)
    (js : List ℕ) : (js.map (fun j => (i,j))).foldl (mark test unmarked) d = d := by
  induction js with
  | nil => rfl
  | cons j js ih =>
    have hnone : unmarked d i = none := if_neg (fun hd => by rw [hd] at h; cases h)
    rw [List.map_cons, List.foldl_cons]
    have hsame : mark test unmarked d (i,j) = d := by
      rw [mark]
      simp only [hnone, ite_self]
    rw [hsame, ih]

theorem compareFrom_run {i : ℕ} (hnum : numPerm ≠ 0) {test : ℕ → ℕ → Bool}
    (htest : ∀ a b, test a b = decide (threshold ≤
      (matching (signatureAt signatures a) (signatureAt signatures b) : ℚ)/numPerm))
    (js : List ℕ) : ∀ d : ℕ → Option ℕ, d i = none → i ∉ js →
      compareFrom signatures threshold numPerm i js d =
          some ((js.map (fun j => (i,j))).foldl (mark test unmarked) d) := by
  induction js with
  | nil => exact fun d _ _ => rfl
  | cons j js ih =>
    intro d hi hij
    rw [List.mem_cons, not_or] at hij
    rw [compareFrom, List.map_cons, List.foldl_cons, mark]
    by_cases hj : (d j).isSome = true
    · rw [if_pos hj, if_pos hj]
      exact ih d hi hij.2
    · have hrep : unmarked d i = some i := if_pos hi
      rw [if_neg hj, if_neg hj, if_neg hnum]
      simp only [hrep, htest, decide_eq_true_eq]
      refine ih _ ?_ hij.2
      split_ifs
      · rw [Function.update_of_ne hij.1, hi]
      · exact hi

theorem compareAll_run (hnum : numPerm ≠ 0) {test : ℕ → ℕ → Bool}
    (htest : ∀ a b, test a b = decide (threshold ≤
      (matching (signatureAt signatures a) (signatureAt signatures b) : ℚ)/numPerm))
    (is : List ℕ) : ∀ d : ℕ → Option ℕ, compareAll signatures threshold numPerm is d =
      some ((is.flatMap (fun i => (List.range' (i+1) (signatures.length-(i+1))).map
        (fun j => (i,j)))).foldl (mark test unmarked) d) := by
  induction is with
  | nil => exact fun d => rfl
  | cons i is ih =>
    intro d
    rw [compareAll, List.flatMap_cons, List.foldl_append]
    by_cases hi : (d i).isSome = true
    · rw [if_pos hi, mark_marked hi]
      exact ih d
    · have hi' : d i = none := Option.not_isSome_iff_eq_none.mp hi
      have hout : i ∉ List.range' (i+1) (signatures.length-(i+1)) := by
        rw [List.mem_range'_1]
        omega
      rw [if_neg hi, compareFrom_run hnum htest _ d hi' hout, Option.bind_some]
      exact ih _

/-- Without permutations the first comparison divides by zero. -/
theorem compareAll_zero (h : 2 ≤ signatures.length) :
    compareAll signatures threshold 0 (List.range signatures.length) (fun _ => none) = none := by
  obtain ⟨m, hm⟩ := Nat.exists_eq_add_of_le' h
  rw [hm, List.range_succ_eq_map, compareAll, hm]
  simp [List.range'_succ, compareFrom]

end Fallback

/-- Each marked chunk points to an earlier, unmarked one that is similar enough,
and no two unmarked chunks that are compared are similar enough. -/
structure Star (similarity : ℕ → ℕ → Option ℚ) (threshold : ℚ) (compared : ℕ → ℕ → Prop) (n : ℕ)
    (result : List (ℕ × Option ℕ)) : Prop where
  each : result.map Prod.fst = List.range n
  marked : ∀ b a, (b,some a) ∈ result → a < b ∧ (a,none) ∈ result ∧
    ∃ sim, similarity a b = some sim ∧ threshold ≤ sim
  unmarked : ∀ a b, (a,none) ∈ result → (b,none) ∈ result → a < b → compared a b →
    ∀ sim, similarity a b = some sim → sim < threshold

theorem star_of_marked {similarity : ℕ → ℕ → Option ℚ} {threshold : ℚ} {compared : ℕ → ℕ → Prop}
    {n : ℕ} {test : ℕ → ℕ → Bool} {pairs : List (ℕ × ℕ)} {d : ℕ → Option ℕ}
    (h : Marked test pairs d)
    (htest : ∀ a b, a < n → b < n → test a b = passes similarity threshold a b)
    (hpairs : ∀ a b, a < b → b < n → compared a b → (a,b) ∈ pairs) :
    Star similarity threshold compared n ((List.range n).map (fun i => (i,d i))) := by
  have hmem : ∀ i m, (i,m) ∈ (List.range n).map (fun i => (i,d i)) ↔ i < n ∧ d i = m := by
    intro i m
    rw [List.mem_map]
    constructor
    · rintro ⟨i', hi', heq⟩
      rw [Prod.mk.injEq] at heq
      obtain ⟨rfl, rfl⟩ := heq
      exact ⟨List.mem_range.mp hi', rfl⟩
    · rintro ⟨hi, rfl⟩
      exact ⟨i, List.mem_range.mpr hi, rfl⟩
  refine ⟨?_, fun b a hba => ?_, fun a b ha hb hlt hcompared sim hsim => ?_⟩
  · rw [List.map_map]
    exact List.map_id _
  · obtain ⟨hb, hd⟩ := (hmem b (some a)).mp hba
    have hlt := h.before b a hd
    refine ⟨hlt, (hmem a none).mpr ⟨hlt.trans hb, h.free b a hd⟩, ?_⟩
    have hpass := h.passed b a hd
    rw [htest a b (hlt.trans hb) hb, passes] at hpass
    rcases hsim : similarity a b with _ | sim
    · rw [hsim] at hpass
      cases hpass
    · rw [hsim] at hpass
      exact ⟨sim, rfl, of_decide_eq_true hpass⟩
  · obtain ⟨ha, ha'⟩ := (hmem a none).mp ha
    obtain ⟨hb, hb'⟩ := (hmem b none).mp hb
    have hfail := h.failed a b (hpairs a b hlt hb hcompared) ha' hb'
    rw [htest a b ha hb, passes, hsim] at hfail
    exact not_le.mp (of_decide_eq_false hfail)

theorem star_nil (similarity : ℕ → ℕ → Option ℚ) (threshold : ℚ) (compared : ℕ → ℕ → Prop) :
    Star similarity threshold compared 0 [] where
  each := rfl
  marked _ _ h := absurd h List.not_mem_nil
  unmarked _ _ h := absurd h List.not_mem_nil

theorem kernel_star (hashBand : List ℕ → ℕ) (diff : ℕ → ℚ) (threshold : ℚ) (numPerm : ℕ)
    (signatures : List (List ℕ)) : ∃ result,
      deduplicateChunksInner hashBand diff threshold numPerm signatures = some result ∧
        Star (similarity signatures) threshold (Shares hashBand (optimalBands diff numPerm)
          (numPerm/optimalBands diff numPerm) signatures) signatures.length result := by
  simp only [deduplicateChunksInner]
  split_ifs with hn
  · rw [hn]
    exact ⟨[], rfl, star_nil _ _ _⟩
  · have hsorted := @candidatePairs_sorted hashBand (optimalBands diff numPerm)
      (numPerm/optimalBands diff numPerm) signatures
    have hlt : ∀ p ∈ candidatePairs hashBand (optimalBands diff numPerm)
        (numPerm/optimalBands diff numPerm) signatures, p.1 < p.2 :=
      fun p hp => (mem_candidatePairs.mp hp).1
    have htwo : candidatePairs hashBand (optimalBands diff numPerm)
        (numPerm/optimalBands diff numPerm) signatures ≠ [] → 2 ≤ signatures.length := by
      intro hne
      obtain ⟨p, hp⟩ := List.exists_mem_of_ne_nil _ hne
      have hp' := mem_candidatePairs.mp hp
      omega
    have hmarked := @marked_run ℕ _ (passes (similarity signatures) threshold)
      (fun d a => follow d signatures.length a) _ hsorted hlt
      (fun _ _ h => follow_represents h (Nat.pos_of_ne_zero hn))
    rw [verify_run htwo hsorted hlt, Option.map_some]
    refine ⟨_, rfl, star_of_marked hmarked (fun _ _ _ _ => rfl) ?_⟩
    exact fun a b hab hb hshares => mem_candidatePairs.mpr ⟨hab, hb, hshares⟩

theorem fallback_star {numPerm : ℕ} (hnum : numPerm ≠ 0) (threshold : ℚ)
    {signatures : List (List ℕ)} (hlength : ∀ s ∈ signatures, s.length = numPerm) : ∃ result,
      _pyDeduplicateChunks threshold numPerm signatures = some result ∧
        Star (similarity signatures) threshold (fun _ _ => True) signatures.length result := by
  simp only [_pyDeduplicateChunks]
  split_ifs with hn
  · rw [hn]
    exact ⟨[], rfl, star_nil _ _ _⟩
  · rw [compareAll_run hnum (fun _ _ => rfl), Option.map_some]
    have hmarked := @marked_run ℕ _ (fun a b => decide (threshold ≤
      (matching (signatureAt signatures a) (signatureAt signatures b) : ℚ)/numPerm)) unmarked
      (allPairs signatures.length) (allPairs_sorted _) (fun p hp => (mem_allPairs.mp hp).1)
      (fun _ d _ => unmarked_represents d)
    refine ⟨_, rfl, star_of_marked hmarked (fun a b ha _ => ?_) ?_⟩
    · have hlen : (signatureAt signatures a).length = numPerm := by
        rw [signatureAt, List.getD_eq_getElem _ _ ha]
        exact hlength _ (List.getElem_mem ha)
      rw [passes, similarity, minhashSimilarity, hlen, if_neg hnum]
      rfl
    · exact fun a b hab hb _ => mem_allPairs.mpr ⟨hab, hb⟩

theorem fallback_zero (threshold : ℚ) (signatures : List (List ℕ)) :
    _pyDeduplicateChunks threshold 0 signatures =
      if signatures.length = 0 then some []
      else if signatures.length = 1 then some [(0,none)]
      else none := by
  simp only [_pyDeduplicateChunks]
  split_ifs with hn hone
  · rfl
  · rw [hone]
    simp [compareAll, compareFrom, hone]
  · rw [compareAll_zero (by omega)]
    rfl

/-- The kernel always returns a star forest over the pairs that share a bucket.
The fallback returns one over all pairs, unless it divides by zero: without
permutations, on two chunks or more. -/
theorem near_duplicates {α : Type} (chunks : List α) (threshold : ℚ) (numPerm : ℕ)
    (computeMinhash _minhash : α → Fin numPerm → ℕ) (hashBand : List ℕ → ℕ) (diff : ℕ → ℚ) :
    let rust := chunks.map (fun c => List.ofFn (computeMinhash c))
    let python := chunks.map (fun c => List.ofFn (_minhash c))
    let bands := optimalBands diff numPerm
    (∃ result, deduplicateChunksInner hashBand diff threshold numPerm rust = some result ∧
      Star (similarity rust) threshold (Shares hashBand bands (numPerm/bands) rust)
        chunks.length result) ∧
    (_pyDeduplicateChunks threshold numPerm python = none ↔
      numPerm = 0 ∧ 2 ≤ chunks.length) ∧
    ∀ result, _pyDeduplicateChunks threshold numPerm python = some result →
      Star (similarity python) threshold (fun _ _ => True) chunks.length result := by
  intro rust python bands
  have hrust : rust.length = chunks.length := List.length_map _
  have hpython : python.length = chunks.length := List.length_map _
  refine ⟨hrust ▸ kernel_star hashBand diff threshold numPerm rust, ?_⟩
  rw [← hpython]
  by_cases hnum : numPerm = 0
  · have hzero := fallback_zero threshold python
    subst hnum
    rw [hzero]
    split_ifs with hn hone
    · rw [hn]
      refine ⟨by simp, fun result hresult => ?_⟩
      obtain rfl := Option.some.inj hresult
      exact star_nil _ _ _
    · rw [hone]
      refine ⟨by simp, fun result hresult => ?_⟩
      obtain rfl := Option.some.inj hresult
      refine ⟨rfl, fun b a h => ?_, fun a b ha hb hlt => ?_⟩
      · simp at h
      · simp only [List.mem_singleton, Prod.mk.injEq] at ha hb
        omega
    · exact ⟨⟨fun _ => ⟨rfl, by omega⟩, fun _ => rfl⟩, fun result hresult => nomatch hresult⟩
  · have hlength : ∀ s ∈ python, s.length = numPerm := by
      intro s hs
      obtain ⟨c, _, rfl⟩ := List.mem_map.mp hs
      exact List.length_ofFn
    obtain ⟨result, hresult, hstar⟩ := fallback_star hnum threshold hlength
    rw [hresult]
    refine ⟨⟨fun h => (nomatch h), fun h => absurd h.1 hnum⟩, fun result' h => ?_⟩
    exact Option.some.inj h ▸ hstar

end Uru.Accel.NearDuplicates
