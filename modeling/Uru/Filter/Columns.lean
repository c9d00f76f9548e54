import Uru.Filter.Emitted
import Uru.Filter.Oracle

/-!
# System keys as nullable columns

A store keeps a system key in a nullable column of comparable values. When
the values of the column stand for the values of the records, so that
equality and order agree with those of the oracle, each clause of the oracle
has a simple answer in terms of the column: nothing equals a null, nothing is
in order with it, and the negative operators include it.
-/

set_option autoImplicit false

namespace Uru.Filter

open Uru.Lib

/-- How the values of a system key are kept in a column of type `K`. -/
structure Coding (X K : Type) [LT K] [DecidableLT K] [DecidableEq K] where
  val : X → Val
  key : X → K
  notNull : ∀ x, (val x).isNull = false
  comparable : ∀ x y, comparable (val x) (val y) = true
  eq : ∀ x y, eqAligned (val x) (val y) = some (decide (key x = key y))
  compare : ∀ op x y, aligned (pyCompare op) (val x) (val y) =
    op.holds (key x < key y) (key x = key y) (key y < key x)

def textCoding : Coding PyStr PyStr where
  val := .str
  key := id
  notNull _ := rfl
  comparable _ _ := rfl
  eq _ _ := by simp [eqAligned, aligned, pyEq]
  compare op x y := by simp [aligned, pyCompare]

theorem aware_toUtc (t : UtcTime) : t.aware.toUtc = some t := rfl

theorem utc_compare (op : Op) (u v : UtcTime) : aligned (pyCompare op) u.val v.val =
    op.holds (u.fields < v.fields) (u.fields = v.fields) (v.fields < u.fields) := by
  have hf : decide (u = v) = decide (u.fields = v.fields) :=
    decide_eq_decide.mpr ⟨congrArg _, UtcTime.fields_inj⟩
  rw [← hf]
  simp only [aligned, UtcTime.val, aware_toUtc, bind, Option.bind_some, pyCompare]
  rfl

theorem utc_eq (u v : UtcTime) : eqAligned u.val v.val = some (decide (u = v)) := by
  simp only [eqAligned, aligned, UtcTime.val, aware_toUtc, bind, Option.bind_some, pyEq]
  rfl

def isoCoding : Coding UtcTime PyStr where
  val := UtcTime.val
  key := UtcTime.isoformat
  notNull _ := rfl
  comparable _ _ := rfl
  eq u v := by
    rw [utc_eq]
    exact congrArg some (decide_eq_decide.mpr ⟨congrArg _, isoformat_inj⟩)
  compare op u v := by
    have he : decide (u.fields = v.fields) = decide (u.isoformat = v.isoformat) :=
      decide_eq_decide.mpr ⟨fun h => congrArg _ (UtcTime.fields_inj h),
        fun h => congrArg _ (isoformat_inj h)⟩
    rw [utc_compare, he]
    congr 1
    · exact decide_eq_decide.mpr (isoformat_lt u v).symm
    · exact decide_eq_decide.mpr (isoformat_lt v u).symm

section Column

variable {X K : Type} [LT K] [DecidableLT K] [DecidableEq K] (C : Coding X K)

def Coding.stored (x : Option X) : Val := (x.map C.val).getD .null

def Coding.operand (y : X) : Operand := .val (C.val y)

def Coding.operands (ys : List X) : Operand := .tuple (ys.map (fun y => .val (C.val y)))

inductive Coding.Typed : Op → Operand → Prop
  | isIn (ys : List X) : Coding.Typed .in_ (C.operands ys)
  | nin (ys : List X) : Coding.Typed .nin (C.operands ys)
  | exists_ (x : Operand) : Coding.Typed .exists_ x
  | array (ys : List X) : Coding.Typed .eq (C.operands ys)
  | null (op : Op) (h : op ∈ [Op.eq,.ne,.gt,.gte,.lt,.lte]) : Coding.Typed op (.val .null)
  | scalar (op : Op) (y : X) (h : op ∈ [Op.eq,.ne,.gt,.gte,.lt,.lte]) :
      Coding.Typed op (C.operand y)

theorem dateOperand_typed {op : Op} {x : Operand} (h : DateOperand op x) : isoCoding.Typed op x := by
  have hcmp : ∀ op : Op, op ∈ [Op.eq,.ne,.gt,.gte,.lt,.lte] →
      (x = .val .null ∨ ∃ t : UtcTime, x = .val t.val) → isoCoding.Typed op x := by
    rintro op ho (rfl | ⟨t, rfl⟩)
    · exact .null op ho
    · exact .scalar op t ho
  cases op with
  | in_ =>
    obtain ⟨ts, rfl⟩ := h
    exact .isIn ts
  | nin =>
    obtain ⟨ts, rfl⟩ := h
    exact .nin ts
  | eq | ne | gt | gte | lt | lte => exact hcmp _ (by decide) h
  | _ => exact h.elim

theorem stringOperand_typed {P : PyStr → Prop} {op : Op} {x : Operand} (h : StringOperand P op x) :
    textCoding.Typed op x := by
  cases op with
  | in_ =>
    obtain ⟨xs, rfl, _⟩ := h
    exact .isIn xs
  | nin =>
    obtain ⟨xs, rfl, _⟩ := h
    exact .nin xs
  | eq =>
    obtain rfl | ⟨s, rfl, _⟩ | ⟨xs, rfl, _⟩ := h
    · exact .null .eq (by decide)
    · exact .scalar .eq s (by decide)
    · exact .array xs
  | ne =>
    obtain rfl | ⟨s, rfl, _⟩ := h
    · exact .null .ne (by decide)
    · exact .scalar .ne s (by decide)
  | exists_ => exact .exists_ x
  | _ => exact h.elim

theorem stored_isNull (x : Option X) : (C.stored x).isNull = x.isNone := by
  cases x with
  | none => rfl
  | some x => exact C.notNull x

theorem val_ne_null (x : X) : C.val x ≠ .null := by
  intro h
  have := C.notNull x
  rw [h] at this
  cases this

def keyTest (op : Op) (k l : K) : Bool :=
  match op with
  | .eq => k = l
  | op => (op.holds (k < l) (k = l) (l < k)).getD false

attribute [local simp] compileSystemClause

theorem oracle_eq (x : Option X) (y : X) : compileSystemClause (C.stored x) .eq (C.operand y) =
    some (x.any (fun x => keyTest .eq (C.key x) (C.key y))) := by
  have hop : compileSystemClause (C.stored x) .eq (C.operand y) = systemEq (C.stored x) (C.val y) := by
    cases h : C.val y with
    | null => exact absurd h (val_ne_null C y)
    | _ => simp [Coding.operand, Operand.val, h, Atom.value]
  rw [hop, systemEq, stored_isNull]
  cases x with
  | none => rfl
  | some x => simp [Coding.stored, C.comparable, C.eq, keyTest]

theorem oracle_ne (x : Option X) (y : X) : compileSystemClause (C.stored x) .ne (C.operand y) =
    some (!x.any (fun x => keyTest .eq (C.key x) (C.key y))) := by
  have hop : compileSystemClause (C.stored x) .ne (C.operand y) = systemNe (C.stored x) (C.val y) := by
    cases h : C.val y with
    | null => exact absurd h (val_ne_null C y)
    | _ => simp [Coding.operand, Operand.val, h, Atom.value]
  rw [hop, systemNe, stored_isNull]
  cases x with
  | none => rfl
  | some x => simp [Coding.stored, C.comparable, C.eq, keyTest]

theorem oracle_range (x : Option X) (y : X) (op : Op) (h : op ∈ [Op.gt,.gte,.lt,.lte]) :
    compileSystemClause (C.stored x) op (C.operand y) =
      some (x.any (fun x => keyTest op (C.key x) (C.key y))) := by
  have hop : compileSystemClause (C.stored x) op (C.operand y) =
      systemRange op (C.stored x) (C.val y) := by
    cases hv : C.val y with
    | null => exact absurd hv (val_ne_null C y)
    | _ =>
      cases op with
      | gt | gte | lt | lte => simp [Coding.operand, Operand.val, hv, Atom.value]
      | _ => exact absurd h (by decide)
  have hk : ∀ k l : K, op.holds (k < l) (k = l) (l < k) = some (keyTest op k l) := by
    intro k l
    cases op with
    | gt | gte | lt | lte => rfl
    | _ => exact absurd h (by decide)
  rw [hop, systemRange, stored_isNull]
  cases x with
  | none => rfl
  | some x => simp [Coding.stored, C.comparable, C.compare, hk]

theorem oracle_members (x : X) (ys : List X) :
    Formula.anyOf ((ys.map C.val).map (fun v =>
      if Filter.comparable (C.val x) v then eqAligned (C.val x) v else some false)) =
      some (ys.any (fun y => keyTest .eq (C.key x) (C.key y))) := by
  have hmap : (ys.map C.val).map (fun v =>
      if Filter.comparable (C.val x) v then eqAligned (C.val x) v else some false) =
      (ys.map (fun y => keyTest .eq (C.key x) (C.key y))).map some := by
    rw [List.map_map, List.map_map]
    exact List.map_congr_left (fun y _ => by simp [C.comparable, C.eq, keyTest])
  rw [hmap, Formula.anyOf_total, List.any_map]
  rfl

theorem operands_values (ys : List X) :
    (ys.map (fun y => Atom.val (C.val y))).map Atom.value = ys.map C.val := by
  rw [List.map_map]
  rfl

theorem oracle_in (x : Option X) (ys : List X) :
    compileSystemClause (C.stored x) .in_ (C.operands ys) =
      some (x.any (fun x => ys.any (fun y => keyTest .eq (C.key x) (C.key y)))) := by
  rw [Coding.operands, compileSystemClause, operands_values, systemIn, stored_isNull]
  cases x with
  | none => rfl
  | some x => exact oracle_members C x ys

theorem oracle_nin (x : Option X) (ys : List X) :
    compileSystemClause (C.stored x) .nin (C.operands ys) =
      some (!x.any (fun x => ys.any (fun y => keyTest .eq (C.key x) (C.key y)))) := by
  rw [Coding.operands, compileSystemClause, operands_values, systemNin, stored_isNull]
  cases x with
  | none => rfl
  | some x => exact congrArg (Option.map (fun b => !b)) (oracle_members C x ys)

theorem oracle_null (x : Option X) (op : Op) (h : op ∈ [Op.eq,.ne,.gt,.gte,.lt,.lte]) :
    compileSystemClause (C.stored x) op (.val .null) =
      some (if op = .ne then x.isSome else x.isNone) := by
  cases op with
  | ne => simp [Operand.val, stored_isNull]
  | eq | gt | gte | lt | lte => simp [Operand.val, stored_isNull]
  | _ => exact absurd h (by decide)

theorem oracle_array (x : Option X) (ys : List X) :
    compileSystemClause (C.stored x) .eq (C.operands ys) = some false := rfl

theorem oracle_exists (x : Option X) (y : Operand) :
    compileSystemClause (C.stored x) .exists_ y = some y.truthy := rfl

/-- On a coded column the oracle answers every typed clause. -/
theorem oracle_answers (x : Option X) {op : Op} {y : Operand} (h : C.Typed op y) :
    ∃ b, compileSystemClause (C.stored x) op y = some b := by
  cases h with
  | isIn ys => exact ⟨_, oracle_in C x ys⟩
  | nin ys => exact ⟨_, oracle_nin C x ys⟩
  | exists_ y => exact ⟨_, oracle_exists C x y⟩
  | array ys => exact ⟨_, oracle_array C x ys⟩
  | null op hop => exact ⟨_, oracle_null C x op hop⟩
  | scalar op y hop =>
    cases op with
    | eq => exact ⟨_, oracle_eq C x y⟩
    | ne => exact ⟨_, oracle_ne C x y⟩
    | gt | gte | lt | lte => exact ⟨_, oracle_range C x y _ (by decide)⟩
    | _ => exact absurd hop (by decide)

end Column

end Uru.Filter
