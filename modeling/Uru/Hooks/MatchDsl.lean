import Uru.Filter.Oracle
import Uru.Lib.Formula
import Uru.Lib.Pattern

/-!
# The pattern language of semantic hooks

A pattern is a JSON object. Each of its keys must match, a key matches when one
of its entries does, and `$or` matches when one of its branches does. An entry
is a literal or an operator object. The evaluator reads from left to right and
fails where Python raises.
-/

set_option autoImplicit false

namespace Uru.Hooks.MatchDsl

open Uru.Lib Uru.Filter

/-- `str(x)`, which may raise, and `lower`. -/
structure Python where
  str : Val → Option PyStr
  lower : PyStr → PyStr
  str_text : ∀ s, str (.str s) = some s

/-- The pieces of the expression that a wildcard is translated to. -/
def compileWildcard (pattern : PyStr) : List (Piece CodePoint) :=
  pattern.map (fun ch =>
    if ch = point '*' then .many (fun _ => true)
    else if ch = point '?' then .one (fun _ => true)
    else .one (fun c => c = ch))

theorem newline_lt : 10 < 0x110000 := by omega

def newline : CodePoint := ⟨10, newline_lt⟩

/-- `$` accepts the end of the text, and a newline at the end. -/
def dollar (s : PyStr) : Bool := s = [] || s = [newline]

def wildcardMatch (pattern s : PyStr) : Bool := matchThen dollar (compileWildcard pattern) s

inductive TextOp
  | starts
  | ends
  | wildcard
deriving DecidableEq

def TextOp.key : TextOp → PyStr
  | starts => py "prefix"
  | ends => py "suffix"
  | wildcard => py "wildcard"

def TextOp.test : TextOp → PyStr → PyStr → Bool
  | starts, p, s => p.isPrefixOf s
  | ends, p, s => p.isSuffixOf s
  | wildcard, p, s => wildcardMatch p s

def textTest (op : TextOp) (operand value : Val) : Option Bool :=
  match value, operand with
  | .str s, .str p => some (op.test p s)
  | .str _, _ => none
  | _, _ => some false

/-- The first of some operators that an object has, with its operand. -/
def firstPresent {α : Type} (key : α → PyStr) (ops : List α) (d : Dict) : Option (α × Val) :=
  ops.findSome? (fun op => (d.lookup (key op)).map (fun x => (op,x)))

/-- `isinstance(value, (int, float)) and not isinstance(value, bool)`. -/
def numeric (v : Val) : Option NumValue := if v.isNumber then v.number else none

def hashable : Val → Bool
  | .list _ | .dict _ => false
  | _ => true

def comparison : Val → Option (NumValue → NumValue → Bool)
  | .str op =>
    if op = py ">=" then some (fun v t => t.le v)
    else if op = py "<=" then some (fun v t => v.le t)
    else if op = py ">" then some (fun v t => t.lt v)
    else if op = py "<" then some (fun v t => v.lt t)
    else if op = py "=" then some (fun v t => v.eq t)
    else if op = py "!=" then some (fun v t => !v.eq t)
    else none
  | _ => none

/-- The loop over the pairs. Looking up an unhashable operator raises. -/
def numericPairs (value : NumValue) : List Val → Option Bool
  | op::threshold::ops =>
    if hashable op then
      match comparison op, numeric threshold with
      | some test, some t => if test value t then numericPairs value ops else some false
      | _, _ => some false
    else none
  | _ => some true

def numericCompare (value : Val) (ops : List Val) : Option Bool :=
  match numeric value with
  | none => some false
  | some v => if ops.length%2 = 0 then numericPairs v ops else some false

def innerForms : List TextOp := [.starts,.ends,.wildcard]

def anythingBut (value : Val) : Val → Option Bool
  | .list xs => some (!xs.any (fun x => pyEq x value))
  | .dict spec =>
    match firstPresent TextOp.key innerForms spec with
    | some (op,x) => (textTest op x value).map (fun b => !b)
    | none => some false
  | spec => some (!pyEq value spec)

def containsAll (value : Val) : Val → Option Bool
  | .list needles =>
    match value with
    | .list vs => some (needles.all (fun x => vs.any (fun v => pyEq v x)))
    | _ => some false
  | _ => some false

inductive Operator
  | text (op : TextOp)
  | equalsIgnoreCase
  | numeric
  | anythingBut
  | containsAll
deriving DecidableEq

def Operator.key : Operator → PyStr
  | text op => op.key
  | equalsIgnoreCase => py "equals-ignore-case"
  | numeric => py "numeric"
  | anythingBut => py "anything-but"
  | containsAll => py "contains-all"

/-- In the order of the tests. -/
def operators : List Operator :=
  [.text .starts,.text .ends,.equalsIgnoreCase,.text .wildcard,.numeric,.anythingBut,.containsAll]

section Evaluate

variable (P : Python)

def evaluatePresent (op : Operator) (operand value : Val) : Option Bool :=
  match op with
  | .text op => textTest op operand value
  | .equalsIgnoreCase =>
    match value with
    | .str s => (P.str operand).map (fun t => P.lower s = P.lower t)
    | _ => some false
  | .numeric =>
    match operand with
    | .list ops => numericCompare value ops
    | _ => some false
  | .anythingBut => anythingBut value operand
  | .containsAll => containsAll value operand

def evaluateOperator (opDict : Dict) (value : Option Val) : Option Bool :=
  match opDict.lookup (py "exists") with
  | some want => some (value.isSome == want.truthy)
  | none =>
    match value with
    | none => some false
    | some v =>
      match firstPresent Operator.key operators opDict with
      | some (op,x) => evaluatePresent P op x v
      | none => some false

def evaluateEntry (value : Option Val) : Val → Option Bool
  | .dict opDict => evaluateOperator P opDict value
  | entry => some (value.any (fun v => pyEq v entry))

def matchKey (valuePatterns : List Val) (value : Option Val) : Option Bool :=
  Formula.anyOf (valuePatterns.map (evaluateEntry P value))

/-- A value that is not a list is an only entry. -/
def entries : Val → List Val
  | .list es => es
  | v => [v]

variable (eventData : Dict)

def «matches» : Val → Option Bool
  | .dict kvs => items kvs
  | pattern => if pattern.truthy then none else some true
where
  items : Dict → Option Bool
    | [] => some true
    | (k,v)::kvs =>
      (if k = py "$or" then or_ v else matchKey P (entries v) (eventData.lookup k)).bind
        (fun b => if b then items kvs else some false)
  or_ : Val → Option Bool
    | .list bs => branches bs
    | _ => some false
  branches : List Val → Option Bool
    | [] => some false
    | b::bs => («matches» b).bind (fun here => if here then some true else branches bs)

end Evaluate

end Uru.Hooks.MatchDsl
