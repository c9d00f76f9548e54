import Mathlib.Data.Int.Log
import Mathlib.Data.Rat.Floor
import Uru.Filter.Time

/-!
# Operand and metadata values

The values that a filter operand or a metadata blob can hold: what JSON can
hold, and datetimes. A finite float is carried as the text that Python prints
for it, which is the shortest text that reads back as the same float. Its
value is the double nearest to that decimal. A dict is the list of its items
in insertion order.
-/

set_option autoImplicit false

namespace Uru.Filter

def splitDigits (s : PyStr) : PyStr × PyStr := (s.takeWhile isDigit,s.dropWhile isDigit)

def digitsValue (s : PyStr) : ℕ := s.foldl (fun n c => 10*n+(c.val-48)) 0

def readExponent : PyStr → Option ℤ
  | [] => some 0
  | c::sign::t =>
    if c = point 'e' ∧ t ≠ [] ∧ t.all isDigit then
      if sign = point '-' then some (-(digitsValue t))
      else if sign = point '+' then some (digitsValue t)
      else none
    else none
  | _ => none

/-- The decimal that a float text denotes. The texts of floats have a point or
an exponent, so that none of them is the text of an integer. -/
def readDecimal (s : PyStr) : Option ℚ := do
  let neg := s.head? = some (point '-')
  let (whole,t) := splitDigits (if neg then s.tail else s)
  if whole = [] ∨ t = [] then none
  let pointed := t.head? = some (point '.')
  let (frac,t) := if pointed then splitDigits t.tail else ([],t)
  if pointed ∧ frac = [] then none
  let e ← readExponent t
  let q : ℚ := (digitsValue (whole++frac):ℚ)*(10:ℚ)^(e-frac.length)
  some (if neg then -q else q)

structure FloatText where
  text : PyStr
  reads : (readDecimal text).isSome

def roundEven (q : ℚ) : ℤ :=
  let n := ⌊q⌋
  let r := q-n
  if r < 1/2 then n else if 1/2 < r then n+1 else if n%2 = 0 then n else n+1

def toDouble (q : ℚ) : ℚ :=
  if q = 0 then 0
  else
    let e := max (Int.log 2 |q|-52) (-1074)
    roundEven (q/(2:ℚ)^e)*(2:ℚ)^e

inductive PyFloat
  | finite (t : FloatText)
  | inf (neg : Bool)
  | nan

inductive NumValue
  | fin (q : ℚ)
  | inf (neg : Bool)
  | nan
deriving DecidableEq

def FloatText.decimal (t : FloatText) : ℚ := (readDecimal t.text).getD 0

def PyFloat.value : PyFloat → NumValue
  | .finite t => .fin (toDouble t.decimal)
  | .inf neg => .inf neg
  | .nan => .nan

def NumValue.eq : NumValue → NumValue → Bool
  | .fin p, .fin q => p = q
  | .inf a, .inf b => a = b
  | _, _ => false

def NumValue.lt : NumValue → NumValue → Bool
  | .fin p, .fin q => p < q
  | .fin _, .inf neg => !neg
  | .inf neg, .fin _ => neg
  | .inf a, .inf b => a && !b
  | _, _ => false

def NumValue.le (a b : NumValue) : Bool := a.lt b || a.eq b

inductive Val
  | null
  | bool (b : Bool)
  | int (i : ℤ)
  | float (f : PyFloat)
  | str (s : PyStr)
  | datetime (d : DateTime)
  | list (xs : List Val)
  | dict (kvs : List (PyStr × Val))

namespace Val

theorem ind {P : Val → Prop} (null : P null) (bool : ∀ b, P (bool b)) (int : ∀ i, P (int i))
    (float : ∀ f, P (float f)) (str : ∀ s, P (str s)) (datetime : ∀ d, P (datetime d))
    (list : ∀ xs, (∀ x ∈ xs, P x) → P (list xs))
    (dict : ∀ kvs, (∀ kv ∈ kvs, P kv.2) → P (dict kvs)) : ∀ v, P v
  | .null => null
  | .bool b => bool b
  | .int i => int i
  | .float f => float f
  | .str s => str s
  | .datetime d => datetime d
  | .list xs => list xs (goList xs)
  | .dict kvs => dict kvs (goDict kvs)
where
  goList : ∀ xs : List Val, ∀ x ∈ xs, P x
    | [], _, h => absurd h List.not_mem_nil
    | y::ys, x, h => (List.mem_cons.mp h).elim
        (fun he => he ▸ ind null bool int float str datetime list dict y) (goList ys x)
  goDict : ∀ kvs : List (PyStr × Val), ∀ kv ∈ kvs, P kv.2
    | [], _, h => absurd h List.not_mem_nil
    | (_,y)::ys, kv, h => (List.mem_cons.mp h).elim
        (fun he => he ▸ ind null bool int float str datetime list dict y) (goDict ys kv)

end Val

abbrev Dict := List (PyStr × Val)

def keys {α : Type} (kvs : List (PyStr × α)) : List PyStr := kvs.map Prod.fst

end Uru.Filter
