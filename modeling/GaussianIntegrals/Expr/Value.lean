/-
  The value of an expression over any arithmetic: exact rational numbers, or arrays of
  machine floats. An alias has the value given for its name, if there is one, and the value
  of its target otherwise.
-/
import GaussianIntegrals.Expr.Basic
import GaussianIntegrals.Text.Quoted

namespace GaussianIntegrals

/-- Why an expression has no value. -/
inductive EvalError where
  /-- No value is given for a symbol. -/
  | unbound (name : String)
  /-- A constant is too large for the arithmetic. -/
  | tooLarge
  /-- Zero is raised to a negative power. -/
  | zeroDivision
  /-- Two arrays do not fit together. -/
  | shapes (left right : List Nat)
  /-- An array stands where one number is needed. -/
  | notScalar
  deriving DecidableEq, Repr

/-- A shape as lengths in parentheses; a single length is followed by a comma. -/
def shapeText : List Nat → String
  | [n] => s!"({n},)"
  | ns => "(" ++ ",".intercalate (ns.map toString) ++ ")"

/-- The wording of an evaluation error; an unbound name is shown quoted. -/
def EvalError.message : EvalError → String
  | .unbound name => Text.quote name
  | .tooLarge => "integer division result too large for a float"
  | .zeroDivision => "division by zero"
  | .shapes left right =>
    s!"operands could not be broadcast together with shapes {shapeText left} {shapeText right} "
  | .notScalar => "setting an array element with a sequence."

/-- The operations that the value of an expression is made of. -/
structure Arithmetic (K : Type) where
  zero : K
  one : K
  ofRat : Rat → Except EvalError K
  add : K → K → Except EvalError K
  mul : K → K → Except EvalError K
  power : K → Int → Except EvalError K

namespace Expr

/-- The value that a valuation gives to a name. -/
def lookup {K : Type} (values : String → Option K) (name : String) : Except EvalError K :=
  match values name with
  | some x => .ok x
  | none => .error (.unbound name)

mutual
/-- The value of an expression under a valuation of its names. -/
def eval {K : Type} (A : Arithmetic K) (values : String → Option K) : Expr → Except EvalError K
  | .const v => A.ofRat v
  | .symbol n => lookup values n
  | .power b k => do A.power (← lookup values b) k
  | .alias n t =>
    match values n with
    | some x => .ok x
    | none => t.eval A values
  | .group b => b.eval A values
  | .product fs => evalProduct A values A.one fs
  | .sum ts => evalSum A values A.zero ts

/-- A value times the values of further factors, from the left. -/
def evalProduct {K : Type} (A : Arithmetic K) (values : String → Option K) (acc : K) :
    List Expr → Except EvalError K
  | [] => .ok acc
  | f :: fs => do
    let x ← f.eval A values
    let y ← A.mul acc x
    evalProduct A values y fs

/-- A value plus the values of further terms, from the left. -/
def evalSum {K : Type} (A : Arithmetic K) (values : String → Option K) (acc : K) :
    List Expr → Except EvalError K
  | [] => .ok acc
  | t :: ts => do
    let x ← t.eval A values
    let y ← A.add acc x
    evalSum A values y ts
end

/-- A rational number to an integer power; zero has no negative power. -/
def ratPower (x : Rat) (k : Int) : Except EvalError Rat :=
  if x = 0 ∧ k < 0 then .error .zeroDivision else .ok (Rat.zpow x k)

/-- Exact arithmetic on rational numbers. -/
def exactArithmetic : Arithmetic Rat where
  zero := 0
  one := 1
  ofRat := .ok
  add x y := .ok (x + y)
  mul x y := .ok (x * y)
  power := ratPower

/-- The exact value of an expression. -/
def exactValue (values : String → Option Rat) (e : Expr) : Except EvalError Rat :=
  e.eval exactArithmetic values

end Expr

end GaussianIntegrals
