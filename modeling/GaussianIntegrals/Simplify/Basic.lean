/-
  Rules on expressions: a rule acts on every part of an expression, the parts of a part
  first, and a list of rules acts one after another.
-/
import GaussianIntegrals.Expr.Basic

namespace GaussianIntegrals

/-- A named rule. `step?` gives the replacement of one expression whose parts have been
replaced already, or nothing where the rule does not apply. -/
structure Rule where
  name : String
  step? : Expr → Option Expr

namespace Expr

mutual
/-- Replaces every part of an expression to which a step applies, innermost first. The target
of an alias is left as it is. -/
def replace (step? : Expr → Option Expr) : Expr → Expr
  | .const v => (step? (.const v)).getD (.const v)
  | .symbol n => (step? (.symbol n)).getD (.symbol n)
  | .power b k => (step? (.power b k)).getD (.power b k)
  | .alias n t => (step? (.alias n t)).getD (.alias n t)
  | .group b => let e := .group (b.replace step?); (step? e).getD e
  | .product fs => let e := .product (replaceAll step? fs); (step? e).getD e
  | .sum ts => let e := .sum (replaceAll step? ts); (step? e).getD e

/-- `replace` through a list of expressions. -/
def replaceAll (step? : Expr → Option Expr) : List Expr → List Expr
  | [] => []
  | e :: es => e.replace step? :: replaceAll step? es
end

theorem replaceAll_eq_map (step? : Expr → Option Expr) (es : List Expr) :
    replaceAll step? es = es.map (replace step?) := by
  induction es with
  | nil => rfl
  | cons e es ih => simp [replaceAll, ih]

end Expr

namespace Rule

/-- The expression with the rule applied everywhere. -/
def apply (r : Rule) (e : Expr) : Expr := e.replace r.step?

/-- The rule applies somewhere. An innermost part where it applies is met before anything
around it has changed, so the parts of the expression as it stands decide this. -/
def fires (r : Rule) (e : Expr) : Bool := e.walk.any fun part => (r.step? part).isSome

end Rule

/-- Applies rules in order. -/
def simplifyWith (rules : List Rule) (e : Expr) : Expr := rules.foldl (fun e r => r.apply e) e

/-- The expression before each rule, with the rule. -/
def stages : List Rule → Expr → List (Rule × Expr)
  | [], _ => []
  | r :: rs, e => (r, e) :: stages rs (r.apply e)

/-- The names of the rules that fire, in order. -/
def firedRules (rules : List Rule) (e : Expr) : List String :=
  ((stages rules e).filter fun s => s.1.fires s.2).map (·.1.name)

theorem simplifyWith_nil (e : Expr) : simplifyWith [] e = e := rfl

theorem simplifyWith_cons (r : Rule) (rs : List Rule) (e : Expr) :
    simplifyWith (r :: rs) e = simplifyWith rs (r.apply e) := rfl

end GaussianIntegrals
