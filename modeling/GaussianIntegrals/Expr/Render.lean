/-
  The text of an expression: factors joined with `*`, terms joined with ` + ` or, where a
  term's text begins with a minus sign, with ` - `. Only sums get parentheses of their own.
-/
import GaussianIntegrals.Expr.Basic
import GaussianIntegrals.Number.Literal

namespace GaussianIntegrals.Expr

open GaussianIntegrals.Number

/-- Parentheses around a text. -/
def parenthesized (s : String) : String := "(" ++ s ++ ")"

/-- A symbol with its exponent; a negative exponent has parentheses of its own. -/
def powerText (base : String) (exponent : Int) : Except Text.IntegerError String := do
  let text ← Text.writeInt exponent
  .ok (parenthesized (base ++ "**" ++ (if exponent < 0 then parenthesized text else text)))

/-- The parts of a product; a leading -1 becomes a bare minus sign. -/
def productText (leadsMinusOne : Bool) (parts : List String) : String :=
  match parts with
  | [] => "1"
  | [part] => part
  | first :: rest =>
    if leadsMinusOne then "-" ++ "*".intercalate rest else "*".intercalate (first :: rest)

/-- One more term after a text; the term's leading minus sign becomes a binary one. -/
def appendTerm (text term : String) : String :=
  match term.toList with
  | '-' :: rest => text ++ " - " ++ String.ofList rest
  | _ => text ++ " + " ++ term

/-- The terms of a sum. -/
def sumText : List String → String
  | [] => "0"
  | first :: rest => rest.foldl appendTerm first

/-- The first factor is the constant -1. -/
def leadsMinusOne : List Expr → Bool
  | .const v :: _ => v == -1
  | _ => false

/-- The expression is a sum. -/
def isSum : Expr → Bool
  | .sum _ => true
  | _ => false

mutual
/-- The text of an expression. -/
def render : Expr → Except NumberError String
  | .const v => literal v
  | .symbol n => .ok n
  | .power b k => (powerText b k).mapError .integer
  | .alias n _ => .ok n
  | .group b => do .ok (parenthesized (← b.render))
  | .product fs => do .ok (productText (leadsMinusOne fs) (← renderParts fs))
  | .sum ts => do .ok (sumText (← renderParts ts))

/-- The texts of factors or terms, a sum among them in parentheses. -/
def renderParts : List Expr → Except NumberError (List String)
  | [] => .ok []
  | e :: es => do
    let text ← e.render
    let rest ← renderParts es
    .ok ((if e.isSum then parenthesized text else text) :: rest)
end

end GaussianIntegrals.Expr
