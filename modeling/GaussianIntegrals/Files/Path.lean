/-
  Paths as text: names between slashes, the name at the end and the path before it, joined
  and normalised paths.
-/
import GaussianIntegrals.Text.Split

namespace GaussianIntegrals

namespace Path

/-- What follows the last slash. -/
def nameOf (p : List Char) : List Char := (p.reverse.takeWhile (· != '/')).reverse

/-- What precedes the name, without slashes at its end unless it has nothing else. -/
def parentOf (p : List Char) : List Char :=
  let before := p.reverse.dropWhile (· != '/')
  let kept := before.dropWhile (· == '/')
  if kept.isEmpty then before.reverse else kept.reverse

theorem length_parentOf_nameOf (p : List Char) :
    (parentOf p).length + (nameOf p).length ≤ p.length := by
  have h := congrArg List.length
    (List.takeWhile_append_dropWhile (p := (· != '/')) (l := p.reverse))
  have hk := (List.dropWhile_suffix (l := p.reverse.dropWhile (· != '/')) (· == '/')).length_le
  simp only [List.length_append, List.length_reverse] at h
  unfold parentOf nameOf
  simp only
  split <;> simp only [List.length_reverse] <;> omega

/-- The parent and the name of a path; slashes at the end of the path do not count. -/
def splitEnd (p : List Char) : List Char × List Char :=
  if (nameOf p).isEmpty then (parentOf (parentOf p), nameOf (parentOf p))
  else (parentOf p, nameOf p)

theorem length_splitEnd (p : List Char) :
    (splitEnd p).1.length + (splitEnd p).2.length ≤ p.length := by
  have h := length_parentOf_nameOf p
  have h' := length_parentOf_nameOf (parentOf p)
  unfold splitEnd
  split <;> simp only <;> omega

/-- A path with its name, its parent with the name of that one, and so on, as long as both a
parent and a name are left. -/
def ancestry (p : List Char) : List (String × String) :=
  (String.ofList p, String.ofList (splitEnd p).2) ::
    (if (splitEnd p).1 ≠ [] ∧ (splitEnd p).2 ≠ [] then ancestry (splitEnd p).1 else [])
termination_by p.length
decreasing_by
  rename_i h
  have := length_splitEnd p
  have := List.length_pos_iff.2 h.2
  omega

/-- The name at the end of a path. -/
def name (p : String) : String := String.ofList (nameOf p.toList)

/-- A path followed by a further one; a further path that begins with a slash stands
alone. -/
def join (dir p : String) : String :=
  if p.toList.head? = some '/' then p
  else if dir.isEmpty ∨ dir.toList.getLast? = some '/' then dir ++ p
  else dir ++ "/" ++ p

/-- One part after a normalised path, of which the last part comes first. -/
def pushPart (rooted : Bool) (done : List (List Char)) (part : List Char) : List (List Char) :=
  if part.isEmpty ∨ part = ['.'] then done
  else if part = ['.', '.'] then
    match done with
    | [] => if rooted then [] else [part]
    | last :: rest => if last = ['.', '.'] then part :: done else rest
  else part :: done

/-- The slashes that a normalised path begins with: none, one, or exactly two. -/
def leadingSlashes (p : List Char) : Nat :=
  match (p.takeWhile (· == '/')).length with
  | 0 => 0
  | 2 => 2
  | _ => 1

/-- A path without empty parts, without `.`, and with `..` only where nothing precedes it. -/
def normalized (p : String) : String :=
  let slashes := leadingSlashes p.toList
  let kept := ((Text.splitAt '/' p.toList).foldl (pushPart (slashes ≠ 0)) []).reverse
  let text := String.ofList (List.replicate slashes '/') ++ "/".intercalate (kept.map String.ofList)
  if text.isEmpty then "." else text

end Path

end GaussianIntegrals
