/-
  Headers of the standard templates. Such a template is plain but for the switch variable and the
  code, so that it is filled in for any code that can be written, in the same way whatever is known
  of attributes (`expand_header`). A header fails for a code that is too long to be written and for
  nothing else (`branch_of_standard`).
-/
import GaussianIntegrals.Dialect
import GaussianIntegrals.Proofs.IntegerTexts

namespace GaussianIntegrals

namespace Template

section

variable {r : Reflection} {inner : List Char → Except TemplateError (List Char)}
  {fields : List (String × Value)}

/-- The characters stand for themselves in a template. -/
def IsPlain (cs : List Char) : Prop := ∀ c ∈ cs, c ≠ '\x7b' ∧ c ≠ '\x7d'

instance (cs : List Char) : Decidable (IsPlain cs) := List.decidableBAll _ cs

theorem expandWith_append {cs : List Char} (h : IsPlain cs) (rest : List Char) :
    expandWith r inner fields (cs ++ rest) = (expandWith r inner fields rest).map (cs ++ ·) := by
  induction cs with
  | nil => cases hrest : expandWith r inner fields rest <;> simp [hrest, Except.map]
  | cons c cs ih =>
    rw [IsPlain, List.forall_mem_cons] at h
    rw [List.cons_append, expandWith.eq_def]
    simp only [if_neg h.1.1, if_neg h.1.2, ih h.2]
    cases expandWith r inner fields rest <;> rfl

theorem expandWith_of_isPlain {cs : List Char} (h : IsPlain cs) :
    expandWith r inner fields cs = .ok cs := by
  have happend : expandWith r inner fields (cs ++ []) = _ := expandWith_append h []
  rw [List.append_nil, expandWith.eq_def r inner fields []] at happend
  simpa [Except.map] using happend

/-- A field without a specification. -/
theorem expandWith_field {name : List Char} {v : Value} {rest : List Char}
    (hname : name.head? ≠ some '\x7b')
    (hfield : readField (name ++ '\x7d' :: rest) =
      .ok (⟨name, none, [], false⟩, name.length + 1))
    (hvalue : fieldValue r fields name = .ok v) :
    expandWith r inner fields ('\x7b' :: (name ++ '\x7d' :: rest)) =
      (v.format r []).bind fun text => (expandWith r inner fields rest).map (text ++ ·) := by
  have hdrop : (name ++ '\x7d' :: rest).drop (name.length + 1) = rest := by
    rw [List.drop_append]
    simp
  obtain ⟨d, rest', hcons⟩ : ∃ d rest', name ++ '\x7d' :: rest = d :: rest' := by
    cases name <;> exact ⟨_, _, rfl⟩
  have hd : d ≠ '\x7b' := by
    intro hd
    cases name with
    | nil => simp [hd] at hcons
    | cons c name => exact hname (by simp_all)
  rw [hcons] at hfield hdrop ⊢
  rw [expandWith.eq_def]
  simp only [if_neg hd, hfield, hvalue, bind, Except.bind, Value.convert, hdrop]
  cases v.format r [] with
  | ok text => cases expandWith r inner fields rest <;> rfl
  | error e => rfl

end

variable (r : Reflection)

/-- The standard headers name the variable and then the code. -/
theorem expand_header {pre mid post : List Char} (hpre : IsPlain pre) (hmid : IsPlain mid)
    (hpost : IsPlain post) (variableName : String) (code : ℤ) :
    expand r [("variable", .text variableName), ("code", .integer code)]
        (String.ofList (pre ++ '\x7b' :: ("variable".toList ++ '\x7d' ::
          (mid ++ '\x7b' :: ("code".toList ++ '\x7d' :: post))))) =
      ((Text.writeInt code).mapError .integer).map fun digits =>
        String.ofList (pre ++ (variableName.toList ++ (mid ++ (digits.toList ++ post)))) := by
  rw [expand, String.toList_ofList, expandWith_append hpre,
    expandWith_field (v := .text variableName) (by decide) rfl rfl, expandWith_append hmid,
    expandWith_field (v := .integer code) (by decide) rfl rfl, expandWith_of_isPlain hpost]
  have hformat : Value.format r (.integer code) [] = integerChars code := rfl
  rw [hformat, integerChars]
  cases Text.writeInt code <;> rfl

end Template

namespace Dialect

/-- The templates of the headers are the standard ones. -/
structure HasStandardHeaders (d : Dialect) : Prop where
  firstBranch : d.firstBranch = standard.firstBranch
  nextBranch : d.nextBranch = standard.nextBranch

theorem hasStandardHeaders_standard : standard.HasStandardHeaders := ⟨rfl, rfl⟩

/-- The dialect with values that have no attributes. -/
def withoutAttributes (d : Dialect) : Dialect := { d with reflection := .bare }

/-- A condition on the switch variable, before the text that opens a branch. -/
def conditionText (d : Dialect) (opening digits : String) : String :=
  opening ++ d.switchVariable ++ ".eq." ++ digits ++ ") then"

variable {d : Dialect} (hd : d.HasStandardHeaders)

include hd

theorem branch_of_standard (code position count : ℤ) :
    d.branch code position count =
      if position = count - 1 ∧ 1 < count then .ok d.defaultBranch
      else ((Text.writeInt code).mapError .integer).map
        (d.conditionText (if position = 0 then "if (" else "else if (")) := by
  have hheader : ∀ opening : String, Template.IsPlain opening.toList →
      Template.expand d.reflection [("variable", .text d.switchVariable), ("code", .integer code)]
        (String.ofList (opening.toList ++ '\x7b' :: ("variable".toList ++ '\x7d' ::
          (".eq.".toList ++ '\x7b' :: ("code".toList ++ '\x7d' :: ") then".toList))))) =
        ((Text.writeInt code).mapError .integer).map (d.conditionText opening) := by
    intro opening hopening
    rw [Template.expand_header d.reflection hopening (by decide) (by decide)]
    congr 1
    funext digits
    simp [conditionText, String.ext_iff]
  unfold branch
  split
  · rfl
  · split
    · rw [hd.firstBranch]
      exact hheader "if (" (by decide)
    · rw [hd.nextBranch]
      exact hheader "else if (" (by decide)

/-- The standard headers ask for no attribute. -/
theorem branch_withoutAttributes_of_standard (code position count : ℤ) :
    d.withoutAttributes.branch code position count = d.branch code position count := by
  have hbare : d.withoutAttributes.HasStandardHeaders := ⟨hd.firstBranch, hd.nextBranch⟩
  rw [branch_of_standard hd, branch_of_standard hbare]
  rfl

end Dialect

end GaussianIntegrals
