/-
  The texts of the integral formulas are in the strict grammar, for orbitals of any exponents and
  before and after the simplification (`strict_formula_texts`).

  A formula is a prefactor times a sum, and the first term of the sum never begins with a minus
  sign: in the nuclear attraction it is the term without reductions, in the kinetic energy the
  unshifted one, in the momentum the one with the degree of orbital 2. All other sums are overlaps,
  which have no negative terms. So whatever stands behind another factor can stand anywhere
  (`IsFactor`), also where a sum has lost all terms but the first.
-/
import GaussianIntegrals.Proofs.FamilyParts
import GaussianIntegrals.Proofs.StrictTexts

namespace GaussianIntegrals

open Expr Code Number

/-! ## Plain names -/

theorem isPlainReference_of_indices {w : List Char} (h : isPlainName w = true) {is : List Index}
    (his : ∀ i ∈ is, IsWord i.word ∧ i.negative = false) :
    IsPlainReference (Reference.text ⟨w, is⟩) := by
  simp only [isPlainName, Bool.and_eq_true, List.all_eq_true] at h
  have hne : w ≠ [] := by
    rintro rfl
    exact absurd h.1.1.1 (by decide)
  exact ⟨⟨w, is⟩, ⟨⟨h.1.1.1, ⟨hne, h.1.1.2⟩, fun i hi => (his i hi).1⟩, fun i hi => (his i hi).2⟩,
    rfl⟩

theorem isPlainReference_word {w : List Char} (h : isPlainName w = true) :
    IsPlainReference (String.ofList w) := by
  have hnone : ∀ i ∈ ([] : List Index), IsWord i.word ∧ i.negative = false := by simp
  exact isPlainReference_of_indices h hnone

theorem isPlainReference_centreSymbol {w : List Char} (h : isPlainName w = true) (number : ℕ) :
    IsPlainReference (centreSymbol (String.ofList w) number) := by
  rw [centreSymbol_eq_text]
  refine isPlainReference_of_indices h (List.forall_mem_singleton.2 ⟨Index.isWord_ofInt number, ?_⟩)
  exact decide_eq_false (not_lt.2 (Int.natCast_nonneg number))

theorem isPlainReference_boys (n : ℕ) : IsPlainReference s!"F{n}" := by
  rw [boysName_eq]
  exact isPlainReference_word (isPlainName_boys n)

/-! ## Expressions that can be written -/

/-- All names are plain, and the signs are in front. -/
structure Orderly (e : Expr) : Prop where
  named : EveryPart Named e
  inFront : EveryPart SignsInFront e

/-- The expression can stand anywhere in a product. -/
structure IsFactor (e : Expr) : Prop extends Orderly e where
  unsigned : e.leadsMinus = false

theorem orderly_const (v : ℚ) : Orderly (.const v) :=
  ⟨everyPart_const.2 trivial, everyPart_const.2 trivial⟩

theorem isFactor_const {v : ℚ} (h : 0 ≤ v) : IsFactor (.const v) :=
  ⟨orderly_const v, decide_eq_false (not_lt.2 h)⟩

theorem isFactor_symbol {n : String} (h : IsPlainReference n) : IsFactor (.symbol n) :=
  ⟨⟨everyPart_symbol.2 h, everyPart_symbol.2 trivial⟩, rfl⟩

theorem isFactor_power {b : String} (h : IsPlainReference b) (k : ℤ) : IsFactor (.power b k) :=
  ⟨⟨everyPart_power.2 h, everyPart_power.2 trivial⟩, rfl⟩

theorem isFactor_group {b : Expr} (h : Orderly b) : IsFactor (.group b) :=
  ⟨⟨everyPart_group.2 ⟨trivial, h.named⟩, everyPart_group.2 ⟨trivial, h.inFront⟩⟩, rfl⟩

/-- Only the first factor of a product may begin with a sign. -/
theorem orderly_product {f : Expr} {fs : List Expr} (hf : Orderly f) (hfs : ∀ g ∈ fs, IsFactor g) :
    Orderly (.product (f :: fs)) where
  named := everyPart_product.2
    ⟨trivial, List.forall_mem_cons.2 ⟨hf.named, fun g hg => (hfs g hg).named⟩⟩
  inFront := everyPart_product.2 ⟨fun g hg => (hfs g hg).unsigned,
    List.forall_mem_cons.2 ⟨hf.inFront, fun g hg => (hfs g hg).inFront⟩⟩

theorem isFactor_product {f : Expr} {fs : List Expr} (hf : IsFactor f)
    (hfs : ∀ g ∈ fs, IsFactor g) : IsFactor (.product (f :: fs)) :=
  ⟨orderly_product hf.toOrderly hfs, hf.unsigned⟩

theorem isFactor_sum_nil : IsFactor (.sum []) :=
  ⟨⟨everyPart_sum.2 ⟨trivial, List.forall_mem_nil _⟩,
    everyPart_sum.2 ⟨trivial, List.forall_mem_nil _⟩⟩, rfl⟩

/-- The first term of a sum must not begin with a sign, as it may come to stand alone. -/
theorem isFactor_sum {t : Expr} {ts : List Expr} (ht : IsFactor t) (hts : ∀ u ∈ ts, Orderly u) :
    IsFactor (.sum (t :: ts)) where
  named := everyPart_sum.2
    ⟨trivial, List.forall_mem_cons.2 ⟨ht.named, fun u hu => (hts u hu).named⟩⟩
  inFront := everyPart_sum.2
    ⟨trivial, List.forall_mem_cons.2 ⟨ht.inFront, fun u hu => (hts u hu).inFront⟩⟩
  unsigned := ht.unsigned

theorem isFactor_zero : IsFactor .zero := isFactor_const (le_refl 0)

/-! ## Terms -/

section Terms

variable {t : Summand} (hpowers : ∀ q ∈ t.powers, IsPlainReference q.1)
  (hsymbols : ∀ s ∈ t.symbols, IsPlainReference s)

include hpowers hsymbols

theorem isFactor_variables :
    ∀ f ∈ t.powers.map (fun q => Expr.power q.1 q.2) ++ t.symbols.map Expr.symbol, IsFactor f := by
  simp only [List.forall_mem_append, List.forall_mem_map]
  exact ⟨fun q hq => isFactor_power (hpowers q hq) q.2, fun s hs => isFactor_symbol (hsymbols s hs)⟩

theorem orderly_toExpr : Orderly t.toExpr := by
  unfold Summand.toExpr
  split
  · exact isFactor_zero.toOrderly
  · exact orderly_product (orderly_const _) (isFactor_variables hpowers hsymbols)

theorem isFactor_toExpr (hc : 0 ≤ t.coefficient) : IsFactor t.toExpr := by
  unfold Summand.toExpr
  split
  · exact isFactor_zero
  · exact isFactor_product (isFactor_const hc) (isFactor_variables hpowers hsymbols)

end Terms

/-! ## Nuclear attraction -/

section Nuclear

theorem isPlainReference_nuclearTerm (t1 t2 : Triad) (ks : List AxisIndex) :
    (∀ q ∈ (nuclearTerm t1 t2 ks).powers, IsPlainReference q.1) ∧
      ∀ s ∈ (nuclearTerm t1 t2 ks).symbols, IsPlainReference s := by
  unfold nuclearTerm
  split
  · exact ⟨List.forall_mem_nil _, List.forall_mem_nil _⟩
  · simp only [List.forall_mem_append, List.forall_mem_singleton, List.mem_flatMap]
    refine ⟨⟨?_, isPlainReference_word (w := ['e', 'p', 's']) (by decide)⟩,
      isPlainReference_boys _⟩
    rintro q ⟨k, -, hq⟩
    simp only [AxisIndex.powers, List.mem_cons, List.not_mem_nil, or_false] at hq
    rcases hq with rfl | rfl | rfl
    · exact isPlainReference_centreSymbol (w := ['P', 'A']) (by decide) _
    · exact isPlainReference_centreSymbol (w := ['P', 'B']) (by decide) _
    · exact isPlainReference_centreSymbol (w := ['P', 'C']) (by decide) _

theorem weight_nonneg (k : Reduction) : 0 ≤ k.weight :=
  div_nonneg (Nat.cast_nonneg _) (Nat.cast_nonneg _)

/-- A term without reductions is not negative. -/
theorem coefficient_nuclearTerm_nonneg (t1 t2 : Triad) {ks : List AxisIndex}
    (h : ∀ k ∈ ks, k.reduction.l + k.reduction.i = 0) :
    0 ≤ (nuclearTerm t1 t2 ks).coefficient := by
  unfold nuclearTerm
  split
  · exact le_refl 0
  · have heven : ks.foldl (fun n k => n + (k.reduction.l + k.reduction.i)) 0 = 0 := by
      rw [foldl_add_eq_sum]
      exact List.sum_eq_zero (List.forall_mem_map.2 h)
    dsimp only
    rw [if_neg (by simp [heven]), foldl_mul_eq_prod]
    refine List.prod_nonneg (List.forall_mem_map.2 fun k _ => ?_)
    exact mul_nonneg (Nat.cast_nonneg _) (weight_nonneg _)

variable (t1 t2 : Axis → ℕ)

theorem exists_upTo_eq (n : ℕ) : ∃ rest, Reduction.upTo n = ⟨0, 0, 0⟩ :: rest := by
  have hrange : List.range ((n : ℤ) + 1).toNat = 0 :: (List.range n).map Nat.succ := by
    rw [← List.range_succ_eq_map]
    rfl
  exact ⟨_, by rw [Reduction.upTo, hrange, List.flatMap_cons]; rfl⟩

/-- The first term of the sum is the one without reductions. -/
theorem exists_nuclearIndices_eq :
    ∃ rest, nuclearIndices (.ofExponents t1) (.ofExponents t2) =
      [⟨.x, ⟨0, 0, 0⟩, 0⟩, ⟨.y, ⟨0, 0, 0⟩, 0⟩, ⟨.z, ⟨0, 0, 0⟩, 0⟩] :: rest := by
  obtain ⟨restx, hx⟩ := exists_upTo_eq (t1 .x + t2 .x)
  obtain ⟨resty, hy⟩ := exists_upTo_eq (t1 .y + t2 .y)
  obtain ⟨restz, hz⟩ := exists_upTo_eq (t1 .z + t2 .z)
  rw [Nat.cast_add] at hx hy hz
  exact ⟨_, by
    simp only [nuclearIndices, Triad.on_ofExponents, hx, hy, hz, List.flatMap_cons]
    rfl⟩

theorem isFactor_nuclearSum :
    IsFactor (ofTermList (nuclearTerms (.ofExponents t1) (.ofExponents t2))) := by
  have hterm : ∀ ks, Orderly
      (nuclearTerm (.ofExponents t1) (.ofExponents t2) ks).toExpr := fun ks =>
    orderly_toExpr (isPlainReference_nuclearTerm _ _ ks).1 (isPlainReference_nuclearTerm _ _ ks).2
  obtain ⟨rest, hrest⟩ := exists_nuclearIndices_eq t1 t2
  rw [ofTermList, nuclearTerms, hrest, List.map_cons, List.map_cons]
  refine isFactor_sum (isFactor_toExpr (isPlainReference_nuclearTerm _ _ _).1
    (isPlainReference_nuclearTerm _ _ _).2 (coefficient_nuclearTerm_nonneg _ _ (by simp))) ?_
  rw [List.map_map, List.forall_mem_map]
  exact fun ks _ => hterm ks

end Nuclear

/-! ## Overlaps -/

theorem isFactor_overlapTerm (e1 e2 : ℤ) (number j s : ℕ) :
    IsFactor (overlapTerm e1 e2 number j s).toExpr := by
  unfold overlapTerm
  dsimp only
  split
  · exact isFactor_zero
  · refine isFactor_toExpr ?_ (List.forall_mem_nil _) ?_
    · simp only [List.forall_mem_cons]
      exact ⟨isPlainReference_centreSymbol (w := ['P', 'A']) (by decide) number,
        isPlainReference_centreSymbol (w := ['P', 'B']) (by decide) number,
        isPlainReference_word (w := ['Y']) (by decide), List.forall_mem_nil _⟩
    · exact div_nonneg (Nat.cast_nonneg _) (Nat.cast_nonneg _)

/-- No term of an overlap is negative. -/
theorem isFactor_overlapSum (e1 e2 : ℤ) (number : ℕ) : IsFactor (overlapSum e1 e2 number) := by
  have hterms : ∀ t ∈ (overlapTerms e1 e2 number).map Summand.toExpr, IsFactor t := by
    rw [List.forall_mem_map]
    intro t ht
    simp only [overlapTerms, List.mem_flatMap, List.mem_map] at ht
    obtain ⟨j, -, s, -, rfl⟩ := ht
    exact isFactor_overlapTerm e1 e2 number j s
  rw [overlapSum, ofTermList]
  cases hlist : (overlapTerms e1 e2 number).map Summand.toExpr with
  | nil => exact isFactor_sum_nil
  | cons t ts =>
    rw [hlist, List.forall_mem_cons] at hterms
    exact isFactor_sum hterms.1 fun u hu => (hterms.2 u hu).toOrderly

theorem isFactor_overlap (t1 t2 : Triad) : IsFactor (overlap t1 t2) := by
  have hsum : ∀ a : Axis, IsFactor (overlapSum (t1.on a) (t2.on a) a.number) := fun a =>
    isFactor_overlapSum _ _ _
  rw [overlap, Axis.all, List.map_cons]
  exact isFactor_product (hsum .x) (List.forall_mem_map.2 fun a _ => hsum a)

theorem isFactor_loweredOverlap (t1 t2 : Triad) (step : ℤ) (a : Axis) :
    IsFactor (loweredOverlap t1 t2 step a) := by
  unfold loweredOverlap
  split
  · exact isFactor_overlap _ _
  · exact isFactor_zero

/-! ## Kinetic energy and momentum -/

section Operators

variable (t1 t2 : Axis → ℕ) (a : Axis)

theorem isFactor_a2 : IsFactor (.symbol "a2") :=
  isFactor_symbol (isPlainReference_word (w := ['a', '2']) (by decide))

theorem isFactor_kineticBase : IsFactor (kineticBase (.ofExponents t1) (.ofExponents t2)) := by
  refine isFactor_product (isFactor_const ?_) ?_
  · simp only [Axis.all, List.foldl_cons, List.foldl_nil, Triad.on_ofExponents]
    positivity
  · simp only [List.forall_mem_cons]
    exact ⟨isFactor_a2, isFactor_overlap _ _, List.forall_mem_nil _⟩

theorem orderly_kineticRaised (t1 t2 : Triad) : Orderly (kineticRaised t1 t2 a) := by
  refine orderly_product (orderly_const _) ?_
  simp only [List.forall_mem_cons]
  exact ⟨isFactor_power (isPlainReference_word (w := ['a', '2']) (by decide)) 2,
    isFactor_overlap _ _, List.forall_mem_nil _⟩

theorem orderly_kineticLowered (t1 t2 : Triad) : Orderly (kineticLowered t1 t2 a) :=
  orderly_product (orderly_const _)
    (List.forall_mem_singleton.2 (isFactor_loweredOverlap _ _ _ _))

/-- The first term of the kinetic energy is the unshifted one, with a positive weight. -/
theorem isFactor_kineticSum :
    IsFactor (.sum (kineticBase (.ofExponents t1) (.ofExponents t2) ::
      (Axis.all.map (kineticRaised (.ofExponents t1) (.ofExponents t2)) ++
        Axis.all.map (kineticLowered (.ofExponents t1) (.ofExponents t2))))) := by
  refine isFactor_sum (isFactor_kineticBase t1 t2) ?_
  simp only [List.forall_mem_append, List.forall_mem_map]
  exact ⟨fun a _ => orderly_kineticRaised a _ _, fun a _ => orderly_kineticLowered a _ _⟩

/-- The first term of the momentum has the degree of orbital 2 as its weight. -/
theorem isFactor_momentumSum (t1 : Triad) :
    IsFactor (.sum [
      .product [.const ((Triad.ofExponents t2).on a),
        .group (loweredOverlap t1 (.ofExponents t2) 1 a)],
      .product [.const (-2), .symbol "a2",
        .group (overlap t1 ((Triad.ofExponents t2).shift 1 a))]]) := by
  have hdegree : (0 : ℚ) ≤ ((Triad.ofExponents t2).on a : ℤ) := by
    rw [Triad.on_ofExponents]
    exact_mod_cast Nat.zero_le (t2 a)
  refine isFactor_sum (isFactor_product (isFactor_const hdegree) ?_) ?_
  · exact List.forall_mem_singleton.2 (isFactor_group (isFactor_loweredOverlap _ _ _ _).toOrderly)
  · refine List.forall_mem_singleton.2 (orderly_product (orderly_const _) ?_)
    simp only [List.forall_mem_cons]
    exact ⟨isFactor_a2, isFactor_group (isFactor_overlap _ _).toOrderly, List.forall_mem_nil _⟩

end Operators

/-! ## The formulas -/

theorem orderly_formula (n : FamilyName) (t1 t2 : Axis → ℕ) (a : Axis) {prefactor : String}
    (hp : IsPlainReference prefactor) :
    Orderly (familyFormula n (.ofExponents t1) (.ofExponents t2) a prefactor) := by
  have hproduct : ∀ {e : Expr}, IsFactor e → Orderly (.product [.symbol prefactor, e]) :=
    fun he => orderly_product (isFactor_symbol hp).toOrderly (List.forall_mem_singleton.2 he)
  cases n with
  | nuclear => exact hproduct (isFactor_nuclearSum t1 t2)
  | kinetic => exact hproduct (isFactor_kineticSum t1 t2)
  | momentum => exact hproduct (isFactor_momentumSum t2 a _)

/-! ## Simplified formulas -/

theorem inherited_named {map : AliasMap} (h : ∀ p ∈ map, IsPlainReference p.2) :
    Inherited map Named where
  group _ := trivial
  product _ := trivial
  sum _ := trivial
  zero := trivial
  one := trivial
  symbol _ hb := hb
  powerAlias b k n hn _ := by
    obtain ⟨l₁, l₂, rfl, -⟩ := List.lookup_eq_some_iff.1 hn
    exact h ((b, k), n) (by simp)
  symbolAlias b n hn _ := by
    obtain ⟨l₁, l₂, rfl, -⟩ := List.lookup_eq_some_iff.1 hn
    exact h ((b, 1), n) (by simp)

theorem inherited_printable (map : AliasMap) : Inherited map Printable where
  group _ := trivial
  product _ := trivial
  sum _ := trivial
  zero := ⟨_, rfl⟩
  one := ⟨_, rfl⟩
  symbol _ _ := trivial
  powerAlias _ _ _ _ _ := trivial
  symbolAlias _ _ _ _ := trivial

/-- The short names of the families are plain. -/
theorem exists_rules_eq (n : FamilyName) :
    ∃ map, n.family.rules = Rule.standard map ∧ ∀ p ∈ map, IsPlainReference p.2 := by
  have hwords : ∀ map : AliasMap, (∀ p ∈ map, isPlainName p.2.toList = true) →
      ∀ p ∈ map, IsPlainReference p.2 := by
    intro map hmap p hp
    have hword := isPlainReference_word (hmap p hp)
    rwa [String.ofList_toList] at hword
  cases n with
  | nuclear => exact ⟨_, rfl, hwords .nuclear (by decide)⟩
  | kinetic => exact ⟨_, rfl, hwords .kinetic (by decide)⟩
  | momentum => exact ⟨_, rfl, hwords .momentum (by decide)⟩

theorem Orderly.simplifyWith {n : FamilyName} {e : Expr} (h : Orderly e) :
    Orderly (simplifyWith n.family.rules e) := by
  obtain ⟨map, hrules, hmap⟩ := exists_rules_eq n
  rw [hrules]
  exact ⟨(inherited_named hmap).everyPart_simplifyWith h.named,
    (signedAs_simplifyWith (Rule.keepsSigns_standard map) h.inFront).inFront⟩

/-- The exponents have texts where the coefficients have literals. -/
theorem printable_familyFormula (n : FamilyName) (t1 t2 : Axis → ℕ) (a : Axis)
    (prefactor : String)
    (h : ∀ v, .const v ∈ (familyFormula n (.ofExponents t1) (.ofExponents t2) a prefactor).walk →
      ∃ s, literal v = .ok s) :
    EveryPart Printable (familyFormula n (.ofExponents t1) (.ofExponents t2) a prefactor) := by
  intro e he
  cases e with
  | const v => exact h v he
  | power b k => exact writable_exponents n t1 t2 a prefactor h he
  | _ => trivial

theorem printable_simplifyWith {n : FamilyName} {e : Expr} (h : EveryPart Printable e) :
    EveryPart Printable (simplifyWith n.family.rules e) := by
  obtain ⟨map, hrules, -⟩ := exists_rules_eq n
  rw [hrules]
  exact (inherited_printable map).everyPart_simplifyWith h

/-- **Formulas have texts in the strict grammar**, simplified or not: no operator follows another
one and all parentheses are closed. There is a text whenever all coefficients have literals. -/
theorem strict_formula_texts (n : FamilyName) (t1 t2 : Axis → ℕ) (a : Axis) {prefactor : String}
    (hp : IsPlainReference prefactor) :
    ∀ e ∈ [familyFormula n (.ofExponents t1) (.ofExponents t2) a prefactor,
        simplifyWith n.family.rules
          (familyFormula n (.ofExponents t1) (.ofExponents t2) a prefactor)],
      ((∀ v, .const v ∈ (familyFormula n (.ofExponents t1) (.ofExponents t2) a prefactor).walk →
          ∃ s, literal v = .ok s) → ∃ s, e.render = .ok s) ∧
      ∀ s, e.render = .ok s →
        Strict .sum (tokens s) ∧ (tokens s).IsChain Apart ∧ Balanced (tokens s) := by
  have horderly := orderly_formula n t1 t2 a hp
  have hprintable := printable_familyFormula n t1 t2 a prefactor
  generalize familyFormula n (.ofExponents t1) (.ofExponents t2) a prefactor = f at *
  have htext : ∀ {e : Expr}, Orderly e → EveryPart Printable e → ∃ s, e.render = .ok s :=
    fun ho hp => (exists_written ho.named hp ho.inFront).imp fun _ h => h.render_eq
  have hstrict : ∀ {e : Expr}, Orderly e → ∀ s, e.render = .ok s →
      Strict .sum (tokens s) ∧ (tokens s).IsChain Apart ∧ Balanced (tokens s) := by
    intro e ho s hs
    have h := strict_of_render ho.named ho.inFront hs
    exact ⟨h, h.isChain, h.balanced⟩
  simp only [List.forall_mem_cons]
  refine ⟨⟨fun h => htext horderly (hprintable h), hstrict horderly⟩, ⟨fun h => ?_, ?_⟩,
    List.forall_mem_nil _⟩
  · exact htext horderly.simplifyWith (printable_simplifyWith (hprintable h))
  · exact hstrict horderly.simplifyWith

/-- The kinetic energy of the orbitals s and xx. -/
def kineticSample : Expr :=
  familyFormula .kinetic (.ofExponents 0) (.ofExponents (2 • Axis.x.unit)) .x "coef"

/-- Its simplified text; a constant -1 that is left alone has become the last term. -/
def kineticSampleText : String :=
  "coef*(7*a2*((PB(1)**2) + 0.5*Y1) - 2*a2_2*((PB(1)**4) + 3*(PB(1)**2)*Y1 + 0.75*Y2)" ++
    " - 2*a2_2*((PB(1)**2) + 0.5*Y1)*((PB(2)**2) + 0.5*Y1)" ++
    " - 2*a2_2*((PB(1)**2) + 0.5*Y1)*((PB(3)**2) + 0.5*Y1) - 1)"

theorem strict_formula_texts_kinetic :
    (∃ s, kineticSample.render = .ok s) ∧
      (simplifyWith FamilyName.kinetic.family.rules kineticSample).render =
        .ok kineticSampleText ∧
      Strict .sum (tokens kineticSampleText) ∧ (tokens kineticSampleText).IsChain Apart ∧
      Balanced (tokens kineticSampleText) := by
  have hparts : ∀ e ∈ kineticSample.walk, e.render.toOption.isSome = true := by decide +kernel
  have htext : (simplifyWith FamilyName.kinetic.family.rules kineticSample).render =
      .ok kineticSampleText := by
    decide +kernel
  have htexts := strict_formula_texts .kinetic 0 (2 • Axis.x.unit) .x
    (isPlainReference_word (w := ['c', 'o', 'e', 'f']) (by decide))
  simp only [List.forall_mem_cons] at htexts
  obtain ⟨⟨hexists, -⟩, ⟨-, hstrict⟩, -⟩ := htexts
  refine ⟨hexists fun v hv => ?_, htext, hstrict _ htext⟩
  have hprintable := hparts _ hv
  rw [Expr.render] at hprintable
  cases hliteral : literal v with
  | ok s => exact ⟨s, rfl⟩
  | error e => simp [hliteral, Except.toOption] at hprintable

end GaussianIntegrals
