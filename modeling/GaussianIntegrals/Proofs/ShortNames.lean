/-
  Which short names the simplified formulas refer to, and which symbols they leave bare
  (`short_names_suffice`).

  A short name stands for a power with its exponent, so that it occurs just if a live leaf of the
  formula has that power (`hasShortName_simplify_iff`); a symbol stays bare just if a live leaf has
  one of its powers that has no short name (`hasBare_simplify_iff`). The powers of `eps` and `Y`
  have all exponents up to a bound, and the tables give short names to the first of them.
-/
import GaussianIntegrals.Proofs.FamilyParts
import GaussianIntegrals.Proofs.FormulaLeaves
import GaussianIntegrals.Proofs.Lists

namespace GaussianIntegrals

namespace Expr

/-- The short name occurs in the expression. -/
def HasShortName (e : Expr) (name : String) : Prop := ∃ target, .alias name target ∈ e.walk

/-- The symbol occurs under its own name, by itself or with an exponent. -/
def HasBare (e : Expr) (b : String) : Prop := .symbol b ∈ e.walk ∨ ∃ k, .power b k ∈ e.walk

theorem mem_names_iff {e : Expr} {name : String} :
    name ∈ e.names ↔ e.HasShortName name ∨ e.HasBare name := by
  rw [mem_names]
  constructor
  · rintro ⟨l, hl, hname⟩
    match l with
    | .alias n t =>
      obtain rfl := Option.some.inj hname
      exact .inl ⟨t, hl⟩
    | .symbol b =>
      obtain rfl := Option.some.inj hname
      exact .inr (.inl hl)
    | .power b k =>
      obtain rfl := Option.some.inj hname
      exact .inr (.inr ⟨k, hl⟩)
    | .const _ | .group _ | .product _ | .sum _ => cases hname
  · rintro (⟨t, h⟩ | h | ⟨k, h⟩)
    · exact ⟨_, h, rfl⟩
    · exact ⟨_, h, rfl⟩
    · exact ⟨_, h, rfl⟩

/-- A symbol has the exponent 1. -/
def power? : Expr → Option (String × ℤ)
  | .symbol b => some (b, 1)
  | .power b k => some (b, k)
  | _ => none

/-- A live leaf has the power. -/
def Reaches (e : Expr) (b : String) (k : ℤ) : Prop := ∃ l ∈ e.liveLeaves, l.power? = some (b, k)

/-- The expression has no short names yet. -/
def Unabridged (e : Expr) : Prop := ∀ l ∈ e.liveLeaves, l.power?.isSome = true

/-! ## Powers -/

/-- A power with a natural exponent spelled out: 1 has no exponent, and 0 no symbol. -/
def bare (b : String) (k : ℤ) : Expr := if k = 1 then .symbol b else .power b k

/-- What a power comes to: its short name, if it has one. -/
def abridged (map : AliasMap) (b : String) (k : ℤ) : Expr :=
  if k = 0 then .one
  else
    match map.lookup (b, k) with
    | some n => .alias n (bare b k)
    | none => bare b k

theorem simplify_symbol (map : AliasMap) (b : String) :
    simplify map (.symbol b) = abridged map b 1 := by
  have halias : simplify map (.symbol b) =
      ((map.lookup (b, 1)).map fun n => .alias n (.symbol b)).getD (.symbol b) := rfl
  rw [halias, abridged, if_neg one_ne_zero]
  cases map.lookup (b, 1) <;> rfl

theorem simplify_power (map : AliasMap) (b : String) (k : ℤ) :
    simplify map (.power b k) = abridged map b k := by
  by_cases h0 : k = 0
  · rw [h0]
    rfl
  · by_cases h1 : k = 1
    · rw [h1, ← simplify_symbol]
      rfl
    · have hunits : withoutUnits (.power b k) = .power b k := by
        simp [withoutUnits, Rule.apply, replace, Rule.zeroPower, Rule.unitPower, Rule.unitFactors,
          h0, h1]
      have halias : simplify map (.power b k) =
          ((map.lookup (b, k)).map fun n => .alias n (.power b k)).getD (.power b k) := by
        rw [simplify_eq_withoutUnits, hunits]
        rfl
      rw [halias, abridged, if_neg h0, bare, if_neg h1]
      cases map.lookup (b, k) <;> rfl

theorem simplify_of_power? (map : AliasMap) {l : Expr} {b : String} {k : ℤ}
    (h : l.power? = some (b, k)) : simplify map l = abridged map b k := by
  cases l with
  | symbol c =>
    obtain ⟨rfl, rfl⟩ := Prod.mk.inj (Option.some.inj h)
    exact simplify_symbol map c
  | power c j =>
    obtain ⟨rfl, rfl⟩ := Prod.mk.inj (Option.some.inj h)
    exact simplify_power map c j
  | _ => cases h

theorem shortName_mem_abridged_iff {map : AliasMap} {b : String} {k : ℤ} {n : String} :
    (∃ t, .alias n t ∈ (abridged map b k).liveLeaves) ↔ k ≠ 0 ∧ map.lookup (b, k) = some n := by
  have hbare : ∀ t, .alias n t ∉ (bare b k).liveLeaves := by
    intro t
    unfold bare
    split <;> simp [liveLeaves]
  unfold abridged
  split
  · next h0 => simp [liveLeaves, one, h0]
  · next h0 =>
    split
    · next m hm =>
      simp only [liveLeaves, List.mem_singleton, alias.injEq, hm, Option.some.injEq]
      constructor
      · rintro ⟨t, hn, -⟩
        exact ⟨h0, hn.symm⟩
      · rintro ⟨-, hn⟩
        exact ⟨_, hn.symm, rfl⟩
    · next hnone => simp [hbare, hnone]

theorem bare_mem_abridged_iff {map : AliasMap} {b c : String} {k : ℤ} :
    (.symbol c ∈ (abridged map b k).liveLeaves ∨ ∃ j, .power c j ∈ (abridged map b k).liveLeaves) ↔
      b = c ∧ k ≠ 0 ∧ map.lookup (b, k) = none := by
  unfold abridged
  split
  · next h0 => simp [liveLeaves, one, h0]
  · next h0 =>
    split
    · next m hm => simp [liveLeaves, hm]
    · next hnone =>
      unfold bare
      split
      · next h1 =>
        rw [h1] at hnone
        simp [liveLeaves, hnone, eq_comm, h1]
      · next h1 => simp [liveLeaves, hnone, eq_comm, h0]

/-! ## Simplified expressions -/

variable {map : AliasMap} {e : Expr}

theorem hasShortName_simplify_iff (he : e.Unabridged) {n : String} :
    (simplify map e).HasShortName n ↔ ∃ b k, e.Reaches b k ∧ k ≠ 0 ∧ map.lookup (b, k) = some n := by
  simp only [HasShortName, mem_walk_simplify_iff (l := .alias n _) rfl]
  constructor
  · rintro ⟨t, l, hl, ht⟩
    obtain ⟨⟨b, k⟩, hpower⟩ := Option.isSome_iff_exists.1 (he l hl)
    rw [simplify_of_power? map hpower] at ht
    exact ⟨b, k, ⟨l, hl, hpower⟩, shortName_mem_abridged_iff.1 ⟨t, ht⟩⟩
  · rintro ⟨b, k, ⟨l, hl, hpower⟩, hname⟩
    obtain ⟨t, ht⟩ := shortName_mem_abridged_iff.2 hname
    exact ⟨t, l, hl, simplify_of_power? map hpower ▸ ht⟩

theorem hasBare_simplify_iff (he : e.Unabridged) {b : String} :
    (simplify map e).HasBare b ↔ ∃ k, e.Reaches b k ∧ k ≠ 0 ∧ map.lookup (b, k) = none := by
  simp only [HasBare, mem_walk_simplify_iff (l := .symbol b) rfl,
    mem_walk_simplify_iff (l := .power b _) rfl]
  constructor
  · intro h
    obtain ⟨l, hl, hbare⟩ : ∃ l ∈ e.liveLeaves, .symbol b ∈ (simplify map l).liveLeaves ∨
        ∃ k, .power b k ∈ (simplify map l).liveLeaves := by
      rcases h with ⟨l, hl, hb⟩ | ⟨k, l, hl, hb⟩
      · exact ⟨l, hl, .inl hb⟩
      · exact ⟨l, hl, .inr ⟨k, hb⟩⟩
    obtain ⟨⟨c, k⟩, hpower⟩ := Option.isSome_iff_exists.1 (he l hl)
    rw [simplify_of_power? map hpower] at hbare
    obtain ⟨rfl, hnone⟩ := bare_mem_abridged_iff.1 hbare
    exact ⟨k, ⟨l, hl, hpower⟩, hnone⟩
  · rintro ⟨k, ⟨l, hl, hpower⟩, hnone⟩
    have hbare := bare_mem_abridged_iff.2 ⟨rfl, hnone⟩
    rw [← simplify_of_power? map hpower] at hbare
    exact hbare.imp (fun hb => ⟨l, hl, hb⟩) fun ⟨j, hb⟩ => ⟨j, l, hl, hb⟩

/-- A listed power has its short name wherever it is reached. -/
theorem hasShortName_simplify_iff_of_mem (he : e.Unabridged) (hkeys : (map.map Prod.fst).Nodup)
    (hnames : (map.map Prod.snd).Nodup) {b : String} {k : ℤ} {n : String} (hk : k ≠ 0)
    (hmem : ((b, k), n) ∈ map) : (simplify map e).HasShortName n ↔ e.Reaches b k := by
  rw [hasShortName_simplify_iff he]
  constructor
  · rintro ⟨c, j, hreaches, -, hlookup⟩
    have hentry : ((c, j), n) = ((b, k), n) :=
      List.inj_on_of_nodup_map hnames (mem_of_lookup hlookup) hmem rfl
    obtain ⟨rfl, rfl⟩ := Prod.mk.inj (Prod.mk.inj hentry).1
    exact hreaches
  · exact fun hreaches => ⟨b, k, hreaches, hk, (lookup_eq_some_iff_mem hkeys).2 hmem⟩

/-! Where the powers of a symbol that are reached are numbered, short names are a matter of their
numbers. -/

section Numbered

variable {b : String} {exponent : ℕ → ℤ} {bound : ℕ}
  (hreaches : ∀ k, e.Reaches b k ↔ ∃ n ≤ bound, k = exponent n)

include hreaches

theorem hasShortName_simplify_iff_le (he : e.Unabridged) (hkeys : (map.map Prod.fst).Nodup)
    (hnames : (map.map Prod.snd).Nodup) (hexponents : ∀ entry ∈ map, entry.1.2 ≠ 0)
    (hinjective : Function.Injective exponent) {k : ℕ} {n : String}
    (hmem : ((b, exponent k), n) ∈ map) : (simplify map e).HasShortName n ↔ k ≤ bound := by
  rw [hasShortName_simplify_iff_of_mem he hkeys hnames (hexponents _ hmem) hmem, hreaches]
  constructor
  · rintro ⟨m, hm, hkm⟩
    exact hinjective hkm ▸ hm
  · exact fun hle => ⟨k, hle, rfl⟩

theorem hasBare_simplify_iff_lt (he : e.Unabridged) {last : ℕ}
    (hlast : ∀ n, exponent n ≠ 0 ∧ (b, exponent n) ∉ map.map Prod.fst ↔ last < n) :
    (simplify map e).HasBare b ↔ last < bound := by
  rw [hasBare_simplify_iff he]
  simp only [hreaches, lookup_eq_none_iff_notMem]
  constructor
  · rintro ⟨_, ⟨n, hn, rfl⟩, hunlisted⟩
    exact ((hlast n).1 hunlisted).trans_le hn
  · exact fun hlt => ⟨_, ⟨bound, Nat.le_refl bound, rfl⟩, (hlast bound).2 hlt⟩

end Numbered

/-- The expression, its parts apart, is no short name and not the symbol. -/
def Spares (b : String) : Expr → Prop
  | .alias _ _ => False
  | .symbol c => c ≠ b
  | _ => True

theorem unabridged_of_spares {b : String} (h : EveryPart (Spares b) e) : e.Unabridged := by
  intro l hl
  obtain ⟨hwalk, hname⟩ := mem_walk_of_mem_liveLeaves hl
  have hl := h l hwalk
  match l with
  | .symbol _ | .power _ _ => rfl
  | .alias _ _ => exact hl.elim
  | .const _ | .group _ | .product _ | .sum _ => cases hname

theorem reaches_iff_of_spares {b : String} (h : EveryPart (Spares b) e) {k : ℤ} :
    e.Reaches b k ↔ .power b k ∈ e.liveLeaves := by
  refine ⟨fun ⟨l, hl, hpower⟩ => ?_, fun hl => ⟨_, hl, rfl⟩⟩
  cases l with
  | symbol c =>
    obtain ⟨rfl, -⟩ := Prod.mk.inj (Option.some.inj hpower)
    exact absurd rfl (h _ (mem_walk_of_mem_liveLeaves hl).1)
  | power c j =>
    obtain ⟨rfl, rfl⟩ := Prod.mk.inj (Option.some.inj hpower)
    exact hl
  | _ => cases hpower

theorem leafProperty_spares (b : String) : LeafProperty (Spares b) :=
  ⟨fun _ => trivial, fun _ => trivial, fun _ => trivial⟩

theorem spares_toExpr {t : Summand} {b : String} (h : b ∉ t.symbols) :
    EveryPart (Spares b) t.toExpr :=
  (leafProperty_spares b).everyPart_toExpr (fun _ => trivial) (fun _ _ => trivial)
    fun _ hn hnb => h (hnb ▸ hn)

theorem spares_ofTermList {ts : List Summand} {b : String} (h : ∀ t ∈ ts, b ∉ t.symbols) :
    EveryPart (Spares b) (ofTermList ts) :=
  (leafProperty_spares b).everyPart_ofTermList fun t ht => spares_toExpr (h t ht)

end Expr

open Expr

/-! ## Nuclear attraction -/

section Nuclear

theorem spares_nuclearAttraction (t1 t2 : Triad) {p : String} (hp : p ≠ "eps") :
    EveryPart (Spares "eps") (nuclearAttraction t1 t2 p) := by
  refine everyPart_product.2 ⟨trivial, List.forall_mem_cons.2 ⟨everyPart_symbol.2 hp,
    List.forall_mem_singleton.2 (spares_ofTermList (List.forall_mem_map.2 fun ks _ => ?_))⟩⟩
  unfold nuclearTerm
  split
  · exact List.not_mem_nil
  · intro h
    have hlist := congrArg String.toList (List.mem_singleton.1 h)
    exact absurd (hlist.trans (toList_boysSymbol _)) (by simp)

variable (t1 t2 : Axis → ℕ) {p : String}

/-- The simplified nuclear attraction has short names for the exponents of `eps` up to the third,
as far as it has pairs, and `eps` itself from the fourth on. -/
theorem shortNames_nuclear (hp : p ≠ "eps") :
    (∀ (k : ℕ) (n : String), (("eps", (k : ℤ)), n) ∈ AliasMap.nuclear →
      ((simplify .nuclear (nuclearAttraction (.ofExponents t1) (.ofExponents t2) p)).HasShortName n
        ↔ k ≤ Axis.total (pairs t1 t2))) ∧
    ((simplify .nuclear (nuclearAttraction (.ofExponents t1) (.ofExponents t2) p)).HasBare "eps" ↔
      4 ≤ Axis.total (pairs t1 t2)) := by
  have hspares := spares_nuclearAttraction (.ofExponents t1) (.ofExponents t2) hp
  have hreaches : ∀ k, (nuclearAttraction (.ofExponents t1) (.ofExponents t2) p).Reaches "eps" k ↔
      ∃ n : ℕ, n ≤ Axis.total (pairs t1 t2) ∧ k = n := fun k => by
    rw [reaches_iff_of_spares hspares, power_eps_mem_iff]
  have he := unabridged_of_spares hspares
  refine ⟨fun k n hmem => hasShortName_simplify_iff_le hreaches he (by decide) (by decide)
    (by decide) Nat.cast_injective hmem, hasBare_simplify_iff_lt hreaches he fun n => ?_⟩
  simp only [AliasMap.nuclear, List.map_cons, List.map_nil, List.mem_cons, List.not_mem_nil,
    or_false, Prod.mk.injEq, true_and]
  omega

end Nuclear

/-! ## Kinetic energy -/

section Kinetic

theorem spares_overlap (t1 t2 : Triad) (b : String) : EveryPart (Spares b) (overlap t1 t2) := by
  refine everyPart_product.2 ⟨trivial, List.forall_mem_map.2 fun a _ => ?_⟩
  refine spares_ofTermList fun t ht => ?_
  simp only [overlapTerms, List.mem_flatMap, List.mem_map] at ht
  obtain ⟨j, -, s, -, rfl⟩ := ht
  unfold overlapTerm
  dsimp only
  split <;> exact List.not_mem_nil

theorem spares_kineticEnergy (t1 t2 : Triad) {p : String} (hp : p ≠ "Y") :
    EveryPart (Spares "Y") (kineticEnergy t1 t2 p) := by
  have ha2 : EveryPart (Spares "Y") (.symbol "a2") :=
    everyPart_symbol.2 (show "a2" ≠ "Y" by decide)
  have hlowered : ∀ a, EveryPart (Spares "Y") (loweredOverlap t1 t2 2 a) := by
    intro a
    unfold loweredOverlap
    split
    · exact spares_overlap _ _ _
    · exact everyPart_const.2 trivial
  refine everyPart_product.2 ⟨trivial, List.forall_mem_cons.2 ⟨everyPart_symbol.2 hp,
    List.forall_mem_singleton.2 (everyPart_sum.2 ⟨trivial, ?_⟩)⟩⟩
  simp only [List.forall_mem_cons, List.forall_mem_append, List.forall_mem_map]
  refine ⟨everyPart_product.2 ⟨trivial, ?_⟩, fun a _ => everyPart_product.2 ⟨trivial, ?_⟩,
    fun a _ => everyPart_product.2 ⟨trivial, ?_⟩⟩
  all_goals simp only [List.forall_mem_cons]
  · exact ⟨everyPart_const.2 trivial, ha2, spares_overlap _ _ _, List.forall_mem_nil _⟩
  · exact ⟨everyPart_const.2 trivial, everyPart_power.2 trivial, spares_overlap _ _ _,
      List.forall_mem_nil _⟩
  · exact ⟨everyPart_const.2 trivial, hlowered a, List.forall_mem_nil _⟩

variable (t1 t2 : Axis → ℕ) {p : String}

/-- The simplified kinetic energy has short names for the negative exponents of `Y` down to the
fourth, as far as it has pairs, and `Y` itself from the fifth on. -/
theorem shortNames_kinetic (hp : p ≠ "Y") :
    (∀ (k : ℕ) (n : String), (("Y", -(k : ℤ)), n) ∈ AliasMap.kinetic →
      ((simplify .kinetic (kineticEnergy (.ofExponents t1) (.ofExponents t2) p)).HasShortName n ↔
        k ≤ 1 + Axis.largest (pairs t1 t2))) ∧
    ((simplify .kinetic (kineticEnergy (.ofExponents t1) (.ofExponents t2) p)).HasBare "Y" ↔
      5 ≤ 1 + Axis.largest (pairs t1 t2)) := by
  have hspares := spares_kineticEnergy (.ofExponents t1) (.ofExponents t2) hp
  have hreaches : ∀ k, (kineticEnergy (.ofExponents t1) (.ofExponents t2) p).Reaches "Y" k ↔
      ∃ j : ℕ, j ≤ 1 + Axis.largest (pairs t1 t2) ∧ k = -j := fun k => by
    rw [reaches_iff_of_spares hspares, power_Y_mem_kineticEnergy_iff]
  have he := unabridged_of_spares hspares
  have hinjective : Function.Injective fun n : ℕ => -(n : ℤ) :=
    neg_injective.comp Nat.cast_injective
  refine ⟨fun k n hmem => hasShortName_simplify_iff_le hreaches he (by decide) (by decide)
    (by decide) hinjective hmem, hasBare_simplify_iff_lt hreaches he fun n => ?_⟩
  simp only [AliasMap.kinetic, List.map_cons, List.map_nil, List.mem_cons, List.not_mem_nil,
    or_false, Prod.mk.injEq, true_and]
  omega

end Kinetic

/-! ## Orbitals -/

theorem exists_exponents_of_orbital {o : ℤ} (h : 1 ≤ o ∧ o ≤ 20) :
    ∃ t : Axis → ℕ, Triad.ofOrbital o = .ok (.ofExponents t) ∧ Axis.total t ≤ 3 := by
  have hdegree : ∀ t ∈ Triad.table, t.degree ≤ 3 := by decide
  obtain ⟨t, hmem, ht⟩ := exists_ofOrbital h
  obtain ⟨e, rfl, -⟩ := Triad.Within.exists_exponents (n := 3) (within_of_mem_table hmem)
  have hle := hdegree _ hmem
  refine ⟨e, ht, ?_⟩
  rw [Triad.degree, Triad.ofExponents] at hle
  rw [Axis.total_eq]
  dsimp only at hle
  omega

theorem name_notMem_simplify {map : AliasMap} {e : Expr} {b : String} (he : e.Unabridged)
    (hnames : b ∉ map.map Prod.snd) (hbare : ¬ (simplify map e).HasBare b) :
    b ∉ (simplify map e).names := by
  rw [mem_names_iff, not_or]
  refine ⟨fun h => hnames ?_, hbare⟩
  obtain ⟨c, k, -, -, hlookup⟩ := (hasShortName_simplify_iff he).1 h
  exact List.mem_map_of_mem (mem_of_lookup hlookup)

/-- Orbitals up to degree 3 have no more than 3 pairs. -/
theorem pairs_le_of_total_le {t1 t2 : Axis → ℕ} (h1 : Axis.total t1 ≤ 3) (h2 : Axis.total t2 ≤ 3) :
    Axis.total (pairs t1 t2) ≤ 3 ∧ Axis.largest (pairs t1 t2) ≤ 3 := by
  rw [Axis.total_eq] at h1 h2 ⊢
  constructor
  · simp only [pairs]
    omega
  · simp only [Axis.largest, pairs]
    omega

theorem expand_eq_ok (n : FamilyName) {o1 o2 : ℤ} {t1 t2 : Triad} {axis : Option ℤ} {e : Expr}
    (h1 : Triad.ofOrbital o1 = .ok t1) (h2 : Triad.ofOrbital o2 = .ok t2)
    (he : n.family.expander t1 t2 axis = .ok e) :
    n.family.expand o1 o2 axis = .ok (simplifyWith n.family.rules e) := by
  simp [Family.expand, Family.expandRaw, h1, h2, he, Except.mapError, bind, Except.bind]

/-- **The short names are exactly those that the formulas need.** In the simplified nuclear
attraction `e1`, `e2` and `e3` occur from one, two and three pairs on, counted over all axes, and
`eps` itself from four on. In the simplified kinetic energy `Y1` to `Y4` occur up to one pair more
than the largest number on an axis, and `Y` itself from five on. So the formulas of the twenty
orbitals mention neither `eps` nor `Y`. -/
theorem short_names_suffice (t1 t2 : Axis → ℕ) (a : Axis) {p q : String} (hp : p ≠ "eps")
    (hq : q ≠ "Y") :
    (((simplifiedFormula .nuclear t1 t2 a p).HasShortName "e1" ↔ 1 ≤ Axis.total (pairs t1 t2)) ∧
      ((simplifiedFormula .nuclear t1 t2 a p).HasShortName "e2" ↔ 2 ≤ Axis.total (pairs t1 t2)) ∧
      ((simplifiedFormula .nuclear t1 t2 a p).HasShortName "e3" ↔ 3 ≤ Axis.total (pairs t1 t2)) ∧
      ((simplifiedFormula .nuclear t1 t2 a p).HasBare "eps" ↔ 4 ≤ Axis.total (pairs t1 t2))) ∧
    (((simplifiedFormula .kinetic t1 t2 a q).HasShortName "Y1" ↔
        1 ≤ 1 + Axis.largest (pairs t1 t2)) ∧
      ((simplifiedFormula .kinetic t1 t2 a q).HasShortName "Y2" ↔
        2 ≤ 1 + Axis.largest (pairs t1 t2)) ∧
      ((simplifiedFormula .kinetic t1 t2 a q).HasShortName "Y3" ↔
        3 ≤ 1 + Axis.largest (pairs t1 t2)) ∧
      ((simplifiedFormula .kinetic t1 t2 a q).HasShortName "Y4" ↔
        4 ≤ 1 + Axis.largest (pairs t1 t2)) ∧
      ((simplifiedFormula .kinetic t1 t2 a q).HasBare "Y" ↔
        5 ≤ 1 + Axis.largest (pairs t1 t2))) ∧
    ∀ o1 o2 : ℤ, 1 ≤ o1 ∧ o1 ≤ 20 → 1 ≤ o2 ∧ o2 ≤ 20 → ∀ axis,
      (∃ e, Family.nuclear.expand o1 o2 axis = .ok e ∧ "eps" ∉ e.names) ∧
        ∃ e, Family.kinetic.expand o1 o2 axis = .ok e ∧ "Y" ∉ e.names := by
  obtain ⟨hshort, hbare⟩ := shortNames_nuclear t1 t2 hp
  obtain ⟨hshort', hbare'⟩ := shortNames_kinetic t1 t2 hq
  refine ⟨⟨hshort 1 "e1" (by decide), hshort 2 "e2" (by decide), hshort 3 "e3" (by decide), hbare⟩,
    ⟨hshort' 1 "Y1" (by decide), hshort' 2 "Y2" (by decide), hshort' 3 "Y3" (by decide),
      hshort' 4 "Y4" (by decide), hbare'⟩, fun o1 o2 h1 h2 axis => ?_⟩
  obtain ⟨e1, he1, hle1⟩ := exists_exponents_of_orbital h1
  obtain ⟨e2, he2, hle2⟩ := exists_exponents_of_orbital h2
  obtain ⟨htotal, hlargest⟩ := pairs_le_of_total_le hle1 hle2
  refine ⟨⟨_, expand_eq_ok .nuclear he1 he2 rfl, ?_⟩, ⟨_, expand_eq_ok .kinetic he1 he2 rfl, ?_⟩⟩
  · refine name_notMem_simplify
      (unabridged_of_spares (spares_nuclearAttraction _ _ (by decide))) (by decide) ?_
    rw [(shortNames_nuclear e1 e2 (by decide)).2]
    omega
  · refine name_notMem_simplify
      (unabridged_of_spares (spares_kineticEnergy _ _ (by decide))) (by decide) ?_
    rw [(shortNames_kinetic e1 e2 (by decide)).2]
    omega

/-- Two orbitals xxxx are beyond the twenty and have a pair too many; two orbitals xxx, the 18th,
have not. -/
theorem short_names_suffice_xxxx :
    (simplifiedFormula .nuclear (4 • Axis.x.unit) (4 • Axis.x.unit) .x "preFactor").HasBare "eps" ∧
      (simplifiedFormula .kinetic (4 • Axis.x.unit) (4 • Axis.x.unit) .x "coef").HasShortName "Y4" ∧
      (simplifiedFormula .kinetic (4 • Axis.x.unit) (4 • Axis.x.unit) .x "coef").HasBare "Y" ∧
      (∃ e, Family.nuclear.expand 18 18 none = .ok e ∧ "eps" ∉ e.names) ∧
      ∃ e, Family.kinetic.expand 18 18 none = .ok e ∧ "Y" ∉ e.names := by
  obtain ⟨⟨-, -, -, heps⟩, ⟨-, -, -, hY4, hY⟩, horbitals⟩ :=
    short_names_suffice (p := "preFactor") (q := "coef") (4 • Axis.x.unit) (4 • Axis.x.unit) .x
      (by decide) (by decide)
  exact ⟨heps.2 (by decide), hY4.2 (by decide), hY.2 (by decide),
    horbitals 18 18 (by decide) (by decide) none⟩

end GaussianIntegrals
