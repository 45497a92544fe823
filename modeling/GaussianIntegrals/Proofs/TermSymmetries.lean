/-
  The symmetries of the terms: exchanging the two orbitals exchanges `PA` and `PB`, and renumbering
  the axes renumbers the symbols of the centres (`terms_symmetric`). The terms are compared without
  their order, each by its coefficient, the exponents of its symbols, its bare symbols and whether
  it vanished (`TermContent`).

  The sums treat the orbitals and the axes differently: a share is that of orbital 1, and the axes
  stand in a fixed order. An exchange turns the share `u` into `l - u`; a renumbering puts the
  indices of an axis in the place of another. Both are one lemma about a term whose indices are
  matched (`content_nuclearTerm_of_matches`), applied to a matching of all indices
  (`perm_map_of_inverse`).
-/
import GaussianIntegrals.Proofs.FormulaLeaves
import GaussianIntegrals.Proofs.Lists

namespace GaussianIntegrals

/-! ## Renamed symbols -/

/-- The name that a table gives to a symbol; other symbols keep theirs. -/
def renamed (table : List (String × String)) (name : String) : String :=
  (table.lookup name).getD name

theorem renamed_of_mem {table : List (String × String)} (h : (table.map Prod.fst).Nodup)
    {name name' : String} (hmem : (name, name') ∈ table) : renamed table name = name' := by
  rw [renamed, (lookup_eq_some_iff_mem h).2 hmem]
  rfl

theorem renamed_of_notMem {table : List (String × String)} {name : String}
    (h : name ∉ table.map Prod.fst) : renamed table name = name := by
  rw [renamed, lookup_eq_none_iff_notMem.2 h]
  rfl

/-- `PA` and `PB` exchanged. -/
def exchangedCentres : List (String × String) :=
  Axis.all.flatMap fun a =>
    [(centreSymbol "PA" a.number, centreSymbol "PB" a.number),
      (centreSymbol "PB" a.number, centreSymbol "PA" a.number)]

/-- The centres on each axis renamed after another axis. -/
def renumberedCentres (σ : Equiv.Perm Axis) : List (String × String) :=
  ["PA", "PB", "PC"].flatMap fun w =>
    Axis.all.map fun a => (centreSymbol w a.number, centreSymbol w (σ a).number)

theorem renamed_exchanged_PA (a : Axis) :
    renamed exchangedCentres (centreSymbol "PA" a.number) = centreSymbol "PB" a.number := by
  cases a <;> decide

theorem renamed_exchanged_PB (a : Axis) :
    renamed exchangedCentres (centreSymbol "PB" a.number) = centreSymbol "PA" a.number := by
  cases a <;> decide

theorem renamed_exchanged_PC (a : Axis) :
    renamed exchangedCentres (centreSymbol "PC" a.number) = centreSymbol "PC" a.number := by
  cases a <;> decide

theorem keys_renumbered (σ : Equiv.Perm Axis) :
    (renumberedCentres σ).map Prod.fst =
      ["PA", "PB", "PC"].flatMap fun w => Axis.all.map fun a => centreSymbol w a.number := rfl

theorem renamed_renumbered (σ : Equiv.Perm Axis) {w : String} (hw : w ∈ ["PA", "PB", "PC"])
    (a : Axis) :
    renamed (renumberedCentres σ) (centreSymbol w a.number) = centreSymbol w (σ a).number := by
  refine renamed_of_mem ?_ (List.mem_flatMap.2 ⟨w, hw, List.mem_map_of_mem (Axis.mem_all a)⟩)
  rw [keys_renumbered]
  decide

/-- The table renames symbols of centres only. -/
def OfCentres (table : List (String × String)) : Prop :=
  ∀ name ∈ table.map Prod.fst, name.toList.head? = some 'P'

theorem ofCentres_exchanged : OfCentres exchangedCentres := by
  rw [OfCentres]
  decide

theorem ofCentres_renumbered (σ : Equiv.Perm Axis) : OfCentres (renumberedCentres σ) := by
  rw [OfCentres, keys_renumbered]
  decide

theorem renamed_of_head {table : List (String × String)} (h : OfCentres table) {name : String}
    (hname : name.toList.head? ≠ some 'P') : renamed table name = name :=
  renamed_of_notMem fun hmem => hname (h name hmem)

theorem renamed_boysSymbol {table : List (String × String)} (h : OfCentres table) (n : ℕ) :
    renamed table (boysSymbol n) = boysSymbol n := by
  refine renamed_of_head h ?_
  rw [toList_boysSymbol, List.head?_cons]
  decide

/-! ## Contents of terms -/

/-- What a term says, whatever the order of its powers. -/
structure TermContent where
  coefficient : ℚ
  exponent? : String → Option ℤ
  symbols : List String
  vanished : Bool

namespace Summand

/-- The content of a term. -/
def content (t : Summand) : TermContent :=
  ⟨t.coefficient, fun name => t.powers.lookup name, t.symbols, t.vanished⟩

/-- A power with its symbol renamed. -/
def renamedPower (table : List (String × String)) (q : String × ℤ) : String × ℤ :=
  (renamed table q.1, q.2)

/-- The term with its symbols renamed. -/
def rename (table : List (String × String)) (t : Summand) : Summand :=
  { t with
    powers := t.powers.map (renamedPower table)
    symbols := t.symbols.map (renamed table) }

theorem content_eq_of_perm {t t' : Summand} (hkeys : (t.powers.map Prod.fst).Nodup)
    (hpowers : t.powers.Perm t'.powers) (hcoefficient : t.coefficient = t'.coefficient)
    (hsymbols : t.symbols = t'.symbols) (hvanished : t.vanished = t'.vanished) :
    t.content = t'.content := by
  rw [content, content, hcoefficient, hsymbols, hvanished,
    funext fun name => lookup_eq_of_perm hpowers hkeys name]

theorem rename_zero (table : List (String × String)) : rename table .zero = .zero := rfl

end Summand

open Summand

/-! ## Matched indices -/

section Matches

variable {table : List (String × String)} {s1 s2 s1' s2' : Triad} {f : AxisIndex → AxisIndex}

/-- An index of two orbitals that does what the given one does for two others, with other names. -/
structure Matches (table : List (String × String)) (s1 s2 s1' s2' : Triad) (k k' : AxisIndex) :
    Prop where
  reduction_eq : k'.reduction = k.reduction
  binomials_eq : k'.binomials s1' s2' = k.binomials s1 s2
  powers_perm : (k'.powers s1' s2').Perm ((k.powers s1 s2).map (renamedPower table))

theorem nodup_names {ks : List AxisIndex} (h : ks.map (·.axis) = Axis.all) (m : ℤ) :
    ((ks.flatMap (AxisIndex.powers s1 s2) ++ [("eps", m)]).map Prod.fst).Nodup := by
  have hnames : (ks.flatMap (AxisIndex.powers s1 s2)).map Prod.fst =
      (ks.map (·.axis)).flatMap fun a =>
        [centreSymbol "PA" a.number, centreSymbol "PB" a.number, centreSymbol "PC" a.number] := by
    rw [List.map_flatMap, List.flatMap_map]
    rfl
  have hnodup : ((Axis.all.flatMap fun a =>
      [centreSymbol "PA" a.number, centreSymbol "PB" a.number, centreSymbol "PC" a.number]) ++
        ["eps"]).Nodup := by decide
  rw [List.map_append, hnames, h]
  exact hnodup

/-! What a term is made of is the same for indices that match. -/

section Lists

variable {ks ks' : List AxisIndex} (h : ∀ k ∈ ks, Matches table s1 s2 s1' s2' k (f k))
  (hperm : ks'.Perm (ks.map f))

include h hperm

theorem exists_binomials_eq_zero_iff_of_matches :
    (∃ k ∈ ks', k.binomials s1' s2' = 0) ↔ ∃ k ∈ ks, k.binomials s1 s2 = 0 := by
  simp only [hperm.mem_iff, List.mem_map, exists_exists_and_eq_and]
  refine exists_congr fun k => and_congr_right fun hk => ?_
  rw [(h k hk).binomials_eq]

theorem sum_of_matches (g : Reduction → ℕ) :
    (ks'.map fun k => g k.reduction).sum = (ks.map fun k => g k.reduction).sum := by
  rw [(hperm.map _).sum_eq, List.map_map]
  exact congrArg List.sum (List.map_congr_left fun k hk => congrArg g (h k hk).reduction_eq)

theorem prod_of_matches :
    (ks'.map fun k => (k.binomials s1' s2' : ℚ) * k.reduction.weight).prod =
      (ks.map fun k => (k.binomials s1 s2 : ℚ) * k.reduction.weight).prod := by
  rw [(hperm.map _).prod_eq, List.map_map]
  refine congrArg List.prod (List.map_congr_left fun k hk => ?_)
  rw [Function.comp_apply, (h k hk).binomials_eq, (h k hk).reduction_eq]

theorem perm_powers_of_matches :
    (ks'.flatMap (AxisIndex.powers s1' s2')).Perm
      ((ks.flatMap (AxisIndex.powers s1 s2)).map (renamedPower table)) := by
  refine (hperm.flatMap_right _).trans ?_
  rw [List.flatMap_map, List.map_flatMap]
  exact List.Perm.flatMap_left _ fun k hk => (h k hk).powers_perm

/-- A term whose indices match those of another term has its content with other names. -/
theorem content_nuclearTerm_of_matches (htable : OfCentres table)
    (haxes : ks'.map (·.axis) = Axis.all) :
    (nuclearTerm s1' s2' ks').content = ((nuclearTerm s1 s2 ks).rename table).content := by
  have hiff := exists_binomials_eq_zero_iff_of_matches h hperm
  by_cases hzero : ∃ k ∈ ks, k.binomials s1 s2 = 0
  · rw [nuclearTerm_of_vanished hzero, nuclearTerm_of_vanished (hiff.2 hzero), rename_zero]
  · have hkept : ∀ k ∈ ks, k.binomials s1 s2 ≠ 0 := fun k hk hbinomials =>
      hzero ⟨k, hk, hbinomials⟩
    have hkept' : ∀ k ∈ ks', k.binomials s1' s2' ≠ 0 := fun k hk hbinomials =>
      hzero (hiff.1 ⟨k, hk, hbinomials⟩)
    have heps : renamed table "eps" = "eps" := renamed_of_head htable (by decide)
    rw [nuclearTerm_of_kept hkept, nuclearTerm_of_kept hkept']
    refine content_eq_of_perm (nodup_names haxes _) ?_ ?_ ?_ rfl
    · dsimp only [rename]
      rw [List.map_append, sum_of_matches h hperm fun k => k.r + k.i]
      refine (perm_powers_of_matches h hperm).append (.of_eq ?_)
      rw [List.map_singleton, renamedPower, heps]
    · dsimp only [rename]
      rw [sum_of_matches h hperm fun k => k.l + k.i, prod_of_matches h hperm]
    · dsimp only [rename]
      rw [sum_of_matches h hperm Reduction.order, List.map_singleton, renamed_boysSymbol htable]

end Lists

/-- Terms of matched indices have the same contents but for the names. -/
theorem perm_nuclearTerms {F : List AxisIndex → List AxisIndex}
    (hindices : (nuclearIndices s1' s2').Perm ((nuclearIndices s1 s2).map F))
    (hterm : ∀ ks ∈ nuclearIndices s1 s2,
      (nuclearTerm s1' s2' (F ks)).content = ((nuclearTerm s1 s2 ks).rename table).content) :
    ((nuclearTerms s1' s2').map content).Perm
      ((nuclearTerms s1 s2).map fun t => (t.rename table).content) := by
  rw [nuclearTerms, nuclearTerms, List.map_map, List.map_map]
  refine (hindices.map _).trans (.of_eq ?_)
  rw [List.map_map]
  exact List.map_congr_left hterm

end Matches

/-! ## The orbitals exchanged -/

section Exchange

/-- The index with the share of the other orbital. -/
def AxisIndex.swapped (k : AxisIndex) : AxisIndex := { k with u := k.reduction.l - k.u }

theorem AxisIndex.swapped_swapped {k : AxisIndex} (h : k.u ≤ k.reduction.l) :
    k.swapped.swapped = k := by
  rw [swapped, swapped]
  dsimp only
  rw [Nat.sub_sub_self h]

theorem matches_swapped (s1 s2 : Triad) {k : AxisIndex} (h : k.u ≤ k.reduction.l) :
    Matches exchangedCentres s1 s2 s2 s1 k k.swapped := by
  have hu : ((k.reduction.l - k.u : ℕ) : ℤ) = k.reduction.l - k.u := Nat.cast_sub h
  refine ⟨rfl, ?_, ?_⟩
  · rw [AxisIndex.binomials, AxisIndex.binomials, AxisIndex.swapped, hu, sub_sub_cancel, mul_comm]
  · simp only [AxisIndex.powers, AxisIndex.swapped, List.map_cons, List.map_nil, renamedPower,
      renamed_exchanged_PA, renamed_exchanged_PB, renamed_exchanged_PC, hu]
    have hpa : s2.on k.axis - ((k.reduction.l : ℤ) - k.u) = s2.on k.axis - k.reduction.l + k.u := by
      ring
    have hpb : s1.on k.axis - (k.reduction.l : ℤ) + (k.reduction.l - k.u) = s1.on k.axis - k.u := by
      ring
    rw [hpa, hpb]
    exact .swap _ _ _

variable {t1 t2 : Axis → ℕ}

theorem swapped_mem_nuclearIndices {ks : List AxisIndex}
    (h : ks ∈ nuclearIndices (.ofExponents t1) (.ofExponents t2)) :
    ks.map AxisIndex.swapped ∈ nuclearIndices (.ofExponents t2) (.ofExponents t1) ∧
      (ks.map AxisIndex.swapped).map AxisIndex.swapped = ks := by
  obtain ⟨haxes, hadm⟩ := mem_nuclearIndices_iff.1 h
  refine ⟨mem_nuclearIndices_iff.2 ⟨?_, List.forall_mem_map.2 fun k hk => ?_⟩, ?_⟩
  · rw [List.map_map]
    exact haxes
  · have hle := (hadm k hk).order_le
    exact ⟨by rwa [add_comm], (hadm k hk).pairs_le, Nat.sub_le _ _⟩
  · rw [List.map_map]
    exact (List.map_congr_left fun k hk =>
      AxisIndex.swapped_swapped (hadm k hk).share_le).trans (List.map_id ks)

theorem nuclearTerms_exchange (t1 t2 : Axis → ℕ) :
    ((nuclearTerms (.ofExponents t2) (.ofExponents t1)).map content).Perm
      ((nuclearTerms (.ofExponents t1) (.ofExponents t2)).map fun t =>
        (t.rename exchangedCentres).content) := by
  refine perm_nuclearTerms (perm_map_of_inverse (nodup_nuclearIndices _ _)
    (nodup_nuclearIndices _ _) (fun _ => swapped_mem_nuclearIndices)
    fun _ => swapped_mem_nuclearIndices) fun ks hks => ?_
  obtain ⟨haxes, hadm⟩ := mem_nuclearIndices_iff.1 hks
  exact content_nuclearTerm_of_matches (fun k hk => matches_swapped _ _ (hadm k hk).share_le)
    (.refl _) ofCentres_exchanged (axes_of_mem_nuclearIndices (swapped_mem_nuclearIndices hks).1)

end Exchange

/-! ## The axes renumbered -/

section Renumbering

variable (σ : Equiv.Perm Axis)

/-- The index on the axis that takes the place of its own. -/
def AxisIndex.moved (k : AxisIndex) : AxisIndex := { k with axis := σ k.axis }

/-- The indices on the axes that take the places of their own, in the order of the axes. -/
def movedIndices (ks : List AxisIndex) : List AxisIndex :=
  Axis.all.filterMap fun a => (ks.find? fun k => k.axis = σ.symm a).map (AxisIndex.moved σ)

theorem perm_map_axes : (Axis.all.map σ).Perm Axis.all :=
  (perm_map_of_inverse (g := σ.symm) (by decide) (by decide)
    (fun a _ => ⟨Axis.mem_all _, σ.symm_apply_apply a⟩)
    fun a _ => ⟨Axis.mem_all _, σ.apply_symm_apply a⟩).symm

theorem movedIndices_tripleOf (k : Axis → Reduction) (u : Axis → ℕ) :
    movedIndices σ (tripleOf k u) = tripleOf (k ∘ σ.symm) (u ∘ σ.symm) := by
  have hfind : ∀ b, (tripleOf k u).find? (fun x => x.axis = b) = some ⟨b, k b, u b⟩ := by
    intro b
    cases b <;> rfl
  simp only [movedIndices, hfind, Option.map_some, AxisIndex.moved, Equiv.apply_symm_apply]
  exact congrFun List.filterMap_eq_map _

theorem movedIndices_perm (k : Axis → Reduction) (u : Axis → ℕ) :
    (movedIndices σ (tripleOf k u)).Perm ((tripleOf k u).map (AxisIndex.moved σ)) := by
  have hmap : (tripleOf k u).map (AxisIndex.moved σ) =
      (Axis.all.map σ).map fun a => ⟨a, k (σ.symm a), u (σ.symm a)⟩ := by
    rw [tripleOf, List.map_map, List.map_map]
    exact List.map_congr_left fun a _ => by simp [AxisIndex.moved]
  rw [movedIndices_tripleOf, hmap]
  exact ((perm_map_axes σ).map _).symm

theorem matches_moved (t1 t2 : Axis → ℕ) (k : AxisIndex) :
    Matches (renumberedCentres σ) (.ofExponents t1) (.ofExponents t2) (.ofExponents (t1 ∘ σ.symm))
      (.ofExponents (t2 ∘ σ.symm)) k (k.moved σ) := by
  refine ⟨rfl, ?_, .of_eq ?_⟩
  · simp [AxisIndex.binomials, AxisIndex.moved, Triad.on_ofExponents]
  · simp [AxisIndex.powers, AxisIndex.moved, Triad.on_ofExponents, renamedPower, renamed_renumbered]

theorem movedIndices_mem {t1 t2 : Axis → ℕ} {ks : List AxisIndex}
    (h : ks ∈ nuclearIndices (.ofExponents t1) (.ofExponents t2)) :
    movedIndices σ ks ∈ nuclearIndices (.ofExponents (t1 ∘ σ.symm)) (.ofExponents (t2 ∘ σ.symm)) ∧
      movedIndices σ.symm (movedIndices σ ks) = ks := by
  obtain ⟨k, u, rfl⟩ := exists_eq_tripleOf (axes_of_mem_nuclearIndices h)
  have hadm := tripleOf_mem_nuclearIndices_iff.1 h
  rw [movedIndices_tripleOf]
  refine ⟨tripleOf_mem_nuclearIndices_iff.2 fun a => ?_, ?_⟩
  · have ha := hadm (σ.symm a)
    exact ⟨ha.order_le, ha.pairs_le, ha.share_le⟩
  · rw [movedIndices_tripleOf]
    simp [Function.comp_assoc]

/-- Renumbered exponents give the terms with their symbols renumbered. -/
theorem nuclearTerms_renumbering (t1 t2 : Axis → ℕ) :
    ((nuclearTerms (.ofExponents (t1 ∘ σ.symm)) (.ofExponents (t2 ∘ σ.symm))).map content).Perm
      ((nuclearTerms (.ofExponents t1) (.ofExponents t2)).map fun t =>
        (t.rename (renumberedCentres σ)).content) := by
  have hback : ∀ t : Axis → ℕ, (t ∘ σ.symm) ∘ σ.symm.symm = t := fun t => by
    rw [Function.comp_assoc, Equiv.symm_symm, Equiv.symm_comp_self, Function.comp_id]
  refine perm_nuclearTerms (F := movedIndices σ) (perm_map_of_inverse (g := movedIndices σ.symm)
    (nodup_nuclearIndices _ _) (nodup_nuclearIndices _ _) (fun _ => movedIndices_mem σ)
    fun ks hks => ?_) fun ks hks => ?_
  · have hmem := movedIndices_mem σ.symm hks
    rwa [hback, hback] at hmem
  · have haxes := axes_of_mem_nuclearIndices (movedIndices_mem σ hks).1
    obtain ⟨k, u, rfl⟩ := exists_eq_tripleOf (axes_of_mem_nuclearIndices hks)
    exact content_nuclearTerm_of_matches (fun x _ => matches_moved σ t1 t2 x)
      (movedIndices_perm σ k u) (ofCentres_renumbered σ) haxes

end Renumbering

/-! ## Overlaps -/

section Overlap

variable {e1 e2 : ℤ} {j s : ℕ}

theorem nodup_names_overlapTerm (a : Axis) (k l m : ℤ) :
    ([(centreSymbol "PA" a.number, k), (centreSymbol "PB" a.number, l), ("Y", m)].map
      Prod.fst).Nodup := by
  have hnames : ∀ a : Axis,
      [centreSymbol "PA" a.number, centreSymbol "PB" a.number, "Y"].Nodup := by
    intro a
    cases a <;> decide
  exact hnames a

/-- The term with the share of the other orbital. -/
theorem content_overlapTerm_exchange (hs : s ≤ 2 * j) (a : Axis) :
    (overlapTerm e2 e1 a.number j (2 * j - s)).content =
      ((overlapTerm e1 e2 a.number j s).rename exchangedCentres).content := by
  have hshare : ((2 * j - s : ℕ) : ℤ) = 2 * j - s := by omega
  have hbinomials : binomial e2 (2 * j - s : ℕ) * binomial e1 (2 * (j : ℤ) - (2 * j - s : ℕ)) =
      binomial e1 s * binomial e2 (2 * (j : ℤ) - s) := by
    rw [hshare, sub_sub_cancel, mul_comm]
  unfold overlapTerm
  rw [hbinomials]
  dsimp only
  split
  · rw [rename_zero]
  · refine content_eq_of_perm (nodup_names_overlapTerm a _ _ _) ?_ rfl rfl rfl
    have hY : renamed exchangedCentres "Y" = "Y" := renamed_of_head ofCentres_exchanged (by decide)
    simp only [rename, List.map_cons, List.map_nil, renamedPower, renamed_exchanged_PA,
      renamed_exchanged_PB, hY, hshare]
    have hpa : e2 - (2 * (j : ℤ) - s) = e2 - 2 * j + s := by ring
    have hpb : e1 - 2 * (j : ℤ) + (2 * j - s) = e1 - s := by ring
    rw [hpa, hpb]
    exact .swap _ _ _

theorem overlapTerms_exchange (e1 e2 : ℤ) (a : Axis) :
    ((overlapTerms e2 e1 a.number).map content).Perm
      ((overlapTerms e1 e2 a.number).map fun t => (t.rename exchangedCentres).content) := by
  rw [overlapTerms, overlapTerms, List.map_flatMap, List.map_flatMap, add_comm e2 e1]
  refine List.Perm.flatMap_left _ fun j _ => ?_
  have hshares : (List.range (2 * j + 1)).Perm ((List.range (2 * j + 1)).map (2 * j - ·)) := by
    refine perm_map_of_inverse (g := (2 * j - ·)) List.nodup_range List.nodup_range ?_ ?_
    all_goals
      intro s hs
      rw [List.mem_range] at hs ⊢
      exact ⟨by omega, by omega⟩
  rw [List.map_map, List.map_map]
  refine (hshares.map _).trans (.of_eq ?_)
  rw [List.map_map]
  refine List.map_congr_left fun s hs => ?_
  exact content_overlapTerm_exchange (Nat.lt_succ_iff.1 (List.mem_range.1 hs)) a

end Overlap

/-- **The terms have the symmetries of the integrals.** Up to their order, the terms of the nuclear
attraction of exchanged orbitals are those of the given ones with `PA` and `PB` exchanged, those of
renumbered exponents have the symbols of the centres renumbered, and the terms of the overlap on an
axis of exchanged exponents have `PA` and `PB` exchanged; vanished terms count among them. -/
theorem terms_symmetric :
    (∀ t1 t2 : Axis → ℕ,
      ((nuclearTerms (.ofExponents t2) (.ofExponents t1)).map content).Perm
        ((nuclearTerms (.ofExponents t1) (.ofExponents t2)).map fun t =>
          (t.rename exchangedCentres).content)) ∧
    (∀ (σ : Equiv.Perm Axis) (t1 t2 : Axis → ℕ),
      ((nuclearTerms (.ofExponents (t1 ∘ σ.symm)) (.ofExponents (t2 ∘ σ.symm))).map content).Perm
        ((nuclearTerms (.ofExponents t1) (.ofExponents t2)).map fun t =>
          (t.rename (renumberedCentres σ)).content)) ∧
    ∀ (e1 e2 : ℤ) (a : Axis),
      ((overlapTerms e2 e1 a.number).map content).Perm
        ((overlapTerms e1 e2 a.number).map fun t => (t.rename exchangedCentres).content) :=
  ⟨nuclearTerms_exchange, nuclearTerms_renumbering, overlapTerms_exchange⟩

end GaussianIntegrals
