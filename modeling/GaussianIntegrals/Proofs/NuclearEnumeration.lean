/-
  The terms of the nuclear attraction sum of two orbitals of any exponents: the enumeration goes
  through every choice of indices once, asks no factorial of a negative number, and each term is
  zero or homogeneous (`nuclearTerms_enumerated`).

  An index triple is determined by the reductions and the shares of its axes (`tripleOf`), so that
  what is said of a term is said of functions on the axes. A factorial quotient is a natural
  number because it is a product of binomial coefficients, odd numbers and a power of two
  (`weight_of_add`).
-/
import GaussianIntegrals.Proofs.Lists
import GaussianIntegrals.Proofs.NuclearRecurrence
import GaussianIntegrals.Proofs.SimplifiedFormulas

namespace GaussianIntegrals

open Finset

/-! ## Reductions -/

namespace Reduction

theorem nodup_upTo (n : ℤ) : (upTo n).Nodup := by
  refine nodup_flatMap_of_key l Function.injective_id List.nodup_range (fun a _ => ?_) ?_
  · refine nodup_flatMap_of_key r Function.injective_id List.nodup_range (fun b _ => ?_) ?_
    · exact List.nodup_range.map fun i i' h => (mk.inj h).2.2
    · simp only [List.mem_map]
      rintro b - _ ⟨i, -, rfl⟩
      rfl
  · simp only [List.mem_flatMap, List.mem_map]
    rintro a - _ ⟨b, -, i, -, rfl⟩
    rfl

/-- The factorial quotient with every factorial asked of an integer, an error for a negative
one. -/
def checkedWeight (k : Reduction) : Except NegativeFactorial ℚ := do
  let whole ← factorialOf k.l
  let i ← factorialOf k.i
  let r ← factorialOf k.r
  let rest ← factorialOf ((k.l : ℤ) - 2 * k.r - 2 * k.i)
  .ok ((whole : ℚ) / (i * r * rest : ℕ))

theorem factorialOf_natCast (n : ℕ) : factorialOf n = .ok (factorial n) := by
  rw [factorialOf, if_neg (by omega), Int.toNat_natCast]

variable {k : Reduction}

theorem checkedWeight_eq (h : 2 * (k.r + k.i) ≤ k.l) : k.checkedWeight = .ok k.weight := by
  have hrest : (k.l : ℤ) - 2 * k.r - 2 * k.i = k.rest := by
    rw [rest]
    omega
  rw [checkedWeight, hrest]
  simp only [factorialOf_natCast]
  rfl

/-- The factorial quotient is a positive natural number. -/
theorem exists_pos_weight_eq (h : 2 * (k.r + k.i) ≤ k.l) : ∃ n : ℕ, 0 < n ∧ k.weight = n := by
  obtain ⟨n, -, hn⟩ := exists_weight_eq h
  refine ⟨n, Nat.pos_of_ne_zero fun hzero => weight_ne_zero k ?_, hn⟩
  rw [hn, hzero, Nat.cast_zero]

end Reduction

/-! ## Index triples -/

section Indices

variable {t1 t2 : Axis → ℕ}

theorem axes_of_mem_nuclearIndices {s1 s2 : Triad} {ks : List AxisIndex}
    (h : ks ∈ nuclearIndices s1 s2) : ks.map (·.axis) = Axis.all := by
  simp only [nuclearIndices, List.mem_flatMap, List.mem_map] at h
  obtain ⟨kx, -, ky, -, kz, -, ux, -, uy, -, uz, -, rfl⟩ := h
  rfl

/-- The sum goes through all index triples within their bounds. -/
theorem mem_nuclearIndices_iff {ks : List AxisIndex} :
    ks ∈ nuclearIndices (.ofExponents t1) (.ofExponents t2) ↔
      ks.map (·.axis) = Axis.all ∧ ∀ k ∈ ks, k.Admissible t1 t2 := by
  refine ⟨fun h => ⟨axes_of_mem_nuclearIndices h, (mem_nuclearIndices h).2⟩, fun ⟨haxes, h⟩ => ?_⟩
  obtain ⟨k, u, rfl⟩ := exists_eq_tripleOf haxes
  exact tripleOf_mem_nuclearIndices_iff.2 (forall_mem_tripleOf.1 h)

/-- No index triple comes twice. -/
theorem nodup_nuclearIndices (s1 s2 : Triad) : (nuclearIndices s1 s2).Nodup := by
  -- a triple tells the pass of each loop by the reduction or the share at its place
  refine nodup_flatMap_of_key (fun ks => (ks[0]?).map (·.reduction))
    (Option.some_injective _) (Reduction.nodup_upTo _) (fun kx _ => ?_) ?_
  · refine nodup_flatMap_of_key (fun ks => (ks[1]?).map (·.reduction))
      (Option.some_injective _) (Reduction.nodup_upTo _) (fun ky _ => ?_) ?_
    · refine nodup_flatMap_of_key (fun ks => (ks[2]?).map (·.reduction))
        (Option.some_injective _) (Reduction.nodup_upTo _) (fun kz _ => ?_) ?_
      · refine nodup_flatMap_of_key (fun ks => (ks[0]?).map (·.u))
          (Option.some_injective _) List.nodup_range (fun ux _ => ?_) ?_
        · refine nodup_flatMap_of_key (fun ks => (ks[1]?).map (·.u))
            (Option.some_injective _) List.nodup_range (fun uy _ => ?_) ?_
          · exact List.nodup_range.map fun uz uz' h => by simpa using h
          · simp only [List.mem_map]
            rintro uy - _ ⟨uz, -, rfl⟩
            rfl
        · simp only [List.mem_flatMap, List.mem_map]
          rintro ux - _ ⟨uy, -, uz, -, rfl⟩
          rfl
      · simp only [List.mem_flatMap, List.mem_map]
        rintro kz - _ ⟨ux, -, uy, -, uz, -, rfl⟩
        rfl
    · simp only [List.mem_flatMap, List.mem_map]
      rintro ky - _ ⟨kz, -, ux, -, uy, -, uz, -, rfl⟩
      rfl
  · simp only [List.mem_flatMap, List.mem_map]
    rintro kx - _ ⟨ky, -, kz, -, ux, -, uy, -, uz, -, rfl⟩
    rfl

end Indices

/-! ## The number of terms -/

/-- The pairs `r`, `i` that are left of `h` pairs. -/
theorem two_mul_sum_left (h : ℕ) : 2 * ∑ r ∈ range (h + 1), (h + 1 - r) = (h + 1) * (h + 2) := by
  induction h with
  | zero => rfl
  | succ h ih =>
    rw [sum_range_succ', mul_add, sum_congr rfl fun r _ => Nat.add_sub_add_right (h + 1) 1 r, ih,
      Nat.sub_zero]
    ring

/-- The reductions of one `l` with their shares. -/
theorem sum_shares (l : ℕ) :
    ∑ r ∈ range (l / 2 + 1), ∑ _i ∈ range ((l - 2 * r) / 2 + 1), (l + 1) =
      (l + 1) * (l / 2 + 1) * (l / 2 + 2) / 2 := by
  have hleft : ∀ r ∈ range (l / 2 + 1), ∑ _i ∈ range ((l - 2 * r) / 2 + 1), (l + 1) =
      (l + 1) * (l / 2 + 1 - r) := by
    intro r hr
    have hpairs : (l - 2 * r) / 2 + 1 = l / 2 + 1 - r := by
      have := mem_range.1 hr
      omega
    rw [sum_const, card_range, hpairs, smul_eq_mul, mul_comm]
  have htwice := two_mul_sum_left (l / 2)
  rw [sum_congr rfl hleft, ← mul_sum]
  refine (Nat.div_eq_of_eq_mul_right (by decide) ?_).symm
  rw [mul_assoc, ← htwice]
  ring

theorem length_nuclearIndices (t1 t2 : Axis → ℕ) :
    (nuclearIndices (.ofExponents t1) (.ofExponents t2)).length =
      (Axis.all.map fun a =>
        ∑ l ∈ range (t1 a + t2 a + 1), (l + 1) * (l / 2 + 1) * (l / 2 + 2) / 2).prod := by
  have haxis : ∀ a, ((Reduction.upTo (t1 a + t2 a : ℕ)).map fun k =>
      ((List.range (k.l + 1)).map fun _ => (1 : ℤ)).sum).sum =
        (∑ l ∈ range (t1 a + t2 a + 1), (l + 1) * (l / 2 + 1) * (l / 2 + 2) / 2 : ℕ) := by
    intro a
    have hone : ∀ n, ((List.range n).map fun _ => (1 : ℤ)).sum = n := by simp
    simp only [hone]
    rw [sum_upTo, Nat.cast_sum]
    refine sum_congr rfl fun l _ => ?_
    rw [← sum_shares]
    push_cast
    rfl
  have hcount := sum_nuclearIndices (R := ℤ) (.ofExponents t1) (.ofExponents t2) fun _ => 1
  simp only [Triad.on_ofExponents, ← Nat.cast_add, haxis] at hcount
  have hlength : ((nuclearIndices (.ofExponents t1) (.ofExponents t2)).map fun ks =>
      (ks.map fun _ => (1 : ℤ)).prod).sum =
        ((nuclearIndices (.ofExponents t1) (.ofExponents t2)).length : ℤ) := by simp
  rw [hlength] at hcount
  rw [← Nat.cast_inj (R := ℤ), hcount, Nat.cast_list_prod, List.map_map]
  rfl

/-! ## Terms -/

/-- The natural exponents of a term, and the order of its Boys function. -/
structure TermExponents where
  pa : Axis → ℕ
  pb : Axis → ℕ
  pc : Axis → ℕ
  eps : ℕ
  order : ℕ

namespace TermExponents

/-- The powers of a term with these exponents. -/
def powers (e : TermExponents) : List (String × ℤ) :=
  (Axis.all.flatMap fun a => [(centreSymbol "PA" a.number, (e.pa a : ℤ)),
    (centreSymbol "PB" a.number, (e.pb a : ℤ)), (centreSymbol "PC" a.number, (e.pc a : ℤ))]) ++
      [("eps", (e.eps : ℤ))]

/-- The exponents share out a degree, `eps` counting twice, and the order lies between the
exponents of `PC` without and with that of `eps`. -/
structure Homogeneous (e : TermExponents) (degree : ℕ) : Prop where
  degree_eq : Axis.total e.pa + Axis.total e.pb + Axis.total e.pc + 2 * e.eps = degree
  le_order : Axis.total e.pc ≤ e.order
  order_le : e.order ≤ Axis.total e.pc + e.eps

theorem Homogeneous.order_le_degree {e : TermExponents} {degree : ℕ} (h : e.Homogeneous degree) :
    e.order ≤ degree := by
  have hdegree := h.degree_eq
  have hle := h.order_le
  omega

end TermExponents

/-- The exponents of the term at an index triple. -/
def tripleExponents (t1 t2 : Axis → ℕ) (k : Axis → Reduction) (u : Axis → ℕ) : TermExponents where
  pa a := t1 a - u a
  pb a := t2 a - ((k a).l - u a)
  pc a := (k a).rest
  eps := Axis.total fun a => (k a).r + (k a).i
  order := Axis.total fun a => (k a).order

/-- The share of each orbital fits into its exponent. -/
def AxisIndex.Fits (t1 t2 : Axis → ℕ) (k : AxisIndex) : Prop :=
  k.u ≤ t1 k.axis ∧ k.reduction.l - k.u ≤ t2 k.axis

/-- The coefficient of a term without its sign, computed axis by axis: 0 at the first axis whose
binomial coefficients vanish, an error where a factorial is asked of a negative number. -/
def checkedMagnitude (s1 s2 : Triad) : List AxisIndex → ℚ → Except NegativeFactorial ℚ
  | [], c => .ok c
  | k :: ks, c =>
    if k.binomials s1 s2 = 0 then .ok 0
    else do
      let weight ← k.reduction.checkedWeight
      checkedMagnitude s1 s2 ks (c * (k.binomials s1 s2 * weight))

theorem checkedMagnitude_eq {s1 s2 : Triad} {ks : List AxisIndex} (c : ℚ)
    (h : ∀ k ∈ ks, 2 * (k.reduction.r + k.reduction.i) ≤ k.reduction.l) :
    checkedMagnitude s1 s2 ks c =
      .ok (c * (ks.map fun k => (k.binomials s1 s2 : ℚ) * k.reduction.weight).prod) := by
  induction ks generalizing c with
  | nil => rw [checkedMagnitude, List.map_nil, List.prod_nil, mul_one]
  | cons k ks ih =>
    rw [List.forall_mem_cons] at h
    rw [checkedMagnitude, List.map_cons, List.prod_cons]
    split
    · next hzero => rw [hzero, Nat.cast_zero, zero_mul, zero_mul, mul_zero]
    · rw [Reduction.checkedWeight_eq h.1]
      exact (ih _ h.2).trans (by rw [mul_assoc])

/-- The coefficient of a term, vanished or not. -/
theorem coefficient_nuclearTerm (s1 s2 : Triad) (ks : List AxisIndex) :
    (nuclearTerm s1 s2 ks).coefficient =
      (-1) ^ (ks.map fun k => k.reduction.l + k.reduction.i).sum *
        (ks.map fun k => (k.binomials s1 s2 : ℚ) * k.reduction.weight).prod := by
  by_cases h : ∃ k ∈ ks, k.binomials s1 s2 = 0
  · obtain ⟨k, hk, hzero⟩ := h
    have hprod : (ks.map fun k => (k.binomials s1 s2 : ℚ) * k.reduction.weight).prod = 0 := by
      refine List.prod_eq_zero (List.mem_map.2 ⟨k, hk, ?_⟩)
      rw [hzero, Nat.cast_zero, zero_mul]
    rw [nuclearTerm_of_vanished ⟨k, hk, hzero⟩, hprod, mul_zero]
    rfl
  · rw [nuclearTerm_of_kept fun k hk hzero => h ⟨k, hk, hzero⟩]

section Terms

variable {t1 t2 : Axis → ℕ}

theorem binomials_ne_zero_iff {k : AxisIndex} (hu : k.u ≤ k.reduction.l) :
    k.binomials (.ofExponents t1) (.ofExponents t2) ≠ 0 ↔ k.Fits t1 t2 :=
  ⟨le_of_binomials_ne_zero hu, fun h => binomials_ne_zero_of_le hu h.1 h.2⟩

/-- A term vanishes where the share of an orbital does not fit. -/
theorem vanished_nuclearTerm_iff {ks : List AxisIndex} (hu : ∀ k ∈ ks, k.u ≤ k.reduction.l) :
    (nuclearTerm (.ofExponents t1) (.ofExponents t2) ks).vanished = true ↔
      ∃ k ∈ ks, t1 k.axis < k.u ∨ t2 k.axis < k.reduction.l - k.u := by
  by_cases h : ∀ k ∈ ks, k.Fits t1 t2
  · rw [nuclearTerm_of_kept fun k hk => (binomials_ne_zero_iff (hu k hk)).2 (h k hk)]
    refine iff_of_false Bool.false_ne_true ?_
    rintro ⟨k, hk, hlt⟩
    obtain ⟨h1, h2⟩ := h k hk
    omega
  · simp only [not_forall] at h
    obtain ⟨k, hk, hfits⟩ := h
    have hzero : k.binomials (.ofExponents t1) (.ofExponents t2) = 0 :=
      not_not.1 (mt (binomials_ne_zero_iff (hu k hk)).1 hfits)
    rw [nuclearTerm_of_vanished ⟨k, hk, hzero⟩]
    refine iff_of_true rfl ⟨k, hk, ?_⟩
    unfold AxisIndex.Fits at hfits
    omega

variable {k : Axis → Reduction} {u : Axis → ℕ}

/-- The exponents at an index triple as they stand in its term. -/
theorem powers_tripleOf (hfits : ∀ a, AxisIndex.Fits t1 t2 ⟨a, k a, u a⟩)
    (hu : ∀ a, u a ≤ (k a).l) :
    (tripleOf k u).flatMap (AxisIndex.powers (.ofExponents t1) (.ofExponents t2)) ++
        [("eps", ((((tripleOf k u).map fun k => k.reduction.r + k.reduction.i).sum : ℕ) : ℤ))] =
      (tripleExponents t1 t2 k u).powers := by
  rw [sum_map_tripleOf, tripleOf, List.flatMap_map, TermExponents.powers]
  congr 2
  funext a
  obtain ⟨h1, h2⟩ := hfits a
  have hshare := hu a
  have hpa : (t1 a : ℤ) - u a = (t1 a - u a : ℕ) := by
    dsimp only at h1
    omega
  have hpb : (t2 a : ℤ) - (k a).l + u a = (t2 a - ((k a).l - u a) : ℕ) := by
    dsimp only at h2
    omega
  simp only [AxisIndex.powers, Triad.on_ofExponents, tripleExponents, hpa, hpb]

theorem homogeneous_tripleExponents (h : ∀ a, AxisIndex.Admissible t1 t2 ⟨a, k a, u a⟩)
    (hfits : ∀ a, AxisIndex.Fits t1 t2 ⟨a, k a, u a⟩) :
    (tripleExponents t1 t2 k u).Homogeneous (Axis.total t1 + Axis.total t2) := by
  have haxis : ∀ a, t1 a - u a + (t2 a - ((k a).l - u a)) + (k a).rest + 2 * ((k a).r + (k a).i) =
      t1 a + t2 a ∧ (k a).rest ≤ (k a).order ∧
        (k a).order ≤ (k a).rest + ((k a).r + (k a).i) := by
    intro a
    obtain ⟨h1, h2⟩ := hfits a
    have hpairs := (h a).pairs_le
    have hshare := (h a).share_le
    unfold Reduction.rest Reduction.order
    dsimp only at h1 h2 hpairs hshare
    omega
  have hx := haxis .x
  have hy := haxis .y
  have hz := haxis .z
  constructor <;> simp only [tripleExponents, Axis.total_eq] <;> omega

/-- The coefficient of a term that has not vanished is a positive natural number with a sign. -/
theorem exists_magnitude {ks : List AxisIndex}
    (h : ∀ k ∈ ks, 2 * (k.reduction.r + k.reduction.i) ≤ k.reduction.l) {s1 s2 : Triad}
    (hne : ∀ k ∈ ks, k.binomials s1 s2 ≠ 0) :
    ∃ n : ℕ, 0 < n ∧ (ks.map fun k => (k.binomials s1 s2 : ℚ) * k.reduction.weight).prod = n := by
  induction ks with
  | nil => exact ⟨1, Nat.one_pos, by simp⟩
  | cons k ks ih =>
    rw [List.forall_mem_cons] at h hne
    obtain ⟨m, hm, hmeq⟩ := ih h.2 hne.2
    obtain ⟨n, hn, hneq⟩ := Reduction.exists_pos_weight_eq h.1
    refine ⟨k.binomials s1 s2 * n * m,
      Nat.mul_pos (Nat.mul_pos (Nat.pos_of_ne_zero hne.1) hn) hm, ?_⟩
    rw [List.map_cons, List.prod_cons, hmeq, hneq]
    push_cast
    rfl

/-- The term at an index triple whose shares fit. -/
theorem exists_nuclearTerm_tripleOf (h : ∀ a, AxisIndex.Admissible t1 t2 ⟨a, k a, u a⟩)
    (hfits : ∀ a, AxisIndex.Fits t1 t2 ⟨a, k a, u a⟩) :
    ∃ n : ℕ, 0 < n ∧ nuclearTerm (.ofExponents t1) (.ofExponents t2) (tripleOf k u) =
      ⟨(-1) ^ ((tripleOf k u).map fun k => k.reduction.l + k.reduction.i).sum * n,
        (tripleExponents t1 t2 k u).powers, [boysSymbol (tripleExponents t1 t2 k u).order],
        false⟩ := by
  have hne : ∀ x ∈ tripleOf k u, x.binomials (.ofExponents t1) (.ofExponents t2) ≠ 0 :=
    forall_mem_tripleOf.2 fun a => (binomials_ne_zero_iff (h a).share_le).2 (hfits a)
  have hpairs : ∀ x ∈ tripleOf k u, 2 * (x.reduction.r + x.reduction.i) ≤ x.reduction.l :=
    forall_mem_tripleOf.2 fun a => (h a).pairs_le
  obtain ⟨n, hn, hmagnitude⟩ := exists_magnitude hpairs hne
  refine ⟨n, hn, ?_⟩
  rw [nuclearTerm_of_kept hne, hmagnitude, powers_tripleOf hfits fun a => (h a).share_le,
    sum_map_tripleOf fun k => k.reduction.order]
  rfl

/-- The term at an index triple has not vanished just where all shares fit. -/
theorem kept_tripleOf_iff (hu : ∀ a, u a ≤ (k a).l) :
    (nuclearTerm (.ofExponents t1) (.ofExponents t2) (tripleOf k u)).vanished = false ↔
      ∀ a, AxisIndex.Fits t1 t2 ⟨a, k a, u a⟩ := by
  rw [← forall_mem_tripleOf (p := AxisIndex.Fits t1 t2), ← not_iff_not, Bool.not_eq_false,
    vanished_nuclearTerm_iff (forall_mem_tripleOf.2 hu)]
  simp only [AxisIndex.Fits, not_forall, not_and_or, not_le, exists_prop]

/-- A term that has not vanished, with its sign, its magnitude and its exponents. -/
theorem exists_nuclearTerm_eq {ks : List AxisIndex}
    (hks : ks ∈ nuclearIndices (.ofExponents t1) (.ofExponents t2))
    (hkept : (nuclearTerm (.ofExponents t1) (.ofExponents t2) ks).vanished = false) :
    ∃ (n : ℕ) (e : TermExponents), 0 < n ∧ e.Homogeneous (Axis.total t1 + Axis.total t2) ∧
      nuclearTerm (.ofExponents t1) (.ofExponents t2) ks =
        ⟨(-1) ^ (ks.map fun k => k.reduction.l + k.reduction.i).sum * n, e.powers,
          [boysSymbol e.order], false⟩ := by
  obtain ⟨k, u, rfl⟩ := exists_eq_tripleOf (axes_of_mem_nuclearIndices hks)
  have hadm := tripleOf_mem_nuclearIndices_iff.1 hks
  have hfits := (kept_tripleOf_iff fun a => (hadm a).share_le).1 hkept
  obtain ⟨n, hn, hterm⟩ := exists_nuclearTerm_tripleOf hadm hfits
  exact ⟨n, tripleExponents t1 t2 k u, hn, homogeneous_tripleExponents hadm hfits, hterm⟩

end Terms

/-- **The nuclear attraction sum is complete, and its terms are well formed.** It goes once through
every choice of indices in their bounds. The coefficient of a term can always be computed. A term
vanishes if and only if a share does not fit into the exponent of its orbital. Any other term has
a positive natural number with the sign of `(-1) ^ Σ (l + i)` as its coefficient, natural exponents
that share out the degree, and a Boys function of an order that the exponents of `PC` and `eps`
allow. -/
theorem nuclearTerms_enumerated (t1 t2 : Axis → ℕ) :
    nuclearTerms (.ofExponents t1) (.ofExponents t2) =
        (nuclearIndices (.ofExponents t1) (.ofExponents t2)).map
          (nuclearTerm (.ofExponents t1) (.ofExponents t2)) ∧
      (nuclearIndices (.ofExponents t1) (.ofExponents t2)).Nodup ∧
      (∀ ks, ks ∈ nuclearIndices (.ofExponents t1) (.ofExponents t2) ↔
        ks.map (·.axis) = Axis.all ∧ ∀ k ∈ ks, k.Admissible t1 t2) ∧
      (nuclearTerms (.ofExponents t1) (.ofExponents t2)).length =
        (Axis.all.map fun a =>
          ∑ l ∈ range (t1 a + t2 a + 1), (l + 1) * (l / 2 + 1) * (l / 2 + 2) / 2).prod ∧
      ∀ ks ∈ nuclearIndices (.ofExponents t1) (.ofExponents t2),
        (∃ c, checkedMagnitude (.ofExponents t1) (.ofExponents t2) ks 1 = .ok c ∧
          (nuclearTerm (.ofExponents t1) (.ofExponents t2) ks).coefficient =
            (-1) ^ (ks.map fun k => k.reduction.l + k.reduction.i).sum * c) ∧
        ((nuclearTerm (.ofExponents t1) (.ofExponents t2) ks).vanished = true ↔
          ∃ k ∈ ks, t1 k.axis < k.u ∨ t2 k.axis < k.reduction.l - k.u) ∧
        ((nuclearTerm (.ofExponents t1) (.ofExponents t2) ks).vanished = false →
          ∃ (n : ℕ) (e : TermExponents), 0 < n ∧
            e.Homogeneous (Axis.total t1 + Axis.total t2) ∧
            nuclearTerm (.ofExponents t1) (.ofExponents t2) ks =
              ⟨(-1) ^ (ks.map fun k => k.reduction.l + k.reduction.i).sum * n, e.powers,
                [boysSymbol e.order], false⟩) := by
  refine ⟨rfl, nodup_nuclearIndices _ _, fun ks => mem_nuclearIndices_iff, ?_, fun ks hks => ?_⟩
  · rw [nuclearTerms, List.length_map, length_nuclearIndices]
  · have hadm := (mem_nuclearIndices hks).2
    refine ⟨⟨_, checkedMagnitude_eq 1 fun k hk => (hadm k hk).pairs_le, ?_⟩,
      vanished_nuclearTerm_iff fun k hk => (hadm k hk).share_le, exists_nuclearTerm_eq hks⟩
    rw [coefficient_nuclearTerm, one_mul]

/-- Two orbitals x: of the 12 terms, the one with `l = 2` and `u = 1` on the axis x has not
vanished, and the one with `u = 2` has. -/
theorem nuclearTerms_enumerated_x_x :
    (nuclearTerms (.ofExponents Axis.x.unit) (.ofExponents Axis.x.unit)).length = 12 ∧
      (∃ (n : ℕ) (e : TermExponents), 0 < n ∧ e.Homogeneous 2 ∧
        nuclearTerm (.ofExponents Axis.x.unit) (.ofExponents Axis.x.unit)
            (tripleOf (fun a => ⟨2 * Axis.x.unit a, 0, 0⟩) Axis.x.unit) =
          ⟨n, e.powers, [boysSymbol e.order], false⟩) ∧
      (nuclearTerm (.ofExponents Axis.x.unit) (.ofExponents Axis.x.unit)
        (tripleOf (fun a => ⟨2 * Axis.x.unit a, 0, 0⟩) (2 * Axis.x.unit))).vanished = true := by
  obtain ⟨-, -, -, hlength, hterms⟩ := nuclearTerms_enumerated Axis.x.unit Axis.x.unit
  refine ⟨hlength.trans (by decide), ?_, ?_⟩
  · obtain ⟨-, -, hkept⟩ := hterms (tripleOf (fun a => ⟨2 * Axis.x.unit a, 0, 0⟩) Axis.x.unit)
      (by decide)
    obtain ⟨n, e, hn, he, hterm⟩ := hkept (by decide)
    refine ⟨n, e, hn, he, hterm.trans ?_⟩
    rw [sum_map_tripleOf fun k => k.reduction.l + k.reduction.i]
    exact congrArg (Summand.mk · e.powers [boysSymbol e.order] false) (one_mul _)
  · obtain ⟨-, hvanished, -⟩ := hterms
      (tripleOf (fun a => ⟨2 * Axis.x.unit a, 0, 0⟩) (2 * Axis.x.unit)) (by decide)
    exact hvanished.2 ⟨⟨.x, ⟨2, 0, 0⟩, 2⟩, by decide, by decide⟩

end GaussianIntegrals
