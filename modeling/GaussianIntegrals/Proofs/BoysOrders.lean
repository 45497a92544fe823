/-
  The orders of the Boys functions in a nuclear attraction: all from 0 up to the degree, and the
  same ones after any sequence of the families' rules (`boysOrders_outlast_rules`).

  No rule makes a name of a Boys function that was not there, since no short name looks like one
  (`BoysUpTo`). None takes one away either: these symbols stand in terms that have not vanished, so
  that they are live leaves, and no table lists them. The orders are then the same because the
  names are sorted and come once each. An order is an integer read from a name, so that it has to
  be within the reader's limit; up to there a name is also within the writer's
  (`boysSymbols_written`).
-/
import GaussianIntegrals.Proofs.FormulaLeaves
import GaussianIntegrals.Proofs.IntegerTexts
import GaussianIntegrals.Proofs.Lists
import GaussianIntegrals.Proofs.Outcomes
import GaussianIntegrals.Expansion.BoysOrders

namespace GaussianIntegrals

open Expr

/-! ## Names -/

theorem boysNumeral?_boysSymbol (n : ℕ) : boysNumeral? (boysSymbol n) = some (toString n) := by
  have hdigits : ∀ c ∈ Nat.toDigits 10 n, c.isDigit = true := fun _ =>
    Nat.isDigit_of_mem_toDigits (by decide) (by decide)
  obtain ⟨c, cs, hcs⟩ := List.exists_cons_of_ne_nil (Nat.toDigits_ne_nil (n := n) (b := 10))
  have hall : (c :: cs).all Text.isDigitLike = true := by
    rw [← hcs]
    exact List.all_eq_true.2 fun c hc => Text.isDigitLike_of_isDigit (hdigits c hc)
  rw [boysNumeral?, toList_boysSymbol, hcs, Nat.toString_eq_ofList_toDigits, hcs]
  exact if_pos hall

/-- A name is written like any other text with an integer, within the same limit. -/
theorem writes_boysSymbol (n : ℕ) :
    Text.Writes (Text.Writable n) (do .ok ("F" ++ (← Text.writeInt n))) (boysSymbol n) := by
  have hname : boysSymbol n = "F" ++ toString (n : ℤ) := rfl
  rw [hname]
  exact (Text.writes_writeInt n).bind_pure ("F" ++ ·)

theorem boysNumeral?_eq_none {name : String} {c : Char} {cs : List Char}
    (h : name.toList = c :: cs) (hc : c ≠ 'F') : boysNumeral? name = none := by
  unfold boysNumeral?
  rw [h]
  split
  · next heq => exact absurd (List.cons.inj heq).1 hc
  · rfl

theorem boysNumeral?_centreSymbol {w : String} {cs : List Char} (hw : w.toList = 'P' :: cs)
    (number : ℤ) : boysNumeral? (centreSymbol w number) = none := by
  have hlist := toList_centreSymbol w number
  rw [hw, List.cons_append] at hlist
  exact boysNumeral?_eq_none hlist (by decide)

/-- No name in the tables of the families looks like that of a Boys function. -/
theorem exists_rules_without_boys (n : FamilyName) :
    ∃ map, n.family.rules = Rule.standard map ∧
      ∀ entry ∈ map, boysNumeral? entry.1.1 = none ∧ boysNumeral? entry.2 = none := by
  cases n with
  | nuclear => exact ⟨.nuclear, rfl, by decide⟩
  | kinetic => exact ⟨.kinetic, rfl, by decide⟩
  | momentum => exact ⟨.momentum, rfl, by decide⟩

/-! ## No further orders -/

/-- If the expression, its parts apart, names a Boys function, its order is within the bound. -/
def BoysUpTo (bound : ℕ) (e : Expr) : Prop :=
  ∀ name, e.ownName? = some name → (boysNumeral? name).isSome = true →
    ∃ n ≤ bound, name = boysSymbol n

theorem boysUpTo_of_name {bound : ℕ} {e : Expr} {name : String} (he : e.ownName? = some name)
    (h : boysNumeral? name = none) : BoysUpTo bound e := by
  intro m hm hnumeral
  rw [he, Option.some.injEq] at hm
  rw [← hm, h] at hnumeral
  cases hnumeral

theorem leafProperty_boysUpTo (bound : ℕ) : LeafProperty (BoysUpTo bound) :=
  ⟨fun _ => nofun, fun _ => nofun, fun _ => nofun⟩

theorem inherited_boysUpTo {map : AliasMap} (hmap : ∀ entry ∈ map, boysNumeral? entry.2 = none)
    (bound : ℕ) : Inherited map (BoysUpTo bound) where
  toLeafProperty := leafProperty_boysUpTo bound
  zero := nofun
  one := nofun
  symbol _ h := h
  powerAlias _ _ _ hlookup _ := boysUpTo_of_name rfl (hmap _ (mem_of_lookup hlookup))
  symbolAlias _ _ hlookup _ := boysUpTo_of_name rfl (hmap _ (mem_of_lookup hlookup))

theorem everyPart_boysUpTo_simplifyWith {rules : List Rule}
    (hrules : ∀ r ∈ rules, ∃ n : FamilyName, r ∈ n.family.rules) {bound : ℕ} {e : Expr}
    (he : EveryPart (BoysUpTo bound) e) : EveryPart (BoysUpTo bound) (simplifyWith rules e) := by
  induction rules generalizing e with
  | nil => exact he
  | cons r rs ih =>
    rw [List.forall_mem_cons] at hrules
    obtain ⟨family, hr⟩ := hrules.1
    obtain ⟨map, heq, hmap⟩ := exists_rules_without_boys family
    have hinherited := inherited_boysUpTo (fun entry hentry => (hmap entry hentry).2) bound
    rw [simplifyWith_cons]
    exact ih hrules.2 (hinherited.everyPart_apply (heq ▸ hr) he)

section Nuclear

variable (t1 t2 : Axis → ℕ)

theorem boysNumeral?_powers (e : TermExponents) : ∀ q ∈ e.powers, boysNumeral? q.1 = none := by
  intro q hq
  rw [TermExponents.powers, List.mem_append, List.mem_flatMap] at hq
  rcases hq with ⟨a, -, hq⟩ | hq
  · simp only [List.mem_cons, List.not_mem_nil, or_false] at hq
    rcases hq with rfl | rfl | rfl
    · exact boysNumeral?_centreSymbol (w := "PA") rfl _
    · exact boysNumeral?_centreSymbol (w := "PB") rfl _
    · exact boysNumeral?_centreSymbol (w := "PC") rfl _
  · rw [List.mem_singleton.1 hq]
    have heps : "eps".toList = ['e', 'p', 's'] := rfl
    exact boysNumeral?_eq_none heps (by decide)

theorem everyPart_boysUpTo_nuclearTerm {ks : List AxisIndex}
    (hks : ks ∈ nuclearIndices (.ofExponents t1) (.ofExponents t2)) :
    EveryPart (BoysUpTo (Axis.total t1 + Axis.total t2))
      (nuclearTerm (.ofExponents t1) (.ofExponents t2) ks).toExpr := by
  cases hkept : (nuclearTerm (.ofExponents t1) (.ofExponents t2) ks).vanished with
  | true =>
    rw [Summand.toExpr, hkept]
    exact everyPart_const.2 nofun
  | false =>
    obtain ⟨n, e, -, he, hterm⟩ := exists_nuclearTerm_eq hks hkept
    rw [hterm]
    refine (leafProperty_boysUpTo _).everyPart_toExpr (fun _ => nofun)
      (fun q hq => boysUpTo_of_name rfl (boysNumeral?_powers e q hq)) ?_
    rintro _ hn name hname -
    rw [List.mem_singleton.1 hn] at hname
    exact ⟨e.order, he.order_le_degree, (Option.some.inj hname).symm⟩

/-- No name of a Boys function in the terms of a nuclear attraction is too long to be written. -/
theorem boysSymbols_written (hdegree : Text.Writable (Axis.total t1 + Axis.total t2))
    {ks : List AxisIndex} (hks : ks ∈ nuclearIndices (.ofExponents t1) (.ofExponents t2)) :
    ∀ name ∈ (nuclearTerm (.ofExponents t1) (.ofExponents t2) ks).symbols, ∃ n : ℕ,
      (do .ok ("F" ++ (← Text.writeInt n))) = Except.ok name := by
  intro name hname
  by_cases hzero : ∃ k ∈ ks, k.binomials (.ofExponents t1) (.ofExponents t2) = 0
  · rw [nuclearTerm_of_vanished hzero] at hname
    exact absurd hname List.not_mem_nil
  · have hkept : (nuclearTerm (.ofExponents t1) (.ofExponents t2) ks).vanished = false := by
      rw [nuclearTerm_of_kept fun k hk hk0 => hzero ⟨k, hk, hk0⟩]
    obtain ⟨n, e, -, he, hterm⟩ := exists_nuclearTerm_eq hks hkept
    have horder := he.order_le_degree
    rw [hterm, List.mem_singleton] at hname
    rw [hname]
    exact ⟨e.order, (writes_boysSymbol e.order).eq_ok (hdegree.of_natAbs_le (by omega))⟩

theorem everyPart_boysUpTo {p : String} (hp : boysNumeral? p = none) :
    EveryPart (BoysUpTo (Axis.total t1 + Axis.total t2))
      (nuclearAttraction (.ofExponents t1) (.ofExponents t2) p) := by
  refine everyPart_product.2 ⟨nofun, List.forall_mem_cons.2 ⟨everyPart_symbol.2
    (boysUpTo_of_name rfl hp), List.forall_mem_singleton.2 ?_⟩⟩
  exact (leafProperty_boysUpTo _).everyPart_ofTermList
    (List.forall_mem_map.2 fun ks hks => everyPart_boysUpTo_nuclearTerm t1 t2 hks)

/-! ## No missing orders -/

theorem simplifyWith_boysSymbol {rules : List Rule}
    (hrules : ∀ r ∈ rules, ∃ n : FamilyName, r ∈ n.family.rules) (n : ℕ) :
    simplifyWith rules (.symbol (boysSymbol n)) = .symbol (boysSymbol n) := by
  induction rules with
  | nil => rfl
  | cons r rs ih =>
    rw [List.forall_mem_cons] at hrules
    obtain ⟨family, hr⟩ := hrules.1
    obtain ⟨map, heq, hmap⟩ := exists_rules_without_boys family
    have hnone : map.lookup (boysSymbol n, 1) = none := by
      rw [lookup_eq_none_iff_notMem, List.mem_map]
      rintro ⟨entry, hentry, hkey⟩
      have hnumeral := (hmap entry hentry).1
      rw [hkey, boysNumeral?_boysSymbol] at hnumeral
      cases hnumeral
    have hsymbol : r.apply (.symbol (boysSymbol n)) = .symbol (boysSymbol n) := by
      rw [heq] at hr
      simp only [Rule.standard, List.mem_cons, List.not_mem_nil, or_false] at hr
      rcases hr with rfl | rfl | rfl | rfl | rfl
      · rfl
      · rfl
      · rfl
      · rfl
      · simp [Rule.apply, replace, Rule.aliases, hnone]
    rw [simplifyWith_cons, hsymbol, ih hrules.2]

/-- After any rules the names of Boys functions are those up to the degree. -/
theorem mem_names_and_isSome_boysNumeral?_iff {p : String} (hp : boysNumeral? p = none)
    {rules : List Rule} (hrules : ∀ r ∈ rules, ∃ n : FamilyName, r ∈ n.family.rules)
    (name : String) :
    (name ∈ (simplifyWith rules (nuclearAttraction (.ofExponents t1) (.ofExponents t2) p)).names ∧
        (boysNumeral? name).isSome = true) ↔
      ∃ n ≤ Axis.total t1 + Axis.total t2, name = boysSymbol n := by
  constructor
  · rintro ⟨hmem, hnumeral⟩
    obtain ⟨l, hl, hname⟩ := mem_names.1 hmem
    have hparts : EveryPart (BoysUpTo (Axis.total t1 + Axis.total t2))
        (simplifyWith rules (nuclearAttraction (.ofExponents t1) (.ofExponents t2) p)) :=
      everyPart_boysUpTo_simplifyWith hrules (everyPart_boysUpTo t1 t2 hp)
    exact hparts l hl name hname hnumeral
  · rintro ⟨n, hn, rfl⟩
    refine ⟨mem_names.2 ⟨.symbol (boysSymbol n), ?_, rfl⟩, by rw [boysNumeral?_boysSymbol]; rfl⟩
    have hstandard : ∀ r ∈ rules, ∃ map, r ∈ Rule.standard map := fun r hr => by
      obtain ⟨family, hr⟩ := hrules r hr
      obtain ⟨map, heq, -⟩ := exists_rules_without_boys family
      exact ⟨map, heq ▸ hr⟩
    refine (mem_walk_of_mem_liveLeaves ?_).1
    rw [liveLeaves_simplifyWith hstandard, List.mem_flatMap]
    refine ⟨_, symbol_boys_mem hn p, ?_⟩
    rw [simplifyWith_boysSymbol hrules]
    exact List.mem_cons_self

end Nuclear

/-! ## Orders -/

/-- Expressions that name the same Boys functions have the same orders. -/
theorem boysOrders_eq_of_mem_iff {e e' : Expr}
    (h : ∀ name, (boysNumeral? name).isSome = true → (name ∈ e.names ↔ name ∈ e'.names)) :
    e.boysOrders = e'.boysOrders := by
  have hnames : e.names.filter (fun name => (boysNumeral? name).isSome) =
      e'.names.filter fun name => (boysNumeral? name).isSome := by
    refine eq_of_mem_iff ((pairwise_names e).filter _) ((pairwise_names e').filter _) fun name => ?_
    rw [List.mem_filter, List.mem_filter]
    exact and_congr_left (h name)
  have hnumerals : ∀ names : List String, names.filterMap boysNumeral? =
      (names.filter fun name => (boysNumeral? name).isSome).filterMap boysNumeral? := by
    intro names
    rw [List.filterMap_filter]
    refine List.filterMap_congr fun name _ => ?_
    cases boysNumeral? name <;> rfl
  rw [boysOrders, boysOrders, hnumerals e.names, hnames, ← hnumerals e'.names]

theorem pairwise_orders (L : ℕ) :
    ((List.range (L + 1)).map fun n : ℕ => (n : ℤ)).Pairwise (· < ·) :=
  List.pairwise_map.2 (List.pairwise_lt_range.imp Int.ofNat_lt.2)

section Orders

variable {e : Expr} {L : ℕ}
  (h : ∀ name, (name ∈ e.names ∧ (boysNumeral? name).isSome = true) ↔
    ∃ n ≤ L, name = boysSymbol n)

include h

theorem mem_boysNumerals_iff {s : String} :
    s ∈ e.names.filterMap boysNumeral? ↔ ∃ n ≤ L, s = toString n := by
  rw [List.mem_filterMap]
  constructor
  · rintro ⟨name, hmem, hs⟩
    obtain ⟨n, hn, rfl⟩ := (h name).1 ⟨hmem, by rw [hs]; rfl⟩
    rw [boysNumeral?_boysSymbol, Option.some.injEq] at hs
    exact ⟨n, hn, hs.symm⟩
  · rintro ⟨n, hn, rfl⟩
    exact ⟨boysSymbol n, ((h _).2 ⟨n, hn, rfl⟩).1, boysNumeral?_boysSymbol n⟩

theorem lt_of_boysOrders_eq_ok {orders : List ℤ} (hok : e.boysOrders = .ok orders) :
    L < 10 ^ Text.digitLimit := by
  obtain ⟨read, hread, -⟩ := bind_eq_ok.1 hok
  obtain ⟨v, -, hv⟩ :=
    exists_of_mapM_eq_ok hread ((mem_boysNumerals_iff h).2 ⟨L, Nat.le_refl L, rfl⟩)
  exact (Text.readInt_toString_eq_ok_iff.1 hv).1

theorem boysOrders_eq_ok (hlimit : L < 10 ^ Text.digitLimit) :
    e.boysOrders = .ok ((List.range (L + 1)).map fun n : ℕ => (n : ℤ)) := by
  have hread : ∀ n ≤ L, Text.readInt (toString n) = .ok (n : ℤ) := fun n hn =>
    Text.readInt_toString_eq_ok_iff.2 ⟨hn.trans_lt hlimit, rfl⟩
  obtain ⟨value, hvalue⟩ : ∃ value : String → ℤ, ∀ n ≤ L, value (toString n) = n := by
    refine ⟨fun s => (Text.readInt s).toOption.getD 0, fun n hn => ?_⟩
    dsimp only
    rw [hread n hn]
    rfl
  have horders := mapM_eq_ok (f := Text.readInt) (g := value) fun s hs => by
    obtain ⟨n, hn, rfl⟩ := (mem_boysNumerals_iff h).1 hs
    rw [hread n hn, hvalue n hn]
  rw [boysOrders, horders]
  refine congrArg Except.ok (eq_of_mem_iff
    (pairwise_eraseReps_mergeSort (fun _ _ => decide_eq_true_iff) _) (pairwise_orders L)
    fun v => ?_)
  simp only [mem_eraseReps, List.mem_mergeSort, List.mem_map, mem_boysNumerals_iff h,
    List.mem_range, Nat.lt_succ_iff]
  constructor
  · rintro ⟨_, ⟨n, hn, rfl⟩, rfl⟩
    exact ⟨n, hn, (hvalue n hn).symm⟩
  · rintro ⟨n, hn, rfl⟩
    exact ⟨_, ⟨n, hn, rfl⟩, hvalue n hn⟩

/-- The orders of an expression that names the Boys functions up to a bound are all up to it, as
long as the numeral of the bound can be read. -/
theorem boysOrders_eq_ok_iff :
    e.boysOrders = .ok ((List.range (L + 1)).map fun n : ℕ => (n : ℤ)) ↔
      L < 10 ^ Text.digitLimit :=
  ⟨lt_of_boysOrders_eq_ok h, boysOrders_eq_ok h⟩

end Orders

/-- **All Boys orders up to the degree occur, and they outlast every sequence of rules**, in any
order and with any repetitions. So the orders read from the result are those read before, and they
are exactly the numbers up to the degree as long as a numeral of that size can be read at all. -/
theorem boysOrders_outlast_rules (t1 t2 : Axis → ℕ) {p : String} (hp : boysNumeral? p = none)
    {rules : List Rule} (hrules : ∀ r ∈ rules, ∃ n : FamilyName, r ∈ n.family.rules) :
    (∀ name,
      (name ∈ (simplifyWith rules (nuclearAttraction (.ofExponents t1) (.ofExponents t2) p)).names ∧
        (boysNumeral? name).isSome = true) ↔
      ∃ n ≤ Axis.total t1 + Axis.total t2, name = boysSymbol n) ∧
    (simplifyWith rules (nuclearAttraction (.ofExponents t1) (.ofExponents t2) p)).boysOrders =
      (nuclearAttraction (.ofExponents t1) (.ofExponents t2) p).boysOrders ∧
    ((simplifyWith rules (nuclearAttraction (.ofExponents t1) (.ofExponents t2) p)).boysOrders =
        .ok ((List.range (Axis.total t1 + Axis.total t2 + 1)).map fun n : ℕ => (n : ℤ)) ↔
      Axis.total t1 + Axis.total t2 < 10 ^ Text.digitLimit) := by
  have hnames := mem_names_and_isSome_boysNumeral?_iff t1 t2 hp hrules
  have hbefore := mem_names_and_isSome_boysNumeral?_iff t1 t2 hp (List.forall_mem_nil _)
  refine ⟨hnames, boysOrders_eq_of_mem_iff fun name hname => ?_, boysOrders_eq_ok_iff hnames⟩
  have hiff := (hnames name).trans (hbefore name).symm
  rwa [and_iff_left hname, and_iff_left hname] at hiff

/-- Two orbitals xxx under rules of two families, out of order and one of them twice. -/
theorem boysOrders_outlast_rules_xxx :
    (∀ r ∈ [Rule.aliases .kinetic, .zeroTerms, .unitPower, .aliases .nuclear, .zeroTerms],
        ∃ n : FamilyName, r ∈ n.family.rules) ∧
      (simplifyWith [.aliases .kinetic, .zeroTerms, .unitPower, .aliases .nuclear, .zeroTerms]
        (nuclearAttraction (.ofExponents (3 • Axis.x.unit)) (.ofExponents (3 • Axis.x.unit))
          "preFactor")).boysOrders = .ok [0, 1, 2, 3, 4, 5, 6] := by
  have hrules : ∀ r ∈ [Rule.aliases .kinetic, .zeroTerms, .unitPower, .aliases .nuclear, .zeroTerms],
      ∃ n : FamilyName, r ∈ n.family.rules := by
    simp only [List.forall_mem_cons]
    exact ⟨⟨.kinetic, by simp [FamilyName.family, Family.kinetic, Rule.standard]⟩,
      ⟨.kinetic, by simp [FamilyName.family, Family.kinetic, Rule.standard]⟩,
      ⟨.nuclear, by simp [FamilyName.family, Family.nuclear, Rule.standard]⟩,
      ⟨.nuclear, by simp [FamilyName.family, Family.nuclear, Rule.standard]⟩,
      ⟨.nuclear, by simp [FamilyName.family, Family.nuclear, Rule.standard]⟩, List.forall_mem_nil _⟩
  have hdegree : Axis.total (3 • Axis.x.unit) + Axis.total (3 • Axis.x.unit) = 6 := by decide
  have hlimit : 6 < 10 ^ Text.digitLimit :=
    Nat.lt_of_lt_of_le (by decide : 6 < 10 ^ 1) (Nat.pow_le_pow_right (by decide) (by decide))
  obtain ⟨-, -, horders⟩ := boysOrders_outlast_rules (3 • Axis.x.unit) (3 • Axis.x.unit)
    (p := "preFactor") (boysNumeral?_eq_none rfl (by decide)) hrules
  rw [hdegree] at horders
  exact ⟨hrules, horders.2 hlimit⟩

end GaussianIntegrals
