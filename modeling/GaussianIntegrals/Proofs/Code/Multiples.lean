/-
  Sums of integer multiples of references: which arithmetic is such a sum, and what its multiples
  are. Read this way, arithmetic keeps its value (`Arith.value_of_multiples?`).

  `Spells s ms` says that the characters `s` read as the sum of the multiples `ms` in their order.
  It starts with one multiple and its sign (`Spells.first`) and goes on with a sign between blanks
  and another one (`Spells.next`); a magnitude of 1 is not written, any other is.
-/
import GaussianIntegrals.Proofs.Code.Reader
import Mathlib.Algebra.BigOperators.Group.List.Basic
import Mathlib.Tactic.Ring

namespace GaussianIntegrals.Code

/-- An integer and the reference that it multiplies. -/
abbrev Multiple := ℤ × Reference

/-! ## Arithmetic as multiples -/

namespace Arith

/-- The integer that arithmetic without references spells. -/
def integer? : Arith → Option ℤ
  | .number v => if v.den = 1 then some v.num else none
  | .neg a => a.integer?.map fun k => -k
  | _ => none

/-- The multiple that a term is. -/
def multiple? : Arith → Option Multiple
  | .reference r => some (1, r)
  | .neg a => a.multiple?.map fun m => (-m.1, m.2)
  | .mul a (.reference r) => a.integer?.map fun k => (k, r)
  | _ => none

/-- The multiples that a sum is made of, from the left. -/
def multiples? : Arith → Option (List Multiple)
  | .add a b => do some ((← a.multiples?) ++ [← b.multiple?])
  | .sub a b => do
    let m ← b.multiple?
    some ((← a.multiples?) ++ [(-m.1, m.2)])
  | a => a.multiple?.map fun m => [m]

variable {lookup : Reference → Option ℚ}

theorem value_of_integer? {a : Arith} {k : ℤ} (h : a.integer? = some k) :
    a.value lookup = some (k : ℚ) := by
  induction a generalizing k with
  | number v =>
    rw [integer?] at h
    split at h
    · next hden =>
      cases h
      rw [value, Rat.coe_int_num_of_den_eq_one hden]
    · cases h
  | neg a ih =>
    obtain ⟨l, hl, rfl⟩ := Option.map_eq_some_iff.1 h
    simp [value, ih hl]
  | _ => cases h

theorem value_of_multiple? {a : Arith} {m : Multiple} {x : ℚ} (h : a.multiple? = some m)
    (hx : lookup m.2 = some x) : a.value lookup = some (m.1 * x) := by
  induction a generalizing m with
  | reference r =>
    cases h
    simpa [value] using hx
  | neg a ih =>
    obtain ⟨l, hl, rfl⟩ := Option.map_eq_some_iff.1 h
    simp [value, ih hl hx]
  | mul a b _ _ =>
    cases b with
    | reference r =>
      obtain ⟨k, hk, rfl⟩ := Option.map_eq_some_iff.1 h
      dsimp only at hx
      simp [value, value_of_integer? hk, hx]
    | _ => cases h
  | _ => cases h

/-- The sum of multiples of values. -/
def total (x : Reference → ℚ) (ms : List Multiple) : ℚ := (ms.map fun m => m.1 * x m.2).sum

theorem total_concat (x : Reference → ℚ) (ms : List Multiple) (m : Multiple) :
    total x (ms ++ [m]) = total x ms + m.1 * x m.2 := by
  simp [total]

theorem value_of_single {a : Arith} {ms : List Multiple} {x : Reference → ℚ}
    (h : a.multiple?.map (fun m => [m]) = some ms) (hx : ∀ m ∈ ms, lookup m.2 = some (x m.2)) :
    a.value lookup = some (total x ms) := by
  obtain ⟨m, hm, rfl⟩ := Option.map_eq_some_iff.1 h
  simpa [total] using value_of_multiple? hm (hx m List.mem_cons_self)

/-- A sum has the value of its multiples. -/
theorem value_of_multiples? {a : Arith} {ms : List Multiple} {x : Reference → ℚ}
    (h : a.multiples? = some ms) (hx : ∀ m ∈ ms, lookup m.2 = some (x m.2)) :
    a.value lookup = some (total x ms) := by
  induction a generalizing ms with
  | add a b iha _ =>
    simp only [multiples?, Option.bind_eq_bind, Option.bind_eq_some_iff] at h
    obtain ⟨as, has, m, hm, h⟩ := h
    cases h
    rw [List.forall_mem_append, List.forall_mem_singleton] at hx
    rw [total_concat]
    simp [value, iha has hx.1, value_of_multiple? hm hx.2]
  | sub a b iha _ =>
    simp only [multiples?, Option.bind_eq_bind, Option.bind_eq_some_iff] at h
    obtain ⟨m, hm, as, has, h⟩ := h
    cases h
    rw [List.forall_mem_append, List.forall_mem_singleton] at hx
    rw [total_concat]
    simp [value, iha has hx.1, value_of_multiple? hm hx.2, sub_eq_add_neg]
  | _ => exact value_of_single h hx

end Arith

/-! ## Multiples as text -/

/-- The sign of a multiple. -/
def signChar (k : ℤ) : Char := if k < 0 then '-' else '+'

/-- A multiple without its sign. -/
def magnitudeChars (m : Multiple) : List Char :=
  if m.1.natAbs = 1 then m.2.chars else Nat.toDigits 10 m.1.natAbs ++ '*' :: m.2.chars

/-- The token of a sign. -/
def signToken (k : ℤ) : Token := if k < 0 then .minus else .plus

theorem symbolToken_signChar (k : ℤ) : symbolToken (signChar k) = [signToken k] := by
  unfold signChar signToken
  split <;> rfl

theorem signChar_eq (k : ℤ) : signChar k = '-' ∨ signChar k = '+' := by
  unfold signChar
  split
  · exact .inl rfl
  · exact .inr rfl

theorem isWordChar_signChar (k : ℤ) : isWordChar (signChar k) = false := by
  rcases signChar_eq k with h | h <;> rw [h] <;> decide

theorem signChar_ne_star (k : ℤ) : signChar k ≠ '*' := by
  rcases signChar_eq k with h | h <;> rw [h] <;> decide

/-- A factor behind a sign. -/
def Arith.signed (k : ℤ) (a : Arith) : Arith := if k < 0 then .neg a else a

theorem Reads.signed {ts : List Token} {a : Arith} (h : Reads .factor ts a) (k : ℤ) :
    Reads .factor (signToken k :: ts) (a.signed k) := by
  unfold signToken Arith.signed
  split
  · exact .negative h
  · exact .positive h

theorem Arith.multiple?_signed {a : Arith} {r : Reference} (h : a.multiple? = some (1, r)) {k : ℤ}
    (hk : k.natAbs = 1) : (a.signed k).multiple? = some (k, r) := by
  unfold Arith.signed
  split
  · have hone : k = -1 := by omega
    rw [Arith.multiple?, h, hone]
    rfl
  · have hone : k = 1 := by omega
    rw [h, hone]

theorem Arith.integer?_signed (k : ℤ) :
    ((Arith.number (k.natAbs : ℚ)).signed k).integer? = some k := by
  have hnat : (Arith.number (k.natAbs : ℚ)).integer? = some (k.natAbs : ℤ) := by
    rw [Arith.integer?, if_pos (Rat.den_natCast _), Rat.num_natCast]
  unfold Arith.signed
  split
  · rw [Arith.integer?, hnat, Option.map_some]
    congr 1
    omega
  · rw [hnat]
    congr 1
    omega

section Texts

variable {m : Multiple} (hr : m.2.WellFormed)

include hr

/-- The magnitude reads as a term, and as the multiple itself behind the sign. -/
theorem exists_reads_magnitude : ∃ ts a b, Scans (magnitudeChars m) ts ∧ Reads .term ts a ∧
    a.multiple? = some ((m.1.natAbs : ℤ), m.2) ∧ Reads .term (signToken m.1 :: ts) b ∧
      b.multiple? = some m := by
  obtain ⟨k, r⟩ := m
  have href : Reads .primary r.tokens (.reference r) := .reference hr.name_isName
  unfold magnitudeChars
  split
  · next hone =>
    refine ⟨_, _, _, hr.scans, .factor (.primary href), ?_, .factor ((Reads.primary href).signed k),
      Arith.multiple?_signed rfl hone⟩
    rw [Arith.multiple?, hone]
    rfl
  · have hnumeral := numeral?_toDigits k.natAbs
    have hnumber : Reads .primary [.word (Nat.toDigits 10 k.natAbs)] (.number (k.natAbs : ℚ)) :=
      .number (isName_of_numeral hnumeral) hnumeral
    have hsigned := Arith.integer?_signed k
    refine ⟨_, _, _, (Scans.numeral hnumeral).times hr.scans,
      .times (.factor (.primary hnumber)) (.primary href), ?_,
      .times (.factor ((Reads.primary hnumber).signed k)) (.primary href), ?_⟩
    · rw [Arith.multiple?, Arith.integer?, if_pos (Rat.den_natCast _), Rat.num_natCast]
      rfl
    · rw [Arith.multiple?, hsigned]
      rfl

end Texts

theorem tokens_blank_append (s : String) : tokens (" " ++ s) = tokens s := by
  have hblank : isWordChar ' ' = false := by decide
  rw [tokens, String.toList_append]
  exact (scan_nil_cons ' ' s.toList).trans (scan_symbol hblank (by decide) s.toList)

/-- The text reads as the sum of the multiples, in their order. -/
def Spells (s : List Char) (ms : List Multiple) : Prop :=
  ∃ ts a, Scans s ts ∧ Reads .sum ts a ∧ a.multiples? = some ms

theorem Arith.multiples?_of_multiple? {a : Arith} {m : Multiple} (h : a.multiple? = some m) :
    a.multiples? = some [m] := by
  cases a with
  | add a b => cases h
  | sub a b => cases h
  | _ => rw [multiples?, h, Option.map_some] <;> nofun

namespace Spells

theorem first {m : Multiple} (hm : m.2.WellFormed) :
    Spells (signChar m.1 :: magnitudeChars m) [m] := by
  obtain ⟨ts, a, b, hs, -, -, hb, hmultiple⟩ := exists_reads_magnitude hm
  have hscan : Scans (signChar m.1 :: magnitudeChars m) (signToken m.1 :: ts) := by
    have h := hs.prefixed (isWordChar_signChar m.1) (signChar_ne_star m.1)
    rwa [symbolToken_signChar] at h
  exact ⟨_, b, hscan, .term hb, Arith.multiples?_of_multiple? hmultiple⟩

theorem next {s : List Char} {ms : List Multiple} (h : Spells s ms) {m : Multiple}
    (hm : m.2.WellFormed) :
    Spells (s ++ [' ', signChar m.1, ' '] ++ magnitudeChars m) (ms ++ [m]) := by
  obtain ⟨ts, a, hs, ha, hms⟩ := h
  obtain ⟨us, b, -, hu, hb, hmultiple, -, -⟩ := exists_reads_magnitude hm
  have hscan := hs.spaced (isWordChar_signChar m.1) (signChar_ne_star m.1) hu
  rw [symbolToken_signChar] at hscan
  unfold signToken at hscan
  by_cases hneg : m.1 < 0
  · rw [if_pos hneg, List.append_assoc ts, List.singleton_append] at hscan
    have hk : -(m.1.natAbs : ℤ) = m.1 := by omega
    refine ⟨_, .sub a b, hscan, .minus ha hb, ?_⟩
    rw [Arith.multiples?, hms, hmultiple]
    simp only [Option.bind_eq_bind, Option.bind_some, hk]
  · rw [if_neg hneg, List.append_assoc ts, List.singleton_append] at hscan
    have hk : (m.1.natAbs : ℤ) = m.1 := by omega
    refine ⟨_, .add a b, hscan, .plus ha hb, ?_⟩
    rw [Arith.multiples?, hms, hmultiple]
    simp only [Option.bind_eq_bind, Option.bind_some, hk]

theorem read_eq {s : String} {ms : List Multiple} (h : Spells s.toList ms) :
    (read (tokens s)).bind Arith.multiples? = some ms := by
  obtain ⟨ts, a, hs, hr, ha⟩ := h
  rw [hs.tokens_eq, hr.read_eq, Option.bind_some, ha]

end Spells

end GaussianIntegrals.Code
