/-
  Lists that are determined by their members: sorted lists in which nothing comes twice, such as the
  names of an expression and the orders of its Boys functions (`eq_of_mem_iff`), lists without
  repetitions whose members are matched (`perm_map_of_inverse`), and tables with distinct keys, in
  which a lookup does not depend on the order (`lookup_eq_of_perm`).
-/
import GaussianIntegrals.Proofs.Parts
import Mathlib.Data.List.Sort
import Mathlib.Data.String.Basic

namespace GaussianIntegrals

/-! ## Sorted lists without repetitions -/

section Sorted

variable {α : Type} [BEq α] [LawfulBEq α]

omit [LawfulBEq α] in
theorem eraseRepsBy_loop_eq (a : α) (as acc : List α) :
    List.eraseRepsBy.loop (· == ·) a as acc = acc.reverse ++ (a :: as).eraseReps := by
  induction as generalizing a acc with
  | nil => simp [List.eraseReps, List.eraseRepsBy, List.eraseRepsBy.loop]
  | cons b as ih =>
    rw [List.eraseReps, List.eraseRepsBy, List.eraseRepsBy.loop, List.eraseRepsBy.loop]
    cases a == b with
    | true =>
      dsimp only
      rw [ih, ih, List.reverse_nil, List.nil_append]
    | false =>
      dsimp only
      rw [ih, ih, List.reverse_cons, List.append_assoc]
      rfl

theorem eraseReps_cons_self (a : α) (as : List α) :
    (a :: a :: as).eraseReps = (a :: as).eraseReps := by
  rw [List.eraseReps, List.eraseRepsBy, List.eraseRepsBy.loop, beq_self_eq_true]
  rfl

theorem eraseReps_cons_of_ne {a b : α} (h : a ≠ b) (as : List α) :
    (a :: b :: as).eraseReps = a :: (b :: as).eraseReps := by
  rw [List.eraseReps, List.eraseRepsBy, List.eraseRepsBy.loop, beq_eq_false_iff_ne.2 h]
  exact eraseRepsBy_loop_eq b as [a]

variable [LinearOrder α]

/-- In a sorted list equal members stand side by side. -/
theorem pairwise_eraseReps {as : List α} (h : as.Pairwise (· ≤ ·)) :
    as.eraseReps.Pairwise (· < ·) := by
  induction as with
  | nil => exact .nil
  | cons a as ih =>
    cases as with
    | nil => exact List.pairwise_singleton _ _
    | cons b as =>
      obtain ⟨ha, has⟩ := List.pairwise_cons.1 h
      by_cases hab : a = b
      · rw [hab, eraseReps_cons_self]
        exact ih has
      · rw [eraseReps_cons_of_ne hab]
        refine List.pairwise_cons.2 ⟨fun c hc => ?_, ih has⟩
        have hlt : a < b := lt_of_le_of_ne (ha b List.mem_cons_self) hab
        rcases List.mem_cons.1 (Expr.mem_eraseReps.1 hc) with rfl | hc
        · exact hlt
        · exact hlt.trans_le ((List.pairwise_cons.1 has).1 c hc)

omit [BEq α] [LawfulBEq α] in
theorem eq_of_mem_iff {as bs : List α} (has : as.Pairwise (· < ·)) (hbs : bs.Pairwise (· < ·))
    (h : ∀ a, a ∈ as ↔ a ∈ bs) : as = bs := by
  have hperm : as.Perm bs :=
    (List.perm_ext_iff_of_nodup (has.imp ne_of_lt) (hbs.imp ne_of_lt)).2 h
  exact hperm.eq_of_pairwise (fun a b _ _ hab hba => absurd hba hab.asymm) has hbs

/-- What is sorted and rid of repetitions is determined by its members. -/
theorem pairwise_eraseReps_mergeSort {le : α → α → Bool} (hle : ∀ a b, le a b = true ↔ a ≤ b)
    (as : List α) : (as.mergeSort le).eraseReps.Pairwise (· < ·) := by
  refine pairwise_eraseReps ((List.pairwise_mergeSort ?_ ?_ as).imp fun h => (hle _ _).1 h)
  · intro a b c hab hbc
    rw [hle] at hab hbc ⊢
    exact hab.trans hbc
  · intro a b
    rw [Bool.or_eq_true, hle, hle]
    exact le_total a b

end Sorted

theorem pairwise_names (e : Expr) : e.names.Pairwise (· < ·) := by
  refine pairwise_eraseReps_mergeSort (fun a b => ?_) _
  rw [Bool.or_eq_true, decide_eq_true_iff, beq_iff_eq, le_iff_lt_or_eq]

/-! ## Lists without repetitions -/

/-- A list is put together without repetition when each member tells its part. -/
theorem nodup_flatMap_of_key {α β γ : Type} {as : List α} {f : α → List β} (key : β → γ)
    {tag : α → γ} (htag : Function.Injective tag) (ha : as.Nodup) (hf : ∀ a ∈ as, (f a).Nodup)
    (hkey : ∀ a ∈ as, ∀ b ∈ f a, key b = tag a) : (as.flatMap f).Nodup := by
  rw [List.nodup_flatMap]
  refine ⟨hf, ha.imp_of_mem fun {a a'} ha ha' hne => ?_⟩
  intro b hb hb'
  exact hne (htag ((hkey a ha b hb).symm.trans (hkey a' ha' b hb')))

/-- Two lists without repetitions whose members are matched by inverse functions. -/
theorem perm_map_of_inverse {α β : Type} {as : List α} {bs : List β} (has : as.Nodup)
    (hbs : bs.Nodup) {f : α → β} {g : β → α} (hf : ∀ a ∈ as, f a ∈ bs ∧ g (f a) = a)
    (hg : ∀ b ∈ bs, g b ∈ as ∧ f (g b) = b) : bs.Perm (as.map f) := by
  have hmap : (as.map f).Nodup := has.map_on fun a ha a' ha' hfa => by
    rw [← (hf a ha).2, hfa, (hf a' ha').2]
  refine (List.perm_ext_iff_of_nodup hbs hmap).2 fun b => ?_
  rw [List.mem_map]
  constructor
  · exact fun hb => ⟨g b, hg b hb⟩
  · rintro ⟨a, ha, rfl⟩
    exact (hf a ha).1

/-! ## Tables with distinct keys -/

section Tables

variable {α β : Type} [BEq α] [LawfulBEq α]

theorem mem_of_lookup {table : List (α × β)} {a : α} {b : β} (h : table.lookup a = some b) :
    (a, b) ∈ table := by
  obtain ⟨before, after, rfl, -⟩ := List.lookup_eq_some_iff.1 h
  exact List.mem_append_right _ List.mem_cons_self

theorem lookup_eq_none_iff_notMem {table : List (α × β)} {a : α} :
    table.lookup a = none ↔ a ∉ table.map Prod.fst := by
  rw [List.lookup_eq_none_iff, List.mem_map]
  simp only [bne_iff_ne, not_exists, not_and]
  exact forall₂_congr fun p _ => ne_comm

theorem lookup_eq_some_iff_mem {table : List (α × β)} (h : (table.map Prod.fst).Nodup) {a : α}
    {b : β} : table.lookup a = some b ↔ (a, b) ∈ table := by
  refine ⟨mem_of_lookup, fun hmem => ?_⟩
  obtain ⟨before, after, rfl⟩ := List.append_of_mem hmem
  refine List.lookup_eq_some_iff.2 ⟨before, after, rfl, fun p hp => bne_iff_ne.2 ?_⟩
  rw [List.map_append, List.nodup_append] at h
  exact (h.2.2 p.1 (List.mem_map_of_mem hp) a (by simp)).symm

theorem lookup_eq_of_perm {table table' : List (α × β)} (h : table.Perm table')
    (hkeys : (table.map Prod.fst).Nodup) (a : α) : table.lookup a = table'.lookup a := by
  have hkeys' := (h.map Prod.fst).nodup hkeys
  ext b
  rw [lookup_eq_some_iff_mem hkeys, lookup_eq_some_iff_mem hkeys', h.mem_iff]

end Tables

end GaussianIntegrals
