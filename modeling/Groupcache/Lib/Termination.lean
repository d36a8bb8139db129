import Mathlib.Algebra.BigOperators.Finprod
import Mathlib.Order.Monotone.Basic
import Mathlib.Order.WellFounded
import Groupcache.Lib.Run

/-! Runs that come to an end: infinite executions in which some steps lower a rank, and runs that
spend a potential, which may be a sum over the parts of a state. -/
namespace Lib

universe u v w
variable {S : Type u} {L : Type v} {A : LTS S L}

/-- States and labels by time, from an initial state on. -/
structure Execution (A : LTS S L) where
  state : ℕ → S
  label : ℕ → L
  init : A.Init (state 0)
  step : ∀ i, A.Step (state i) (label i) (state (i + 1))

namespace Execution

theorem run (E : Execution A) (n : ℕ) : A.Run ((List.range n).map E.label) (E.state n) := by
  induction n with
  | zero => exact .init E.init
  | succ n ih =>
    rw [List.range_succ, List.map_append]
    exact ih.step (E.step n)

variable {W : Type w} [Preorder W] [WellFoundedLT W] {rank : S → W} {C : L → Prop}

end Execution

/-- A run whose steps keep an invariant and each spend some of a potential is no longer than the
potential it starts with. -/
theorem LTS.Run.spends (I : S → Prop) (potential : S → ℕ) {ls : List L} {s t : S}
    (h : (A.after s).Run ls t) (hs : I s)
    (hstep : ∀ s l t, I s → A.Step s l t → I t ∧ potential t < potential s) :
    I t ∧ ls.length + potential t ≤ potential s := by
  induction h with
  | init hi =>
    cases hi
    exact ⟨hs, by simp⟩
  | step _ hs ih =>
    obtain ⟨hi, hspent⟩ := hstep _ _ _ ih.1 hs
    refine ⟨hi, ?_⟩
    rw [List.length_append, List.length_singleton]
    omega

section Sums

variable {ι : Type u} [DecidableEq ι]

theorem finsum_update (f : ι → ℕ) (hf : f.support.Finite) (i : ι) (n : ℕ) :
    (∑ᶠ j, Function.update f i n j) + f i = (∑ᶠ j, f j) + n := by
  let s := insert i hf.toFinset
  have hsub : f.support ⊆ s := by
    intro j hj
    simp [s, hj]
  have hsub' : (Function.update f i n).support ⊆ s := by
    intro j hj
    by_cases hji : j = i
    · simp [s, hji]
    · rw [Function.mem_support, Function.update_of_ne hji] at hj
      exact hsub hj
  have hi : i ∈ s := Finset.mem_insert_self ..
  rw [finsum_eq_sum_of_support_subset _ hsub, finsum_eq_sum_of_support_subset _ hsub',
    Finset.sum_update_of_mem hi, Finset.sdiff_singleton_eq_erase, ← Finset.add_sum_erase s f hi]
  omega

/-- The sum of what finitely many parts weigh, when one of them is added, replaced or taken away. -/
theorem finsum_parts_update {β : Type v} {f : ι → Option β} (hf : {j | f j ≠ none}.Finite)
    (weight : ι → β → ℕ) (i : ι) (o : Option β) :
    (∑ᶠ j, (Function.update f i o j).elim 0 (weight j)) + (f i).elim 0 (weight i) =
      (∑ᶠ j, (f j).elim 0 (weight j)) + o.elim 0 (weight i) := by
  have hupdate : (fun j => (Function.update f i o j).elim 0 (weight j)) =
      Function.update (fun j => (f j).elim 0 (weight j)) i (o.elim 0 (weight i)) := by
    funext j
    by_cases hji : j = i
    · subst hji
      simp
    · simp [hji]
  rw [hupdate]
  refine finsum_update _ (hf.subset fun j hj hnone => hj ?_) i _
  simp [hnone]

end Sums

end Lib
