import Mathlib.Algebra.BigOperators.Group.Finset.Piecewise
import Mathlib.Algebra.BigOperators.Group.Finset.Basic
import Mathlib.Algebra.Ring.Int.Defs

/-! What processes owe together when only finitely many of them have started: the sum over where
they stand, and how a step of one of them changes it. -/
namespace Lib

variable {P F : Type*} {w : F → ℤ} {pc : P → Option F} {d : ℤ}

/-- The processes owe `d` together, each what `w` says of where it stands. -/
def Owed (w : F → ℤ) (pc : P → Option F) (d : ℤ) : Prop :=
  ∃ A : Finset P, (∀ p ∉ A, pc p = none) ∧ ∑ p ∈ A, (pc p).elim 0 w = d

theorem owed_zero (h : ∀ p, pc p = none) : Owed w pc 0 := ⟨∅, fun p _ => h p, rfl⟩

/-- One process moves, or starts. -/
theorem Owed.update [DecidableEq P] (h : Owed w pc d) (p : P) (f : F) :
    Owed w (Function.update pc p (some f)) (d + w f - (pc p).elim 0 w) := by
  obtain ⟨A, hA, rfl⟩ := h
  refine ⟨insert p A, fun q hq => ?_, ?_⟩
  · obtain ⟨hne, hq⟩ : q ≠ p ∧ q ∉ A := by simpa using hq
    rw [Function.update_of_ne hne, hA q hq]
  · have hstart : ∑ q ∈ insert p A, (pc q).elim 0 w = ∑ q ∈ A, (pc q).elim 0 w :=
      Finset.sum_insert_of_eq_zero_if_notMem fun hp => by rw [hA p hp, Option.elim_none]
    have hrest : ∑ q ∈ insert p A \ {p}, (Function.update pc p (some f) q).elim 0 w =
        ∑ q ∈ insert p A \ {p}, (pc q).elim 0 w :=
      Finset.sum_congr rfl fun q hq => by
        rw [Function.update_of_ne (Finset.notMem_singleton.mp (Finset.mem_sdiff.mp hq).2)]
    have hp : {p} ⊆ insert p A := Finset.singleton_subset_iff.mpr (Finset.mem_insert_self p A)
    rw [← hstart, ← Finset.sum_sdiff hp, ← Finset.sum_sdiff hp, hrest]
    simp only [Finset.sum_singleton, Function.update_self, Option.elim_some]
    omega

theorem Owed.eq_zero (h : Owed w pc d) (hw : ∀ p f, pc p = some f → w f = 0) : d = 0 := by
  obtain ⟨A, -, rfl⟩ := h
  refine Finset.sum_eq_zero fun p _ => ?_
  cases hp : pc p with
  | none => rfl
  | some f => exact hw p f hp

end Lib
