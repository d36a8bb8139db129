import Mathlib.Data.List.Infix
import Mathlib.Data.List.Induction
import Mathlib.Algebra.BigOperators.Group.List.Basic
import Mathlib.Algebra.Ring.Int.Defs

/-! A least-recently-used cache with expiry and a weight budget, as a list of items with the
most recently used first. -/
namespace Lib

section LongestInit

variable {α : Type*} {p : List α → Bool} {l : List α}

/-- The longest initial segment of a list that passes a test. -/
def longestInit (p : List α → Bool) (l : List α) : List α := (l.inits.reverse.find? p).getD []

theorem inits_reverse (h : l ≠ []) : l.inits.reverse = l :: l.dropLast.inits.reverse := by
  obtain ⟨l, a, rfl⟩ := (List.eq_nil_or_concat' l).resolve_left h
  simp [List.inits_append]

theorem longestInit_of_pos (h : p l = true) : longestInit p l = l := by
  by_cases hl : l = []
  · subst hl
    simp [longestInit, h]
  · simp [longestInit, inits_reverse hl, h]

/-- A list that fails the test loses its last item. -/
theorem longestInit_of_neg (h : p l = false) : longestInit p l = longestInit p l.dropLast := by
  by_cases hl : l = []
  · simp [hl]
  · simp [longestInit, inits_reverse hl, h]

variable {a : α}

/-- The first item stays if it passes alone. -/
theorem longestInit_cons (h : p [a] = true) (l : List α) :
    ∃ l', longestInit p (a :: l) = a :: l' := by
  induction l using List.reverseRecOn with
  | nil => exact ⟨[], longestInit_of_pos h⟩
  | append_singleton l b ih =>
    by_cases hp : p (a :: (l ++ [b])) = true
    · exact ⟨_, longestInit_of_pos hp⟩
    · rw [longestInit_of_neg (Bool.eq_false_iff.mpr hp), ← List.cons_append, List.dropLast_concat]
      exact ih

/-- Nothing stays if nothing with the first item passes. -/
theorem longestInit_eq_nil (h : ∀ l, p (a :: l) = false) (l : List α) :
    longestInit p (a :: l) = [] := by
  induction l using List.reverseRecOn with
  | nil =>
    rw [longestInit_of_neg (h [])]
    by_cases hp : p [] = true
    · exact longestInit_of_pos hp
    · simp [longestInit, hp]
  | append_singleton l b ih =>
    rw [longestInit_of_neg (h _), ← List.cons_append, List.dropLast_concat, ih]

end LongestInit

namespace Lru

/-- What an item is and when it must go; no budget means that nothing is evicted. -/
structure Policy (α K V T : Type*) where
  item : K → V → α
  key : α → K
  value : α → V
  expired : α → T → Bool
  weight : α → ℤ
  budget : Option ℤ

inductive Call (K V T : Type*)
  | add (k : K) (v : V)
  | get (now : T) (k : K)
  | remove (k : K)

/-- Only a lookup has a result. -/
inductive Reply (V : Type*)
  | done
  | got (r : Option V)

variable {α K V T : Type*} [DecidableEq K]

def Policy.fits (P : Policy α K V T) (l : List α) : Bool :=
  match P.budget with
  | none => true
  | some b => (l.map P.weight).sum ≤ b

def Policy.drop (P : Policy α K V T) (k : K) (l : List α) : List α := l.filter (P.key · ≠ k)

def Policy.step (P : Policy α K V T) (l : List α) : Call K V T → List α × Reply V
  | .add k v => (longestInit P.fits (P.item k v :: P.drop k l), .done)
  | .get now k =>
    match l.find? (P.key · = k) with
    | none => (l, .got none)
    | some a =>
      if P.expired a now then (P.drop k l, .got none)
      else (a :: P.drop k l, .got (some (P.value a)))
  | .remove k => (P.drop k l, .done)

variable {P : Policy α K V T} {l : List α} {a : α} {now : T} {k : K}

theorem Policy.step_get_absent (h : l.find? (P.key · = k) = none) :
    P.step l (.get now k) = (l, .got none) := by
  simp [Policy.step, h]

theorem Policy.step_get_expired (h : l.find? (P.key · = k) = some a)
    (he : P.expired a now = true) : P.step l (.get now k) = (P.drop k l, .got none) := by
  simp [Policy.step, h, he]

theorem Policy.step_get_live (h : l.find? (P.key · = k) = some a)
    (he : P.expired a now = false) :
    P.step l (.get now k) = (a :: P.drop k l, .got (some (P.value a))) := by
  simp [Policy.step, h, he]

end Lru

namespace Lru

variable {K : Type*} {u : List (Option K)} {a b : K} {keys : List K}

/-- `u` lists the uses of keys, oldest first; `none` is a moment at which none is used. Since its
last use of `b`, `a` has been used. -/
def UsedAfter (u : List (Option K)) (a b : K) : Prop :=
  ∃ before after, u = before ++ after ∧ some a ∈ after ∧ some b ∉ after

theorem usedAfter_last (h : b ≠ a) : UsedAfter (u ++ [some a]) a b :=
  ⟨u, [some a], rfl, by simp, by simpa using h⟩

theorem UsedAfter.append (h : UsedAfter u a b) {x : Option K} (hx : x ≠ some b) :
    UsedAfter (u ++ [x]) a b := by
  obtain ⟨before, after, rfl, ha, hb⟩ := h
  refine ⟨before, after ++ [x], by simp, by simp [ha], ?_⟩
  simpa [hb] using hx.symm

theorem usedAfter_skip (h : keys.Pairwise (UsedAfter u)) :
    keys.Pairwise (UsedAfter (u ++ [none])) :=
  h.imp fun hab => hab.append (by simp)

/-- Moving a key to the front keeps the keys ordered by their last use. -/
theorem usedAfter_touch [DecidableEq K] (h : keys.Pairwise (UsedAfter u)) (k : K) :
    (k :: keys.filter (· ≠ k)).Pairwise (UsedAfter (u ++ [some k])) := by
  have hne : ∀ b ∈ keys.filter (· ≠ k), b ≠ k := by
    intro b hb
    simpa using (List.mem_filter.mp hb).2
  rw [List.pairwise_cons]
  refine ⟨fun b hb => usedAfter_last (hne b hb), ?_⟩
  refine (h.filter _).imp_of_mem ?_
  intro a b _ hb hab
  refine hab.append ?_
  simpa using (hne b hb).symm

/-- The last of the keys has not been used since the others were. -/
theorem usedAfter_of_concat (h : (keys ++ [b]).Pairwise (UsedAfter u)) (ha : a ∈ keys) :
    UsedAfter u a b :=
  (List.pairwise_append.mp h).2.2 a ha b (by simp)

end Lru

end Lib
