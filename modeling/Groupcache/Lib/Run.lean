import Mathlib.Logic.Basic
import Mathlib.Data.List.Basic

/-! Finite labelled runs, with the rules that carry a fact along a run's history. -/
namespace Lib

universe u v
variable {S : Type u} {L : Type v}

/-- A labelled transition system together with its initial states. -/
structure LTS (S : Type u) (L : Type v) where
  Init : S → Prop
  Step : S → L → S → Prop

/-- A position of an extended history is an old one or the last. -/
theorem getElem?_concat_cases {ls : List L} {i : ℕ} {l l' : L} (h : (ls ++ [l])[i]? = some l') :
    ls[i]? = some l' ∨ i = ls.length ∧ l' = l := by
  rcases Nat.lt_trichotomy i ls.length with hlt | heq | hgt
  · exact Or.inl (by rwa [List.getElem?_append_left hlt] at h)
  · subst heq
    exact Or.inr ⟨rfl, by simpa using h.symm⟩
  · rw [List.getElem?_eq_none (by simp; omega)] at h
    cases h

theorem getElem?_concat_of_some {ls : List L} {i : ℕ} {l l' : L} (h : ls[i]? = some l') :
    (ls ++ [l])[i]? = some l' := by
  obtain ⟨hi, _⟩ := List.getElem?_eq_some_iff.mp h
  rwa [List.getElem?_append_left hi]

theorem getElem?_of_take {ls : List L} {i r : ℕ} {l : L} (h : (ls.take r)[i]? = some l) :
    i < r ∧ ls[i]? = some l := by
  have hlt := (List.getElem?_eq_some_iff.mp h).1
  rw [List.length_take] at hlt
  rw [List.getElem?_take_of_lt (by omega)] at h
  exact ⟨by omega, h⟩

namespace LTS

/-- `A.Run ls s`: from some initial state the labels `ls`, oldest first, lead to `s`. -/
inductive Run (A : LTS S L) : List L → S → Prop
  | init {s : S} (h : A.Init s) : Run A [] s
  | step {ls : List L} {s t : S} {l : L} (h : Run A ls s) (hs : A.Step s l t) :
      Run A (ls ++ [l]) t

variable {A : LTS S L} {ls ms : List L} {l : L} {s t : S}

/-- A fact about history and state holds after every run if each step extends it. -/
theorem Run.invariant {I : List L → S → Prop} (h : A.Run ls s)
    (hinit : ∀ s, A.Init s → I [] s)
    (hstep : ∀ ls s l t, A.Run ls s → I ls s → A.Step s l t → I (ls ++ [l]) t) : I ls s := by
  induction h with
  | init hi => exact hinit _ hi
  | step h hs ih => exact hstep _ _ _ _ h ih hs

/-- Every occurrence of a label in a run is a step out of a state the run has reached. -/
theorem Run.occurs (h : A.Run ls s) {i : ℕ} (hi : ls[i]? = some l) :
    ∃ u v, A.Run (ls.take i) u ∧ A.Step u l v ∧ A.Run (ls.take (i + 1)) v := by
  induction h with
  | init _ => simp at hi
  | @step ls s t m h hs ih =>
    rcases Nat.lt_trichotomy i ls.length with hlt | heq | hgt
    · rw [List.getElem?_append_left hlt] at hi
      obtain ⟨u, v, hu, huv, hv⟩ := ih hi
      refine ⟨u, v, ?_, huv, ?_⟩
      · rwa [List.take_append_of_le_length (Nat.le_of_lt hlt)]
      · rwa [List.take_append_of_le_length hlt]
    · subst heq
      simp only [List.getElem?_concat_length, Option.some.injEq] at hi
      subst hi
      refine ⟨s, t, by simpa using h, hs, ?_⟩
      simpa [List.take_of_length_le] using Run.step h hs
    · have hlen : (ls ++ [m]).length ≤ i := by simpa using Nat.succ_le_of_lt hgt
      simp [List.getElem?_eq_none hlen] at hi

theorem Run.of_concat (h : A.Run (ls ++ [l]) t) : ∃ s, A.Run ls s ∧ A.Step s l t := by
  generalize hms : ls ++ [l] = ms at h
  cases h with
  | init => simp at hms
  | step h hs =>
    obtain ⟨rfl, hl⟩ := List.append_inj' hms rfl
    cases hl
    exact ⟨_, h, hs⟩

def after (A : LTS S L) (s : S) : LTS S L where
  Init := (· = s)
  Step := A.Step

theorem Run.append (h : A.Run ls s) (h' : (A.after s).Run ms t) : A.Run (ls ++ ms) t := by
  induction h' with
  | init hi => simpa [show _ = s from hi] using h
  | step _ hs ih => simpa using ih.step hs

/-- The steps of a system that also meet a condition. -/
def restrict (A : LTS S L) (C : S → L → S → Prop) : LTS S L where
  Init := A.Init
  Step s l t := A.Step s l t ∧ C s l t

theorem Run.of_restrict {C : S → L → S → Prop} (h : (A.restrict C).Run ls s) : A.Run ls s := by
  induction h with
  | init hi => exact .init hi
  | step _ hs ih => exact ih.step hs.1

theorem Run.restrict_mono {C C' : S → L → S → Prop} (h : (A.restrict C).Run ls s)
    (hC : ∀ s l t, C s l t → C' s l t) : (A.restrict C').Run ls s := by
  induction h with
  | init hi => exact .init hi
  | step _ hs ih => exact ih.step ⟨hs.1, hC _ _ _ hs.2⟩

/-- The system with a count of the steps that meet a condition. -/
def counting (A : LTS S L) (C : S → L → S → Prop) : LTS (S × ℕ) L where
  Init s := A.Init s.1 ∧ s.2 = 0
  Step s l t := A.Step s.1 l t.1 ∧ (C s.1 l t.1 ∧ t.2 = s.2 + 1 ∨ ¬C s.1 l t.1 ∧ t.2 = s.2)

theorem Run.counting (h : A.Run ls s) (C : S → L → S → Prop) :
    ∃ n, (A.counting C).Run ls (s, n) := by
  induction h with
  | init hi => exact ⟨0, .init ⟨hi, rfl⟩⟩
  | @step ls s t l _ hs ih =>
    obtain ⟨n, hn⟩ := ih
    by_cases hc : C s l t
    · exact ⟨n + 1, hn.step ⟨hs, Or.inl ⟨hc, rfl⟩⟩⟩
    · exact ⟨n, hn.step ⟨hs, Or.inr ⟨hc, rfl⟩⟩⟩

/-- A fact about history, state and count holds after every run if the steps that are counted and
those that are not extend it. -/
theorem Run.counted {C : S → L → S → Prop} {I : List L → S → ℕ → Prop} {n : ℕ}
    (h : (A.counting C).Run ls (s, n)) (hinit : ∀ s, A.Init s → I [] s 0)
    (hstep : ∀ ls s l t n, A.Step s l t → I ls s n → ¬C s l t → I (ls ++ [l]) t n)
    (hcount : ∀ ls s l t n, A.Step s l t → I ls s n → C s l t → I (ls ++ [l]) t (n + 1)) :
    I ls s n := by
  refine h.invariant (I := fun ls x => I ls x.1 x.2) ?_ ?_
  · rintro x ⟨hi, hn⟩
    rw [hn]
    exact hinit x.1 hi
  · rintro ls x l y - hx ⟨hs, ⟨hc, hn⟩ | ⟨hc, hn⟩⟩
    · rw [hn]
      exact hcount ls x.1 l y.1 x.2 hs hx hc
    · rw [hn]
      exact hstep ls x.1 l y.1 x.2 hs hx hc

end LTS

section Calls

universe w x
variable {S : Type u} {T : Type v} {I : Type w} {O : Type x} {f : S → I → Option (S × O)}

/-- Call a machine once for each input and collect its replies; `none` is a call that hangs. -/
def runCalls (f : S → I → Option (S × O)) : S → List I → Option (S × List O)
  | s, [] => some (s, [])
  | s, i :: is =>
    match f s i with
    | none => none
    | some (s', o) => (runCalls f s' is).map fun r => (r.1, o :: r.2)

/-- If every call returns and extends a fact about calls, replies and state, all calls do. -/
theorem runCalls_invariant {J : List (I × O) → S → Prop}
    (hstep : ∀ h s i, J h s → ∃ s' o, f s i = some (s', o) ∧ J (h ++ [(i, o)]) s')
    (is : List I) {h : List (I × O)} {s : S} (hs : J h s) :
    ∃ s' os, runCalls f s is = some (s', os) ∧ os.length = is.length ∧
      J (h ++ is.zip os) s' := by
  induction is generalizing h s with
  | nil => exact ⟨s, [], rfl, rfl, by simpa using hs⟩
  | cons i is ih =>
    obtain ⟨s₁, o, hf, h₁⟩ := hstep h s i hs
    obtain ⟨s₂, os, hrun, hlen, h₂⟩ := ih h₁
    exact ⟨s₂, o :: os, by simp [runCalls, hf, hrun], by simp [hlen], by simpa using h₂⟩

/-- A machine whose calls match those of another gives the same replies on every run. -/
theorem runCalls_simulates {g : T → I → Option (T × O)} {R : S → T → Prop}
    (hstep : ∀ s t i, R s t → ∃ s' t' o, f s i = some (s', o) ∧ g t i = some (t', o) ∧ R s' t')
    (is : List I) {s : S} {t : T} (hs : R s t) :
    ∃ s' t' os, runCalls f s is = some (s', os) ∧ runCalls g t is = some (t', os) ∧ R s' t' := by
  induction is generalizing s t with
  | nil => exact ⟨s, t, [], rfl, rfl, hs⟩
  | cons i is ih =>
    obtain ⟨s₁, t₁, o, hf, hg, h₁⟩ := hstep s t i hs
    obtain ⟨s₂, t₂, os, hs₂, ht₂, h₂⟩ := ih h₁
    exact ⟨s₂, t₂, o :: os, by simp [runCalls, hf, hs₂], by simp [runCalls, hg, ht₂], h₂⟩

variable {K : Type w} [DecidableEq K]

/-- Machines of one kind under names, each called by its own. -/
def named (f : S → I → Option (S × O)) (s : K → S) (i : K × I) : Option ((K → S) × O) :=
  (f (s i.1) i.2).map fun r => (Function.update s i.1 r.1, r.2)

end Calls

end Lib
