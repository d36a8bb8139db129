import Mathlib.Data.List.Nodup
import Groupcache.Lib.Run

/-! Linearizability of a concurrent object against a sequential one, with the rule of linearization
points: if each call takes effect in one of its own steps, the order of these steps will do. -/
namespace Lib

universe u v
variable {S : Type u} {P X Y R : Type v}

/-- A call is invoked, or it returns. Each process makes one call. -/
inductive HistoryEvent (P Y R : Type v)
  | inv (p : P) (y : Y)
  | res (p : P) (r : R)

/-- A call in a sequential execution, with its reply. -/
structure Done (P X R : Type v) where
  proc : P
  op : X
  reply : R

/-- One after the other, the calls give these replies. -/
def Legal (f : S → X → S × R) : S → List (Done P X R) → Prop
  | _, [] => True
  | s, d :: ds => (f s d.op).2 = d.reply ∧ Legal f (f s d.op).1 ds

/-- `a` comes before `b`. -/
def Precedes {α : Type*} (l : List α) (a b : α) : Prop :=
  ∃ l₁ l₂, l = l₁ ++ l₂ ∧ a ∈ l₁ ∧ b ∈ l₂

/-- A sequential execution explains a history: it has every call that returned, with its reply, no
call twice and none that was not invoked, and it keeps the order of calls that do not overlap. Which
operations a call may stand for is given by `ok`. -/
structure Linearizes (f : S → X → S × R) (s₀ : S) (ok : P → Y → X → Prop)
    (h : List (HistoryEvent P Y R)) (order : List (Done P X R)) : Prop where
  legal : Legal f s₀ order
  nodup : (order.map (·.proc)).Nodup
  invoked : ∀ d ∈ order, ∃ y, .inv d.proc y ∈ h ∧ ok d.proc y d.op
  returned : ∀ p r, .res p r ∈ h → ∃ x, ⟨p, x, r⟩ ∈ order
  realTime : ∀ p r q y, Precedes h (.res p r) (.inv q y) → ∀ d ∈ order, ∀ d' ∈ order,
    d.proc = p → d'.proc = q → Precedes order d d'

def Linearizable (f : S → X → S × R) (s₀ : S) (ok : P → Y → X → Prop)
    (h : List (HistoryEvent P Y R)) : Prop :=
  ∃ order, Linearizes f s₀ ok h order

variable {f : S → X → S × R} {s₀ : S} {ok : P → Y → X → Prop}

/-- The state that a sequence of calls leads to. -/
def final (f : S → X → S × R) (s : S) (ds : List (Done P X R)) : S :=
  ds.foldl (fun s d => (f s d.op).1) s

theorem legal_concat {s : S} {ds : List (Done P X R)} {d : Done P X R} (h : Legal f s ds)
    (hd : (f (final f s ds) d.op).2 = d.reply) : Legal f s (ds ++ [d]) := by
  induction ds generalizing s with
  | nil => exact ⟨hd, trivial⟩
  | cons e ds ih => exact ⟨h.1, ih h.2 hd⟩

theorem Legal.of_append {s : S} {ds ds' : List (Done P X R)} (h : Legal f s (ds ++ ds')) :
    Legal f (final f s ds) ds' := by
  induction ds generalizing s with
  | nil => exact h
  | cons d ds ih => exact ih h.2

theorem Precedes.asymm {α : Type*} {l : List α} {a b : α} (hnd : l.Nodup) (h : Precedes l a b) :
    ¬Precedes l b a := by
  rintro ⟨m₁, m₂, hm, hb, ha⟩
  obtain ⟨l₁, l₂, rfl, ha', hb'⟩ := h
  rcases List.append_eq_append_iff.mp hm with ⟨c, rfl, rfl⟩ | ⟨c, rfl, rfl⟩
  · rw [List.nodup_append] at hnd
    exact hnd.2.2 a ha' a (List.mem_append_right _ ha) rfl
  · rw [List.append_assoc, List.nodup_append] at hnd
    exact hnd.2.2 b hb b (List.mem_append_right _ hb') rfl

section Points

variable {C L : Type*} {A : LTS C L} {ls : List L} {c : C} {Sim : C → S → Prop}
  {point : L → Option (Done P X R)} {event : L → Option (HistoryEvent P Y R)} {proc : L → P}

/-- A call takes effect on the way to a state of the object, or nothing happens. -/
def TakesEffect (f : S → X → S × R) (Sim : C → S → Prop) (c' : C) (s : S) :
    Option (Done P X R) → Prop
  | none => Sim c' s
  | some d => (f s d.op).2 = d.reply ∧ Sim c' (f s d.op).1

/-- A step with a point does what its call does alone, up to the relation; the others do nothing. -/
def Commits (A : LTS C L) (f : S → X → S × R) (Sim : C → S → Prop)
    (point : L → Option (Done P X R)) (ls : List L) : Prop :=
  ∀ c l c' s, l ∈ ls → A.Step c l c' → Sim c s → TakesEffect f Sim c' s (point l)

/-- Then the calls in the order of their points are legal, and lead to a related state. -/
theorem legal_of_commits (h : A.Run ls c) (h₀ : ∀ c, A.Init c → Sim c s₀)
    (hstep : Commits A f Sim point ls) :
    Legal f s₀ (ls.filterMap point) ∧ Sim c (final f s₀ (ls.filterMap point)) := by
  induction h with
  | init hi => exact ⟨trivial, h₀ _ hi⟩
  | @step ls c c' l _ hs ih =>
    obtain ⟨hlegal, hsim⟩ := ih fun c l c' s hl => hstep c l c' s (List.mem_append_left _ hl)
    have hlast := hstep c l c' _ (by simp) hs hsim
    rw [List.filterMap_append, List.filterMap_cons, List.filterMap_nil]
    cases hp : point l with
    | none =>
      rw [hp] at hlast
      rw [List.append_nil]
      exact ⟨hlegal, hlast⟩
    | some d =>
      rw [hp] at hlast
      refine ⟨legal_concat hlegal hlast.1, ?_⟩
      rw [final, List.foldl_append, List.foldl_cons, List.foldl_nil, ← final]
      exact hlast.2

theorem count_proc [DecidableEq P] (hproc : ∀ l d, point l = some d → d.proc = proc l) (p : P)
    (ls : List L) : ((ls.filterMap point).map (·.proc)).count p =
      ((ls.filter (proc · = p)).filterMap point).length := by
  induction ls with
  | nil => rfl
  | cons l ls ih =>
    by_cases hp : proc l = p
    · cases hpoint : point l with
      | none => simpa [hp, hpoint] using ih
      | some d => simpa [hp, hpoint, hproc l d hpoint] using ih
    · cases hpoint : point l with
      | none => simpa [hp, hpoint] using ih
      | some d => simpa [hp, hpoint, hproc l d hpoint] using ih

/-- What is to be shown of a run's labels for the rule of linearization points. -/
structure HasPoints [DecidableEq P] (ok : P → Y → X → Prop) (proc : L → P)
    (point : L → Option (Done P X R)) (event : L → Option (HistoryEvent P Y R))
    (ls : List L) : Prop where
  own : ∀ l d, point l = some d → d.proc = proc l
  once : ∀ p, ((ls.filter (proc · = p)).filterMap point).length ≤ 1
  invoked : ∀ l ∈ ls, ∀ d, point l = some d →
    ∃ y, .inv d.proc y ∈ ls.filterMap event ∧ ok d.proc y d.op
  returned : ∀ p r, .res p r ∈ ls.filterMap event → ∃ l ∈ ls, ∃ x, point l = some ⟨p, x, r⟩
  -- a call has no step after its return, and none before its invocation
  within : ∀ ls₁ ls₂, ls = ls₁ ++ ls₂ → ∀ p r q y, .res p r ∈ ls₁.filterMap event →
    .inv q y ∈ ls₂.filterMap event → (∀ l ∈ ls₂, proc l ≠ p) ∧ ∀ l ∈ ls₁, proc l ≠ q

/-- The rule: calls that take effect at one of their own steps are linearizable. -/
theorem linearizable_of_points [DecidableEq P] (h : A.Run ls c)
    (h₀ : ∀ c, A.Init c → Sim c s₀) (hstep : Commits A f Sim point ls)
    (hp : HasPoints ok proc point event ls) : Linearizable f s₀ ok (ls.filterMap event) := by
  refine ⟨ls.filterMap point, (legal_of_commits h h₀ hstep).1, ?_, ?_, ?_, ?_⟩
  · rw [List.nodup_iff_count_le_one]
    intro p
    rw [count_proc hp.own]
    exact hp.once p
  · intro d hd
    obtain ⟨l, hl, hpoint⟩ := List.mem_filterMap.mp hd
    exact hp.invoked l hl d hpoint
  · intro p r hr
    obtain ⟨l, hl, x, hpoint⟩ := hp.returned p r hr
    exact ⟨x, List.mem_filterMap.mpr ⟨l, hl, hpoint⟩⟩
  · rintro p r q y ⟨h₁, h₂, heq, hres, hinv⟩ d hd d' hd' rfl rfl
    obtain ⟨ls₁, ls₂, rfl, rfl, rfl⟩ := List.filterMap_eq_append_iff.mp heq
    obtain ⟨hafter, hbefore⟩ := hp.within ls₁ ls₂ rfl _ _ _ _ hres hinv
    refine ⟨ls₁.filterMap point, ls₂.filterMap point, List.filterMap_append, ?_, ?_⟩
    · obtain ⟨l, hl, hpoint⟩ := List.mem_filterMap.mp hd
      refine List.mem_filterMap.mpr ⟨l, (List.mem_append.mp hl).resolve_right fun hl' => ?_, hpoint⟩
      exact hafter l hl' (hp.own l d hpoint).symm
    · obtain ⟨l, hl, hpoint⟩ := List.mem_filterMap.mp hd'
      refine List.mem_filterMap.mpr ⟨l, (List.mem_append.mp hl).resolve_left fun hl' => ?_, hpoint⟩
      exact hbefore l hl' (hp.own l d' hpoint).symm

end Points

end Lib
