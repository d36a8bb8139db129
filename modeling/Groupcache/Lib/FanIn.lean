import Mathlib.Data.List.Perm.Basic
import Groupcache.Lib.Termination

/-! Fan-in of results: a caller starts a worker for each item and ranges over an unbuffered channel
on which each worker sends the result of its call. A closer waits for the wait group, which counts
the workers that are not done, and closes the channel. -/
namespace Lib.FanIn

universe u v w
variable {W : Type u} {I : Type v} {R : Type w}

inductive Caller (I : Type v)
  | starting (todo : List I)
  | ranging
  | returned

inductive Closer
  | unstarted
  | waiting
  | closed

/-- `world` is what the workers' calls act on. A worker is at its call, or at its send with the
result in hand, or between its send and `Done`, or has ended. -/
structure State (W : Type u) (I : Type v) (R : Type w) where
  world : W
  wg : ℕ
  calling : List I
  sending : List R
  sent : ℕ
  closer : Closer
  caller : Caller I
  received : List R

inductive Action (I : Type v)
  | start
  | startCloser
  | call (a : I)
  | send
  | done
  | close
  | ret
  | panic

/-- A step; `none` is a process that has panicked. -/
inductive Step (perform : W → I → W × R) :
    Option (State W I R) → Action I → Option (State W I R) → Prop
  | start {s a todo} (h : s.caller = .starting (a :: todo)) :
      Step perform (some s) .start (some { s with
        caller := .starting todo, wg := s.wg + 1, calling := a :: s.calling })
  | startCloser {s} (h : s.caller = .starting []) :
      Step perform (some s) .startCloser (some { s with caller := .ranging, closer := .waiting })
  | call {s before a after} (h : s.calling = before ++ a :: after) :
      Step perform (some s) (.call a) (some { s with
        world := (perform s.world a).1, calling := before ++ after,
        sending := (perform s.world a).2 :: s.sending })
  | send {s before r after} (h : s.sending = before ++ r :: after) (hopen : s.closer ≠ .closed)
      (hcaller : s.caller = .ranging) :
      Step perform (some s) .send (some { s with
        sending := before ++ after, sent := s.sent + 1, received := s.received ++ [r] })
  | sendClosed {s} (h : s.sending ≠ []) (hclosed : s.closer = .closed) :
      Step perform (some s) .panic none
  | done {s sent} (h : s.sent = sent + 1) (hwg : s.wg ≠ 0) :
      Step perform (some s) .done (some { s with sent := sent, wg := s.wg - 1 })
  | doneNegative {s} (h : s.sent ≠ 0) (hwg : s.wg = 0) : Step perform (some s) .panic none
  | close {s} (h : s.closer = .waiting) (hwg : s.wg = 0) :
      Step perform (some s) .close (some { s with closer := .closed })
  | ret {s} (h : s.caller = .ranging) (hclosed : s.closer = .closed) :
      Step perform (some s) .ret (some { s with caller := .returned })

/-- The caller before its first worker. -/
def initial (w : W) (items : List I) : State W I R :=
  { world := w, wg := 0, calling := [], sending := [], sent := 0, closer := .unstarted,
    caller := .starting items, received := [] }

def lts (perform : W → I → W × R) (w : W) (items : List I) :
    LTS (Option (State W I R)) (Action I) where
  Init s := s = some (initial w items)
  Step := Step perform

/-- The calls made one after the other. -/
def performAll (perform : W → I → W × R) : W → List I → W × List R
  | w, [] => (w, [])
  | w, a :: as =>
    let r := perform w a
    let rs := performAll perform r.1 as
    (rs.1, r.2 :: rs.2)

variable {perform : W → I → W × R} {w : W} {items : List I} {as : List I} {a : I}
  {ls : List (Action I)} {l : Action I} {s t : State W I R} {o : Option (State W I R)}

theorem performAll_concat : performAll perform w (as ++ [a]) =
    ((perform (performAll perform w as).1 a).1,
      (performAll perform w as).2 ++ [(perform (performAll perform w as).1 a).2]) := by
  induction as generalizing w with
  | nil => rfl
  | cons b as ih => simp [performAll, ih]

/-- The calls of a history, in their order. -/
def called (ls : List (Action I)) : List I :=
  ls.filterMap fun l =>
    match l with
    | .call a => some a
    | _ => none

theorem called_concat : called (ls ++ [l]) = called ls ++ called [l] := by
  simp [called]

/-- The items that no worker has been started for. -/
def Caller.todo : Caller I → List I
  | .starting todo => todo
  | _ => []

/-- Every item is in the hands of one worker, every result of the calls made so far is on its way
to the caller, and the wait group counts the workers. -/
structure Inv (perform : W → I → W × R) (w : W) (items order : List I) (s : State W I R) :
    Prop where
  world : s.world = (performAll perform w order).1
  results : (performAll perform w order).2.Perm (s.received ++ s.sending)
  items : (order ++ s.calling ++ s.caller.todo).Perm items
  wg : s.wg = s.calling.length + s.sending.length + s.sent
  unstarted : s.closer = .unstarted ↔ ∃ todo, s.caller = .starting todo
  closed : s.closer = .closed → s.wg = 0
  returned : s.caller = .returned → s.closer = .closed

theorem inv_initial : Inv perform w items [] (initial w items) where
  world := rfl
  results := .refl _
  items := .refl _
  wg := rfl
  unstarted := ⟨fun _ => ⟨items, rfl⟩, fun _ => rfl⟩
  closed := nofun
  returned := nofun

theorem inv_step {order : List I} (h : Step perform (some s) l o)
    (hi : Inv perform w items order s) :
    ∃ t, o = some t ∧ Inv perform w items (order ++ called [l]) t := by
  obtain ⟨hworld, hresults, hitems, hwg, hunstarted, hclosed, hreturned⟩ := hi
  cases h with
  | @start _ a todo h =>
    have hcloser := hunstarted.mpr ⟨_, h⟩
    rw [h] at hitems
    refine ⟨_, rfl, by simpa [called] using hworld, by simpa [called] using hresults, ?_, ?_,
      ⟨fun _ => ⟨_, rfl⟩, fun _ => hcloser⟩, ?_, nofun⟩
    · refine List.Perm.trans ?_ hitems
      have hperm : (a :: s.calling ++ todo).Perm (s.calling ++ a :: todo) := List.perm_middle.symm
      simpa [called, Caller.todo] using hperm.append_left order
    · simp only [List.length_cons, hwg]
      omega
    · simp [hcloser]
  | startCloser h =>
    have hcloser := hunstarted.mpr ⟨_, h⟩
    rw [h] at hitems
    exact ⟨_, rfl, by simpa [called] using hworld, by simpa [called] using hresults,
      by simpa [called, Caller.todo] using hitems, hwg, by simp, nofun, nofun⟩
  | @call _ before a after h =>
    rw [h] at hitems hwg
    have hcalled : called [Action.call a] = [a] := rfl
    refine ⟨_, rfl, ?_, ?_, ?_, ?_, hunstarted, hclosed, hreturned⟩
    · rw [hcalled, performAll_concat, hworld]
    · rw [hcalled, performAll_concat, ← hworld]
      refine (hresults.append_right _).trans ?_
      rw [List.append_assoc]
      exact (List.perm_append_singleton _ _).append_left _
    · have hperm : (order ++ a :: (before ++ after)).Perm (order ++ (before ++ a :: after)) :=
        List.perm_middle.symm.append_left order
      rw [hcalled, List.append_assoc order]
      exact (hperm.append_right s.caller.todo).trans hitems
    · simp only [List.length_append, List.length_cons, hwg]
      omega
  | @send _ before r after h hopen hcaller =>
    rw [h] at hresults hwg
    refine ⟨_, rfl, by simpa [called] using hworld, ?_, by simpa [called] using hitems, ?_,
      hunstarted, fun hc => (hopen hc).elim, hreturned⟩
    · simpa [called] using hresults.trans (List.perm_middle.append_left s.received)
    · simp only [List.length_append, List.length_cons, hwg]
      omega
  | sendClosed h hc =>
    have hpos := List.length_pos_of_ne_nil h
    have hzero := hclosed hc
    omega
  | done h hne =>
    refine ⟨_, rfl, by simpa [called] using hworld, by simpa [called] using hresults,
      by simpa [called] using hitems, ?_, hunstarted, fun hc => (hne (hclosed hc)).elim, hreturned⟩
    simp only
    omega
  | doneNegative h hzero => omega
  | close h hzero =>
    refine ⟨_, rfl, by simpa [called] using hworld, by simpa [called] using hresults,
      by simpa [called] using hitems, hwg, ⟨nofun, fun htodo => ?_⟩, fun _ => hzero, fun _ => rfl⟩
    cases h.symm.trans (hunstarted.mpr htodo)
  | ret h hc =>
    rw [h] at hitems
    exact ⟨_, rfl, by simpa [called] using hworld, by simpa [called] using hresults,
      by simpa [called, Caller.todo] using hitems, hwg, by simp [hc], hclosed, fun _ => hc⟩

/-- No run panics: nothing is sent on a closed channel, and the wait group never goes below zero. -/
theorem inv_run (h : (lts perform w items).Run ls o) :
    ∃ s, o = some s ∧ Inv perform w items (called ls) s := by
  refine h.invariant (I := fun ls o => ∃ s, o = some s ∧ Inv perform w items (called ls) s) ?_ ?_
  · rintro _ rfl
    exact ⟨_, rfl, inv_initial⟩
  · rintro ls _ l o _ ⟨s, rfl, hi⟩ hs
    rw [called_concat]
    exact inv_step hs hi

/-- The workers, the closer and the caller have all come to their end. -/
structure Ended (s : State W I R) : Prop where
  caller : s.caller = .returned
  closer : s.closer = .closed
  wg : s.wg = 0
  workers : s.calling = [] ∧ s.sending = [] ∧ s.sent = 0

theorem Inv.ended {order : List I} (hi : Inv perform w items order s)
    (h : s.caller = .returned) : Ended s := by
  have hclosed := hi.returned h
  have hzero := hi.closed hclosed
  have hwg := hi.wg
  exact ⟨h, hclosed, hzero, List.length_eq_zero_iff.mp (by omega),
    List.length_eq_zero_iff.mp (by omega), by omega⟩

/-- Once the caller has returned, all has come to its end: each item has been called once, in some
order, and the caller has received the results of these calls. -/
theorem Inv.complete {order : List I} (hi : Inv perform w items order s)
    (h : s.caller = .returned) :
    order.Perm items ∧ s.world = (performAll perform w order).1 ∧
      s.received.Perm (performAll perform w order).2 := by
  obtain ⟨_, _, _, hcalling, hsending, _⟩ := hi.ended h
  have hitems := hi.items
  have hresults := hi.results
  rw [hcalling, h] at hitems
  rw [hsending] at hresults
  exact ⟨by simpa [Caller.todo] using hitems, hi.world, by simpa using hresults.symm⟩

/-- As long as the caller has not returned, somebody can take a step. -/
theorem Inv.progress {order : List I} (hi : Inv perform w items order s)
    (h : s.caller ≠ .returned) : ∃ l o, Step perform (some s) l o := by
  have hwg := hi.wg
  cases hcaller : s.caller with
  | starting todo =>
    cases todo with
    | nil => exact ⟨_, _, .startCloser hcaller⟩
    | cons a todo => exact ⟨_, _, .start hcaller⟩
  | returned => exact (h hcaller).elim
  | ranging =>
    cases hcalling : s.calling with
    | cons a calling =>
      exact ⟨_, _, .call (show s.calling = [] ++ a :: calling from hcalling)⟩
    | nil =>
      cases hsending : s.sending with
      | cons r sending =>
        have hopen : s.closer ≠ .closed := by
          intro hc
          have hzero := hi.closed hc
          simp only [hsending, List.length_cons] at hwg
          omega
        exact ⟨_, _, .send (show s.sending = [] ++ r :: sending from hsending) hopen hcaller⟩
      | nil =>
        simp only [hcalling, hsending, List.length_nil] at hwg
        cases hsent : s.sent with
        | succ n => exact ⟨_, _, .done hsent (by omega)⟩
        | zero =>
          cases hcloser : s.closer with
          | unstarted =>
            obtain ⟨todo, htodo⟩ := hi.unstarted.mp hcloser
            cases hcaller.symm.trans htodo
          | waiting => exact ⟨_, _, .close hcloser (by omega)⟩
          | closed => exact ⟨_, _, .ret hcaller hcloser⟩

/-- The steps that are still to be taken. -/
def State.left (s : State W I R) : ℕ :=
  3 * s.calling.length + 2 * s.sending.length + s.sent +
    (match s.closer with
      | .waiting => 1
      | _ => 0) +
    match s.caller with
    | .starting todo => 4 * todo.length + 3
    | .ranging => 1
    | .returned => 0

theorem left_step (h : Step perform (some s) l (some t)) (hi : Inv perform w items as s) :
    t.left + 1 = s.left := by
  cases h with
  | start h =>
    simp only [State.left, h, List.length_cons]
    omega
  | startCloser h => simp only [State.left, h, hi.unstarted.mpr ⟨_, h⟩, List.length_nil]
  | call h | send h =>
    simp only [State.left, h, List.length_append, List.length_cons]
    omega
  | done h =>
    simp only [State.left, h]
    omega
  | close h =>
    simp only [State.left, h]
    omega
  | ret h => simp only [State.left, h]

/-- Every run takes the same number of steps. -/
theorem length_run (h : (lts perform w items).Run ls (some s)) :
    ls.length + s.left = 4 * items.length + 3 := by
  suffices hrun : ∀ o, (lts perform w items).Run ls o → ∀ s, o = some s →
      ls.length + s.left = 4 * items.length + 3 from hrun _ h s rfl
  intro o h
  refine h.invariant (I := fun ls o => ∀ s, o = some s →
    ls.length + s.left = 4 * items.length + 3) ?_ ?_
  · rintro _ rfl s ⟨⟩
    simp [initial, State.left]
  · rintro ls o l o' hrun hlen hs t rfl
    obtain ⟨s, rfl, hi⟩ := inv_run hrun
    have hlen := hlen s rfl
    have hleft := left_step hs hi
    rw [List.length_append, List.length_singleton]
    omega

end Lib.FanIn
