import Groupcache.Lib.Run
import Groupcache.Internal.Singleflight

/-! Any number of `Do` and `Lock` calls on one `Group`, interleaved at its mutex, its wait
groups and the functions they run. A process is one call, so it is never reused. -/
namespace Groupcache.Singleflight

variable {K V P : Type}

/-- Where a call of `Do` or `Lock` stands; `c` is the pointer in its local variable. -/
inductive PC (K V : Type)
  | idle
  /-- `Do` before the first `g.mu.Lock()`, then inside that section. -/
  | entering (k : K)
  | entered (k : K)
  | waiting (k : K) (c : ℕ)
  | running (k : K) (c : ℕ)
  | assigned (k : K) (c : ℕ) (o : Outcome V)
  /-- The deferred function before its `g.mu.Lock()`, then inside that section. -/
  | deleting (k : K) (c : ℕ) (o : Outcome V)
  | deleteEntered (k : K) (c : ℕ) (o : Outcome V)
  | returned (r : Option V × Option Err)
  | panicked
  | locking
  | locked
  | unlocked

def PC.role : PC K V → Role K V
  | .waiting k c => .wait k c
  | .running k c => .running k c
  | .assigned k c o => .assigned k c o
  | .deleting k c o | .deleteEntered k c o => .done k c o
  | _ => .out

/-- The call is inside `Do`. -/
def PC.Active : PC K V → Prop
  | .idle | .returned _ | .panicked | .locking | .locked | .unlocked => False
  | _ => True

/-- The call holds the mutex. -/
def PC.Critical : PC K V → Prop
  | .entered _ | .deleteEntered _ _ _ | .locked => True
  | _ => False

/-- The leader leaves `Do` with what its function returned, or panicking on. -/
def PC.leave : Outcome V → PC K V
  | .ret val err => .returned (val, err)
  | .panic => .panicked

structure State (K V P : Type) where
  mu : Option P
  g : Group K V
  pc : P → PC K V

inductive Event (K V : Type)
  | call (k : K)
  | lock
  | join (k : K) (c : ℕ)
  | wake (k : K) (c : ℕ) (r : Option V × Option Err)
  | lead (k : K) (c : ℕ)
  | finish (k : K) (c : ℕ) (o : Outcome V)
  | done (c : ℕ)
  | delete (k : K) (c : ℕ)
  | callLock
  | unlock

def State.setPC [DecidableEq P] (s : State K V P) (p : P) (x : PC K V) : State K V P :=
  { s with pc := Function.update s.pc p x }

inductive Step [DecidableEq K] [DecidableEq P] : State K V P → P × Event K V → State K V P → Prop
  | call {s p} (k : K) (h : s.pc p = .idle) : Step s (p, .call k) (s.setPC p (.entering k))
  | enter {s p k} (h : s.pc p = .entering k) (hmu : s.mu = none) :
      Step s (p, .lock) { s.setPC p (.entered k) with mu := some p }
  | join {s p k c} (h : s.pc p = .entered k) (hm : s.g.m k = some c) :
      Step s (p, .join k c) { s.setPC p (.waiting k c) with mu := none }
  | wake {s p k c} (h : s.pc p = .waiting k c) (hwg : (s.g.calls c).wg = false) :
      Step s (p, .wake k c (s.g.calls c).result) (s.setPC p (.returned (s.g.calls c).result))
  | lead {s p k} (h : s.pc p = .entered k) (hm : s.g.m k = none) :
      Step s (p, .lead k s.g.next)
        { s.setPC p (.running k s.g.next) with mu := none, g := s.g.register k }
  | finish {s p k c} (o : Outcome V) (h : s.pc p = .running k c) :
      Step s (p, .finish k c o) { s.setPC p (.assigned k c o) with g := s.g.assign c o }
  | done {s p k c o} (h : s.pc p = .assigned k c o) :
      Step s (p, .done c) { s.setPC p (.deleting k c o) with g := s.g.done c }
  | deleteEnter {s p k c o} (h : s.pc p = .deleting k c o) (hmu : s.mu = none) :
      Step s (p, .lock) { s.setPC p (.deleteEntered k c o) with mu := some p }
  | delete {s p k c o} (h : s.pc p = .deleteEntered k c o) :
      Step s (p, .delete k c) { s.setPC p (.leave o) with mu := none, g := s.g.delete k }
  | callLock {s p} (h : s.pc p = .idle) : Step s (p, .callLock) (s.setPC p .locking)
  | lockEnter {s p} (h : s.pc p = .locking) (hmu : s.mu = none) :
      Step s (p, .lock) { s.setPC p .locked with mu := some p }
  | lockExit {s p} (h : s.pc p = .locked) :
      Step s (p, .unlock) { s.setPC p .unlocked with mu := none }

def singleflightLTS [DecidableEq K] [DecidableEq P] : Lib.LTS (State K V P) (P × Event K V) where
  Init s := s.mu = none ∧ s.g = .empty ∧ s.pc = fun _ => .idle
  Step := Step

variable {s t : State K V P} {p q : P} {k k' : K} {c : ℕ} {e : Event K V}
  {ls : List (P × Event K V)} {g g' : Group K V} {r : Role K V} {x : PC K V}

/-- The roles of all the calls. -/
def State.role (s : State K V P) (p : P) : Role K V := (s.pc p).role

theorem PC.leave_role (o : Outcome V) : (PC.leave o : PC K V).role = .out := by
  cases o <;> rfl

theorem PC.not_critical_leave (o : Outcome V) : ¬ (PC.leave o : PC K V).Critical := by
  cases o <;> exact id

theorem PC.not_active_leads (h : ¬ x.Active) : x.role.leads = none := by
  cases x <;> simp_all [PC.Active, PC.role, Role.leads]

/-- What the history shows of a leader: its registration, no deletion yet, its outcome. -/
def Role.Logged (ls : List (P × Event K V)) (q : P) : Role K V → Prop
  | .running k c => (q, .lead k c) ∈ ls ∧ (q, .delete k c) ∉ ls
  | .assigned k c o | .done k c o =>
    ((q, .lead k c) ∈ ls ∧ (q, .delete k c) ∉ ls) ∧ (q, .finish k c o) ∈ ls
  | _ => True

/-- The call `c` holds the result of an execution the history shows. -/
def Finished (ls : List (P × Event K V)) (g : Group K V) (c : ℕ) : Prop :=
  ∃ q k o, (q, .lead k c) ∈ ls ∧ (q, .finish k c o) ∈ ls ∧ (g.calls c).result = o.result

/-- Every pointer was allocated by one registration, and closed calls hold their outcomes. -/
structure History (ls : List (P × Event K V)) (s : State K V P) : Prop where
  logged : ∀ q, (s.role q).Logged ls q
  lt_next : ∀ q k c, (q, .lead k c) ∈ ls ∨ (q, .delete k c) ∈ ls → c < s.g.next
  unique : ∀ q k q' k' c, (q, .lead k c) ∈ ls → (q', .lead k' c) ∈ ls → q = q' ∧ k = k'
  finished : ∀ c, c < s.g.next → (s.g.calls c).wg = false → Finished ls s.g c

theorem Role.Logged.lead (h : r.Logged ls q) (hl : r.leads = some (k, c)) :
    (q, .lead k c) ∈ ls ∧ (q, .delete k c) ∉ ls := by
  cases r <;> simp_all [Role.leads, Role.Logged]

theorem Role.Logged.append (h : r.Logged ls q) (hne : ∀ k c, (q, Event.delete k c) ≠ (p, e)) :
    r.Logged (ls ++ [(p, e)]) q := by
  cases r <;> simp_all [Role.Logged]

theorem Finished.append (h : Finished ls g c) (hg : g'.calls c = g.calls c) :
    Finished (ls ++ [(p, e)]) g' c := by
  obtain ⟨q, k, o, hl, hf, hr⟩ := h
  exact ⟨q, k, o, List.mem_append_left _ hl, List.mem_append_left _ hf, hg ▸ hr⟩

variable [DecidableEq P]

theorem role_setPC (x : PC K V) : (s.setPC p x).role = Function.update s.role p x.role := by
  funext q
  by_cases hq : q = p
  · subst hq
    simp [State.role, State.setPC]
  · simp [State.role, State.setPC, hq]

/-- A step that registers nothing keeps the history, given what it does to the calls. -/
theorem History.update (h : History ls s) (hrole : t.role = Function.update s.role p r)
    (hr : r.Logged (ls ++ [(p, e)]) p) (hnext : t.g.next = s.g.next)
    (hlead : ∀ k c, e ≠ .lead k c) (hdelete : ∀ k c, e = .delete k c → c < s.g.next)
    (hcalls : ∀ c, c < s.g.next → (t.g.calls c).wg = false →
      (s.g.calls c).wg = false ∧ t.g.calls c = s.g.calls c ∨ Finished (ls ++ [(p, e)]) t.g c) :
    History (ls ++ [(p, e)]) t := by
  have hmem : ∀ {q k c}, (q, .lead k c) ∈ ls ++ [(p, e)] → (q, .lead k c) ∈ ls := by
    intro q k c hq
    rcases List.mem_append.mp hq with hq | hq
    · exact hq
    · simp only [List.mem_singleton, Prod.mk.injEq] at hq
      exact (hlead k c hq.2.symm).elim
  refine ⟨?_, ?_, ?_, ?_⟩
  · rw [hrole]
    refine (Function.forall_update_iff s.role (p := fun q r => r.Logged (ls ++ [(p, e)]) q)).mpr
      ⟨hr, fun q hq => (h.logged q).append ?_⟩
    intro k c he
    exact hq (Prod.mk.inj he).1
  · intro q k c hq
    rw [hnext]
    rcases hq with hq | hq
    · exact h.lt_next q k c (Or.inl (hmem hq))
    · rcases List.mem_append.mp hq with hq | hq
      · exact h.lt_next q k c (Or.inr hq)
      · simp only [List.mem_singleton, Prod.mk.injEq] at hq
        exact hdelete k c hq.2.symm
  · intro q k q' k' c hq hq'
    exact h.unique q k q' k' c (hmem hq) (hmem hq')
  · intro c hc hwg
    rw [hnext] at hc
    rcases hcalls c hc hwg with ⟨hs, heq⟩ | hf
    · exact (h.finished c hc hs).append heq
    · exact hf

/-- The same for a step that leaves the group's calls alone. -/
theorem History.update_pc (h : History ls s) {mu : Option P}
    (hr : x.role.Logged (ls ++ [(p, e)]) p) (hnext : g.next = s.g.next) (hg : g.calls = s.g.calls)
    (hlead : ∀ k c, e ≠ .lead k c) (hdelete : ∀ k c, e = .delete k c → c < s.g.next) :
    History (ls ++ [(p, e)]) { s.setPC p x with mu := mu, g := g } := by
  refine h.update (role_setPC x) hr hnext hlead hdelete fun c _ hwg => Or.inl ?_
  change (g.calls c).wg = false at hwg
  rw [hg] at hwg
  exact ⟨hwg, congrFun hg c⟩

theorem inv_setPC {mu : Option P} (h : Inv g (Function.update s.role p x.role)) :
    Inv g (State.role { s.setPC p x with mu := mu, g := g }) := by
  rw [← role_setPC] at h
  exact h

variable [DecidableEq K]

/-- Every step keeps the map, the calls and the callers in agreement. -/
theorem inv_step (h : Step s (p, e) t) (hi : Inv s.g s.role) : Inv t.g t.role := by
  have hnone : ∀ {x : PC K V}, s.pc p = x → x.role.leads = none → (s.role p).leads = none :=
    fun hx hl => by rw [State.role, hx, hl]
  have hat : ∀ {x : PC K V}, s.pc p = x → s.role p = x.role := fun hx => by rw [State.role, hx]
  have hstay : ∀ {x : PC K V}, x.role = s.role p → Inv s.g (Function.update s.role p x.role) :=
    fun hx => by rwa [hx, Function.update_eq_self]
  cases h with
  | call k h => exact inv_setPC (hstay (hat h).symm)
  | enter h _ => exact inv_setPC (hstay (hat h).symm)
  | join h hm => exact inv_setPC (inv_join hi (hnone h rfl) hm)
  | wake h _ => exact inv_setPC (inv_leave hi (hnone h rfl))
  | lead h hm => exact inv_setPC (inv_register hi (hnone h rfl) hm)
  | finish o h => exact inv_setPC (inv_assign hi (hat h))
  | done h => exact inv_setPC (inv_done hi (hat h))
  | deleteEnter h _ => exact inv_setPC (hstay (hat h).symm)
  | delete h => exact inv_setPC (PC.leave_role (K := K) _ ▸ inv_delete hi (hat h))
  | callLock h => exact inv_setPC (hstay (hat h).symm)
  | lockEnter h _ => exact inv_setPC (hstay (hat h).symm)
  | lockExit h => exact inv_setPC (hstay (hat h).symm)

theorem history_lead (h : History ls s) :
    History (ls ++ [(p, .lead k s.g.next)])
      { s.setPC p (.running k s.g.next) with mu := none, g := s.g.register k } := by
  have hmem : ∀ {q k' c}, (q, .lead k' c) ∈ ls ++ [(p, .lead k s.g.next)] →
      (q, .lead k' c) ∈ ls ∧ c < s.g.next ∨ q = p ∧ k' = k ∧ c = s.g.next := by
    intro q k' c hq
    rcases List.mem_append.mp hq with hq | hq
    · exact Or.inl ⟨hq, h.lt_next q k' c (Or.inl hq)⟩
    · simp only [List.mem_singleton, Prod.mk.injEq, Event.lead.injEq] at hq
      exact Or.inr hq
  refine ⟨?_, ?_, ?_, ?_⟩
  · change ∀ q, ((s.setPC p (.running k s.g.next)).role q).Logged _ q
    rw [role_setPC]
    refine (Function.forall_update_iff s.role (p := fun q r => r.Logged _ q)).mpr
      ⟨⟨by simp, ?_⟩, fun q _ => (h.logged q).append (by simp)⟩
    intro hd
    have hlt := h.lt_next p k s.g.next (Or.inr (by simpa using hd))
    omega
  · intro q k' c hq
    change c < s.g.next + 1
    rcases hq with hq | hq
    · rcases hmem hq with ⟨_, hc⟩ | ⟨_, _, hc⟩ <;> omega
    · exact Nat.lt_succ_of_lt (h.lt_next q k' c (Or.inr (by simpa using hq)))
  · intro q k₁ q' k₂ c hq hq'
    rcases hmem hq with ⟨hl, hc⟩ | ⟨rfl, rfl, hc⟩ <;>
      rcases hmem hq' with ⟨hl', hc'⟩ | ⟨rfl, rfl, hc'⟩
    · exact h.unique q k₁ q' k₂ c hl hl'
    · omega
    · omega
    · exact ⟨rfl, rfl⟩
  · intro c hc hwg
    change c < s.g.next + 1 at hc
    have hne : c ≠ s.g.next := by
      rintro rfl
      simp [Group.register, Call.new] at hwg
    have hcall : (s.g.register k).calls c = s.g.calls c := by simp [Group.register, hne]
    rw [hcall] at hwg
    exact (h.finished c (by omega) hwg).append hcall

/-- Every step extends the history. -/
theorem history_step (h : Step s (p, e) t) (hi : Inv s.g s.role) (hh : History ls s) :
    History (ls ++ [(p, e)]) t := by
  have hok := hi.ok p
  have hlog := hh.logged p
  unfold State.role at hok hlog
  cases h with
  | call k h => exact hh.update_pc trivial rfl rfl (by simp) (by simp)
  | enter h _ => exact hh.update_pc trivial rfl rfl (by simp) (by simp)
  | join h _ => exact hh.update_pc trivial rfl rfl (by simp) (by simp)
  | wake h _ => exact hh.update_pc trivial rfl rfl (by simp) (by simp)
  | lead h _ => exact history_lead hh
  | @finish _ k c o h =>
    rw [h] at hok hlog
    refine hh.update (role_setPC _) ?_ (by cases o <;> rfl) (by simp) (by simp) ?_
    · exact ⟨hlog.append (by simp), by simp⟩
    · intro c' _ hwg
      have hne : c' ≠ c := by
        rintro rfl
        obtain ⟨_, _, hnew⟩ := hok
        cases o <;> simp [Group.assign, hnew, Call.new] at hwg
      have hsame : (s.g.assign c o).calls c' = s.g.calls c' := by
        cases o <;> simp [Group.assign, hne]
      exact Or.inl ⟨hsame ▸ hwg, hsame⟩
  | @done _ k c o h =>
    rw [h] at hok hlog
    have hlog' : (Role.done k c o).Logged (ls ++ [(p, .done c)]) p := hlog.append (by simp)
    refine hh.update (role_setPC _) hlog' rfl (by simp) (by simp) ?_
    intro c' _ hwg
    by_cases hc : c' = c
    · subst hc
      obtain ⟨_, _, _, hres⟩ := hok
      refine Or.inr ⟨p, k, o, hlog'.1.1, hlog'.2, ?_⟩
      simpa [Group.done, Call.result] using hres
    · have hsame : (s.g.done c).calls c' = s.g.calls c' := by simp [Group.done, hc]
      exact Or.inl ⟨hsame ▸ hwg, hsame⟩
  | deleteEnter h _ =>
    rw [h] at hlog
    exact hh.update_pc (hlog.append (by simp)) rfl rfl (by simp) (by simp)
  | @delete _ k c o h =>
    rw [h] at hok
    refine hh.update_pc (x := .leave o) ?_ rfl rfl (by simp) ?_
    · rw [PC.leave_role]
      trivial
    · rintro k' c' he
      obtain ⟨rfl, rfl⟩ := Event.delete.inj he
      exact hok.2.1
  | callLock h => exact hh.update_pc trivial rfl rfl (by simp) (by simp)
  | lockEnter h _ => exact hh.update_pc trivial rfl rfl (by simp) (by simp)
  | lockExit h => exact hh.update_pc trivial rfl rfl (by simp) (by simp)

/-- What the history shows of a caller: its call, how it joined and whose result it took. -/
def PC.Logged (ls : List (P × Event K V)) (p : P) : PC K V → Prop
  | .entering k | .entered k => (p, .call k) ∈ ls
  | .waiting k c => (p, .call k) ∈ ls ∧ (p, .join k c) ∈ ls ∧ ∃ q, (q, .lead k c) ∈ ls
  | .running k c | .assigned k c _ | .deleting k c _ | .deleteEntered k c _ => (p, .lead k c) ∈ ls
  | .returned r => (∃ k c, (p, .lead k c) ∈ ls) ∨
    ∃ k c q o, (p, .call k) ∈ ls ∧ (p, .join k c) ∈ ls ∧ (q, .lead k c) ∈ ls ∧
      (q, .finish k c o) ∈ ls ∧ r = o.result
  | _ => True

omit [DecidableEq P] [DecidableEq K] in
theorem PC.Logged.append {l : P × Event K V} (h : x.Logged ls q) : x.Logged (ls ++ [l]) q := by
  cases x <;> grind [PC.Logged]

theorem logged_step (h : Step s (p, e) t) (hi : Inv s.g s.role) (hh : History ls s)
    (hl : ∀ q, (s.pc q).Logged ls q) : ∀ q, (t.pc q).Logged (ls ++ [(p, e)]) q := by
  have hp := (hl p).append (l := (p, e))
  have hset : ∀ {x : PC K V}, x.Logged (ls ++ [(p, e)]) p →
      ∀ q, ((s.setPC p x).pc q).Logged (ls ++ [(p, e)]) q := fun hx =>
    (Function.forall_update_iff s.pc (p := fun q x => x.Logged _ q)).mpr
      ⟨hx, fun q _ => (hl q).append⟩
  cases h with
  | call k h => exact hset (by simp [PC.Logged])
  | enter h _ =>
    rw [h] at hp
    exact hset (x := .entered _) hp
  | @join _ k c h hm =>
    rw [h] at hp
    obtain ⟨q, hq⟩ := hi.led k c hm
    exact hset (x := .waiting k c)
      ⟨hp, by simp, q, List.mem_append_left _ ((hh.logged q).lead hq).1⟩
  | @wake _ k c h hwg =>
    have hok := hi.ok p
    rw [State.role, h] at hok
    obtain ⟨hcall, hjoin, q', hq'⟩ : (PC.waiting k c).Logged ls p := h ▸ hl p
    obtain ⟨q, k', o, hq, hf, hr⟩ := hh.finished c hok.1 hwg
    obtain ⟨rfl, rfl⟩ := hh.unique q k' q' k c hq hq'
    exact hset (x := .returned _) (Or.inr ⟨k', c, q, o, List.mem_append_left _ hcall,
      List.mem_append_left _ hjoin, List.mem_append_left _ hq, List.mem_append_left _ hf, hr⟩)
  | lead h _ => exact hset (x := .running _ _) (by simp [PC.Logged])
  | finish o h =>
    rw [h] at hp
    exact hset (x := .assigned _ _ o) hp
  | done h =>
    rw [h] at hp
    exact hset (x := .deleting _ _ _) hp
  | deleteEnter h _ =>
    rw [h] at hp
    exact hset (x := .deleteEntered _ _ _) hp
  | @delete _ k c o h =>
    rw [h] at hp
    cases o with
    | ret val err => exact hset (x := .returned _) (Or.inl ⟨_, _, hp⟩)
    | panic => exact hset (x := .panicked) trivial
  | callLock h => exact hset trivial
  | lockEnter h _ => exact hset (x := .locked) trivial
  | lockExit h => exact hset (x := .unlocked) trivial

/-- Only the holder of the mutex is in a critical section. -/
theorem exclusive_step (h : Step s (p, e) t) (hs : ∀ q, (s.pc q).Critical → s.mu = some q) :
    ∀ q, (t.pc q).Critical → t.mu = some q := by
  intro q hq
  have hp := hs p
  have hsq := hs q
  by_cases hqp : q = p
  · subst hqp
    cases h
    case delete h => exact (PC.not_critical_leave _ (by simpa [State.setPC] using hq)).elim
    all_goals simp_all [State.setPC, PC.Critical]
  · cases h <;> simp_all [State.setPC, PC.Critical]

/-- What holds along every run of the group. -/
structure Safe (ls : List (P × Event K V)) (s : State K V P) : Prop where
  inv : Inv s.g s.role
  history : History ls s
  logged : ∀ q, (s.pc q).Logged ls q
  exclusive : ∀ q, (s.pc q).Critical → s.mu = some q

theorem safe_reachable (h : singleflightLTS.Run ls s) : Safe ls s := by
  refine h.invariant ?_ ?_
  · rintro s ⟨_, hg, hpc⟩
    have hrole : s.role = fun _ => .out := by
      funext p
      rw [State.role, hpc]
      rfl
    refine ⟨?_, ⟨?_, by simp, by simp, by simp [hg, Group.empty]⟩, ?_, ?_⟩
    · rw [hrole, hg]
      exact inv_empty
    · simp [hrole, Role.Logged]
    · simp [hpc, PC.Logged]
    · simp [hpc, PC.Critical]
  · rintro ls s ⟨p, e⟩ t _ hs h
    exact ⟨inv_step h hs.inv, history_step h hs.inv hs.history,
      logged_step h hs.inv hs.history hs.logged, exclusive_step h hs.exclusive⟩

/-- Whoever is in the map when a call joins is a leader that has not deleted its entry. -/
theorem join_registered (h : singleflightLTS.Run ls s) (hj : (p, .join k c) ∈ ls) :
    ∃ i q, ls[i]? = some (p, .join k c) ∧ (q, .lead k c) ∈ ls.take i ∧
      (q, .delete k c) ∉ ls.take i := by
  obtain ⟨i, hi⟩ := List.mem_iff_getElem?.mp hj
  obtain ⟨u, v, hu, huv, _⟩ := h.occurs hi
  have hsafe := safe_reachable hu
  cases huv with
  | join _ hm =>
    obtain ⟨q, hq⟩ := hsafe.inv.led k c hm
    exact ⟨i, q, hi, (hsafe.history.logged q).lead hq⟩

theorem map_empty_of_inactive (h : singleflightLTS.Run ls s) (hp : ∀ p, ¬ (s.pc p).Active) :
    s.g.m k = none :=
  (safe_reachable h).inv.map_empty (fun p => PC.not_active_leads (hp p)) k

/-- A `Do` that is alone in the group leads. -/
theorem leads_of_alone (h : singleflightLTS.Run ls s) (hk : s.pc p = .entered k)
    (hq : ∀ q, q ≠ p → ¬ (s.pc q).Active) (hs : Step s (p, e) t) : e = .lead k s.g.next := by
  have hm : s.g.m k = none := by
    apply (safe_reachable h).inv.map_empty
    intro q
    by_cases hqp : q = p
    · rw [State.role, hqp, hk]
      rfl
    · exact PC.not_active_leads (hq q hqp)
  cases hs <;> simp_all

/-- The guarantees of `Do` under every interleaving with `Do` and `Lock` calls: one execution a
key; a follower takes the result of an execution it found registered; a leader deletes its own
entry; and an idle group has no entries. -/
theorem singleflight_safe (h : singleflightLTS.Run ls s) :
    (∀ p q k c c', s.pc p = .running k c → s.pc q = .running k c' → p = q) ∧
    (∀ p r, s.pc p = .returned r → (∀ k c, (p, .lead k c) ∉ ls) →
      ∃ k c i q o, (p, .call k) ∈ ls ∧ ls[i]? = some (p, .join k c) ∧
        (q, .lead k c) ∈ ls.take i ∧ (q, .delete k c) ∉ ls.take i ∧
        (q, .finish k c o) ∈ ls ∧ r = o.result) ∧
    (∀ p k c o e t, s.pc p = .deleteEntered k c o → Step s (p, e) t →
      (p, .lead k c) ∈ ls ∧ s.g.m k = some c ∧ t.g.m = Function.update s.g.m k none) ∧
    ((∀ p, ¬ (s.pc p).Active) → ∀ k, s.g.m k = none) ∧
    (∀ p k e t, s.pc p = .entered k → (∀ q, q ≠ p → ¬ (s.pc q).Active) → Step s (p, e) t →
      e = .lead k s.g.next) := by
  have hsafe := safe_reachable h
  refine ⟨?_, ?_, ?_, fun hp k => map_empty_of_inactive h hp,
    fun p k e t hk hq hs => leads_of_alone h hk hq hs⟩
  · intro p q k c c' hp hq
    exact (hsafe.inv.leader_unique (by rw [State.role, hp]; rfl) (by rw [State.role, hq]; rfl)).1
  · intro p r hr hno
    have hlog := hsafe.logged p
    rw [hr] at hlog
    rcases hlog with ⟨k, c, hl⟩ | ⟨k, c, q, o, hcall, hjoin, hlead, hfin, hres⟩
    · exact (hno k c hl).elim
    · obtain ⟨i, q', hi, hlead', hdel⟩ := join_registered h hjoin
      obtain ⟨rfl, _⟩ := hsafe.history.unique q k q' k c hlead (List.mem_of_mem_take hlead')
      exact ⟨k, c, i, q, o, hcall, hi, hlead', hdel, hfin, hres⟩
  · intro p k c o e t hp hs
    have hok := hsafe.inv.ok p
    have hlog := hsafe.history.logged p
    rw [State.role, hp] at hok hlog
    refine ⟨(hlog.lead rfl).1, hok.1, ?_⟩
    cases hs <;> simp_all [Group.delete]

/-- A leader panics while a second caller waits, which then returns the preset error. -/
def panicRun : List (ℕ × Event ℕ ℕ) :=
  [(0, .call 7), (0, .lock), (0, .lead 7 0), (1, .call 7), (1, .lock), (1, .join 7 0),
    (0, .finish 7 0 .panic), (0, .done 0), (1, .wake 7 0 (none, some .leaderPanicked))]

theorem panicRun_run : ∃ s : State ℕ ℕ ℕ, singleflightLTS.Run panicRun s ∧
    s.pc 1 = .returned (none, some .leaderPanicked) := by
  have h₀ : (singleflightLTS (K := ℕ) (V := ℕ) (P := ℕ)).Run [] ⟨none, .empty, fun _ => .idle⟩ :=
    .init ⟨rfl, rfl, rfl⟩
  have h₁ := h₀.step (Step.call (p := 0) 7 rfl)
  have h₂ := h₁.step (Step.enter (p := 0) rfl rfl)
  have h₃ := h₂.step (Step.lead (p := 0) rfl rfl)
  have h₄ := h₃.step (Step.call (p := 1) 7 rfl)
  have h₅ := h₄.step (Step.enter (p := 1) rfl rfl)
  have h₆ := h₅.step (Step.join (p := 1) rfl rfl)
  have h₇ := h₆.step (Step.finish (p := 0) .panic rfl)
  have h₈ := h₇.step (Step.done (p := 0) rfl)
  exact ⟨_, h₈.step (Step.wake (p := 1) rfl rfl), rfl⟩

theorem singleflight_safe_panicRun : ∃ k c i q o, (1, .call k) ∈ panicRun ∧
    panicRun[i]? = some (1, .join k c) ∧ (q, .lead k c) ∈ panicRun.take i ∧
    (q, .delete k c) ∉ panicRun.take i ∧ (q, .finish k c o) ∈ panicRun ∧
    (none, some .leaderPanicked) = o.result := by
  obtain ⟨s, hrun, hs⟩ := panicRun_run
  exact (singleflight_safe hrun).2.1 1 _ hs (by simp [panicRun])

end Groupcache.Singleflight
