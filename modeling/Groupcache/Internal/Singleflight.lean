import Mathlib.Logic.Function.Basic
import Groupcache.Errors

/-! `internal/singleflight`: the shared state of a `Group`, what one locked section or one
assignment does to it, and the invariant that ties it to the calls in progress. -/
namespace Groupcache.Singleflight

variable {K V P : Type}

/-- `call`; `wg` is set until `wg.Done`. -/
structure Call (V : Type) where
  wg : Bool
  val : Option V
  err : Option Err

/-- `Group`: `m` maps a key to a call's pointer, `next` is the next unused pointer. -/
structure Group (K V : Type) where
  m : K → Option ℕ
  calls : ℕ → Call V
  next : ℕ

/-- How a function given to `Do` ends. -/
inductive Outcome (V : Type)
  | ret (val : Option V) (err : Option Err)
  | panic

/-- What the call of a function with this outcome holds for those who wait on it. -/
def Outcome.result : Outcome V → Option V × Option Err
  | .ret val err => (val, err)
  | .panic => (none, some .leaderPanicked)

/-- A call as `Do` registers it: the error is preset for a leader that panics. -/
def Call.new : Call V := { wg := true, val := none, err := some .leaderPanicked }

def Call.result (c : Call V) : Option V × Option Err := (c.val, c.err)

def Group.empty : Group K V := { m := fun _ => none, calls := fun _ => .new, next := 0 }

/-- `c.val, c.err = fn()`, which a panic skips. -/
def Group.assign (g : Group K V) (c : ℕ) (o : Outcome V) : Group K V :=
  match o with
  | .ret val err =>
    { g with calls := Function.update g.calls c { g.calls c with val := val, err := err } }
  | .panic => g

/-- `c.wg.Done()`. -/
def Group.done (g : Group K V) (c : ℕ) : Group K V :=
  { g with calls := Function.update g.calls c { g.calls c with wg := false } }

/-- The rest of the locked section of `Do` when the key is not in the map. -/
def Group.register [DecidableEq K] (g : Group K V) (k : K) : Group K V :=
  { m := Function.update g.m k (some g.next)
    calls := Function.update g.calls g.next .new
    next := g.next + 1 }

/-- `delete(g.m, key)`. -/
def Group.delete [DecidableEq K] (g : Group K V) (k : K) : Group K V :=
  { g with m := Function.update g.m k none }

/-- What a call of `Do` is doing, as far as the group is concerned. -/
inductive Role (K V : Type)
  | out
  | wait (k : K) (c : ℕ)
  | running (k : K) (c : ℕ)
  | assigned (k : K) (c : ℕ) (o : Outcome V)
  | done (k : K) (c : ℕ) (o : Outcome V)

/-- The key and the call of a leader whose entry has not been deleted. -/
def Role.leads : Role K V → Option (K × ℕ)
  | .running k c | .assigned k c _ | .done k c _ => some (k, c)
  | _ => none

/-- What the group must hold for a call in this role. -/
def Role.Ok (g : Group K V) : Role K V → Prop
  | .out => True
  | .wait k c => c < g.next ∧ ((g.calls c).wg = true → g.m k = some c)
  | .running k c => g.m k = some c ∧ c < g.next ∧ g.calls c = .new
  | .assigned k c o =>
    g.m k = some c ∧ c < g.next ∧ (g.calls c).wg = true ∧ (g.calls c).result = o.result
  | .done k c o =>
    g.m k = some c ∧ c < g.next ∧ (g.calls c).wg = false ∧ (g.calls c).result = o.result

/-- Entries of the map and leaders correspond, and a call is open until its leader is done. -/
structure Inv (g : Group K V) (role : P → Role K V) : Prop where
  ok : ∀ p, (role p).Ok g
  led : ∀ k c, g.m k = some c → ∃ p, (role p).leads = some (k, c)
  unique : ∀ p q k k' c, (role p).leads = some (k, c) → (role q).leads = some (k', c) → p = q

variable {g : Group K V} {role : P → Role K V} {r : Role K V} {p q : P} {k k' : K} {c c' : ℕ}
  {o : Outcome V}

theorem Role.Ok.registered (h : r.Ok g) (hr : r.leads = some (k, c)) :
    g.m k = some c ∧ c < g.next := by
  cases r <;> simp_all [Role.leads, Role.Ok]

/-- A key has at most one leader. -/
theorem Inv.leader_unique (h : Inv g role) (hp : (role p).leads = some (k, c))
    (hq : (role q).leads = some (k, c')) : p = q ∧ c = c' := by
  have hc : c = c' := by
    have hm := ((h.ok p).registered hp).1
    rw [((h.ok q).registered hq).1] at hm
    simpa using hm.symm
  subst hc
  exact ⟨h.unique p q k k c hp hq, rfl⟩

/-- Nobody else leads the call of `p`. -/
theorem Inv.not_leads (h : Inv g role) (hp : (role p).leads = some (k, c)) (hq : q ≠ p) (k' : K) :
    (role q).leads ≠ some (k', c) :=
  fun hl => hq (h.unique q p k' k c hl hp)

/-- With nobody leading, the map is empty. -/
theorem Inv.map_empty (h : Inv g role) (hp : ∀ p, (role p).leads = none) (k : K) :
    g.m k = none := by
  cases hm : g.m k with
  | none => rfl
  | some c =>
    obtain ⟨p, hl⟩ := h.led k c hm
    simp [hp p] at hl

theorem inv_empty : Inv (Group.empty : Group K V) (fun _ : P => .out) := by
  constructor <;> simp [Group.empty, Role.leads, Role.Ok]

theorem Role.Ok.register [DecidableEq K] (h : r.Ok g) (hm : g.m k = none) :
    r.Ok (g.register k) := by
  have hcalls : ∀ c, c < g.next → (g.register k).calls c = g.calls c := by
    intro c hc
    simp [Group.register, Nat.ne_of_lt hc]
  have hmap : ∀ k' c, g.m k' = some c → (g.register k).m k' = some c := by
    intro k' c hk
    have hne : k' ≠ k := by
      rintro rfl
      simp [hm] at hk
    simpa [Group.register, hne] using hk
  have hnext : ∀ c, c < g.next → c < (g.register k).next := fun c hc => Nat.lt_succ_of_lt hc
  cases r with
  | out => trivial
  | wait k' c' =>
    obtain ⟨hlt, hw⟩ := h
    exact ⟨hnext c' hlt, fun hwg => hmap k' c' (hw (by rwa [hcalls c' hlt] at hwg))⟩
  | running k' c' =>
    obtain ⟨hk, hlt, hnew⟩ := h
    exact ⟨hmap k' c' hk, hnext c' hlt, by rw [hcalls c' hlt, hnew]⟩
  | assigned k' c' o =>
    obtain ⟨hk, hlt, hwg, hres⟩ := h
    exact ⟨hmap k' c' hk, hnext c' hlt, by rwa [hcalls c' hlt], by rwa [hcalls c' hlt]⟩
  | done k' c' o =>
    obtain ⟨hk, hlt, hwg, hres⟩ := h
    exact ⟨hmap k' c' hk, hnext c' hlt, by rwa [hcalls c' hlt], by rwa [hcalls c' hlt]⟩

theorem Role.Ok.assign (h : r.Ok g) (hne : ∀ k, r.leads ≠ some (k, c)) : r.Ok (g.assign c o) := by
  cases o with
  | panic => exact h
  | ret val err =>
    cases r with
    | out => trivial
    | wait k' c' =>
      obtain ⟨hlt, hw⟩ := h
      refine ⟨hlt, fun hwg => hw ?_⟩
      by_cases hc : c' = c <;> simp_all [Group.assign]
    | running k' c' | assigned k' c' _ | done k' c' _ =>
      have hc : c' ≠ c := by
        rintro rfl
        exact hne k' rfl
      simpa [Role.Ok, Group.assign, hc] using h

theorem Role.Ok.done (h : r.Ok g) (hne : ∀ k, r.leads ≠ some (k, c)) : r.Ok (g.done c) := by
  cases r with
  | out => trivial
  | wait k' c' =>
    obtain ⟨hlt, hw⟩ := h
    refine ⟨hlt, fun hwg => hw ?_⟩
    by_cases hc : c' = c <;> simp_all [Group.done]
  | running k' c' | assigned k' c' _ | done k' c' _ =>
    have hc : c' ≠ c := by
      rintro rfl
      exact hne k' rfl
    simpa [Role.Ok, Group.done, hc] using h

theorem Role.Ok.delete [DecidableEq K] (h : r.Ok g) (hne : ∀ c, r.leads ≠ some (k, c))
    (hm : g.m k = some c) (hwg : (g.calls c).wg = false) : r.Ok (g.delete k) := by
  cases r with
  | out => trivial
  | wait k' c' =>
    obtain ⟨hlt, hw⟩ := h
    refine ⟨hlt, fun hopen => ?_⟩
    have hk' := hw hopen
    have hk : k' ≠ k := by
      rintro rfl
      have : c = c' := by simpa [hm] using hk'
      subst this
      simp [Group.delete, hwg] at hopen
    simpa [Group.delete, hk] using hk'
  | running k' c' | assigned k' c' _ | done k' c' _ =>
    have hk : k' ≠ k := by
      rintro rfl
      exact hne c' rfl
    simpa [Role.Ok, Group.delete, hk] using h

variable [DecidableEq P]

/-- Changing the role of a call that leads the same entry as before, or none. -/
theorem Inv.update (h : Inv g role) (g' : Group K V) (hm : g'.m = g.m)
    (hleads : r.leads = (role p).leads) (hp : r.Ok g') (hok : ∀ q, q ≠ p → (role q).Ok g') :
    Inv g' (Function.update role p r) := by
  have hsame : ∀ q, (Function.update role p r q).leads = (role q).leads := by
    intro q
    by_cases hq : q = p
    · subst hq
      simpa using hleads
    · simp [hq]
  refine ⟨(Function.forall_update_iff role (p := fun _ r => r.Ok g')).mpr ⟨hp, hok⟩, ?_, ?_⟩
  · simpa only [hsame, hm] using h.led
  · simpa only [hsame] using h.unique

theorem inv_join (h : Inv g role) (hp : (role p).leads = none) (hm : g.m k = some c) :
    Inv g (Function.update role p (.wait k c)) := by
  obtain ⟨q, hq⟩ := h.led k c hm
  exact h.update g rfl hp.symm ⟨((h.ok q).registered hq).2, fun _ => hm⟩ fun q _ => h.ok q

theorem inv_leave (h : Inv g role) (hp : (role p).leads = none) :
    Inv g (Function.update role p .out) :=
  h.update g rfl hp.symm trivial fun q _ => h.ok q

theorem inv_register [DecidableEq K] (h : Inv g role) (hp : (role p).leads = none)
    (hm : g.m k = none) : Inv (g.register k) (Function.update role p (.running k g.next)) := by
  have hlead : ∀ q k' c, (Function.update role p (.running k g.next) q).leads = some (k', c) →
      (q = p ∧ c = g.next) ∨ (q ≠ p ∧ (role q).leads = some (k', c) ∧ c < g.next) := by
    intro q k' c hq
    by_cases hqp : q = p
    · subst hqp
      simp only [Function.update_self, Role.leads, Option.some.injEq, Prod.mk.injEq] at hq
      exact Or.inl ⟨rfl, hq.2.symm⟩
    · rw [Function.update_of_ne hqp] at hq
      exact Or.inr ⟨hqp, hq, ((h.ok q).registered hq).2⟩
  refine ⟨(Function.forall_update_iff role (p := fun _ r => r.Ok _)).mpr ⟨?_, ?_⟩, ?_, ?_⟩
  · exact ⟨by simp [Group.register], Nat.lt_succ_self _, by simp [Group.register]⟩
  · exact fun q _ => (h.ok q).register hm
  · intro k' c' hk
    by_cases hkk : k' = k
    · subst hkk
      exact ⟨p, by simpa [Role.leads, Group.register] using hk⟩
    · obtain ⟨q, hq⟩ := h.led k' c' (by simpa [Group.register, hkk] using hk)
      have hqp : q ≠ p := by
        rintro rfl
        simp [hp] at hq
      exact ⟨q, by simpa [hqp] using hq⟩
  · intro q q' k₁ k₂ c' hq hq'
    rcases hlead q k₁ c' hq with ⟨rfl, hc⟩ | ⟨_, hl, hc⟩ <;>
      rcases hlead q' k₂ c' hq' with ⟨rfl, hc'⟩ | ⟨_, hl', hc'⟩
    · rfl
    · omega
    · omega
    · exact h.unique q q' k₁ k₂ c' hl hl'

theorem inv_assign (h : Inv g role) (hp : role p = .running k c) :
    Inv (g.assign c o) (Function.update role p (.assigned k c o)) := by
  have hl : (role p).leads = some (k, c) := by rw [hp, Role.leads]
  obtain ⟨hm, hlt, hnew⟩ : (Role.running k c).Ok g := hp ▸ h.ok p
  apply h.update _ (by cases o <;> rfl) (by rw [hl, Role.leads])
  · cases o with
    | panic => exact ⟨hm, hlt, by rw [Group.assign, hnew]; rfl, by rw [Group.assign, hnew]; rfl⟩
    | ret val err =>
      refine ⟨hm, hlt, ?_, ?_⟩ <;> simp [Group.assign, hnew, Call.new, Call.result, Outcome.result]
  · exact fun q hq => (h.ok q).assign (h.not_leads hl hq)

theorem inv_done (h : Inv g role) (hp : role p = .assigned k c o) :
    Inv (g.done c) (Function.update role p (.done k c o)) := by
  have hl : (role p).leads = some (k, c) := by rw [hp, Role.leads]
  obtain ⟨hm, hlt, _, hres⟩ : (Role.assigned k c o).Ok g := hp ▸ h.ok p
  apply h.update (g.done c) rfl (by rw [hl, Role.leads])
  · exact ⟨hm, hlt, by simp [Group.done], by simpa [Group.done, Call.result] using hres⟩
  · exact fun q hq => (h.ok q).done (h.not_leads hl hq)

/-- The deferred delete removes the entry its own leader registered, and no other. -/
theorem inv_delete [DecidableEq K] (h : Inv g role) (hp : role p = .done k c o) :
    Inv (g.delete k) (Function.update role p .out) := by
  have hl : (role p).leads = some (k, c) := by rw [hp, Role.leads]
  obtain ⟨hm, hlt, hwg, _⟩ : (Role.done k c o).Ok g := hp ▸ h.ok p
  have hout : ∀ q, q ≠ p → ∀ c', (role q).leads ≠ some (k, c') := by
    intro q hq c' hq'
    exact hq (h.leader_unique hq' hl).1
  refine ⟨(Function.forall_update_iff role (p := fun _ r => r.Ok _)).mpr ⟨trivial, ?_⟩, ?_, ?_⟩
  · exact fun q hq => (h.ok q).delete (hout q hq) hm hwg
  · intro k' c' hk
    have hkk : k' ≠ k := by
      rintro rfl
      simp [Group.delete] at hk
    obtain ⟨q, hq⟩ := h.led k' c' (by simpa [Group.delete, hkk] using hk)
    have hqp : q ≠ p := by
      rintro rfl
      rw [hl] at hq
      simp only [Option.some.injEq, Prod.mk.injEq] at hq
      exact hkk hq.1.symm
    exact ⟨q, by simpa [hqp] using hq⟩
  · intro q q' k₁ k₂ c' hq hq'
    have hne : ∀ {x k}, (Function.update role p .out x).leads = some (k, c') → x ≠ p := by
      rintro x k hx rfl
      simp [Role.leads] at hx
    have hqp := hne hq
    have hqp' := hne hq'
    exact h.unique q q' k₁ k₂ c' (by simpa [hqp] using hq) (by simpa [hqp'] using hq')

end Groupcache.Singleflight
