import Groupcache.StaleLoads
import Mathlib.Data.Set.Card

/-! The counters of one group under any number of concurrent calls: `Gets` against `CacheHits` and
`Loads`. A load whose second look at the caches finds the key is counted as a load and as a hit. -/
namespace Groupcache.Concurrent

open Transport

/-- What the hits and the loads together are above the gets. -/
def surplus (g : Group Value) : ℤ := g.stats .cacheHits + g.stats .loads - g.stats .gets

/-- A `Get` that is counted in `Gets` only. -/
def Owes : Op → Loc → Prop
  | .get _ _, .lookup _ | .get _ _, .enter => True
  | _, _ => False

/-- The step of `load` whose second look at the caches finds the key. -/
def Rechecks (loc loc' : Loc) : Prop :=
  ∃ c tier o destPopulated, loc = .lead c (.lookup tier) ∧ loc' = .lead c (.ends o destPopulated)

variable {P : Type}

def RecheckHit (s : State P) (l : Label P) (t : State P) : Prop :=
  ∃ p op e since loc loc', l = .call p op e ∧ s.pc p = some ⟨op, since, loc⟩ ∧
    t.pc p = some ⟨op, since, loc'⟩ ∧ Rechecks loc loc'

/-- No `Get` is in progress. -/
def GetsReturned (s : State P) : Prop :=
  ∀ p key dest since loc, s.pc p = some ⟨.get key dest, since, loc⟩ → loc = .returned

/-- No `Get` with a nil sink was called. -/
def HasSinks (ls : List (Label P)) : Prop :=
  ∀ p key, Label.call p (.get key none) .invoke ∉ ls

/-- The calls that are counted in `Gets` only. -/
def owing (s : State P) : Set P :=
  {p | ∃ op since loc, s.pc p = some ⟨op, since, loc⟩ ∧ Owes op loc}

variable {ls : List (Label P)} {s t : State P} {l : Label P} {p : P} {op : Op}
  {since time m : ℕ} {loc loc' : Loc} {e : Event} {n n' : Node} {k : GoString} {b b' : Body}
  {g : Group Value} {v : Value} {cacheBytes : ℤ}

theorem look_stats {now : Time} {tier : Tier} {g' : Group Value} {r : Found}
    (h : look g now k tier = (g', r)) : g'.stats = g.stats := by
  have heq : (look g now k tier).1 = g' := by rw [h]
  rw [← heq]
  cases tier with
  | main =>
    rw [look]
    split <;> rfl
  | hot => rfl

theorem look_surplus {now : Time} {tier : Tier} {g' : Group Value} {r : Found}
    (h : look g now k tier = (g', r)) : surplus g' = surplus g := by
  rw [surplus, look_stats h, surplus]

@[simp] theorem surplus_count_cacheHits : surplus (g.count .cacheHits 1) = surplus g + 1 := by
  simp [surplus, Group.count]
  omega

@[simp] theorem surplus_count_loads : surplus (g.count .loads 1) = surplus g + 1 := by
  simp [surplus, Group.count]
  omega

@[simp] theorem surplus_count_gets : surplus (g.count .gets 1) = surplus g - 1 := by
  simp [surplus, Group.count]
  omega

theorem surplus_count {c : Counter} {i : ℤ} (h : c ≠ .cacheHits ∧ c ≠ .loads ∧ c ≠ .gets) :
    surplus (g.count c i) = surplus g := by
  simp [surplus, Group.count, h.1.symm, h.2.1.symm, h.2.2.symm]

@[simp] theorem surplus_populateMain : surplus (g.populateMain k v) = surplus g := by
  unfold Group.populateMain
  split <;> rfl

@[simp] theorem surplus_populateHot : surplus (g.populateHot k v) = surplus g := by
  unfold Group.populateHot
  split <;> rfl

@[simp] theorem surplus_remoteSet : surplus (g.remoteSet k v) = surplus g := by
  unfold Group.remoteSet
  split <;> rfl

@[simp] theorem surplus_localRemove : surplus (g.localRemove k) = surplus g := by
  unfold Group.localRemove
  split <;> rfl

@[simp] theorem surplus_write : surplus (op.write g) = surplus g := by
  cases op with
  | get | set => rfl
  | remoteSet => exact surplus_remoteSet
  | remove | localRemove => exact surplus_localRemove

/-- Of the steps inside `Do`, only the second look at the caches moves the balance. -/
theorem BodyStep.surplus_eq (h : BodyStep n time op b e g b') (c : ℕ) :
    Rechecks (.lead c b) (.lead c b') ∧ surplus g = surplus n.group + 1 ∨
      ¬Rechecks (.lead c b) (.lead c b') ∧ surplus g = surplus n.group := by
  cases h with
  | hit now h => exact Or.inl ⟨⟨c, _, _, _, rfl, rfl⟩, by simp [look_surplus h]⟩
  | next now h => exact Or.inr ⟨by simp [Rechecks], look_surplus h⟩
  | miss now h =>
    refine Or.inr ⟨by simp [Rechecks], ?_⟩
    rw [surplus_count (by simp), look_surplus h]
  | fetchGiveUp | fetchFallBack | fillHot | got | failed =>
    exact Or.inr ⟨by simp [Rechecks], by simp [surplus_count]⟩
  | _ => exact Or.inr ⟨by simp [Rechecks], by simp⟩

/-- A `Get` leaves its lookups with a hit or a load counted, and nothing else of a call is counted
but the second look. -/
theorem Act.surplus_cases (h : Act n time op loc e n' loc') :
    (Rechecks loc loc' ∧ surplus n'.group = surplus n.group + 1 ∧ (Owes op loc' ↔ Owes op loc)) ∨
    (¬Rechecks loc loc' ∧ surplus n'.group = surplus n.group + 1 ∧ Owes op loc ∧ ¬Owes op loc') ∨
    (¬Rechecks loc loc' ∧ surplus n'.group = surplus n.group ∧ (Owes op loc' ↔ Owes op loc)) := by
  cases h with
  | hit now h =>
    exact Or.inr (Or.inl ⟨by simp [Rechecks], by simp [look_surplus h], by simp [Owes]⟩)
  | next now h | miss now h =>
    exact Or.inr (Or.inr ⟨by simp [Rechecks], look_surplus h, by simp [Owes]⟩)
  | join h | lead h =>
    cases op with
    | get => exact Or.inr (Or.inl ⟨by simp [Rechecks], by simp [Node.countLoad, Node.setFlight],
        by simp [Owes]⟩)
    | _ => exact Or.inr (Or.inr ⟨by simp [Rechecks], rfl, by simp [Owes]⟩)
  | @body _ c _ _ _ _ h =>
    rcases h.surplus_eq c with ⟨hr, hs⟩ | ⟨hr, hs⟩
    · exact Or.inl ⟨hr, hs, by simp [Owes]⟩
    · exact Or.inr (Or.inr ⟨hr, hs, by simp [Owes]⟩)
  | remoteSet => exact Or.inr (Or.inr ⟨by simp [Rechecks], surplus_remoteSet, by simp [Owes]⟩)
  | localRemove => exact Or.inr (Or.inr ⟨by simp [Rechecks], surplus_localRemove, by simp [Owes]⟩)
  | assign | done | delete | wake | ret =>
    exact Or.inr (Or.inr ⟨by simp [Rechecks], rfl, by simp [Owes]⟩)

theorem mem_owing (h : s.pc p = some ⟨op, since, loc⟩) : p ∈ owing s ↔ Owes op loc := by
  simp [owing, h]

theorem notMem_owing (h : s.pc p = none) : p ∉ owing s := by
  simp [owing, h]

variable [DecidableEq P]

@[simp] theorem node_setPC {fr : Frame} : (s.setPC p fr n).node = n := rfl

theorem owing_setPC_of_owes (h : Owes op loc) :
    owing (s.setPC p ⟨op, since, loc⟩ n) = insert p (owing s) := by
  ext q
  by_cases hq : q = p
  · subst hq
    simp [owing, State.setPC, h]
  · simp [owing, State.setPC, hq]

theorem owing_setPC_of_not_owes (h : ¬Owes op loc) :
    owing (s.setPC p ⟨op, since, loc⟩ n) = owing s \ {p} := by
  ext q
  by_cases hq : q = p
  · subst hq
    simp [owing, State.setPC, h]
  · simp [owing, State.setPC, hq]

theorem owing_setPC_of_iff (hp : s.pc p = some ⟨op, since, loc⟩)
    (h : Owes op loc' ↔ Owes op loc) : owing (s.setPC p ⟨op, since, loc'⟩ n) = owing s := by
  by_cases ho : Owes op loc
  · rw [owing_setPC_of_owes (h.mpr ho), Set.insert_eq_of_mem ((mem_owing hp).mpr ho)]
  · rw [owing_setPC_of_not_owes (fun ho' => ho (h.mp ho')),
      Set.sdiff_singleton_eq_self (fun hm => ho ((mem_owing hp).mp hm))]

/-- The gets are the hits and the loads, but for the calls that still owe one and for the `m` loads
that were counted twice. -/
def Balanced (s : State P) (m : ℕ) : Prop :=
  (owing s).Finite ∧ surplus s.node.group + (owing s).ncard = m

theorem balanced_invoke (hb : Balanced s m) (hp : s.pc p = none)
    (hsink : ∀ key, op ≠ .get key none) :
    Balanced (s.setPC p ⟨op, since, op.start s.node.group⟩ (s.node.countGet op)) m := by
  obtain ⟨hfin, hsum⟩ := hb
  cases op with
  | get key dest =>
    cases dest with
    | none => exact (hsink key rfl).elim
    | some dest =>
      rw [Balanced, owing_setPC_of_owes (by simp [Owes, Op.start])]
      refine ⟨hfin.insert p, ?_⟩
      rw [Set.ncard_insert_of_notMem (notMem_owing hp) hfin, node_setPC, Node.countGet,
        surplus_count_gets]
      push_cast
      omega
  | _ =>
    rw [Balanced, owing_setPC_of_not_owes (by simp [Owes]),
      Set.sdiff_singleton_eq_self (notMem_owing hp)]
    exact ⟨hfin, hsum⟩

theorem recheckHit_act (hp : s.pc p = some ⟨op, since, loc⟩) :
    RecheckHit s (.call p op e) (s.setPC p ⟨op, since, loc'⟩ n) ↔ Rechecks loc loc' := by
  constructor
  · rintro ⟨_, _, _, _, _, _, hl, hs, ht, hr⟩
    cases hl
    rw [hp] at hs
    cases hs
    simp only [State.setPC, Function.update_self, Option.some.injEq, Frame.mk.injEq] at ht
    exact ht.2.2 ▸ hr
  · intro hr
    exact ⟨p, op, e, since, loc, loc', rfl, hp, by simp [State.setPC], hr⟩

theorem balanced_act (hb : Balanced s m) (hp : s.pc p = some ⟨op, since, loc⟩)
    (ha : Act s.node s.clock op loc e n loc') (hr : ¬Rechecks loc loc') :
    Balanced (s.setPC p ⟨op, since, loc'⟩ n) m := by
  obtain ⟨hfin, hsum⟩ := hb
  rcases ha.surplus_cases with ⟨hr', -⟩ | ⟨-, hs, ho, ho'⟩ | ⟨-, hs, hiff⟩
  · exact (hr hr').elim
  · -- The call leaves its lookups, and what it owed is counted in this step.
    have hmem : p ∈ owing s := (mem_owing hp).mpr ho
    have hcard := Set.ncard_sdiff_singleton_add_one hmem hfin
    rw [Balanced, owing_setPC_of_not_owes ho', node_setPC]
    exact ⟨hfin.sdiff, by omega⟩
  · rw [Balanced, owing_setPC_of_iff hp hiff, node_setPC, hs]
    exact ⟨hfin, hsum⟩

theorem balanced_recheck (hb : Balanced s m) (hp : s.pc p = some ⟨op, since, loc⟩)
    (ha : Act s.node s.clock op loc e n loc') (hr : Rechecks loc loc') :
    Balanced (s.setPC p ⟨op, since, loc'⟩ n) (m + 1) := by
  obtain ⟨hfin, hsum⟩ := hb
  rcases ha.surplus_cases with ⟨-, hs, hiff⟩ | ⟨hr', -⟩ | ⟨hr', -⟩
  · rw [Balanced, owing_setPC_of_iff hp hiff, node_setPC]
    refine ⟨hfin, ?_⟩
    push_cast
    omega
  · exact (hr' hr).elim
  · exact (hr' hr).elim

theorem balanced_step (h : Step s l t) (hb : Balanced s m)
    (hsink : ∀ p key, l ≠ .call p (.get key none) .invoke) (hr : ¬RecheckHit s l t) :
    Balanced t m := by
  cases h with
  | invoke op hp => exact balanced_invoke hb hp (fun key hop => hsink _ key (by rw [hop]))
  | act hp ha => exact balanced_act hb hp ha (fun h => hr ((recheckHit_act hp).mpr h))
  | keys h =>
    obtain ⟨hfin, hsum⟩ := hb
    refine ⟨hfin, ?_⟩
    rw [surplus] at hsum ⊢
    simp only [h.stats_eq (c := .cacheHits) rfl, h.stats_eq (c := .loads) rfl,
      h.stats_eq (c := .gets) rfl]
    exact hsum
  | setPeers => exact hb

theorem balanced_step_recheck (h : Step s l t) (hb : Balanced s m) (hr : RecheckHit s l t) :
    Balanced t (m + 1) := by
  cases h with
  | invoke op hp =>
    obtain ⟨_, _, _, _, _, _, hl, hs, -⟩ := hr
    cases hl
    rw [hp] at hs
    cases hs
  | act hp ha => exact balanced_recheck hb hp ha ((recheckHit_act hp).mp hr)
  | keys | setPeers =>
    obtain ⟨_, _, _, _, _, _, hl, -⟩ := hr
    cases hl

theorem balanced_initial (h : (nodeLTS P cacheBytes).Init s) : Balanced s 0 := by
  obtain ⟨hg, -, -, hpc, -⟩ := h
  have hnone : owing s = ∅ := Set.eq_empty_iff_forall_notMem.mpr fun p => notMem_owing (hpc p)
  rw [Balanced, hnone, hg]
  exact ⟨Set.finite_empty, by simp [surplus, Group.new]⟩

theorem balanced_run (h : ((nodeLTS P cacheBytes).counting RecheckHit).Run ls (s, m))
    (hsinks : HasSinks ls) : Balanced s m := by
  refine h.counted (I := fun ls s m => HasSinks ls → Balanced s m) ?_ ?_ ?_ hsinks
  · intro s hi _
    exact balanced_initial hi
  · intro ls s l t m hs ih hr hsinks
    have hb := ih fun p key hmem => hsinks p key (List.mem_append_left _ hmem)
    refine balanced_step hs hb (fun p key hl => hsinks p key ?_) hr
    simp [hl]
  · intro ls s l t m hs ih hr hsinks
    have hb := ih fun p key hmem => hsinks p key (List.mem_append_left _ hmem)
    exact balanced_step_recheck hs hb hr

omit [DecidableEq P] in
theorem owing_eq_empty (h : GetsReturned s) : owing s = ∅ := by
  refine Set.eq_empty_iff_forall_notMem.mpr fun p => ?_
  rintro ⟨op, since, loc, hp, ho⟩
  cases op with
  | get key dest =>
    obtain rfl := h p key dest since loc hp
    exact ho
  | _ => exact ho

/-- With no `Get` in progress, `Gets` is `CacheHits` plus `Loads` exactly if no load of the run has
found the key at its second look. -/
theorem gets_balance_iff (h : (nodeLTS P cacheBytes).Run ls s)
    (hsinks : HasSinks ls) (hidle : GetsReturned s) :
    (∃ m, ((nodeLTS P cacheBytes).counting RecheckHit).Run ls (s, m)) ∧
    ∀ m, ((nodeLTS P cacheBytes).counting RecheckHit).Run ls (s, m) →
      (s.node.group.stats .gets = s.node.group.stats .cacheHits + s.node.group.stats .loads ↔
        m = 0) := by
  refine ⟨h.counting RecheckHit, fun m hm => ?_⟩
  obtain ⟨-, hsum⟩ := balanced_run hm hsinks
  rw [owing_eq_empty hidle, Set.ncard_empty, surplus] at hsum
  omega

/-- A `Get` loads its key, a second one joins the load, and a third finds the key. -/
def sharedRun : List (Label ℕ) :=
  [.call 0 getK .invoke, .call 0 getK .lookup, .call 0 getK .lookup, .call 0 getK (.lead 0),
    .call 0 getK .lookup, .call 0 getK .lookup, .call 0 getK (.pick none false),
    .call 0 getK .callGetter,
    .call 1 getK .invoke, .call 1 getK .lookup, .call 1 getK .lookup, .call 1 getK (.join 0),
    .call 0 getK (.got viewK), .call 0 getK (.fill ⟨viewK, .fetch 7⟩), .call 0 getK .assign,
    .call 0 getK .done, .call 1 getK .wake, .call 1 getK (.ret (.value ⟨viewK, .fetch 7⟩)),
    .call 0 getK .delete, .call 0 getK (.ret (.value ⟨viewK, .fetch 7⟩)),
    .call 2 getK .invoke, .call 2 getK .lookup, .call 2 getK (.ret (.value ⟨viewK, .fetch 7⟩))]

theorem sharedRun_returns : ∃ s, (nodeLTS ℕ 1000).Run sharedRun s ∧ GetsReturned s := by
  have h₀ : (nodeLTS ℕ 1000).Run [] solo := .init solo_initial
  have h₁ := h₀.step (Step.invoke (p := 0) getK rfl)
  have h₂ := h₁.step (Step.act (p := 0) rfl (.next .zero rfl))
  have h₃ := h₂.step (Step.act (p := 0) rfl (.miss .zero rfl))
  have h₄ := h₃.step (Step.act (p := 0) rfl (.lead rfl))
  have h₅ := h₄.step (Step.act (p := 0) rfl (.body (.next .zero rfl)))
  have h₆ := h₅.step (Step.act (p := 0) rfl (.body (.miss .zero rfl)))
  have h₇ := h₆.step (Step.act (p := 0) rfl (.body (.pickLocal rfl)))
  have h₈ := h₇.step (Step.act (p := 0) rfl (.body .callGetter))
  have h₉ := h₈.step (Step.invoke (p := 1) getK rfl)
  have h₁₀ := h₉.step (Step.act (p := 1) rfl (.next .zero rfl))
  have h₁₁ := h₁₀.step (Step.act (p := 1) rfl (.miss .zero rfl))
  have h₁₂ := h₁₁.step (Step.act (p := 1) rfl (.join rfl))
  have h₁₃ := h₁₂.step (Step.act (p := 0) rfl (.body (.got viewK)))
  have h₁₄ := h₁₃.step (Step.act (p := 0) rfl (.body .fillMain))
  have h₁₅ := h₁₄.step (Step.act (p := 0) rfl .assign)
  have h₁₆ := h₁₅.step (Step.act (p := 0) rfl .done)
  have h₁₇ := h₁₆.step (Step.act (p := 1) rfl (.wake rfl))
  have h₁₈ := h₁₇.step (Step.act (p := 1) rfl .ret)
  have h₁₉ := h₁₈.step (Step.act (p := 0) rfl .delete)
  have h₂₀ := h₁₉.step (Step.act (p := 0) rfl .ret)
  have h₂₁ := h₂₀.step (Step.invoke (p := 2) getK rfl)
  have h₂₂ := h₂₁.step (Step.act (p := 2) rfl (.hit .zero rfl))
  have h₂₃ := h₂₂.step (Step.act (p := 2) rfl .ret)
  refine ⟨_, h₂₃, ?_⟩
  rintro (_ | _ | _ | q) key dest since loc hq <;> cases hq
  all_goals rfl

theorem gets_balance_shared : ∃ (s : State ℕ) (m : ℕ),
    ((nodeLTS ℕ 1000).counting RecheckHit).Run sharedRun (s, m) ∧
    HasSinks sharedRun ∧ GetsReturned s ∧
    (s.node.group.stats .gets = s.node.group.stats .cacheHits + s.node.group.stats .loads ↔
      m = 0) := by
  have hsinks : HasSinks sharedRun := by simp [HasSinks, sharedRun, getK]
  obtain ⟨s, hrun, hidle⟩ := sharedRun_returns
  obtain ⟨⟨m, hm⟩, hiff⟩ := gets_balance_iff hrun hsinks hidle
  exact ⟨s, m, hm, hsinks, hidle, hiff m hm⟩

/-- Two `Get`s of one key miss it, and the second leads its load after the first has returned. -/
def recheckRun : List (Label ℕ) :=
  [.call 0 getK .invoke, .call 0 getK .lookup, .call 0 getK .lookup,
    .call 1 getK .invoke, .call 1 getK .lookup, .call 1 getK .lookup,
    .call 0 getK (.lead 0), .call 0 getK .lookup, .call 0 getK .lookup,
    .call 0 getK (.pick none false), .call 0 getK .callGetter, .call 0 getK (.got viewK),
    .call 0 getK (.fill ⟨viewK, .fetch 10⟩), .call 0 getK .assign, .call 0 getK .done,
    .call 0 getK .delete, .call 0 getK (.ret (.value ⟨viewK, .fetch 10⟩)),
    .call 1 getK (.lead 1), .call 1 getK .lookup, .call 1 getK .assign, .call 1 getK .done,
    .call 1 getK .delete, .call 1 getK (.ret (.value ⟨viewK, .fetch 10⟩))]

theorem gets_unbalanced : ∃ s : State ℕ, (nodeLTS ℕ 1000).Run recheckRun s ∧
    HasSinks recheckRun ∧ GetsReturned s ∧ s.node.group.stats .gets = 2 ∧
    s.node.group.stats .cacheHits = 1 ∧ s.node.group.stats .loads = 2 := by
  have h₀ : (nodeLTS ℕ 1000).Run [] solo := .init solo_initial
  have h₁ := h₀.step (Step.invoke (p := 0) getK rfl)
  have h₂ := h₁.step (Step.act (p := 0) rfl (.next .zero rfl))
  have h₃ := h₂.step (Step.act (p := 0) rfl (.miss .zero rfl))
  have h₄ := h₃.step (Step.invoke (p := 1) getK rfl)
  have h₅ := h₄.step (Step.act (p := 1) rfl (.next .zero rfl))
  have h₆ := h₅.step (Step.act (p := 1) rfl (.miss .zero rfl))
  have h₇ := h₆.step (Step.act (p := 0) rfl (.lead rfl))
  have h₈ := h₇.step (Step.act (p := 0) rfl (.body (.next .zero rfl)))
  have h₉ := h₈.step (Step.act (p := 0) rfl (.body (.miss .zero rfl)))
  have h₁₀ := h₉.step (Step.act (p := 0) rfl (.body (.pickLocal rfl)))
  have h₁₁ := h₁₀.step (Step.act (p := 0) rfl (.body .callGetter))
  have h₁₂ := h₁₁.step (Step.act (p := 0) rfl (.body (.got viewK)))
  have h₁₃ := h₁₂.step (Step.act (p := 0) rfl (.body .fillMain))
  have h₁₄ := h₁₃.step (Step.act (p := 0) rfl .assign)
  have h₁₅ := h₁₄.step (Step.act (p := 0) rfl .done)
  have h₁₆ := h₁₅.step (Step.act (p := 0) rfl .delete)
  have h₁₇ := h₁₆.step (Step.act (p := 0) rfl .ret)
  have h₁₈ := h₁₇.step (Step.act (p := 1) rfl (.lead rfl))
  have h₁₉ := h₁₈.step (Step.act (p := 1) rfl (.body (.hit .zero rfl)))
  have h₂₀ := h₁₉.step (Step.act (p := 1) rfl .assign)
  have h₂₁ := h₂₀.step (Step.act (p := 1) rfl .done)
  have h₂₂ := h₂₁.step (Step.act (p := 1) rfl .delete)
  have h₂₃ := h₂₂.step (Step.act (p := 1) rfl .ret)
  refine ⟨_, h₂₃, by simp [HasSinks, recheckRun, getK], ?_, rfl, rfl, rfl⟩
  rintro (_ | _ | q) key dest since loc hq
  · cases hq
    rfl
  · cases hq
    rfl
  · cases hq

end Groupcache.Concurrent
