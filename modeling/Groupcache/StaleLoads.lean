import Groupcache.ConcurrentInvariants

/-! Loads against writes on one node: which values a write of a key leaves around. -/
namespace Groupcache.Concurrent

open Transport Peer

/-- The event starts the Getter or the call of a peer. -/
def Event.StartsFetch : Event → Prop
  | .send _ | .callGetter => True
  | _ => False

/-- A leader waits for a fetch that started at this time. -/
def Loc.Fetching (start : ℕ) : Loc → Prop
  | .lead _ (.calling _ start') | .lead _ (.getter start') => start' = start
  | _ => False

/-- The values around for a key satisfy `Q`, and so will those that are being fetched. -/
structure Marked {P : Type} (Q : Value → Prop) (k : GoString) (t₀ : ℕ) (s : State P) : Prop where
  holding : Holding Q k t₀ s
  fetching : ∀ p fr, s.pc p = some fr → fr.op.Loads k →
    ∀ start, fr.loc.Fetching start → ∀ view, Q ⟨view, .fetch start⟩

variable {P : Type} [DecidableEq P] {s t : State P} {l : Label P} {ls : List (Label P)} {p q : P}
  {op : Op} {since time start : ℕ} {loc loc' : Loc} {e : Event} {n n' : Node} {k : GoString}
  {v : Value} {Q Q' : Value → Prop} {t₀ : ℕ} {cacheBytes : ℤ}

theorem Act.fetching (h : Act n time op loc e n' loc') (hf : loc'.Fetching start) :
    loc.Fetching start ∨ start = time ∧ e.StartsFetch := by
  cases h with
  | body h =>
    cases h with
    | send | callGetter =>
      have hf : time = start := hf
      exact Or.inr ⟨hf.symm, trivial⟩
    | pickLocal => cases op <;> exact hf.elim
    | @peers op owner =>
      rcases broadcast_cases op owner n.inst.getAllPeers with ⟨_, h⟩ | h <;> rw [h] at hf <;>
        exact hf.elim
    | _ => exact hf.elim
  | lead => cases op <;> exact hf.elim
  | _ => exact hf.elim

theorem start_not_fetching (g : Group Value) (op : Op) : ¬ (op.start g).Fetching start := by
  rcases start_cases g op with ⟨_, h⟩ | h | h | h | ⟨_, h⟩ <;> simp [h, Loc.Fetching]

theorem Fetches.fetching (h : Fetches loc e v) :
    ∃ start, loc.Fetching start ∧ v = ⟨v.view, .fetch start⟩ := by
  obtain ⟨c, start, horigin, ⟨c', rfl, _⟩ | ⟨rfl, _⟩⟩ := h
  · exact ⟨start, rfl, by rw [← horigin]⟩
  · exact ⟨start, rfl, by rw [← horigin]⟩

/-- A step that starts fetches of such values and writes such values keeps all values such. -/
theorem marked_step (h : Step s l t) (hi : Flights s) (hm : Marked Q k t₀ s)
    (hstart : ∀ p op e, l = .call p op e → op.Loads k → e.StartsFetch →
      ∀ view, Q ⟨view, .fetch s.clock⟩)
    (hwrite : ∀ p op v, l = .call p op .write → op.key = k → op.value = some v → Q v) :
    Marked Q k t₀ t := by
  refine ⟨holding_step h hi hm.holding ?_ hwrite, ?_⟩
  · intro p op since loc e v _ hp hop hv
    obtain ⟨start, hf, heq⟩ := hv.fetching
    rw [heq]
    exact hm.fetching p _ hp hop start hf v.view
  · cases h with
    | @invoke p op hp =>
      refine forall_setPC.mpr ⟨?_, fun q _ => hm.fetching q⟩
      intro _ start hf
      exact (start_not_fetching _ op hf).elim
    | keys | setPeers => exact hm.fetching
    | @act p op since loc e n loc' hp ha =>
      refine forall_setPC.mpr ⟨?_, fun q _ => hm.fetching q⟩
      intro hop start hf
      rcases ha.fetching hf with hf | ⟨rfl, he⟩
      · exact hm.fetching p _ hp hop start hf
      · exact hstart p op e rfl hop he

omit [DecidableEq P] in
theorem Marked.mono (h : Marked Q k t₀ s) (hQ : ∀ v, Q v → Q' v) : Marked Q' k t₀ s :=
  ⟨h.holding.mono hQ, fun p fr hp hop start hf view => hQ _ (h.fetching p fr hp hop start hf view)⟩

theorem marked_initial {s : State P} (h : (nodeLTS P cacheBytes).Init s) : Marked Q k t₀ s := by
  exact ⟨holding_initial h, fun p fr hp => (pc_ne_initial h hp).elim⟩

/-- The history shows where the value comes from: its fetch started when its mark says, or some
call wrote it. -/
def Traced (ls : List (Label P)) (k : GoString) (v : Value) : Prop :=
  match v.origin with
  | .fetch start => ∃ p op e, ls[start]? = some (.call p op e) ∧ op.Loads k ∧ e.StartsFetch
  | .write => ∃ (j : ℕ) (p : P) (op : Op),
    ls[j]? = some (.call p op .write) ∧ op.key = k ∧ op.value = some v

omit [DecidableEq P] in
theorem Traced.append (h : Traced ls k v) : Traced (ls ++ [l]) k v := by
  unfold Traced at h ⊢
  split at h
  · obtain ⟨p, op, e, hl, hop⟩ := h
    exact ⟨p, op, e, Lib.getElem?_concat_of_some hl, hop⟩
  · obtain ⟨j, p, op, hl, hop⟩ := h
    exact ⟨j, p, op, Lib.getElem?_concat_of_some hl, hop⟩

theorem value_origin (h : op.value = some v) : v.origin = .write := by
  cases op <;> cases h <;> rfl

/-- The marks are true, for every value that a call can find or be about to return. -/
theorem traced_reachable (h : (nodeLTS P cacheBytes).Run ls s) (k : GoString) :
    Marked (Traced ls k) k 0 s := by
  refine h.invariant (I := fun ls s => Marked (Traced ls k) k 0 s) (fun s => marked_initial) ?_
  intro ls s l t hrun hm hstep
  have hs := sound_reachable hrun
  refine marked_step hstep hs.flights (hm.mono fun v => Traced.append) ?_ ?_
  · rintro p op e rfl hop he view
    refine ⟨p, op, e, ?_, hop, he⟩
    simp [hs.timed.clock]
  · rintro p op v rfl hk hval
    unfold Traced
    rw [value_origin hval]
    exact ⟨ls.length, p, op, by simp, hk, hval⟩

/-- The value was not fetched before or at this time. -/
def Newer (i : ℕ) (v : Value) : Prop := ∀ start, v.origin = .fetch start → i < start

/-- A leader has started its fetch or has a value, and its entry is still in the map. -/
def Loc.Carries (loc : Loc) : Prop := (∃ start, loc.Fetching start) ∨ ∃ v, loc.Leads v

/-- A write of the key runs its locked section only while no load of the key carries a value. -/
def WritesAlone (k : GoString) (s : State P) (l : Label P) (_ : State P) : Prop :=
  ∀ p op, l = .call p op .write → op.key = k →
    ∀ q fr, s.pc q = some fr → fr.op.Loads k → ¬ fr.loc.Carries

/-- Right after a write that was alone, nothing older than it is around. -/
theorem marked_write (h : Step s (.call p op .write) t) (hs : Sound cacheBytes ls s)
    (hpos : 0 < cacheBytes) (halone : WritesAlone op.key s (.call p op .write) t) :
    Marked (Newer ls.length) op.key ls.length t := by
  obtain ⟨since, loc, loc', hp, ha, ht⟩ := h.frame (by simp)
  obtain ⟨hop, hn, hloc⟩ := ha.write_cases
  have hquiet := halone p op rfl rfl
  have hidle : ∀ v start, ¬ loc'.Leads v ∧ ¬ loc'.Fetching start ∧
      ¬ loc'.Gets (t.node.flights .load) v := by
    intro v start
    rcases hloc with ⟨_, rfl⟩ | ⟨_, c, owner, _, rfl⟩ <;>
      simp [Loc.Leads, Loc.Fetching, Loc.Gets, Body.Has]
  rw [ht]
  refine ⟨⟨?_, forall_setPC.mpr ⟨?_, ?_⟩, forall_setPC.mpr ⟨?_, ?_⟩⟩, forall_setPC.mpr ⟨?_, ?_⟩⟩
  · intro v hv start horigin
    change t.node.group.Holds op.key v at hv
    rw [hn] at hv
    have hval := holds_write_key op (by rw [hs.maxCacheBytes]; exact hpos) hop hv
    rw [value_origin hval] at horigin
    cases horigin
  · exact fun _ v hv => ((hidle v 0).1 hv).elim
  · exact fun q _ fr hq hfr v hv => (hquiet q fr hq hfr (Or.inr ⟨v, hv⟩)).elim
  · exact fun _ _ v hv => ((hidle v 0).2.2 hv).elim
  · intro q _ fr hq _ hsince
    have hlt := hs.timed.since_lt hq
    omega
  · exact fun hload start hf => ((hidle ⟨.withExpire none .zero, .write⟩ start).2.1 hf).elim
  · exact fun q _ fr hq hfr start hf => (hquiet q fr hq hfr (Or.inl ⟨start, hf⟩)).elim

/-- From every write that was alone on, only newer values are around for its key. -/
theorem newer_reachable (hpos : 0 < cacheBytes)
    (h : ((nodeLTS P cacheBytes).restrict (WritesAlone k)).Run ls s) {i : ℕ}
    (hi : ls[i]? = some (.call p op .write)) (hk : op.key = k) : Marked (Newer i) k i s := by
  refine h.invariant (I := fun ls s => ∀ i p op, ls[i]? = some (.call p op .write) →
    op.key = k → Marked (Newer i) k i s) (by simp) ?_ i p op hi hk
  rintro ls s l t hrun hm ⟨hstep, halone⟩ i p op hi rfl
  have hs := sound_reachable hrun.of_restrict
  rcases Lib.getElem?_concat_cases hi with hold | ⟨rfl, rfl⟩
  · refine marked_step hstep hs.flights (hm i p op hold rfl) ?_ ?_
    · rintro _ _ _ _ _ _ view start ⟨⟩
      have hlt := (List.getElem?_eq_some_iff.mp hold).1
      rw [hs.timed.clock]
      exact hlt
    · rintro _ _ v _ _ hval start horigin
      rw [value_origin hval] at horigin
      cases horigin
  · exact marked_write hstep hs hpos halone

/-- At this time of the history the Getter or a peer is called for the key. -/
def FetchStarts (ls : List (Label P)) (k : GoString) (start : ℕ) : Prop :=
  ∃ p op e, ls[start]? = some (.call p op e) ∧ op.Loads k ∧ e.StartsFetch

omit [DecidableEq P] in
theorem Traced.fetchStarts (h : Traced ls k v) (horigin : v.origin = .fetch start) :
    FetchStarts ls k start := by
  unfold Traced at h
  rw [horigin] at h
  exact h

/-- If every write of a key is alone, then from the locked section of such a write on (so once it
has returned), the caches hold nothing of the key that was fetched from before the write, and no
`Get` of the key invoked afterwards returns such a value. -/
theorem no_stale_load (hpos : 0 < cacheBytes)
    (h : ((nodeLTS P cacheBytes).restrict (WritesAlone k)).Run ls s) {i : ℕ}
    (hwrite : ls[i]? = some (.call p op .write)) (hk : op.key = k) :
    (∀ v start, s.node.group.Holds k v → v.origin = .fetch start →
      i < start ∧ FetchStarts ls k start) ∧
    ∀ (q : P) (dest : Option Sink) (m r : ℕ) (v : Value) (start : ℕ),
      ls[m]? = some (.call q (.get k dest) .invoke) → i < m →
      ls[r]? = some (.call q (.get k dest) (.ret (.value v))) → v.origin = .fetch start →
      i < start ∧ FetchStarts ls k start := by
  constructor
  · intro v start hv horigin
    exact ⟨(newer_reachable hpos h hwrite hk).holding.cache v hv start horigin,
      ((traced_reachable h.of_restrict k).holding.cache v hv).fetchStarts horigin⟩
  · intro q dest m r v start hinvoke him hr horigin
    obtain ⟨_, hmr, u, w, loc, loc', hu, hq, ha⟩ := event_after_invoke h hinvoke hr (by simp)
    have hgets : loc.Gets (u.node.flights .load) v := by simp [ha.ret_loc, Loc.Gets]
    have hi : (ls.take r)[i]? = some (.call p op .write) := by
      rwa [List.getElem?_take_of_lt (by omega)]
    have hnewer := (newer_reachable hpos hu hi hk).holding.late q _ hq ⟨rfl, rfl⟩
      (by simp; omega) v hgets
    have htraced := (traced_reachable hu.of_restrict k).holding.late q _ hq ⟨rfl, rfl⟩
      (Nat.zero_le _) v hgets
    obtain ⟨q', op', e, hstart, hop, he⟩ := htraced.fetchStarts horigin
    exact ⟨hnewer start horigin, q', op', e, (Lib.getElem?_of_take hstart).2, hop, he⟩

/-- A `Get` of the key `k`, and the view its Getter returns. -/
def getK : Op := .get [107] (some .allocating)

def viewK : ByteView := .withExpire (some [1]) .zero

/-- A `Get` loads the key and returns, a `LocalRemove` of it is alone, and a later `Get` loads the
key again. -/
def reloadRun : List (Label ℕ) :=
  [.call 0 getK .invoke, .call 0 getK .lookup, .call 0 getK .lookup, .call 0 getK (.lead 0),
    .call 0 getK .lookup, .call 0 getK .lookup, .call 0 getK (.pick none false),
    .call 0 getK .callGetter, .call 0 getK (.got viewK), .call 0 getK (.fill ⟨viewK, .fetch 7⟩),
    .call 0 getK .assign, .call 0 getK .done, .call 0 getK .delete,
    .call 0 getK (.ret (.value ⟨viewK, .fetch 7⟩)), .call 1 (.localRemove [107]) .invoke,
    .call 1 (.localRemove [107]) .write, .call 1 (.localRemove [107]) (.ret .ok),
    .call 2 getK .invoke, .call 2 getK .lookup, .call 2 getK .lookup, .call 2 getK (.lead 1),
    .call 2 getK .lookup, .call 2 getK .lookup, .call 2 getK (.pick none false),
    .call 2 getK .callGetter, .call 2 getK (.got viewK), .call 2 getK (.fill ⟨viewK, .fetch 24⟩),
    .call 2 getK .assign, .call 2 getK .done, .call 2 getK .delete,
    .call 2 getK (.ret (.value ⟨viewK, .fetch 24⟩))]

theorem no_stale_load_reload : ∃ s : State ℕ,
    ((nodeLTS ℕ 1000).restrict (WritesAlone [107])).Run reloadRun s ∧
    reloadRun[15]? = some (.call 1 (.localRemove [107]) .write) ∧
    reloadRun[30]? = some (.call 2 getK (.ret (.value ⟨viewK, .fetch 24⟩))) ∧
    s.node.group.Holds [107] ⟨viewK, .fetch 24⟩ ∧ 15 < 24 ∧ FetchStarts reloadRun [107] 24 := by
  have hother : ∀ (s t : State ℕ) p op e, e ≠ .write → WritesAlone [107] s (.call p op e) t := by
    rintro s t p op e he _ _ ⟨⟩
    exact (he rfl).elim
  have h₀ : ((nodeLTS ℕ 1000).restrict (WritesAlone [107])).Run [] solo := .init solo_initial
  have h₁ := h₀.step ⟨Step.invoke (p := 0) getK rfl, hother _ _ _ _ _ nofun⟩
  have h₂ := h₁.step ⟨Step.act (p := 0) rfl (.next .zero rfl), hother _ _ _ _ _ nofun⟩
  have h₃ := h₂.step ⟨Step.act (p := 0) rfl (.miss .zero rfl), hother _ _ _ _ _ nofun⟩
  have h₄ := h₃.step ⟨Step.act (p := 0) rfl (.lead rfl), hother _ _ _ _ _ nofun⟩
  have h₅ := h₄.step ⟨Step.act (p := 0) rfl (.body (.next .zero rfl)), hother _ _ _ _ _ nofun⟩
  have h₆ := h₅.step ⟨Step.act (p := 0) rfl (.body (.miss .zero rfl)), hother _ _ _ _ _ nofun⟩
  have h₇ := h₆.step ⟨Step.act (p := 0) rfl (.body (.pickLocal rfl)), hother _ _ _ _ _ nofun⟩
  have h₈ := h₇.step ⟨Step.act (p := 0) rfl (.body .callGetter), hother _ _ _ _ _ nofun⟩
  have h₉ := h₈.step ⟨Step.act (p := 0) rfl (.body (.got viewK)), hother _ _ _ _ _ nofun⟩
  have h₁₀ := h₉.step ⟨Step.act (p := 0) rfl (.body .fillMain), hother _ _ _ _ _ nofun⟩
  have h₁₁ := h₁₀.step ⟨Step.act (p := 0) rfl .assign, hother _ _ _ _ _ nofun⟩
  have h₁₂ := h₁₁.step ⟨Step.act (p := 0) rfl .done, hother _ _ _ _ _ nofun⟩
  have h₁₃ := h₁₂.step ⟨Step.act (p := 0) rfl .delete, hother _ _ _ _ _ nofun⟩
  have h₁₄ := h₁₃.step ⟨Step.act (p := 0) rfl .ret, hother _ _ _ _ _ nofun⟩
  have h₁₅ := h₁₄.step ⟨Step.invoke (p := 1) (.localRemove [107]) rfl, hother _ _ _ _ _ nofun⟩
  have h₁₆ := h₁₅.step ⟨Step.act (p := 1) rfl .localRemove, ?_⟩
  · have h₁₇ := h₁₆.step ⟨Step.act (p := 1) rfl .ret, hother _ _ _ _ _ nofun⟩
    have h₁₈ := h₁₇.step ⟨Step.invoke (p := 2) getK rfl, hother _ _ _ _ _ nofun⟩
    have h₁₉ := h₁₈.step ⟨Step.act (p := 2) rfl (.next .zero rfl), hother _ _ _ _ _ nofun⟩
    have h₂₀ := h₁₉.step ⟨Step.act (p := 2) rfl (.miss .zero rfl), hother _ _ _ _ _ nofun⟩
    have h₂₁ := h₂₀.step ⟨Step.act (p := 2) rfl (.lead rfl), hother _ _ _ _ _ nofun⟩
    have h₂₂ := h₂₁.step ⟨Step.act (p := 2) rfl (.body (.next .zero rfl)), hother _ _ _ _ _ nofun⟩
    have h₂₃ := h₂₂.step ⟨Step.act (p := 2) rfl (.body (.miss .zero rfl)), hother _ _ _ _ _ nofun⟩
    have h₂₄ := h₂₃.step ⟨Step.act (p := 2) rfl (.body (.pickLocal rfl)), hother _ _ _ _ _ nofun⟩
    have h₂₅ := h₂₄.step ⟨Step.act (p := 2) rfl (.body .callGetter), hother _ _ _ _ _ nofun⟩
    have h₂₆ := h₂₅.step ⟨Step.act (p := 2) rfl (.body (.got viewK)), hother _ _ _ _ _ nofun⟩
    have h₂₇ := h₂₆.step ⟨Step.act (p := 2) rfl (.body .fillMain), hother _ _ _ _ _ nofun⟩
    have h₂₈ := h₂₇.step ⟨Step.act (p := 2) rfl .assign, hother _ _ _ _ _ nofun⟩
    have h₂₉ := h₂₈.step ⟨Step.act (p := 2) rfl .done, hother _ _ _ _ _ nofun⟩
    have h₃₀ := h₂₉.step ⟨Step.act (p := 2) rfl .delete, hother _ _ _ _ _ nofun⟩
    have h₃₁ := h₃₀.step ⟨Step.act (p := 2) rfl .ret, hother _ _ _ _ _ nofun⟩
    exact ⟨_, h₃₁, rfl, rfl, Or.inl rfl,
      (no_stale_load (i := 15) (by omega) h₃₁ rfl rfl).1 _ 24 (Or.inl rfl) rfl⟩
  · rintro _ _ ⟨⟩ _ q fr hq _ hcarries
    have hloc : fr.loc = .write ∨ fr.loc = .returned := by
      by_cases hq₁ : q = 1
      · subst hq₁
        cases hq
        exact Or.inl rfl
      · by_cases hq₀ : q = 0
        · subst hq₀
          cases hq
          exact Or.inr rfl
        · simp [State.setPC, solo, hq₀, hq₁] at hq
    rcases hloc with hloc | hloc <;> rcases hcarries with ⟨_, hf⟩ | ⟨_, hf⟩ <;> rw [hloc] at hf <;>
      exact hf

/-- A load starts its Getter, a `LocalRemove` of the key runs and returns, the load fills the main
cache, and a later `Get` returns the value. -/
def staleRun : List (Label ℕ) :=
  [.call 0 getK .invoke, .call 0 getK .lookup, .call 0 getK .lookup, .call 0 getK (.lead 0),
    .call 0 getK .lookup, .call 0 getK .lookup, .call 0 getK (.pick none false),
    .call 0 getK .callGetter, .call 1 (.localRemove [107]) .invoke,
    .call 1 (.localRemove [107]) .write, .call 1 (.localRemove [107]) (.ret .ok),
    .call 0 getK (.got viewK), .call 0 getK (.fill ⟨viewK, .fetch 7⟩), .call 2 getK .invoke,
    .call 2 getK .lookup, .call 2 getK (.ret (.value ⟨viewK, .fetch 7⟩))]

theorem stale_load_survives : ∃ s : State ℕ, (nodeLTS ℕ 1000).Run staleRun s ∧
    staleRun[7]? = some (.call 0 getK .callGetter) ∧
    staleRun[9]? = some (.call 1 (.localRemove [107]) .write) ∧
    staleRun[10]? = some (.call 1 (.localRemove [107]) (.ret .ok)) ∧
    staleRun[13]? = some (.call 2 getK .invoke) ∧
    staleRun[15]? = some (.call 2 getK (.ret (.value ⟨viewK, .fetch 7⟩))) ∧
    s.node.group.Holds [107] ⟨viewK, .fetch 7⟩ := by
  have h₀ : (nodeLTS ℕ 1000).Run [] solo := .init solo_initial
  have h₁ := h₀.step (Step.invoke (p := 0) getK rfl)
  have h₂ := h₁.step (Step.act (p := 0) rfl (.next .zero rfl))
  have h₃ := h₂.step (Step.act (p := 0) rfl (.miss .zero rfl))
  have h₄ := h₃.step (Step.act (p := 0) rfl (.lead rfl))
  have h₅ := h₄.step (Step.act (p := 0) rfl (.body (.next .zero rfl)))
  have h₆ := h₅.step (Step.act (p := 0) rfl (.body (.miss .zero rfl)))
  have h₇ := h₆.step (Step.act (p := 0) rfl (.body (.pickLocal rfl)))
  have h₈ := h₇.step (Step.act (p := 0) rfl (.body .callGetter))
  have h₉ := h₈.step (Step.invoke (p := 1) (.localRemove [107]) rfl)
  have h₁₀ := h₉.step (Step.act (p := 1) rfl .localRemove)
  have h₁₁ := h₁₀.step (Step.act (p := 1) rfl .ret)
  have h₁₂ := h₁₁.step (Step.act (p := 0) rfl (.body (.got viewK)))
  have h₁₃ := h₁₂.step (Step.act (p := 0) rfl (.body .fillMain))
  have h₁₄ := h₁₃.step (Step.invoke (p := 2) getK rfl)
  have h₁₅ := h₁₄.step (Step.act (p := 2) rfl (.hit .zero rfl))
  have h₁₆ := h₁₅.step (Step.act (p := 2) rfl .ret)
  exact ⟨_, h₁₆, rfl, rfl, rfl, rfl, rfl, Or.inl rfl⟩

end Groupcache.Concurrent
