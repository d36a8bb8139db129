import Groupcache.Concurrent

/-! What every step of the concurrent group does: to the singleflight groups, to the calls that
wait on them, to the caches, and to the history. -/
namespace Groupcache.Concurrent

open Transport Peer
open Singleflight (Outcome Role)

/-- What a call is doing in the `Do` of its own group. -/
def Loc.role (key : GoString) : Loc → Role GoString Value
  | .wait c => .wait key c
  | .lead c _ => .running key c
  | .assigned c o _ => .assigned key c o
  | .done c o _ => .done key c o
  | _ => .out

def Frame.role (fr : Frame) (f : Flight) : Role GoString Value :=
  if fr.op.flight = f then fr.loc.role fr.op.key else .out

variable {P : Type}

def State.role (s : State P) (f : Flight) (p : P) : Role GoString Value :=
  match s.pc p with
  | some fr => fr.role f
  | none => .out

/-- The call leads the execution with this pointer. -/
def Loc.Leading (c : ℕ) : Loc → Prop
  | .lead c' _ | .assigned c' _ _ | .done c' _ _ => c' = c
  | _ => False

/-- Each singleflight group agrees with what its callers are doing. -/
def Flights (s : State P) : Prop := ∀ f, Singleflight.Inv (s.node.flights f) (s.role f)

variable [DecidableEq P] {s t : State P} {l : Label P} {p q : P} {op : Op} {since c : ℕ}
  {loc loc' : Loc} {e : Event} {n n' : Node} {fr : Frame} {f : Flight} {k : GoString}
  {b b' : Body} {g : Group Value} {time : ℕ}

theorem role_setPC : (s.setPC p fr n).role f = Function.update (s.role f) p (fr.role f) := by
  funext q
  by_cases hq : q = p
  · subst hq
    simp [State.role, State.setPC]
  · simp [State.role, State.setPC, hq]

omit [DecidableEq P] in
theorem role_of_pc (h : s.pc p = some fr) : s.role f p = fr.role f := by
  simp [State.role, h]

omit [DecidableEq P] in
theorem Flights.frame_ok (hi : Flights s) (hp : s.pc p = some ⟨op, since, loc⟩) :
    (loc.role op.key).Ok (s.node.flights op.flight) := by
  have hok := (hi op.flight).ok p
  rwa [role_of_pc hp, Frame.role, if_pos rfl] at hok

omit [DecidableEq P] in
/-- A leader whose call is closed is done, and the call holds what its function returned. -/
theorem Flights.done_of_closed (hi : Flights s) (hp : s.pc p = some ⟨op, since, loc⟩)
    (hlead : loc.Leading c) (hwg : ((s.node.flights op.flight).calls c).wg = false) :
    ∃ o pop, loc = .done c o pop ∧ ((s.node.flights op.flight).calls c).result = o.result := by
  have hok := hi.frame_ok hp
  cases loc with
  | lead c' b =>
    cases hlead
    rw [hok.2.2] at hwg
    cases hwg
  | assigned c' o pop =>
    cases hlead
    rw [hok.2.2.1] at hwg
    cases hwg
  | done c' o pop =>
    cases hlead
    exact ⟨o, pop, rfl, hok.2.2.2⟩
  | _ => exact hlead.elim

theorem start_role (g : Group Value) (op : Op) : (op.start g).role op.key = .out := by
  unfold Op.start
  split <;> try rfl
  split
  · rfl
  · split <;> rfl

@[simp] theorem countGet_flights : (n.countGet op).flights = n.flights := by cases op <;> rfl

@[simp] theorem countLoad_flights : (n.countLoad op).flights = n.flights := by cases op <;> rfl

@[simp] theorem setFlight_flights_self {g : Singleflight.Group GoString Value} :
    (n.setFlight f g).flights f = g := by
  simp [Node.setFlight]

theorem setFlight_flights_ne {g : Singleflight.Group GoString Value} {f' : Flight} (h : f' ≠ f) :
    (n.setFlight f g).flights f' = n.flights f' := by
  simp [Node.setFlight, h]

/-- A step of a call touches only its own group there. -/
theorem flights_setPC (hi : Flights s) (hp : ∀ f, f ≠ op.flight → s.role f p = .out)
    (hn : ∀ f, f ≠ op.flight → n.flights f = s.node.flights f)
    (h : Singleflight.Inv (n.flights op.flight)
      (Function.update (s.role op.flight) p (loc.role op.key))) :
    Flights (s.setPC p ⟨op, since, loc⟩ n) := by
  intro f
  change Singleflight.Inv (n.flights f) _
  rw [role_setPC, Frame.role]
  by_cases hf : op.flight = f
  · subst hf
    simpa using h
  · rw [if_neg hf, ← hp f (Ne.symm hf), Function.update_eq_self, hn f (Ne.symm hf)]
    exact hi f

theorem flights_act (hi : Flights s) (hp : s.pc p = some ⟨op, since, loc⟩)
    (h : Act s.node s.clock op loc e n loc') : Flights (s.setPC p ⟨op, since, loc'⟩ n) := by
  have hrole : s.role op.flight p = loc.role op.key := by simp [role_of_pc hp, Frame.role]
  have hother : ∀ f, f ≠ op.flight → s.role f p = .out := by
    intro f hf
    simp [role_of_pc hp, Frame.role, Ne.symm hf]
  have hstay : n.flights = s.node.flights → loc'.role op.key = loc.role op.key →
      Flights (s.setPC p ⟨op, since, loc'⟩ n) := by
    intro hn hloc
    refine flights_setPC hi hother (fun f _ => by rw [hn]) ?_
    rw [hn, hloc, ← hrole, Function.update_eq_self]
    exact hi op.flight
  have hflight := hi op.flight
  cases h with
  | hit | next | miss | remoteSet | localRemove | ret | body => exact hstay rfl rfl
  | join hm =>
    refine flights_setPC hi hother (by simp) ?_
    rw [countLoad_flights]
    exact Singleflight.inv_join hflight (by simp [hrole, Loc.role, Role.leads]) hm
  | lead hm =>
    refine flights_setPC hi hother (fun f hf => by simp [setFlight_flights_ne hf]) ?_
    rw [setFlight_flights_self]
    exact Singleflight.inv_register hflight (by simp [hrole, Loc.role, Role.leads]) hm
  | assign =>
    refine flights_setPC hi hother (fun f hf => setFlight_flights_ne hf) ?_
    rw [setFlight_flights_self]
    exact Singleflight.inv_assign hflight hrole
  | done =>
    refine flights_setPC hi hother (fun f hf => setFlight_flights_ne hf) ?_
    rw [setFlight_flights_self]
    exact Singleflight.inv_done hflight hrole
  | delete =>
    refine flights_setPC hi hother (fun f hf => setFlight_flights_ne hf) ?_
    rw [setFlight_flights_self]
    exact Singleflight.inv_delete hflight hrole
  | wake =>
    refine flights_setPC hi hother (fun _ _ => rfl) ?_
    exact Singleflight.inv_leave hflight (by simp [hrole, Loc.role, Role.leads])

theorem flights_step (h : Step s l t) (hi : Flights s) : Flights t := by
  cases h with
  | @invoke p op hp =>
    have hrole : ∀ f, s.role f p = .out := fun f => by simp [State.role, hp]
    refine flights_setPC hi (fun f _ => hrole f) (by simp) ?_
    rw [start_role, countGet_flights, ← hrole op.flight, Function.update_eq_self]
    exact hi op.flight
  | act hp ha => exact flights_act hi hp ha
  | keys | setPeers => exact hi

/-- The calls that a step changes: a new one, the one it assigns, the one it closes. -/
theorem Act.calls_cases (h : Act n time op loc e n' loc') (f : Flight) (c : ℕ) :
    (n'.flights f).calls c = (n.flights f).calls c ∨ f = op.flight ∧
      (c = (n.flights f).next ∨ (∃ o pop, loc = .lead c (.ends o pop) ∧
          ((n'.flights f).calls c).wg = ((n.flights f).calls c).wg) ∨
        ∃ o pop, e = .done ∧ loc = .assigned c o pop ∧
          ((n'.flights f).calls c).result = ((n.flights f).calls c).result) := by
  by_cases hf : f = op.flight
  · subst hf
    cases h with
    | hit | next | miss | remoteSet | localRemove | ret | body | wake => exact Or.inl rfl
    | join => exact Or.inl (by simp)
    | lead =>
      by_cases hc : c = (n.flights op.flight).next
      · exact Or.inr ⟨rfl, Or.inl hc⟩
      · exact Or.inl (by simp [Singleflight.Group.register, hc])
    | @assign _ c' o pop =>
      by_cases hc : c = c'
      · subst hc
        refine Or.inr ⟨rfl, Or.inr (Or.inl ⟨o, pop, rfl, ?_⟩)⟩
        cases o <;> simp [Singleflight.Group.assign]
      · exact Or.inl (by cases o <;> simp [Singleflight.Group.assign, hc])
    | @done _ c' o pop =>
      by_cases hc : c = c'
      · subst hc
        refine Or.inr ⟨rfl, Or.inr (Or.inr ⟨o, pop, rfl, rfl, ?_⟩)⟩
        simp [Singleflight.Group.done, Singleflight.Call.result]
      · exact Or.inl (by simp [Singleflight.Group.done, hc])
    | delete => exact Or.inl (by simp [Singleflight.Group.delete])
  · refine Or.inl ?_
    cases h with
    | hit | next | miss | remoteSet | localRemove | ret | body | wake => rfl
    | join => simp
    | lead | assign | done | delete => simp [setFlight_flights_ne hf]

/-- A waiting call's result appears when its leader, of the same key, is done; then it stays. -/
theorem closes (h : Step s l t) (hi : Flights s) (hq : s.role f q = .wait k c)
    (hwg : ((t.node.flights f).calls c).wg = false) :
    (((s.node.flights f).calls c).wg = false ∧
      (t.node.flights f).calls c = (s.node.flights f).calls c) ∨
    ∃ p op since o pop, l = .call p op .done ∧ s.pc p = some ⟨op, since, .assigned c o pop⟩ ∧
      op.flight = f ∧ op.key = k ∧ ((t.node.flights f).calls c).result = o.result := by
  have hwait : c < (s.node.flights f).next ∧
      (((s.node.flights f).calls c).wg = true → (s.node.flights f).m k = some c) := by
    have hok := (hi f).ok q
    rwa [hq] at hok
  have hsame : (t.node.flights f).calls c = (s.node.flights f).calls c →
      ((s.node.flights f).calls c).wg = false ∧
        (t.node.flights f).calls c = (s.node.flights f).calls c := by
    intro heq
    rw [heq] at hwg
    exact ⟨hwg, heq⟩
  cases h with
  | invoke => exact Or.inl (hsame (by simp [State.setPC]))
  | keys | setPeers => exact Or.inl ⟨hwg, rfl⟩
  | @act p op since loc e n loc' hp ha =>
    change ((n.flights f).calls c).wg = false at hwg
    rcases ha.calls_cases f c with heq |
      ⟨rfl, hnext | ⟨o, pop, rfl, hkeep⟩ | ⟨o, pop, rfl, rfl, hres⟩⟩
    · exact Or.inl (hsame heq)
    · omega
    · rw [hkeep] at hwg
      obtain ⟨_, _, hloc, _⟩ := hi.done_of_closed hp rfl hwg
      cases hloc
    · obtain ⟨_, _, hopen, hresult⟩ := hi.frame_ok hp
      have hrole : s.role op.flight p = .assigned op.key c o := by
        simp [role_of_pc hp, Frame.role, Loc.role]
      obtain ⟨q', hq'⟩ := (hi op.flight).led k c (hwait.2 hopen)
      have hlead : (s.role op.flight p).leads = some (op.key, c) := by rw [hrole, Role.leads]
      have hqp := (hi op.flight).unique q' p _ _ c hq' hlead
      rw [hqp, hlead] at hq'
      have hkey : op.key = k := by simpa using hq'
      exact Or.inr ⟨p, op, since, o, pop, rfl, hp, rfl, hkey, hres.trans hresult⟩

/-- The value a call of `Set` or `RemoteSet` stores. -/
def Op.value : Op → Option Value
  | .set _ value expire | .remoteSet _ value expire => some (Op.written value expire)
  | _ => none

/-- The event of a call stores the value under the key. -/
def Stores (op : Op) (e : Event) (k : GoString) (v : Value) : Prop :=
  op.key = k ∧ (e = .fill v ∨ e = .write ∧ op.value = some v)

variable {now : Time} {tier : Tier} {v : Value} {k' : GoString}

theorem holds_of_look {g' : Group Value} {r : Found} (h : look g now k tier = (g', r))
    (hv : g'.Holds k' v) : g.Holds k' v := by
  have heq : (look g now k tier).1 = g' := by rw [h]
  rw [← heq] at hv
  cases tier with
  | main =>
    rw [look] at hv
    split at hv
    · exact hv
    · exact Group.holds_lookupMain hv
  | hot => exact Group.holds_lookupHot hv

/-- A hit returns what is stored. -/
theorem look_hit {g' : Group Value} (h : look g now k tier = (g', .hit v)) : g.Holds k v := by
  cases tier with
  | main =>
    rw [look] at h
    split at h
    · cases h
    · cases hl : (g.lookupMain now k).2 with
      | none => simp [hl] at h
      | some w =>
        simp only [hl, Option.elim_some, Prod.mk.injEq, Found.hit.injEq] at h
        exact h.2 ▸ Group.lookupMain_holds hl
  | hot =>
    rw [look] at h
    cases hl : (g.lookupHot now k).2 with
    | none => simp [hl] at h
    | some w =>
      simp only [hl, Option.elim_some, Prod.mk.injEq, Found.hit.injEq] at h
      exact h.2 ▸ Group.lookupHot_holds hl

theorem look_maxCacheBytes {g' : Group Value} {r : Found} (h : look g now k tier = (g', r)) :
    g'.maxCacheBytes = g.maxCacheBytes := by
  have heq : (look g now k tier).1 = g' := by rw [h]
  rw [← heq]
  cases tier with
  | main =>
    rw [look]
    split <;> rfl
  | hot => rfl

@[simp] theorem write_maxCacheBytes : (op.write g).maxCacheBytes = g.maxCacheBytes := by
  cases op <;> simp [Op.write, Group.update]

@[simp] theorem holds_count {c : Counter} {i : ℤ} : (g.count c i).Holds k v ↔ g.Holds k v := Iff.rfl

@[simp] theorem count_maxCacheBytes {c : Counter} {i : ℤ} :
    (g.count c i).maxCacheBytes = g.maxCacheBytes := rfl

@[simp] theorem holds_countGet : (n.countGet op).group.Holds k v ↔ n.group.Holds k v := by
  cases op <;> rfl

@[simp] theorem holds_countLoad : (n.countLoad op).group.Holds k v ↔ n.group.Holds k v := by
  cases op <;> rfl

theorem holds_of_localRemove {key : GoString} (h : (g.localRemove key).Holds k v) :
    g.Holds k v := by
  by_cases hmax : g.maxCacheBytes ≤ 0
  · rwa [Group.localRemove, if_pos hmax] at h
  · exact (Group.holds_localRemove (by omega) h).2

theorem holds_write (op : Op) (h : (op.write g).Holds k v) :
    op.key = k ∧ op.value = some v ∨ g.Holds k v := by
  have hupdate : ∀ {key value expire}, (g.update key (Op.written value expire)).Holds k v →
      key = k ∧ some (Op.written value expire) = some v ∨ g.Holds k v := by
    intro key value expire h
    rcases Group.holds_update h with ⟨rfl, rfl⟩ | ⟨_, hold⟩
    · exact Or.inl ⟨rfl, rfl⟩
    · exact Or.inr hold
  cases op with
  | get => exact Or.inr h
  | set => exact hupdate h
  | remoteSet =>
    rw [Op.write, Group.remoteSet] at h
    split at h
    · exact Or.inr h
    · exact hupdate h
  | remove | localRemove => exact Or.inr (holds_of_localRemove h)

/-- A locked section leaves no other copy of its key than the value it stores. -/
theorem holds_write_key (op : Op) (hmax : 0 < g.maxCacheBytes)
    (hop : ∀ key dest, op ≠ .get key dest) (h : (op.write g).Holds op.key v) :
    op.value = some v := by
  have hupdate : ∀ {key w}, (g.update key w).Holds key v → w = v := by
    intro key w h
    rcases Group.holds_update h with ⟨_, rfl⟩ | ⟨hne, _⟩
    · rfl
    · exact (hne rfl).elim
  cases op with
  | get key dest => exact (hop key dest rfl).elim
  | set => exact congrArg some (hupdate h)
  | remoteSet =>
    rw [Op.write, Group.remoteSet, if_neg (by omega)] at h
    exact congrArg some (hupdate h)
  | remove | localRemove => exact ((Group.holds_localRemove hmax h).1 rfl).elim

/-- The locked section of a write runs the write on the caches, and nothing else. -/
theorem Act.write_cases (h : Act n time op loc .write n' loc') :
    (∀ key dest, op ≠ .get key dest) ∧ n' = { n with group := op.write n.group } ∧
      ((op.flight = .load ∧ loc' = .ret .ok) ∨
        op.flight ≠ .load ∧
          ∃ c owner, loc = .lead c (.write owner) ∧ loc' = .lead c (.peers owner)) := by
  cases h with
  | body h =>
    cases h with
    | write hop => exact ⟨by rintro _ _ rfl; exact hop rfl, rfl, Or.inr ⟨hop, _, _, rfl, rfl⟩⟩
  | remoteSet | localRemove => exact ⟨by simp, rfl, Or.inl ⟨rfl, rfl⟩⟩

theorem BodyStep.maxCacheBytes_eq (h : BodyStep n time op b e g b') :
    g.maxCacheBytes = n.group.maxCacheBytes := by
  cases h with
  | hit _ h | next _ h | miss _ h =>
    have hmax := look_maxCacheBytes h
    exact hmax
  | _ => simp

theorem Act.maxCacheBytes_eq (h : Act n time op loc e n' loc') :
    n'.group.maxCacheBytes = n.group.maxCacheBytes := by
  cases h with
  | hit _ h | next _ h | miss _ h =>
    have hmax := look_maxCacheBytes h
    exact hmax
  | body h => exact h.maxCacheBytes_eq
  | join | lead => cases op <;> rfl
  | remoteSet | localRemove => simp
  | _ => rfl

/-- A removal of several keys does nothing to the group but count, and remove a key at a time. -/
theorem KeysStep.group_cases {fr : Option KeysFrame} {op : KeysOp} {e : KeysEvent} {loc : KeysLoc}
    (h : KeysStep n fr op e g loc) :
    g = n.group ∨ e = .invoke ∧ g = op.count n.group ∨
      ∃ key, e = .clear key ∧ g = n.group.localRemove key := by
  cases h with
  | invoke => exact Or.inr (Or.inl ⟨rfl, rfl⟩)
  | clear => exact Or.inr (Or.inr ⟨_, rfl, rfl⟩)
  | _ => exact Or.inl rfl

@[simp] theorem KeysOp.count_maxCacheBytes (op : KeysOp) (g : Group Value) :
    (op.count g).maxCacheBytes = g.maxCacheBytes := by
  cases op with
  | removeKeys keys => by_cases h : keys = [] <;> simp [count, h]
  | handle => rfl

theorem KeysOp.count_mainCache (op : KeysOp) (g : Group Value) :
    (op.count g).mainCache = g.mainCache := by
  cases op with
  | removeKeys keys => by_cases h : keys = [] <;> simp [count, h, Group.count]
  | handle => rfl

theorem KeysOp.holds_count (op : KeysOp) : (op.count g).Holds k v ↔ g.Holds k v := by
  cases op with
  | removeKeys keys => by_cases h : keys = [] <;> simp [count, h]
  | handle => rfl

theorem localRemove_stats (g : Group Value) (key : GoString) :
    (g.localRemove key).stats = g.stats := by
  rw [Group.localRemove]
  split <;> rfl

/-- The counters of `RemoveKeys`, which no other call adds to. -/
def OfKeys (c : Counter) : Bool := c = .removeKeysRequests || c = .removedKeys

theorem KeysStep.stats_eq {fr : Option KeysFrame} {op : KeysOp} {e : KeysEvent} {loc : KeysLoc}
    (h : KeysStep n fr op e g loc) {c : Counter} (hc : OfKeys c = false) :
    g.stats c = n.group.stats c := by
  rcases h.group_cases with rfl | ⟨_, rfl⟩ | ⟨_, _, rfl⟩
  · rfl
  · obtain ⟨hc, hc'⟩ : c ≠ .removeKeysRequests ∧ c ≠ .removedKeys := by simpa [OfKeys] using hc
    cases op with
    | removeKeys keys =>
      by_cases hkeys : keys = [] <;> simp [KeysOp.count, hkeys, Group.count, hc, hc']
    | handle => rfl
  · rw [localRemove_stats]

theorem KeysStep.maxCacheBytes_eq {fr : Option KeysFrame} {op : KeysOp} {e : KeysEvent}
    {loc : KeysLoc} (h : KeysStep n fr op e g loc) :
    g.maxCacheBytes = n.group.maxCacheBytes := by
  rcases h.group_cases with rfl | ⟨_, rfl⟩ | ⟨_, _, rfl⟩ <;> simp

theorem KeysStep.holds {fr : Option KeysFrame} {op : KeysOp} {e : KeysEvent} {loc : KeysLoc}
    (h : KeysStep n fr op e g loc) (hv : g.Holds k v) : n.group.Holds k v := by
  rcases h.group_cases with rfl | ⟨_, rfl⟩ | ⟨_, _, rfl⟩
  · exact hv
  · exact op.holds_count.mp hv
  · exact holds_of_localRemove hv

theorem maxCacheBytes_step (h : Step s l t) :
    t.node.group.maxCacheBytes = s.node.group.maxCacheBytes := by
  cases h with
  | invoke op _ => cases op <;> rfl
  | act _ ha => exact ha.maxCacheBytes_eq
  | keys h => exact h.maxCacheBytes_eq
  | setPeers => rfl

theorem BodyStep.holds (h : BodyStep n time op b e g b') (hv : g.Holds k v) :
    n.group.Holds k v ∨ Stores op e k v := by
  cases h with
  | hit _ h | next _ h | miss _ h => exact Or.inl (holds_of_look h hv)
  | fillHot =>
    rcases Group.holds_populateHot hv with ⟨rfl, rfl⟩ | hv
    · exact Or.inr ⟨rfl, Or.inl rfl⟩
    · exact Or.inl hv
  | fillMain =>
    rcases Group.holds_populateMain hv with ⟨rfl, rfl⟩ | hv
    · exact Or.inr ⟨rfl, Or.inl rfl⟩
    · exact Or.inl hv
  | write =>
    rcases holds_write op hv with ⟨hk, hval⟩ | hold
    · exact Or.inr ⟨hk, Or.inr ⟨rfl, hval⟩⟩
    · exact Or.inl hold
  | _ => exact Or.inl hv

theorem Act.holds (h : Act n time op loc e n' loc') (hv : n'.group.Holds k v) :
    n.group.Holds k v ∨ Stores op e k v := by
  cases h with
  | hit _ h | next _ h | miss _ h => exact Or.inl (holds_of_look h hv)
  | join | lead => exact Or.inl (holds_countLoad.mp hv)
  | body h => exact h.holds hv
  | @remoteSet key value expire =>
    rcases holds_write (.remoteSet key value expire) hv with ⟨hk, hval⟩ | hold
    · exact Or.inr ⟨hk, Or.inr ⟨rfl, hval⟩⟩
    · exact Or.inl hold
  | @localRemove key =>
    rcases holds_write (.localRemove key) hv with ⟨_, hval⟩ | hold
    · cases hval
    · exact Or.inl hold
  | _ => exact Or.inl hv

/-- A label stores the value under the key. -/
def Label.Stores (l : Label P) (k : GoString) (v : Value) : Prop :=
  ∃ p op e, l = .call p op e ∧ Concurrent.Stores op e k v

/-- A value is in a cache only if it was there before the step, or the step stored it. -/
theorem holds_step (h : Step s l t) (hv : t.node.group.Holds k v) :
    s.node.group.Holds k v ∨ l.Stores k v := by
  cases h with
  | invoke => exact Or.inl (holds_countGet.mp hv)
  | @act p op _ _ e _ _ _ ha =>
    rcases ha.holds hv with hold | hstores
    · exact Or.inl hold
    · exact Or.inr ⟨p, op, e, rfl, hstores⟩
  | keys h => exact Or.inl (h.holds hv)
  | setPeers => exact Or.inl hv

/-- Times are positions in the history, and a call has one invocation. -/
structure Timed (ls : List (Label P)) (s : State P) : Prop where
  clock : s.clock = ls.length
  since : ∀ p fr, s.pc p = some fr → ls[fr.since]? = some (.call p fr.op .invoke)
  invoked : ∀ m p op, ls[m]? = some (.call p op .invoke) →
    ∃ fr, s.pc p = some fr ∧ fr.op = op ∧ fr.since = m

variable {ls : List (Label P)}

omit [DecidableEq P] in
theorem Timed.since_lt (h : Timed ls s) (hp : s.pc p = some fr) : fr.since < ls.length :=
  (List.getElem?_eq_some_iff.mp (h.since p fr hp)).1

/-- The event of a call comes from its frame. -/
theorem Step.frame (h : Step s (.call p op e) t) (he : e ≠ .invoke) :
    ∃ since loc loc', s.pc p = some ⟨op, since, loc⟩ ∧
      Act s.node s.clock op loc e t.node loc' ∧ t = s.setPC p ⟨op, since, loc'⟩ t.node := by
  cases h with
  | invoke => exact (he rfl).elim
  | act hp ha => exact ⟨_, _, _, hp, ha, rfl⟩

/-- Where a frame comes from. -/
theorem Step.frame_cases (h : Step s l t) (hp : t.pc p = some fr) :
    (s.pc p = some fr ∧ ∀ op e, l ≠ .call p op e) ∨
    (∃ e loc, l = .call p fr.op e ∧ s.pc p = some ⟨fr.op, fr.since, loc⟩ ∧
      Act s.node s.clock fr.op loc e t.node fr.loc) ∨
    l = .call p fr.op .invoke ∧ fr.since = s.clock ∧ fr.loc = fr.op.start s.node.group := by
  cases h with
  | @invoke q op hq =>
    by_cases hqp : p = q
    · subst hqp
      simp only [State.setPC, Function.update_self, Option.some.injEq] at hp
      subst hp
      exact Or.inr (Or.inr ⟨rfl, rfl, rfl⟩)
    · refine Or.inl ⟨by simpa [State.setPC, hqp] using hp, ?_⟩
      rintro _ _ ⟨⟩
      exact hqp rfl
  | @act q op since loc e n loc' hq ha =>
    by_cases hqp : p = q
    · subst hqp
      simp only [State.setPC, Function.update_self, Option.some.injEq] at hp
      subst hp
      exact Or.inr (Or.inl ⟨e, loc, rfl, hq, ha⟩)
    · refine Or.inl ⟨by simpa [State.setPC, hqp] using hp, ?_⟩
      rintro _ _ ⟨⟩
      exact hqp rfl
  | keys | setPeers => exact Or.inl ⟨hp, by simp⟩

/-- A frame stays until its own call takes a step. -/
theorem Step.frame_next (h : Step s l t) (hp : s.pc p = some fr) :
    t.pc p = some fr ∨ ∃ e loc', l = .call p fr.op e ∧
      Act s.node s.clock fr.op fr.loc e t.node loc' ∧ t.pc p = some ⟨fr.op, fr.since, loc'⟩ := by
  cases h with
  | @invoke q op hq =>
    have hne : p ≠ q := by
      rintro rfl
      rw [hq] at hp
      cases hp
    exact Or.inl (by simpa [State.setPC, hne] using hp)
  | @act q op since loc e n loc' hq ha =>
    by_cases hpq : p = q
    · subst hpq
      rw [hq] at hp
      cases hp
      exact Or.inr ⟨e, loc', rfl, ha, Function.update_self ..⟩
    · exact Or.inl (by simpa [State.setPC, hpq] using hp)
  | keys | setPeers => exact Or.inl hp

theorem Step.pc_other (h : Step s l t) (hq : ∀ op e, l ≠ .call q op e) : t.pc q = s.pc q := by
  cases h with
  | @invoke p op _ | @act p op _ _ _ _ _ _ _ =>
    have hne : q ≠ p := by
      rintro rfl
      exact hq _ _ rfl
    simp [State.setPC, hne]
  | keys | setPeers => rfl

theorem Act.ret_locs {a : Answer} (h : Act n time op loc (.ret a) n' loc') :
    loc = .ret a ∧ loc' = .returned := by
  cases h with
  | body h => cases h
  | ret => exact ⟨rfl, rfl⟩

theorem Act.ret_loc {a : Answer} (h : Act n time op loc (.ret a) n' loc') : loc = .ret a :=
  h.ret_locs.1

theorem answer_ok {o : Outcome Value} {pop : Bool} (h : op.answer o pop = .ok) :
    o.result.2 = none := by
  cases o with
  | panic => cases op <;> cases h
  | ret val err =>
    cases err with
    | none => rfl
    | some e => cases op <;> cases h

/-- A leader has just entered `Do`, or its function has taken a step. -/
theorem Act.lead_cases {c : ℕ} {b : Body} (h : Act n time op loc e n' (.lead c b)) :
    (e = .lead c ∧ (n.flights op.flight).m op.key = none ∧ b = op.body) ∨
      ∃ b₀, loc = .lead c b₀ ∧ BodyStep n time op b₀ e n'.group b := by
  cases h with
  | lead hm => exact Or.inl ⟨rfl, hm, rfl⟩
  | body hb => exact Or.inr ⟨_, rfl, hb⟩

theorem Act.ne_invoke (h : Act n time op loc e n' loc') : e ≠ .invoke := by
  cases h with
  | body h => cases h <;> simp
  | _ => simp

theorem forall_setPC {Φ : P → Frame → Prop} :
    (∀ q fr', (s.setPC p fr n).pc q = some fr' → Φ q fr') ↔
      Φ p fr ∧ ∀ q, q ≠ p → ∀ fr', s.pc q = some fr' → Φ q fr' := by
  refine (Function.forall_update_iff s.pc (p := fun q x => ∀ fr', x = some fr' → Φ q fr')).trans ?_
  simp

theorem timed_step (h : Step s l t) (ht : Timed ls s) : Timed (ls ++ [l]) t := by
  constructor
  · cases h <;> simp [State.setPC, ht.clock]
  · intro p fr hp
    rcases h.frame_cases hp with ⟨hold, _⟩ | ⟨e, loc, _, hold, _⟩ | ⟨rfl, hsince, _⟩
    · exact Lib.getElem?_concat_of_some (ht.since p fr hold)
    · exact Lib.getElem?_concat_of_some (ht.since p ⟨fr.op, fr.since, loc⟩ hold)
    · simp [hsince, ht.clock]
  · intro m p op hm
    rcases Lib.getElem?_concat_cases hm with hm | ⟨rfl, rfl⟩
    · obtain ⟨fr, hp, hop, hm⟩ := ht.invoked m p op hm
      rcases h.frame_next hp with hp' | ⟨_, loc', _, _, hp'⟩
      · exact ⟨fr, hp', hop, hm⟩
      · exact ⟨_, hp', hop, hm⟩
    · cases h with
      | invoke => exact ⟨_, Function.update_self .., rfl, ht.clock⟩
      | act _ ha => exact (ha.ne_invoke rfl).elim

/-- The body of a load has a value in its hands. -/
def Body.Has (v : Value) : Body → Prop
  | .fillHot w | .fillMain w => w = v
  | .ends o _ => o.result.1 = some v
  | _ => False

/-- The leader of a load has a value to publish. -/
def Loc.Leads (v : Value) : Loc → Prop
  | .lead _ b => b.Has v
  | .assigned _ o _ | .done _ o _ => o.result.1 = some v
  | _ => False

/-- A call is about to return a value, or the call it waits on holds it. -/
def Loc.Gets (g : Singleflight.Group GoString Value) (v : Value) : Loc → Prop
  | .wait c => (g.calls c).wg = false ∧ (g.calls c).val = some v
  | .ret a => a = .value v
  | _ => False

/-- The event ends a fetch of a load with the value. -/
def Fetches (loc : Loc) (e : Event) (v : Value) : Prop :=
  ∃ c start, v.origin = .fetch start ∧
    ((∃ c', loc = .lead c (.calling c' start) ∧ e = .fetched c' v.view) ∨
      loc = .lead c (.getter start) ∧ e = .got v.view)

/-- The call goes through the load group with the key. -/
def Op.Loads (op : Op) (k : GoString) : Prop := op.flight = .load ∧ op.key = k

/-- The values around for a key satisfy `Q`: those in the caches, those in the hands of the
leaders of its loads, and those that calls invoked from a time on will return. -/
structure Holding (Q : Value → Prop) (k : GoString) (t₀ : ℕ) (s : State P) : Prop where
  cache : ∀ v, s.node.group.Holds k v → Q v
  lead : ∀ p fr, s.pc p = some fr → fr.op.Loads k → ∀ v, fr.loc.Leads v → Q v
  late : ∀ p fr, s.pc p = some fr → fr.op.Loads k → t₀ ≤ fr.since →
    ∀ v, fr.loc.Gets (s.node.flights .load) v → Q v

theorem broadcast_cases (op : Op) (owner : Option Client) (peers : List Client) :
    (∃ todo, op.broadcast owner peers = .broadcast todo [] []) ∨
      op.broadcast owner peers = .ends .panic false := by
  unfold Op.broadcast
  split
  · split
    · exact Or.inl ⟨_, rfl⟩
    · split
      · exact Or.inl ⟨_, rfl⟩
      · exact Or.inr rfl
  · exact Or.inl ⟨_, rfl⟩

/-- A leader's value comes from a cache, or from its own fetch. -/
theorem BodyStep.has {g : Group Value} {c : ℕ} (h : BodyStep n time op b e g b')
    (hv : b'.Has v) : b.Has v ∨ n.group.Holds op.key v ∨ Fetches (.lead c b) e v := by
  cases h with
  | hit _ h =>
    have hv : some _ = some v := hv
    rw [← Option.some.inj hv]
    exact Or.inr (Or.inl (look_hit h))
  | fetched w =>
    have hv : (⟨w, .fetch _⟩ : Value) = v := hv
    subst hv
    exact Or.inr (Or.inr ⟨c, _, rfl, Or.inl ⟨_, rfl, rfl⟩⟩)
  | got w =>
    have hv : (⟨w, .fetch _⟩ : Value) = v := hv
    subst hv
    exact Or.inr (Or.inr ⟨c, _, rfl, Or.inr ⟨rfl, rfl⟩⟩)
  | fillHot | fillMain =>
    have hv : some _ = some v := hv
    exact Or.inl (Option.some.inj hv)
  | pickLocal =>
    cases op <;> exact hv.elim
  | @peers op owner =>
    rcases broadcast_cases op owner n.inst.getAllPeers with ⟨_, h⟩ | h <;> rw [h] at hv
    · exact hv.elim
    · cases hv
  | next | miss | pickRemote | send | fetchFallBack | callGetter | ownerDone | write | sendPeer
  | answered => exact hv.elim
  | fetchFinal | fetchGiveUp | failed | panicked | ownerFailed | wait => cases hv

theorem Act.leads (h : Act n time op loc e n' loc') (hv : loc'.Leads v) :
    loc.Leads v ∨ n.group.Holds op.key v ∨ Fetches loc e v := by
  cases h with
  | body h => exact h.has hv
  | lead => cases op <;> exact hv.elim
  | assign | done => exact Or.inl hv
  | _ => exact hv.elim

theorem deliver_value {dest : Option Sink} {w : Value} (h : Op.deliver dest w = .value v) :
    w = v := by
  unfold Op.deliver at h
  split at h
  · cases h
  · split at h <;> cases h
    rfl

/-- A value that a call returns after `Do` is the one its function, or its leader's, returned. -/
theorem answer_value {o : Outcome Value} {pop : Bool} (h : op.answer o pop = .value v) :
    o.result.1 = some v := by
  cases o with
  | panic => cases op <;> cases h
  | ret val err =>
    cases op with
    | get key dest =>
      match val, err, h with
      | some w, none, h =>
        cases pop with
        | true =>
          cases h
          rfl
        | false => exact congrArg some (deliver_value h)
      | none, none, h => cases h
      | _, some e, h => cases h
    | _ => cases err <;> cases h

/-- What a call returns comes from a cache, from its own lead, or from the call it waited on. -/
theorem Act.gets (h : Act n time op loc e n' loc') (hop : op.flight = .load)
    (hv : loc'.Gets (n'.flights .load) v) :
    loc.Gets (n.flights .load) v ∨ loc.Leads v ∨ n.group.Holds op.key v ∨
      ∃ c, loc' = .wait c ∧ (n.flights .load).m op.key = some c ∧
        ((n.flights .load).calls c).wg = false ∧ ((n.flights .load).calls c).val = some v := by
  cases h with
  | hit _ h => exact Or.inr (Or.inr (Or.inl (deliver_value hv ▸ look_hit h)))
  | @join _ c h =>
    rw [hop] at h
    rw [countLoad_flights] at hv
    exact Or.inr (Or.inr (Or.inr ⟨c, rfl, h, hv⟩))
  | delete => exact Or.inr (Or.inl (answer_value hv))
  | wake h =>
    rw [hop] at h
    have hval := answer_value hv
    rw [hop] at hval
    exact Or.inl ⟨h, hval⟩
  | remoteSet | localRemove => cases hv
  | _ => exact hv.elim

omit [DecidableEq P] in
theorem Flights.leader (hi : Flights s) (hm : (s.node.flights f).m k = some c) :
    ∃ p fr, s.pc p = some fr ∧ fr.op.flight = f ∧ fr.op.key = k ∧ fr.loc.Leading c := by
  obtain ⟨p, hp⟩ := (hi f).led k c hm
  unfold State.role at hp
  split at hp
  · rename_i fr hpc
    unfold Frame.role at hp
    split at hp
    · rename_i hf
      refine ⟨p, fr, hpc, hf, ?_⟩
      cases hl : fr.loc <;> simp_all [Loc.role, Role.leads, Loc.Leading]
    · cases hp
  · cases hp

omit [DecidableEq P] in
/-- The call of a leader that is done holds what its function returned. -/
theorem Flights.leader_of_closed (hi : Flights s) (hm : (s.node.flights f).m k = some c)
    (hwg : ((s.node.flights f).calls c).wg = false) :
    ∃ p op since o pop, s.pc p = some ⟨op, since, .done c o pop⟩ ∧ op.flight = f ∧ op.key = k ∧
      ((s.node.flights f).calls c).result = o.result := by
  obtain ⟨p, ⟨op, since, loc⟩, hpc, rfl, rfl, hlead⟩ := hi.leader hm
  obtain ⟨o, pop, rfl, hres⟩ := hi.done_of_closed hpc hlead hwg
  exact ⟨p, op, since, o, pop, hpc, rfl, rfl, hres⟩

theorem start_cases (g : Group Value) (op : Op) :
    (∃ tier, op.start g = .lookup tier) ∨ op.start g = .enter ∨ op.start g = .write ∨
      op.start g = .ret .ok ∨ ∃ e, op.start g = .ret (.err e) := by
  unfold Op.start
  split
  · exact Or.inr (Or.inr (Or.inr (Or.inr ⟨_, rfl⟩)))
  · exact Or.inl ⟨_, rfl⟩
  · split
    · exact Or.inr (Or.inr (Or.inr (Or.inr ⟨_, rfl⟩)))
    · split <;> simp
  · simp
  · simp
  · simp

variable {Q : Value → Prop} {t₀ : ℕ}

omit [DecidableEq P] in
theorem Holding.mono {Q' : Value → Prop} (h : Holding Q k t₀ s) (hQ : ∀ v, Q v → Q' v) :
    Holding Q' k t₀ s := by
  refine ⟨fun v hv => hQ v (h.cache v hv), ?_, ?_⟩
  · exact fun p fr hp hop v hv => hQ v (h.lead p fr hp hop v hv)
  · exact fun p fr hp hop hsince v hv => hQ v (h.late p fr hp hop hsince v hv)

theorem pc_ne_initial {cacheBytes : ℤ} (h : (nodeLTS P cacheBytes).Init s) : s.pc p ≠ some fr := by
  obtain ⟨_, _, _, hpc, _⟩ := h
  simp [hpc p]

theorem holding_initial {cacheBytes : ℤ} (h : (nodeLTS P cacheBytes).Init s) :
    Holding Q k t₀ s := by
  refine ⟨?_, fun p fr hp => (pc_ne_initial h hp).elim, fun p fr hp => (pc_ne_initial h hp).elim⟩
  intro v hv
  rw [h.1] at hv
  exact (Group.not_holds_new cacheBytes hv).elim

/-- What a call that does not move will return: its wait may have ended. -/
theorem Holding.late_other (hh : Holding Q k t₀ s) (h : Step s l t) (hi : Flights s)
    (hq : s.pc q = some fr) (hop : fr.op.Loads k) (hsince : t₀ ≤ fr.since)
    (hv : fr.loc.Gets (t.node.flights .load) v) : Q v := by
  obtain ⟨op, since, loc⟩ := fr
  cases loc with
  | wait c =>
    obtain ⟨hwg, hval⟩ := hv
    have hrole : s.role .load q = .wait k c := by
      simp only [role_of_pc hq, Frame.role, hop.1, if_true, Loc.role, hop.2]
    rcases closes h hi hrole hwg with ⟨hwas, hsame⟩ |
      ⟨p, op₁, since₁, o, pop, _, hp, hf, hk, hres⟩
    · exact hh.late q _ hq hop hsince v ⟨hwas, by rw [← hsame]; exact hval⟩
    · refine hh.lead p _ hp ⟨hf, hk⟩ v ?_
      have hfst := congrArg Prod.fst hres
      exact hfst.symm.trans hval
  | ret a => exact hh.late q _ hq hop hsince v hv
  | _ => exact hv.elim

theorem holding_invoke (hi : Flights s) (hh : Holding Q k t₀ s) (hp : s.pc p = none) :
    Holding Q k t₀ (s.setPC p ⟨op, s.clock, op.start s.node.group⟩ (s.node.countGet op)) := by
  have hstart := start_cases s.node.group op
  refine ⟨fun v hv => hh.cache v (holds_countGet.mp hv),
    forall_setPC.mpr ⟨?_, fun q _ => hh.lead q⟩, forall_setPC.mpr ⟨?_, ?_⟩⟩
  · rintro _ v hv
    rcases hstart with ⟨_, he⟩ | he | he | he | ⟨_, he⟩ <;> simp [he, Loc.Leads] at hv
  · rintro _ _ v hv
    rcases hstart with ⟨_, he⟩ | he | he | he | ⟨_, he⟩ <;> simp [he, Loc.Gets] at hv
  · exact fun q _ fr hq hop hsince v hv => hh.late_other (.invoke op hp) hi hq hop hsince hv

theorem holding_act (hi : Flights s) (hh : Holding Q k t₀ s)
    (hp : s.pc p = some ⟨op, since, loc⟩) (ha : Act s.node s.clock op loc e n loc')
    (hfetch : ∀ v, op.Loads k → Fetches loc e v → Q v)
    (hwrite : ∀ v, e = .write → op.key = k → op.value = some v → Q v) :
    Holding Q k t₀ (s.setPC p ⟨op, since, loc'⟩ n) := by
  refine ⟨?_, forall_setPC.mpr ⟨?_, fun q _ => hh.lead q⟩, forall_setPC.mpr ⟨?_, ?_⟩⟩
  · intro v hv
    rcases ha.holds hv with hold | ⟨hk, rfl | ⟨rfl, hval⟩⟩
    · exact hh.cache v hold
    · obtain ⟨hop, hhas⟩ : op.flight = .load ∧ loc.Leads v := by
        cases ha with
        | body hb => cases hb <;> exact ⟨rfl, rfl⟩
      exact hh.lead p _ hp ⟨hop, hk⟩ v hhas
    · exact hwrite v rfl hk hval
  · intro hop v hv
    rcases ha.leads hv with hlead | hold | hf
    · exact hh.lead p _ hp hop v hlead
    · exact hh.cache v (hop.2 ▸ hold)
    · exact hfetch v hop hf
  · intro hop hsince v hv
    rcases ha.gets hop.1 hv with hgets | hlead | hold | ⟨c, rfl, hm, hwg, hval⟩
    · exact hh.late p _ hp hop hsince v hgets
    · exact hh.lead p _ hp hop v hlead
    · exact hh.cache v (hop.2 ▸ hold)
    · obtain ⟨q, op', since', o, pop, hq, hf, hk, hres⟩ := hi.leader_of_closed hm hwg
      refine hh.lead q _ hq ⟨hf, hk.trans hop.2⟩ v ?_
      have hfst := congrArg Prod.fst hres
      exact hfst.symm.trans hval
  · exact fun q _ fr hq hop hsince v hv => hh.late_other (.act hp ha) hi hq hop hsince hv

/-- A step that fetches and writes only such values keeps all values such. -/
theorem holding_step (h : Step s l t) (hi : Flights s) (hh : Holding Q k t₀ s)
    (hfetch : ∀ p op since loc e v, l = .call p op e → s.pc p = some ⟨op, since, loc⟩ →
      op.Loads k → Fetches loc e v → Q v)
    (hwrite : ∀ p op v, l = .call p op .write → op.key = k → op.value = some v → Q v) :
    Holding Q k t₀ t := by
  cases h with
  | invoke op hp => exact holding_invoke hi hh hp
  | keys h => exact ⟨fun v hv => hh.cache v (h.holds hv), hh.lead, hh.late⟩
  | setPeers => exact ⟨hh.cache, hh.lead, hh.late⟩
  | @act p op since loc e n loc' hp ha =>
    refine holding_act hi hh hp ha ?_ ?_
    · exact fun v hop hf => hfetch p op since loc e v rfl hp hop hf
    · rintro v rfl hk hval
      exact hwrite p op v rfl hk hval

/-- What holds in every reachable state, whatever the calls do. -/
structure Sound (cacheBytes : ℤ) (ls : List (Label P)) (s : State P) : Prop where
  flights : Flights s
  timed : Timed ls s
  maxCacheBytes : s.node.group.maxCacheBytes = cacheBytes

theorem flights_initial {cacheBytes : ℤ} (h : (nodeLTS P cacheBytes).Init s) : Flights s := by
  obtain ⟨_, hflights, _, hpc, _⟩ := h
  intro f
  have hrole : s.role f = fun _ => .out := by
    funext p
    simp [State.role, hpc p]
  rw [hflights f, hrole]
  exact Singleflight.inv_empty

theorem sound_reachable {cacheBytes : ℤ} {ls : List (Label P)}
    (h : (nodeLTS P cacheBytes).Run ls s) : Sound cacheBytes ls s := by
  refine h.invariant ?_ ?_
  · intro s hinit
    refine ⟨flights_initial hinit, ⟨hinit.2.2.1, ?_, by simp⟩, by rw [hinit.1]; rfl⟩
    exact fun p fr hp => (pc_ne_initial hinit hp).elim
  · intro ls s l t _ hs hstep
    exact ⟨flights_step hstep hs.flights, timed_step hstep hs.timed,
      (maxCacheBytes_step hstep).trans hs.maxCacheBytes⟩

/-- A new group of 1000 bytes on an instance without peers. -/
def solo : State ℕ :=
  { node :=
      { group := .new 1000
        flights := fun _ => .empty
        inst := { opts := ⟨none, 0⟩, picker := newPicker (fun _ => 0) ⟨none, 0⟩, next := 0 }
        logger := false }
    clock := 0
    pc := fun _ => none }

theorem solo_initial : (nodeLTS ℕ 1000).Init solo :=
  ⟨rfl, fun _ => rfl, rfl, fun _ => rfl, fun _ => rfl⟩

/-- Every event of a call comes after its invocation, out of a state with its frame. -/
theorem event_after_invoke {C : State P → Label P → State P → Prop} {cacheBytes : ℤ}
    {ls : List (Label P)} {m r : ℕ} {op' : Op} (h : ((nodeLTS P cacheBytes).restrict C).Run ls s)
    (hm : ls[m]? = some (.call p op .invoke)) (hr : ls[r]? = some (.call p op' e))
    (he : e ≠ .invoke) :
    op' = op ∧ m < r ∧ ∃ u w loc loc', ((nodeLTS P cacheBytes).restrict C).Run (ls.take r) u ∧
      u.pc p = some ⟨op, m, loc⟩ ∧ Act u.node u.clock op loc e w loc' := by
  obtain ⟨u, w, hu, ⟨hstep, _⟩, _⟩ := h.occurs hr
  obtain ⟨since, loc, loc', hp, ha, _⟩ := hstep.frame he
  have hinvoke : (ls.take r)[since]? = some (.call p op' .invoke) :=
    (sound_reachable hu.of_restrict).timed.since p _ hp
  obtain ⟨hlt, hsince⟩ := Lib.getElem?_of_take hinvoke
  have htimed := (sound_reachable h.of_restrict).timed
  obtain ⟨fr, hfr, hop, rfl⟩ := htimed.invoked m p op hm
  obtain ⟨fr', hfr', hop', hm'⟩ := htimed.invoked since p op' hsince
  rw [hfr] at hfr'
  cases hfr'
  have heq : op' = op := hop'.symm.trans hop
  subst heq
  refine ⟨rfl, by omega, u, w.node, loc, loc', hu, ?_, ha⟩
  rw [hp, hm']

end Groupcache.Concurrent
