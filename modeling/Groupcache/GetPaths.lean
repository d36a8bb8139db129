import Groupcache.SharedLoad
import Groupcache.Transport.Sinks

/-! The sinks of the callers of `Get`, along the runs of a cluster in which peer calls may fail.
Whatever path serves a `Get`, its sink ends up as if the Getter alone had filled it. -/
namespace Groupcache.Concurrent

open Transport Peer
open Singleflight (Outcome)

/-- A step of the cluster, or a peer call that ends with an error of the transport. -/
inductive FaultyStep {P : Type} [DecidableEq P] : Net P → GoString × Label P → Net P → Prop
  | net {N l N'} (h : NetStep N l N') : FaultyStep N l N'
  | fails {N x p op c err s} (hs : Step (N.nodes x) (.call p op (.answered c (some err))) s) :
      FaultyStep N (x, .call p op (.answered c (some err)))
        ⟨Function.update N.nodes x s, Function.update N.calls ⟨x, p, c⟩ none, N.keysCalls⟩
  | keysFail {N x p op c err s} (hs : Step (N.nodes x) (.keys p op (.answered c (some err))) s) :
      FaultyStep N (x, .keys p op (.answered c (some err)))
        ⟨Function.update N.nodes x s, N.calls, Function.update N.keysCalls ⟨x, p, c⟩ none⟩

/-- The cluster, and for each call the sink it was given. -/
structure Callers (P M : Type) where
  net : Net P
  sinks : GoString × P → CallerSink M

variable {P M : Type}

/-- What a step of a call does to its sink: the Getter fills it, or `SetSinkView` does unless the
Getter has. What a failure leaves in it is open. -/
def Uses (C : ProtoCodec M) (c : SetCall M) (s s' : CallerSink M) (loc : Loc) (e : Event)
    (loc' : Loc) : Prop :=
  match loc, e, loc' with
  | _, .got v, _ => s.set C c = .ok s' ∧ v = s'.view
  | _, .failed _, _ => True
  | .done _ _ true, _, _ => s' = s
  | _, _, .ret (.value v) => s.setSinkView C v.view = .ok s'
  | _, _, .ret (.err _) => True
  | _, _, _ => s' = s

/-- A step of the cluster with the sinks of its callers. For each key the Getter calls one Set
method of the sink it is given. -/
inductive CallerStep [DecidableEq P] (C : ProtoCodec M) (getter : GoString → SetCall M) :
    Callers P M → GoString × Label P → Callers P M → Prop
  | invoke {W x p op N} (h : FaultyStep W.net (x, .call p op .invoke) N)
      (hdest : ∀ key dest, op = .get key (some dest) → dest = (W.sinks (x, p)).sink C) :
      CallerStep C getter W (x, .call p op .invoke) { W with net := N }
  | act {W x p op e N fr fr' s} (h : FaultyStep W.net (x, .call p op e) N)
      (hfr : (W.net.nodes x).pc p = some fr) (hfr' : (N.nodes x).pc p = some fr')
      (hs : Uses C (getter op.key) (W.sinks (x, p)) s fr.loc e fr'.loc) :
      CallerStep C getter W (x, .call p op e)
        { net := N, sinks := Function.update W.sinks (x, p) s }
  | keys {W x p op e N} (h : FaultyStep W.net (x, .keys p op e) N) :
      CallerStep C getter W (x, .keys p op e) { W with net := N }
  | setPeers {W x peers N} (h : FaultyStep W.net (x, .setPeers peers) N) :
      CallerStep C getter W (x, .setPeers peers) { W with net := N }

/-- New groups on all nodes, and the sinks that the calls to come will be given. -/
def callersLTS (P : Type) {M : Type} [DecidableEq P] (C : ProtoCodec M)
    (getter : GoString → SetCall M) (cacheBytes : GoString → ℤ)
    (sinks : GoString × P → CallerSink M) : Lib.LTS (Callers P M) (GoString × Label P) where
  Init W := (netLTS P cacheBytes).Init W.net ∧ W.sinks = sinks
  Step := CallerStep C getter

/-- The value has the bytes that a Set method was given, and the expiry too if peers can pass it
on. -/
def Gives (C : ProtoCodec M) (c : SetCall M) (v : ByteView) : Prop :=
  c.bytes C = .ok v.bytes ∧ (Carried c.expire → v.expire = c.expire)

/-- Nothing else than what the Getter gives is written under the key. -/
def NoOtherWrite (C : ProtoCodec M) (c : SetCall M) (k : GoString) (l : Label P) : Prop :=
  ∀ p op v, l = .call p op .write → op.key = k → op.value = some v → Gives C c v.view

/-- The sink shows what it would show if the Getter alone had filled it. -/
def Shows (C : ProtoCodec M) (c : SetCall M) (given s : CallerSink M) : Prop :=
  ∃ t, given.set C c = .ok t ∧ s.content = t.content ∧ s.view.bytes = t.view.bytes ∧
    (Carried c.expire → s.view.expire = t.view.expire)

variable {C : ProtoCodec M} {c : SetCall M} {given s s' : CallerSink M}

theorem gives_of_set {t : CallerSink M} (h : s.set C c = .ok t) : Gives C c t.view := by
  obtain ⟨hbytes, hexpire⟩ := s.set_view C h
  exact ⟨hbytes, fun _ => hexpire⟩

/-- A peer call keeps what the Getter gives. -/
theorem Gives.received {v : ByteView} (h : Gives C c v) :
    Gives C c (Cluster.received (some v.bytes) v.expire) := by
  refine ⟨by simpa [Cluster.received] using h.1, ?_⟩
  intro hcarried
  change decodeExpire (encodeExpire v.expire) = c.expire
  rw [h.2 hcarried]
  exact hcarried

theorem shows_of_set (h : given.set C c = .ok s) : Shows C c given s :=
  ⟨s, h, rfl, rfl, fun _ => rfl⟩

theorem shows_of_setSinkView {v : ByteView} (hv : Gives C c v)
    (h : given.setSinkView C v = .ok s) : Shows C c given s := by
  obtain ⟨t, ht, hcontent, hbytes, hexpire, hset⟩ := given.seen_of_setSinkView C hv.1 h
  refine ⟨t, ht, hcontent, hbytes, ?_⟩
  intro hcarried
  rw [hexpire, hset, hv.2 hcarried]

/-- The function ended with a value that its caller's sink does not hold yet. -/
def Owed (o : Outcome Value) (destPopulated : Bool) : Prop :=
  destPopulated = false ∧ ∃ v, o = .ret (some v) none

/-- The call has not used its sink, and no error will keep it from it. -/
def Loc.Untouched : Loc → Prop
  | .lookup _ | .enter | .wait _ => True
  | .lead _ b =>
    match b with
    | .lookup _ | .pick | .call _ | .calling _ _ | .fillHot _ | .callGetter | .getter _ => True
    | .ends o destPopulated => Owed o destPopulated
    | _ => False
  | .assigned _ o destPopulated | .done _ o destPopulated => Owed o destPopulated
  | _ => False

/-- The Getter has filled the sink of the leader. -/
def Loc.Populated : Loc → Prop
  | .lead _ b =>
    match b with
    | .fillMain _ => True
    | .ends _ destPopulated => destPopulated = true
    | _ => False
  | .assigned _ _ destPopulated | .done _ _ destPopulated => destPopulated = true
  | _ => False

/-- The sink of a `Get`, from where the call stands. -/
structure SinkAt (C : ProtoCodec M) (c : SetCall M) (given s : CallerSink M) (loc : Loc) :
    Prop where
  untouched : loc.Untouched → s = given
  populated : loc.Populated → given.set C c = .ok s
  delivered : ∀ v, loc = .ret (.value v) → Shows C c given s

variable {k : GoString} {dest : Option Sink} {n n' : Node} {time : ℕ} {loc loc' : Loc} {e : Event}

theorem sinkAt_body {b b' : Body} {i : ℕ} {g : Group Value}
    (h : BodyStep n time (.get k dest) b e g b') (hs : SinkAt C c given s (.lead i b))
    (hu : Uses C c s s' (.lead i b) e (.lead i b')) : SinkAt C c given s' (.lead i b') := by
  have hkeep : s' = s → (Loc.lead i b).Untouched → ¬ (Loc.lead i b').Populated →
      SinkAt C c given s' (.lead i b') := by
    rintro rfl hb hpop
    exact ⟨fun _ => hs.untouched hb, fun hb' => (hpop hb').elim, nofun⟩
  have hfail : ¬ (Loc.lead i b').Untouched → ¬ (Loc.lead i b').Populated →
      SinkAt C c given s' (.lead i b') :=
    fun hb hpop => ⟨fun hb' => (hb hb').elim, fun hb' => (hpop hb').elim, nofun⟩
  cases h with
  | next | miss | pickRemote | pickLocal | send | fetched | fetchFallBack | callGetter =>
    exact hkeep hu trivial id
  | hit | fillHot => exact hkeep hu trivial nofun
  | fetchFinal | fetchGiveUp | failed | panicked | wait => exact hfail nofun nofun
  | sendPeer | answered => exact hfail id id
  | got v =>
    have hgiven : s = given := hs.untouched trivial
    exact ⟨False.elim, fun _ => hgiven ▸ hu.1, nofun⟩
  | fillMain =>
    have hsame : s' = s := hu
    exact ⟨nofun, fun _ => hsame ▸ hs.populated trivial, nofun⟩
  | @peers _ owner => exact hfail id id
  | ownerDone hop | ownerFailed _ hop | write hop => exact (hop rfl).elim

/-- A call that returns a value without having run the Getter copies it into the sink. -/
theorem sinkAt_ret {a : Answer} (hs : SinkAt C c given s loc) (hloc : ∀ v, a = .value v →
      loc.Untouched ∧ s.setSinkView C v.view = .ok s')
    (hv : ∀ v, a = .value v → Gives C c v.view) : SinkAt C c given s' (.ret a) := by
  refine ⟨False.elim, False.elim, ?_⟩
  intro v ha
  injection ha with ha
  obtain ⟨huntouched, hset⟩ := hloc v ha
  rw [hs.untouched huntouched] at hset
  exact shows_of_setSinkView (hv v ha) hset

theorem answer_eq_value {o : Outcome Value} {v : Value}
    (h : (Op.get k dest).answer o false = .value v) : o = .ret (some v) none := by
  have hval := answer_value h
  cases o with
  | panic => cases h
  | ret val err =>
    cases err with
    | none => exact congrArg (Outcome.ret · none) hval
    | some err => cases h

theorem sinkAt_act (ha : Act n time (.get k dest) loc e n' loc') (hs : SinkAt C c given s loc)
    (hu : Uses C c s s' loc e loc') (hv : ∀ v, loc' = .ret (.value v) → Gives C c v.view) :
    SinkAt C c given s' loc' := by
  have hkeep : s' = s → (loc'.Untouched → loc.Untouched) → (loc'.Populated → loc.Populated) →
      (∀ v, loc' ≠ .ret (.value v)) → SinkAt C c given s' loc' := by
    rintro rfl huntouched hpopulated hret
    exact ⟨fun h => hs.untouched (huntouched h), fun h => hs.populated (hpopulated h),
      fun v h => (hret v h).elim⟩
  cases ha with
  | next | miss | join | lead => exact hkeep hu (fun _ => trivial) False.elim nofun
  | body h => exact sinkAt_body h hs hu
  | assign | done => exact hkeep hu id id nofun
  | hit | wake =>
    refine sinkAt_ret hs ?_ fun v ha => hv v (congrArg _ ha)
    intro v ha
    rw [ha] at hu
    exact ⟨trivial, hu⟩
  | @delete _ i o pop =>
    cases pop with
    | true =>
      have hsame : s' = s := hu
      exact ⟨False.elim, False.elim, fun _ _ => shows_of_set (hsame ▸ hs.populated rfl)⟩
    | false =>
      refine sinkAt_ret hs ?_ fun v ha => hv v (congrArg _ ha)
      intro v ha
      rw [ha] at hu
      exact ⟨⟨rfl, v, answer_eq_value ha⟩, hu⟩
  | ret => exact ⟨False.elim, False.elim, nofun⟩

theorem Act.fetched_get {op : Op} {i : Client} {w : ByteView}
    (h : Act n time op loc (.fetched i w) n' loc') : ∃ key dest, op = .get key dest := by
  cases h with
  | body h =>
    cases h with
    | fetched => exact ⟨_, _, rfl⟩

variable [DecidableEq P] {N N' : Net P} {x : GoString} {l : Label P}

/-- What the nodes and the peer calls hold for the key is what the Getter gives. -/
structure Given (C : ProtoCodec M) (c : SetCall M) (k : GoString) (N : Net P) : Prop where
  flights : ∀ x, Flights (N.nodes x)
  holding : ∀ x, Holding (fun v => Gives C c v.view) k 0 (N.nodes x)
  replied : ∀ i dest v, N.calls i = some (.replied (.get k dest) (.value v)) → Gives C c v.view

theorem FaultyStep.node (h : FaultyStep N (x, l) N') :
    ∃ s, Step (N.nodes x) l s ∧ N'.nodes = Function.update N.nodes x s ∧
      (Link N.calls x l N'.calls ∨ ∃ p op c err, l = .call p op (.answered c (some err)) ∧
        N'.calls = Function.update N.calls ⟨x, p, c⟩ none) := by
  cases h with
  | net h =>
    cases h with
    | node hs hl => exact ⟨_, hs, rfl, Or.inl hl⟩
  | fails hs => exact ⟨_, hs, rfl, Or.inr ⟨_, _, _, _, rfl, rfl⟩⟩
  | keysFail hs => exact ⟨_, hs, rfl, Or.inl .keys⟩

theorem given_step (h : FaultyStep N (x, l) N') (hi : Given C c k N)
    (hgot : ∀ p op v, l = .call p op (.got v) → op.key = k → Gives C c v)
    (hwrite : NoOtherWrite C c k l) : Given C c k N' := by
  obtain ⟨s, hs, hnodes, hcalls⟩ := h.node
  have hfetch : ∀ p op since loc e v, l = .call p op e →
      (N.nodes x).pc p = some ⟨op, since, loc⟩ → op.Loads k → Fetches loc e v →
      Gives C c v.view := by
    rintro p op since loc e v rfl hp hop ⟨_, _, _, ⟨c', rfl, rfl⟩ | ⟨rfl, rfl⟩⟩
    · rcases hcalls with hlink | ⟨_, _, _, _, hl, _⟩
      · obtain ⟨w, hreplied, hw⟩ := hlink.fetched_received
        obtain ⟨_, _, _, _, ha, _⟩ := hs.frame (by simp)
        obtain ⟨key, dest, rfl⟩ := ha.fetched_get
        obtain ⟨_, rfl⟩ := hop
        rw [hw]
        exact (hi.replied _ _ w hreplied).received
      · cases hl
    · exact hgot p op _ rfl hop.2
  have hholding := holding_step hs (hi.flights x) (hi.holding x) hfetch
    (fun p op v hl hk hval => hwrite p op v hl hk hval)
  refine ⟨?_, ?_, ?_⟩
  · rw [hnodes]
    exact (Function.forall_update_iff N.nodes fun _ s => Flights s).mpr
      ⟨flights_step hs (hi.flights x), fun y _ => hi.flights y⟩
  · rw [hnodes]
    exact (Function.forall_update_iff N.nodes fun _ s => Holding _ k 0 s).mpr
      ⟨hholding, fun y _ => hi.holding y⟩
  · intro i dest v hv
    rcases hcalls with hlink | ⟨_, _, _, _, rfl, hnone⟩
    · rcases hlink.replied hv with hold | ⟨q, rfl⟩
      · exact hi.replied i dest v hold
      · obtain ⟨since, loc, loc', hp, ha, _⟩ := hs.frame (by simp)
        refine (hi.holding x).late q _ hp ⟨rfl, rfl⟩ (Nat.zero_le _) v ?_
        simp [ha.ret_loc, Loc.Gets]
    · refine hi.replied i dest v ?_
      rw [hnone, Function.update_apply] at hv
      split at hv
      · cases hv
      · exact hv

variable {getter : GoString → SetCall M} {W W' : Callers P M}
  {sinks : GoString × P → CallerSink M} {cacheBytes : GoString → ℤ}
  {ls : List (GoString × Label P)}

theorem CallerStep.net (h : CallerStep C getter W (x, l) W') : FaultyStep W.net (x, l) W'.net := by
  cases h with
  | invoke h | act h | keys h | setPeers h => exact h

theorem CallerStep.got {p : P} {op : Op} {v : ByteView}
    (h : CallerStep C getter W (x, .call p op (.got v)) W') : Gives C (getter op.key) v := by
  cases h with
  | act _ _ _ hs =>
    obtain ⟨hset, rfl⟩ : _ ∧ _ := by simpa only [Uses] using hs
    exact gives_of_set hset

/-- What holds in every state: the values around are what the Getter gives, and so is each sink. -/
structure Filled (C : ProtoCodec M) (getter : GoString → SetCall M) (k : GoString)
    (sinks : GoString × P → CallerSink M) (W : Callers P M) : Prop where
  values : Given C (getter k) k W.net
  fresh : ∀ x p, (W.net.nodes x).pc p = none → W.sinks (x, p) = sinks (x, p)
  sink : ∀ x p dest since loc, (W.net.nodes x).pc p = some ⟨.get k dest, since, loc⟩ →
    SinkAt C (getter k) (sinks (x, p)) (W.sinks (x, p)) loc

/-- A step leaves the other calls and their sinks alone. -/
theorem CallerStep.other (h : CallerStep C getter W (x, l) W') {y : GoString} {q : P}
    (hq : ∀ op e, (x, l) ≠ (y, .call q op e)) :
    (W'.net.nodes y).pc q = (W.net.nodes y).pc q ∧ W'.sinks (y, q) = W.sinks (y, q) := by
  obtain ⟨s, hs, hnodes, _⟩ := h.net.node
  constructor
  · rw [hnodes]
    by_cases hy : y = x
    · subst hy
      rw [Function.update_self]
      exact hs.pc_other fun op e hl => hq op e (by rw [hl])
    · rw [Function.update_of_ne hy]
  · cases h with
    | invoke | keys | setPeers => rfl
    | @act _ _ p op e =>
      refine Function.update_of_ne ?_ ..
      rintro ⟨⟩
      exact hq _ _ rfl

theorem sinkAt_start {g : Group Value} : SinkAt C c s s ((Op.get k dest).start g) := by
  cases dest with
  | none => exact ⟨False.elim, False.elim, nofun⟩
  | some dest => exact ⟨fun _ => rfl, False.elim, nofun⟩

/-- A step of a call that has been invoked, with what it does to the sink. -/
theorem CallerStep.uses {q : P} {op : Op} (h : CallerStep C getter W (x, .call q op e) W')
    (he : e ≠ .invoke) : ∃ since loc n loc', (W.net.nodes x).pc q = some ⟨op, since, loc⟩ ∧
      Act (W.net.nodes x).node (W.net.nodes x).clock op loc e n loc' ∧
      (W'.net.nodes x).pc q = some ⟨op, since, loc'⟩ ∧
      Uses C (getter op.key) (W.sinks (x, q)) (W'.sinks (x, q)) loc e loc' := by
  cases h with
  | invoke => exact (he rfl).elim
  | @act _ _ _ _ N _ _ s' hstep hfr hfr' hu =>
    obtain ⟨s, hs, hnodes, _⟩ := hstep.node
    obtain ⟨since, loc, loc', hp, ha, hpc⟩ := hs.frame he
    have hnext : (N.nodes x).pc q = some ⟨op, since, loc'⟩ := by
      rw [hnodes, Function.update_self, hpc]
      exact Function.update_self ..
    rw [hp] at hfr
    rw [hnext] at hfr'
    cases hfr
    cases hfr'
    exact ⟨since, loc, s.node, loc', hp, ha, hnext, by simpa using hu⟩

/-- A call starts with the sink it is given, and goes on from it. -/
theorem CallerStep.sinkAt {q : P} {op : Op} {since : ℕ}
    (h : CallerStep C getter W (x, .call q op e) W') (hi : Filled C getter k sinks W)
    (hv : ∀ v, loc = .ret (.value v) → Gives C (getter k) v.view)
    (hq : (W'.net.nodes x).pc q = some ⟨.get k dest, since, loc⟩) :
    SinkAt C (getter k) (sinks (x, q)) (W'.sinks (x, q)) loc := by
  by_cases he : e = .invoke
  · subst he
    obtain ⟨s, hs, hnodes, _⟩ := h.net.node
    rw [hnodes, Function.update_self] at hq
    cases hs with
    | invoke _ hnone =>
      simp only [State.setPC, Function.update_self, Option.some.injEq, Frame.mk.injEq] at hq
      obtain ⟨rfl, _, rfl⟩ := hq
      cases h with
      | invoke =>
        rw [hi.fresh x q hnone]
        exact sinkAt_start
      | act _ hfr =>
        rw [hnone] at hfr
        cases hfr
    | act _ ha => exact (ha.ne_invoke rfl).elim
  · obtain ⟨_, _, _, _, hp, ha, hnext, hu⟩ := h.uses he
    rw [hnext] at hq
    cases hq
    exact sinkAt_act ha (hi.sink x q _ _ _ hp) hu hv

theorem filled_step (h : CallerStep C getter W (x, l) W') (hi : Filled C getter k sinks W)
    (hwrite : NoOtherWrite C (getter k) k l) : Filled C getter k sinks W' := by
  have hvalues : Given C (getter k) k W'.net :=
    given_step h.net hi.values (by rintro p op v rfl rfl; exact h.got) hwrite
  refine ⟨hvalues, ?_, ?_⟩
  · intro y q hq
    by_cases hl : ∃ op e, (x, l) = (y, .call q op e)
    · obtain ⟨op, e, hl⟩ := hl
      cases hl
      obtain ⟨s, hs, hnodes, _⟩ := h.net.node
      rw [hnodes, Function.update_self] at hq
      cases hs <;> simp [State.setPC] at hq
    · obtain ⟨hpc, hsink⟩ := h.other fun op e heq => hl ⟨op, e, heq⟩
      rw [hsink]
      exact hi.fresh y q (hpc ▸ hq)
  · intro y q dest since loc hq
    by_cases hl : ∃ op e, (x, l) = (y, .call q op e)
    · obtain ⟨op, e, hl⟩ := hl
      cases hl
      refine h.sinkAt hi ?_ hq
      rintro v rfl
      exact (hvalues.holding x).late q _ hq ⟨rfl, rfl⟩ (Nat.zero_le _) v rfl
    · obtain ⟨hpc, hsink⟩ := h.other fun op e heq => hl ⟨op, e, heq⟩
      rw [hsink]
      exact hi.sink y q dest since loc (hpc ▸ hq)

theorem filled_reachable
    (h : ((callersLTS P C getter cacheBytes sinks).restrict fun _ l _ =>
      NoOtherWrite C (getter k) k l.2).Run ls W) : Filled C getter k sinks W := by
  refine h.invariant (I := fun _ W => Filled C getter k sinks W) ?_ ?_
  · rintro W ⟨⟨hnodes, hcalls, _⟩, hsinks⟩
    refine ⟨⟨fun x => flights_initial (hnodes x), fun x => holding_initial (hnodes x), ?_⟩, ?_, ?_⟩
    · intro i dest v hv
      rw [hcalls] at hv
      cases hv
    · intro x p _
      rw [hsinks]
    · exact fun x p dest since loc hp => (pc_ne_initial (hnodes x) hp).elim
  · rintro ls W ⟨x, l⟩ W' _ hi ⟨hstep, hwrite⟩
    exact filled_step hstep hi hwrite

/-- A `Get` that succeeds leaves its sink as running the Getter on it would have, whether it hit a
cache, ran the Getter, joined another caller's load or asked a peer. -/
theorem get_fills_as_getter {p : P} {v : Value}
    (h : ((callersLTS P C getter cacheBytes sinks).restrict fun _ l _ =>
      NoOtherWrite C (getter k) k l.2).Run
        (ls ++ [(x, .call p (.get k dest) (.ret (.value v)))]) W) :
    Shows C (getter k) (sinks (x, p)) (W.sinks (x, p)) := by
  obtain ⟨W₀, hrun, hstep, _⟩ := h.of_concat
  obtain ⟨_, _, _, _, hp, ha, _, hu⟩ := hstep.uses (by simp)
  obtain ⟨rfl, rfl⟩ := ha.ret_locs
  have hkept : W.sinks (x, p) = W₀.sinks (x, p) := hu
  rw [hkept]
  exact ((filled_reachable hrun).sink x p _ _ _ hp).delivered v rfl

/-- Messages that are their own encoding. -/
def rawCodec : ProtoCodec GoString := ⟨.ok, fun _ b => .ok b⟩

def threeBytes (_ : GoString) : SetCall GoString := .setString [1, 2, 3] .zero

/-- `B` serves its peers through byte slices; the first caller elsewhere has a slice of two bytes,
the others have messages. -/
def mixedSinks (i : GoString × ℕ) : CallerSink GoString :=
  if i.1 = [66] then .allocBytes ⟨[], .withExpire none .zero⟩
  else if i.2 = 0 then .truncBytes ⟨[0, 0], .withExpire none .zero⟩
  else .proto ⟨[], .withExpire none .zero⟩

def mixedLTS : Lib.LTS (Callers ℕ GoString) (GoString × Label ℕ) :=
  (callersLTS ℕ rawCodec threeBytes (fun _ => 1000) mixedSinks).restrict fun _ l _ =>
    NoOtherWrite rawCodec (threeBytes [107]) [107] l.2

theorem mixed_invoke {ls : List (GoString × Label ℕ)} {W : Callers ℕ GoString} {x : GoString}
    {p : ℕ} {op : Op} {s : State ℕ} {T : PeerCalls ℕ} (h : mixedLTS.Run ls W)
    (hs : Step (W.net.nodes x) (.call p op .invoke) s)
    (hl : Link W.net.calls x (.call p op .invoke) T)
    (hop : op = .get [107] (some ((W.sinks (x, p)).sink rawCodec))) :
    mixedLTS.Run (ls ++ [(x, .call p op .invoke)])
      { W with net := ⟨Function.update W.net.nodes x s, T, W.net.keysCalls⟩ } := by
  refine h.step ⟨.invoke (.net (.call hs hl)) ?_, nofun⟩
  rintro key dest rfl
  injection hop with _ hdest
  exact Option.some.inj hdest

theorem mixed_act {ls : List (GoString × Label ℕ)} {W : Callers ℕ GoString} {x : GoString}
    {p : ℕ} {op : Op} {e : Event} {s : State ℕ} {T : PeerCalls ℕ} {fr fr' : Frame}
    {s' : CallerSink GoString} (h : mixedLTS.Run ls W)
    (hs : Step (W.net.nodes x) (.call p op e) s) (hl : Link W.net.calls x (.call p op e) T)
    (hfr : (W.net.nodes x).pc p = some fr) (hfr' : s.pc p = some fr')
    (hu : Uses rawCodec (threeBytes op.key) (W.sinks (x, p)) s' fr.loc e fr'.loc)
    (he : e ≠ .write) :
    mixedLTS.Run (ls ++ [(x, .call p op e)])
      { net := ⟨Function.update W.net.nodes x s, T, W.net.keysCalls⟩
        sinks := Function.update W.sinks (x, p) s' } := by
  refine h.step ⟨.act (.net (.call hs hl)) hfr ?_ hu, ?_⟩
  · simpa using hfr'
  · rintro _ _ _ ⟨⟩
    exact (he rfl).elim

theorem mixed_plain {ls : List (GoString × Label ℕ)} {W : Callers ℕ GoString} {x : GoString}
    {p : ℕ} {op : Op} {e : Event} {s : State ℕ} {fr fr' : Frame} (h : mixedLTS.Run ls W)
    (hs : Step (W.net.nodes x) (.call p op e) s) (he : e.plain = true) (hw : e ≠ .write)
    (hfr : (W.net.nodes x).pc p = some fr) (hfr' : s.pc p = some fr')
    (hu : Uses rawCodec (threeBytes op.key) (W.sinks (x, p)) (W.sinks (x, p)) fr.loc e fr'.loc) :
    mixedLTS.Run (ls ++ [(x, .call p op e)])
      { W with net := ⟨Function.update W.net.nodes x s, W.net.calls, W.net.keysCalls⟩ } := by
  have hrun := mixed_act h hs (.of_plain he) hfr hfr' hu hw
  rwa [Function.update_eq_self] at hrun

def mixedGet (i : GoString × ℕ) : Op := .get [107] (some ((mixedSinks i).sink rawCodec))

/-- The caller with a message joins the load of the one with the slice, which asks `B`. -/
theorem get_fills_as_getter_mixed : ∃ ls W v,
    mixedLTS.Run (ls ++ [([65], .call 1 (mixedGet ([65], 1)) (.ret (.value v)))]) W ∧
    (W.sinks ([65], 1)).content = .message [1, 2, 3] ∧
    Shows rawCodec (threeBytes [107]) (mixedSinks ([65], 1)) (W.sinks ([65], 1)) := by
  have h₀ : mixedLTS.Run [] ⟨pair, mixedSinks⟩ :=
    .init ⟨pair_init, rfl⟩
  have h₁ := mixed_invoke (x := [65]) h₀ (Step.invoke (p := 0) (mixedGet ([65], 0)) rfl)
    (.inside trivial (fun _ => trivial) nofun) rfl
  have h₂ := mixed_plain (x := [65]) h₁ (Step.act (p := 0) rfl (.next .zero rfl))
    rfl nofun rfl rfl rfl
  have h₃ := mixed_plain (x := [65]) h₂ (Step.act (p := 0) rfl (.miss .zero rfl))
    rfl nofun rfl rfl rfl
  have h₄ := mixed_plain (x := [65]) h₃ (Step.act (p := 0) rfl (.lead rfl))
    rfl nofun rfl rfl rfl
  have h₅ := mixed_plain (x := [65]) h₄ (Step.act (p := 0) rfl (.body (.next .zero rfl)))
    rfl nofun rfl rfl rfl
  have h₆ := mixed_plain (x := [65]) h₅ (Step.act (p := 0) rfl (.body (.miss .zero rfl)))
    rfl nofun rfl rfl rfl
  have h₇ := mixed_plain (x := [65]) h₆ (Step.act (p := 0) rfl (.body (.pickRemote rfl)))
    rfl nofun rfl rfl rfl
  have h₈ := mixed_act (x := [65]) h₇ (Step.act (p := 0) rfl (.body .send)) (.send rfl) rfl rfl rfl
    nofun
  have h₉ := mixed_invoke (x := [65]) h₈ (Step.invoke (p := 1) (mixedGet ([65], 1)) rfl)
    (.inside trivial (fun _ => trivial) nofun) rfl
  have h₁₀ := mixed_plain (x := [65]) h₉ (Step.act (p := 1) rfl (.next .zero rfl))
    rfl nofun rfl rfl rfl
  have h₁₁ := mixed_plain (x := [65]) h₁₀ (Step.act (p := 1) rfl (.miss .zero rfl))
    rfl nofun rfl rfl rfl
  have h₁₂ := mixed_plain (x := [65]) h₁₁ (Step.act (p := 1) rfl (.join rfl))
    rfl nofun rfl rfl rfl
  have h₁₃ := mixed_invoke (x := [66]) h₁₂ (Step.invoke (p := 0) _ rfl)
    (.arrive (i := ⟨[65], 0, ⟨0, ⟨[66], false⟩⟩⟩) rfl rfl)
    (congrArg (fun d => Op.get [107] (some d)) (CallerSink.sink_allocBytes rawCodec _).symm)
  have h₁₄ := mixed_plain (x := [66]) h₁₃ (Step.act (p := 0) rfl (.next .zero rfl))
    rfl nofun rfl rfl rfl
  have h₁₅ := mixed_plain (x := [66]) h₁₄ (Step.act (p := 0) rfl (.miss .zero rfl))
    rfl nofun rfl rfl rfl
  have h₁₆ := mixed_plain (x := [66]) h₁₅ (Step.act (p := 0) rfl (.lead rfl))
    rfl nofun rfl rfl rfl
  have h₁₇ := mixed_plain (x := [66]) h₁₆ (Step.act (p := 0) rfl (.body (.next .zero rfl)))
    rfl nofun rfl rfl rfl
  have h₁₈ := mixed_plain (x := [66]) h₁₇ (Step.act (p := 0) rfl (.body (.miss .zero rfl)))
    rfl nofun rfl rfl rfl
  have h₁₉ := mixed_plain (x := [66]) h₁₈ (Step.act (p := 0) rfl (.body (.pickLocal rfl)))
    rfl nofun rfl rfl rfl
  have h₂₀ := mixed_plain (x := [66]) h₁₉ (Step.act (p := 0) rfl (.body .callGetter))
    rfl nofun rfl rfl rfl
  have h₂₁ := mixed_act (x := [66]) h₂₀ (Step.act (p := 0) rfl (.body (.got _)))
    (.inside trivial nofun nofun) rfl rfl ⟨rfl, rfl⟩ nofun
  have h₂₂ := mixed_act (x := [66]) h₂₁ (Step.act (p := 0) rfl (.body .fillMain))
    (.inside trivial nofun nofun) rfl rfl rfl nofun
  have h₂₃ := mixed_plain (x := [66]) h₂₂ (Step.act (p := 0) rfl .assign)
    rfl nofun rfl rfl rfl
  have h₂₄ := mixed_plain (x := [66]) h₂₃ (Step.act (p := 0) rfl .done)
    rfl nofun rfl rfl rfl
  have h₂₅ := mixed_plain (x := [66]) h₂₄ (Step.act (p := 0) rfl .delete)
    rfl nofun rfl rfl rfl
  have h₂₆ := mixed_act (x := [66]) h₂₅ (Step.act (p := 0) rfl .ret)
    (.reply (i := ⟨[65], 0, ⟨0, ⟨[66], false⟩⟩⟩) _ rfl rfl) rfl rfl rfl nofun
  have h₂₇ := mixed_act (x := [65]) h₂₆ (Step.act (p := 0) rfl (.body (.fetched _)))
    (.receive (c := ⟨0, ⟨[66], false⟩⟩) rfl rfl) rfl rfl rfl nofun
  have h₂₈ := mixed_act (x := [65]) h₂₇ (Step.act (p := 0) rfl (.body .fillHot))
    (.inside trivial nofun nofun) rfl rfl rfl nofun
  have h₂₉ := mixed_plain (x := [65]) h₂₈ (Step.act (p := 0) rfl .assign)
    rfl nofun rfl rfl rfl
  have h₃₀ := mixed_plain (x := [65]) h₂₉ (Step.act (p := 0) rfl .done)
    rfl nofun rfl rfl rfl
  have h₃₁ := mixed_act (x := [65]) h₃₀ (Step.act (p := 1) rfl (.wake rfl))
    (.inside trivial nofun nofun) rfl rfl rfl nofun
  have h₃₂ := mixed_act (x := [65]) h₃₁ (Step.act (p := 1) rfl .ret)
    (.inside trivial nofun fun _ _ i _ hi => by
      by_cases hij : i = ⟨[65], 0, ⟨0, ⟨[66], false⟩⟩⟩
      · subst hij
        cases hi
      · simp [hij, pair] at hi) rfl rfl rfl nofun
  exact ⟨_, _, _, h₃₂, rfl, get_fills_as_getter h₃₂⟩

end Groupcache.Concurrent
