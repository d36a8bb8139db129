import Groupcache.Panics
import Groupcache.PeerCalls
import Groupcache.PeerFailures

/-! Calls come to an end in a cluster too, where they wait for calls at other nodes: with rings that
do not change, a `Get` is sent on along a chain of nodes, and no other call waits for a call. -/
namespace Groupcache.Concurrent

open Transport Peer

variable {P : Type} [DecidableEq P] {cacheBytes : GoString → ℤ} {ls : List (GoString × Label P)}
  {N M : Net P} {x y : GoString} {l : Label P} {s : State P} {T : PeerCalls P} {K : KeysCalls P}
  {p q : P} {fr : Frame} {op : Op} {i : Client} {b b' : Body} {e : Event} {n n' : Node}
  {time since c : ℕ} {g : Group Value} {loc loc' : Loc} {nodes : GoString → Prop}
  {inst : GoString → Instance}

/-- What a run of the cluster looks like at one of its nodes. -/
theorem Net.node_run (h : (netLTS P cacheBytes).Run ls N) (x : GoString) :
    (nodeLTS P (cacheBytes x)).Run ((ls.filter (·.1 = x)).map (·.2)) (N.nodes x) := by
  induction h with
  | init hi => exact .init (hi.1 x)
  | step _ hs ih =>
    cases hs with
    | @node y l s T _ hs _ =>
      by_cases hy : y = x
      · subst hy
        simpa using ih.step hs
      · simpa [hy, Ne.symm hy] using ih

/-- The step is one of the nodes', leaves the peers as they are, and is neither a panic of a Getter
nor a step of a `RemoveKeys`. -/
def Steady (nodes : GoString → Prop) (l : GoString × Label P) : Prop :=
  nodes l.1 ∧ (∀ peers, l.2 ≠ .setPeers peers) ∧ (∀ p op, l.2 ≠ .call p op (.failed none)) ∧
    ∀ p op e, l.2 ≠ .keys p op e

/-- The clients that a function calls are among those of the instance. -/
def Body.Targets (inst : Instance) (op : Op) : Body → Prop
  | .call c | .calling c _ => inst.pickPeer op.key = (some c, true)
  | .broadcast todo flying _ => ∀ c ∈ todo ++ flying, c ∈ inst.getAllPeers
  | _ => True

theorem broadcast_targets (op : Op) (owner : Option Client) (inst : Instance) :
    (op.broadcast owner inst.getAllPeers).Targets inst op := by
  have hfilter : ∀ f : Client → Bool,
      (Body.broadcast (inst.getAllPeers.filter f) [] []).Targets inst op := by
    intro f c hc
    rw [List.append_nil] at hc
    exact (List.mem_filter.mp hc).1
  unfold Op.broadcast
  split
  · split
    · exact hfilter _
    · split
      · exact nofun
      · trivial
  · exact hfilter _

theorem BodyStep.targets (h : BodyStep n time op b e g b') (hb : b.Targets n.inst op) :
    b'.Targets n.inst op := by
  cases h with
  | pickRemote hpick => exact hpick
  | pickLocal => cases op <;> trivial
  | send => exact hb
  | peers => exact broadcast_targets _ _ _
  | sendPeer hc => exact fun c hc' => hb c ((perm_sendPeer hc).mem_iff.mp hc')
  | answered => exact fun c hc => hb c ((List.erase_sublist.append_left _).subset hc)
  | _ => trivial

/-- A function waits for a client since it has called it, and until the client answers. -/
theorem BodyStep.asks_cases (h : BodyStep n time op b e g b') (hd : b.Distinct)
    (hb : b'.Asks i) : e = .send i ∨ b.Asks i ∧ ¬e.Answers i := by
  cases h with
  | send => exact Or.inl (by rw [show _ = i from hb])
  | pickLocal => cases op <;> exact hb.elim
  | @peers op owner =>
    rcases broadcast_cases op owner n.inst.getAllPeers with ⟨_, hcast⟩ | hcast <;>
      rw [hcast] at hb
    · cases hb
    · exact hb.elim
  | sendPeer =>
    rcases List.mem_cons.mp hb with rfl | hb
    · exact Or.inl rfl
    · exact Or.inr ⟨hb, id⟩
  | @answered _ c todo flying =>
    have hnd : flying.Nodup := (List.nodup_append.mp hd).2.1
    refine Or.inr ⟨List.mem_of_mem_erase hb, ?_⟩
    rintro rfl
    exact hnd.not_mem_erase hb
  | _ => exact hb.elim

theorem reply_answers {a : Answer} (h : op.reply i a = some e) : e.Answers i := by
  unfold Op.reply at h
  split at h <;> cases h <;> rfl

/-- A peer call is on record until its client answers. -/
theorem Link.kept {T' : PeerCalls P} (h : Link T x l T') {j : PeerCall P} (hj : T j ≠ none) :
    T' j ≠ none ∨ ∃ op e, x = j.node ∧ l = .call j.proc op e ∧ e.Answers j.client := by
  have hupdate : ∀ {k : PeerCall P} {pr : Progress P},
      Function.update T k (some pr) j ≠ none := by
    intro k pr
    by_cases hjk : j = k
    · simp [hjk]
    · simpa [hjk] using hj
  cases h with
  | inside | keys | setPeers => exact Or.inl hj
  | send | arrive | reply => exact Or.inl hupdate
  | @receive p op c a e _ he =>
    by_cases hjk : j = ⟨x, p, c⟩
    · subst hjk
      exact Or.inr ⟨op, e, rfl, rfl, reply_answers he⟩
    · exact Or.inl (by simpa [hjk] using hj)

theorem Link.sent {T' : PeerCalls P} (h : Link T x (.call p op (.send i)) T')
    (hi : i.info.isSelf = false) : T' ⟨x, p, i⟩ ≠ none := by
  cases h with
  | inside hself => cases hi.symm.trans hself
  | send => simp
  | receive _ he => exact (reply_answers he).elim

/-- The frames of all nodes. -/
def Net.pc (N : Net P) (a : GoString × P) : Option Frame := (N.nodes a.1).pc a.2

/-- The state of a cluster whose nodes keep their instances. -/
structure Linked (nodes : GoString → Prop) (inst : GoString → Instance) (N : Net P) : Prop where
  wired : Wired N
  inst_eq : ∀ y, (N.nodes y).node.inst = inst y
  member : ∀ y q fr, (N.nodes y).pc q = some fr → nodes y
  asked : ∀ y q op since c b i, (N.nodes y).pc q = some ⟨op, since, .lead c b⟩ → b.Asks i →
    i.info.isSelf = false → N.calls ⟨y, q, i⟩ ≠ none
  targets : ∀ y q op since c b, (N.nodes y).pc q = some ⟨op, since, .lead c b⟩ →
    b.Targets (inst y) op
  finite_pc : {a | N.pc a ≠ none}.Finite
  finite_calls : {i | N.calls i ≠ none}.Finite

theorem Linked.asked_step (hN : Linked nodes inst N) (hs : Step (N.nodes x) l s)
    (hl : Link N.calls x l T)
    (hq : (Function.update N.nodes x s y).pc q = some ⟨op, since, .lead c b⟩) (hb : b.Asks i)
    (hi : i.info.isSelf = false) : T ⟨y, q, i⟩ ≠ none := by
  have hkept : ∀ b₀, (N.nodes y).pc q = some ⟨op, since, .lead c b₀⟩ → b₀.Asks i →
      (∀ op e, x = y → l = .call q op e → ¬e.Answers i) → T ⟨y, q, i⟩ ≠ none := by
    intro b₀ hq hb₀ hl'
    rcases hl.kept (hN.asked y q op since c b₀ i hq hb₀ hi) with hkept | ⟨op', e, hx, hl, he⟩
    · exact hkept
    · exact (hl' op' e hx hl he).elim
  rcases Net.frame_cases hs hq with ⟨hold, hother⟩ | ⟨e, loc, rfl, rfl, hold, ha⟩ |
    ⟨_, _, _, hloc⟩
  · exact hkept b hold hb fun op e hx hl => (hother op e hx hl).elim
  · rcases ha.lead_cases with ⟨rfl, _, hbody⟩ | ⟨b₀, rfl, hstep⟩
    · cases op <;> simp [hbody, Op.body, Body.Asks] at hb
    · rcases hstep.asks_cases (hN.wired.distinct _ _ _ _ _ _ hold) hb with rfl | ⟨hb₀, he⟩
      · exact hl.sent hi
      · refine hkept b₀ hold hb₀ ?_
        rintro _ _ _ ⟨⟩
        exact he
  · exact (start_ne_lead op hloc.symm).elim

theorem Linked.targets_step (hN : Linked nodes inst N) (hs : Step (N.nodes x) l s)
    (hq : (Function.update N.nodes x s y).pc q = some ⟨op, since, .lead c b⟩) :
    b.Targets (inst y) op := by
  rcases Net.frame_cases hs hq with ⟨hold, _⟩ | ⟨e, loc, rfl, rfl, hold, ha⟩ | ⟨_, _, _, hloc⟩
  · exact hN.targets y q op since c b hold
  · rcases ha.lead_cases with ⟨rfl, _, hbody⟩ | ⟨b₀, rfl, hstep⟩
    · cases op <;> rw [hbody] <;> trivial
    · have htargets := hN.targets x q op since c b₀ hold
      rw [← hN.inst_eq x] at htargets ⊢
      exact hstep.targets htargets
  · exact (start_ne_lead op hloc.symm).elim

theorem Act.inst_eq (h : Act n time op loc e n' loc') : n'.inst = n.inst := by
  cases h with
  | join | lead => cases op <;> rfl
  | _ => rfl

theorem Step.inst_eq {s t : State P} (h : Step s l t) (hl : ∀ peers, l ≠ .setPeers peers) :
    t.node.inst = s.node.inst := by
  cases h with
  | invoke op _ => cases op <;> rfl
  | act _ ha => exact ha.inst_eq
  | keys => rfl
  | setPeers _ peers => exact (hl peers rfl).elim

theorem Net.pc_setPC (N : Net P) (x : GoString) (p : P) (fr : Frame) (n : Node) (T : PeerCalls P)
    (K : KeysCalls P) :
    Net.pc ⟨Function.update N.nodes x ((N.nodes x).setPC p fr n), T, K⟩ =
      Function.update N.pc (x, p) (some fr) := by
  funext ⟨y, q⟩
  by_cases hy : y = x
  · subst hy
    by_cases hq : q = p <;> simp [Net.pc, State.setPC, hq]
  · simp [Net.pc, hy]

/-- A step moves at most one frame, one of the node's. -/
theorem Net.pc_step (hs : Step (N.nodes x) l s) (T : PeerCalls P) (K : KeysCalls P) :
    Net.pc ⟨Function.update N.nodes x s, T, K⟩ = N.pc ∨ ∃ p fr,
      Net.pc ⟨Function.update N.nodes x s, T, K⟩ = Function.update N.pc (x, p) (some fr) := by
  cases hs with
  | invoke | act => exact Or.inr ⟨_, _, Net.pc_setPC N x _ _ _ T K⟩
  | keys | setPeers =>
    refine Or.inl (funext fun ⟨y, q⟩ => ?_)
    by_cases hy : y = x
    · subst hy
      simp [Net.pc]
    · simp [Net.pc, hy]

theorem finite_update {α β : Type*} [DecidableEq α] {f : α → Option β} {a : α} {o : Option β}
    (hf : {i | f i ≠ none}.Finite) : {i | Function.update f a o i ≠ none}.Finite := by
  refine (hf.insert a).subset fun i hi => ?_
  by_cases hia : i = a
  · exact Or.inl hia
  · exact Or.inr (by simpa [hia] using hi)

/-- A step changes at most one peer call. -/
theorem Link.update_cases {T' : PeerCalls P} (h : Link T x l T') :
    T' = T ∨ ∃ j o, T' = Function.update T j o := by
  cases h with
  | inside | keys | setPeers => exact Or.inl rfl
  | send | arrive | reply | receive => exact Or.inr ⟨_, _, rfl⟩

theorem linked_step (hN : Linked nodes inst N) (hs : Step (N.nodes x) l s)
    (hl : Link N.calls x l T) (hsteady : Steady nodes (x, l))
    (hpeers : (inst x).getAllPeers.Nodup) :
    Linked nodes inst ⟨Function.update N.nodes x s, T, K⟩ where
  wired := wired_step hN.wired hs hl (by rwa [hN.inst_eq])
  inst_eq y := by
    by_cases hy : y = x
    · subst hy
      simp only [Function.update_self, hs.inst_eq hsteady.2.1, hN.inst_eq]
    · simp only [Function.update_of_ne hy, hN.inst_eq]
  member y q fr hq := by
    rcases Net.frame_cases hs hq with ⟨hold, _⟩ | ⟨_, _, rfl, _⟩ | ⟨rfl, _⟩
    · exact hN.member y q fr hold
    · exact hsteady.1
    · exact hsteady.1
  asked _ _ _ _ _ _ _ hq hb hi := hN.asked_step hs hl hq hb hi
  targets _ _ _ _ _ _ hq := hN.targets_step hs hq
  finite_pc := by
    rcases Net.pc_step hs T K with hpc | ⟨p, fr, hpc⟩ <;> rw [hpc]
    · exact hN.finite_pc
    · exact finite_update hN.finite_pc
  finite_calls := by
    rcases hl.update_cases with rfl | ⟨j, o, rfl⟩
    · exact hN.finite_calls
    · exact finite_update hN.finite_calls

/-- The step is a user's new call. -/
def NewCall (N : Net P) (l : GoString × Label P) (M : Net P) : Prop :=
  ((∃ q op, l.2 = .call q op .invoke) ∨ ∃ q op, l.2 = .keys q op .invoke) ∧
    M.calls = N.calls ∧ M.keysCalls = N.keysCalls

/-- The step is one of a call that has been made already. -/
def Onward (nodes : GoString → Prop) (N : Net P) (l : GoString × Label P) (M : Net P) : Prop :=
  Steady nodes l ∧ ¬NewCall N l M

/-- Some call can go on. -/
def GoesOn (nodes : GoString → Prop) (N : Net P) : Prop := ∃ l M, NetStep N l M ∧ Onward nodes N l M

theorem Link.of_inside (he : e.Inside) (hinvoke : e ≠ .invoke) (hret : ∀ a, e ≠ .ret a) :
    Link T x (.call p op e) T :=
  .inside he (fun h => (hinvoke h).elim) fun a h => (hret a h).elim

theorem GoesOn.of_act (hx : nodes x) (hp : (N.nodes x).pc p = some ⟨op, since, loc⟩)
    (ha : Act (N.nodes x).node (N.nodes x).clock op loc e n loc') (hne : e ≠ .failed none)
    (hl : Link N.calls x (.call p op e) T) : GoesOn nodes N := by
  refine ⟨_, _, .call (.act hp ha) hl, ⟨hx, by simp, ?_, by simp⟩, ?_⟩
  · rintro _ _ ⟨⟩
    exact hne rfl
  · rintro ⟨⟨_, _, ⟨⟩⟩ | ⟨_, _, ⟨⟩⟩, _⟩
    exact ha.ne_invoke rfl

/-- A call returns to its user, or to the peer call that it serves. -/
theorem Linked.exists_ret (hN : Linked nodes inst N) {a : Answer}
    (hp : (N.nodes x).pc p = some ⟨op, since, .ret a⟩) :
    ∃ T, Link N.calls x (.call p op (.ret a)) T := by
  by_cases hserving : ∃ j op', N.calls j = some (.serving op' p) ∧ j.client.hashKey = x
  · obtain ⟨j, op', hj, rfl⟩ := hserving
    obtain ⟨since', loc, hp', _⟩ := hN.wired.server j op' p hj
    rw [hp] at hp'
    cases hp'
    exact ⟨_, .reply a hj rfl⟩
  · exact ⟨_, .inside trivial nofun fun _ _ j op' hj hx => hserving ⟨j, op', hj, hx⟩⟩

/-- A call that leads no execution can go on, unless it waits for a leader. -/
theorem Linked.goesOn_of_not_lead (hN : Linked nodes inst N)
    (hp : (N.nodes x).pc p = some ⟨op, since, loc⟩) (hfits : loc.Fits op)
    (hret : loc ≠ .returned) (hlead : ∀ c b, loc ≠ .lead c b)
    (hwait : ∀ c, loc = .wait c → (((N.nodes x).node.flights op.flight).calls c).wg = false) :
    GoesOn nodes N := by
  obtain ⟨e, n, loc', ha⟩ :=
    Act.exists_of_fits (N.nodes x).node (N.nodes x).clock hfits hret hwait
  have hact : ∀ {T}, e ≠ .failed none → Link N.calls x (.call p op e) T → GoesOn nodes N :=
    fun hne hl => .of_act (hN.member x p _ hp) hp ha hne hl
  cases ha with
  | body | assign => exact (hlead _ _ rfl).elim
  | ret =>
    obtain ⟨T, hl⟩ := hN.exists_ret hp
    exact hact nofun hl
  | _ => exact hact nofun (.of_inside trivial nofun nofun)

/-- The function is about to call a peer, or waits for one. -/
def Body.CallsPeers : Body → Prop
  | .call _ | .calling _ _ | .broadcast _ _ _ => True
  | _ => False

theorem BodyStep.inside (h : BodyStep n time op b e g b') (hb : ¬b.CallsPeers) :
    e.Inside ∧ e ≠ .invoke ∧ ∀ a, e ≠ .ret a := by
  cases h with
  | send | fetched | fetchFinal | fetchGiveUp | fetchFallBack | ownerDone | ownerFailed | sendPeer
  | answered | wait => exact (hb trivial).elim
  | _ => exact ⟨trivial, nofun, nofun⟩

/-- The answer of a peer's call lets the function go on that waits for it. -/
theorem BodyStep.exists_of_reply (n : Node) (time : ℕ) {a : Answer} (hb : b.Asks i)
    (hfits : b.Fits op) (he : op.reply i a = some e) : ∃ g b', BodyStep n time op b e g b' := by
  cases b with
  | calling c start =>
    cases hb
    unfold Op.reply at he
    split at he <;> cases he
    · exact ⟨_, _, .fetched _⟩
    · exact ⟨_, _, .fetchFinal (Cluster.remoteErr_isFinal _)⟩
    · exact ⟨_, _, .ownerDone nofun⟩
    · exact ⟨_, _, .ownerDone nofun⟩
  | broadcast todo flying errs =>
    unfold Op.reply at he
    split at he <;> cases he
    · exact (hfits rfl).elim
    · exact (hfits rfl).elim
    · exact ⟨_, _, .answered none hb (by simp) (by simp)⟩
    · exact ⟨_, _, .answered none hb (by simp) (by simp)⟩
  | _ => exact hb.elim

/-- What is needed of the nodes besides: calls stand where their kind gets to, singleflight groups
are in order, and the answers of peers' calls are ones that their callers can receive. -/
structure Lively (nodes : GoString → Prop) (inst : GoString → Instance) (N : Net P) : Prop
    extends Linked nodes inst N where
  fits : ∀ y q fr, (N.nodes y).pc q = some fr → fr.loc.Fits fr.op
  flights : ∀ y, Flights (N.nodes y)
  replies : ∀ j op a, N.calls j = some (.replied op a) → ∃ e, op.reply j.client a = some e

/-- The peers of a node are nodes. -/
def Closed (nodes : GoString → Prop) (inst : GoString → Instance) : Prop :=
  ∀ x, nodes x → (∀ c ∈ (inst x).getAllPeers, nodes c.hashKey) ∧
    ∀ key c, (inst x).pickPeer key = (some c, true) → nodes c.hashKey

theorem Body.Targets.member (hclosed : Closed nodes inst) (hx : nodes x)
    (hb : b.Targets (inst x) op) (hi : b.Asks i) : nodes i.hashKey := by
  cases b with
  | calling c start =>
    cases hi
    exact (hclosed x hx).2 _ _ hb
  | broadcast todo flying errs => exact (hclosed x hx).1 i (hb i (List.mem_append_right _ hi))
  | _ => exact hi.elim

/-- Whoever waits for a peer can go on, or the peer can, unless a call that serves it cannot. -/
theorem Lively.goesOn_of_asks [Infinite P] (hN : Lively nodes inst N) (hclosed : Closed nodes inst)
    (hp : (N.nodes x).pc p = some ⟨op, since, .lead c b⟩) (hi : b.Asks i)
    (hself : i.info.isSelf = false)
    (hserve : ∀ q, N.calls ⟨x, p, i⟩ = some (.serving op q) → GoesOn nodes N) :
    GoesOn nodes N := by
  have hx := hN.member x p _ hp
  obtain ⟨pr, hpr⟩ := Option.ne_none_iff_exists'.mp (hN.asked x p op since c b i hp hi hself)
  obtain ⟨_, _, _, _, hasker, _⟩ := hN.wired.asker _ pr hpr
  have hop : pr.op = op := by
    rw [hp] at hasker
    cases hasker
    rfl
  cases pr with
  | sent op' =>
    cases hop
    have hy : nodes i.hashKey := (hN.targets x p _ since c b hp).member hclosed hx hi
    obtain ⟨q, hq⟩ : ∃ q, (N.nodes i.hashKey).pc q = none := by
      have hfin : {q | (N.nodes i.hashKey).pc q ≠ none}.Finite :=
        hN.finite_pc.preimage (f := fun q => (i.hashKey, q)) (by simp [Set.InjOn])
      obtain ⟨q, hq⟩ := hfin.exists_notMem
      exact ⟨q, by simpa using hq⟩
    refine ⟨_, _, .call (.invoke _ hq) (.arrive hpr rfl), ⟨hy, by simp, by simp, by simp⟩, ?_⟩
    rintro ⟨_, hcalls, _⟩
    have hsame := congrFun hcalls ⟨x, p, i⟩
    simp [hpr] at hsame
  | serving op' q =>
    cases hop
    exact hserve q hpr
  | replied op' a =>
    cases hop
    obtain ⟨e, he⟩ := hN.replies _ _ a hpr
    obtain ⟨g, b', hb⟩ := BodyStep.exists_of_reply (N.nodes x).node (N.nodes x).clock hi
      (hN.fits x p _ hp) he
    refine .of_act hx hp (.body hb) ?_ (.receive hpr he)
    rintro rfl
    exact reply_answers he

/-- A leader can go on, unless a call that serves it cannot. -/
theorem Lively.goesOn_of_lead [Infinite P] (hN : Lively nodes inst N) (hclosed : Closed nodes inst)
    (hp : (N.nodes x).pc p = some ⟨op, since, .lead c b⟩)
    (hserve : ∀ i q, b.Asks i → N.calls ⟨x, p, i⟩ = some (.serving op q) → GoesOn nodes N) :
    GoesOn nodes N := by
  have hx := hN.member x p _ hp
  have hfits : b.Fits op := hN.fits x p _ hp
  by_cases hpeers : b.CallsPeers
  · cases b with
    | call i =>
      have hi := Instance.remote_of_pick (hN.targets x p op since c _ hp)
      exact .of_act hx hp (.body .send) nofun (.send hi)
    | calling i start =>
      have hi := Instance.remote_of_pick (hN.targets x p op since c _ hp)
      exact hN.goesOn_of_asks hclosed hp rfl hi fun q hq => hserve i q rfl hq
    | broadcast todo flying errs =>
      cases todo with
      | cons i todo =>
        cases hi : i.info.isSelf with
        | true =>
          exact .of_act hx hp (.body (.sendPeer List.mem_cons_self)) nofun
            (.of_inside hi nofun nofun)
        | false => exact .of_act hx hp (.body (.sendPeer List.mem_cons_self)) nofun (.send hi)
      | nil =>
        cases flying with
        | nil => exact .of_act hx hp (.body .wait) nofun (.of_inside trivial nofun nofun)
        | cons i flying =>
          cases hi : i.info.isSelf with
          | true =>
            exact .of_act hx hp (.body (.answered none List.mem_cons_self (by simp) (by simp)))
              nofun (.of_inside ⟨hi, rfl⟩ nofun nofun)
          | false =>
            exact hN.goesOn_of_asks hclosed hp List.mem_cons_self hi
              fun q hq => hserve i q List.mem_cons_self hq
    | _ => exact hpeers.elim
  · by_cases hends : ∃ o pop, b = .ends o pop
    · obtain ⟨o, pop, rfl⟩ := hends
      exact .of_act hx hp .assign nofun (.of_inside trivial nofun nofun)
    · obtain ⟨e, g, b', hb, hne⟩ := BodyStep.exists_of_fits (N.nodes x).node (N.nodes x).clock
        hfits fun o pop hb => hends ⟨o, pop, hb⟩
      obtain ⟨he, hinvoke, hret⟩ := hb.inside hpeers
      exact .of_act hx hp (.body hb) hne (.of_inside he hinvoke hret)

theorem Op.fromUser_of_fits (h : b.Fits op) : op.FromUser := by
  cases b with
  | lookup | fillHot | callGetter | getter | fillMain =>
    cases op with
    | get => trivial
    | _ => exact h.elim
  | write | peers | broadcast => exact Op.fromUser_of_writes h
  | pick | call | calling | ends => exact h

/-- The hops that a `Get` of the key makes from a node. -/
def Hops (nodes : GoString → Prop) (inst : GoString → Instance) (d : GoString → GoString → ℕ) :
    Prop :=
  ∀ key x y, nodes x → Forwards inst key x y → d key y < d key x

omit [DecidableEq P] in
/-- A load waits for a peer that the key is sent on to. -/
theorem Lively.forwards (hN : Lively nodes inst N) (hget : op.IsGet)
    (hp : (N.nodes x).pc p = some ⟨op, since, .lead c b⟩) (hi : b.Asks i) :
    Forwards inst op.key x i.hashKey := by
  have hfits : b.Fits op := hN.fits x p _ hp
  cases b with
  | calling c start =>
    cases hi
    exact ⟨_, hN.targets x p op since _ _ hp, rfl⟩
  | broadcast => exact (hfits hget.flight_eq).elim
  | _ => exact hi.elim

theorem Op.served_get (hop : op.FromUser) (h : op.served.FromUser) :
    op.IsGet ∧ op.served.key = op.key := by
  cases op with
  | get => exact ⟨trivial, rfl⟩
  | set | remove => exact h.elim
  | remoteSet | localRemove => exact hop.elim

/-- As long as some call has not returned, some call can go on. -/
theorem Lively.goesOn [Infinite P] (hN : Lively nodes inst N) (hclosed : Closed nodes inst)
    {d : GoString → GoString → ℕ} (hd : Hops nodes inst d)
    (hp : (N.nodes x).pc p = some fr) (hret : fr.loc ≠ .returned) : GoesOn nodes N := by
  -- The chain of calls that wait for each other follows the hops of the key.
  induction hk : d fr.op.key x using Nat.strong_induction_on generalizing x p fr with
  | _ k ih =>
    have hlead : ∀ {p op since c b}, (N.nodes x).pc p = some ⟨op, since, .lead c b⟩ →
        op.key = fr.op.key → GoesOn nodes N := by
      intro p op since c b hp hkey
      refine hN.goesOn_of_lead hclosed hp fun i q hi hserving => ?_
      obtain ⟨since', loc, hq, hloc⟩ := hN.wired.server _ op q hserving
      by_cases huser : op.served.FromUser
      · obtain ⟨hget, hserved⟩ := Op.served_get (Op.fromUser_of_fits (hN.fits x p _ hp)) huser
        have hlt := hd op.key x _ (hN.member x p _ hp) (hN.forwards hget hp hi)
        rw [hkey, hk] at hlt
        exact ih _ hlt hq hloc (by rw [hserved, hkey])
      · have hfits := hN.fits _ q _ hq
        rcases hN.wired.outside _ q _ hq huser with rfl | ⟨a, rfl⟩ | rfl
        · exact hN.goesOn_of_not_lead hq hfits hloc nofun nofun
        · exact hN.goesOn_of_not_lead hq hfits hloc nofun nofun
        · exact (hloc rfl).elim
    obtain ⟨op, since, loc⟩ := fr
    have hfits := hN.fits x p _ hp
    by_cases hwait : ∃ c, loc = .wait c ∧ (((N.nodes x).node.flights op.flight).calls c).wg = true
    · obtain ⟨c, rfl, hwg⟩ := hwait
      obtain ⟨q, ⟨op', since', loc'⟩, hq, _, hkey, hleads⟩ := (hN.flights x).leader_of_wait hp hwg
      have hfits' := hN.fits x q _ hq
      cases loc' with
      | lead => exact hlead hq hkey
      | assigned | done => exact hN.goesOn_of_not_lead hq hfits' nofun nofun nofun
      | _ => exact hleads.elim
    · by_cases hleads : ∃ c b, loc = .lead c b
      · obtain ⟨c, b, rfl⟩ := hleads
        exact hlead hp rfl
      · exact hN.goesOn_of_not_lead hp hfits hret (fun c b hl => hleads ⟨c, b, hl⟩)
          fun c hc => by simpa using fun hwg => hwait ⟨c, hc, hwg⟩

end Groupcache.Concurrent
