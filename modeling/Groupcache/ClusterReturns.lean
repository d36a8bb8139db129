import Groupcache.ClusterProgress
import Groupcache.Convergence

/-! Every call in a cluster returns. Each call has a budget for its own steps and for the calls that
it makes of peers, and each step of a call, of whatever node, spends some of it. -/
namespace Groupcache.Concurrent

open Transport Peer

variable {P : Type} [DecidableEq P] {cacheBytes : GoString → ℤ} {ls : List (GoString × Label P)}
  {N M : Net P} {x y : GoString} {l : Label P} {s : State P} {T : PeerCalls P} {K : KeysCalls P}
  {p q : P} {fr : Frame} {op : Op} {b b' : Body} {e : Event} {n n' : Node} {time since c : ℕ}
  {g : Group Value} {loc loc' : Loc} {nodes : GoString → Prop} {inst : GoString → Instance}

/-- New groups on nodes whose rings stay as they are and whose Getters do not panic. No peer call
fails, and there are no calls of `RemoveKeys`. -/
def steadyLTS (P : Type) [DecidableEq P] (cacheBytes : GoString → ℤ) (nodes : GoString → Prop)
    (inst : GoString → Instance) : Lib.LTS (Net P) (GoString × Label P) where
  Init N := (netLTS P cacheBytes).Init N ∧ ∀ x, (N.nodes x).node.inst = inst x
  Step N l M := NetStep N l M ∧ Steady nodes l

theorem steady_run (h : (steadyLTS P cacheBytes nodes inst).Run ls N) :
    (netLTS P cacheBytes).Run ls N ∧ ∀ l ∈ ls, Steady nodes l := by
  induction h with
  | init hi => exact ⟨.init hi.1, nofun⟩
  | step _ hs ih =>
    refine ⟨ih.1.step hs.1, fun l hl => ?_⟩
    rcases List.mem_append.mp hl with hl | hl
    · exact ih.2 l hl
    · rw [List.mem_singleton.mp hl]
      exact hs.2

theorem Op.served_flight (op : Op) : op.served.flight ≠ .set := by
  cases op <;> simp [Op.served, Op.flight]

/-- A call that serves a peer call gives an answer that the peer call ends with. -/
theorem exists_reply {i : Client} {a : Answer} (hop : op.FromUser) (hgives : op.served.Gives a)
    (hpanic : a ≠ .panic) : ∃ e, op.reply i a = some e := by
  cases op with
  | get =>
    cases a with
    | value | err => exact ⟨_, rfl⟩
    | ok => exact (hgives rfl).elim
    | panic => exact (hpanic rfl).elim
  | set | remove =>
    cases hgives
    exact ⟨_, rfl⟩
  | remoteSet | localRemove => exact hop.elim

theorem linked_run (hpeers : ∀ x, nodes x → (inst x).getAllPeers.Nodup)
    (h : (steadyLTS P cacheBytes nodes inst).Run ls N) : Linked nodes inst N := by
  refine h.invariant (I := fun _ N => Linked nodes inst N) ?_ ?_
  · rintro N ⟨hinit, hinst⟩
    have hpc : N.pc = fun _ => none := funext fun a => (hinit.1 a.1).2.2.2.1 a.2
    refine ⟨wired_initial hinit, hinst, ?_, ?_, ?_, by simp [hpc], by simp [hinit.2.1]⟩
    · exact fun y q fr hq => (pc_ne_initial (hinit.1 y) hq).elim
    · exact fun y q _ _ _ _ _ hq => (pc_ne_initial (hinit.1 y) hq).elim
    · exact fun y q _ _ _ _ hq => (pc_ne_initial (hinit.1 y) hq).elim
  · rintro ls N ⟨x, l⟩ M _ hN ⟨hstep, hsteady⟩
    cases hstep with
    | node hs hl => exact linked_step hN hs hl hsteady (hpeers x hsteady.1)

/-- No call that serves a peer call panics. -/
theorem steady_ret_ne_panic (h : (steadyLTS P cacheBytes nodes inst).Run ls N)
    (hp : (N.nodes x).pc p = some ⟨op.served, since, .ret .panic⟩) : False := by
  obtain ⟨hnet, hsteady⟩ := steady_run h
  have hexplained := (allExplained_run (Net.node_run hnet x)).explained p _ hp
  rcases hexplained rfl with ⟨_, hfailed⟩ | ⟨hset, _⟩
  · obtain ⟨l, hl, hfailed⟩ := List.mem_map.mp hfailed
    exact (hsteady l (List.mem_filter.mp hl).1).2.2.1 p _ hfailed
  · exact op.served_flight hset

theorem replies_run (hpeers : ∀ x, nodes x → (inst x).getAllPeers.Nodup)
    (h : (steadyLTS P cacheBytes nodes inst).Run ls N) {j : PeerCall P} {a : Answer}
    (hj : N.calls j = some (.replied op a)) : ∃ e, op.reply j.client a = some e := by
  refine h.invariant (I := fun _ N => ∀ j op a, N.calls j = some (.replied op a) →
    ∃ e, op.reply j.client a = some e) ?_ ?_ j op a hj
  · rintro N ⟨hinit, _⟩ j op a hj
    rw [hinit.2.1] at hj
    cases hj
  · rintro ls N ⟨x, l⟩ M hrun hN ⟨hstep, _⟩ j op a hj
    cases hstep with
    | node hs hl =>
      rcases hl.entry_cases hj with
        hold | ⟨_, ⟨⟩, _⟩ | ⟨_, _, ⟨⟩, _⟩ | ⟨_, q, _, ⟨⟩, hold, rfl, rfl⟩
      · exact hN j op a hold
      · obtain ⟨since, loc, _, hp, ha, _⟩ := hs.frame (by simp)
        cases ha.ret_loc
        have hnode := Net.node_run (steady_run hrun).1
        obtain ⟨_, _, _, _, hasker, _⟩ := (linked_run hpeers hrun).wired.asker j _ hold
        refine exists_reply (Op.fromUser_of_fits (fits_run (hnode _) hasker))
          (fits_run (hnode _) hp) ?_
        rintro rfl
        exact steady_ret_ne_panic hrun hp

theorem lively_run (hpeers : ∀ x, nodes x → (inst x).getAllPeers.Nodup)
    (h : (steadyLTS P cacheBytes nodes inst).Run ls N) : Lively nodes inst N where
  toLinked := linked_run hpeers h
  fits y _ _ hq := fits_run (Net.node_run (steady_run h).1 y) hq
  flights y := (sound_reachable (Net.node_run (steady_run h).1 y)).flights
  replies _ _ _ hj := replies_run hpeers h hj

section Budget

variable (d : GoString → GoString → ℕ) (inst)

/-- What a call may spend on the owner of its key. -/
def Op.ownerBudget (x : GoString) : Op → ℕ
  | .get key _ => 20 * d key x
  | _ => 5

/-- What it may spend on the other peers. -/
def Op.loopBudget (x : GoString) : Op → ℕ
  | .get _ _ => 0
  | _ => 6 * (inst x).getAllPeers.length

/-- What the function of a call may still spend. -/
def Body.budget (x : GoString) (op : Op) : Body → ℕ
  | .ends _ _ => 4
  | .broadcast todo flying _ => 5 + 6 * todo.length + flying.length
  | .fillHot _ | .fillMain _ => 5
  | .getter _ => 6
  | .callGetter => 7
  | .peers _ => 6 + op.loopBudget inst x
  | .write _ => 7 + op.loopBudget inst x
  | .calling _ _ => 8 + op.loopBudget inst x
  | .call _ => 9 + op.loopBudget inst x + op.ownerBudget d x
  | .pick => 10 + op.loopBudget inst x + op.ownerBudget d x
  | .lookup .hot => 11 + op.loopBudget inst x + op.ownerBudget d x
  | .lookup .main => 12 + op.loopBudget inst x + op.ownerBudget d x

/-- What a call may still spend. -/
def Loc.budget (x : GoString) (op : Op) : Loc → ℕ
  | .returned => 0
  | .ret _ => 1
  | .done _ _ _ | .wait _ | .write => 2
  | .assigned _ _ _ => 3
  | .lead _ b => b.budget inst d x op
  | .enter => 13 + op.loopBudget inst x + op.ownerBudget d x
  | .lookup .hot => 14 + op.loopBudget inst x + op.ownerBudget d x
  | .lookup .main => 15 + op.loopBudget inst x + op.ownerBudget d x

/-- What a request hands over to the call that will serve it. -/
def Op.requestBudget (y : GoString) : Op → ℕ
  | .get key _ => 16 + 20 * d key y
  | _ => 3

/-- What an event hands over to another node. -/
def Event.handsOver (op : Op) : Event → ℕ
  | .send c => op.requestBudget d c.hashKey
  | _ => 0

variable {d inst}

theorem broadcast_length (op : Op) (owner : Option Client) (peers : List Client) :
    (∃ todo, op.broadcast owner peers = .broadcast todo [] [] ∧ todo.length ≤ peers.length) ∨
      op.broadcast owner peers = .ends .panic false := by
  unfold Op.broadcast
  split
  · split
    · exact Or.inl ⟨_, rfl, List.length_filter_le ..⟩
    · split
      · exact Or.inl ⟨[], rfl, by simp⟩
      · exact Or.inr rfl
  · exact Or.inl ⟨_, rfl, List.length_filter_le ..⟩

theorem BodyStep.budget_lt (h : BodyStep n time op b e g b') (hinst : n.inst = inst x)
    (hfits : b.Fits op) (hd : ∀ c, b = .call c → op.IsGet → d op.key c.hashKey < d op.key x) :
    b'.budget inst d x op + e.handsOver d op < b.budget inst d x op := by
  cases h with
  | @next _ _ tier _ _ h =>
    cases tier with
    | main => simp [Body.budget, Event.handsOver]
    | hot => exact (look_hot_ne_next h).elim
  | @hit _ _ tier | @miss _ _ tier =>
    cases tier <;> simp only [Body.budget, Event.handsOver] <;> omega
  | pickLocal =>
    cases op <;> simp only [Body.budget, Event.handsOver, Op.afterPick] <;> omega
  | @send op c =>
    have hd := hd c rfl
    cases op with
    | get key dest =>
      have hlt : d key c.hashKey < d key x := hd trivial
      simp only [Body.budget, Event.handsOver, Op.requestBudget, Op.ownerBudget]
      omega
    | _ =>
      simp only [Body.budget, Event.handsOver, Op.requestBudget, Op.ownerBudget]
      omega
  | @peers op owner =>
    have hloop : op.loopBudget inst x = 6 * (inst x).getAllPeers.length := by
      cases op with
      | get => exact (hfits rfl).elim
      | _ => rfl
    rw [hinst]
    rcases broadcast_length op owner (inst x).getAllPeers with ⟨todo, hb, hlen⟩ | hb <;>
      simp only [hb, Body.budget, Event.handsOver, hloop, List.length_nil] <;> omega
  | @sendPeer op c todo flying errs hc =>
    have hpos := List.length_pos_of_mem hc
    have hrequest : op.requestBudget d c.hashKey = 3 := by
      cases op with
      | get => exact (hfits rfl).elim
      | _ => rfl
    simp only [Body.budget, Event.handsOver, hrequest, List.length_erase_of_mem hc,
      List.length_cons]
    omega
  | answered err hc =>
    have hpos := List.length_pos_of_mem hc
    simp only [Body.budget, Event.handsOver, List.length_erase_of_mem hc]
    omega
  | _ =>
    simp only [Body.budget, Event.handsOver]
    omega

theorem Act.budget_lt (h : Act n time op loc e n' loc') (hinst : n.inst = inst x)
    (hfits : loc.Fits op)
    (hd : ∀ c i, loc = .lead c (.call i) → op.IsGet → d op.key i.hashKey < d op.key x) :
    loc'.budget inst d x op + e.handsOver d op < loc.budget inst d x op := by
  cases h with
  | @next _ _ tier _ _ h =>
    cases tier with
    | main => simp [Loc.budget, Event.handsOver]
    | hot => exact (look_hot_ne_next h).elim
  | @hit _ _ tier | @miss _ _ tier =>
    cases tier <;> simp only [Loc.budget, Event.handsOver] <;> omega
  | lead =>
    cases op <;> simp only [Loc.budget, Body.budget, Event.handsOver, Op.body] <;> omega
  | @body _ c b _ _ _ h => exact h.budget_lt hinst hfits fun i hb => hd c i (by rw [hb])
  | _ =>
    simp only [Loc.budget, Body.budget, Event.handsOver]
    omega

variable (d inst)

/-- The call that serves a request gets by with what the request hands over. -/
theorem start_budget_lt (hop : op.FromUser) (g : Group Value) (y : GoString) :
    (op.served.start g).budget inst d y op.served < op.requestBudget d y := by
  cases op with
  | get => simp [Op.served, Op.start, Loc.budget, Op.requestBudget, Op.loopBudget, Op.ownerBudget]
  | set | remove => simp [Op.served, Op.start, Loc.budget, Op.requestBudget]
  | remoteSet | localRemove => exact hop.elim

/-- What a request holds that is under way to a node. -/
def Progress.budget (y : GoString) : Progress P → ℕ
  | .sent op => op.requestBudget d y
  | _ => 0

/-- What all calls and requests in the cluster together may still spend. -/
noncomputable def Net.budget (N : Net P) : ℕ :=
  (∑ᶠ a, (N.pc a).elim 0 fun fr => fr.loc.budget inst d a.1 fr.op) +
    ∑ᶠ j, (N.calls j).elim 0 (Progress.budget d j.client.hashKey)

variable {d inst}

/-- An event adds to the requests under way at most what it hands over. -/
theorem Link.budget_le {T' : PeerCalls P} (h : Link T x (.call p op e) T') (he : e ≠ .invoke)
    (hfin : {j | T j ≠ none}.Finite) :
    (∑ᶠ j, (T' j).elim 0 (Progress.budget d j.client.hashKey)) ≤
      (∑ᶠ j, (T j).elim 0 (Progress.budget d j.client.hashKey)) + e.handsOver d op := by
  have hupdate := Lib.finsum_parts_update hfin fun j => Progress.budget d j.client.hashKey
  cases h with
  | inside => omega
  | arrive => exact (he rfl).elim
  | @send _ _ c =>
    have hsum := hupdate ⟨x, p, c⟩ (some (.sent op))
    simp only [Option.elim_some, Progress.budget] at hsum
    simp only [Event.handsOver]
    omega
  | @reply j op' _ a =>
    have hsum := hupdate j (some (.replied op' a))
    simp only [Option.elim_some, Progress.budget] at hsum
    omega
  | @receive _ _ c =>
    have hsum := hupdate ⟨x, p, c⟩ none
    simp only [Option.elim_none] at hsum
    omega

theorem Net.budget_setPC (N : Net P) (x : GoString) (p : P) (fr : Frame) (n : Node)
    (T : PeerCalls P) (K : KeysCalls P) :
    Net.budget inst d ⟨Function.update N.nodes x ((N.nodes x).setPC p fr n), T, K⟩ =
      (∑ᶠ a, (Function.update N.pc (x, p) (some fr) a).elim 0
        fun fr => fr.loc.budget inst d a.1 fr.op) +
        ∑ᶠ j, (T j).elim 0 (Progress.budget d j.client.hashKey) := by
  rw [Net.budget, Net.pc_setPC]

/-- A call spends some of the budget in every step that it takes. -/
theorem budget_act (hN : Lively nodes inst N) (hd : Hops nodes inst d) (hx : nodes x)
    (hp : (N.nodes x).pc p = some ⟨op, since, loc⟩)
    (ha : Act (N.nodes x).node (N.nodes x).clock op loc e n loc')
    (hl : Link N.calls x (.call p op e) T) :
    Net.budget inst d ⟨Function.update N.nodes x ((N.nodes x).setPC p ⟨op, since, loc'⟩ n), T, K⟩ <
      N.budget inst d := by
  have hframe := Lib.finsum_parts_update hN.finite_pc
    (fun a fr => fr.loc.budget inst d a.1 fr.op) (x, p) (some ⟨op, since, loc'⟩)
  have hold : N.pc (x, p) = some ⟨op, since, loc⟩ := hp
  have hcalls := hl.budget_le (d := d) ha.ne_invoke hN.finite_calls
  have hlt := ha.budget_lt (d := d) (hN.inst_eq x) (hN.fits x p _ hp) fun c i hloc _ =>
    hd op.key x _ hx ⟨i, hN.targets x p op since c (.call i) (hloc ▸ hp), rfl⟩
  rw [hold] at hframe
  simp only [Option.elim_some] at hframe
  rw [Net.budget_setPC, Net.budget]
  omega

/-- A request that arrives leaves the call that serves it less than it has brought. -/
theorem budget_arrive (hN : Lively nodes inst N) {j : PeerCall P}
    (hq : (N.nodes j.client.hashKey).pc q = none) (hj : N.calls j = some (.sent op)) :
    Net.budget inst d ⟨Function.update N.nodes j.client.hashKey
        ((N.nodes j.client.hashKey).setPC q ⟨op.served, (N.nodes j.client.hashKey).clock,
          op.served.start (N.nodes j.client.hashKey).node.group⟩ n),
      Function.update N.calls j (some (.serving op q)), K⟩ < N.budget inst d := by
  have hframe := Lib.finsum_parts_update hN.finite_pc
    (fun a fr => fr.loc.budget inst d a.1 fr.op) (j.client.hashKey, q)
    (some ⟨op.served, (N.nodes j.client.hashKey).clock,
      op.served.start (N.nodes j.client.hashKey).node.group⟩)
  have hcalls := Lib.finsum_parts_update hN.finite_calls
    (fun j => Progress.budget d j.client.hashKey) j (some (.serving op q))
  have hnone : N.pc (j.client.hashKey, q) = none := hq
  obtain ⟨_, _, _, _, hasker, _⟩ := hN.wired.asker j _ hj
  have hlt := start_budget_lt inst d (Op.fromUser_of_fits (hN.fits _ _ _ hasker))
    (N.nodes j.client.hashKey).node.group j.client.hashKey
  rw [hnone] at hframe
  rw [hj] at hcalls
  simp only [Option.elim_some, Option.elim_none, Progress.budget, Progress.op] at hframe hcalls hlt
  rw [Net.budget_setPC, Net.budget]
  omega

theorem budget_step (hN : Lively nodes inst N) (hd : Hops nodes inst d)
    (hs : Step (N.nodes x) l s) (hl : Link N.calls x l T)
    (hk : KeysLink N.keysCalls x l K)
    (honward : Onward nodes N (x, l) ⟨Function.update N.nodes x s, T, K⟩) :
    Net.budget inst d ⟨Function.update N.nodes x s, T, K⟩ < N.budget inst d := by
  obtain ⟨⟨hx, hpeers, _, hkeys⟩, hnew⟩ := honward
  cases hs with
  | invoke _ hq =>
    cases hl with
    | inside =>
      cases hk with
      | other => exact (hnew ⟨Or.inl ⟨_, _, rfl⟩, rfl, rfl⟩).elim
    | arrive hj hkey =>
      cases hkey
      exact budget_arrive hN hq hj
    | receive _ he => exact (reply_answers he).elim
  | act hp ha => exact budget_act hN hd hx hp ha hl
  | keys => exact (hkeys _ _ _ rfl).elim
  | setPeers _ peers => exact (hpeers peers rfl).elim

end Budget

section Views

variable {hashFn : HashFn} {replicas : ℤ} {lists : GoString → List Info}

/-- The rings bound the number of hops that a `Get` makes from any node. -/
theorem exists_hops (hv : Views hashFn replicas nodes lists inst)
    (hs : NoSharedPoint hashFn replicas nodes) : ∃ d, Hops nodes inst d := by
  classical
  rcases lt_or_ge 0 replicas with hr | hr
  · have hpicks : ∀ key x, ∃ t, nodes x → Picks hashFn replicas lists key x t := by
      intro key x
      by_cases hx : nodes x
      · exact (exists_picks hv hr hx key).imp fun _ ht _ => ht
      · exact ⟨default, fun h => (hx h).elim⟩
    choose t ht using hpicks
    refine ⟨fun key x => if ∃ y, Forwards inst key x y then
      Lib.lapRank (-2 ^ 63) (2 ^ 64) (t key x) + 1 else 0, fun key x y hx hxy => ?_⟩
    have hy := (forwards_first hv hr hx hxy).1
    have hforwards : ∃ y, Forwards inst key x y := ⟨y, hxy⟩
    simp only [hforwards, if_true]
    split
    · rename_i hyz
      obtain ⟨z, hyz⟩ := hyz
      have hlt := picks_lt hv hr hs hx hxy hyz (ht key x hx) (ht key y hy)
      have hrank := Lib.lapRank_lt hlt (ht key y hy).bounds (ht key x hx).bounds.1
      omega
    · omega
  · refine ⟨fun _ _ => 0, fun key x y hx ⟨c, hpick, _⟩ => ?_⟩
    rw [(hv.installed x hx).pickPeer_empty hr key] at hpick
    cases hpick

theorem closed_of_views (hv : Views hashFn replicas nodes lists inst) : Closed nodes inst := by
  intro x hx
  have hlisted := (hv.installed x hx).listed
  refine ⟨fun c hc => hv.closed x hx _ (hlisted.all c hc), fun key c hpick => ?_⟩
  rcases hlisted.pick key with hnone | ⟨c', hpick', hmem⟩
  · cases hpick.symm.trans hnone
  · obtain ⟨⟨⟩, _⟩ := Prod.mk.inj (hpick.symm.trans hpick')
    exact hv.closed x hx _ hmem

/-- Once users make no further calls, the calls of the whole cluster take a bounded number of steps
in whatever order, and they only stop when all of them have returned. The nodes may disagree about
the peers, but their rings do not change, and no peer call fails. -/
theorem cluster_calls_return [Infinite P] (hv : Views hashFn replicas nodes lists inst)
    (hs : NoSharedPoint hashFn replicas nodes)
    (h : (steadyLTS P cacheBytes nodes inst).Run ls N) :
    ∃ k, ∀ ms M,
      (((steadyLTS P cacheBytes nodes inst).restrict fun N l M => ¬NewCall N l M).after N).Run
        ms M →
      ms.length ≤ k ∧
        ((∀ l M', (steadyLTS P cacheBytes nodes inst).Step M l M' → NewCall M l M') →
          ∀ x p fr, (M.nodes x).pc p = some fr → fr.loc = .returned) := by
  obtain ⟨d, hd⟩ := exists_hops hv hs
  have hpeers : ∀ x, nodes x → (inst x).getAllPeers.Nodup :=
    fun x hx => (hv.installed x hx).listed.nodup.of_map
  refine ⟨N.budget inst d, fun ms M hrun => ?_⟩
  obtain ⟨⟨ls', hM⟩, hspent⟩ : (∃ ls, (steadyLTS P cacheBytes nodes inst).Run ls M) ∧
      ms.length + M.budget inst d ≤ N.budget inst d := by
    refine hrun.spends (fun M => ∃ ls, (steadyLTS P cacheBytes nodes inst).Run ls M) _ ⟨ls, h⟩ ?_
    rintro N ⟨x, l⟩ M ⟨ls, hN⟩ ⟨⟨hstep, hsteady⟩, hnew⟩
    refine ⟨⟨_, hN.step ⟨hstep, hsteady⟩⟩, ?_⟩
    cases hstep with
    | node hs hl hk => exact budget_step (lively_run hpeers hN) hd hs hl hk ⟨hsteady, hnew⟩
  refine ⟨by omega, fun hstuck x p fr hp => ?_⟩
  by_contra hret
  obtain ⟨l, M', hstep, hsteady, hnew⟩ :=
    (lively_run hpeers hM).goesOn (closed_of_views hv) hd hp hret
  exact hnew (hstuck l M' ⟨hstep, hsteady⟩)

end Views

theorem hosts_views : Views digestHash 1 (· ∈ [hostB, hostA])
    (fun x => memberPeers x [hostB, hostA]) hostInst := by
  refine ⟨fun x hx => hostInst_installed hx, fun x hx => List.mem_map.mpr ⟨x, hx, by simp⟩, ?_, ?_⟩
  · intro x _ info hinfo haddress
    obtain ⟨a, _, rfl⟩ := List.mem_map.mp hinfo
    simpa using haddress
  · intro x _ info hinfo
    obtain ⟨a, ha, rfl⟩ := List.mem_map.mp hinfo
    exact ha

/-- A `Get` at `A` waits for the `Get` that serves it at the owner `B`, where a `Set` of the key has
been called as well. -/
theorem cluster_calls_return_hosts : ∃ ls N,
    (steadyLTS ℕ (fun _ => 1000) (· ∈ [hostB, hostA]) hostInst).Run ls N ∧
    N.calls ⟨hostA, 0, ⟨0, ⟨hostB, false⟩⟩⟩ = some (.serving (.get [7] (some .allocating)) 0) ∧
    (N.nodes hostB).pc 1 = some ⟨.set [7] (some [1]) .zero, 1, .enter⟩ ∧
    ∃ k, ∀ ms M, (((steadyLTS ℕ (fun _ => 1000) (· ∈ [hostB, hostA]) hostInst).restrict
        fun N l M => ¬NewCall N l M).after N).Run ms M → ms.length ≤ k ∧
      ((∀ l M', (steadyLTS ℕ (fun _ => 1000) (· ∈ [hostB, hostA]) hostInst).Step M l M' →
          NewCall M l M') →
        ∀ x p fr, (M.nodes x).pc p = some fr → fr.loc = .returned) := by
  have step : ∀ {ls N x p op e s T},
      (steadyLTS ℕ (fun _ => 1000) (· ∈ [hostB, hostA]) hostInst).Run ls N →
      Step (N.nodes x) (.call p op e) s → Link N.calls x (.call p op e) T →
      x ∈ [hostB, hostA] → e ≠ .failed none →
      (steadyLTS ℕ (fun _ => 1000) (· ∈ [hostB, hostA]) hostInst).Run
        (ls ++ [(x, .call p op e)]) ⟨Function.update N.nodes x s, T, N.keysCalls⟩ := by
    intro ls N x p op e s T h hs hl hx he
    refine h.step ⟨.call hs hl, hx, by simp, ?_, by simp⟩
    rintro p' op' ⟨⟩
    exact he rfl
  have h₀ : (steadyLTS ℕ (fun _ => 1000) (· ∈ [hostB, hostA]) hostInst).Run [] hosts :=
    .init ⟨hosts_init, fun _ => rfl⟩
  have h₁ := step (x := hostA) h₀ (Step.invoke (p := 0) (.get [7] (some .allocating)) rfl)
    (.inside trivial (fun _ => trivial) nofun) (by simp) nofun
  have h₂ := step (x := hostA) h₁ (Step.act (p := 0) rfl (.next .zero rfl)) (.of_plain rfl)
    (by simp) nofun
  have h₃ := step (x := hostA) h₂ (Step.act (p := 0) rfl (.miss .zero rfl)) (.of_plain rfl)
    (by simp) nofun
  have h₄ := step (x := hostA) h₃ (Step.act (p := 0) rfl (.lead rfl)) (.of_plain rfl)
    (by simp) nofun
  have h₅ := step (x := hostA) h₄ (Step.act (p := 0) rfl (.body (.next .zero rfl)))
    (.of_plain rfl) (by simp) nofun
  have h₆ := step (x := hostA) h₅ (Step.act (p := 0) rfl (.body (.miss .zero rfl)))
    (.of_plain rfl) (by simp) nofun
  have h₇ := step (x := hostA) h₆ (Step.act (p := 0) rfl (.body (.pickRemote pick_hostA)))
    (.of_plain rfl) (by simp) nofun
  have h₈ := step (x := hostA) h₇ (Step.act (p := 0) rfl (.body .send)) (.send rfl) (by simp) nofun
  have h₉ := step (x := hostB) h₈ (Step.invoke (p := 0) _ rfl)
    (.arrive (i := ⟨hostA, 0, ⟨0, ⟨hostB, false⟩⟩⟩) rfl rfl) (by simp) nofun
  have h₁₀ := step (x := hostB) h₉ (Step.invoke (p := 1) (.set [7] (some [1]) .zero) rfl)
    (.inside trivial (fun _ => trivial) nofun) (by simp) nofun
  exact ⟨_, _, h₁₀, rfl, rfl, cluster_calls_return hosts_views hosts_noSharedPoint h₁₀⟩

end Groupcache.Concurrent
