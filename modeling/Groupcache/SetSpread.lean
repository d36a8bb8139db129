import Groupcache.PeerCalls
import Groupcache.Ownership

/-! How the value of a `Set` spreads over the main caches of a cluster: to the owner, to the node
itself, then to all other members. -/
namespace Groupcache.Concurrent

open Transport Peer

section Main

variable {g : Group Value} {now : Time} {k k' : GoString} {tier : Tier} {v w : Value} {n n' : Node}
  {time : ℕ} {op : Op} {b b' : Body} {e : Event} {loc loc' : Loc}

theorem main_of_look {g' : Group Value} {r : Found} (h : look g now k' tier = (g', r))
    (hv : g'.mainCache.find? k = some v) : g.mainCache.find? k = some v := by
  have heq : (look g now k' tier).1 = g' := by rw [h]
  rw [← heq] at hv
  cases tier with
  | main =>
    rw [look] at hv
    split at hv
    · exact hv
    · exact Cache.find?_get_some hv
  | hot => exact hv

theorem main_write (op : Op) (hv : (op.write g).mainCache.find? k = some v) :
    op.key = k ∧ op.value = some v ∨ g.mainCache.find? k = some v := by
  have hupdate : ∀ {key value expire},
      (g.mainCache.add key (Op.written value expire)).find? k = some v →
      key = k ∧ some (Op.written value expire) = some v ∨ g.mainCache.find? k = some v := by
    intro key value expire hv
    rcases Cache.find?_add_some hv with ⟨rfl, rfl⟩ | ⟨_, hold⟩
    · exact Or.inl ⟨rfl, rfl⟩
    · exact Or.inr hold
  have hremove : ∀ {key}, (g.localRemove key).mainCache.find? k = some v →
      g.mainCache.find? k = some v := by
    intro key hv
    rw [Group.localRemove] at hv
    split at hv
    · exact hv
    · exact (Cache.find?_remove_some hv).2
  cases op with
  | get => exact Or.inr hv
  | set => exact hupdate hv
  | remoteSet =>
    rw [Op.write, Group.remoteSet] at hv
    split at hv
    · exact Or.inr hv
    · exact hupdate hv
  | remove | localRemove => exact Or.inr (hremove hv)

theorem BodyStep.main (h : BodyStep n time op b e g b') (hv : g.mainCache.find? k = some v) :
    n.group.mainCache.find? k = some v ∨ Stores op e k v := by
  cases h with
  | hit _ h | next _ h | miss _ h => exact Or.inl (main_of_look h hv)
  | fillHot =>
    left
    change (n.group.populateHot _ _).mainCache.find? k = some v at hv
    rw [Group.populateHot] at hv
    split at hv <;> exact hv
  | fillMain =>
    rw [Group.populateMain] at hv
    split at hv
    · exact Or.inl hv
    · rcases Cache.find?_add_some hv with ⟨rfl, rfl⟩ | ⟨_, hold⟩
      · exact Or.inr ⟨rfl, Or.inl rfl⟩
      · exact Or.inl hold
  | write =>
    rcases main_write op hv with ⟨hk, hval⟩ | hold
    · exact Or.inr ⟨hk, Or.inr ⟨rfl, hval⟩⟩
    · exact Or.inl hold
  | _ => exact Or.inl hv

theorem Act.main (h : Act n time op loc e n' loc') (hv : n'.group.mainCache.find? k = some v) :
    n.group.mainCache.find? k = some v ∨ Stores op e k v := by
  cases h with
  | hit _ h | next _ h | miss _ h => exact Or.inl (main_of_look h hv)
  | join | lead => cases op <;> exact Or.inl hv
  | body h => exact h.main hv
  | @remoteSet key value expire =>
    rcases main_write (.remoteSet key value expire) hv with ⟨hk, hval⟩ | hold
    · exact Or.inr ⟨hk, Or.inr ⟨rfl, hval⟩⟩
    · exact Or.inl hold
  | @localRemove key =>
    rcases main_write (.localRemove key) hv with ⟨_, hval⟩ | hold
    · cases hval
    · exact Or.inl hold
  | _ => exact Or.inl hv

theorem KeysStep.main {fr : Option KeysFrame} {op : KeysOp} {e : KeysEvent} {loc : KeysLoc}
    (h : KeysStep n fr op e g loc) (hv : g.mainCache.find? k = some v) :
    n.group.mainCache.find? k = some v := by
  rcases h.group_cases with rfl | ⟨_, rfl⟩ | ⟨key, _, rfl⟩
  · exact hv
  · rwa [op.count_mainCache] at hv
  · rcases main_write (.localRemove key) hv with ⟨_, hval⟩ | hold
    · cases hval
    · exact hold

/-- A locked section that stores a value leaves it in the main cache, or nothing. -/
theorem main_write_self (hval : op.value = some w) (hmax : 0 < g.maxCacheBytes)
    (hne : (op.write g).mainCache.find? op.key ≠ none) :
    (op.write g).mainCache.find? op.key = some w := by
  have hadd : ∀ {key v}, (g.mainCache.add key v).find? key ≠ none →
      (g.mainCache.add key v).find? key = some v := by
    intro key v hne
    exact Cache.find?_add_self.resolve_right hne
  cases op with
  | set => exact (hadd hne).trans hval
  | remoteSet key value expire =>
    rw [Op.write, Group.remoteSet, if_neg (by omega)] at hne ⊢
    exact (hadd hne).trans hval
  | _ => cases hval

theorem Act.write_event (h : Act n time op .write e n' loc') : e = .write := by
  cases h <;> rfl

theorem Act.fill_get (h : Act n time op loc (.fill v) n' loc') : op.value = none := by
  cases h with
  | body h => cases h <;> rfl

end Main

/-- What the main cache of a node stores under the key. -/
def Net.main {P : Type} (N : Net P) (k y : GoString) : Option Value :=
  (N.nodes y).node.group.mainCache.find? k

/-- The main cache of a node stores such a value under the key. -/
def Net.Has {P : Type} (N : Net P) (k : GoString) (Q : Value → Prop) (y : GoString) : Prop :=
  ∃ v, N.main k y = some v ∧ Q v

/-- A step of a run with no `Get`, `Remove`, eviction or expiry of the key, in a cluster whose
members have one peer list. -/
structure SetsOnly {P : Type} (as : List GoString) (inst : GoString → Instance) (k : GoString)
    (N : Net P) (l : GoString × Label P) (N' : Net P) : Prop where
  member : l.1 ∈ as
  peers : (N.nodes l.1).node.inst = inst l.1
  sets : ∀ p op, l.2 = .call p op .invoke → op.key = k → op.value ≠ none
  kept : ∀ y, N.main k y ≠ none → N'.main k y ≠ none
  stored : ∀ p op, l.2 = .call p op .write → op.key = k → N'.main k l.1 ≠ none

/-- How far a `Set` at the node has come; `H y` stands for: its value has reached `y`. -/
def Body.Reached (as : List GoString) (x : GoString) (H : GoString → Prop) : Body → Prop
  | .call c | .calling c _ => c.info.isSelf = false
  | .write owner => ∀ c, owner = some c → c.hashKey ≠ x → H c.hashKey
  | .peers owner => H x ∧ ∀ c, owner = some c → c.hashKey ≠ x → H c.hashKey
  | .broadcast todo flying _ => (∀ c ∈ todo ++ flying, c.info.isSelf = false) ∧
    ∀ y ∈ as, H y ∨ ∃ c ∈ todo ++ flying, c.hashKey = y
  | .ends o _ => o.result.2 = none → ∀ y ∈ as, H y
  | _ => True

section Reached

variable {as : List GoString} {x k : GoString} {H H' : GoString → Prop} {inst : Instance}
  {owner : Option Client} {value : Option GoString} {expire : Time} {n n' : Node} {time c : ℕ}
  {b b' : Body} {e : Event} {g : Group Value} {loc : Loc}

theorem Body.Reached.mono (hb : b.Reached as x H) (h : ∀ y, H y → H' y) : b.Reached as x H' := by
  cases b with
  | write owner => exact fun c hc hx => h _ (hb c hc hx)
  | peers owner => exact ⟨h _ hb.1, fun c hc hx => h _ (hb.2 c hc hx)⟩
  | broadcast todo flying errs => exact ⟨hb.1, fun y hy => (hb.2 y hy).imp_left (h y)⟩
  | ends o pop => exact fun ho y hy => h y (hb ho y hy)
  | _ => exact hb

/-- It is enough to call the remote peers that the value has not reached. -/
theorem reached_filter (hknows : Knows as x inst) (hx : H x) {f : Client → Bool}
    (hself : ∀ c ∈ inst.getAllPeers, f c = true → c.info.isSelf = false)
    (hreached : ∀ c ∈ inst.getAllPeers, c.info.isSelf = false → f c = false → H c.hashKey) :
    (Body.broadcast (inst.getAllPeers.filter f) [] []).Reached as x H := by
  refine ⟨?_, ?_⟩
  · intro c hc
    rw [List.append_nil] at hc
    exact hself c (List.mem_filter.mp hc).1 (List.mem_filter.mp hc).2
  · intro y hy
    by_cases hyx : y = x
    · exact Or.inl (hyx ▸ hx)
    · obtain ⟨c, hc, rfl, hremote⟩ := hknows.exists_remote hy hyx
      cases hf : f c with
      | true => exact Or.inr ⟨c, by simpa [hf] using hc, rfl⟩
      | false => exact Or.inl (hreached c hc hremote hf)

/-- The goroutines of a `Set` are for the members that the value has not reached yet. -/
theorem reached_broadcast (hknows : Knows as x inst) (hx : H x)
    (howner : ∀ c, owner = some c → c.hashKey ≠ x → H c.hashKey) :
    ((Op.set k value expire).broadcast owner inst.getAllPeers).Reached as x H := by
  unfold Op.broadcast
  cases owner with
  | some c =>
    refine reached_filter hknows hx (by simp +contextual) ?_
    intro c' hc' hself hf
    have hkey : c'.hashKey = c.hashKey := by simpa [hself] using hf
    have hne : c'.hashKey ≠ x := by
      intro hx
      rw [(hknows.all c' hc').2.mpr hx] at hself
      cases hself
    rw [hkey] at hne ⊢
    exact howner c rfl hne
  | none =>
    dsimp only
    split
    · rename_i hall
      refine ⟨by simp, fun y hy => Or.inl ?_⟩
      by_cases hyx : y = x
      · exact hyx ▸ hx
      · obtain ⟨c, hc, _, hremote⟩ := hknows.exists_remote hy hyx
        rw [List.all_eq_true.mp hall c hc] at hremote
        cases hremote
    · intro ho
      cases ho

theorem BodyStep.reached (h : BodyStep n time (.set k value expire) b e g b')
    (hknows : Knows as x n.inst) (hmono : ∀ y, H y → H' y) (hwrite : e = .write → H' x)
    (hanswer : ∀ c err, e = .answered c err → c.info.isSelf = false → H' c.hashKey)
    (hb : b.Reached as x H) : b'.Reached as x H' := by
  cases h with
  | @pickRemote _ c hpick =>
    have hself : c.info.isSelf = false := by simpa using (hknows.of_pick hpick).1
    exact hself
  | @pickLocal _ owner hpick =>
    rintro c rfl hne
    obtain ⟨hself, _, hx⟩ := hknows.of_pick hpick
    exact (hne (hx.mp (by simpa using hself))).elim
  | send => exact hb
  | @ownerDone _ c =>
    rintro _ ⟨⟩ _
    exact hanswer c none rfl hb
  | ownerFailed e => exact nofun
  | write => exact ⟨hwrite rfl, fun c hc hne => hmono _ (hb c hc hne)⟩
  | peers => exact reached_broadcast hknows (hmono _ hb.1) fun c hc hne => hmono _ (hb.2 c hc hne)
  | @sendPeer _ c todo flying errs hc =>
    have hmem : ∀ c', c' ∈ todo.erase c ++ c :: flying ↔ c' ∈ todo ++ flying :=
      fun c' => (perm_sendPeer hc).mem_iff
    simp only [Body.Reached, hmem]
    exact ⟨hb.1, fun y hy => (hb.2 y hy).imp_left (hmono y)⟩
  | @answered _ c todo flying errs err hc =>
    have hsub : todo ++ flying.erase c ⊆ todo ++ flying :=
      (List.erase_sublist.append_left todo).subset
    refine ⟨fun c' hc' => hb.1 c' (hsub hc'), ?_⟩
    intro y hy
    rcases hb.2 y hy with hy | ⟨c', hc', rfl⟩
    · exact Or.inl (hmono y hy)
    · by_cases hcc : c' = c
      · subst hcc
        exact Or.inl (hanswer c' err rfl (hb.1 c' hc'))
      · refine Or.inr ⟨c', ?_, rfl⟩
        simpa [List.mem_erase_of_ne hcc] using hc'
  | wait =>
    intro _ y hy
    rcases hb.2 y hy with hy | ⟨c, hc, _⟩
    · exact hmono y hy
    · cases hc

end Reached

/-- The function of this `Set` of the key is running at the node. -/
def Net.Leads {P : Type} (N : Net P) (k x : GoString) (p : P) (value : Option GoString)
    (expire : Time) : Prop :=
  ∃ since c b, (N.nodes x).pc p = some ⟨.set k value expire, since, .lead c b⟩

/-- What holds in a run with nothing but sets of the key. -/
structure Calm {P : Type} (cacheBytes : GoString → ℤ) (k : GoString) (N : Net P) : Prop where
  wired : Wired N
  flights : ∀ y, Flights (N.nodes y)
  size : ∀ y, (N.nodes y).node.group.maxCacheBytes = cacheBytes y
  sets : ∀ y q fr, (N.nodes y).pc q = some fr → fr.op.key = k → fr.op.value ≠ none

section Spread

variable {P : Type} [DecidableEq P] {as : List GoString} {inst : GoString → Instance}
  {cacheBytes : GoString → ℤ} {k x y : GoString} {N N' : Net P} {l : Label P}

theorem calm_step (hag : Agreed as inst) (h : NetStep N (x, l) N')
    (hc : SetsOnly as inst k N (x, l) N') (hi : Calm cacheBytes k N) : Calm cacheBytes k N' := by
  cases h with
  | @node _ _ s T _ hs hl =>
    refine ⟨wired_step hi.wired hs hl ?_, ?_, ?_, ?_⟩
    · rw [hc.peers]
      exact hag.getAllPeers_nodup hc.member
    · exact (Function.forall_update_iff N.nodes fun _ s => Flights s).mpr
        ⟨flights_step hs (hi.flights x), fun y _ => hi.flights y⟩
    · exact (Function.forall_update_iff N.nodes
        fun y s => s.node.group.maxCacheBytes = cacheBytes y).mpr
        ⟨(maxCacheBytes_step hs).trans (hi.size x), fun y _ => hi.size y⟩
    · intro y q fr hq hk
      rcases Net.frame_cases hs hq with ⟨hq, _⟩ | ⟨e, loc, _, _, hq, _⟩ | ⟨_, rfl, _⟩
      · exact hi.sets y q fr hq hk
      · exact hi.sets y q ⟨fr.op, fr.since, loc⟩ hq hk
      · exact hc.sets q fr.op rfl hk

/-- The main caches get their values of the key from locked sections of sets. -/
theorem main_cases (h : NetStep N (x, l) N') (hi : Calm cacheBytes k N) {v : Value}
    (hv : N'.main k y = some v) : N.main k y = some v ∨
      y = x ∧ ∃ p op, l = .call p op .write ∧ op.key = k ∧ op.value = some v := by
  cases h with
  | @node _ _ s T _ hs hl =>
    by_cases hy : y = x
    · subst hy
      change (Function.update N.nodes y s y).node.group.mainCache.find? k = some v at hv
      rw [Function.update_self] at hv
      cases hs with
      | invoke op =>
        left
        cases op <;> exact hv
      | keys h => exact Or.inl (h.main hv)
      | setPeers => exact Or.inl hv
      | @act p op since loc e n loc' hp ha =>
        rcases ha.main hv with hold | ⟨hk, rfl | ⟨rfl, hval⟩⟩
        · exact Or.inl hold
        · exact (hi.sets y p _ hp hk ha.fill_get).elim
        · exact Or.inr ⟨rfl, p, op, rfl, hk, hval⟩
    · change (Function.update N.nodes x s y).node.group.mainCache.find? k = some v at hv
      rw [Function.update_of_ne hy] at hv
      exact Or.inl hv

/-- What the main caches store for the key stays, or is replaced by what a set writes. -/
theorem has_step (h : NetStep N (x, l) N') (hc : SetsOnly as inst k N (x, l) N')
    (hi : Calm cacheBytes k N) {Q : Value → Prop}
    (hQ : ∀ p op w, l = .call p op .write → op.key = k → op.value = some w → Q w)
    (hhas : N.Has k Q y) : N'.Has k Q y := by
  obtain ⟨v, hv, hq⟩ := hhas
  obtain ⟨v', hv'⟩ := Option.ne_none_iff_exists'.mp (hc.kept y (by simp [hv]))
  refine ⟨v', hv', ?_⟩
  rcases main_cases h hi hv' with hold | ⟨_, p, op, hl, hk, hval⟩
  · rw [hv] at hold
    exact Option.some.inj hold ▸ hq
  · exact hQ p op v' hl hk hval

/-- A set that has run its locked section has stored its value. -/
theorem main_of_write (hpos : ∀ x ∈ as, 0 < cacheBytes x) {p : P} {op : Op} {w : Value}
    (h : NetStep N (x, .call p op .write) N') (hc : SetsOnly as inst k N (x, .call p op .write) N')
    (hi : Calm cacheBytes k N) (hk : op.key = k) (hval : op.value = some w) :
    N'.main k x = some w := by
  have hne := hc.stored p op rfl hk
  have hsize := hpos x hc.member
  rw [← hi.size x] at hsize
  cases h with
  | @node _ _ s T _ hs hl =>
    obtain ⟨_, _, _, _, ha, _⟩ := hs.frame (by simp)
    obtain ⟨_, hnode, _⟩ := ha.write_cases
    change (Function.update N.nodes x s x).node.group.mainCache.find? k ≠ none at hne
    change (Function.update N.nodes x s x).node.group.mainCache.find? k = some w
    rw [Function.update_self, hnode, ← hk] at hne ⊢
    exact main_write_self hval hsize hne

/-- Where the values of the running sets of the key have got. `R value expire` is what is asked of
the copies of a value. -/
structure Spread (R : Option GoString → Time → Value → Prop) (as : List GoString) (k : GoString)
    (N : Net P) : Prop where
  replied : ∀ i value expire a, N.calls i = some (.replied (.set k value expire) a) →
    N.Has k (R value expire) i.client.hashKey
  serving : ∀ i value expire q op since loc, N.calls i = some (.serving (.set k value expire) q) →
    (N.nodes i.client.hashKey).pc q = some ⟨op, since, loc⟩ → loc ≠ .write →
    N.Has k (R value expire) i.client.hashKey
  reached : ∀ x p value expire since c b,
    (N.nodes x).pc p = some ⟨.set k value expire, since, .lead c b⟩ →
    b.Reached as x (N.Has k (R value expire))

variable {R : Option GoString → Time → Value → Prop}

/-- The writes of a step are as asked of the copies of every running set of the key. -/
def Writes (R : Option GoString → Time → Value → Prop) (k : GoString) (N : Net P) (l : Label P) :
    Prop :=
  ∀ p op w, l = .call p op .write → op.key = k → op.value = some w →
    ∀ x q value expire, N.Leads k x q value expire → R value expire w

omit [DecidableEq P] in
theorem Wired.leads (hi : Wired N) {i : PeerCall P} {pr : Progress P} {value : Option GoString}
    {expire : Time} (h : N.calls i = some pr) (hop : pr.op = .set k value expire) :
    N.Leads k i.node i.proc value expire := by
  obtain ⟨_, since, c, b, hq, _⟩ := hi.asker i pr h
  exact ⟨since, c, b, hop ▸ hq⟩

/-- What a running set has reached, it has reached after the step. -/
theorem Writes.has_step (hw : Writes R k N l) (h : NetStep N (x, l) N')
    (hc : SetsOnly as inst k N (x, l) N') (hi : Calm cacheBytes k N) {z : GoString} {p : P}
    {value : Option GoString} {expire : Time} (hlead : N.Leads k z p value expire)
    (hhas : N.Has k (R value expire) y) : N'.Has k (R value expire) y :=
  Concurrent.has_step h hc hi (fun q op w hl hk hval => hw q op w hl hk hval z p _ _ hlead) hhas

theorem Spread.serving_step (hsp : Spread R as k N) (hpos : ∀ x ∈ as, 0 < cacheBytes x)
    (h : NetStep N (x, l) N') (hc : SetsOnly as inst k N (x, l) N') (hi : Calm cacheBytes k N)
    (hw : Writes R k N l) {i : PeerCall P} {value : Option GoString} {expire : Time} {q : P}
    {op : Op} {since : ℕ} {loc : Loc}
    (hserving : N'.calls i = some (.serving (.set k value expire) q))
    (hq : (N'.nodes i.client.hashKey).pc q = some ⟨op, since, loc⟩) (hloc : loc ≠ .write) :
    N'.Has k (R value expire) i.client.hashKey := by
  have hstep := h
  cases h with
  | @node _ _ s T _ hs hl =>
    rcases hl.entry_cases hserving with hold | ⟨_, ⟨⟩, _⟩ | ⟨_, _, ⟨⟩, _, rfl, rfl⟩ |
      ⟨_, _, _, ⟨⟩, _⟩
    · have hlead := hi.wired.leads hold rfl
      obtain ⟨since', loc', hserver, _⟩ := hi.wired.server i _ q hold
      rcases Net.frame_cases hs hq with ⟨hq, _⟩ | ⟨e, loc₀, rfl, rfl, hq, ha⟩ | ⟨_, _, hnone, _⟩
      · exact hw.has_step hstep hc hi hlead (hsp.serving i value expire q _ _ _ hold hq hloc)
      · by_cases hloc₀ : loc₀ = .write
        · subst hloc₀
          rw [hserver] at hq
          cases hq
          obtain rfl := ha.write_event
          exact ⟨_, main_of_write hpos hstep hc hi rfl rfl, hw q _ _ rfl rfl rfl _ _ _ _ hlead⟩
        · exact hw.has_step hstep hc hi hlead (hsp.serving i value expire q _ _ _ hold hq hloc₀)
      · rw [hserver] at hnone
        cases hnone
    · cases hs with
      | act _ ha => exact (ha.ne_invoke rfl).elim
      | invoke _ _ =>
        simp only [Function.update_self, State.setPC, Option.some.injEq, Frame.mk.injEq] at hq
        exact (hloc hq.2.2.symm).elim

theorem Spread.replied_step (hsp : Spread R as k N) (h : NetStep N (x, l) N')
    (hc : SetsOnly as inst k N (x, l) N') (hi : Calm cacheBytes k N) (hw : Writes R k N l)
    {i : PeerCall P} {value : Option GoString} {expire : Time} {a : Answer}
    (hreplied : N'.calls i = some (.replied (.set k value expire) a)) :
    N'.Has k (R value expire) i.client.hashKey := by
  have hstep := h
  cases h with
  | @node _ _ s T _ hs hl =>
    rcases hl.entry_cases hreplied with hold | ⟨_, ⟨⟩, _⟩ | ⟨_, _, ⟨⟩, _⟩ |
      ⟨_, q, _, ⟨⟩, hserving, rfl, rfl⟩
    · exact hw.has_step hstep hc hi (hi.wired.leads hold rfl) (hsp.replied i value expire a hold)
    · obtain ⟨since, loc, _, hq, ha, _⟩ := hs.frame (by simp)
      obtain ⟨rfl, _⟩ := ha.ret_locs
      exact hw.has_step hstep hc hi (hi.wired.leads hserving rfl)
        (hsp.serving i value expire q _ _ _ hserving hq (by simp))

theorem Spread.reached_step (hsp : Spread R as k N) (hag : Agreed as inst)
    (hpos : ∀ x ∈ as, 0 < cacheBytes x) (h : NetStep N (x, l) N')
    (hc : SetsOnly as inst k N (x, l) N') (hi : Calm cacheBytes k N) (hw : Writes R k N l)
    {z : GoString} {p : P} {value : Option GoString} {expire : Time} {since c : ℕ} {b : Body}
    (hp : (N'.nodes z).pc p = some ⟨.set k value expire, since, .lead c b⟩) :
    b.Reached as z (N'.Has k (R value expire)) := by
  have hstep := h
  cases h with
  | @node _ _ s T _ hs hl =>
    rcases Net.frame_cases hs hp with ⟨hp, _⟩ | ⟨e, loc, rfl, rfl, hp, ha⟩ | ⟨_, _, _, hloc⟩
    · exact (hsp.reached z p value expire since c b hp).mono
        fun y => hw.has_step hstep hc hi ⟨since, c, b, hp⟩
    · rcases ha.lead_cases with ⟨_, _, hbody⟩ | ⟨b₀, rfl, hb⟩
      · have hpick : b = .pick := hbody
        rw [hpick]
        trivial
      · have hlead : N.Leads k x p value expire := ⟨since, c, b₀, hp⟩
        have hknows : Knows as x (N.nodes x).node.inst := hc.peers ▸ hag.knows hc.member
        refine hb.reached hknows (fun y => hw.has_step hstep hc hi hlead) ?_ ?_
          (hsp.reached x p value expire since c b₀ hp)
        · rintro rfl
          exact ⟨_, main_of_write hpos hstep hc hi rfl rfl, hw p _ _ rfl rfl rfl _ _ _ _ hlead⟩
        · rintro i err rfl hself
          obtain ⟨a, hreplied, _⟩ := hl.of_answers rfl hself
          exact hw.has_step hstep hc hi hlead (hsp.replied ⟨x, p, i⟩ value expire a hreplied)
    · exact (start_ne_lead _ hloc.symm).elim

theorem spread_step (hsp : Spread R as k N) (hag : Agreed as inst)
    (hpos : ∀ x ∈ as, 0 < cacheBytes x) (h : NetStep N (x, l) N')
    (hc : SetsOnly as inst k N (x, l) N') (hi : Calm cacheBytes k N) (hw : Writes R k N l) :
    Spread R as k N' where
  replied _ _ _ _ hr := hsp.replied_step h hc hi hw hr
  serving _ _ _ _ _ _ _ hr hq hloc := hsp.serving_step hpos h hc hi hw hr hq hloc
  reached _ _ _ _ _ _ _ hp := hsp.reached_step hag hpos h hc hi hw hp

end Spread

end Groupcache.Concurrent
