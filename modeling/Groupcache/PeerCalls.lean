import Groupcache.Network

/-! How the peer calls of a cluster fit together with the calls at its nodes: a peer call has a
leader that waits for it, and a call that a transport makes serves one peer call. -/
namespace Groupcache.Concurrent

open Transport Peer

/-- The call that made a peer call. -/
def Progress.op {P : Type} : Progress P → Op
  | .sent op | .serving op _ | .replied op _ => op

/-- The function waits for the client's answer. -/
def Body.Asks (i : Client) : Body → Prop
  | .calling c _ => c = i
  | .broadcast _ flying _ => i ∈ flying
  | _ => False

/-- The event is the answer of the client. -/
def Event.Answers (i : Client) : Event → Prop
  | .fetched c _ | .answered c _ => c = i
  | _ => False

/-- No goroutine calls a client that another one calls. -/
def Body.Distinct : Body → Prop
  | .broadcast todo flying _ => (todo ++ flying).Nodup
  | _ => True

variable {n n' : Node} {time : ℕ} {op : Op} {b b' : Body} {e : Event} {g : Group Value}
  {i : Client} {loc loc' : Loc} {c : ℕ}

theorem BodyStep.asks (h : BodyStep n time op b e g b') (hb : b.Asks i) :
    b'.Asks i ∨ e.Answers i := by
  cases h with
  | fetched | fetchFinal | fetchGiveUp | fetchFallBack | ownerDone | ownerFailed => exact Or.inr hb
  | sendPeer => exact Or.inl (List.mem_cons_of_mem _ hb)
  | @answered _ c =>
    by_cases hc : c = i
    · exact Or.inr hc
    · exact Or.inl ((List.mem_erase_of_ne (Ne.symm hc)).mpr hb)
  | wait => cases hb
  | _ => exact hb.elim

theorem Act.asks (h : Act n time op (.lead c b) e n' loc') (hb : b.Asks i) :
    (∃ b', loc' = .lead c b' ∧ b'.Asks i) ∨ e.Answers i := by
  cases h with
  | body h => exact (h.asks hb).imp_left fun hb' => ⟨_, rfl, hb'⟩
  | assign => exact hb.elim

theorem BodyStep.send_asks (h : BodyStep n time op b (.send i) g b') (hd : b.Distinct) :
    b'.Asks i ∧ ¬ b.Asks i := by
  cases h with
  | send => exact ⟨rfl, id⟩
  | sendPeer hi => exact ⟨List.mem_cons_self, fun hf => (List.nodup_append.mp hd).2.2 i hi i hf rfl⟩

theorem Act.send_lead (h : Act n time op loc (.send i) n' loc') :
    ∃ c b b' g, loc = .lead c b ∧ loc' = .lead c b' ∧ BodyStep n time op b (.send i) g b' := by
  cases h with
  | body h => exact ⟨_, _, _, _, rfl, rfl, h⟩

theorem broadcast_distinct {owner : Option Client} {peers : List Client} (h : peers.Nodup) :
    (op.broadcast owner peers).Distinct := by
  have hfilter : ∀ f : Client → Bool, (Body.broadcast (peers.filter f) [] []).Distinct := by
    intro f
    simpa [Body.Distinct] using h.filter f
  unfold Op.broadcast
  split
  · split
    · exact hfilter _
    · split
      · exact List.nodup_nil
      · trivial
  · exact hfilter _

/-- A goroutine that calls its peer is still one of those that are not done. -/
theorem perm_sendPeer {todo flying : List Client} (hi : i ∈ todo) :
    (todo.erase i ++ i :: flying).Perm (todo ++ flying) :=
  List.perm_middle.trans ((List.perm_cons_erase hi).symm.append_right flying)

theorem BodyStep.distinct (h : BodyStep n time op b e g b') (hpeers : n.inst.getAllPeers.Nodup)
    (hd : b.Distinct) : b'.Distinct := by
  cases h with
  | peers => exact broadcast_distinct hpeers
  | sendPeer hi => exact (perm_sendPeer hi).nodup_iff.mpr hd
  | answered => exact hd.sublist (List.erase_sublist.append_left _)
  | pickLocal => cases op <;> trivial
  | _ => trivial

theorem Act.distinct (h : Act n time op loc e n' (.lead c b')) (hpeers : n.inst.getAllPeers.Nodup)
    (hd : ∀ b, loc = .lead c b → b.Distinct) : b'.Distinct := by
  cases h with
  | lead => cases op <;> trivial
  | body h => exact h.distinct hpeers (hd _ rfl)

/-- A call from another node is one locked section. -/
theorem Act.outside (h : Act n time op loc e n' loc') (hop : ¬ op.FromUser)
    (hloc : loc = .write ∨ ∃ a, loc = .ret a) : (∃ a, loc' = .ret a) ∨ loc' = .returned := by
  cases h with
  | remoteSet | localRemove => exact Or.inl ⟨_, rfl⟩
  | ret => exact Or.inr rfl
  | _ => rcases hloc with hloc | ⟨_, hloc⟩ <;> cases hloc

theorem Act.not_returned (h : Act n time op loc e n' loc') : loc ≠ .returned := by
  cases h <;> simp

theorem Act.returned (h : Act n time op loc e n' .returned) : ∃ a, e = .ret a ∧ loc = .ret a := by
  cases h with
  | ret => exact ⟨_, rfl, rfl⟩

theorem start_ne_returned (op : Op) : op.start g ≠ .returned := by
  rcases start_cases g op with ⟨_, h⟩ | h | h | h | ⟨_, h⟩ <;> simp [h]

theorem start_ne_lead (op : Op) : op.start g ≠ .lead c b := by
  rcases start_cases g op with ⟨_, h⟩ | h | h | h | ⟨_, h⟩ <;> simp [h]

section Link

variable {P : Type} [DecidableEq P] {T T' : PeerCalls P} {x : GoString} {l : Label P}
  {i : PeerCall P} {pr : Progress P} {p q : P} {a : Answer}

/-- Where the entry of a peer call comes from. -/
theorem Link.entry_cases (h : Link T x l T') (hi : T' i = some pr) :
    T i = some pr ∨
    (∃ op, pr = .sent op ∧ l = .call i.proc op (.send i.client) ∧ i.node = x ∧
      i.client.info.isSelf = false) ∨
    (∃ op q, pr = .serving op q ∧ T i = some (.sent op) ∧ l = .call q op.served .invoke ∧
      i.client.hashKey = x) ∨
    ∃ op q a, pr = .replied op a ∧ T i = some (.serving op q) ∧ l = .call q op.served (.ret a) ∧
      i.client.hashKey = x := by
  cases h with
  | inside | keys | setPeers => exact Or.inl hi
  | send hc =>
    refine (update_cases hi).imp_right ?_
    rintro ⟨rfl, ⟨⟩⟩
    exact Or.inl ⟨_, rfl, rfl, rfl, hc⟩
  | arrive hsent hx =>
    refine (update_cases hi).imp_right ?_
    rintro ⟨rfl, ⟨⟩⟩
    exact Or.inr (Or.inl ⟨_, _, rfl, hsent, rfl, hx⟩)
  | reply a hserving hx =>
    refine (update_cases hi).imp_right ?_
    rintro ⟨rfl, ⟨⟩⟩
    exact Or.inr (Or.inr ⟨_, _, _, rfl, hserving, rfl, hx⟩)
  | receive =>
    refine (update_cases hi).imp_right ?_
    rintro ⟨_, ⟨⟩⟩

/-- A step starts to serve at most one peer call. -/
theorem Link.arrives_one (h : Link T x l T') {j : PeerCall P} {op' : Op} {q' : P}
    (hi : T' i = some (.serving op q)) (hj : T' j = some (.serving op' q')) :
    T i = some (.serving op q) ∨ T j = some (.serving op' q') ∨ i = j := by
  cases h with
  | inside | keys | setPeers => exact Or.inl hi
  | arrive =>
    rcases update_cases hi with hold | ⟨rfl, _⟩
    · exact Or.inl hold
    · rcases update_cases hj with hold | ⟨rfl, _⟩
      · exact Or.inr (Or.inl hold)
      · exact Or.inr (Or.inr rfl)
  | send | reply | receive =>
    rcases update_cases hi with hold | ⟨_, ⟨⟩⟩
    exact Or.inl hold

/-- What becomes of a peer call that is being served. -/
theorem Link.serving_next (h : Link T x l T') (hi : T i = some (.serving op q)) :
    T' i = some (.serving op q) ∨
    (∃ op', l = .call i.proc op' (.send i.client) ∧ i.node = x) ∨
    ∃ a, T' i = some (.replied op a) ∧ l = .call q op.served (.ret a) ∧ i.client.hashKey = x := by
  cases h with
  | inside | keys | setPeers => exact Or.inl hi
  | @send p op' c hc =>
    by_cases hij : i = ⟨x, p, c⟩
    · subst hij
      exact Or.inr (Or.inl ⟨op', rfl, rfl⟩)
    · exact Or.inl (by simpa [hij] using hi)
  | @arrive j op' q' hsent =>
    have hij : i ≠ j := by
      rintro rfl
      rw [hsent] at hi
      cases hi
    exact Or.inl (by simpa [hij] using hi)
  | @reply j op' q' a hserving hx =>
    by_cases hij : i = j
    · subst hij
      rw [hserving] at hi
      cases hi
      exact Or.inr (Or.inr ⟨a, by simp, rfl, hx⟩)
    · exact Or.inl (by simpa [hij] using hi)
  | @receive p op' c a e hreplied =>
    have hij : i ≠ ⟨x, p, c⟩ := by
      rintro rfl
      rw [hreplied] at hi
      cases hi
    exact Or.inl (by simpa [hij] using hi)

/-- The answer of another node is what its call has returned. -/
theorem Link.of_answers {c : Client} (h : Link T x (.call p op e) T') (he : e.Answers c)
    (hc : c.info.isSelf = false) :
    ∃ a, T ⟨x, p, c⟩ = some (.replied op a) ∧ op.reply c a = some e ∧ T' ⟨x, p, c⟩ = none := by
  cases h with
  | inside hinside =>
    cases e with
    | fetched => exact hinside.elim
    | answered c' err =>
      have hself := hinside.1
      rw [show c' = c from he, hc] at hself
      cases hself
    | _ => exact he.elim
  | send | arrive | reply => exact he.elim
  | @receive _ _ c' a _ hreplied hreply =>
    have hcc : c' = c := by
      unfold Op.reply at hreply
      split at hreply <;> cases hreply <;> exact he
    subst hcc
    exact ⟨a, hreplied, hreply, by simp⟩

/-- A call that serves a peer call replies to one when it returns. -/
theorem Link.of_ret (h : Link T x (.call q op (.ret a)) T') {op' : Op}
    (hi : T i = some (.serving op' q)) (hx : i.client.hashKey = x) :
    ∃ j op', T j = some (.serving op' q) ∧ j.client.hashKey = x ∧
      T' j = some (.replied op' a) := by
  cases h with
  | inside _ _ hret => exact (hret a rfl i op' hi hx).elim
  | reply _ hserving hx => exact ⟨_, _, hserving, hx, by simp⟩
  | receive _ hreply =>
    unfold Op.reply at hreply
    split at hreply <;> cases hreply

/-- A call is made by a user, or serves a peer call. -/
theorem Link.of_invoke (h : Link T x (.call q op .invoke) T') :
    op.FromUser ∨ ∃ j op', T' j = some (.serving op' q) ∧ j.client.hashKey = x ∧
      op = op'.served := by
  cases h with
  | inside _ huser => exact Or.inl (huser rfl)
  | arrive _ hx => exact Or.inr ⟨_, _, by simp, hx, rfl⟩
  | receive _ hreply =>
    unfold Op.reply at hreply
    split at hreply <;> cases hreply

end Link

section Frames

variable {P : Type} [DecidableEq P] {N : Net P} {s : State P} {T : PeerCalls P} {x y : GoString}
  {l : Label P} {p q : P} {fr : Frame} {since : ℕ}

theorem Step.invoke_pc {s t : State P} (h : Step s (.call q op .invoke) t) : s.pc q = none := by
  cases h with
  | invoke _ hq => exact hq
  | act _ ha => exact (ha.ne_invoke rfl).elim

/-- Where a frame at a node of the cluster comes from. -/
theorem Net.frame_cases (hs : Step (N.nodes x) l s)
    (hq : (Function.update N.nodes x s y).pc q = some fr) :
    ((N.nodes y).pc q = some fr ∧ ∀ op e, x = y → l ≠ .call q op e) ∨
    (∃ e loc, x = y ∧ l = .call q fr.op e ∧ (N.nodes y).pc q = some ⟨fr.op, fr.since, loc⟩ ∧
      Act (N.nodes y).node (N.nodes y).clock fr.op loc e s.node fr.loc) ∨
    x = y ∧ l = .call q fr.op .invoke ∧ (N.nodes y).pc q = none ∧
      fr.loc = fr.op.start (N.nodes y).node.group := by
  by_cases hy : y = x
  · subst hy
    rw [Function.update_self] at hq
    rcases hs.frame_cases hq with ⟨hold, hl⟩ | ⟨e, loc, hl, hold, ha⟩ | ⟨hl, _, hloc⟩
    · exact Or.inl ⟨hold, fun op e _ => hl op e⟩
    · exact Or.inr (Or.inl ⟨e, loc, rfl, hl, hold, ha⟩)
    · exact Or.inr (Or.inr ⟨rfl, hl, (hl ▸ hs).invoke_pc, hloc⟩)
  · rw [Function.update_of_ne hy] at hq
    exact Or.inl ⟨hq, fun _ _ hxy => (hy hxy.symm).elim⟩

/-- A frame stays until its own call takes a step. -/
theorem Net.frame_next (hs : Step (N.nodes x) l s) (hq : (N.nodes y).pc q = some fr) :
    ((Function.update N.nodes x s y).pc q = some fr ∧ ∀ op e, x = y → l ≠ .call q op e) ∨
    ∃ e loc', x = y ∧ l = .call q fr.op e ∧
      Act (N.nodes y).node (N.nodes y).clock fr.op fr.loc e s.node loc' ∧
      (Function.update N.nodes x s y).pc q = some ⟨fr.op, fr.since, loc'⟩ := by
  by_cases hl : x = y ∧ ∃ op e, l = .call q op e
  · obtain ⟨rfl, op, e, rfl⟩ := hl
    have he : e ≠ .invoke := by
      rintro rfl
      rw [hs.invoke_pc] at hq
      cases hq
    obtain ⟨_, _, loc', hp, ha, hpc⟩ := hs.frame he
    rw [hq] at hp
    cases hp
    refine Or.inr ⟨e, loc', rfl, rfl, ha, ?_⟩
    rw [Function.update_self, hpc]
    exact Function.update_self ..
  · have hother : ∀ op e, x = y → l ≠ .call q op e := fun op e hx he => hl ⟨hx, op, e, he⟩
    refine Or.inl ⟨?_, hother⟩
    by_cases hy : y = x
    · subst hy
      rw [Function.update_self, hs.pc_other fun op e => hother op e rfl]
      exact hq
    · rwa [Function.update_of_ne hy]

/-- A leader waits for a client until that client answers. -/
theorem Net.asks_next (hs : Step (N.nodes x) l s)
    (hq : (N.nodes y).pc q = some ⟨op, since, .lead c b⟩) (hb : b.Asks i) :
    (∃ b', (Function.update N.nodes x s y).pc q = some ⟨op, since, .lead c b'⟩ ∧ b'.Asks i) ∨
    ∃ e, x = y ∧ l = .call q op e ∧ e.Answers i := by
  rcases Net.frame_next hs hq with ⟨hq', _⟩ | ⟨e, loc', hx, hl, ha, hq'⟩
  · exact Or.inl ⟨b, hq', hb⟩
  · rcases ha.asks hb with ⟨b', rfl, hb'⟩ | he
    · exact Or.inl ⟨b', hq', hb'⟩
    · exact Or.inr ⟨e, hx, hl, he⟩

end Frames

/-- Peer calls and calls fit together. -/
structure Wired {P : Type} (N : Net P) : Prop where
  asker : ∀ i pr, N.calls i = some pr → i.client.info.isSelf = false ∧
    ∃ since c b, (N.nodes i.node).pc i.proc = some ⟨pr.op, since, .lead c b⟩ ∧ b.Asks i.client
  server : ∀ i op q, N.calls i = some (.serving op q) → ∃ since loc,
    (N.nodes i.client.hashKey).pc q = some ⟨op.served, since, loc⟩ ∧ loc ≠ .returned
  single : ∀ i j op op' q, N.calls i = some (.serving op q) → N.calls j = some (.serving op' q) →
    i.client.hashKey = j.client.hashKey → i = j
  served : ∀ y q fr, (N.nodes y).pc q = some fr → ¬ fr.op.FromUser → fr.loc ≠ .returned →
    ∃ i op, N.calls i = some (.serving op q) ∧ i.client.hashKey = y ∧ op.served = fr.op
  distinct : ∀ y q op since c b, (N.nodes y).pc q = some ⟨op, since, .lead c b⟩ → b.Distinct
  outside : ∀ y q fr, (N.nodes y).pc q = some fr → ¬ fr.op.FromUser →
    fr.loc = .write ∨ (∃ a, fr.loc = .ret a) ∨ fr.loc = .returned

section Wired

variable {P : Type} [DecidableEq P] {N : Net P} {s : State P} {T : PeerCalls P} {x : GoString}
  {l : Label P}

theorem Wired.asker_step (hi : Wired N) (hs : Step (N.nodes x) l s) (hl : Link N.calls x l T)
    {i : PeerCall P} {pr : Progress P} (hpr : T i = some pr) : i.client.info.isSelf = false ∧
    ∃ since c b, (Function.update N.nodes x s i.node).pc i.proc = some ⟨pr.op, since, .lead c b⟩ ∧
      b.Asks i.client := by
  have hold : ∀ pr', N.calls i = some pr' → pr'.op = pr.op → i.client.info.isSelf = false ∧
      ∃ since c b, (Function.update N.nodes x s i.node).pc i.proc =
        some ⟨pr.op, since, .lead c b⟩ ∧ b.Asks i.client := by
    intro pr' hpr' hop
    obtain ⟨hself, since, c, b, hq, hb⟩ := hi.asker i pr' hpr'
    refine ⟨hself, since, c, ?_⟩
    rcases Net.asks_next hs hq hb with ⟨b', hq', hb'⟩ | ⟨e, rfl, rfl, he⟩
    · exact ⟨b', hop ▸ hq', hb'⟩
    · obtain ⟨a, _, _, hnone⟩ := hl.of_answers he hself
      have hnone : T i = none := hnone
      rw [hnone] at hpr
      cases hpr
  rcases hl.entry_cases hpr with hpr' | ⟨op, rfl, rfl, hx, hself⟩ | ⟨op, q, rfl, hsent, _⟩ |
    ⟨op, q, a, rfl, hserving, _⟩
  · exact hold pr hpr' rfl
  · obtain ⟨since, loc, loc', hp, ha, hpc⟩ := hs.frame (by simp)
    obtain ⟨c, b, b', g, rfl, rfl, hb⟩ := ha.send_lead
    refine ⟨hself, since, c, b', ?_, (hb.send_asks (hi.distinct x _ op since c b hp)).1⟩
    rw [hx, Function.update_self, hpc]
    exact Function.update_self ..
  · exact hold _ hsent rfl
  · exact hold _ hserving rfl

/-- A peer call that is being served is neither sent anew nor dropped. -/
theorem Wired.serving_next (hi : Wired N) (hs : Step (N.nodes x) l s) (hl : Link N.calls x l T)
    {i : PeerCall P} {op : Op} {q : P} (hserving : N.calls i = some (.serving op q)) :
    T i = some (.serving op q) ∨
    ∃ a, T i = some (.replied op a) ∧ l = .call q op.served (.ret a) ∧ i.client.hashKey = x := by
  rcases hl.serving_next hserving with hsame | ⟨op', rfl, rfl⟩ | hreplied
  · exact Or.inl hsame
  · obtain ⟨_, since, c, b, hq, hb⟩ := hi.asker i _ hserving
    obtain ⟨_, _, _, hp, ha, _⟩ := hs.frame (by simp)
    obtain ⟨_, _, _, _, rfl, _, hsend⟩ := ha.send_lead
    rw [hq] at hp
    cases hp
    exact ((hsend.send_asks (hi.distinct _ _ _ _ _ _ hq)).2 hb).elim
  · exact Or.inr hreplied

theorem Wired.server_step (hi : Wired N) (hs : Step (N.nodes x) l s) (hl : Link N.calls x l T)
    {i : PeerCall P} {op : Op} {q : P} (hserving : T i = some (.serving op q)) : ∃ since loc,
    (Function.update N.nodes x s i.client.hashKey).pc q = some ⟨op.served, since, loc⟩ ∧
      loc ≠ .returned := by
  rcases hl.entry_cases hserving with hold | ⟨_, ⟨⟩, _⟩ | ⟨_, _, ⟨⟩, _, rfl, rfl⟩ | ⟨_, _, _, ⟨⟩, _⟩
  · obtain ⟨since, loc, hq, hloc⟩ := hi.server i op q hold
    rcases Net.frame_next hs hq with ⟨hq', _⟩ | ⟨e, loc', rfl, rfl, ha, hq'⟩
    · exact ⟨since, loc, hq', hloc⟩
    · refine ⟨since, loc', hq', ?_⟩
      rintro rfl
      obtain ⟨a, rfl, _⟩ := ha.returned
      obtain ⟨j, op', hj, hx, hreplied⟩ := hl.of_ret hold rfl
      rw [hi.single j i op' op q hj hold hx, hserving] at hreplied
      cases hreplied
  · cases hs with
    | invoke _ _ =>
      rw [Function.update_self]
      exact ⟨_, _, Function.update_self .., start_ne_returned _⟩
    | act _ ha => exact (ha.ne_invoke rfl).elim

/-- The call that serves a peer call is not one that is being invoked. -/
theorem Wired.not_invoked (hi : Wired N) (hs : Step (N.nodes x) l s) {i j : PeerCall P}
    {op op' : Op} {q : P} (hold : N.calls i = some (.serving op q))
    (hkey : i.client.hashKey = j.client.hashKey) (hl : Link N.calls x l T)
    (hj : T j = some (.serving op' q)) : N.calls j = some (.serving op' q) := by
  rcases hl.entry_cases hj with hold' | ⟨_, ⟨⟩, _⟩ | ⟨_, _, ⟨⟩, _, rfl, rfl⟩ | ⟨_, _, _, ⟨⟩, _⟩
  · exact hold'
  · obtain ⟨_, _, hq, _⟩ := hi.server i op q hold
    rw [hkey, hs.invoke_pc] at hq
    cases hq

theorem Wired.single_step (hi : Wired N) (hs : Step (N.nodes x) l s) (hl : Link N.calls x l T)
    {i j : PeerCall P} {op op' : Op} {q : P} (hserving : T i = some (.serving op q))
    (hserving' : T j = some (.serving op' q)) (hkey : i.client.hashKey = j.client.hashKey) :
    i = j := by
  rcases hl.arrives_one hserving hserving' with hold | hold | rfl
  · exact hi.single i j op op' q hold (hi.not_invoked hs hold hkey hl hserving') hkey
  · exact hi.single i j op op' q (hi.not_invoked hs hold hkey.symm hl hserving) hold hkey
  · rfl

theorem Wired.served_step (hi : Wired N) (hs : Step (N.nodes x) l s) (hl : Link N.calls x l T)
    {y : GoString} {q : P} {fr : Frame} (hq : (Function.update N.nodes x s y).pc q = some fr)
    (hop : ¬ fr.op.FromUser) (hloc : fr.loc ≠ .returned) :
    ∃ i op, T i = some (.serving op q) ∧ i.client.hashKey = y ∧ op.served = fr.op := by
  have hold : ∀ loc, (N.nodes y).pc q = some ⟨fr.op, fr.since, loc⟩ → loc ≠ .returned →
      (∀ op a, x = y → l ≠ .call q op (.ret a)) →
      ∃ i op, T i = some (.serving op q) ∧ i.client.hashKey = y ∧ op.served = fr.op := by
    intro loc hq hloc hret
    obtain ⟨i, op, hserving, hkey, hserved⟩ := hi.served y q _ hq hop hloc
    rcases hi.serving_next hs hl hserving with hsame | ⟨a, _, hl, hx⟩
    · exact ⟨i, op, hsame, hkey, hserved⟩
    · exact (hret _ a (hx.symm.trans hkey) hl).elim
  rcases Net.frame_cases hs hq with ⟨hq, hl⟩ | ⟨e, loc, rfl, rfl, hq, ha⟩ | ⟨rfl, rfl, _, _⟩
  · exact hold fr.loc hq hloc fun op a hx => hl op (.ret a) hx
  · refine hold loc hq ha.not_returned ?_
    rintro op a _ ⟨⟩
    exact hloc ha.ret_locs.2
  · rcases hl.of_invoke with huser | ⟨j, op', hj, hx, hserved⟩
    · exact (hop huser).elim
    · exact ⟨j, op', hj, hx, hserved.symm⟩

theorem Wired.distinct_step (hi : Wired N) (hs : Step (N.nodes x) l s)
    (hpeers : (N.nodes x).node.inst.getAllPeers.Nodup) {y : GoString} {q : P} {op : Op}
    {since c : ℕ} {b : Body}
    (hq : (Function.update N.nodes x s y).pc q = some ⟨op, since, .lead c b⟩) : b.Distinct := by
  rcases Net.frame_cases hs hq with ⟨hq, _⟩ | ⟨e, loc, rfl, _, hq, ha⟩ | ⟨_, _, _, hloc⟩
  · exact hi.distinct y q op since c b hq
  · refine ha.distinct hpeers ?_
    rintro b rfl
    exact hi.distinct _ q op since c b hq
  · exact (start_ne_lead op hloc.symm).elim

theorem Wired.outside_step (hi : Wired N) (hs : Step (N.nodes x) l s) {y : GoString} {q : P}
    {fr : Frame} (hq : (Function.update N.nodes x s y).pc q = some fr) (hop : ¬ fr.op.FromUser) :
    fr.loc = .write ∨ (∃ a, fr.loc = .ret a) ∨ fr.loc = .returned := by
  rcases Net.frame_cases hs hq with ⟨hq, _⟩ | ⟨e, loc, rfl, _, hq, ha⟩ | ⟨_, _, _, hloc⟩
  · exact hi.outside y q fr hq hop
  · rcases hi.outside _ q _ hq hop with hloc | hloc | hloc
    · exact Or.inr (ha.outside hop (Or.inl hloc))
    · exact Or.inr (ha.outside hop (Or.inr hloc))
    · exact (ha.not_returned hloc).elim
  · obtain ⟨op, since, loc⟩ := fr
    cases op with
    | remoteSet | localRemove => exact Or.inl hloc
    | _ => exact (hop trivial).elim

theorem wired_step {K : KeysCalls P} (hi : Wired N) (hs : Step (N.nodes x) l s)
    (hl : Link N.calls x l T) (hpeers : (N.nodes x).node.inst.getAllPeers.Nodup) :
    Wired ⟨Function.update N.nodes x s, T, K⟩ where
  asker _ _ h := hi.asker_step hs hl h
  server _ _ _ h := hi.server_step hs hl h
  single _ _ _ _ _ h h' hkey := hi.single_step hs hl h h' hkey
  served _ _ _ h hop hloc := hi.served_step hs hl h hop hloc
  distinct _ _ _ _ _ _ h := hi.distinct_step hs hpeers h
  outside _ _ _ h hop := hi.outside_step hs h hop

theorem wired_initial {cacheBytes : GoString → ℤ} (h : (netLTS P cacheBytes).Init N) : Wired N := by
  obtain ⟨hnodes, hcalls, _⟩ := h
  refine ⟨?_, ?_, ?_, ?_, ?_, ?_⟩
  · simp [hcalls]
  · simp [hcalls]
  · simp [hcalls]
  · exact fun y q fr hq => (pc_ne_initial (hnodes y) hq).elim
  · exact fun y q _ _ _ _ hq => (pc_ne_initial (hnodes y) hq).elim
  · exact fun y q fr hq => (pc_ne_initial (hnodes y) hq).elim

end Wired

end Groupcache.Concurrent
