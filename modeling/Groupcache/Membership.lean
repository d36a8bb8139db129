import Groupcache.ConcurrentInvariants
import Groupcache.Ownership

/-! `Set` against changes of the peer list. It reads the peers twice, for the owner and for the
broadcast, and a call of `SetPeers` may come between the two. -/
namespace Groupcache.Concurrent

open Transport Peer

/-- The group of a new instance, whose peers only change by calls of `SetPeers` that return nil. -/
def memberLTS (P : Type) [DecidableEq P] (cacheBytes : ℤ) (env : PeerEnv) (opts : Peer.Options) :
    Lib.LTS (State P) (Label P) where
  Init s := (nodeLTS P cacheBytes).Init s ∧ s.node.inst = .new env opts
  Step s l t := Step s l t ∧ ∀ peers, l = .setPeers peers →
    ∃ env', (s.node.inst.setPeers env' peers).2 = none ∧
      t.node.inst = (s.node.inst.setPeers env' peers).1

variable {P : Type} {ls ms : List (Label P)} {l : Label P} {p q : P} {op : Op} {a : GoString}

/-- The call has called a client with this address. -/
def SentTo (ls : List (Label P)) (p : P) (a : GoString) : Prop :=
  ∃ op c, Label.call p op (.send c) ∈ ls ∧ c.hashKey = a

theorem sentTo_append : SentTo (ls ++ ms) p a ↔ SentTo ls p a ∨ SentTo ms p a := by
  simp only [SentTo, List.mem_append, or_and_right, exists_or]

theorem not_sentTo_nil : ¬SentTo ([] : List (Label P)) p a := by
  simp [SentTo]

theorem sentTo_singleton : SentTo [l] p a ↔ ∃ op c, l = .call p op (.send c) ∧ c.hashKey = a := by
  simp only [SentTo, List.mem_singleton, eq_comm]

/-- The owner that the call has picked, and whether it has been sent to already. -/
structure Picked (ls : List (Label P)) (p : P) (op : Op) (owner : Option Client)
    (isRemote : Bool) : Prop where
  pick : .call p op (.pick owner isRemote) ∈ ls
  remote : isRemote = true → ∃ c, owner = some c ∧ SentTo ls p c.hashKey
  self : isRemote = false → ∀ a, ¬SentTo ls p a

/-- What the function given to `Do` has done so far. -/
def Body.Recalls (ls : List (Label P)) (p : P) (op : Op) : Body → Prop
  | .lookup _ | .pick => ∀ a, ¬SentTo ls p a
  | .call c => .call p op (.pick (some c) true) ∈ ls
  | .calling c _ => .call p op (.pick (some c) true) ∈ ls ∧ SentTo ls p c.hashKey
  | .write owner | .peers owner => ∃ isRemote, Picked ls p op owner isRemote
  | _ => True

def Loc.Recalls (ls : List (Label P)) (p : P) (op : Op) : Loc → Prop
  | .lookup _ | .enter => ∀ a, ¬SentTo ls p a
  | .lead _ b => b.Recalls ls p op
  | _ => True

variable {n n' : Node} {time since c : ℕ} {b b' : Body} {e : Event} {g : Group Value}
  {loc loc' : Loc}

theorem Picked.append {owner : Option Client} {isRemote : Bool} (h : Picked ls p op owner isRemote)
    (hl : ∀ a, ¬SentTo [l] p a) : Picked (ls ++ [l]) p op owner isRemote where
  pick := List.mem_append_left _ h.pick
  remote := fun hr => (h.remote hr).imp fun _ hc => ⟨hc.1, sentTo_append.mpr (Or.inl hc.2)⟩
  self := fun hr a ha => (sentTo_append.mp ha).elim (h.self hr a) (hl a)

/-- An event that sends nothing keeps what the call recalls. -/
theorem Body.Recalls.append (h : b.Recalls ls p op) (hl : ∀ a, ¬SentTo [l] p a) :
    b.Recalls (ls ++ [l]) p op := by
  cases b with
  | lookup | pick => exact fun a ha => (sentTo_append.mp ha).elim (h a) (hl a)
  | call => exact List.mem_append_left _ h
  | calling => exact ⟨List.mem_append_left _ h.1, sentTo_append.mpr (Or.inl h.2)⟩
  | write | peers => exact h.imp fun _ hp => hp.append hl
  | _ => trivial

theorem Loc.Recalls.append (h : loc.Recalls ls p op) (hl : ∀ a, ¬SentTo [l] p a) :
    loc.Recalls (ls ++ [l]) p op := by
  cases loc with
  | lookup | enter => exact fun a ha => (sentTo_append.mp ha).elim (h a) (hl a)
  | lead c b => exact Body.Recalls.append h hl
  | _ => trivial

theorem not_sentTo_event (he : ∀ c, e ≠ .send c) (a : GoString) :
    ¬SentTo [.call p op e] p a := by
  rw [sentTo_singleton]
  rintro ⟨_, c, heq, _⟩
  cases heq
  exact he c rfl

theorem BodyStep.recalls (h : BodyStep n time op b e g b') (hb : b.Recalls ls p op) :
    b'.Recalls (ls ++ [.call p op e]) p op := by
  have hlast : Label.call p op e ∈ ls ++ [.call p op e] := by simp
  cases h with
  | next | miss => exact Body.Recalls.append hb (not_sentTo_event (by simp))
  | pickRemote => exact hlast
  | @pickLocal op owner =>
    have hpicked : Picked (ls ++ [.call p op (.pick owner false)]) p op owner false :=
      ⟨hlast, by simp, fun _ a ha => (sentTo_append.mp ha).elim (hb a)
        (not_sentTo_event (by simp) a)⟩
    cases op with
    | get => trivial
    | _ => exact ⟨false, hpicked⟩
  | @send op c =>
    exact ⟨List.mem_append_left _ hb, sentTo_append.mpr (Or.inr ⟨op, c, by simp, rfl⟩)⟩
  | @ownerDone op c =>
    have hsent : SentTo (ls ++ [.call p op (.answered c none)]) p c.hashKey :=
      sentTo_append.mpr (Or.inl hb.2)
    exact ⟨true, List.mem_append_left _ hb.1, fun _ => ⟨c, rfl, hsent⟩, by simp⟩
  | write => exact hb.imp fun _ hp => hp.append (not_sentTo_event (by simp))
  | @peers op owner =>
    rcases broadcast_cases op owner n.inst.getAllPeers with ⟨_, h⟩ | h <;> rw [h] <;> trivial
  | _ => trivial

theorem Act.recalls (h : Act n time op loc e n' loc') (hl : loc.Recalls ls p op) :
    loc'.Recalls (ls ++ [.call p op e]) p op := by
  cases h with
  | body h => exact h.recalls hl
  | next | miss => exact Loc.Recalls.append hl (not_sentTo_event (by simp))
  | @lead op =>
    have hnone : Loc.enter.Recalls (ls ++ [.call p op (.lead (n.flights op.flight).next)]) p op :=
      Loc.Recalls.append hl (not_sentTo_event (by simp))
    cases op <;> exact hnone
  | _ => trivial

theorem start_recalls (g : Group Value) (op : Op) (h : ∀ a, ¬SentTo ls p a) :
    (op.start g).Recalls ls p op := by
  rcases start_cases g op with ⟨_, h'⟩ | h' | h' | h' | ⟨_, h'⟩ <;> rw [h']
  all_goals first | exact h | trivial

variable [DecidableEq P] {s t t' : State P} {fr : Frame} {cacheBytes : ℤ} {env : PeerEnv}
  {opts : Peer.Options}

/-- Every call recalls what it has done, and a call that has not begun has sent nothing. -/
structure Recalled (ls : List (Label P)) (s : State P) : Prop where
  begun : ∀ p fr, s.pc p = some fr → fr.loc.Recalls ls p fr.op
  idle : ∀ p, s.pc p = none → ∀ a, ¬SentTo ls p a

theorem recalled_step (h : Step s l t) (hr : Recalled ls s) : Recalled (ls ++ [l]) t := by
  have hother : ∀ p, (∀ op e, l ≠ .call p op e) → ∀ a, ¬SentTo [l] p a := by
    intro p hl a ha
    obtain ⟨op, c, heq, _⟩ := sentTo_singleton.mp ha
    exact hl op _ heq
  constructor
  · intro p fr hp
    rcases h.frame_cases hp with ⟨hold, hl⟩ | ⟨e, loc, rfl, hold, ha⟩ | ⟨rfl, _, hloc⟩
    · exact (hr.begun p fr hold).append (hother p hl)
    · exact ha.recalls (hr.begun p ⟨fr.op, fr.since, loc⟩ hold)
    · have hnone : s.pc p = none := by
        cases h with
        | invoke _ hnone => exact hnone
        | act _ ha => exact (ha.ne_invoke rfl).elim
      rw [hloc]
      exact (start_recalls _ _ (hr.idle p hnone)).append (not_sentTo_event (by simp))
  · intro p hp a ha
    have hl : ∀ op e, l ≠ .call p op e := by
      rintro op e rfl
      cases h <;> simp [State.setPC] at hp
    have hnone : s.pc p = none := by rwa [h.pc_other hl] at hp
    exact (sentTo_append.mp ha).elim (hr.idle p hnone a) (hother p hl a)

theorem recalled_run (h : (memberLTS P cacheBytes env opts).Run ls s) : Recalled ls s := by
  refine h.invariant (I := Recalled) ?_ ?_
  · rintro s ⟨⟨_, _, _, hpc, _⟩, _⟩
    exact ⟨by simp [hpc], fun _ _ _ => not_sentTo_nil⟩
  · rintro ls s l t _ hr ⟨hs, _⟩
    exact recalled_step hs hr

/-- The call is in the loop over the peers, or waits for its goroutines. -/
def Loc.InLoop : Loc → Prop
  | .lead _ (.broadcast _ _ _) => True
  | _ => False

/-- The call has left the loop. -/
def Loc.PastLoop : Loc → Prop
  | .lead _ (.ends _ _) | .assigned _ _ _ | .done _ _ _ | .ret _ | .returned => True
  | _ => False

/-- Of the goroutines in `todo` those that are not in the loop any more have sent. -/
def Started (todo : List Client) (ls : List (Label P)) (p : P) (loc : Loc) : Prop :=
  (∃ c rest flying errs, loc = .lead c (.broadcast rest flying errs) ∧
    ∀ i ∈ todo, i ∈ rest ∨ SentTo ls p i.hashKey) ∨
  loc.PastLoop ∧ ∀ i ∈ todo, SentTo ls p i.hashKey

variable {todo : List Client}

theorem Act.pastLoop (h : Act n time op loc e n' loc') (hl : loc.PastLoop) : loc'.PastLoop := by
  cases h with
  | assign | done | delete | ret => trivial
  | body h => cases h <;> exact hl.elim
  | _ => exact hl.elim

omit [DecidableEq P] in
theorem Act.started (h : Act n time op loc e n' loc') (hs : Started todo ls p loc) :
    Started todo (ls ++ [.call p op e]) p loc' := by
  have hmono : ∀ {a}, SentTo ls p a → SentTo (ls ++ [.call p op e]) p a :=
    fun ha => sentTo_append.mpr (Or.inl ha)
  rcases hs with ⟨c, rest, flying, errs, rfl, hs⟩ | ⟨hpast, hs⟩
  · cases h with
    | body h =>
      cases h with
      | @sendPeer _ j =>
        refine Or.inl ⟨c, _, _, _, rfl, fun i hi => ?_⟩
        by_cases hij : i = j
        · exact Or.inr (sentTo_append.mpr (Or.inr ⟨op, j, by simp, by rw [hij]⟩))
        · exact (hs i hi).imp (fun hrest => (List.mem_erase_of_ne hij).mpr hrest) hmono
      | answered => exact Or.inl ⟨c, _, _, _, rfl, fun i hi => (hs i hi).imp_right hmono⟩
      | wait => exact Or.inr ⟨trivial, fun i hi => hmono ((hs i hi).resolve_left (by simp))⟩
  · exact Or.inr ⟨h.pastLoop hpast, fun i hi => hmono (hs i hi)⟩

theorem started_step (h : Step s l t) (hs : ∃ fr, s.pc p = some fr ∧ Started todo ls p fr.loc) :
    ∃ fr, t.pc p = some fr ∧ Started todo (ls ++ [l]) p fr.loc := by
  obtain ⟨fr, hp, hs⟩ := hs
  rcases h.frame_next hp with hp' | ⟨e, loc', rfl, ha, hp'⟩
  · have hmono : ∀ {a}, SentTo ls p a → SentTo (ls ++ [l]) p a :=
      fun ha => sentTo_append.mpr (Or.inl ha)
    refine ⟨fr, hp', hs.imp ?_ ?_⟩
    · rintro ⟨c, rest, flying, errs, hloc, hs⟩
      exact ⟨c, rest, flying, errs, hloc, fun i hi => (hs i hi).imp_right hmono⟩
    · exact fun hs => ⟨hs.1, fun i hi => hmono (hs.2 i hi)⟩
  · exact ⟨_, hp', ha.started hs⟩

/-- Once the call has left the loop, every goroutine that it has started has sent. -/
theorem sent_of_started {c : ℕ} (hp : t.pc p = some ⟨op, since, .lead c (.broadcast todo [] [])⟩)
    (h : ((memberLTS P cacheBytes env opts).after t).Run ms t') (hp' : t'.pc p = some fr)
    (hout : ¬fr.loc.InLoop) {i : Client} (hi : i ∈ todo) : SentTo ms p i.hashKey := by
  have hstarted : ∃ fr, t'.pc p = some fr ∧ Started todo ms p fr.loc := by
    refine h.invariant (I := fun ms t' => ∃ fr, t'.pc p = some fr ∧ Started todo ms p fr.loc)
      ?_ ?_
    · rintro _ rfl
      exact ⟨_, hp, Or.inl ⟨c, todo, [], [], rfl, fun i hi => Or.inl hi⟩⟩
    · rintro ms s l u _ hs ⟨hstep, _⟩
      exact started_step hstep hs
  obtain ⟨fr', hfr, hs⟩ := hstarted
  rw [hp'] at hfr
  cases hfr
  rcases hs with ⟨_, _, _, _, hloc, _⟩ | ⟨_, hs⟩
  · rw [hloc] at hout
    exact (hout trivial).elim
  · exact hs i hi

/-- The goroutines may all be answered, and then nobody else has been called. -/
theorem loop_ends {c : ℕ} {errs : List Err}
    (hp : t.pc p = some ⟨op, since, .lead c (.broadcast todo [] errs)⟩) :
    ∃ ms t' fr, ((memberLTS P cacheBytes env opts).after t).Run ms t' ∧ t'.pc p = some fr ∧
      ¬fr.loc.InLoop ∧ ∀ a, SentTo ms p a → ∃ i ∈ todo, i.hashKey = a := by
  induction todo generalizing t with
  | nil =>
    refine ⟨_, _, _, .step (.init rfl) ⟨.act hp (.body .wait), by simp⟩, Function.update_self ..,
      id, fun a ha => ?_⟩
    exact (not_sentTo_event (by simp) a ha).elim
  | cons i todo ih =>
    have hsend : BodyStep t.node t.clock op (.broadcast (i :: todo) [] errs) (.send i)
        t.node.group (.broadcast ((i :: todo).erase i) [i] errs) := .sendPeer List.mem_cons_self
    rw [List.erase_cons_head] at hsend
    let t₁ := t.setPC p ⟨op, since, .lead c (.broadcast todo [i] errs)⟩ t.node
    have hp₁ : t₁.pc p = some ⟨op, since, .lead c (.broadcast todo [i] errs)⟩ :=
      Function.update_self ..
    have hanswer : BodyStep t₁.node t₁.clock op (.broadcast todo [i] errs) (.answered i none)
        t₁.node.group (.broadcast todo ([i].erase i) (errs ++ [])) :=
      .answered none List.mem_cons_self (by simp) (by simp)
    rw [List.erase_cons_head, List.append_nil] at hanswer
    have hrun₁ : ((memberLTS P cacheBytes env opts).after t).Run [.call p op (.send i)] t₁ :=
      .step (.init rfl) ⟨.act hp (.body hsend), by simp⟩
    have hrun : ((memberLTS P cacheBytes env opts).after t).Run
        ([.call p op (.send i)] ++ [.call p op (.answered i none)])
        (t₁.setPC p ⟨op, since, .lead c (.broadcast todo [] errs)⟩ t₁.node) :=
      hrun₁.step ⟨.act hp₁ (.body hanswer), by simp⟩
    obtain ⟨ms, t', fr, hms, hfr, hout, hsent⟩ := ih (t := t₁.setPC p
      ⟨op, since, .lead c (.broadcast todo [] errs)⟩ t₁.node) (Function.update_self ..)
    refine ⟨_, t', fr, hrun.append hms, hfr, hout, fun a ha => ?_⟩
    rcases sentTo_append.mp ha with ⟨_, j, hj, hkey⟩ | ha
    · obtain ⟨_, rfl⟩ : op = _ ∧ i = j := by simpa [eq_comm] using hj
      exact ⟨i, List.mem_cons_self, hkey⟩
    · obtain ⟨j, hj, hkey⟩ := hsent a ha
      exact ⟨j, List.mem_cons_of_mem _ hj, hkey⟩

/-- What `Set` is to do with the list `ps` it has read at the end of the history: no nil owner is
asked for its `HashKey`, and once the loop is left every peer but self has been sent the value. -/
structure SetReaches (A : Lib.LTS (State P) (Label P)) (ls : List (Label P)) (p : P)
    (ps : List Client) (t : State P) : Prop where
  no_panic : ∀ fr c pop, t.pc p = some fr → fr.loc ≠ .lead c (.ends .panic pop)
  sent : ∀ ms t' fr, (A.after t).Run ms t' → t'.pc p = some fr → ¬fr.loc.InLoop →
    ∀ q ∈ ps, q.info.isSelf = false → SentTo (ls ++ ms) p q.hashKey

/-- How the owner read first has to fit the list read later: there is one, unless nobody else is
listed, and if it was self, its address is not that of another peer now. -/
structure Fits (owner : Option Client) (isRemote : Bool) (ps : List Client) : Prop where
  named : owner ≠ none ∨ ∀ q ∈ ps, q.info.isSelf = true
  self : isRemote = false → ∀ c, owner = some c →
    ∀ q ∈ ps, q.info.isSelf = false → q.hashKey ≠ c.hashKey

theorem Act.peers_cases (h : Act n time op loc .peers n' loc') : ∃ c owner,
    loc = .lead c (.peers owner) ∧ loc' = .lead c (op.broadcast owner n.inst.getAllPeers) := by
  cases h with
  | body h =>
    cases h with
    | peers => exact ⟨_, _, rfl, rfl⟩

variable {key : GoString} {value : Option GoString} {expire : Time} {ps : List Client}
  {owner : Option Client} {isRemote : Bool}

omit [DecidableEq P] in
theorem not_panicked {c : ℕ} (hp : t.pc p = some ⟨op, since, .lead c (.broadcast todo [] [])⟩) :
    ∀ fr c pop, t.pc p = some fr → fr.loc ≠ .lead c (.ends .panic pop) := by
  intro fr c' pop hfr
  rw [hp] at hfr
  cases hfr
  simp

theorem setReaches_of_fits {c : ℕ} (hpicked : Picked ls p (.set key value expire) owner isRemote)
    (hp : t.pc p = some ⟨.set key value expire, since,
      .lead c ((Op.set key value expire).broadcast owner ps)⟩) (h : Fits owner isRemote ps) :
    SetReaches (memberLTS P cacheBytes env opts) ls p ps t := by
  cases owner with
  | none =>
    have hself := h.named.resolve_left (by simp)
    have hall : ps.all (·.info.isSelf) = true := by simpa using hself
    rw [Op.broadcast, if_pos hall] at hp
    refine ⟨not_panicked hp, fun _ _ _ _ _ _ q hq hne => ?_⟩
    rw [hself q hq] at hne
    cases hne
  | some c' =>
    rw [Op.broadcast] at hp
    refine ⟨not_panicked hp, fun ms t' fr hms hfr hout q hq hne => sentTo_append.mpr ?_⟩
    by_cases hkey : q.hashKey = c'.hashKey
    · cases isRemote with
      | false => exact (h.self rfl c' rfl q hq hne hkey).elim
      | true =>
        obtain ⟨_, ⟨⟩, hsent⟩ := hpicked.remote rfl
        exact Or.inl (hkey ▸ hsent)
    · exact Or.inr (sent_of_started hp hms hfr hout (by simp [hq, hne, hkey]))

theorem fits_of_setReaches {c : ℕ} (hpicked : Picked ls p (.set key value expire) owner isRemote)
    (hp : t.pc p = some ⟨.set key value expire, since,
      .lead c ((Op.set key value expire).broadcast owner ps)⟩)
    (h : SetReaches (memberLTS P cacheBytes env opts) ls p ps t) : Fits owner isRemote ps := by
  constructor
  · cases owner with
    | some c' => exact Or.inl (by simp)
    | none =>
      refine Or.inr ?_
      by_contra hself
      rw [Op.broadcast, if_neg (by simpa using hself)] at hp
      exact h.no_panic _ c false hp rfl
  · rintro rfl c' rfl q hq hne hkey
    rw [Op.broadcast] at hp
    obtain ⟨ms, t', fr, hms, hfr, hout, hsent⟩ := loop_ends hp
    rcases sentTo_append.mp (h.sent ms t' fr hms hfr hout q hq hne) with hold | hnew
    · exact hpicked.self rfl _ hold
    · obtain ⟨i, hi, heq⟩ := hsent _ hnew
      have hi' : i.hashKey ≠ c'.hashKey := by
        have := (List.mem_filter.mp hi).2
        simp_all
      exact hi' (heq.trans hkey)

/-- `Set` reaches the peers of the list it reads, and does not trip over a nil owner, exactly if
that list fits the owner it has picked before. -/
theorem set_reaches_iff (h : (memberLTS P cacheBytes env opts).Run ls s)
    (hs : (memberLTS P cacheBytes env opts).Step s (.call p (.set key value expire) .peers) t) :
    ∃ owner isRemote, .call p (.set key value expire) (.pick owner isRemote) ∈ ls ∧
      (SetReaches (memberLTS P cacheBytes env opts)
          (ls ++ [.call p (.set key value expire) .peers]) p s.node.inst.getAllPeers t ↔
        Fits owner isRemote s.node.inst.getAllPeers) := by
  obtain ⟨since, loc, loc', hp, ha, ht⟩ := hs.1.frame (by simp)
  obtain ⟨c, owner, rfl, rfl⟩ := ha.peers_cases
  obtain ⟨isRemote, hpicked⟩ := (recalled_run h).begun p _ hp
  have hp' : t.pc p = some ⟨.set key value expire, since,
      .lead c ((Op.set key value expire).broadcast owner s.node.inst.getAllPeers)⟩ := by
    rw [ht]
    exact Function.update_self ..
  have hpicked' := hpicked.append (l := .call p (.set key value expire) .peers)
    (not_sentTo_event (by simp))
  exact ⟨owner, isRemote, hpicked.pick, fits_of_setReaches hpicked' hp',
    setReaches_of_fits hpicked' hp'⟩

/-- A group of a new instance, which has no peers yet. -/
def newcomer : State ℕ :=
  { node := { group := .new 1000, flights := fun _ => .empty, inst := .new hostEnv ⟨none, 1⟩,
              logger := true }
    clock := 0
    pc := fun _ => none }

def setOwn : Op := .set [7] (some [1]) .zero

theorem newcomer_initial : (memberLTS ℕ 1000 hostEnv ⟨none, 1⟩).Init newcomer :=
  ⟨⟨rfl, fun _ => rfl, rfl, fun _ => rfl, fun _ => rfl⟩, rfl⟩

theorem hostPeers_installed {x : GoString} (hx : x ∈ [hostB, hostA]) :
    ((Instance.new hostEnv ⟨none, 1⟩).setPeers hostEnv (memberPeers x [hostB, hostA])).2 = none :=
  Instance.setPeers_returns_nil _ _ (fun _ _ _ => rfl)
    ⟨⟨x, true⟩, List.mem_map.mpr ⟨x, hx, by simp⟩, rfl⟩

/-- With the list installed before, the call reaches the other member. -/
theorem set_reaches_hosts : ∃ ls s t, (memberLTS ℕ 1000 hostEnv ⟨none, 1⟩).Run ls s ∧
    (memberLTS ℕ 1000 hostEnv ⟨none, 1⟩).Step s (.call 0 setOwn .peers) t ∧
    SetReaches (memberLTS ℕ 1000 hostEnv ⟨none, 1⟩) (ls ++ [.call 0 setOwn .peers]) 0
      s.node.inst.getAllPeers t := by
  have h₁ := Lib.LTS.Run.step (.init newcomer_initial)
    ⟨Step.setPeers hostEnv (memberPeers hostB [hostB, hostA]), by
      rintro _ ⟨⟩; exact ⟨hostEnv, hostPeers_installed (by simp), rfl⟩⟩
  have h₂ := h₁.step ⟨Step.invoke (p := 0) setOwn rfl, by simp⟩
  have h₃ := h₂.step ⟨Step.act (p := 0) rfl (.lead rfl), by simp⟩
  have h₄ := h₃.step ⟨Step.act (p := 0) rfl (.body (.pickLocal pick_hostB)), by simp⟩
  have h₅ := h₄.step ⟨Step.act (p := 0) rfl (.body (.write (by decide))), by simp⟩
  refine ⟨_, _, _, h₅, ⟨Step.act (p := 0) rfl (.body .peers), by simp⟩, ?_⟩
  obtain ⟨owner, isRemote, hmem, hiff⟩ := set_reaches_iff h₅
    ⟨Step.act (p := 0) rfl (.body .peers), by simp⟩
  obtain ⟨rfl, rfl⟩ : owner = some ⟨0, ⟨hostB, true⟩⟩ ∧ isRemote = false := by
    simpa [setOwn] using hmem
  refine hiff.mpr ⟨Or.inl (by simp), ?_⟩
  change false = false → ∀ c, _ → ∀ q ∈ (hostInst hostB).getAllPeers, _
  rw [peers_hostB]
  rintro _ _ ⟨⟩ q hq hne
  rcases List.mem_pair.mp hq with rfl | rfl
  · decide
  · cases hne

/-- With no list before and the first one installed between the two readings, it panics. -/
theorem set_nil_owner : ∃ ls s t, (memberLTS ℕ 1000 hostEnv ⟨none, 1⟩).Run ls s ∧
    (memberLTS ℕ 1000 hostEnv ⟨none, 1⟩).Step s (.call 0 setOwn .peers) t ∧
    .call 0 setOwn (.pick none false) ∈ ls ∧
    t.pc 0 = some ⟨setOwn, 0, .lead 0 (.ends .panic false)⟩ ∧
    ¬SetReaches (memberLTS ℕ 1000 hostEnv ⟨none, 1⟩) (ls ++ [.call 0 setOwn .peers]) 0
      s.node.inst.getAllPeers t := by
  have h₁ := Lib.LTS.Run.step (.init newcomer_initial) ⟨Step.invoke (p := 0) setOwn rfl, by simp⟩
  have h₂ := h₁.step ⟨Step.act (p := 0) rfl (.lead rfl), by simp⟩
  have h₃ := h₂.step ⟨Step.act (p := 0) rfl (.body (.pickLocal rfl)), by simp⟩
  have h₄ := h₃.step ⟨Step.act (p := 0) rfl (.body (.write (by decide))), by simp⟩
  have h₅ := h₄.step ⟨Step.setPeers hostEnv (memberPeers hostB [hostB, hostA]), by
    rintro _ ⟨⟩; exact ⟨hostEnv, hostPeers_installed (by simp), rfl⟩⟩
  have hpanic : setOwn.broadcast none (hostInst hostB).getAllPeers = .ends .panic false := by
    rw [peers_hostB]
    rfl
  have hpc : ∀ (s : State ℕ), s.node.inst = hostInst hostB → (s.setPC 0 ⟨setOwn, 0, .lead 0
      (setOwn.broadcast none s.node.inst.getAllPeers)⟩ s.node).pc 0 =
        some ⟨setOwn, 0, .lead 0 (.ends .panic false)⟩ := by
    intro s hs
    simp [State.setPC, hs, hpanic]
  refine ⟨_, _, _, h₅, ⟨Step.act (p := 0) rfl (.body .peers), by simp⟩, by simp, hpc _ rfl, ?_⟩
  intro h
  exact h.no_panic _ 0 false (hpc _ rfl) rfl

end Groupcache.Concurrent
