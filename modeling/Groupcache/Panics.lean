import Groupcache.CallProgress
import Groupcache.LostWrites
import Groupcache.Membership
import Groupcache.StaleLoads

/-! Which calls panic. A panic stays in the call whose own function panicked, whoever waits for it
or comes later; only a goroutine of a `Set` that has no Logger takes the process with it. -/
namespace Groupcache.Concurrent

open Transport Peer
open Singleflight (Outcome Role)

variable {P : Type} {ls : List (Label P)} {l : Label P} {p : P} {op : Op}

/-- Why a call may panic: its own Getter call did, or it is a `Set` without an owner. -/
def Panics (ls : List (Label P)) (p : P) (op : Op) : Prop :=
  op.IsGet ∧ .call p op (.failed none) ∈ ls ∨
    op.flight = .set ∧ .call p op (.pick none false) ∈ ls

theorem Panics.append (h : Panics ls p op) : Panics (ls ++ [l]) p op :=
  h.imp (And.imp_right (List.mem_append_left _)) (And.imp_right (List.mem_append_left _))

/-- The outcome of a call's function: a load that does not fail has a value, and a panic has a
cause. -/
def Explained (ls : List (Label P)) (p : P) (op : Op) (o : Outcome Value) : Prop :=
  (op.IsGet → o.result ≠ (none, none)) ∧ (o = .panic → Panics ls p op)

/-- The end of a call's function, and of the call, is explained. -/
def Loc.Explained (ls : List (Label P)) (p : P) (op : Op) : Loc → Prop
  | .lead _ (.ends o _) | .assigned _ o _ | .done _ o _ => Concurrent.Explained ls p op o
  | .ret a => a = .panic → Panics ls p op
  | _ => True

variable {n n' : Node} {time since c : ℕ} {b b' : Body} {e : Event} {g : Group Value}
  {loc loc' : Loc} {o : Outcome Value} {pop : Bool}

theorem Explained.append (h : Explained ls p op o) : Explained (ls ++ [l]) p op o :=
  ⟨h.1, fun ho => (h.2 ho).append⟩

theorem Loc.Explained.append (h : loc.Explained ls p op) : loc.Explained (ls ++ [l]) p op := by
  cases loc with
  | lead c b =>
    cases b with
    | ends => exact Concurrent.Explained.append h
    | _ => trivial
  | assigned | done => exact Concurrent.Explained.append h
  | ret => exact fun ha => (h ha).append
  | _ => trivial

theorem deliver_ne_panic (dest : Option Sink) (v : Value) : Op.deliver dest v ≠ .panic := by
  unfold Op.deliver
  split
  · simp
  · split <;> simp

/-- A call panics after `Do` only if its function did. -/
theorem answer_panic (h : op.answer o pop = .panic) (ho : op.IsGet → o.result ≠ (none, none)) :
    o = .panic := by
  cases o with
  | panic => rfl
  | ret val err =>
    cases op with
    | get key dest =>
      cases err with
      | some e => cases h
      | none =>
        cases val with
        | none => exact (ho trivial rfl).elim
        | some v =>
          simp only [Op.answer] at h
          split at h
          · cases h
          · exact (deliver_ne_panic dest v h).elim
    | _ => cases err <;> cases h

theorem Op.IsGet.flight_eq (h : op.IsGet) : op.flight = .load := by
  cases op with
  | get => rfl
  | _ => exact h.elim

/-- Only the loop of `Set` panics, and only without an owner. -/
theorem broadcast_panic {owner : Option Client} {peers : List Client}
    (h : op.broadcast owner peers = .ends .panic false) : op.flight = .set ∧ owner = none := by
  cases op with
  | set =>
    cases owner with
    | none => exact ⟨rfl, rfl⟩
    | some => cases h
  | _ => cases h

theorem Picked.none_local {isRemote : Bool} (h : Picked ls p op none isRemote) :
    .call p op (.pick none false) ∈ ls := by
  cases isRemote with
  | false => exact h.pick
  | true =>
    obtain ⟨_, hc, _⟩ := h.remote rfl
    cases hc

theorem BodyStep.explained (h : BodyStep n time op b e g b') (hb : b.Recalls ls p op)
    (hfits : b.Fits op) : Loc.Explained (ls ++ [.call p op e]) p op (.lead c b') := by
  cases h with
  | hit | fillHot | fillMain | fetchFinal | fetchGiveUp | failed | ownerFailed =>
    exact ⟨by simp [Outcome.result], by simp⟩
  | panicked => exact ⟨by simp [Outcome.result], fun _ => Or.inl ⟨trivial, by simp⟩⟩
  | wait => exact ⟨fun hget => (hfits hget.flight_eq).elim, by simp⟩
  | @peers op owner =>
    rcases broadcast_cases op owner n.inst.getAllPeers with ⟨_, hcast⟩ | hcast <;> rw [hcast]
    · trivial
    · obtain ⟨hop, rfl⟩ := broadcast_panic hcast
      obtain ⟨isRemote, hpicked⟩ := hb
      exact ⟨by simp [Outcome.result],
        fun _ => Or.inr ⟨hop, List.mem_append_left _ hpicked.none_local⟩⟩
  | pickLocal => cases op <;> trivial
  | _ => trivial

/-- What a closed execution of a load holds for those that wait on it. -/
def Delivers (n : Node) : Prop :=
  ∀ c, ((n.flights .load).calls c).wg = false → ((n.flights .load).calls c).result ≠ (none, none)

theorem Act.explained (h : Act n time op loc e n' loc') (hl : loc.Recalls ls p op)
    (hfits : loc.Fits op) (ho : loc.Explained ls p op) (hd : Delivers n) :
    loc'.Explained (ls ++ [.call p op e]) p op := by
  cases h with
  | hit => exact fun ha => (deliver_ne_panic _ _ ha).elim
  | lead => cases op <;> trivial
  | body h => exact h.explained hl hfits
  | assign | done => exact Concurrent.Explained.append ho
  | delete => exact fun ha => (ho.2 (answer_panic ha ho.1)).append
  | @wake op c hwg =>
    intro ha
    have hval : op.IsGet → ((n.flights op.flight).calls c).result ≠ (none, none) := by
      intro hget
      rw [hget.flight_eq] at hwg ⊢
      exact hd c hwg
    cases answer_panic ha hval
  | remoteSet | localRemove => exact nofun
  | _ => trivial

variable [DecidableEq P] {s t : State P} {fr : Frame} {cacheBytes : ℤ}

theorem Op.isGet_of_load (hop : op.flight = .load) (huser : op.FromUser) : op.IsGet := by
  cases op with
  | get => trivial
  | set | remove => cases hop
  | remoteSet | localRemove => exact huser.elim

omit [DecidableEq P] in
/-- What stands at the next unused pointer stays, or is a new execution. -/
theorem Act.calls_next {f : Flight} (h : Act s.node s.clock op loc e n' loc') (hi : Flights s)
    (hp : s.pc p = some ⟨op, since, loc⟩) :
    (n'.flights f).calls (s.node.flights f).next =
        (s.node.flights f).calls (s.node.flights f).next ∨
      (n'.flights f).calls (s.node.flights f).next = .new := by
  have hlt : ∀ c, loc.Leading c → c < (s.node.flights op.flight).next := by
    intro c hlead
    have hok := hi.frame_ok hp
    cases loc with
    | lead | assigned | done =>
      cases hlead
      exact hok.2.1
    | _ => exact hlead.elim
  by_cases hf : f = op.flight
  · subst hf
    cases h with
    | lead => exact Or.inr (by simp [Singleflight.Group.register])
    | @assign _ c o =>
      have hne := (hlt c rfl).ne'
      exact Or.inl (by cases o <;> simp [Singleflight.Group.assign, hne])
    | @done _ c =>
      have hne := (hlt c rfl).ne'
      exact Or.inl (by simp [Singleflight.Group.done, hne])
    | delete => exact Or.inl (by simp [Singleflight.Group.delete])
    | join => exact Or.inl (by simp)
    | _ => exact Or.inl rfl
  · exact Or.inl ((h.calls_cases f _).resolve_right fun h => hf h.1)

omit [DecidableEq P] in
/-- A closed execution of a load holds the outcome of its leader. -/
theorem delivers_act (h : Act s.node s.clock op loc e n' loc') (hi : Flights s)
    (hp : s.pc p = some ⟨op, since, loc⟩) (hfits : loc.Fits op) (ho : loc.Explained ls p op)
    (hd : Delivers s.node) : Delivers n' := by
  intro c hwg
  have hsame : (n'.flights .load).calls c = (s.node.flights .load).calls c →
      ((n'.flights .load).calls c).result ≠ (none, none) := by
    intro hsame
    rw [hsame] at hwg ⊢
    exact hd c hwg
  rcases h.calls_cases .load c with heq |
    ⟨hf, rfl | ⟨o, pop, rfl, hkeep⟩ | ⟨o, pop, rfl, rfl, hres⟩⟩
  · exact hsame heq
  · rcases h.calls_next hi hp with heq | hnew
    · exact hsame heq
    · rw [hnew] at hwg
      cases hwg
  · have hok := hi.frame_ok hp
    rw [hkeep, hf, hok.2.2] at hwg
    cases hwg
  · have hok := hi.frame_ok hp
    rw [hres, hf, hok.2.2.2]
    exact ho.1 (Op.isGet_of_load hf.symm hfits)

/-- Every end of a call is explained by the history. -/
structure AllExplained (ls : List (Label P)) (s : State P) : Prop where
  recalled : Recalled ls s
  delivers : Delivers s.node
  explained : ∀ p fr, s.pc p = some fr → fr.loc.Explained ls p fr.op

theorem allExplained_step (h : Step s l t) (hi : Flights s)
    (hfits : ∀ p fr, s.pc p = some fr → fr.loc.Fits fr.op) (hs : AllExplained ls s) :
    AllExplained (ls ++ [l]) t := by
  refine ⟨recalled_step h hs.recalled, ?_, ?_⟩
  · cases h with
    | invoke =>
      intro c
      simpa [State.setPC] using hs.delivers c
    | act hp ha => exact delivers_act ha hi hp (hfits _ _ hp) (hs.explained _ _ hp) hs.delivers
    | keys | setPeers => exact hs.delivers
  · intro p fr hp
    rcases h.frame_cases hp with ⟨hold, _⟩ | ⟨e, loc, rfl, hold, ha⟩ | ⟨rfl, _, hloc⟩
    · exact (hs.explained p fr hold).append
    · exact ha.explained (hs.recalled.begun p _ hold) (hfits p _ hold) (hs.explained p _ hold)
        hs.delivers
    · rw [hloc]
      rcases start_cases s.node.group fr.op with ⟨_, h'⟩ | h' | h' | h' | ⟨_, h'⟩ <;> rw [h']
      all_goals simp [Loc.Explained]

theorem allExplained_run (h : (nodeLTS P cacheBytes).Run ls s) : AllExplained ls s := by
  refine h.invariant (I := AllExplained) ?_ ?_
  · intro s hinit
    refine ⟨⟨fun p fr hp => (pc_ne_initial hinit hp).elim, fun _ _ _ => not_sentTo_nil⟩, ?_,
      fun p fr hp => (pc_ne_initial hinit hp).elim⟩
    intro c hwg
    rw [hinit.2.1] at hwg
    cases hwg
  · intro ls s l t hrun hs hstep
    exact allExplained_step hstep (sound_reachable hrun).flights (fun _ _ => fits_run hrun) hs

/-- A `Get` of a key that the node owns. -/
def getOwn : Op := .get [7] (some .allocating)

/-- At `B`, a `Get` whose Getter call panics while another one waits for it, and then a `Set` that
waits for its peer `A`. -/
def panicRun : List (Label ℕ) :=
  [.call 0 getOwn .invoke, .call 0 getOwn .lookup, .call 0 getOwn .lookup, .call 0 getOwn (.lead 0),
    .call 0 getOwn .lookup, .call 0 getOwn .lookup,
    .call 0 getOwn (.pick (some ⟨0, ⟨hostB, true⟩⟩) false), .call 0 getOwn .callGetter,
    .call 1 getOwn .invoke, .call 1 getOwn .lookup, .call 1 getOwn .lookup,
    .call 1 getOwn (.join 0), .call 0 getOwn (.failed none), .call 0 getOwn .assign,
    .call 0 getOwn .done, .call 1 getOwn .wake, .call 1 getOwn (.ret (.err .leaderPanicked)),
    .call 0 getOwn .delete, .call 0 getOwn (.ret .panic),
    .call 2 setOwn .invoke, .call 2 setOwn (.lead 0),
    .call 2 setOwn (.pick (some ⟨0, ⟨hostB, true⟩⟩) false), .call 2 setOwn .write,
    .call 2 setOwn .peers, .call 2 setOwn (.send ⟨1, ⟨hostA, false⟩⟩)]

theorem panicRun_run : ∃ s : State ℕ, (nodeLTS ℕ 1000).Run panicRun s ∧
    s.Unlogged 2 setOwn ⟨1, ⟨hostA, false⟩⟩ := by
  have h₀ : (nodeLTS ℕ 1000).Run [] (hostState hostB) := .init (hostState_initial hostB)
  have h₁ := h₀.step (Step.invoke (p := 0) getOwn rfl)
  have h₂ := h₁.step (Step.act (p := 0) rfl (.next .zero rfl))
  have h₃ := h₂.step (Step.act (p := 0) rfl (.miss .zero rfl))
  have h₄ := h₃.step (Step.act (p := 0) rfl (.lead rfl))
  have h₅ := h₄.step (Step.act (p := 0) rfl (.body (.next .zero rfl)))
  have h₆ := h₅.step (Step.act (p := 0) rfl (.body (.miss .zero rfl)))
  have h₇ := h₆.step (Step.act (p := 0) rfl (.body (.pickLocal pick_hostB)))
  have h₈ := h₇.step (Step.act (p := 0) rfl (.body .callGetter))
  have h₉ := h₈.step (Step.invoke (p := 1) getOwn rfl)
  have h₁₀ := h₉.step (Step.act (p := 1) rfl (.next .zero rfl))
  have h₁₁ := h₁₀.step (Step.act (p := 1) rfl (.miss .zero rfl))
  have h₁₂ := h₁₁.step (Step.act (p := 1) rfl (.join rfl))
  have h₁₃ := h₁₂.step (Step.act (p := 0) rfl (.body .panicked))
  have h₁₄ := h₁₃.step (Step.act (p := 0) rfl .assign)
  have h₁₅ := h₁₄.step (Step.act (p := 0) rfl .done)
  have h₁₆ := h₁₅.step (Step.act (p := 1) rfl (.wake rfl))
  have h₁₇ := h₁₆.step (Step.act (p := 1) rfl .ret)
  have h₁₈ := h₁₇.step (Step.act (p := 0) rfl .delete)
  have h₁₉ := h₁₈.step (Step.act (p := 0) rfl .ret)
  have h₂₀ := h₁₉.step (Step.invoke (p := 2) setOwn rfl)
  have h₂₁ := h₂₀.step (Step.act (p := 2) rfl (.lead rfl))
  have h₂₂ := h₂₁.step (Step.act (p := 2) rfl (.body (.pickLocal pick_hostB)))
  have h₂₃ := h₂₂.step (Step.act (p := 2) rfl (.body (.write nofun)))
  have h₂₄ := h₂₃.step (Step.act (p := 2) rfl (act_peers (broadcast_hostB _ _)))
  have h₂₅ := h₂₄.step (Step.act (p := 2) rfl (.body (.sendPeer List.mem_cons_self)))
  exact ⟨_, h₂₅, rfl, rfl, rfl, _, _, _, _, _, rfl, List.mem_cons_self⟩

end Groupcache.Concurrent
