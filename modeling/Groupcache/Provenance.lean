import Groupcache.GetPaths
import Groupcache.PeerCalls

/-! Where the values of a cluster come from. Peer calls may fail at any point, with their request
lost or still under way, and the peers may change; yet every value was once loaded or set. -/
namespace Groupcache.Concurrent

open Transport Peer

/-- A step of the cluster, or a peer call that fails for its caller. Its request may have been
lost, or it is served all the same. -/
inductive LossyStep {P : Type} [DecidableEq P] : Net P → GoString × Label P → Net P → Prop
  | net {N l N'} (h : NetStep N l N') : LossyStep N l N'
  | lost {N x p op c err s} (hs : Step (N.nodes x) (.call p op (.answered c (some err))) s) :
      LossyStep N (x, .call p op (.answered c (some err)))
        ⟨Function.update N.nodes x s, Function.update N.calls ⟨x, p, c⟩ none, N.keysCalls⟩
  | late {N x p op c err s} (hs : Step (N.nodes x) (.call p op (.answered c (some err))) s) :
      LossyStep N (x, .call p op (.answered c (some err)))
        ⟨Function.update N.nodes x s, N.calls, N.keysCalls⟩
  | keysLost {N x p op c err s} (hs : Step (N.nodes x) (.keys p op (.answered c (some err))) s) :
      LossyStep N (x, .keys p op (.answered c (some err)))
        ⟨Function.update N.nodes x s, N.calls, Function.update N.keysCalls ⟨x, p, c⟩ none⟩
  | keysLate {N x p op c err s} (hs : Step (N.nodes x) (.keys p op (.answered c (some err))) s) :
      LossyStep N (x, .keys p op (.answered c (some err)))
        ⟨Function.update N.nodes x s, N.calls, N.keysCalls⟩

/-- New groups on all nodes, connected by a transport in which calls fail. -/
def lossyLTS (P : Type) [DecidableEq P] (cacheBytes : GoString → ℤ) :
    Lib.LTS (Net P) (GoString × Label P) where
  Init := (netLTS P cacheBytes).Init
  Step := LossyStep

variable {P : Type} {ls : List (GoString × Label P)} {l : GoString × Label P}

/-- At some node the Getter has returned these bytes for the key, or a user has called `Set` with
them. -/
def Source (ls : List (GoString × Label P)) (k bytes : GoString) : Prop :=
  (∃ x p dest w, (x, Label.call p (.get k dest) (.got w)) ∈ ls ∧ w.bytes = bytes) ∨
    ∃ x p value expire, (x, Label.call p (.set k value expire) .invoke) ∈ ls ∧
      value.getD [] = bytes

theorem Source.append {k bytes : GoString} (h : Source ls k bytes) :
    Source (ls ++ [l]) k bytes := by
  rcases h with ⟨x, p, dest, w, hmem, hw⟩ | ⟨x, p, value, expire, hmem, hv⟩
  · exact Or.inl ⟨x, p, dest, w, List.mem_append_left _ hmem, hw⟩
  · exact Or.inr ⟨x, p, value, expire, List.mem_append_left _ hmem, hv⟩

/-- The bytes that the call stores, if it does, have a source. -/
def Op.Sourced (ls : List (GoString × Label P)) (op : Op) : Prop :=
  ∀ v, op.value = some v → Source ls op.key v.view.bytes

theorem Op.Sourced.append {op : Op} (h : op.Sourced ls) : op.Sourced (ls ++ [l]) :=
  fun v hv => (h v hv).append

/-- A peer stores the bytes of the call that it serves. -/
theorem Op.Sourced.served {op : Op} (h : op.Sourced ls) : op.served.Sourced ls := by
  intro v hv
  cases op with
  | set key value expire =>
    cases hv
    exact h (Op.written value expire) rfl
  | remoteSet => exact h v hv
  | get | remove | localRemove => cases hv

/-- All that the nodes and the messages between them hold has a source. -/
structure AllSourced (ls : List (GoString × Label P)) (N : Net P) : Prop where
  flights : ∀ x, Flights (N.nodes x)
  holding : ∀ x k, Holding (fun v => Source ls k v.view.bytes) k 0 (N.nodes x)
  frames : ∀ x p fr, (N.nodes x).pc p = some fr → fr.op.Sourced ls
  calls : ∀ i pr, N.calls i = some pr → pr.op.Sourced ls
  replied : ∀ i k dest v, N.calls i = some (.replied (.get k dest) (.value v)) →
    Source ls k v.view.bytes

variable [DecidableEq P] {N N' : Net P} {x : GoString} {cacheBytes : GoString → ℤ}

theorem LossyStep.node {l : Label P} (h : LossyStep N (x, l) N') :
    ∃ s, Step (N.nodes x) l s ∧ N'.nodes = Function.update N.nodes x s ∧
      (Link N.calls x l N'.calls ∨ (∃ p op c err, l = .call p op (.answered c (some err))) ∧
        ∀ i pr, N'.calls i = some pr → N.calls i = some pr) := by
  cases h with
  | net h =>
    cases h with
    | node hs hl => exact ⟨_, hs, rfl, Or.inl hl⟩
  | lost hs =>
    refine ⟨_, hs, rfl, Or.inr ⟨⟨_, _, _, _, rfl⟩, fun i pr hpr => ?_⟩⟩
    rcases update_cases hpr with hold | ⟨_, ⟨⟩⟩
    exact hold
  | late hs => exact ⟨_, hs, rfl, Or.inr ⟨⟨_, _, _, _, rfl⟩, fun _ _ => id⟩⟩
  | keysLost hs | keysLate hs => exact ⟨_, hs, rfl, Or.inl .keys⟩

theorem allSourced_initial (h : (netLTS P cacheBytes).Init N) : AllSourced [] N where
  flights x := flights_initial (h.1 x)
  holding x _ := holding_initial (h.1 x)
  frames x _ _ hp := (pc_ne_initial (h.1 x) hp).elim
  calls i _ hi := by simp [h.2.1 i] at hi
  replied i _ _ _ hi := by simp [h.2.1 i] at hi

theorem Act.got_get {n n' : Node} {time : ℕ} {op : Op} {loc loc' : Loc} {w : ByteView}
    (h : Act n time op loc (.got w) n' loc') : ∃ key dest, op = .get key dest := by
  cases h with
  | body h =>
    cases h with
    | got => exact ⟨_, _, rfl⟩

/-- A request carries what the caller stores. -/
theorem AllSourced.calls_step {l : Label P} {s : State P} (hi : AllSourced ls N)
    (hs : Step (N.nodes x) l s) {T : PeerCalls P}
    (hcalls : Link N.calls x l T ∨ ∀ i pr, T i = some pr → N.calls i = some pr)
    {i : PeerCall P} {pr : Progress P} (hpr : T i = some pr) : pr.op.Sourced (ls ++ [(x, l)]) := by
  rcases hcalls with hlink | hkept
  · rcases hlink.entry_cases hpr with hold | ⟨op, rfl, rfl, hx, _⟩ | ⟨op, q, rfl, hold, _⟩ |
      ⟨op, q, a, rfl, hold, _⟩
    · exact (hi.calls i pr hold).append
    · obtain ⟨_, _, _, hp, _⟩ := hs.frame (by simp)
      exact (hi.frames x _ _ hp).append
    · exact (hi.calls i _ hold).append
    · exact (hi.calls i _ hold).append
  · exact (hi.calls i pr (hkept i pr hpr)).append

omit [DecidableEq P] in
theorem Op.FromUser.sourced {op : Op} {p : P} (h : op.FromUser) :
    op.Sourced (ls ++ [(x, .call p op .invoke)]) := by
  intro v hv
  cases op with
  | set key value expire =>
    cases hv
    exact Or.inr ⟨x, p, value, expire, List.mem_concat_self, by simp [Op.written]⟩
  | remoteSet | localRemove => exact h.elim
  | get | remove => cases hv

/-- What the node of a step holds has a source. -/
theorem AllSourced.holding_step {l : Label P} {s : State P} (hi : AllSourced ls N)
    (hs : Step (N.nodes x) l s)
    (hfetched : ∀ p op c v, l = .call p op (.fetched c v) → ∃ T, Link N.calls x l T)
    (k : GoString) : Holding (fun v => Source (ls ++ [(x, l)]) k v.view.bytes) k 0 s := by
  refine Concurrent.holding_step hs (hi.flights x)
    ((hi.holding x k).mono fun v => Source.append) ?_ ?_
  · rintro p op since loc e v rfl hp hop ⟨_, _, _, ⟨c', rfl, rfl⟩ | ⟨rfl, rfl⟩⟩ <;>
      obtain ⟨_, _, _, _, ha, _⟩ := hs.frame (by simp)
    · obtain ⟨T, hlink⟩ := hfetched _ _ _ _ rfl
      obtain ⟨w, hreplied, hw⟩ := hlink.fetched_eq
      obtain ⟨key, dest, rfl⟩ := ha.fetched_get
      obtain ⟨_, rfl⟩ := hop
      rw [hw]
      exact (hi.replied _ _ _ w hreplied).append
    · obtain ⟨key, dest, rfl⟩ := ha.got_get
      obtain ⟨_, rfl⟩ := hop
      exact Or.inl ⟨x, p, dest, v.view, List.mem_concat_self, rfl⟩
  · rintro p op v rfl rfl hval
    obtain ⟨_, _, _, hp, _⟩ := hs.frame (by simp)
    exact (hi.frames x p _ hp v hval).append

theorem allSourced_step {l : Label P} (h : LossyStep N (x, l) N') (hi : AllSourced ls N) :
    AllSourced (ls ++ [(x, l)]) N' := by
  obtain ⟨s, hs, hnodes, hcalls⟩ := h.node
  have hentries : ∀ i pr, N'.calls i = some pr → pr.op.Sourced (ls ++ [(x, l)]) :=
    fun i pr => hi.calls_step hs (hcalls.imp_right And.right)
  refine ⟨?_, ?_, ?_, hentries, ?_⟩
  · rw [hnodes]
    exact (Function.forall_update_iff N.nodes fun _ s => Flights s).mpr
      ⟨flights_step hs (hi.flights x), fun y _ => hi.flights y⟩
  · rw [hnodes]
    refine (Function.forall_update_iff N.nodes fun _ s => ∀ k,
      Holding (fun v => Source (ls ++ [(x, l)]) k v.view.bytes) k 0 s).mpr
        ⟨hi.holding_step hs ?_, fun y _ k => (hi.holding y k).mono fun v => Source.append⟩
    rintro p op c v rfl
    rcases hcalls with hlink | ⟨⟨_, _, _, _, hl⟩, _⟩
    · exact ⟨_, hlink⟩
    · cases hl
  · intro y q fr hq
    rw [hnodes] at hq
    rcases Net.frame_cases hs hq with ⟨hold, _⟩ | ⟨_, _, _, _, hold, _⟩ | ⟨rfl, rfl, _⟩
    · exact (hi.frames y q fr hold).append
    · exact (hi.frames y q _ hold).append
    · rcases hcalls with hlink | ⟨⟨_, _, _, _, hl⟩, _⟩
      · rcases hlink.of_invoke with huser | ⟨j, op', hj, _, hop⟩
        · exact huser.sourced
        · have hserved := (hentries j _ hj).served
          rwa [show (Progress.serving op' q).op.served = fr.op from hop.symm] at hserved
      · cases hl
  · intro i k dest v hv
    rcases hcalls with hlink | ⟨_, hkept⟩
    · rcases hlink.replied hv with hold | ⟨q, rfl⟩
      · exact (hi.replied i k dest v hold).append
      · obtain ⟨since, loc, loc', hp, ha, _⟩ := hs.frame (by simp)
        refine ((hi.holding x k).late q _ hp ⟨rfl, rfl⟩ (Nat.zero_le _) v ?_).append
        simp [ha.ret_loc, Loc.Gets]
    · exact (hi.replied i k dest v (hkept _ _ hv)).append

theorem allSourced_run (h : (lossyLTS P cacheBytes).Run ls N) : AllSourced ls N := by
  refine h.invariant (I := AllSourced) (fun N => allSourced_initial) ?_
  exact fun ls N l N' _ hi hs => allSourced_step hs hi

/-- Whatever fails, a value in a cache, and one that a `Get` returns, comes from the Getter or from
a `Set` of its key. -/
theorem values_have_sources (h : (lossyLTS P cacheBytes).Run ls N) :
    (∀ x k v, (N.nodes x).node.group.Holds k v → Source ls k v.view.bytes) ∧
      ∀ x p k dest v N', LossyStep N (x, .call p (.get k dest) (.ret (.value v))) N' →
        Source ls k v.view.bytes := by
  have hi := allSourced_run h
  refine ⟨fun x k v hv => (hi.holding x k).cache v hv, fun x p k dest v N' hstep => ?_⟩
  obtain ⟨s, hs, _⟩ := hstep.node
  obtain ⟨since, loc, loc', hp, ha, _⟩ := hs.frame (by simp)
  refine (hi.holding x k).late p _ hp ⟨rfl, rfl⟩ (Nat.zero_le _) v ?_
  simp [ha.ret_loc, Loc.Gets]

/-- A `Set` at `A` whose call of the owner `B` fails, and is served later all the same. -/
theorem values_have_sources_late : ∃ (ls : List (GoString × Label ℕ)) (N : Net ℕ) (v : Value),
    (lossyLTS ℕ fun _ => 1000).Run ls N ∧ (N.nodes [66]).node.group.Holds [107] v ∧
    v.view.bytes = [1] ∧ Source ls [107] v.view.bytes := by
  have h₀ : (lossyLTS ℕ fun _ => 1000).Run [] pair :=
    .init pair_init
  have h₁ := h₀.step (.net (.call (x := [65])
    (Step.invoke (p := 0) (.set [107] (some [1]) .zero) rfl)
    (.inside trivial (fun _ => trivial) nofun)))
  have h₂ := h₁.step (.net (.call (x := [65]) (Step.act (p := 0) rfl (.lead rfl)) (.of_plain rfl)))
  have h₃ := h₂.step (.net (.call (x := [65]) (Step.act (p := 0) rfl (.body (.pickRemote rfl)))
    (.of_plain rfl)))
  have h₄ := h₃.step (.net (.call (x := [65]) (Step.act (p := 0) rfl (.body .send)) (.send rfl)))
  have h₅ := h₄.step (.late (x := [65])
    (Step.act (p := 0) rfl (.body (.ownerFailed (.other "timeout") nofun))))
  have h₆ := h₅.step (.net (.call (x := [66]) (Step.invoke (p := 0) _ rfl)
    (.arrive (i := ⟨[65], 0, ⟨0, ⟨[66], false⟩⟩⟩) rfl rfl)))
  have h₇ := h₆.step (.net (.call (x := [66]) (Step.act (p := 0) rfl .remoteSet) (.of_plain rfl)))
  exact ⟨_, _, Op.written (some [1]) (decodeExpire (encodeExpire .zero)), h₇, Or.inl rfl, rfl,
    (values_have_sources h₇).1 [66] _ _ (Or.inl rfl)⟩

end Groupcache.Concurrent
