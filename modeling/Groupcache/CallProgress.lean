import Mathlib.Data.DFinsupp.WellFounded
import Mathlib.Data.Prod.Lex
import Groupcache.Lib.Termination
import Groupcache.Network
import Groupcache.Ownership
import Groupcache.StaleLoads

/-! Calls come to an end: one that has not returned can go on, or the call can that leads the
execution it waits for, and no call goes on forever. -/
namespace Groupcache.Concurrent

open Transport Peer
open Singleflight (Outcome Role)

def Op.IsGet : Op → Prop
  | .get _ _ => True
  | _ => False

/-- The functions that the call gives to `Do` get to this place. -/
def Body.Fits (op : Op) : Body → Prop
  | .lookup _ | .fillHot _ | .callGetter | .getter _ | .fillMain _ => op.IsGet
  | .write _ | .peers _ | .broadcast _ _ _ => op.flight ≠ .load
  | .pick | .call _ | .calling _ _ | .ends _ _ => op.FromUser

/-- The call may end like this: a value, an error or a panic for a `Get`, and nil for a call that a
transport makes. -/
def Op.Gives : Op → Answer → Prop
  | .get _ _, a => a ≠ .ok
  | .set _ _ _, _ | .remove _, _ => True
  | .remoteSet _ _ _, a | .localRemove _, a => a = .ok

/-- The call gets to this place. -/
def Loc.Fits (op : Op) : Loc → Prop
  | .lookup _ => op.IsGet
  | .enter | .wait _ | .assigned _ _ _ | .done _ _ _ => op.FromUser
  | .lead _ b => b.Fits op
  | .write => ¬op.FromUser
  | .ret a => op.Gives a
  | .returned => True

variable {n n' : Node} {time : ℕ} {op : Op} {b b' : Body} {e : Event} {g g' : Group Value}
  {loc loc' : Loc}

theorem Op.fromUser_of_writes (h : op.flight ≠ .load) : op.FromUser := by
  cases op with
  | get | remoteSet | localRemove => exact (h rfl).elim
  | set | remove => trivial

theorem start_fits (g : Group Value) (op : Op) : (op.start g).Fits op := by
  cases op with
  | get key dest =>
    cases dest with
    | none => exact nofun
    | some => trivial
  | set key value expire =>
    rw [Op.start]
    split
    · trivial
    · split <;> trivial
  | remove => trivial
  | remoteSet | localRemove => exact id

theorem broadcast_fits {owner : Option Client} {peers : List Client} (h : op.flight ≠ .load) :
    (op.broadcast owner peers).Fits op := by
  rcases broadcast_cases op owner peers with ⟨_, hb⟩ | hb <;> rw [hb]
  · exact h
  · exact Op.fromUser_of_writes h

theorem BodyStep.fits (h : BodyStep n time op b e g b') (hb : b.Fits op) : b'.Fits op := by
  cases h with
  | pickLocal =>
    cases op with
    | get => trivial
    | set | remove => exact nofun
    | remoteSet | localRemove => exact hb.elim
  | ownerDone hop => exact hop
  | peers => exact broadcast_fits hb
  | wait => exact Op.fromUser_of_writes hb
  | _ => exact hb

theorem deliver_ne_ok (dest : Option Sink) (v : Value) : Op.deliver dest v ≠ .ok := by
  unfold Op.deliver
  split
  · simp
  · split <;> simp

theorem gives_answer (hop : op.FromUser) (o : Outcome Value) (pop : Bool) :
    op.Gives (op.answer o pop) := by
  cases op with
  | get key dest =>
    simp only [Op.answer, Op.Gives]
    split
    · simp
    · split
      · simp
      · exact deliver_ne_ok dest _
    · simp
    · simp
  | set | remove => trivial
  | remoteSet | localRemove => exact hop.elim

theorem Act.fits (h : Act n time op loc e n' loc') (hl : loc.Fits op) : loc'.Fits op := by
  cases h with
  | hit => exact deliver_ne_ok _ _
  | body h => exact h.fits hl
  | lead => cases op <;> exact hl
  | delete | wake => exact gives_answer hl _ _
  | remoteSet | localRemove => rfl
  | ret => trivial
  | _ => exact hl

variable {P : Type} [DecidableEq P] {s t : State P} {l : Label P} {ls : List (Label P)} {p q : P}
  {fr : Frame} {cacheBytes : ℤ}

theorem fits_step (h : Step s l t) (hs : ∀ p fr, s.pc p = some fr → fr.loc.Fits fr.op) :
    ∀ p fr, t.pc p = some fr → fr.loc.Fits fr.op := by
  intro p fr hp
  rcases h.frame_cases hp with ⟨hold, _⟩ | ⟨e, loc, _, hold, ha⟩ | ⟨_, _, hloc⟩
  · exact hs p fr hold
  · exact ha.fits (hs p _ hold)
  · rw [hloc]
    exact start_fits _ _

theorem fits_run (h : (nodeLTS P cacheBytes).Run ls s) (hp : s.pc p = some fr) :
    fr.loc.Fits fr.op := by
  refine h.invariant (I := fun _ s => ∀ p fr, s.pc p = some fr → fr.loc.Fits fr.op) ?_ ?_ p fr hp
  · exact fun s hinit p fr hp => (pc_ne_initial hinit hp).elim
  · exact fun _ _ _ _ _ hs hstep => fits_step hstep hs

/-- A function that has not ended can go on, without a panic. -/
theorem BodyStep.exists_of_fits (n : Node) (time : ℕ) (hb : b.Fits op)
    (hends : ∀ o pop, b ≠ .ends o pop) :
    ∃ e g b', BodyStep n time op b e g b' ∧ e ≠ .failed none := by
  have hget : op.IsGet → ∃ key dest, op = .get key dest := by
    cases op <;> simp [Op.IsGet]
  cases b with
  | lookup tier =>
    obtain ⟨key, dest, rfl⟩ := hget hb
    rcases hlook : look n.group .zero key tier with ⟨g, v | _ | _⟩
    · exact ⟨_, _, _, .hit .zero hlook, nofun⟩
    · exact ⟨_, _, _, .next .zero hlook, nofun⟩
    · exact ⟨_, _, _, .miss .zero hlook, nofun⟩
  | pick =>
    rcases n.inst.pickPeer_cases op.key with ⟨c, hpick, _⟩ | ⟨owner, hpick⟩
    · exact ⟨_, _, _, .pickRemote hpick, nofun⟩
    · exact ⟨_, _, _, .pickLocal hpick, nofun⟩
  | call => exact ⟨_, _, _, .send, nofun⟩
  | calling c start =>
    cases op with
    | get => exact ⟨_, _, _, .fetched (.withExpire none .zero), nofun⟩
    | set | remove => exact ⟨_, _, _, .ownerDone nofun, nofun⟩
    | remoteSet | localRemove => exact hb.elim
  | fillHot =>
    obtain ⟨key, dest, rfl⟩ := hget hb
    exact ⟨_, _, _, .fillHot, nofun⟩
  | callGetter =>
    obtain ⟨key, dest, rfl⟩ := hget hb
    exact ⟨_, _, _, .callGetter, nofun⟩
  | fillMain =>
    obtain ⟨key, dest, rfl⟩ := hget hb
    exact ⟨_, _, _, .fillMain, nofun⟩
  | getter =>
    obtain ⟨key, dest, rfl⟩ := hget hb
    exact ⟨_, _, _, .got (.withExpire none .zero), nofun⟩
  | write => exact ⟨_, _, _, .write hb, nofun⟩
  | peers => exact ⟨_, _, _, .peers, nofun⟩
  | broadcast todo flying errs =>
    cases todo with
    | cons => exact ⟨_, _, _, .sendPeer List.mem_cons_self, nofun⟩
    | nil =>
      cases flying with
      | cons => exact ⟨_, _, _, .answered none List.mem_cons_self (by simp) (by simp), nofun⟩
      | nil => exact ⟨_, _, _, .wait, nofun⟩
  | ends o pop => exact (hends o pop rfl).elim

/-- So can a call that does not wait for another. -/
theorem Act.exists_of_fits (n : Node) (time : ℕ) (hl : loc.Fits op) (hret : loc ≠ .returned)
    (hwait : ∀ c, loc = .wait c → ((n.flights op.flight).calls c).wg = false) :
    ∃ e n' loc', Act n time op loc e n' loc' := by
  cases loc with
  | lookup tier =>
    cases op with
    | get key dest =>
      rcases hlook : look n.group .zero key tier with ⟨g, v | _ | _⟩
      · exact ⟨_, _, _, .hit .zero hlook⟩
      · exact ⟨_, _, _, .next .zero hlook⟩
      · exact ⟨_, _, _, .miss .zero hlook⟩
    | _ => exact hl.elim
  | enter =>
    cases hm : (n.flights op.flight).m op.key with
    | none => exact ⟨_, _, _, .lead hm⟩
    | some c => exact ⟨_, _, _, .join hm⟩
  | wait c => exact ⟨_, _, _, .wake (hwait c rfl)⟩
  | lead c b =>
    by_cases hends : ∃ o pop, b = .ends o pop
    · obtain ⟨o, pop, rfl⟩ := hends
      exact ⟨_, _, _, .assign⟩
    · obtain ⟨e, g, b', hb, _⟩ := BodyStep.exists_of_fits n time hl
        fun o pop hb => hends ⟨o, pop, hb⟩
      exact ⟨_, _, _, .body hb⟩
  | assigned => exact ⟨_, _, _, .done⟩
  | done => exact ⟨_, _, _, .delete⟩
  | write =>
    cases op with
    | remoteSet => exact ⟨_, _, _, .remoteSet⟩
    | localRemove => exact ⟨_, _, _, .localRemove⟩
    | _ => exact (hl trivial).elim
  | ret => exact ⟨_, _, _, .ret⟩
  | returned => exact (hret rfl).elim

omit [DecidableEq P] in
/-- A call that waits has a leader, unless the execution it waits for is over. -/
theorem Flights.leader_of_wait {op : Op} {since c : ℕ} (hi : Flights s)
    (hp : s.pc p = some ⟨op, since, .wait c⟩)
    (hwg : ((s.node.flights op.flight).calls c).wg = true) :
    ∃ q fr, s.pc q = some fr ∧ fr.op.flight = op.flight ∧ fr.op.key = op.key ∧
      fr.loc.Leading c := by
  have hok : c < (s.node.flights op.flight).next ∧
      (((s.node.flights op.flight).calls c).wg = true →
        (s.node.flights op.flight).m op.key = some c) := hi.frame_ok hp
  exact hi.leader (hok.2 hwg)

/-- How far the function is from its end. Only the goroutines of the loop are counted one by one:
how many there will be is not known before the peers are read. -/
def Body.rank : Body → ℕ ×ₗ ℕ
  | .ends _ _ => toLex (4, 0)
  | .broadcast todo flying _ => toLex (5, 2 * todo.length + flying.length)
  | .fillHot _ | .fillMain _ => toLex (5, 0)
  | .peers _ | .getter _ => toLex (6, 0)
  | .write _ | .callGetter => toLex (7, 0)
  | .calling _ _ => toLex (8, 0)
  | .call _ => toLex (9, 0)
  | .pick => toLex (10, 0)
  | .lookup .hot => toLex (11, 0)
  | .lookup .main => toLex (12, 0)

/-- How far the call is from its return. -/
def Loc.rank : Loc → ℕ ×ₗ ℕ
  | .returned => toLex (0, 0)
  | .ret _ => toLex (1, 0)
  | .done _ _ _ | .wait _ | .write => toLex (2, 0)
  | .assigned _ _ _ => toLex (3, 0)
  | .lead _ b => b.rank
  | .enter => toLex (13, 0)
  | .lookup .hot => toLex (14, 0)
  | .lookup .main => toLex (15, 0)

theorem look_hot_ne_next {now : Time} {key : GoString} : look g now key .hot ≠ (g', .next) := by
  rw [look]
  cases (g.lookupHot now key).2 <;> simp

theorem BodyStep.rank_lt (h : BodyStep n time op b e g b') : b'.rank < b.rank := by
  cases h with
  | @next _ _ tier _ _ h =>
    cases tier with
    | main => simp [Body.rank, Prod.Lex.toLex_lt_toLex]
    | hot => exact (look_hot_ne_next h).elim
  | @hit _ _ tier | @miss _ _ tier => cases tier <;> simp [Body.rank, Prod.Lex.toLex_lt_toLex]
  | pickLocal => cases op <;> simp [Body.rank, Op.afterPick, Prod.Lex.toLex_lt_toLex]
  | @peers op owner =>
    rcases broadcast_cases op owner n.inst.getAllPeers with ⟨_, hb⟩ | hb <;> rw [hb] <;>
      simp [Body.rank, Prod.Lex.toLex_lt_toLex]
  | sendPeer hc =>
    refine Prod.Lex.toLex_lt_toLex.mpr (Or.inr ⟨rfl, ?_⟩)
    have hpos := List.length_pos_of_mem hc
    simp only [List.length_erase_of_mem hc, List.length_cons]
    omega
  | answered err hc =>
    refine Prod.Lex.toLex_lt_toLex.mpr (Or.inr ⟨rfl, ?_⟩)
    have hpos := List.length_pos_of_mem hc
    simp only [List.length_erase_of_mem hc]
    omega
  | _ => simp [Body.rank, Prod.Lex.toLex_lt_toLex]

theorem Act.rank_lt (h : Act n time op loc e n' loc') : loc'.rank < loc.rank := by
  cases h with
  | @next _ _ tier _ _ h =>
    cases tier with
    | main => simp [Loc.rank, Prod.Lex.toLex_lt_toLex]
    | hot => exact (look_hot_ne_next h).elim
  | @hit _ _ tier | @miss _ _ tier => cases tier <;> simp [Loc.rank, Prod.Lex.toLex_lt_toLex]
  | lead => cases op <;> simp [Loc.rank, Body.rank, Op.body, Prod.Lex.toLex_lt_toLex]
  | body h => exact h.rank_lt
  | _ => simp [Loc.rank, Body.rank, Prod.Lex.toLex_lt_toLex]

/-- How far a removal of several keys is from its return. -/
def KeysLoc.rank : KeysLoc → ℕ ×ₗ ℕ
  | .returned => toLex (0, 0)
  | .ret _ => toLex (1, 0)
  | .broadcast none todo flying _ => toLex (2, 2 * todo.length + flying.length)
  | .broadcast (some _) todo flying _ => toLex (3, 2 * todo.length + flying.length)
  | .clear todo _ => toLex (4, todo.length)
  | .pick todo _ => toLex (5, todo.length)

def KeysFrame.rank (fr : Option KeysFrame) : ℕ ×ₗ ℕ := fr.elim (toLex (6, 0)) (·.loc.rank)

theorem KeysLoc.broadcast_rank_lt {owners : Option (AList fun _ : Client => List GoString)}
    {todo todo' flying flying' : List (Client × List GoString)} {errs errs' : List Err}
    (h : 2 * todo'.length + flying'.length < 2 * todo.length + flying.length) :
    (KeysLoc.broadcast owners todo' flying' errs').rank <
      (KeysLoc.broadcast owners todo flying errs).rank := by
  cases owners <;> exact Prod.Lex.toLex_lt_toLex.mpr (Or.inr ⟨rfl, h⟩)

theorem KeysStep.rank_lt {fr : Option KeysFrame} {op : KeysOp} {e : KeysEvent} {loc : KeysLoc}
    (h : KeysStep n fr op e g loc) : loc.rank < KeysFrame.rank fr := by
  cases h with
  | invoke =>
    cases op with
    | removeKeys keys =>
      by_cases hkeys : keys = [] <;>
        simp [KeysOp.start, KeysFrame.rank, KeysLoc.rank, Prod.Lex.toLex_lt_toLex, hkeys]
    | handle => simp [KeysOp.start, KeysFrame.rank, KeysLoc.rank, Prod.Lex.toLex_lt_toLex]
  | send hc =>
    have hpos := List.length_pos_of_mem hc
    refine KeysLoc.broadcast_rank_lt ?_
    simp only [List.length_erase_of_mem hc, List.length_cons]
    omega
  | answered _ hc =>
    have hpos := List.length_pos_of_mem hc
    refine KeysLoc.broadcast_rank_lt ?_
    simp only [List.length_erase_of_mem hc]
    omega
  | _ => simp [KeysFrame.rank, KeysLoc.rank, Prod.Lex.toLex_lt_toLex]

/-- How far each call is from its return, those included that are still to be made. -/
def State.rank (s : State P) : (P → ℕ ×ₗ ℕ) × (P → ℕ ×ₗ ℕ) :=
  (fun p => (s.pc p).elim (toLex (16, 0)) (·.loc.rank), fun p => KeysFrame.rank (s.keys p))

theorem rank_setPC :
    (s.setPC p fr n).rank = (Function.update s.rank.1 p fr.loc.rank, s.rank.2) := by
  refine Prod.ext (funext fun q => ?_) rfl
  by_cases hq : q = p
  · subst hq
    simp [State.rank, State.setPC]
  · simp [State.rank, State.setPC, hq]

theorem Act.rank_setPC_lt {since : ℕ} (hp : s.pc p = some ⟨op, since, loc⟩)
    (ha : Act s.node s.clock op loc e n loc') :
    (s.setPC p ⟨op, since, loc'⟩ n).rank < s.rank := by
  rw [rank_setPC]
  refine Prod.lt_iff.mpr (Or.inl ⟨update_lt_self_iff.mpr ?_, le_rfl⟩)
  simpa [State.rank, hp] using ha.rank_lt

theorem KeysStep.rank_state_lt {op : KeysOp} {e : KeysEvent} {kloc : KeysLoc} {m : ℕ}
    (h : KeysStep s.node (s.keys p) op e g kloc) :
    State.rank { s with node := n, clock := m,
                        keys := Function.update s.keys p (some ⟨op, kloc⟩) } < s.rank := by
  have hkeys : (fun q => KeysFrame.rank (Function.update s.keys p (some ⟨op, kloc⟩) q)) =
      Function.update s.rank.2 p kloc.rank := by
    funext q
    by_cases hq : q = p
    · subst hq
      simp [KeysFrame.rank]
    · simp [State.rank, hq]
  rw [State.rank, hkeys]
  exact Prod.lt_iff.mpr (Or.inr ⟨le_rfl, update_lt_self_iff.mpr h.rank_lt⟩)

/-- The label is a step that a call takes after its invocation. -/
def Label.GoesOn : Label P → Prop
  | .call _ _ e => e ≠ .invoke
  | .keys _ _ e => e ≠ .invoke
  | .setPeers _ => False

theorem Step.rank_lt (h : Step s l t) (hl : l.GoesOn) : t.rank < s.rank := by
  cases h with
  | invoke => exact (hl rfl).elim
  | act hp ha => exact ha.rank_setPC_lt hp
  | keys h => exact h.rank_state_lt
  | setPeers => exact hl.elim

/-- All calls that were made have returned. -/
structure State.Idle (s : State P) : Prop where
  calls : ∀ p fr, s.pc p = some fr → fr.loc = .returned
  keys : ∀ p fr, s.keys p = some fr → fr.loc = .returned

section Process

variable {o : Option (State P)} {ms : List (ProcessLabel P)}

def ProcessLabel.GoesOn : ProcessLabel P → Prop
  | .step l => l.GoesOn
  | .crash _ _ _ _ => True
  | .ended => False

/-- Nothing is left of a process that has ended. -/
def processRank (o : Option (State P)) : (P → ℕ ×ₗ ℕ) × (P → ℕ ×ₗ ℕ) := o.elim ⊥ State.rank

omit [DecidableEq P] in
theorem State.rank_pos (hp : s.pc p = some fr) (hret : fr.loc.rank ≠ ⊥) : ⊥ < s.rank := by
  rw [bot_lt_iff_ne_bot]
  intro hbot
  refine hret ?_
  simpa [State.rank, hp] using congrFun (congrArg Prod.fst hbot) p

theorem ProcessStep.rank_lt {o' : Option (State P)} {l : ProcessLabel P} (h : ProcessStep o l o')
    (hl : l.GoesOn) : processRank o' < processRank o := by
  cases h with
  | step h => exact h.rank_lt hl
  | crash _ hlog =>
    obtain ⟨_, _, _, _, _, _, _, _, hp, _⟩ := hlog
    refine State.rank_pos hp fun hbot => ?_
    have hfst := congrArg (fun r => (ofLex r).1) hbot
    cases hfst
  | ended => exact hl.elim

end Process

end Groupcache.Concurrent
