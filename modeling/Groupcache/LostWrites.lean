import Groupcache.ConcurrentInvariants
import Groupcache.Ownership

/-! `Set` and `Remove` on one node: what the history shows of a call that has returned nil. -/
namespace Groupcache.Concurrent

open Transport Peer
open Singleflight (Outcome)

section Logged

variable {P : Type} (ls : List (Label P)) (p : P) (op : Op) (since : ℕ)

/-- Between two times, `PickPeer` named the owner and, if it is remote, the call was sent to it. -/
def Contacted (upTo : ℕ) (owner : Option Client) : Prop :=
  ∃ (a : ℕ) (isRemote : Bool), since < a ∧ a < upTo ∧
    ls[a]? = some (.call p op (.pick owner isRemote)) ∧
    (isRemote = true → ∃ (c : Client) (b : ℕ), owner = some c ∧ a < b ∧ b < upTo ∧
      ls[b]? = some (.call p op (.send c)))

/-- The call contacted the owner and then ran its locked section. -/
def Written : Prop :=
  ∃ (i : ℕ) (owner : Option Client), since < i ∧ ls[i]? = some (.call p op .write) ∧
    Contacted ls p op since i owner

/-- What the history shows of the function of a `Set` or `Remove`. -/
def Body.Logged : Body → Prop
  | .call c => ∃ a : ℕ, since < a ∧ ls[a]? = some (.call p op (.pick (some c) true))
  | .calling c _ => ∃ a b : ℕ, since < a ∧ a < b ∧
    ls[a]? = some (.call p op (.pick (some c) true)) ∧ ls[b]? = some (.call p op (.send c))
  | .write owner => Contacted ls p op since ls.length owner
  | .peers _ | .broadcast _ _ _ => Written ls p op since
  | .ends o _ => o.result.2 = none → Written ls p op since
  | _ => True

def Loc.Logged : Loc → Prop
  | .lead _ b => b.Logged ls p op since
  | .assigned _ o _ | .done _ o _ => o.result.2 = none → Written ls p op since
  | _ => True

end Logged

variable {P : Type} {s t : State P} {l : Label P} {ls : List (Label P)} {p q : P}
  {op : Op} {since time upTo upTo' : ℕ} {loc loc' : Loc} {e : Event} {n n' : Node} {k : GoString}
  {b b' : Body} {g : Group Value} {owner : Option Client} {cacheBytes : ℤ}

theorem Contacted.append (h : Contacted ls p op since upTo owner) (hle : upTo ≤ upTo') :
    Contacted (ls ++ [l]) p op since upTo' owner := by
  obtain ⟨a, isRemote, hsince, ha, hpick, hsend⟩ := h
  refine ⟨a, isRemote, hsince, by omega, Lib.getElem?_concat_of_some hpick, fun hr => ?_⟩
  obtain ⟨c, b, howner, hab, hb, hls⟩ := hsend hr
  exact ⟨c, b, howner, hab, by omega, Lib.getElem?_concat_of_some hls⟩

theorem Written.append (h : Written ls p op since) : Written (ls ++ [l]) p op since := by
  obtain ⟨i, owner, hsince, hi, hc⟩ := h
  exact ⟨i, owner, hsince, Lib.getElem?_concat_of_some hi, hc.append (Nat.le_refl i)⟩

theorem Body.Logged.append (h : b.Logged ls p op since) : b.Logged (ls ++ [l]) p op since := by
  cases b with
  | call c =>
    obtain ⟨a, hsince, ha⟩ := h
    exact ⟨a, hsince, Lib.getElem?_concat_of_some ha⟩
  | calling c start =>
    obtain ⟨a, b, hsince, hab, ha, hb⟩ := h
    exact ⟨a, b, hsince, hab, Lib.getElem?_concat_of_some ha, Lib.getElem?_concat_of_some hb⟩
  | write owner =>
    have h : Contacted ls p op since ls.length owner := h
    exact h.append (by simp)
  | peers | broadcast => exact Written.append h
  | ends o pop => exact fun ho => (h ho).append
  | _ => trivial

theorem Loc.Logged.append (h : loc.Logged ls p op since) : loc.Logged (ls ++ [l]) p op since := by
  cases loc with
  | lead c b => exact Body.Logged.append h
  | assigned | done => exact fun ho => (h ho).append
  | _ => trivial

/-- Each step of the function adds its own event to what the history shows. -/
theorem BodyStep.logged (h : BodyStep n time op b e g b') (hop : op.flight ≠ .load)
    (hsince : since < ls.length) (hlog : b.Logged ls p op since) :
    b'.Logged (ls ++ [.call p op e]) p op since := by
  have hlast : ∀ l : Label P, (ls ++ [l])[ls.length]? = some l := by simp
  cases h with
  | hit | next | miss | fetched | fetchFinal | fetchGiveUp | fetchFallBack | fillHot | callGetter
  | got | failed | panicked | fillMain => exact (hop rfl).elim
  | pickRemote => exact ⟨ls.length, hsince, hlast _⟩
  | @pickLocal _ owner _ =>
    have hc : Contacted (ls ++ [Label.call p op (.pick owner false)]) p op since
        (ls ++ [Label.call p op (.pick owner false)]).length owner :=
      ⟨ls.length, false, hsince, by simp, hlast _, by simp⟩
    cases op with
    | get => exact (hop rfl).elim
    | _ => exact hc
  | send =>
    obtain ⟨a, ha, hpick⟩ := hlog
    have hlt := (List.getElem?_eq_some_iff.mp hpick).1
    exact ⟨a, ls.length, ha, hlt, Lib.getElem?_concat_of_some hpick, hlast _⟩
  | @ownerDone _ c start _ =>
    obtain ⟨a, b, ha, hab, hpick, hsend⟩ := hlog
    have hlt := (List.getElem?_eq_some_iff.mp hsend).1
    refine ⟨a, true, ha, by simp; omega, Lib.getElem?_concat_of_some hpick, fun _ => ?_⟩
    exact ⟨c, b, rfl, hab, by simp; omega, Lib.getElem?_concat_of_some hsend⟩
  | ownerFailed => exact fun ho => by cases ho
  | @write _ owner _ =>
    have hlog : Contacted ls p op since ls.length owner := hlog
    exact ⟨ls.length, owner, hsince, hlast _, hlog.append (Nat.le_refl _)⟩
  | @peers _ owner =>
    have hw : Written (ls ++ [.call p op .peers]) p op since := Written.append hlog
    rcases broadcast_cases op owner n.inst.getAllPeers with ⟨_, h⟩ | h <;> rw [h]
    · exact hw
    · exact fun _ => hw
  | sendPeer | answered => exact Written.append hlog
  | wait => exact fun _ => Written.append hlog

theorem Act.logged (h : Act n time op loc e n' loc') (hop : op.flight ≠ .load)
    (hsince : since < ls.length) (hlog : loc.Logged ls p op since) :
    loc'.Logged (ls ++ [.call p op e]) p op since := by
  cases h with
  | lead =>
    cases op with
    | get => exact (hop rfl).elim
    | _ => trivial
  | body h => exact h.logged hop hsince hlog
  | assign | done => exact fun ho => (hlog ho).append
  | _ => trivial

theorem start_ok (h : op.start g = .ret .ok) : g.maxCacheBytes ≤ 0 := by
  unfold Op.start at h
  split at h
  · cases h
  · cases h
  · split at h
    · cases h
    · split at h
      · assumption
      · cases h
  all_goals cases h

theorem start_logged : (op.start g).Logged ls p op since := by
  rcases start_cases g op with ⟨_, h⟩ | h | h | h | ⟨_, h⟩ <;> rw [h] <;> trivial

/-- The history shows what every `Set` and `Remove` in progress has done. -/
def Logged (ls : List (Label P)) (s : State P) : Prop :=
  ∀ p fr, s.pc p = some fr → fr.op.flight ≠ .load → fr.loc.Logged ls p fr.op fr.since

variable [DecidableEq P]

theorem logged_reachable (h : (nodeLTS P cacheBytes).Run ls s) : Logged ls s := by
  refine h.invariant ?_ ?_
  · exact fun s hinit p fr hp => (pc_ne_initial hinit hp).elim
  · intro ls s l t hrun hlog hstep
    have htimed := (sound_reachable hrun).timed
    cases hstep with
    | invoke op hp =>
      refine forall_setPC.mpr ⟨fun _ => start_logged, ?_⟩
      exact fun q _ fr hq hop => (hlog q fr hq hop).append
    | @act p op since loc e n loc' hp ha =>
      have hlt : since < ls.length := htimed.since_lt hp
      refine forall_setPC.mpr ⟨fun hop => ?_, ?_⟩
      · exact ha.logged hop hlt (hlog p _ hp hop)
      · exact fun q _ fr hq hop => (hlog q fr hq hop).append
    | keys | setPeers => exact fun q fr hq hop => (hlog q fr hq hop).append

/-- The event is the first locked section of `Do`. -/
def Event.EntersDo : Event → Prop
  | .join _ | .lead _ => True
  | _ => False

/-- A `Set` of the key enters `setGroup.Do` only while no `Set` of the key is registered there. -/
def SetsAlone (k : GoString) (s : State P) (l : Label P) (_ : State P) : Prop :=
  ∀ p op e, l = .call p op e → e.EntersDo → op.flight = .set → op.key = k →
    (s.node.flights .set).m k = none

/-- Every `Set` of the key is its own leader, and has written when it returns nil. -/
def SetsLead (k : GoString) (ls : List (Label P)) (s : State P) : Prop :=
  ∀ p fr, s.pc p = some fr → fr.op.flight = .set → fr.op.key = k →
    (∀ c, fr.loc ≠ .wait c) ∧ (fr.loc = .ret .ok → Written ls p fr.op fr.since)

theorem setsLead_reachable (hpos : 0 < cacheBytes)
    (h : ((nodeLTS P cacheBytes).restrict (SetsAlone k)).Run ls s) : SetsLead k ls s := by
  refine h.invariant ?_ ?_
  · exact fun s hinit p fr hp => (pc_ne_initial hinit hp).elim
  · intro ls s l t hrun hi ⟨hstep, halone⟩
    have hs := sound_reachable hrun.of_restrict
    have hold : ∀ q fr, s.pc q = some fr → fr.op.flight = .set → fr.op.key = k →
        (∀ c, fr.loc ≠ .wait c) ∧ (fr.loc = .ret .ok → Written (ls ++ [l]) q fr.op fr.since) :=
      fun q fr hq hop hk => ⟨(hi q fr hq hop hk).1, fun hr => ((hi q fr hq hop hk).2 hr).append⟩
    cases hstep with
    | invoke op hp =>
      refine forall_setPC.mpr ⟨fun _ _ => ⟨?_, ?_⟩, fun q _ => hold q⟩
      · rcases start_cases s.node.group op with ⟨_, h⟩ | h | h | h | ⟨_, h⟩ <;> simp [h]
      · intro hok
        have hle := start_ok hok
        rw [hs.maxCacheBytes] at hle
        omega
    | @act p op since loc e n loc' hp ha =>
      refine forall_setPC.mpr ⟨fun hop hk => ?_, fun q _ => hold q⟩
      have hlog := logged_reachable hrun.of_restrict p _ hp (by simp [hop])
      obtain ⟨hwait, hok⟩ := hold p _ hp hop hk
      cases ha with
      | join hm =>
        simp only at hop hk
        rw [hop, hk, halone p op _ rfl trivial hop hk] at hm
        cases hm
      | delete =>
        refine ⟨by simp, fun hr => ?_⟩
        have hlog : _ → Written ls p op since := hlog
        exact (hlog (answer_ok (Loc.ret.inj hr))).append
      | wake => exact (hwait _ rfl).elim
      | hit | remoteSet | localRemove => cases hop
      | _ => simp
    | keys | setPeers => exact hold

omit [DecidableEq P] in
/-- A history shows what the part of it up to a later time shows. -/
theorem Written.of_take {r : ℕ} (h : Written (ls.take r) p op since) :
    ∃ i owner, since < i ∧ i < r ∧ ls[i]? = some (.call p op .write) ∧
      Contacted ls p op since i owner := by
  obtain ⟨i, owner, hsince, hi, a, isRemote, hm, ha, hpick, hsend⟩ := h
  obtain ⟨hir, hi⟩ := Lib.getElem?_of_take hi
  refine ⟨i, owner, hsince, hir, hi, a, isRemote, hm, ha, (Lib.getElem?_of_take hpick).2, ?_⟩
  intro hr
  obtain ⟨c, b, howner, hab, hb, hls⟩ := hsend hr
  exact ⟨c, b, howner, hab, hb, (Lib.getElem?_of_take hls).2⟩

/-- The event at a time runs the locked section of a call on the caches. -/
theorem write_at {C : State P → Label P → State P → Prop} {i : ℕ}
    (h : ((nodeLTS P cacheBytes).restrict C).Run ls s)
    (hi : ls[i]? = some (.call p op .write)) :
    ∃ u w, (nodeLTS P cacheBytes).Run (ls.take i) u ∧ Step u (.call p op .write) w ∧
      (nodeLTS P cacheBytes).Run (ls.take (i + 1)) w ∧ w.node.group = op.write u.node.group := by
  obtain ⟨u, w, hu, ⟨hstep, _⟩, hw⟩ := h.occurs hi
  obtain ⟨since, loc, loc', _, ha, _⟩ := hstep.frame (by simp)
  exact ⟨u, w, hu.of_restrict, hstep, hw.of_restrict, by rw [ha.write_cases.2.1]⟩

/-- If every `Set` of a key is alone in `setGroup`, then a `Set` of the key that returns nil has,
since its invocation, stored its own value and before that sent it to a remote owner. -/
theorem set_written (hpos : 0 < cacheBytes)
    (h : ((nodeLTS P cacheBytes).restrict (SetsAlone k)).Run ls s) {m r : ℕ}
    {value : Option GoString} {expire : Time}
    (hinvoke : ls[m]? = some (.call p (.set k value expire) .invoke))
    (hret : ls[r]? = some (.call p (.set k value expire) (.ret .ok))) :
    ∃ i owner, m < i ∧ i < r ∧ ls[i]? = some (.call p (.set k value expire) .write) ∧
      Contacted ls p (.set k value expire) m i owner ∧
      ∃ u w : State P, (nodeLTS P cacheBytes).Run (ls.take i) u ∧
        Step u (.call p (.set k value expire) .write) w ∧
        (nodeLTS P cacheBytes).Run (ls.take (i + 1)) w ∧
        w.node.group = u.node.group.update k (Op.written value expire) := by
  obtain ⟨_, hmr, u, _, loc, _, hu, hp, ha⟩ := event_after_invoke h hinvoke hret (by simp)
  have hloc := ha.ret_loc
  obtain ⟨i, owner, hmi, hir, hwrite, hc⟩ :=
    ((setsLead_reachable hpos hu p _ hp rfl rfl).2 hloc).of_take
  exact ⟨i, owner, hmi, hir, hwrite, hc, write_at h hwrite⟩

theorem broadcast_hostA (value : Option GoString) (expire : Time) :
    (Op.set [7] value expire).broadcast (some ⟨0, ⟨hostB, false⟩⟩) (hostInst hostA).getAllPeers =
      .broadcast [] [] [] := by
  rw [peers_hostA]
  rfl

theorem broadcast_hostB (value : Option GoString) (expire : Time) :
    (Op.set [7] value expire).broadcast (some ⟨0, ⟨hostB, true⟩⟩) (hostInst hostB).getAllPeers =
      .broadcast [⟨1, ⟨hostA, false⟩⟩] [] [] := by
  rw [peers_hostB]
  rfl

theorem act_peers {c : ℕ} {b : Body} (h : op.broadcast owner n.inst.getAllPeers = b) :
    Act n time op (.lead c (.peers owner)) .peers n (.lead c b) :=
  h ▸ .body .peers

/-- A new group at one of two members. -/
def hostState (x : GoString) : State ℕ :=
  { solo with node := { solo.node with inst := hostInst x } }

theorem hostState_initial (x : GoString) : (nodeLTS ℕ 1000).Init (hostState x) :=
  ⟨rfl, fun _ => rfl, rfl, fun _ => rfl, fun _ => rfl⟩

/-- Two sets of a key that `B` owns, one after the other, each with the call of the owner. -/
def ownerRun : List (Label ℕ) :=
  let toB : Client := ⟨0, ⟨hostB, false⟩⟩
  let run (p c : ℕ) (op : Op) : List (Label ℕ) :=
    [.call p op .invoke, .call p op (.lead c), .call p op (.pick (some toB) true),
      .call p op (.send toB), .call p op (.answered toB none), .call p op .write,
      .call p op .peers, .call p op .wait, .call p op .assign, .call p op .done,
      .call p op .delete, .call p op (.ret .ok)]
  run 0 0 (.set [7] (some [1]) .zero) ++ run 1 1 (.set [7] (some [2]) .zero)

theorem set_written_owner : ∃ s : State ℕ,
    ((nodeLTS ℕ 1000).restrict (SetsAlone [7])).Run ownerRun s ∧
    ownerRun[11]? = some (.call 0 (.set [7] (some [1]) .zero) (.ret .ok)) ∧
    ownerRun[12]? = some (.call 1 (.set [7] (some [2]) .zero) .invoke) ∧
    ownerRun[23]? = some (.call 1 (.set [7] (some [2]) .zero) (.ret .ok)) ∧
    ∃ i owner, 12 < i ∧ i < 23 ∧
      ownerRun[i]? = some (.call 1 (.set [7] (some [2]) .zero) .write) ∧
      Contacted ownerRun 1 (.set [7] (some [2]) .zero) 12 i owner := by
  have hother : ∀ (s t : State ℕ) p op e, ¬ e.EntersDo → SetsAlone [7] s (.call p op e) t := by
    rintro s t p op e he _ _ _ ⟨⟩ henters
    exact (he henters).elim
  have h₀ : ((nodeLTS ℕ 1000).restrict (SetsAlone [7])).Run [] (hostState hostA) :=
    .init (hostState_initial hostA)
  have h₁ := h₀.step ⟨Step.invoke (p := 0) (.set [7] (some [1]) .zero) rfl, hother _ _ _ _ _ id⟩
  have h₂ := h₁.step ⟨Step.act (p := 0) rfl (.lead rfl), fun _ _ _ _ _ _ _ => rfl⟩
  have h₃ := h₂.step ⟨Step.act (p := 0) rfl (.body (.pickRemote pick_hostA)), hother _ _ _ _ _ id⟩
  have h₄ := h₃.step ⟨Step.act (p := 0) rfl (.body .send), hother _ _ _ _ _ id⟩
  have h₅ := h₄.step ⟨Step.act (p := 0) rfl (.body (.ownerDone nofun)), hother _ _ _ _ _ id⟩
  have h₆ := h₅.step ⟨Step.act (p := 0) rfl (.body (.write nofun)), hother _ _ _ _ _ id⟩
  have h₇ := h₆.step ⟨Step.act (p := 0) rfl (act_peers (broadcast_hostA _ _)),
    hother _ _ _ _ _ id⟩
  have h₈ := h₇.step ⟨Step.act (p := 0) rfl (.body .wait), hother _ _ _ _ _ id⟩
  have h₉ := h₈.step ⟨Step.act (p := 0) rfl .assign, hother _ _ _ _ _ id⟩
  have h₁₀ := h₉.step ⟨Step.act (p := 0) rfl .done, hother _ _ _ _ _ id⟩
  have h₁₁ := h₁₀.step ⟨Step.act (p := 0) rfl .delete, hother _ _ _ _ _ id⟩
  have h₁₂ := h₁₁.step ⟨Step.act (p := 0) rfl .ret, hother _ _ _ _ _ id⟩
  have h₁₃ := h₁₂.step ⟨Step.invoke (p := 1) (.set [7] (some [2]) .zero) rfl, hother _ _ _ _ _ id⟩
  have h₁₄ := h₁₃.step ⟨Step.act (p := 1) rfl (.lead rfl), fun _ _ _ _ _ _ _ => rfl⟩
  have h₁₅ := h₁₄.step ⟨Step.act (p := 1) rfl (.body (.pickRemote pick_hostA)),
    hother _ _ _ _ _ id⟩
  have h₁₆ := h₁₅.step ⟨Step.act (p := 1) rfl (.body .send), hother _ _ _ _ _ id⟩
  have h₁₇ := h₁₆.step ⟨Step.act (p := 1) rfl (.body (.ownerDone nofun)), hother _ _ _ _ _ id⟩
  have h₁₈ := h₁₇.step ⟨Step.act (p := 1) rfl (.body (.write nofun)), hother _ _ _ _ _ id⟩
  have h₁₉ := h₁₈.step ⟨Step.act (p := 1) rfl (act_peers (broadcast_hostA _ _)),
    hother _ _ _ _ _ id⟩
  have h₂₀ := h₁₉.step ⟨Step.act (p := 1) rfl (.body .wait), hother _ _ _ _ _ id⟩
  have h₂₁ := h₂₀.step ⟨Step.act (p := 1) rfl .assign, hother _ _ _ _ _ id⟩
  have h₂₂ := h₂₁.step ⟨Step.act (p := 1) rfl .done, hother _ _ _ _ _ id⟩
  have h₂₃ := h₂₂.step ⟨Step.act (p := 1) rfl .delete, hother _ _ _ _ _ id⟩
  have h₂₄ := h₂₃.step ⟨Step.act (p := 1) rfl .ret, hother _ _ _ _ _ id⟩
  obtain ⟨i, owner, hi, hi', hwrite, hc, _⟩ :=
    set_written (m := 12) (r := 23) (by omega) h₂₄ rfl rfl
  exact ⟨_, h₂₄, rfl, rfl, rfl, i, owner, hi, hi', hwrite, hc⟩

/-- A `Set` of the key `k` to one byte. -/
def setK (x : UInt8) : Op := .set [107] (some [x]) .zero

/-- A leader that is done has not deleted its entry yet; two further calls, one after the other,
join it and return nil. -/
def lostRun : List (Label ℕ) :=
  [.call 0 (setK 0) .invoke, .call 0 (setK 0) (.lead 0), .call 0 (setK 0) (.pick none false),
    .call 0 (setK 0) .write, .call 0 (setK 0) .peers, .call 0 (setK 0) .wait,
    .call 0 (setK 0) .assign, .call 0 (setK 0) .done, .call 1 (setK 1) .invoke,
    .call 1 (setK 1) (.join 0), .call 1 (setK 1) .wake, .call 1 (setK 1) (.ret .ok),
    .call 2 (setK 2) .invoke, .call 2 (setK 2) (.join 0), .call 2 (setK 2) .wake,
    .call 2 (setK 2) (.ret .ok)]

theorem set_lost : ∃ s : State ℕ, (nodeLTS ℕ 1000).Run lostRun s ∧
    lostRun[11]? = some (.call 1 (setK 1) (.ret .ok)) ∧
    lostRun[12]? = some (.call 2 (setK 2) .invoke) ∧
    lostRun[15]? = some (.call 2 (setK 2) (.ret .ok)) ∧
    (∀ op, .call 1 op .write ∉ lostRun ∧ .call 2 op .write ∉ lostRun) ∧
    s.node.group.mainCache.find? [107] = some (Op.written (some [0]) .zero) := by
  have h₀ : (nodeLTS ℕ 1000).Run [] solo := .init solo_initial
  have h₁ := h₀.step (Step.invoke (p := 0) (setK 0) rfl)
  have h₂ := h₁.step (Step.act (p := 0) rfl (.lead rfl))
  have h₃ := h₂.step (Step.act (p := 0) rfl (.body (.pickLocal rfl)))
  have h₄ := h₃.step (Step.act (p := 0) rfl (.body (.write (by simp [setK, Op.flight]))))
  have h₅ := h₄.step (Step.act (p := 0) rfl (.body .peers))
  have h₆ := h₅.step (Step.act (p := 0) rfl (.body .wait))
  have h₇ := h₆.step (Step.act (p := 0) rfl .assign)
  have h₈ := h₇.step (Step.act (p := 0) rfl .done)
  have h₉ := h₈.step (Step.invoke (p := 1) (setK 1) rfl)
  have h₁₀ := h₉.step (Step.act (p := 1) rfl (.join rfl))
  have h₁₁ := h₁₀.step (Step.act (p := 1) rfl (.wake rfl))
  have h₁₂ := h₁₁.step (Step.act (p := 1) rfl .ret)
  have h₁₃ := h₁₂.step (Step.invoke (p := 2) (setK 2) rfl)
  have h₁₄ := h₁₃.step (Step.act (p := 2) rfl (.join rfl))
  have h₁₅ := h₁₄.step (Step.act (p := 2) rfl (.wake rfl))
  have h₁₆ := h₁₅.step (Step.act (p := 2) rfl .ret)
  exact ⟨_, h₁₆, rfl, rfl, rfl, by simp [lostRun], rfl⟩

/-- A leader has run its locked section and has not failed. -/
def Loc.PastWrite : Loc → Prop
  | .lead _ (.peers _) | .lead _ (.broadcast _ _ _) => True
  | .lead _ (.ends o _) | .assigned _ o _ | .done _ o _ => o.result.2 = none
  | _ => False

/-- A `Remove` of the key enters `removeGroup.Do` only while no registered `Remove` of the key
has run its `LocalRemove` already. -/
def RemovesEarly (k : GoString) (s : State P) (l : Label P) (_ : State P) : Prop :=
  ∀ p e, l = .call p (.remove k) e → e.EntersDo →
    ∀ q since loc, s.pc q = some ⟨.remove k, since, loc⟩ → ¬ loc.PastWrite

/-- Since a time, some `Remove` of the key has cleared it from the caches. -/
def Cleared (ls : List (Label P)) (k : GoString) (since : ℕ) : Prop :=
  ∃ (i : ℕ) (q : P), since < i ∧ ls[i]? = some (.call q (.remove k) .write)

omit [DecidableEq P] in
theorem Cleared.append (h : Cleared ls k since) : Cleared (ls ++ [l]) k since := by
  obtain ⟨i, q, hsince, hi⟩ := h
  exact ⟨i, q, hsince, Lib.getElem?_concat_of_some hi⟩

/-- The call with this pointer has not succeeded: its leader has not run its `LocalRemove` yet or
has failed, or it has been left with an error. -/
def Pending (s : State P) (k : GoString) (c : ℕ) : Prop :=
  (∃ q since loc, s.pc q = some ⟨.remove k, since, loc⟩ ∧ loc.Leading c ∧ ¬ loc.PastWrite) ∨
    ((s.node.flights .remove).calls c).wg = false ∧ ((s.node.flights .remove).calls c).err ≠ none

theorem closed_stays {f : Flight} {c : ℕ} (h : Step s l t) (hi : Flights s)
    (hc : c < (s.node.flights f).next) (hwg : ((s.node.flights f).calls c).wg = false) :
    (t.node.flights f).calls c = (s.node.flights f).calls c := by
  cases h with
  | invoke => simp [State.setPC]
  | keys | setPeers => rfl
  | @act p op since loc e n loc' hp ha =>
    rcases ha.calls_cases f c with heq | ⟨rfl, hnext | ⟨o, pop, rfl, _⟩ | ⟨o, pop, _, rfl, _⟩⟩
    · exact heq
    · omega
    all_goals
      obtain ⟨_, _, hloc, _⟩ := hi.done_of_closed hp rfl hwg
      cases hloc

/-- The leader of a pending call stays pending until it runs its `LocalRemove`. -/
theorem Act.pending {c : ℕ} (h : Act n time (.remove k) loc e n' loc') (hlead : loc.Leading c)
    (hp : ¬ loc.PastWrite) : e = .write ∨ (loc'.Leading c ∧ ¬ loc'.PastWrite) ∨
      ∃ o pop, loc = .done c o pop ∧ o.result.2 ≠ none ∧
        (n'.flights .remove).calls = (n.flights .remove).calls := by
  cases h with
  | body h =>
    have hlead : _ = c := hlead
    subst hlead
    cases h with
    | write => exact Or.inl rfl
    | pickRemote | pickLocal | send | ownerDone => exact Or.inr (Or.inl ⟨rfl, id⟩)
    | ownerFailed e => exact Or.inr (Or.inl ⟨rfl, fun h => by cases h⟩)
    | peers | sendPeer | answered | wait => exact (hp trivial).elim
  | assign | done => exact Or.inr (Or.inl ⟨hlead, hp⟩)
  | @delete _ c' o pop =>
    cases hlead
    exact Or.inr (Or.inr ⟨o, pop, rfl, hp, by simp [Op.flight, Singleflight.Group.delete]⟩)
  | _ => exact hlead.elim

theorem pending_step {c : ℕ} (h : Step s l t) (hi : Flights s)
    (hwait : s.role .remove q = .wait k c) (hp : Pending s k c) :
    (∃ p, l = .call p (.remove k) .write) ∨ Pending t k c := by
  rcases hp with ⟨q', since, loc, hq', hlead, hnp⟩ | ⟨hwg, herr⟩
  · rcases h.frame_next hq' with hq' | ⟨e, loc', rfl, ha, hloc'⟩
    · exact Or.inr (Or.inl ⟨q', since, loc, hq', hlead, hnp⟩)
    · rcases ha.pending hlead hnp with rfl | ⟨hlead', hnp'⟩ | ⟨o, pop, rfl, ho, hcalls⟩
      · exact Or.inl ⟨q', rfl⟩
      · exact Or.inr (Or.inl ⟨q', since, loc', hloc', hlead', hnp'⟩)
      · obtain ⟨_, _, hwg, hres⟩ := hi.frame_ok hq'
        refine Or.inr (Or.inr ?_)
        rw [hcalls]
        exact ⟨hwg, fun he => ho ((congrArg Prod.snd hres).symm.trans he)⟩
  · have hlt : c < (s.node.flights .remove).next := by
      have hok := (hi .remove).ok q
      rw [hwait] at hok
      exact hok.1
    refine Or.inr (Or.inr ?_)
    rw [closed_stays h hi hlt hwg]
    exact ⟨hwg, herr⟩

omit [DecidableEq P] in
/-- A pending call does not hold a nil error. -/
theorem Pending.err_ne {c : ℕ} (h : Pending s k c) (hi : Flights s)
    (hwg : ((s.node.flights .remove).calls c).wg = false) :
    ((s.node.flights .remove).calls c).err ≠ none := by
  rcases h with ⟨q, since, loc, hq, hlead, hnp⟩ | ⟨_, herr⟩
  · obtain ⟨o, pop, rfl, hres⟩ := hi.done_of_closed hq hlead hwg
    exact fun he => hnp ((congrArg Prod.snd hres).symm.trans he)
  · exact herr

/-- Every `Remove` of the key that waits will see a `LocalRemove` or an error, and the key has been
cleared since its invocation when it returns nil. -/
def RemovesClear (k : GoString) (ls : List (Label P)) (s : State P) : Prop :=
  ∀ p fr, s.pc p = some fr → fr.op = .remove k →
    (∀ c, fr.loc = .wait c → Cleared ls k fr.since ∨ Pending s k c) ∧
    (fr.loc = .ret .ok → Cleared ls k fr.since)

/-- A waiting `Remove` that does not move has been served, or goes on waiting. -/
theorem RemovesClear.other {fr : Frame} (hi : RemovesClear k ls s) (hs : Sound cacheBytes ls s)
    (h : Step s l t) (hq : s.pc q = some fr) (hop : fr.op = .remove k) :
    (∀ c, fr.loc = .wait c → Cleared (ls ++ [l]) k fr.since ∨ Pending t k c) ∧
      (fr.loc = .ret .ok → Cleared (ls ++ [l]) k fr.since) := by
  refine ⟨fun c hc => ?_, fun hr => ((hi q fr hq hop).2 hr).append⟩
  rcases (hi q fr hq hop).1 c hc with hcleared | hpending
  · exact Or.inl hcleared.append
  · have hrole : s.role .remove q = .wait k c := by
      simp [role_of_pc hq, Frame.role, hop, hc, Op.flight, Op.key, Loc.role]
    rcases pending_step h hs.flights hrole hpending with ⟨p, rfl⟩ | hpending
    · exact Or.inl ⟨ls.length, p, hs.timed.since_lt hq, by simp⟩
    · exact Or.inr hpending

/-- A `Remove` that joins early finds its leader before the `LocalRemove`. -/
theorem pending_of_join {c : ℕ} (hi : Flights s) (hm : (s.node.flights .remove).m k = some c)
    (hearly : ∀ q since loc, s.pc q = some ⟨.remove k, since, loc⟩ → ¬ loc.PastWrite)
    (hp : s.pc p = some ⟨.remove k, since, .enter⟩) :
    Pending (s.setPC p ⟨.remove k, since, .wait c⟩ (s.node.countLoad (.remove k))) k c := by
  obtain ⟨q, ⟨op, since', loc⟩, hq, hf, hk, hlead⟩ := hi.leader hm
  obtain rfl : op = .remove k := by
    cases op <;> simp_all [Op.flight, Op.key]
  have hne : q ≠ p := by
    rintro rfl
    rw [hp] at hq
    cases hq
    exact hlead
  exact Or.inl ⟨q, since', loc, by simpa [State.setPC, hne] using hq, hlead,
    hearly q since' loc hq⟩

theorem removesClear_reachable
    (h : ((nodeLTS P cacheBytes).restrict (RemovesEarly k)).Run ls s) : RemovesClear k ls s := by
  refine h.invariant ?_ ?_
  · exact fun s hinit p fr hp => (pc_ne_initial hinit hp).elim
  · intro ls s l t hrun hi ⟨hstep, hearly⟩
    have hs := sound_reachable hrun.of_restrict
    have hold : ∀ q fr, s.pc q = some fr → fr.op = .remove k → _ :=
      fun _ _ => hi.other hs hstep
    cases hstep with
    | invoke op hp =>
      refine forall_setPC.mpr ⟨?_, fun q _ => hold q⟩
      rintro rfl
      simp [Op.start]
    | @act p op since loc e n loc' hp ha =>
      refine forall_setPC.mpr ⟨?_, fun q _ => hold q⟩
      rintro rfl
      have hlog := logged_reachable hrun.of_restrict p _ hp (by simp [Op.flight])
      cases ha with
      | @join _ c hm =>
        refine ⟨?_, by simp⟩
        rintro _ ⟨⟩
        exact Or.inr (pending_of_join hs.flights hm (hearly p _ rfl trivial) hp)
      | delete =>
        refine ⟨by simp, fun hr => ?_⟩
        have hlog : _ → Written ls p (.remove k) since := hlog
        obtain ⟨i, _, hsince, hi, _⟩ := hlog (answer_ok (Loc.ret.inj hr))
        exact Cleared.append ⟨i, p, hsince, hi⟩
      | @wake _ c hwg =>
        refine ⟨by simp, fun hr => ?_⟩
        have herr : ((s.node.flights .remove).calls c).err = none := answer_ok (Loc.ret.inj hr)
        rcases (hi p _ hp rfl).1 c rfl with hcleared | hpending
        · exact hcleared.append
        · exact (hpending.err_ne hs.flights hwg herr).elim
      | _ => simp
    | keys | setPeers => exact hold

/-- What the caches hold of a key was stored after the last time the key was cleared. -/
theorem stored_since_clear (hpos : 0 < cacheBytes) (h : (nodeLTS P cacheBytes).Run ls s) {i : ℕ}
    (hi : ls[i]? = some (.call p (.remove k) .write)) {v : Value}
    (hv : s.node.group.Holds k v) :
    ∃ (j : ℕ) (l : Label P), i < j ∧ ls[j]? = some l ∧ l.Stores k v := by
  refine h.invariant (I := fun ls s => ∀ i p, ls[i]? = some (.call p (.remove k) .write) →
    s.node.group.Holds k v → ∃ (j : ℕ) (l : Label P), i < j ∧ ls[j]? = some l ∧ l.Stores k v)
    (by simp) ?_ i p hi hv
  intro ls s l t hrun hstored hstep i p hi hv
  rcases Lib.getElem?_concat_cases hi with hi | ⟨rfl, rfl⟩
  · rcases holds_step hstep hv with hold | hstores
    · obtain ⟨j, l', hij, hj, hl'⟩ := hstored i p hi hold
      exact ⟨j, l', hij, Lib.getElem?_concat_of_some hj, hl'⟩
    · exact ⟨ls.length, l, (List.getElem?_eq_some_iff.mp hi).1, by simp, hstores⟩
  · obtain ⟨since, loc, loc', _, ha, _⟩ := hstep.frame (by simp)
    obtain ⟨hop, hn, _⟩ := ha.write_cases
    rw [hn] at hv
    have hmax := (sound_reachable hrun).maxCacheBytes
    cases holds_write_key (.remove k) (by omega) hop hv

/-- If a `Remove` of a key joins only executions that have not run their `LocalRemove`, then the key
is cleared from both caches between the invocation and the return of a `Remove` that returns nil,
and what they hold of it at the return was stored after that. -/
theorem remove_cleared (hpos : 0 < cacheBytes)
    (h : ((nodeLTS P cacheBytes).restrict (RemovesEarly k)).Run ls s) {m r : ℕ}
    (hinvoke : ls[m]? = some (.call p (.remove k) .invoke))
    (hret : ls[r]? = some (.call p (.remove k) (.ret .ok))) :
    ∃ i q, m < i ∧ i < r ∧ ls[i]? = some (.call q (.remove k) .write) ∧
      (∃ u w : State P, (nodeLTS P cacheBytes).Run (ls.take i) u ∧
        Step u (.call q (.remove k) .write) w ∧ (nodeLTS P cacheBytes).Run (ls.take (i + 1)) w ∧
        w.node.group = u.node.group.localRemove k ∧ ∀ v, ¬ w.node.group.Holds k v) ∧
      ∀ u v, (nodeLTS P cacheBytes).Run (ls.take r) u → u.node.group.Holds k v →
        ∃ (j : ℕ) (l : Label P), i < j ∧ j < r ∧ ls[j]? = some l ∧ l.Stores k v := by
  obtain ⟨_, hmr, u, _, loc, _, hu, hp, ha⟩ := event_after_invoke h hinvoke hret (by simp)
  have hloc := ha.ret_loc
  obtain ⟨i, q, hmi, hi⟩ := (removesClear_reachable hu p _ hp rfl).2 hloc
  obtain ⟨hir, hclear⟩ := Lib.getElem?_of_take hi
  obtain ⟨u', w, hu', hstep, hw, hgroup⟩ := write_at h hclear
  refine ⟨i, q, hmi, hir, hclear, ⟨u', w, hu', hstep, hw, hgroup, ?_⟩, ?_⟩
  · intro v hv
    have hlast : (ls.take (i + 1))[i]? = some (.call q (.remove k) .write) := by
      rwa [List.getElem?_take_of_lt (Nat.lt_succ_self i)]
    obtain ⟨j, l, hij, hj, _⟩ := stored_since_clear hpos hw hlast hv
    have hlt := (Lib.getElem?_of_take hj).1
    omega
  · intro x v hx hv
    obtain ⟨j, l, hij, hj, hl⟩ := stored_since_clear hpos hx hi hv
    obtain ⟨hjr, hj⟩ := Lib.getElem?_of_take hj
    exact ⟨j, l, hij, hjr, hj, hl⟩

/-- A `RemoteSet` of the key `k` to one byte. -/
def remoteSetK : Op := .remoteSet [107] (some [1]) .zero

/-- A key is set, a `Remove` of it starts, and a second one joins it before its `LocalRemove`. -/
def joinedRun : List (Label ℕ) :=
  [.call 0 remoteSetK .invoke, .call 0 remoteSetK .write, .call 0 remoteSetK (.ret .ok),
    .call 1 (.remove [107]) .invoke, .call 1 (.remove [107]) (.lead 0),
    .call 2 (.remove [107]) .invoke, .call 2 (.remove [107]) (.join 0),
    .call 1 (.remove [107]) (.pick none false), .call 1 (.remove [107]) .write,
    .call 1 (.remove [107]) .peers, .call 1 (.remove [107]) .wait,
    .call 1 (.remove [107]) .assign, .call 1 (.remove [107]) .done,
    .call 2 (.remove [107]) .wake, .call 2 (.remove [107]) (.ret .ok),
    .call 1 (.remove [107]) .delete, .call 1 (.remove [107]) (.ret .ok)]

theorem remove_cleared_joined : ∃ s : State ℕ,
    ((nodeLTS ℕ 1000).restrict (RemovesEarly [107])).Run joinedRun s ∧
    joinedRun[5]? = some (.call 2 (.remove [107]) .invoke) ∧
    joinedRun[14]? = some (.call 2 (.remove [107]) (.ret .ok)) ∧
    (∃ u v, (nodeLTS ℕ 1000).Run (joinedRun.take 5) u ∧ u.node.group.Holds [107] v) ∧
    ∃ i, 5 < i ∧ i < 14 ∧ ∀ u v, (nodeLTS ℕ 1000).Run (joinedRun.take 14) u →
      u.node.group.Holds [107] v →
      ∃ (j : ℕ) (l : Label ℕ), i < j ∧ j < 14 ∧ joinedRun[j]? = some l ∧ l.Stores [107] v := by
  have hother : ∀ (s t : State ℕ) p op e,
      ¬ e.EntersDo → RemovesEarly [107] s (.call p op e) t := by
    rintro s t p op e he _ _ ⟨⟩ henters
    exact (he henters).elim
  have h₀ : ((nodeLTS ℕ 1000).restrict (RemovesEarly [107])).Run [] solo := .init solo_initial
  have h₁ := h₀.step ⟨Step.invoke (p := 0) remoteSetK rfl, hother _ _ _ _ _ id⟩
  have h₂ := h₁.step ⟨Step.act (p := 0) rfl .remoteSet, hother _ _ _ _ _ id⟩
  have h₃ := h₂.step ⟨Step.act (p := 0) rfl .ret, hother _ _ _ _ _ id⟩
  have h₄ := h₃.step ⟨Step.invoke (p := 1) (.remove [107]) rfl, hother _ _ _ _ _ id⟩
  have h₅ := h₄.step ⟨Step.act (p := 1) rfl (.lead rfl), by
    intro _ _ _ _ q since loc hq hpast
    by_cases hq₁ : q = 1
    · subst hq₁
      cases hq
      exact hpast
    · by_cases hq₀ : q = 0 <;> simp [State.setPC, solo, remoteSetK, hq₀, hq₁] at hq⟩
  have h₆ := h₅.step ⟨Step.invoke (p := 2) (.remove [107]) rfl, hother _ _ _ _ _ id⟩
  have h₇ := h₆.step ⟨Step.act (p := 2) rfl (.join rfl), by
    intro _ _ _ _ q since loc hq hpast
    by_cases hq₂ : q = 2
    · subst hq₂
      cases hq
      exact hpast
    · by_cases hq₁ : q = 1
      · subst hq₁
        cases hq
        exact hpast
      · by_cases hq₀ : q = 0 <;> simp [State.setPC, solo, remoteSetK, hq₀, hq₁, hq₂] at hq⟩
  have h₈ := h₇.step ⟨Step.act (p := 1) rfl (.body (.pickLocal rfl)), hother _ _ _ _ _ id⟩
  have h₉ := h₈.step ⟨Step.act (p := 1) rfl (.body (.write (by rintro ⟨⟩))), hother _ _ _ _ _ id⟩
  have h₁₀ := h₉.step ⟨Step.act (p := 1) rfl (.body .peers), hother _ _ _ _ _ id⟩
  have h₁₁ := h₁₀.step ⟨Step.act (p := 1) rfl (.body .wait), hother _ _ _ _ _ id⟩
  have h₁₂ := h₁₁.step ⟨Step.act (p := 1) rfl .assign, hother _ _ _ _ _ id⟩
  have h₁₃ := h₁₂.step ⟨Step.act (p := 1) rfl .done, hother _ _ _ _ _ id⟩
  have h₁₄ := h₁₃.step ⟨Step.act (p := 2) rfl (.wake rfl), hother _ _ _ _ _ id⟩
  have h₁₅ := h₁₄.step ⟨Step.act (p := 2) rfl .ret, hother _ _ _ _ _ id⟩
  have h₁₆ := h₁₅.step ⟨Step.act (p := 1) rfl .delete, hother _ _ _ _ _ id⟩
  have h₁₇ := h₁₆.step ⟨Step.act (p := 1) rfl .ret, hother _ _ _ _ _ id⟩
  obtain ⟨i, _, hi, hi', _, _, hstored⟩ := remove_cleared (m := 5) (r := 14) (by omega) h₁₇ rfl rfl
  exact ⟨_, h₁₇, rfl, rfl, ⟨_, _, h₅.of_restrict, Or.inl rfl⟩, i, hi, hi', hstored⟩

/-- A `Remove` has cleared the key and is still at its broadcast; the key is set again, and a second
`Remove`, invoked after that, joins the first and returns nil. -/
def skippedRun : List (Label ℕ) :=
  [.call 0 (.remove [107]) .invoke, .call 0 (.remove [107]) (.lead 0),
    .call 0 (.remove [107]) (.pick none false), .call 0 (.remove [107]) .write,
    .call 1 remoteSetK .invoke, .call 1 remoteSetK .write, .call 1 remoteSetK (.ret .ok),
    .call 2 (.remove [107]) .invoke, .call 2 (.remove [107]) (.join 0),
    .call 0 (.remove [107]) .peers, .call 0 (.remove [107]) .wait,
    .call 0 (.remove [107]) .assign, .call 0 (.remove [107]) .done,
    .call 2 (.remove [107]) .wake, .call 2 (.remove [107]) (.ret .ok)]

theorem remove_skipped : ∃ s : State ℕ, (nodeLTS ℕ 1000).Run skippedRun s ∧
    skippedRun[5]? = some (.call 1 remoteSetK .write) ∧
    skippedRun[7]? = some (.call 2 (.remove [107]) .invoke) ∧
    skippedRun[14]? = some (.call 2 (.remove [107]) (.ret .ok)) ∧
    (∀ p op, .call p op .write ∉ skippedRun.drop 7) ∧
    s.node.group.Holds [107] (Op.written (some [1]) .zero) := by
  have h₀ : (nodeLTS ℕ 1000).Run [] solo := .init solo_initial
  have h₁ := h₀.step (Step.invoke (p := 0) (.remove [107]) rfl)
  have h₂ := h₁.step (Step.act (p := 0) rfl (.lead rfl))
  have h₃ := h₂.step (Step.act (p := 0) rfl (.body (.pickLocal rfl)))
  have h₄ := h₃.step (Step.act (p := 0) rfl (.body (.write (by simp [Op.flight]))))
  have h₅ := h₄.step (Step.invoke (p := 1) remoteSetK rfl)
  have h₆ := h₅.step (Step.act (p := 1) rfl .remoteSet)
  have h₇ := h₆.step (Step.act (p := 1) rfl .ret)
  have h₈ := h₇.step (Step.invoke (p := 2) (.remove [107]) rfl)
  have h₉ := h₈.step (Step.act (p := 2) rfl (.join rfl))
  have h₁₀ := h₉.step (Step.act (p := 0) rfl (.body .peers))
  have h₁₁ := h₁₀.step (Step.act (p := 0) rfl (.body .wait))
  have h₁₂ := h₁₁.step (Step.act (p := 0) rfl .assign)
  have h₁₃ := h₁₂.step (Step.act (p := 0) rfl .done)
  have h₁₄ := h₁₃.step (Step.act (p := 2) rfl (.wake rfl))
  have h₁₅ := h₁₄.step (Step.act (p := 2) rfl .ret)
  exact ⟨_, h₁₅, rfl, rfl, rfl, by simp [skippedRun], Or.inl rfl⟩

end Groupcache.Concurrent
