import Groupcache.CallProgress
import Groupcache.Provenance

/-! Why a `Get` fails. Peers that cannot be reached do not make it fail: its error is that of a
Getter that failed on the key, at whatever node, or its own sink's. -/
namespace Groupcache.Concurrent

open Transport Peer
open Singleflight (Outcome Role)

/-- The leader of a load has an error to publish. -/
def Loc.Fails : Loc → Prop
  | .lead _ (.ends o _) | .assigned _ o _ | .done _ o _ => o.result.2 ≠ none
  | _ => False

/-- The next step of a `Get` at this place gives the value to its sink. -/
def Loc.Hands (n : Node) (k : GoString) (v : Value) : Loc → Prop
  | .lookup tier => ∃ now g, look n.group now k tier = (g, .hit v)
  | .done _ o _ => o.result = (some v, none)
  | .wait c => ((n.flights .load).calls c).wg = false ∧
    ((n.flights .load).calls c).result = (some v, none)
  | _ => False

/-- The event ends a load with an error: that of a peer, or that of the Getter. -/
def Breaks (loc : Loc) (e : Event) : Prop :=
  ∃ n, (∃ c start err, loc = .lead n (.calling c start) ∧ e = .answered c (some err)) ∨
    ∃ start err, loc = .lead n (.getter start) ∧ e = .failed err

variable {P : Type}

/-- For a key, `F` holds once a load has failed. A `Get` that ends with an error has been refused
its value by its sink, as `R` says, or `F` holds. -/
structure Failing (R : P → Option Sink → Err → Prop) (F : Prop) (k : GoString) (s : State P) :
    Prop where
  lead : ∀ p fr, s.pc p = some fr → fr.op.Loads k → fr.loc.Fails → F
  wait : ∀ p dest since c, s.pc p = some ⟨.get k dest, since, .wait c⟩ →
    ((s.node.flights .load).calls c).wg = false →
    ((s.node.flights .load).calls c).err ≠ none → F
  ret : ∀ p dest since err, s.pc p = some ⟨.get k dest, since, .ret (.err err)⟩ → R p dest err ∨ F

variable {n n' : Node} {time since : ℕ} {op : Op} {b b' : Body} {e : Event} {g : Group Value}
  {loc loc' : Loc} {k : GoString} {F F' : Prop} {dest : Option Sink}
  {R R' : P → Option Sink → Err → Prop}

theorem BodyStep.fails {c : ℕ} (h : BodyStep n time op b e g b') (hop : op.flight = .load)
    (hfits : b.Fits op) (hb : Loc.Fails (.lead c b')) : Breaks (.lead c b) e := by
  cases h with
  | fetchFinal | fetchGiveUp | ownerFailed => exact ⟨c, Or.inl ⟨_, _, _, rfl, rfl⟩⟩
  | failed | panicked => exact ⟨c, Or.inr ⟨_, _, rfl, rfl⟩⟩
  | hit | fillHot | fillMain => exact (hb rfl).elim
  | wait | peers => exact (hfits hop).elim
  | pickLocal => cases op <;> exact hb.elim
  | _ => exact hb.elim

theorem Act.fails (h : Act n time op loc e n' loc') (hop : op.flight = .load)
    (hfits : loc.Fits op) (hl : loc'.Fails) : loc.Fails ∨ Breaks loc e := by
  cases h with
  | body h => exact Or.inr (h.fails hop hfits hl)
  | lead => cases op <;> exact hl.elim
  | assign | done => exact Or.inl hl
  | _ => exact hl.elim

/-- Only a `Get` loads its key. -/
theorem Act.breaks_get (h : Act n time op loc e n' loc') (hop : op.Loads k) (hb : Breaks loc e) :
    ∃ dest, op = .get k dest := by
  have hget : ∃ key dest, op = .get key dest := by
    obtain ⟨_, ⟨_, _, _, rfl, rfl⟩ | ⟨_, _, rfl, rfl⟩⟩ := hb
    · cases h with
      | body h =>
        cases h with
        | ownerFailed _ hne => exact (hne hop.1).elim
        | _ => exact ⟨_, _, rfl⟩
    · cases h with
      | body h => cases h <;> exact ⟨_, _, rfl⟩
  obtain ⟨key, dest, rfl⟩ := hget
  obtain ⟨_, rfl⟩ := hop
  exact ⟨dest, rfl⟩

theorem answer_err {o : Outcome Value} {pop : Bool} {err : Err}
    (h : (Op.get k dest).answer o pop = .err err) :
    (∃ v, o.result = (some v, none) ∧ Op.deliver dest v = .err err) ∨ o.result.2 ≠ none := by
  match o, h with
  | .ret _ (some _), _ => exact Or.inr (by simp [Outcome.result])
  | .ret (some v) none, h =>
    cases pop with
    | true => cases h
    | false => exact Or.inl ⟨v, rfl, h⟩
  | .ret none none, h => cases h
  | .panic, h => cases h

/-- A `Get` ends with an error that its sink has returned for the value it was given, that its own
load has, or that the call holds which it waited on. -/
theorem Act.ret_err {err : Err} (h : Act n time (.get k dest) loc e n' (.ret (.err err))) :
    (∃ v, loc.Hands n k v ∧ Op.deliver dest v = .err err) ∨ loc.Fails ∨
      ∃ c, loc = .wait c ∧ ((n.flights .load).calls c).wg = false ∧
        ((n.flights .load).calls c).err ≠ none := by
  generalize hret : Loc.ret (.err err) = loc' at h
  cases h with
  | @hit _ _ _ g v now h => exact Or.inl ⟨v, ⟨now, g, h⟩, (Loc.ret.inj hret).symm⟩
  | delete =>
    rcases answer_err (Loc.ret.inj hret).symm with ⟨v, hv, herr⟩ | herr
    · exact Or.inl ⟨v, hv, herr⟩
    · exact Or.inr (Or.inl herr)
  | @wake _ c hwg =>
    rcases answer_err (Loc.ret.inj hret).symm with ⟨v, hv, herr⟩ | herr
    · exact Or.inl ⟨v, ⟨hwg, hv⟩, herr⟩
    · exact Or.inr (Or.inr ⟨c, rfl, hwg, herr⟩)
  | _ => cases hret

theorem Act.waits {c : ℕ} (h : Act n time (.get k dest) loc e n' (.wait c)) :
    (n.flights .load).m k = some c ∧ n'.flights = n.flights := by
  cases h with
  | join h => exact ⟨h, countLoad_flights⟩

theorem Failing.mono {s : State P} (h : Failing R F k s) (hR : ∀ p dest err, R p dest err →
    R' p dest err) (hF : F → F') : Failing R' F' k s :=
  ⟨fun p fr hp hop hl => hF (h.lead p fr hp hop hl),
    fun p dest since c hp hwg herr => hF (h.wait p dest since c hp hwg herr),
    fun p dest since err hp => (h.ret p dest since err hp).imp (hR p dest err) hF⟩

variable [DecidableEq P] {s t : State P} {l : Label P} {p q : P} {cacheBytes : ℤ}

/-- A call that does not move may find the end of its wait. -/
theorem Failing.wait_other {c : ℕ} (hf : Failing R F k s) (h : Step s l t) (hi : Flights s)
    (hq : s.pc q = some ⟨.get k dest, since, .wait c⟩)
    (hwg : ((t.node.flights .load).calls c).wg = false)
    (herr : ((t.node.flights .load).calls c).err ≠ none) : F := by
  have hrole : s.role .load q = .wait k c := by
    simp [role_of_pc hq, Frame.role, Op.flight, Loc.role, Op.key]
  rcases closes h hi hrole hwg with ⟨hwas, hsame⟩ | ⟨p, op, _, o, pop, _, hp, hop, hk, hres⟩
  · exact hf.wait q dest since c hq hwas (hsame ▸ herr)
  · refine hf.lead p _ hp ⟨hop, hk⟩ ?_
    exact fun hnone => herr ((congrArg Prod.snd hres).trans hnone)

/-- A step after which `F` holds if it ends a load with an error, and `R` if a sink refuses its
value. -/
theorem failing_step (h : Step s l t) (hi : Flights s)
    (hfits : ∀ p fr, s.pc p = some fr → fr.loc.Fits fr.op) (hf : Failing R F k s)
    (hbreaks : ∀ p fr e loc, l = .call p fr.op e → t.pc p = some fr → fr.op.Loads k →
      Act s.node s.clock fr.op loc e t.node fr.loc → Breaks loc e → fr.loc.Fails → F)
    (hrefuses : ∀ p dest since loc e v err, l = .call p (.get k dest) e →
      s.pc p = some ⟨.get k dest, since, loc⟩ → loc.Hands s.node k v →
      Op.deliver dest v = .err err → R p dest err)
    (hnil : ∀ p, R p none (.other "groupcache: nil dest Sink")) : Failing R F k t := by
  refine ⟨?_, ?_, ?_⟩
  · intro p fr hp hop hl
    rcases h.frame_cases hp with ⟨hold, _⟩ | ⟨e, loc, rfl, hold, ha⟩ | ⟨_, _, hloc⟩
    · exact hf.lead p fr hold hop hl
    · rcases ha.fails hop.1 (hfits p _ hold) hl with hfails | hb
      · exact hf.lead p _ hold hop hfails
      · exact hbreaks p fr e loc rfl hp hop ha hb hl
    · rw [hloc] at hl
      rcases start_cases s.node.group fr.op with ⟨_, h'⟩ | h' | h' | h' | ⟨_, h'⟩ <;>
        rw [h'] at hl <;> exact hl.elim
  · intro p dest since c hp hwg herr
    rcases h.frame_cases hp with ⟨hold, _⟩ | ⟨e, loc, rfl, hold, ha⟩ | ⟨_, _, hloc⟩
    · exact hf.wait_other h hi hold hwg herr
    · obtain ⟨hm, hflights⟩ := ha.waits
      rw [hflights] at hwg herr
      obtain ⟨q, op, _, o, pop, hq, hop, hk, hres⟩ := hi.leader_of_closed hm hwg
      refine hf.lead q _ hq ⟨hop, hk⟩ ?_
      exact fun hnone => herr ((congrArg Prod.snd hres).trans hnone)
    · cases dest <;> cases hloc
  · intro p dest since err hp
    rcases h.frame_cases hp with ⟨hold, _⟩ | ⟨e, loc, rfl, hold, ha⟩ | ⟨_, _, hloc⟩
    · exact hf.ret p dest since err hold
    · rcases ha.ret_err with ⟨v, hv, herr⟩ | hfails | ⟨c, rfl, hwg, herr⟩
      · exact Or.inl (hrefuses p dest since loc e v err rfl hold hv herr)
      · exact Or.inr (hf.lead p _ hold ⟨rfl, rfl⟩ hfails)
      · exact Or.inr (hf.wait p dest since c hold hwg herr)
    · cases dest with
      | none =>
        cases hloc
        exact Or.inl (hnil p)
      | some => cases hloc

section Cluster

variable {ls : List (GoString × Label P)} {N N' : Net P} {x : GoString}
  {cacheBytes : GoString → ℤ}

/-- At some node the Getter has failed on the key. -/
def GetterFailed (ls : List (GoString × Label P)) (k : GoString) : Prop :=
  ∃ x p dest err, (x, Label.call p (.get k dest) (.failed err)) ∈ ls

variable (cacheBytes) in
/-- The sink of the `Get` is nil, or it has returned the error for the value that the `Get` found in
a cache, loaded or waited for. -/
def Refused (ls : List (GoString × Label P)) (x : GoString) (p : P) (k : GoString)
    (dest : Option Sink) (err : Err) : Prop :=
  dest = none ∧ err = .other "groupcache: nil dest Sink" ∨
    ∃ (i : ℕ) (e : Event) (N : Net P) (since : ℕ) (loc : Loc) (v : Value),
      (lossyLTS P cacheBytes).Run (ls.take i) N ∧ ls[i]? = some (x, .call p (.get k dest) e) ∧
      (N.nodes x).pc p = some ⟨.get k dest, since, loc⟩ ∧ loc.Hands (N.nodes x).node k v ∧
      Op.deliver dest v = .err err

/-- If the step is the end of a load's peer call that got no answer, the load goes on with the
Getter: the error is not one of those that `load` returns, and the context is still valid. -/
def FallsBack (N : Net P) (l : GoString × Label P) (N' : Net P) : Prop :=
  NetStep N l N' ∨ ∀ x p k dest c err, l = (x, .call p (.get k dest) (.answered c (some err))) →
    ∃ since n, (N'.nodes x).pc p = some ⟨.get k dest, since, .lead n .callGetter⟩

theorem Refused.append {l : GoString × Label P} {err : Err}
    (h : Refused cacheBytes ls x p k dest err) :
    Refused cacheBytes (ls ++ [l]) x p k dest err := by
  refine h.imp_right ?_
  rintro ⟨i, e, N, since, loc, v, hrun, hi, hhands⟩
  have hlt := (List.getElem?_eq_some_iff.mp hi).1
  refine ⟨i, e, N, since, loc, v, ?_, Lib.getElem?_concat_of_some hi, hhands⟩
  rwa [List.take_append_of_le_length hlt.le]

omit [DecidableEq P] in
theorem GetterFailed.append {l : GoString × Label P} (h : GetterFailed ls k) :
    GetterFailed (ls ++ [l]) k := by
  obtain ⟨x, p, dest, err, hmem⟩ := h
  exact ⟨x, p, dest, err, List.mem_append_left _ hmem⟩

/-- Every failure of a load, at any node and on its way to another one, goes back to a Getter. -/
structure AllFailing (cacheBytes : GoString → ℤ) (ls : List (GoString × Label P)) (N : Net P) :
    Prop where
  flights : ∀ x, Flights (N.nodes x)
  fits : ∀ x p fr, (N.nodes x).pc p = some fr → fr.loc.Fits fr.op
  failing : ∀ x k, Failing (fun p => Refused cacheBytes ls x p k) (GetterFailed ls k) k (N.nodes x)
  replied : ∀ i k dest e, N.calls i = some (.replied (.get k dest) (.err e)) → GetterFailed ls k

theorem allFailing_initial (h : (lossyLTS P cacheBytes).Init N) : AllFailing cacheBytes [] N where
  flights x := flights_initial (h.1 x)
  fits x _ _ hp := (pc_ne_initial (h.1 x) hp).elim
  failing x _ := ⟨fun _ _ hp => (pc_ne_initial (h.1 x) hp).elim,
    fun _ _ _ _ hp => (pc_ne_initial (h.1 x) hp).elim,
    fun _ _ _ _ hp => (pc_ne_initial (h.1 x) hp).elim⟩
  replied i _ _ _ hi := by simp [h.2.1 i] at hi

/-- The error of a peer's answer is that of the call that served it. -/
theorem Link.answered_replied {T T' : PeerCalls P} {c : Client} {err : Err}
    (h : Link T x (.call p op (.answered c (some err))) T') :
    ∃ e, T ⟨x, p, c⟩ = some (.replied op (.err e)) := by
  cases h with
  | inside he => cases he.2
  | receive hi he =>
    unfold Op.reply at he
    split at he <;> cases he
    exact ⟨_, hi⟩

/-- At the node of a step, only a failed Getter stands behind an error. -/
theorem AllFailing.failing_step {l : Label P} {s : State P} (hi : AllFailing cacheBytes ls N)
    (hrun : (lossyLTS P cacheBytes).Run ls N) (hs : Step (N.nodes x) l s) (hs' : N'.nodes x = s)
    (hback : FallsBack N (x, l) N') (k : GoString) :
    Failing (fun p => Refused cacheBytes (ls ++ [(x, l)]) x p k)
      (GetterFailed (ls ++ [(x, l)]) k) k s := by
  refine Concurrent.failing_step hs (hi.flights x) (hi.fits x)
    ((hi.failing x k).mono (fun _ _ _ => Refused.append) GetterFailed.append) ?_ ?_ ?_
  · rintro p ⟨op, since, loc'⟩ e loc rfl hp hop ha hb hl
    obtain ⟨dest, rfl⟩ := ha.breaks_get hop hb
    obtain ⟨n, ⟨c, start, err, rfl, rfl⟩ | ⟨start, err, rfl, rfl⟩⟩ := hb
    · rcases hback with ⟨_, hlink, _⟩ | hback
      · obtain ⟨e, he⟩ := hlink.answered_replied
        exact (hi.replied _ _ _ e he).append
      · obtain ⟨_, _, hnext⟩ := hback x p k dest c err rfl
        rw [hs', hp] at hnext
        cases hnext
        exact hl.elim
    · exact ⟨x, p, dest, err, List.mem_concat_self⟩
  · rintro p dest since loc e v err rfl hp hhands herr
    exact Or.inr ⟨ls.length, e, N, since, loc, v, by simpa using hrun, by simp, hp, hhands, herr⟩
  · exact fun p => Or.inl ⟨rfl, rfl⟩

theorem allFailing_step {l : Label P} (h : LossyStep N (x, l) N') (hback : FallsBack N (x, l) N')
    (hrun : (lossyLTS P cacheBytes).Run ls N) (hi : AllFailing cacheBytes ls N) :
    AllFailing cacheBytes (ls ++ [(x, l)]) N' := by
  obtain ⟨s, hs, hnodes, hcalls⟩ := h.node
  have hfailing := hi.failing_step hrun hs (by rw [hnodes, Function.update_self]) hback
  refine ⟨?_, ?_, ?_, ?_⟩
  · rw [hnodes]
    exact (Function.forall_update_iff N.nodes fun _ s => Flights s).mpr
      ⟨flights_step hs (hi.flights x), fun y _ => hi.flights y⟩
  · rw [hnodes]
    exact (Function.forall_update_iff N.nodes
      fun _ s => ∀ p fr, s.pc p = some fr → fr.loc.Fits fr.op).mpr
        ⟨fits_step hs (hi.fits x), fun y _ => hi.fits y⟩
  · rw [hnodes]
    refine (Function.forall_update_iff N.nodes fun y s => ∀ k,
      Failing (fun p => Refused cacheBytes (ls ++ [(x, l)]) y p k)
        (GetterFailed (ls ++ [(x, l)]) k) k s).mpr ⟨hfailing, ?_⟩
    exact fun y _ k =>
      (hi.failing y k).mono (fun _ _ _ => Refused.append) GetterFailed.append
  · intro i k dest e he
    rcases hcalls with hlink | ⟨_, hkept⟩
    · rcases hlink.replied he with hold | ⟨q, rfl⟩
      · exact (hi.replied i k dest e hold).append
      · obtain ⟨since, loc, loc', hp, ha, _⟩ := hs.frame (by simp)
        cases ha.ret_loc
        rcases (hi.failing x k).ret q _ since _ hp with hrefused | hfailed
        · obtain ⟨⟨⟩, _⟩ | ⟨_, _, _, _, _, _, _, _, _, _, ⟨⟩⟩ := hrefused
        · exact hfailed.append
    · exact (hi.replied i k dest e (hkept _ _ he)).append

theorem allFailing_run (h : ((lossyLTS P cacheBytes).restrict FallsBack).Run ls N) :
    AllFailing cacheBytes ls N := by
  refine h.invariant (I := AllFailing cacheBytes) (fun N => allFailing_initial) ?_
  exact fun ls N l N' hrun hi hs => allFailing_step hs.1 hs.2 hrun.of_restrict hi

/-- As long as loads that get no answer from a peer go on with the Getter, a `Get` returns an error
only if a Getter has failed on its key, or if it is the error of its own sink for the value that the
`Get` had for it. -/
theorem get_errors_from_getter (h : ((lossyLTS P cacheBytes).restrict FallsBack).Run ls N)
    {dest : Option Sink} {e : Err} (hret : (x, .call p (.get k dest) (.ret (.err e))) ∈ ls) :
    Refused cacheBytes ls x p k dest e ∨ GetterFailed ls k := by
  obtain ⟨i, hi⟩ := List.getElem?_of_mem hret
  obtain ⟨u, v, hu, hstep, _⟩ := h.occurs hi
  obtain ⟨s, hs, _⟩ := hstep.1.node
  obtain ⟨since, loc, loc', hp, ha, _⟩ := hs.frame (by simp)
  cases ha.ret_loc
  rcases ((allFailing_run hu).failing x k).ret p dest since e hp with hrefused | hfailed
  · refine Or.inl (hrefused.imp_right ?_)
    rintro ⟨j, ev, M, since', loc, w, hrun, hj, hhands⟩
    obtain ⟨hji, hj⟩ := Lib.getElem?_of_take hj
    refine ⟨j, ev, M, since', loc, w, ?_, hj, hhands⟩
    rwa [List.take_take, min_eq_left hji.le] at hrun
  · obtain ⟨y, q, dest', err, hmem⟩ := hfailed
    exact Or.inr ⟨y, q, dest', err, List.mem_of_mem_take hmem⟩

/-- `A` cannot reach the owner `B` of the key, and its own Getter fails. -/
theorem get_errors_unreachable : ∃ (ls : List (GoString × Label ℕ)) (N : Net ℕ) (e : Err),
    ((lossyLTS ℕ fun _ => 1000).restrict FallsBack).Run ls N ∧
    ([65], .call 0 (.get [107] (some .allocating)) (.ret (.err e))) ∈ ls ∧
    (Refused (fun _ => 1000) ls [65] 0 [107] (some .allocating) e ∨ GetterFailed ls [107]) := by
  have h₀ : ((lossyLTS ℕ fun _ => 1000).restrict FallsBack).Run [] pair :=
    .init pair_init
  have step : ∀ {ls N p op e s T}, ((lossyLTS ℕ fun _ => 1000).restrict FallsBack).Run ls N →
      Step (N.nodes [65]) (.call p op e) s → Link N.calls [65] (.call p op e) T →
      ((lossyLTS ℕ fun _ => 1000).restrict FallsBack).Run (ls ++ [([65], .call p op e)])
        { nodes := Function.update N.nodes [65] s, calls := T, keysCalls := N.keysCalls } :=
    fun h hs hl => h.step ⟨.net (.call hs hl), Or.inl (.call hs hl)⟩
  have h₁ := step h₀ (Step.invoke (p := 0) (.get [107] (some .allocating)) rfl)
    (.inside trivial (fun _ => trivial) nofun)
  have h₂ := step h₁ (Step.act (p := 0) rfl (.next .zero rfl)) (.of_plain rfl)
  have h₃ := step h₂ (Step.act (p := 0) rfl (.miss .zero rfl)) (.of_plain rfl)
  have h₄ := step h₃ (Step.act (p := 0) rfl (.lead rfl)) (.of_plain rfl)
  have h₅ := step h₄ (Step.act (p := 0) rfl (.body (.next .zero rfl))) (.of_plain rfl)
  have h₆ := step h₅ (Step.act (p := 0) rfl (.body (.miss .zero rfl))) (.of_plain rfl)
  have h₇ := step h₆ (Step.act (p := 0) rfl (.body (.pickRemote rfl))) (.of_plain rfl)
  have h₈ := step h₇ (Step.act (p := 0) rfl (.body .send)) (.send rfl)
  have h₉ := h₈.step ⟨.lost (x := [65]) (Step.act (p := 0) rfl
    (.body (.fetchFallBack (e := .other "connection refused") rfl))), Or.inr ?_⟩
  · have h₁₀ := step h₉ (Step.act (p := 0) rfl (.body .callGetter)) (.of_plain rfl)
    have h₁₁ := step h₁₀ (Step.act (p := 0) rfl (.body (.failed (.other "no database"))))
      (.of_plain rfl)
    have h₁₂ := step h₁₁ (Step.act (p := 0) rfl .assign) (.of_plain rfl)
    have h₁₃ := step h₁₂ (Step.act (p := 0) rfl .done) (.of_plain rfl)
    have h₁₄ := step h₁₃ (Step.act (p := 0) rfl .delete) (.of_plain rfl)
    have h₁₅ := step h₁₄ (Step.act (p := 0) rfl .ret) (.inside trivial nofun fun _ _ i _ hi => by
      rcases update_cases hi with hi | ⟨_, ⟨⟩⟩
      rcases update_cases hi with hi | ⟨_, ⟨⟩⟩
      cases hi)
    exact ⟨_, _, _, h₁₅, List.mem_concat_self, get_errors_from_getter h₁₅ List.mem_concat_self⟩
  · rintro x p k dest c err ⟨⟩
    exact ⟨_, _, rfl⟩

end Cluster

end Groupcache.Concurrent
