import Groupcache.LostWrites
import Groupcache.SetSpread

/-! Any number of sets of one key, at any nodes of a cluster whose members agree on the peers. When
all have returned, every member holds the value of one of them; if the functions of sets at
different nodes did not overlap, all members hold the same one. -/
namespace Groupcache.Concurrent

open Transport Peer
open Singleflight (Outcome)

/-- The value is the one that a `Set` was given, up to an expiry that peer calls cannot carry. -/
def Copy (value : Option GoString) (expire : Time) (v : Value) : Prop :=
  v.view.bytes = value.getD [] ∧ (Carried expire → v.view.expire = expire)

/-- The function of a `Set` of the key does not start while one is running at another node. -/
def Apart {P : Type} (k : GoString) (N : Net P) (l : GoString × Label P) : Prop :=
  ∀ p value expire c, l.2 = .call p (.set k value expire) (.lead c) →
    ∀ y q value' expire', y ≠ l.1 → ¬ N.Leads k y q value' expire'

theorem copy_written (value : Option GoString) (expire : Time) :
    Copy value expire (Op.written value expire) := by
  refine ⟨?_, fun _ => rfl⟩
  simp [Op.written]

theorem copy_received (value : Option GoString) (expire : Time) :
    Copy value expire (Op.written value (decodeExpire (encodeExpire expire))) := by
  refine ⟨?_, fun hcarried => hcarried⟩
  simp [Op.written]

variable {P : Type} [DecidableEq P] {as : List GoString} {inst : GoString → Instance}
  {cacheBytes : GoString → ℤ} {k x y : GoString} {N N' : Net P} {l : Label P}
  {ls : List (GoString × Label P)}

/-- What is written under the key is the value of a set that is running. -/
theorem write_leads (h : NetStep N (x, l) N') (hi : Calm cacheBytes k N) {p : P} {op : Op}
    {w : Value} (hl : l = .call p op .write) (hk : op.key = k) (hval : op.value = some w) :
    ∃ z q value expire, N.Leads k z q value expire ∧ Copy value expire w := by
  subst hl
  cases h with
  | @node _ _ s T _ hs hlink =>
    obtain ⟨since, loc, loc', hp, ha, _⟩ := hs.frame (by simp)
    obtain ⟨_, _, hloc⟩ := ha.write_cases
    cases op with
    | set key value expire =>
      obtain rfl : key = k := hk
      cases hval
      obtain ⟨hload, _⟩ | ⟨_, c, owner, rfl, _⟩ := hloc
      · cases hload
      · exact ⟨x, p, value, expire, ⟨since, c, _, hp⟩, copy_written value expire⟩
    | remoteSet key value expire =>
      obtain rfl : key = k := hk
      cases hval
      obtain ⟨i, op', hserving, _, hserved⟩ := hi.wired.served x p _ hp id ha.not_returned
      obtain ⟨_, since', c, b, hq, _⟩ := hi.wired.asker i _ hserving
      have huser : op'.FromUser := by
        by_contra hnot
        rcases hi.wired.outside _ _ _ hq hnot with hloc | ⟨_, hloc⟩ | hloc <;> cases hloc
      cases op' with
      | set key' value' expire' =>
        cases hserved
        exact ⟨_, _, value, expire', ⟨since', c, b, hq⟩, copy_received value expire'⟩
      | get | remove => cases hserved
      | remoteSet | localRemove => exact huser.elim
    | _ => cases hval

/-- Every member holds some value for the key. -/
def Full (as : List GoString) (k : GoString) (N : Net P) : Prop := ∀ y ∈ as, N.main k y ≠ none

/-- The call ends without an error. -/
def Loc.EndsWell : Loc → Prop
  | .assigned _ o _ | .done _ o _ => o.result.2 = none
  | .ret a => a = .ok
  | _ => False

/-- A set that ends without an error, or waits on one that did, has reached every member. -/
structure Reaching (as : List GoString) (k : GoString) (ls : List (GoString × Label P))
    (N : Net P) : Prop where
  ends : ∀ x p value expire since loc, (N.nodes x).pc p = some ⟨.set k value expire, since, loc⟩ →
    loc.EndsWell → Full as k N
  wait : ∀ x p value expire since c, (N.nodes x).pc p = some ⟨.set k value expire, since, .wait c⟩ →
    (((N.nodes x).node.flights .set).calls c).wg = false →
    (((N.nodes x).node.flights .set).calls c).err = none → Full as k N
  returned : ∀ x p value expire, (x, .call p (.set k value expire) (.ret .ok)) ∈ ls → Full as k N

/-- What is asked of a copy when only its presence matters. -/
def Present (_ : Option GoString) (_ : Time) (_ : Value) : Prop := True

theorem Act.endsWell {n n' : Node} {time : ℕ} {value : Option GoString} {expire : Time}
    {loc loc' : Loc} {e : Event} (h : Act n time (.set k value expire) loc e n' loc')
    (hloc : loc'.EndsWell) : loc.EndsWell ∨
      (∃ c o pop, loc = .lead c (.ends o pop) ∧ o.result.2 = none) ∨
      ∃ c, loc = .wait c ∧ ((n.flights .set).calls c).wg = false ∧
        ((n.flights .set).calls c).err = none := by
  cases h with
  | assign => exact Or.inr (Or.inl ⟨_, _, _, rfl, hloc⟩)
  | done => exact Or.inl hloc
  | delete => exact Or.inl (answer_ok hloc)
  | wake hwg => exact Or.inr (Or.inr ⟨_, rfl, hwg, answer_ok hloc⟩)
  | _ => exact hloc.elim

theorem Act.wait_join {n n' : Node} {time c : ℕ} {op : Op} {loc : Loc} {e : Event}
    (h : Act n time op loc e n' (.wait c)) :
    (n.flights op.flight).m op.key = some c ∧ n'.flights = n.flights := by
  cases h with
  | join hm => exact ⟨hm, countLoad_flights⟩

theorem Act.lead_next {n n' : Node} {time c : ℕ} {op : Op} {b : Body} {loc' : Loc} {e : Event}
    (h : Act n time op (.lead c b) e n' loc') : (∃ b', loc' = .lead c b') ∨
      ∃ o pop, b = .ends o pop ∧ e = .assign ∧ loc' = .assigned c o pop := by
  cases h with
  | body => exact Or.inl ⟨_, rfl⟩
  | assign => exact Or.inr ⟨_, _, rfl, rfl, rfl⟩

theorem start_not_endsWell {value : Option GoString} {expire : Time} {g : Group Value}
    (hmax : 0 < g.maxCacheBytes) : ¬ ((Op.set k value expire).start g).EndsWell := by
  rw [Op.start, if_neg (show ¬ g.maxCacheBytes ≤ 0 by omega)]
  split
  · rintro ⟨⟩
  · exact id

theorem op_eq_set {op : Op} (hf : op.flight = .set) (hk : op.key = k) :
    ∃ value expire, op = .set k value expire := by
  cases op with
  | set key value expire => exact ⟨value, expire, by rw [← hk]; rfl⟩
  | _ => cases hf

omit [DecidableEq P] in
theorem Reaching.of_leader (hr : Reaching as k ls N) {p : P} {op : Op} {since : ℕ} {loc : Loc}
    (hp : (N.nodes y).pc p = some ⟨op, since, loc⟩) (hf : op.flight = .set) (hk : op.key = k)
    (hloc : loc.EndsWell) : Full as k N := by
  obtain ⟨value, expire, rfl⟩ := op_eq_set hf hk
  exact hr.ends y p value expire since loc hp hloc

theorem Reaching.ends_step (hr : Reaching as k ls N) (hsp : Spread Present as k N)
    (hpos : ∀ x ∈ as, 0 < cacheBytes x) (h : NetStep N (x, l) N')
    (hc : SetsOnly as inst k N (x, l) N') (hi : Calm cacheBytes k N) {p : P}
    {value : Option GoString} {expire : Time} {since : ℕ} {loc : Loc}
    (hp : (N'.nodes y).pc p = some ⟨.set k value expire, since, loc⟩) (hloc : loc.EndsWell) :
    Full as k N := by
  cases h with
  | @node _ _ s T _ hs hl =>
    rcases Net.frame_cases hs hp with ⟨hp, _⟩ | ⟨e, loc₀, rfl, rfl, hp, ha⟩ | ⟨rfl, _, _, hstart⟩
    · exact hr.ends y p value expire since loc hp hloc
    · rcases ha.endsWell hloc with hends | ⟨c, o, pop, rfl, ho⟩ | ⟨c, rfl, hwg, herr⟩
      · exact hr.ends x p value expire since loc₀ hp hends
      · intro y hy
        obtain ⟨v, hv, _⟩ := hsp.reached x p value expire since c _ hp ho y hy
        simp [hv]
      · exact hr.wait x p value expire since c hp hwg herr
    · have hsize := hpos x hc.member
      rw [← hi.size x] at hsize
      have hstart : loc = (Op.set k value expire).start (N.nodes x).node.group := hstart
      rw [hstart] at hloc
      exact (start_not_endsWell hsize hloc).elim

theorem Reaching.wait_step (hr : Reaching as k ls N) (h : NetStep N (x, l) N')
    (hi : Calm cacheBytes k N) {p : P} {value : Option GoString} {expire : Time} {since c : ℕ}
    (hp : (N'.nodes y).pc p = some ⟨.set k value expire, since, .wait c⟩)
    (hwg : (((N'.nodes y).node.flights .set).calls c).wg = false)
    (herr : (((N'.nodes y).node.flights .set).calls c).err = none) : Full as k N := by
  cases h with
  | @node _ _ s T _ hs hl =>
    rcases Net.frame_cases hs hp with ⟨hp₀, _⟩ | ⟨e, loc₀, rfl, rfl, hp₀, ha⟩ | ⟨rfl, _, _, hstart⟩
    · by_cases hy : y = x
      · subst hy
        simp only [Function.update_self] at hwg herr
        have hrole : (N.nodes y).role .set p = .wait k c := by
          simp [role_of_pc hp₀, Frame.role, Op.flight, Loc.role, Op.key]
        rcases closes hs (hi.flights y) hrole hwg with ⟨hwas, hsame⟩ |
          ⟨p', op, since', o, pop, _, hp', hf, hk, hres⟩
        · exact hr.wait y p value expire since c hp₀ hwas (hsame ▸ herr)
        · have hsnd := congrArg Prod.snd hres
          exact hr.of_leader hp' hf hk (hsnd.symm.trans herr)
      · simp only [Function.update_of_ne hy] at hwg herr
        exact hr.wait y p value expire since c hp₀ hwg herr
    · obtain ⟨hm, hflights⟩ := ha.wait_join
      simp only [Function.update_self, hflights] at hwg herr
      obtain ⟨p', op, since', o, pop, hp', hf, hk, hres⟩ := (hi.flights x).leader_of_closed hm hwg
      have hsnd := congrArg Prod.snd hres
      exact hr.of_leader hp' hf hk (hsnd.symm.trans herr)
    · rcases start_cases (N.nodes x).node.group (.set k value expire) with
        ⟨_, he⟩ | he | he | he | ⟨_, he⟩ <;> cases hstart.trans he

theorem reaching_step (hr : Reaching as k ls N) (hsp : Spread Present as k N)
    (hpos : ∀ x ∈ as, 0 < cacheBytes x) (h : NetStep N (x, l) N')
    (hc : SetsOnly as inst k N (x, l) N') (hi : Calm cacheBytes k N) :
    Reaching as k (ls ++ [(x, l)]) N' := by
  have hfull : Full as k N → Full as k N' := fun hfull y hy => hc.kept y (hfull y hy)
  refine ⟨?_, ?_, ?_⟩
  · exact fun z p value expire since loc hp hloc =>
      hfull (hr.ends_step hsp hpos h hc hi hp hloc)
  · exact fun z p value expire since c hp hwg herr => hfull (hr.wait_step h hi hp hwg herr)
  · intro z p value expire hmem
    refine hfull ?_
    rcases List.mem_append.mp hmem with hold | hnew
    · exact hr.returned z p value expire hold
    · obtain ⟨rfl, rfl⟩ : z = x ∧ _ = l := by simpa using hnew
      cases h with
      | @node _ _ s T _ hs hl =>
        obtain ⟨since, loc, _, hp, ha, _⟩ := hs.frame (by simp)
        exact hr.ends z p value expire since loc hp (by simp [ha.ret_loc, Loc.EndsWell])

/-- How the history tells of the calls and of what the main caches hold for the key. -/
structure Recorded (k : GoString) (ls : List (GoString × Label P)) (N : Net P) : Prop where
  invoked : ∀ y q fr, (N.nodes y).pc q = some fr → (y, .call q fr.op .invoke) ∈ ls
  held : ∀ y v, N.main k y = some v → ∃ x p value expire,
    (x, .call p (.set k value expire) .invoke) ∈ ls ∧ Copy value expire v
  returned : ∀ y q op a, (y, .call q op (.ret a)) ∈ ls →
    ∃ since, (N.nodes y).pc q = some ⟨op, since, .returned⟩

omit [DecidableEq P] in
theorem Recorded.leads (hrec : Recorded k ls N) {z : GoString} {q : P} {value : Option GoString}
    {expire : Time} (h : N.Leads k z q value expire) :
    (z, .call q (.set k value expire) .invoke) ∈ ls := by
  obtain ⟨since, c, b, hq⟩ := h
  exact hrec.invoked z q _ hq

theorem recorded_step (hrec : Recorded k ls N) (h : NetStep N (x, l) N')
    (hi : Calm cacheBytes k N) : Recorded k (ls ++ [(x, l)]) N' := by
  have hmono : ∀ {a}, a ∈ ls → a ∈ ls ++ [(x, l)] := List.mem_append_left _
  have hstep := h
  cases h with
  | @node _ _ s T _ hs hl =>
    refine ⟨?_, ?_, ?_⟩
    · intro y q fr hq
      rcases Net.frame_cases hs hq with ⟨hq, _⟩ | ⟨e, loc, _, _, hq, _⟩ | ⟨rfl, rfl, _⟩
      · exact hmono (hrec.invoked y q fr hq)
      · exact hmono (hrec.invoked y q ⟨fr.op, fr.since, loc⟩ hq)
      · simp
    · intro y v hv
      rcases main_cases hstep hi hv with hold | ⟨_, p, op, hw, hk, hval⟩
      · obtain ⟨z, p, value, expire, hmem, hcopy⟩ := hrec.held y v hold
        exact ⟨z, p, value, expire, hmono hmem, hcopy⟩
      · obtain ⟨z, q, value, expire, hlead, hcopy⟩ := write_leads hstep hi hw hk hval
        exact ⟨z, q, value, expire, hmono (hrec.leads hlead), hcopy⟩
    · intro y q op a hmem
      rcases List.mem_append.mp hmem with hold | hnew
      · obtain ⟨since, hq⟩ := hrec.returned y q op a hold
        rcases Net.frame_next hs hq with ⟨hq', _⟩ | ⟨e, loc', _, _, ha, _⟩
        · exact ⟨since, hq'⟩
        · exact (ha.not_returned rfl).elim
      · obtain ⟨rfl, rfl⟩ : y = x ∧ _ = l := by simpa using hnew
        obtain ⟨since, loc, loc', hp, ha, hpc⟩ := hs.frame (by simp)
        obtain ⟨_, rfl⟩ := ha.ret_locs
        refine ⟨since, ?_⟩
        simp only [Function.update_self]
        rw [hpc]
        exact Function.update_self ..

/-- A running set was running before the step, or has just entered `Do`. -/
theorem leads_cases (h : NetStep N (x, l) N') {z : GoString} {q : P} {value : Option GoString}
    {expire : Time} (hlead : N'.Leads k z q value expire) : N.Leads k z q value expire ∨
      z = x ∧ (∃ c, l = .call q (.set k value expire) (.lead c)) ∧
        ((N.nodes x).node.flights .set).m k = none := by
  obtain ⟨since, c, b, hq⟩ := hlead
  cases h with
  | @node _ _ s T _ hs hl =>
    rcases Net.frame_cases hs hq with ⟨hq, _⟩ | ⟨e, loc, rfl, rfl, hq, ha⟩ | ⟨_, _, _, hloc⟩
    · exact Or.inl ⟨since, c, b, hq⟩
    · rcases ha.lead_cases with ⟨rfl, hm, _⟩ | ⟨b₀, rfl, _⟩
      · exact Or.inr ⟨rfl, ⟨c, rfl⟩, hm⟩
      · exact Or.inl ⟨since, c, b₀, hq⟩
    · exact (start_ne_lead _ hloc.symm).elim

/-- A running set goes on, or its function has ended. -/
theorem leads_next (h : NetStep N (x, l) N') {z : GoString} {q : P} {value : Option GoString}
    {expire : Time} (hlead : N.Leads k z q value expire) : N'.Leads k z q value expire ∨
      ∃ since c o pop, l = .call q (.set k value expire) .assign ∧
        (N.nodes z).pc q = some ⟨.set k value expire, since, .lead c (.ends o pop)⟩ ∧
        (N'.nodes z).pc q = some ⟨.set k value expire, since, .assigned c o pop⟩ := by
  obtain ⟨since, c, b, hq⟩ := hlead
  cases h with
  | @node _ _ s T _ hs hl =>
    rcases Net.frame_next hs hq with ⟨hq', _⟩ | ⟨e, loc', rfl, rfl, ha, hq'⟩
    · exact Or.inl ⟨since, c, b, hq'⟩
    · rcases ha.lead_next with ⟨b', rfl⟩ | ⟨o, pop, rfl, rfl, rfl⟩
      · exact Or.inl ⟨since, c, b', hq'⟩
      · exact Or.inr ⟨since, c, o, pop, rfl, hq, hq'⟩

/-- No two sets of the key are running. -/
def OneRuns (k : GoString) (N : Net P) : Prop :=
  ∀ z q value expire z' q' value' expire', N.Leads k z q value expire →
    N.Leads k z' q' value' expire' → z = z' ∧ q = q' ∧ value = value' ∧ expire = expire'

omit [DecidableEq P] in
/-- A node with a running set of the key has it in its map. -/
theorem Calm.map_ne_none (hi : Calm cacheBytes k N) {z : GoString} {q : P}
    {value : Option GoString} {expire : Time} (h : N.Leads k z q value expire) :
    ((N.nodes z).node.flights .set).m k ≠ none := by
  obtain ⟨since, c, b, hq⟩ := h
  have hok := (hi.flights z).frame_ok hq
  rw [show ((N.nodes z).node.flights .set).m k = some c from hok.1]
  simp

theorem oneRuns_step (hone : OneRuns k N) (h : NetStep N (x, l) N') (hapart : Apart k N (x, l))
    (hi : Calm cacheBytes k N) : OneRuns k N' := by
  have hclash : ∀ {z q value expire q' value' expire' c}, N.Leads k z q value expire →
      l = .call q' (.set k value' expire') (.lead c) →
      ((N.nodes x).node.flights .set).m k ≠ none := by
    intro z q value expire q' value' expire' c hlead hl
    by_cases hz : z = x
    · exact hz ▸ hi.map_ne_none hlead
    · exact (hapart q' value' expire' c hl z q value expire hz hlead).elim
  intro z q value expire z' q' value' expire' hz hz'
  rcases leads_cases h hz with hold | ⟨rfl, ⟨c, hl⟩, hm⟩ <;>
    rcases leads_cases h hz' with hold' | ⟨rfl, ⟨c', hl'⟩, hm'⟩
  · exact hone z q value expire z' q' value' expire' hold hold'
  · exact (hclash hold hl' hm').elim
  · exact (hclash hold' hl hm).elim
  · rw [hl] at hl'
    cases hl'
    exact ⟨rfl, rfl, rfl, rfl⟩

/-- The call ends with an error, or has returned. -/
def Loc.EndsBadly : Loc → Prop
  | .assigned _ o _ | .done _ o _ => o.result.2 ≠ none
  | .ret a => a ≠ .ok
  | .returned => True
  | _ => False

/-- A set of the key has not returned nil and will not. -/
def Failed (k : GoString) (ls : List (GoString × Label P)) (N : Net P) : Prop :=
  ∃ z q value expire since loc, (N.nodes z).pc q = some ⟨.set k value expire, since, loc⟩ ∧
    loc.EndsBadly ∧ (z, .call q (.set k value expire) (.ret .ok)) ∉ ls

/-- All members hold copies of the value of one set. -/
def Unanimous (as : List GoString) (k : GoString) (ls : List (GoString × Label P)) (N : Net P) :
    Prop :=
  ∃ z q value expire, (z, .call q (.set k value expire) .invoke) ∈ ls ∧
    ∀ y ∈ as, N.Has k (Copy value expire) y

theorem Act.endsBadly {n n' : Node} {time : ℕ} {value : Option GoString} {expire : Time}
    {loc loc' : Loc} {e : Event} (h : Act n time (.set k value expire) loc e n' loc')
    (hloc : loc.EndsBadly) : loc'.EndsBadly ∧ e ≠ .ret .ok := by
  cases h with
  | done => exact ⟨hloc, nofun⟩
  | delete => exact ⟨fun hok => hloc (answer_ok hok), nofun⟩
  | ret =>
    refine ⟨trivial, ?_⟩
    rintro ⟨⟩
    exact hloc rfl
  | _ => exact hloc.elim

theorem failed_step (hf : Failed k ls N) (h : NetStep N (x, l) N') :
    Failed k (ls ++ [(x, l)]) N' := by
  obtain ⟨z, q, value, expire, since, loc, hq, hloc, hnot⟩ := hf
  cases h with
  | @node _ _ s T _ hs hl =>
    rcases Net.frame_next hs hq with ⟨hq', hother⟩ | ⟨e, loc', rfl, rfl, ha, hq'⟩
    · refine ⟨z, q, value, expire, since, loc, hq', hloc, ?_⟩
      simp only [List.mem_append, List.mem_singleton, Prod.mk.injEq, not_or, not_and]
      exact ⟨hnot, fun hz hl => hother _ _ hz.symm hl.symm⟩
    · obtain ⟨hloc', he⟩ := ha.endsBadly hloc
      refine ⟨x, q, value, expire, since, loc', hq', hloc', ?_⟩
      simp only [List.mem_append, List.mem_singleton, Prod.mk.injEq, not_or, not_and]
      refine ⟨hnot, ?_⟩
      rintro _ ⟨⟩
      exact he rfl

/-- When nothing is running, the members agree. -/
structure Settling (as : List GoString) (k : GoString) (ls : List (GoString × Label P))
    (N : Net P) : Prop where
  one : OneRuns k N
  spread : Spread Copy as k N
  settled : Full as k N → (∃ z q value expire, N.Leads k z q value expire) ∨ Failed k ls N ∨
    Unanimous as k ls N

theorem settling_step (hset : Settling as k ls N) (hag : Agreed as inst)
    (hpos : ∀ x ∈ as, 0 < cacheBytes x) (h : NetStep N (x, l) N')
    (hc : SetsOnly as inst k N (x, l) N') (hapart : Apart k N (x, l)) (hi : Calm cacheBytes k N)
    (hrec : Recorded k ls N) : Settling as k (ls ++ [(x, l)]) N' := by
  have hwrites : Writes Copy k N l := by
    intro p op w hl hk hval z q value expire hlead
    obtain ⟨z', q', value', expire', hlead', hcopy⟩ := write_leads h hi hl hk hval
    obtain ⟨_, _, rfl, rfl⟩ := hset.one z q value expire z' q' value' expire' hlead hlead'
    exact hcopy
  refine ⟨oneRuns_step hset.one h hapart hi, spread_step hset.spread hag hpos h hc hi hwrites, ?_⟩
  intro hfull
  by_cases hruns : ∃ z q value expire, N.Leads k z q value expire
  · obtain ⟨z, q, value, expire, hlead⟩ := hruns
    rcases leads_next h hlead with hlead' | ⟨since, c, o, pop, hl, hq, hq'⟩
    · exact Or.inl ⟨z, q, value, expire, hlead'⟩
    · refine Or.inr ?_
      by_cases ho : o.result.2 = none
      · right
        refine ⟨z, q, value, expire, List.mem_append_left _ (hrec.leads hlead), ?_⟩
        intro y hy
        exact hwrites.has_step h hc hi hlead
          (hset.spread.reached z q value expire since c _ hq ho y hy)
      · left
        refine ⟨z, q, value, expire, since, _, hq', ho, ?_⟩
        intro hmem
        obtain ⟨_, hret⟩ := (recorded_step hrec h hi).returned z q _ _ hmem
        rw [hq'] at hret
        cases hret
  · have hno : ∀ p op w, l = .call p op .write → op.key = k → op.value = some w → False := by
      intro p op w hl hk hval
      obtain ⟨z, q, value, expire, hlead, _⟩ := write_leads h hi hl hk hval
      exact hruns ⟨z, q, value, expire, hlead⟩
    have hfull₀ : Full as k N := by
      intro y hy
      obtain ⟨v, hv⟩ := Option.ne_none_iff_exists'.mp (hfull y hy)
      rcases main_cases h hi hv with hold | ⟨_, p, op, hl, hk, hval⟩
      · simp [hold]
      · exact (hno p op v hl hk hval).elim
    rcases hset.settled hfull₀ with hrun | hfailed | ⟨z, q, value, expire, hmem, hall⟩
    · exact (hruns hrun).elim
    · exact Or.inr (Or.inl (failed_step hfailed h))
    · refine Or.inr (Or.inr ⟨z, q, value, expire, List.mem_append_left _ hmem, ?_⟩)
      intro y hy
      exact has_step h hc hi (fun p op w hl hk hval => (hno p op w hl hk hval).elim) (hall y hy)

theorem main_initial (h : (netLTS P cacheBytes).Init N) : N.main k y = none := by
  rw [Net.main, (h.1 y).1]
  simp [Group.new]

theorem calm_initial (h : (netLTS P cacheBytes).Init N) : Calm cacheBytes k N := by
  refine ⟨wired_initial h, fun y => flights_initial (h.1 y), ?_, ?_⟩
  · intro y
    rw [(h.1 y).1]
    rfl
  · exact fun y q fr hq => (pc_ne_initial (h.1 y) hq).elim

theorem spread_initial {R : Option GoString → Time → Value → Prop}
    (h : (netLTS P cacheBytes).Init N) : Spread R as k N := by
  refine ⟨?_, ?_, ?_⟩
  · simp [h.2]
  · simp [h.2]
  · exact fun z q _ _ _ _ _ hq => (pc_ne_initial (h.1 z) hq).elim

theorem not_leads_initial {z : GoString} {q : P} {value : Option GoString} {expire : Time}
    (h : (netLTS P cacheBytes).Init N) : ¬ N.Leads k z q value expire := by
  rintro ⟨_, _, _, hq⟩
  exact pc_ne_initial (h.1 z) hq

/-- What holds after every run of sets of the key. -/
structure SetRun (as : List GoString) (cacheBytes : GoString → ℤ) (k : GoString)
    (ls : List (GoString × Label P)) (N : Net P) : Prop where
  calm : Calm cacheBytes k N
  recorded : Recorded k ls N
  spread : Spread Present as k N
  reaching : Reaching as k ls N

theorem run_initial (h : (netLTS P cacheBytes).Init N) : SetRun as cacheBytes k [] N := by
  refine ⟨calm_initial h, ⟨?_, ?_, by simp⟩, spread_initial h, ⟨?_, ?_, by simp⟩⟩
  · exact fun y q fr hq => (pc_ne_initial (h.1 y) hq).elim
  · intro y v hv
    rw [main_initial h] at hv
    cases hv
  · exact fun y q _ _ _ _ hq => (pc_ne_initial (h.1 y) hq).elim
  · exact fun y q _ _ _ _ hq => (pc_ne_initial (h.1 y) hq).elim

theorem run_step (hr : SetRun as cacheBytes k ls N) (hag : Agreed as inst)
    (hpos : ∀ x ∈ as, 0 < cacheBytes x) (h : NetStep N (x, l) N')
    (hc : SetsOnly as inst k N (x, l) N') : SetRun as cacheBytes k (ls ++ [(x, l)]) N' where
  calm := calm_step hag h hc hr.calm
  recorded := recorded_step hr.recorded h hr.calm
  spread := spread_step hr.spread hag hpos h hc hr.calm fun _ _ _ _ _ _ _ _ _ _ _ => trivial
  reaching := reaching_step hr.reaching hr.spread hpos h hc hr.calm

theorem run_reachable (hag : Agreed as inst) (hpos : ∀ x ∈ as, 0 < cacheBytes x)
    (h : ((netLTS P cacheBytes).restrict (SetsOnly as inst k)).Run ls N) :
    SetRun as cacheBytes k ls N :=
  h.invariant (fun _ hinit => run_initial hinit)
    fun _ _ _ _ _ hr hstep => run_step hr hag hpos hstep.1 hstep.2

theorem settling_reachable (hag : Agreed as inst) (hpos : ∀ x ∈ as, 0 < cacheBytes x)
    (hy : y ∈ as) (h : ((netLTS P cacheBytes).restrict fun N l N' =>
      SetsOnly as inst k N l N' ∧ Apart k N l).Run ls N) :
    SetRun as cacheBytes k ls N ∧ Settling as k ls N := by
  refine h.invariant (I := fun ls N => SetRun as cacheBytes k ls N ∧ Settling as k ls N) ?_ ?_
  · intro N hinit
    refine ⟨run_initial hinit, ?_, spread_initial hinit, ?_⟩
    · exact fun z q _ _ _ _ _ _ hlead => (not_leads_initial hinit hlead).elim
    · exact fun hfull => (hfull y hy (main_initial hinit)).elim
  · rintro ls N ⟨x, l⟩ N' _ ⟨hr, hset⟩ ⟨hstep, hc, hapart⟩
    exact ⟨run_step hr hag hpos hstep hc,
      settling_step hset hag hpos hstep hc hapart hr.calm hr.recorded⟩

/-- Every `Set` of the key has returned nil, and there was one. -/
def AllReturned (k : GoString) (ls : List (GoString × Label P)) : Prop :=
  (∃ x p value expire, (x, .call p (.set k value expire) .invoke) ∈ ls) ∧
    ∀ x p value expire, (x, .call p (.set k value expire) .invoke) ∈ ls →
      (x, .call p (.set k value expire) (.ret .ok)) ∈ ls

omit [DecidableEq P] in
/-- With every set of the key returned, none is running and none has failed. -/
theorem Settling.unanimous (hset : Settling as k ls N) (hrec : Recorded k ls N)
    (hall : AllReturned k ls) (hfull : Full as k N) : Unanimous as k ls N := by
  rcases hset.settled hfull with ⟨z, q, value, expire, hlead⟩ |
    ⟨z, q, value, expire, since, loc, hq, _, hnot⟩ | hagree
  · obtain ⟨_, hret⟩ := hrec.returned z q _ _ (hall.2 z q value expire (hrec.leads hlead))
    obtain ⟨_, _, _, hq⟩ := hlead
    rw [hq] at hret
    cases hret
  · exact (hnot (hall.2 z q value expire (hrec.invoked z q _ hq))).elim
  · exact hagree

/-- When all sets of the key have returned nil, every member's main cache holds the value of one
of them, and if no two nodes ran the function of one at a time, all hold the same value. -/
theorem sets_converge (hag : Agreed as inst) (hpos : ∀ x ∈ as, 0 < cacheBytes x)
    (h : ((netLTS P cacheBytes).restrict (SetsOnly as inst k)).Run ls N)
    (hall : AllReturned k ls) :
    (∀ y ∈ as, ∃ v x p value expire, N.main k y = some v ∧
      (x, .call p (.set k value expire) .invoke) ∈ ls ∧ Copy value expire v) ∧
    (((netLTS P cacheBytes).restrict fun N l N' =>
        SetsOnly as inst k N l N' ∧ Apart k N l).Run ls N →
      ∃ x p value expire, (x, .call p (.set k value expire) .invoke) ∈ ls ∧
        ∀ y ∈ as, ∃ v, N.main k y = some v ∧ Copy value expire v) := by
  have hr := run_reachable hag hpos h
  obtain ⟨⟨x, p, value, expire, hinvoke⟩, hret⟩ := hall
  have hfull : Full as k N := hr.reaching.returned x p value expire (hret x p value expire hinvoke)
  constructor
  · intro y hy
    obtain ⟨v, hv⟩ := Option.ne_none_iff_exists'.mp (hfull y hy)
    obtain ⟨z, q, value', expire', hmem, hcopy⟩ := hr.recorded.held y v hv
    exact ⟨v, z, q, value', expire', hv, hmem, hcopy⟩
  · intro hapart
    obtain ⟨i, hi⟩ := List.getElem?_of_mem hinvoke
    obtain ⟨_, _, _, ⟨_, hc⟩, _⟩ := h.occurs hi
    obtain ⟨_, hset⟩ := settling_reachable hag hpos hc.member hapart
    exact hset.unanimous hr.recorded ⟨⟨x, p, value, expire, hinvoke⟩, hret⟩ hfull

/-- Two members with new groups. -/
def hosts : Net ℕ :=
  { nodes := hostState
    calls := fun _ => none }

theorem hosts_init : (netLTS ℕ fun _ => 1000).Init hosts :=
  ⟨hostState_initial, fun _ => rfl, fun _ => rfl⟩

/-- The runs of sets of one key at the two members, under a further condition. -/
def hostLTS (D : Net ℕ → GoString × Label ℕ → Prop) : Lib.LTS (Net ℕ) (GoString × Label ℕ) :=
  (netLTS ℕ fun _ => 1000).restrict fun N l N' =>
    SetsOnly [hostB, hostA] hostInst [7] N l N' ∧ D N l

theorem host_step {D : Net ℕ → GoString × Label ℕ → Prop} {ls : List (GoString × Label ℕ)}
    {N : Net ℕ} {x : GoString} {p : ℕ} {op : Op} {e : Event} {s : State ℕ} {T : PeerCalls ℕ}
    (h : (hostLTS D).Run ls N) (hs : Step (N.nodes x) (.call p op e) s)
    (hl : Link N.calls x (.call p op e) T)
    (hx : x ∈ [hostB, hostA] ∧ (N.nodes x).node.inst = hostInst x ∧ op.value ≠ none)
    (hmain : e ≠ .write ∧ s.node.group.mainCache = (N.nodes x).node.group.mainCache ∨
      ∃ v, s.node.group.mainCache.find? [7] = some v)
    (hD : D N (x, .call p op e)) :
    (hostLTS D).Run (ls ++ [(x, .call p op e)])
      ⟨Function.update N.nodes x s, T, N.keysCalls⟩ := by
  refine h.step ⟨.call hs hl, ⟨hx.1, hx.2.1, ?_, ?_, ?_⟩, hD⟩
  · rintro _ _ ⟨⟩ _
    exact hx.2.2
  · intro y hy
    by_cases hyx : y = x
    · subst hyx
      rcases hmain with ⟨_, hsame⟩ | ⟨v, hv⟩
      · simpa [Net.main, hsame] using hy
      · simp [Net.main, hv]
    · simpa [Net.main, hyx] using hy
  · rintro _ _ ⟨⟩ _
    rcases hmain with ⟨hne, _⟩ | ⟨v, hv⟩
    · exact (hne rfl).elim
    · simp [Net.main, hv]

theorem hosts_initial {D : Net ℕ → GoString × Label ℕ → Prop} : (hostLTS D).Run [] hosts :=
  .init hosts_init

/-- A `Set` at `A` that runs to its end, and then one of another value at the owner `B`. -/
def inTurn : List (GoString × Label ℕ) :=
  let op := Op.set [7] (some [1]) .zero
  let op' := Op.set [7] (some [2]) .zero
  let toA : Client := ⟨1, ⟨hostA, false⟩⟩
  let toB : Client := ⟨0, ⟨hostB, false⟩⟩
  [(hostA, .call 0 op .invoke), (hostA, .call 0 op (.lead 0)),
    (hostA, .call 0 op (.pick (some toB) true)), (hostA, .call 0 op (.send toB)),
    (hostB, .call 0 op.served .invoke), (hostB, .call 0 op.served .write),
    (hostB, .call 0 op.served (.ret .ok)), (hostA, .call 0 op (.answered toB none)),
    (hostA, .call 0 op .write), (hostA, .call 0 op .peers), (hostA, .call 0 op .wait),
    (hostA, .call 0 op .assign), (hostA, .call 0 op .done), (hostA, .call 0 op .delete),
    (hostA, .call 0 op (.ret .ok)),
    (hostB, .call 1 op' .invoke), (hostB, .call 1 op' (.lead 0)),
    (hostB, .call 1 op' (.pick (some ⟨0, ⟨hostB, true⟩⟩) false)), (hostB, .call 1 op' .write),
    (hostB, .call 1 op' .peers), (hostB, .call 1 op' (.send toA)),
    (hostA, .call 1 op'.served .invoke), (hostA, .call 1 op'.served .write),
    (hostA, .call 1 op'.served (.ret .ok)), (hostB, .call 1 op' (.answered toA none)),
    (hostB, .call 1 op' .wait), (hostB, .call 1 op' .assign), (hostB, .call 1 op' .done),
    (hostB, .call 1 op' .delete), (hostB, .call 1 op' (.ret .ok))]

theorem allReturned_inTurn : AllReturned [7] inTurn := by
  refine ⟨⟨hostA, 0, some [1], .zero, .head _⟩, ?_⟩
  intro x p value expire hmem
  simpa [inTurn, Op.served] using hmem

theorem sets_converge_inTurn : ∃ N, Agreed [hostB, hostA] hostInst ∧
    ((netLTS ℕ fun _ => 1000).restrict fun N l N' =>
      SetsOnly [hostB, hostA] hostInst [7] N l N' ∧ Apart [7] N l).Run inTurn N ∧
    AllReturned [7] inTurn ∧
    ∃ x p value expire, (x, .call p (.set [7] value expire) .invoke) ∈ inTurn ∧
      ∀ y ∈ [hostB, hostA], ∃ v, N.main [7] y = some v ∧ Copy value expire v := by
  have h₀ : (hostLTS (Apart [7])).Run [] hosts := hosts_initial
  have h₁ := host_step (x := hostA) h₀ (Step.invoke (p := 0) (.set [7] (some [1]) .zero) rfl)
    (.inside trivial (fun _ => trivial) nofun) ⟨by simp, rfl, nofun⟩ (.inl ⟨nofun, rfl⟩) nofun
  have h₂ := host_step (x := hostA) h₁ (Step.act (p := 0) rfl (.lead rfl))
    (.of_plain rfl) ⟨by simp, rfl, nofun⟩ (.inl ⟨nofun, rfl⟩) ?_
  have h₃ := host_step (x := hostA) h₂ (Step.act (p := 0) rfl (.body (.pickRemote pick_hostA)))
    (.of_plain rfl) ⟨by simp, rfl, nofun⟩ (.inl ⟨nofun, rfl⟩) nofun
  have h₄ := host_step (x := hostA) h₃ (Step.act (p := 0) rfl (.body .send))
    (.send rfl) ⟨by simp, rfl, nofun⟩ (.inl ⟨nofun, rfl⟩) nofun
  have h₅ := host_step (x := hostB) h₄ (Step.invoke (p := 0) _ rfl)
    (.arrive (i := ⟨hostA, 0, ⟨0, ⟨hostB, false⟩⟩⟩) rfl rfl)
    ⟨by simp, rfl, nofun⟩ (.inl ⟨nofun, rfl⟩) nofun
  have h₆ := host_step (x := hostB) h₅ (Step.act (p := 0) rfl .remoteSet)
    (.of_plain rfl) ⟨by simp, rfl, nofun⟩ (.inr ⟨_, rfl⟩) nofun
  have h₇ := host_step (x := hostB) h₆ (Step.act (p := 0) rfl .ret)
    (.reply (i := ⟨hostA, 0, ⟨0, ⟨hostB, false⟩⟩⟩) _ rfl rfl)
    ⟨by simp, rfl, nofun⟩ (.inl ⟨nofun, rfl⟩) nofun
  have h₈ := host_step (x := hostA) h₇ (Step.act (p := 0) rfl (.body (.ownerDone nofun)))
    (.receive (c := ⟨0, ⟨hostB, false⟩⟩) rfl rfl) ⟨by simp, rfl, nofun⟩ (.inl ⟨nofun, rfl⟩) nofun
  have h₉ := host_step (x := hostA) h₈ (Step.act (p := 0) rfl (.body (.write nofun)))
    (.of_plain rfl) ⟨by simp, rfl, nofun⟩ (.inr ⟨_, rfl⟩) nofun
  have h₁₀ := host_step (x := hostA) h₉ (Step.act (p := 0) rfl (act_peers (broadcast_hostA _ _)))
    (.of_plain rfl) ⟨by simp, rfl, nofun⟩ (.inl ⟨nofun, rfl⟩) nofun
  have h₁₁ := host_step (x := hostA) h₁₀ (Step.act (p := 0) rfl (.body .wait))
    (.of_plain rfl) ⟨by simp, rfl, nofun⟩ (.inl ⟨nofun, rfl⟩) nofun
  have h₁₂ := host_step (x := hostA) h₁₁ (Step.act (p := 0) rfl .assign)
    (.of_plain rfl) ⟨by simp, rfl, nofun⟩ (.inl ⟨nofun, rfl⟩) nofun
  have h₁₃ := host_step (x := hostA) h₁₂ (Step.act (p := 0) rfl .done)
    (.of_plain rfl) ⟨by simp, rfl, nofun⟩ (.inl ⟨nofun, rfl⟩) nofun
  have h₁₄ := host_step (x := hostA) h₁₃ (Step.act (p := 0) rfl .delete)
    (.of_plain rfl) ⟨by simp, rfl, nofun⟩ (.inl ⟨nofun, rfl⟩) nofun
  have h₁₅ := host_step (x := hostA) h₁₄ (Step.act (p := 0) rfl .ret)
    (.inside trivial nofun fun _ _ i _ hi => by
      by_cases hij : i = ⟨hostA, 0, ⟨0, ⟨hostB, false⟩⟩⟩ <;> simp [hij, hosts] at hi)
    ⟨by simp, rfl, nofun⟩ (.inl ⟨nofun, rfl⟩) nofun
  have h₁₆ := host_step (x := hostB) h₁₅ (Step.invoke (p := 1) (.set [7] (some [2]) .zero) rfl)
    (.inside trivial (fun _ => trivial) nofun) ⟨by simp, rfl, nofun⟩ (.inl ⟨nofun, rfl⟩) nofun
  have h₁₇ := host_step (x := hostB) h₁₆ (Step.act (p := 1) rfl (.lead rfl))
    (.of_plain rfl) ⟨by simp, rfl, nofun⟩ (.inl ⟨nofun, rfl⟩) ?_
  have h₁₈ := host_step (x := hostB) h₁₇ (Step.act (p := 1) rfl (.body (.pickLocal pick_hostB)))
    (.of_plain rfl) ⟨by simp, rfl, nofun⟩ (.inl ⟨nofun, rfl⟩) nofun
  have h₁₉ := host_step (x := hostB) h₁₈ (Step.act (p := 1) rfl (.body (.write nofun)))
    (.of_plain rfl) ⟨by simp, rfl, nofun⟩ (.inr ⟨_, rfl⟩) nofun
  have h₂₀ := host_step (x := hostB) h₁₉ (Step.act (p := 1) rfl (act_peers (broadcast_hostB _ _)))
    (.of_plain rfl) ⟨by simp, rfl, nofun⟩ (.inl ⟨nofun, rfl⟩) nofun
  have h₂₁ := host_step (x := hostB) h₂₀
    (Step.act (p := 1) rfl (.body (.sendPeer List.mem_cons_self))) (.send rfl)
    ⟨by simp, rfl, nofun⟩ (.inl ⟨nofun, rfl⟩) nofun
  have h₂₂ := host_step (x := hostA) h₂₁ (Step.invoke (p := 1) _ rfl)
    (.arrive (i := ⟨hostB, 1, ⟨1, ⟨hostA, false⟩⟩⟩) rfl rfl)
    ⟨by simp, rfl, nofun⟩ (.inl ⟨nofun, rfl⟩) nofun
  have h₂₃ := host_step (x := hostA) h₂₂ (Step.act (p := 1) rfl .remoteSet)
    (.of_plain rfl) ⟨by simp, rfl, nofun⟩ (.inr ⟨_, rfl⟩) nofun
  have h₂₄ := host_step (x := hostA) h₂₃ (Step.act (p := 1) rfl .ret)
    (.reply (i := ⟨hostB, 1, ⟨1, ⟨hostA, false⟩⟩⟩) _ rfl rfl)
    ⟨by simp, rfl, nofun⟩ (.inl ⟨nofun, rfl⟩) nofun
  have h₂₅ := host_step (x := hostB) h₂₄
    (Step.act (p := 1) rfl (.body (.answered none List.mem_cons_self nofun nofun)))
    (.receive (c := ⟨1, ⟨hostA, false⟩⟩) rfl rfl)
    ⟨by simp, rfl, nofun⟩ (.inl ⟨nofun, rfl⟩) nofun
  have h₂₆ := host_step (x := hostB) h₂₅ (Step.act (p := 1) rfl (.body .wait))
    (.of_plain rfl) ⟨by simp, rfl, nofun⟩ (.inl ⟨nofun, rfl⟩) nofun
  have h₂₇ := host_step (x := hostB) h₂₆ (Step.act (p := 1) rfl .assign)
    (.of_plain rfl) ⟨by simp, rfl, nofun⟩ (.inl ⟨nofun, rfl⟩) nofun
  have h₂₈ := host_step (x := hostB) h₂₇ (Step.act (p := 1) rfl .done)
    (.of_plain rfl) ⟨by simp, rfl, nofun⟩ (.inl ⟨nofun, rfl⟩) nofun
  have h₂₉ := host_step (x := hostB) h₂₈ (Step.act (p := 1) rfl .delete)
    (.of_plain rfl) ⟨by simp, rfl, nofun⟩ (.inl ⟨nofun, rfl⟩) nofun
  have h₃₀ := host_step (x := hostB) h₂₉ (Step.act (p := 1) rfl .ret)
    (.inside trivial nofun fun _ _ i _ hi => by
      by_cases hi₀ : i = ⟨hostA, 0, ⟨0, ⟨hostB, false⟩⟩⟩ <;>
        by_cases hi₁ : i = ⟨hostB, 1, ⟨1, ⟨hostA, false⟩⟩⟩ <;> simp [hi₀, hi₁, hosts] at hi)
    ⟨by simp, rfl, nofun⟩ (.inl ⟨nofun, rfl⟩) nofun
  · have hrun := h₃₀.restrict_mono fun _ _ _ h => h.1
    exact ⟨_, hostInst_agreed, h₃₀, allReturned_inTurn,
      (sets_converge hostInst_agreed (fun _ _ => by decide) hrun allReturned_inTurn).2 h₃₀⟩
  · rintro _ _ _ _ _ y q _ _ hy ⟨_, _, _, hq⟩
    have hy : y ≠ hostB := hy
    by_cases hyA : y = hostA
    · subst hyA
      by_cases hq0 : q = 0
      · subst hq0
        cases hq
      · simp [State.setPC, hosts, hostState, solo, hq0, hy] at hq
    · simp [hy, hyA, hosts, hostState, solo] at hq
  · rintro _ _ _ _ _ y q _ _ hy ⟨_, _, _, hq⟩
    simp [hy, hosts, hostState, solo] at hq

/-- A `Set` at `A`, whose value has reached the owner `B`, and one at `B`, whose value reaches `A`
before that of the first is written there. -/
def crossing : List (GoString × Label ℕ) :=
  let op := Op.set [7] (some [1]) .zero
  let op' := Op.set [7] (some [2]) .zero
  let toA : Client := ⟨1, ⟨hostA, false⟩⟩
  let toB : Client := ⟨0, ⟨hostB, false⟩⟩
  [(hostA, .call 0 op .invoke), (hostA, .call 0 op (.lead 0)),
    (hostA, .call 0 op (.pick (some toB) true)), (hostA, .call 0 op (.send toB)),
    (hostB, .call 0 op.served .invoke), (hostB, .call 0 op.served .write),
    (hostB, .call 0 op.served (.ret .ok)), (hostA, .call 0 op (.answered toB none)),
    (hostB, .call 1 op' .invoke), (hostB, .call 1 op' (.lead 0)),
    (hostB, .call 1 op' (.pick (some ⟨0, ⟨hostB, true⟩⟩) false)), (hostB, .call 1 op' .write),
    (hostB, .call 1 op' .peers), (hostB, .call 1 op' (.send toA)),
    (hostA, .call 1 op'.served .invoke), (hostA, .call 1 op'.served .write),
    (hostA, .call 1 op'.served (.ret .ok)), (hostB, .call 1 op' (.answered toA none)),
    (hostA, .call 0 op .write), (hostA, .call 0 op .peers), (hostA, .call 0 op .wait),
    (hostA, .call 0 op .assign), (hostA, .call 0 op .done), (hostA, .call 0 op .delete),
    (hostA, .call 0 op (.ret .ok)), (hostB, .call 1 op' .wait), (hostB, .call 1 op' .assign),
    (hostB, .call 1 op' .done), (hostB, .call 1 op' .delete), (hostB, .call 1 op' (.ret .ok))]

theorem allReturned_crossing : AllReturned [7] crossing := by
  refine ⟨⟨hostA, 0, some [1], .zero, .head _⟩, ?_⟩
  intro x p value expire hmem
  simpa [crossing, Op.served] using hmem

theorem crossing_sets_diverge : ∃ N, Agreed [hostB, hostA] hostInst ∧
    ((netLTS ℕ fun _ => 1000).restrict (SetsOnly [hostB, hostA] hostInst [7])).Run crossing N ∧
    AllReturned [7] crossing ∧
    ∃ v w, N.main [7] hostA = some v ∧ N.main [7] hostB = some w ∧
      v.view.bytes ≠ w.view.bytes := by
  have h₀ : (hostLTS fun _ _ => True).Run [] hosts := hosts_initial
  have h₁ := host_step (x := hostA) h₀ (Step.invoke (p := 0) (.set [7] (some [1]) .zero) rfl)
    (.inside trivial (fun _ => trivial) nofun) ⟨by simp, rfl, nofun⟩ (.inl ⟨nofun, rfl⟩) trivial
  have h₂ := host_step (x := hostA) h₁ (Step.act (p := 0) rfl (.lead rfl))
    (.of_plain rfl) ⟨by simp, rfl, nofun⟩ (.inl ⟨nofun, rfl⟩) trivial
  have h₃ := host_step (x := hostA) h₂ (Step.act (p := 0) rfl (.body (.pickRemote pick_hostA)))
    (.of_plain rfl) ⟨by simp, rfl, nofun⟩ (.inl ⟨nofun, rfl⟩) trivial
  have h₄ := host_step (x := hostA) h₃ (Step.act (p := 0) rfl (.body .send))
    (.send rfl) ⟨by simp, rfl, nofun⟩ (.inl ⟨nofun, rfl⟩) trivial
  have h₅ := host_step (x := hostB) h₄ (Step.invoke (p := 0) _ rfl)
    (.arrive (i := ⟨hostA, 0, ⟨0, ⟨hostB, false⟩⟩⟩) rfl rfl)
    ⟨by simp, rfl, nofun⟩ (.inl ⟨nofun, rfl⟩) trivial
  have h₆ := host_step (x := hostB) h₅ (Step.act (p := 0) rfl .remoteSet)
    (.of_plain rfl) ⟨by simp, rfl, nofun⟩ (.inr ⟨_, rfl⟩) trivial
  have h₇ := host_step (x := hostB) h₆ (Step.act (p := 0) rfl .ret)
    (.reply (i := ⟨hostA, 0, ⟨0, ⟨hostB, false⟩⟩⟩) _ rfl rfl)
    ⟨by simp, rfl, nofun⟩ (.inl ⟨nofun, rfl⟩) trivial
  have h₈ := host_step (x := hostA) h₇ (Step.act (p := 0) rfl (.body (.ownerDone nofun)))
    (.receive (c := ⟨0, ⟨hostB, false⟩⟩) rfl rfl) ⟨by simp, rfl, nofun⟩ (.inl ⟨nofun, rfl⟩) trivial
  have h₉ := host_step (x := hostB) h₈ (Step.invoke (p := 1) (.set [7] (some [2]) .zero) rfl)
    (.inside trivial (fun _ => trivial) nofun) ⟨by simp, rfl, nofun⟩ (.inl ⟨nofun, rfl⟩) trivial
  have h₁₀ := host_step (x := hostB) h₉ (Step.act (p := 1) rfl (.lead rfl))
    (.of_plain rfl) ⟨by simp, rfl, nofun⟩ (.inl ⟨nofun, rfl⟩) trivial
  have h₁₁ := host_step (x := hostB) h₁₀ (Step.act (p := 1) rfl (.body (.pickLocal pick_hostB)))
    (.of_plain rfl) ⟨by simp, rfl, nofun⟩ (.inl ⟨nofun, rfl⟩) trivial
  have h₁₂ := host_step (x := hostB) h₁₁ (Step.act (p := 1) rfl (.body (.write nofun)))
    (.of_plain rfl) ⟨by simp, rfl, nofun⟩ (.inr ⟨_, rfl⟩) trivial
  have h₁₃ := host_step (x := hostB) h₁₂ (Step.act (p := 1) rfl (act_peers (broadcast_hostB _ _)))
    (.of_plain rfl) ⟨by simp, rfl, nofun⟩ (.inl ⟨nofun, rfl⟩) trivial
  have h₁₄ := host_step (x := hostB) h₁₃
    (Step.act (p := 1) rfl (.body (.sendPeer List.mem_cons_self))) (.send rfl)
    ⟨by simp, rfl, nofun⟩ (.inl ⟨nofun, rfl⟩) trivial
  have h₁₅ := host_step (x := hostA) h₁₄ (Step.invoke (p := 1) _ rfl)
    (.arrive (i := ⟨hostB, 1, ⟨1, ⟨hostA, false⟩⟩⟩) rfl rfl)
    ⟨by simp, rfl, nofun⟩ (.inl ⟨nofun, rfl⟩) trivial
  have h₁₆ := host_step (x := hostA) h₁₅ (Step.act (p := 1) rfl .remoteSet)
    (.of_plain rfl) ⟨by simp, rfl, nofun⟩ (.inr ⟨_, rfl⟩) trivial
  have h₁₇ := host_step (x := hostA) h₁₆ (Step.act (p := 1) rfl .ret)
    (.reply (i := ⟨hostB, 1, ⟨1, ⟨hostA, false⟩⟩⟩) _ rfl rfl)
    ⟨by simp, rfl, nofun⟩ (.inl ⟨nofun, rfl⟩) trivial
  have h₁₈ := host_step (x := hostB) h₁₇
    (Step.act (p := 1) rfl (.body (.answered none List.mem_cons_self nofun nofun)))
    (.receive (c := ⟨1, ⟨hostA, false⟩⟩) rfl rfl)
    ⟨by simp, rfl, nofun⟩ (.inl ⟨nofun, rfl⟩) trivial
  have h₁₉ := host_step (x := hostA) h₁₈ (Step.act (p := 0) rfl (.body (.write nofun)))
    (.of_plain rfl) ⟨by simp, rfl, nofun⟩ (.inr ⟨_, rfl⟩) trivial
  have h₂₀ := host_step (x := hostA) h₁₉ (Step.act (p := 0) rfl (act_peers (broadcast_hostA _ _)))
    (.of_plain rfl) ⟨by simp, rfl, nofun⟩ (.inl ⟨nofun, rfl⟩) trivial
  have h₂₁ := host_step (x := hostA) h₂₀ (Step.act (p := 0) rfl (.body .wait))
    (.of_plain rfl) ⟨by simp, rfl, nofun⟩ (.inl ⟨nofun, rfl⟩) trivial
  have h₂₂ := host_step (x := hostA) h₂₁ (Step.act (p := 0) rfl .assign)
    (.of_plain rfl) ⟨by simp, rfl, nofun⟩ (.inl ⟨nofun, rfl⟩) trivial
  have h₂₃ := host_step (x := hostA) h₂₂ (Step.act (p := 0) rfl .done)
    (.of_plain rfl) ⟨by simp, rfl, nofun⟩ (.inl ⟨nofun, rfl⟩) trivial
  have h₂₄ := host_step (x := hostA) h₂₃ (Step.act (p := 0) rfl .delete)
    (.of_plain rfl) ⟨by simp, rfl, nofun⟩ (.inl ⟨nofun, rfl⟩) trivial
  have h₂₅ := host_step (x := hostA) h₂₄ (Step.act (p := 0) rfl .ret)
    (.inside trivial nofun fun _ _ i _ hi => by
      by_cases hi₀ : i = ⟨hostA, 0, ⟨0, ⟨hostB, false⟩⟩⟩ <;>
        by_cases hi₁ : i = ⟨hostB, 1, ⟨1, ⟨hostA, false⟩⟩⟩ <;> simp [hi₀, hi₁, hosts] at hi)
    ⟨by simp, rfl, nofun⟩ (.inl ⟨nofun, rfl⟩) trivial
  have h₂₆ := host_step (x := hostB) h₂₅ (Step.act (p := 1) rfl (.body .wait))
    (.of_plain rfl) ⟨by simp, rfl, nofun⟩ (.inl ⟨nofun, rfl⟩) trivial
  have h₂₇ := host_step (x := hostB) h₂₆ (Step.act (p := 1) rfl .assign)
    (.of_plain rfl) ⟨by simp, rfl, nofun⟩ (.inl ⟨nofun, rfl⟩) trivial
  have h₂₈ := host_step (x := hostB) h₂₇ (Step.act (p := 1) rfl .done)
    (.of_plain rfl) ⟨by simp, rfl, nofun⟩ (.inl ⟨nofun, rfl⟩) trivial
  have h₂₉ := host_step (x := hostB) h₂₈ (Step.act (p := 1) rfl .delete)
    (.of_plain rfl) ⟨by simp, rfl, nofun⟩ (.inl ⟨nofun, rfl⟩) trivial
  have h₃₀ := host_step (x := hostB) h₂₉ (Step.act (p := 1) rfl .ret)
    (.inside trivial nofun fun _ _ i _ hi => by
      by_cases hi₀ : i = ⟨hostA, 0, ⟨0, ⟨hostB, false⟩⟩⟩ <;>
        by_cases hi₁ : i = ⟨hostB, 1, ⟨1, ⟨hostA, false⟩⟩⟩ <;> simp [hi₀, hi₁, hosts] at hi)
    ⟨by simp, rfl, nofun⟩ (.inl ⟨nofun, rfl⟩) trivial
  exact ⟨_, hostInst_agreed, h₃₀.restrict_mono fun _ _ _ h => h.1, allReturned_crossing,
    _, _, rfl, rfl, by decide⟩

end Groupcache.Concurrent
