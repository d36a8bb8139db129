import Groupcache.Network

/-! Concurrent misses of one key in a whole cluster: the owner's Getter succeeds at most once. -/
namespace Groupcache.Concurrent

open Transport Peer

/-- The body of a load deals with a remote owner. -/
def Body.Remote : Body → Prop
  | .call _ | .calling _ _ | .fillHot _ => True
  | _ => False

/-- The body of a load deals with its own Getter. -/
def Body.Local : Body → Prop
  | .callGetter | .getter _ | .fillMain _ => True
  | _ => False

/-- The lookup of a load has missed the main cache, and its Getter has not returned. -/
def Body.Missed : Body → Prop
  | .lookup .hot | .pick | .callGetter | .getter _ => True
  | _ => False

variable {P : Type} [DecidableEq P] {s t : State P} {l : Label P} {p q : P} {k : GoString}
  {dest dest' : Option Sink} {since since' c c' time : ℕ} {b b' : Body} {e : Event} {n : Node}
  {g : Group Value} {v : Value} {now : Time} {tier : Tier} {fr : Frame}

/-- Only the lookup in the main cache goes on, and it leaves nothing there then. -/
theorem look_next {g' : Group Value} (h : look g now k tier = (g', .next)) :
    tier = .main ∧ g'.mainCache.find? k = none := by
  cases tier with
  | main =>
    rw [look] at h
    split at h
    · cases h
    · obtain ⟨rfl, hfound⟩ := Prod.mk.inj h
      refine ⟨rfl, ?_⟩
      rcases g.mainCache.get_spec now k with ⟨v, hget, _⟩ | ⟨_, hnone⟩
      · have hlookup : (g.lookupMain now k).2 = some v := hget
        simp [hlookup] at hfound
      · exact hnone
  | hot =>
    rw [look] at h
    cases hl : (g.lookupHot now k).2 <;> simp [hl] at h

theorem look_miss {g' : Group Value} (h : look g now k tier = (g', .miss))
    (hpos : 0 < g.maxCacheBytes) : tier = .hot := by
  cases tier with
  | main =>
    rw [look, if_neg (by omega)] at h
    cases hl : (g.lookupMain now k).2 <;> simp [hl] at h
  | hot => rfl

theorem BodyStep.remote (h : BodyStep n time (.get k dest) b e g b') (hr : b'.Remote) :
    b.Remote ∨ (n.inst.pickPeer k).2 = true := by
  cases h with
  | pickRemote h => exact Or.inr (by rw [Op.key] at h; rw [h])
  | send | fetched => exact Or.inl trivial
  | _ => exact hr.elim

theorem BodyStep.toLocal (h : BodyStep n time (.get k dest) b e g b') (hl : b'.Local) :
    b.Local ∨ (n.inst.pickPeer k).2 = false ∨ ∃ c err, e = .answered c (some err) ∧
      err.isFinal = false := by
  cases h with
  | pickLocal h => exact Or.inr (Or.inl (by rw [Op.key] at h; rw [h]))
  | fetchFallBack h => exact Or.inr (Or.inr ⟨_, _, rfl, h⟩)
  | callGetter | got => exact Or.inl trivial
  | _ => exact hl.elim

theorem BodyStep.missed (h : BodyStep n time (.get k dest) b e g b') (hm : b'.Missed)
    (hpos : 0 < n.group.maxCacheBytes) (hr : ¬ b.Remote) :
    (b.Missed ∧ ∀ w, e ≠ .got w) ∨
      (b = .lookup .main ∧ e = .lookup ∧ g.mainCache.find? k = none) := by
  cases h with
  | next _ h =>
    obtain ⟨rfl, hnone⟩ := look_next h
    exact Or.inr ⟨rfl, rfl, hnone⟩
  | miss _ h =>
    obtain rfl := look_miss h hpos
    exact Or.inl ⟨trivial, by simp⟩
  | pickLocal | callGetter => exact Or.inl ⟨trivial, by simp⟩
  | fetchFallBack => exact (hr trivial).elim
  | _ => exact hm.elim

omit [DecidableEq P] in
/-- A key has one leader of its load on a node. -/
theorem Flights.lead_unique (hi : Flights s)
    (hp : s.pc p = some ⟨.get k dest, since, .lead c b⟩)
    (hq : s.pc q = some ⟨.get k dest', since', .lead c' b'⟩) : p = q := by
  have hlead : ∀ {p dest since c b}, s.pc p = some ⟨.get k dest, since, .lead c b⟩ →
      (s.role .load p).leads = some (k, c) := by
    intro p dest since c b hp
    rw [role_of_pc hp]
    rfl
  exact ((hi .load).leader_unique (hlead hp) (hlead hq)).1

/-- A Getter returns to the leader that called it, which goes on to fill the main cache. -/
theorem Step.got {op : Op} {w : ByteView} (h : Step s (.call p op (.got w)) t) :
    ∃ key dest since c start, op = .get key dest ∧
      s.pc p = some ⟨op, since, .lead c (.getter start)⟩ ∧
      t.pc p = some ⟨op, since, .lead c (.fillMain ⟨w, .fetch start⟩)⟩ := by
  cases h with
  | act hp ha =>
    cases ha with
    | body hb =>
      cases hb
      exact ⟨_, _, _, _, _, rfl, hp, Function.update_self ..⟩

/-- The Getter returned the value for the key at a node. -/
def Ran (ls : List (GoString × Label P)) (k : GoString) (i : ℕ) (x : GoString) (w : ByteView) :
    Prop :=
  ∃ p op, ls[i]? = some (x, .call p op (.got w)) ∧ op.key = k

/-- The value has the bytes that the Getter returned at a node. -/
def RanBytes (ls : List (GoString × Label P)) (y k : GoString) (v : Value) : Prop :=
  ∃ i w, Ran ls k i y w ∧ v.view.bytes = w.bytes

/-- The steps of a run in which a key is only read: exactly its owner treats it as local, nobody
sets or removes it, and its entry in the owner's main cache is neither evicted nor expires. -/
structure Quiet (y k : GoString) (N : Net P) (xl : GoString × Label P) (N' : Net P) : Prop where
  owner : ((N.nodes xl.1).node.inst.pickPeer k).2 = true ↔ xl.1 ≠ y
  gets : ∀ p op, xl.2 = .call p op .invoke → op.key = k → ∃ dest, op = .get k dest
  kept : ∀ v, (N.nodes y).node.group.mainCache.find? k = some v →
    (N'.nodes y).node.group.mainCache.find? k = some v
  stored : ∀ p op v, xl = (y, .call p op (.fill v)) → op.key = k →
    (N'.nodes y).node.group.mainCache.find? k = some v

/-- What holds in every state of such a run. -/
structure OneLoad (y k : GoString) (ls : List (GoString × Label P)) (N : Net P) : Prop where
  flights : ∀ x, Flights (N.nodes x)
  positive : 0 < (N.nodes y).node.group.maxCacheBytes
  gets : ∀ x p fr, (N.nodes x).pc p = some fr → fr.op.key = k → ∃ dest, fr.op = .get k dest
  holding : ∀ x, Holding (RanBytes ls y k) k 0 (N.nodes x)
  replied : ∀ i op v, N.calls i = some (.replied op (.value v)) → op.key = k → RanBytes ls y k v
  place : ∀ x p dest since c b, (N.nodes x).pc p = some ⟨.get k dest, since, .lead c b⟩ →
    (b.Remote → x ≠ y) ∧ (b.Local → x = y)
  missed : ∀ p dest since c b, (N.nodes y).pc p = some ⟨.get k dest, since, .lead c b⟩ →
    b.Missed → ∀ i x w, ¬ Ran ls k i x w
  kept : ∀ i x w, Ran ls k i x w → x = y ∧
    ((∃ v, (N.nodes y).node.group.mainCache.find? k = some v) ∨
      ∃ p dest since c v, (N.nodes y).pc p = some ⟨.get k dest, since, .lead c (.fillMain v)⟩)
  once : ∀ i x w i' x' w', Ran ls k i x w → Ran ls k i' x' w' → i = i'

variable {ls : List (GoString × Label P)} {N N' : Net P} {x x' y : GoString} {w : ByteView} {i : ℕ}
  {T : PeerCalls P}

omit [DecidableEq P] in
theorem Ran.append (h : Ran ls k i x w) : Ran (ls ++ [(x', l)]) k i x w := by
  obtain ⟨p, op, hi, hk⟩ := h
  exact ⟨p, op, Lib.getElem?_concat_of_some hi, hk⟩

omit [DecidableEq P] in
theorem Ran.cases (h : Ran (ls ++ [(x', l)]) k i x w) :
    Ran ls k i x w ∨ i = ls.length ∧ x = x' ∧ ∃ p op, l = .call p op (.got w) ∧ op.key = k := by
  obtain ⟨p, op, hi, hk⟩ := h
  rcases Lib.getElem?_concat_cases hi with hi | ⟨rfl, heq⟩
  · exact Or.inl ⟨p, op, hi, hk⟩
  · cases heq
    exact Or.inr ⟨rfl, rfl, p, op, rfl, hk⟩

omit [DecidableEq P] in
theorem RanBytes.append (h : RanBytes ls y k v) : RanBytes (ls ++ [(x, l)]) y k v := by
  obtain ⟨i, w, hr, hv⟩ := h
  exact ⟨i, w, hr.append, hv⟩

/-- Only the owner's Getter returns for the key, to a leader that had missed the main cache. -/
theorem OneLoad.got (h : OneLoad y k ls N) {op : Op} (hs : Step (N.nodes x) (.call p op (.got w)) s)
    (hk : op.key = k) : x = y ∧ ∃ dest since c start,
      (N.nodes x).pc p = some ⟨.get k dest, since, .lead c (.getter start)⟩ ∧
      s.pc p = some ⟨.get k dest, since, .lead c (.fillMain ⟨w, .fetch start⟩)⟩ := by
  obtain ⟨key, dest, since, c, start, rfl, hp, hp'⟩ := hs.got
  obtain rfl : key = k := hk
  exact ⟨(h.place x p _ _ _ _ hp).2 trivial, dest, since, c, start, hp, hp'⟩

theorem gets_step (h : OneLoad y k ls N) (hs : Step (N.nodes x) l s)
    (hq : ∀ p op, l = .call p op .invoke → op.key = k → ∃ dest, op = .get k dest) :
    ∀ p fr, s.pc p = some fr → fr.op.key = k → ∃ dest, fr.op = .get k dest := by
  intro p fr hp hk
  rcases hs.frame_cases hp with ⟨hold, _⟩ | ⟨e, loc, _, hold, _⟩ | ⟨hl, _⟩
  · exact h.gets x p fr hold hk
  · exact h.gets x p ⟨fr.op, fr.since, loc⟩ hold hk
  · exact hq p fr.op hl hk

/-- Values at the node that moves: it fetched what a peer's `Get` returned, or the owner's Getter
has just returned. -/
theorem ranBytes_step (h : OneLoad y k ls N) (hs : Step (N.nodes x) l s)
    (hl : Link N.calls x l T) : Holding (RanBytes (ls ++ [(x, l)]) y k) k 0 s := by
  refine holding_step hs (h.flights x) ((h.holding x).mono fun v => RanBytes.append) ?_ ?_
  · rintro p op since loc e v rfl _ ⟨_, hk⟩ ⟨c, start, _, ⟨c', _, rfl⟩ | ⟨_, rfl⟩⟩
    · obtain ⟨v₀, hi, hbytes⟩ := hl.fetched_eq
      obtain ⟨i, w, hran, hv₀⟩ := h.replied _ op v₀ hi hk
      exact ⟨i, w, hran.append, hbytes.trans hv₀⟩
    · obtain ⟨rfl, _⟩ := h.got hs hk
      exact ⟨ls.length, v.view, ⟨p, op, by simp, hk⟩, rfl⟩
  · rintro p op v rfl hk hval
    obtain ⟨since, loc, _, hp, _⟩ := hs.frame (by simp)
    obtain ⟨dest, rfl⟩ := h.gets x p ⟨op, since, loc⟩ hp hk
    cases hval

theorem replied_step (h : OneLoad y k ls N) (hs : Step (N.nodes x) l s)
    (hl : Link N.calls x l T) {i : PeerCall P} {op : Op} (hi : T i = some (.replied op (.value v)))
    (hk : op.key = k) : RanBytes (ls ++ [(x, l)]) y k v := by
  rcases hl.replied hi with hold | ⟨q, rfl⟩
  · exact (h.replied i op v hold hk).append
  · have hkey : op.served.key = k := by cases op <;> exact hk
    obtain ⟨since, loc, _, hq, ha, _⟩ := hs.frame (by simp)
    obtain ⟨dest, hop⟩ := h.gets x q ⟨op.served, since, loc⟩ hq hkey
    have hloc := ha.ret_loc
    have hload : op.served.Loads k := ⟨by rw [show op.served = .get k dest from hop]; rfl, hkey⟩
    exact ((h.holding x).late q _ hq hload (Nat.zero_le _) v (by simp [hloc, Loc.Gets])).append

/-- At a leader of the key, one step of its function. -/
theorem lead_cases (hs : Step (N.nodes x) l s)
    (hp : s.pc p = some ⟨.get k dest, since, .lead c b⟩) :
    ((N.nodes x).pc p = some ⟨.get k dest, since, .lead c b⟩ ∧ ∀ op e, l ≠ .call p op e) ∨
    b = .lookup .main ∨ ∃ b₀ e, l = .call p (.get k dest) e ∧
      (N.nodes x).pc p = some ⟨.get k dest, since, .lead c b₀⟩ ∧
      BodyStep (N.nodes x).node (N.nodes x).clock (.get k dest) b₀ e s.node.group b := by
  rcases hs.frame_cases hp with hold | ⟨e, loc, hl, hold, ha⟩ | ⟨_, _, hloc⟩
  · exact Or.inl hold
  · rcases ha.lead_cases with ⟨_, _, hb⟩ | ⟨b₀, rfl, hb⟩
    · exact Or.inr (Or.inl hb)
    · exact Or.inr (Or.inr ⟨b₀, e, hl, hold, hb⟩)
  · cases dest <;> cases hloc

theorem place_step (h : OneLoad y k ls N) (hs : Step (N.nodes x) l s) (hl : Link N.calls x l T)
    (howner : ((N.nodes x).node.inst.pickPeer k).2 = true ↔ x ≠ y)
    (hp : s.pc p = some ⟨.get k dest, since, .lead c b⟩) :
    (b.Remote → x ≠ y) ∧ (b.Local → x = y) := by
  rcases lead_cases hs hp with ⟨hold, _⟩ | rfl | ⟨b₀, e, rfl, hold, hb⟩
  · exact h.place x p dest since c b hold
  · exact ⟨False.elim, False.elim⟩
  · have hplace := h.place x p dest since c b₀ hold
    refine ⟨fun hr => ?_, fun hr => ?_⟩
    · rcases hb.remote hr with hr₀ | hpick
      · exact hplace.1 hr₀
      · exact howner.mp hpick
    · rcases hb.toLocal hr with hl₀ | hpick | ⟨c', err, rfl, herr⟩
      · exact hplace.2 hl₀
      · by_contra hne
        rw [howner.mpr hne] at hpick
        cases hpick
      · rw [hl.answered_isFinal] at herr
        cases herr

/-- After a miss of the main cache at the owner, the Getter has not returned. -/
theorem missed_step (h : OneLoad y k ls N) (hs : Step (N.nodes y) l s)
    (hkept : ∀ v, (N.nodes y).node.group.mainCache.find? k = some v →
      s.node.group.mainCache.find? k = some v)
    (hp : s.pc p = some ⟨.get k dest, since, .lead c b⟩) (hm : b.Missed) :
    ¬ Ran (ls ++ [(y, l)]) k i x w := by
  intro hran
  rcases lead_cases hs hp with ⟨hold, hother⟩ | rfl | ⟨b₀, e, rfl, hold, hb⟩
  · rcases hran.cases with hran | ⟨_, _, q, op, rfl, hk⟩
    · exact h.missed p dest since c b hold hm i x w hran
    · obtain ⟨_, dest', since', c', start, hq, _⟩ := h.got hs hk
      obtain rfl := (h.flights y).lead_unique hold hq
      exact hother _ _ rfl
  · exact hm
  · have hr : ¬ b₀.Remote := fun hr => (h.place y p dest since c b₀ hold).1 hr rfl
    rcases hb.missed hm h.positive hr with ⟨hm₀, hgot⟩ | ⟨rfl, rfl, hnone⟩
    · rcases hran.cases with hran | ⟨_, _, q, op, he, _⟩
      · exact h.missed p dest since c b₀ hold hm₀ i x w hran
      · cases he
        exact hgot w rfl
    · rcases hran.cases with hran | ⟨_, _, q, op, he, _⟩
      · rcases (h.kept i x w hran).2 with ⟨v, hv⟩ | ⟨q, dest', since', c', v, hq⟩
        · rw [hkept v hv] at hnone
          cases hnone
        · obtain rfl := (h.flights y).lead_unique hold hq
          rw [hold] at hq
          cases hq
      · cases he

theorem Act.fillMain_event {n' : Node} {loc' : Loc}
    (h : Act n time (.get k dest) (.lead c (.fillMain v)) e n' loc') : e = .fill v := by
  cases h with
  | body hb =>
    cases hb
    rfl

/-- A leader about to fill the main cache stays there until it does. -/
theorem fillMain_cases (hs : Step s l t)
    (hp : s.pc p = some ⟨.get k dest, since, .lead c (.fillMain v)⟩) :
    t.pc p = some ⟨.get k dest, since, .lead c (.fillMain v)⟩ ∨
      l = .call p (.get k dest) (.fill v) := by
  rcases hs.frame_next hp with hp' | ⟨e, loc', rfl, ha, _⟩
  · exact Or.inl hp'
  · obtain rfl := ha.fillMain_event
    exact Or.inr rfl

theorem kept_step {K : KeysCalls P} (h : OneLoad y k ls N) (hs : Step (N.nodes x) l s)
    (hq : Quiet y k N (x, l) ⟨Function.update N.nodes x s, T, K⟩)
    (hran : Ran (ls ++ [(x, l)]) k i x' w) : x' = y ∧
    ((∃ v, (Function.update N.nodes x s y).node.group.mainCache.find? k = some v) ∨
      ∃ p dest since c v, (Function.update N.nodes x s y).pc p =
        some ⟨.get k dest, since, .lead c (.fillMain v)⟩) := by
  rcases hran.cases with hran | ⟨_, rfl, p, op, rfl, hk⟩
  · obtain ⟨hx', ⟨v, hv⟩ | ⟨p, dest, since, c, v, hp⟩⟩ := h.kept i x' w hran
    · exact ⟨hx', Or.inl ⟨v, hq.kept v hv⟩⟩
    · refine ⟨hx', ?_⟩
      by_cases hxy : y = x
      · subst hxy
        rcases fillMain_cases hs hp with hp' | rfl
        · exact Or.inr ⟨p, dest, since, c, v, by rwa [Function.update_self]⟩
        · exact Or.inl ⟨v, hq.stored p _ v rfl rfl⟩
      · exact Or.inr ⟨p, dest, since, c, v, by rwa [Function.update_of_ne hxy]⟩
  · obtain ⟨rfl, dest, since, c, start, _, hp'⟩ := h.got hs hk
    exact ⟨rfl, Or.inr ⟨p, dest, since, c, _, by rwa [Function.update_self]⟩⟩

/-- A second success of the Getter would come out of a miss after the first. -/
theorem once_step (h : OneLoad y k ls N) (hs : Step (N.nodes x) l s) {i' : ℕ} {x'' : GoString}
    {w' : ByteView} (hran : Ran (ls ++ [(x, l)]) k i x' w)
    (hran' : Ran (ls ++ [(x, l)]) k i' x'' w') : i = i' := by
  have hnew : ∀ {p op w}, l = .call p op (.got w) → op.key = k → ∀ i x w, ¬ Ran ls k i x w := by
    rintro p op w rfl hk
    obtain ⟨rfl, dest, since, c, start, hp, _⟩ := h.got hs hk
    exact h.missed p dest since c _ hp trivial
  rcases hran.cases with hran | ⟨hi, _, p, op, hl, hk⟩ <;>
    rcases hran'.cases with hran' | ⟨hi', _, p', op', hl', hk'⟩
  · exact h.once i x' w i' x'' w' hran hran'
  · exact (hnew hl' hk' i x' w hran).elim
  · exact (hnew hl hk i' x'' w' hran').elim
  · rw [hi, hi']

theorem oneLoad_step {xl : GoString × Label P} (h : OneLoad y k ls N) (hstep : NetStep N xl N')
    (hq : Quiet y k N xl N') : OneLoad y k (ls ++ [xl]) N' := by
  cases hstep with
  | @node x l s T _ hs hl =>
    constructor
    · exact (Function.forall_update_iff N.nodes (p := fun _ s => Flights s)).mpr
        ⟨flights_step hs (h.flights x), fun z _ => h.flights z⟩
    · change 0 < (Function.update N.nodes x s y).node.group.maxCacheBytes
      by_cases hxy : y = x
      · subst hxy
        rw [Function.update_self, maxCacheBytes_step hs]
        exact h.positive
      · rw [Function.update_of_ne hxy]
        exact h.positive
    · exact (Function.forall_update_iff N.nodes (p := fun _ s => ∀ p fr, s.pc p = some fr →
        fr.op.key = k → ∃ dest, fr.op = .get k dest)).mpr
        ⟨gets_step h hs hq.gets, fun z _ => h.gets z⟩
    · exact (Function.forall_update_iff N.nodes (p := fun _ s => Holding _ k 0 s)).mpr
        ⟨ranBytes_step h hs hl, fun z _ => (h.holding z).mono fun v => RanBytes.append⟩
    · exact fun i op v hi hk => replied_step h hs hl hi hk
    · exact (Function.forall_update_iff N.nodes (p := fun x s => ∀ p dest since c b,
        s.pc p = some ⟨.get k dest, since, .lead c b⟩ →
        (b.Remote → x ≠ y) ∧ (b.Local → x = y))).mpr
        ⟨fun p dest since c b => place_step h hs hl hq.owner, fun z _ => h.place z⟩
    · intro p dest since c b hp hm i x' w hran
      change (Function.update N.nodes x s y).pc p = _ at hp
      by_cases hxy : y = x
      · subst hxy
        rw [Function.update_self] at hp
        have hkept := hq.kept
        simp only [Function.update_self] at hkept
        exact missed_step h hs hkept hp hm hran
      · rw [Function.update_of_ne hxy] at hp
        rcases hran.cases with hran | ⟨_, _, p', op, rfl, hk⟩
        · exact h.missed p dest since c b hp hm i x' w hran
        · exact hxy (h.got hs hk).1.symm
    · exact fun i x' w hran => kept_step h hs hq hran
    · exact fun i x' w i' x'' w' hran hran' => once_step h hs hran hran'

theorem oneLoad_reachable {cacheBytes : GoString → ℤ} (hpos : 0 < cacheBytes y)
    (h : ((netLTS P cacheBytes).restrict (Quiet y k)).Run ls N) : OneLoad y k ls N := by
  refine h.invariant ?_ fun ls N xl N' _ hi hs => oneLoad_step hi hs.1 hs.2
  intro N ⟨hnodes, hcalls, _⟩
  have hnone : ∀ i x w, ¬ Ran ([] : List (GoString × Label P)) k i x w := by
    rintro i x w ⟨p, op, hi, _⟩
    simp at hi
  constructor
  · exact fun x => flights_initial (hnodes x)
  · rw [(hnodes y).1]
    exact hpos
  · exact fun x p fr hp => (pc_ne_initial (hnodes x) hp).elim
  · exact fun x => holding_initial (hnodes x)
  · intro i op v hi
    rw [hcalls i] at hi
    cases hi
  · exact fun x p dest since c b hp => (pc_ne_initial (hnodes x) hp).elim
  · exact fun p dest since c b hp => (pc_ne_initial (hnodes y) hp).elim
  · exact fun i x w hran => (hnone i x w hran).elim
  · exact fun i x w i' x' w' hran => (hnone i x w hran).elim

/-- In a run in which a key is only read, its Getter returns successfully at most once in the whole
cluster, at the owner. Every `Get` of the key that succeeds, at any node, returns the bytes of that
run, and once no load is registered there the owner's main cache counts the key exactly once. -/
theorem getter_runs_once {cacheBytes : GoString → ℤ} (hpos : 0 < cacheBytes y)
    (h : ((netLTS P cacheBytes).restrict (Quiet y k)).Run ls N) :
    (∀ i x w i' x' w', Ran ls k i x w → Ran ls k i' x' w' → i = i' ∧ x = y) ∧
    (∀ x (p : P) dest (r : ℕ) v, ls[r]? = some (x, .call p (.get k dest) (.ret (.value v))) →
      ∃ i w, Ran ls k i y w ∧ i < r ∧ v.view.bytes = w.bytes) ∧
    let m := (N.nodes y).node.group.mainCache.raw
    m.bytes = (m.pairs.map MutexCache.size).sum ∧ (m.pairs.filter (·.1 = k)).length ≤ 1 ∧
    ∀ i x w, Ran ls k i x w → ((N.nodes y).node.flights .load).m k = none →
      ∃ v, m.pairs.filter (·.1 = k) = [(k, v)] ∧ v.view.bytes = w.bytes := by
  have hone := oneLoad_reachable hpos h
  refine ⟨?_, ?_, (N.nodes y).node.group.mainCache.wf.bytes_eq, ?_, ?_⟩
  · intro i x w i' x' w' hran hran'
    exact ⟨hone.once i x w i' x' w' hran hran', (hone.kept i x w hran).1⟩
  · intro x p dest r v hr
    obtain ⟨M, M', hM, ⟨hstep, _⟩, _⟩ := h.occurs hr
    cases hstep with
    | node hs _ =>
      obtain ⟨since, loc, _, hp, ha, _⟩ := hs.frame (by simp)
      have hlate := ((oneLoad_reachable hpos hM).holding x).late p _ hp ⟨rfl, rfl⟩ (Nat.zero_le _) v
      obtain ⟨i, w, ⟨q, op, hi, hk⟩, hv⟩ := hlate (by simp [ha.ret_loc, Loc.Gets])
      obtain ⟨hir, hi⟩ := Lib.getElem?_of_take hi
      exact ⟨i, w, ⟨q, op, hi, hk⟩, hir, hv⟩
  · rw [Cache.pairs_filter]
    cases (N.nodes y).node.group.mainCache.find? k <;> simp
  · intro i x w hran hm
    obtain ⟨rfl, ⟨v, hv⟩ | ⟨p, dest, since, c, v, hp⟩⟩ := hone.kept i x w hran
    · obtain ⟨i', w', hran', hbytes⟩ := (hone.holding x).cache v (Or.inl hv)
      obtain rfl := hone.once i x w i' x w' hran hran'
      obtain ⟨_, _, hi, _⟩ := hran
      obtain ⟨_, _, hi', _⟩ := hran'
      rw [hi] at hi'
      cases hi'
      exact ⟨v, by rw [Cache.pairs_filter, hv]; rfl, hbytes⟩
    · have hreg : ((N.nodes x).node.flights .load).m k = some c :=
        ((hone.flights x).frame_ok hp).1
      rw [hm] at hreg
      cases hreg

/-- An instance whose ring has one point, that of the node `B`. -/
def ringOfB (isSelf : Bool) : Instance :=
  { opts := ⟨none, 1⟩
    picker :=
      { hashFn := fun _ => 0, replicas := 1, keys := [⟨0, ⟨0, ⟨[66], isSelf⟩⟩⟩], clientMap := ∅ }
    next := 1 }

/-- Nodes that agree on `B` as the owner of every key. -/
def pair : Net ℕ :=
  { nodes := fun x => { solo with node := { solo.node with inst := ringOfB (x = [66]) } }
    calls := fun _ => none }

theorem pair_init : (netLTS ℕ fun _ => 1000).Init pair :=
  ⟨fun _ => ⟨rfl, fun _ => rfl, rfl, fun _ => rfl, fun _ => rfl⟩, fun _ => rfl, fun _ => rfl⟩

/-- Where nothing is stored in `B`'s main cache yet, or it stays as it is, nothing is lost. -/
theorem quiet_pair {N N' : Net ℕ} {x : GoString} {l : Label ℕ}
    (hinst : (N.nodes x).node.inst = ringOfB (x = [66]))
    (hget : ∀ p op, l = .call p op .invoke → op = .get [107] (some .allocating))
    (hkept : (N.nodes [66]).node.group.mainCache.find? [107] = none ∨
      (N'.nodes [66]).node.group.mainCache = (N.nodes [66]).node.group.mainCache)
    (hfill : ∀ p op v, (x, l) = ([66], .call p op (.fill v)) →
      (N'.nodes [66]).node.group.mainCache.find? [107] = some v) :
    Quiet [66] [107] N (x, l) N' := by
  refine ⟨?_, fun p op hl _ => ⟨_, hget p op hl⟩, ?_, fun p op v h _ => hfill p op v h⟩
  · change ((N.nodes x).node.inst.pickPeer [107]).2 = true ↔ x ≠ [66]
    rw [hinst]
    by_cases hx : x = [66]
    · simp only [hx, decide_true]
      decide
    · simp only [hx, decide_false]
      exact iff_of_true rfl hx
  · intro v hv
    rcases hkept with hnone | hsame
    · rw [hnone] at hv
      cases hv
    · rw [hsame, hv]

theorem pair_plain {ls : List (GoString × Label ℕ)} {N : Net ℕ} {x : GoString} {p : ℕ} {op : Op}
    {e : Event} {s : State ℕ}
    (h : ((netLTS ℕ fun _ => 1000).restrict (Quiet [66] [107])).Run ls N)
    (hs : Step (N.nodes x) (.call p op e) s) (he : e.plain = true)
    (hinst : (N.nodes x).node.inst = ringOfB (x = [66]))
    (hkept : (N.nodes [66]).node.group.mainCache.find? [107] = none ∨
      (Function.update N.nodes x s [66]).node.group.mainCache =
        (N.nodes [66]).node.group.mainCache) :
    ((netLTS ℕ fun _ => 1000).restrict (Quiet [66] [107])).Run (ls ++ [(x, .call p op e)])
      ⟨Function.update N.nodes x s, N.calls, N.keysCalls⟩ := by
  refine h.step ⟨.call hs (.of_plain he), quiet_pair hinst ?_ hkept ?_⟩
  · rintro _ _ ⟨⟩
    cases he
  · rintro _ _ _ ⟨⟩
    cases he

/-- A `Get` at another node, served by `B`, whose Getter it calls. -/
theorem getter_runs_once_pair : ∃ (ls : List (GoString × Label ℕ)) (N : Net ℕ),
    ((netLTS ℕ fun _ => 1000).restrict (Quiet [66] [107])).Run ls N ∧
    (∃ v, ls[21]? = some ([66], .call 0 (.get [107] (some .allocating)) (.ret (.value v))) ∧
      v.view.bytes = [1]) ∧
    (∀ i x w i' x' w', Ran ls [107] i x w → Ran ls [107] i' x' w' → i = i' ∧ x = [66]) := by
  have h₀ : ((netLTS ℕ fun _ => 1000).restrict (Quiet [66] [107])).Run [] pair :=
    .init pair_init
  have h₁ := h₀.step ⟨.call (x := [65]) (Step.invoke (p := 0) (.get [107] (some .allocating)) rfl)
    (.inside trivial (fun _ => trivial) nofun),
    quiet_pair rfl (by rintro _ _ ⟨⟩; rfl) (.inl rfl) nofun⟩
  have h₂ := pair_plain (x := [65]) h₁ (Step.act (p := 0) rfl (.next .zero rfl)) rfl rfl
    (.inl rfl)
  have h₃ := pair_plain (x := [65]) h₂ (Step.act (p := 0) rfl (.miss .zero rfl)) rfl rfl
    (.inl rfl)
  have h₄ := pair_plain (x := [65]) h₃ (Step.act (p := 0) rfl (.lead rfl)) rfl rfl
    (.inl rfl)
  have h₅ := pair_plain (x := [65]) h₄ (Step.act (p := 0) rfl (.body (.next .zero rfl))) rfl rfl
    (.inl rfl)
  have h₆ := pair_plain (x := [65]) h₅ (Step.act (p := 0) rfl (.body (.miss .zero rfl))) rfl rfl
    (.inl rfl)
  have h₇ := pair_plain (x := [65]) h₆ (Step.act (p := 0) rfl (.body (.pickRemote rfl))) rfl rfl
    (.inl rfl)
  have h₈ := h₇.step ⟨.call (x := [65]) (Step.act (p := 0) rfl (.body .send)) (.send rfl),
    quiet_pair rfl nofun (.inl rfl) nofun⟩
  have h₉ := h₈.step ⟨.call (x := [66]) (Step.invoke (p := 0) _ rfl)
    (.arrive (i := ⟨[65], 0, ⟨0, ⟨[66], false⟩⟩⟩) rfl rfl),
    quiet_pair rfl (by rintro _ _ ⟨⟩; rfl) (.inl rfl) nofun⟩
  have h₁₀ := pair_plain (x := [66]) h₉ (Step.act (p := 0) rfl (.next .zero rfl)) rfl rfl
    (.inl rfl)
  have h₁₁ := pair_plain (x := [66]) h₁₀ (Step.act (p := 0) rfl (.miss .zero rfl)) rfl rfl
    (.inl rfl)
  have h₁₂ := pair_plain (x := [66]) h₁₁ (Step.act (p := 0) rfl (.lead rfl)) rfl rfl
    (.inl rfl)
  have h₁₃ := pair_plain (x := [66]) h₁₂ (Step.act (p := 0) rfl (.body (.next .zero rfl))) rfl rfl
    (.inl rfl)
  have h₁₄ := pair_plain (x := [66]) h₁₃ (Step.act (p := 0) rfl (.body (.miss .zero rfl))) rfl rfl
    (.inl rfl)
  have h₁₅ := pair_plain (x := [66]) h₁₄ (Step.act (p := 0) rfl (.body (.pickLocal rfl))) rfl rfl
    (.inl rfl)
  have h₁₆ := pair_plain (x := [66]) h₁₅ (Step.act (p := 0) rfl (.body .callGetter)) rfl rfl
    (.inl rfl)
  have h₁₇ := pair_plain (x := [66]) h₁₆
    (Step.act (p := 0) rfl (.body (.got (.withExpire (some [1]) .zero)))) rfl rfl (.inl rfl)
  have h₁₈ := h₁₇.step ⟨.call (x := [66]) (Step.act (p := 0) rfl (.body .fillMain))
    (.inside trivial nofun nofun),
    quiet_pair rfl nofun (.inl rfl) (by rintro _ _ _ ⟨⟩; rfl)⟩
  have h₁₉ := pair_plain (x := [66]) h₁₈ (Step.act (p := 0) rfl .assign) rfl rfl
    (.inr rfl)
  have h₂₀ := pair_plain (x := [66]) h₁₉ (Step.act (p := 0) rfl .done) rfl rfl
    (.inr rfl)
  have h₂₁ := pair_plain (x := [66]) h₂₀ (Step.act (p := 0) rfl .delete) rfl rfl
    (.inr rfl)
  have h₂₂ := h₂₁.step ⟨.call (x := [66]) (Step.act (p := 0) rfl .ret)
    (.reply (i := ⟨[65], 0, ⟨0, ⟨[66], false⟩⟩⟩) _ rfl rfl), quiet_pair rfl nofun (.inr rfl) nofun⟩
  have h₂₃ := h₂₂.step ⟨.call (x := [65]) (Step.act (p := 0) rfl (.body (.fetched _)))
    (.receive (c := ⟨0, ⟨[66], false⟩⟩) rfl rfl), quiet_pair rfl nofun (.inr rfl) nofun⟩
  exact ⟨_, _, h₂₃, ⟨_, rfl, rfl⟩, (getter_runs_once (by omega) h₂₃).1⟩

end Groupcache.Concurrent
