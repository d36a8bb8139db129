import Groupcache.Lib.Run
import Groupcache.Cluster
import Groupcache.Ownership

/-! Sequential coherence: over all nodes and both their caches, no copy of a key is older than
the key's last write. -/
namespace Groupcache

open Transport Peer

/-- The event is a write of the key. -/
def Event.Writes (key : GoString) : Event → Prop
  | .set k _ | .remove k => k = key
  | .getter _ _ => False

/-- `value` was set, or loaded by a Getter run, and no write of the key came later. -/
def Fresh (log : List Event) (key value : GoString) : Prop :=
  ∃ older e newer, log = older ++ e :: newer ∧ (e = .set key value ∨ e = .getter key value) ∧
    ∀ e' ∈ newer, ¬ e'.Writes key

variable {log : List Event} {key k value : GoString} {e : Event}

theorem fresh_append (h : Fresh log key value) (he : ¬ e.Writes key) :
    Fresh (log ++ [e]) key value := by
  obtain ⟨older, e₀, newer, rfl, hsrc, hnew⟩ := h
  refine ⟨older, e₀, newer ++ [e], by simp, hsrc, ?_⟩
  intro e' he'
  rcases List.mem_append.mp he' with he' | he'
  · exact hnew e' he'
  · rwa [List.mem_singleton.mp he']

theorem fresh_last (h : e = .set key value ∨ e = .getter key value) :
    Fresh (log ++ [e]) key value :=
  ⟨log, e, [], rfl, h, by simp⟩

/-- Every copy of every key at the members is fresh. -/
structure Coherent (as : List GoString) (σ : Cluster) : Prop where
  positive : ∀ x ∈ as, 0 < (σ.groups x).maxCacheBytes
  fresh : ∀ x ∈ as, ∀ k v, (σ.groups x).Holds k v → Fresh σ.log k v.bytes

namespace Cluster

variable {as : List GoString} {site : GoString → Site} {o : Oracle} {σ σ' : Cluster} {x : GoString}
  {f : Group ByteView → Group ByteView}

theorem modify_groups (y : GoString) :
    y ≠ x ∧ (σ.modify x f).groups y = σ.groups y ∨
      y = x ∧ (σ.modify x f).groups y = f (σ.groups x) := by
  by_cases hy : y = x
  · subst hy
    exact Or.inr ⟨rfl, by simp [modify]⟩
  · exact Or.inl ⟨hy, by simp [modify, hy]⟩

/-- An operation on one group that stores only fresh values keeps the cluster coherent. -/
theorem coherent_modify (h : Coherent as σ)
    (hmax : (f (σ.groups x)).maxCacheBytes = (σ.groups x).maxCacheBytes)
    (hf : ∀ k v, (f (σ.groups x)).Holds k v → (σ.groups x).Holds k v ∨ Fresh σ.log k v.bytes) :
    Coherent as (σ.modify x f) := by
  constructor
  · intro y hy
    rcases σ.modify_groups (x := x) (f := f) y with ⟨_, heq⟩ | ⟨rfl, heq⟩
    · rw [heq]
      exact h.positive y hy
    · rw [heq, hmax]
      exact h.positive y hy
  · intro y hy k v hv
    rcases σ.modify_groups (x := x) (f := f) y with ⟨_, heq⟩ | ⟨rfl, heq⟩
    · rw [heq] at hv
      exact h.fresh y hy k v hv
    · rw [heq] at hv
      exact (hf k v hv).elim (h.fresh y hy k v) id

theorem coherent_next (h : Coherent as σ) : Coherent as σ.next := ⟨h.positive, h.fresh⟩

theorem coherent_bump {c : Counter} (h : Coherent as σ) : Coherent as (σ.bump x c) :=
  coherent_modify h rfl fun _ _ hv => Or.inl hv

theorem coherent_log (h : Coherent as σ) (he : ∀ k, ¬ e.Writes k) :
    Coherent as { σ with log := σ.log ++ [e] } :=
  ⟨h.positive, fun x hx k v hv => fresh_append (h.fresh x hx k v hv) (he k)⟩

/-- A lookup keeps the cluster coherent and returns a fresh value, if any. -/
theorem lookupCache_coherent (o : Oracle) (key : GoString) (h : Coherent as σ) (hx : x ∈ as) :
    Coherent as (lookupCache o σ x key).1 ∧ ∀ v, (lookupCache o σ x key).2 = some v →
      Fresh (lookupCache o σ x key).1.log key v.bytes := by
  refine ⟨coherent_next (coherent_next (coherent_modify h ?_ ?_)), ?_⟩
  · simp
  · exact fun k v hv => Or.inl (Group.holds_lookupCache hv)
  · exact fun v hv => h.fresh x hx key v (Group.lookupCache_holds hv)

/-- The outcome of a load: a coherent cluster, and a fresh value if any. -/
def Good (as : List GoString) (key : GoString) (σ : Cluster) (r : Except Err ByteView) : Prop :=
  Coherent as σ ∧ ∀ v, r = .ok v → Fresh σ.log key v.bytes

theorem good_error {err : Err} (h : Coherent as σ) : Good as key σ (.error err) :=
  ⟨h, by simp⟩

theorem good_ok {v : ByteView} (h : Coherent as σ) (hv : Fresh σ.log key v.bytes) :
    Good as key σ (.ok v) :=
  ⟨h, by rintro w ⟨⟩; exact hv⟩

theorem getLocally_good (o : Oracle) (x key : GoString) (h : Coherent as σ) :
    Good as key (getLocally o σ x key).1 (getLocally o σ x key).2 := by
  unfold getLocally
  cases o.getter σ.tick x key with
  | error e => exact good_error (coherent_next h)
  | ok v => exact good_ok (coherent_log (coherent_next h) fun _ => id) (fresh_last (Or.inr rfl))

theorem loadLocally_good (h : Coherent as σ) :
    Good as key (loadLocally o σ x key).1 (loadLocally o σ x key).2 := by
  have hget := getLocally_good o x key h
  unfold loadLocally
  rcases hr : getLocally o σ x key with ⟨σ', e | v⟩ <;> simp only [hr] at hget ⊢
  · exact good_error (coherent_bump hget.1)
  · have hfresh := hget.2 v rfl
    refine good_ok (coherent_modify (coherent_bump hget.1) (by simp) ?_) hfresh
    intro k w hw
    rcases Group.holds_populateMain hw with ⟨rfl, rfl⟩ | hw
    · exact Or.inr hfresh
    · exact Or.inl hw

/-- How a peer serves a `Get` of the key, as long as the cluster is coherent. -/
def Serves (as : List GoString) (key : GoString) (serve : Cluster → GoString → Served) : Prop :=
  ∀ σ y σ' r, Coherent as σ → y ∈ as → serve σ y = some (σ', r) → Good as key σ' r

theorem getFromPeer_good {serve : Cluster → GoString → Served} {c : Peer.Client}
    {r : Except Err ByteView} (hserve : Serves as key serve) (h : Coherent as σ)
    (hc : c.hashKey ∈ as) (hr : getFromPeer o serve σ x c key = some (σ', r)) :
    Good as key σ' r := by
  have hs : ∀ σ₁ r₁, serve σ.next c.hashKey = some (σ₁, r₁) → Good as key σ₁ r₁ :=
    fun σ₁ r₁ => hserve _ _ _ _ (coherent_next h) hc
  unfold getFromPeer at hr
  split at hr
  · split at hr
    · obtain ⟨⟨σ₁, r₁⟩, hs₁, heq⟩ := Option.map_eq_some_iff.mp hr
      cases heq
      exact good_error (hs σ₁ r₁ hs₁).1
    · cases hr
      exact good_error (coherent_next h)
  · split at hr
    · cases hr
    · rename_i hs₁
      cases hr
      exact good_error (hs _ _ hs₁).1
    · rename_i σ₁ v hs₁
      cases hr
      obtain ⟨hσ₁, hv⟩ := hs _ _ hs₁
      have hfresh : Fresh σ₁.log key (received (some v.bytes) v.expire).bytes := by
        simpa [received] using hv v rfl
      refine good_ok (coherent_modify hσ₁ (by simp) ?_) hfresh
      intro k w hw
      rcases Group.holds_populateHot hw with ⟨rfl, rfl⟩ | hw
      · exact Or.inr hfresh
      · exact Or.inl hw

theorem afterPeerError_good {err : Err} {r : Except Err ByteView × Bool} (h : Coherent as σ)
    (hr : afterPeerError o σ x key err = some (σ', r)) : Good as key σ' r.1 := by
  unfold afterPeerError at hr
  split at hr
  · cases hr
    exact good_error h
  · have hnext : Coherent as (σ.bump x .peerErrors).next := coherent_next (coherent_bump h)
    split at hr <;> cases hr
    · exact good_error hnext
    · exact loadLocally_good hnext

theorem loadMiss_good {serve : Cluster → GoString → Served} {r : Except Err ByteView × Bool}
    (hknows : Knows as x (site x).inst) (hserve : Serves as key serve) (h : Coherent as σ)
    (hr : loadMiss site o serve σ x key = some (σ', r)) : Good as key σ' r.1 := by
  unfold loadMiss at hr
  split at hr
  · rename_i c hpick
    have hc : c.hashKey ∈ as := (hknows.of_pick hpick).2.1
    split at hr
    · cases hr
    · rename_i v hpeer
      cases hr
      obtain ⟨hσ, hv⟩ := getFromPeer_good hserve h hc hpeer
      exact good_ok (coherent_bump hσ) (hv v rfl)
    · rename_i hpeer
      exact afterPeerError_good (getFromPeer_good hserve h hc hpeer).1 hr
  · cases hr
    exact loadLocally_good h

theorem load_good {serve : Cluster → GoString → Served} {r : Except Err ByteView × Bool}
    (hknows : Knows as x (site x).inst) (hserve : Serves as key serve) (h : Coherent as σ)
    (hx : x ∈ as) (hr : load site o serve σ x key = some (σ', r)) : Good as key σ' r.1 := by
  obtain ⟨hlook, hhit⟩ := lookupCache_coherent o key
    (coherent_bump (x := x) (c := .loads) h) hx
  unfold load at hr
  split at hr
  · rename_i v hl
    rw [hl] at hlook hhit
    cases hr
    exact good_ok (coherent_bump hlook) (hhit v rfl)
  · rename_i hl
    rw [hl] at hlook
    exact loadMiss_good hknows hserve (coherent_bump hlook) hr

theorem deliver_ok {dest : Sink} {v w : ByteView} (h : deliver dest v = .ok w) : w = v := by
  unfold deliver at h
  split at h <;> cases h
  rfl

/-- `Get` at a member keeps the cluster coherent and returns a fresh value, whatever the
hops, evictions and expirations on the way. -/
theorem get_good (hknows : ∀ x ∈ as, Knows as x (site x).inst) (fuel : ℕ) {dest : Option Sink}
    {r : Except Err ByteView} (h : Coherent as σ) (hx : x ∈ as)
    (hr : get site o fuel σ x key dest = some (σ', r)) : Good as key σ' r := by
  induction fuel generalizing σ x dest σ' r with
  | zero => cases hr
  | succ fuel ih =>
    have hserve : Serves as key fun σ y => get site o fuel σ y key (some .allocating) :=
      fun σ y σ' r hσ hy hget => ih hσ hy hget
    have hbump : Coherent as (σ.bump x .gets) := coherent_bump h
    obtain ⟨hlook, hhit⟩ := lookupCache_coherent o key hbump hx
    unfold get at hr
    split at hr
    · cases hr
      exact good_error hbump
    · split at hr
      · rename_i v hl
        rw [hl] at hlook hhit
        cases hr
        refine ⟨coherent_bump hlook, fun w hw => ?_⟩
        rw [deliver_ok hw]
        exact hhit v rfl
      · rename_i hl
        rw [hl] at hlook
        split at hr
        · cases hr
        · rename_i hload
          cases hr
          exact good_error (load_good (hknows x hx) hserve hlook hx hload).1
        · rename_i v populated hload
          cases hr
          obtain ⟨hσ, hv⟩ := load_good (hknows x hx) hserve hlook hx hload
          refine ⟨hσ, fun w hw => ?_⟩
          split at hw
          · cases hw
            exact hv v rfl
          · rw [deliver_ok hw]
            exact hv v rfl

/-- `f` leaves a group no copy of the key that `log` does not allow. -/
structure IsWrite (log : List Event) (key : GoString) (f : Group ByteView → Group ByteView) :
    Prop where
  maxCacheBytes : ∀ g, (f g).maxCacheBytes = g.maxCacheBytes
  fresh : ∀ g, 0 < g.maxCacheBytes → (∀ k v, k ≠ key → g.Holds k v → Fresh log k v.bytes) →
    ∀ k v, (f g).Holds k v → Fresh log k v.bytes

theorem isWrite_update {v : ByteView} (hv : Fresh log key v.bytes) :
    IsWrite log key fun g => g.update key v := by
  refine ⟨fun _ => rfl, fun g _ hg k w hw => ?_⟩
  rcases Group.holds_update hw with ⟨rfl, rfl⟩ | ⟨hk, hw⟩
  · exact hv
  · exact hg k w hk hw

theorem isWrite_remoteSet {v : ByteView} (hv : Fresh log key v.bytes) :
    IsWrite log key fun g => g.remoteSet key v := by
  refine ⟨fun g => by simp, fun g hmax hg k w hw => ?_⟩
  rw [Group.remoteSet, if_neg (by omega)] at hw
  exact (isWrite_update hv).fresh g hmax hg k w hw

theorem isWrite_localRemove : IsWrite log key fun g => g.localRemove key := by
  refine ⟨fun g => by simp, fun g hmax hg k w hw => ?_⟩
  obtain ⟨hk, hw⟩ := Group.holds_localRemove hmax hw
  exact hg k w hk hw

/-- In the middle of a write of the key: the nodes in `done` are up to date with `log`, and at
the others only copies of the key may be old. -/
structure Writing (as : List GoString) (log : List Event) (key : GoString) (done : GoString → Prop)
    (σ : Cluster) : Prop where
  positive : ∀ x ∈ as, 0 < (σ.groups x).maxCacheBytes
  fresh : ∀ x ∈ as, done x → ∀ k v, (σ.groups x).Holds k v → Fresh log k v.bytes
  others : ∀ x ∈ as, ∀ k v, k ≠ key → (σ.groups x).Holds k v → Fresh log k v.bytes

variable {done done' : GoString → Prop}

theorem Writing.mono (h : Writing as log key done σ) (hd : ∀ y, done' y → done y) :
    Writing as log key done' σ :=
  ⟨h.positive, fun y hy hdone => h.fresh y hy (hd y hdone), h.others⟩

theorem Writing.next (h : Writing as log key done σ) : Writing as log key done σ.next :=
  ⟨h.positive, h.fresh, h.others⟩

theorem Writing.modify (h : Writing as log key done σ) (hf : IsWrite log key f) :
    Writing as log key (fun y => y = x ∨ done y) (σ.modify x f) := by
  have hnew : x ∈ as → ∀ k v, (f (σ.groups x)).Holds k v → Fresh log k v.bytes :=
    fun hx => hf.fresh _ (h.positive x hx) (h.others x hx)
  refine ⟨fun y hy => ?_, fun y hy hdone k v hv => ?_, fun y hy k v hk hv => ?_⟩ <;>
    rcases σ.modify_groups (x := x) (f := f) y with ⟨hne, heq⟩ | ⟨rfl, heq⟩
  · rw [heq]
    exact h.positive y hy
  · rw [heq, hf.maxCacheBytes]
    exact h.positive y hy
  · exact h.fresh y hy (hdone.resolve_left hne) k v (heq ▸ hv)
  · exact hnew hy k v (heq ▸ hv)
  · exact h.others y hy k v hk (heq ▸ hv)
  · exact hnew hy k v (heq ▸ hv)

/-- A reliable call of a client reaches its node, unless it is the caller's own. -/
theorem callPeer_writing (ho : o.Reliable) {c : Peer.Client} (hf : IsWrite log key f)
    (h : Writing as log key done σ) :
    (callPeer o σ c f).2 = none ∧ (callPeer o σ c f).1.log = σ.log ∧
      Writing as log key (fun y => c.info.isSelf = false ∧ c.hashKey = y ∨ done y)
        (callPeer o σ c f).1 := by
  unfold callPeer
  cases hself : c.info.isSelf with
  | true => exact ⟨rfl, rfl, h.mono fun y hy => hy.resolve_left (by simp)⟩
  | false =>
    rw [if_neg Bool.false_ne_true, ho σ.tick]
    exact ⟨rfl, rfl, (h.next.modify hf).mono fun y hy => hy.imp (fun hc => hc.2.symm) id⟩

/-- The peers that the loop of `Set` sends the value to. -/
def Sent (owner : Option Peer.Client) (ps : List Peer.Client) (y : GoString) : Prop :=
  ∃ p ∈ ps, p.info.isSelf = false ∧ p.hashKey = y ∧ owner.map (·.hashKey) ≠ some y

theorem sent_cons {owner : Option Peer.Client} {p : Peer.Client} {ps : List Peer.Client}
    {y : GoString} (h : Sent owner (p :: ps) y) :
    (p.info.isSelf = false ∧ p.hashKey = y ∧ owner.map (·.hashKey) ≠ some y) ∨ Sent owner ps y := by
  obtain ⟨p', hp', hsent⟩ := h
  rcases List.mem_cons.mp hp' with rfl | hp'
  · exact Or.inl hsent
  · exact Or.inr ⟨p', hp', hsent⟩

/-- The loop need not reach the caller's own node, or the owner's. -/
theorem Writing.skip {owner : Option Peer.Client} {p : Peer.Client} {ps : List Peer.Client}
    (h : Writing as log key (fun y => Sent owner ps y ∨ done y) σ)
    (hp : p.info.isSelf = true ∨ owner.map (·.hashKey) = some p.hashKey) :
    Writing as log key (fun y => Sent owner (p :: ps) y ∨ done y) σ := by
  refine h.mono fun y hy => hy.imp (fun hs => (sent_cons hs).resolve_left ?_) id
  rintro ⟨hself, rfl, hne⟩
  rcases hp with hp | hp
  · simp [hself] at hp
  · exact hne hp

/-- The loop of `Set` reaches every node but the caller's own and the owner's. -/
theorem setAll_writing (ho : o.Reliable) {owner : Option Peer.Client} {logger : Bool}
    {bytes : Option GoString} {expire : Time} {ps : List Peer.Client}
    (hf : IsWrite log key fun g => g.remoteSet key (received bytes expire))
    (h : Writing as log key done σ)
    (hr : (setAll o owner logger key bytes expire σ ps).2 ≠ .panic) :
    (setAll o owner logger key bytes expire σ ps).2 = .ok ∧
      (setAll o owner logger key bytes expire σ ps).1.log = σ.log ∧
      Writing as log key (fun y => Sent owner ps y ∨ done y)
        (setAll o owner logger key bytes expire σ ps).1 := by
  induction ps generalizing σ done with
  | nil => exact ⟨rfl, rfl, h.mono fun y hy => hy.resolve_left (by simp [Sent])⟩
  | cons p ps ih =>
    unfold setAll at hr ⊢
    split at hr
    · rename_i hself
      rw [if_pos hself]
      obtain ⟨hok, hlog, hw⟩ := ih h hr
      exact ⟨hok, hlog, hw.skip (Or.inl hself)⟩
    · rename_i hself
      rw [if_neg hself]
      cases owner with
      | none => exact (hr rfl).elim
      | some c =>
        simp only at hr ⊢
        split at hr
        · rename_i heq
          rw [if_pos heq]
          obtain ⟨hok, hlog, hw⟩ := ih h hr
          exact ⟨hok, hlog, hw.skip (Or.inr (by simp [heq]))⟩
        · rename_i heq
          rw [if_neg heq]
          obtain ⟨hnone, hlog₁, hw₁⟩ := callPeer_writing ho (c := p) hf h
          rcases hpeer : setPeer o σ p key bytes expire with ⟨σ₁, err⟩
          rw [setPeer] at hpeer
          rw [hpeer] at hnone hlog₁ hw₁
          subst hnone
          simp only [setPeer, hpeer] at hr ⊢
          obtain ⟨hok, hlog, hw⟩ := ih hw₁ hr
          refine ⟨hok, hlog.trans hlog₁, hw.mono ?_⟩
          rintro y (hs | hdone)
          · exact (sent_cons hs).elim (fun hp => Or.inr (Or.inl ⟨hp.1, hp.2.1⟩)) Or.inl
          · exact Or.inr (Or.inr hdone)

/-- The calls of `Remove` reach every node they are made to, and collect no error. -/
theorem callAll_writing (ho : o.Reliable)
    {calls : List (Peer.Client × (Group ByteView → Group ByteView))}
    (hf : ∀ call ∈ calls, IsWrite log key call.2) (h : Writing as log key done σ) :
    (callAll o σ calls).2 = [] ∧ (callAll o σ calls).1.log = σ.log ∧
      Writing as log key
        (fun y => (∃ call ∈ calls, call.1.info.isSelf = false ∧ call.1.hashKey = y) ∨ done y)
        (callAll o σ calls).1 := by
  induction calls generalizing σ done with
  | nil => exact ⟨rfl, rfl, h.mono fun y hy => hy.resolve_left (by simp)⟩
  | cons call calls ih =>
    obtain ⟨c, f⟩ := call
    obtain ⟨hnone, hlog₁, hw₁⟩ := callPeer_writing ho (c := c) (hf (c, f) List.mem_cons_self) h
    obtain ⟨herrs, hlog, hw⟩ := ih (fun call hc => hf call (List.mem_cons_of_mem _ hc)) hw₁
    refine ⟨by simp [callAll, hnone, herrs], hlog.trans hlog₁, hw.mono ?_⟩
    rintro y (⟨call, hmem, hcall⟩ | hdone)
    · rcases List.mem_cons.mp hmem with rfl | hmem
      · exact Or.inr (Or.inl hcall)
      · exact Or.inl ⟨call, hmem, hcall⟩
    · exact Or.inr (Or.inr hdone)

/-- The owner is called exactly if it is another node. -/
theorem callOwner_cases (hknows : Knows as x (site x).inst) (key : GoString)
    (call : Peer.Client → Cluster × Option Err) :
    (∀ y, ((site x).inst.pickPeer key).1.map (·.hashKey) = some y → y = x) ∧
      callOwner σ ((site x).inst.pickPeer key) call = (σ, none) ∨
    ∃ c, ((site x).inst.pickPeer key).1 = some c ∧ c.info.isSelf = false ∧ c.hashKey ≠ x ∧
      callOwner σ ((site x).inst.pickPeer key) call = call c := by
  rcases hknows.pick key with hpick | ⟨c, hpick, _, hself⟩
  · rw [hpick]
    exact Or.inl ⟨by simp, rfl⟩
  · rw [hpick]
    cases hc : c.info.isSelf with
    | true => exact Or.inl ⟨fun y hy => (Option.some.inj hy).symm.trans (hself.mp hc), rfl⟩
    | false => exact Or.inr ⟨c, rfl, hc, by simpa [hc] using hself, rfl⟩

/-- A remote owner is called first. -/
theorem callOwner_writing (ho : o.Reliable) (hf : IsWrite log key f)
    (hknows : Knows as x (site x).inst) (h : Writing as log key done σ) :
    (callOwner σ ((site x).inst.pickPeer key) fun c => callPeer o σ c f).2 = none ∧
      (callOwner σ ((site x).inst.pickPeer key) fun c => callPeer o σ c f).1.log = σ.log ∧
      Writing as log key
        (fun y => (y ≠ x ∧ ((site x).inst.pickPeer key).1.map (·.hashKey) = some y) ∨ done y)
        (callOwner σ ((site x).inst.pickPeer key) fun c => callPeer o σ c f).1 := by
  rcases callOwner_cases (σ := σ) hknows key fun c => callPeer o σ c f with
    ⟨hlocal, heq⟩ | ⟨c, hpick, hself, _, heq⟩
  · rw [heq]
    exact ⟨rfl, rfl, h.mono fun y hy => hy.resolve_left fun hy => hy.1 (hlocal y hy.2)⟩
  · rw [heq, hpick]
    obtain ⟨hnone, hlog, hw⟩ := callPeer_writing ho (c := c) hf h
    exact ⟨hnone, hlog, hw.mono fun y hy => hy.imp (fun hy => ⟨hself, Option.some.inj hy.2⟩) id⟩

theorem writing_of_coherent (h : Coherent as σ) (he : ∀ k, e.Writes k → k = key) :
    Writing as (σ.log ++ [e]) key (fun _ => False) σ :=
  ⟨h.positive, fun _ _ => False.elim,
    fun x hx k v hk hv => fresh_append (h.fresh x hx k v hv) fun hw => hk (he k hw)⟩

/-- Once every member is up to date, the write is over. -/
theorem coherent_of_writing (h : Writing as (σ.log ++ [e]) key done σ') (hlog : σ'.log = σ.log)
    (hdone : ∀ y ∈ as, done y) : Coherent as { σ' with log := σ'.log ++ [e] } :=
  ⟨h.positive, fun y hy k v hv => hlog ▸ h.fresh y hy (hdone y hy) k v hv⟩

/-- The history after a call: a write that returned nil is recorded. -/
def record (e : Event) (r : Cluster × Result) : Cluster :=
  match r.2 with
  | .ok => { r.1 with log := r.1.log ++ [e] }
  | _ => r.1

theorem set_coherent (ho : o.Reliable) (hknows : Knows as x (site x).inst) (h : Coherent as σ)
    (hx : x ∈ as) {bytes : Option GoString} {expire : Time}
    (hr : (set site o σ x key bytes expire).2 ≠ .panic) :
    Coherent as (record (.set key (bytes.getD [])) (set site o σ x key bytes expire)) := by
  unfold set at hr ⊢
  split at hr
  · rename_i hk
    rw [if_pos hk]
    exact h
  · rename_i hk
    have hmax := h.positive x hx
    rw [if_neg hk, if_neg (by omega)]
    rw [if_neg (by omega)] at hr
    have hfresh : ∀ v : ByteView, v.bytes = bytes.getD [] →
        Fresh (σ.log ++ [.set key (bytes.getD [])]) key v.bytes :=
      fun v hv => fresh_last (Or.inl (by rw [hv]))
    have hremote := isWrite_remoteSet (hfresh (received bytes expire) (by simp [received]))
    have hlocal := isWrite_update (hfresh (.withExpire bytes expire) (by simp))
    obtain ⟨hnone, hlog₁, hw₁⟩ := callOwner_writing ho hremote hknows
      (writing_of_coherent h fun k hw => hw.symm)
    simp only [setPeer] at hr ⊢
    rcases hown : callOwner σ ((site x).inst.pickPeer key) _ with ⟨σ₁, err⟩
    rw [hown] at hr hnone hlog₁ hw₁
    subst hnone
    obtain ⟨hok, hlog, hw⟩ := setAll_writing ho hremote (hw₁.modify (x := x) hlocal).next hr
    rw [record, hok]
    refine coherent_of_writing hw (hlog.trans hlog₁) fun y hy => ?_
    by_cases hyx : y = x
    · exact Or.inr (Or.inl hyx)
    · obtain ⟨c, hc, hcy, hself⟩ := hknows.exists_remote hy hyx
      by_cases howner : ((site x).inst.pickPeer key).1.map (·.hashKey) = some y
      · exact Or.inr (Or.inr (Or.inl ⟨hyx, howner⟩))
      · exact Or.inl ⟨c, ((o.peers _).perm _).mem_iff.mpr hc, hself, hcy, howner⟩

theorem remove_coherent (ho : o.Reliable) (hknows : Knows as x (site x).inst) (h : Coherent as σ) :
    Coherent as (record (.remove key) (remove site o σ x key)) := by
  obtain ⟨hnone, hlog₁, hw₁⟩ := callOwner_writing ho (isWrite_localRemove) hknows
    (writing_of_coherent (e := .remove key) h fun k hw => hw.symm)
  unfold remove
  simp only [removeFromPeer]
  rcases hown : callOwner σ ((site x).inst.pickPeer key) _ with ⟨σ₁, err⟩
  rw [hown] at hnone hlog₁ hw₁
  subst hnone
  simp only
  generalize hcalls : List.map _ (List.filter _ _) = calls
  have hisWrite : ∀ call ∈ calls, IsWrite (σ.log ++ [.remove key]) key call.2 := by
    intro call hcall
    obtain ⟨c, _, rfl⟩ := List.mem_map.mp (hcalls ▸ hcall)
    exact isWrite_localRemove
  obtain ⟨herrs, hlog, hw⟩ := callAll_writing ho hisWrite
    (hw₁.modify (x := x) isWrite_localRemove).next
  rw [record, herrs]
  refine coherent_of_writing hw (hlog.trans hlog₁) fun y hy => ?_
  by_cases hyx : y = x
  · exact Or.inr (Or.inl hyx)
  · obtain ⟨c, hc, hcy, hself⟩ := hknows.exists_remote hy hyx
    by_cases howner : some c = ((site x).inst.pickPeer key).1
    · exact Or.inr (Or.inr (Or.inl ⟨hyx, by rw [← howner, Option.map_some, hcy]⟩))
    · refine Or.inl ⟨(c, fun g => g.localRemove key), ?_, hself, hcy⟩
      rw [← hcalls]
      refine List.mem_map_of_mem (List.mem_filter.mpr ⟨?_, by simpa using howner⟩)
      exact ((o.peers _).perm _).mem_iff.mpr hc

end Cluster

/-- A call that a client makes at a node. -/
inductive Op
  | get (key : GoString) (dest : Option Sink)
  | set (key : GoString) (value : Option GoString) (expire : Time)
  | remove (key : GoString)

structure Call where
  node : GoString
  op : Op
  result : Result

namespace Cluster

/-- One whole call, with the value it loads or writes recorded in the history. -/
def call (site : GoString → Site) (o : Oracle) (fuel : ℕ) (σ : Cluster) (x : GoString) :
    Op → Option (Cluster × Result)
  | .get key dest =>
    (get site o fuel σ x key dest).map fun r =>
      (r.1, match r.2 with
        | .ok v => .value v
        | .error e => .err e)
  | .set key value expire =>
    let r := set site o σ x key value expire
    some (record (.set key (value.getD [])) r, r.2)
  | .remove key =>
    let r := remove site o σ x key
    some (record (.remove key) r, r.2)

end Cluster

/-- Completed calls at members, one after the other, over a transport that does not fail. -/
def clusterLTS (as : List GoString) (site : GoString → Site) : Lib.LTS Cluster Call where
  Init σ := σ.log = [] ∧ ∀ x ∈ as, ∃ cacheBytes > 0, σ.groups x = .new cacheBytes
  Step σ c σ' := c.node ∈ as ∧ c.result ≠ .panic ∧
    ∃ o fuel, Oracle.Reliable o ∧ Cluster.call site o fuel σ c.node c.op = some (σ', c.result)

variable {as : List GoString} {site : GoString → Site} {σ σ' : Cluster} {c : Call}

theorem coherent_step (hag : Agreed as fun x => (site x).inst)
    (hs : (clusterLTS as site).Step σ c σ') (h : Coherent as σ) : Coherent as σ' := by
  obtain ⟨x, op, r⟩ := c
  obtain ⟨hx, hpanic, o, fuel, ho, hcall⟩ := hs
  simp only at hx hpanic hcall
  have hknows : ∀ x ∈ as, Knows as x (site x).inst := fun x hx => hag.knows hx
  cases op with
  | get key dest =>
    obtain ⟨⟨σ₁, r₁⟩, hget, heq⟩ := Option.map_eq_some_iff.mp hcall
    cases heq
    exact (Cluster.get_good hknows fuel h hx hget).1
  | set key value expire =>
    obtain ⟨rfl, hr⟩ := Prod.mk.inj (Option.some.inj hcall)
    exact Cluster.set_coherent ho (hknows x hx) h hx (hr ▸ hpanic)
  | remove key =>
    obtain ⟨rfl, _⟩ := Prod.mk.inj (Option.some.inj hcall)
    exact Cluster.remove_coherent ho (hknows x hx) h

theorem coherent_reachable (hag : Agreed as fun x => (site x).inst) {cs : List Call}
    (h : (clusterLTS as site).Run cs σ) : Coherent as σ := by
  refine h.invariant (I := fun _ σ => Coherent as σ) ?_ ?_
  · rintro σ ⟨_, hnew⟩
    refine ⟨fun x hx => ?_, fun x hx k v hv => ?_⟩
    · obtain ⟨n, hn, heq⟩ := hnew x hx
      rw [heq]
      exact hn
    · obtain ⟨n, _, heq⟩ := hnew x hx
      rw [heq] at hv
      exact (Group.not_holds_new n hv).elim
  · exact fun _ σ c σ' _ h hs => coherent_step hag hs h

/-- The state a cluster of new groups starts in. -/
def Cluster.start (cacheBytes : ℤ) : Cluster :=
  { groups := fun _ => .new cacheBytes, tick := 0, log := [] }

/-- Every copy at every member is fresh in every state that calls can lead to, and so is the value
of every `Get` made there. -/
theorem cluster_coherent (hag : Agreed as fun x => (site x).inst) {cs : List Call}
    (h : (clusterLTS as site).Run cs σ) :
    (∀ x ∈ as, ∀ k v, (σ.groups x).Holds k v → Fresh σ.log k v.bytes) ∧
    ∀ x key dest v σ', (clusterLTS as site).Step σ ⟨x, .get key dest, .value v⟩ σ' →
      Fresh σ'.log key v.bytes := by
  have hcoh := coherent_reachable hag h
  refine ⟨hcoh.fresh, ?_⟩
  rintro x key dest v σ' ⟨hx, _, o, fuel, _, hcall⟩
  obtain ⟨⟨σ₁, r⟩, hget, heq⟩ := Option.map_eq_some_iff.mp hcall
  cases r with
  | error e => cases heq
  | ok w =>
    cases heq
    exact (Cluster.get_good (fun x hx => hag.knows hx) fuel hcoh hx hget).2 _ rfl

/-- Peer calls succeed, and the Getter returns its key. -/
def hostOracle : Oracle where
  clock _ := .zero
  getter _ _ key := .ok (.withExpire (some key) .zero)
  ctxDone _ := false
  fault _ := none
  peers _ := ⟨id, fun l => .refl l⟩
  requests _ := ⟨id, fun l => .refl l⟩

def hostSite (x : GoString) : Site := { inst := hostInst x, logger := true }

/-- A value set at one member and read at the other. -/
theorem cluster_coherent_hosts : ∃ σ σ',
    (clusterLTS [hostB, hostA] hostSite).Run [⟨hostA, .set [7] (some [1]) .zero, .ok⟩] σ ∧
    (clusterLTS [hostB, hostA] hostSite).Step σ
      ⟨hostB, .get [7] (some .allocating), .value (.withExpire (some [1]) .zero)⟩ σ' ∧
    Fresh σ'.log [7] [1] := by
  let r := Cluster.set hostSite hostOracle (.start 1000) hostA [7] (some [1]) .zero
  have hset : r.2 = .ok := Result.eq_ok (by decide +kernel)
  have hrun : (clusterLTS [hostB, hostA] hostSite).Run
      [⟨hostA, .set [7] (some [1]) .zero, .ok⟩] (Cluster.record (.set [7] [1]) r) := by
    have hinit : (clusterLTS [hostB, hostA] hostSite).Init (.start 1000) :=
      ⟨rfl, fun x _ => ⟨1000, by decide, rfl⟩⟩
    refine Lib.LTS.Run.step (.init hinit) ⟨by decide, by simp, hostOracle, 0, fun _ => rfl, ?_⟩
    rw [← hset]
    simp only [Cluster.call, Option.getD_some, r]
  have hget : (Cluster.get hostSite hostOracle 2 (Cluster.record (.set [7] [1]) r) hostB [7]
      (some .allocating)).map (fun r => r.2.toOption) =
        some (some (.withExpire (some [1]) .zero)) := by
    decide +kernel
  obtain ⟨⟨σ', res⟩, hget, hres⟩ := Option.map_eq_some_iff.mp hget
  cases res with
  | error e => cases hres
  | ok v =>
    obtain rfl : v = .withExpire (some [1]) .zero := Option.some.inj hres
    have hstep : (clusterLTS [hostB, hostA] hostSite).Step (Cluster.record (.set [7] [1]) r)
        ⟨hostB, .get [7] (some .allocating), .value (.withExpire (some [1]) .zero)⟩ σ' := by
      refine ⟨by decide, by simp, hostOracle, 2, fun _ => rfl, ?_⟩
      simp [Cluster.call, hget]
    exact ⟨_, σ', hrun, hstep, (cluster_coherent hostInst_agreed hrun).2 _ _ _ _ _ hstep⟩

section Returns

variable {o : Oracle} {x y key : GoString}

theorem Cluster.loadMiss_isSome {serve : Cluster → GoString → Cluster.Served}
    (h : ∀ y, Forwards (fun x => (site x).inst) key x y → ∀ σ, (serve σ y).isSome) :
    (loadMiss site o serve σ x key).isSome := by
  unfold loadMiss
  split
  · rename_i c hpick
    have hs := h c.hashKey ⟨c, hpick, rfl⟩ σ.next
    obtain ⟨⟨σ₁, r⟩, hserve⟩ := Option.isSome_iff_exists.mp hs
    have hpeer : (getFromPeer o serve σ x c key).isSome := by
      unfold getFromPeer
      rw [hserve]
      split
      · split <;> rfl
      · cases r <;> rfl
    split
    · rename_i hnone
      simp [hnone] at hpeer
    · rfl
    · unfold afterPeerError
      split
      · rfl
      · simp only
        split <;> rfl
  · rfl

theorem Cluster.get_succ_isSome {fuel : ℕ} {dest : Option Sink}
    (h : ∀ y, Forwards (fun x => (site x).inst) key x y →
      ∀ σ dest, (get site o fuel σ y key dest).isSome) :
    (get site o (fuel + 1) σ x key dest).isSome := by
  unfold get
  split
  · rfl
  · split
    · rfl
    · rename_i σ₁ _
      have hload : (load site o (fun σ y => get site o fuel σ y key (some .allocating))
          σ₁ x key).isSome := by
        unfold load
        split
        · rfl
        · exact loadMiss_isSome fun y hy σ => h y hy σ _
      split
      · rename_i hnone
        simp [hnone] at hload
      · rfl
      · rfl

/-- `Get` returns once it has fuel for the hops from the node to one that is local. -/
theorem Cluster.get_isSome
    (hwalk : Relation.ReflTransGen (Forwards (fun x => (site x).inst) key) x y)
    (hlocal : ((site y).inst.pickPeer key).2 = false) :
    ∃ fuel, ∀ σ dest, (get site o fuel σ x key dest).isSome := by
  induction hwalk using Relation.ReflTransGen.head_induction_on with
  | refl =>
    refine ⟨1, fun σ dest => get_succ_isSome ?_⟩
    rintro z ⟨c, hpick, _⟩
    simp [hpick] at hlocal
  | @head x z hxz _ ih =>
    obtain ⟨fuel, hfuel⟩ := ih
    refine ⟨fuel + 1, fun σ dest => get_succ_isSome ?_⟩
    rintro w ⟨c, hpick, rfl⟩
    obtain ⟨c', hpick', rfl⟩ := hxz
    obtain rfl : c = c' := by simpa [hpick] using hpick'
    exact hfuel

/-- With rings of which no two members share a point, every `Get` returns. -/
theorem get_returns {hashFn : Peer.HashFn} {replicas : ℤ} {nodes : GoString → Prop}
    {lists : GoString → List Peer.Info}
    (hv : Views hashFn replicas nodes lists fun x => (site x).inst) (hr : 0 < replicas)
    (hs : Peer.NoSharedPoint hashFn replicas nodes) (hx : nodes x) (key : GoString) (o : Oracle) :
    ∃ fuel, ∀ σ dest, (Cluster.get site o fuel σ x key dest).isSome := by
  obtain ⟨y, hwalk, hlocal⟩ := exists_local hv hr hs hx key
  exact Cluster.get_isSome hwalk hlocal

end Returns

end Groupcache
