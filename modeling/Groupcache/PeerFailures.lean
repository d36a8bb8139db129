import Groupcache.CacheRuns
import Groupcache.Coherence

/-! `Set` when calls of peers fail: what it returns, whom it has called and what it leaves in the
caller's caches, for every peer list and every pattern of failures. -/
namespace Groupcache

open Transport Peer

/-- What `SetPeers` leaves of a list: one client for each of its addresses. -/
structure Listed (peers : List Info) (inst : Instance) : Prop where
  pick : ∀ key, inst.pickPeer key = (none, false) ∨
    ∃ c, inst.pickPeer key = (some c, !c.info.isSelf) ∧ c.info ∈ peers
  all : ∀ c ∈ inst.getAllPeers, c.info ∈ peers
  nodup : (inst.getAllPeers.map (·.hashKey)).Nodup
  covers : ∀ info ∈ peers, ∃ c ∈ inst.getAllPeers, c.hashKey = info.address

theorem Installed.listed {hashFn : HashFn} {replicas : ℤ} {peers : List Info} {inst : Instance}
    (h : Installed hashFn replicas peers inst) : Listed peers inst := by
  obtain ⟨p, sort, clients, _, _, _, hmap, hinfo, hpicker, _⟩ := h.picker_eq
  refine ⟨fun key => ?_, fun c hc => ?_, ?_, fun info hinfo' => ?_⟩
  · rcases lt_or_ge 0 replicas with hr | hr
    · obtain ⟨c, _, hpick, hmem, _⟩ := h.pickPeer_first hr key
      exact Or.inr ⟨c, hpick, hmem⟩
    · exact Or.inl (h.pickPeer_empty hr key)
  · rw [Instance.getAllPeers, hpicker] at hc
    exact hinfo ▸ List.mem_map_of_mem (Picker.mem_of_mem_getAll hmap hc)
  · rw [Instance.getAllPeers, hpicker]
    exact Picker.getAll_nodup hmap clients
  · rw [← hinfo] at hinfo'
    obtain ⟨c, hc, rfl⟩ := List.mem_map.mp hinfo'
    obtain ⟨c', hc', hkey⟩ := Picker.exists_mem_getAll sort hmap hc
    exact ⟨c', by rwa [Instance.getAllPeers, hpicker], hkey⟩

def Result.isPanic : Result → Bool
  | .panic => true
  | _ => false

theorem Result.eq_panic {r : Result} (h : isPanic r = true) : r = .panic := by
  cases r <;> simp_all [isPanic]

namespace Cluster

variable {site : GoString → Site} {o : Oracle} {σ : Cluster} {x y key : GoString}
  {value : Option GoString} {expire : Time} {peers : List Info}

/-- A call of `setPeer` with the client. -/
def setCall (key : GoString) (value : Option GoString) (expire : Time) (p : Client) :
    Client × (Group ByteView → Group ByteView) :=
  (p, fun g => g.remoteSet key (received value expire))

/-- The owner's client, if the owner is remote. -/
def ownerCalls : Option Client × Bool → List Client
  | (some c, true) => [c]
  | _ => []

/-- The peers that the loop of `Set` starts a goroutine for. -/
def isTarget (owner : Option Client) (p : Client) : Bool :=
  !p.info.isSelf && owner.all fun c => decide (p.hashKey ≠ c.hashKey)

theorem callOwner_eq (pick : Option Client × Bool) :
    callOwner σ pick (fun c => setPeer o σ c key value expire) =
      ((callAll o σ ((ownerCalls pick).map (setCall key value expire))).1,
        (callAll o σ ((ownerCalls pick).map (setCall key value expire))).2.head?) := by
  have hcall : ∀ c, setPeer o σ c key value expire =
    callPeer o σ c fun g => g.remoteSet key (received value expire) := fun _ => rfl
  rcases pick with ⟨_ | c, _ | _⟩
  · rfl
  · rfl
  · rfl
  · rw [callOwner, hcall]
    rcases hp : callPeer o σ c _ with ⟨σ', _ | e⟩ <;> simp [ownerCalls, callAll, setCall, hp]

theorem setAll_skip {c p : Client} {logger : Bool} {ps : List Client}
    (h : isTarget (some c) p = false) :
    setAll o (some c) logger key value expire σ (p :: ps) =
      setAll o (some c) logger key value expire σ ps := by
  rw [setAll]
  by_cases hself : p.info.isSelf = true
  · rw [if_pos hself]
  · have hkey : p.hashKey = c.hashKey := by simpa [isTarget, hself] using h
    rw [if_neg hself]
    simp only [if_pos hkey]

theorem setAll_target {c p : Client} {logger : Bool} {ps : List Client}
    (h : isTarget (some c) p = true) :
    setAll o (some c) logger key value expire σ (p :: ps) =
      match callPeer o σ p (setCall key value expire p).2 with
      | (σ, none) => setAll o (some c) logger key value expire σ ps
      | (σ, some _) =>
        if logger then setAll o (some c) logger key value expire σ ps else (σ, .panic) := by
  obtain ⟨hself, hkey⟩ : p.info.isSelf = false ∧ ¬p.hashKey = c.hashKey := by
    simpa [isTarget] using h
  rw [setAll, if_neg (by simp [hself])]
  simp only [if_neg hkey]
  rfl

/-- With a logger, or if no call fails, the loop calls every target. -/
theorem setAll_ok (c : Client) {logger : Bool} {ps : List Client}
    (h : logger = true ∨
      (callAll o σ ((ps.filter (isTarget (some c))).map (setCall key value expire))).2 = []) :
    setAll o (some c) logger key value expire σ ps =
      ((callAll o σ ((ps.filter (isTarget (some c))).map (setCall key value expire))).1, .ok) := by
  induction ps generalizing σ with
  | nil => rfl
  | cons p ps ih =>
    cases ht : isTarget (some c) p with
    | false =>
      rw [List.filter_cons_of_neg (by simp [ht])] at h ⊢
      rw [setAll_skip ht, ih h]
    | true =>
      rw [List.filter_cons_of_pos ht, List.map_cons] at h ⊢
      rw [setAll_target ht]
      rcases hp : callPeer o σ p (setCall key value expire p).2 with ⟨σ₁, _ | e⟩
      · simp only [callAll, setCall] at h hp ⊢
        simp only [hp, Option.toList_none, List.nil_append] at h ⊢
        exact ih h
      · simp only [callAll, setCall] at h hp ⊢
        simp only [hp, Option.toList_some, List.cons_append, List.cons_ne_nil, or_false] at h ⊢
        rw [if_pos h]
        exact ih (Or.inl h)

/-- Without a logger the first failure panics. -/
theorem setAll_panic (c : Client) {ps : List Client}
    (h : (callAll o σ ((ps.filter (isTarget (some c))).map (setCall key value expire))).2 ≠ []) :
    (setAll o (some c) false key value expire σ ps).2 = .panic := by
  induction ps generalizing σ with
  | nil => exact (h rfl).elim
  | cons p ps ih =>
    cases ht : isTarget (some c) p with
    | false =>
      rw [List.filter_cons_of_neg (by simp [ht])] at h
      rw [setAll_skip ht, ih h]
    | true =>
      rw [List.filter_cons_of_pos ht, List.map_cons] at h
      rw [setAll_target ht]
      rcases hp : callPeer o σ p (setCall key value expire p).2 with ⟨σ₁, _ | e⟩
      · simp only [callAll, setCall] at h hp
        simp only [hp, Option.toList_none, List.nil_append] at h
        exact ih h
      · rfl

/-- Without an owner the loop does nothing, or panics at the first peer that is not self. -/
theorem setAll_nil_owner {logger : Bool} (ps : List Client) :
    setAll o none logger key value expire σ ps =
      (σ, if ps.all (·.info.isSelf) then .ok else .panic) := by
  induction ps with
  | nil => rfl
  | cons p ps ih =>
    rw [setAll]
    by_cases hself : p.info.isSelf = true
    · rw [if_pos hself, ih]
      simp [hself]
    · rw [if_neg hself]
      simp [hself]

/-- A call leaves alone every node that it does not lead to. -/
theorem callPeer_groups {c : Client} {f : Group ByteView → Group ByteView}
    (h : c.info.isSelf = false → c.hashKey ≠ y) :
    (callPeer o σ c f).1.groups y = σ.groups y := by
  unfold callPeer
  split
  · rfl
  · rename_i hself
    have hne := (h (by simpa using hself)).symm
    split
    · simp [modify, next, hne]
    · split
      · simp [modify, next, hne]
      · rfl

theorem callAll_groups {calls : List (Client × (Group ByteView → Group ByteView))}
    (h : ∀ call ∈ calls, call.1.info.isSelf = false → call.1.hashKey ≠ y) :
    (callAll o σ calls).1.groups y = σ.groups y := by
  induction calls generalizing σ with
  | nil => rfl
  | cons call calls ih =>
    have hfirst : (callPeer o σ call.1 call.2).1.groups y = σ.groups y :=
      callPeer_groups (h call List.mem_cons_self)
    have hrest := ih (σ := (callPeer o σ call.1 call.2).1)
      fun call hc => h call (List.mem_cons_of_mem _ hc)
    exact hrest.trans hfirst

/-- The owner has been called, if it is remote, and the local caches have been updated. -/
def updated (o : Oracle) (σ : Cluster) (x key : GoString) (value : Option GoString) (expire : Time)
    (pick : Option Client × Bool) : Cluster :=
  (callAll o σ ((ownerCalls pick).map (setCall key value expire))).1.modify x
    fun g => g.update key (.withExpire value expire)

/-- The peers that are called after that. -/
def others (o : Oracle) (σ : Cluster) (x key : GoString) (value : Option GoString) (expire : Time)
    (inst : Instance) : List Client :=
  ((o.peers (updated o σ x key value expire (inst.pickPeer key)).tick).order
    inst.getAllPeers).filter (isTarget (inst.pickPeer key).1)

theorem set_eq (hkey : key ≠ []) (hmax : 0 < (σ.groups x).maxCacheBytes) :
    set site o σ x key value expire =
      match (callAll o σ ((ownerCalls ((site x).inst.pickPeer key)).map
        (setCall key value expire))).2 with
      | e :: _ => ((callAll o σ ((ownerCalls ((site x).inst.pickPeer key)).map
          (setCall key value expire))).1, .err e)
      | [] => setAll o ((site x).inst.pickPeer key).1 (site x).logger key value expire
          (updated o σ x key value expire ((site x).inst.pickPeer key)).next
          ((o.peers (updated o σ x key value expire ((site x).inst.pickPeer key)).tick).order
            (site x).inst.getAllPeers) := by
  rw [set, if_neg hkey, if_neg (by omega)]
  simp only [callOwner_eq, updated]
  rcases (callAll o σ ((ownerCalls ((site x).inst.pickPeer key)).map
    (setCall key value expire))).2 with _ | ⟨e, es⟩ <;> rfl

/-- What `Set` is to do: an error exactly if the remote owner's call failed, which then is all that
has happened; otherwise the value is stored in the main cache alone, as far as it fits, and the
peers that are not self have been called once each. -/
structure SetSpec (peers : List Info) (o : Oracle) (σ : Cluster) (x key : GoString)
    (value : Option GoString) (expire : Time) (pick : Option Client × Bool)
    (r : Cluster × Result) : Prop where
  returns : r.2 ≠ .panic
  err_iff : (∃ e, r.2 = .err e) ↔
    (callAll o σ ((ownerCalls pick).map (setCall key value expire))).2 ≠ []
  err : ∀ e, r.2 = .err e → r.1.groups x = σ.groups x ∧
    r.1 = (callAll o σ ((ownerCalls pick).map (setCall key value expire))).1
  ok : r.2 = .ok → (r.1.groups x).hotCache.find? key = none ∧
    (r.1.groups x).mainCache.find? key =
      (if (σ.groups x).mainCache.raw.maxBytes = 0 ∨
        MutexCache.size (key, ByteView.withExpire value expire) ≤
          (σ.groups x).mainCache.raw.maxBytes
      then some (.withExpire value expire) else none) ∧
    ∃ sent, r.1 = (callAll o (updated o σ x key value expire pick).next
        (sent.map (setCall key value expire))).1 ∧
      ((ownerCalls pick ++ sent).map (·.hashKey)).Nodup ∧
      (∀ p ∈ ownerCalls pick ++ sent, p.info ∈ peers ∧ p.info.isSelf = false) ∧
      ∀ info ∈ peers, (∀ info' ∈ peers, info'.address = info.address → info'.isSelf = false) →
        ∃ p ∈ ownerCalls pick ++ sent, p.hashKey = info.address

theorem ownerCalls_listed {inst : Instance} (h : Listed peers inst) {p : Client}
    (hp : p ∈ ownerCalls (inst.pickPeer key)) :
    inst.pickPeer key = (some p, true) ∧ p.info ∈ peers ∧ p.info.isSelf = false := by
  rcases h.pick key with hnone | ⟨c, hpick, hmem⟩
  · simp [hnone, ownerCalls] at hp
  · cases hself : c.info.isSelf with
    | true => simp [hpick, hself, ownerCalls] at hp
    | false =>
      rw [hpick, hself] at hp ⊢
      obtain rfl : p = c := by simpa [ownerCalls] using hp
      exact ⟨rfl, hmem, hself⟩

theorem mem_others {inst : Instance} {p : Client} :
    p ∈ others o σ x key value expire inst ↔
      p ∈ inst.getAllPeers ∧ isTarget (inst.pickPeer key).1 p = true := by
  rw [others, List.mem_filter, ((o.peers _).perm _).mem_iff]

/-- Owner and others are distinct peers. -/
theorem nodup_called {inst : Instance} (h : Listed peers inst) :
    ((ownerCalls (inst.pickPeer key) ++ others o σ x key value expire inst).map
      (·.hashKey)).Nodup := by
  rw [List.map_append, List.nodup_append]
  refine ⟨?_, ?_, ?_⟩
  · rcases hpick : inst.pickPeer key with ⟨_ | c, _ | _⟩ <;> simp [ownerCalls]
  · have hperm := ((o.peers (updated o σ x key value expire (inst.pickPeer key)).tick).perm
      inst.getAllPeers).map (·.hashKey)
    exact (List.filter_sublist.map _).nodup (hperm.nodup_iff.mpr h.nodup)
  · intro a ha b hb
    obtain ⟨p, hp, rfl⟩ := List.mem_map.mp ha
    obtain ⟨q, hq, rfl⟩ := List.mem_map.mp hb
    have htarget := (mem_others.mp hq).2
    rw [(ownerCalls_listed h hp).1] at htarget
    intro heq
    simp [isTarget, heq] at htarget

theorem called_listed {inst : Instance} (h : Listed peers inst) {p : Client}
    (hp : p ∈ ownerCalls (inst.pickPeer key) ++ others o σ x key value expire inst) :
    p.info ∈ peers ∧ p.info.isSelf = false := by
  rcases List.mem_append.mp hp with hp | hp
  · exact (ownerCalls_listed h hp).2
  · obtain ⟨hmem, htarget⟩ := mem_others.mp hp
    exact ⟨h.all p hmem, by simp_all [isTarget]⟩

/-- Every address that is not self's is called. -/
theorem exists_called {inst : Instance} (h : Listed peers inst) {info : Info}
    (hinfo : info ∈ peers)
    (hother : ∀ info' ∈ peers, info'.address = info.address → info'.isSelf = false) :
    ∃ p ∈ ownerCalls (inst.pickPeer key) ++ others o σ x key value expire inst,
      p.hashKey = info.address := by
  obtain ⟨c, hc, hkey⟩ := h.covers info hinfo
  have hself : c.info.isSelf = false := hother _ (h.all c hc) hkey
  by_cases htarget : isTarget (inst.pickPeer key).1 c = true
  · exact ⟨c, List.mem_append_right _ (mem_others.mpr ⟨hc, htarget⟩), hkey⟩
  · -- only the owner's own address is skipped, and then the owner is remote
    rcases h.pick key with hnone | ⟨c', hpick, hmem⟩
    · simp [hnone, isTarget, hself] at htarget
    · have heq : c.hashKey = c'.hashKey := by simpa [hpick, isTarget, hself] using htarget
      have hself' := hother _ hmem (heq.symm.trans hkey)
      refine ⟨c', List.mem_append_left _ ?_, heq.symm.trans hkey⟩
      simp [hpick, hself', ownerCalls]

/-- When the loop of `Set` gets to its end: it has an owner to compare with, unless there is nobody
else, and a logger for the calls that fail. -/
def Survives (o : Oracle) (owner : Option Client) (logger : Bool) (key : GoString)
    (value : Option GoString) (expire : Time) (σ : Cluster) (ps : List Client) : Prop :=
  (owner ≠ none ∨ ∀ p ∈ ps, p.info.isSelf = true) ∧
    (logger = true ∨
      (callAll o σ ((ps.filter (isTarget owner)).map (setCall key value expire))).2 = [])

variable {owner : Option Client} {logger : Bool} {ps : List Client}

theorem setAll_of_survives (h : Survives o owner logger key value expire σ ps) :
    setAll o owner logger key value expire σ ps =
      ((callAll o σ ((ps.filter (isTarget owner)).map (setCall key value expire))).1, .ok) := by
  obtain ⟨howner, hlog⟩ := h
  cases owner with
  | none =>
    have hself := howner.resolve_left (by simp)
    have hnil : ps.filter (isTarget none) = [] := by
      rw [List.filter_eq_nil_iff]
      intro p hp
      simp [isTarget, hself p hp]
    rw [setAll_nil_owner, hnil, if_pos (by simpa using hself)]
    rfl
  | some c => exact setAll_ok c hlog

theorem setAll_of_not_survives (h : ¬Survives o owner logger key value expire σ ps) :
    (setAll o owner logger key value expire σ ps).2 = .panic := by
  cases owner with
  | none =>
    have hself : ¬∀ p ∈ ps, p.info.isSelf = true := by
      intro hself
      have hnil : ps.filter (isTarget none) = [] := by
        rw [List.filter_eq_nil_iff]
        intro p hp
        simp [isTarget, hself p hp]
      exact h ⟨Or.inr hself, Or.inr (by rw [hnil]; rfl)⟩
    rw [setAll_nil_owner, if_neg (by simpa using hself)]
  | some c =>
    have hfail := fun hlog => h ⟨Or.inl (by simp), hlog⟩
    obtain ⟨hlogger, herrs⟩ := not_or.mp hfail
    rw [Bool.eq_false_iff.mpr hlogger]
    exact setAll_panic c herrs

/-- Calls of listed peers that are not self do not touch the caller. -/
theorem callAll_setCall_groups (hown : ∀ info ∈ peers, info.address = x → info.isSelf = true)
    (hps : ∀ p ∈ ps, p.info ∈ peers ∧ p.info.isSelf = false) :
    (callAll o σ (ps.map (setCall key value expire))).1.groups x = σ.groups x := by
  apply callAll_groups
  intro call hcall _ heq
  obtain ⟨p, hp, rfl⟩ := List.mem_map.mp hcall
  obtain ⟨hmem, hself⟩ := hps p hp
  rw [hown _ hmem heq] at hself
  cases hself

theorem setSpec_of_err {pick : Option Client × Bool} {e : Err} {es : List Err}
    (hown : ∀ info ∈ peers, info.address = x → info.isSelf = true)
    (hps : ∀ p ∈ ownerCalls pick, p.info ∈ peers ∧ p.info.isSelf = false)
    (h : (callAll o σ ((ownerCalls pick).map (setCall key value expire))).2 = e :: es) :
    SetSpec peers o σ x key value expire pick
      ((callAll o σ ((ownerCalls pick).map (setCall key value expire))).1, .err e) where
  returns := by simp
  err_iff := by simp [h]
  err := fun _ _ => ⟨callAll_setCall_groups hown hps, rfl⟩
  ok := by simp

theorem setSpec_of_ok {inst : Instance} (hlisted : Listed peers inst)
    (hown : ∀ info ∈ peers, info.address = x → info.isSelf = true)
    (h : (callAll o σ ((ownerCalls (inst.pickPeer key)).map (setCall key value expire))).2 = []) :
    SetSpec peers o σ x key value expire (inst.pickPeer key)
      ((callAll o (updated o σ x key value expire (inst.pickPeer key)).next
        ((others o σ x key value expire inst).map (setCall key value expire))).1, .ok) := by
  have hcalled : ∀ p ∈ ownerCalls (inst.pickPeer key) ++ others o σ x key value expire inst,
      p.info ∈ peers ∧ p.info.isSelf = false := fun _ hp => called_listed hlisted hp
  have hgroup : (callAll o (updated o σ x key value expire (inst.pickPeer key)).next
      ((others o σ x key value expire inst).map (setCall key value expire))).1.groups x =
        (σ.groups x).update key (.withExpire value expire) := by
    rw [callAll_setCall_groups hown fun p hp => hcalled p (List.mem_append_right _ hp)]
    simp only [updated, next, modify, Function.update_self]
    rw [callAll_setCall_groups hown fun p hp => hcalled p (List.mem_append_left _ hp)]
  refine ⟨by simp, by simp [h], by simp, fun _ => ?_⟩
  simp only [hgroup]
  exact ⟨Cache.find?_remove_self, Cache.find?_add _ _ _, _, rfl, nodup_called hlisted, hcalled,
    fun _ hinfo hother => exists_called hlisted hinfo hother⟩

/-- `Set` does what it is to do, whatever the peer list and the failures, exactly if the remote
owner's call has failed or the loop over the other peers survives. -/
theorem set_spec_iff {hashFn : HashFn} {replicas : ℤ}
    (hinst : Installed hashFn replicas peers (site x).inst)
    (hown : ∀ info ∈ peers, info.address = x → info.isSelf = true) (hkey : key ≠ [])
    (hmax : 0 < (σ.groups x).maxCacheBytes) (o : Oracle) (value : Option GoString)
    (expire : Time) :
    SetSpec peers o σ x key value expire ((site x).inst.pickPeer key)
        (set site o σ x key value expire) ↔
      (callAll o σ ((ownerCalls ((site x).inst.pickPeer key)).map
        (setCall key value expire))).2 ≠ [] ∨
      Survives o ((site x).inst.pickPeer key).1 (site x).logger key value expire
        (updated o σ x key value expire ((site x).inst.pickPeer key)).next
        ((o.peers (updated o σ x key value expire ((site x).inst.pickPeer key)).tick).order
          (site x).inst.getAllPeers) := by
  have hlisted := hinst.listed
  rw [set_eq hkey hmax]
  split
  · rename_i e es herr
    rw [herr]
    refine iff_of_true ?_ (Or.inl (by simp))
    exact setSpec_of_err hown (fun p hp => (ownerCalls_listed hlisted hp).2) herr
  · rename_i herr
    rw [herr]
    simp only [ne_eq, not_true_eq_false, false_or]
    constructor
    · intro hspec
      by_contra hnot
      exact hspec.returns (setAll_of_not_survives hnot)
    · intro hsurvives
      rw [setAll_of_survives hsurvives]
      exact setSpec_of_ok hlisted hown herr

/-- Every call of a peer fails. -/
def downOracle : Oracle :=
  { hostOracle with fault := fun _ => some ⟨.other "connection refused", false⟩ }

/-- With a logger, the owner's `Set` is not disturbed by a peer that is down. -/
theorem set_spec_hosts : ([7] : GoString) ≠ [] ∧
    SetSpec (memberPeers hostB [hostB, hostA]) downOracle (.start 1000) hostB [7] (some [1]) .zero
      ((hostSite hostB).inst.pickPeer [7])
      (set hostSite downOracle (.start 1000) hostB [7] (some [1]) .zero) := by
  have howner : ((hostSite hostB).inst.pickPeer [7]).1.isSome = true := by decide +kernel
  refine ⟨by decide, (set_spec_iff (hostInst_installed (by simp)) ?_ (by decide) (by decide)
    downOracle (some [1]) .zero).mpr (Or.inr ⟨Or.inl ?_, Or.inl rfl⟩)⟩
  · intro info hinfo haddr
    obtain ⟨a, _, rfl⟩ := List.mem_map.mp hinfo
    simpa using haddr
  · exact Option.isSome_iff_ne_none.mp howner

/-- Without one, which is what `New` leaves when no `Logger` is given, the process panics. -/
theorem set_panics : (set (fun x => { inst := hostInst x, logger := false }) downOracle
    (.start 1000) hostB [7] (some [1]) .zero).2 = .panic :=
  Result.eq_panic (by decide +kernel)

end Cluster

end Groupcache
