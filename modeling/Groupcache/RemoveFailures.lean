import Groupcache.MemoryBound
import Groupcache.PeerFailures

/-! `Remove` when calls of peers fail: what it returns, whom it has called and which nodes still
hold the key, for every peer list, every pattern of failures and every order of the reports. -/
namespace Groupcache

open Transport Peer

namespace Group

variable {V : Type} [CacheValue V] {g g' : Group V} {k : GoString}

/-- A group that does not cache has nothing in its caches. -/
def OffIsEmpty (g : Group V) : Prop := g.maxCacheBytes ≤ 0 → ∀ k v, ¬g.Holds k v

theorem offIsEmpty_new (n : ℤ) : (new n : Group V).OffIsEmpty := fun _ _ _ => not_holds_new n

theorem Act.offIsEmpty (h : Act g g') (hoff : g.OffIsEmpty) : g'.OffIsEmpty := by
  intro hmax k v
  have hmax' : g.maxCacheBytes ≤ 0 := h.limits.1 ▸ hmax
  cases h with
  | count c n => exact hoff hmax' k v
  | _ => omega

theorem Moves.offIsEmpty (h : g.Moves g') (hoff : g.OffIsEmpty) : g'.OffIsEmpty := by
  induction h with
  | refl => exact hoff
  | tail _ hact ih => exact hact.offIsEmpty ih

theorem not_holds_localRemove (hoff : g.OffIsEmpty) (v : V) : ¬(g.localRemove k).Holds k v := by
  intro hholds
  rcases lt_or_ge 0 g.maxCacheBytes with hmax | hmax
  · exact (holds_localRemove hmax hholds).1 rfl
  · exact moves_localRemove.offIsEmpty hoff (by simpa using hmax) k v hholds

end Group

namespace Cluster

variable {site : GoString → Site} {o : Oracle} {σ σ' : Cluster} {x y key : GoString}
  {peers : List Info} {ps : List Client}

/-- What the goroutines of `Remove` report, each with the peer it has called. -/
def reports (o : Oracle) (key : GoString) :
    Cluster → List Client → Cluster × List (Client × Option Err)
  | σ, [] => (σ, [])
  | σ, p :: ps =>
    let r := removeFromPeer o σ p key
    let rs := reports o key r.1 ps
    (rs.1, (p, r.2) :: rs.2)

/-- The loop over the channel collects the errors of the reports. -/
theorem callAll_eq_reports : callAll o σ (ps.map fun p => (p, fun g => g.localRemove key)) =
    ((reports o key σ ps).1, (reports o key σ ps).2.filterMap (·.2)) := by
  induction ps generalizing σ with
  | nil => rfl
  | cons p ps ih =>
    rw [List.map_cons, callAll, ih, reports]
    cases hp : (removeFromPeer o σ p key).2 <;>
      simp only [removeFromPeer] at hp ⊢ <;> simp [hp]

/-- Nobody holds the key any more at the node. -/
def Gone (σ : Cluster) (key y : GoString) : Prop := ∀ v, ¬(σ.groups y).Holds key v

def OffIsEmpty (σ : Cluster) : Prop := ∀ y, (σ.groups y).OffIsEmpty

theorem Moves.offIsEmpty (h : σ.Moves σ') (hoff : σ.OffIsEmpty) : σ'.OffIsEmpty :=
  fun y => (h y).offIsEmpty (hoff y)

theorem offIsEmpty_start (n : ℤ) : (start n).OffIsEmpty := fun _ => Group.offIsEmpty_new n

theorem gone_modify_self (hoff : σ.OffIsEmpty) :
    (σ.modify x fun g => g.localRemove key).Gone key x := by
  intro v
  simpa [modify] using Group.not_holds_localRemove (hoff x) v

theorem Gone.modify (h : σ.Gone key y) (hoff : σ.OffIsEmpty) :
    (σ.modify x fun g => g.localRemove key).Gone key y := by
  by_cases hyx : y = x
  · subst hyx
    exact gone_modify_self hoff
  · intro v
    simpa [Cluster.modify, hyx] using h v

theorem removeFromPeer_moves (c : Client) : σ.Moves (removeFromPeer o σ c key).1 :=
  callPeer_moves fun _ => Group.moves_localRemove

theorem Gone.removeFromPeer (h : σ.Gone key y) (hoff : σ.OffIsEmpty) (c : Client) :
    (removeFromPeer o σ c key).1.Gone key y := by
  have hnext : σ.next.Gone key y := h
  have hsent : (σ.next.modify c.hashKey fun g => g.localRemove key).Gone key y :=
    hnext.modify hoff
  unfold Cluster.removeFromPeer callPeer
  split
  · exact h
  · split
    · exact hsent
    · split
      · exact hsent
      · exact hnext

/-- A call that returns nil has removed the key, unless it is a `NoOpClient`'s. -/
theorem gone_of_removeFromPeer (hoff : σ.OffIsEmpty) {c : Client} (hself : c.info.isSelf = false)
    (h : (removeFromPeer o σ c key).2 = none) :
    (removeFromPeer o σ c key).1.Gone key c.hashKey := by
  unfold removeFromPeer callPeer at h ⊢
  rw [if_neg (by simp [hself])] at h ⊢
  cases hfault : o.fault σ.tick with
  | some f => simp [hfault] at h
  | none => exact gone_modify_self (σ := σ.next) hoff

theorem Gone.reports (h : σ.Gone key y) (hoff : σ.OffIsEmpty) (ps : List Client) :
    (reports o key σ ps).1.Gone key y := by
  induction ps generalizing σ with
  | nil => exact h
  | cons p ps ih =>
    exact ih (h.removeFromPeer hoff p) ((removeFromPeer_moves p).offIsEmpty hoff)

theorem gone_of_reports (hoff : σ.OffIsEmpty) {p : Client} (hp : p ∈ ps)
    (hself : p.info.isSelf = false) (h : ∀ q ∈ (reports o key σ ps).2, q.2 = none) :
    (reports o key σ ps).1.Gone key p.hashKey := by
  induction ps generalizing σ with
  | nil => cases hp
  | cons p' ps ih =>
    have hoff' : (removeFromPeer o σ p' key).1.OffIsEmpty :=
      (removeFromPeer_moves p').offIsEmpty hoff
    have hrest : ∀ q ∈ (reports o key (removeFromPeer o σ p' key).1 ps).2, q.2 = none :=
      fun q hq => h q (List.mem_cons_of_mem _ hq)
    rcases List.mem_cons.mp hp with rfl | hp
    · have hgone := gone_of_removeFromPeer hoff hself (h _ List.mem_cons_self)
      exact hgone.reports hoff' ps
    · exact ih hoff' hp hrest

/-- The owner has been called, if it is remote, and the key has left the local caches. -/
def cleared (o : Oracle) (σ : Cluster) (x key : GoString) (pick : Option Client × Bool) : Cluster :=
  ((callOwner σ pick fun c => removeFromPeer o σ c key).1.modify x fun g => g.localRemove key).next

/-- The peers that are called after that, in the order of their reports. -/
def notOwner (o : Oracle) (σ : Cluster) (x key : GoString) (inst : Instance) : List Client :=
  ((o.peers ((callOwner σ (inst.pickPeer key) fun c => removeFromPeer o σ c key).1.modify x
    fun g => g.localRemove key).tick).order inst.getAllPeers).filter
      fun p => some p ≠ (inst.pickPeer key).1

theorem remove_eq : remove site o σ x key =
    match (callOwner σ ((site x).inst.pickPeer key) fun c => removeFromPeer o σ c key).2 with
    | some e => ((callOwner σ ((site x).inst.pickPeer key) fun c => removeFromPeer o σ c key).1,
        .err e)
    | none =>
      let r := reports o key (cleared o σ x key ((site x).inst.pickPeer key))
        (notOwner o σ x key (site x).inst)
      (r.1, ofErrors (r.2.filterMap (·.2))) := by
  unfold remove
  simp only [callAll_eq_reports]
  rcases h : callOwner σ ((site x).inst.pickPeer key) fun c => removeFromPeer o σ c key
    with ⟨σ₁, _ | e⟩ <;> simp only [cleared, notOwner, h]

theorem notOwner_perm (o : Oracle) (σ : Cluster) (x key : GoString) (inst : Instance) :
    (notOwner o σ x key inst).Perm
      (inst.getAllPeers.filter fun p => some p ≠ (inst.pickPeer key).1) :=
  ((o.peers _).perm _).filter _

/-- What `Remove` is to do: nothing more once the remote owner's call has failed; otherwise call
every other client once and collect the errors; and a nil result means that the key is gone. -/
structure RemoveSpec (peers : List Info) (o : Oracle) (σ : Cluster) (x key : GoString)
    (inst : Instance) (r : Cluster × Result) : Prop where
  owner_failed : ∀ c e, inst.pickPeer key = (some c, true) →
    (removeFromPeer o σ c key).2 = some e →
      r = ((removeFromPeer o σ c key).1, .err e) ∧ ∀ y, y ≠ c.hashKey → r.1.groups y = σ.groups y
  others_called : (∀ c, inst.pickPeer key = (some c, true) →
    (removeFromPeer o σ c key).2 = none) → ∃ called,
      called.Perm (inst.getAllPeers.filter fun p => some p ≠ (inst.pickPeer key).1) ∧
      (called.map (·.hashKey)).Nodup ∧
      r.1 = (reports o key (cleared o σ x key (inst.pickPeer key)) called).1 ∧
      (r.2 = .ok ↔
        ∀ q ∈ (reports o key (cleared o σ x key (inst.pickPeer key)) called).2, q.2 = none) ∧
      (r.2 ≠ .ok → r.2 = .err (.multi
        ((reports o key (cleared o σ x key (inst.pickPeer key)) called).2.filterMap (·.2))))
  gone : r.2 = .ok → r.1.Gone key x ∧ ∀ info ∈ peers,
    (∀ info' ∈ peers, info'.address = info.address → info'.isSelf = false) →
      r.1.Gone key info.address

theorem ofErrors_filterMap {rs : List (Client × Option Err)} :
    (ofErrors (rs.filterMap (·.2)) = .ok ↔ ∀ q ∈ rs, q.2 = none) ∧
      (ofErrors (rs.filterMap (·.2)) ≠ .ok →
        ofErrors (rs.filterMap (·.2)) = .err (.multi (rs.filterMap (·.2)))) := by
  rw [← List.filterMap_eq_nil_iff]
  cases rs.filterMap (·.2) <;> simp [ofErrors, nilOrError]

theorem callOwner_offIsEmpty (hoff : σ.OffIsEmpty) (pick : Option Client × Bool) :
    (callOwner σ pick fun c => removeFromPeer o σ c key).1.OffIsEmpty :=
  (callOwner_moves removeFromPeer_moves).offIsEmpty hoff

theorem cleared_offIsEmpty (hoff : σ.OffIsEmpty) (pick : Option Client × Bool) :
    (cleared o σ x key pick).OffIsEmpty :=
  ((moves_modify Group.moves_localRemove).trans moves_next).offIsEmpty
    (callOwner_offIsEmpty hoff pick)

/-- Once nobody has reported an error, the key is gone from every node of the list. -/
theorem gone_of_called {inst : Instance} (hlisted : Listed peers inst) (hoff : σ.OffIsEmpty)
    (howner : ∀ c, inst.pickPeer key = (some c, true) → (removeFromPeer o σ c key).2 = none)
    (hreports : ∀ q ∈ (reports o key (cleared o σ x key (inst.pickPeer key))
      (notOwner o σ x key inst)).2, q.2 = none) {info : Info} (hinfo : info ∈ peers)
    (hother : ∀ info' ∈ peers, info'.address = info.address → info'.isSelf = false) :
    (reports o key (cleared o σ x key (inst.pickPeer key))
      (notOwner o σ x key inst)).1.Gone key info.address := by
  obtain ⟨c, hc, hkey⟩ := hlisted.covers info hinfo
  have hself : c.info.isSelf = false := hother _ (hlisted.all c hc) hkey
  have hoff' : (cleared o σ x key (inst.pickPeer key)).OffIsEmpty := cleared_offIsEmpty hoff _
  rw [← hkey]
  by_cases hown : some c = (inst.pickPeer key).1
  · -- the owner is remote, and its own call comes before the local removal
    have hpick : inst.pickPeer key = (some c, true) := by
      rcases hlisted.pick key with hnone | ⟨c', hpick, _⟩
      · rw [hnone] at hown
        cases hown
      · rw [hpick] at hown ⊢
        cases hown
        rw [hself]
        rfl
    have hgone := gone_of_removeFromPeer hoff hself (howner c hpick)
    have hcleared : (cleared o σ x key (inst.pickPeer key)).Gone key c.hashKey := by
      rw [hpick]
      exact hgone.modify (callOwner_offIsEmpty hoff (some c, true))
    exact hcleared.reports hoff' _
  · refine gone_of_reports hoff' ((notOwner_perm o σ x key inst).mem_iff.mpr ?_) hself hreports
    simpa [hc] using hown

theorem callOwner_eq_none {call : Client → Cluster × Option Err} {pick : Option Client × Bool} :
    (callOwner σ pick call).2 = none ↔ ∀ c, pick = (some c, true) → (call c).2 = none := by
  rcases pick with ⟨_ | c, _ | _⟩ <;> simp [callOwner]

/-- `Remove` does what it is to do, whatever the peer list, the failures and the reports' order. -/
theorem remove_spec {hashFn : HashFn} {replicas : ℤ}
    (hinst : Installed hashFn replicas peers (site x).inst) (hoff : σ.OffIsEmpty) (o : Oracle)
    (key : GoString) :
    RemoveSpec peers o σ x key (site x).inst (remove site o σ x key) := by
  have hlisted := hinst.listed
  have hperm := notOwner_perm o σ x key (site x).inst
  rw [remove_eq]
  cases hcall : (callOwner σ ((site x).inst.pickPeer key) fun c => removeFromPeer o σ c key).2 with
  | some e =>
    refine ⟨fun c e' hpick herr => ?_, fun howner => ?_, by simp⟩
    · have howner : callOwner σ ((site x).inst.pickPeer key) (fun c => removeFromPeer o σ c key) =
          removeFromPeer o σ c key := by rw [hpick]; rfl
      rw [howner, herr] at hcall
      cases hcall
      rw [howner]
      exact ⟨rfl, fun y hy => callPeer_groups fun _ => hy.symm⟩
    · rw [callOwner_eq_none.mpr howner] at hcall
      cases hcall
  | none =>
    have howner := callOwner_eq_none.mp hcall
    refine ⟨fun c e hpick herr => ?_, fun _ => ⟨_, hperm, ?_, rfl, ofErrors_filterMap⟩,
      fun hok => ⟨?_, fun info hinfo hother => ?_⟩⟩
    · rw [howner c hpick] at herr
      cases herr
    · have hsub := (List.filter_sublist (p := fun p => some p ≠ ((site x).inst.pickPeer key).1)
        (l := (site x).inst.getAllPeers)).map (·.hashKey)
      exact (hperm.map _).nodup_iff.mpr (hsub.nodup hlisted.nodup)
    · have hlocal : (cleared o σ x key ((site x).inst.pickPeer key)).Gone key x :=
        gone_modify_self (callOwner_offIsEmpty hoff _)
      exact hlocal.reports (cleared_offIsEmpty hoff _) _
    · exact gone_of_called hlisted hoff howner (ofErrors_filterMap.1.mp hok) hinfo hother

/-- With the only other peer down, the owner's `Remove` reports that one failure. -/
theorem remove_spec_hosts : (start 1000).OffIsEmpty ∧
    RemoveSpec (memberPeers hostB [hostB, hostA]) downOracle (.start 1000) hostB [7]
      (hostSite hostB).inst (remove hostSite downOracle (.start 1000) hostB [7]) :=
  ⟨offIsEmpty_start 1000,
    remove_spec (hostInst_installed (by simp)) (offIsEmpty_start 1000) downOracle [7]⟩

end Cluster

end Groupcache
