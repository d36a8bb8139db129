import Mathlib.Logic.Relation
import Mathlib.Tactic.IntervalCases
import Groupcache.CacheRuns
import Groupcache.Coherence

/-! How much a group stores: no call changes the limits of its caches, and `UsedBytes` stays within
`cacheBytes` exactly for the budgets that leave both caches a limit. -/
namespace Groupcache

open Transport Peer

namespace Cache

variable {V : Type} [CacheValue V] {c : Cache V} {k : GoString} {v : V} {now : Time}

@[simp] theorem add_maxBytes : (c.add k v).raw.maxBytes = c.raw.maxBytes := by
  obtain ⟨m, hadd, _, hmax, _⟩ := MutexCache.add_spec (k := k) (v := v) c.wf
  simpa [add, hadd] using hmax

@[simp] theorem get_maxBytes : (c.get now k).1.raw.maxBytes = c.raw.maxBytes :=
  (MutexCache.get_placed c.wf).2

@[simp] theorem remove_maxBytes : (c.remove k).raw.maxBytes = c.raw.maxBytes :=
  (MutexCache.remove_placed c.wf).2

end Cache

namespace Group

variable {V : Type} [CacheValue V] {g g' : Group V} {k : GoString} {v : V} {now now' : Time}

/-- `ResetCacheSize` with the default `CacheFactory`. -/
def resetCacheSize (g : Group V) (maxBytes : ℤ) : Group V :=
  { g with
    maxCacheBytes := maxBytes
    mainCache := .new (mainBytes maxBytes) (mainBytes_nonneg maxBytes)
    hotCache := .new (hotBytes maxBytes) (hotBytes_nonneg maxBytes) }

def usedBytes (g : Group V) : ℤ × ℤ := (g.mainCache.raw.bytes, g.hotCache.raw.bytes)

/-- One change to a group: a counter, or a cache of a group that is not disabled. -/
inductive Act : Group V → Group V → Prop
  | count {g : Group V} (c : Counter) (n : ℤ) : Act g (g.count c n)
  | lookupMain {g : Group V} (h : 0 < g.maxCacheBytes) (now : Time) (k : GoString) :
      Act g (g.lookupMain now k).1
  | lookupHot {g : Group V} (h : 0 < g.maxCacheBytes) (now : Time) (k : GoString) :
      Act g (g.lookupHot now k).1
  | addMain {g : Group V} (h : 0 < g.maxCacheBytes) (k : GoString) (v : V) :
      Act g { g with mainCache := g.mainCache.add k v }
  | addHot {g : Group V} (h : 0 < g.maxCacheBytes) (k : GoString) (v : V) :
      Act g { g with hotCache := g.hotCache.add k v }
  | removeMain {g : Group V} (h : 0 < g.maxCacheBytes) (k : GoString) :
      Act g { g with mainCache := g.mainCache.remove k }
  | removeHot {g : Group V} (h : 0 < g.maxCacheBytes) (k : GoString) :
      Act g { g with hotCache := g.hotCache.remove k }

/-- What a sequence of such changes leads to. -/
def Moves : Group V → Group V → Prop := Relation.ReflTransGen Act

theorem Moves.refl (g : Group V) : g.Moves g := Relation.ReflTransGen.refl

theorem Act.moves (h : Act g g') : g.Moves g' := Relation.ReflTransGen.single h

theorem moves_lookupCache : g.Moves (g.lookupCache now now' k).1 := by
  unfold lookupCache
  split
  · exact .refl g
  · have hmain : Act g (g.lookupMain now k).1 := .lookupMain (by omega) now k
    split
    · exact hmain.moves
    · exact hmain.moves.tail (.lookupHot (by simpa [lookupMain] using by omega) now' k)

theorem moves_populateMain : g.Moves (g.populateMain k v) := by
  unfold populateMain
  split
  · exact .refl g
  · exact (Act.addMain (by omega) k v).moves

theorem moves_populateHot : g.Moves (g.populateHot k v) := by
  unfold populateHot
  split
  · exact .refl g
  · exact (Act.addHot (by omega) k v).moves

theorem moves_update (h : 0 < g.maxCacheBytes) : g.Moves (g.update k v) :=
  (Act.addMain h k v).moves.tail
    (.removeHot (g := { g with mainCache := g.mainCache.add k v }) h k)

theorem moves_remoteSet : g.Moves (g.remoteSet k v) := by
  unfold remoteSet
  split
  · exact .refl g
  · exact moves_update (by omega)

theorem moves_localRemove : g.Moves (g.localRemove k) := by
  unfold localRemove
  split
  · exact .refl g
  · rename_i h
    have hpos : 0 < g.maxCacheBytes := by omega
    exact (Act.removeHot hpos k).moves.tail
      (.removeMain (g := { g with hotCache := g.hotCache.remove k }) hpos k)

/-- A change leaves the limits alone, and a disabled group's caches too. -/
theorem Act.limits (h : Act g g') : g'.maxCacheBytes = g.maxCacheBytes ∧
    g'.mainCache.raw.maxBytes = g.mainCache.raw.maxBytes ∧
    g'.hotCache.raw.maxBytes = g.hotCache.raw.maxBytes ∧
    (g.maxCacheBytes ≤ 0 → g'.usedBytes = g.usedBytes) := by
  cases h <;> simp [Group.count, Group.lookupMain, Group.lookupHot, usedBytes] <;> omega

theorem Moves.limits (h : g.Moves g') : g'.maxCacheBytes = g.maxCacheBytes ∧
    g'.mainCache.raw.maxBytes = g.mainCache.raw.maxBytes ∧
    g'.hotCache.raw.maxBytes = g.hotCache.raw.maxBytes ∧
    (g.maxCacheBytes ≤ 0 → g'.usedBytes = g.usedBytes) := by
  induction h with
  | refl => exact ⟨rfl, rfl, rfl, fun _ => rfl⟩
  | tail _ hact ih =>
    obtain ⟨hmax, hmain, hhot, hused⟩ := hact.limits
    exact ⟨hmax.trans ih.1, hmain.trans ih.2.1, hhot.trans ih.2.2.1,
      fun h => (hused (ih.1 ▸ h)).trans (ih.2.2.2 h)⟩

end Group

namespace Cluster

variable {site : GoString → Site} {o : Oracle} {σ σ' σ'' : Cluster} {x key : GoString}
  {f : Group ByteView → Group ByteView}

/-- Every group has only been changed by the code's own operations on it. -/
def Moves (σ σ' : Cluster) : Prop := ∀ y, (σ.groups y).Moves (σ'.groups y)

theorem Moves.refl (σ : Cluster) : σ.Moves σ := fun y => .refl (σ.groups y)

theorem Moves.trans (h : σ.Moves σ') (h' : σ'.Moves σ'') : σ.Moves σ'' :=
  fun y => Relation.ReflTransGen.trans (h y) (h' y)

theorem moves_next : σ.Moves σ.next := .refl σ

theorem moves_modify (h : (σ.groups x).Moves (f (σ.groups x))) : σ.Moves (σ.modify x f) := by
  intro y
  by_cases hy : y = x
  · subst hy
    simpa [modify] using h
  · simpa [modify, hy] using .refl _

theorem moves_bump (c : Counter) : σ.Moves (σ.bump x c) :=
  moves_modify (Group.Act.count c 1).moves

theorem moves_lookupCache : σ.Moves (lookupCache o σ x key).1 := by
  refine Moves.trans ?_ (moves_next.trans moves_next)
  exact moves_modify Group.moves_lookupCache

/-- A way of serving a peer's `Get` that changes groups by their own operations only. -/
def ServesMoves (serve : Cluster → GoString → Served) : Prop :=
  ∀ σ y σ' r, serve σ y = some (σ', r) → σ.Moves σ'

theorem getFromPeer_moves {serve : Cluster → GoString → Served} {c : Peer.Client}
    {r : Except Err ByteView} (hs : ServesMoves serve)
    (h : getFromPeer o serve σ x c key = some (σ', r)) : σ.Moves σ' := by
  unfold getFromPeer at h
  split at h
  · split at h
    · obtain ⟨⟨σ₁, r₁⟩, hserve, heq⟩ := Option.map_eq_some_iff.mp h
      cases heq
      exact moves_next.trans (hs _ _ _ _ hserve)
    · cases h
      exact moves_next
  · split at h
    · cases h
    · rename_i hserve
      cases h
      exact moves_next.trans (hs _ _ _ _ hserve)
    · rename_i hserve
      cases h
      exact (moves_next.trans (hs _ _ _ _ hserve)).trans (moves_modify Group.moves_populateHot)

theorem getLocally_moves : σ.Moves (getLocally o σ x key).1 := by
  unfold getLocally
  split <;> exact .refl σ

theorem loadLocally_moves : σ.Moves (loadLocally o σ x key).1 := by
  have hget : σ.Moves (getLocally o σ x key).1 := getLocally_moves
  unfold loadLocally
  split
  · rename_i heq
    rw [heq] at hget
    exact hget.trans (moves_bump .localLoadErrs)
  · rename_i σ₁ v heq
    rw [heq] at hget
    have hfill : (σ₁.bump x .localLoads).Moves
        ((σ₁.bump x .localLoads).modify x fun g => g.populateMain key v) :=
      moves_modify Group.moves_populateMain
    exact hget.trans ((moves_bump .localLoads).trans hfill)

theorem afterPeerError_moves {e : Err} {r : Except Err ByteView × Bool}
    (h : afterPeerError o σ x key e = some (σ', r)) : σ.Moves σ' := by
  unfold afterPeerError at h
  split at h
  · cases h
    exact .refl σ
  · have hbump : σ.Moves (σ.bump x .peerErrors).next := (moves_bump .peerErrors).trans moves_next
    split at h <;> cases h
    · exact hbump
    · exact hbump.trans loadLocally_moves

theorem loadMiss_moves {serve : Cluster → GoString → Served} {r : Except Err ByteView × Bool}
    (hs : ServesMoves serve) (h : loadMiss site o serve σ x key = some (σ', r)) : σ.Moves σ' := by
  unfold loadMiss at h
  split at h
  · split at h
    · cases h
    · rename_i hpeer
      cases h
      exact (getFromPeer_moves hs hpeer).trans (moves_bump .peerLoads)
    · rename_i hpeer
      exact (getFromPeer_moves hs hpeer).trans (afterPeerError_moves h)
  · cases h
    exact loadLocally_moves

theorem load_moves {serve : Cluster → GoString → Served} {r : Except Err ByteView × Bool}
    (hs : ServesMoves serve) (h : load site o serve σ x key = some (σ', r)) : σ.Moves σ' := by
  have hlook : σ.Moves (lookupCache o (σ.bump x .loads) x key).1 :=
    (moves_bump .loads).trans moves_lookupCache
  unfold load at h
  split at h
  · rename_i hl
    rw [hl] at hlook
    cases h
    exact hlook.trans (moves_bump .cacheHits)
  · rename_i hl
    rw [hl] at hlook
    exact (hlook.trans (moves_bump .loadsDeduped)).trans (loadMiss_moves hs h)

theorem get_moves (fuel : ℕ) {dest : Option Sink} {r : Except Err ByteView}
    (h : get site o fuel σ x key dest = some (σ', r)) : σ.Moves σ' := by
  induction fuel generalizing σ x dest σ' r with
  | zero => cases h
  | succ fuel ih =>
    have hs : ServesMoves fun σ y => get site o fuel σ y key (some .allocating) :=
      fun _ _ _ _ hget => ih hget
    have hbump : σ.Moves (σ.bump x .gets) := moves_bump .gets
    have hlook : σ.Moves (lookupCache o (σ.bump x .gets) x key).1 := hbump.trans moves_lookupCache
    unfold get at h
    split at h
    · cases h
      exact hbump
    · split at h
      · rename_i hl
        rw [hl] at hlook
        cases h
        exact hlook.trans (moves_bump .cacheHits)
      · rename_i hl
        rw [hl] at hlook
        split at h
        · cases h
        · rename_i hload
          cases h
          exact hlook.trans (load_moves hs hload)
        · rename_i hload
          cases h
          exact hlook.trans (load_moves hs hload)

theorem callPeer_moves {c : Peer.Client} (hf : ∀ g, Group.Moves g (f g)) :
    σ.Moves (callPeer o σ c f).1 := by
  have hsent : σ.Moves (σ.next.modify c.hashKey f) := moves_next.trans (moves_modify (hf _))
  unfold callPeer
  split
  · exact .refl σ
  · split
    · exact hsent
    · split
      · exact hsent
      · exact moves_next

theorem setAll_moves {owner : Option Peer.Client} {logger : Bool} {value : Option GoString}
    {expire : Time} {ps : List Peer.Client} :
    σ.Moves (setAll o owner logger key value expire σ ps).1 := by
  induction ps generalizing σ with
  | nil => exact .refl σ
  | cons p ps ih =>
    have hpeer : σ.Moves (setPeer o σ p key value expire).1 :=
      callPeer_moves fun _ => Group.moves_remoteSet
    unfold setAll
    split
    · exact ih
    · split
      · exact .refl σ
      · split
        · exact ih
        · split
          · rename_i heq
            rw [heq] at hpeer
            exact hpeer.trans ih
          · rename_i heq
            rw [heq] at hpeer
            split
            · exact hpeer.trans ih
            · exact hpeer

theorem callOwner_moves {pick : Option Peer.Client × Bool}
    {call : Peer.Client → Cluster × Option Err} (hcall : ∀ c, σ.Moves (call c).1) :
    σ.Moves (callOwner σ pick call).1 := by
  unfold callOwner
  split
  · exact hcall _
  · exact .refl σ

theorem set_moves {value : Option GoString} {expire : Time} :
    σ.Moves (set site o σ x key value expire).1 := by
  unfold set
  split
  · exact .refl σ
  · split
    · exact .refl σ
    · rename_i hmax
      have hown : σ.Moves (callOwner σ ((site x).inst.pickPeer key)
          fun c => setPeer o σ c key value expire).1 :=
        callOwner_moves fun c => callPeer_moves fun _ => Group.moves_remoteSet
      simp only
      split
      · rename_i heq
        rw [heq] at hown
        exact hown
      · rename_i σ₁ heq
        rw [heq] at hown
        have hpos : 0 < (σ₁.groups x).maxCacheBytes := by
          rw [(hown x).limits.1]
          omega
        exact (hown.trans (moves_modify (Group.moves_update hpos))).trans
          (moves_next.trans setAll_moves)

theorem callAll_moves {calls : List (Peer.Client × (Group ByteView → Group ByteView))}
    (hf : ∀ call ∈ calls, ∀ g, Group.Moves g (call.2 g)) : σ.Moves (callAll o σ calls).1 := by
  induction calls generalizing σ with
  | nil => exact .refl σ
  | cons call calls ih =>
    have hcall : σ.Moves (callPeer o σ call.1 call.2).1 :=
      callPeer_moves (hf call List.mem_cons_self)
    exact hcall.trans (ih fun c hc => hf c (List.mem_cons_of_mem _ hc))

theorem remove_moves : σ.Moves (remove site o σ x key).1 := by
  have hown : σ.Moves (callOwner σ ((site x).inst.pickPeer key)
      fun c => removeFromPeer o σ c key).1 :=
    callOwner_moves fun c => callPeer_moves fun _ => Group.moves_localRemove
  unfold remove
  simp only
  split
  · rename_i heq
    rw [heq] at hown
    exact hown
  · rename_i heq
    rw [heq] at hown
    refine (hown.trans (moves_modify Group.moves_localRemove)).trans
      (moves_next.trans (callAll_moves fun call hc => ?_))
    obtain ⟨c, _, rfl⟩ := List.mem_map.mp hc
    exact fun _ => Group.moves_localRemove

theorem removeEach_moves (keys : List GoString) (g : Group ByteView) :
    g.Moves (removeEach keys g) := by
  induction keys generalizing g with
  | nil => exact .refl g
  | cons k keys ih => exact Relation.ReflTransGen.trans Group.moves_localRemove (ih _)

theorem removeKeys_moves {keys : List GoString} : σ.Moves (removeKeys site o σ x keys).1 := by
  unfold removeKeys
  split
  · exact .refl σ
  · refine Moves.trans (moves_modify ?_) ((moves_modify (removeEach_moves keys _)).trans
      (moves_next.trans (callAll_moves fun call hc => ?_)))
    · exact (Group.Act.count _ _).moves.tail (.count _ _)
    · obtain ⟨q, _, rfl⟩ := List.mem_map.mp hc
      exact removeEach_moves q.2

end Cluster

/-- A call of one of a group's methods, by its user or by the transport for a peer. -/
inductive Method
  | get (key : GoString) (dest : Option Sink)
  | set (key : GoString) (value : Option GoString) (expire : Time)
  | remoteSet (key : GoString) (value : Option GoString) (expire : Time)
  | remove (key : GoString)
  | localRemove (key : GoString)
  | removeKeys (keys : List GoString)

namespace Cluster

/-- The state a call leads to; `none` is a `Get` that is forwarded more often than `fuel`. -/
def method (site : GoString → Site) (o : Oracle) (fuel : ℕ) (σ : Cluster) (x : GoString) :
    Method → Option Cluster
  | .get key dest => (get site o fuel σ x key dest).map (·.1)
  | .set key value expire => some (set site o σ x key value expire).1
  | .remoteSet key value expire =>
    some (σ.modify x fun g => g.remoteSet key (.withExpire value expire))
  | .remove key => some (remove site o σ x key).1
  | .localRemove key => some (σ.modify x fun g => g.localRemove key)
  | .removeKeys keys => some (removeKeys site o σ x keys).1

theorem method_moves {site : GoString → Site} {o : Oracle} {fuel : ℕ} {σ σ' : Cluster}
    {x : GoString} {m : Method} (h : method site o fuel σ x m = some σ') : σ.Moves σ' := by
  cases m with
  | get key dest =>
    obtain ⟨r, hget, rfl⟩ := Option.map_eq_some_iff.mp h
    exact get_moves fuel hget
  | set key value expire => exact Option.some.inj h ▸ set_moves
  | remoteSet key value expire => exact Option.some.inj h ▸ moves_modify Group.moves_remoteSet
  | remove key => exact Option.some.inj h ▸ remove_moves
  | localRemove key => exact Option.some.inj h ▸ moves_modify Group.moves_localRemove
  | removeKeys keys => exact Option.some.inj h ▸ removeKeys_moves

end Cluster

/-- Calls at any nodes, from a state in which the group at `x` was just given its budget. -/
def budgetLTS (site : GoString → Site) (x : GoString) (cacheBytes : ℤ) :
    Lib.LTS Cluster (GoString × Method) where
  Init σ := σ.groups x = .new cacheBytes ∨ ∃ g, σ.groups x = Group.resetCacheSize g cacheBytes
  Step σ l σ' := ∃ o fuel, Cluster.method site o fuel σ l.1 l.2 = some σ'

variable {site : GoString → Site} {σ : Cluster} {x : GoString} {cacheBytes : ℤ}
  {ls : List (GoString × Method)}

theorem budget_run (h : (budgetLTS site x cacheBytes).Run ls σ) :
    ∃ g₀ : Group ByteView, g₀.maxCacheBytes = cacheBytes ∧
      g₀.mainCache.raw.maxBytes = Group.mainBytes cacheBytes ∧
      g₀.hotCache.raw.maxBytes = Group.hotBytes cacheBytes ∧ g₀.usedBytes = (0, 0) ∧
      g₀.Moves (σ.groups x) := by
  refine h.invariant (I := fun _ σ => ∃ g₀ : Group ByteView, g₀.maxCacheBytes = cacheBytes ∧
      g₀.mainCache.raw.maxBytes = Group.mainBytes cacheBytes ∧
      g₀.hotCache.raw.maxBytes = Group.hotBytes cacheBytes ∧ g₀.usedBytes = (0, 0) ∧
      g₀.Moves (σ.groups x)) ?_ ?_
  · rintro σ (hnew | ⟨g, hreset⟩)
    · exact ⟨.new cacheBytes, rfl, rfl, rfl, rfl, hnew ▸ .refl _⟩
    · exact ⟨g.resetCacheSize cacheBytes, rfl, rfl, rfl, rfl, hreset ▸ .refl _⟩
  · rintro _ σ l σ' _ ⟨g₀, hmax, hmain, hhot, hused, hmoves⟩ ⟨o, fuel, hcall⟩
    exact ⟨g₀, hmax, hmain, hhot, hused,
      Relation.ReflTransGen.trans hmoves (Cluster.method_moves hcall x)⟩

/-- With a budget of 8 or more both caches have a limit; with none they stay empty. -/
theorem used_within (hn : cacheBytes ≤ 0 ∨ 8 ≤ cacheBytes)
    (h : (budgetLTS site x cacheBytes).Run ls σ) :
    (σ.groups x).usedBytes.1 + (σ.groups x).usedBytes.2 ≤ max cacheBytes 0 := by
  obtain ⟨g₀, rfl, hmain₀, hhot₀, hused₀, hmoves⟩ := budget_run h
  obtain ⟨_, hmain, hhot, hdisabled⟩ := hmoves.limits
  rcases hn with hn | hn
  · rw [hdisabled hn, hused₀]
    exact le_max_right _ _
  · have hdiv : Group.hotBytes g₀.maxCacheBytes = g₀.maxCacheBytes / 8 := if_pos (by omega)
    have hle₁ := (σ.groups x).mainCache.wf.bytes_le
    have hle₂ := (σ.groups x).hotCache.wf.bytes_le
    rw [hmain, hmain₀, Group.mainBytes, hdiv] at hle₁
    rw [hhot, hhot₀, hdiv] at hle₂
    have hbytes₁ := hle₁ (by omega)
    have hbytes₂ := hle₂ (by omega)
    refine le_trans ?_ (le_max_left _ _)
    simp only [Group.usedBytes]
    omega

/-- With a budget of 1 to 7 bytes both limits round down to zero, which is no limit. -/
theorem used_remoteSet (hpos : 0 < cacheBytes) (hlt : cacheBytes < 8) :
    ((Group.new cacheBytes : Group ByteView).remoteSet [107]
      (.withExpire (some [0, 1, 2, 3, 4, 5, 6, 7]) .zero)).usedBytes = (9, 0) := by
  interval_cases cacheBytes <;> decide +kernel

theorem used_beyond (hpos : 0 < cacheBytes) (hlt : cacheBytes < 8) :
    ∃ σ, (budgetLTS hostSite hostA cacheBytes).Run
      [(hostA, .remoteSet [107] (some [0, 1, 2, 3, 4, 5, 6, 7]) .zero)] σ ∧
      (σ.groups hostA).usedBytes = (9, 0) := by
  have hinit : (budgetLTS hostSite hostA cacheBytes).Init (.start cacheBytes) := Or.inl rfl
  refine ⟨_, .step (.init hinit) ⟨hostOracle, 0, rfl⟩, ?_⟩
  rw [← used_remoteSet hpos hlt]
  simp [Cluster.modify, Cluster.start]

/-- `UsedBytes` stays within the budget on every run exactly if the budget is not 1 to 7. -/
theorem used_within_iff (cacheBytes : ℤ) :
    (∀ site x ls σ, (budgetLTS site x cacheBytes).Run ls σ →
      (σ.groups x).usedBytes.1 + (σ.groups x).usedBytes.2 ≤ max cacheBytes 0) ↔
    cacheBytes ≤ 0 ∨ 8 ≤ cacheBytes := by
  constructor
  · intro h
    by_contra hn
    have hpos : 0 < cacheBytes := by omega
    obtain ⟨σ, hrun, hused⟩ := used_beyond hpos (by omega)
    have hle := h _ _ _ σ hrun
    rw [hused, max_eq_left (by omega)] at hle
    simp only at hle
    omega
  · intro hn site x ls σ hrun
    exact used_within hn hrun

/-- One small `RemoteSet` takes a group of 7 cache bytes beyond them. -/
theorem used_beyond_seven : ∃ ls σ, (budgetLTS hostSite hostA 7).Run ls σ ∧
    max 7 0 < (σ.groups hostA).usedBytes.1 + (σ.groups hostA).usedBytes.2 := by
  obtain ⟨σ, hrun, hused⟩ := used_beyond (show (0 : ℤ) < 7 by decide) (by decide)
  exact ⟨_, σ, hrun, by rw [hused]; decide⟩

end Groupcache
