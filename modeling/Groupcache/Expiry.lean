import Groupcache.GetRule
import Groupcache.MemoryBound
import Groupcache.OwnerErrors
import Groupcache.PeerFailures
import Groupcache.Transport.HttpTransport

/-! Expiry across the cluster: a `Get` returns what one of its lookups found in a cache and not yet
expired, or what one of its calls of a Getter returned. -/
namespace Groupcache

open Transport Peer

/-- A value is expired for a lookup at `now`. -/
def Expired (v : ByteView) (now : Time) : Prop :=
  v.expire.isZero = false ∧ v.expire.before now = true

namespace Cache

variable {c : Cache ByteView} {k : GoString} {v : ByteView} {now : Time}

/-- Every entry expires when its value does. -/
def Dated (c : Cache ByteView) : Prop := ∀ ent ∈ c.raw.entries, ent.expire = ent.value.expire

theorem Dated.of_subset {c' : Cache ByteView} (h : c.Dated)
    (hsub : c'.raw.entries ⊆ c.raw.entries) : c'.Dated :=
  fun ent hent => h ent (hsub hent)

theorem Dated.add (h : c.Dated) (k : GoString) (v : ByteView) : (c.add k v).Dated := by
  intro ent hent
  rcases List.mem_cons.mp ((c.add_initial k v).subset hent) with rfl | hold
  · rfl
  · exact h ent (List.mem_of_mem_filter hold)

theorem Dated.remove (h : c.Dated) (k : GoString) : (c.remove k).Dated := by
  refine h.of_subset ?_
  have hrest : (c.remove k).raw.entries = _ := MutexCache.remove_entries c.wf
  rw [hrest]
  exact List.filter_subset_self _

theorem Dated.get (h : c.Dated) (now : Time) (k : GoString) : (c.get now k).1.Dated :=
  h.of_subset get_entries_subset

/-- A hit is not expired. -/
theorem Dated.not_expired (h : c.Dated) (hv : (c.get now k).2 = some v) : ¬ Expired v now := by
  have hget := MutexCache.get_eq c.wf now k
  have hval : (c.raw.get now k).2 = some v := hv
  cases he : c.raw.lookupEntry k with
  | none => simp [he, hval] at hget
  | some ent =>
    have hmem : ent ∈ c.raw.entries := List.mem_of_find?_eq_some he
    simp only [he, hval] at hget
    split at hget
    · exact absurd hget.1 (by simp)
    · rename_i hlive
      obtain rfl : v = ent.value := Option.some.inj hget.1
      simpa [Lru.Cache.expired, h ent hmem, Expired] using hlive

end Cache

namespace Group

variable {g g' : Group ByteView} {k : GoString} {v : ByteView} {now now' : Time}

/-- Both caches expire their entries when the values expire. -/
def Dated (g : Group ByteView) : Prop := g.mainCache.Dated ∧ g.hotCache.Dated

theorem dated_new (n : ℤ) : (new n : Group ByteView).Dated := ⟨nofun, nofun⟩

theorem Act.dated (h : Act g g') (hg : g.Dated) : g'.Dated := by
  obtain ⟨hmain, hhot⟩ := hg
  cases h with
  | count c n => exact ⟨hmain, hhot⟩
  | lookupMain _ now k => exact ⟨hmain.get now k, hhot⟩
  | lookupHot _ now k => exact ⟨hmain, hhot.get now k⟩
  | addMain _ k v => exact ⟨hmain.add k v, hhot⟩
  | addHot _ k v => exact ⟨hmain, hhot.add k v⟩
  | removeMain _ k => exact ⟨hmain.remove k, hhot⟩
  | removeHot _ k => exact ⟨hmain, hhot.remove k⟩

theorem Moves.dated (h : g.Moves g') (hg : g.Dated) : g'.Dated := by
  induction h with
  | refl => exact hg
  | tail _ hact ih => exact hact.dated ih

/-- `lookupCache` finds a value in the main or in the hot cache, not expired at the clock reading
for that cache. -/
theorem Dated.lookupCache (hg : g.Dated) (hv : (g.lookupCache now now' k).2 = some v) :
    (g.mainCache.get now k).2 = some v ∧ ¬ Expired v now ∨
      (g.hotCache.get now' k).2 = some v ∧ ¬ Expired v now' := by
  unfold Group.lookupCache at hv
  split at hv
  · cases hv
  · split at hv
    · rename_i w hmain
      obtain rfl : w = v := Option.some.inj hv
      exact Or.inl ⟨hmain, hg.1.not_expired hmain⟩
    · exact Or.inr ⟨hv, hg.2.not_expired hv⟩

end Group

namespace Cluster

variable {site : GoString → Site} {o : Oracle} {σ σ' : Cluster} {x key : GoString} {t₀ t t' : ℕ}
  {v w : ByteView}

def Dated (σ : Cluster) : Prop := ∀ y, (σ.groups y).Dated

theorem Moves.dated (h : σ.Moves σ') (hσ : σ.Dated) : σ'.Dated := fun y => (h y).dated (hσ y)

/-- What a `Get` may take its value from: a lookup in the caches of a node, or a call of its Getter
at some point. -/
inductive Origin
  | lookup (σ : Cluster) (x : GoString)
  | getter (t : ℕ) (x : GoString)

/-- The origin gives the value for the key. A lookup reads the clock for each of the two caches. -/
def Origin.Gives (o : Oracle) (key : GoString) (v : ByteView) : Origin → Prop
  | .lookup σ x =>
    ((σ.groups x).mainCache.get (o.clock σ.tick) key).2 = some v ∧ ¬ Expired v (o.clock σ.tick) ∨
    ((σ.groups x).hotCache.get (o.clock (σ.tick + 1)) key).2 = some v ∧
      ¬ Expired v (o.clock (σ.tick + 1))
  | .getter t x => o.getter t x key = .ok v

section Origins

variable (site o) (origins : Cluster → GoString → List Origin)
  (serve : Cluster → GoString → Served)

/-- The origins that a `getFromPeer` turns to; `origins` are those of the peer's `Get`. -/
def peerOrigins (σ : Cluster) (c : Client) : List Origin :=
  if (o.fault σ.tick).all (·.reached) then origins σ.next c.hashKey else []

/-- Those of `load` after its own lookup missed. -/
def missOrigins (σ : Cluster) (x key : GoString) : List Origin :=
  match (site x).inst.pickPeer key with
  | (some c, true) =>
    peerOrigins o origins σ c ++
      match getFromPeer o serve σ x c key with
      | some (σ, .error e) =>
        if e.isFinal || o.ctxDone σ.tick then [] else [.getter (σ.tick + 1) x]
      | _ => []
  | _ => [.getter σ.tick x]

def loadOrigins (σ : Cluster) (x key : GoString) : List Origin :=
  .lookup (σ.bump x .loads) x ::
    match lookupCache o (σ.bump x .loads) x key with
    | (_, some _) => []
    | (σ, none) => missOrigins site o origins serve (σ.bump x .loadsDeduped) x key

/-- The origins that a `Get` turns to, one after the other. -/
def getOrigins (fuel : ℕ) (σ : Cluster) (x key : GoString) : List Origin :=
  match fuel with
  | 0 => []
  | fuel + 1 =>
    .lookup (σ.bump x .gets) x ::
      match lookupCache o (σ.bump x .gets) x key with
      | (_, some _) => []
      | (σ, none) => loadOrigins site o (fun σ y => getOrigins fuel σ y key)
        (fun σ y => get site o fuel σ y key (some .allocating)) σ x key

end Origins

/-- What peer calls carry of a value: its bytes, and an expiry that the messages can hold. -/
structure Relayed (v w : ByteView) : Prop where
  bytes : w.bytes = v.bytes
  expire : Transport.Encodable v.expire → w.expire = v.expire

theorem Relayed.refl (v : ByteView) : Relayed v v := ⟨rfl, fun _ => rfl⟩

theorem Relayed.received (h : Relayed v w) : Relayed v (received (some w.bytes) w.expire) := by
  refine ⟨by simp [Cluster.received, h.bytes], fun henc => ?_⟩
  rw [h.expire henc]
  exact (decode_encode_iff v.expire).mpr henc

/-- One of the origins gave the value, there or at a node that passed it on. -/
def From (o : Oracle) (key : GoString) (as : List Origin) (w : ByteView) : Prop :=
  ∃ a ∈ as, ∃ v, a.Gives o key v ∧ Relayed v w

variable {origins : Cluster → GoString → List Origin} {serve : Cluster → GoString → Served}
  {as bs : List Origin} {a : Origin} {c : Client} {populated : Bool}

theorem From.mono (h : From o key as w) (hsub : as ⊆ bs) : From o key bs w :=
  h.imp fun _ ha => ha.imp_left (hsub ·)

theorem Origin.Gives.isFrom (h : a.Gives o key v) (ha : a ∈ as) : From o key as v :=
  ⟨a, ha, v, h, .refl v⟩

theorem Dated.lookup (h : σ.Dated) (hv : (lookupCache o σ x key).2 = some v) :
    (Origin.lookup σ x).Gives o key v :=
  (h x).lookupCache hv

theorem Dated.after_lookup {r : Option ByteView} (h : σ.Dated)
    (hl : lookupCache o σ x key = (σ', r)) : σ'.Dated := by
  have hmoves : σ.Moves (lookupCache o σ x key).1 := moves_lookupCache
  rw [hl] at hmoves
  exact hmoves.dated h

/-- The `Get`s that peers serve return what their origins gave. -/
def PeersFrom (o : Oracle) (key : GoString) (origins : Cluster → GoString → List Origin)
    (serve : Cluster → GoString → Served) : Prop :=
  ∀ σ y σ' w, σ.Dated → serve σ y = some (σ', .ok w) → From o key (origins σ y) w

theorem getter_of_loadLocally (h : (loadLocally o σ x key).2 = .ok v) :
    o.getter σ.tick x key = .ok v := by
  cases hgot : o.getter σ.tick x key with
  | error e => simp [loadLocally, getLocally, hgot] at h
  | ok v' => simpa [loadLocally, getLocally, hgot] using h

theorem from_getFromPeer (hserve : PeersFrom o key origins serve) (h : σ.Dated)
    (hr : getFromPeer o serve σ x c key = some (σ', .ok w)) :
    From o key (peerOrigins o origins σ c) w := by
  unfold getFromPeer at hr
  split at hr
  · split at hr
    · obtain ⟨r, _, heq⟩ := Option.map_eq_some_iff.mp hr
      cases heq
    · cases hr
  · rename_i hfault
    split at hr
    · cases hr
    · cases hr
    · rename_i v hv
      cases hr
      obtain ⟨a, ha, u, hu, hrelayed⟩ := hserve σ.next c.hashKey _ v h hv
      exact ⟨a, by simpa [peerOrigins, hfault] using ha, u, hu, hrelayed.received⟩

theorem from_loadLocally {t : ℕ} (ht : σ.tick = t) (ha : .getter t x ∈ as)
    (hw : (loadLocally o σ x key).2 = .ok w) : From o key as w := by
  have hgives : (Origin.getter t x).Gives o key w := ht ▸ getter_of_loadLocally hw
  exact hgives.isFrom ha

theorem missOrigins_remote (hpick : (site x).inst.pickPeer key = (some c, true)) :
    missOrigins site o origins serve σ x key = peerOrigins o origins σ c ++
      match getFromPeer o serve σ x c key with
      | some (σ, .error e) =>
        if e.isFinal || o.ctxDone σ.tick then [] else [.getter (σ.tick + 1) x]
      | _ => [] := by
  rw [missOrigins, hpick]

theorem missOrigins_local (hpick : ∀ c, (site x).inst.pickPeer key ≠ (some c, true)) :
    missOrigins site o origins serve σ x key = [.getter σ.tick x] := by
  unfold missOrigins
  split
  · rename_i c hc
    exact (hpick c hc).elim
  · rfl

theorem from_loadMiss (hserve : PeersFrom o key origins serve) (h : σ.Dated)
    (hr : loadMiss site o serve σ x key = some (σ', .ok w, populated)) :
    From o key (missOrigins site o origins serve σ x key) w := by
  unfold loadMiss at hr
  split at hr
  · rename_i c hpick
    rw [missOrigins_remote hpick]
    split at hr
    · cases hr
    · rename_i hpeer
      cases hr
      exact (from_getFromPeer hserve h hpeer).mono (List.subset_append_left _ _)
    · rename_i e hpeer
      unfold afterPeerError at hr
      split at hr
      · cases hr
      · rename_i hfinal
        split at hr
        · cases hr
        · rename_i hctx
          have hw := congrArg Prod.fst (Prod.mk.inj (Option.some.inj hr)).2
          exact from_loadLocally rfl (by simp [hpeer, hfinal, hctx]; exact Or.inr rfl) hw
  · rename_i hpick
    have hw := congrArg Prod.fst (Prod.mk.inj (Option.some.inj hr)).2
    exact from_loadLocally rfl (by simp [missOrigins_local hpick]) hw

theorem from_load (hserve : PeersFrom o key origins serve) (h : σ.Dated)
    (hr : load site o serve σ x key = some (σ', .ok w, populated)) :
    From o key (loadOrigins site o origins serve σ x key) w := by
  have hbump : (σ.bump x .loads).Dated := (moves_bump _).dated h
  unfold load at hr
  split at hr
  · rename_i hl
    cases hr
    exact (hbump.lookup (by rw [hl])).isFrom List.mem_cons_self
  · rename_i hl
    have hmiss := (moves_bump (x := x) .loadsDeduped).dated (hbump.after_lookup hl)
    rw [loadOrigins, hl]
    exact (from_loadMiss hserve hmiss hr).mono (List.subset_cons_self _ _)

/-- A `Get` returns what one of its origins gave. -/
theorem from_get (fuel : ℕ) {dest : Option Sink} (h : σ.Dated)
    (hr : get site o fuel σ x key dest = some (σ', .ok w)) :
    From o key (getOrigins site o fuel σ x key) w := by
  induction fuel generalizing σ x dest σ' w with
  | zero => cases hr
  | succ fuel ih =>
    have hserve : PeersFrom o key (fun σ y => getOrigins site o fuel σ y key)
        fun σ y => get site o fuel σ y key (some .allocating) :=
      fun σ y σ' w hσ hget => ih hσ hget
    have hbump : (σ.bump x .gets).Dated := (moves_bump _).dated h
    unfold get at hr
    split at hr
    · cases hr
    · split at hr
      · rename_i v hl
        obtain rfl : w = v := deliver_ok (Prod.mk.inj (Option.some.inj hr)).2
        exact (hbump.lookup (by rw [hl])).isFrom List.mem_cons_self
      · rename_i hl
        rw [getOrigins, hl]
        split at hr
        · cases hr
        · cases hr
        · rename_i v populated hload
          obtain rfl : w = v := by
            have hw := (Prod.mk.inj (Option.some.inj hr)).2
            split at hw
            · exact (Except.ok.inj hw).symm
            · exact deliver_ok hw
          exact (from_load hserve (hbump.after_lookup hl) hload).mono (List.subset_cons_self _ _)

end Cluster

/-- Calls at any nodes, from a state in which all groups are new. -/
def callsLTS (site : GoString → Site) : Lib.LTS Cluster (GoString × Method) where
  Init σ := ∀ y, ∃ n, σ.groups y = .new n
  Step σ l σ' := ∃ o fuel, Cluster.method site o fuel σ l.1 l.2 = some σ'

theorem dated_run {site : GoString → Site} {ls : List (GoString × Method)} {σ : Cluster}
    (h : (callsLTS site).Run ls σ) : σ.Dated := by
  refine h.invariant (I := fun _ σ => σ.Dated) ?_ ?_
  · intro σ hinit y
    obtain ⟨n, hnew⟩ := hinit y
    exact hnew ▸ Group.dated_new n
  · rintro _ σ l σ' _ hσ ⟨o, fuel, hcall⟩
    exact (Cluster.method_moves hcall).dated hσ

/-- After any calls, what a `Get` returns is what one of its lookups found not expired in a cache,
or one of its calls of a Getter returned, there or at a node it was forwarded to. -/
theorem get_timely {site : GoString → Site} {o : Oracle} {ls : List (GoString × Method)}
    {σ σ' : Cluster} {x key : GoString} {fuel : ℕ} {dest : Option Sink} {w : ByteView}
    (h : (callsLTS site).Run ls σ)
    (hget : Cluster.get site o fuel σ x key dest = some (σ', .ok w)) :
    ∃ a ∈ Cluster.getOrigins site o fuel σ x key, ∃ v, a.Gives o key v ∧ w.bytes = v.bytes ∧
      (Transport.Encodable v.expire → w.expire = v.expire) := by
  obtain ⟨a, ha, v, hv, hrelayed⟩ := Cluster.from_get fuel (dated_run h) hget
  exact ⟨a, ha, v, hv, hrelayed.bytes, hrelayed.expire⟩

/-- The hosts' clock stands a second before the expiry of what is set. -/
def lateOracle : Oracle := { hostOracle with clock := fun _ => .unix 9 0 }

/-- `A` has not been reached by the `Set` at `B`, and asks `B`. -/
theorem get_timely_hosts : ∃ σ σ' w,
    (callsLTS hostSite).Run [(hostB, .set [7] (some [1]) (.unix 10 0))] σ ∧
    Cluster.get hostSite lateOracle 2 σ hostA [7] (some .allocating) = some (σ', .ok w) ∧
    w = .withExpire (some [1]) (.unix 10 0) ∧
    ∃ a ∈ Cluster.getOrigins hostSite lateOracle 2 σ hostA [7], ∃ v, a.Gives lateOracle [7] v ∧
      w.bytes = v.bytes ∧ (Transport.Encodable v.expire → w.expire = v.expire) := by
  suffices ∃ σ σ', (callsLTS hostSite).Run [(hostB, .set [7] (some [1]) (.unix 10 0))] σ ∧
      Cluster.get hostSite lateOracle 2 σ hostA [7] (some .allocating) =
        some (σ', .ok (.withExpire (some [1]) (.unix 10 0))) by
    obtain ⟨σ, σ', hrun, hget⟩ := this
    exact ⟨σ, σ', _, hrun, hget, rfl, get_timely hrun hget⟩
  have hinit : (callsLTS hostSite).Init (.start 1000) := fun _ => ⟨1000, rfl⟩
  have hget : (Cluster.get hostSite lateOracle 2
      (Cluster.set hostSite Cluster.downOracle (.start 1000) hostB [7] (some [1]) (.unix 10 0)).1
      hostA [7] (some .allocating)).map (fun r => r.2.toOption) =
        some (some (.withExpire (some [1]) (.unix 10 0))) := by
    decide +kernel
  obtain ⟨⟨σ', r⟩, hget, hr⟩ := Option.map_eq_some_iff.mp hget
  cases r with
  | error e => cases hr
  | ok w =>
    obtain rfl : w = _ := Option.some.inj hr
    exact ⟨_, σ', .step (.init hinit) ⟨Cluster.downOracle, 0, rfl⟩, hget⟩

end Groupcache
