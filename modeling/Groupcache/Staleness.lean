import Groupcache.FanInCalls
import Groupcache.LoadedCopies

/-! Coherence when peer calls fail. A node can be left behind by a write that did not reach it, but
no node ever goes back behind a `Set` or `Remove` that did: those reach the owner first, and what is
loaded is loaded from there. -/
namespace Groupcache

open Transport Peer

/-- A call of a user's. -/
inductive Request
  | get (key : GoString) (dest : Option Sink)
  | set (key : GoString) (value : Option GoString) (expire : Time)
  | remove (key : GoString)
  | removeKeys (keys : List GoString)

def Request.IsRemoveKeys : Request → Prop
  | .removeKeys _ => True
  | _ => False

/-- A run of a Getter or a write, the call that has made it and, for a write, the nodes whose
caches it has changed. -/
structure HistoryEntry where
  call : Request
  event : Event
  reached : List GoString

abbrev History := List HistoryEntry

variable {as : List GoString} {owner : GoString → GoString} {hist : History}
  {x y k b : GoString} {e : HistoryEntry}

/-- The bytes were set or loaded, and no later write of the key has reached the node, other than by
a `RemoveKeys` that has not reached the owner. -/
def FreshAt (owner : GoString → GoString) (hist : History) (y k b : GoString) : Prop :=
  ∃ older e newer, hist = older ++ e :: newer ∧
    (e.event = .getter k b ∨ e.event = .set k b ∧ e.reached ≠ []) ∧
    ∀ e' ∈ newer, e'.event.Writes k → y ∈ e'.reached →
      e'.call.IsRemoveKeys ∧ owner k ∉ e'.reached

theorem FreshAt.append {es : History} (h : FreshAt owner hist y k b)
    (hes : ∀ e ∈ es, e.event.Writes k → y ∉ e.reached) : FreshAt owner (hist ++ es) y k b := by
  obtain ⟨older, e, newer, rfl, hsrc, hnew⟩ := h
  refine ⟨older, e, newer ++ es, by simp, hsrc, fun e' he' hw hy => ?_⟩
  rcases List.mem_append.mp he' with he' | he'
  · exact hnew e' he' hw hy
  · exact (hes e' he' hw hy).elim

theorem freshAt_last (h : e.event = .getter k b ∨ e.event = .set k b ∧ e.reached ≠ []) :
    FreshAt owner (hist ++ [e]) y k b :=
  ⟨hist, e, [], rfl, h, by simp⟩

/-- A write that has reached some node has reached the key's owner, unless it is a `RemoveKeys`,
which does not start with the owner. -/
def OwnerFirst (owner : GoString → GoString) (hist : History) : Prop :=
  ∀ e ∈ hist, ∀ k, e.event.Writes k → e.reached ≠ [] →
    e.call.IsRemoveKeys ∨ owner k ∈ e.reached

/-- What is fresh at the owner is fresh everywhere. -/
theorem FreshAt.of_owner (h : FreshAt owner hist (owner k) k b) (hfirst : OwnerFirst owner hist)
    (y : GoString) : FreshAt owner hist y k b := by
  obtain ⟨older, e, newer, rfl, hsrc, hnew⟩ := h
  refine ⟨older, e, newer, rfl, hsrc, fun e' he' hw hy => ?_⟩
  have hmissed : owner k ∉ e'.reached := fun howner => (hnew e' he' hw howner).2 howner
  exact ⟨(hfirst e' (by simp [he']) k hw (List.ne_nil_of_mem hy)).resolve_right hmissed, hmissed⟩

theorem OwnerFirst.append {es : History} (h : OwnerFirst owner hist) (hes : OwnerFirst owner es) :
    OwnerFirst owner (hist ++ es) :=
  fun e he => (List.mem_append.mp he).elim (h e) (hes e)

/-- Getter runs, as entries of the history. -/
def loaded (call : Request) (news : List Event) : History := news.map fun e => ⟨call, e, []⟩

theorem ownerFirst_loaded (call : Request) (news : List Event) :
    OwnerFirst owner (loaded call news) := by
  intro e he k _ hne
  obtain ⟨e', _, rfl⟩ := List.mem_map.mp he
  exact (hne rfl).elim

/-- All members name the same owner for each key. -/
def SameOwner (as : List GoString) (inst : GoString → Instance) (owner : GoString → GoString) :
    Prop :=
  ∀ x ∈ as, ∀ key, ((inst x).pickPeer key).1.map (·.hashKey) = some (owner key)

theorem serves_freshAt {inst : GoString → Instance} (call : Request) (key : GoString)
    (hown : SameOwner as inst owner) (hfirst : OwnerFirst owner hist) :
    Allowed.Serves (fun news y k b => FreshAt owner (hist ++ loaded call news) y k b) as inst
      key where
  append b' h := by
    rw [loaded, List.map_append, ← List.append_assoc]
    exact h.append (by simp [Event.Writes])
  got news y b := by
    rw [loaded, List.map_append, ← List.append_assoc]
    exact freshAt_last (Or.inl rfl)
  forward := by
    rintro news x y b hx ⟨c, hpick, rfl⟩ h
    have howner : c.hashKey = owner key := by simpa [hpick] using hown x hx key
    rw [howner] at h
    exact h.of_owner (hfirst.append (ownerFirst_loaded call news)) x

namespace Cluster

variable {site : GoString → Site} {o : Oracle} {σ : Cluster} {c : Client}
  {f : Group ByteView → Group ByteView} {W R : GoString → GoString → Prop} {K : GoString → Prop}

/-- The call gets to the peer's group, whatever it returns. -/
def reaches (o : Oracle) (σ : Cluster) (c : Client) : Bool :=
  !c.info.isSelf && (o.fault σ.tick).all (·.reached)

/-- Those items of a list whose calls get to their peer, when they are made in this order. -/
def carriedOut {α : Type} (o : Oracle) (call : α → Call) : Cluster → List α → List α
  | _, [] => []
  | σ, a :: l =>
    let rest := carriedOut o call (callPeer o σ (call a).1 (call a).2).1 l
    if reaches o σ (call a).1 then a :: rest else rest

/-- `f` overwrites or removes the keys in `K`, and leaves values as in `W`. -/
structure Overwrites (W : GoString → GoString → Prop) (K : GoString → Prop)
    (f : Group ByteView → Group ByteView) : Prop where
  maxCacheBytes : ∀ g, (f g).maxCacheBytes = g.maxCacheBytes
  holds : ∀ g, 0 < g.maxCacheBytes → ∀ k v, (f g).Holds k v →
    K k ∧ W k v.bytes ∨ ¬ K k ∧ g.Holds k v

/-- In the middle of a write: a node that it has reached, as `R` says, holds written values, any
other one old values. -/
structure Spreading (as : List GoString) (owner : GoString → GoString) (hist : History)
    (W R : GoString → GoString → Prop) (σ : Cluster) : Prop where
  positive : ∀ y ∈ as, 0 < (σ.groups y).maxCacheBytes
  copies : ∀ y ∈ as, ∀ k v, (σ.groups y).Holds k v →
    R k y ∧ W k v.bytes ∨ ¬ R k y ∧ FreshAt owner hist y k v.bytes

theorem Spreading.next (h : Spreading as owner hist W R σ) : Spreading as owner hist W R σ.next :=
  ⟨h.positive, h.copies⟩

theorem Spreading.congr {R' : GoString → GoString → Prop} (h : Spreading as owner hist W R σ)
    (hR : ∀ k y, R k y ↔ R' k y) : Spreading as owner hist W R' σ := by
  obtain rfl : R = R' := funext fun k => funext fun y => propext (hR k y)
  exact h

theorem Spreading.modify (h : Spreading as owner hist W R σ) (hf : Overwrites W K f)
    (x : GoString) : Spreading as owner hist W (fun k y => R k y ∨ y = x ∧ K k) (σ.modify x f) := by
  refine ⟨fun y hy => ?_, fun y hy k v hv => ?_⟩ <;>
    rcases σ.modify_groups (x := x) (f := f) y with ⟨hne, heq⟩ | ⟨rfl, heq⟩
  · rw [heq]
    exact h.positive y hy
  · rw [heq, hf.maxCacheBytes]
    exact h.positive y hy
  · rw [heq] at hv
    simpa [hne] using h.copies y hy k v hv
  · rw [heq] at hv
    rcases hf.holds _ (h.positive y hy) k v hv with ⟨hk, hw⟩ | ⟨hk, hv⟩
    · exact Or.inl ⟨Or.inr ⟨rfl, hk⟩, hw⟩
    · simpa [hk] using h.copies y hy k v hv

theorem Spreading.callPeer (h : Spreading as owner hist W R σ) (hf : Overwrites W K f) :
    Spreading as owner hist W (fun k y => R k y ∨ reaches o σ c = true ∧ c.hashKey = y ∧ K k)
      (Cluster.callPeer o σ c f).1 := by
  have hmodified : Spreading as owner hist W (fun k y => R k y ∨ c.hashKey = y ∧ K k)
      (σ.next.modify c.hashKey f) :=
    (h.next.modify hf c.hashKey).congr fun k y => by rw [eq_comm]
  unfold Cluster.callPeer reaches
  cases c.info.isSelf with
  | true => exact h.congr (by simp)
  | false =>
    cases o.fault σ.tick with
    | none => simpa using hmodified
    | some fault =>
      cases hreached : fault.reached with
      | true => simpa [hreached] using hmodified
      | false => simpa [hreached] using h.next

theorem Spreading.callAll {α : Type} {K : α → GoString → Prop} {l : List α}
    (h : Spreading as owner hist W R σ) (call : α → Call)
    (hf : ∀ a ∈ l, Overwrites W (K a) (call a).2) :
    Spreading as owner hist W
      (fun k y => R k y ∨ ∃ a ∈ carriedOut o call σ l, (call a).1.hashKey = y ∧ K a k)
      (Cluster.callAll o σ (l.map call)).1 := by
  induction l generalizing σ R with
  | nil => exact h.congr (by simp [carriedOut])
  | cons a l ih =>
    have hrest := ih (h.callPeer (o := o) (c := (call a).1) (hf a List.mem_cons_self))
      fun a' ha' => hf a' (List.mem_cons_of_mem _ ha')
    refine hrest.congr fun k y => ?_
    cases hreaches : reaches o σ (call a).1 <;> simp [carriedOut, hreaches, or_assoc]

section Write

variable {call : Client → Call} {here : Group ByteView → Group ByteView}
  {owners others : List Client} {x key : GoString}

/-- The owner has been called, if it is remote, and the caller's own caches have been changed. -/
def midway (o : Oracle) (call : Client → Call) (here : Group ByteView → Group ByteView)
    (σ : Cluster) (x : GoString) (owners : List Client) : Cluster :=
  ((Cluster.callAll o σ (owners.map call)).1.modify x here).next

/-- How `Set` and `Remove` go about it: an error of the owner ends them, otherwise they call the
other peers. -/
def spread (o : Oracle) (call : Client → Call) (here : Group ByteView → Group ByteView)
    (σ : Cluster) (x : GoString) (owners others : List Client) : Cluster :=
  match (Cluster.callAll o σ (owners.map call)).2 with
  | [] => (Cluster.callAll o (midway o call here σ x owners) (others.map call)).1
  | _ :: _ => (Cluster.callAll o σ (owners.map call)).1

/-- The nodes whose caches they have changed. -/
def reachedNodes (o : Oracle) (call : Client → Call) (here : Group ByteView → Group ByteView)
    (σ : Cluster) (x : GoString) (owners others : List Client) : List GoString :=
  let first := (carriedOut o call σ owners).map (·.hashKey)
  match (Cluster.callAll o σ (owners.map call)).2 with
  | [] => first ++ x :: (carriedOut o call (midway o call here σ x owners) others).map (·.hashKey)
  | _ :: _ => first

theorem Spreading.spread (h : Spreading as owner hist W (fun _ _ => False) σ)
    (hclient : ∀ p, (call p).1 = p) (hcall : ∀ p, Overwrites W (· = key) (call p).2)
    (hhere : Overwrites W (· = key) here) (o : Oracle) (x : GoString)
    (owners others : List Client) :
    Spreading as owner hist W (fun k y => k = key ∧ y ∈ reachedNodes o call here σ x owners others)
      (Cluster.spread o call here σ x owners others) := by
  have howners := h.callAll (o := o) (l := owners) call (K := fun _ k => k = key) fun p _ => hcall p
  unfold Cluster.spread reachedNodes
  cases (Cluster.callAll o σ (owners.map call)).2 with
  | cons =>
    refine howners.congr fun k y => ?_
    by_cases hk : k = key <;> simp [hk, hclient]
  | nil =>
    have hothers := (howners.modify hhere x).next.callAll (o := o) (l := others) call
      (K := fun _ k => k = key) fun p _ => hcall p
    refine hothers.congr fun k y => ?_
    by_cases hk : k = key <;> simp [hk, hclient, midway, or_assoc]

/-- Nothing is reached before the owner. -/
theorem owner_mem_reachedNodes (hclient : ∀ p, (call p).1 = p)
    (hself : c.info.isSelf = true → c.hashKey = x) {y : GoString}
    (hy : y ∈ reachedNodes o call here σ x (ownerCalls (some c, !c.info.isSelf)) others) :
    c.hashKey ∈ reachedNodes o call here σ x (ownerCalls (some c, !c.info.isSelf)) others := by
  cases hisSelf : c.info.isSelf with
  | true => simp [reachedNodes, ownerCalls, Cluster.callAll, carriedOut, hself hisSelf]
  | false =>
    rw [hisSelf] at hy
    cases hreaches : reaches o σ c with
    | true =>
      unfold reachedNodes
      split <;> simp [ownerCalls, carriedOut, hclient, hreaches]
    | false =>
      -- a call of another node that has not got there has failed
      obtain ⟨f, hfault, hlost⟩ : ∃ f, o.fault σ.tick = some f ∧ f.reached = false := by
        cases hfault : o.fault σ.tick with
        | none => simp [reaches, hisSelf, hfault] at hreaches
        | some f => exact ⟨f, rfl, by simpa [reaches, hisSelf, hfault] using hreaches⟩
      simp [reachedNodes, ownerCalls, carriedOut, hclient, hreaches, Cluster.callAll,
        Cluster.callPeer, hisSelf, hfault] at hy

end Write

section Methods

variable {x key : GoString} {value : Option GoString} {expire : Time} {keys : List GoString}

theorem overwrites_update {v : ByteView} (key : GoString) :
    Overwrites (fun _ b => b = v.bytes) (· = key) fun g => g.update key v := by
  refine ⟨fun _ => rfl, fun g _ k w hw => ?_⟩
  rcases Group.holds_update hw with ⟨rfl, rfl⟩ | hw
  · exact Or.inl ⟨rfl, rfl⟩
  · exact Or.inr hw

theorem overwrites_remoteSet {v : ByteView} (key : GoString) :
    Overwrites (fun _ b => b = v.bytes) (· = key) fun g => g.remoteSet key v := by
  refine ⟨fun g => by simp, fun g hmax k w hw => ?_⟩
  rw [Group.remoteSet, if_neg (by omega)] at hw
  exact (overwrites_update key).holds g hmax k w hw

theorem overwrites_localRemove (key : GoString) :
    Overwrites W (· = key) fun g => g.localRemove key :=
  ⟨fun g => by simp, fun _ hmax _ _ hw => Or.inr (Group.holds_localRemove hmax hw)⟩

theorem overwrites_removeEach (keys : List GoString) :
    Overwrites W (· ∈ keys) (removeEach keys) := by
  induction keys with
  | nil => exact ⟨fun _ => rfl, fun g _ k w hw => Or.inr ⟨List.not_mem_nil, hw⟩⟩
  | cons key keys ih =>
    have hfirst := overwrites_localRemove (W := W) key
    refine ⟨fun g => (ih.maxCacheBytes _).trans (hfirst.maxCacheBytes g), fun g hmax k w hw => ?_⟩
    rcases ih.holds (g.localRemove key) (by rwa [hfirst.maxCacheBytes g]) k w hw with ⟨hk, hW⟩ |
      ⟨hk, hw⟩
    · exact Or.inl ⟨List.mem_cons_of_mem _ hk, hW⟩
    · obtain ⟨hne, hw⟩ := Group.holds_localRemove hmax hw
      exact Or.inr ⟨by simp [hne, hk], hw⟩

theorem callOwner_eq_callAll (pick : Option Client × Bool) :
    callOwner σ pick (fun c => Cluster.callPeer o σ c f) =
      ((Cluster.callAll o σ ((ownerCalls pick).map (·, f))).1,
        (Cluster.callAll o σ ((ownerCalls pick).map (·, f))).2.head?) := by
  rcases pick with ⟨_ | c, _ | _⟩
  · rfl
  · rfl
  · rfl
  · rcases hp : Cluster.callPeer o σ c f with ⟨σ', _ | e⟩ <;>
      simp [callOwner, ownerCalls, Cluster.callAll, hp]

theorem remove_eq_spread : (remove site o σ x key).1 =
    Cluster.spread o (removeCall key) (fun g => g.localRemove key) σ x
      (ownerCalls ((site x).inst.pickPeer key)) (notOwner o σ x key (site x).inst) := by
  have hcall : callOwner σ ((site x).inst.pickPeer key) (fun c => removeFromPeer o σ c key) =
      ((Cluster.callAll o σ ((ownerCalls ((site x).inst.pickPeer key)).map (removeCall key))).1,
        (Cluster.callAll o σ ((ownerCalls ((site x).inst.pickPeer key)).map
          (removeCall key))).2.head?) := callOwner_eq_callAll _
  have hreports : ∀ {σ ps}, Cluster.callAll o σ (ps.map (removeCall key)) =
    ((reports o key σ ps).1, (reports o key σ ps).2.filterMap (·.2)) := callAll_eq_reports
  rw [remove_eq, Cluster.spread, hcall]
  cases (Cluster.callAll o σ ((ownerCalls ((site x).inst.pickPeer key)).map (removeCall key))).2
  · simp only [List.head?_nil, cleared, midway, hcall, hreports]
  · rfl

theorem set_eq_spread (hkey : key ≠ []) (hmax : 0 < (σ.groups x).maxCacheBytes)
    (hr : (set site o σ x key value expire).2 ≠ .panic) : (set site o σ x key value expire).1 =
    Cluster.spread o (setCall key value expire) (fun g => g.update key (.withExpire value expire))
      σ x (ownerCalls ((site x).inst.pickPeer key))
      (others o σ x key value expire (site x).inst) := by
  rw [set_eq hkey hmax] at hr ⊢
  unfold Cluster.spread
  split at hr <;> rename_i herrs <;> rw [herrs]
  by_cases hsurvives : Survives o ((site x).inst.pickPeer key).1 (site x).logger key value expire
      (updated o σ x key value expire ((site x).inst.pickPeer key)).next
      ((o.peers (updated o σ x key value expire ((site x).inst.pickPeer key)).tick).order
        (site x).inst.getAllPeers)
  · simp only [setAll_of_survives hsurvives]
    rfl
  · exact (hr (setAll_of_not_survives hsurvives)).elim

end Methods

/-- The nodes whose caches a `Set` changes. -/
def setReached (site : GoString → Site) (o : Oracle) (σ : Cluster) (x key : GoString)
    (value : Option GoString) (expire : Time) : List GoString :=
  if key = [] ∨ (σ.groups x).maxCacheBytes ≤ 0 then []
  else reachedNodes o (setCall key value expire) (fun g => g.update key (.withExpire value expire))
    σ x (ownerCalls ((site x).inst.pickPeer key)) (others o σ x key value expire (site x).inst)

/-- The nodes whose caches a `Remove` changes. -/
def removeReached (site : GoString → Site) (o : Oracle) (σ : Cluster) (x key : GoString) :
    List GoString :=
  reachedNodes o (removeCall key) (fun g => g.localRemove key) σ x
    (ownerCalls ((site x).inst.pickPeer key)) (notOwner o σ x key (site x).inst)

/-- The nodes that a `RemoveKeys` removes the key from. -/
def keysReached (site : GoString → Site) (o : Oracle) (σ : Cluster) (x : GoString)
    (keys : List GoString) (key : GoString) : List GoString :=
  let sent := carriedOut o requestCall (keysCleared σ x keys).next
    ((o.requests (keysCleared σ x keys).tick).order (keyRequests (site x).inst keys))
  x :: (sent.filter fun q => key ∈ q.2).map (·.1.hashKey)

end Cluster

/-- The cluster, and its history with the nodes that each write has reached. -/
structure Tracked where
  cluster : Cluster
  hist : History

def Result.ofGet : Except Err ByteView → Result
  | .ok v => .value v
  | .error e => .err e

/-- A whole call at a member, in which any peer call may fail, before or after the peer has carried
it out. A call that panics ends its process. -/
inductive TrackedStep (as : List GoString) (site : GoString → Site) :
    Tracked → GoString × Request × Result → Tracked → Prop
  | get {σ hist x key dest σ' r} (o : Oracle) (fuel : ℕ) (hx : x ∈ as)
      (h : Cluster.get site o fuel σ x key dest = some (σ', r)) :
      TrackedStep as site ⟨σ, hist⟩ (x, .get key dest, .ofGet r)
        ⟨σ', hist ++ loaded (.get key dest) (σ'.log.drop σ.log.length)⟩
  | set {σ hist x key value expire} (o : Oracle) (hx : x ∈ as)
      (h : (Cluster.set site o σ x key value expire).2 ≠ .panic) :
      TrackedStep as site ⟨σ, hist⟩
        (x, .set key value expire, (Cluster.set site o σ x key value expire).2)
        ⟨(Cluster.set site o σ x key value expire).1,
          hist ++ [⟨.set key value expire, .set key (value.getD []),
            σ.setReached site o x key value expire⟩]⟩
  | remove {σ hist x key} (o : Oracle) (hx : x ∈ as) :
      TrackedStep as site ⟨σ, hist⟩ (x, .remove key, (Cluster.remove site o σ x key).2)
        ⟨(Cluster.remove site o σ x key).1,
          hist ++ [⟨.remove key, .remove key, σ.removeReached site o x key⟩]⟩
  | removeKeys {σ hist x keys} (o : Oracle) (hx : x ∈ as) :
      TrackedStep as site ⟨σ, hist⟩ (x, .removeKeys keys, (Cluster.removeKeys site o σ x keys).2)
        ⟨(Cluster.removeKeys site o σ x keys).1,
          hist ++ keys.map fun key =>
            ⟨.removeKeys keys, .remove key, σ.keysReached site o x keys key⟩⟩

/-- Calls one after the other at the members of a cluster of new groups. -/
def trackedLTS (as : List GoString) (site : GoString → Site) :
    Lib.LTS Tracked (GoString × Request × Result) where
  Init T := T.hist = [] ∧ ∀ x ∈ as, ∃ cacheBytes > 0, T.cluster.groups x = .new cacheBytes
  Step := TrackedStep as site

/-- No member is behind a write that has reached it and the owner. -/
structure Confined (as : List GoString) (owner : GoString → GoString) (T : Tracked) : Prop where
  positive : ∀ y ∈ as, 0 < (T.cluster.groups y).maxCacheBytes
  copies : ∀ y ∈ as, ∀ k v, (T.cluster.groups y).Holds k v → FreshAt owner T.hist y k v.bytes
  first : OwnerFirst owner T.hist

section Confined

variable {site : GoString → Site} {σ σ' : Cluster} {es : History}
  {W R : GoString → GoString → Prop} {o : Oracle} {key : GoString} {keys : List GoString}

theorem Confined.spreading (h : Confined as owner ⟨σ, hist⟩) (W : GoString → GoString → Prop) :
    σ.Spreading as owner hist W fun _ _ => False :=
  ⟨h.positive, fun y hy k v hv => Or.inr ⟨id, h.copies y hy k v hv⟩⟩

theorem Cluster.Spreading.confined (h : σ'.Spreading as owner hist W R)
    (hW : ∀ k y b, R k y → W k b → FreshAt owner (hist ++ es) y k b)
    (hes : ∀ e ∈ es, ∀ k y, e.event.Writes k → y ∈ e.reached → R k y)
    (hfirst : OwnerFirst owner hist) (hfirst' : OwnerFirst owner es) :
    Confined as owner ⟨σ', hist ++ es⟩ := by
  refine ⟨h.positive, fun y hy k v hv => ?_, hfirst.append hfirst'⟩
  rcases h.copies y hy k v hv with ⟨hR, hw⟩ | ⟨hR, hold⟩
  · exact hW k y v.bytes hR hw
  · exact hold.append fun e he hw hy => hR (hes e he k y hw hy)

/-- The client of the owner, as a member picks it. -/
theorem pick_owner (hown : SameOwner as (fun x => (site x).inst) owner)
    (hknows : Knows as x (site x).inst) (hx : x ∈ as) (key : GoString) :
    ∃ c, (site x).inst.pickPeer key = (some c, !c.info.isSelf) ∧ c.hashKey = owner key ∧
      (c.info.isSelf = true → c.hashKey = x) := by
  have howner := hown x hx key
  rcases hknows.pick key with hpick | ⟨c, hpick, _, hself⟩
  · simp [hpick] at howner
  · exact ⟨c, hpick, by simpa [hpick] using howner, hself.mp⟩

theorem confined_get {fuel : ℕ} {dest : Option Sink} {r : Except Err ByteView}
    (hknows : ∀ x ∈ as, Knows as x (site x).inst)
    (hown : SameOwner as (fun x => (site x).inst) owner) (h : Confined as owner ⟨σ, hist⟩)
    (hx : x ∈ as) (hr : Cluster.get site o fuel σ x key dest = some (σ', r)) :
    Confined as owner ⟨σ', hist ++ loaded (.get key dest) (σ'.log.drop σ.log.length)⟩ ∧
      ∀ v, r = .ok v → FreshAt owner
        (hist ++ loaded (.get key dest) (σ'.log.drop σ.log.length)) x key v.bytes := by
  have hstart : σ.Within as
      (fun news y k b => FreshAt owner (hist ++ loaded (.get key dest) news) y k b) σ.log [] :=
    ⟨by simp, fun y hy k v hv => (h.copies y hy k v hv).append (by simp [loaded])⟩
  obtain ⟨news, hend, hv⟩ := hstart.get (serves_freshAt _ key hown h.first) hknows fuel hx hr
  have hnews : σ'.log.drop σ.log.length = news := by rw [hend.log, List.drop_left]
  rw [hnews]
  refine ⟨⟨fun y hy => ?_, hend.copies, h.first.append (ownerFirst_loaded _ news)⟩, hv⟩
  rw [(Cluster.get_moves fuel hr y).limits.1]
  exact h.positive y hy

theorem ownerFirst_reached {call : Client → Cluster.Call} {others : List Client}
    {here : Group ByteView → Group ByteView} {request : Request} {e : Event}
    (hown : SameOwner as (fun x => (site x).inst) owner) (hknows : Knows as x (site x).inst)
    (hx : x ∈ as) (hclient : ∀ p, (call p).1 = p) (he : ∀ k, e.Writes k → k = key) :
    OwnerFirst owner [⟨request, e, σ.reachedNodes o call here x
      (Cluster.ownerCalls ((site x).inst.pickPeer key)) others⟩] := by
  obtain ⟨c, hpick, howner, hself⟩ := pick_owner hown hknows hx key
  intro e' he' k hw hne
  obtain rfl := List.mem_singleton.mp he'
  obtain ⟨y, hy⟩ := List.exists_mem_of_ne_nil _ hne
  simp only [hpick] at hy ⊢
  rw [he k hw, ← howner]
  exact Or.inr (Cluster.owner_mem_reachedNodes hclient hself hy)

theorem confined_set {value : Option GoString} {expire : Time}
    (hknows : Knows as x (site x).inst) (hown : SameOwner as (fun x => (site x).inst) owner)
    (h : Confined as owner ⟨σ, hist⟩) (hx : x ∈ as)
    (hr : (σ.set site o x key value expire).2 ≠ .panic) :
    Confined as owner ⟨(σ.set site o x key value expire).1,
      hist ++ [⟨.set key value expire, .set key (value.getD []),
        σ.setReached site o x key value expire⟩]⟩ := by
  have hmax := h.positive x hx
  by_cases hkey : key = []
  · simp only [Cluster.set, Cluster.setReached, hkey, if_true, true_or]
    exact (h.spreading fun _ _ => False).confined (by simp) (by simp) h.first (by simp [OwnerFirst])
  · have hhere := Cluster.overwrites_update (v := .withExpire value expire) key
    have hcall := Cluster.overwrites_remoteSet (v := Cluster.received value expire) key
    simp only [Cluster.received, ByteView.bytes_withExpire] at hhere hcall
    rw [Cluster.set_eq_spread hkey hmax hr, Cluster.setReached, if_neg (by simp [hkey, hmax])]
    refine ((h.spreading _).spread (fun _ => rfl) (fun _ => hcall) hhere o x _ _).confined
      ?_ ?_ h.first ?_
    · rintro k y b ⟨rfl, hy⟩ rfl
      exact freshAt_last (Or.inr ⟨rfl, List.ne_nil_of_mem hy⟩)
    · intro e he k y hw hy
      obtain rfl := List.mem_singleton.mp he
      exact ⟨hw.symm, hy⟩
    · exact ownerFirst_reached hown hknows hx (fun _ => rfl) fun k hw => hw.symm

theorem confined_remove (hknows : Knows as x (site x).inst)
    (hown : SameOwner as (fun x => (site x).inst) owner) (h : Confined as owner ⟨σ, hist⟩)
    (hx : x ∈ as) : Confined as owner ⟨(σ.remove site o x key).1,
      hist ++ [⟨.remove key, .remove key, σ.removeReached site o x key⟩]⟩ := by
  rw [Cluster.remove_eq_spread, Cluster.removeReached]
  refine ((h.spreading fun _ _ => False).spread (fun _ => rfl)
    (fun _ => Cluster.overwrites_localRemove key) (Cluster.overwrites_localRemove key) o x _
      _).confined (fun _ _ _ _ hw => hw.elim) ?_ h.first ?_
  · intro e he k y hw hy
    obtain rfl := List.mem_singleton.mp he
    exact ⟨hw.symm, hy⟩
  · exact ownerFirst_reached hown hknows hx (fun _ => rfl) fun k hw => hw.symm

theorem confined_removeKeys (h : Confined as owner ⟨σ, hist⟩) :
    Confined as owner ⟨(σ.removeKeys site o x keys).1, hist ++ keys.map fun key =>
      ⟨.removeKeys keys, .remove key, σ.keysReached site o x keys key⟩⟩ := by
  by_cases hkeys : keys = []
  · simpa [Cluster.removeKeys, hkeys] using h
  · have hcount : Cluster.Overwrites (fun _ _ => False) (fun _ => False)
        fun g : Group ByteView => (g.count .removeKeysRequests 1).count .removedKeys keys.length :=
      ⟨fun _ => rfl, fun _ _ _ _ hv => Or.inr ⟨id, hv⟩⟩
    have hcleared := (((h.spreading fun _ _ => False).modify hcount x).modify
      (Cluster.overwrites_removeEach keys) x).next
    rw [Cluster.removeKeys_eq hkeys]
    refine (hcleared.callAll Cluster.requestCall (o := o) (K := fun q k => k ∈ q.2)
      fun q _ => Cluster.overwrites_removeEach q.2).confined
        (fun _ _ _ _ hw => hw.elim) ?_ h.first ?_
    · intro e he k y hw hy
      obtain ⟨key, hkey, rfl⟩ := List.mem_map.mp he
      obtain rfl : key = k := hw
      rcases List.mem_cons.mp hy with rfl | hy
      · exact Or.inl (Or.inr ⟨rfl, hkey⟩)
      · obtain ⟨q, hq, rfl⟩ := List.mem_map.mp hy
        obtain ⟨hmem, hk⟩ := List.mem_filter.mp hq
        exact Or.inr ⟨q, hmem, rfl, by simpa using hk⟩
    · intro e he k _ _
      obtain ⟨key, _, rfl⟩ := List.mem_map.mp he
      exact Or.inl trivial

variable {T T' : Tracked} {l : GoString × Request × Result}
  {cs : List (GoString × Request × Result)}

theorem confined_step (hknows : ∀ x ∈ as, Knows as x (site x).inst)
    (hown : SameOwner as (fun x => (site x).inst) owner) (hs : TrackedStep as site T l T')
    (h : Confined as owner T) : Confined as owner T' := by
  cases hs with
  | get _ fuel hx hget => exact (confined_get hknows hown h hx hget).1
  | @set _ _ x _ _ _ _ hx hr => exact confined_set (hknows x hx) hown h hx hr
  | @remove _ _ x _ _ hx => exact confined_remove (hknows x hx) hown h hx
  | removeKeys => exact confined_removeKeys h

theorem confined_run (hknows : ∀ x ∈ as, Knows as x (site x).inst)
    (hown : SameOwner as (fun x => (site x).inst) owner) (h : (trackedLTS as site).Run cs T) :
    Confined as owner T := by
  refine h.invariant (I := fun _ T => Confined as owner T) ?_ ?_
  · rintro ⟨σ, _⟩ ⟨rfl, hnew⟩
    refine ⟨fun y hy => ?_, fun y hy k v hv => ?_, by simp [OwnerFirst]⟩ <;>
      obtain ⟨n, hn, heq⟩ := hnew y hy
    · rw [heq]
      exact hn
    · rw [heq] at hv
      exact (Group.not_holds_new n hv).elim
  · exact fun _ T l T' _ hc hs => confined_step hknows hown hs hc

theorem exists_sameOwner {hashFn : HashFn} {replicas : ℤ} {inst : GoString → Instance}
    (hone : OneOwner hashFn replicas as)
    (hinst : ∀ x ∈ as, ∃ order : List GoString, order.Perm as ∧
      Installed hashFn replicas (memberPeers x order) (inst x)) :
    ∃ owner, SameOwner as inst owner := by
  choose! order horder using hinst
  choose owner howner _ using hone order inst horder
  exact ⟨owner, fun x hx key => howner key x hx⟩

/-- Whatever peer calls fail, a `Set` or `Remove` that has reached any node has reached the owner,
and no member holds or returns a value older than a `Set` or `Remove` of the key that has reached
it, or than a `RemoveKeys` that has reached it and the owner. -/
theorem staleness_confined {hashFn : HashFn} {replicas : ℤ} (hone : OneOwner hashFn replicas as)
    (hinst : ∀ x ∈ as, ∃ order : List GoString, order.Perm as ∧
      Installed hashFn replicas (memberPeers x order) (site x).inst)
    (h : (trackedLTS as site).Run cs T) :
    ∃ owner, SameOwner as (fun x => (site x).inst) owner ∧
      (∀ y ∈ as, ∀ k v, (T.cluster.groups y).Holds k v → FreshAt owner T.hist y k v.bytes) ∧
      (∀ x key dest v T', TrackedStep as site T (x, .get key dest, .value v) T' →
        FreshAt owner T'.hist x key v.bytes) ∧
      OwnerFirst owner T.hist := by
  obtain ⟨owner, hown⟩ := exists_sameOwner hone hinst
  have hknows : ∀ x ∈ as, Knows as x (site x).inst := by
    intro x hx
    obtain ⟨order, hperm, hinst⟩ := hinst x hx
    exact hinst.knows hperm
  have hconfined := confined_run hknows hown h
  refine ⟨owner, hown, hconfined.copies, ?_, hconfined.first⟩
  intro x key dest v T' hs
  generalize hl : (x, Request.get key dest, Result.value v) = l at hs
  cases hs with
  | @get _ _ _ _ _ _ r _ fuel hx hget =>
    cases r with
    | error e => cases hl
    | ok w =>
      cases hl
      exact (confined_get hknows hown hconfined hx hget).2 _ rfl
  | set | remove | removeKeys => cases hl

theorem Result.ne_panic {r : Result} (h : r.isPanic = false) : r ≠ .panic := by
  rintro rfl
  cases h

/-- `A` keeps the value of the first `Set`, since the second has not reached it. -/
theorem staleness_confined_hosts : ∃ cs T, (trackedLTS [hostB, hostA] hostSite).Run cs T ∧
    (T.cluster.groups hostA).Holds [7] (.withExpire (some [1]) .zero) ∧
    (T.cluster.groups hostB).Holds [7] (.withExpire (some [2]) .zero) ∧
    ∃ owner, SameOwner [hostB, hostA] (fun x => (hostSite x).inst) owner ∧
      FreshAt owner T.hist hostA [7] (ByteView.withExpire (some [1]) .zero).bytes ∧
      OwnerFirst owner T.hist := by
  -- the state stays a variable, so that nothing unfolds the two calls
  suffices hrun : ∃ cs σ hist, (trackedLTS [hostB, hostA] hostSite).Run cs ⟨σ, hist⟩ ∧
      (σ.groups hostA).Holds [7] (.withExpire (some [1]) .zero) ∧
      (σ.groups hostB).Holds [7] (.withExpire (some [2]) .zero) by
    obtain ⟨cs, σ, hist, hrun, hA, hB⟩ := hrun
    obtain ⟨owner, hown, hcopies, _, hfirst⟩ := staleness_confined
      (one_owner_of_separated (by decide) (by decide) hosts_collisionFree hosts_separated)
      (fun x hx => ⟨_, .refl _, hostInst_installed hx⟩) hrun
    exact ⟨cs, ⟨σ, hist⟩, hrun, hA, hB, owner, hown, hcopies hostA (by simp) [7] _ hA, hfirst⟩
  have h₀ : (trackedLTS [hostB, hostA] hostSite).Run [] ⟨.start 1000, []⟩ :=
    .init ⟨rfl, fun _ _ => ⟨1000, by decide, rfl⟩⟩
  have h₁ := h₀.step (show TrackedStep _ _ _ (hostA, .set [7] (some [1]) .zero, _) _ from
    .set hostOracle (by simp) (Result.ne_panic (by decide +kernel)))
  have h₂ := h₁.step (show TrackedStep _ _ _ (hostB, .set [7] (some [2]) .zero, _) _ from
    .set Cluster.downOracle (by simp) (Result.ne_panic (by decide +kernel)))
  exact ⟨_, _, _, h₂, Or.inl (by decide +kernel), Or.inl (by decide +kernel)⟩

end Confined

end Groupcache
