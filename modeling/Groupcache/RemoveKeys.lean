import Groupcache.Coherence

/-! `RemoveKeys` against `Remove` of each key in turn: what each of them leaves in the caches. -/
namespace Groupcache

open Transport Peer

namespace Group

variable {V : Type} [CacheValue V] {g g' g'' : Group V} {k : GoString} {P Q : GoString → Prop}

open Classical in
/-- `g'` has the contents of `g` but for the entries of the keys that are gone. -/
structure Erased (g g' : Group V) (gone : GoString → Prop) : Prop where
  maxCacheBytes : g'.maxCacheBytes = g.maxCacheBytes
  main : g'.mainCache.raw.entries = g.mainCache.raw.entries.filter (¬ gone ·.key)
  hot : g'.hotCache.raw.entries = g.hotCache.raw.entries.filter (¬ gone ·.key)

theorem erased_none : Erased g g fun _ => False := ⟨rfl, by simp, by simp⟩

theorem Erased.congr (h : Erased g g' P) (hPQ : ∀ a, P a ↔ Q a) : Erased g g' Q := by
  obtain rfl : P = Q := funext fun a => propext (hPQ a)
  exact h

theorem Erased.trans (h : Erased g g' P) (h' : Erased g' g'' Q) :
    Erased g g'' fun a => P a ∨ Q a := by
  refine ⟨h'.maxCacheBytes.trans h.maxCacheBytes, ?_, ?_⟩
  · rw [h'.main, h.main, List.filter_filter]
    refine List.filter_congr fun e _ => ?_
    by_cases hP : P e.key <;> simp [hP]
  · rw [h'.hot, h.hot, List.filter_filter]
    refine List.filter_congr fun e _ => ?_
    by_cases hP : P e.key <;> simp [hP]

theorem erased_localRemove (hmax : 0 < g.maxCacheBytes) (k : GoString) :
    Erased g (g.localRemove k) (· = k) := by
  rw [localRemove, if_neg (by omega)]
  refine ⟨rfl, ?_, ?_⟩
  · simp [Cache.remove, MutexCache.remove_entries g.mainCache.wf]
  · simp [Cache.remove, MutexCache.remove_entries g.hotCache.wf]

theorem not_holds_iff : (∀ v, ¬ g.Holds k v) ↔
    (∀ e ∈ g.mainCache.raw.entries, e.key ≠ k) ∧ ∀ e ∈ g.hotCache.raw.entries, e.key ≠ k := by
  have hcache : ∀ c : Cache V, (∀ v, c.find? k ≠ some v) ↔ ∀ e ∈ c.raw.entries, e.key ≠ k := by
    intro c
    rw [← Option.eq_none_iff_forall_ne_some]
    simp [Cache.find?, MutexCache.lookupEntry]
  simp only [Holds, not_or, forall_and]
  exact and_congr (hcache g.mainCache) (hcache g.hotCache)

/-- A key is no longer held exactly if it is gone or was not held before. -/
theorem Erased.not_holds_iff (h : Erased g g' P) :
    (∀ v, ¬ g'.Holds k v) ↔ P k ∨ ∀ v, ¬ g.Holds k v := by
  rw [Group.not_holds_iff, Group.not_holds_iff, h.main, h.hot]
  by_cases hk : P k
  · simp only [hk, true_or, iff_true, List.mem_filter, decide_eq_true_eq]
    exact ⟨fun e he heq => he.2 (heq ▸ hk), fun e he heq => he.2 (heq ▸ hk)⟩
  · simp only [hk, false_or, List.mem_filter, decide_eq_true_eq, and_imp]
    constructor
    · rintro ⟨hm, hh⟩
      exact ⟨fun e he heq => hm e he (heq ▸ hk) heq, fun e he heq => hh e he (heq ▸ hk) heq⟩
    · rintro ⟨hm, hh⟩
      exact ⟨fun e he _ => hm e he, fun e he _ => hh e he⟩

/-- The entries of both caches, in order. -/
def SameEntries (g g' : Group V) : Prop :=
  g.mainCache.raw.entries = g'.mainCache.raw.entries ∧
    g.hotCache.raw.entries = g'.hotCache.raw.entries

/-- Erasing fewer keys gives the same caches exactly if the other keys were not held. -/
theorem Erased.sameEntries_iff (h : Erased g g' P) (h' : Erased g g'' Q) (hPQ : ∀ a, P a → Q a) :
    SameEntries g' g'' ↔ ∀ k, Q k → ¬ P k → ∀ v, ¬ g.Holds k v := by
  constructor
  · rintro ⟨hmain, hhot⟩ k hQ hP
    have hgone := (h'.not_holds_iff (k := k)).mpr (Or.inl hQ)
    rw [Group.not_holds_iff, ← hmain, ← hhot, ← Group.not_holds_iff, h.not_holds_iff] at hgone
    exact hgone.resolve_left hP
  · intro hno
    have hfilter : ∀ e, (e ∈ g.mainCache.raw.entries ∨ e ∈ g.hotCache.raw.entries) →
        (P e.key ↔ Q e.key) := by
      intro e he
      refine ⟨hPQ e.key, fun hQ => ?_⟩
      by_contra hP
      obtain ⟨hm, hh⟩ := Group.not_holds_iff.mp (hno e.key hQ hP)
      exact he.elim (fun he => hm e he rfl) fun he => hh e he rfl
    refine ⟨?_, ?_⟩
    · rw [h.main, h'.main]
      exact List.filter_congr fun e he => by simp [hfilter e (Or.inl he)]
    · rw [h.hot, h'.hot]
      exact List.filter_congr fun e he => by simp [hfilter e (Or.inr he)]

end Group

namespace Cluster

variable {as : List GoString} {site : GoString → Site} {o : Oracle} {σ σ' σ'' : Cluster}
  {x : GoString} {keys : List GoString}

theorem erased_removeEach {g : Group ByteView} (hmax : 0 < g.maxCacheBytes)
    (keys : List GoString) : g.Erased (removeEach keys g) (· ∈ keys) := by
  induction keys generalizing g with
  | nil => exact Group.erased_none.congr (by simp)
  | cons k ks ih =>
    have h := Group.erased_localRemove hmax k
    exact (h.trans (ih (h.maxCacheBytes ▸ hmax))).congr (by simp)

/-- What every member is left with. -/
def ErasedAll (as : List GoString) (σ σ' : Cluster) (gone : GoString → GoString → Prop) : Prop :=
  ∀ y ∈ as, 0 < (σ.groups y).maxCacheBytes → (σ.groups y).Erased (σ'.groups y) (gone y)

variable {gone gone' : GoString → GoString → Prop}

theorem ErasedAll.trans (h : ErasedAll as σ σ' gone) (h' : ErasedAll as σ' σ'' gone') :
    ErasedAll as σ σ'' fun y a => gone y a ∨ gone' y a :=
  fun y hy hmax =>
    have h₁ := h y hy hmax
    h₁.trans (h' y hy (h₁.maxCacheBytes ▸ hmax))

theorem ErasedAll.congr (h : ErasedAll as σ σ' gone)
    (hg : ∀ y ∈ as, ∀ a, gone y a ↔ gone' y a) : ErasedAll as σ σ' gone' :=
  fun y hy hmax => (h y hy hmax).congr (hg y hy)

theorem erasedAll_refl : ErasedAll as σ σ fun _ _ => False := fun _ _ _ => Group.erased_none

theorem erasedAll_modify (x : GoString) (keys : List GoString) :
    ErasedAll as σ (σ.modify x (removeEach keys))
    fun y a => y = x ∧ a ∈ keys := by
  intro y hy hmax
  rcases σ.modify_groups (x := x) (f := removeEach keys) y with ⟨hne, heq⟩ | ⟨rfl, heq⟩
  · rw [heq]
    exact Group.erased_none.congr (by simp [hne])
  · rw [heq]
    exact (erased_removeEach hmax keys).congr (by simp)

/-- A request to remove keys is carried out by the peer it is made to. -/
theorem erasedAll_callPeer (as : List GoString) (σ : Cluster) (ho : o.Reliable) (c : Client)
    (keys : List GoString) :
    (callPeer o σ c (removeEach keys)).2 = none ∧
    ErasedAll as σ (callPeer o σ c (removeEach keys)).1
      fun y a => c.info.isSelf = false ∧ c.hashKey = y ∧ a ∈ keys := by
  unfold callPeer
  cases hself : c.info.isSelf with
  | true => exact ⟨rfl, erasedAll_refl.congr (by simp)⟩
  | false =>
    rw [if_neg Bool.false_ne_true, ho σ.tick]
    refine ⟨rfl, ?_⟩
    have h : ErasedAll as σ.next _ _ := erasedAll_modify c.hashKey keys
    exact h.congr (by simp [eq_comm])

/-- Requests to remove keys are all carried out, and collect no error. -/
theorem erasedAll_callAll (as : List GoString) (σ : Cluster) (ho : o.Reliable)
    (requests : List (Client × List GoString)) :
    (callAll o σ (requests.map fun q => (q.1, removeEach q.2))).2 = [] ∧
    ErasedAll as σ (callAll o σ (requests.map fun q => (q.1, removeEach q.2))).1
      fun y a => ∃ q ∈ requests, q.1.info.isSelf = false ∧ q.1.hashKey = y ∧ a ∈ q.2 := by
  induction requests generalizing σ with
  | nil => exact ⟨rfl, erasedAll_refl.congr (by simp)⟩
  | cons q requests ih =>
    obtain ⟨hnone, hq⟩ := erasedAll_callPeer as σ ho q.1 q.2
    obtain ⟨herrs, hrest⟩ := ih (callPeer o σ q.1 (removeEach q.2)).1
    refine ⟨by simp [callAll, hnone, herrs], (hq.trans hrest).congr fun y _ a => ?_⟩
    simp

/-- A remote owner is sent the key first. -/
theorem erasedAll_callOwner (ho : o.Reliable) (hknows : Knows as x (site x).inst)
    (key : GoString) :
    (callOwner σ ((site x).inst.pickPeer key) fun c => callPeer o σ c
      fun g => g.localRemove key).2 = none ∧
    ErasedAll as σ (callOwner σ ((site x).inst.pickPeer key) fun c => callPeer o σ c
      fun g => g.localRemove key).1
      fun y a => (y ≠ x ∧ ((site x).inst.pickPeer key).1.map (·.hashKey) = some y) ∧ a = key := by
  rcases callOwner_cases (σ := σ) hknows key
      fun c => callPeer o σ c fun g => g.localRemove key with
    ⟨hlocal, heq⟩ | ⟨c, hpick, hself, hne, heq⟩
  · rw [heq]
    exact ⟨rfl, erasedAll_refl.congr fun y _ a => ⟨False.elim, fun h => h.1.1 (hlocal y h.1.2)⟩⟩
  · rw [heq, hpick]
    obtain ⟨hnone, hq⟩ := erasedAll_callPeer as σ ho c [key]
    refine ⟨hnone, hq.congr fun y _ a => ?_⟩
    simp only [hself, true_and, List.mem_singleton, Option.map_some, Option.some.injEq]
    exact and_congr_left fun _ => ⟨fun hy => ⟨hy ▸ hne, hy⟩, And.right⟩

/-- `Remove` erases the key at every member. -/
theorem erasedAll_remove (ho : o.Reliable) (hknows : Knows as x (site x).inst) (key : GoString) :
    (remove site o σ x key).2 = .ok ∧
      ErasedAll as σ (remove site o σ x key).1 fun _ a => a = key := by
  obtain ⟨hnone, herased⟩ := erasedAll_callOwner ho hknows key
  unfold remove
  simp only [removeFromPeer]
  rcases hown : callOwner σ ((site x).inst.pickPeer key) _ with ⟨σ₁, err⟩
  rw [hown] at hnone herased
  subst hnone
  simp only
  generalize hothers : List.filter _ _ = others
  have hmem : ∀ c, c ∈ others ↔ c ∈ (site x).inst.getAllPeers ∧
      some c ≠ ((site x).inst.pickPeer key).1 := by
    intro c
    rw [← hothers, List.mem_filter, ((o.peers _).perm _).mem_iff]
    simp
  have hcalls : others.map (fun p => (p, fun g : Group ByteView => g.localRemove key)) =
      (others.map fun p => (p, [key])).map fun q => (q.1, removeEach q.2) := by
    rw [List.map_map]
    rfl
  obtain ⟨herrs, hall⟩ := erasedAll_callAll as (σ₁.modify x fun g => g.localRemove key).next ho
    (others.map fun p => (p, [key]))
  have hlocal : ErasedAll as σ₁ _ _ := erasedAll_modify x [key]
  rw [hcalls, herrs]
  refine ⟨rfl, ((herased.trans hlocal).trans hall).congr fun y hy a => ⟨?_, ?_⟩⟩
  · rintro ((⟨_, rfl⟩ | ⟨_, ha⟩) | ⟨q, hq, _, _, ha⟩)
    · rfl
    · exact List.mem_singleton.mp ha
    · obtain ⟨p, _, rfl⟩ := List.mem_map.mp hq
      exact List.mem_singleton.mp ha
  · rintro rfl
    by_cases hyx : y = x
    · exact Or.inl (Or.inr ⟨hyx, List.mem_singleton_self a⟩)
    · obtain ⟨c, hc, hcy, hself⟩ := hknows.exists_remote hy hyx
      by_cases howner : some c = ((site x).inst.pickPeer a).1
      · exact Or.inl (Or.inl ⟨⟨hyx, by rw [← howner, Option.map_some, hcy]⟩, rfl⟩)
      · exact Or.inr ⟨(c, [a]), List.mem_map_of_mem ((hmem c).mpr ⟨hc, howner⟩), hself, hcy,
          List.mem_singleton_self a⟩

/-- `Remove` of each key in turn. -/
def removeInTurn (site : GoString → Site) (o : Oracle) (σ : Cluster) (x : GoString)
    (keys : List GoString) : Cluster :=
  keys.foldl (fun σ key => (remove site o σ x key).1) σ

theorem erasedAll_removeInTurn (σ : Cluster) (ho : o.Reliable) (hknows : Knows as x (site x).inst)
    (keys : List GoString) :
    ErasedAll as σ (removeInTurn site o σ x keys) fun _ a => a ∈ keys := by
  induction keys generalizing σ with
  | nil => exact erasedAll_refl.congr (by simp)
  | cons k ks ih =>
    have h := (erasedAll_remove (σ := σ) ho hknows k).2
    exact (h.trans (ih _)).congr (by simp)

/-- The keys that `x` sends to the client as their remote owner. -/
def ownedKeys (inst : Instance) (c : Client) (keys : List GoString) : List GoString :=
  keys.filter fun key => inst.pickPeer key = (some c, true)

theorem keysByOwner_lookup (inst : Instance) (c : Client) (keys : List GoString) :
    (keysByOwner inst keys).lookup c =
      if ownedKeys inst c keys = [] then none else some (ownedKeys inst c keys) := by
  induction keys using List.reverseRecOn with
  | nil => rfl
  | append_singleton ks key ih =>
    have hown : ownedKeys inst c (ks ++ [key]) = ownedKeys inst c ks ++
        if inst.pickPeer key = (some c, true) then [key] else [] := by
      simp [ownedKeys, List.filter_append, List.filter_cons]
    rw [keysByOwner, List.foldl_append, ← keysByOwner, hown]
    unfold List.foldl addKey
    split
    · rename_i owner hpick
      by_cases hc : c = owner
      · subst hc
        rw [List.foldl_nil, AList.lookup_insert, if_pos hpick, if_neg (by simp), ih]
        split <;> simp_all
      · have hne : inst.pickPeer key ≠ (some c, true) := by
          rw [hpick]
          simpa using Ne.symm hc
        rw [List.foldl_nil, AList.lookup_insert_ne hc, if_neg hne, List.append_nil, ih]
    · rename_i hpick
      rw [List.foldl_nil, if_neg (hpick c), List.append_nil, ih]

/-- At `x`, the owner of the key is the node `y`. -/
def OwnedBy (site : GoString → Site) (x key y : GoString) : Prop :=
  ((site x).inst.pickPeer key).1.map (·.hashKey) = some y

theorem ownedBy_iff (hknows : Knows as x (site x).inst) (hclients : KnowsClients (site x).inst)
    {c : Client} (hc : c ∈ (site x).inst.getAllPeers) (hself : c.info.isSelf = false)
    (key : GoString) :
    OwnedBy site x key c.hashKey ↔ (site x).inst.pickPeer key = (some c, true) := by
  constructor
  · intro h
    obtain ⟨c', hc', hkey⟩ := Option.map_eq_some_iff.mp h
    have hpick : (site x).inst.pickPeer key = (some c', ((site x).inst.pickPeer key).2) :=
      Prod.ext hc' rfl
    obtain rfl := hclients.inj c' (hclients.mem key c' _ hpick) c hc hkey
    rw [hpick, (hknows.of_pick hpick).1, hself, Bool.not_false]
  · intro h
    rw [OwnedBy, h]
    rfl

/-- A request of `RemoveKeys`: to a remote owner with its keys, or to another peer with all. -/
def IsRequest (inst : Instance) (keys : List GoString) (q : Client × List GoString) : Prop :=
  (keysByOwner inst keys).lookup q.1 = some q.2 ∨
    q.1 ∈ inst.getAllPeers ∧ q.1.info.isSelf = false ∧
      (keysByOwner inst keys).lookup q.1 = none ∧ q.2 = keys

theorem mem_requests (inst : Instance) (keys : List GoString) (q : Client × List GoString) :
    q ∈ (keysByOwner inst keys).entries.map (fun e => (e.1, e.2)) ++
      (inst.getAllPeers.filter fun p =>
        !p.info.isSelf && ((keysByOwner inst keys).lookup p).isNone).map (fun p => (p, keys)) ↔
      IsRequest inst keys q := by
  rw [List.mem_append, List.mem_map, List.mem_map]
  constructor
  · rintro (⟨⟨c, ks⟩, hmem, rfl⟩ | ⟨c, hmem, rfl⟩)
    · exact Or.inl (AList.mem_lookup_iff.mpr hmem)
    · obtain ⟨hc, hother⟩ := List.mem_filter.mp hmem
      exact Or.inr ⟨hc, by simpa using hother⟩
  · rintro (hsome | ⟨hc, hself, hnone, hall⟩)
    · exact Or.inl ⟨⟨q.1, q.2⟩, AList.mem_lookup_iff.mp hsome, rfl⟩
    · exact Or.inr ⟨q.1, List.mem_filter.mpr ⟨hc, by simp [hself, hnone]⟩, by rw [← hall]⟩

theorem IsRequest.subset {inst : Instance} {q : Client × List GoString} {a : GoString}
    (h : IsRequest inst keys q) (ha : a ∈ q.2) : a ∈ keys := by
  rcases h with hsome | ⟨_, _, _, hall⟩
  · rw [keysByOwner_lookup] at hsome
    split at hsome
    · cases hsome
    · rw [← Option.some.inj hsome] at ha
      exact (List.mem_filter.mp ha).1
  · rwa [hall] at ha

/-- The requests of `RemoveKeys` reach `y` with the keys it owns, or with all if it owns none. -/
theorem requested_iff (hknows : Knows as x (site x).inst) (hclients : KnowsClients (site x).inst)
    {y : GoString} (hy : y ∈ as) (hyx : y ≠ x) (keys : List GoString) (a : GoString)
    {requests : List (Client × List GoString)}
    (hreq : ∀ q, q ∈ requests ↔ IsRequest (site x).inst keys q) :
    (∃ q ∈ requests, q.1.info.isSelf = false ∧ q.1.hashKey = y ∧ a ∈ q.2) ↔
      a ∈ keys ∧ (OwnedBy site x a y ∨ ∀ k ∈ keys, ¬ OwnedBy site x k y) := by
  obtain ⟨c, hc, rfl, hself⟩ := hknows.exists_remote hy hyx
  have howned : ∀ k, k ∈ ownedKeys (site x).inst c keys ↔
      k ∈ keys ∧ OwnedBy site x k c.hashKey := by
    intro k
    rw [ownedBy_iff hknows hclients hc hself]
    simp [ownedKeys]
  have hlookup := keysByOwner_lookup (site x).inst
  constructor
  · rintro ⟨⟨c', ks⟩, hq, _, hkey, ha⟩
    rcases (hreq _).mp hq with hsome | ⟨hc', _, hnone, rfl⟩
    · rw [hlookup] at hsome
      split at hsome
      · cases hsome
      · have hown : a ∈ ownedKeys (site x).inst c' keys := by
          rw [show ownedKeys (site x).inst c' keys = ks from Option.some.inj hsome]
          exact ha
        have hpick : (site x).inst.pickPeer a = (some c', true) := by
          simpa using (List.mem_filter.mp hown).2
        obtain rfl := hclients.inj c' (hclients.mem a c' true hpick) c hc hkey
        exact ⟨((howned a).mp hown).1, Or.inl ((howned a).mp hown).2⟩
    · obtain rfl := hclients.inj c' hc' c hc hkey
      refine ⟨ha, Or.inr fun k hk hown => ?_⟩
      rw [hlookup, if_neg (List.ne_nil_of_mem ((howned k).mpr ⟨hk, hown⟩))] at hnone
      cases hnone
  · rintro ⟨ha, hown | hnone⟩
    · have hmem := (howned a).mpr ⟨ha, hown⟩
      refine ⟨(c, ownedKeys (site x).inst c keys), (hreq _).mpr (Or.inl ?_), hself, rfl, hmem⟩
      rw [hlookup, if_neg (List.ne_nil_of_mem hmem)]
    · refine ⟨(c, keys), (hreq _).mpr (Or.inr ⟨hc, hself, ?_, rfl⟩), hself, rfl, ha⟩
      rw [hlookup, if_pos]
      rw [List.eq_nil_iff_forall_not_mem]
      intro k hk
      exact hnone k ((howned k).mp hk).1 ((howned k).mp hk).2

theorem erasedAll_count (σ : Cluster) (x : GoString) (f : Group ByteView → Group ByteView)
    (hf : ∀ g, ∃ stats, f g = { g with stats := stats }) :
    ErasedAll as σ (σ.modify x f) fun _ _ => False := by
  intro y _ _
  rcases σ.modify_groups (x := x) (f := f) y with ⟨_, heq⟩ | ⟨rfl, heq⟩
  · rw [heq]
    exact Group.erased_none
  · obtain ⟨stats, hstats⟩ := hf (σ.groups y)
    rw [heq, hstats]
    exact ⟨rfl, by simp, by simp⟩

/-- `RemoveKeys` returns nil and erases the whole list at `x`, and elsewhere what was sent. -/
theorem erasedAll_removeKeys (ho : o.Reliable) (hknows : Knows as x (site x).inst)
    (hclients : KnowsClients (site x).inst) (hkeys : keys ≠ []) :
    (removeKeys site o σ x keys).2 = .ok ∧
      ErasedAll as σ (removeKeys site o σ x keys).1 fun y a => a ∈ keys ∧
        (y = x ∨ OwnedBy site x a y ∨ ∀ k ∈ keys, ¬ OwnedBy site x k y) := by
  unfold removeKeys
  rw [if_neg hkeys]
  simp only
  generalize hreqs : (o.requests _).order _ = requests
  have hreq : ∀ q, q ∈ requests ↔ IsRequest (site x).inst keys q := by
    intro q
    rw [← hreqs, ((o.requests _).perm _).mem_iff]
    exact mem_requests (site x).inst keys q
  set σ₁ := σ.modify x fun g => (g.count .removeKeysRequests 1).count .removedKeys keys.length
  have hcount : ErasedAll as σ σ₁ fun _ _ => False :=
    erasedAll_count σ x _ fun g => ⟨_, rfl⟩
  have hlocal : ErasedAll as σ₁ _ _ := erasedAll_modify x keys
  obtain ⟨herrs, hall⟩ := erasedAll_callAll as (σ₁.modify x (removeEach keys)).next ho requests
  rw [herrs]
  refine ⟨rfl, ((hcount.trans hlocal).trans hall).congr fun y hy a => ?_⟩
  by_cases hyx : y = x
  · simp only [hyx, true_and, false_or, true_or, and_true]
    exact ⟨fun h => h.elim id fun ⟨q, hq, _, _, ha⟩ => ((hreq q).mp hq).subset ha, Or.inl⟩
  · simp only [hyx, false_and, or_self, false_or]
    exact requested_iff hknows hclients hy hyx keys a hreq

/-- Whatever remote owner of a listed key holds of the list, it owns. -/
def NoStray (as : List GoString) (site : GoString → Site) (σ : Cluster) (x : GoString)
    (keys : List GoString) : Prop :=
  ∀ y ∈ as, y ≠ x → (∃ k ∈ keys, OwnedBy site x k y) →
    ∀ k ∈ keys, ¬ OwnedBy site x k y → ∀ v, ¬ (σ.groups y).Holds k v

theorem noStray_iff : NoStray as site σ x keys ↔ ∀ y ∈ as, ∀ k, k ∈ keys →
    ¬ (k ∈ keys ∧ (y = x ∨ OwnedBy site x k y ∨ ∀ k' ∈ keys, ¬ OwnedBy site x k' y)) →
    ∀ v, ¬ (σ.groups y).Holds k v := by
  constructor
  · intro h y hy k hk hkept
    have hyx : y ≠ x := fun hyx => hkept ⟨hk, Or.inl hyx⟩
    have hnot : ¬ OwnedBy site x k y := fun hown => hkept ⟨hk, Or.inr (Or.inl hown)⟩
    refine h y hy hyx ?_ k hk hnot
    by_contra hnone
    exact hkept ⟨hk, Or.inr (Or.inr fun k' hk' hown => hnone ⟨k', hk', hown⟩)⟩
  · rintro h y hy hyx ⟨k', hk', hown'⟩ k hk hnot
    refine h y hy k hk ?_
    rintro ⟨_, hyx' | hown | hnone⟩
    · exact hyx hyx'
    · exact hnot hown
    · exact hnone k' hk' hown'

end Cluster

/-- `RemoveKeys` returns nil; it clears the list from the cluster, and does what `Remove` of each
key does, exactly if no remote owner of a listed key holds a listed key of another owner. -/
theorem removeKeys_clears_iff {as : List GoString} {site : GoString → Site} {o : Oracle}
    {σ : Cluster} {x : GoString} {keys : List GoString} (hnd : as.Nodup)
    (hag : Agreed as fun x => (site x).inst) (ho : o.Reliable)
    (hpos : ∀ y ∈ as, 0 < (σ.groups y).maxCacheBytes) (hx : x ∈ as) (hkeys : keys ≠ []) :
    (Cluster.removeKeys site o σ x keys).2 = .ok ∧
    ((∀ y ∈ as, ∀ k ∈ keys, ∀ v, ¬ ((Cluster.removeKeys site o σ x keys).1.groups y).Holds k v) ↔
      Cluster.NoStray as site σ x keys) ∧
    ((∀ y ∈ as, ((Cluster.removeKeys site o σ x keys).1.groups y).SameEntries
        ((Cluster.removeInTurn site o σ x keys).groups y)) ↔
      Cluster.NoStray as site σ x keys) := by
  have hknows := hag.knows hx
  obtain ⟨hok, herased⟩ := Cluster.erasedAll_removeKeys (σ := σ) ho hknows
    (hag.knowsClients hnd hx) hkeys
  have hturn := Cluster.erasedAll_removeInTurn σ ho hknows keys
  refine ⟨hok, ?_, ?_⟩
  · rw [Cluster.noStray_iff]
    refine forall₂_congr fun y hy => forall₂_congr fun k hk => ?_
    rw [(herased y hy (hpos y hy)).not_holds_iff, or_iff_not_imp_left]
  · rw [Cluster.noStray_iff]
    refine forall₂_congr fun y hy => ?_
    exact (herased y hy (hpos y hy)).sameEntries_iff (hturn y hy (hpos y hy)) fun a h => h.1

/-- A key the first member owns. -/
def ownKey : GoString := List.replicate 8 60

/-- The cluster after the first member set one of its own keys. -/
def afterSet : Cluster :=
  (Cluster.set hostSite hostOracle (.start 1000) hostA ownKey (some [1]) .zero).1

/-- The cluster after it set that key while the other member could not be reached, and then one of
the other member's keys. -/
def afterSets : Cluster :=
  let unreached := { hostOracle with fault := fun _ => some ⟨.other "connection refused", false⟩ }
  let σ := (Cluster.set hostSite unreached (.start 1000) hostA ownKey (some [1]) .zero).1
  (Cluster.set hostSite hostOracle σ hostA [7] (some [2]) .zero).1

theorem afterSets_positive : ∀ y ∈ [hostB, hostA], 0 < (afterSets.groups y).maxCacheBytes := by
  decide +kernel

/-- A key of each member's. -/
def bothKeys : List GoString := [[7], ownKey]

theorem noStray_afterSets :
    Cluster.NoStray [hostB, hostA] hostSite afterSets hostA bothKeys := by
  have hnone : (afterSets.groups hostB).mainCache.find? ownKey = none ∧
      (afterSets.groups hostB).hotCache.find? ownKey = none := by decide +kernel
  have hown : Cluster.OwnedBy hostSite hostA [7] hostB := by
    rw [Cluster.OwnedBy]
    decide +kernel
  intro y hy hyx _ k hk hnot v hv
  obtain rfl : y = hostB := by simpa [hyx] using hy
  rcases List.mem_pair.mp hk with rfl | rfl
  · exact hnot hown
  · simp [Group.Holds, hnone] at hv

/-- Both members hold the first key, and only its owner holds the second. -/
theorem removeKeys_clears_afterSet :
    (afterSets.groups hostB).Holds [7] (.withExpire (some [2]) .zero) ∧
    (afterSets.groups hostA).Holds ownKey (.withExpire (some [1]) .zero) ∧
    (Cluster.removeKeys hostSite hostOracle afterSets hostA bothKeys).2 = .ok ∧
    ∀ y ∈ [hostB, hostA], ∀ k ∈ bothKeys, ∀ v,
      ¬ ((Cluster.removeKeys hostSite hostOracle afterSets hostA bothKeys).1.groups y).Holds
        k v := by
  have hag : Agreed [hostB, hostA] fun x => (hostSite x).inst := hostInst_agreed
  have ho : hostOracle.Reliable := fun _ => rfl
  have hx : hostA ∈ [hostB, hostA] := by decide
  have hkeys : bothKeys ≠ [] := List.cons_ne_nil _ _
  obtain ⟨hok, hclears, _⟩ := removeKeys_clears_iff (by decide) hag ho afterSets_positive hx hkeys
  exact ⟨Or.inl (by decide +kernel), Or.inl (by decide +kernel), hok,
    hclears.mpr noStray_afterSets⟩

/-- The second member owns the first key of the list and is sent only that one; its copy of the
second key stays. -/
theorem removeKeys_leaves_copy :
    (Cluster.removeKeys hostSite hostOracle afterSet hostA [[7], ownKey]).2 = .ok ∧
    ((Cluster.removeKeys hostSite hostOracle afterSet hostA [[7], ownKey]).1.groups hostB).Holds
      ownKey (.withExpire (some [1]) .zero) :=
  ⟨Result.eq_ok (by decide +kernel), Or.inl (by decide +kernel)⟩

end Groupcache
