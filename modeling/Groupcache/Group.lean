import Groupcache.MutexCache

/-! `group.go`: a group's caches and counters, and what each of its cache operations and locked
sections does to them. The value type is a parameter, so that a proof can mark values. -/
namespace Groupcache

open Transport

/-- The counters of `GroupStats` that `Get`, `Set` and the removals add to. -/
inductive Counter
  | gets
  | cacheHits
  | peerLoads
  | peerErrors
  | loads
  | loadsDeduped
  | localLoads
  | localLoadErrs
  | removeKeysRequests
  | removedKeys
deriving DecidableEq

/-- The counters are `int64` in the code, which they stay within for fewer than 2^63 steps. -/
abbrev GroupStats := Counter → ℤ

structure Group (V : Type) [CacheValue V] where
  maxCacheBytes : ℤ
  mainCache : Cache V
  hotCache : Cache V
  stats : GroupStats

namespace Group

variable {V : Type} [CacheValue V]

/-- The two sizes of `ResetCacheSize`; the hot cache gets an eighth. -/
def hotBytes (maxBytes : ℤ) : ℤ := if 0 ≤ maxBytes then maxBytes / 8 else 0

def mainBytes (maxBytes : ℤ) : ℤ := hotBytes maxBytes * 7

theorem hotBytes_nonneg (maxBytes : ℤ) : 0 ≤ hotBytes maxBytes := by
  unfold hotBytes
  split <;> omega

theorem mainBytes_nonneg (maxBytes : ℤ) : 0 ≤ mainBytes maxBytes := by
  have := hotBytes_nonneg maxBytes
  unfold mainBytes
  omega

/-- The caches of `NewGroup` with the default `CacheFactory`. -/
def new (cacheBytes : ℤ) : Group V :=
  { maxCacheBytes := cacheBytes
    mainCache := .new (mainBytes cacheBytes) (mainBytes_nonneg cacheBytes)
    hotCache := .new (hotBytes cacheBytes) (hotBytes_nonneg cacheBytes)
    stats := fun _ => 0 }

/-- `g.Stats.<counter>.Add(n)`. -/
def count (g : Group V) (c : Counter) (n : ℤ) : Group V :=
  { g with stats := Function.update g.stats c (g.stats c + n) }

/-- The two lookups of `lookupCache`, at their own clock readings. -/
def lookupMain (g : Group V) (now : Time) (key : GoString) : Group V × Option V :=
  ({ g with mainCache := (g.mainCache.get now key).1 }, (g.mainCache.get now key).2)

def lookupHot (g : Group V) (now : Time) (key : GoString) : Group V × Option V :=
  ({ g with hotCache := (g.hotCache.get now key).1 }, (g.hotCache.get now key).2)

def lookupCache (g : Group V) (now now' : Time) (key : GoString) : Group V × Option V :=
  if g.maxCacheBytes ≤ 0 then (g, none)
  else
    match (g.lookupMain now key).2 with
    | some v => ((g.lookupMain now key).1, some v)
    | none => (g.lookupMain now key).1.lookupHot now' key

/-- `populateCache` with the main cache, and with the hot cache. -/
def populateMain (g : Group V) (key : GoString) (value : V) : Group V :=
  if g.maxCacheBytes ≤ 0 then g else { g with mainCache := g.mainCache.add key value }

def populateHot (g : Group V) (key : GoString) (value : V) : Group V :=
  if g.maxCacheBytes ≤ 0 then g else { g with hotCache := g.hotCache.add key value }

/-- The function that `Set` and `RemoteSet` run under `loadGroup.Lock`. -/
def update (g : Group V) (key : GoString) (value : V) : Group V :=
  { g with mainCache := g.mainCache.add key value, hotCache := g.hotCache.remove key }

def remoteSet (g : Group V) (key : GoString) (value : V) : Group V :=
  if g.maxCacheBytes ≤ 0 then g else g.update key value

def localRemove (g : Group V) (key : GoString) : Group V :=
  if g.maxCacheBytes ≤ 0 then g
  else { g with hotCache := g.hotCache.remove key, mainCache := g.mainCache.remove key }

/-- Either cache stores `v` under the key, expired or not. -/
def Holds (g : Group V) (key : GoString) (v : V) : Prop :=
  g.mainCache.find? key = some v ∨ g.hotCache.find? key = some v

variable {g : Group V} {now now' : Time} {k k' : GoString} {v v' : V}

@[simp] theorem not_holds_new (n : ℤ) : ¬ (new n : Group V).Holds k v := by
  simp [Holds, new]

theorem holds_lookupMain (h : (g.lookupMain now k).1.Holds k' v) : g.Holds k' v :=
  h.imp Cache.find?_get_some id

theorem holds_lookupHot (h : (g.lookupHot now k).1.Holds k' v) : g.Holds k' v :=
  h.imp id Cache.find?_get_some

theorem lookupMain_holds (h : (g.lookupMain now k).2 = some v) : g.Holds k v :=
  Or.inl (Cache.find?_of_get h)

theorem lookupHot_holds (h : (g.lookupHot now k).2 = some v) : g.Holds k v :=
  Or.inr (Cache.find?_of_get h)

theorem holds_lookupCache (h : (g.lookupCache now now' k).1.Holds k' v) : g.Holds k' v := by
  unfold lookupCache at h
  split at h
  · exact h
  · split at h
    · exact holds_lookupMain h
    · exact holds_lookupMain (holds_lookupHot h)

theorem lookupCache_holds (h : (g.lookupCache now now' k).2 = some v) : g.Holds k v := by
  unfold lookupCache at h
  split at h
  · cases h
  · split at h
    · rename_i hmain
      exact lookupMain_holds (hmain.trans h)
    · exact holds_lookupMain (lookupHot_holds h)

theorem holds_populateMain (h : (g.populateMain k v).Holds k' v') :
    k' = k ∧ v' = v ∨ g.Holds k' v' := by
  unfold populateMain at h
  split at h
  · exact Or.inr h
  · rcases h with h | h
    · exact (Cache.find?_add_some h).imp id fun h => Or.inl h.2
    · exact Or.inr (Or.inr h)

theorem holds_populateHot (h : (g.populateHot k v).Holds k' v') :
    k' = k ∧ v' = v ∨ g.Holds k' v' := by
  unfold populateHot at h
  split at h
  · exact Or.inr h
  · rcases h with h | h
    · exact Or.inr (Or.inl h)
    · exact (Cache.find?_add_some h).imp id fun h => Or.inr h.2

/-- After the locked section of a set, the key has no other copy than the new value. -/
theorem holds_update (h : (g.update k v).Holds k' v') :
    k' = k ∧ v' = v ∨ k' ≠ k ∧ g.Holds k' v' := by
  rcases h with h | h
  · exact (Cache.find?_add_some h).imp id fun h => ⟨h.1, Or.inl h.2⟩
  · exact Or.inr ⟨(Cache.find?_remove_some h).1, Or.inr (Cache.find?_remove_some h).2⟩

theorem holds_localRemove (hmax : 0 < g.maxCacheBytes) (h : (g.localRemove k).Holds k' v) :
    k' ≠ k ∧ g.Holds k' v := by
  rw [localRemove, if_neg (by omega)] at h
  rcases h with h | h
  · exact ⟨(Cache.find?_remove_some h).1, Or.inl (Cache.find?_remove_some h).2⟩
  · exact ⟨(Cache.find?_remove_some h).1, Or.inr (Cache.find?_remove_some h).2⟩

@[simp] theorem lookupCache_maxCacheBytes :
    (g.lookupCache now now' k).1.maxCacheBytes = g.maxCacheBytes := by
  unfold lookupCache
  split
  · rfl
  · split <;> rfl

@[simp] theorem populateMain_maxCacheBytes :
    (g.populateMain k v).maxCacheBytes = g.maxCacheBytes := by
  unfold populateMain
  split <;> rfl

@[simp] theorem populateHot_maxCacheBytes :
    (g.populateHot k v).maxCacheBytes = g.maxCacheBytes := by
  unfold populateHot
  split <;> rfl

@[simp] theorem remoteSet_maxCacheBytes : (g.remoteSet k v).maxCacheBytes = g.maxCacheBytes := by
  unfold remoteSet
  split <;> rfl

@[simp] theorem localRemove_maxCacheBytes : (g.localRemove k).maxCacheBytes = g.maxCacheBytes := by
  unfold localRemove
  split <;> rfl

end Group

end Groupcache
