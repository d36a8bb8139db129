import Mathlib.Algebra.Order.BigOperators.Group.List
import Mathlib.Tactic.Linarith
import Groupcache.Internal.Lru

/-! `cache.go`: the LRU under a byte budget. Every operation runs under the cache's mutex, so
each is one function of the whole state. -/
namespace Groupcache

open Transport

/-- `mutexCache`; the LRU is nil until the first `Add`. The integers are `int64` in the code, which
the counters stay within for fewer than 2^63 calls. -/
structure MutexCache (V : Type) where
  lru : Option (Lru.Cache GoString V)
  bytes : ℤ
  hits : ℤ
  gets : ℤ
  evictions : ℤ
  maxBytes : ℤ

def newMutexCache {V : Type} (maxBytes : ℤ) : MutexCache V :=
  { lru := none, bytes := 0, hits := 0, gets := 0, evictions := 0, maxBytes := maxBytes }

namespace MutexCache

variable {V : Type} [CacheValue V] {m m' : MutexCache V} {k k' : GoString} {v : V} {now : Time}

/-- `int64(len(key)) + int64(value.Len())`. -/
def size (kv : GoString × V) : ℤ := kv.1.length + CacheValue.len kv.2

/-- The `OnEvicted` callback that `Add` installs. -/
def onEvicted (m : MutexCache V) (kv : GoString × V) : MutexCache V :=
  { m with bytes := m.bytes - size kv, evictions := m.evictions + 1 }

/-- Store the LRU an operation returns and run the callbacks it made. -/
def commit (m : MutexCache V) (r : Lru.Cache GoString V × List (GoString × V)) : MutexCache V :=
  r.2.foldl onEvicted { m with lru := some r.1 }

def itemsLocked (m : MutexCache V) : ℕ :=
  match m.lru with
  | none => 0
  | some c => c.len

/-- The loop of `removeOldest`; `fuel` bounds its iterations, and `none` is running out. -/
def removeOldestLoop : ℕ → MutexCache V → Option (MutexCache V)
  | 0, _ => none
  | fuel + 1, m =>
    if m.bytes ≤ m.maxBytes then some m
    else
      match m.lru with
      | some c => removeOldestLoop fuel (m.commit c.removeOldest)
      | none => removeOldestLoop fuel m

def removeOldest (m : MutexCache V) : Option (MutexCache V) :=
  if m.maxBytes = 0 then some m else removeOldestLoop (m.itemsLocked + 1) m

/-- `Add` up to its call of `removeOldest`. -/
def store (m : MutexCache V) (key : GoString) (value : V) : MutexCache V :=
  let m' := m.commit ((m.lru.getD Lru.empty).add key value (CacheValue.expire value))
  { m' with bytes := m'.bytes + size (key, value) }

/-- `Add`; `none` would be an eviction loop that never ends. -/
def add (m : MutexCache V) (key : GoString) (value : V) : Option (MutexCache V) :=
  (m.store key value).removeOldest

/-- Count a lookup, and its hit. -/
def count (m : MutexCache V) (hit : Bool) : MutexCache V :=
  { m with gets := m.gets + 1, hits := if hit then m.hits + 1 else m.hits }

def get (m : MutexCache V) (now : Time) (key : GoString) : MutexCache V × Option V :=
  match m.lru with
  | none => (m.count false, none)
  | some c =>
    ((m.count (c.get now key).2.1.isSome).commit ((c.get now key).1, (c.get now key).2.2),
      (c.get now key).2.1)

def remove (m : MutexCache V) (key : GoString) : MutexCache V :=
  match m.lru with
  | none => m
  | some c => m.commit (c.remove key)

/-- The stored entries, most recently used first. -/
def entries (m : MutexCache V) : List (Lru.Entry GoString V) :=
  match m.lru with
  | none => []
  | some c => c.entries

/-- The stored pairs. -/
def pairs (m : MutexCache V) : List (GoString × V) := m.entries.map fun ent => (ent.key, ent.value)

/-- The LRU is sound and the byte counter is the size of what is stored. -/
structure Exact (m : MutexCache V) : Prop where
  lru_wf : ∀ c, m.lru = some c → c.Wf ∧ c.maxEntries = 0 ∧ c.onEvicted = true
  bytes_eq : m.bytes = (m.pairs.map size).sum

/-- The counter is also within the budget; a budget of zero means no bound. -/
structure Wf (m : MutexCache V) : Prop extends m.Exact where
  max_nonneg : 0 ≤ m.maxBytes
  bytes_le : 0 < m.maxBytes → m.bytes ≤ m.maxBytes

@[simp] theorem commit_fields (r : Lru.Cache GoString V × List (GoString × V)) :
    (m.commit r).lru = some r.1 ∧ (m.commit r).bytes = m.bytes - (r.2.map size).sum ∧
      (m.commit r).maxBytes = m.maxBytes := by
  obtain ⟨c, evs⟩ := r
  have hfold : ∀ (l : List (GoString × V)) (n : MutexCache V),
      (l.foldl onEvicted n).lru = n.lru ∧
        (l.foldl onEvicted n).bytes = n.bytes - (l.map size).sum ∧
        (l.foldl onEvicted n).maxBytes = n.maxBytes := by
    intro l
    induction l with
    | nil => simp
    | cons kv l ih =>
      intro n
      obtain ⟨h1, h2, h3⟩ := ih (onEvicted n kv)
      refine ⟨h1, ?_, h3⟩
      rw [List.foldl_cons, h2, List.map_cons, List.sum_cons]
      simp only [onEvicted]
      omega
  exact hfold evs { m with lru := some c }

@[simp] theorem commit_entries (r : Lru.Cache GoString V × List (GoString × V)) :
    (m.commit r).entries = r.1.entries := by
  simp [entries]

@[simp] theorem commit_pairs (r : Lru.Cache GoString V × List (GoString × V)) :
    (m.commit r).pairs = r.1.pairs := by
  simp [pairs, Lru.Cache.pairs]

theorem sum_size_of_perm {l₁ l₂ : List (GoString × V)} (h : l₁.Perm l₂) :
    (l₁.map size).sum = (l₂.map size).sum :=
  (h.map size).sum_eq

theorem sum_size_nonneg (l : List (GoString × V)) : 0 ≤ (l.map size).sum := by
  apply List.sum_nonneg
  intro x hx
  obtain ⟨kv, _, rfl⟩ := List.mem_map.mp hx
  simp only [size]
  omega

theorem newMutexCache_wf {maxBytes : ℤ} (h : 0 ≤ maxBytes) :
    (newMutexCache maxBytes : MutexCache V).Wf :=
  ⟨⟨by simp [newMutexCache], by simp [newMutexCache, pairs, entries]⟩, h, fun _ => h⟩

omit [CacheValue V] in
theorem pairs_of_lru {c : Lru.Cache GoString V} (hc : m.lru = some c) : m.pairs = c.pairs := by
  simp [pairs, entries, hc, Lru.Cache.pairs]

/-- An LRU operation whose reports balance keeps the byte counter exact. -/
theorem Exact.commit {c : Lru.Cache GoString V} {r : Lru.Cache GoString V × List (GoString × V)}
    (hm : m.Exact) (hc : m.lru = some c) (hr : r.1.Wf)
    (hcfg : r.1.maxEntries = c.maxEntries ∧ r.1.onEvicted = c.onEvicted)
    (hp : (r.1.pairs ++ r.2).Perm c.pairs) : (m.commit r).Exact := by
  obtain ⟨_, hmax, hon⟩ := hm.lru_wf c hc
  refine ⟨?_, ?_⟩
  · intro c' hc'
    have : r.1 = c' := by simpa using hc'
    exact this ▸ ⟨hr, hcfg.1.trans hmax, hcfg.2.trans hon⟩
  · have hsum := sum_size_of_perm hp
    have hbytes := hm.bytes_eq
    rw [pairs_of_lru hc] at hbytes
    simp only [List.map_append, List.sum_append] at hsum
    rw [(commit_fields r).2.1, commit_pairs]
    omega

theorem Exact.getD_wf (hm : m.Exact) : (m.lru.getD Lru.empty).Wf ∧
    (m.lru.getD Lru.empty).maxEntries = 0 ∧ (m.lru.getD Lru.empty).onEvicted = true ∧
    (m.lru.getD Lru.empty).entries = m.entries := by
  cases hc : m.lru with
  | none =>
    exact ⟨Lru.Cache.empty_wf, rfl, rfl, by simp [entries, hc, Lru.empty, Lru.Cache.entries]⟩
  | some c =>
    obtain ⟨hw, hmax, hon⟩ := hm.lru_wf c hc
    exact ⟨hw, hmax, hon, by simp [entries, hc]⟩

theorem store_exact (hm : m.Exact) : (m.store k v).Exact := by
  obtain ⟨hw, hmax, hon, hent⟩ := hm.getD_wf
  have hcfg := Lru.Cache.add_config (c := m.lru.getD Lru.empty) (k := k) (v := v)
    (e := CacheValue.expire v)
  refine ⟨?_, ?_⟩
  · intro c hc
    have hadd : ((m.lru.getD Lru.empty).add k v (CacheValue.expire v)).1 = c := by
      simpa [store] using hc
    exact hadd ▸ ⟨Lru.Cache.add_wf hw, hcfg.1.trans hmax, hcfg.2.trans hon⟩
  · have hsum := sum_size_of_perm
      (Lru.Cache.add_pairs (k := k) (v := v) (e := CacheValue.expire v) hw hon)
    have hbytes := hm.bytes_eq
    simp only [List.map_append, List.sum_append, List.map_cons, List.sum_cons] at hsum
    rw [show m.pairs = (m.lru.getD Lru.empty).pairs by
      simp [pairs, Lru.Cache.pairs, hent]] at hbytes
    change (m.commit _).bytes + size (k, v) = (((m.commit _).pairs).map size).sum
    rw [(commit_fields _).2.1, commit_pairs]
    omega

theorem store_entries (hm : m.Exact) : (m.store k v).entries =
    ⟨k, v, CacheValue.expire v⟩ :: m.entries.filter (·.key ≠ k) := by
  obtain ⟨hw, hmax, _, hent⟩ := hm.getD_wf
  change (m.commit _).entries = _
  rw [commit_entries, Lru.Cache.add_entries hw hmax, hent]

theorem store_maxBytes : (m.store k v).maxBytes = m.maxBytes :=
  (commit_fields (m := m) _).2.2

theorem itemsLocked_eq (hm : m.Exact) : m.itemsLocked = m.entries.length := by
  cases hc : m.lru with
  | none => simp [itemsLocked, entries, hc]
  | some c =>
    have hw := (hm.lru_wf c hc).1
    cases hcache : c.cache with
    | none =>
      simp [itemsLocked, entries, hc, Lru.Cache.len, hcache, Lru.Cache.entries, hw.nil hcache]
    | some _ => simp [itemsLocked, entries, hc, Lru.Cache.len, hcache, Lru.Cache.entries]

/-- Above the budget something is stored, so each round drops an entry and the loop ends. -/
theorem removeOldestLoop_spec (fuel : ℕ) (hm : m.Exact) (hmax : 0 ≤ m.maxBytes)
    (hf : m.entries.length < fuel) :
    ∃ m', removeOldestLoop fuel m = some m' ∧ m'.Exact ∧ m'.maxBytes = m.maxBytes ∧
      m'.bytes ≤ m'.maxBytes ∧ m'.entries <+: m.entries := by
  induction fuel generalizing m with
  | zero => omega
  | succ fuel ih =>
    by_cases hle : m.bytes ≤ m.maxBytes
    · exact ⟨m, by simp [removeOldestLoop, hle], hm, rfl, hle, List.prefix_rfl⟩
    · have hpos : 0 < (m.pairs.map size).sum := by
        rw [← hm.bytes_eq]
        omega
      cases hc : m.lru with
      | none => simp [pairs, entries, hc] at hpos
      | some c =>
        obtain ⟨hw, _, hon⟩ := hm.lru_wf c hc
        have hne : m.entries ≠ [] := by
          intro h
          simp [pairs, h] at hpos
        have hent : (m.commit c.removeOldest).entries = m.entries.dropLast := by
          rw [commit_entries, Lru.Cache.removeOldest_entries hw]
          simp [entries, hc]
        have hexact := hm.commit hc (Lru.Cache.removeOldest_wf hw) Lru.Cache.removeOldest_config
          (Lru.Cache.removeOldest_pairs hw hon)
        have hlen : (m.commit c.removeOldest).entries.length < fuel := by
          have := List.length_pos_of_ne_nil hne
          rw [hent, List.length_dropLast]
          omega
        obtain ⟨m', hloop, hm', hmax', hle', hpre⟩ := ih hexact (by simpa using hmax) hlen
        refine ⟨m', by simp [removeOldestLoop, hle, hc, hloop], hm', by simpa using hmax', hle', ?_⟩
        rw [hent] at hpre
        exact hpre.trans (List.dropLast_prefix _)

/-- `Add` returns; the new entry comes first and only a suffix of the rest is evicted. -/
theorem add_spec (hm : m.Wf) : ∃ m', m.add k v = some m' ∧ m'.Wf ∧ m'.maxBytes = m.maxBytes ∧
    m'.entries <+: ⟨k, v, CacheValue.expire v⟩ :: m.entries.filter (·.key ≠ k) := by
  have hs := store_exact (k := k) (v := v) hm.toExact
  have hmax : (m.store k v).maxBytes = m.maxBytes := store_maxBytes
  rw [← store_entries hm.toExact]
  unfold add removeOldest
  by_cases hzero : m.maxBytes = 0
  · refine ⟨m.store k v, by simp [hmax, hzero], ⟨hs, by omega, by omega⟩, hmax, List.prefix_rfl⟩
  · obtain ⟨m', hloop, hm', hmax', hle, hpre⟩ := removeOldestLoop_spec
      ((m.store k v).itemsLocked + 1) hs (by rw [hmax]; exact hm.max_nonneg)
      (by rw [itemsLocked_eq hs]; exact Nat.lt_succ_self _)
    have hnonneg := hm.max_nonneg
    refine ⟨m', by simp [hmax, hzero, hloop], ⟨hm', by omega, fun _ => hle⟩, by omega, hpre⟩

/-- An operation that only takes entries out stays within the budget. -/
theorem Wf.commit {c : Lru.Cache GoString V} {r : Lru.Cache GoString V × List (GoString × V)}
    (hm : m.Wf) (hc : m.lru = some c) (hr : r.1.Wf)
    (hcfg : r.1.maxEntries = c.maxEntries ∧ r.1.onEvicted = c.onEvicted)
    (hp : (r.1.pairs ++ r.2).Perm c.pairs) : (m.commit r).Wf := by
  have hbytes := (commit_fields (m := m) r).2.1
  have hmax := (commit_fields (m := m) r).2.2
  refine ⟨hm.toExact.commit hc hr hcfg hp, hmax ▸ hm.max_nonneg, ?_⟩
  intro hpos
  have hle := hm.bytes_le (hmax ▸ hpos)
  have hev := sum_size_nonneg r.2
  omega

theorem Wf.count (hm : m.Wf) (hit : Bool) : (m.count hit).Wf :=
  ⟨⟨hm.lru_wf, hm.bytes_eq⟩, hm.max_nonneg, hm.bytes_le⟩

/-- The entry stored under a key, expired or not. -/
def lookupEntry (m : MutexCache V) (key : GoString) : Option (Lru.Entry GoString V) :=
  m.entries.find? (·.key = key)

theorem get_wf (hm : m.Wf) : (m.get now k).1.Wf := by
  unfold get
  split
  · exact hm.count false
  · rename_i c hc
    obtain ⟨hw, _, hon⟩ := hm.lru_wf c hc
    exact (hm.count _).commit (r := ((c.get now k).1, (c.get now k).2.2)) hc
      (Lru.Cache.get_wf hw) Lru.Cache.get_config (Lru.Cache.get_pairs hw hon)

/-- A live entry is returned and moves to the front; an expired one is dropped. -/
theorem get_eq (hm : m.Wf) (now : Time) (k : GoString) :
    match m.lookupEntry k with
    | some ent =>
      if Lru.Cache.expired ent now then
        (m.get now k).2 = none ∧ (m.get now k).1.entries = m.entries.filter (·.key ≠ k)
      else
        (m.get now k).2 = some ent.value ∧
          (m.get now k).1.entries = ent :: m.entries.filter (·.key ≠ k)
    | none => (m.get now k).2 = none ∧ (m.get now k).1.entries = m.entries := by
  cases hc : m.lru with
  | none => simp [get, lookupEntry, entries, hc, count]
  | some c =>
    have hget := Lru.Cache.get_eq (hm.lru_wf c hc).1 now k
    have hent : m.entries = c.entries := by simp [entries, hc]
    have hval : (m.get now k).2 = (c.get now k).2.1 := by simp [get, hc]
    have hnew : (m.get now k).1.entries = (c.get now k).1.entries := by simp [get, hc]
    have hlook : m.lookupEntry k = c.lookupEntry k := by
      rw [lookupEntry, hent, Lru.Cache.lookupEntry]
    rw [hlook, hent, hval, hnew]
    cases he : c.lookupEntry k with
    | none =>
      simp only [he] at hget
      exact ⟨hget.1, by rw [hget.2]⟩
    | some ent => simpa only [he] using hget

theorem remove_wf (hm : m.Wf) : (m.remove k).Wf := by
  unfold remove
  cases hc : m.lru with
  | none => exact hm
  | some c =>
    obtain ⟨hw, _, hon⟩ := hm.lru_wf c hc
    exact hm.commit hc (Lru.Cache.remove_wf hw) Lru.Cache.remove_config
      (Lru.Cache.remove_pairs hw hon)

theorem remove_entries (hm : m.Wf) : (m.remove k).entries = m.entries.filter (·.key ≠ k) := by
  unfold remove
  cases hc : m.lru with
  | none => simp [entries, hc]
  | some c =>
    have hent : m.entries = c.entries := by simp [entries, hc]
    simp only [commit_entries, Lru.Cache.remove_entries (hm.lru_wf c hc).1, hent]

theorem nodup_keys (hm : m.Wf) : (m.entries.map (·.key)).Nodup := by
  cases hc : m.lru with
  | none => simp [entries, hc]
  | some c =>
    simp only [entries, hc, Lru.Cache.entries, List.map_map]
    exact (hm.lru_wf c hc).1.keys

end MutexCache

/-- A `mutexCache` as `newMutexCache` and its operations leave it. -/
structure Cache (V : Type) [CacheValue V] where
  raw : MutexCache V
  wf : raw.Wf

namespace Cache

variable {V : Type} [CacheValue V] {c : Cache V} {k k' : GoString} {v v' : V} {now : Time}

def new (maxBytes : ℤ) (h : 0 ≤ maxBytes) : Cache V :=
  ⟨newMutexCache maxBytes, MutexCache.newMutexCache_wf h⟩

theorem getD_add_wf (c : Cache V) (k : GoString) (v : V) : ((c.raw.add k v).getD c.raw).Wf := by
  obtain ⟨m, hadd, hw, _⟩ := MutexCache.add_spec (k := k) (v := v) c.wf
  rwa [hadd, Option.getD_some]

/-- `Add`, which returns on every such cache (`add_returns`). -/
def add (c : Cache V) (key : GoString) (value : V) : Cache V :=
  ⟨(c.raw.add key value).getD c.raw, getD_add_wf c key value⟩

def get (c : Cache V) (now : Time) (key : GoString) : Cache V × Option V :=
  (⟨(c.raw.get now key).1, MutexCache.get_wf c.wf⟩, (c.raw.get now key).2)

def remove (c : Cache V) (key : GoString) : Cache V := ⟨c.raw.remove key, MutexCache.remove_wf c.wf⟩

/-- The value stored under a key, expired or not. -/
def find? (c : Cache V) (key : GoString) : Option V := (c.raw.lookupEntry key).map (·.value)

theorem add_returns : c.raw.add k v = some (c.add k v).raw := by
  obtain ⟨m, hadd, _⟩ := MutexCache.add_spec (k := k) (v := v) c.wf
  simp [add, hadd]

theorem add_initial (c : Cache V) (k : GoString) (v : V) : (c.add k v).raw.entries <+:
    ⟨k, v, CacheValue.expire v⟩ :: c.raw.entries.filter (·.key ≠ k) := by
  obtain ⟨m, hadd, _, _, hpre⟩ := MutexCache.add_spec (k := k) (v := v) c.wf
  simpa [add, hadd] using hpre

omit [CacheValue V] in
theorem find?_filter_self (l : List (Lru.Entry GoString V)) :
    (l.filter (·.key ≠ k)).find? (·.key = k) = none := by
  simp

omit [CacheValue V] in
theorem find?_filter_ne (l : List (Lru.Entry GoString V)) (h : k' ≠ k) :
    (l.filter (·.key ≠ k)).find? (·.key = k') = l.find? (·.key = k') := by
  rw [List.find?_filter]
  congr 1
  funext x
  by_cases hx : x.key = k'
  · simp [hx, h]
  · simp [hx]

/-- What a prefix of the entries still holds, all of them hold. -/
theorem find?_of_initial {l : List (Lru.Entry GoString V)} (h : c.raw.entries <+: l) :
    c.find? k = (l.find? (·.key = k)).map (·.value) ∨ c.find? k = none := by
  cases hf : c.raw.entries.find? (·.key = k) with
  | none => exact Or.inr (by simp [find?, MutexCache.lookupEntry, hf])
  | some ent => exact Or.inl (by simp [find?, MutexCache.lookupEntry, hf, h.find?_eq_some hf])

theorem find?_add_self : (c.add k v).find? k = some v ∨ (c.add k v).find? k = none := by
  simpa using find?_of_initial (k := k) (add_initial c k v)

theorem find?_add_ne (h : k' ≠ k) :
    (c.add k v).find? k' = c.find? k' ∨ (c.add k v).find? k' = none := by
  have hp := find?_of_initial (k := k') (add_initial c k v)
  rwa [List.find?_cons_of_neg (by simpa using h.symm), find?_filter_ne _ h] at hp

@[simp] theorem find?_remove_self : (c.remove k).find? k = none := by
  simp only [find?, MutexCache.lookupEntry, remove, MutexCache.remove_entries c.wf,
    find?_filter_self, Option.map_none]

@[simp] theorem find?_remove_ne (h : k' ≠ k) : (c.remove k).find? k' = c.find? k' := by
  simp only [find?, MutexCache.lookupEntry, remove, MutexCache.remove_entries c.wf,
    find?_filter_ne _ h]

/-- A lookup returns what is stored, or leaves nothing stored under the key. -/
theorem get_spec (c : Cache V) (now : Time) (k : GoString) :
    (∃ v, (c.get now k).2 = some v ∧ c.find? k = some v ∧ (c.get now k).1.find? k = some v) ∨
    (c.get now k).2 = none ∧ (c.get now k).1.find? k = none := by
  have h := MutexCache.get_eq c.wf now k
  simp only [find?, MutexCache.lookupEntry, get] at h ⊢
  cases he : c.raw.entries.find? (·.key = k) with
  | none =>
    simp only [he] at h
    exact Or.inr ⟨h.1, by rw [h.2, he, Option.map_none]⟩
  | some ent =>
    have hk : ent.key = k := by simpa using List.find?_some he
    simp only [he] at h
    split at h
    · exact Or.inr ⟨h.1, by rw [h.2, find?_filter_self, Option.map_none]⟩
    · refine Or.inl ⟨ent.value, h.1, rfl, ?_⟩
      rw [h.2, List.find?_cons_of_pos (by simpa using hk), Option.map_some]

theorem find?_get_ne (h : k' ≠ k) : (c.get now k).1.find? k' = c.find? k' := by
  have hg := MutexCache.get_eq c.wf now k
  simp only [find?, MutexCache.lookupEntry, get] at hg ⊢
  cases he : c.raw.entries.find? (·.key = k) with
  | none =>
    simp only [he] at hg
    rw [hg.2]
  | some ent =>
    have hk : ent.key = k := by simpa using List.find?_some he
    simp only [he] at hg
    split at hg
    · rw [hg.2, find?_filter_ne _ h]
    · rw [hg.2, List.find?_cons_of_neg (by simpa [hk] using h.symm), find?_filter_ne _ h]

/-- A lookup stores nothing new, and returns what is stored. -/
theorem find?_get_some (h : (c.get now k).1.find? k' = some v) :
    c.find? k' = some v := by
  by_cases hk : k' = k
  · subst hk
    rcases c.get_spec now k' with ⟨w, _, hw, hw'⟩ | ⟨_, hnone⟩
    · rw [hw', Option.some.injEq] at h
      rw [hw, h]
    · simp [hnone] at h
  · rwa [find?_get_ne hk] at h

theorem find?_of_get (h : (c.get now k).2 = some v) : c.find? k = some v := by
  rcases c.get_spec now k with ⟨w, hw, hfind, _⟩ | ⟨hnone, _⟩
  · rw [hfind, ← hw, h]
  · simp [hnone] at h

theorem find?_add_some (h : (c.add k v).find? k' = some v') :
    k' = k ∧ v' = v ∨ k' ≠ k ∧ c.find? k' = some v' := by
  by_cases hk : k' = k
  · subst hk
    rcases find?_add_self (c := c) (k := k') (v := v) with hs | hs <;> simp_all
  · rcases find?_add_ne (c := c) (v := v) hk with hs | hs
    · exact Or.inr ⟨hk, hs ▸ h⟩
    · simp [hs] at h

theorem find?_remove_some (h : (c.remove k).find? k' = some v) :
    k' ≠ k ∧ c.find? k' = some v := by
  by_cases hk : k' = k
  · subst hk
    simp at h
  · exact ⟨hk, by simpa [hk] using h⟩

omit [CacheValue V] in
theorem filter_eq_find?_toList {l : List (Lru.Entry GoString V)} (h : (l.map (·.key)).Nodup) :
    l.filter (·.key = k) = (l.find? (·.key = k)).toList := by
  induction l with
  | nil => rfl
  | cons ent l ih =>
    obtain ⟨hnot, hnd⟩ := List.nodup_cons.mp h
    by_cases hk : ent.key = k
    · have hnil : l.filter (·.key = k) = [] := by
        rw [List.filter_eq_nil_iff]
        intro ent' hmem
        simp only [decide_eq_true_eq]
        intro hk'
        exact hnot (List.mem_map.mpr ⟨ent', hmem, hk'.trans hk.symm⟩)
      simp [hk, hnil]
    · simp [hk, ih hnd]

/-- A key is stored once, or not at all. -/
theorem pairs_filter (c : Cache V) (k : GoString) :
    c.raw.pairs.filter (·.1 = k) = (c.find? k).toList.map (k, ·) := by
  have hfilter := filter_eq_find?_toList (k := k) (MutexCache.nodup_keys c.wf)
  rw [MutexCache.pairs, List.filter_map]
  change (c.raw.entries.filter (·.key = k)).map _ = _
  rw [hfilter, find?, MutexCache.lookupEntry]
  cases hf : c.raw.entries.find? (·.key = k) with
  | none => rfl
  | some ent =>
    have hk : ent.key = k := by simpa using List.find?_some hf
    simp [hk]

@[simp] theorem find?_new {n : ℤ} (h : 0 ≤ n) : (new n h : Cache V).find? k = none := rfl

end Cache

end Groupcache
