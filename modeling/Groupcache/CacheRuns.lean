import Mathlib.Data.List.Dedup
import Groupcache.Lib.Lru
import Groupcache.Lib.Run
import Groupcache.MutexCache

/-! Whole runs of a `mutexCache`: the counters `Stats` reports are exact, and the cache answers
as the reference LRU does. -/
namespace Groupcache.MutexCache

open Transport Lib Lib.Lru

variable {V : Type} [CacheValue V] {m m' : MutexCache V} {k : GoString} {v : V} {now : Time}
  {maxBytes : ℤ}

/-- One call of the cache; `none` is an `Add` that does not return. -/
def call (m : MutexCache V) : Call GoString V Time → Option (MutexCache V × Reply V)
  | .add k v => (m.add k v).map fun m' => (m', .done)
  | .get now k => some ((m.get now k).1, .got (m.get now k).2)
  | .remove k => some (m.remove k, .done)

/-- What `Stats` returns. -/
structure CacheStats where
  bytes : ℤ
  items : ℤ
  gets : ℤ
  hits : ℤ
  evictions : ℤ

def stats (m : MutexCache V) : CacheStats :=
  { bytes := m.bytes, items := m.itemsLocked, gets := m.gets, hits := m.hits,
    evictions := m.evictions }

/-- Every entry put in so far: those still stored and those reported as evicted. -/
def placed (m : MutexCache V) : ℤ := m.entries.length + m.evictions

@[simp] theorem commit_counters (r : Lru.Cache GoString V × List (GoString × V)) :
    (m.commit r).evictions = m.evictions + r.2.length ∧ (m.commit r).hits = m.hits ∧
      (m.commit r).gets = m.gets := by
  obtain ⟨c, evs⟩ := r
  have hfold : ∀ (l : List (GoString × V)) (n : MutexCache V),
      (l.foldl onEvicted n).evictions = n.evictions + l.length ∧
        (l.foldl onEvicted n).hits = n.hits ∧ (l.foldl onEvicted n).gets = n.gets := by
    intro l
    induction l with
    | nil => simp
    | cons kv l ih =>
      intro n
      obtain ⟨h₁, h₂, h₃⟩ := ih (onEvicted n kv)
      refine ⟨?_, h₂, h₃⟩
      rw [List.foldl_cons, h₁, List.length_cons]
      simp only [onEvicted]
      omega
  exact hfold evs { m with lru := some c }

omit [CacheValue V] in
theorem length_pairs : m.pairs.length = m.entries.length := by
  simp [pairs]

/-- What leaves the list is reported once. -/
theorem commit_placed {c : Lru.Cache GoString V} {n : ℕ}
    {r : Lru.Cache GoString V × List (GoString × V)}
    (hp : (r.1.pairs ++ r.2).length = c.pairs.length + n)
    (hc : c.pairs.length = m.entries.length) : (m.commit r).placed = m.placed + n := by
  have hlen : (m.commit r).entries.length = r.1.pairs.length := by
    rw [← length_pairs, commit_pairs]
  have hev := (commit_counters (m := m) r).1
  rw [List.length_append] at hp
  unfold placed
  omega

/-- What each round of the eviction loop keeps, the loop keeps. -/
theorem removeOldestLoop_keeps {P : MutexCache V → Prop}
    (hP : ∀ m c, m.Exact → m.lru = some c → ¬m.bytes ≤ m.maxBytes → P m →
      P (m.commit c.removeOldest))
    (fuel : ℕ) (hm : m.Exact) (h : removeOldestLoop fuel m = some m') (hp : P m) :
    P m' ∧ m'.Exact ∧ m'.bytes ≤ m'.maxBytes := by
  induction fuel generalizing m with
  | zero => simp [removeOldestLoop] at h
  | succ fuel ih =>
    by_cases hle : m.bytes ≤ m.maxBytes
    · have heq : m = m' := by simpa [removeOldestLoop, hle] using h
      exact heq ▸ ⟨hp, hm, hle⟩
    · cases hc : m.lru with
      | none => exact ih hm (by simpa [removeOldestLoop, hle, hc] using h) hp
      | some c =>
        obtain ⟨hw, _, hon⟩ := hm.lru_wf c hc
        have hexact := hm.commit hc (Lru.Cache.removeOldest_wf hw) Lru.Cache.removeOldest_config
          (Lru.Cache.removeOldest_pairs hw hon)
        exact ih hexact (by simpa [removeOldestLoop, hle, hc] using h) (hP m c hm hc hle hp)

/-- The reference a cache is compared with; as in the code, a limit of zero is no limit. -/
def policy (V : Type) [CacheValue V] (maxBytes : ℤ) :
    Policy (Lru.Entry GoString V) GoString V Time where
  item k v := ⟨k, v, CacheValue.expire v⟩
  key ent := ent.key
  value ent := ent.value
  expired ent now := !ent.expire.isZero && ent.expire.before now
  weight ent := ent.key.length + CacheValue.len ent.value
  budget := if 0 < maxBytes then some maxBytes else none

theorem fits_eq (hpos : 0 < maxBytes) (l : List (Lru.Entry GoString V)) :
    (policy V maxBytes).fits l =
      decide ((l.map (policy V maxBytes).weight).sum ≤ maxBytes) := by
  have hbudget : (policy V maxBytes).budget = some maxBytes := if_pos hpos
  rw [Policy.fits, hbudget]

/-- A positive budget is kept exactly when the byte counter is within it. -/
theorem fits_entries (hm : m.Exact) (hpos : 0 < m.maxBytes) :
    (policy V m.maxBytes).fits m.entries = decide (m.bytes ≤ m.maxBytes) := by
  have hsum : (m.entries.map (policy V m.maxBytes).weight).sum = m.bytes := by
    rw [hm.bytes_eq, pairs, List.map_map]
    rfl
  rw [fits_eq hpos, hsum]

/-- What `removeOldest` leaves alone, and what it leaves stored. -/
structure Trimmed (m m' : MutexCache V) : Prop where
  placed : m'.placed = m.placed
  hits : m'.hits = m.hits
  gets : m'.gets = m.gets
  maxBytes : m'.maxBytes = m.maxBytes
  entries : longestInit (policy V m.maxBytes).fits m'.entries =
    longestInit (policy V m.maxBytes).fits m.entries

theorem Trimmed.round {n : MutexCache V} {c : Lru.Cache GoString V} (h : Trimmed m n)
    (hn : n.Exact) (hc : n.lru = some c) (hpos : 0 < m.maxBytes) (hle : ¬n.bytes ≤ n.maxBytes) :
    Trimmed m (n.commit c.removeOldest) := by
  obtain ⟨hw, _, hon⟩ := hn.lru_wf c hc
  have hent : n.entries = c.entries := by simp [MutexCache.entries, hc]
  have hplaced : (n.commit c.removeOldest).placed = n.placed + 0 :=
    commit_placed (n := 0) (Lru.Cache.removeOldest_pairs hw hon).length_eq
      (by rw [hent, Lru.Cache.pairs, List.length_map])
  have hcount := commit_counters (m := n) c.removeOldest
  refine ⟨?_, hcount.2.1.trans h.hits, hcount.2.2.trans h.gets,
    (commit_fields (m := n) c.removeOldest).2.2.trans h.maxBytes, ?_⟩
  · rw [hplaced, h.placed, add_zero]
  · have hfits := fits_entries hn (h.maxBytes ▸ hpos)
    rw [h.maxBytes, decide_eq_false (h.maxBytes ▸ hle)] at hfits
    rw [← h.entries, longestInit_of_neg hfits, commit_entries,
      Lru.Cache.removeOldest_entries hw, hent]

/-- `removeOldest` evicts from the back until the longest segment that fits is left. -/
theorem removeOldest_trims (hm : m.Exact) (hmax : 0 ≤ m.maxBytes)
    (h : m.removeOldest = some m') : Trimmed m m' ∧
      m'.entries = longestInit (policy V m.maxBytes).fits m.entries := by
  unfold removeOldest at h
  split at h
  · rename_i hzero
    obtain rfl : m = m' := by simpa using h
    exact ⟨⟨rfl, rfl, rfl, rfl, rfl⟩, by
      rw [longestInit_of_pos (by simp [Policy.fits, policy, hzero])]⟩
  · rename_i hzero
    have hpos : 0 < m.maxBytes := by omega
    obtain ⟨ht, hexact, hle⟩ := removeOldestLoop_keeps (P := Trimmed m)
      (fun n c hn hc hle hp => hp.round hn hc hpos hle) _ hm h ⟨rfl, rfl, rfl, rfl, rfl⟩
    have hfits := fits_entries hexact (ht.maxBytes ▸ hpos)
    rw [ht.maxBytes, decide_eq_true (ht.maxBytes ▸ hle)] at hfits
    exact ⟨ht, by rw [← ht.entries, longestInit_of_pos hfits]⟩

theorem removeOldestLoop_counts (fuel : ℕ) (h : removeOldestLoop fuel m = some m') :
    m'.gets = m.gets ∧ m'.hits = m.hits := by
  induction fuel generalizing m with
  | zero => cases h
  | succ fuel ih =>
    rw [removeOldestLoop] at h
    split at h
    · cases h
      exact ⟨rfl, rfl⟩
    · split at h
      · simpa using ih h
      · exact ih h

theorem add_counts (h : m.add k v = some m') : m'.gets = m.gets ∧ m'.hits = m.hits := by
  rw [add, removeOldest] at h
  split at h
  · cases h
    simp [store]
  · simpa [store] using removeOldestLoop_counts _ h

theorem get_counts : (m.get now k).1.gets = m.gets + 1 ∧
    (m.get now k).1.hits = m.hits + if (m.get now k).2.isSome then 1 else 0 := by
  unfold get
  cases m.lru with
  | none => simp [count]
  | some c =>
    simp only [commit_counters, count]
    split <;> simp

theorem remove_counts : (m.remove k).gets = m.gets ∧ (m.remove k).hits = m.hits := by
  unfold remove
  split <;> simp

theorem store_placed (hm : m.Exact) : (m.store k v).placed = m.placed + 1 := by
  obtain ⟨hw, _, hon, hent⟩ := hm.getD_wf
  have hadd := Lru.Cache.add_pairs (k := k) (v := v) (e := CacheValue.expire v) hw hon
  exact commit_placed (m := m) (n := 1) (by simpa using hadd.length_eq)
    (by rw [← hent, Lru.Cache.pairs, List.length_map])

/-- `Add` puts one entry in front and keeps the longest segment that fits. -/
theorem add_eq (hm : m.Wf) (h : m.add k v = some m') : m'.placed = m.placed + 1 ∧
    m'.entries = longestInit (policy V m.maxBytes).fits
      (⟨k, v, CacheValue.expire v⟩ :: m.entries.filter (·.key ≠ k)) := by
  have hs := store_exact (k := k) (v := v) hm.toExact
  have hmax : (m.store k v).maxBytes = m.maxBytes := store_maxBytes
  obtain ⟨ht, hent⟩ := removeOldest_trims hs (hmax ▸ hm.max_nonneg) h
  rw [hmax, store_entries hm.toExact] at hent
  exact ⟨ht.placed.trans (store_placed hm.toExact), hent⟩

theorem get_placed (hm : m.Wf) : (m.get now k).1.placed = m.placed ∧
    (m.get now k).1.maxBytes = m.maxBytes := by
  unfold get
  cases hc : m.lru with
  | none => exact ⟨by simp [count, placed, entries, hc], rfl⟩
  | some c =>
    obtain ⟨hw, _, hon⟩ := hm.lru_wf c hc
    set n := m.count (c.get now k).2.1.isSome with hn
    have hplaced : (n.commit ((c.get now k).1, (c.get now k).2.2)).placed = n.placed + 0 :=
      commit_placed (c := c) (n := 0) (Lru.Cache.get_pairs hw hon).length_eq
        (by simp [hn, count, entries, hc, Lru.Cache.pairs])
    have hfields := commit_fields (m := n) ((c.get now k).1, (c.get now k).2.2)
    exact ⟨hplaced.trans (add_zero _), hfields.2.2⟩

theorem remove_placed (hm : m.Wf) : (m.remove k).placed = m.placed ∧
    (m.remove k).maxBytes = m.maxBytes := by
  unfold remove
  cases hc : m.lru with
  | none => exact ⟨rfl, rfl⟩
  | some c =>
    obtain ⟨hw, _, hon⟩ := hm.lru_wf c hc
    have hplaced : (m.commit (c.remove k)).placed = m.placed + 0 :=
      commit_placed (n := 0) (Lru.Cache.remove_pairs hw hon).length_eq
        (by simp [entries, hc, Lru.Cache.pairs])
    exact ⟨hplaced.trans (add_zero _), (commit_fields (m := m) (c.remove k)).2.2⟩

def isAdd : Call GoString V Time → Bool
  | .add _ _ => true
  | _ => false

def isGet : Call GoString V Time → Bool
  | .get _ _ => true
  | _ => false

/-- A `Get` that returned true. -/
def isHit : Reply V → Bool
  | .got (some _) => true
  | _ => false

theorem call_counts {c : Call GoString V Time} {o : Reply V} (h : m.call c = some (m', o)) :
    m'.gets = m.gets + (if isGet c then 1 else 0) ∧
      m'.hits = m.hits + if isHit o then 1 else 0 := by
  cases c with
  | add k v =>
    obtain ⟨m₁, hadd, heq⟩ := Option.map_eq_some_iff.mp h
    cases heq
    simpa [isGet, isHit] using add_counts hadd
  | get now k =>
    cases h
    have hcount := @get_counts _ _ m k now
    cases hr : (m.get now k).2 <;> simp_all [isGet, isHit]
  | remove k =>
    cases h
    simpa [isGet, isHit] using remove_counts

/-- Whatever the budget, a run that returns has counted its calls. -/
theorem runCalls_counts (calls : List (Call GoString V Time)) {os : List (Reply V)}
    (h : runCalls call m calls = some (m', os)) :
    m'.gets = m.gets + calls.countP isGet ∧ m'.hits = m.hits + os.countP isHit := by
  induction calls generalizing m os with
  | nil =>
    cases h
    simp
  | cons c calls ih =>
    cases hc : m.call c with
    | none => simp [runCalls, hc] at h
    | some r =>
      obtain ⟨m₁, o⟩ := r
      simp only [runCalls, hc, Option.map_eq_some_iff] at h
      obtain ⟨⟨m₂, os₂⟩, hrun, heq⟩ := h
      cases heq
      obtain ⟨hg, hh⟩ := ih hrun
      obtain ⟨hg₁, hh₁⟩ := call_counts hc
      rw [hg, hh, hg₁, hh₁, List.countP_cons, List.countP_cons]
      push_cast
      constructor <;> omega

/-- The counters agree with the calls and replies so far. -/
structure Counted (maxBytes : ℤ) (h : List (Call GoString V Time × Reply V))
    (m : MutexCache V) : Prop where
  wf : m.Wf
  maxBytes_eq : m.maxBytes = maxBytes
  adds : (h.countP fun c => isAdd c.1) = m.placed
  gets : m.gets = h.countP fun c => isGet c.1
  hits : m.hits = h.countP fun c => isHit c.2

/-- In fewer than 2^63 calls no counter leaves the range of the code's `int64`. -/
theorem Counted.in_range {h : List (Call GoString V Time × Reply V)} (hm : Counted maxBytes h m)
    (hlen : h.length < 2 ^ 63) : ∀ n ∈ [m.gets, m.hits, m.evictions], n < 2 ^ 63 := by
  have hadds : m.evictions ≤ h.countP fun c => isAdd c.1 := by
    rw [hm.adds, placed]
    omega
  have hle (p : Call GoString V Time × Reply V → Bool) : h.countP p ≤ h.length :=
    List.countP_le_length
  have hgets := hle fun c => isGet c.1
  have hhits := hle fun c => isHit c.2
  have hadds' := hle fun c => isAdd c.1
  simp only [List.mem_cons, List.not_mem_nil, or_false, forall_eq_or_imp, forall_eq, hm.gets,
    hm.hits]
  omega

theorem counted_new (h : 0 ≤ maxBytes) :
    Counted maxBytes [] (newMutexCache maxBytes : MutexCache V) :=
  ⟨newMutexCache_wf h, rfl, by simp [placed, entries, newMutexCache], rfl, rfl⟩

/-- Every call returns, and an `Add` places one entry. -/
theorem call_placed (hm : m.Wf) (c : Call GoString V Time) :
    ∃ m' o, m.call c = some (m', o) ∧ m'.Wf ∧ m'.maxBytes = m.maxBytes ∧
      m'.placed = m.placed + if isAdd c then 1 else 0 := by
  cases c with
  | add k v =>
    obtain ⟨m', hadd, hw, hmax, _⟩ := add_spec (k := k) (v := v) hm
    exact ⟨m', .done, by simp [call, hadd], hw, hmax, (add_eq hm hadd).1⟩
  | get now k =>
    obtain ⟨hplaced, hmax⟩ := @get_placed _ _ _ k now hm
    exact ⟨_, _, rfl, get_wf hm, hmax, by simp [isAdd, hplaced]⟩
  | remove k =>
    obtain ⟨hplaced, hmax⟩ := remove_placed (k := k) hm
    exact ⟨_, _, rfl, remove_wf hm, hmax, by simp [isAdd, hplaced]⟩

/-- Every call returns and is counted. -/
theorem counted_step {h : List (Call GoString V Time × Reply V)} (hm : Counted maxBytes h m)
    (c : Call GoString V Time) :
    ∃ m' o, m.call c = some (m', o) ∧ Counted maxBytes (h ++ [(c, o)]) m' := by
  obtain ⟨hwf, hmax, hadds, hgets, hhits⟩ := hm
  obtain ⟨m', o, hcall, hw, hmax', hplaced⟩ := call_placed hwf c
  obtain ⟨hg, hh⟩ := call_counts hcall
  refine ⟨m', o, hcall, hw, hmax'.trans hmax, ?_, ?_, ?_⟩
  · rw [List.countP_append, List.countP_singleton, hplaced, ← hadds]
    push_cast
    rfl
  · rw [List.countP_append, List.countP_singleton, hg, hgets]
    push_cast
    rfl
  · rw [List.countP_append, List.countP_singleton, hh, hhits]
    push_cast
    rfl

/-- All calls return, and the counters agree with the whole run. -/
theorem counted_run (h : 0 ≤ maxBytes) (calls : List (Call GoString V Time)) :
    ∃ m os, runCalls call (newMutexCache maxBytes : MutexCache V) calls = some (m, os) ∧
      m.Wf ∧ m.maxBytes = maxBytes ∧ (calls.countP isAdd) = m.placed ∧
      m.gets = calls.countP isGet ∧ m.hits = os.countP isHit := by
  obtain ⟨m, os, hrun, hlen, hc⟩ :=
    runCalls_invariant (J := Counted maxBytes) (fun _ _ c hm => counted_step hm c) calls
      (counted_new h)
  have hfst : ((calls.zip os).map Prod.fst) = calls := List.map_fst_zip (by omega)
  have hsnd : ((calls.zip os).map Prod.snd) = os := List.map_snd_zip (by omega)
  obtain ⟨hwf, hmax, hadds, hgets, hhits⟩ := hc
  refine ⟨m, os, hrun, hwf, hmax, ?_, ?_, ?_⟩
  · rw [← hadds, ← hfst, List.countP_map]
    simp [hfst, Function.comp_def]
  · rw [hgets, ← hfst, List.countP_map]
    simp [hfst, Function.comp_def]
  · rw [hhits, ← hsnd, List.countP_map]
    simp [hsnd, Function.comp_def]

/-- The accounting of `Stats` is exact after every run, and `Add` always returns. -/
theorem stats_exact (maxBytes : ℤ) (h : 0 ≤ maxBytes) (calls : List (Call GoString V Time)) :
    ∃ m os, runCalls call (newMutexCache maxBytes : MutexCache V) calls = some (m, os) ∧
      m.stats.bytes =
        (m.entries.map fun ent => (ent.key.length + CacheValue.len ent.value : ℤ)).sum ∧
      m.stats.items = (m.entries.map (·.key)).dedup.length ∧
      (calls.countP isAdd) = m.stats.items + m.stats.evictions ∧
      (0 < maxBytes → m.stats.bytes ≤ maxBytes) ∧
      ∀ k v, ∃ m', m.add k v = some m' := by
  obtain ⟨m, os, hrun, hwf, hmax, hadds, _⟩ := counted_run (V := V) h calls
  have hitems : (m.itemsLocked : ℤ) = m.entries.length := by rw [itemsLocked_eq hwf.toExact]
  refine ⟨m, os, hrun, ?_, ?_, ?_, ?_, ?_⟩
  · have hbytes := hwf.bytes_eq
    rwa [pairs, List.map_map] at hbytes
  · rw [(nodup_keys hwf).dedup, List.length_map]
    exact hitems
  · rw [hadds]
    change _ = (m.itemsLocked : ℤ) + m.evictions
    rw [hitems, placed]
  · intro hpos
    exact hmax ▸ hwf.bytes_le (hmax ▸ hpos)
  · intro k v
    obtain ⟨m', hadd, _⟩ := add_spec (k := k) (v := v) hwf
    exact ⟨m', hadd⟩

/-- Two entries of which only one fits, and a third that alone exceeds the budget. -/
def crowded : List (Call GoString ByteView Time) :=
  [.add [97] ⟨none, [1, 2], Time.zero⟩, .add [98] ⟨none, [3], ⟨5⟩⟩, .get ⟨5⟩ [98], .get ⟨6⟩ [98],
    .add [99] ⟨none, [4, 5, 6], Time.zero⟩, .remove [97]]

theorem stats_exact_crowded : (0 : ℤ) ≤ 3 ∧
    ∃ m os, runCalls call (newMutexCache 3 : MutexCache ByteView) crowded = some (m, os) ∧
      m.stats.bytes = (m.entries.map fun ent => (ent.key.length + ent.value.len : ℤ)).sum ∧
      m.stats.items = (m.entries.map (·.key)).dedup.length ∧
      (crowded.countP isAdd) = m.stats.items + m.stats.evictions ∧
      (0 < (3 : ℤ) → m.stats.bytes ≤ 3) ∧ ∀ k v, ∃ m', m.add k v = some m' :=
  ⟨by decide, stats_exact 3 (by decide) crowded⟩

/-- The cache and the reference hold the same entries in the same order. -/
structure Refines (maxBytes : ℤ) (m : MutexCache V) (l : List (Lru.Entry GoString V)) : Prop where
  wf : m.Wf
  maxBytes_eq : m.maxBytes = maxBytes
  entries_eq : m.entries = l

/-- One call of the cache is one step of the reference, with the same reply. -/
theorem call_refines {l : List (Lru.Entry GoString V)} (hm : Refines maxBytes m l)
    (c : Call GoString V Time) :
    ∃ m' l' o, m.call c = some (m', o) ∧ some ((policy V maxBytes).step l c) = some (l', o) ∧
      Refines maxBytes m' l' := by
  obtain ⟨hwf, rfl, rfl⟩ := hm
  cases c with
  | add k v =>
    obtain ⟨m', hadd, hw, hmax, _⟩ := add_spec (k := k) (v := v) hwf
    exact ⟨m', _, .done, by simp [call, hadd], rfl, hw, hmax, (add_eq hwf hadd).2⟩
  | get now k =>
    have hget := get_eq hwf now k
    have hmax : (m.get now k).1.maxBytes = m.maxBytes := (get_placed hwf).2
    have hw : (m.get now k).1.Wf := get_wf hwf
    unfold lookupEntry at hget
    cases hf : m.entries.find? (·.key = k) with
    | none =>
      simp only [hf] at hget
      exact ⟨_, _, .got none, by rw [call, hget.1],
        congrArg some (Policy.step_get_absent hf), hw, hmax, hget.2⟩
    | some ent =>
      simp only [hf] at hget
      split at hget
      · rename_i he
        exact ⟨_, _, .got none, by rw [call, hget.1],
          congrArg some (Policy.step_get_expired hf he), hw, hmax, hget.2⟩
      · rename_i he
        exact ⟨_, _, .got (some ent.value), by rw [call, hget.1],
          congrArg some (Policy.step_get_live hf (Bool.eq_false_iff.mpr he)), hw, hmax, hget.2⟩
  | remove k =>
    exact ⟨_, _, .done, rfl, rfl, remove_wf hwf, (remove_placed hwf).2, remove_entries hwf⟩

/-- On every run the cache returns, answers every `Get` as the reference does and counts them. -/
theorem refines_reference (maxBytes : ℤ) (h : 0 ≤ maxBytes)
    (calls : List (Call GoString V Time)) :
    ∃ m os l, runCalls call (newMutexCache maxBytes : MutexCache V) calls = some (m, os) ∧
      runCalls (fun l c => some ((policy V maxBytes).step l c)) [] calls = some (l, os) ∧
      m.entries = l ∧ (l.map (·.key)).Nodup ∧
      m.hits = os.countP isHit ∧ m.gets = calls.countP isGet := by
  obtain ⟨m, l, os, hrun, href, hwf, _, hent⟩ :=
    runCalls_simulates (R := Refines maxBytes) (fun _ _ c hm => call_refines hm c) calls
      (s := (newMutexCache maxBytes : MutexCache V)) ⟨newMutexCache_wf h, rfl, rfl⟩
  obtain ⟨m₁, os₁, hrun₁, _, _, _, hgets, hhits⟩ := counted_run (V := V) h calls
  obtain ⟨rfl, rfl⟩ := Prod.mk.injEq .. ▸ Option.some.inj (hrun.symm.trans hrun₁)
  exact ⟨m, os, l, hrun, href, hent, hent ▸ nodup_keys hwf, hhits, hgets⟩

theorem refines_reference_crowded : (0 : ℤ) ≤ 3 ∧
    ∃ m os l, runCalls call (newMutexCache 3 : MutexCache ByteView) crowded = some (m, os) ∧
      runCalls (fun l c => some ((policy ByteView 3).step l c)) [] crowded = some (l, os) ∧
      m.entries = l ∧ (l.map (·.key)).Nodup ∧
      m.hits = os.countP isHit ∧ m.gets = crowded.countP isGet :=
  ⟨by decide, refines_reference 3 (by decide) crowded⟩

end Groupcache.MutexCache

namespace Groupcache.Cache

open Transport Lib Lib.Lru

variable {V : Type} [CacheValue V]

/-- An added value is stored exactly if it fits. -/
theorem find?_add (c : Cache V) (k : GoString) (v : V) : (c.add k v).find? k =
    if c.raw.maxBytes = 0 ∨ MutexCache.size (k, v) ≤ c.raw.maxBytes then some v else none := by
  obtain ⟨m, hadd, _⟩ := MutexCache.add_spec (k := k) (v := v) c.wf
  have hent := (MutexCache.add_eq c.wf hadd).2
  have hraw : (c.add k v).raw = m := by simp [add, hadd]
  have hnonneg := c.wf.max_nonneg
  rw [find?, MutexCache.lookupEntry, hraw, hent]
  have hweight : (MutexCache.policy V c.raw.maxBytes).weight ⟨k, v, CacheValue.expire v⟩ =
    MutexCache.size (k, v) := rfl
  split
  · rename_i hfits
    have hone : (MutexCache.policy V c.raw.maxBytes).fits [⟨k, v, CacheValue.expire v⟩] = true := by
      by_cases hpos : 0 < c.raw.maxBytes
      · rw [MutexCache.fits_eq hpos, List.map_singleton, List.sum_singleton, hweight]
        exact decide_eq_true (hfits.resolve_left (by omega))
      · simp [Policy.fits, MutexCache.policy, hpos]
    obtain ⟨l', hl'⟩ := longestInit_cons hone
      (c.raw.entries.filter fun ent => decide (ent.key ≠ k))
    rw [hl']
    simp
  · rename_i hfits
    have hpos : 0 < c.raw.maxBytes := by omega
    rw [longestInit_eq_nil]
    · simp
    · intro l
      have hsum : 0 ≤ (l.map (MutexCache.policy V c.raw.maxBytes).weight).sum := by
        apply List.sum_nonneg
        intro w hw
        obtain ⟨ent, _, rfl⟩ := List.mem_map.mp hw
        exact add_nonneg (Int.natCast_nonneg _) (Int.natCast_nonneg _)
      rw [MutexCache.fits_eq hpos, List.map_cons, List.sum_cons, hweight]
      exact decide_eq_false (by omega)

end Groupcache.Cache
