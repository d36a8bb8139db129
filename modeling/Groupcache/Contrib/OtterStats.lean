import Groupcache.CacheRuns
import Groupcache.Contrib.Otter

/-! The counters that `OtterCache.Stats` reports after a whole run. The library counts a lookup that
finds an expired entry as a hit, and the wrapper does not count it at all. -/
namespace Groupcache.Contrib

open Transport Lib

/-- Otter's `Hits` counts its lookups that found their key. -/
structure Otter.CountsHits {C : Type} (L : Otter C) : Prop where
  build : ∀ n, L.hits (L.build n) = 0
  get : ∀ c k, L.hits (L.get c k).1 = L.hits c + if (L.get c k).2.isSome then 1 else 0
  set : ∀ c k v cost, L.hits (L.set c k v cost).1 = L.hits c
  delete : ∀ c k, L.hits (L.delete c k) = L.hits c
  evicts : ∀ c c', L.Evicts c c' → L.hits c' = L.hits c

namespace OtterCache

open Lib.Lru (Call Reply)
open MutexCache (isGet isHit)

variable {C : Type} {L : Otter C}

/-- What `Stats` returns. -/
structure Stats extends MutexCache.CacheStats where
  rejected : ℤ

variable (L) in
/-- `Bytes` is the capacity of the library's cache. -/
def stats (o : OtterCache C) : Stats :=
  { bytes := L.capacity o.cache
    items := L.size o.cache
    rejected := o.rejected
    evictions := L.evictedCount o.cache
    gets := o.gets
    hits := L.hits o.cache }

/-- The calls of a run, without the evictions. -/
def Action.call? : Action → Option (Call GoString ByteView Time × Reply ByteView)
  | .call x r => some (x, r)
  | .evict => none

def calls (as : List Action) : List (Call GoString ByteView Time × Reply ByteView) :=
  as.filterMap Action.call?

variable (L) in
/-- A `Get` that finds an entry whose time is over. -/
def FindsExpired (o : OtterCache C) (a : Action) (_ : OtterCache C) : Prop :=
  ∃ now k v r, a = .call (.get now k) r ∧ o.find? L k = some v ∧ expired v now = true

variable {maxBytes : ℤ} {as : List Action} {o o' : OtterCache C} {a : Action} {n n' : ℕ}

variable (L) in
/-- The counters as they are, `n` lookups having found an expired entry. -/
structure Counted (as : List Action) (o : OtterCache C) (n : ℕ) : Prop where
  gets : o.gets + n = (calls as).countP fun c => isGet c.1
  hits : L.hits o.cache = ((calls as).countP fun c => isHit c.2) + n

@[simp] theorem calls_call (x : Call GoString ByteView Time) (r : Reply ByteView) :
    calls (as ++ [.call x r]) = calls as ++ [(x, r)] := by
  simp [calls, Action.call?]

@[simp] theorem calls_evict : calls (as ++ [.evict]) = calls as := by
  simp [calls, Action.call?]

theorem isHit_got (r : Option ByteView) : isHit (.got r) = r.isSome := by
  cases r <;> rfl

theorem get_counters_expired (hL : L.CountsHits) {k : GoString} {v : ByteView} {now : Time}
    (h : o.find? L k = some v) (he : expired v now = true) :
    (o.get L now k).2 = none ∧ (o.get L now k).1.gets = o.gets ∧
      L.hits (o.get L now k).1.cache = L.hits o.cache + 1 := by
  have hlook : (L.get o.cache k).2 = some v := h
  simp [get, hlook, he, hL.delete, hL.get]

theorem get_counters (hL : L.CountsHits) {k : GoString} {now : Time}
    (h : ∀ v, o.find? L k = some v → expired v now = false) :
    (o.get L now k).1.gets = o.gets + 1 ∧
      L.hits (o.get L now k).1.cache =
        L.hits o.cache + if (o.get L now k).2.isSome then 1 else 0 := by
  cases hk : (L.get o.cache k).2 with
  | none => simp [get, hk, hL.get, expired, ByteView.withExpire, ByteView.expire, Time.isZero,
      Time.zero]
  | some v =>
    have he : expired v now = false := h v hk
    simp [get, hk, he, hL.get]

/-- A step that finds no expired entry is counted by both counters as it is by a `mutexCache`. -/
theorem counted_of_not_expired (hL : L.CountsHits) (h : (lts L maxBytes).Step o a o')
    (hc : Counted L as o n) (hno : ¬FindsExpired L o a o') : Counted L (as ++ [a]) o' n := by
  obtain ⟨hgets, hhits⟩ := hc
  cases a with
  | evict =>
    obtain ⟨c, hc, rfl⟩ := h
    constructor
    · simpa using hgets
    · simpa [hL.evicts _ _ hc] using hhits
  | call x r =>
    obtain ⟨rfl, rfl⟩ := Prod.mk.inj h
    cases x with
    | add k v =>
      have hg : (o.add L k v).gets = o.gets := by
        unfold add
        simp only
        split <;> rfl
      have hh : L.hits (o.add L k v).cache = L.hits o.cache := by rw [add_cache, hL.set]
      constructor
      · simpa [isGet, hg] using hgets
      · simpa [isHit, hh] using hhits
    | remove k =>
      constructor
      · simpa [isGet, remove] using hgets
      · simpa [isHit, remove, hL.delete] using hhits
    | get now k =>
      have hfresh : ∀ v, o.find? L k = some v → expired v now = false := by
        intro v hv
        by_contra he
        exact hno ⟨now, k, v, _, rfl, hv, by simpa using he⟩
      obtain ⟨hg, hh⟩ := get_counters hL hfresh
      constructor
      · rw [calls_call, List.countP_append, List.countP_singleton, ← hgets, hg]
        simp only [isGet, if_true]
        omega
      · rw [calls_call, List.countP_append, List.countP_singleton, isHit_got, hh, hhits]
        omega

/-- The library counts a hit, and the wrapper counts nothing. -/
theorem counted_of_expired (hL : L.CountsHits) (h : (lts L maxBytes).Step o a o')
    (hc : Counted L as o n) (he : FindsExpired L o a o') : Counted L (as ++ [a]) o' (n + 1) := by
  obtain ⟨hgets, hhits⟩ := hc
  obtain ⟨now, k, v, r, rfl, hv, hexp⟩ := he
  obtain ⟨rfl, rfl⟩ := Prod.mk.inj h
  obtain ⟨hmiss, hg, hh⟩ := get_counters_expired hL hv hexp
  constructor
  · rw [calls_call, List.countP_append, List.countP_singleton, ← hgets, hg]
    simp only [isGet, if_true]
    omega
  · rw [calls_call, List.countP_append, List.countP_singleton, isHit_got, hh, hhits, hmiss]
    simp only [Option.isSome_none, Bool.false_eq_true, if_false]
    omega

theorem counted_initial (hL : L.CountsHits) (h : (lts L maxBytes).Init o) : Counted L [] o 0 := by
  have h : new L maxBytes = some o := h
  unfold new at h
  split at h
  · cases h
    exact ⟨rfl, hL.build _⟩
  · cases h

theorem counted_run (hL : L.CountsHits)
    (h : ((lts L maxBytes).counting (FindsExpired L)).Run as (o, n)) : Counted L as o n :=
  h.counted (fun _ => counted_initial hL) (fun _ _ _ _ _ => counted_of_not_expired hL)
    fun _ _ _ _ _ => counted_of_expired hL

variable (L) in
/-- `Gets` is the number of `Get` calls, and `Hits` that of those which returned true. -/
def CountsCalls (as : List Action) (o : OtterCache C) : Prop :=
  (o.stats L).gets = (calls as).countP (fun c => isGet c.1) ∧
    (o.stats L).hits = (calls as).countP fun c => isHit c.2

/-- `OtterCache` counts its calls exactly as long as no `Get` finds an expired entry; a `mutexCache`
counts every run of the same calls that returns, as it does with every budget but a negative one. -/
theorem otter_counts_iff (hL : L.CountsHits) (h : (lts L maxBytes).Run as o) :
    (∃ n, ((lts L maxBytes).counting (FindsExpired L)).Run as (o, n)) ∧
    (∀ n, ((lts L maxBytes).counting (FindsExpired L)).Run as (o, n) →
      (CountsCalls L as o ↔ n = 0)) ∧
    ∀ budget : ℤ,
      (0 ≤ budget → (runCalls MutexCache.call (newMutexCache budget : MutexCache ByteView)
        ((calls as).map (·.1))).isSome) ∧
      ∀ (m : MutexCache ByteView) (rs : List (Reply ByteView)),
        runCalls MutexCache.call (newMutexCache budget) ((calls as).map (·.1)) = some (m, rs) →
        m.stats.gets = ((calls as).map (·.1)).countP isGet ∧ m.stats.hits = rs.countP isHit := by
  refine ⟨h.counting (FindsExpired L), fun n hn => ?_, fun budget => ⟨fun hb => ?_, ?_⟩⟩
  · obtain ⟨hgets, hhits⟩ := counted_run hL hn
    simp only [CountsCalls, stats, Nat.cast_inj]
    constructor
    · rintro ⟨hg, -⟩
      omega
    · rintro rfl
      exact ⟨hgets, hhits⟩
  · obtain ⟨m, rs, hrun, -⟩ := MutexCache.counted_run (V := ByteView) hb ((calls as).map (·.1))
    rw [hrun]
    rfl
  · intro m rs hrun
    simpa [newMutexCache, MutexCache.stats] using MutexCache.runCalls_counts _ hrun

theorem listOtter_countsHits : listOtter.CountsHits where
  build _ := rfl
  get _ _ := rfl
  set c k v cost := by
    simp only [listOtter]
    split <;> rfl
  delete _ _ := rfl
  evicts := by
    rintro c _ ⟨_, _, rfl⟩
    rfl

/-- A value is stored until time 5 and looked up at time 4, next to a key that is missing; then it
is removed and looked up again. -/
theorem otter_counts_hit : ∃ o n, ((lts listOtter 20).counting (FindsExpired listOtter)).Run
      [.call (.add [107] ⟨some [1], [], ⟨5⟩⟩) .done,
        .call (.get ⟨4⟩ [107]) (.got (some ⟨some [1], [], ⟨5⟩⟩)),
        .call (.get ⟨4⟩ [108]) (.got none), .call (.remove [107]) .done,
        .call (.get ⟨6⟩ [107]) (.got none)] (o, n) ∧
    (CountsCalls listOtter [.call (.add [107] ⟨some [1], [], ⟨5⟩⟩) .done,
        .call (.get ⟨4⟩ [107]) (.got (some ⟨some [1], [], ⟨5⟩⟩)),
        .call (.get ⟨4⟩ [108]) (.got none), .call (.remove [107]) .done,
        .call (.get ⟨6⟩ [107]) (.got none)] o ↔ n = 0) := by
  let o₀ : OtterCache ListCache := ⟨listOtter.build 20, 0, 0⟩
  let o₁ := o₀.add listOtter [107] ⟨some [1], [], ⟨5⟩⟩
  let o₂ := (o₁.get listOtter ⟨4⟩ [107]).1
  let o₃ := (o₂.get listOtter ⟨4⟩ [108]).1
  let o₄ := o₃.remove listOtter [107]
  have h₀ : (lts listOtter 20).Run [] o₀ := .init rfl
  have hadd : (lts listOtter 20).Step o₀ (.call (.add [107] ⟨some [1], [], ⟨5⟩⟩) .done) o₁ := rfl
  have hget : (lts listOtter 20).Step o₁
      (.call (.get ⟨4⟩ [107]) (.got (some ⟨some [1], [], ⟨5⟩⟩))) o₂ := rfl
  have hmiss : (lts listOtter 20).Step o₂ (.call (.get ⟨4⟩ [108]) (.got none)) o₃ := rfl
  have hremove : (lts listOtter 20).Step o₃ (.call (.remove [107]) .done) o₄ := rfl
  have hlast : (lts listOtter 20).Step o₄ (.call (.get ⟨6⟩ [107]) (.got none))
      (o₄.get listOtter ⟨6⟩ [107]).1 := rfl
  obtain ⟨⟨n, hn⟩, hiff, -⟩ := otter_counts_iff listOtter_countsHits
    (((((h₀.step hadd).step hget).step hmiss).step hremove).step hlast)
  exact ⟨_, n, hn, hiff n hn⟩

/-- It is looked up at time 6: one `Get`, no hit, and `Stats` reports no `Get` and one hit. -/
theorem otter_miscounts_expired : ∃ o, (lts listOtter 20).Run
      [.call (.add [107] ⟨some [1], [], ⟨5⟩⟩) .done, .call (.get ⟨6⟩ [107]) (.got none)] o ∧
    (o.stats listOtter).gets = 0 ∧ (o.stats listOtter).hits = 1 ∧
    ¬CountsCalls listOtter [.call (.add [107] ⟨some [1], [], ⟨5⟩⟩) .done,
      .call (.get ⟨6⟩ [107]) (.got none)] o := by
  let o₀ : OtterCache ListCache := ⟨listOtter.build 20, 0, 0⟩
  let o₁ := o₀.add listOtter [107] ⟨some [1], [], ⟨5⟩⟩
  have hadd : (lts listOtter 20).Step o₀ (.call (.add [107] ⟨some [1], [], ⟨5⟩⟩) .done) o₁ := rfl
  have hget : (lts listOtter 20).Step o₁ (.call (.get ⟨6⟩ [107]) (.got none))
      (o₁.get listOtter ⟨6⟩ [107]).1 := rfl
  refine ⟨_, .step (.step (.init rfl) hadd) hget, rfl, rfl, ?_⟩
  rintro ⟨hgets, -⟩
  exact absurd hgets (by decide)

end OtterCache

end Groupcache.Contrib
