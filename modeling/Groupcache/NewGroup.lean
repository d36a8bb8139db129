import Groupcache.Errors
import Groupcache.Group

/-! `Instance.NewGroup` with all the points where it can fail, and what a failure leaves of the
instance's groups. -/
namespace Groupcache

open Transport

/-- A call of the OpenTelemetry meter. -/
inductive MeterCall
  | int64ObservableCounter (name : String)
  | int64ObservableUpDownCounter (name : String)
  | registerCallback (instruments : List String)
deriving DecidableEq

/-- The error that the meter's calls return, by the number of calls before. -/
abbrev Meter := ℕ → MeterCall → Option Err

/-- What the options provide for one call of `NewGroup`: the results of `CacheFactory`, by the
number of its calls before, and the meter. -/
structure GroupEnv (C : Type) where
  cacheFactory : ℕ → ℤ → Except Err C
  metricProvider : Option Meter

/-- The instruments of `newGroupInstruments`, in their order. -/
def newGroupInstruments : List MeterCall :=
  [.int64ObservableCounter "groupcache.group.gets",
    .int64ObservableCounter "groupcache.group.cache_hits",
    .int64ObservableCounter "groupcache.group.peer.loads",
    .int64ObservableCounter "groupcache.group.peer.errors",
    .int64ObservableCounter "groupcache.group.loads",
    .int64ObservableCounter "groupcache.group.loads.deduped",
    .int64ObservableCounter "groupcache.group.local.loads",
    .int64ObservableCounter "groupcache.group.local.load_errors",
    .int64ObservableUpDownCounter "groupcache.group.peer.latency_max_ms",
    .int64ObservableCounter "groupcache.group.remove_keys.requests",
    .int64ObservableCounter "groupcache.group.removed_keys"]

def newCacheInstruments : List MeterCall :=
  [.int64ObservableCounter "groupcache.cache.rejected",
    .int64ObservableUpDownCounter "groupcache.cache.bytes",
    .int64ObservableUpDownCounter "groupcache.cache.items",
    .int64ObservableCounter "groupcache.cache.gets",
    .int64ObservableCounter "groupcache.cache.hits",
    .int64ObservableCounter "groupcache.cache.evictions"]

def MeterCall.names : MeterCall → List String
  | .int64ObservableCounter name | .int64ObservableUpDownCounter name => [name]
  | .registerCallback _ => []

/-- The callback that observes the instruments. -/
def callbackFor (instruments : List MeterCall) : MeterCall :=
  .registerCallback (instruments.flatMap MeterCall.names)

/-- Make the calls until one fails. -/
def firstError (meter : Meter) : ℕ → List MeterCall → Option Err
  | _, [] => none
  | n, c :: cs =>
    match meter n c with
    | some e => some e
    | none => firstError meter (n + 1) cs

/-- The calls of `registerInstruments`, those of `registerCacheInstruments` last: there is one
callback for the main cache and one for the hot cache. -/
def meterCalls : List MeterCall :=
  newGroupInstruments ++ [callbackFor newGroupInstruments] ++
    (newCacheInstruments ++ [callbackFor newCacheInstruments, callbackFor newCacheInstruments])

def registerInstruments (meter : Meter) : Option Err := firstError meter 0 meterCalls

inductive NewGroupErr
  | nilGetter
  | duplicate (name : GoString)
  | cacheFactory (e : Err)
  | metrics (name : GoString) (e : Err)

def NewGroupErr.error : NewGroupErr → GoString
  | nilGetter => "NewGroup(): provided Getter cannot be nil".toUTF8.toList
  | duplicate name =>
    "duplicate registration of group '".toUTF8.toList ++ name ++ "'".toUTF8.toList
  | cacheFactory e => ("Options.CacheFactory(): " ++ e.message).toUTF8.toList
  | metrics name e => "failed to register metrics for group '".toUTF8.toList ++ name ++
      ("': " ++ e.message).toUTF8.toList

/-- A group as `NewGroup` makes it, with caches in `C` and a Getter in `G`. -/
structure NamedGroup (C G : Type) where
  name : GoString
  getter : G
  maxCacheBytes : ℤ
  mainCache : C
  hotCache : C

abbrev Registry (C G : Type) := GoString → Option (NamedGroup C G)

variable {C G : Type}

/-- `ResetCacheSize` of a new group. -/
def makeCaches (env : GroupEnv C) (cacheBytes : ℤ) : Except Err (C × C) :=
  match env.cacheFactory 0 (Group.mainBytes cacheBytes) with
  | .error e => .error e
  | .ok mainCache =>
    match env.cacheFactory 1 (Group.hotBytes cacheBytes) with
    | .error e => .error e
    | .ok hotCache => .ok (mainCache, hotCache)

def newGroup (env : GroupEnv C) (groups : Registry C G) (name : GoString) (cacheBytes : ℤ)
    (getter : Option G) : Registry C G × Except NewGroupErr (NamedGroup C G) :=
  match getter with
  | none => (groups, .error .nilGetter)
  | some getter =>
    match groups name with
    | some _ => (groups, .error (.duplicate name))
    | none =>
      match makeCaches env cacheBytes with
      | .error e => (groups, .error (.cacheFactory e))
      | .ok (mainCache, hotCache) =>
        let g := { name, getter, maxCacheBytes := cacheBytes, mainCache, hotCache }
        -- the group is published before its metrics are registered
        let groups := Function.update groups name (some g)
        match env.metricProvider.bind registerInstruments with
        | some e => (groups, .error (.metrics name e))
        | none => (groups, .ok g)

/-- The options of `New` with neither a `CacheFactory` nor a `MetricProvider`. -/
def defaultGroupEnv {V : Type} : GroupEnv (MutexCache V) where
  cacheFactory := fun _ maxBytes => .ok (newMutexCache maxBytes)
  metricProvider := none

section NewGroup

variable {env : GroupEnv C} {groups : Registry C G} {name : GoString} {cacheBytes : ℤ}
  {getter : Option G} {g : NamedGroup C G} {meter : Meter}

theorem firstError_eq_none {n : ℕ} {cs : List MeterCall} :
    firstError meter n cs = none ↔ ∀ k c, cs[k]? = some c → meter (n + k) c = none := by
  induction cs generalizing n with
  | nil => simp [firstError]
  | cons c cs ih =>
    cases hc : meter n c with
    | some e =>
      simp only [firstError, hc, reduceCtorEq, false_iff]
      intro hall
      exact absurd (hall 0 c rfl) (by simp [hc])
    | none =>
      simp only [firstError, hc, ih]
      constructor
      · intro hall k d hd
        cases k with
        | zero => simpa [show c = d by simpa using hd] using hc
        | succ k =>
          have := hall k d (by simpa using hd)
          rwa [Nat.add_right_comm] at this
      · intro hall k d hd
        have := hall (k + 1) d (by simpa using hd)
        rwa [Nat.add_right_comm]

theorem registerInstruments_eq_none :
    registerInstruments meter = none ↔ ∀ k c, meterCalls[k]? = some c → meter k c = none := by
  simp [registerInstruments, firstError_eq_none]

/-- The call gets as far as the metrics, and one of the calls of the meter fails. -/
def MetricsFail (env : GroupEnv C) (groups : Registry C G) (name : GoString) (cacheBytes : ℤ)
    (getter : Option G) : Prop :=
  getter ≠ none ∧ groups name = none ∧ (∃ caches, makeCaches env cacheBytes = .ok caches) ∧
    ∃ meter, env.metricProvider = some meter ∧
      ∃ k c e, meterCalls[k]? = some c ∧ meter k c = some e

theorem metricsFail_of_registers (hg : getter ≠ none) (hfree : groups name = none)
    {caches : C × C} (hcaches : makeCaches env cacheBytes = .ok caches) {e : Err}
    (hmeter : env.metricProvider.bind registerInstruments = some e) :
    MetricsFail env groups name cacheBytes getter := by
  obtain ⟨meter, hprovider, hfails⟩ := Option.bind_eq_some_iff.mp hmeter
  refine ⟨hg, hfree, ⟨caches, hcaches⟩, meter, hprovider, ?_⟩
  by_contra hno
  have hnone : registerInstruments meter = none := by
    refine registerInstruments_eq_none.mpr fun k c hc => ?_
    exact Option.eq_none_iff_forall_ne_some.mpr fun e he => hno ⟨k, c, e, hc, he⟩
  simp [hnone] at hfails

/-- What a call of `NewGroup` does: it fails before it publishes the group, or it publishes a group
under a free name, and fails after that only in the metrics. -/
theorem newGroup_cases (env : GroupEnv C) (groups : Registry C G) (name : GoString)
    (cacheBytes : ℤ) (getter : Option G) :
    (∃ e, newGroup env groups name cacheBytes getter = (groups, .error e) ∧
        (∀ d, e = .duplicate d → groups name ≠ none) ∧
        ¬ MetricsFail env groups name cacheBytes getter) ∨
      ∃ g, g.name = name ∧ groups name = none ∧
        (newGroup env groups name cacheBytes getter).1 = Function.update groups name (some g) ∧
        ((∃ e, (newGroup env groups name cacheBytes getter).2 = .error (.metrics name e) ∧
            MetricsFail env groups name cacheBytes getter) ∨
          (newGroup env groups name cacheBytes getter).2 = .ok g ∧
            ¬ MetricsFail env groups name cacheBytes getter) := by
  cases getter with
  | none => exact .inl ⟨.nilGetter, rfl, by simp, fun h => h.1 rfl⟩
  | some getter =>
    cases hdup : groups name with
    | some g => exact .inl ⟨.duplicate name, by simp [newGroup, hdup], by simp,
        fun h => by simpa [hdup] using h.2.1⟩
    | none =>
      cases hcaches : makeCaches env cacheBytes with
      | error e => exact .inl ⟨.cacheFactory e, by simp [newGroup, hdup, hcaches], by simp,
          fun ⟨_, _, ⟨_, hc⟩, _⟩ => by simp [hcaches] at hc⟩
      | ok caches =>
        refine .inr ⟨⟨name, getter, cacheBytes, caches.1, caches.2⟩, rfl, rfl, ?_⟩
        cases hmeter : env.metricProvider.bind registerInstruments with
        | some e =>
          refine ⟨by simp [newGroup, hdup, hcaches, hmeter], .inl ⟨e, ?_, ?_⟩⟩
          · simp [newGroup, hdup, hcaches, hmeter]
          · exact metricsFail_of_registers (by simp) hdup hcaches hmeter
        | none =>
          refine ⟨by simp [newGroup, hdup, hcaches, hmeter], .inr ⟨?_, ?_⟩⟩
          · simp [newGroup, hdup, hcaches, hmeter]
          · rintro ⟨_, _, _, meter, hprovider, k, c, e, hc, he⟩
            simp only [hprovider, Option.bind_some] at hmeter
            simp [registerInstruments_eq_none.mp hmeter k c hc] at he

/-- A call that fails changes no group, and is no reason to reject a later call of the same name; a
call that succeeds adds its group. -/
structure AllOrNothing (groups : Registry C G) (name : GoString)
    (r : Registry C G × Except NewGroupErr (NamedGroup C G)) : Prop where
  unchanged : ∀ e, r.2 = .error e → r.1 = groups
  retry : ∀ e, r.2 = .error e → groups name = none → ∀ (env : GroupEnv C) cacheBytes getter,
    (newGroup env r.1 name cacheBytes getter).2 ≠ .error (.duplicate name)
  added : ∀ g, r.2 = .ok g →
    g.name = name ∧ groups name = none ∧ r.1 = Function.update groups name (some g)

theorem newGroup_ne_duplicate (hfree : groups name = none) (env : GroupEnv C) (cacheBytes : ℤ)
    (getter : Option G) :
    (newGroup env groups name cacheBytes getter).2 ≠ .error (.duplicate name) := by
  rcases newGroup_cases env groups name cacheBytes getter with
    ⟨e, heq, hdup, -⟩ | ⟨g, -, -, -, ⟨e, herr, -⟩ | ⟨hok, -⟩⟩
  · intro h
    exact hdup name (by simpa [heq] using h) hfree
  · simp [herr]
  · simp [hok]

/-- `NewGroup` is all or nothing except where it fails in the metrics of a group that it has
published. -/
theorem newGroup_all_or_nothing (env : GroupEnv C) (groups : Registry C G) (name : GoString)
    (cacheBytes : ℤ) (getter : Option G) :
    AllOrNothing groups name (newGroup env groups name cacheBytes getter) ↔
      ¬ MetricsFail env groups name cacheBytes getter := by
  rcases newGroup_cases env groups name cacheBytes getter with
    ⟨e, heq, -, hno⟩ | ⟨g, hname, hfree, hpublished, ⟨e, herr, hfails⟩ | ⟨hok, hno⟩⟩
  · refine iff_of_true ⟨?_, ?_, ?_⟩ hno
    · exact fun _ _ => by rw [heq]
    · intro _ _ hfree env' cacheBytes' getter'
      rw [heq]
      exact newGroup_ne_duplicate hfree env' cacheBytes' getter'
    · simp [heq]
  · refine iff_of_false (fun hall => ?_) (not_not_intro hfails)
    have hsame := congrFun (hall.unchanged _ herr) name
    simp [hpublished, hfree] at hsame
  · refine iff_of_true ⟨?_, ?_, ?_⟩ hno
    · simp [hok]
    · simp [hok]
    · intro g' hg'
      obtain rfl : g = g' := by simpa [hok] using hg'
      exact ⟨hname, hfree, hpublished⟩

/-- The default caches, with a meter that refuses its first counter. -/
def refusingEnv : GroupEnv (MutexCache ByteView) :=
  { defaultGroupEnv with metricProvider := some fun _ _ => some (.other "no counter") }

/-- The first call fails and its group stays; the second one is rejected for it. -/
theorem newGroup_leaves_group :
    (newGroup refusingEnv (fun _ => none) [103] 0 (some ())).2 =
        .error (.metrics [103] (.other "no counter")) ∧
      ((newGroup refusingEnv (fun _ => none) [103] 0 (some ())).1 [103]).isSome ∧
      (newGroup defaultGroupEnv (newGroup refusingEnv (fun _ => none) [103] 0 (some ())).1 [103] 0
        (some ())).2 = .error (.duplicate [103]) ∧
      ¬ AllOrNothing (fun _ => none) [103]
        (newGroup refusingEnv (fun _ => none) [103] 0 (some ())) := by
  refine ⟨rfl, rfl, rfl, fun hall => ?_⟩
  have hsame := congrFun (hall.unchanged _ rfl) [103]
  exact absurd hsame (by simp [newGroup, makeCaches, refusingEnv, defaultGroupEnv,
    registerInstruments, meterCalls, newGroupInstruments, firstError])

end NewGroup

end Groupcache
