import Groupcache.Coherence

/-! A Getter that fails at the end of a forwarding chain: its error is classified anew at every hop
on the way back, and nobody tries again. -/
namespace Groupcache

open Transport Peer

namespace Group

variable {g g' g'' : Group ByteView} {key : GoString} {clock : ℕ → Time}

/-- Whatever is stored under the key has expired at the four clock readings of a `Get` that starts
at `t`. -/
def Missing (clock : ℕ → Time) (key : GoString) (t : ℕ) (g : Group ByteView) : Prop :=
  ∀ ent, ent ∈ g.mainCache.raw.entries ∨ ent ∈ g.hotCache.raw.entries → ent.key = key →
    ∀ i < 4, Lru.Cache.expired ent (clock (t + i)) = true

/-- No entry was added, and the Getter did not run. -/
structure Idle (g g' : Group ByteView) : Prop where
  main : g'.mainCache.raw.entries ⊆ g.mainCache.raw.entries
  hot : g'.hotCache.raw.entries ⊆ g.hotCache.raw.entries
  localLoads : g'.stats .localLoads = g.stats .localLoads
  localLoadErrs : g'.stats .localLoadErrs = g.stats .localLoadErrs

theorem Idle.refl (g : Group ByteView) : g.Idle g := ⟨fun _ => id, fun _ => id, rfl, rfl⟩

theorem Idle.trans (h : g.Idle g') (h' : g'.Idle g'') : g.Idle g'' :=
  ⟨fun _ he => h.main (h'.main he), fun _ he => h.hot (h'.hot he),
    h'.localLoads.trans h.localLoads, h'.localLoadErrs.trans h.localLoadErrs⟩

theorem Missing.idle {t : ℕ} (h : g.Missing clock key t) (hi : g.Idle g') :
    g'.Missing clock key t :=
  fun ent hent => h ent (hent.imp (fun he => hi.main he) fun he => hi.hot he)

theorem idle_count {c : Counter} (h : c ≠ .localLoads) (h' : c ≠ .localLoadErrs) (n : ℤ) :
    g.Idle (g.count c n) :=
  ⟨fun _ => id, fun _ => id, Function.update_of_ne h.symm _ _, Function.update_of_ne h'.symm _ _⟩

end Group

namespace Cache

variable {c : Cache ByteView} {now : Time} {key : GoString}

theorem get_entries_subset : (c.get now key).1.raw.entries ⊆ c.raw.entries := by
  have h := MutexCache.get_eq c.wf now key
  unfold MutexCache.lookupEntry at h
  intro ent hent
  change ent ∈ (c.raw.get now key).1.entries at hent
  cases he : c.raw.entries.find? (·.key = key) with
  | none =>
    simp only [he] at h
    exact h.2 ▸ hent
  | some ent' =>
    simp only [he] at h
    split at h
    · rw [h.2] at hent
      exact List.mem_of_mem_filter hent
    · rw [h.2] at hent
      rcases List.mem_cons.mp hent with rfl | hent
      · exact List.mem_of_find?_eq_some he
      · exact List.mem_of_mem_filter hent

/-- An entry that has expired is not returned. -/
theorem get_expired (h : ∀ ent ∈ c.raw.entries, ent.key = key → Lru.Cache.expired ent now = true) :
    (c.get now key).2 = none := by
  have hget := MutexCache.get_eq c.wf now key
  unfold MutexCache.lookupEntry at hget
  cases he : c.raw.entries.find? (·.key = key) with
  | none =>
    simp only [he] at hget
    exact hget.1
  | some ent =>
    have hexp := h ent (List.mem_of_find?_eq_some he) (by simpa using List.find?_some he)
    simp only [he, hexp, if_true] at hget
    exact hget.1

end Cache

namespace Group

variable {g : Group ByteView} {key : GoString} {clock : ℕ → Time}

theorem lookupCache_missing {t i : ℕ} (h : g.Missing clock key t) (hi : i + 1 < 4) :
    (g.lookupCache (clock (t + i)) (clock (t + i + 1)) key).2 = none ∧
      g.Idle (g.lookupCache (clock (t + i)) (clock (t + i + 1)) key).1 := by
  have hmain : (g.lookupMain (clock (t + i)) key).2 = none :=
    Cache.get_expired fun ent he hk => h ent (Or.inl he) hk i (by omega)
  have hhot : ((g.lookupMain (clock (t + i)) key).1.lookupHot (clock (t + i + 1)) key).2 = none :=
    Cache.get_expired fun ent he hk => h ent (Or.inr he) hk (i + 1) hi
  unfold lookupCache
  split
  · exact ⟨rfl, .refl g⟩
  · rw [hmain]
    exact ⟨hhot, Cache.get_entries_subset, Cache.get_entries_subset, rfl, rfl⟩

end Group

namespace Cluster

variable {site : GoString → Site} {o : Oracle} {σ σ' σ'' : Cluster} {x y z key : GoString}
  {l : List GoString}

def Idle (σ σ' : Cluster) : Prop := ∀ y, (σ.groups y).Idle (σ'.groups y)

theorem Idle.trans (h : σ.Idle σ') (h' : σ'.Idle σ'') : σ.Idle σ'' :=
  fun y => (h y).trans (h' y)

theorem idle_modify {f : Group ByteView → Group ByteView} (h : (σ.groups x).Idle (f (σ.groups x))) :
    σ.Idle (σ.modify x f) := by
  intro y
  by_cases hy : y = x
  · subst hy
    simpa [modify] using h
  · simpa [modify, hy] using .refl _

theorem idle_bump {c : Counter} (h : c ≠ .localLoads) (h' : c ≠ .localLoadErrs) :
    σ.Idle (σ.bump x c) :=
  idle_modify (Group.idle_count h h' 1)

theorem lookupCache_missing {t i : ℕ} (h : (σ.groups x).Missing o.clock key t)
    (ht : σ.tick = t + i) (hi : i + 1 < 4) :
    (lookupCache o σ x key).2 = none ∧ σ.Idle (lookupCache o σ x key).1 := by
  obtain ⟨hnone, hidle⟩ := Group.lookupCache_missing h hi
  rw [← ht] at hnone hidle
  exact ⟨hnone, idle_modify (f := fun _ => _) hidle⟩

/-- The state in which the lookups of `Get` and of `load` have both missed. -/
def missed (o : Oracle) (σ : Cluster) (x key : GoString) : Cluster :=
  (lookupCache o ((lookupCache o (σ.bump x .gets) x key).1.bump x .loads) x key).1.bump x
    .loadsDeduped

/-- The end of `Get` after a load. -/
def finish (dest : Sink) : Loaded → Served
  | none => none
  | some (σ, .error e, _) => some (σ, .error e)
  | some (σ, .ok v, destPopulated) => some (σ, if destPopulated then .ok v else deliver dest v)

theorem missed_spec (h : (σ.groups x).Missing o.clock key σ.tick) :
    (lookupCache o (σ.bump x .gets) x key).2 = none ∧
    (lookupCache o ((lookupCache o (σ.bump x .gets) x key).1.bump x .loads) x key).2 = none ∧
    σ.Idle (missed o σ x key) := by
  have hgets : σ.Idle (σ.bump x .gets) := idle_bump (by decide) (by decide)
  obtain ⟨hnone₁, hidle₁⟩ := lookupCache_missing (i := 0) (h.idle (hgets x)) rfl (by decide)
  have hloads : σ.Idle ((lookupCache o (σ.bump x .gets) x key).1.bump x .loads) :=
    (hgets.trans hidle₁).trans (idle_bump (by decide) (by decide))
  obtain ⟨hnone₂, hidle₂⟩ := lookupCache_missing (i := 2) (h.idle (hloads x)) rfl (by decide)
  exact ⟨hnone₁, hnone₂, (hloads.trans hidle₂).trans (idle_bump (by decide) (by decide))⟩

theorem get_missing (h : (σ.groups x).Missing o.clock key σ.tick) (fuel : ℕ) (dest : Sink) :
    get site o (fuel + 1) σ x key (some dest) =
      finish dest (loadMiss site o (fun σ y => get site o fuel σ y key (some .allocating))
        (missed o σ x key) x key) := by
  obtain ⟨hnone₁, hnone₂, _⟩ := missed_spec h
  rw [get]
  unfold missed load
  rcases hl₁ : lookupCache o (σ.bump x .gets) x key with ⟨σ₁, r₁⟩
  rw [hl₁] at hnone₁ hnone₂
  simp only at hnone₁ hnone₂ ⊢
  subst hnone₁
  rcases hl₂ : lookupCache o (σ₁.bump x .loads) x key with ⟨σ₂, r₂⟩
  rw [hl₂] at hnone₂
  simp only at hnone₂
  subst hnone₂
  simp only [hl₂]
  rcases loadMiss site o _ (σ₂.bump x .loadsDeduped) x key with _ | ⟨σ₃, _ | v, populated⟩ <;> rfl

/-- Each node's `PickPeer` names the next one, and `z` treats the key as its own; `l` are the
nodes after `x`. -/
inductive Chain (site : GoString → Site) (key z : GoString) : GoString → List GoString → Prop
  | owner (h : ((site z).inst.pickPeer key).2 = false) : Chain site key z z []
  | hop {x : GoString} {c : Peer.Client} {l : List GoString}
      (h : (site x).inst.pickPeer key = (some c, true)) (hc : Chain site key z c.hashKey l) :
      Chain site key z x (c.hashKey :: l)

theorem remoteErr_isNotFound (e : Err) : (remoteErr e).isNotFound = e.isNotFound := by
  unfold remoteErr
  split <;> simp_all [Err.isNotFound]

theorem remoteErr_isRemoteCall {e : Err} (h : e.isNotFound = false) :
    (remoteErr e).isRemoteCall = true := by
  simp [remoteErr, h, Err.isRemoteCall]

theorem loadMiss_owner {serve : Cluster → GoString → Served} {e : Err}
    (h : ((site x).inst.pickPeer key).2 = false) (he : o.getter σ.tick x key = .error e) :
    loadMiss site o serve σ x key = some (σ.next.bump x .localLoadErrs, .error e, true) := by
  have hload : loadLocally o σ x key = (σ.next.bump x .localLoadErrs, .error e) := by
    simp [loadLocally, getLocally, he]
  unfold loadMiss
  split
  · rename_i heq
    simp [heq] at h
  · rw [hload]

/-- A peer's error comes back as one that `load` returns without asking the Getter. -/
theorem loadMiss_hop {serve : Cluster → GoString → Served} {c : Peer.Client} {e : Err}
    (ho : o.Reliable) (h : (site x).inst.pickPeer key = (some c, true))
    (hs : serve σ.next c.hashKey = some (σ', .error e)) :
    loadMiss site o serve σ x key = some (σ', .error (remoteErr e), false) := by
  have hpeer : getFromPeer o serve σ x c key = some (σ', .error (remoteErr e)) := by
    simp [getFromPeer, ho σ.tick, hs]
  simp [loadMiss, h, hpeer, afterPeerError, remoteErr_isFinal]

/-- Along the chain the error keeps its class, no other Getter has a say, and nothing is stored.
A `Get` has read the clock four times when it turns to the next node or to the Getter. -/
theorem get_chain {e : Err} (ho : o.Reliable) (hc : Chain site key z x l)
    (hmiss : ∀ i y, (x :: l)[i]? = some y →
      (σ.groups y).Missing o.clock key (σ.tick + 5 * i)) :
    ∃ σ₁ e', σ.Idle σ₁ ∧ e'.isNotFound = e.isNotFound ∧
      (l ≠ [] → e.isNotFound = false → e'.isRemoteCall = true) ∧
      ∀ fuel dest getter, l.length < fuel →
        getter (σ.tick + 5 * l.length + 4) z key = .error e →
        get site { o with getter := getter } fuel σ x key (some dest) =
          some (σ₁.bump z .localLoadErrs, .error e') := by
  induction hc generalizing σ with
  | owner h =>
    have hz : (σ.groups z).Missing o.clock key σ.tick := hmiss 0 z rfl
    refine ⟨(missed o σ z key).next, e, (missed_spec hz).2.2, rfl, fun hne => (hne rfl).elim, ?_⟩
    intro fuel dest getter hfuel hfail
    obtain ⟨fuel, rfl⟩ := Nat.exists_eq_succ_of_ne_zero (Nat.ne_of_gt hfuel)
    refine (get_missing (o := { o with getter := getter }) hz fuel dest).trans ?_
    rw [loadMiss_owner h hfail]
    rfl
  | @hop x c l h hc ih =>
    have hx : (σ.groups x).Missing o.clock key σ.tick := hmiss 0 x rfl
    have hidle := (missed_spec hx).2.2
    have htick : (missed o σ x key).next.tick = σ.tick + 5 := rfl
    obtain ⟨σ₁, e', hidle₁, hfound, hremote, hget⟩ := ih (σ := (missed o σ x key).next) <| by
      intro i y hy
      have hnext := (hmiss (i + 1) y hy).idle (hidle y)
      rwa [htick, Nat.add_assoc, Nat.add_comm 5]
    refine ⟨σ₁, remoteErr e', hidle.trans hidle₁, ?_, ?_, ?_⟩
    · rw [remoteErr_isNotFound, hfound]
    · intro _ he
      exact remoteErr_isRemoteCall (hfound.trans he)
    · intro fuel dest getter hfuel hfail
      obtain ⟨fuel, rfl⟩ := Nat.exists_eq_succ_of_ne_zero (Nat.ne_zero_of_lt hfuel)
      have hlast : (missed o σ x key).next.tick + 5 * l.length + 4 =
          σ.tick + 5 * (c.hashKey :: l).length + 4 := by
        rw [htick, List.length_cons]
        omega
      have hserve := hget fuel .allocating getter (Nat.lt_of_succ_lt_succ hfuel) (hlast ▸ hfail)
      refine (get_missing (o := { o with getter := getter }) hx fuel dest).trans ?_
      rw [loadMiss_hop (o := { o with getter := getter }) ho h hserve]
      rfl

/-- A failing Getter at the end of a chain is reported at its start, its class told apart; only
that Getter has run, and once; and no cache of any node has gained an entry. -/
theorem getter_failure_reported {e : Err} (ho : o.Reliable) (hc : Chain site key z x l)
    (hmiss : ∀ i y, (x :: l)[i]? = some y → (σ.groups y).Missing o.clock key (σ.tick + 5 * i))
    (hfail : o.getter (σ.tick + 5 * l.length + 4) z key = .error e) {fuel : ℕ}
    (hfuel : l.length < fuel) (dest : Sink) :
    ∃ σ' e', get site o fuel σ x key (some dest) = some (σ', .error e') ∧
      (e.isNotFound = true → e'.isNotFound = true) ∧
      (e.isNotFound = false → l ≠ [] → e'.isRemoteCall = true ∧ e'.isNotFound = false) ∧
      (∀ y, (σ'.groups y).stats .localLoads = (σ.groups y).stats .localLoads ∧
        (σ'.groups y).stats .localLoadErrs =
          (σ.groups y).stats .localLoadErrs + if y = z then 1 else 0) ∧
      (∀ getter, getter (σ.tick + 5 * l.length + 4) z key = .error e →
        get site { o with getter := getter } fuel σ x key (some dest) = some (σ', .error e')) ∧
      ∀ y, (σ'.groups y).mainCache.raw.entries ⊆ (σ.groups y).mainCache.raw.entries ∧
        (σ'.groups y).hotCache.raw.entries ⊆ (σ.groups y).hotCache.raw.entries := by
  obtain ⟨σ₁, e', hidle, hfound, hremote, hget⟩ := get_chain (e := e) ho hc hmiss
  refine ⟨_, e', hget fuel dest o.getter hfuel hfail, fun h => hfound.trans h,
    fun h hl => ⟨hremote hl h, hfound.trans h⟩, fun y => ?_,
    fun getter hg => hget fuel dest getter hfuel hg, fun y => ?_⟩
  · have hy := hidle y
    by_cases hyz : y = z
    · subst hyz
      simp [bump, modify, Group.count, hy.localLoads, hy.localLoadErrs]
    · simp [bump, modify, hyz, hy.localLoads, hy.localLoadErrs]
  · have hy := hidle y
    by_cases hyz : y = z
    · subst hyz
      simpa [bump, modify, Group.count] using ⟨hy.main, hy.hot⟩
    · simpa [bump, modify, hyz] using ⟨hy.main, hy.hot⟩

theorem hosts_chain : Chain hostSite [7] hostB hostA [hostB] := by
  have hpick : ((hostSite hostA).inst.pickPeer [7]).1.map (·.hashKey) = some hostB ∧
      ((hostSite hostA).inst.pickPeer [7]).2 = true := by decide +kernel
  rcases hp : (hostSite hostA).inst.pickPeer [7] with ⟨c, remote⟩
  rw [hp] at hpick
  obtain ⟨hc, rfl⟩ := hpick
  obtain ⟨c, rfl, hkey⟩ := Option.map_eq_some_iff.mp hc
  rw [← hkey]
  exact .hop hp (hkey ▸ .owner (by decide +kernel))

/-- A wrapped `ErrNotFound` at the owner, asked for at the other host. -/
theorem getter_failure_reported_hosts :
    let e := Err.wrap "query" (.notFound "no such row")
    let o := { hostOracle with getter := fun _ _ _ => .error e }
    ∃ σ' e', get hostSite o 2 (.start 1000) hostA [7] (some .allocating) = some (σ', .error e') ∧
      e'.isNotFound = true := by
  intro e o
  obtain ⟨σ', e', hget, hclass, _⟩ := getter_failure_reported (o := o) (σ := .start 1000)
    (e := e) (fun _ => rfl) hosts_chain
    (fun i y _ ent hent => by simp [start, Group.new, Cache.new, newMutexCache,
      MutexCache.entries] at hent)
    rfl (show [hostB].length < 2 by decide) .allocating
  exact ⟨σ', e', hget, hclass rfl⟩

end Cluster

end Groupcache
