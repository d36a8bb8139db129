import Groupcache.Coherence

/-! A rule for `Get`: what each access to a cache, the Getter or a peer keeps, every `Get` keeps,
whatever fails and however often it is forwarded. -/
namespace Groupcache.Cluster

open Transport Peer

/-- The parts of a `Get` of the key keep `I` of the cluster, and each value they come by at a node
satisfies `V` there. The nodes in `M` forward to nodes in `M` only. -/
structure GetRule (site : GoString → Site) (o : Oracle) (key : GoString) (M : GoString → Prop)
    (I : Cluster → Prop) (V : Cluster → GoString → ByteView → Prop) : Prop where
  forwards : ∀ {x c}, M x → (site x).inst.pickPeer key = (some c, true) → M c.hashKey
  next : ∀ {σ}, I σ → I σ.next
  bump : ∀ {σ} x c, I σ → I (σ.bump x c)
  value_bump : ∀ {σ y v} x c, V σ y v → V (σ.bump x c) y v
  lookup : ∀ {σ x}, M x → I σ → I (lookupCache o σ x key).1 ∧
    ∀ v, (lookupCache o σ x key).2 = some v → V (lookupCache o σ x key).1 x v
  got : ∀ {σ x v}, M x → I σ → o.getter σ.tick x key = .ok v →
    I (loadLocally o σ x key).1 ∧ V (loadLocally o σ x key).1 x v
  fetched : ∀ {σ x c v}, M x → (site x).inst.pickPeer key = (some c, true) → I σ →
    V σ c.hashKey v →
    I (σ.modify x fun g => g.populateHot key (received (some v.bytes) v.expire)) ∧
      V (σ.modify x fun g => g.populateHot key (received (some v.bytes) v.expire)) x
        (received (some v.bytes) v.expire)

/-- What a part of a `Get` at `x` leaves behind. -/
def Answers (I : Cluster → Prop) (V : Cluster → GoString → ByteView → Prop) (x : GoString)
    (σ : Cluster) (r : Except Err ByteView) : Prop :=
  I σ ∧ ∀ v, r = .ok v → V σ x v

variable {site : GoString → Site} {o : Oracle} {σ σ' : Cluster} {x key : GoString}
  {M : GoString → Prop} {I : Cluster → Prop} {V : Cluster → GoString → ByteView → Prop}
  {serve : Cluster → GoString → Served}

theorem Answers.error (h : I σ) (err : Err) : Answers I V x σ (.error err) :=
  ⟨h, nofun⟩

theorem Answers.ok {v : ByteView} (h : I σ) (hv : V σ x v) : Answers I V x σ (.ok v) :=
  ⟨h, by rintro _ ⟨⟩; exact hv⟩

theorem Answers.deliver {v : ByteView} (h : I σ) (hv : V σ x v) (dest : Sink) :
    Answers I V x σ (deliver dest v) :=
  ⟨h, fun _ hw => deliver_ok hw ▸ hv⟩

/-- How the peers answer a forwarded `Get`. -/
def PeersAnswer (M : GoString → Prop) (I : Cluster → Prop)
    (V : Cluster → GoString → ByteView → Prop) (serve : Cluster → GoString → Served) : Prop :=
  ∀ σ y σ' r, I σ → M y → serve σ y = some (σ', r) → Answers I V y σ' r

namespace GetRule

variable (R : GetRule site o key M I V)

include R

theorem loadLocally (hx : M x) (h : I σ) :
    Answers I V x (loadLocally o σ x key).1 (loadLocally o σ x key).2 := by
  cases hgot : o.getter σ.tick x key with
  | error e =>
    simp only [Cluster.loadLocally, getLocally, hgot]
    exact .error (R.bump x _ (R.next h)) e
  | ok v =>
    obtain ⟨hI, hV⟩ := R.got hx h hgot
    have hv : (Cluster.loadLocally o σ x key).2 = .ok v := by
      simp only [Cluster.loadLocally, getLocally, hgot]
    rw [hv]
    exact .ok hI hV

theorem getFromPeer {c : Client} {r : Except Err ByteView} (hserve : PeersAnswer M I V serve)
    (hx : M x) (hpick : (site x).inst.pickPeer key = (some c, true)) (h : I σ)
    (hr : getFromPeer o serve σ x c key = some (σ', r)) : Answers I V x σ' r := by
  have hs : ∀ σ₁ r₁, serve σ.next c.hashKey = some (σ₁, r₁) → Answers I V c.hashKey σ₁ r₁ :=
    fun σ₁ r₁ => hserve _ _ _ _ (R.next h) (R.forwards hx hpick)
  unfold Cluster.getFromPeer at hr
  split at hr
  · split at hr
    · -- the peer has served the call, and its answer is lost
      obtain ⟨⟨σ₁, r₁⟩, hs₁, heq⟩ := Option.map_eq_some_iff.mp hr
      cases heq
      exact .error (hs σ₁ r₁ hs₁).1 _
    · cases hr
      exact .error (R.next h) _
  · split at hr
    · cases hr
    · rename_i hs₁
      cases hr
      exact .error (hs _ _ hs₁).1 _
    · rename_i σ₁ v hs₁
      cases hr
      obtain ⟨hI, hV⟩ := hs _ _ hs₁
      obtain ⟨hfilled, hvalue⟩ := R.fetched hx hpick hI (hV v rfl)
      exact .ok hfilled hvalue

theorem loadMiss {r : Except Err ByteView × Bool} (hserve : PeersAnswer M I V serve) (hx : M x)
    (h : I σ) (hr : loadMiss site o serve σ x key = some (σ', r)) : Answers I V x σ' r.1 := by
  unfold Cluster.loadMiss at hr
  split at hr
  · rename_i c hpick
    split at hr
    · cases hr
    · rename_i v hpeer
      cases hr
      obtain ⟨hI, hV⟩ := R.getFromPeer hserve hx hpick h hpeer
      exact .ok (R.bump x _ hI) (R.value_bump x _ (hV v rfl))
    · rename_i e hpeer
      obtain ⟨hI, _⟩ := R.getFromPeer hserve hx hpick h hpeer
      unfold afterPeerError at hr
      split at hr
      · cases hr
        exact .error hI _
      · split at hr <;> cases hr
        · exact .error (R.next (R.bump x _ hI)) _
        · exact R.loadLocally hx (R.next (R.bump x _ hI))
  · cases hr
    exact R.loadLocally hx h

theorem load {r : Except Err ByteView × Bool} (hserve : PeersAnswer M I V serve) (hx : M x)
    (h : I σ) (hr : load site o serve σ x key = some (σ', r)) : Answers I V x σ' r.1 := by
  obtain ⟨hI, hV⟩ := R.lookup hx (R.bump x .loads h)
  unfold Cluster.load at hr
  split at hr
  · rename_i v hl
    rw [hl] at hI hV
    cases hr
    exact .ok (R.bump x _ hI) (R.value_bump x _ (hV v rfl))
  · rename_i hl
    rw [hl] at hI
    exact R.loadMiss hserve hx (R.bump x _ hI) hr

/-- A `Get` keeps what its parts keep, and its value is one they came by. -/
theorem get (fuel : ℕ) {dest : Option Sink} {r : Except Err ByteView} (hx : M x) (h : I σ)
    (hr : get site o fuel σ x key dest = some (σ', r)) : Answers I V x σ' r := by
  induction fuel generalizing σ x dest σ' r with
  | zero => cases hr
  | succ fuel ih =>
    have hserve : PeersAnswer M I V
        fun σ y => Cluster.get site o fuel σ y key (some .allocating) :=
      fun σ y σ' r hσ hy hget => ih hy hσ hget
    obtain ⟨hI, hV⟩ := R.lookup hx (R.bump x .gets h)
    unfold Cluster.get at hr
    split at hr
    · cases hr
      exact .error (R.bump x _ h) _
    · split at hr
      · rename_i v hl
        rw [hl] at hI hV
        cases hr
        exact .deliver (R.bump x _ hI) (R.value_bump x _ (hV v rfl)) _
      · rename_i hl
        rw [hl] at hI
        split at hr
        · cases hr
        · rename_i hload
          cases hr
          exact .error (R.load hserve hx hI hload).1 _
        · rename_i v populated hload
          cases hr
          obtain ⟨hloaded, hvalue⟩ := R.load hserve hx hI hload
          split
          · exact .ok hloaded (hvalue v rfl)
          · exact .deliver hloaded (hvalue v rfl) _

end GetRule

end Groupcache.Cluster
