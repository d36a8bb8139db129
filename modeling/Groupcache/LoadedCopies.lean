import Groupcache.GetRule

/-! What a `Get` leaves in the caches of a cluster in which peer calls fail: every copy was there
before, or comes from a Getter run, or from the node that was asked. -/
namespace Groupcache

open Transport Peer

/-- Which bytes a node may hold for a key, given the Getter runs of the call in progress. -/
abbrev Allowed := List Event → GoString → GoString → GoString → Prop

/-- A new Getter run takes nothing away, its own value is allowed, and a node may hold what it gets
from the peer that it forwards to. -/
structure Allowed.Serves (Q : Allowed) (as : List GoString) (inst : GoString → Instance)
    (key : GoString) : Prop where
  append : ∀ {news y k b} (b' : GoString), Q news y k b → Q (news ++ [.getter key b']) y k b
  got : ∀ news y b, Q (news ++ [.getter key b]) y key b
  forward : ∀ {news x y b}, x ∈ as → Forwards inst key x y → Q news y key b → Q news x key b

namespace Cluster

variable {as : List GoString} {site : GoString → Site} {o : Oracle} {σ σ' : Cluster}
  {x y key : GoString} {f : Group ByteView → Group ByteView} {Q : Allowed} {base news : List Event}

/-- In the middle of a `Get`: `news` has been loaded, and every copy at a member is allowed. -/
structure Within (as : List GoString) (Q : Allowed) (base news : List Event) (σ : Cluster) :
    Prop where
  log : σ.log = base ++ news
  copies : ∀ y ∈ as, ∀ k v, (σ.groups y).Holds k v → Q news y k v.bytes

theorem Within.modify (h : Within as Q base news σ)
    (hf : ∀ k v, (f (σ.groups x)).Holds k v → (σ.groups x).Holds k v ∨ Q news x k v.bytes) :
    Within as Q base news (σ.modify x f) := by
  refine ⟨h.log, fun y hy k v hv => ?_⟩
  rcases σ.modify_groups (x := x) (f := f) y with ⟨_, heq⟩ | ⟨rfl, heq⟩
  · exact h.copies y hy k v (heq ▸ hv)
  · exact (hf k v (heq ▸ hv)).elim (h.copies y hy k v) id

theorem Within.next (h : Within as Q base news σ) : Within as Q base news σ.next :=
  ⟨h.log, h.copies⟩

theorem Within.bump (h : Within as Q base news σ) (x : GoString) (c : Counter) :
    Within as Q base news (σ.bump x c) :=
  h.modify fun _ _ hv => Or.inl hv

theorem Within.news_eq {news' : List Event} (h : Within as Q base news σ)
    (h' : Within as Q base news' σ) : news' = news :=
  List.append_cancel_left (h'.log.symm.trans h.log)

theorem Within.got (h : Within as Q base news σ)
    (hQ : Q.Serves as (fun x => (site x).inst) key) {v : ByteView}
    (hv : o.getter σ.tick x key = .ok v) :
    Within as Q base (news ++ [.getter key v.bytes]) (loadLocally o σ x key).1 := by
  have hlog : Within as Q base (news ++ [.getter key v.bytes])
      { σ.next with log := σ.log ++ [.getter key v.bytes] } :=
    ⟨by simp [h.log], fun y hy k w hw => hQ.append _ (h.copies y hy k w hw)⟩
  simp only [loadLocally, getLocally, hv]
  refine (hlog.bump x .localLoads).modify fun k w hw => ?_
  rcases Group.holds_populateMain hw with ⟨rfl, rfl⟩ | hw
  · exact Or.inr (hQ.got news x _)
  · exact Or.inl hw

/-- The parts of a `Get` keep every copy at a member allowed. -/
theorem Within.rule (as : List GoString) (base : List Event)
    (hknows : ∀ x ∈ as, Knows as x (site x).inst)
    (hQ : Q.Serves as (fun x => (site x).inst) key) :
    GetRule site o key (· ∈ as) (fun σ => ∃ news, Within as Q base news σ)
      fun σ y v => ∃ news, Within as Q base news σ ∧ Q news y key v.bytes where
  forwards hx hpick := ((hknows _ hx).of_pick hpick).2.1
  next := fun ⟨news, h⟩ => ⟨news, h.next⟩
  bump x c := fun ⟨news, h⟩ => ⟨news, h.bump x c⟩
  value_bump x c := fun ⟨news, h, hv⟩ => ⟨news, h.bump x c, hv⟩
  lookup {σ x} hx := by
    rintro ⟨news, h⟩
    have hlook : Within as Q base news (lookupCache o σ x key).1 :=
      (h.modify fun _ _ hv => Or.inl (Group.holds_lookupCache hv)).next.next
    exact ⟨⟨news, hlook⟩,
      fun v hv => ⟨news, hlook, h.copies x hx key v (Group.lookupCache_holds hv)⟩⟩
  got {σ x v} hx := by
    rintro ⟨news, h⟩ hv
    exact ⟨⟨_, h.got hQ hv⟩, _, h.got hQ hv, hQ.got news x v.bytes⟩
  fetched {σ x c v} hx hpick := by
    rintro - ⟨news, h, hv⟩
    have hpassed : Q news x key (received (some v.bytes) v.expire).bytes := by
      simpa [received] using hQ.forward hx ⟨c, hpick, rfl⟩ hv
    have hfilled : Within as Q base news
        (σ.modify x fun g => g.populateHot key (received (some v.bytes) v.expire)) :=
      h.modify fun k w hw => by
        rcases Group.holds_populateHot hw with ⟨rfl, rfl⟩ | hw
        · exact Or.inr hpassed
        · exact Or.inl hw
    exact ⟨⟨news, hfilled⟩, news, hfilled, hpassed⟩

/-- `Get` at a member keeps every copy allowed and returns an allowed value, whatever fails. -/
theorem Within.get (hQ : Q.Serves as (fun x => (site x).inst) key)
    (hknows : ∀ x ∈ as, Knows as x (site x).inst) (fuel : ℕ) {dest : Option Sink}
    {r : Except Err ByteView} (h : Within as Q base news σ) (hx : x ∈ as)
    (hr : Cluster.get site o fuel σ x key dest = some (σ', r)) :
    ∃ news, Within as Q base news σ' ∧ ∀ v, r = .ok v → Q news x key v.bytes := by
  obtain ⟨⟨news, hend⟩, hv⟩ := (Within.rule as base hknows hQ).get fuel hx ⟨_, h⟩ hr
  refine ⟨news, hend, fun v hr => ?_⟩
  obtain ⟨news', hend', hval⟩ := hv v hr
  rwa [hend.news_eq hend'] at hval

end Cluster

end Groupcache
