import Mathlib.Data.List.ReduceOption
import Groupcache.Lib.FanIn
import Groupcache.RemoveFailures
import Groupcache.RemoveKeys

/-! The goroutines of `Remove` and `RemoveKeys`: however they interleave, they come to their end
without a panic, and what they leave behind is what the calls leave one after the other. -/
namespace Groupcache

open Transport Peer

/-- Some order that puts one list as wanted. -/
def Shuffle.putting {α : Type} [DecidableEq α] {l l' : List α} (h : l'.Perm l) : Shuffle α where
  order m := if m = l then l' else m
  perm m := by
    split
    · next hm => rw [hm]; exact h
    · exact .refl m

namespace Cluster

variable {site : GoString → Site} {o o' : Oracle} {σ : Cluster} {x key : GoString}
  {keys : List GoString}

abbrev Call := Client × (Group ByteView → Group ByteView)

variable {calls : List Call} {ls : List (Lib.FanIn.Action Call)}
  {st : Option (Lib.FanIn.State Cluster Call (Option Err))}

/-- What a goroutine sends on `errCh`. -/
def report (o : Oracle) (σ : Cluster) (q : Call) : Cluster × Option Err := callPeer o σ q.1 q.2

theorem callAll_eq_performAll : callAll o σ calls =
    ((Lib.FanIn.performAll (report o) σ calls).1,
      (Lib.FanIn.performAll (report o) σ calls).2.reduceOption) := by
  induction calls generalizing σ with
  | nil => rfl
  | cons q calls ih =>
    rw [callAll, ih, Lib.FanIn.performAll, report]
    cases (callPeer o σ q.1 q.2).2 <;> simp

/-- The peer calls take nothing but their failures from the oracle. -/
theorem callAll_congr (h : o'.fault = o.fault) : callAll o' σ calls = callAll o σ calls := by
  induction calls generalizing σ with
  | nil => rfl
  | cons q calls ih => rw [callAll, callAll, ih, callPeer, callPeer, h]

theorem exists_order {α : Type} {f : α → Call} {l : List α} {order : List Call}
    (h : order.Perm (l.map f)) : ∃ l' : List α, order = l'.map f ∧ l'.Perm l :=
  (congrFun (congrFun (List.eq_map_comp_perm f) order) l).mpr h

/-- Where a run of the goroutines has come to: they can go on, up to a bound, until they have all
ended, and then cluster and errors are as after the calls in some order. -/
theorem gathers {α : Type} {f : α → Call} {l : List α}
    (h : (Lib.FanIn.lts (report o) σ (l.map f)).Run ls st) :
    ∃ s, st = some s ∧ ls.length ≤ 4 * l.length + 3 ∧
      ((∃ a st', Lib.FanIn.Step (report o) st a st') ∨ Lib.FanIn.Ended s ∧
        ∃ order : List α, order.Perm l ∧ s.world = (callAll o σ (order.map f)).1 ∧
          s.received.reduceOption.Perm (callAll o σ (order.map f)).2) := by
  obtain ⟨s, rfl, hi⟩ := Lib.FanIn.inv_run h
  have hlen := Lib.FanIn.length_run h
  rw [List.length_map] at hlen
  refine ⟨s, rfl, by omega, ?_⟩
  by_cases hreturned : s.caller = .returned
  · obtain ⟨hperm, hworld, hreceived⟩ := hi.complete hreturned
    obtain ⟨order, horder, hperm⟩ := exists_order hperm
    rw [horder] at hworld hreceived
    refine Or.inr ⟨hi.ended hreturned, order, hperm, ?_, ?_⟩
    · rw [callAll_eq_performAll, hworld]
    · rw [callAll_eq_performAll]
      exact hreceived.filterMap id
  · exact Or.inl (hi.progress hreturned)

def removeCall (key : GoString) (p : Client) : Call := (p, fun g => g.localRemove key)

theorem remove_eq_callAll
    (howner : (callOwner σ ((site x).inst.pickPeer key) fun c => removeFromPeer o σ c key).2 =
      none) :
    remove site o σ x key =
      let r := callAll o (cleared o σ x key ((site x).inst.pickPeer key))
        ((notOwner o σ x key (site x).inst).map (removeCall key))
      (r.1, ofErrors r.2) := by
  have hreports : ∀ {σ ps}, callAll o σ (ps.map (removeCall key)) =
    ((reports o key σ ps).1, (reports o key σ ps).2.filterMap (·.2)) := callAll_eq_reports
  rw [remove_eq, howner, hreports]

/-- An order of the peers other than the owner comes from an order of all peers. -/
theorem exists_shuffle {l l' : List Client} {isOther : Client → Bool}
    (h : l'.Perm (l.filter isOther)) : ∃ sh : Shuffle Client, (sh.order l).filter isOther = l' := by
  have hall : (l' ++ l.filter fun p => !isOther p).Perm l :=
    (h.append_right _).trans (List.filter_append_perm isOther l)
  have hl' : l'.filter isOther = l' := by
    rw [List.filter_eq_self]
    exact fun p hp => (List.mem_filter.mp (h.subset hp)).2
  refine ⟨.putting hall, ?_⟩
  simp [Shuffle.putting, hl']

/-- The goroutines of `Remove`, whichever order it starts them in, never panic and never get stuck,
and once they have ended, `Remove` run one call after the other does the same for some order of its
peers. -/
theorem remove_gathers
    (howner : (callOwner σ ((site x).inst.pickPeer key) fun c => removeFromPeer o σ c key).2 = none)
    {ps : List Client}
    (hps : ps.Perm ((site x).inst.getAllPeers.filter
      fun p => some p ≠ ((site x).inst.pickPeer key).1))
    (h : (Lib.FanIn.lts (report o) (cleared o σ x key ((site x).inst.pickPeer key))
      (ps.map (removeCall key))).Run ls st) :
    ∃ s, st = some s ∧ ls.length ≤ 4 * ps.length + 3 ∧
      ((∃ a st', Lib.FanIn.Step (report o) st a st') ∨ Lib.FanIn.Ended s ∧
        ∃ sh errs, remove site { o with peers := fun _ => sh } σ x key = (s.world, ofErrors errs) ∧
          s.received.reduceOption.Perm errs) := by
  obtain ⟨s, hst, hlen, hgo | ⟨hended, order, hperm, hworld, herrs⟩⟩ := gathers h
  · exact ⟨s, hst, hlen, Or.inl hgo⟩
  · obtain ⟨sh, hsh⟩ := exists_shuffle (hperm.trans hps)
    have horder : notOwner { o with peers := fun _ => sh } σ x key (site x).inst = order := hsh
    have hcalls : ∀ {σ calls}, callAll { o with peers := fun _ => sh } σ calls =
      callAll o σ calls := callAll_congr rfl
    refine ⟨s, hst, hlen, Or.inr ⟨hended, sh, _, ?_, herrs⟩⟩
    rw [remove_eq_callAll (o := { o with peers := fun _ => sh }) howner, horder, hcalls, hworld]
    rfl

/-- A run of two goroutines to their end; the one that is started last calls first. -/
theorem pair_run (o : Oracle) (σ : Cluster) (q r : Call) : ∃ s, Lib.FanIn.Ended s ∧
    (Lib.FanIn.lts (report o) σ [q, r]).Run
      [.start, .start, .startCloser, .call r, .call q, .send, .done, .send, .done, .close, .ret]
      (some s) := by
  have h₀ := Lib.LTS.Run.init (A := Lib.FanIn.lts (report o) σ [q, r]) rfl
  have h₃ := ((h₀.step (.start rfl)).step (.start rfl)).step (.startCloser rfl)
  have h₄ := h₃.step (.call (show _ = [] ++ r :: [q] from rfl))
  have h₅ := h₄.step (.call (show _ = [] ++ q :: [] from rfl))
  have h₆ := h₅.step (.send (show _ = [] ++ _ :: [(report o σ r).2] from rfl) nofun rfl)
  have h₇ := h₆.step (.done rfl (Nat.succ_ne_zero 1))
  have h₈ := h₇.step (.send (show _ = [] ++ (report o σ r).2 :: [] from rfl) nofun rfl)
  have h₉ := h₈.step (.done rfl (Nat.succ_ne_zero 0))
  exact ⟨_, ⟨rfl, rfl, rfl, rfl, rfl, rfl⟩, (h₉.step (.close rfl rfl)).step (.ret rfl rfl)⟩

def threeSite (x : GoString) : Site where
  inst := ((Instance.new hostEnv ⟨none, 1⟩).setPeers hostEnv
    (memberPeers x [hostC, hostA, hostB])).1
  logger := true

/-- The key's owner asks both other peers, which are down. -/
theorem remove_gathers_hosts : ∃ p q ls s,
    (Lib.FanIn.lts (report downOracle) (cleared downOracle (.start 1000) hostB [7]
      ((threeSite hostB).inst.pickPeer [7])) [removeCall [7] p, removeCall [7] q]).Run ls
        (some s) ∧
    Lib.FanIn.Ended s ∧ ls.length ≤ 11 ∧
    ((∃ a st', Lib.FanIn.Step (report downOracle) (some s) a st') ∨
      ∃ sh errs, remove threeSite { downOracle with peers := fun _ => sh } (.start 1000) hostB [7] =
          (s.world, ofErrors errs) ∧
        s.received.reduceOption.Perm errs) := by
  have howner : (callOwner (.start 1000) ((threeSite hostB).inst.pickPeer [7])
      fun c => removeFromPeer downOracle (.start 1000) c [7]).2 = none := by decide +kernel
  have hlen : ((threeSite hostB).inst.getAllPeers.filter
      fun p => some p ≠ ((threeSite hostB).inst.pickPeer [7]).1).length = 2 := by decide +kernel
  obtain ⟨p, q, hpq⟩ := List.length_eq_two.mp hlen
  obtain ⟨s, hended, hrun⟩ := pair_run downOracle (cleared downOracle (.start 1000) hostB [7]
    ((threeSite hostB).inst.pickPeer [7])) (removeCall [7] p) (removeCall [7] q)
  obtain ⟨t, ht, hbound, hend⟩ := remove_gathers howner (List.Perm.of_eq hpq.symm) hrun
  cases ht
  exact ⟨p, q, _, s, hrun, hended, hbound, hend.imp_right And.right⟩

/-- The keys of `RemoveKeys` have been counted and have left the local caches. -/
def keysCleared (σ : Cluster) (x : GoString) (keys : List GoString) : Cluster :=
  (σ.modify x fun g => (g.count .removeKeysRequests 1).count .removedKeys keys.length).modify x
    (removeEach keys)

/-- The requests of `RemoveKeys`: to each owner, and to each peer that owns no key. -/
def keyRequests (inst : Instance) (keys : List GoString) : List (Client × List GoString) :=
  (keysByOwner inst keys).entries.map (fun e => (e.1, e.2)) ++
    (inst.getAllPeers.filter fun p =>
      !p.info.isSelf && ((keysByOwner inst keys).lookup p).isNone).map fun p => (p, keys)

def requestCall (q : Client × List GoString) : Call := (q.1, removeEach q.2)

theorem removeKeys_eq (hkeys : keys ≠ []) : removeKeys site o σ x keys =
    let r := callAll o (keysCleared σ x keys).next
      (((o.requests (keysCleared σ x keys).tick).order (keyRequests (site x).inst keys)).map
        requestCall)
    (r.1, ofErrors r.2) := by
  rw [removeKeys, if_neg hkeys]
  rfl

/-- The goroutines of `RemoveKeys`, whichever order it starts them in, never panic and never get
stuck, and once they have ended, `RemoveKeys` run one call after the other does the same for some
order of its requests. -/
theorem removeKeys_gathers (hkeys : keys ≠ []) {requests : List (Client × List GoString)}
    (hrequests : requests.Perm (keyRequests (site x).inst keys))
    (h : (Lib.FanIn.lts (report o) (keysCleared σ x keys).next
      (requests.map requestCall)).Run ls st) :
    ∃ s, st = some s ∧ ls.length ≤ 4 * requests.length + 3 ∧
      ((∃ a st', Lib.FanIn.Step (report o) st a st') ∨ Lib.FanIn.Ended s ∧
        ∃ sh errs, removeKeys site { o with requests := fun _ => sh } σ x keys =
            (s.world, ofErrors errs) ∧
          s.received.reduceOption.Perm errs) := by
  obtain ⟨s, hst, hlen, hgo | ⟨hended, order, hperm, hworld, herrs⟩⟩ := gathers h
  · exact ⟨s, hst, hlen, Or.inl hgo⟩
  · let sh := Shuffle.putting (hperm.trans hrequests)
    have horder : sh.order (keyRequests (site x).inst keys) = order := if_pos rfl
    have hcalls : ∀ {σ calls}, callAll { o with requests := fun _ => sh } σ calls =
      callAll o σ calls := callAll_congr rfl
    refine ⟨s, hst, hlen, Or.inr ⟨hended, sh, _, ?_, herrs⟩⟩
    rw [removeKeys_eq hkeys, horder, hcalls, hworld]

/-- Two keys with an owner each, at a member that owns neither. -/
theorem removeKeys_gathers_hosts : ∃ q r ls s,
    (Lib.FanIn.lts (report downOracle) (keysCleared (.start 1000) hostC [[7], ownKey]).next
      [requestCall q, requestCall r]).Run ls (some s) ∧
    Lib.FanIn.Ended s ∧ ls.length ≤ 11 ∧
    ((∃ a st', Lib.FanIn.Step (report downOracle) (some s) a st') ∨
      ∃ sh errs, removeKeys threeSite { downOracle with requests := fun _ => sh } (.start 1000)
          hostC [[7], ownKey] = (s.world, ofErrors errs) ∧
        s.received.reduceOption.Perm errs) := by
  have hlen : (keyRequests (threeSite hostC).inst [[7], ownKey]).length = 2 := by decide +kernel
  obtain ⟨q, r, hqr⟩ := List.length_eq_two.mp hlen
  obtain ⟨s, hended, hrun⟩ := pair_run downOracle
    (keysCleared (.start 1000) hostC [[7], ownKey]).next (requestCall q) (requestCall r)
  obtain ⟨t, ht, hbound, hend⟩ :=
    removeKeys_gathers (List.cons_ne_nil _ _) (List.Perm.of_eq hqr.symm) hrun
  cases ht
  exact ⟨q, r, _, s, hrun, hended, hbound, hend.imp_right And.right⟩

end Cluster

end Groupcache
