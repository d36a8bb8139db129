import Groupcache.RemoveKeys
import Groupcache.Staleness

/-! `RemoveKeys` when calls of peers fail: whom it calls with which keys, what it returns, and which
keys each node still holds, for every pattern of failures and every order of the requests. -/
namespace Groupcache

open Transport Peer

namespace Cluster

variable {as : List GoString} {site : GoString → Site} {o : Oracle} {σ : Cluster} {x : GoString}
  {keys : List GoString} {inst : Instance} {requests : List (Client × List GoString)}

/-- What the calls of `RemoveKeys` return, when they are made in this order. -/
def replies (o : Oracle) : Cluster → List (Client × List GoString) → List (Option Err)
  | _, [] => []
  | σ, q :: requests =>
    let r := callPeer o σ q.1 (removeEach q.2)
    r.2 :: replies o r.1 requests

theorem callAll_eq_replies : (callAll o σ (requests.map requestCall)).2 =
    (replies o σ requests).reduceOption := by
  induction requests generalizing σ with
  | nil => rfl
  | cons q requests ih =>
    rw [List.map_cons, requestCall, callAll, replies]
    simp only [ih]
    cases (callPeer o σ q.1 (removeEach q.2)).2 <;> simp

/-- A call removes its keys if it gets there, whatever it returns. -/
theorem erasedAll_sent (as : List GoString) (o : Oracle) (σ : Cluster) (c : Client)
    (keys : List GoString) : ErasedAll as σ (callPeer o σ c (removeEach keys)).1
      fun y a => reaches o σ c = true ∧ c.hashKey = y ∧ a ∈ keys := by
  have hsent : ErasedAll as σ (σ.next.modify c.hashKey (removeEach keys))
      fun y a => c.hashKey = y ∧ a ∈ keys :=
    have h : ErasedAll as σ.next _ _ := erasedAll_modify c.hashKey keys
    h.congr (by simp [eq_comm])
  unfold callPeer reaches
  cases c.info.isSelf with
  | true => exact erasedAll_refl.congr (by simp)
  | false =>
    cases o.fault σ.tick with
    | none => simpa using hsent
    | some fault =>
      have hlost : ErasedAll as σ σ.next fun _ _ => False := erasedAll_refl
      cases hreached : fault.reached with
      | true => simpa [hreached] using hsent
      | false => simpa [hreached] using hlost

theorem erasedAll_carriedOut (as : List GoString) (o : Oracle) (σ : Cluster)
    (requests : List (Client × List GoString)) :
    ErasedAll as σ (callAll o σ (requests.map requestCall)).1
      fun y a => ∃ q ∈ carriedOut o requestCall σ requests, q.1.hashKey = y ∧ a ∈ q.2 := by
  induction requests generalizing σ with
  | nil => exact erasedAll_refl.congr (by simp [carriedOut])
  | cons q requests ih =>
    refine ((erasedAll_sent as o σ q.1 q.2).trans (ih _)).congr fun y _ a => ?_
    cases hreaches : reaches o σ q.1 <;> simp [carriedOut, requestCall, hreaches]

/-- A call of another node that returns nil has got there. -/
theorem carriedOut_of_replies (hremote : ∀ q ∈ requests, q.1.info.isSelf = false)
    (h : ∀ e ∈ replies o σ requests, e = none) :
    carriedOut o requestCall σ requests = requests := by
  induction requests generalizing σ with
  | nil => rfl
  | cons q requests ih =>
    rw [List.forall_mem_cons] at hremote
    simp only [replies, List.forall_mem_cons] at h
    have hreaches : reaches o σ q.1 = true := by
      have hnone := h.1
      unfold callPeer at hnone
      cases hfault : o.fault σ.tick with
      | none => simp [reaches, hremote.1, hfault]
      | some fault => simp [hremote.1, hfault] at hnone
    simp only [carriedOut, requestCall, hreaches, if_true]
    exact congrArg (q :: ·) (ih hremote.2 h.2)

/-- The keys that a peer is sent: those that it owns, or all if it owns none. -/
def keysFor (inst : Instance) (keys : List GoString) (c : Client) : List GoString :=
  if ownedKeys inst c keys = [] then keys else ownedKeys inst c keys

theorem mem_keysFor {key : GoString} {c : Client} (hkey : key ∈ keys)
    (hpick : inst.pickPeer key = (some c, true)) : key ∈ keysFor inst keys c := by
  have howned : key ∈ ownedKeys inst c keys := List.mem_filter.mpr ⟨hkey, by simp [hpick]⟩
  rwa [keysFor, if_neg (List.ne_nil_of_mem howned)]

theorem ofErrors_reduceOption {rs : List (Option Err)} :
    (ofErrors rs.reduceOption = .ok ↔ ∀ e ∈ rs, e = none) ∧
      (ofErrors rs.reduceOption ≠ .ok →
        ofErrors rs.reduceOption = .err (.multi rs.reduceOption)) := by
  have hnil : rs.reduceOption = [] ↔ ∀ e ∈ rs, e = none := List.filterMap_eq_nil_iff
  rw [← hnil]
  cases rs.reduceOption <;> simp [ofErrors, nilOrError]

theorem IsRequest.keys_eq {q : Client × List GoString} (h : IsRequest inst keys q) :
    q.2 = keysFor inst keys q.1 := by
  unfold keysFor
  rcases h with hsome | ⟨_, _, hnone, hall⟩
  · rw [keysByOwner_lookup] at hsome
    split at hsome
    · cases hsome
    · rename_i hne
      rw [if_neg hne, Option.some.inj hsome]
  · rw [keysByOwner_lookup] at hnone
    split at hnone
    · rename_i hnil
      rw [if_pos hnil, hall]
    · cases hnone

/-- Every peer but the caller itself is called once. -/
theorem keyRequests_clients (hnd : (inst.getAllPeers.map (·.hashKey)).Nodup)
    (hclients : KnowsClients inst) (keys : List GoString) : ((keyRequests inst keys).map (·.1)).Perm
      (inst.getAllPeers.filter fun p => !p.info.isSelf) := by
  have howner : ∀ c, ((keysByOwner inst keys).lookup c).isSome = true →
      c ∈ inst.getAllPeers ∧ c.info.isSelf = false := by
    intro c hsome
    rw [keysByOwner_lookup] at hsome
    split at hsome
    · cases hsome
    · rename_i hne
      obtain ⟨key, hkey⟩ := List.exists_mem_of_ne_nil _ hne
      have hpick : inst.pickPeer key = (some c, true) := by
        simpa using (List.mem_filter.mp hkey).2
      exact ⟨hclients.mem key c true hpick, Instance.remote_of_pick hpick⟩
  have howners : (keysByOwner inst keys).keys.Perm ((inst.getAllPeers.filter fun p =>
      !p.info.isSelf).filter fun p => ((keysByOwner inst keys).lookup p).isSome) := by
    refine (List.perm_ext_iff_of_nodup (AList.keys_nodup _)
      ((hnd.of_map.filter _).filter _)).mpr fun c => ?_
    rw [← AList.mem_keys, ← AList.lookup_isSome, List.mem_filter, List.mem_filter]
    exact ⟨fun hsome => ⟨by simpa using howner c hsome, hsome⟩, And.right⟩
  have heq : (keyRequests inst keys).map (·.1) = (keysByOwner inst keys).keys ++
      (inst.getAllPeers.filter fun p => !p.info.isSelf).filter
        fun p => !((keysByOwner inst keys).lookup p).isSome := by
    simp [keyRequests, AList.keys, List.keys, List.filter_filter, Function.comp_def, Bool.and_comm]
  rw [heq]
  exact (howners.append_right _).trans (List.filter_append_perm _ _)

/-- The keys that are removed: the caller's own, and those of the calls that got there. -/
theorem erased_removeKeys (o : Oracle) (σ : Cluster) (x : GoString) (keys : List GoString)
    (requests : List (Client × List GoString)) {y : GoString}
    (hmax : 0 < (σ.groups y).maxCacheBytes) : (σ.groups y).Erased
      ((callAll o (keysCleared σ x keys).next (requests.map requestCall)).1.groups y) fun a =>
        y = x ∧ a ∈ keys ∨ ∃ q ∈ carriedOut o requestCall (keysCleared σ x keys).next requests,
          q.1.hashKey = y ∧ a ∈ q.2 := by
  have hcount : ErasedAll [y] σ _ _ := erasedAll_count σ x
    (fun g => (g.count .removeKeysRequests 1).count .removedKeys keys.length) fun g => ⟨_, rfl⟩
  have hlocal := hcount.trans (erasedAll_modify x keys)
  have hall : ErasedAll [y] (keysCleared σ x keys) _ _ :=
    erasedAll_carriedOut [y] o (keysCleared σ x keys).next requests
  exact ((hlocal.trans hall) y (List.mem_singleton_self y) hmax).congr fun a => by simp

/-- What `RemoveKeys` is to do: call every other peer once, with the keys for it; return nil if no
call fails and otherwise all the errors; and remove what the caller has and what gets there. -/
structure RemoveKeysSpec (o : Oracle) (σ : Cluster) (x : GoString) (keys : List GoString)
    (inst : Instance) (requests : List (Client × List GoString)) (r : Cluster × Result) :
    Prop where
  clients : (requests.map (·.1)).Perm (inst.getAllPeers.filter fun p => !p.info.isSelf)
  keys_eq : ∀ q ∈ requests, q.2 = keysFor inst keys q.1
  ok_iff : r.2 = .ok ↔ ∀ e ∈ replies o (keysCleared σ x keys).next requests, e = none
  errors : r.2 ≠ .ok →
    r.2 = .err (.multi (replies o (keysCleared σ x keys).next requests).reduceOption)
  erased : ∀ y, 0 < (σ.groups y).maxCacheBytes → (σ.groups y).Erased (r.1.groups y) fun a =>
    y = x ∧ a ∈ keys ∨ ∃ q ∈ carriedOut o requestCall (keysCleared σ x keys).next requests,
      q.1.hashKey = y ∧ a ∈ q.2
  gone : r.2 = .ok → ∀ key ∈ keys, ∀ y, 0 < (σ.groups y).maxCacheBytes →
    (y = x ∨ ∃ c, inst.pickPeer key = (some c, true) ∧ c.hashKey = y) → r.1.Gone key y

/-- `RemoveKeys` does what it is to do, whatever fails and in whichever order it makes its calls. -/
theorem removeKeys_spec {hashFn : HashFn} {replicas : ℤ} {order : List GoString}
    (hnd : order.Nodup)
    (hinst : Installed hashFn replicas (memberPeers x order) (site x).inst) (hkeys : keys ≠ [])
    (o : Oracle) (σ : Cluster) : ∃ requests,
      RemoveKeysSpec o σ x keys (site x).inst requests (removeKeys site o σ x keys) := by
  have hperm := (o.requests (keysCleared σ x keys).tick).perm (keyRequests (site x).inst keys)
  refine ⟨(o.requests (keysCleared σ x keys).tick).order (keyRequests (site x).inst keys), ?_⟩
  rw [removeKeys_eq hkeys]
  generalize (o.requests (keysCleared σ x keys).tick).order (keyRequests (site x).inst keys) =
    requests at hperm
  simp only [callAll_eq_replies]
  have hclients := hinst.knowsClients hnd
  have hcalled := (hperm.map (·.1)).trans (keyRequests_clients hinst.listed.nodup hclients keys)
  have hrequest : ∀ q ∈ requests, q.2 = keysFor (site x).inst keys q.1 := fun q hq =>
    ((mem_requests (site x).inst keys q).mp (hperm.mem_iff.mp hq)).keys_eq
  refine ⟨hcalled, hrequest, ofErrors_reduceOption.1, ofErrors_reduceOption.2,
    fun y => erased_removeKeys o σ x keys requests, fun hok key hkey y hmax hy => ?_⟩
  have hself : ∀ q ∈ requests, q.1.info.isSelf = false := by
    intro q hq
    have hmem := hcalled.mem_iff.mp (List.mem_map_of_mem (f := (·.1)) hq)
    simpa using (List.mem_filter.mp hmem).2
  refine (erased_removeKeys o σ x keys requests hmax).not_holds_iff.mpr (Or.inl ?_)
  rw [carriedOut_of_replies hself (ofErrors_reduceOption.1.mp hok)]
  rcases hy with rfl | ⟨c, hpick, rfl⟩
  · exact Or.inl ⟨rfl, hkey⟩
  · have hmem : c ∈ requests.map (·.1) := hcalled.mem_iff.mpr (List.mem_filter.mpr
      ⟨hclients.mem key c true hpick, by simp [Instance.remote_of_pick hpick]⟩)
    obtain ⟨q, hq, rfl⟩ := List.mem_map.mp hmem
    exact Or.inr ⟨q, hq, rfl, hrequest q hq ▸ mem_keysFor hkey hpick⟩

/-- With the other peer down, its one call is reported. -/
theorem removeKeys_spec_hosts : [hostB, hostA].Nodup ∧ ∃ requests,
    RemoveKeysSpec downOracle (.start 1000) hostA [[7], [8]] (hostSite hostA).inst requests
      (removeKeys hostSite downOracle (.start 1000) hostA [[7], [8]]) :=
  ⟨by decide, removeKeys_spec (by decide) (hostInst_installed (by simp)) (by simp) downOracle
    (.start 1000)⟩

end Cluster

end Groupcache
