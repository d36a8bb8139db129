import Groupcache.Errors
import Groupcache.Transport.Peer.Picker

/-! `instance.go`: the part of an `Instance` that knows the peers. -/
namespace Groupcache

/-- What `SetPeers` is given by its surroundings: the default hash, the order `sort.Slice`
leaves equal hashes in, and which calls of `Transport.NewClient` fail. -/
structure PeerEnv where
  fnv1 : Peer.HashFn
  sort : Peer.SortSlice
  newClient : Peer.Info → Option Err

/-- `next` is the next unused pointer of a client. -/
structure Instance where
  opts : Peer.Options
  picker : Peer.Picker
  next : ℕ

namespace Instance

variable (env : PeerEnv)

/-- The peers part of `New`. -/
def new (opts : Peer.Options) : Instance :=
  { opts := opts, picker := Peer.newPicker env.fnv1 opts, next := 0 }

/-- The loop of `SetPeers` over the peer list: the new picker, the next pointer and
`includesSelf`. -/
def setPeersLoop (picker : Peer.Picker) (next : ℕ) (includesSelf : Bool) :
    List Peer.Info → Except Err (Peer.Picker × ℕ × Bool)
  | [] => .ok (picker, next, includesSelf)
  | p :: ps =>
    if p.isSelf then
      let self : Peer.Client := { id := next, info := { address := p.address, isSelf := true } }
      setPeersLoop (picker.add env.sort self) (next + 1) true ps
    else
      match env.newClient p with
      | some err => .error (.wrap "during Transport.NewClient()" err)
      | none =>
        setPeersLoop (picker.add env.sort { id := next, info := p }) (next + 1) includesSelf ps

def setPeers (i : Instance) (peers : List Peer.Info) : Instance × Option Err :=
  match setPeersLoop env (Peer.newPicker env.fnv1 i.opts) i.next false peers with
  | .error err => (i, some err)
  | .ok (picker, next, includesSelf) =>
    if includesSelf then ({ i with picker := picker, next := next }, none)
    else (i, some (.other
      "peer.Info\x7bIsSelf: true\x7d missing; peer list must contain the address for this instance"))

def pickPeer (i : Instance) (key : GoString) : Option Peer.Client × Bool := i.picker.pickPeer key

def getAllPeers (i : Instance) : List Peer.Client := i.picker.getAll

/-- The clients made for a peer list, with consecutive pointers. -/
def clientsFrom (next : ℕ) : List Peer.Info → List Peer.Client
  | [] => []
  | p :: ps => { id := next, info := p } :: clientsFrom (next + 1) ps

theorem clientsFrom_info (next : ℕ) (peers : List Peer.Info) :
    (clientsFrom next peers).map (·.info) = peers := by
  induction peers generalizing next with
  | nil => rfl
  | cons p ps ih => simp [clientsFrom, ih]

variable {env} {i : Instance} {peers : List Peer.Info}

theorem setPeersLoop_ok {picker picker' : Peer.Picker} {next next' : ℕ} {self self' : Bool}
    (h : setPeersLoop env picker next self peers = .ok (picker', next', self')) :
    picker' = picker.addAll env.sort (clientsFrom next peers) ∧ next' = next + peers.length ∧
      self' = (self || peers.any (·.isSelf)) := by
  induction peers generalizing picker next self with
  | nil =>
    obtain ⟨rfl, rfl, rfl⟩ : picker = picker' ∧ next = next' ∧ self = self' := by
      simpa [setPeersLoop] using h
    simp [Peer.Picker.addAll, clientsFrom]
  | cons p ps ih =>
    obtain ⟨address, isSelf⟩ := p
    cases isSelf with
    | true =>
      obtain ⟨hpicker, hnext, hself⟩ := ih h
      exact ⟨hpicker, by simp [hnext]; omega, by simp [hself]⟩
    | false =>
      rw [setPeersLoop, if_neg (by simp)] at h
      split at h
      · cases h
      · obtain ⟨hpicker, hnext, hself⟩ := ih h
        exact ⟨hpicker, by simp [hnext]; omega, by simp [hself]⟩

/-- A successful `SetPeers` installs the ring of the whole list, which has a self entry. -/
theorem setPeers_nil (h : (i.setPeers env peers).2 = none) :
    (i.setPeers env peers).1.picker =
      (Peer.newPicker env.fnv1 i.opts).addAll env.sort (clientsFrom i.next peers) ∧
    ∃ p ∈ peers, p.isSelf = true := by
  unfold setPeers at h ⊢
  split at h
  · cases h
  · rename_i picker next self hloop
    split at h
    · rename_i hself
      obtain ⟨hpicker, _, rfl⟩ := setPeersLoop_ok hloop
      simp only [hself, if_true]
      exact ⟨hpicker, by simpa using hself⟩
    · cases h

/-- A failed `SetPeers` leaves the picker in use. -/
theorem setPeers_failed (h : (i.setPeers env peers).2 ≠ none) : (i.setPeers env peers).1 = i := by
  unfold setPeers at h ⊢
  split at h
  · rfl
  · split at h
    · exact (h rfl).elim
    · rename_i hself
      simp [hself]

theorem setPeers_unmarked (h : ∀ p ∈ peers, p.isSelf = false) :
    (i.setPeers env peers).1 = i := by
  refine setPeers_failed fun hnil => ?_
  obtain ⟨-, p, hp, hself⟩ := setPeers_nil hnil
  simp [h p hp] at hself

theorem pickPeer_new (opts : Peer.Options) (key : GoString) :
    (new env opts).pickPeer key = (none, false) := rfl

theorem pickPeer_cases (i : Instance) (key : GoString) :
    (∃ c, i.pickPeer key = (some c, true) ∧ c.info.isSelf = false) ∨
      ∃ owner, i.pickPeer key = (owner, false) := by
  unfold pickPeer Peer.Picker.pickPeer
  split
  · exact Or.inr ⟨none, rfl⟩
  · cases hget : i.picker.get key with
    | none => exact Or.inr ⟨none, rfl⟩
    | some c => cases hself : c.info.isSelf <;> simp [hself]

theorem remote_of_pick {key : GoString} {c : Peer.Client} (h : i.pickPeer key = (some c, true)) :
    c.info.isSelf = false := by
  rcases i.pickPeer_cases key with ⟨c', hpick, hself⟩ | ⟨_, hpick⟩ <;> cases h.symm.trans hpick
  exact hself

/-- `SetPeers` succeeds when the transport does and the list has a self entry. -/
theorem setPeers_returns_nil (i : Instance) (env : PeerEnv)
    (hc : ∀ p ∈ peers, p.isSelf = false → env.newClient p = none)
    (hself : ∃ p ∈ peers, p.isSelf = true) : (i.setPeers env peers).2 = none := by
  have hloop : ∀ (ps : List Peer.Info) picker next self,
      (∀ p ∈ ps, p.isSelf = false → env.newClient p = none) →
      ∃ r, setPeersLoop env picker next self ps = .ok r := by
    intro ps
    induction ps with
    | nil => exact fun _ _ _ _ => ⟨_, rfl⟩
    | cons p ps ih =>
      intro picker next self hps
      rw [setPeersLoop]
      split
      · exact ih _ _ _ fun q hq => hps q (List.mem_cons_of_mem p hq)
      · rename_i hp
        rw [hps p List.mem_cons_self (by simpa using hp)]
        exact ih _ _ _ fun q hq => hps q (List.mem_cons_of_mem p hq)
  obtain ⟨⟨picker, next, self⟩, hr⟩ := hloop peers (Peer.newPicker env.fnv1 i.opts) i.next false hc
  obtain ⟨_, _, rfl⟩ := setPeersLoop_ok hr
  have hany : (false || peers.any (·.isSelf)) = true := by simpa using hself
  simp only [setPeers, hr, hany, if_true]

end Instance

end Groupcache
