import Groupcache.ConcurrentInvariants

/-! The nodes of a cluster together. A step is a step of one node; peer calls connect them over a
transport in which no call fails, so that a caller goes on with what the peer's call returned. -/
namespace Groupcache.Concurrent

open Transport Peer

/-- What the transport of a peer calls for a request of this call. -/
def Op.served : Op → Op
  | .get key _ => .get key (some .allocating)
  | .set key value expire => .remoteSet key value (decodeExpire (encodeExpire expire))
  | .remove key => .localRemove key
  | op => op

/-- The call is one that users of an instance make. -/
def Op.FromUser : Op → Prop
  | .get _ _ | .set _ _ _ | .remove _ => True
  | .remoteSet _ _ _ | .localRemove _ => False

/-- A peer call carries the expiry unchanged. -/
def Carried (e : Time) : Prop := decodeExpire (encodeExpire e) = e

/-- How the answer of the peer's call ends the peer call of a client. A panic of the Getter would
fail it. -/
def Op.reply (c : Client) : Op → Answer → Option Event
  | .get _ _, .value v => some (.fetched c (Cluster.received (some v.view.bytes) v.view.expire))
  | .get _ _, .err e => some (.answered c (some (Cluster.remoteErr e)))
  | .set _ _ _, .ok | .remove _, .ok => some (.answered c none)
  | _, _ => none

/-- Who made a peer call, and on which client. -/
structure PeerCall (P : Type) where
  node : GoString
  proc : P
  client : Client
deriving DecidableEq

/-- How far a peer call has got: its request is under way, a call serves it, or that call has
returned. -/
inductive Progress (P : Type)
  | sent (op : Op)
  | serving (op : Op) (q : P)
  | replied (op : Op) (a : Answer)

abbrev PeerCalls (P : Type) := PeerCall P → Option (Progress P)

/-- The same for the request of a `RemoveKeys`, which is answered with nil. -/
inductive KeysProgress (P : Type)
  | sent (keys : List GoString)
  | serving (keys : List GoString) (q : P)
  | replied

abbrev KeysCalls (P : Type) := PeerCall P → Option (KeysProgress P)

structure Net (P : Type) where
  nodes : GoString → State P
  calls : PeerCalls P
  keysCalls : KeysCalls P := fun _ => none

/-- The event does not involve another node; `NoOpClient` answers nil by itself. -/
def Event.Inside : Event → Prop
  | .send c => c.info.isSelf = true
  | .answered c err => c.info.isSelf = true ∧ err = none
  | .fetched _ _ => False
  | _ => True

/-- The event is none that invokes, returns, fills a cache or deals with a peer. -/
def Event.plain : Event → Bool
  | .invoke | .ret _ | .fill _ | .send _ | .fetched _ _ | .answered _ _ => false
  | _ => true

/-- What an event at a node does to the peer calls. -/
inductive Link {P : Type} [DecidableEq P] (T : PeerCalls P) (x : GoString) :
    Label P → PeerCalls P → Prop
  | inside {p op e} (he : e.Inside) (huser : e = .invoke → op.FromUser)
      (hret : ∀ a, e = .ret a → ∀ i op', T i = some (.serving op' p) → i.client.hashKey ≠ x) :
      Link T x (.call p op e) T
  | send {p op c} (hc : c.info.isSelf = false) :
      Link T x (.call p op (.send c)) (Function.update T ⟨x, p, c⟩ (some (.sent op)))
  | arrive {i op q} (hi : T i = some (.sent op)) (hx : i.client.hashKey = x) :
      Link T x (.call q op.served .invoke) (Function.update T i (some (.serving op q)))
  | reply {i op q} (a : Answer) (hi : T i = some (.serving op q)) (hx : i.client.hashKey = x) :
      Link T x (.call q op.served (.ret a)) (Function.update T i (some (.replied op a)))
  | receive {p op c a e} (hi : T ⟨x, p, c⟩ = some (.replied op a))
      (he : op.reply c a = some e) :
      Link T x (.call p op e) (Function.update T ⟨x, p, c⟩ none)
  | keys {p op e} : Link T x (.keys p op e) T
  | setPeers {peers} : Link T x (.setPeers peers) T

/-- The event does not involve another node. -/
def KeysEvent.Inside : KeysEvent → Prop
  | .send _ _ | .answered _ _ => False
  | _ => True

/-- What an event at a node does to the requests of `RemoveKeys` calls. -/
inductive KeysLink {P : Type} [DecidableEq P] (K : KeysCalls P) (x : GoString) :
    Label P → KeysCalls P → Prop
  | other {l} (hl : ∀ p op e, l ≠ .keys p op e) : KeysLink K x l K
  | inside {p op e} (he : e.Inside) (huser : e = .invoke → ∃ keys, op = .removeKeys keys)
      (hret : ∀ err, e = .ret err → ∀ i keys, K i = some (.serving keys p) →
        i.client.hashKey ≠ x) :
      KeysLink K x (.keys p op e) K
  | send {p op c keys} :
      KeysLink K x (.keys p op (.send c keys)) (Function.update K ⟨x, p, c⟩ (some (.sent keys)))
  | arrive {i keys q} (hi : K i = some (.sent keys)) (hx : i.client.hashKey = x) :
      KeysLink K x (.keys q (.handle keys) .invoke)
        (Function.update K i (some (.serving keys q)))
  | reply {i keys q} (hi : K i = some (.serving keys q)) (hx : i.client.hashKey = x) :
      KeysLink K x (.keys q (.handle keys) (.ret none)) (Function.update K i (some .replied))
  | receive {p op c} (hi : K ⟨x, p, c⟩ = some .replied) :
      KeysLink K x (.keys p op (.answered c none)) (Function.update K ⟨x, p, c⟩ none)

inductive NetStep {P : Type} [DecidableEq P] : Net P → GoString × Label P → Net P → Prop
  | node {N x l s T K} (hs : Step (N.nodes x) l s) (hl : Link N.calls x l T)
      (hk : KeysLink N.keysCalls x l K) :
      NetStep N (x, l) ⟨Function.update N.nodes x s, T, K⟩

/-- New groups on all nodes, with nobody calling them. -/
def netLTS (P : Type) [DecidableEq P] (cacheBytes : GoString → ℤ) :
    Lib.LTS (Net P) (GoString × Label P) where
  Init N := (∀ x, (nodeLTS P (cacheBytes x)).Init (N.nodes x)) ∧ (∀ i, N.calls i = none) ∧
    ∀ i, N.keysCalls i = none
  Step := NetStep

variable {P : Type} [DecidableEq P] {T T' : PeerCalls P} {x : GoString} {l : Label P} {p : P}
  {op : Op} {c : Client}

theorem NetStep.call {N : Net P} {e : Event} {s : State P} (hs : Step (N.nodes x) (.call p op e) s)
    (hl : Link N.calls x (.call p op e) T) :
    NetStep N (x, .call p op e) ⟨Function.update N.nodes x s, T, N.keysCalls⟩ :=
  .node hs hl (.other (by simp))

theorem Link.of_plain {e : Event} (he : e.plain = true) : Link T x (.call p op e) T := by
  refine .inside ?_ ?_ ?_
  · cases e <;> trivial
  · rintro rfl
    cases he
  · rintro a rfl
    cases he

/-- The error of a peer's `Get` is one that `load` returns as it is. -/
theorem Link.answered_isFinal {err : Err} (h : Link T x (.call p op (.answered c (some err))) T') :
    err.isFinal = true := by
  cases h with
  | inside he => cases he.2
  | @receive _ _ c' a _ _ he =>
    unfold Op.reply at he
    split at he <;> cases he
    exact Cluster.remoteErr_isFinal _

/-- A fetched value is the one that the peer's `Get` returned, as the transport carries it. -/
theorem Link.fetched_received {w : ByteView} (h : Link T x (.call p op (.fetched c w)) T') :
    ∃ v, T ⟨x, p, c⟩ = some (.replied op (.value v)) ∧
      w = Cluster.received (some v.view.bytes) v.view.expire := by
  cases h with
  | inside he => exact he.elim
  | @receive _ _ c' a _ hi he =>
    unfold Op.reply at he
    split at he <;> cases he
    exact ⟨_, hi, rfl⟩

theorem Link.fetched_eq {w : ByteView} (h : Link T x (.call p op (.fetched c w)) T') :
    ∃ v, T ⟨x, p, c⟩ = some (.replied op (.value v)) ∧ w.bytes = v.view.bytes := by
  obtain ⟨v, hi, rfl⟩ := h.fetched_received
  exact ⟨v, hi, by simp [Cluster.received]⟩

theorem update_cases {i j : PeerCall P} {o : Option (Progress P)} {pr : Progress P}
    (hi : Function.update T j o i = some pr) : T i = some pr ∨ i = j ∧ o = some pr := by
  by_cases hij : i = j
  · subst hij
    exact Or.inr ⟨rfl, by simpa using hi⟩
  · exact Or.inl (by simpa [hij] using hi)

/-- A peer call holds an answer from when the call that serves it returns. -/
theorem Link.replied (h : Link T x l T') {i : PeerCall P} {a : Answer}
    (hi : T' i = some (.replied op a)) :
    T i = some (.replied op a) ∨ ∃ q, l = .call q op.served (.ret a) := by
  cases h with
  | inside | keys | setPeers => exact Or.inl hi
  | send | arrive | receive =>
    rcases update_cases hi with hold | ⟨_, he⟩
    · exact Or.inl hold
    · cases he
  | reply a' =>
    rcases update_cases hi with hold | ⟨_, he⟩
    · exact Or.inl hold
    · cases he
      exact Or.inr ⟨_, rfl⟩

end Groupcache.Concurrent
