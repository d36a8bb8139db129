import Groupcache.Group
import Groupcache.Instance

/-! Whole calls of `Get`, `Set`, `Remove` and `RemoveKeys` at the nodes of a cluster, one after
the other. What the code does not determine (clock readings, results of the Getter, orders of
map iterations and goroutines, failures of peer calls) is asked of an oracle at each point. -/
namespace Groupcache

open Transport

/-- A `Sink`: the error, if any, that `SetSinkView` returns for a view. -/
structure Sink where
  setView : ByteView → Option Err

/-- `AllocatingByteSliceSink`, into which a node reads what it serves to a peer. -/
def Sink.allocating : Sink := ⟨fun _ => none⟩

/-- A failed peer call, which may have been carried out all the same. -/
structure Fault where
  err : Err
  reached : Bool

/-- An order in which a map iteration, or the goroutines it starts, may run. -/
structure Shuffle (α : Type) where
  order : List α → List α
  perm : ∀ l, (order l).Perm l

/-- The answers at each point of an execution. -/
structure Oracle where
  clock : ℕ → Time
  /-- `getter.Get` at a node, followed by `dest.View()`. -/
  getter : ℕ → GoString → GoString → Except Err ByteView
  /-- `ctx != nil && ctx.Err() != nil`. -/
  ctxDone : ℕ → Bool
  fault : ℕ → Option Fault
  peers : ℕ → Shuffle Peer.Client
  requests : ℕ → Shuffle (Peer.Client × List GoString)

def Oracle.Reliable (o : Oracle) : Prop := ∀ t, o.fault t = none

/-- What stays fixed of a node: its instance, and whether `Options.Logger` is set. -/
structure Site where
  inst : Instance
  logger : Bool

/-- What happened to a key: a successful Getter run, or a completed write. -/
inductive Event
  | getter (key value : GoString)
  | set (key value : GoString)
  | remove (key : GoString)

/-- The groups by address of their node, the current point, and the history of the values. -/
structure Cluster where
  groups : GoString → Group ByteView
  tick : ℕ
  log : List Event

inductive Result
  | value (v : ByteView)
  | err (e : Err)
  | ok
  | panic

def Result.isOk : Result → Bool
  | .ok => true
  | _ => false

theorem Result.eq_ok {r : Result} (h : r.isOk = true) : r = .ok := by
  cases r <;> simp_all [isOk]

namespace Cluster

variable (site : GoString → Site) (o : Oracle)

def next (σ : Cluster) : Cluster := { σ with tick := σ.tick + 1 }

def modify (σ : Cluster) (x : GoString) (f : Group ByteView → Group ByteView) : Cluster :=
  { σ with groups := Function.update σ.groups x (f (σ.groups x)) }

def bump (σ : Cluster) (x : GoString) (c : Counter) : Cluster := σ.modify x fun g => g.count c 1

def lookupCache (σ : Cluster) (x key : GoString) : Cluster × Option ByteView :=
  let r := (σ.groups x).lookupCache (o.clock σ.tick) (o.clock (σ.tick + 1)) key
  ((σ.modify x fun _ => r.1).next.next, r.2)

/-- The error a `Get` served over HTTP arrives with: 404 and 503 are told apart. -/
def remoteErr (e : Err) : Err := if e.isNotFound then .notFound e.message else .remoteCall e.message

theorem remoteErr_isFinal (e : Err) : (remoteErr e).isFinal = true := by
  unfold remoteErr
  split <;> simp [Err.isFinal, Err.isNotFound, Err.isRemoteCall]

/-- A view as the receiver of a `GetResponse` or `SetRequest` rebuilds it. -/
def received (value : Option GoString) (expire : Time) : ByteView :=
  .withExpire value (decodeExpire (encodeExpire expire))

/-- How a `Get` at a node is carried out: the state after it and its result. -/
abbrev Served := Option (Cluster × Except Err ByteView)

/-- `getFromPeer`; `serve` is the `Get` of the peer that the client leads to. -/
def getFromPeer (serve : Cluster → GoString → Served) (σ : Cluster) (x : GoString)
    (c : Peer.Client) (key : GoString) : Served :=
  match o.fault σ.tick with
  | some f => if f.reached then (serve σ.next c.hashKey).map fun r => (r.1, .error f.err)
    else some (σ.next, .error f.err)
  | none =>
    match serve σ.next c.hashKey with
    | none => none
    | some (σ, .error e) => some (σ, .error (remoteErr e))
    | some (σ, .ok v) =>
      let value := received (some v.bytes) v.expire
      some (σ.modify x fun g => g.populateHot key value, .ok value)

def getLocally (σ : Cluster) (x key : GoString) : Cluster × Except Err ByteView :=
  match o.getter σ.tick x key with
  | .error e => (σ.next, .error e)
  | .ok v => ({ σ.next with log := σ.log ++ [.getter key v.bytes] }, .ok v)

/-- The end of `load`: call the Getter and fill the main cache. -/
def loadLocally (σ : Cluster) (x key : GoString) : Cluster × Except Err ByteView :=
  match getLocally o σ x key with
  | (σ, .error e) => (σ.bump x .localLoadErrs, .error e)
  | (σ, .ok v) => ((σ.bump x .localLoads).modify x fun g => g.populateMain key v, .ok v)

/-- A load's outcome; the flag is `destPopulated`. -/
abbrev Loaded := Option (Cluster × Except Err ByteView × Bool)

/-- `load` after a peer's error: some errors are final, the others lead to the Getter. -/
def afterPeerError (σ : Cluster) (x key : GoString) (e : Err) : Loaded :=
  if e.isFinal then some (σ, .error e, false)
  else
    let σ' := (σ.bump x .peerErrors).next
    if o.ctxDone σ.tick then some (σ', .error e, false)
    else some ((loadLocally o σ' x key).1, (loadLocally o σ' x key).2, true)

def loadMiss (serve : Cluster → GoString → Served) (σ : Cluster) (x key : GoString) : Loaded :=
  match (site x).inst.pickPeer key with
  | (some c, true) =>
    match getFromPeer o serve σ x c key with
    | none => none
    | some (σ, .ok v) => some (σ.bump x .peerLoads, .ok v, false)
    | some (σ, .error e) => afterPeerError o σ x key e
  | _ => some ((loadLocally o σ x key).1, (loadLocally o σ x key).2, true)

/-- `load`, run by a caller that is alone. -/
def load (serve : Cluster → GoString → Served) (σ : Cluster) (x key : GoString) : Loaded :=
  match lookupCache o (σ.bump x .loads) x key with
  | (σ, some v) => some (σ.bump x .cacheHits, .ok v, false)
  | (σ, none) => loadMiss site o serve (σ.bump x .loadsDeduped) x key

def deliver (dest : Sink) (v : ByteView) : Except Err ByteView :=
  match dest.setView v with
  | none => .ok v
  | some e => .error e

/-- `Get`, with fuel for the hops to other nodes. -/
def get (fuel : ℕ) (σ : Cluster) (x key : GoString) (dest : Option Sink) : Served :=
  match fuel with
  | 0 => none
  | fuel + 1 =>
    match dest with
    | none => some (σ.bump x .gets, .error (.other "groupcache: nil dest Sink"))
    | some dest =>
      match lookupCache o (σ.bump x .gets) x key with
      | (σ, some v) => some (σ.bump x .cacheHits, deliver dest v)
      | (σ, none) =>
        match load site o (fun σ y => get fuel σ y key (some .allocating)) σ x key with
        | none => none
        | some (σ, .error e, _) => some (σ, .error e)
        | some (σ, .ok v, destPopulated) =>
          some (σ, if destPopulated then .ok v else deliver dest v)

/-- A call of a client's method that has no result: nothing for `NoOpClient`, else `f` at the
peer's group unless the call fails before it gets there. -/
def callPeer (σ : Cluster) (c : Peer.Client) (f : Group ByteView → Group ByteView) :
    Cluster × Option Err :=
  if c.info.isSelf then (σ, none)
  else
    match o.fault σ.tick with
    | none => (σ.next.modify c.hashKey f, none)
    | some fault => (if fault.reached then σ.next.modify c.hashKey f else σ.next, some fault.err)

def setPeer (σ : Cluster) (c : Peer.Client) (key : GoString) (value : Option GoString)
    (expire : Time) : Cluster × Option Err :=
  callPeer o σ c fun g => g.remoteSet key (received value expire)

def removeFromPeer (σ : Cluster) (c : Peer.Client) (key : GoString) : Cluster × Option Err :=
  callPeer o σ c fun g => g.localRemove key

/-- The loop of `Set` over all peers. A nil owner panics, and so does a nil Logger. -/
def setAll (owner : Option Peer.Client) (logger : Bool) (key : GoString)
    (value : Option GoString) (expire : Time) : Cluster → List Peer.Client → Cluster × Result
  | σ, [] => (σ, .ok)
  | σ, p :: ps =>
    if p.info.isSelf then setAll owner logger key value expire σ ps
    else
      match owner with
      | none => (σ, .panic)
      | some c =>
        if p.hashKey = c.hashKey then setAll owner logger key value expire σ ps
        else
          match setPeer o σ p key value expire with
          | (σ, none) => setAll owner logger key value expire σ ps
          | (σ, some _) =>
            if logger then setAll owner logger key value expire σ ps else (σ, .panic)

/-- The first step of `Set` and `Remove`: call the owner if it is remote. -/
def callOwner (σ : Cluster) (pick : Option Peer.Client × Bool)
    (call : Peer.Client → Cluster × Option Err) : Cluster × Option Err :=
  match pick with
  | (some c, true) => call c
  | _ => (σ, none)

def set (σ : Cluster) (x key : GoString) (value : Option GoString) (expire : Time) :
    Cluster × Result :=
  let n := site x
  if key = [] then (σ, .err (.other "empty Set() key not allowed"))
  else if (σ.groups x).maxCacheBytes ≤ 0 then (σ, .ok)
  else
    match callOwner σ (n.inst.pickPeer key) fun c => setPeer o σ c key value expire with
    | (σ, some e) => (σ, .err e)
    | (σ, none) =>
      let σ := σ.modify x fun g => g.update key (.withExpire value expire)
      setAll o (n.inst.pickPeer key).1 n.logger key value expire σ.next
        ((o.peers σ.tick).order n.inst.getAllPeers)

def callAll : Cluster → List (Peer.Client × (Group ByteView → Group ByteView)) → Cluster × List Err
  | σ, [] => (σ, [])
  | σ, (c, f) :: calls =>
    let r := callPeer o σ c f
    let rs := callAll r.1 calls
    (rs.1, r.2.toList ++ rs.2)

def ofErrors (errs : List Err) : Result :=
  match nilOrError errs with
  | none => .ok
  | some e => .err e

/-- `Remove`; among all peers the owner's client is skipped. -/
def remove (σ : Cluster) (x key : GoString) : Cluster × Result :=
  let n := site x
  match callOwner σ (n.inst.pickPeer key) fun c => removeFromPeer o σ c key with
  | (σ, some e) => (σ, .err e)
  | (σ, none) =>
    let σ := σ.modify x fun g => g.localRemove key
    let peers := (o.peers σ.tick).order n.inst.getAllPeers
    let others := peers.filter fun p => some p ≠ (n.inst.pickPeer key).1
    let r := callAll o σ.next (others.map fun p => (p, fun g => g.localRemove key))
    (r.1, ofErrors r.2)

/-- One round of the loop that groups the keys of `RemoveKeys` by their remote owner. -/
def addKey (inst : Instance) (m : AList fun _ : Peer.Client => List GoString) (key : GoString) :
    AList fun _ : Peer.Client => List GoString :=
  match inst.pickPeer key with
  | (some owner, true) => m.insert owner ((m.lookup owner).getD [] ++ [key])
  | _ => m

def keysByOwner (inst : Instance) (keys : List GoString) :
    AList fun _ : Peer.Client => List GoString :=
  keys.foldl (addKey inst) ∅

/-- The peers that are sent every key of a `RemoveKeys`. -/
def otherPeers (inst : Instance) (owners : AList fun _ : Peer.Client => List GoString) :
    List Peer.Client :=
  inst.getAllPeers.filter fun p => !p.info.isSelf && (owners.lookup p).isNone

def removeEach (keys : List GoString) (g : Group ByteView) : Group ByteView :=
  keys.foldl Group.localRemove g

/-- `RemoveKeys`: an owner is sent its own keys, any other peer all of them. -/
def removeKeys (σ : Cluster) (x : GoString) (keys : List GoString) : Cluster × Result :=
  if keys = [] then (σ, .ok)
  else
    let n := site x
    let σ := σ.modify x fun g =>
      (g.count .removeKeysRequests 1).count .removedKeys keys.length
    let owners := keysByOwner n.inst keys
    let σ := σ.modify x (removeEach keys)
    let requests := owners.entries.map (fun e => (e.1, e.2)) ++
      (otherPeers n.inst owners).map fun p => (p, keys)
    let r := callAll o σ.next
      (((o.requests σ.tick).order requests).map fun q => (q.1, removeEach q.2))
    (r.1, ofErrors r.2)

end Cluster

end Groupcache
