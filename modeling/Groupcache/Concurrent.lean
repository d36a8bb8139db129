import Groupcache.Lib.Run
import Groupcache.Internal.Singleflight
import Groupcache.Cluster

/-! One group of one instance under any number of concurrent calls. An atomic step is a cache
operation, a locked section of a singleflight group, a reading of the peers, or the start or the
end of a Getter or peer call; the counters are added to in the step next to them. -/
namespace Groupcache.Concurrent

open Transport Peer
open Singleflight (Outcome Role)

/-- Where a value comes from: a Getter or peer call started at a step, or a write. -/
inductive Origin
  | fetch (start : ℕ)
  | write

/-- A view with a mark that no operation reads. -/
structure Value where
  view : ByteView
  origin : Origin

instance : CacheValue Value := ⟨fun v => v.view.len, fun v => v.view.expire⟩

/-- A call on the group, by a user of the instance or by its transport for a peer. -/
inductive Op
  | get (key : GoString) (dest : Option Sink)
  | set (key : GoString) (value : Option GoString) (expire : Time)
  | remove (key : GoString)
  | remoteSet (key : GoString) (value : Option GoString) (expire : Time)
  | localRemove (key : GoString)

/-- `loadGroup`, `setGroup` and `removeGroup`. -/
inductive Flight
  | load
  | set
  | remove
deriving DecidableEq

inductive Answer
  | value (v : Value)
  | ok
  | err (e : Err)
  | panic

/-- The two lookups of `lookupCache`. -/
inductive Tier
  | main
  | hot

inductive Found
  | hit (v : Value)
  | next
  | miss

def look (g : Group Value) (now : Time) (key : GoString) : Tier → Group Value × Found
  | .main =>
    if g.maxCacheBytes ≤ 0 then (g, .miss)
    else ((g.lookupMain now key).1, (g.lookupMain now key).2.elim .next .hit)
  | .hot => ((g.lookupHot now key).1, (g.lookupHot now key).2.elim .miss .hit)

/-- Where the function given to `Do` stands. -/
inductive Body
  | lookup (tier : Tier)
  | pick
  /-- Before and during the call of a remote owner. -/
  | call (c : Client)
  | calling (c : Client) (start : ℕ)
  | fillHot (v : Value)
  | callGetter
  | getter (start : ℕ)
  | fillMain (v : Value)
  | write (owner : Option Client)
  | peers (owner : Option Client)
  /-- The goroutines that have not called their peer yet, those that wait for it, and the errors
  of those that are done. -/
  | broadcast (todo flying : List Client) (errs : List Err)
  | ends (o : Outcome Value) (destPopulated : Bool)

/-- Where a call stands; `c` is the pointer in the local variable of `Do`. -/
inductive Loc
  | lookup (tier : Tier)
  | enter
  | wait (c : ℕ)
  | lead (c : ℕ) (b : Body)
  | assigned (c : ℕ) (o : Outcome Value) (destPopulated : Bool)
  | done (c : ℕ) (o : Outcome Value) (destPopulated : Bool)
  | write
  | ret (a : Answer)
  | returned

inductive Event
  | invoke
  | lookup
  | join (c : ℕ)
  | lead (c : ℕ)
  | pick (owner : Option Client) (isRemote : Bool)
  | send (c : Client)
  | fetched (c : Client) (v : ByteView)
  | answered (c : Client) (err : Option Err)
  | callGetter
  | got (v : ByteView)
  | failed (err : Option Err)
  | fill (v : Value)
  | write
  | peers
  | wait
  | assign
  | done
  | delete
  | wake
  | ret (a : Answer)

structure Node where
  group : Group Value
  flights : Flight → Singleflight.Group GoString Value
  inst : Instance
  logger : Bool

namespace Op

def key : Op → GoString
  | get key _ | set key _ _ | remove key | remoteSet key _ _ | localRemove key => key

/-- The group whose `Do` the call runs in, or whose `Lock` it takes outside of any `Do`. -/
def flight : Op → Flight
  | set _ _ _ => .set
  | remove _ => .remove
  | get _ _ | remoteSet _ _ _ | localRemove _ => .load

def deliver (dest : Option Sink) (v : Value) : Answer :=
  match dest with
  | none => .err (.other "groupcache: nil dest Sink")
  | some dest =>
    match dest.setView v.view with
    | none => .value v
    | some e => .err e

/-- The call up to its first step on shared data. -/
def start (g : Group Value) : Op → Loc
  | get _ none => .ret (.err (.other "groupcache: nil dest Sink"))
  | get _ (some _) => .lookup .main
  | set key _ _ =>
    if key = [] then .ret (.err (.other "empty Set() key not allowed"))
    else if g.maxCacheBytes ≤ 0 then .ret .ok
    else .enter
  | remove _ => .enter
  | remoteSet _ _ _ | localRemove _ => .write

def body : Op → Body
  | get _ _ => .lookup .main
  | _ => .pick

/-- What follows when no remote peer has to be asked. -/
def afterPick (owner : Option Client) : Op → Body
  | get _ _ => .callGetter
  | _ => .write owner

def written (value : Option GoString) (expire : Time) : Value := ⟨.withExpire value expire, .write⟩

/-- The section under `loadGroup.Lock`, for the calls that have one. -/
def write (g : Group Value) : Op → Group Value
  | get _ _ => g
  | set key value expire => g.update key (written value expire)
  | remoteSet key value expire => g.remoteSet key (written value expire)
  | remove key | localRemove key => g.localRemove key

/-- The loop over `getAllPeers()`, which starts a goroutine for each peer but some. In `Set` a nil
owner panics at the first peer that is not self. -/
def broadcast (owner : Option Client) (peers : List Client) : Op → Body
  | set _ _ _ =>
    match owner with
    | some c => .broadcast (peers.filter fun p => !p.info.isSelf && p.hashKey ≠ c.hashKey) [] []
    | none => if peers.all (·.info.isSelf) then .broadcast [] [] [] else .ends .panic false
  | _ => .broadcast (peers.filter fun p => some p ≠ owner) [] []

/-- The error returned once all goroutines are done; `Set` only logs theirs. -/
def joined (errs : List Err) : Op → Option Err
  | set _ _ _ => none
  | _ => nilOrError errs

def answer (o : Outcome Value) (destPopulated : Bool) : Op → Answer
  | get _ dest =>
    match o with
    | .ret _ (some e) => .err e
    | .ret (some v) none => if destPopulated then .value v else deliver dest v
    | .ret none none | .panic => .panic
  | _ =>
    match o with
    | .ret _ (some e) => .err e
    | .ret _ none => .ok
    | .panic => .panic

end Op

/-- A step of the function given to `Do`, at a node and a time. It changes the node's group only. -/
inductive BodyStep (n : Node) (time : ℕ) : Op → Body → Event → Group Value → Body → Prop
  | hit {key dest tier g v} (now : Time) (h : look n.group now key tier = (g, .hit v)) :
      BodyStep n time (.get key dest) (.lookup tier) .lookup (g.count .cacheHits 1)
        (.ends (.ret (some v) none) false)
  | next {key dest tier g} (now : Time) (h : look n.group now key tier = (g, .next)) :
      BodyStep n time (.get key dest) (.lookup tier) .lookup g (.lookup .hot)
  | miss {key dest tier g} (now : Time) (h : look n.group now key tier = (g, .miss)) :
      BodyStep n time (.get key dest) (.lookup tier) .lookup (g.count .loadsDeduped 1) .pick
  | pickRemote {op c} (h : n.inst.pickPeer op.key = (some c, true)) :
      BodyStep n time op .pick (.pick (some c) true) n.group (.call c)
  | pickLocal {op owner} (h : n.inst.pickPeer op.key = (owner, false)) :
      BodyStep n time op .pick (.pick owner false) n.group (op.afterPick owner)
  | send {op c} : BodyStep n time op (.call c) (.send c) n.group (.calling c time)
  | fetched {key dest c start} (v : ByteView) :
      BodyStep n time (.get key dest) (.calling c start) (.fetched c v) n.group
        (.fillHot ⟨v, .fetch start⟩)
  | fetchFinal {key dest c start e} (h : e.isFinal = true) :
      BodyStep n time (.get key dest) (.calling c start) (.answered c (some e)) n.group
        (.ends (.ret none (some e)) false)
  /-- The context is no longer valid. -/
  | fetchGiveUp {key dest c start e} (h : e.isFinal = false) :
      BodyStep n time (.get key dest) (.calling c start) (.answered c (some e))
        (n.group.count .peerErrors 1) (.ends (.ret none (some e)) false)
  | fetchFallBack {key dest c start e} (h : e.isFinal = false) :
      BodyStep n time (.get key dest) (.calling c start) (.answered c (some e))
        (n.group.count .peerErrors 1) .callGetter
  | fillHot {key dest v} :
      BodyStep n time (.get key dest) (.fillHot v) (.fill v)
        ((n.group.populateHot key v).count .peerLoads 1) (.ends (.ret (some v) none) false)
  | callGetter {key dest} :
      BodyStep n time (.get key dest) .callGetter .callGetter n.group (.getter time)
  | got {key dest start} (v : ByteView) :
      BodyStep n time (.get key dest) (.getter start) (.got v) (n.group.count .localLoads 1)
        (.fillMain ⟨v, .fetch start⟩)
  | failed {key dest start} (e : Err) :
      BodyStep n time (.get key dest) (.getter start) (.failed (some e))
        (n.group.count .localLoadErrs 1) (.ends (.ret none (some e)) false)
  | panicked {key dest start} :
      BodyStep n time (.get key dest) (.getter start) (.failed none) n.group (.ends .panic false)
  | fillMain {key dest v} :
      BodyStep n time (.get key dest) (.fillMain v) (.fill v) (n.group.populateMain key v)
        (.ends (.ret (some v) none) true)
  | ownerDone {op c start} (hop : op.flight ≠ .load) :
      BodyStep n time op (.calling c start) (.answered c none) n.group (.write (some c))
  | ownerFailed {op c start} (e : Err) (hop : op.flight ≠ .load) :
      BodyStep n time op (.calling c start) (.answered c (some e)) n.group
        (.ends (.ret none (some e)) false)
  | write {op owner} (hop : op.flight ≠ .load) :
      BodyStep n time op (.write owner) .write (op.write n.group) (.peers owner)
  | peers {op owner} :
      BodyStep n time op (.peers owner) .peers n.group (op.broadcast owner n.inst.getAllPeers)
  | sendPeer {op c todo flying errs} (h : c ∈ todo) :
      BodyStep n time op (.broadcast todo flying errs) (.send c) n.group
        (.broadcast (todo.erase c) (c :: flying) errs)
  /-- `NoOpClient` does not fail. An error that `Set` cannot log ends the process instead. -/
  | answered {op c todo flying errs} (err : Option Err) (h : c ∈ flying)
      (hself : c.info.isSelf = true → err = none)
      (hlog : op.flight = .set → err ≠ none → n.logger = true) :
      BodyStep n time op (.broadcast todo flying errs) (.answered c err) n.group
        (.broadcast todo (flying.erase c) (errs ++ err.toList))
  | wait {op errs} :
      BodyStep n time op (.broadcast [] [] errs) .wait n.group
        (.ends (.ret none (op.joined errs)) false)

namespace Node

/-- `g.Stats.Gets.Add(1)`, at the start of `Get`. -/
def countGet (n : Node) : Op → Node
  | .get _ _ => { n with group := n.group.count .gets 1 }
  | _ => n

def countLoad (n : Node) : Op → Node
  | .get _ _ => { n with group := n.group.count .loads 1 }
  | _ => n

def setFlight (n : Node) (f : Flight) (g : Singleflight.Group GoString Value) : Node :=
  { n with flights := Function.update n.flights f g }

end Node

inductive Act (n : Node) (time : ℕ) : Op → Loc → Event → Node → Loc → Prop
  | hit {key dest tier g v} (now : Time) (h : look n.group now key tier = (g, .hit v)) :
      Act n time (.get key dest) (.lookup tier) .lookup { n with group := g.count .cacheHits 1 }
        (.ret (Op.deliver dest v))
  | next {key dest tier g} (now : Time) (h : look n.group now key tier = (g, .next)) :
      Act n time (.get key dest) (.lookup tier) .lookup { n with group := g } (.lookup .hot)
  | miss {key dest tier g} (now : Time) (h : look n.group now key tier = (g, .miss)) :
      Act n time (.get key dest) (.lookup tier) .lookup { n with group := g } .enter
  | join {op c} (h : (n.flights op.flight).m op.key = some c) :
      Act n time op .enter (.join c) (n.countLoad op) (.wait c)
  | lead {op} (h : (n.flights op.flight).m op.key = none) :
      Act n time op .enter (.lead (n.flights op.flight).next)
        ((n.countLoad op).setFlight op.flight ((n.flights op.flight).register op.key))
        (.lead (n.flights op.flight).next op.body)
  | body {op c b e g b'} (h : BodyStep n time op b e g b') :
      Act n time op (.lead c b) e { n with group := g } (.lead c b')
  | assign {op c o destPopulated} :
      Act n time op (.lead c (.ends o destPopulated)) .assign
        (n.setFlight op.flight ((n.flights op.flight).assign c o)) (.assigned c o destPopulated)
  | done {op c o destPopulated} :
      Act n time op (.assigned c o destPopulated) .done
        (n.setFlight op.flight ((n.flights op.flight).done c)) (.done c o destPopulated)
  | delete {op c o destPopulated} :
      Act n time op (.done c o destPopulated) .delete
        (n.setFlight op.flight ((n.flights op.flight).delete op.key))
        (.ret (op.answer o destPopulated))
  | wake {op c} (h : ((n.flights op.flight).calls c).wg = false) :
      Act n time op (.wait c) .wake n
        (.ret (op.answer (.ret ((n.flights op.flight).calls c).val
          ((n.flights op.flight).calls c).err) false))
  | remoteSet {key value expire} :
      Act n time (.remoteSet key value expire) .write .write
        { n with group := n.group.remoteSet key (Op.written value expire) } (.ret .ok)
  | localRemove {key} :
      Act n time (.localRemove key) .write .write { n with group := n.group.localRemove key }
        (.ret .ok)
  | ret {op a} : Act n time op (.ret a) (.ret a) n .returned

/-- A call of `RemoveKeys`, or the transport's handler of a peer's request for some keys. -/
inductive KeysOp
  | removeKeys (keys : List GoString)
  | handle (keys : List GoString)

/-- Where such a call stands. The owners are kept until `getAllPeers` has been called. -/
inductive KeysLoc
  | pick (todo : List GoString) (owners : AList fun _ : Client => List GoString)
  | clear (todo : List GoString) (owners : AList fun _ : Client => List GoString)
  | broadcast (owners : Option (AList fun _ : Client => List GoString))
      (todo flying : List (Client × List GoString)) (errs : List Err)
  | ret (err : Option Err)
  | returned

inductive KeysEvent
  | invoke
  | pick (key : GoString)
  | clear (key : GoString)
  /-- A loop over the keys is left. -/
  | next
  | peers
  | send (c : Client) (keys : List GoString)
  | answered (c : Client) (err : Option Err)
  | wait
  | ret (err : Option Err)

structure KeysFrame where
  op : KeysOp
  loc : KeysLoc

namespace KeysOp

def keys : KeysOp → List GoString
  | removeKeys keys | handle keys => keys

def start : KeysOp → KeysLoc
  | removeKeys keys => if keys = [] then .ret none else .pick keys ∅
  | handle keys => .clear keys ∅

def count (g : Group Value) : KeysOp → Group Value
  | removeKeys keys =>
    if keys = [] then g else (g.count .removeKeysRequests 1).count .removedKeys keys.length
  | handle _ => g

end KeysOp

/-- A step of such a call, which changes the node's group only. The goroutines for the owners run
before `getAllPeers` is called. -/
inductive KeysStep (n : Node) : Option KeysFrame → KeysOp → KeysEvent → Group Value → KeysLoc → Prop
  | invoke {op} : KeysStep n none op .invoke (op.count n.group) op.start
  | pick {op key todo owners} :
      KeysStep n (some ⟨op, .pick (key :: todo) owners⟩) op (.pick key) n.group
        (.pick todo (Cluster.addKey n.inst owners key))
  | picked {op owners} :
      KeysStep n (some ⟨op, .pick [] owners⟩) op .next n.group (.clear op.keys owners)
  | clear {op key todo owners} :
      KeysStep n (some ⟨op, .clear (key :: todo) owners⟩) op (.clear key)
        (n.group.localRemove key) (.clear todo owners)
  | cleared {keys owners} :
      KeysStep n (some ⟨.removeKeys keys, .clear [] owners⟩) (.removeKeys keys) .next n.group
        (.broadcast (some owners) (owners.entries.map fun e => (e.1, e.2)) [] [])
  | handled {keys owners} :
      KeysStep n (some ⟨.handle keys, .clear [] owners⟩) (.handle keys) .next n.group (.ret none)
  | peers {op owners todo flying errs} :
      KeysStep n (some ⟨op, .broadcast (some owners) todo flying errs⟩) op .peers n.group
        (.broadcast none (todo ++ (Cluster.otherPeers n.inst owners).map fun c => (c, op.keys))
          flying errs)
  | send {op owners todo flying errs c keys} (h : (c, keys) ∈ todo) :
      KeysStep n (some ⟨op, .broadcast owners todo flying errs⟩) op (.send c keys) n.group
        (.broadcast owners (todo.erase (c, keys)) ((c, keys) :: flying) errs)
  | answered {op owners todo flying errs c keys} (err : Option Err) (h : (c, keys) ∈ flying) :
      KeysStep n (some ⟨op, .broadcast owners todo flying errs⟩) op (.answered c err) n.group
        (.broadcast owners todo (flying.erase (c, keys)) (errs ++ err.toList))
  | wait {op errs} :
      KeysStep n (some ⟨op, .broadcast none [] [] errs⟩) op .wait n.group (.ret (nilOrError errs))
  | ret {op err} : KeysStep n (some ⟨op, .ret err⟩) op (.ret err) n.group .returned

/-- A call, the step it was invoked at and where it stands. -/
structure Frame where
  op : Op
  since : ℕ
  loc : Loc

/-- The node, the number of steps taken, the calls, and those that remove several keys; a process
is one call. -/
structure State (P : Type) where
  node : Node
  clock : ℕ
  pc : P → Option Frame
  keys : P → Option KeysFrame := fun _ => none

inductive Label (P : Type)
  | call (p : P) (op : Op) (e : Event)
  | keys (p : P) (op : KeysOp) (e : KeysEvent)
  | setPeers (peers : List Info)

def State.setPC {P : Type} [DecidableEq P] (s : State P) (p : P) (fr : Frame) (n : Node) :
    State P :=
  { s with node := n, clock := s.clock + 1, pc := Function.update s.pc p (some fr) }

inductive Step {P : Type} [DecidableEq P] : State P → Label P → State P → Prop
  | invoke {s p} (op : Op) (h : s.pc p = none) :
      Step s (.call p op .invoke)
        (s.setPC p ⟨op, s.clock, op.start s.node.group⟩ (s.node.countGet op))
  | act {s p op since loc e n loc'} (h : s.pc p = some ⟨op, since, loc⟩)
      (ha : Act s.node s.clock op loc e n loc') :
      Step s (.call p op e) (s.setPC p ⟨op, since, loc'⟩ n)
  | keys {s p op e g loc} (h : KeysStep s.node (s.keys p) op e g loc) :
      Step s (.keys p op e)
        { s with node := { s.node with group := g }, clock := s.clock + 1,
                 keys := Function.update s.keys p (some ⟨op, loc⟩) }
  | setPeers {s} (env : PeerEnv) (peers : List Info) :
      Step s (.setPeers peers)
        { s with node := { s.node with inst := (s.node.inst.setPeers env peers).1 },
                 clock := s.clock + 1 }

/-- A new group of an instance, with nobody calling it. -/
def nodeLTS (P : Type) [DecidableEq P] (cacheBytes : ℤ) : Lib.LTS (State P) (Label P) where
  Init s := s.node.group = .new cacheBytes ∧ (∀ f, s.node.flights f = .empty) ∧ s.clock = 0 ∧
    (∀ p, s.pc p = none) ∧ ∀ p, s.keys p = none
  Step := Step

/-- A goroutine of a `Set` waits for a peer whose error it could not log. -/
def State.Unlogged {P : Type} (s : State P) (p : P) (op : Op) (c : Client) : Prop :=
  op.flight = .set ∧ c.info.isSelf = false ∧ s.node.logger = false ∧
    ∃ since i todo flying errs,
      s.pc p = some ⟨op, since, .lead i (.broadcast todo flying errs)⟩ ∧ c ∈ flying

inductive ProcessLabel (P : Type)
  | step (l : Label P)
  | crash (p : P) (op : Op) (c : Client) (err : Err)
  | ended

/-- The process that the node runs in; `none` once it has ended. Without a Logger a goroutine of
`Set` whose peer call fails panics, and nothing recovers it. -/
inductive ProcessStep {P : Type} [DecidableEq P] :
    Option (State P) → ProcessLabel P → Option (State P) → Prop
  | step {s l t} (h : Step s l t) : ProcessStep (some s) (.step l) (some t)
  | crash {s p op c} (err : Err) (h : s.Unlogged p op c) :
      ProcessStep (some s) (.crash p op c err) none
  | ended : ProcessStep none .ended none

end Groupcache.Concurrent
