import Groupcache.Ownership

/-! `daemon.go` and `cluster/cluster.go`: the daemons of a managed cluster, who owns a key after
`StartWith` and `Restart`, and what a failed `StartWith` leaves. -/
namespace Groupcache.Managed

open Peer

/-- How a transport's `ListenAndServe` ends. -/
inductive ListenResult
  | ok (address : GoString)
  /-- An error, and nothing listens. -/
  | refused (err : Err)
  /-- An error after the server was started. -/
  | unreachable (address : GoString) (err : Err)

/-- `HttpTransport.ListenAndServe`, from the results of `net.Listen` and `waitForConnect`: the
server is started between the two. -/
def httpListenAndServe (listen : Except Err GoString) (waitForConnect : Option Err) :
    ListenResult :=
  match listen with
  | .error err => .refused (.wrap "while starting HTTP listener" err)
  | .ok address =>
    match waitForConnect with
    | some err => .unreachable address err
    | none => .ok address

/-- What the daemons are given by their surroundings, by the number of calls before. -/
structure Env where
  fnv1 : HashFn
  sort : ℕ → SortSlice
  newClient : ℕ → Info → Option Err
  listenAndServe : ℕ → GoString → ListenResult
  shutdown : ℕ → Option Err

def Env.peerEnv (env : Env) (n : ℕ) : PeerEnv :=
  { fnv1 := env.fnv1, sort := env.sort n, newClient := env.newClient n }

/-- The addresses that servers run on, and how many calls were made. -/
structure Host where
  serving : List GoString
  calls : ℕ

def Host.tick (h : Host) : Host := { h with calls := h.calls + 1 }

/-- `listener` is nil before the transport listens. -/
structure Daemon where
  address : GoString
  opts : Options
  inst : Instance
  listener : Option GoString

variable (env : Env)

namespace Daemon

/-- `ListenAddress` of a daemon that listens; it panics on a nil listener. -/
def listenAddress (d : Daemon) : GoString := d.listener.getD []

def start (h : Host) (d : Daemon) : Host × Daemon × Option Err :=
  let inst := Instance.new (env.peerEnv h.calls) d.opts
  match env.listenAndServe h.calls d.address with
  | .ok a =>
    ({ serving := a :: h.serving, calls := h.calls + 1 }, { d with inst, listener := some a }, none)
  | .refused err => (h.tick, { d with inst, listener := none }, some err)
  | .unreachable a err =>
    ({ serving := a :: h.serving, calls := h.calls + 1 }, { d with inst, listener := some a },
      some err)

/-- `ListenAndServe`. -/
def listenAndServe (h : Host) (address : GoString) (opts : Options) : Host × Daemon × Option Err :=
  start env h { address, opts, inst := .new (env.peerEnv h.calls) opts, listener := none }

/-- The list that `SetPeers` passes on: entries with this daemon's address are marked. -/
def markSelf (d : Daemon) (src : List Info) : List Info :=
  src.map fun p => if p.address = d.listenAddress then { p with isSelf := true } else p

def setPeers (n : ℕ) (d : Daemon) (src : List Info) : Daemon × Option Err :=
  match d.inst.setPeers (env.peerEnv n) (d.markSelf src) with
  | (inst, err) => ({ d with inst }, err)

/-- `Shutdown`: the listener is closed before the server waits for its connections, so also when
it fails. With a nil listener nothing runs that it could close. -/
def shutdown (h : Host) (d : Daemon) : Host × Option Err :=
  ({ serving := d.listener.elim h.serving h.serving.erase, calls := h.calls + 1 },
    env.shutdown h.calls)

end Daemon

/-- The variables of package `cluster`. -/
structure State where
  daemons : List Daemon
  peers : List Info
  host : Host

inductive StartErr
  | alreadyRunning
  | starting (address : GoString) (err : Err)
  | settingPeers (err : Err)

/-- The text of the error. -/
def StartErr.error : StartErr → GoString
  | alreadyRunning =>
    "StartWith: cluster already running; shutdown the previous cluster".toUTF8.toList
  | starting address err => "StartWith: while starting daemon for '".toUTF8.toList ++ address ++
      ("': " ++ err.message).toUTF8.toList
  | settingPeers err => ("StartWith: during SetPeers(): " ++ err.message).toUTF8.toList

/-- The first loop of `StartWith`. -/
def startLoop (opts : Options) (s : State) : List Info → State × Option StartErr
  | [] => (s, none)
  | p :: ps =>
    match Daemon.listenAndServe env s.host p.address opts with
    | (host, _, some err) => ({ s with host }, some (.starting p.address err))
    | (host, d, none) =>
      startLoop opts
        { daemons := s.daemons ++ [d]
          peers := s.peers ++ [{ address := d.listenAddress, isSelf := p.isSelf }]
          host } ps

/-- The second loop of `StartWith`. -/
def setPeersLoop (peers : List Info) (n : ℕ) : List Daemon → List Daemon × Option Err
  | [] => ([], none)
  | d :: ds =>
    match d.setPeers env n peers with
    | (d, some err) => (d :: ds, some err)
    | (d, none) =>
      match setPeersLoop peers (n + 1) ds with
      | (ds, err) => (d :: ds, err)

def startWith (opts : Options) (s : State) (peers : List Info) : State × Option StartErr :=
  if s.daemons.length ≠ 0 ∨ s.peers.length ≠ 0 then (s, some .alreadyRunning)
  else
    match startLoop env opts s peers with
    | (s, some err) => (s, some err)
    | (s, none) =>
      match setPeersLoop env s.peers s.host.calls s.daemons with
      | (daemons, err) =>
        ({ s with
            daemons
            host := { s.host with calls := s.host.calls + daemons.length } },
          err.map .settingPeers)

/-- The addresses of `Start`, from port 1111 on. -/
def localPeers (numInstances : ℕ) : List Info :=
  (List.range numInstances).map fun i =>
    { address := "localhost:".toUTF8.toList ++ itoa (1111 + i), isSelf := false }

def start (opts : Options) (s : State) (numInstances : ℕ) : State × Option StartErr :=
  startWith env opts s (localPeers numInstances)

/-- The loop of `Restart`. -/
def restartLoop (peers : List Info) : Host → List Daemon → Host × List Daemon × Option Err
  | h, [] => (h, [], none)
  | h, d :: ds =>
    match d.shutdown env h with
    | (h, some err) => (h, d :: ds, some err)
    | (h, none) =>
      match d.start env h with
      | (h, d, some err) => (h, d :: ds, some err)
      | (h, d, none) =>
        -- the error of `SetPeers` is dropped
        let d := { d with inst := (d.inst.setPeers (env.peerEnv h.calls) peers).1 }
        match restartLoop peers h.tick ds with
        | (h, ds, err) => (h, d :: ds, err)

def restart (s : State) : State × Option Err :=
  match restartLoop env s.peers s.host s.daemons with
  | (host, daemons, err) => ({ s with host, daemons }, err)

/-- The loop of `Shutdown`. -/
def shutdownLoop : Host → List Daemon → Host × Option Err
  | h, [] => (h, none)
  | h, d :: ds =>
    match d.shutdown env h with
    | (h, some err) => (h, some err)
    | (h, none) => shutdownLoop h ds

def shutdown (s : State) : State × Option Err :=
  match shutdownLoop env s.host s.daemons with
  | (host, some err) => ({ s with host }, some err)
  | (host, none) => ({ daemons := [], peers := [], host }, none)

/-- The position of the first daemon that listens on the address. The loop panics if there is none,
or if it meets a nil listener. -/
def findByAddress (address : GoString) : List Daemon → Option ℕ
  | [] => none
  | d :: ds =>
    match d.listener with
    | none => none
    | some a => if a = address then some 0 else (findByAddress address ds).map (· + 1)

/-- `FindOwningDaemon`, which panics without daemons; the result is the daemon's position. -/
def findOwningDaemon (daemons : List Daemon) (key : GoString) : Option ℕ :=
  match daemons with
  | [] => none
  | d :: _ =>
    match d.inst.pickPeer key with
    | (some c, true) => findByAddress c.info.address daemons
    | _ => some 0

section Start

variable {env : Env} {opts : Options} {s : State} {h h' : Host} {d : Daemon} {infos : List Info}

theorem listenAndServe_ok {address : GoString}
    (hr : Daemon.listenAndServe env h address opts = (h', d, none)) :
    ∃ a, d = ⟨address, opts, .new (env.peerEnv 0) opts, some a⟩ ∧
      h' = ⟨a :: h.serving, h.calls + 1⟩ := by
  unfold Daemon.listenAndServe Daemon.start at hr
  split at hr
  · rename_i a _
    simp only [Prod.mk.injEq, and_true] at hr
    exact ⟨a, hr.2.symm, hr.1.symm⟩
  · simp at hr
  · simp at hr

/-- A daemon that listens and has got no peers. -/
structure Fresh (env : Env) (opts : Options) (d : Daemon) : Prop where
  inst : d.inst = .new (env.peerEnv 0) opts
  listens : d.listener = some d.listenAddress

/-- The package's variables while `StartWith` starts the daemons of an unmarked list. -/
structure Started (env : Env) (opts : Options) (s : State) : Prop where
  fresh : ∀ d ∈ s.daemons, Fresh env opts d
  peers : s.peers = s.daemons.map fun d => { address := d.listenAddress, isSelf := false }

theorem Started.startLoop (hs : Started env opts s) (hun : ∀ p ∈ infos, p.isSelf = false) :
    Started env opts (startLoop env opts s infos).1 := by
  induction infos generalizing s with
  | nil => exact hs
  | cons p ps ih =>
    unfold Managed.startLoop
    split
    · exact ⟨hs.fresh, hs.peers⟩
    · rename_i host d hr
      obtain ⟨a, rfl, rfl⟩ := listenAndServe_ok hr
      refine ih ⟨?_, ?_⟩ fun q hq => hun q (List.mem_cons_of_mem p hq)
      · exact List.forall_mem_append.mpr
          ⟨hs.fresh, List.forall_mem_singleton.mpr ⟨rfl, rfl⟩⟩
      · simp [hs.peers, hun p List.mem_cons_self]

/-- A first loop that returns nil has started one daemon for each entry. -/
theorem startLoop_length (hnil : (startLoop env opts s infos).2 = none) :
    (startLoop env opts s infos).1.daemons.length = s.daemons.length + infos.length := by
  induction infos generalizing s with
  | nil => rfl
  | cons p ps ih =>
    unfold startLoop at hnil ⊢
    split at hnil
    · cases hnil
    · rename_i host d hr
      simp only [ih hnil, List.length_append, List.length_cons, List.length_nil]
      omega

/-- The second loop keeps the listeners. -/
theorem setPeersLoop_listeners (env : Env) (peers : List Info) (n : ℕ) (ds : List Daemon) :
    (setPeersLoop env peers n ds).1.map (·.listener) = ds.map (·.listener) := by
  induction ds generalizing n with
  | nil => rfl
  | cons d ds ih =>
    unfold setPeersLoop
    split
    · rename_i d' err hd
      obtain rfl : _ = d' := congrArg Prod.fst hd
      rfl
    · rename_i d' hd
      obtain rfl : _ = d' := congrArg Prod.fst hd
      exact congrArg (d.listener :: ·) (ih (n + 1))

theorem setPeersLoop_addresses (env : Env) (peers : List Info) (n : ℕ) (ds : List Daemon) :
    (setPeersLoop env peers n ds).1.map (·.listenAddress) = ds.map (·.listenAddress) := by
  have hmap := congrArg (List.map (·.getD [])) (setPeersLoop_listeners env peers n ds)
  rwa [List.map_map, List.map_map] at hmap

theorem setPeersLoop_length (env : Env) (peers : List Info) (n : ℕ) (ds : List Daemon) :
    (setPeersLoop env peers n ds).1.length = ds.length := by
  simpa using congrArg List.length (setPeersLoop_listeners env peers n ds)

/-- When the second loop returns nil, each daemon has made its own call of `SetPeers`. -/
theorem setPeersLoop_nil {peers : List Info} {n : ℕ} {ds : List Daemon}
    (hnil : (setPeersLoop env peers n ds).2 = none) :
    ∀ d' ∈ (setPeersLoop env peers n ds).1, ∃ d ∈ ds, ∃ m,
      (d.inst.setPeers (env.peerEnv m) (d.markSelf peers)).2 = none ∧
      d' = { d with inst := (d.inst.setPeers (env.peerEnv m) (d.markSelf peers)).1 } := by
  induction ds generalizing n with
  | nil => simp [setPeersLoop]
  | cons d ds ih =>
    unfold setPeersLoop at hnil ⊢
    split at hnil
    · cases hnil
    · rename_i d' hd
      refine List.forall_mem_cons.mpr ⟨⟨d, List.mem_cons_self, n, congrArg Prod.snd hd,
        (congrArg Prod.fst hd).symm⟩, fun e he => ?_⟩
      obtain ⟨e₀, he₀, hcall⟩ := ih hnil e he
      exact ⟨e₀, List.mem_cons_of_mem d he₀, hcall⟩

/-- Every daemon listens, and its ring was built from the addresses of all, with its own marked. -/
structure Ready (hashFn : HashFn) (replicas : ℤ) (ds : List Daemon) : Prop where
  listens : ∀ d ∈ ds, d.listener = some d.listenAddress
  installed : ∀ d ∈ ds,
    Installed hashFn replicas (memberPeers d.listenAddress (ds.map (·.listenAddress))) d.inst

theorem markSelf_unmarked (d : Daemon) (as : List GoString) :
    d.markSelf (as.map fun a => { address := a, isSelf := false }) =
      memberPeers d.listenAddress as := by
  simp only [Daemon.markSelf, memberPeers, List.map_map]
  refine List.map_congr_left fun a _ => ?_
  by_cases ha : a = d.listenAddress <;> simp [ha]

theorem Started.ready (hs : Started env opts s) {n : ℕ}
    (hnil : (setPeersLoop env s.peers n s.daemons).2 = none) :
    Ready (newPicker env.fnv1 opts).hashFn (newPicker env.fnv1 opts).replicas
      (setPeersLoop env s.peers n s.daemons).1 := by
  have hpeers : s.peers = (s.daemons.map (·.listenAddress)).map fun a => ⟨a, false⟩ := by
    rw [hs.peers, List.map_map]
    rfl
  constructor
  · intro d' hd'
    obtain ⟨d, hd, m, -, rfl⟩ := setPeersLoop_nil hnil d' hd'
    exact (hs.fresh d hd).listens
  · intro d' hd'
    obtain ⟨d, hd, m, hcall, rfl⟩ := setPeersLoop_nil hnil d' hd'
    rw [setPeersLoop_addresses]
    rw [hpeers, markSelf_unmarked, (hs.fresh d hd).inst] at hcall ⊢
    exact ⟨env.peerEnv m, .new (env.peerEnv 0) opts, rfl, rfl, hcall, rfl⟩

/-- `StartWith` from a state without a cluster. -/
theorem startWith_stopped (hds : s.daemons = []) (hps : s.peers = []) :
    startWith env opts s infos =
      match startLoop env opts s infos with
      | (s, some err) => (s, some err)
      | (s, none) =>
        ({ s with
            daemons := (setPeersLoop env s.peers s.host.calls s.daemons).1
            host := { s.host with
              calls := s.host.calls +
                (setPeersLoop env s.peers s.host.calls s.daemons).1.length } },
          (setPeersLoop env s.peers s.host.calls s.daemons).2.map .settingPeers) := by
  simp [startWith, hds, hps]

/-- A `StartWith` that returns nil has gone through both loops. -/
theorem startWith_nil (hnil : (startWith env opts s infos).2 = none) :
    s.daemons = [] ∧ s.peers = [] ∧ (startLoop env opts s infos).2 = none ∧
      ∃ n, (setPeersLoop env (startLoop env opts s infos).1.peers n
          (startLoop env opts s infos).1.daemons).2 = none ∧
        (startWith env opts s infos).1.daemons =
          (setPeersLoop env (startLoop env opts s infos).1.peers n
            (startLoop env opts s infos).1.daemons).1 ∧
        (startWith env opts s infos).1.peers = (startLoop env opts s infos).1.peers := by
  by_cases hempty : s.daemons.length ≠ 0 ∨ s.peers.length ≠ 0
  · rw [startWith, if_pos hempty] at hnil
    cases hnil
  · obtain ⟨hds, hps⟩ : s.daemons = [] ∧ s.peers = [] := by simpa using hempty
    rw [startWith_stopped hds hps] at hnil ⊢
    cases hloop : startLoop env opts s infos with
    | mk s' err =>
      cases err with
      | some err => simp [hloop] at hnil
      | none =>
        refine ⟨hds, hps, rfl, s'.host.calls, ?_, rfl, rfl⟩
        simpa [hloop] using hnil

/-- After `StartWith` has returned nil. -/
theorem startWith_ready (hun : ∀ p ∈ infos, p.isSelf = false)
    (hnil : (startWith env opts s infos).2 = none) :
    Ready (newPicker env.fnv1 opts).hashFn (newPicker env.fnv1 opts).replicas
        (startWith env opts s infos).1.daemons ∧
      (startWith env opts s infos).1.peers.map (·.address) =
        (startWith env opts s infos).1.daemons.map (·.listenAddress) ∧
      (∀ p ∈ (startWith env opts s infos).1.peers, p.isSelf = false) ∧
      (startWith env opts s infos).1.daemons.length = infos.length := by
  obtain ⟨hds, hps, hloop, n, hcalls, hdaemons, hpeers⟩ := startWith_nil hnil
  have hstarted : Started env opts (startLoop env opts s infos).1 :=
    Started.startLoop ⟨by simp [hds], by simp [hds, hps]⟩ hun
  rw [hdaemons, hpeers, setPeersLoop_addresses, setPeersLoop_length]
  refine ⟨hstarted.ready hcalls, ?_, ?_, ?_⟩
  · simp [hstarted.peers, Function.comp_def]
  · simp [hstarted.peers]
  · rw [startLoop_length hloop, hds, List.length_nil, Nat.zero_add]

end Start

section Owners

variable {env : Env} {opts : Options} {s s' : State} {ds : List Daemon} {hashFn : HashFn}
  {replicas : ℤ} {key : GoString}

/-- One daemon takes the key for its own, all daemons name its address, and `FindOwningDaemon`
returns it. -/
def OwnedOnce (ds : List Daemon) (key : GoString) : Prop :=
  ∃ n d, ds[n]? = some d ∧ findOwningDaemon ds key = some n ∧
    ∀ m d', ds[m]? = some d' → ((d'.inst.pickPeer key).2 = false ↔ m = n) ∧
      (d'.inst.pickPeer key).1.map (·.hashKey) = some d.listenAddress

/-- The two addresses share no ring point. -/
def Apart (hashFn : HashFn) (replicas : ℤ) (a b : GoString) : Prop :=
  ∀ i < replicas.toNat, ∀ j < replicas.toNat, pointHash hashFn i a ≠ pointHash hashFn j b

instance : Std.Symm (Apart hashFn replicas) :=
  ⟨fun _ _ h i hi j hj => (h j hj i hi).symm⟩

/-- No two of the peers share a ring point, wherever they stand in the list. -/
def PointsApart (hashFn : HashFn) (replicas : ℤ) (as : List GoString) : Prop :=
  as.Pairwise (Apart hashFn replicas)

theorem PointsApart.noSharedPoint {as : List GoString} (h : PointsApart hashFn replicas as) :
    NoSharedPoint hashFn replicas (· ∈ as) := by
  intro a b ha hb i hi j hj heq
  by_contra hne
  exact h.forall ha hb hne i hi j hj heq

theorem PointsApart.nodup {as : List GoString} (h : PointsApart hashFn replicas as)
    (hr : 0 < replicas) : as.Nodup := by
  refine List.Pairwise.imp (fun {a b} hab heq => ?_) h
  subst heq
  exact hab 0 (by omega) 0 (by omega) rfl

theorem findByAddress_of_nodup (hlistens : ∀ d ∈ ds, d.listener = some d.listenAddress)
    (hnd : (ds.map (·.listenAddress)).Nodup) {n : ℕ} {d : Daemon} (hn : ds[n]? = some d) :
    findByAddress d.listenAddress ds = some n := by
  induction ds generalizing n with
  | nil => simp at hn
  | cons e ds ih =>
    simp only [List.map_cons, List.nodup_cons, List.mem_map, not_exists, not_and] at hnd
    rw [findByAddress, hlistens e List.mem_cons_self]
    cases n with
    | zero =>
      obtain rfl : e = d := by simpa using hn
      simp
    | succ n =>
      have hn' : ds[n]? = some d := by simpa using hn
      have hne : e.listenAddress ≠ d.listenAddress :=
        fun heq => hnd.1 d (List.mem_of_getElem? hn') heq.symm
      have hrest := ih (fun d hd => hlistens d (List.mem_cons_of_mem e hd)) hnd.2 hn'
      simp [hne, hrest]

/-- All daemons name one address of the list, and take the key for their own if it is theirs. -/
theorem Ready.agree (h : Ready hashFn replicas ds) (hr : 0 < replicas) (hne : ds ≠ [])
    (hs : NoSharedPoint hashFn replicas (· ∈ ds.map (·.listenAddress))) (key : GoString) :
    ∃ owner ∈ ds, ∀ d ∈ ds,
      (d.inst.pickPeer key).1.map (·.hashKey) = some owner.listenAddress ∧
      ((d.inst.pickPeer key).2 = false ↔ owner.listenAddress = d.listenAddress) := by
  obtain ⟨d₀, hd₀⟩ := List.exists_mem_of_ne_nil ds hne
  obtain ⟨a, i, -, -, hfirst⟩ := (h.installed d₀ hd₀).member_first hr key
  obtain ⟨owner, howner, rfl⟩ := List.mem_map.mp hfirst.mem
  refine ⟨owner, howner, fun d hd => ?_⟩
  obtain ⟨b, j, hname, hlocal, hfirst'⟩ := (h.installed d hd).member_first hr key
  obtain rfl : owner.listenAddress = b := hfirst.unique hs hfirst' (.refl _)
  exact ⟨hname, hlocal⟩

theorem listenAddress_eq_iff (hnd : (ds.map (·.listenAddress)).Nodup) {m n : ℕ} {d d' : Daemon}
    (hm : ds[m]? = some d) (hn : ds[n]? = some d') :
    d'.listenAddress = d.listenAddress ↔ m = n := by
  constructor
  · intro heq
    have hidx : (ds.map (·.listenAddress))[m]? = (ds.map (·.listenAddress))[n]? := by
      simp [hm, hn, heq]
    have hlt : m < (ds.map (·.listenAddress)).length := by
      simpa using (List.getElem?_eq_some_iff.mp hm).1
    exact (List.getElem?_inj hlt hnd).mp hidx
  · rintro rfl
    exact congrArg Daemon.listenAddress (Option.some.inj (hn.symm.trans hm))

/-- The first daemon answers for all. -/
theorem findOwningDaemon_eq (hlistens : ∀ d ∈ ds, d.listener = some d.listenAddress)
    (hnd : (ds.map (·.listenAddress)).Nodup) {n : ℕ} {d owner : Daemon} (hd : ds[0]? = some d)
    (hn : ds[n]? = some owner) (hlocal : (d.inst.pickPeer key).2 = false ↔ 0 = n)
    (hname : (d.inst.pickPeer key).1.map (·.hashKey) = some owner.listenAddress) :
    findOwningDaemon ds key = some n := by
  cases ds with
  | nil => cases hd
  | cons d₀ rest =>
    obtain rfl : d₀ = d := by simpa using hd
    cases hpick : d₀.inst.pickPeer key with
    | mk c isRemote =>
      rw [hpick] at hname hlocal
      cases isRemote with
      | false => simp [findOwningDaemon, hpick, ← hlocal.mp rfl]
      | true =>
        obtain ⟨c, rfl, hc⟩ := Option.map_eq_some_iff.mp hname
        have haddress : c.info.address = owner.listenAddress := hc
        simp only [findOwningDaemon, hpick, haddress]
        exact findByAddress_of_nodup hlistens hnd hn

/-- Daemons with such rings have one owner for every key. -/
theorem Ready.ownedOnce (h : Ready hashFn replicas ds) (hr : 0 < replicas) (hne : ds ≠ [])
    (hapart : PointsApart hashFn replicas (ds.map (·.listenAddress))) (key : GoString) :
    OwnedOnce ds key := by
  have hnd := hapart.nodup hr
  obtain ⟨owner, howner, hall⟩ := h.agree hr hne hapart.noSharedPoint key
  obtain ⟨n, hn⟩ := List.mem_iff_getElem?.mp howner
  have hlocal : ∀ m d, ds[m]? = some d → ((d.inst.pickPeer key).2 = false ↔ m = n) := by
    intro m d hm
    rw [(hall d (List.mem_of_getElem? hm)).2, listenAddress_eq_iff hnd hm hn]
  have hname : ∀ m (d : Daemon), ds[m]? = some d →
      (d.inst.pickPeer key).1.map (·.hashKey) = some owner.listenAddress :=
    fun m d hm => (hall d (List.mem_of_getElem? hm)).1
  obtain ⟨d, hd⟩ : ∃ d, ds[0]? = some d := by
    obtain ⟨d, rest, rfl⟩ := List.exists_cons_of_ne_nil hne
    exact ⟨d, rfl⟩
  exact ⟨n, owner, hn, findOwningDaemon_eq h.listens hnd hd hn (hlocal 0 d hd) (hname 0 d hd),
    fun m d hm => ⟨hlocal m d hm, hname m d hm⟩⟩

/-- A daemon without a ring takes every key for its own and names nobody. -/
def Ringless (d : Daemon) : Prop := ∀ key, d.inst.pickPeer key = (none, false)

theorem Ringless.not_ownedOnce {d : Daemon} (hd : d ∈ ds) (h : Ringless d) :
    ¬ OwnedOnce ds key := by
  rintro ⟨_, _, _, _, hall⟩
  obtain ⟨m, hm⟩ := List.mem_iff_getElem?.mp hd
  simpa [h key] using (hall m d hm).2

theorem start_ringless {h h' : Host} {d d' : Daemon} (hr : d.start env h = (h', d', none)) :
    Ringless d' := by
  unfold Daemon.start at hr
  split at hr
  · simp only [Prod.mk.injEq, and_true] at hr
    obtain ⟨-, rfl⟩ := hr
    exact fun key => Instance.pickPeer_new d.opts key
  · simp at hr
  · simp at hr

/-- `Restart` gives every daemon a new instance, and `SetPeers` fails on it because the stored list
has no self entry. -/
theorem restartLoop_ringless {peers : List Info} (hun : ∀ p ∈ peers, p.isSelf = false) {h : Host}
    (hnil : (restartLoop env peers h ds).2.2 = none) :
    (restartLoop env peers h ds).2.1.length = ds.length ∧
      ∀ d ∈ (restartLoop env peers h ds).2.1, Ringless d := by
  induction ds generalizing h with
  | nil => simp [restartLoop]
  | cons d ds ih =>
    unfold restartLoop at hnil ⊢
    split at hnil
    · cases hnil
    · split at hnil
      · cases hnil
      · rename_i h₂ d₂ hstart
        obtain ⟨hlength, hrest⟩ := ih hnil
        refine ⟨congrArg (· + 1) hlength, List.forall_mem_cons.mpr ⟨fun key => ?_, hrest⟩⟩
        simp only [Instance.setPeers_unmarked hun]
        exact start_ringless hstart key

/-- So many calls of `Restart` that return nil and bring the daemons back to their addresses. -/
inductive Restarts (env : Env) : ℕ → State → State → Prop
  | zero (s : State) : Restarts env 0 s s
  | succ {k : ℕ} {s s' : State} : Restarts env k s s' → (restart env s').2 = none →
      (restart env s').1.daemons.map (·.listenAddress) = s'.daemons.map (·.listenAddress) →
      Restarts env (k + 1) s (restart env s').1

theorem Restarts.invariant {k : ℕ} (h : Restarts env k s s')
    (hun : ∀ p ∈ s.peers, p.isSelf = false) :
    s'.peers = s.peers ∧ s'.daemons.length = s.daemons.length ∧
      (k ≠ 0 → ∀ d ∈ s'.daemons, Ringless d) := by
  induction h with
  | zero => exact ⟨rfl, rfl, fun h => (h rfl).elim⟩
  | @succ k s s' _ hnil _ ih =>
    obtain ⟨hpeers, hlength, -⟩ := ih hun
    obtain ⟨hlength', hall⟩ := restartLoop_ringless (hpeers ▸ hun) hnil
    exact ⟨hpeers, hlength'.trans hlength, fun _ => hall⟩

/-- Without replicas in the options there are 50. -/
theorem newPicker_replicas_pos (fnv1 : HashFn) (opts : Options) :
    0 < (newPicker fnv1 opts).replicas ↔ 0 ≤ opts.replicas := by
  simp only [newPicker, defaultReplicas]
  split <;> omega

/-- Every key has one owner after `StartWith` and some restarts exactly when there was no restart,
the list is not empty and the replicas are not negative. -/
theorem owned_once_iff (env : Env) (opts : Options) (s : State) (infos : List Info)
    (hun : ∀ p ∈ infos, p.isSelf = false) (hnil : (startWith env opts s infos).2 = none)
    {k : ℕ} {s' : State} (hrestarts : Restarts env k (startWith env opts s infos).1 s')
    (hapart : PointsApart (newPicker env.fnv1 opts).hashFn (newPicker env.fnv1 opts).replicas
      (s'.peers.map (·.address))) :
    (∀ key, OwnedOnce s'.daemons key) ↔ k = 0 ∧ infos ≠ [] ∧ 0 ≤ opts.replicas := by
  obtain ⟨hready, haddresses, hunmarked, hlength⟩ := startWith_ready hun hnil
  obtain ⟨hpeers, hlength', hringless⟩ := hrestarts.invariant hunmarked
  have hempty : s'.daemons = [] ↔ infos = [] := by
    rw [← List.length_eq_zero_iff, hlength', hlength, List.length_eq_zero_iff]
  constructor
  · intro hall
    have hne : s'.daemons ≠ [] := by
      obtain ⟨n, d, hn, -⟩ := hall []
      exact List.ne_nil_of_mem (List.mem_of_getElem? hn)
    obtain ⟨d, hd⟩ := List.exists_mem_of_ne_nil _ hne
    have hzero : k = 0 := by
      by_contra hk
      exact (hringless hk d hd).not_ownedOnce hd (hall [])
    refine ⟨hzero, fun h => hne (hempty.mpr h), ?_⟩
    by_contra hneg
    subst hzero
    cases hrestarts
    have hreplicas := not_lt.mp (mt (newPicker_replicas_pos env.fnv1 opts).mp hneg)
    have hd' : Ringless d := (hready.installed d hd).pickPeer_empty hreplicas
    exact hd'.not_ownedOnce hd (hall [])
  · rintro ⟨rfl, hne, hreplicas⟩ key
    cases hrestarts
    have hpos := (newPicker_replicas_pos env.fnv1 opts).mpr hreplicas
    rw [haddresses] at hapart
    exact hready.ownedOnce hpos (fun h => hne (hempty.mp h)) hapart key

/-- A host where every address can be listened on, and nothing fails. -/
def quietEnv : Env where
  fnv1 := digestHash
  sort := fun _ => hashSort
  newClient := fun _ _ => none
  listenAndServe := fun _ address => httpListenAndServe (.ok address) none
  shutdown := fun _ => none

/-- No cluster. -/
def stopped : State := { daemons := [], peers := [], host := { serving := [], calls := 0 } }

def twoHosts : List Info := [⟨hostA, false⟩, ⟨hostB, false⟩]

theorem owned_once_hosts :
    OwnedOnce (startWith quietEnv ⟨none, 1⟩ stopped twoHosts).1.daemons hostB := by
  have hne : hostA ≠ hostB := by decide
  have hapart : Apart digestHash 1 hostA hostB := fun i hi j hj heq =>
    hne (hosts_noSharedPoint hostA hostB (by simp) (by simp) i hi j hj heq)
  exact (owned_once_iff quietEnv ⟨none, 1⟩ stopped twoHosts (by decide) rfl (.zero _)
    (List.pairwise_pair.mpr hapart)).mpr ⟨rfl, by decide, by decide⟩ hostB

def restartedHosts : State :=
  (restart quietEnv (startWith quietEnv ⟨none, 1⟩ stopped twoHosts).1).1

/-- After one restart both daemons take every key for their own. -/
theorem restart_loses_owner :
    (startWith quietEnv ⟨none, 1⟩ stopped twoHosts).2 = none ∧
      (restart quietEnv (startWith quietEnv ⟨none, 1⟩ stopped twoHosts).1).2 = none ∧
      restartedHosts.daemons.map (·.listener) = [some hostA, some hostB] ∧
      ∀ key, restartedHosts.daemons.map (fun d => d.inst.pickPeer key) =
          [(none, false), (none, false)] ∧
        ¬ OwnedOnce restartedHosts.daemons key := by
  refine ⟨rfl, rfl, rfl, fun key => ?_⟩
  have hpicks : restartedHosts.daemons.map (fun d => d.inst.pickPeer key) =
      [(none, false), (none, false)] := rfl
  refine ⟨hpicks, ?_⟩
  rintro ⟨n, d, hn, -, hall⟩
  have hmem := List.mem_map_of_mem (f := fun d : Daemon => d.inst.pickPeer key)
    (List.mem_of_getElem? hn)
  have hd : d.inst.pickPeer key = (none, false) := by simpa [hpicks] using hmem
  simpa [hd] using (hall n d hn).2

end Owners

section Failures

variable {env : Env} {opts : Options} {s : State} {infos : List Info}

theorem startLoop_ne_alreadyRunning : (startLoop env opts s infos).2 ≠ some .alreadyRunning := by
  induction infos generalizing s with
  | nil => simp [startLoop]
  | cons p ps ih =>
    unfold startLoop
    split
    · simp
    · exact ih

theorem startWith_ne_alreadyRunning (hds : s.daemons = []) (hps : s.peers = []) :
    (startWith env opts s infos).2 ≠ some .alreadyRunning := by
  rw [startWith_stopped hds hps]
  split
  · rename_i s' err hr
    have hloop : (startLoop env opts s infos).2 ≠ some .alreadyRunning :=
      startLoop_ne_alreadyRunning
    rwa [hr] at hloop
  · simp

/-- The loop keeps the daemons it was given. -/
theorem startLoop_length_le :
    s.daemons.length ≤ (startLoop env opts s infos).1.daemons.length := by
  induction infos generalizing s with
  | nil => exact le_rfl
  | cons p ps ih =>
    unfold startLoop
    split
    · exact le_rfl
    · refine le_trans ?_ ih
      simp

/-- Once a daemon was started, one is left. -/
theorem startWith_length_le (hds : s.daemons = []) (hps : s.peers = []) :
    (startLoop env opts s infos).1.daemons.length ≤
      (startWith env opts s infos).1.daemons.length := by
  rw [startWith_stopped hds hps]
  split
  · rename_i hr
    rw [hr]
  · rename_i hr
    rw [hr]
    exact (setPeersLoop_length env _ _ _).ge

/-- Nothing is left of a call of `StartWith`. -/
structure LeavesNothing (before after : State) : Prop where
  daemons : after.daemons = []
  peers : after.peers = []
  serving : after.host.serving = before.host.serving
  retry : ∀ (env : Env) opts infos, (startWith env opts after infos).2 ≠ some .alreadyRunning

/-- A failed `StartWith` leaves nothing exactly when the first listener was refused. -/
theorem leaves_nothing_iff (env : Env) (opts : Options) (s : State) (infos : List Info)
    (hds : s.daemons = []) (hps : s.peers = []) {err : StartErr}
    (hfailed : (startWith env opts s infos).2 = some err) :
    LeavesNothing s (startWith env opts s infos).1 ↔
      ∃ p ps e, infos = p :: ps ∧ env.listenAndServe s.host.calls p.address = .refused e := by
  cases infos with
  | nil => simp [startWith_stopped hds hps, startLoop, hds, setPeersLoop] at hfailed
  | cons p ps =>
    cases hlisten : env.listenAndServe s.host.calls p.address with
    | refused e =>
      have hloop : startLoop env opts s (p :: ps) =
          ({ s with host := s.host.tick }, some (.starting p.address e)) := by
        simp [startLoop, Daemon.listenAndServe, Daemon.start, hlisten]
      refine iff_of_true ?_ ⟨p, ps, e, rfl, hlisten⟩
      rw [startWith_stopped hds hps, hloop]
      exact ⟨hds, hps, rfl, fun _ _ _ => startWith_ne_alreadyRunning hds hps⟩
    | unreachable a e =>
      have hloop : startLoop env opts s (p :: ps) =
          ({ s with host := ⟨a :: s.host.serving, s.host.calls + 1⟩ },
            some (.starting p.address e)) := by
        simp [startLoop, Daemon.listenAndServe, Daemon.start, hlisten]
      refine iff_of_false (fun hleft => ?_) (by simp [hlisten])
      have hserving := hleft.serving
      simp [startWith_stopped hds hps, hloop] at hserving
    | ok a =>
      refine iff_of_false (fun hleft => ?_) (by simp [hlisten])
      have hloop : 1 ≤ (startLoop env opts s (p :: ps)).1.daemons.length := by
        simp only [startLoop, Daemon.listenAndServe, Daemon.start, hlisten]
        refine le_trans ?_ startLoop_length_le
        simp
      have hle := hloop.trans (startWith_length_le hds hps)
      simp [hleft.daemons] at hle

/-- A host that refuses the second address. -/
def busyEnv : Env :=
  { quietEnv with
    listenAndServe := fun _ address =>
      httpListenAndServe (if address = hostB then .error (.other "address already in use")
        else .ok address) none }

/-- Nothing is left of a list that starts with the refused address. -/
theorem leaves_nothing_refused :
    LeavesNothing stopped (startWith busyEnv ⟨none, 1⟩ stopped [⟨hostB, false⟩]).1 :=
  (leaves_nothing_iff busyEnv ⟨none, 1⟩ stopped [⟨hostB, false⟩] rfl rfl rfl).mpr
    ⟨_, _, _, rfl, rfl⟩

/-- The first daemon still serves, and the next call is rejected. -/
theorem startWith_leaves_daemon :
    (∃ e, (startWith busyEnv ⟨none, 1⟩ stopped twoHosts).2 = some (.starting hostB e)) ∧
      (startWith busyEnv ⟨none, 1⟩ stopped twoHosts).1.daemons.length = 1 ∧
      (startWith busyEnv ⟨none, 1⟩ stopped twoHosts).1.peers = [⟨hostA, false⟩] ∧
      (startWith busyEnv ⟨none, 1⟩ stopped twoHosts).1.host.serving = [hostA] ∧
      (startWith quietEnv ⟨none, 1⟩ (startWith busyEnv ⟨none, 1⟩ stopped twoHosts).1
        twoHosts).2 = some .alreadyRunning ∧
      ¬ LeavesNothing stopped (startWith busyEnv ⟨none, 1⟩ stopped twoHosts).1 :=
  ⟨⟨_, rfl⟩, rfl, rfl, rfl, rfl, fun h => Nat.one_ne_zero (congrArg List.length h.daemons)⟩

end Failures

end Groupcache.Managed
