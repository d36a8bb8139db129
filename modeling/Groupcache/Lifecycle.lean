import Groupcache.Lib.Run
import Groupcache.ManagedCluster

/-! Whole lives of a managed cluster: over any calls of `Start`, `StartWith`, `Restart` and
`Shutdown`, which of its servers run, and which of them nobody can stop any more. -/
namespace Groupcache.Managed

open Peer

variable {env : Env} {h : Host} {d : Daemon} {ds : List Daemon} {rest : List GoString}
  {peers infos : List Info} {opts : Options} {s : State}

/-- The addresses of the daemons that have a listener. -/
def addresses (ds : List Daemon) : List GoString := ds.filterMap (·.listener)

theorem addresses_cons (d : Daemon) (ds : List Daemon) :
    addresses (d :: ds) = d.listener.toList ++ addresses ds := by
  cases hd : d.listener <;> simp [addresses, hd]

theorem addresses_setPeersLoop (n : ℕ) :
    addresses (setPeersLoop env peers n ds).1 = addresses ds := by
  have hmap := congrArg (List.filterMap id) (setPeersLoop_listeners env peers n ds)
  rwa [List.filterMap_map, List.filterMap_map] at hmap

/-- A start adds the server that the daemon listens with, also when it fails. -/
theorem serving_start (env : Env) (h : Host) (d : Daemon) :
    (d.start env h).1.serving = (d.start env h).2.1.listener.toList ++ h.serving := by
  unfold Daemon.start
  split <;> rfl

/-- Servers that run are those of listed daemons or among `rest`. -/
def Accounted (h : Host) (ds : List Daemon) (rest : List GoString) : Prop :=
  h.serving.Subperm (addresses ds ++ rest)

/-- All of them run. -/
def AllRun (h : Host) (ds : List Daemon) (rest : List GoString) : Prop :=
  h.serving.Perm (addresses ds ++ rest)

theorem Accounted.stop (hs : Accounted h (d :: ds) rest) (env : Env) :
    Accounted (d.shutdown env h).1 ds rest := by
  rw [Accounted, addresses_cons] at hs
  cases hd : d.listener with
  | none => simpa [Accounted, Daemon.shutdown, hd] using hs
  | some a => simpa [Accounted, Daemon.shutdown, hd] using hs.erase a

theorem AllRun.stop (hs : AllRun h (d :: ds) rest) (env : Env) :
    AllRun (d.shutdown env h).1 ds rest := by
  rw [AllRun, addresses_cons] at hs
  cases hd : d.listener with
  | none => simpa [AllRun, Daemon.shutdown, hd] using hs
  | some a => simpa [AllRun, Daemon.shutdown, hd] using hs.erase a

theorem Accounted.cons (hs : Accounted h ds rest) (d : Daemon) : Accounted h (d :: ds) rest := by
  rw [Accounted, addresses_cons, List.append_assoc]
  exact hs.trans (List.sublist_append_right _ _).subperm

/-- The daemon is listed whether its start failed or not. -/
theorem Accounted.start (hs : Accounted h ds rest) (env : Env) (d : Daemon) :
    Accounted (d.start env h).1 ((d.start env h).2.1 :: ds) rest := by
  rw [Accounted, addresses_cons, serving_start, List.append_assoc]
  exact (List.subperm_append_left _).mpr hs

theorem AllRun.start (hs : AllRun h ds rest) (env : Env) (d : Daemon) :
    AllRun (d.start env h).1 ((d.start env h).2.1 :: ds) rest := by
  rw [AllRun, addresses_cons, serving_start, List.append_assoc]
  exact List.Perm.append_left _ hs

theorem addresses_perm (d : Daemon) (ds : List Daemon) (rest : List GoString) :
    (addresses (d :: ds) ++ rest).Perm (addresses ds ++ (d.listener.toList ++ rest)) := by
  rw [addresses_cons, List.append_assoc]
  exact List.perm_append_comm_assoc _ _ _

theorem accounted_cons_iff : Accounted h (d :: ds) rest ↔
    Accounted h ds (d.listener.toList ++ rest) :=
  (addresses_perm d ds rest).subperm_left

theorem allRun_cons_iff : AllRun h (d :: ds) rest ↔ AllRun h ds (d.listener.toList ++ rest) :=
  (addresses_perm d ds rest).congr_right _

theorem addresses_concat (ds : List Daemon) (d : Daemon) (rest : List GoString) :
    (addresses (d :: ds) ++ rest).Perm (addresses (ds ++ [d]) ++ rest) :=
  ((List.perm_append_singleton d ds).symm.filterMap _).append_right rest

theorem Accounted.concat (hs : Accounted h (d :: ds) rest) : Accounted h (ds ++ [d]) rest :=
  hs.trans (addresses_concat ds d rest).subperm

theorem AllRun.concat (hs : AllRun h (d :: ds) rest) : AllRun h (ds ++ [d]) rest :=
  hs.trans (addresses_concat ds d rest)

/-- `Restart` loses track of no server. -/
theorem Accounted.restartLoop (hs : Accounted h ds rest) (env : Env) (peers : List Info) :
    Accounted (restartLoop env peers h ds).1 (restartLoop env peers h ds).2.1 rest := by
  induction ds generalizing h rest with
  | nil => exact hs
  | cons d ds ih =>
    have hstop := hs.stop env
    unfold Managed.restartLoop
    split
    · rename_i hd
      rw [hd] at hstop
      exact hstop.cons d
    · rename_i h₁ hd
      rw [hd] at hstop
      have hstart := hstop.start env d
      split
      · rename_i hd
        rw [hd] at hstart
        exact hstart
      · rename_i h₂ d₂ hd
        rw [hd] at hstart
        have hrest : Accounted h₂.tick ds (d₂.listener.toList ++ rest) :=
          accounted_cons_iff.mp hstart
        exact accounted_cons_iff.mpr (ih hrest)

theorem AllRun.restartLoop (hs : AllRun h ds rest)
    (hnil : (restartLoop env peers h ds).2.2 = none) :
    AllRun (restartLoop env peers h ds).1 (restartLoop env peers h ds).2.1 rest := by
  induction ds generalizing h rest with
  | nil => exact hs
  | cons d ds ih =>
    have hstop := hs.stop env
    unfold Managed.restartLoop at hnil ⊢
    split at hnil
    · cases hnil
    · rename_i h₁ hd
      rw [hd] at hstop
      split at hnil
      · cases hnil
      · rename_i h₂ d₂ hd
        have hstart := hstop.start env d
        rw [hd] at hstart
        have hrest : AllRun h₂.tick ds (d₂.listener.toList ++ rest) := allRun_cons_iff.mp hstart
        exact allRun_cons_iff.mpr (ih hrest hnil)

/-- `Shutdown` stops the listed daemons, and stops at the first that fails. -/
theorem Accounted.shutdownLoop (hs : Accounted h ds rest) (env : Env) :
    Accounted (shutdownLoop env h ds).1 ds rest ∧
      ((shutdownLoop env h ds).2 = none → Accounted (shutdownLoop env h ds).1 [] rest) := by
  induction ds generalizing h with
  | nil => exact ⟨hs, fun _ => hs⟩
  | cons d ds ih =>
    have hstop := hs.stop env
    unfold Managed.shutdownLoop
    split
    · rename_i hd
      rw [hd] at hstop
      exact ⟨hstop.cons d, nofun⟩
    · rename_i hd
      rw [hd] at hstop
      exact ⟨(ih hstop).1.cons d, (ih hstop).2⟩

/-- The first loop of `StartWith` loses track of the server it started last, if any, when it
fails. -/
theorem Accounted.startLoop (hs : Accounted s.host s.daemons rest) (env : Env) (opts : Options)
    (infos : List Info) :
    ∃ lost, lost.length ≤ (startLoop env opts s infos).2.toList.length ∧
      Accounted (startLoop env opts s infos).1.host (startLoop env opts s infos).1.daemons
        (lost ++ rest) := by
  induction infos generalizing s with
  | nil => exact ⟨[], Nat.zero_le _, hs⟩
  | cons p ps ih =>
    have hstart := hs.start env
      ⟨p.address, opts, .new (env.peerEnv s.host.calls) opts, none⟩
    unfold Managed.startLoop
    split
    · rename_i d _ hd
      rw [← Daemon.listenAndServe, hd] at hstart
      exact ⟨d.listener.toList, Option.length_toList_le, accounted_cons_iff.mp hstart⟩
    · rename_i d hd
      rw [← Daemon.listenAndServe, hd] at hstart
      exact ih hstart.concat

theorem AllRun.startLoop (hs : AllRun s.host s.daemons rest)
    (hnil : (startLoop env opts s infos).2 = none) :
    AllRun (startLoop env opts s infos).1.host (startLoop env opts s infos).1.daemons rest := by
  induction infos generalizing s with
  | nil => exact hs
  | cons p ps ih =>
    unfold Managed.startLoop at hnil ⊢
    split at hnil
    · cases hnil
    · rename_i host d hd
      have hstart := hs.start env
        ⟨p.address, opts, .new (env.peerEnv s.host.calls) opts, none⟩
      rw [← Daemon.listenAndServe, hd] at hstart
      exact ih hstart.concat hnil

theorem startLoop_starting {e : StartErr} (he : (startLoop env opts s infos).2 = some e) :
    ∃ a err, e = .starting a err := by
  induction infos generalizing s with
  | nil => cases he
  | cons p ps ih =>
    unfold startLoop at he
    split at he
    · cases he
      exact ⟨_, _, rfl⟩
    · exact ih he

/-- A call of a function of package `cluster`. -/
inductive Call
  | start (opts : Options) (numInstances : ℕ)
  | startWith (opts : Options) (infos : List Info)
  | restart
  | shutdown

/-- The error it returns, if any. -/
inductive Reply
  | started (err : Option StartErr)
  | ended (err : Option Err)

def perform (env : Env) (s : State) : Call → State × Reply
  | .start opts numInstances =>
    ((start env opts s numInstances).1, .started (start env opts s numInstances).2)
  | .startWith opts infos =>
    ((startWith env opts s infos).1, .started (startWith env opts s infos).2)
  | .restart => ((restart env s).1, .ended (restart env s).2)
  | .shutdown => ((shutdown env s).1, .ended (shutdown env s).2)

/-- Calls from a program in which no cluster was started yet. -/
def lifecycleLTS (env : Env) : Lib.LTS State (Call × Reply) where
  Init s := s.daemons = [] ∧ s.peers = [] ∧ s.host.serving = []
  Step s l s' := perform env s l.1 = (s', l.2)

/-- `StartWith` could not start one of the daemons. -/
def failedStart : Call × Reply → Bool
  | (_, .started (some (.starting _ _))) => true
  | _ => false

def succeeded : Call × Reply → Bool
  | (_, .started none) | (_, .ended none) => true
  | _ => false

/-- A `StartWith` that could not start a daemon may have lost one server, and no other call. -/
theorem Accounted.startWith (hs : Accounted s.host s.daemons rest) (env : Env) (opts : Options)
    (infos : List Info) (c : Call) :
    ∃ lost, lost.length ≤ (failedStart (c, .started (startWith env opts s infos).2)).toNat ∧
      Accounted (startWith env opts s infos).1.host (startWith env opts s infos).1.daemons
        (lost ++ rest) := by
  unfold Managed.startWith
  split
  · exact ⟨[], Nat.zero_le _, hs⟩
  · obtain ⟨lost, hlost, hloop⟩ := hs.startLoop env opts infos
    split
    · rename_i e he
      rw [he] at hlost hloop
      obtain ⟨a, err, rfl⟩ := startLoop_starting (congrArg Prod.snd he)
      exact ⟨lost, hlost, hloop⟩
    · rename_i s' he
      rw [he] at hlost hloop
      refine ⟨lost, hlost.trans (Nat.zero_le _), ?_⟩
      rwa [Accounted, addresses_setPeersLoop]

theorem AllRun.startWith (hs : AllRun s.host s.daemons rest)
    (hnil : (startWith env opts s infos).2 = none) :
    AllRun (startWith env opts s infos).1.host (startWith env opts s infos).1.daemons rest := by
  obtain ⟨hds, hps, hloop, -⟩ := startWith_nil hnil
  have hrun := hs.startLoop hloop
  rw [startWith_stopped hds hps]
  split
  · rename_i he
    rw [he] at hloop
    cases hloop
  · rename_i he
    rw [he] at hrun
    rwa [AllRun, addresses_setPeersLoop]

theorem Accounted.shutdown (hs : Accounted s.host s.daemons rest) (env : Env) :
    Accounted (shutdown env s).1.host (shutdown env s).1.daemons rest ∧
      ((shutdown env s).2 = none → (shutdown env s).1.daemons = [] ∧
        (shutdown env s).1.host.serving.Subperm rest) := by
  obtain ⟨hall, hnil⟩ := hs.shutdownLoop env
  unfold Managed.shutdown
  split
  · rename_i hloop
    rw [hloop] at hall
    exact ⟨hall, nofun⟩
  · rename_i hloop
    rw [hloop] at hnil
    exact ⟨hnil rfl, fun _ => ⟨rfl, hnil rfl⟩⟩

/-- Where the servers of a state come from, after these calls. -/
structure Tracked (ls : List (Call × Reply)) (s : State) : Prop where
  accounted : ∃ lost, lost.length ≤ ls.countP failedStart ∧ Accounted s.host s.daemons lost
  allRun : (∀ l ∈ ls, succeeded l = true) → AllRun s.host s.daemons []

theorem perform_accounted {c : Call} {r : Reply} {s' : State}
    (hstep : perform env s c = (s', r)) (hs : Accounted s.host s.daemons rest) :
    ∃ lost, lost.length ≤ (failedStart (c, r)).toNat ∧
      Accounted s'.host s'.daemons (lost ++ rest) := by
  cases c with
  | start opts numInstances =>
    cases hstep
    exact hs.startWith env opts (localPeers numInstances) _
  | startWith opts infos =>
    cases hstep
    exact hs.startWith env opts infos _
  | restart =>
    cases hstep
    exact ⟨[], Nat.zero_le _, hs.restartLoop env s.peers⟩
  | shutdown =>
    cases hstep
    exact ⟨[], Nat.zero_le _, (hs.shutdown env).1⟩

theorem perform_allRun {c : Call} {r : Reply} {s' : State} (hstep : perform env s c = (s', r))
    (hok : succeeded (c, r) = true) (hs : AllRun s.host s.daemons []) :
    AllRun s'.host s'.daemons [] := by
  cases c with
  | start opts numInstances =>
    cases hstep
    refine hs.startWith ?_
    cases he : (startWith env opts s (localPeers numInstances)).2 with
    | none => rfl
    | some e => simp [start, he, succeeded] at hok
  | startWith opts infos =>
    cases hstep
    refine hs.startWith ?_
    cases he : (startWith env opts s infos).2 with
    | none => rfl
    | some e => simp [he, succeeded] at hok
  | restart =>
    cases hstep
    refine hs.restartLoop ?_
    cases he : (restart env s).2 with
    | none => exact he
    | some e => simp [he, succeeded] at hok
  | shutdown =>
    cases hstep
    cases he : (shutdown env s).2 with
    | none =>
      have hs : Accounted s.host s.daemons [] := hs.subperm
      obtain ⟨hds, hserving⟩ := (hs.shutdown env).2 he
      rw [AllRun, hds, List.subperm_nil.mp hserving]
      exact .nil
    | some e => simp [he, succeeded] at hok

theorem tracked_run {ls : List (Call × Reply)} (hrun : (lifecycleLTS env).Run ls s) :
    Tracked ls s := by
  refine hrun.invariant (I := Tracked) ?_ ?_
  · rintro s ⟨hds, -, hserving⟩
    have hnone : AllRun s.host s.daemons [] := by simp [AllRun, hds, hserving, addresses]
    exact ⟨⟨[], le_rfl, hnone.subperm⟩, fun _ => hnone⟩
  · rintro ls s ⟨c, r⟩ s' - ⟨⟨lost, hlost, hs⟩, hall⟩ hstep
    obtain ⟨more, hmore, hs'⟩ := perform_accounted (c := c) (r := r) hstep hs
    refine ⟨⟨more ++ lost, ?_, hs'⟩, fun hok => ?_⟩
    · rw [List.length_append, List.countP_append, List.countP_singleton]
      have hone : (failedStart (c, r)).toNat = if failedStart (c, r) then 1 else 0 := by
        cases failedStart (c, r) <;> rfl
      omega
    · refine perform_allRun hstep (hok _ (by simp)) (hall fun l hl => hok l ?_)
      exact List.mem_append_left _ hl

/-- After any calls, every server that runs is that of a listed daemon, or one that a `StartWith`
lost when it could not start a daemon. Only the latter are left by a `Shutdown` that returns nil,
and if no call has failed, exactly the listed daemons' servers run. -/
theorem servers_tracked {ls : List (Call × Reply)} (hrun : (lifecycleLTS env).Run ls s) :
    (∃ lost, lost.length ≤ ls.countP failedStart ∧
      s.host.serving.Subperm (addresses s.daemons ++ lost) ∧
      ((shutdown env s).2 = none → (shutdown env s).1.daemons = [] ∧
        (shutdown env s).1.host.serving.Subperm lost)) ∧
    ((∀ l ∈ ls, succeeded l = true) → s.host.serving.Perm (addresses s.daemons)) := by
  obtain ⟨⟨lost, hlost, hs⟩, hall⟩ := tracked_run hrun
  refine ⟨⟨lost, hlost, hs, (hs.shutdown env).2⟩, fun hok => ?_⟩
  simpa [AllRun] using hall hok

/-- Two hosts are started, and then restarted. -/
theorem servers_tracked_hosts : ∃ s : State,
    (lifecycleLTS quietEnv).Run
      [(.startWith ⟨none, 1⟩ twoHosts, .started none), (.restart, .ended none)] s ∧
    s.host.serving.Perm (addresses s.daemons) ∧ (shutdown quietEnv s).2 = none ∧
    (shutdown quietEnv s).1.host.serving.Subperm [] := by
  have hinit : (lifecycleLTS quietEnv).Run [] stopped := .init ⟨rfl, rfl, rfl⟩
  have hstart : (lifecycleLTS quietEnv).Step stopped
      (.startWith ⟨none, 1⟩ twoHosts, .started none)
      (startWith quietEnv ⟨none, 1⟩ stopped twoHosts).1 := rfl
  have hrestart : (lifecycleLTS quietEnv).Step (startWith quietEnv ⟨none, 1⟩ stopped twoHosts).1
      (.restart, .ended none) restartedHosts := rfl
  have hrun := (hinit.step hstart).step hrestart
  obtain ⟨⟨lost, hlost, -, hstop⟩, hall⟩ := servers_tracked hrun
  obtain rfl : lost = [] := List.eq_nil_of_length_eq_zero (Nat.le_zero.mp hlost)
  exact ⟨_, hrun, hall (by decide), rfl, (hstop rfl).2⟩

end Groupcache.Managed
