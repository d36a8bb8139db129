import Groupcache.Lib.Run
import Groupcache.Ownership

/-! Overlapping calls of `SetPeers`. Each builds a picker of its own, client by client, and replaces
the one in use at the end, under the lock that `PickPeer` and `getAllPeers` read it under. -/
namespace Groupcache

open Peer

/-- A call of `SetPeers` in its loop: the list it was given, the pointer of its first client, the
part of the list it has added, and its picker. -/
structure Building where
  peers : List Info
  first : ℕ
  added : List Info
  todo : List Info
  picker : Picker
  includesSelf : Bool

/-- The picker in use, the next unused pointer, and the calls of `SetPeers`. -/
structure PeerState (P : Type) where
  picker : Picker
  next : ℕ
  calls : P → Option Building

inductive PeerEvent (P : Type)
  | start (p : P) (peers : List Info)
  | add (p : P)
  | fail (p : P)
  | install (p : P) (peers : List Info)
  | reject (p : P)

/-- The client that a call adds for an entry of its list. -/
def Building.client (b : Building) (info : Info) : Client := ⟨b.first + b.added.length, info⟩

def Building.add (sort : SortSlice) (b : Building) (info : Info) (todo : List Info) : Building :=
  { b with
    added := b.added ++ [info], todo := todo, picker := b.picker.add sort (b.client info)
    includesSelf := b.includesSelf || info.isSelf }

/-- A step of a call. Only the clients of other nodes come from the transport, which may fail. -/
inductive PeerStep {P : Type} [DecidableEq P] (fnv1 : HashFn) (sort : SortSlice)
    (opts : Options) : PeerState P → PeerEvent P → PeerState P → Prop
  | start {s p} (peers : List Info) (h : s.calls p = none) :
      PeerStep fnv1 sort opts s (.start p peers)
        { s with
          next := s.next + peers.length
          calls := Function.update s.calls p
            (some ⟨peers, s.next, [], peers, newPicker fnv1 opts, false⟩) }
  | add {s p b info todo} (h : s.calls p = some b) (htodo : b.todo = info :: todo) :
      PeerStep fnv1 sort opts s (.add p)
        { s with calls := Function.update s.calls p (some (b.add sort info todo)) }
  | fail {s p b info todo} (h : s.calls p = some b) (htodo : b.todo = info :: todo)
      (hself : info.isSelf = false) :
      PeerStep fnv1 sort opts s (.fail p) { s with calls := Function.update s.calls p none }
  | install {s p b} (h : s.calls p = some b) (htodo : b.todo = [])
      (hself : b.includesSelf = true) :
      PeerStep fnv1 sort opts s (.install p b.peers)
        { s with picker := b.picker, calls := Function.update s.calls p none }
  | reject {s p b} (h : s.calls p = some b) (htodo : b.todo = [])
      (hself : b.includesSelf = false) :
      PeerStep fnv1 sort opts s (.reject p) { s with calls := Function.update s.calls p none }

/-- The peers of a new instance. -/
def peersLTS (P : Type) [DecidableEq P] (fnv1 : HashFn) (sort : SortSlice) (opts : Options) :
    Lib.LTS (PeerState P) (PeerEvent P) where
  Init s := s.picker = newPicker fnv1 opts ∧ ∀ p, s.calls p = none
  Step := PeerStep fnv1 sort opts

variable {P : Type} {fnv1 : HashFn} {sort : SortSlice} {opts : Options} {s t : PeerState P}
  {l : PeerEvent P} {ls ms : List (PeerEvent P)} {b : Building}

/-- The list that was installed last. -/
def lastInstalled (ls : List (PeerEvent P)) : Option (List Info) :=
  ls.foldl (fun last l =>
    match l with
    | .install _ peers => some peers
    | _ => last) none

/-- A call's picker holds the clients of the entries it has added. -/
structure Building.Ok (fnv1 : HashFn) (sort : SortSlice) (opts : Options) (b : Building) :
    Prop where
  peers : b.peers = b.added ++ b.todo
  picker : b.picker = (newPicker fnv1 opts).addAll sort (Instance.clientsFrom b.first b.added)
  includesSelf : b.includesSelf = b.added.any (·.isSelf)

theorem clientsFrom_concat (n : ℕ) (peers : List Info) (info : Info) :
    Instance.clientsFrom n (peers ++ [info]) =
      Instance.clientsFrom n peers ++ [⟨n + peers.length, info⟩] := by
  induction peers generalizing n with
  | nil => rfl
  | cons p peers ih => simp [Instance.clientsFrom, ih, Nat.add_assoc, Nat.add_comm 1]

theorem Building.Ok.add {info : Info} {todo : List Info} (h : b.Ok fnv1 sort opts)
    (htodo : b.todo = info :: todo) : (b.add sort info todo).Ok fnv1 sort opts where
  peers := by simp [Building.add, h.peers, htodo]
  picker := by
    simp [Building.add, Building.client, clientsFrom_concat, h.picker, Picker.addAll]
  includesSelf := by simp [Building.add, h.includesSelf]

theorem setPeers_opts {env : PeerEnv} {i : Instance} {peers : List Info} :
    (i.setPeers env peers).1.opts = i.opts := by
  unfold Instance.setPeers
  split
  · rfl
  · split <;> rfl

/-- What a `SetPeers` call has built is what `SetPeers` alone would have installed. -/
theorem Building.Ok.installed (h : b.Ok fnv1 sort opts) (htodo : b.todo = [])
    (hself : b.includesSelf = true) : ∃ next, Installed (newPicker fnv1 opts).hashFn
      (newPicker fnv1 opts).replicas b.peers ⟨opts, b.picker, next⟩ := by
  have hadded : b.added = b.peers := by simp [h.peers, htodo]
  let env : PeerEnv := { fnv1 := fnv1, sort := sort, newClient := fun _ => none }
  let before : Instance := { opts := opts, picker := b.picker, next := b.first }
  have hnil : (before.setPeers env b.peers).2 = none := by
    refine Instance.setPeers_returns_nil before env (fun _ _ _ => rfl) ?_
    rw [h.includesSelf, hadded] at hself
    simpa using hself
  have hpicker : (before.setPeers env b.peers).1.picker = b.picker := by
    rw [(Instance.setPeers_nil hnil).1, h.picker, hadded]
  refine ⟨(before.setPeers env b.peers).1.next, env, before, rfl, rfl, hnil, ?_⟩
  rw [← hpicker, ← show (before.setPeers env b.peers).1.opts = opts from setPeers_opts]

theorem lastInstalled_concat : lastInstalled (ls ++ [l]) =
    match l with
    | .install _ peers => some peers
    | _ => lastInstalled ls := by
  simp [lastInstalled]

variable [DecidableEq P]

/-- Every call is on its way, and the picker in use is that of the last install. -/
structure Peers (fnv1 : HashFn) (sort : SortSlice) (opts : Options) (ls : List (PeerEvent P))
    (s : PeerState P) : Prop where
  calls : ∀ p b, s.calls p = some b → b.Ok fnv1 sort opts
  new : lastInstalled ls = none → s.picker = newPicker fnv1 opts
  installed : ∀ peers, lastInstalled ls = some peers → ∃ next,
    Installed (newPicker fnv1 opts).hashFn (newPicker fnv1 opts).replicas peers
      ⟨opts, s.picker, next⟩

theorem Peers.update_calls (hi : Peers fnv1 sort opts ls s) (p : P) {o : Option Building}
    (ho : ∀ b, o = some b → b.Ok fnv1 sort opts) (q : P) (b : Building)
    (hq : Function.update s.calls p o q = some b) : b.Ok fnv1 sort opts := by
  by_cases hqp : q = p
  · exact ho b (by simpa [hqp] using hq)
  · exact hi.calls q b (by simpa [hqp] using hq)

theorem peers_step (h : PeerStep fnv1 sort opts s l t) (hi : Peers fnv1 sort opts ls s) :
    Peers fnv1 sort opts (ls ++ [l]) t := by
  cases h with
  | start peers =>
    refine ⟨hi.update_calls _ ?_, by simpa [lastInstalled_concat] using hi.new,
      by simpa [lastInstalled_concat] using hi.installed⟩
    rintro b ⟨⟩
    exact ⟨rfl, rfl, rfl⟩
  | @add p b info todo hp htodo =>
    refine ⟨hi.update_calls _ ?_, by simpa [lastInstalled_concat] using hi.new,
      by simpa [lastInstalled_concat] using hi.installed⟩
    rintro b ⟨⟩
    exact (hi.calls p _ hp).add htodo
  | fail | reject =>
    exact ⟨hi.update_calls _ nofun, by simpa [lastInstalled_concat] using hi.new,
      by simpa [lastInstalled_concat] using hi.installed⟩
  | @install p b hp htodo hself =>
    refine ⟨hi.update_calls _ nofun, by simp [lastInstalled_concat], fun peers hpeers => ?_⟩
    obtain rfl : b.peers = peers := by simpa [lastInstalled_concat] using hpeers
    exact (hi.calls p b hp).installed htodo hself

theorem peers_run (h : (peersLTS P fnv1 sort opts).Run ls s) : Peers fnv1 sort opts ls s := by
  refine h.invariant (I := Peers fnv1 sort opts) ?_ ?_
  · rintro s ⟨hpicker, hcalls⟩
    exact ⟨by simp [hcalls], fun _ => hpicker, nofun⟩
  · exact fun ls s l t _ hi hs => peers_step hs hi

/-- However calls of `SetPeers` overlap and fail, the picker in use is the one that the last of
them to replace it would have installed alone, or the new instance's empty one. -/
theorem setPeers_atomic (h : (peersLTS P fnv1 sort opts).Run ls s) :
    (lastInstalled ls = none → s.picker = newPicker fnv1 opts) ∧
    ∀ peers, lastInstalled ls = some peers → ∃ inst, inst.picker = s.picker ∧
      Installed (newPicker fnv1 opts).hashFn (newPicker fnv1 opts).replicas peers inst := by
  have hi := peers_run h
  refine ⟨hi.new, fun peers hpeers => ?_⟩
  obtain ⟨next, hinst⟩ := hi.installed peers hpeers
  exact ⟨_, rfl, hinst⟩

/-- The peers of `B` before `C` joins, and after. -/
def twoLists : List Info × List Info :=
  (memberPeers hostB [hostB, hostA], memberPeers hostB [hostA, hostC, hostB])

/-- A call that starts first and replaces the picker first, while another is under way. -/
def twoUpdates : List (PeerEvent ℕ) × List (PeerEvent ℕ) :=
  ([.start 0 twoLists.1, .start 1 twoLists.2, .add 0, .add 1, .add 0, .install 0 twoLists.1],
    [.add 1, .add 1, .install 1 twoLists.2])

theorem twoUpdates_run : ∃ s t,
    (peersLTS ℕ digestHash hashSort ⟨none, 1⟩).Run twoUpdates.1 s ∧
    (peersLTS ℕ digestHash hashSort ⟨none, 1⟩).Run (twoUpdates.1 ++ twoUpdates.2) t := by
  have h₀ : (peersLTS ℕ digestHash hashSort ⟨none, 1⟩).Run []
      ⟨newPicker digestHash ⟨none, 1⟩, 0, fun _ => none⟩ := .init ⟨rfl, fun _ => rfl⟩
  have h₂ := (h₀.step (.start (p := 0) twoLists.1 rfl)).step (.start (p := 1) twoLists.2 rfl)
  have h₄ := (h₂.step (.add (p := 0) rfl rfl)).step (.add (p := 1) rfl rfl)
  have h₆ := (h₄.step (.add (p := 0) rfl rfl)).step (.install (p := 0) rfl rfl rfl)
  have h₈ := (h₆.step (.add (p := 1) rfl rfl)).step (.add (p := 1) rfl rfl)
  have h₉ := h₈.step (.install (p := 1) rfl rfl rfl)
  exact ⟨_, _, h₆, h₉⟩

theorem setPeers_atomic_hosts : ∃ s, (peersLTS ℕ digestHash hashSort ⟨none, 1⟩).Run
    (twoUpdates.1 ++ twoUpdates.2) s ∧ ∃ inst, inst.picker = s.picker ∧
      Installed digestHash 1 twoLists.2 inst := by
  obtain ⟨_, t, _, h⟩ := twoUpdates_run
  exact ⟨t, h, (setPeers_atomic h).2 _ rfl⟩

theorem Peer.First.move {hashFn : HashFn} {replicas : ℤ} {key a b : GoString}
    {as bs : List GoString} {i j : ℕ} (hs : NoSharedPoint hashFn replicas fun c => c ∈ as ∨ c ∈ bs)
    (h : First hashFn replicas key as a i) (h' : First hashFn replicas key bs b j) :
    a = b ∨ a ∉ bs ∨ b ∉ as := by
  by_cases ha : a ∈ bs
  · by_cases hb : b ∈ as
    · have hturn : turn hashFn key i a = turn hashFn key j b :=
        le_antisymm (h.le b hb j h'.lt) (h'.le a ha i h.lt)
      exact Or.inl (hs.eq_of_turn (Or.inl h.mem) (Or.inr h'.mem) h.lt h'.lt hturn)
    · exact Or.inr (Or.inr hb)
  · exact Or.inr (Or.inl ha)

/-- From one moment to a later one, a key changes its owner only if the old one has left the list
or the new one has joined it. -/
theorem owners_move_minimally (h : (peersLTS P fnv1 sort opts).Run ls s)
    (h' : (peersLTS P fnv1 sort opts).Run (ls ++ ms) t) {peers peers' : List Info}
    (hpeers : lastInstalled ls = some peers) (hpeers' : lastInstalled (ls ++ ms) = some peers')
    (hr : 0 < (newPicker fnv1 opts).replicas)
    (hs : NoSharedPoint (newPicker fnv1 opts).hashFn (newPicker fnv1 opts).replicas
      fun a => a ∈ peers.map (·.address) ∨ a ∈ peers'.map (·.address)) (key : GoString) :
    ∃ c c', s.picker.pickPeer key = (some c, !c.info.isSelf) ∧ c.info ∈ peers ∧
      t.picker.pickPeer key = (some c', !c'.info.isSelf) ∧ c'.info ∈ peers' ∧
      (c.hashKey = c'.hashKey ∨ c.hashKey ∉ peers'.map (·.address) ∨
        c'.hashKey ∉ peers.map (·.address)) := by
  obtain ⟨_, hinst⟩ := (peers_run h).installed peers hpeers
  obtain ⟨_, hinst'⟩ := (peers_run h').installed peers' hpeers'
  obtain ⟨c, i, hpick, hmem, hfirst⟩ := hinst.pickPeer_first hr key
  obtain ⟨c', j, hpick', hmem', hfirst'⟩ := hinst'.pickPeer_first hr key
  exact ⟨c, c', hpick, hmem, hpick', hmem', hfirst.move hs hfirst'⟩

theorem owners_move_minimally_hosts : ∃ s t,
    (peersLTS ℕ digestHash hashSort ⟨none, 1⟩).Run twoUpdates.1 s ∧
    (peersLTS ℕ digestHash hashSort ⟨none, 1⟩).Run (twoUpdates.1 ++ twoUpdates.2) t ∧
    ∃ c c', s.picker.pickPeer [7] = (some c, !c.info.isSelf) ∧ c.info ∈ twoLists.1 ∧
      t.picker.pickPeer [7] = (some c', !c'.info.isSelf) ∧ c'.info ∈ twoLists.2 ∧
      (c.hashKey = c'.hashKey ∨ c.hashKey ∉ twoLists.2.map (·.address) ∨
        c'.hashKey ∉ twoLists.1.map (·.address)) := by
  obtain ⟨s, t, h, h'⟩ := twoUpdates_run
  refine ⟨s, t, h, h', owners_move_minimally h h' rfl rfl (by decide) ?_ [7]⟩
  refine threeHosts_noSharedPoint.mono fun a ha => ?_
  simp only [twoLists, memberPeers_address, List.mem_cons, List.not_mem_nil, or_false] at ha ⊢
  grind

end Groupcache
