import Groupcache.CallProgress
import Groupcache.GroupStats
import Groupcache.Lib.Ledger

/-! What the counters of a group add up to: every `Get` is accounted for once, by where it found its
value, and so is every load, every peer call and every run of the Getter. -/
namespace Groupcache.Concurrent

open Transport Peer

/-- How far a `Get` has come, for the counters. -/
inductive Stage
  | looking
  | picking
  | asking
  | loading
  | running
  | over
deriving DecidableEq

def Loc.stage : Loc → Stage
  | .lookup _ | .enter | .lead _ (.lookup _) => .looking
  | .lead _ .pick => .picking
  | .lead _ (.call _) | .lead _ (.calling _ _) | .lead _ (.fillHot _) => .asking
  | .lead _ .callGetter => .loading
  | .lead _ (.getter _) => .running
  | _ => .over

/-- The events of a `Get` that are told apart here. -/
inductive Kind
  | start
  | join
  | lead
  /-- `PickPeer` names a remote owner. -/
  | forward
  /-- `PickPeer` leaves the key to this node. -/
  | keep
  /-- A peer answers with an error that `load` returns as it is. -/
  | refusal
  | getterCall
  | getterPanic
  | other
deriving DecidableEq

def Event.kind : Event → Kind
  | .invoke => .start
  | .join _ => .join
  | .lead _ => .lead
  | .pick _ isRemote => if isRemote then .forward else .keep
  | .answered _ (some e) => if e.isFinal then .refusal else .other
  | .callGetter => .getterCall
  | .failed none => .getterPanic
  | _ => .other

/-- What a step enters in the books: the counter it adds one to, what it is, and whether it starts a
`Get` with a nil sink. -/
structure Entry where
  counter : Option Counter
  kind : Kind
  noSink : Bool
deriving DecidableEq

/-- What the steps of a `Get` enter at each stage, and the stage they lead to. -/
def rows : List (Stage × Entry × Stage) :=
  [(.over, ⟨some .gets, .start, true⟩, .over),
    (.over, ⟨some .gets, .start, false⟩, .looking),
    (.looking, ⟨some .cacheHits, .other, false⟩, .over),
    (.looking, ⟨none, .other, false⟩, .looking),
    (.looking, ⟨some .loads, .join, false⟩, .over),
    (.looking, ⟨some .loads, .lead, false⟩, .looking),
    (.looking, ⟨some .loadsDeduped, .other, false⟩, .picking),
    (.picking, ⟨none, .forward, false⟩, .asking),
    (.picking, ⟨none, .keep, false⟩, .loading),
    (.asking, ⟨none, .other, false⟩, .asking),
    (.asking, ⟨some .peerLoads, .other, false⟩, .over),
    (.asking, ⟨none, .refusal, false⟩, .over),
    -- the context is no longer valid
    (.asking, ⟨some .peerErrors, .other, false⟩, .over),
    (.asking, ⟨some .peerErrors, .other, false⟩, .loading),
    (.loading, ⟨none, .getterCall, false⟩, .running),
    (.running, ⟨some .localLoads, .other, false⟩, .over),
    (.running, ⟨some .localLoadErrs, .other, false⟩, .over),
    (.running, ⟨none, .getterPanic, false⟩, .over),
    (.over, ⟨none, .other, false⟩, .over)]

/-- A step of a `Get` with this sink changes the counters and its stage as a row says. -/
def Enters (dest : Option Sink) (st : GroupStats) (a : Stage) (e : Event) (st' : GroupStats)
    (b : Stage) : Prop :=
  ∃ c, st' = c.elim st (fun c => Function.update st c (st c + 1)) ∧
    (a, ⟨c, e.kind, dest.isNone && e.kind = .start⟩, b) ∈ rows

section Steps

variable {n n' : Node} {time : ℕ} {op : Op} {key : GoString} {dest : Option Sink} {b b' : Body}
  {e : Event} {g : Group Value} {loc loc' : Loc} {v : Value}

theorem populateMain_stats : (g.populateMain key v).stats = g.stats := by
  unfold Group.populateMain
  split <;> rfl

theorem populateHot_stats : (g.populateHot key v).stats = g.stats := by
  unfold Group.populateHot
  split <;> rfl

theorem remoteSet_stats : (g.remoteSet key v).stats = g.stats := by
  unfold Group.remoteSet
  split <;> rfl

theorem write_stats : (op.write g).stats = g.stats := by
  cases op with
  | get | set => rfl
  | remoteSet => exact remoteSet_stats
  | remove | localRemove => exact localRemove_stats _ _

theorem enters_none {st : GroupStats} {a b' : Stage} (hk : e.kind ≠ .start)
    (h : (a, ⟨none, e.kind, false⟩, b') ∈ rows) : Enters dest st a e st b' :=
  ⟨none, rfl, by simpa [hk] using h⟩

theorem enters_count {a b' : Stage} {c : Counter} (hg : g.stats = n.group.stats)
    (hk : e.kind ≠ .start) (h : (a, ⟨some c, e.kind, false⟩, b') ∈ rows) :
    Enters dest n.group.stats a e (g.count c 1).stats b' :=
  ⟨some c, by rw [← hg]; rfl, by simpa [hk] using h⟩

theorem enters_answered {a b' : Stage} {err : Err} (c : Client) (herr : err.isFinal = false)
    (h : (a, ⟨some .peerErrors, .other, false⟩, b') ∈ rows) :
    Enters dest n.group.stats a (.answered c (some err)) (n.group.count .peerErrors 1).stats
      b' := by
  have hk : (Event.answered c (some err)).kind = .other := by simp [Event.kind, herr]
  exact enters_count rfl (by simp [hk]) (hk ▸ h)

theorem BodyStep.enters (h : BodyStep n time (.get key dest) b e g b')
    (hb : b.Fits (.get key dest)) (c : ℕ) :
    Enters dest n.group.stats (Loc.lead c b).stage e g.stats (Loc.lead c b').stage := by
  cases h with
  | hit now h | miss now h =>
    exact enters_count (look_stats h) (by simp [Event.kind]) (by simp [Event.kind, rows, Loc.stage])
  | next now h =>
    rw [look_stats h]
    exact enters_none (by simp [Event.kind]) (by simp [Event.kind, rows, Loc.stage])
  | fetchFinal h =>
    exact enters_none (by simp [Event.kind, h]) (by simp [Event.kind, h, rows, Loc.stage])
  | fetchGiveUp h | fetchFallBack h => exact enters_answered _ h (by simp [rows, Loc.stage])
  | fillHot =>
    exact enters_count populateHot_stats (by simp [Event.kind])
      (by simp [Event.kind, rows, Loc.stage])
  | got v | failed e =>
    exact enters_count rfl (by simp [Event.kind]) (by simp [Event.kind, rows, Loc.stage])
  | fillMain =>
    rw [populateMain_stats]
    exact enters_none (by simp [Event.kind]) (by simp [Event.kind, rows, Loc.stage])
  | pickRemote | pickLocal | send | fetched | callGetter | panicked =>
    exact enters_none (by simp [Event.kind]) (by simp [Event.kind, rows, Loc.stage, Op.afterPick])
  | ownerDone hop | ownerFailed _ hop | write hop => exact (hop rfl).elim
  | peers | sendPeer | answered | wait => exact (hb rfl).elim

/-- A step of a `Get` enters what its stage says. -/
theorem Act.enters (h : Act n time (.get key dest) loc e n' loc')
    (hl : loc.Fits (.get key dest)) :
    Enters dest n.group.stats loc.stage e n'.group.stats loc'.stage := by
  cases h with
  | hit now h =>
    exact enters_count (look_stats h) (by simp [Event.kind]) (by simp [Event.kind, rows, Loc.stage])
  | next now h | miss now h =>
    simp only [look_stats h]
    exact enters_none (by simp [Event.kind]) (by simp [Event.kind, rows, Loc.stage])
  | join | lead =>
    exact enters_count rfl (by simp [Event.kind]) (by simp [Event.kind, rows, Loc.stage, Op.body])
  | body h => exact h.enters hl _
  | assign | done | delete | wake | ret =>
    exact enters_none (by simp [Event.kind]) (by simp [Event.kind, rows, Loc.stage])

/-- A `Get` that starts enters itself. -/
theorem enters_start (n : Node) (key : GoString) (dest : Option Sink) :
    Enters dest n.group.stats .over .invoke (n.countGet (.get key dest)).group.stats
      (Op.start n.group (.get key dest)).stage := by
  refine ⟨some .gets, rfl, ?_⟩
  cases dest <;> simp [rows, Event.kind, Op.start, Loc.stage]

/-- The other calls count nothing here. -/
theorem Act.stats_of_not_isGet (h : Act n time op loc e n' loc') (hop : ¬op.IsGet) :
    n'.group.stats = n.group.stats := by
  cases h with
  | hit | next | miss => exact (hop trivial).elim
  | join | lead =>
    cases op with
    | get => exact (hop trivial).elim
    | _ => rfl
  | body h =>
    cases h with
    | hit | next | miss | fetched | fetchFinal | fetchGiveUp | fetchFallBack | fillHot | callGetter
    | got | failed | panicked | fillMain => exact (hop trivial).elim
    | write => exact write_stats
    | _ => rfl
  | remoteSet => exact remoteSet_stats
  | localRemove => exact localRemove_stats _ _
  | _ => rfl

end Steps

section Range

variable {P : Type} [DecidableEq P] {s t : State P} {l : Label P} {ls : List (Label P)}
  {cacheBytes : ℤ}

/-- A bound for what a step adds to a counter. -/
def Label.added : Label P → ℕ
  | .keys _ op _ => op.keys.length + 1
  | _ => 1

theorem KeysOp.stats_count (op : KeysOp) (g : Group Value) (c : Counter) :
    g.stats c ≤ (op.count g).stats c ∧
      (op.count g).stats c ≤ g.stats c + ((op.keys.length + 1 : ℕ) : ℤ) := by
  cases op with
  | handle keys =>
    simp only [KeysOp.count, KeysOp.keys]
    omega
  | removeKeys keys =>
    by_cases hkeys : keys = []
    · simp only [KeysOp.count, hkeys, if_true]
      omega
    · cases c <;> simp [KeysOp.count, hkeys, Group.count, KeysOp.keys] <;> omega

/-- No counter goes down. -/
theorem Step.stats_le (h : Step s l t) (hfits : ∀ p fr, s.pc p = some fr → fr.loc.Fits fr.op)
    (c : Counter) : s.node.group.stats c ≤ t.node.group.stats c ∧
      t.node.group.stats c ≤ s.node.group.stats c + l.added := by
  have henters : ∀ {dest a e st b}, Enters dest s.node.group.stats a e st b →
      s.node.group.stats c ≤ st c ∧ st c ≤ s.node.group.stats c + 1 := by
    rintro dest a e _ b ⟨_ | c', rfl, _⟩
    · simp
    · by_cases hc : c = c'
      · subst hc
        simp
      · simp [hc]
  cases h with
  | invoke op =>
    cases op with
    | get key dest => exact henters (enters_start s.node key dest)
    | _ => exact ⟨le_rfl, by simp [State.setPC, Node.countGet]⟩
  | @act p op _ _ _ _ _ hp ha =>
    by_cases hop : op.IsGet
    · cases op with
      | get => exact henters (ha.enters (hfits _ _ hp))
      | _ => exact hop.elim
    · simp [State.setPC, ha.stats_of_not_isGet hop, Label.added]
  | @keys _ op _ _ _ h =>
    rcases h.group_cases with rfl | ⟨_, rfl⟩ | ⟨_, _, rfl⟩
    · simp
    · exact op.stats_count s.node.group c
    · simp [localRemove_stats]
  | setPeers => simp

/-- In a run that adds up to less than 2^63, no counter leaves the range of the code's `int64`. -/
theorem stats_in_range (h : (nodeLTS P cacheBytes).Run ls s)
    (hlen : (ls.map Label.added).sum < 2 ^ 63) (c : Counter) :
    0 ≤ s.node.group.stats c ∧ s.node.group.stats c < 2 ^ 63 := by
  have hbound : 0 ≤ s.node.group.stats c ∧
      s.node.group.stats c ≤ (((ls.map Label.added).sum : ℕ) : ℤ) := by
    refine h.invariant (I := fun ls s => 0 ≤ s.node.group.stats c ∧
      s.node.group.stats c ≤ (((ls.map Label.added).sum : ℕ) : ℤ)) ?_ ?_
    · intro s hinit
      simp [hinit.1, Group.new]
    · intro ls s l t hrun hs hstep
      have hle := hstep.stats_le (fun p fr hp => fits_run hrun hp) c
      rw [List.map_append, List.sum_append, List.map_singleton, List.sum_singleton, Nat.cast_add]
      omega
  omega

end Range

/-- The events of the `Get`s of a run, each with the sink of its call. -/
def getEvents {P : Type} (ls : List (Label P)) : List (Option Sink × Event) :=
  ls.filterMap fun
    | .call _ (.get _ dest) e => some (dest, e)
    | _ => none

theorem getEvents_get {P : Type} {ls : List (Label P)} {p : P} (key : GoString)
    (dest : Option Sink) (e : Event) :
    getEvents (ls ++ [.call p (.get key dest) e]) = getEvents ls ++ [(dest, e)] := by
  simp [getEvents]

theorem getEvents_of_not_isGet {P : Type} {ls : List (Label P)} {p : P} {op : Op}
    (hop : ¬op.IsGet) (e : Event) : getEvents (ls ++ [.call p op e]) = getEvents ls := by
  cases op with
  | get => exact (hop trivial).elim
  | _ => simp [getEvents]

/-- What an account is kept of. -/
inductive Item
  | counter (c : Counter)
  | event (k : Kind)
  | noSinks

/-- How many events are of a kind. -/
def tally (k : Kind) (es : List (Option Sink × Event)) : ℤ := es.countP fun x => x.2.kind = k

/-- How many `Get`s were called with a nil sink. -/
def noSinks (es : List (Option Sink × Event)) : ℤ :=
  es.countP fun x => x.1.isNone && x.2.kind = .start

namespace Item

def value (st : GroupStats) (es : List (Option Sink × Event)) : Item → ℤ
  | .counter c => st c
  | .event k => tally k es
  | .noSinks => Concurrent.noSinks es

def gain (x : Entry) : Item → ℤ
  | .counter c => if x.counter = some c then 1 else 0
  | .event k => if x.kind = k then 1 else 0
  | .noSinks => if x.noSink then 1 else 0

/-- A call that removes several keys leaves the account alone. -/
def ofGets : Item → Bool
  | .counter c => !OfKeys c
  | _ => true

theorem value_new : value (fun _ => 0) [] = fun _ => 0 := by
  funext i
  cases i <;> rfl

/-- A step changes an account by what it enters. -/
theorem value_concat (st : GroupStats) (es : List (Option Sink × Event))
    (c : Option Counter) (dest : Option Sink) (e : Event) :
    value (c.elim st fun c => Function.update st c (st c + 1)) (es ++ [(dest, e)]) =
      fun i => i.value st es + i.gain ⟨c, e.kind, dest.isNone && e.kind = .start⟩ := by
  funext i
  cases i with
  | counter c' =>
    cases c with
    | none => simp [value, gain]
    | some c =>
      by_cases hc : c' = c
      · subst hc
        simp [value, gain]
      · simp [value, gain, hc, Ne.symm hc]
  | event k => simp [value, gain, tally, List.countP_append, List.countP_singleton]
  | noSinks => simp [value, gain, Concurrent.noSinks, List.countP_append, List.countP_singleton]

end Item

/-- Two sides that differ by what the `Get`s at one stage still have to add. -/
structure Ledger where
  left : List Item
  right : List Item
  stage : Stage
  owed : ℤ
  stage_ne : stage ≠ .over
  ofGets : (left ++ right).all Item.ofGets = true

namespace Ledger

variable {P : Type} {ls : List (Label P)} {s : State P} {p : P} {op : Op}
  {R : ℤ → ℤ → Prop} {cacheBytes : ℤ}

def amount (L : Ledger) (f : Item → ℤ) : ℤ := (L.left.map f).sum - (L.right.map f).sum

def owes (L : Ledger) (a : Stage) : ℤ := if a = L.stage then L.owed else 0

/-- No step changes the amount by other than, or more than, what it does to the debt. -/
def Keeps (L : Ledger) (R : ℤ → ℤ → Prop) : Prop :=
  ∀ r ∈ rows, R (L.amount (Item.gain r.2.1) + L.owes r.1) (L.owes r.2.2)

variable {L : Ledger}

theorem amount_new : L.amount (Item.value (fun _ => 0) []) = 0 := by
  simp [amount, Item.value_new]

theorem amount_add (f g : Item → ℤ) : L.amount (fun i => f i + g i) = L.amount f + L.amount g := by
  simp only [amount, List.sum_map_add]
  omega

theorem amount_congr {f g : Item → ℤ} (h : ∀ i, i.ofGets = true → f i = g i) :
    L.amount f = L.amount g := by
  have hall := List.all_eq_true.mp L.ofGets
  have hleft : L.left.map f = L.left.map g :=
    List.map_congr_left fun i hi => h i (hall i (List.mem_append_left _ hi))
  have hright : L.right.map f = L.right.map g :=
    List.map_congr_left fun i hi => h i (hall i (List.mem_append_right _ hi))
  rw [amount, hleft, hright, amount]

theorem owes_over : L.owes .over = 0 := if_neg L.stage_ne.symm

/-- What a call owes; only a `Get` does. -/
def weight (L : Ledger) (fr : Frame) : ℤ :=
  match fr.op with
  | .get _ _ => L.owes fr.loc.stage
  | _ => 0

theorem weight_of_not_isGet (hop : ¬op.IsGet) (since : ℕ) (loc : Loc) :
    L.weight ⟨op, since, loc⟩ = 0 := by
  cases op with
  | get => exact (hop trivial).elim
  | _ => rfl

/-- The amount and the debt of a state agree. -/
def Balances (L : Ledger) (R : ℤ → ℤ → Prop) (ls : List (Label P)) (s : State P) : Prop :=
  ∃ d, Lib.Owed L.weight s.pc d ∧ R (L.amount (Item.value s.node.group.stats (getEvents ls))) d

variable [DecidableEq P]

/-- A step of another call than a `Get` is not in the books. -/
theorem Balances.of_not_isGet {n : Node} {since : ℕ} {loc : Loc} (hs : L.Balances R ls s)
    (hop : ¬op.IsGet) (hp : ∀ fr, s.pc p = some fr → fr.op = op)
    (hn : n.group.stats = s.node.group.stats) (e : Event) :
    L.Balances R (ls ++ [.call p op e]) (s.setPC p ⟨op, since, loc⟩ n) := by
  obtain ⟨d, hd, hm⟩ := hs
  have hbefore : (s.pc p).elim 0 L.weight = 0 := by
    cases hfr : s.pc p with
    | none => rfl
    | some fr =>
      obtain ⟨_, since, loc⟩ := fr
      obtain rfl := hp _ hfr
      exact weight_of_not_isGet hop since loc
  have hmoved := hd.update p ⟨op, since, loc⟩
  rw [hbefore, weight_of_not_isGet hop, add_zero, sub_zero] at hmoved
  refine ⟨d, hmoved, ?_⟩
  rwa [node_setPC, hn, getEvents_of_not_isGet hop]

variable (hR : ∀ {m x y z d : ℤ}, R (x + y) z → R m d → R (m + x) (d + z - y))

include hR

/-- A step of a `Get` changes the amount as it changes the debt. -/
theorem Balances.enter {n : Node} {key : GoString} {dest : Option Sink} {since : ℕ} {e : Event}
    {a : Stage} {loc : Loc} (hL : L.Keeps R) (hs : L.Balances R ls s)
    (hp : (s.pc p).elim 0 L.weight = L.owes a)
    (he : Enters dest s.node.group.stats a e n.group.stats loc.stage) :
    L.Balances R (ls ++ [.call p (.get key dest) e])
      (s.setPC p ⟨.get key dest, since, loc⟩ n) := by
  obtain ⟨d, hd, hm⟩ := hs
  obtain ⟨c, hst, hrow⟩ := he
  refine ⟨_, hd.update p _, ?_⟩
  rw [hp, node_setPC, getEvents_get, hst, Item.value_concat, amount_add]
  exact hR (hL _ hrow) hm

/-- A ledger that every step keeps is balanced in every state of every run. -/
theorem Keeps.run (hL : L.Keeps R) (hzero : R 0 0) (h : (nodeLTS P cacheBytes).Run ls s) :
    L.Balances R ls s := by
  refine (h.invariant (I := fun ls s => (∀ p fr, s.pc p = some fr → fr.loc.Fits fr.op) ∧
    L.Balances R ls s) ?_ ?_).2
  · intro s hinit
    refine ⟨fun p fr hp => (pc_ne_initial hinit hp).elim, 0, Lib.owed_zero hinit.2.2.2.1, ?_⟩
    rw [hinit.1]
    exact amount_new (L := L) ▸ hzero
  · rintro ls s l t - ⟨hfits, hs⟩ hstep
    refine ⟨fits_step hstep hfits, ?_⟩
    cases hstep with
    | invoke op hp =>
      cases op with
      | get key dest =>
        exact hs.enter hR hL (by rw [hp, owes_over]; rfl) (enters_start _ key dest)
      | _ => exact hs.of_not_isGet id (by simp [hp]) rfl _
    | @act p op since loc e n loc' hp ha =>
      by_cases hop : op.IsGet
      · cases op with
        | get key dest =>
          exact hs.enter hR hL (by rw [hp]; rfl) (ha.enters (hfits _ _ hp))
        | _ => exact hop.elim
      · exact hs.of_not_isGet hop (by simp [hp]) (ha.stats_of_not_isGet hop) e
    | keys h =>
      obtain ⟨d, hd, hm⟩ := hs
      refine ⟨d, hd, ?_⟩
      rw [amount_congr (g := Item.value s.node.group.stats (getEvents ls))]
      · exact hm
      · intro i hi
        cases i with
        | counter c => exact h.stats_eq (by simpa [Item.ofGets] using hi)
        | _ => simp [Item.value, getEvents]
    | setPeers env peers => simpa [Balances, getEvents] using hs

/-- With no `Get` in progress nothing is owed. -/
theorem Keeps.idle (hL : L.Keeps R) (hzero : R 0 0) (h : (nodeLTS P cacheBytes).Run ls s)
    (hidle : GetsReturned s) :
    R (L.amount (Item.value s.node.group.stats (getEvents ls))) 0 := by
  obtain ⟨d, hd, hm⟩ := hL.run hR hzero h
  have hnone : d = 0 := hd.eq_zero fun p fr hp => by
    obtain ⟨op, since, loc⟩ := fr
    cases op with
    | get key dest =>
      obtain rfl := hidle p key dest since loc hp
      exact owes_over
    | _ => rfl
  rwa [hnone] at hm

end Ledger

/-- A `Get` with a sink is a cache hit, a load of its own, or joins the load of another one. -/
def getsLedger : Ledger where
  left := [.counter .gets]
  right := [.counter .cacheHits, .counter .loadsDeduped, .event .join, .noSinks]
  stage := .looking
  owed := 1
  stage_ne := by decide
  ofGets := rfl

/-- A load is joined or led. -/
def loadsLedger : Ledger where
  left := [.counter .loads]
  right := [.event .join, .event .lead]
  stage := .looking
  owed := 0
  stage_ne := by decide
  ofGets := rfl

/-- A load that misses at the second look picks a peer, or none. -/
def dedupedLedger : Ledger where
  left := [.counter .loadsDeduped]
  right := [.event .forward, .event .keep]
  stage := .picking
  owed := 1
  stage_ne := by decide
  ofGets := rfl

/-- A peer answers with a value, with a final error, or with an error that is counted. -/
def peersLedger : Ledger where
  left := [.event .forward]
  right := [.counter .peerLoads, .counter .peerErrors, .event .refusal]
  stage := .asking
  owed := 1
  stage_ne := by decide
  ofGets := rfl

/-- The Getter returns a value or an error, or it panics. -/
def getterLedger : Ledger where
  left := [.event .getterCall]
  right := [.counter .localLoads, .counter .localLoadErrs, .event .getterPanic]
  stage := .running
  owed := 1
  stage_ne := by decide
  ofGets := rfl

/-- A load that no peer is picked for calls the Getter. -/
def keptLedger : Ledger where
  left := [.event .keep]
  right := [.event .getterCall]
  stage := .loading
  owed := 1
  stage_ne := by decide
  ofGets := rfl

/-- Any other call of the Getter follows an error that is counted. -/
def fallBackLedger : Ledger where
  left := [.event .getterCall]
  right := [.event .keep, .counter .peerErrors]
  stage := .loading
  owed := -1
  stage_ne := by decide
  ofGets := rfl

theorem ledgers_exact :
    ∀ L ∈ [getsLedger, loadsLedger, dedupedLedger, peersLedger, getterLedger],
      L.Keeps (· = ·) := by
  unfold Ledger.Keeps
  decide +kernel

theorem ledgers_bound : ∀ L ∈ [keptLedger, fallBackLedger], L.Keeps (· ≤ ·) := by
  unfold Ledger.Keeps
  decide +kernel

/-- What the counters say about the events of the `Get`s. -/
structure Accounts (st : GroupStats) (es : List (Option Sink × Event)) : Prop where
  gets : st .gets = st .cacheHits + st .loadsDeduped + tally .join es + noSinks es
  loads : st .loads = tally .join es + tally .lead es
  loadsDeduped : st .loadsDeduped = tally .forward es + tally .keep es
  peers : tally .forward es = st .peerLoads + st .peerErrors + tally .refusal es
  getter : tally .getterCall es = st .localLoads + st .localLoadErrs + tally .getterPanic es
  kept : tally .keep es ≤ tally .getterCall es
  fallBack : tally .getterCall es ≤ tally .keep es + st .peerErrors

/-- Whenever no `Get` is in progress, the counters account for every `Get`, load, peer call and run
of the Getter so far. -/
theorem stats_account {P : Type} [DecidableEq P] {cacheBytes : ℤ} {ls : List (Label P)}
    {s : State P} (h : (nodeLTS P cacheBytes).Run ls s) (hidle : GetsReturned s) :
    Accounts s.node.group.stats (getEvents ls) := by
  have hexact := fun L hL => (ledgers_exact L hL).idle (by omega) rfl h hidle
  have hbound := fun L hL => (ledgers_bound L hL).idle (by omega) le_rfl h hidle
  simp only [List.forall_mem_cons, List.not_mem_nil, false_implies, implies_true, and_true,
    Ledger.amount, getsLedger, loadsLedger, dedupedLedger, peersLedger, getterLedger, keptLedger,
    fallBackLedger, List.map_cons, List.map_nil, List.sum_cons, List.sum_nil, Item.value]
    at hexact hbound
  obtain ⟨hgets, hloads, hdeduped, hpeers, hgetter⟩ := hexact
  obtain ⟨hkept, hfallBack⟩ := hbound
  constructor <;> omega

theorem stats_account_shared : ∃ s : State ℕ, (nodeLTS ℕ 1000).Run sharedRun s ∧ GetsReturned s ∧
    Accounts s.node.group.stats (getEvents sharedRun) := by
  obtain ⟨s, hrun, hidle⟩ := sharedRun_returns
  exact ⟨s, hrun, hidle, stats_account hrun hidle⟩

end Groupcache.Concurrent
