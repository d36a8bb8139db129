import Mathlib.Data.List.Sort
import Mathlib.Data.Int.Order.Lemmas
import Groupcache.Instance

/-! Who owns a key: what the rings of several members, built from their own peer lists,
have in common. -/
namespace Groupcache.Peer

variable {hashFn : HashFn} {replicas : ℤ} {peers : List Info} {p : Picker} {key : GoString}

/-- `p` is a sorted ring of the points of `peers`. -/
structure RingOf (hashFn : HashFn) (replicas : ℤ) (peers : List Info) (p : Picker) : Prop where
  hashFn_eq : p.hashFn = hashFn
  sorted : p.keys.Pairwise fun a b => a.hash ≤ b.hash
  sound : ∀ e ∈ p.keys, e.client.info ∈ peers ∧
    ∃ i < replicas.toNat, e.hash = pointHash hashFn i e.client.hashKey
  complete : ∀ info ∈ peers, ∀ i < replicas.toNat,
    ∃ e ∈ p.keys, e.client.info = info ∧ e.hash = pointHash hashFn i info.address

/-- Adding clients one by one to an empty picker builds the ring of their infos. -/
theorem ringOf_addAll (sort : SortSlice) (clients : List Client) (h : p.keys = []) :
    RingOf p.hashFn p.replicas (clients.map (·.info)) (p.addAll sort clients) := by
  have hkeys : ∀ e, e ∈ (p.addAll sort clients).keys ↔ ∃ c ∈ clients, e ∈ p.points c := by
    intro e
    rw [(p.addAll_keys sort clients).mem_iff, h, List.nil_append, List.mem_flatMap]
  refine ⟨(p.addAll_config sort clients).1,
    Picker.addAll_pairwise sort.sorted (by rw [h]; exact .nil), ?_, ?_⟩
  · intro e he
    obtain ⟨c, hc, hec⟩ := (hkeys e).mp he
    obtain ⟨rfl, i, hi, hhash⟩ := Picker.mem_points.mp hec
    exact ⟨List.mem_map_of_mem hc, i, hi, hhash⟩
  · intro info hinfo i hi
    obtain ⟨c, hc, rfl⟩ := List.mem_map.mp hinfo
    exact ⟨⟨pointHash p.hashFn i c.hashKey, c⟩,
      (hkeys _).mpr ⟨c, hc, Picker.mem_points.mpr ⟨rfl, i, hi, rfl⟩⟩, rfl, rfl⟩

theorem ringOf_newPicker (fnv1 : HashFn) {opts : Options} (hr : 0 < opts.replicas)
    (sort : SortSlice) (clients : List Client) :
    RingOf (opts.hashFn.getD fnv1) opts.replicas (clients.map (·.info))
      ((newPicker fnv1 opts).addAll sort clients) := by
  have hring := ringOf_addAll (p := newPicker fnv1 opts) sort clients rfl
  rwa [show (newPicker fnv1 opts).replicas = opts.replicas from if_neg hr.ne'] at hring

theorem RingOf.ne_nil (h : RingOf hashFn replicas peers p) (hr : 0 < replicas)
    (hne : peers ≠ []) : p.keys ≠ [] := by
  obtain ⟨info, hinfo⟩ := List.exists_mem_of_ne_nil peers hne
  obtain ⟨e, he, _⟩ := h.complete info hinfo 0 (by omega)
  exact List.ne_nil_of_mem he

/-- Where the walk from the key's hash meets replica `i` of an address. -/
def turn (hashFn : HashFn) (key : GoString) (i : ℕ) (address : GoString) : Bool ×ₗ ℤ :=
  Lib.lap (toInt (hashFn key)) (pointHash hashFn i address)

/-- Replica `i` of `a` is the first point of the addresses on the walk from the key's hash. -/
structure First (hashFn : HashFn) (replicas : ℤ) (key : GoString) (addresses : List GoString)
    (a : GoString) (i : ℕ) : Prop where
  mem : a ∈ addresses
  lt : i < replicas.toNat
  le : ∀ b ∈ addresses, ∀ j < replicas.toNat, turn hashFn key i a ≤ turn hashFn key j b

/-- `Get` names a client whose replica comes first. -/
theorem RingOf.get_first (h : RingOf hashFn replicas peers p) (hr : 0 < replicas)
    (hne : peers ≠ []) (key : GoString) :
    ∃ c i, p.get key = some c ∧ c.info ∈ peers ∧
      First hashFn replicas key (peers.map (·.address)) c.hashKey i := by
  have hfn := h.hashFn_eq
  obtain ⟨e, he, hget, hmin⟩ := Picker.get_first key (f := Entry.hash) (fun _ => Iff.rfl) h.sorted
    (h.ne_nil hr hne)
  obtain ⟨hmem, i, hi, hhash⟩ := h.sound e he
  refine ⟨e.client, i, hget, hmem, List.mem_map_of_mem hmem, hi, ?_⟩
  intro b hb j hj
  obtain ⟨info, hinfo, rfl⟩ := List.mem_map.mp hb
  obtain ⟨e', he', _, hhash'⟩ := h.complete info hinfo j hj
  have hle := hmin e' he'
  rw [hfn, hhash, hhash'] at hle
  exact hle

/-- No two of the addresses share a ring point. -/
def NoSharedPoint (hashFn : HashFn) (replicas : ℤ) (addresses : GoString → Prop) : Prop :=
  ∀ a b, addresses a → addresses b → ∀ i < replicas.toNat, ∀ j < replicas.toNat,
    pointHash hashFn i a = pointHash hashFn j b → a = b

variable {as bs : List GoString} {a b : GoString} {i j : ℕ} {addresses : GoString → Prop}

/-- Two points met at the same moment belong to one address. -/
theorem NoSharedPoint.eq_of_turn (hs : NoSharedPoint hashFn replicas addresses)
    (ha : addresses a) (hb : addresses b) (hi : i < replicas.toNat) (hj : j < replicas.toNat)
    (h : turn hashFn key i a = turn hashFn key j b) : a = b :=
  hs a b ha hb i hi j hj (Lib.lap_injective _ h)

theorem First.turn_eq (h : First hashFn replicas key as a i)
    (h' : First hashFn replicas key as b j) :
    turn hashFn key i a = turn hashFn key j b :=
  le_antisymm (h.le b h'.mem j h'.lt) (h'.le a h.mem i h.lt)

/-- Members that list the same addresses agree on the first one. -/
theorem First.unique (hs : NoSharedPoint hashFn replicas (· ∈ as))
    (h : First hashFn replicas key as a i) (h' : First hashFn replicas key bs b j)
    (hperm : bs.Perm as) : a = b := by
  have hb : b ∈ as := hperm.mem_iff.mp h'.mem
  have hle := h.le b hb j h'.lt
  have hge := h'.le a (hperm.mem_iff.mpr h.mem) i h.lt
  exact hs.eq_of_turn h.mem hb h.lt h'.lt (le_antisymm hle hge)

/-- With one more address, the first one is the new one or the same as before. -/
theorem First.cons (hs : NoSharedPoint hashFn replicas (· ∈ as))
    (h : First hashFn replicas key as a i) {new : GoString}
    (h' : First hashFn replicas key bs b j) (hperm : bs.Perm (new :: as)) : b = new ∨ b = a := by
  rcases List.mem_cons.mp (hperm.mem_iff.mp h'.mem) with hb | hb
  · exact Or.inl hb
  · have hle := h.le b hb j h'.lt
    have hge := h'.le a (hperm.mem_iff.mpr (List.mem_cons_of_mem new h.mem)) i h.lt
    exact Or.inr (hs.eq_of_turn hb h.mem h'.lt h.lt (le_antisymm hge hle))

theorem NoSharedPoint.mono {addresses' : GoString → Prop}
    (hs : NoSharedPoint hashFn replicas addresses) (h : ∀ a, addresses' a → addresses a) :
    NoSharedPoint hashFn replicas addresses' :=
  fun a b ha hb => hs a b (h a ha) (h b hb)

/-- The address that `Get` names on a ring of the clients. -/
theorem owner_first (fnv1 : HashFn) {opts : Options} (hr : 0 < opts.replicas) (sort : SortSlice)
    {clients : List Client} (hne : clients ≠ []) (key : GoString) :
    ∃ a i, (((newPicker fnv1 opts).addAll sort clients).get key).map (·.hashKey) = some a ∧
      First (opts.hashFn.getD fnv1) opts.replicas key (clients.map (·.hashKey)) a i := by
  obtain ⟨c, i, hget, _, hfirst⟩ :=
    (ringOf_newPicker fnv1 hr sort clients).get_first hr (by simpa using hne) key
  exact ⟨c.hashKey, i, by rw [hget]; rfl, by simpa [Client.hashKey, Function.comp_def] using hfirst⟩

/-- A newcomer takes keys from others, and no key moves between the others. The two rings are
built from their own clients, in any order and with any order of equal hashes. -/
theorem owner_join (fnv1 : HashFn) (opts : Options) (hr : 0 < opts.replicas)
    (sort sort' : SortSlice) (clients clients' : List Client) (new : GoString)
    (hperm : (clients'.map (·.hashKey)).Perm (new :: clients.map (·.hashKey)))
    (hs : NoSharedPoint (opts.hashFn.getD fnv1) opts.replicas
      (· ∈ new :: clients.map (·.hashKey))) (key : GoString) :
    ∃ owner, (((newPicker fnv1 opts).addAll sort' clients').get key).map (·.hashKey) = some owner ∧
      (owner = new ∨
        (((newPicker fnv1 opts).addAll sort clients).get key).map (·.hashKey) = some owner) := by
  have hne' : clients' ≠ [] := by
    rintro rfl
    simpa using hperm.length_eq
  obtain ⟨b, j, hget', hfirst'⟩ := owner_first fnv1 hr sort' hne' key
  refine ⟨b, hget', ?_⟩
  by_cases hne : clients = []
  · subst hne
    exact Or.inl (by simpa using hperm.mem_iff.mp hfirst'.mem)
  · obtain ⟨a, i, hget, hfirst⟩ := owner_first fnv1 hr sort hne key
    have hs' := hs.mono fun a (ha : a ∈ clients.map (·.hashKey)) => List.mem_cons_of_mem new ha
    rcases hfirst.cons hs' hfirst' hperm with hb | hb
    · exact Or.inl hb
    · exact Or.inr (hb ▸ hget)

/-- A `HashFn` that reads the end of its input as a number. -/
def digestHash : HashFn := fun data =>
  UInt64.ofNat (data.foldl (fun n b => n * 256 + b.toNat) 0)

def ascii (text : List Char) : GoString := text.map fun c => UInt8.ofNat c.toNat

def hostA : GoString := ascii ['a', ':', '8', '0']

def hostB : GoString := ascii ['b', ':', '8', '0']

def hostC : GoString := ascii ['c', ':', '8', '0']

theorem noSharedPoint_of_nodup (hnd : (as.map (pointHash hashFn 0)).Nodup) :
    NoSharedPoint hashFn 1 (· ∈ as) := by
  intro a b ha hb i hi j hj h
  obtain ⟨rfl, rfl⟩ : i = 0 ∧ j = 0 := by simpa using And.intro hi hj
  exact List.inj_on_of_nodup_map hnd ha hb h

theorem hosts_noSharedPoint : NoSharedPoint digestHash 1 (· ∈ [hostB, hostA]) :=
  noSharedPoint_of_nodup (by decide +kernel)

theorem threeHosts_noSharedPoint : NoSharedPoint digestHash 1 (· ∈ [hostC, hostA, hostB]) :=
  noSharedPoint_of_nodup (by decide +kernel)

theorem pairwise_insertionSort_le {α : Type} [LinearOrder α] (f : Entry → α) (l : List Entry) :
    (l.insertionSort fun x y => f x ≤ f y).Pairwise fun x y => f x ≤ f y := by
  have : Std.Total fun x y : Entry => f x ≤ f y := ⟨fun _ _ => le_total _ _⟩
  have : IsTrans Entry fun x y => f x ≤ f y := ⟨fun _ _ _ => le_trans⟩
  exact List.pairwise_insertionSort _ l

/-- What `sort.Slice` may do when equal hashes end up ordered by `f`. -/
def sortBy {α : Type} [LinearOrder α] (f : Entry → α) (hf : ∀ x y, f x ≤ f y → x.hash ≤ y.hash) :
    SortSlice where
  sort l := l.insertionSort fun x y => f x ≤ f y
  perm l := List.perm_insertionSort _ l
  sorted l := (pairwise_insertionSort_le f l).imp (hf _ _)

def hashSort : SortSlice := sortBy Entry.hash fun _ _ => id

theorem owner_join_hosts : ∃ owner,
    (((newPicker digestHash ⟨none, 1⟩).addAll hashSort
      [⟨0, ⟨hostB, true⟩⟩, ⟨1, ⟨hostC, false⟩⟩, ⟨2, ⟨hostA, false⟩⟩]).get [7]).map (·.hashKey) =
        some owner ∧
    (owner = hostC ∨ (((newPicker digestHash ⟨none, 1⟩).addAll hashSort
      [⟨0, ⟨hostA, true⟩⟩, ⟨1, ⟨hostB, false⟩⟩]).get [7]).map (·.hashKey) = some owner) :=
  owner_join digestHash ⟨none, 1⟩ (by decide) hashSort hashSort
    [⟨0, ⟨hostA, true⟩⟩, ⟨1, ⟨hostB, false⟩⟩]
    [⟨0, ⟨hostB, true⟩⟩, ⟨1, ⟨hostC, false⟩⟩, ⟨2, ⟨hostA, false⟩⟩] hostC (by decide)
    threeHosts_noSharedPoint [7]

/-- A ring of clients added in any order, with any addresses and any collisions: its points, the
client that `Get` names and the clients that `GetAll` returns. -/
theorem ring_correct (fnv1 : HashFn) (opts : Options) (hr : 0 < opts.replicas) (sort : SortSlice)
    (clients : List Client) (hne : clients ≠ []) (key : GoString) :
    (∃ e, ((newPicker fnv1 opts).addAll sort clients).get key = some e.client ∧
      Picker.Nearest ((newPicker fnv1 opts).addAll sort clients).keys
        (toInt ((opts.hashFn.getD fnv1) key)) e) ∧
    (((newPicker fnv1 opts).addAll sort clients).keys.Pairwise fun a b => a.hash ≤ b.hash) ∧
    ((newPicker fnv1 opts).addAll sort clients).keys.Perm (clients.flatMap fun c =>
      (List.range opts.replicas.toNat).map fun i =>
        ⟨pointHash (opts.hashFn.getD fnv1) i c.hashKey, c⟩) ∧
    (((newPicker fnv1 opts).addAll sort clients).getAll.map (·.hashKey)).Nodup ∧
    ∀ c, c ∈ ((newPicker fnv1 opts).addAll sort clients).getAll ↔ Picker.Last clients c := by
  have hring := ringOf_newPicker fnv1 hr sort clients
  have hkeys := (newPicker fnv1 opts).addAll_keys sort clients
  have hrep : (newPicker fnv1 opts).replicas = opts.replicas := if_neg hr.ne'
  refine ⟨?_, hring.sorted, ?_, Picker.getAll_nodup rfl clients, ?_⟩
  · have hget := Picker.get_nearest key hring.sorted (hring.ne_nil hr (by simpa using hne))
    rwa [hring.hashFn_eq] at hget
  · have hpoints : (newPicker fnv1 opts).points = fun c => (List.range opts.replicas.toNat).map
        fun i => ⟨pointHash (opts.hashFn.getD fnv1) i c.hashKey, c⟩ := by
      funext c
      rw [Picker.points, hrep]
      rfl
    rwa [hpoints] at hkeys
  · exact fun c => Picker.mem_getAll_iff rfl

/-- Two clients under one address, with a hash that sends everything to one point. -/
theorem ring_correct_collision : ∃ p : Picker,
    (∃ e, p.get hostA = some e.client ∧ Picker.Nearest p.keys 0 e) ∧
    p.keys.length = 4 ∧ ⟨1, ⟨hostA, false⟩⟩ ∈ p.getAll := by
  obtain ⟨hget, _, hkeys, _, hall⟩ := ring_correct (fun _ => 0) ⟨none, 2⟩ (by decide) hashSort
    [⟨0, ⟨hostA, true⟩⟩, ⟨1, ⟨hostA, false⟩⟩] (by simp) hostA
  exact ⟨_, hget, hkeys.length_eq.trans (by simp), (hall _).mpr ⟨[_], [], rfl, by simp⟩⟩

end Groupcache.Peer

namespace Groupcache

open Peer

variable {hashFn : HashFn} {replicas : ℤ} {key : GoString}

/-- `i` got its ring from a successful `SetPeers` with this list; `hashFn` and `replicas` are
what the picker resolved the options to. -/
def Installed (hashFn : HashFn) (replicas : ℤ) (peers : List Info) (i : Instance) : Prop :=
  ∃ (env : PeerEnv) (before : Instance), (newPicker env.fnv1 before.opts).hashFn = hashFn ∧
    (newPicker env.fnv1 before.opts).replicas = replicas ∧
    (before.setPeers env peers).2 = none ∧ i = (before.setPeers env peers).1

/-- The picker of such an instance was filled with one client for each entry of the list. -/
theorem Installed.picker_eq {peers : List Info} {inst : Instance}
    (h : Installed hashFn replicas peers inst) :
    ∃ (p : Picker) (sort : SortSlice) (clients : List Client), p.hashFn = hashFn ∧
      p.replicas = replicas ∧ p.keys = [] ∧ p.clientMap = ∅ ∧ clients.map (·.info) = peers ∧
      inst.picker = p.addAll sort clients ∧ peers ≠ [] := by
  obtain ⟨env, before, rfl, rfl, hnil, rfl⟩ := h
  obtain ⟨hpicker, info, hinfo, _⟩ := Instance.setPeers_nil hnil
  exact ⟨newPicker env.fnv1 before.opts, env.sort, Instance.clientsFrom before.next peers, rfl, rfl,
    rfl, rfl, Instance.clientsFrom_info _ _, hpicker, List.ne_nil_of_mem hinfo⟩

theorem Installed.ringOf {peers : List Info} {inst : Instance}
    (h : Installed hashFn replicas peers inst) :
    RingOf hashFn replicas peers inst.picker ∧ peers ≠ [] := by
  obtain ⟨p, sort, clients, rfl, rfl, hkeys, _, rfl, hpicker, hne⟩ := h.picker_eq
  exact ⟨hpicker ▸ ringOf_addAll sort clients hkeys, hne⟩

/-- A node's `PickPeer` names a listed client whose replica comes first. -/
theorem Installed.pickPeer_first {peers : List Info} {inst : Instance}
    (h : Installed hashFn replicas peers inst) (hr : 0 < replicas) (key : GoString) :
    ∃ c i, inst.pickPeer key = (some c, !c.info.isSelf) ∧ c.info ∈ peers ∧
      First hashFn replicas key (peers.map (·.address)) c.hashKey i := by
  obtain ⟨hring, hne⟩ := h.ringOf
  obtain ⟨c, i, hget, hmem, hfirst⟩ := hring.get_first hr hne key
  exact ⟨c, i, Picker.pickPeer_of_get hget, hmem, hfirst⟩

/-- Without replicas the ring is empty and every key is local. -/
theorem Installed.pickPeer_empty {peers : List Info} {inst : Instance}
    (h : Installed hashFn replicas peers inst) (hr : replicas ≤ 0) (key : GoString) :
    inst.pickPeer key = (none, false) := by
  have hkeys : inst.picker.keys = [] := by
    rw [List.eq_nil_iff_forall_not_mem]
    intro e he
    obtain ⟨_, i, hi, _⟩ := h.ringOf.1.sound e he
    omega
  simp [Instance.pickPeer, Picker.pickPeer, Picker.isEmpty, hkeys]

section Forwarding

variable {nodes : GoString → Prop} {lists : GoString → List Info} {inst : GoString → Instance}
  {x y z : GoString}

/-- Every node holds a ring built from a list of its own, in which it marked itself. -/
structure Views (hashFn : HashFn) (replicas : ℤ) (nodes : GoString → Prop)
    (lists : GoString → List Info) (inst : GoString → Instance) : Prop where
  installed : ∀ x, nodes x → Installed hashFn replicas (lists x) (inst x)
  self : ∀ x, nodes x → { address := x, isSelf := true } ∈ lists x
  own : ∀ x, nodes x → ∀ info ∈ lists x, info.address = x → info.isSelf = true
  closed : ∀ x, nodes x → ∀ info ∈ lists x, nodes info.address

/-- `x` sends a `Get` of the key on to `y`. -/
def Forwards (inst : GoString → Instance) (key x y : GoString) : Prop :=
  ∃ c, (inst x).pickPeer key = (some c, true) ∧ c.hashKey = y

/-- When the walk meets the point that `x` picks. -/
def Picks (hashFn : HashFn) (replicas : ℤ) (lists : GoString → List Info) (key x : GoString)
    (t : Bool ×ₗ ℤ) : Prop :=
  ∃ a i, First hashFn replicas key ((lists x).map (·.address)) a i ∧ t = turn hashFn key i a

theorem Picks.bounds {t : Bool ×ₗ ℤ} (h : Picks hashFn replicas lists key x t) :
    -2 ^ 63 ≤ (ofLex t).2 ∧ (ofLex t).2 < -2 ^ 63 + (2 ^ 64 : ℕ) := by
  obtain ⟨a, i, _, rfl⟩ := h
  have hlo := BitVec.le_toInt (hashFn (Md5.hex (Md5.sum (pointInput i a)))).toBitVec
  have hhi := BitVec.toInt_lt (x := (hashFn (Md5.hex (Md5.sum (pointInput i a)))).toBitVec)
  simp only [turn, Lib.lap, ofLex_toLex, pointHash, inputHash, toInt]
  constructor <;> omega

variable (hv : Views hashFn replicas nodes lists inst) (hr : 0 < replicas)
  (hs : NoSharedPoint hashFn replicas nodes)
include hv hr

theorem forwards_first (hx : nodes x) (h : Forwards inst key x y) :
    nodes y ∧ y ≠ x ∧ ∃ i, First hashFn replicas key ((lists x).map (·.address)) y i := by
  obtain ⟨c, hpick, rfl⟩ := h
  obtain ⟨c', i, hpick', hmem, hfirst⟩ := (hv.installed x hx).pickPeer_first hr key
  rw [hpick] at hpick'
  obtain ⟨rfl, hremote⟩ : c = c' ∧ c'.info.isSelf = false := by simpa using hpick'
  refine ⟨hv.closed x hx _ hmem, ?_, i, hfirst⟩
  intro hself
  simp [hv.own x hx c.info hmem hself] at hremote

theorem exists_picks (hx : nodes x) (key : GoString) :
    ∃ t, Picks hashFn replicas lists key x t := by
  obtain ⟨c, i, _, _, hfirst⟩ := (hv.installed x hx).pickPeer_first hr key
  exact ⟨_, c.hashKey, i, hfirst, rfl⟩

include hs

/-- A node that forwards picks a point strictly before the one it was reached by. -/
theorem picks_lt (hx : nodes x) (hxy : Forwards inst key x y) (hyz : Forwards inst key y z)
    {t t' : Bool ×ₗ ℤ} (ht : Picks hashFn replicas lists key x t)
    (ht' : Picks hashFn replicas lists key y t') : t' < t := by
  obtain ⟨hy, _, i, hfirst⟩ := forwards_first hv hr hx hxy
  obtain ⟨hz, hne, j, hfirst'⟩ := forwards_first hv hr hy hyz
  obtain ⟨a, i', ha, rfl⟩ := ht
  obtain ⟨b, j', hb, rfl⟩ := ht'
  rw [ha.turn_eq hfirst, hb.turn_eq hfirst']
  have hle := hfirst'.le y (List.mem_map.mpr ⟨_, hv.self y hy, rfl⟩) i hfirst.lt
  exact lt_of_le_of_ne hle fun heq => hne (hs.eq_of_turn hz hy hfirst'.lt hfirst.lt heq)

omit hs in
theorem nodes_transGen (hx : nodes x) (h : Relation.TransGen (Forwards inst key) x y) :
    nodes y := by
  induction h with
  | single h => exact (forwards_first hv hr hx h).1
  | tail _ h ih => exact (forwards_first hv hr ih h).1

/-- Along a walk that goes on, the picked points come strictly earlier and earlier. -/
theorem picks_lt_of_transGen (hx : nodes x) (hxy : Relation.TransGen (Forwards inst key) x y)
    (hyz : Forwards inst key y z) {t t' : Bool ×ₗ ℤ} (ht : Picks hashFn replicas lists key x t)
    (ht' : Picks hashFn replicas lists key y t') : t' < t := by
  induction hxy generalizing z t' with
  | single h => exact picks_lt hv hr hs hx h hyz ht ht'
  | tail hxb hbc ih =>
    have hb := nodes_transGen hv hr hx hxb
    obtain ⟨u, hu⟩ := exists_picks hv hr hb key
    exact (picks_lt hv hr hs hb hbc hyz hu ht').trans (ih hbc hu)

theorem not_transGen_self (hx : nodes x) : ¬ Relation.TransGen (Forwards inst key) x x := by
  intro h
  obtain ⟨y, hxy⟩ : ∃ y, Forwards inst key x y := by
    rcases Relation.TransGen.head'_iff.mp h with ⟨y, hxy, _⟩
    exact ⟨y, hxy⟩
  obtain ⟨t, ht⟩ := exists_picks hv hr hx key
  exact lt_irrefl t (picks_lt_of_transGen hv hr hs hx h hxy ht ht)

omit hs in
theorem local_or_forwards (hx : nodes x) (key : GoString) :
    ((inst x).pickPeer key).2 = false ∨ ∃ y, Forwards inst key x y := by
  obtain ⟨c, _, hpick, _⟩ := (hv.installed x hx).pickPeer_first hr key
  cases hself : c.info.isSelf with
  | true => exact Or.inl (by rw [hpick, hself]; rfl)
  | false => exact Or.inr ⟨c.hashKey, c, by rw [hpick, hself]; rfl, rfl⟩

/-- Every walk ends: hashes are `int`s, so only finitely many points can come earlier. -/
theorem exists_local (hx : nodes x) (key : GoString) :
    ∃ y, Relation.ReflTransGen (Forwards inst key) x y ∧ ((inst y).pickPeer key).2 = false := by
  obtain ⟨t, ht⟩ := exists_picks hv hr hx key
  induction hn : Lib.lapRank (-2 ^ 63) (2 ^ 64) t using Nat.strong_induction_on
    generalizing x t with
  | _ n ih =>
    rcases local_or_forwards hv hr hx key with hlocal | ⟨y, hxy⟩
    · exact ⟨x, .refl, hlocal⟩
    · have hy := (forwards_first hv hr hx hxy).1
      obtain ⟨t', ht'⟩ := exists_picks hv hr hy key
      rcases local_or_forwards hv hr hy key with hlocal | ⟨z, hyz⟩
      · exact ⟨y, .single hxy, hlocal⟩
      · have hlt := picks_lt hv hr hs hx hxy hyz ht ht'
        have hrank := Lib.lapRank_lt hlt ht'.bounds ht.bounds.1
        obtain ⟨w, hyw, hw⟩ := ih _ (hn ▸ hrank) hy t' ht' rfl
        exact ⟨w, .head hxy hyw, hw⟩

omit hr in
/-- A forwarded `Get` never comes back to a node, and reaches one that treats the key as local,
however the nodes' peer lists differ. -/
theorem forwarding_terminates (key : GoString) :
    (∀ x, nodes x → ¬ Relation.TransGen (Forwards inst key) x x) ∧
    ∀ x, nodes x → ∃ y, Relation.ReflTransGen (Forwards inst key) x y ∧
      ((inst y).pickPeer key).2 = false := by
  rcases lt_or_ge 0 replicas with hr | hr
  · exact ⟨fun _ hx => not_transGen_self hv hr hs hx, fun _ hx => exists_local hv hr hs hx key⟩
  · have hlocal : ∀ x, nodes x → (inst x).pickPeer key = (none, false) :=
      fun x hx => (hv.installed x hx).pickPeer_empty hr key
    refine ⟨fun x hx h => ?_, fun x hx => ⟨x, .refl, by rw [hlocal x hx]⟩⟩
    obtain ⟨y, ⟨c, hpick, _⟩, _⟩ := Relation.TransGen.head'_iff.mp h
    simp [hlocal x hx] at hpick

end Forwarding

/-- A transport that connects to every peer. -/
def hostEnv : PeerEnv := { fnv1 := digestHash, sort := hashSort, newClient := fun _ => none }

/-- Two nodes, the first of which does not know the second. -/
theorem forwarding_terminates_hosts : ∃ inst : GoString → Instance,
    Views digestHash 1 (· ∈ [hostB, hostA])
      (fun x => if x = hostA then [⟨hostA, true⟩] else [⟨hostA, false⟩, ⟨hostB, true⟩]) inst ∧
    ¬ Relation.TransGen (Forwards inst hostB) hostB hostB := by
  let lists : GoString → List Info := fun x =>
    if x = hostA then [⟨hostA, true⟩] else [⟨hostA, false⟩, ⟨hostB, true⟩]
  let inst : GoString → Instance := fun x =>
    ((Instance.new hostEnv ⟨none, 1⟩).setPeers hostEnv (lists x)).1
  have hself : ∀ x ∈ [hostB, hostA], { address := x, isSelf := true } ∈ lists x := by decide
  have hviews : Views digestHash 1 (· ∈ [hostB, hostA]) lists inst := by
    refine ⟨fun x hx => ⟨hostEnv, Instance.new hostEnv ⟨none, 1⟩, rfl, rfl, ?_, rfl⟩, hself,
      by decide, by decide⟩
    exact Instance.setPeers_returns_nil _ hostEnv (fun _ _ _ => rfl) ⟨_, hself x hx, rfl⟩
  exact ⟨inst, hviews,
    (forwarding_terminates hviews hosts_noSharedPoint hostB).1 hostB (by decide)⟩

section OneOwner

variable {as : List GoString}

/-- The peer list of member `x`: only its own entry is marked. -/
def memberPeers (x : GoString) (order : List GoString) : List Info :=
  order.map fun a => { address := a, isSelf := decide (a = x) }

/-- Whatever permutation each member installs and however its sort orders equal hashes, all of
them name one owner, and exactly one takes the key for its own. -/
def OneOwner (hashFn : HashFn) (replicas : ℤ) (as : List GoString) : Prop :=
  ∀ (order : GoString → List GoString) (inst : GoString → Instance),
    (∀ x ∈ as, (order x).Perm as ∧
      Installed hashFn replicas (memberPeers x (order x)) (inst x)) →
    ∀ key, ∃ owner, (∀ x ∈ as, ((inst x).pickPeer key).1.map (·.hashKey) = some owner) ∧
      ∃! x, x ∈ as ∧ ((inst x).pickPeer key).2 = false

/-- The hash gives distinct values to the distinct inputs of the ring points. -/
def CollisionFree (hashFn : HashFn) (replicas : ℤ) (as : List GoString) : Prop :=
  ∀ a ∈ as, ∀ b ∈ as, ∀ i < replicas.toNat, ∀ j < replicas.toNat,
    pointHash hashFn i a = pointHash hashFn j b → pointInput i a = pointInput j b

theorem collisionFree_of_nodup (inputs : List GoString)
    (hmem : ∀ a ∈ as, ∀ i < replicas.toNat, pointInput i a ∈ inputs)
    (hnd : (inputs.map (inputHash hashFn)).Nodup) : CollisionFree hashFn replicas as :=
  fun a ha b hb i hi j hj h => List.inj_on_of_nodup_map hnd (hmem a ha i hi) (hmem b hb j hj) h

/-- No index written before one address reads like an index before another. -/
def Separated (replicas : ℤ) (as : List GoString) : Prop :=
  ∀ a ∈ as, ∀ b ∈ as, ∀ i < replicas.toNat, ∀ j < replicas.toNat,
    pointInput i a = pointInput j b → a = b

theorem memberPeers_address (x : GoString) (order : List GoString) :
    (memberPeers x order).map (·.address) = order := by
  simp [memberPeers, Function.comp_def]

/-- A member names the address that comes first, and takes the key for its own if that is its. -/
theorem Installed.member_first {x : GoString} {order : List GoString} {inst : Instance}
    (h : Installed hashFn replicas (memberPeers x order) inst) (hr : 0 < replicas)
    (key : GoString) :
    ∃ a i, (inst.pickPeer key).1.map (·.hashKey) = some a ∧
      ((inst.pickPeer key).2 = false ↔ a = x) ∧ First hashFn replicas key order a i := by
  obtain ⟨c, i, hpick, hmem, hfirst⟩ := h.pickPeer_first hr key
  rw [memberPeers_address] at hfirst
  refine ⟨c.hashKey, i, by rw [hpick]; rfl, ?_, hfirst⟩
  obtain ⟨a, _, ha⟩ := List.mem_map.mp hmem
  rw [hpick, Client.hashKey, ← ha]
  simp

theorem one_owner_of_separated (hr : 0 < replicas) (hne : as ≠ [])
    (hc : CollisionFree hashFn replicas as) (hs : Separated replicas as) :
    OneOwner hashFn replicas as := by
  intro order inst hinst key
  have hshared : NoSharedPoint hashFn replicas (· ∈ as) :=
    fun a b ha hb i hi j hj h => hs a ha b hb i hi j hj (hc a ha b hb i hi j hj h)
  obtain ⟨x₀, hx₀⟩ := List.exists_mem_of_ne_nil as hne
  obtain ⟨owner, i₀, _, _, hfirst₀⟩ := (hinst x₀ hx₀).2.member_first hr key
  have howner : owner ∈ as := (hinst x₀ hx₀).1.mem_iff.mp hfirst₀.mem
  have hsame : ∀ x ∈ as, ((inst x).pickPeer key).1.map (·.hashKey) = some owner ∧
      (((inst x).pickPeer key).2 = false ↔ owner = x) := by
    intro x hx
    obtain ⟨a, i, hname, hlocal, hfirst⟩ := (hinst x hx).2.member_first hr key
    have heq : a = owner := First.unique
      (hshared.mono fun b hb => (hinst x hx).1.mem_iff.mp hb) hfirst hfirst₀
      ((hinst x₀ hx₀).1.trans (hinst x hx).1.symm)
    exact heq ▸ ⟨hname, hlocal⟩
  refine ⟨owner, fun x hx => (hsame x hx).1, owner, ⟨howner, (hsame owner howner).2.mpr rfl⟩, ?_⟩
  rintro y ⟨hy, hlocal⟩
  exact ((hsame y hy).2.mp hlocal).symm

/-- Orders by hash and puts the entries of `a` before others of the same hash. -/
def preferKey (a : GoString) (e : Entry) : ℤ ×ₗ Bool :=
  toLex (e.hash, decide (e.client.hashKey ≠ a))

def preferSort (a : GoString) : SortSlice :=
  sortBy (preferKey a) fun _ _ h => (Prod.Lex.le_iff.mp h).elim le_of_lt fun h => h.1.le

/-- On a ring sorted so, a key that hashes to a point of `a` belongs to `a`. -/
theorem get_preferSort {p : Picker} {clients : List Client} {a : GoString} {e : Entry}
    (hp : p.keys = []) (he : e ∈ (p.addAll (preferSort a) clients).keys)
    (ha : e.client.hashKey = a) (hk : e.hash = toInt (p.hashFn key)) :
    ∃ c, (p.addAll (preferSort a) clients).get key = some c ∧ c.hashKey = a := by
  have hfn := (p.addAll_config (preferSort a) clients).1
  have hsorted : (p.addAll (preferSort a) clients).keys.Pairwise
      fun x y => preferKey a x ≤ preferKey a y := by
    refine Picker.addAll_pairwise (fun l => ?_) (by rw [hp]; exact .nil)
    exact pairwise_insertionSort_le (preferKey a) l
  have hbound : ∀ e', toLex (toInt ((p.addAll (preferSort a) clients).hashFn key), false) ≤
      preferKey a e' ↔ toInt ((p.addAll (preferSort a) clients).hashFn key) ≤ e'.hash := by
    intro e'
    rw [preferKey, Prod.Lex.toLex_le_toLex]
    constructor
    · rintro (h | h)
      · exact h.le
      · exact h.1.le
    · intro h
      rcases h.lt_or_eq with hlt | heq
      · exact Or.inl hlt
      · exact Or.inr ⟨heq, Bool.false_le _⟩
  obtain ⟨e', he', hget, hmin⟩ := Picker.get_first key hbound hsorted (List.ne_nil_of_mem he)
  refine ⟨e'.client, hget, ?_⟩
  have hpref :
      preferKey a e = toLex (toInt ((p.addAll (preferSort a) clients).hashFn key), false) := by
    simp [preferKey, ha, hk, hfn]
  have hle := hmin e he
  rw [hpref, Lib.lap_le_iff] at hle
  have heq :
      preferKey a e' = toLex (toInt ((p.addAll (preferSort a) clients).hashFn key), false) := by
    rcases hle with ⟨_, hlt⟩ | ⟨hiff, hle⟩
    · exact (lt_irrefl _ hlt).elim
    · exact le_antisymm hle (not_lt.mp fun hlt => lt_irrefl _ (hiff.mp hlt))
  have hflag := congrArg (fun t => (ofLex t).2) heq
  simpa [preferKey] using hflag

/-- A member whose sort prefers `t` names `t` for a key that hashes to a point of `t`. -/
theorem exists_installed_naming (hr : 0 < replicas) {x t : GoString} {i : ℕ} (hx : x ∈ as)
    (ht : t ∈ as) (hi : i < replicas.toNat) :
    ∃ inst, Installed hashFn replicas (memberPeers x as) inst ∧
      ∀ key, toInt (hashFn key) = pointHash hashFn i t →
        (inst.pickPeer key).1.map (·.hashKey) = some t := by
  let env : PeerEnv := { fnv1 := hashFn, sort := preferSort t, newClient := fun _ => none }
  let before := Instance.new env { hashFn := some hashFn, replicas := replicas }
  have hreplicas : (newPicker env.fnv1 before.opts).replicas = replicas := if_neg hr.ne'
  have hself : { address := x, isSelf := true } ∈ memberPeers x as :=
    List.mem_map.mpr ⟨x, hx, by simp⟩
  have hnil := before.setPeers_returns_nil env (fun _ _ _ => rfl) ⟨_, hself, rfl⟩
  have hinst : Installed hashFn replicas (memberPeers x as)
      (before.setPeers env (memberPeers x as)).1 := ⟨env, before, rfl, hreplicas, hnil, rfl⟩
  refine ⟨_, hinst, fun key hkey => ?_⟩
  obtain ⟨e, he, hclient, hhash⟩ :=
    hinst.ringOf.1.complete { address := t, isSelf := decide (t = x) }
      (List.mem_map.mpr ⟨t, ht, rfl⟩) i hi
  have hpicker := (Instance.setPeers_nil hnil).1
  rw [hpicker] at he
  obtain ⟨c, hget, hc⟩ := get_preferSort (p := newPicker env.fnv1 before.opts) rfl he
    (by rw [Client.hashKey, hclient]) (hhash.trans hkey.symm)
  rw [Instance.pickPeer, hpicker, Picker.pickPeer_of_get hget]
  exact congrArg some hc

theorem separated_of_one_owner (hr : 0 < replicas) (h : OneOwner hashFn replicas as) :
    Separated replicas as := by
  intro a ha b hb i hi j hj hinput
  by_contra hab
  have hnaming : ∀ x ∈ as, ∃ inst, Installed hashFn replicas (memberPeers x as) inst ∧
      ∀ key, toInt (hashFn key) = pointHash hashFn i a →
        (inst.pickPeer key).1.map (·.hashKey) = some (if x = a then a else b) := by
    intro x hx
    split
    · exact exists_installed_naming hr hx ha hi
    · have hshared : pointHash hashFn i a = pointHash hashFn j b := by
        rw [pointHash, hinput, pointHash]
      rw [hshared]
      exact exists_installed_naming hr hx hb hj
  have : Nonempty Instance := ⟨(hnaming a ha).choose⟩
  choose! inst hinst hname using hnaming
  obtain ⟨owner, hall, _⟩ := h (fun _ => as) inst (fun x hx => ⟨.refl _, hinst x hx⟩)
    (Md5.hex (Md5.sum (pointInput i a)))
  have hownerA := (hall a ha).symm.trans (hname a ha _ rfl)
  have hownerB := (hall b hb).symm.trans (hname b hb _ rfl)
  rw [if_pos rfl] at hownerA
  rw [if_neg (Ne.symm hab)] at hownerB
  exact hab (Option.some.inj (hownerA.symm.trans hownerB))

/-- Every key has one owner exactly when the inputs of the ring points keep addresses apart. -/
theorem one_owner_iff (hr : 0 < replicas) (hne : as ≠ [])
    (hc : CollisionFree hashFn replicas as) :
    OneOwner hashFn replicas as ↔ Separated replicas as :=
  ⟨separated_of_one_owner hr, one_owner_of_separated hr hne hc⟩

theorem hosts_collisionFree : CollisionFree digestHash 1 [hostB, hostA] :=
  collisionFree_of_nodup [pointInput 0 hostB, pointInput 0 hostA] (by decide) (by decide +kernel)

theorem hosts_separated : Separated 1 [hostB, hostA] := by
  unfold Separated
  decide

theorem one_owner_hosts : OneOwner digestHash 1 [hostB, hostA] :=
  (one_owner_iff (by decide) (by decide) hosts_collisionFree).mpr hosts_separated

def hostLong : GoString :=
  ascii ['1', '9', '2', '.', '1', '6', '8', '.', '1', '.', '0', ':', '8', '0']

def hostShort : GoString :=
  ascii ['9', '2', '.', '1', '6', '8', '.', '1', '.', '0', ':', '8', '0']

/-- Replica 1 of the longer address and replica 11 of the shorter one are the same point. -/
theorem hosts_not_one_owner : [hostLong, hostShort].Nodup ∧
    CollisionFree digestHash defaultReplicas [hostLong, hostShort] ∧
    ¬ OneOwner digestHash defaultReplicas [hostLong, hostShort] := by
  refine ⟨by decide, collisionFree_of_nodup ((List.range 50).map (pointInput · hostLong) ++
    ((List.range 50).filter fun i => i % 10 ≠ 1 ∨ i = 1).map (pointInput · hostShort))
      (by decide +kernel) (by decide +kernel), ?_⟩
  intro h
  have hsep := separated_of_one_owner (by decide) h
  have heq := hsep hostLong (by decide) hostShort (by decide) 1 (by decide) 11 (by decide)
    (by decide)
  exact absurd heq (by decide)

end OneOwner

section Members

variable {as : List GoString} {x : GoString} {inst : Instance}

/-- What a member `x` of a cluster with the addresses `as` sees of it. -/
structure Knows (as : List GoString) (x : GoString) (inst : Instance) : Prop where
  pick : ∀ key, inst.pickPeer key = (none, false) ∨
    ∃ c, inst.pickPeer key = (some c, !c.info.isSelf) ∧ c.hashKey ∈ as ∧
      (c.info.isSelf = true ↔ c.hashKey = x)
  all : ∀ c ∈ inst.getAllPeers, c.hashKey ∈ as ∧ (c.info.isSelf = true ↔ c.hashKey = x)
  covers : ∀ y ∈ as, ∃ c ∈ inst.getAllPeers, c.hashKey = y

/-- Each member installed some permutation of the one list. -/
def Agreed (as : List GoString) (inst : GoString → Instance) : Prop :=
  ∃ hashFn replicas, ∀ x ∈ as, ∃ order : List GoString, order.Perm as ∧
    Installed hashFn replicas (memberPeers x order) (inst x)

theorem mem_memberPeers {order : List GoString} {c : Client} (h : c.info ∈ memberPeers x order) :
    c.hashKey ∈ order ∧ (c.info.isSelf = true ↔ c.hashKey = x) := by
  obtain ⟨a, ha, hinfo⟩ := List.mem_map.mp h
  rw [Client.hashKey, ← hinfo]
  exact ⟨ha, by simp⟩

theorem Installed.knows {order : List GoString} (hperm : order.Perm as)
    (h : Installed hashFn replicas (memberPeers x order) inst) : Knows as x inst := by
  obtain ⟨p, sort, clients, _, _, _, hmap, hinfo, hpicker, _⟩ := h.picker_eq
  have hclient : ∀ c ∈ clients, c.hashKey ∈ as ∧ (c.info.isSelf = true ↔ c.hashKey = x) := by
    intro c hc
    obtain ⟨hmem, hself⟩ := mem_memberPeers (hinfo ▸ List.mem_map_of_mem hc)
    exact ⟨hperm.mem_iff.mp hmem, hself⟩
  refine ⟨fun key => ?_, fun c hc => ?_, fun y hy => ?_⟩
  · rcases lt_or_ge 0 replicas with hr | hr
    · obtain ⟨c, _, hpick, hmem, _⟩ := h.pickPeer_first hr key
      obtain ⟨hmem, hself⟩ := mem_memberPeers hmem
      exact Or.inr ⟨c, hpick, hperm.mem_iff.mp hmem, hself⟩
    · exact Or.inl (h.pickPeer_empty hr key)
  · rw [Instance.getAllPeers, hpicker] at hc
    exact hclient c (Picker.mem_of_mem_getAll hmap hc)
  · have hmem : { address := y, isSelf := decide (y = x) } ∈ clients.map (·.info) := by
      rw [hinfo]
      exact List.mem_map_of_mem (hperm.mem_iff.mpr hy)
    obtain ⟨c, hc, hy'⟩ := List.mem_map.mp hmem
    obtain ⟨c', hc', hkey⟩ := Picker.exists_mem_getAll sort hmap hc
    refine ⟨c', by rwa [Instance.getAllPeers, hpicker], hkey.trans ?_⟩
    rw [Client.hashKey, hy']

/-- With distinct addresses there is one client for each, which `PickPeer` names as well. -/
structure KnowsClients (inst : Instance) : Prop where
  mem : ∀ key c isRemote, inst.pickPeer key = (some c, isRemote) → c ∈ inst.getAllPeers
  inj : ∀ c ∈ inst.getAllPeers, ∀ c' ∈ inst.getAllPeers, c.hashKey = c'.hashKey → c = c'

theorem Installed.knowsClients {order : List GoString} (hnd : order.Nodup)
    (h : Installed hashFn replicas (memberPeers x order) inst) : KnowsClients inst := by
  obtain ⟨p, sort, clients, _, _, hkeys, hmap, hinfo, hpicker, _⟩ := h.picker_eq
  have haddress : clients.map (·.hashKey) = order := by
    rw [← memberPeers_address x order, ← hinfo, List.map_map]
    rfl
  refine ⟨fun key c isRemote hpick => ?_, fun c hc c' hc' => ?_⟩
  · rw [Instance.pickPeer, hpicker] at hpick
    have hmem := Picker.mem_of_get hkeys (Picker.get_of_pickPeer hpick)
    rw [Instance.getAllPeers, hpicker]
    exact Picker.mem_getAll_of_nodup hmap (haddress ▸ hnd) hmem
  · rw [Instance.getAllPeers, hpicker] at hc hc'
    exact Picker.getAll_inj hmap hc hc'

theorem Knows.of_pick {key : GoString} {c : Client} {isRemote : Bool} (h : Knows as x inst)
    (hpick : inst.pickPeer key = (some c, isRemote)) :
    isRemote = !c.info.isSelf ∧ c.hashKey ∈ as ∧ (c.info.isSelf = true ↔ c.hashKey = x) := by
  rcases h.pick key with hnone | ⟨c', hpick', hmem, hself⟩
  · cases hpick.symm.trans hnone
  · cases hpick.symm.trans hpick'
    exact ⟨rfl, hmem, hself⟩

theorem Knows.exists_remote {y : GoString} (h : Knows as x inst) (hy : y ∈ as) (hyx : y ≠ x) :
    ∃ c ∈ inst.getAllPeers, c.hashKey = y ∧ c.info.isSelf = false := by
  obtain ⟨c, hc, hcy⟩ := h.covers y hy
  refine ⟨c, hc, hcy, ?_⟩
  by_contra hself
  exact hyx (hcy.symm.trans ((h.all c hc).2.mp (by simpa using hself)))

/-- Two members with one list. -/
def hostInst (x : GoString) : Instance :=
  ((Instance.new hostEnv ⟨none, 1⟩).setPeers hostEnv (memberPeers x [hostB, hostA])).1

theorem hostInst_installed (hx : x ∈ [hostB, hostA]) :
    Installed digestHash 1 (memberPeers x [hostB, hostA]) (hostInst x) := by
  have hself : { address := x, isSelf := true } ∈ memberPeers x [hostB, hostA] :=
    List.mem_map.mpr ⟨x, hx, by simp⟩
  exact ⟨hostEnv, Instance.new hostEnv ⟨none, 1⟩, rfl, rfl,
    Instance.setPeers_returns_nil _ _ (fun _ _ _ => rfl) ⟨_, hself, rfl⟩, rfl⟩

theorem hostInst_agreed : Agreed [hostB, hostA] hostInst :=
  ⟨digestHash, 1, fun _ hx => ⟨[hostB, hostA], .refl _, hostInst_installed hx⟩⟩

theorem pick_hostA : (hostInst hostA).pickPeer [7] = (some ⟨0, ⟨hostB, false⟩⟩, true) := by
  decide +kernel

theorem pick_hostB : (hostInst hostB).pickPeer [7] = (some ⟨0, ⟨hostB, true⟩⟩, false) := by
  decide +kernel

theorem peers_hostA :
    (hostInst hostA).getAllPeers = [⟨1, ⟨hostA, true⟩⟩, ⟨0, ⟨hostB, false⟩⟩] := by
  decide +kernel

theorem peers_hostB :
    (hostInst hostB).getAllPeers = [⟨1, ⟨hostA, false⟩⟩, ⟨0, ⟨hostB, true⟩⟩] := by
  decide +kernel

theorem Agreed.knows {inst : GoString → Instance} (h : Agreed as inst) (hx : x ∈ as) :
    Knows as x (inst x) := by
  obtain ⟨_, _, hinst⟩ := h
  obtain ⟨order, hperm, hx⟩ := hinst x hx
  exact hx.knows hperm

theorem Agreed.knowsClients {inst : GoString → Instance} (h : Agreed as inst) (hnd : as.Nodup)
    (hx : x ∈ as) : KnowsClients (inst x) := by
  obtain ⟨_, _, hinst⟩ := h
  obtain ⟨order, hperm, hx⟩ := hinst x hx
  exact hx.knowsClients (hperm.nodup_iff.mpr hnd)

theorem Agreed.getAllPeers_nodup {inst : GoString → Instance} (h : Agreed as inst)
    (hx : x ∈ as) : (inst x).getAllPeers.Nodup := by
  obtain ⟨_, _, hinst⟩ := h
  obtain ⟨order, _, hx⟩ := hinst x hx
  obtain ⟨p, sort, clients, _, _, _, hmap, _, hpicker, _⟩ := hx.picker_eq
  rw [Instance.getAllPeers, hpicker]
  exact (Picker.getAll_nodup hmap clients).of_map

end Members

end Groupcache
