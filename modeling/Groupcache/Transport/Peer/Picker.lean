import Mathlib.Data.List.AList
import Mathlib.Data.List.Induction
import Groupcache.Lib.Ring
import Groupcache.Transport.Peer.Md5

/-! `transport/peer`: clients and the picker that maps keys to them on a hash ring. -/
namespace Groupcache.Peer

structure Info where
  address : GoString
  isSelf : Bool
deriving DecidableEq

abbrev HashFn := GoString → UInt64

structure Options where
  hashFn : Option HashFn
  replicas : ℤ

/-- A `Client`: `id` is its pointer, and `PeerInfo()` returns `info` for the clients
of every transport as for `NoOpClient`. -/
structure Client where
  id : ℕ
  info : Info
deriving DecidableEq

def Client.hashKey (c : Client) : GoString := c.info.address

structure Entry where
  hash : ℤ
  client : Client
deriving DecidableEq

structure Picker where
  hashFn : HashFn
  replicas : ℤ
  keys : List Entry
  clientMap : AList fun _ : GoString => Client

def defaultReplicas : ℤ := 50

/-- `NewPicker`; `fnv1` is the third-party default hash. -/
def newPicker (fnv1 : HashFn) (opts : Options) : Picker :=
  { hashFn := opts.hashFn.getD fnv1
    replicas := if opts.replicas = 0 then defaultReplicas else opts.replicas
    keys := []
    clientMap := ∅ }

/-- `strconv.Itoa` of an index. -/
def itoa (i : ℕ) : GoString := (Nat.toDigits 10 i).map fun c => UInt8.ofNat c.toNat

/-- The conversion `int(..)` of a `uint64`. -/
def toInt (h : UInt64) : ℤ := h.toBitVec.toInt

/-- The text a replica's place on the ring is computed from. -/
def pointInput (i : ℕ) (address : GoString) : GoString := itoa i ++ address

/-- The place on the ring that a text hashes to. -/
def inputHash (hashFn : HashFn) (input : GoString) : ℤ := toInt (hashFn (Md5.hex (Md5.sum input)))

/-- The place of replica `i` of an address on the ring. -/
def pointHash (hashFn : HashFn) (i : ℕ) (address : GoString) : ℤ :=
  inputHash hashFn (pointInput i address)

/-- What `sort.Slice` by hash may do to a slice: it is not stable, so nothing is said of the
order of entries with equal hashes. -/
structure SortSlice where
  sort : List Entry → List Entry
  perm : ∀ l, (sort l).Perm l
  sorted : ∀ l, (sort l).Pairwise fun a b => a.hash ≤ b.hash

namespace Picker

def isEmpty (p : Picker) : Bool := p.keys.length == 0

/-- The entries that `Add` appends for a client. -/
def points (p : Picker) (client : Client) : List Entry :=
  (List.range p.replicas.toNat).map fun i =>
    { hash := pointHash p.hashFn i client.hashKey, client := client }

def add (sort : SortSlice) (p : Picker) (client : Client) : Picker :=
  { p with
    clientMap := p.clientMap.insert client.hashKey client
    keys := sort.sort (p.keys ++ p.points client) }

def get (p : Picker) (key : GoString) : Option Client :=
  if p.isEmpty then none
  else
    let hash := toInt (p.hashFn key)
    let idx := Lib.search p.keys.length fun i => p.keys[i]?.any fun e => decide (hash ≤ e.hash)
    let idx := if idx = p.keys.length then 0 else idx
    p.keys[idx]?.map (·.client)

/-- `PickPeer`: the client, and whether it is remote. -/
def pickPeer (p : Picker) (key : GoString) : Option Client × Bool :=
  if p.isEmpty then (none, false)
  else
    let c := p.get key
    (c, c.any fun c => !c.info.isSelf)

/-- `GetAll`, in one of the orders a map iteration may take. -/
def getAll (p : Picker) : List Client := p.clientMap.entries.map (·.2)

/-- The picker after a sequence of `Add` calls. -/
def addAll (sort : SortSlice) (p : Picker) (clients : List Client) : Picker :=
  clients.foldl (add sort) p

end Picker

namespace Picker

variable {sort : SortSlice} {p : Picker} {client : Client} {clients : List Client} {key : GoString}
  {e : Entry}

theorem mem_points : e ∈ p.points client ↔
    e.client = client ∧ ∃ i < p.replicas.toNat, e.hash = pointHash p.hashFn i client.hashKey := by
  simp only [points, List.mem_map, List.mem_range]
  constructor
  · rintro ⟨i, hi, rfl⟩
    exact ⟨rfl, i, hi, rfl⟩
  · rintro ⟨rfl, i, hi, he⟩
    exact ⟨i, hi, by rw [← he]⟩

theorem addAll_config (sort : SortSlice) (p : Picker) (clients : List Client) :
    (p.addAll sort clients).hashFn = p.hashFn ∧ (p.addAll sort clients).replicas = p.replicas := by
  induction clients generalizing p with
  | nil => exact ⟨rfl, rfl⟩
  | cons c cs ih => exact ih (p.add sort c)

/-- The ring holds the points of every client that was added, whatever the sort did. -/
theorem addAll_keys (sort : SortSlice) (p : Picker) (clients : List Client) :
    (p.addAll sort clients).keys.Perm (p.keys ++ clients.flatMap p.points) := by
  induction clients generalizing p with
  | nil => simp [addAll]
  | cons c cs ih =>
    have hadd : (p.add sort c).keys.Perm (p.keys ++ p.points c) := sort.perm _
    rw [List.flatMap_cons, ← List.append_assoc]
    exact (ih (p.add sort c)).trans (hadd.append_right _)

theorem addAll_pairwise {r : Entry → Entry → Prop} (hsort : ∀ l, (sort.sort l).Pairwise r)
    (hp : p.keys.Pairwise r) : (p.addAll sort clients).keys.Pairwise r := by
  induction clients generalizing p with
  | nil => exact hp
  | cons c cs ih => exact ih (hsort _)

/-- In a ring sorted by `f`, of which the search can see the bound `h`, `Get` names the client
of the entry that a walk from `h` meets first. -/
theorem get_first (key : GoString) {α : Type} [LinearOrder α] {f : Entry → α} {h : α}
    (hf : ∀ e, h ≤ f e ↔ toInt (p.hashFn key) ≤ e.hash)
    (hp : p.keys.Pairwise fun a b => f a ≤ f b) (hne : p.keys ≠ []) :
    ∃ e ∈ p.keys, p.get key = some e.client ∧
      ∀ e' ∈ p.keys, Lib.lap h (f e) ≤ Lib.lap h (f e') := by
  have hlen : 0 < p.keys.length := List.length_pos_iff.mpr hne
  set pred : ℕ → Bool := fun i => p.keys[i]?.any fun e => decide (toInt (p.hashFn key) ≤ e.hash)
    with hpred
  have hat : ∀ i e, p.keys[i]? = some e → (pred i = true ↔ h ≤ f e) := by
    intro i e he
    simp [hpred, he, hf]
  have hmono : ∀ a b, a ≤ b → b < p.keys.length → pred a = true → pred b = true := by
    intro a b hab hb ha
    have hea := List.getElem?_eq_getElem (show a < p.keys.length by omega)
    have heb := List.getElem?_eq_getElem hb
    rw [hat _ _ hea] at ha
    rw [hat _ _ heb]
    rcases hab.eq_or_lt with rfl | hlt
    · exact ha
    · exact ha.trans (List.pairwise_iff_getElem.mp hp a b (by omega) hb hlt)
  obtain ⟨hle, hlow, hhigh⟩ := Lib.search_spec hmono
  set idx := Lib.search p.keys.length pred with hidx
  have hbound : (if idx = p.keys.length then 0 else idx) < p.keys.length := by
    split <;> omega
  have hget := List.getElem?_eq_getElem hbound
  refine ⟨_, List.getElem_mem hbound, ?_, Lib.lap_le_of_sorted hp ?_ ?_ hget⟩
  · have hemp : p.isEmpty = false := by simpa [isEmpty] using hne
    rw [get, hemp]
    exact congrArg (Option.map (·.client)) hget
  · intro j hj e he
    have hfalse := hlow j hj
    by_contra hlt
    rw [(hat j e he).mpr (not_lt.mp hlt)] at hfalse
    cases hfalse
  · intro j hj e he
    exact (hat j e he).mp (hhigh j hj (List.getElem?_eq_some_iff.mp he).1)

theorem pickPeer_of_get (h : p.get key = some client) :
    p.pickPeer key = (some client, !client.info.isSelf) := by
  have hemp : p.isEmpty = false := by
    by_contra hemp
    simp [get, hemp] at h
  simp [pickPeer, hemp, h]

theorem get_of_pickPeer {isRemote : Bool} (h : p.pickPeer key = (some client, isRemote)) :
    p.get key = some client := by
  unfold pickPeer at h
  split at h
  · cases h
  · exact (Prod.mk.inj h).1

theorem mem_getAll : client ∈ p.getAll ↔ ∃ a, p.clientMap.lookup a = some client := by
  simp only [getAll, List.mem_map]
  constructor
  · rintro ⟨⟨a, c⟩, hmem, rfl⟩
    exact ⟨a, AList.mem_lookup_iff.mpr hmem⟩
  · rintro ⟨a, ha⟩
    exact ⟨⟨a, client⟩, AList.mem_lookup_iff.mp ha, rfl⟩

/-- The map holds, under its address, the last client that was added for it. -/
theorem addAll_lookup (sort : SortSlice) (clients : List Client) (hp : p.clientMap = ∅)
    (a : GoString) :
    (p.addAll sort clients).clientMap.lookup a =
      clients.reverse.find? fun c => c.hashKey = a := by
  induction clients using List.reverseRecOn with
  | nil => simp [addAll, hp]
  | append_singleton cs c ih =>
    have hlast : p.addAll sort (cs ++ [c]) = (p.addAll sort cs).add sort c := by simp [addAll]
    rw [hlast, List.reverse_append, List.reverse_singleton, List.singleton_append]
    by_cases ha : c.hashKey = a
    · subst ha
      simp [add]
    · rw [List.find?_cons_of_neg (by simpa using ha), ← ih]
      exact AList.lookup_insert_ne (Ne.symm ha)

/-- `GetAll` returns clients that were added. -/
theorem mem_of_mem_getAll (hp : p.clientMap = ∅) (h : client ∈ (p.addAll sort clients).getAll) :
    client ∈ clients := by
  obtain ⟨a, ha⟩ := mem_getAll.mp h
  rw [addAll_lookup sort clients hp] at ha
  simpa using List.mem_of_find?_eq_some ha

/-- `GetAll` returns a client for each address that was added. -/
theorem exists_mem_getAll (sort : SortSlice) (hp : p.clientMap = ∅) (h : client ∈ clients) :
    ∃ c ∈ (p.addAll sort clients).getAll, c.hashKey = client.hashKey := by
  cases hf : clients.reverse.find? fun c => c.hashKey = client.hashKey with
  | none => simpa using List.find?_eq_none.mp hf client (by simpa using h)
  | some c =>
    refine ⟨c, mem_getAll.mpr ⟨client.hashKey, ?_⟩, by simpa using List.find?_some hf⟩
    rw [addAll_lookup sort clients hp, hf]

/-- `GetAll` returns all clients that were added, if their addresses differ. -/
theorem mem_getAll_of_nodup (hp : p.clientMap = ∅) (hnd : (clients.map (·.hashKey)).Nodup)
    (h : client ∈ clients) : client ∈ (p.addAll sort clients).getAll := by
  obtain ⟨c, hc, hkey⟩ := exists_mem_getAll sort hp h
  rwa [← List.inj_on_of_nodup_map hnd (mem_of_mem_getAll hp hc) h hkey]

theorem getAll_nodup (hp : p.clientMap = ∅) (clients : List Client) :
    ((p.addAll sort clients).getAll.map (·.hashKey)).Nodup := by
  set m := (p.addAll sort clients).clientMap with hm
  have hkey : m.entries.map (fun e => e.2.hashKey) = m.entries.map (·.1) := by
    apply List.map_congr_left
    rintro ⟨a, c⟩ he
    have hlook : m.lookup a = some c := AList.mem_lookup_iff.mpr he
    rw [hm, addAll_lookup sort clients hp] at hlook
    simpa using List.find?_some hlook
  rw [getAll, List.map_map]
  change (m.entries.map fun e => e.2.hashKey).Nodup
  rw [hkey]
  exact m.nodupKeys

/-- Clients of one address are one client. -/
theorem getAll_inj (hp : p.clientMap = ∅) {c c' : Client}
    (hc : c ∈ (p.addAll sort clients).getAll) (hc' : c' ∈ (p.addAll sort clients).getAll)
    (h : c.hashKey = c'.hashKey) : c = c' := by
  have hkey : ∀ {c : Client}, c ∈ (p.addAll sort clients).getAll →
      (p.addAll sort clients).clientMap.lookup c.hashKey = some c := by
    intro c hc
    obtain ⟨a, ha⟩ := mem_getAll.mp hc
    have hfind := addAll_lookup sort clients hp a
    rw [ha] at hfind
    obtain rfl : c.hashKey = a := by simpa using List.find?_some hfind.symm
    exact ha
  exact Option.some.inj ((hkey hc).symm.trans (h ▸ hkey hc'))

/-- `Get` names a client that was added. -/
theorem mem_of_get (hp : p.keys = []) (h : (p.addAll sort clients).get key = some client) :
    client ∈ clients := by
  unfold get at h
  split at h
  · cases h
  · obtain ⟨e, he, rfl⟩ := Option.map_eq_some_iff.mp h
    have hmem := (p.addAll_keys sort clients).mem_iff.mp (List.mem_of_getElem? he)
    rw [hp, List.nil_append, List.mem_flatMap] at hmem
    obtain ⟨c, hc, hpoint⟩ := hmem
    exact (mem_points.mp hpoint).1 ▸ hc

/-- The client's address was not added again after it. -/
def Last (clients : List Client) (client : Client) : Prop :=
  ∃ before after, clients = before ++ client :: after ∧
    ∀ c ∈ after, c.hashKey ≠ client.hashKey

theorem last_iff : Last clients client ↔
    clients.reverse.find? (fun c => c.hashKey = client.hashKey) = some client := by
  rw [List.find?_eq_some_iff_append]
  constructor
  · rintro ⟨before, after, rfl, hafter⟩
    refine ⟨by simp, after.reverse, before.reverse, by simp, ?_⟩
    intro c hc
    simpa using hafter c (by simpa using hc)
  · rintro ⟨_, after, before, heq, hafter⟩
    refine ⟨before.reverse, after.reverse, ?_, ?_⟩
    · rw [← List.reverse_reverse clients, heq]
      simp
    · intro c hc
      simpa using hafter c (by simpa using hc)

/-- `GetAll` returns the last client that was added for each address. -/
theorem mem_getAll_iff (hp : p.clientMap = ∅) :
    client ∈ (p.addAll sort clients).getAll ↔ Last clients client := by
  rw [mem_getAll, last_iff]
  simp only [addAll_lookup sort clients hp]
  constructor
  · rintro ⟨a, ha⟩
    obtain rfl : client.hashKey = a := by simpa using List.find?_some ha
    exact ha
  · exact fun h => ⟨_, h⟩

/-- The point is the least one from `h` upwards, or the least of all if there is none there. -/
structure Nearest (keys : List Entry) (h : ℤ) (e : Entry) : Prop where
  mem : e ∈ keys
  least : (h ≤ e.hash ∧ ∀ e' ∈ keys, h ≤ e'.hash → e.hash ≤ e'.hash) ∨
    (∀ e' ∈ keys, e'.hash < h) ∧ ∀ e' ∈ keys, e.hash ≤ e'.hash

/-- `Get` names the client of such a point. -/
theorem get_nearest (key : GoString) (hp : p.keys.Pairwise fun a b => a.hash ≤ b.hash)
    (hne : p.keys ≠ []) :
    ∃ e, p.get key = some e.client ∧ Nearest p.keys (toInt (p.hashFn key)) e := by
  obtain ⟨e, he, hget, hmin⟩ := get_first key (f := Entry.hash) (fun _ => Iff.rfl) hp hne
  refine ⟨e, hget, he, ?_⟩
  by_cases hle : toInt (p.hashFn key) ≤ e.hash
  · left
    refine ⟨hle, ?_⟩
    intro e' he' hle'
    rcases Lib.lap_le_iff.mp (hmin e' he') with ⟨_, hlt⟩ | ⟨_, h⟩
    · omega
    · exact h
  · right
    have hwrap : ∀ e' ∈ p.keys, e'.hash < toInt (p.hashFn key) ∧ e.hash ≤ e'.hash := by
      intro e' he'
      rcases Lib.lap_le_iff.mp (hmin e' he') with ⟨hge, _⟩ | ⟨hiff, h⟩
      · exact (hle hge).elim
      · exact ⟨hiff.mp (by omega), h⟩
    exact ⟨fun e' he' => (hwrap e' he').1, fun e' he' => (hwrap e' he').2⟩

end Picker

end Groupcache.Peer
