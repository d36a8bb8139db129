import Mathlib.Data.List.AList
import Groupcache.Transport.ByteView

/-! `internal/lru`: a map of list elements kept in order of use. The calls of `OnEvicted`
are returned by each operation, oldest first. -/
namespace Groupcache.Lru

structure Entry (K V : Type) where
  key : K
  value : V
  expire : Time
  deriving DecidableEq, Repr

/-- A `*list.Element`; `id` is the pointer. -/
structure Element (K V : Type) where
  id : ℕ
  entry : Entry K V
  deriving DecidableEq, Repr

/-- `lru.Cache`. The map is nil until the first `Add`; `fresh` is the next unused pointer. -/
structure Cache (K V : Type) where
  maxEntries : ℤ
  onEvicted : Bool
  ll : List (Element K V)
  cache : Option (AList fun _ : K => ℕ)
  fresh : ℕ

variable {K V : Type} [DecidableEq K] {c : Cache K V} {k : K} {v : V} {e : Time}

/-- The zero value `&lru.Cache{OnEvicted: f}`, with no entry limit. -/
def empty : Cache K V := { maxEntries := 0, onEvicted := true, ll := [], cache := none, fresh := 0 }

/-- `New`, with `OnEvicted` set afterwards. -/
def new (maxEntries : ℤ) : Cache K V :=
  { maxEntries := maxEntries, onEvicted := true, ll := [], cache := some ∅, fresh := 0 }

namespace Cache

/-- `c.cache[key]`; a nil map has no entries. -/
def lookup (c : Cache K V) (key : K) : Option ℕ := c.cache.bind (·.lookup key)

/-- The element a pointer refers to. -/
def deref (c : Cache K V) (p : ℕ) : Option (Element K V) := c.ll.find? (·.id == p)

/-- The element `c.cache[key]` points to. -/
def locate (c : Cache K V) (key : K) : Option (Element K V) := (c.lookup key).bind c.deref

/-- `c.OnEvicted(key, value)`, unless the callback is nil. -/
def evict (c : Cache K V) (key : K) (value : V) : List (K × V) :=
  if c.onEvicted then [(key, value)] else []

def removeElement (c : Cache K V) (ele : Element K V) : Cache K V × List (K × V) :=
  ({ c with ll := c.ll.filter (·.id != ele.id), cache := c.cache.map (·.erase ele.entry.key) },
    c.evict ele.entry.key ele.entry.value)

def removeOldest (c : Cache K V) : Cache K V × List (K × V) :=
  match c.cache, c.ll.getLast? with
  | some _, some ele => c.removeElement ele
  | _, _ => (c, [])

/-- The nil check at the head of `Add`. -/
def init (c : Cache K V) : Cache K V :=
  match c.cache with
  | none => { c with cache := some ∅, ll := [] }
  | some _ => c

/-- `PushFront` of a new entry, and its pointer entered into the map. -/
def push (c : Cache K V) (key : K) (value : V) (expire : Time) : Cache K V :=
  { c with
    ll := ⟨c.fresh, key, value, expire⟩ :: c.ll
    cache := c.cache.map (·.insert key c.fresh)
    fresh := c.fresh + 1 }

/-- `MoveToFront` of a stored element whose entry now holds `value` and `expire`. -/
def toFront (c : Cache K V) (ele : Element K V) (value : V) (expire : Time) : Cache K V :=
  { c with ll := ⟨ele.id, ele.entry.key, value, expire⟩ :: c.ll.filter (·.id != ele.id) }

/-- `Add`, once the map exists. -/
def insert (c : Cache K V) (key : K) (value : V) (expire : Time) : Cache K V × List (K × V) :=
  match c.locate key with
  | some ee => (c.toFront ee value expire, c.evict key ee.entry.value)
  | none =>
    if c.maxEntries ≠ 0 ∧ ((c.push key value expire).ll.length : ℤ) > c.maxEntries then
      (c.push key value expire).removeOldest
    else (c.push key value expire, [])

def add (c : Cache K V) (key : K) (value : V) (expire : Time) : Cache K V × List (K × V) :=
  c.init.insert key value expire

/-- An entry whose expiry is set and lies before `now`. -/
def expired (ent : Entry K V) (now : Time) : Bool := !ent.expire.isZero && ent.expire.before now

/-- `Get`; `now` is the reading of `c.Now()`. -/
def get (c : Cache K V) (now : Time) (key : K) : Cache K V × Option V × List (K × V) :=
  match c.locate key with
  | some ele =>
    if expired ele.entry now then ((c.removeElement ele).1, none, (c.removeElement ele).2)
    else (c.toFront ele ele.entry.value ele.entry.expire, some ele.entry.value, [])
  | none => (c, none, [])

def remove (c : Cache K V) (key : K) : Cache K V × List (K × V) :=
  match c.locate key with
  | some ele => c.removeElement ele
  | none => (c, [])

def len (c : Cache K V) : ℕ :=
  match c.cache with
  | none => 0
  | some _ => c.ll.length

/-- `Clear`, with the map walked in one of the orders an iteration may take. -/
def clear (c : Cache K V) : Cache K V × List (K × V) :=
  ({ c with ll := [], cache := none },
    match c.cache with
    | none => []
    | some m => (m.entries.filterMap fun kp => c.deref kp.2).flatMap fun ele =>
        c.evict ele.entry.key ele.entry.value)

/-- The stored entries, most recently used first. -/
def entries (c : Cache K V) : List (Entry K V) := c.ll.map (·.entry)

/-- The map and the list agree, and no pointer and no key occurs twice. -/
structure Wf (c : Cache K V) : Prop where
  nil : c.cache = none → c.ll = []
  ids : (c.ll.map (·.id)).Nodup
  keys : (c.ll.map (·.entry.key)).Nodup
  ids_lt : ∀ ele ∈ c.ll, ele.id < c.fresh
  lookup_iff : ∀ key p, c.lookup key = some p ↔ ∃ ele ∈ c.ll, ele.entry.key = key ∧ ele.id = p

/-- The stored pairs, as `OnEvicted` reports them. -/
def pairs (c : Cache K V) : List (K × V) := c.entries.map fun ent => (ent.key, ent.value)

theorem empty_wf : (empty : Cache K V).Wf := by
  constructor <;> simp [empty, lookup]

theorem Wf.eq_of_id {a b : Element K V} (hw : c.Wf) (ha : a ∈ c.ll) (hb : b ∈ c.ll)
    (h : a.id = b.id) : a = b :=
  List.inj_on_of_nodup_map hw.ids ha hb h

theorem Wf.eq_of_key {a b : Element K V} (hw : c.Wf) (ha : a ∈ c.ll) (hb : b ∈ c.ll)
    (h : a.entry.key = b.entry.key) : a = b :=
  List.inj_on_of_nodup_map hw.keys ha hb h

theorem Wf.deref_eq {ele : Element K V} (hw : c.Wf) (he : ele ∈ c.ll) :
    c.deref ele.id = some ele := by
  cases hd : c.deref ele.id with
  | none =>
    have := List.find?_eq_none.mp hd ele he
    simp at this
  | some x =>
    have hx := List.find?_some hd
    rw [hw.eq_of_id (List.mem_of_find?_eq_some hd) he (by simpa using hx)]

theorem Wf.locate_eq_some {ele : Element K V} (hw : c.Wf) :
    c.locate k = some ele ↔ ele ∈ c.ll ∧ ele.entry.key = k := by
  constructor
  · intro h
    obtain ⟨p, hp, hd⟩ := Option.bind_eq_some_iff.mp h
    obtain ⟨x, hx, hk, rfl⟩ := (hw.lookup_iff k p).mp hp
    rw [hw.deref_eq hx, Option.some.injEq] at hd
    exact hd ▸ ⟨hx, hk⟩
  · rintro ⟨he, hk⟩
    have hl := (hw.lookup_iff k ele.id).mpr ⟨ele, he, hk, rfl⟩
    simp [locate, hl, hw.deref_eq he]

theorem Wf.locate_eq_none (hw : c.Wf) :
    c.locate k = none ↔ ∀ ele ∈ c.ll, ele.entry.key ≠ k := by
  constructor
  · intro h ele he hk
    have := hw.locate_eq_some.mpr ⟨he, hk⟩
    simp [h] at this
  · intro h
    cases hl : c.locate k with
    | none => rfl
    | some ele =>
      obtain ⟨he, hk⟩ := hw.locate_eq_some.mp hl
      exact (h ele he hk).elim

/-- Dropping an element by its pointer is dropping it by its key. -/
theorem Wf.filter_id {ele : Element K V} (hw : c.Wf) (he : ele ∈ c.ll) :
    c.ll.filter (·.id != ele.id) = c.ll.filter (·.entry.key ≠ ele.entry.key) := by
  apply List.filter_congr
  intro x hx
  by_cases h : x = ele
  · simp [h]
  · have hid : x.id ≠ ele.id := fun hi => h (hw.eq_of_id hx he hi)
    have hkey : x.entry.key ≠ ele.entry.key := fun hk => h (hw.eq_of_key hx he hk)
    rw [bne_iff_ne.mpr hid, decide_eq_true hkey]

theorem removeElement_wf {ele : Element K V} (hw : c.Wf) (he : ele ∈ c.ll) :
    (c.removeElement ele).1.Wf := by
  refine ⟨?_, ?_, ?_, ?_, ?_⟩
  · intro h
    have hc : c.cache = none := by simpa [removeElement] using h
    simp [removeElement, hw.nil hc]
  · exact (List.filter_sublist.map _).nodup hw.ids
  · exact (List.filter_sublist.map _).nodup hw.keys
  · intro x hx
    exact hw.ids_lt x (List.mem_filter.mp hx).1
  · intro key p
    have hl : (c.removeElement ele).1.lookup key =
        if key = ele.entry.key then none else c.lookup key := by
      cases hc : c.cache with
      | none => simp [removeElement, lookup, hc]
      | some m =>
        by_cases hk : key = ele.entry.key
        · subst hk
          simp [removeElement, lookup, hc, AList.lookup_erase]
        · simp [removeElement, lookup, hc, hk, AList.lookup_erase_ne hk]
    rw [hl]
    constructor
    · intro h
      split at h
      · cases h
      · rename_i hk
        obtain ⟨x, hx, hxk, hxp⟩ := (hw.lookup_iff key p).mp h
        refine ⟨x, List.mem_filter.mpr ⟨hx, ?_⟩, hxk, hxp⟩
        have hne : x.id ≠ ele.id := by
          intro hi
          exact hk (hxk ▸ congrArg (·.entry.key) (hw.eq_of_id hx he hi))
        simpa using hne
    · rintro ⟨x, hx, hxk, hxp⟩
      obtain ⟨hx, hne⟩ := List.mem_filter.mp hx
      have hk : key ≠ ele.entry.key := by
        intro hk
        rw [hw.eq_of_key hx he (hxk.trans hk)] at hne
        simp at hne
      rw [if_neg hk]
      exact (hw.lookup_iff key p).mpr ⟨x, hx, hxk, hxp⟩

theorem removeElement_entries {ele : Element K V} (hw : c.Wf) (he : ele ∈ c.ll) :
    (c.removeElement ele).1.entries = c.entries.filter (·.key ≠ ele.entry.key) := by
  simp only [entries, removeElement, hw.filter_id he, List.filter_map]
  rfl

theorem Wf.cons_filter_perm {ele : Element K V} (hw : c.Wf) (he : ele ∈ c.ll) :
    (ele :: c.ll.filter (·.id != ele.id)).Perm c.ll := by
  have hsplit := List.filter_append_perm (fun x : Element K V => x.id != ele.id) c.ll
  have hsingle : c.ll.filter (fun x => !(x.id != ele.id)) = [ele] := by
    have hnd : (c.ll.filter fun x => !(x.id != ele.id)).Nodup :=
      List.Nodup.filter _ (List.Nodup.of_map _ hw.ids)
    apply List.perm_singleton.mp
    rw [List.perm_ext_iff_of_nodup hnd (List.nodup_singleton ele)]
    intro x
    constructor
    · intro hx
      obtain ⟨hx, hid⟩ := List.mem_filter.mp hx
      simp [hw.eq_of_id hx he (by simpa using hid)]
    · intro hx
      rw [List.mem_singleton.mp hx]
      simpa using he
  rw [hsingle] at hsplit
  exact (List.perm_append_singleton ele _).symm.trans hsplit

/-- What is taken out is also reported, if the callback is set. -/
theorem removeElement_pairs {ele : Element K V} (hw : c.Wf) (ho : c.onEvicted = true)
    (he : ele ∈ c.ll) :
    ((c.removeElement ele).1.pairs ++ (c.removeElement ele).2).Perm c.pairs := by
  have hmap := (hw.cons_filter_perm he).map fun x => (x.entry.key, x.entry.value)
  simp only [pairs, entries, removeElement, evict, ho, if_true, List.map_map]
  exact (List.perm_append_singleton _ _).trans hmap

theorem toFront_pairs {ele : Element K V} (hw : c.Wf) (he : ele ∈ c.ll) :
    ((c.toFront ele v e).pairs ++ [(ele.entry.key, ele.entry.value)]).Perm
      ((ele.entry.key, v) :: c.pairs) := by
  have hmap := (hw.cons_filter_perm he).map fun x => (x.entry.key, x.entry.value)
  simp only [pairs, entries, toFront, List.map_map, List.map_cons, List.cons_append]
  exact ((List.perm_append_singleton _ _).trans hmap).cons _

theorem init_wf (hw : c.Wf) : c.init.Wf := by
  cases hc : c.cache with
  | some m => simpa [init, hc] using hw
  | none => constructor <;> simp [init, hc, lookup]

theorem init_ll (hw : c.Wf) : c.init.ll = c.ll := by
  cases hc : c.cache with
  | some m => simp [init, hc]
  | none => simp [init, hc, hw.nil hc]

omit [DecidableEq K] in
@[simp] theorem init_maxEntries : c.init.maxEntries = c.maxEntries := by
  unfold init
  split <;> rfl

omit [DecidableEq K] in
@[simp] theorem init_onEvicted : c.init.onEvicted = c.onEvicted := by
  unfold init
  split <;> rfl

omit [DecidableEq K] in
theorem init_cache_isSome : c.init.cache.isSome := by
  unfold init
  split <;> simp_all

theorem removeOldest_wf (hw : c.Wf) : c.removeOldest.1.Wf := by
  unfold removeOldest
  split
  · rename_i hl
    exact removeElement_wf hw (List.mem_of_getLast? hl)
  · exact hw

theorem toFront_wf {ele : Element K V} (hw : c.Wf) (he : ele ∈ c.ll) (v : V) (e : Time) :
    (c.toFront ele v e).Wf := by
  have hne : ∀ x ∈ c.ll.filter (·.id != ele.id), x ∈ c.ll ∧ x.id ≠ ele.id := by
    intro x hx
    simpa using List.mem_filter.mp hx
  refine ⟨?_, ?_, ?_, ?_, ?_⟩
  · intro h
    simp [hw.nil h] at he
  · simp only [toFront, List.map_cons, List.nodup_cons, List.mem_map, not_exists, not_and]
    exact ⟨fun x hx => (hne x hx).2, (List.filter_sublist.map _).nodup hw.ids⟩
  · simp only [toFront, List.map_cons, List.nodup_cons, List.mem_map, not_exists, not_and]
    refine ⟨?_, (List.filter_sublist.map _).nodup hw.keys⟩
    intro x hx hk
    exact (hne x hx).2 (congrArg (·.id) (hw.eq_of_key (hne x hx).1 he hk))
  · intro x hx
    rcases List.mem_cons.mp hx with rfl | hx
    · exact hw.ids_lt ele he
    · exact hw.ids_lt x (hne x hx).1
  · intro key p
    rw [show (c.toFront ele v e).lookup key = c.lookup key from rfl, hw.lookup_iff key p]
    constructor
    · rintro ⟨x, hx, hk, hp⟩
      by_cases hid : x.id = ele.id
      · rw [hw.eq_of_id hx he hid] at hk hp
        exact ⟨_, List.mem_cons_self, hk, hp⟩
      · exact ⟨x, List.mem_cons_of_mem _ (List.mem_filter.mpr ⟨hx, by simpa using hid⟩), hk, hp⟩
    · rintro ⟨x, hx, hk, hp⟩
      rcases List.mem_cons.mp hx with rfl | hx
      · exact ⟨ele, he, hk, hp⟩
      · exact ⟨x, (hne x hx).1, hk, hp⟩

theorem push_wf (hw : c.Wf) (hc : c.cache.isSome) (hk : ∀ ele ∈ c.ll, ele.entry.key ≠ k)
    (v : V) (e : Time) : (c.push k v e).Wf := by
  obtain ⟨m, hm⟩ := Option.isSome_iff_exists.mp hc
  refine ⟨?_, ?_, ?_, ?_, ?_⟩
  · intro h
    simp [push, hm] at h
  · simp only [push, List.map_cons, List.nodup_cons, List.mem_map, not_exists, not_and]
    exact ⟨fun x hx => (hw.ids_lt x hx).ne, hw.ids⟩
  · simp only [push, List.map_cons, List.nodup_cons, List.mem_map, not_exists, not_and]
    exact ⟨hk, hw.keys⟩
  · intro x hx
    rcases List.mem_cons.mp hx with rfl | hx
    · exact Nat.lt_succ_self _
    · exact Nat.lt_succ_of_lt (hw.ids_lt x hx)
  · intro key p
    have hold := hw.lookup_iff key p
    simp only [push, lookup, hm, Option.map_some, Option.bind_some] at hold ⊢
    by_cases hkey : key = k
    · subst hkey
      rw [AList.lookup_insert]
      constructor
      · intro h
        exact ⟨_, List.mem_cons_self, rfl, by simpa using h⟩
      · rintro ⟨x, hx, hxk, hxp⟩
        rcases List.mem_cons.mp hx with rfl | hx
        · simpa using hxp
        · exact (hk x hx hxk).elim
    · rw [AList.lookup_insert_ne hkey, hold]
      constructor
      · rintro ⟨x, hx, h⟩
        exact ⟨x, List.mem_cons_of_mem _ hx, h⟩
      · rintro ⟨x, hx, h⟩
        rcases List.mem_cons.mp hx with rfl | hx
        · exact (hkey h.1.symm).elim
        · exact ⟨x, hx, h⟩

theorem insert_wf (hw : c.Wf) (hc : c.cache.isSome) : (c.insert k v e).1.Wf := by
  unfold insert
  split
  · rename_i ele hl
    obtain ⟨he, rfl⟩ := hw.locate_eq_some.mp hl
    exact toFront_wf hw he v e
  · rename_i hl
    have hp := push_wf hw hc (hw.locate_eq_none.mp hl) v e
    split
    · exact removeOldest_wf hp
    · exact hp

theorem add_wf (hw : c.Wf) : (c.add k v e).1.Wf :=
  insert_wf (init_wf hw) init_cache_isSome

theorem get_wf {now : Time} (hw : c.Wf) : (c.get now k).1.Wf := by
  unfold get
  split
  · rename_i ele hl
    obtain ⟨he, _⟩ := hw.locate_eq_some.mp hl
    split
    · exact removeElement_wf hw he
    · exact toFront_wf hw he _ _
  · exact hw

theorem remove_wf (hw : c.Wf) : (c.remove k).1.Wf := by
  unfold remove
  split
  · rename_i ele hl
    exact removeElement_wf hw (hw.locate_eq_some.mp hl).1
  · exact hw

/-- The entry stored under a key, expired or not. -/
def lookupEntry (c : Cache K V) (key : K) : Option (Entry K V) := c.entries.find? (·.key = key)

theorem Wf.lookupEntry_of_locate {ele : Element K V} (hw : c.Wf) (h : c.locate k = some ele) :
    c.lookupEntry k = some ele.entry := by
  obtain ⟨he, hk⟩ := hw.locate_eq_some.mp h
  rw [lookupEntry, entries, List.find?_map]
  cases hf : c.ll.find? ((fun ent : Entry K V => decide (ent.key = k)) ∘ fun x => x.entry) with
  | none =>
    have := List.find?_eq_none.mp hf ele he
    simp [hk] at this
  | some x =>
    have hx : x.entry.key = k := by simpa using List.find?_some hf
    rw [hw.eq_of_key (List.mem_of_find?_eq_some hf) he (hx.trans hk.symm)]
    rfl

theorem Wf.lookupEntry_eq_none (hw : c.Wf) (h : c.locate k = none) : c.lookupEntry k = none := by
  have hne := hw.locate_eq_none.mp h
  simp only [lookupEntry, entries, List.find?_eq_none, List.mem_map, forall_exists_index, and_imp,
    forall_apply_eq_imp_iff₂, decide_eq_true_eq]
  exact hne

theorem toFront_entries {ele : Element K V} (hw : c.Wf) (he : ele ∈ c.ll) :
    (c.toFront ele v e).entries =
      ⟨ele.entry.key, v, e⟩ :: c.entries.filter (·.key ≠ ele.entry.key) := by
  simp only [entries, toFront, hw.filter_id he, List.map_cons, List.filter_map]
  rfl

/-- Without an entry limit `Add` puts the new entry in front and drops the old one. -/
theorem add_entries (hw : c.Wf) (hm : c.maxEntries = 0) :
    (c.add k v e).1.entries = ⟨k, v, e⟩ :: c.entries.filter (·.key ≠ k) := by
  have hi := init_wf hw
  have hll : c.init.entries = c.entries := by rw [entries, init_ll hw, entries]
  rw [add, insert, ← hll]
  split
  · rename_i ele hl
    obtain ⟨he, rfl⟩ := hi.locate_eq_some.mp hl
    exact toFront_entries hi he
  · rename_i hl
    have hne := hi.locate_eq_none.mp hl
    rw [if_neg (by simp [hm])]
    have hfilter : c.init.entries.filter (·.key ≠ k) = c.init.entries := by
      apply List.filter_eq_self.mpr
      simpa [entries] using hne
    rw [hfilter]
    rfl

theorem remove_entries (hw : c.Wf) :
    (c.remove k).1.entries = c.entries.filter (·.key ≠ k) := by
  unfold remove
  split
  · rename_i ele hl
    obtain ⟨he, rfl⟩ := hw.locate_eq_some.mp hl
    exact removeElement_entries hw he
  · rename_i hl
    symm
    apply List.filter_eq_self.mpr
    simpa [entries] using hw.locate_eq_none.mp hl

/-- A live entry is returned and moves to the front; an expired one is dropped. -/
theorem get_eq (hw : c.Wf) (now : Time) (k : K) :
    match c.lookupEntry k with
    | some ent =>
      if expired ent now then
        (c.get now k).2.1 = none ∧ (c.get now k).1.entries = c.entries.filter (·.key ≠ k)
      else
        (c.get now k).2.1 = some ent.value ∧
          (c.get now k).1.entries = ent :: c.entries.filter (·.key ≠ k)
    | none => (c.get now k).2.1 = none ∧ (c.get now k).1 = c := by
  unfold get
  cases hl : c.locate k with
  | none => simp [hw.lookupEntry_eq_none hl]
  | some ele =>
    obtain ⟨he, rfl⟩ := hw.locate_eq_some.mp hl
    simp only [hw.lookupEntry_of_locate hl]
    by_cases hx : expired ele.entry now
    · simp [hx, removeElement_entries hw he]
    · simp [hx, toFront_entries hw he]

theorem init_pairs (hw : c.Wf) : c.init.pairs = c.pairs := by
  rw [pairs, entries, init_ll hw, pairs, entries]

theorem removeOldest_pairs (hw : c.Wf) (ho : c.onEvicted = true) :
    (c.removeOldest.1.pairs ++ c.removeOldest.2).Perm c.pairs := by
  unfold removeOldest
  split
  · rename_i hl
    exact removeElement_pairs hw ho (List.mem_of_getLast? hl)
  · simp

/-- Each added pair is stored, and what leaves for it is reported exactly once. -/
theorem add_pairs (hw : c.Wf) (ho : c.onEvicted = true) :
    ((c.add k v e).1.pairs ++ (c.add k v e).2).Perm ((k, v) :: c.pairs) := by
  have hi := init_wf hw
  rw [← init_pairs hw, add, insert]
  split
  · rename_i ele hl
    obtain ⟨he, rfl⟩ := hi.locate_eq_some.mp hl
    simpa [evict, ho] using toFront_pairs hi he
  · rename_i hl
    have hp := push_wf hi init_cache_isSome (hi.locate_eq_none.mp hl) v e
    split
    · exact removeOldest_pairs hp (by simpa [push] using ho)
    · simp [pairs, entries, push]

theorem get_pairs {now : Time} (hw : c.Wf) (ho : c.onEvicted = true) :
    ((c.get now k).1.pairs ++ (c.get now k).2.2).Perm c.pairs := by
  unfold get
  split
  · rename_i ele hl
    obtain ⟨he, rfl⟩ := hw.locate_eq_some.mp hl
    split
    · exact removeElement_pairs hw ho he
    · have hmap := (hw.cons_filter_perm he).map fun x => (x.entry.key, x.entry.value)
      simp only [pairs, entries, toFront, List.map_map, List.map_cons, List.append_nil]
      exact hmap
  · simp

theorem remove_pairs (hw : c.Wf) (ho : c.onEvicted = true) :
    ((c.remove k).1.pairs ++ (c.remove k).2).Perm c.pairs := by
  unfold remove
  split
  · rename_i ele hl
    exact removeElement_pairs hw ho (hw.locate_eq_some.mp hl).1
  · simp

@[simp] theorem removeElement_config (ele : Element K V) :
    (c.removeElement ele).1.maxEntries = c.maxEntries ∧
      (c.removeElement ele).1.onEvicted = c.onEvicted := ⟨rfl, rfl⟩

@[simp] theorem removeOldest_config : c.removeOldest.1.maxEntries = c.maxEntries ∧
    c.removeOldest.1.onEvicted = c.onEvicted := by
  unfold removeOldest
  split <;> simp

@[simp] theorem add_config : (c.add k v e).1.maxEntries = c.maxEntries ∧
    (c.add k v e).1.onEvicted = c.onEvicted := by
  unfold add insert
  split
  · simp [toFront]
  · split <;> simp [push]

@[simp] theorem get_config {now : Time} : (c.get now k).1.maxEntries = c.maxEntries ∧
    (c.get now k).1.onEvicted = c.onEvicted := by
  unfold get
  split
  · split <;> simp [toFront]
  · simp

@[simp] theorem remove_config : (c.remove k).1.maxEntries = c.maxEntries ∧
    (c.remove k).1.onEvicted = c.onEvicted := by
  unfold remove
  split <;> simp

/-- `RemoveOldest` takes out the last entry of the list and reports it. -/
theorem removeOldest_spec (hw : c.Wf) : c.entries = [] ∧ c.removeOldest = (c, []) ∨
    ∃ l ent, c.entries = l ++ [ent] ∧ c.removeOldest.1.entries = l ∧
      c.removeOldest.2 = c.evict ent.key ent.value := by
  unfold removeOldest
  split
  · rename_i m ele hc hl
    right
    obtain ⟨l, hll⟩ := List.getLast?_eq_some_iff.mp hl
    have hne : ∀ x ∈ l, x.id != ele.id := by
      intro x hx
      have hnd := hw.ids
      rw [hll, List.map_append, List.nodup_append] at hnd
      simpa using hnd.2.2 x.id (List.mem_map_of_mem hx) ele.id (by simp)
    refine ⟨l.map (·.entry), ele.entry, by simp [entries, hll], ?_, rfl⟩
    simp only [entries, removeElement, hll, List.filter_append, List.filter_eq_self.mpr hne,
      List.map_append]
    simp
  · rename_i h
    left
    refine ⟨?_, rfl⟩
    cases hc : c.cache with
    | none => simp [entries, hw.nil hc]
    | some m =>
      cases hl : c.ll.getLast? with
      | none => simp [entries, List.getLast?_eq_none_iff.mp hl]
      | some ele => exact (h m ele hc hl).elim

theorem removeOldest_entries (hw : c.Wf) : c.removeOldest.1.entries = c.entries.dropLast := by
  rcases removeOldest_spec hw with ⟨hnil, hr⟩ | ⟨l, ent, hent, hr, _⟩
  · rw [hr, hnil]
    rfl
  · rw [hr, hent, List.dropLast_concat]

theorem new_wf (n : ℤ) : (new n : Cache K V).Wf := by
  constructor <;> simp [new, lookup]

theorem clear_wf : c.clear.1.Wf := by
  constructor <;> simp [clear, lookup]

/-- The map leads to each element of the list once. -/
theorem Wf.deref_perm {m : AList fun _ : K => ℕ} (hw : c.Wf) (hc : c.cache = some m) :
    (m.entries.filterMap fun kp => c.deref kp.2).Perm c.ll := by
  have hmem : ∀ kp ∈ m.entries, ∃ ele ∈ c.ll, ele.entry.key = kp.1 ∧ c.deref kp.2 = some ele := by
    intro kp hkp
    have hlook : c.lookup kp.1 = some kp.2 := by
      rw [lookup, hc]
      exact AList.mem_lookup_iff.mpr hkp
    obtain ⟨ele, hele, hkey, hid⟩ := (hw.lookup_iff _ _).mp hlook
    exact ⟨ele, hele, hkey, hid ▸ hw.deref_eq hele⟩
  have hnd : (m.entries.filterMap fun kp => c.deref kp.2).Nodup := by
    rw [List.Nodup, List.pairwise_filterMap]
    have hkeys : m.entries.Pairwise fun a b => a.1 ≠ b.1 := List.pairwise_map.mp m.nodupKeys
    refine hkeys.imp_of_mem ?_
    intro a b ha hb hne x hx y hy heq
    obtain ⟨_, _, hka, hda⟩ := hmem a ha
    obtain ⟨_, _, hkb, hdb⟩ := hmem b hb
    rw [hx] at hda
    rw [hy, ← heq] at hdb
    cases hda
    cases hdb
    exact hne (hka.symm.trans hkb)
  rw [List.perm_ext_iff_of_nodup hnd (List.Nodup.of_map _ hw.ids)]
  intro ele
  rw [List.mem_filterMap]
  constructor
  · rintro ⟨kp, hkp, hele⟩
    obtain ⟨x, hx, _, hd⟩ := hmem kp hkp
    rw [hele] at hd
    cases hd
    exact hx
  · intro hele
    have hlook : c.lookup ele.entry.key = some ele.id :=
      (hw.lookup_iff _ _).mpr ⟨ele, hele, rfl, rfl⟩
    rw [lookup, hc] at hlook
    exact ⟨⟨ele.entry.key, ele.id⟩, AList.mem_lookup_iff.mp hlook, hw.deref_eq hele⟩

/-- `Clear` reports every stored pair. -/
theorem clear_pairs (hw : c.Wf) (ho : c.onEvicted = true) : c.clear.2.Perm c.pairs := by
  cases hc : c.cache with
  | none => simp [clear, hc, pairs, entries, hw.nil hc]
  | some m =>
    simp only [clear, hc, evict, ho, if_true, pairs, entries, List.map_map, ← List.map_eq_flatMap]
    exact (hw.deref_perm hc).map _

end Cache

end Groupcache.Lru
