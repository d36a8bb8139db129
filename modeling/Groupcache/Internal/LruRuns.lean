import Groupcache.Lib.Lru
import Groupcache.Lib.Run
import Groupcache.Internal.Lru

/-! Whole runs of an `lru.Cache`: every added pair is stored or has been reported once, and what
leaves for lack of room is the least recently used entry. -/
namespace Groupcache.Lru

open Lib.Lru (UsedAfter usedAfter_skip usedAfter_touch usedAfter_of_concat)

inductive Call (K V : Type)
  | add (key : K) (value : V) (expire : Time)
  | get (now : Time) (key : K)
  | remove (key : K)
  | removeOldest
  | clear

/-- The value that `Get` found, and the pairs that `OnEvicted` was called with. -/
structure Reply (K V : Type) where
  value : Option V
  evicted : List (K × V)

namespace Call

variable {K V : Type}

def added : Call K V → Option (K × V)
  | add k v _ => some (k, v)
  | _ => none

/-- The key that a call uses: one that it adds, or one that it finds. -/
def used (r : Reply K V) : Call K V → Option K
  | add k _ _ => some k
  | get _ k => if r.value.isSome then some k else none
  | _ => none

end Call

variable {K V : Type} [DecidableEq K] {c : Cache K V} {k : K} {v : V} {e : Time} {n : ℤ}
  {h : List (Call K V × Reply K V)}

/-- The uses of keys in a history. -/
def uses (h : List (Call K V × Reply K V)) : List (Option K) := h.map fun x => x.1.used x.2

namespace Cache

def call (c : Cache K V) : Call K V → Cache K V × Reply K V
  | .add k v e => ((c.add k v e).1, ⟨none, (c.add k v e).2⟩)
  | .get now k => ((c.get now k).1, ⟨(c.get now k).2.1, (c.get now k).2.2⟩)
  | .remove k => ((c.remove k).1, ⟨none, (c.remove k).2⟩)
  | .removeOldest => (c.removeOldest.1, ⟨none, c.removeOldest.2⟩)
  | .clear => (c.clear.1, ⟨none, c.clear.2⟩)

def keys (c : Cache K V) : List K := c.entries.map (·.key)

theorem call_wf (hw : c.Wf) (x : Call K V) : (c.call x).1.Wf := by
  cases x with
  | add => exact add_wf hw
  | get => exact get_wf hw
  | remove => exact remove_wf hw
  | removeOldest => exact removeOldest_wf hw
  | clear => exact clear_wf

theorem call_config (x : Call K V) : (c.call x).1.maxEntries = c.maxEntries ∧
    (c.call x).1.onEvicted = c.onEvicted := by
  cases x with
  | add => exact add_config
  | get => exact get_config
  | remove => exact remove_config
  | removeOldest => exact removeOldest_config
  | clear => exact ⟨rfl, rfl⟩

/-- A call takes in what it adds and reports what it takes out. -/
theorem call_pairs (hw : c.Wf) (ho : c.onEvicted = true) (x : Call K V) :
    ((c.call x).1.pairs ++ (c.call x).2.evicted).Perm (x.added.toList ++ c.pairs) := by
  cases x with
  | add => exact add_pairs hw ho
  | get => exact get_pairs hw ho
  | remove => exact remove_pairs hw ho
  | removeOldest => exact removeOldest_pairs hw ho
  | clear => exact clear_pairs hw ho

/-- `Add` replaces the value of a stored key; a new key goes to the front, and the last entry leaves
if there are too many. -/
theorem add_cases (hw : c.Wf) (k : K) (v : V) (e : Time) :
    (∃ ent ∈ c.entries, ent.key = k ∧
      (c.add k v e).1.entries = ⟨k, v, e⟩ :: c.entries.filter (·.key ≠ k) ∧
      (c.add k v e).2 = c.evict k ent.value) ∨
    k ∉ c.keys ∧
      ((c.maxEntries = 0 ∨ (c.entries.length + 1 : ℤ) ≤ c.maxEntries) ∧
        (c.add k v e).1.entries = ⟨k, v, e⟩ :: c.entries ∧ (c.add k v e).2 = [] ∨
      ∃ l ent, ⟨k, v, e⟩ :: c.entries = l ++ [ent] ∧ (c.add k v e).1.entries = l ∧
        (c.add k v e).2 = c.evict ent.key ent.value) := by
  have hi := init_wf hw
  have hent : c.init.entries = c.entries := by rw [entries, init_ll hw, entries]
  have hevict : ∀ k v, c.init.evict k v = c.evict k v := by simp [evict]
  rw [add, insert]
  cases hl : c.init.locate k with
  | some ele =>
    obtain ⟨he, rfl⟩ := hi.locate_eq_some.mp hl
    refine Or.inl ⟨ele.entry, ?_, rfl, ?_, hevict _ _⟩
    · rw [← hent]
      exact List.mem_map_of_mem he
    · rw [← hent]
      exact toFront_entries hi he
  | none =>
    have hne := hi.locate_eq_none.mp hl
    have hpush := push_wf hi init_cache_isSome hne v e
    have hpushed : (c.init.push k v e).entries = ⟨k, v, e⟩ :: c.entries := by
      rw [← hent]
      rfl
    have hlen : (c.init.push k v e).ll.length = c.entries.length + 1 := by
      simpa [entries] using congrArg List.length hpushed
    refine Or.inr ⟨?_, ?_⟩
    · rw [init_ll hw] at hne
      simpa [keys, entries] using hne
    · simp only [init_maxEntries, hlen]
      split
      · right
        rcases removeOldest_spec hpush with ⟨hnil, _⟩ | ⟨l, ent, hl, hr, hout⟩
        · rw [hpushed] at hnil
          cases hnil
        · exact ⟨l, ent, hpushed ▸ hl, hr, hout.trans (hevict _ _)⟩
      · rename_i hroom
        left
        refine ⟨?_, hpushed, rfl⟩
        omega

theorem keys_toFront {c' : Cache K V} {ent : Entry K V} (hk : ent.key = k)
    (h : c'.entries = ent :: c.entries.filter (·.key ≠ k)) :
    c'.keys = k :: c.keys.filter (· ≠ k) := by
  rw [keys, h, List.map_cons, hk, keys, List.filter_map]
  rfl

theorem add_ordered (hw : c.Wf) {u : List (Option K)} (ho : c.keys.Pairwise (UsedAfter u)) :
    (c.add k v e).1.keys.Pairwise (UsedAfter (u ++ [some k])) := by
  have htouch := usedAfter_touch ho k
  rcases add_cases hw k v e with ⟨ent, _, _, hent, _⟩ | ⟨hnew, hadd⟩
  · have hkeys : (c.add k v e).1.keys = k :: c.keys.filter (· ≠ k) := keys_toFront rfl hent
    exact hkeys ▸ htouch
  · have hkeys : c.keys.filter (· ≠ k) = c.keys := by
      rw [List.filter_eq_self]
      intro k' hk'
      simpa using fun heq : k' = k => hnew (heq ▸ hk')
    rw [hkeys] at htouch
    rcases hadd with ⟨_, hent, _⟩ | ⟨l, ent, hl, hent, _⟩
    · have heq : (c.add k v e).1.keys = k :: c.keys := by rw [keys, hent, List.map_cons, keys]
      exact heq ▸ htouch
    · refine htouch.sublist ?_
      have heq : k :: c.keys = (l ++ [ent]).map (·.key) := by rw [← hl, List.map_cons, keys]
      rw [heq, List.map_append, keys, hent]
      exact List.sublist_append_left _ _

/-- A `Get` that finds a live entry uses its key; another one uses none. -/
theorem get_ordered (hw : c.Wf) {u : List (Option K)} (ho : c.keys.Pairwise (UsedAfter u))
    (now : Time) (k : K) :
    (c.call (.get now k)).1.keys.Pairwise
      (UsedAfter (u ++ [(Call.get now k).used (c.call (.get now k)).2])) := by
  have hget := get_eq hw now k
  unfold lookupEntry at hget
  cases hf : c.entries.find? (·.key = k) with
  | none =>
    simp only [hf] at hget
    simp only [call, Call.used, hget.1]
    refine usedAfter_skip (ho.sublist ?_)
    rw [keys, hget.2, keys]
  | some ent =>
    have hk : ent.key = k := by simpa using List.find?_some hf
    simp only [hf] at hget
    split at hget
    · simp only [call, Call.used, hget.1]
      refine usedAfter_skip (ho.sublist ?_)
      rw [keys, hget.2]
      exact List.filter_sublist.map _
    · simp only [call, Call.used, hget.1]
      have htouch := usedAfter_touch ho k
      rw [← keys_toFront hk hget.2] at htouch
      exact htouch

/-- The keys stay ordered by their last use. -/
theorem call_ordered (hw : c.Wf) {u : List (Option K)} (ho : c.keys.Pairwise (UsedAfter u))
    (x : Call K V) :
    (c.call x).1.keys.Pairwise (UsedAfter (u ++ [x.used (c.call x).2])) := by
  -- the other calls use no key and keep the order of those that stay
  have hsub : ∀ {c' : Cache K V}, c'.keys.Sublist c.keys →
      c'.keys.Pairwise (UsedAfter (u ++ [none])) :=
    fun h => usedAfter_skip (ho.sublist h)
  cases x with
  | add => exact add_ordered hw ho
  | get now k => exact get_ordered hw ho now k
  | remove k =>
    apply hsub
    change ((c.remove k).1.entries.map (·.key)).Sublist _
    rw [remove_entries hw]
    exact List.filter_sublist.map _
  | removeOldest =>
    apply hsub
    change (c.removeOldest.1.entries.map (·.key)).Sublist _
    rw [removeOldest_entries hw]
    exact (List.dropLast_sublist _).map _
  | clear => exact hsub (List.nil_sublist _)

theorem Wf.len_eq (hw : c.Wf) : c.len = c.entries.length := by
  cases hc : c.cache with
  | none => simp [len, hc, entries, hw.nil hc]
  | some m => simp [len, hc, entries]

omit [DecidableEq K] in
theorem length_pairs : c.pairs.length = c.entries.length := by
  simp [pairs]

theorem call_length (hw : c.Wf) (ho : c.onEvicted = true) (hn : 0 < c.maxEntries)
    (hle : (c.entries.length : ℤ) ≤ c.maxEntries) (x : Call K V) :
    ((c.call x).1.entries.length : ℤ) ≤ c.maxEntries := by
  have hpairs := (call_pairs hw ho x).length_eq
  simp only [List.length_append, length_pairs] at hpairs
  cases x with
  | add k v e =>
    change ((c.add k v e).1.entries.length + (c.add k v e).2.length : ℕ) = 1 + _ at hpairs
    change ((c.add k v e).1.entries.length : ℤ) ≤ _
    rcases add_cases hw k v e with
      ⟨ent, _, _, _, hout⟩ | ⟨_, ⟨hroom, hent, _⟩ | ⟨l, ent, _, _, hout⟩⟩
    · rw [hout, evict, if_pos ho, List.length_singleton] at hpairs
      omega
    · rw [hent, List.length_cons]
      omega
    · rw [hout, evict, if_pos ho, List.length_singleton] at hpairs
      omega
  | _ =>
    simp only [Call.added, Option.toList_none, List.length_nil] at hpairs
    omega

end Cache

/-- What holds after a history of calls: the cache is in order, every added pair is accounted for,
and the keys are ordered by their last use. -/
structure Kept (n : ℤ) (h : List (Call K V × Reply K V)) (c : Cache K V) : Prop where
  wf : c.Wf
  onEvicted : c.onEvicted = true
  maxEntries : c.maxEntries = n
  conserved : (h.filterMap (·.1.added)).Perm (h.flatMap (·.2.evicted) ++ c.pairs)
  bound : 0 < n → (c.entries.length : ℤ) ≤ n
  ordered : c.keys.Pairwise (UsedAfter (uses h))

theorem kept_initial (hc : c = new n ∨ c = { empty with maxEntries := n }) : Kept n [] c := by
  have hwf : c.Wf := by
    rcases hc with rfl | rfl
    · exact Cache.new_wf n
    · constructor <;> simp [empty, Cache.lookup]
  have hent : c.entries = [] := by rcases hc with rfl | rfl <;> rfl
  refine ⟨hwf, ?_, ?_, by simp [Cache.pairs, hent], ?_, by simp [Cache.keys, hent]⟩
  · rcases hc with rfl | rfl <;> rfl
  · rcases hc with rfl | rfl <;> rfl
  · intro hn
    simpa [hent] using hn.le

theorem Kept.step (hc : Kept n h c) (x : Call K V) :
    Kept n (h ++ [(x, (c.call x).2)]) (c.call x).1 := by
  obtain ⟨hw, ho, hmax, hcons, hbound, hord⟩ := hc
  refine ⟨Cache.call_wf hw x, (Cache.call_config x).2.trans ho, (Cache.call_config x).1.trans hmax,
    ?_, ?_, ?_⟩
  · have hpairs := Cache.call_pairs hw ho x
    have hadded : [(x, (c.call x).2)].filterMap (·.1.added) = x.added.toList := by
      cases hx : x.added <;> simp [hx]
    have hrest : (c.pairs ++ x.added.toList).Perm ((c.call x).2.evicted ++ (c.call x).1.pairs) :=
      List.perm_append_comm.trans (hpairs.symm.trans List.perm_append_comm)
    have hall := hcons.append_right x.added.toList
    rw [List.append_assoc] at hall
    rw [List.filterMap_append, hadded, List.flatMap_append, List.flatMap_singleton,
      List.append_assoc]
    exact hall.trans (hrest.append_left _)
  · intro hn
    rw [← hmax] at hn hbound ⊢
    exact Cache.call_length hw ho hn (hbound hn) x
  · rw [uses, List.map_append]
    exact Cache.call_ordered hw hord x

omit [DecidableEq K] in
/-- Since the last entry was used, all others have been. -/
theorem usedAfter_last_entry {l : List (Entry K V)} {ent : Entry K V} {u : List (Option K)}
    (ho : ((l ++ [ent]).map (·.key)).Pairwise (UsedAfter u)) {k : K}
    (hk : k ∈ (l ++ [ent]).map (·.key)) (hne : k ≠ ent.key) : UsedAfter u k ent.key := by
  rw [List.map_append] at ho hk
  refine usedAfter_of_concat ho ?_
  simpa [hne] using hk

/-- `RemoveOldest` reports the entry that was used longest ago. -/
theorem Kept.removeOldest (hc : Kept n h c) {k : K} {v : V} (hout : (k, v) ∈ c.removeOldest.2) :
    (k, v) ∈ c.pairs ∧ ∀ k' ∈ c.keys, k' ≠ k → UsedAfter (uses h) k' k := by
  rcases Cache.removeOldest_spec hc.wf with ⟨_, hr⟩ | ⟨l, ent, hent, _, hr⟩
  · rw [hr] at hout
    cases hout
  · rw [hr, Cache.evict, if_pos hc.onEvicted] at hout
    cases List.mem_singleton.mp hout
    refine ⟨by simp [Cache.pairs, hent], ?_⟩
    intro k' hk' hne
    have hord := hc.ordered
    rw [Cache.keys, hent] at hk' hord
    exact usedAfter_last_entry hord hk' hne

/-- So does an `Add` of a new key that leaves too many entries, the new one among them. -/
theorem Kept.add (hc : Kept n h c) {k k' : K} {v v' : V} {e : Time} (hnew : k ∉ c.keys)
    (hout : (k', v') ∈ (c.add k v e).2) :
    (k', v') ∈ (k, v) :: c.pairs ∧
      ∀ b ∈ k :: c.keys, b ≠ k' → UsedAfter (uses h ++ [some k]) b k' := by
  have htouch := usedAfter_touch hc.ordered k
  have hkeys : c.keys.filter (· ≠ k) = c.keys := by
    rw [List.filter_eq_self]
    intro b hb
    simpa using fun heq : b = k => hnew (heq ▸ hb)
  rw [hkeys] at htouch
  rcases Cache.add_cases hc.wf k v e with ⟨ent, hmem, hk, _⟩ | ⟨_, ⟨_, _, hr⟩ | ⟨l, ent, hl, _, hr⟩⟩
  · exact (hnew (hk ▸ List.mem_map_of_mem hmem)).elim
  · rw [hr] at hout
    cases hout
  · rw [hr, Cache.evict, if_pos hc.onEvicted] at hout
    cases List.mem_singleton.mp hout
    have hpairs : (k, v) :: c.pairs = (l ++ [ent]).map fun ent => (ent.key, ent.value) := by
      rw [← hl, List.map_cons, Cache.pairs]
    have hall : k :: c.keys = (l ++ [ent]).map (·.key) := by rw [← hl, List.map_cons, Cache.keys]
    rw [hall] at htouch ⊢
    refine ⟨by simp [hpairs], fun b hb hne => usedAfter_last_entry htouch hb hne⟩

/-- On every run each added pair is stored or was reported once, the entries stay within the limit,
and what leaves for lack of room, or by `RemoveOldest`, is what was used longest ago. -/
theorem lru_conserves (n : ℤ) (hc : c = new n ∨ c = { empty with maxEntries := n })
    (calls : List (Call K V)) :
    ∃ c' rs, Lib.runCalls (fun c x => some (c.call x)) c calls = some (c', rs) ∧
      rs.length = calls.length ∧ c'.Wf ∧
      (calls.filterMap Call.added).Perm (rs.flatMap (·.evicted) ++ c'.pairs) ∧
      (0 < n → (c'.len : ℤ) ≤ n) ∧
      (∀ k v, (k, v) ∈ c'.removeOldest.2 → (k, v) ∈ c'.pairs ∧
        ∀ b ∈ c'.keys, b ≠ k → UsedAfter (uses (calls.zip rs)) b k) ∧
      ∀ k v e k' v', k ∉ c'.keys → (k', v') ∈ (c'.add k v e).2 → (k', v') ∈ (k, v) :: c'.pairs ∧
        ∀ b ∈ k :: c'.keys, b ≠ k' → UsedAfter (uses (calls.zip rs) ++ [some k]) b k' := by
  obtain ⟨c', rs, hrun, hlen, hkept⟩ := Lib.runCalls_invariant (J := Kept n)
    (f := fun c x => some (c.call x)) (fun _ _ x hk => ⟨_, _, rfl, hk.step x⟩) calls
    (kept_initial hc)
  rw [List.nil_append] at hkept
  refine ⟨c', rs, hrun, hlen, hkept.wf, ?_, ?_, fun k v hout => hkept.removeOldest hout,
    fun k v e k' v' hnew hout => hkept.add hnew hout⟩
  · have hcons := hkept.conserved
    have hadded : (calls.zip rs).filterMap (·.1.added) = calls.filterMap Call.added := by
      conv_rhs => rw [← List.map_fst_zip hlen.ge, List.filterMap_map]
      rfl
    have hout : (calls.zip rs).flatMap (·.2.evicted) = rs.flatMap (·.evicted) := by
      conv_rhs => rw [← List.map_snd_zip hlen.le, List.flatMap_map]
    rwa [hadded, hout] at hcons
  · intro hpos
    have hle := hkept.bound hpos
    rw [hkept.wf.len_eq]
    exact hle

/-- Room for two: a lookup saves the first key, so that the second leaves for the third. -/
theorem lru_conserves_two : ∃ c' rs,
    Lib.runCalls (fun c x => some (Cache.call c x)) (new 2 : Cache ℕ ℕ)
      [.add 1 10 .zero, .add 2 20 .zero, .get .zero 1, .add 3 30 .zero] = some (c', rs) ∧
    c'.keys = [3, 1] ∧ c'.Wf ∧
    [(1, 10), (2, 20), (3, 30)].Perm (rs.flatMap (·.evicted) ++ c'.pairs) ∧ (c'.len : ℤ) ≤ 2 := by
  obtain ⟨c', rs, hrun, _, hwf, hcons, hlen, _⟩ := lru_conserves 2 (Or.inl rfl)
    [.add 1 10 .zero, .add 2 20 .zero, .get .zero 1, .add 3 30 .zero]
  refine ⟨c', rs, hrun, ?_, hwf, hcons, hlen (by decide)⟩
  cases hrun
  rfl

end Groupcache.Lru
