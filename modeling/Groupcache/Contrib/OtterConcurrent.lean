import Groupcache.Contrib.Otter
import Groupcache.Lib.Linearizability

/-! Concurrent calls of an `OtterCache`, whose `Get` is up to three steps: otter's lookup, a reading
of the clock, and the deletion of what has expired. The library is a parameter whose own calls are
atomic and which evicts nothing here; the wrapper's counters are left out. -/
namespace Groupcache.Contrib.Interleaved

open Transport Lib
open Lib.Lru (Call Reply)
open OtterCache (expired cost)

inductive Op
  | add (key : GoString) (value : ByteView)
  | get (key : GoString)
  | remove (key : GoString)

/-- Where a call stands; in `Get` the clock is only read for an entry that has an expiry. -/
inductive Loc
  | called (op : Op)
  | found (key : GoString) (v : ByteView)
  | expired (key : GoString) (now : Time)
  | done (r : Reply ByteView)
  | returned

/-- `drop` is the `Delete` of `Get`, `delete` that of `Remove`. -/
inductive Event
  | invoke (op : Op)
  | set (key : GoString) (value : ByteView)
  | lookup (key : GoString) (r : Option ByteView)
  | clock (now : Time)
  | drop (key : GoString) (now : Time)
  | delete (key : GoString)
  | ret (r : Reply ByteView)

variable {C : Type} (L : Otter C)

/-- A step of one call. -/
inductive Act (c : C) : Option Loc → Event → C → Loc → Prop
  | invoke (op : Op) : Act c none (.invoke op) c (.called op)
  | set {k v} : Act c (some (.called (.add k v))) (.set k v) (L.set c k v (cost v)).1 (.done .done)
  | miss {k} (h : L.entry c k = none) :
      Act c (some (.called (.get k))) (.lookup k none) (L.get c k).1 (.done (.got none))
  | lasting {k v} (h : L.entry c k = some v) (he : v.expire.isZero = true) :
      Act c (some (.called (.get k))) (.lookup k (some v)) (L.get c k).1 (.done (.got (some v)))
  | found {k v} (h : L.entry c k = some v) (he : v.expire.isZero = false) :
      Act c (some (.called (.get k))) (.lookup k (some v)) (L.get c k).1 (.found k v)
  | fresh {k v} (now : Time) (h : v.expire.before now = false) :
      Act c (some (.found k v)) (.clock now) c (.done (.got (some v)))
  | expired {k v} (now : Time) (h : v.expire.before now = true) :
      Act c (some (.found k v)) (.clock now) c (.expired k now)
  | drop {k now} : Act c (some (.expired k now)) (.drop k now) (L.delete c k) (.done (.got none))
  | delete {k} : Act c (some (.called (.remove k))) (.delete k) (L.delete c k) (.done .done)
  | ret {r} : Act c (some (.done r)) (.ret r) c .returned

/-- The library's cache, and the calls by process; a process makes one call. -/
structure State (C P : Type) where
  cache : C
  pc : P → Option Loc

/-- All interleavings of any calls, from any contents. -/
def lts (P : Type) [DecidableEq P] (c₀ : C) : LTS (State C P) (P × Event) where
  Init s := s.cache = c₀ ∧ ∀ p, s.pc p = none
  Step s l t := ∃ loc, Act L s.cache (s.pc l.1) l.2 t.cache loc ∧
    t.pc = Function.update s.pc l.1 (some loc)

/-- The call stands for the operation, at a clock reading that `reads` allows. -/
def Op.Stands (reads : Time → Prop) : Op → Call GoString ByteView Time → Prop
  | .add k v, .add k' v' => k' = k ∧ v' = v
  | .get k, .get now k' => k' = k ∧ reads now
  | .remove k, .remove k' => k' = k
  | _, _ => False

section History

variable {P : Type}

/-- What the callers see. -/
def event : P × Event → Option (HistoryEvent P Op (Reply ByteView))
  | (p, .invoke op) => some (.inv p op)
  | (p, .ret r) => some (.res p r)
  | _ => none

/-- A time the call has read, or any if it has read none. -/
def Reads (ls : List (P × Event)) (p : P) (now : Time) : Prop :=
  (p, .clock now) ∈ ls ∨ ∀ now', (p, .clock now') ∉ ls

/-- Otter stores what it is given. -/
def Stores (s : State C P) (l : P × Event) (_ : State C P) : Prop :=
  ∀ k v, l.2 = .set k v → 10 * cost v ≤ L.capacity s.cache

/-- A `Get` only deletes what has expired at its reading of the clock. -/
def DropsExpired (s : State C P) (l : P × Event) (_ : State C P) : Prop :=
  ∀ k now v, l.2 = .drop k now → L.entry s.cache k = some v → expired v now = true

/-- The runs in which both hold. -/
def soundLTS (P : Type) [DecidableEq P] (c₀ : C) : LTS (State C P) (P × Event) :=
  (lts L P c₀).restrict fun s l t => Stores L s l t ∧ DropsExpired L s l t

end History

/-- The events of a call up to where it stands. -/
inductive Path : List Event → Loc → Prop
  | invoke (op : Op) : Path [.invoke op] (.called op)
  | set {k v} : Path [.invoke (.add k v), .set k v] (.done .done)
  | miss {k} : Path [.invoke (.get k), .lookup k none] (.done (.got none))
  | lasting {k v} (he : v.expire.isZero = true) :
      Path [.invoke (.get k), .lookup k (some v)] (.done (.got (some v)))
  | found {k v} (he : v.expire.isZero = false) :
      Path [.invoke (.get k), .lookup k (some v)] (.found k v)
  | fresh {k v now} (h : v.expire.before now = false) :
      Path [.invoke (.get k), .lookup k (some v), .clock now] (.done (.got (some v)))
  | expired {k v now} : Path [.invoke (.get k), .lookup k (some v), .clock now] (.expired k now)
  | drop {k v now} : Path [.invoke (.get k), .lookup k (some v), .clock now, .drop k now]
      (.done (.got none))
  | delete {k} : Path [.invoke (.remove k), .delete k] (.done .done)
  | ret {es r} (h : Path es (.done r)) : Path (es ++ [.ret r]) .returned

variable {L} {c c' : C} {es : List Event} {e : Event} {loc loc' : Loc}

theorem Path.step (h : Path es loc) (ha : Act L c (some loc) e c' loc') :
    Path (es ++ [e]) loc' := by
  cases ha with
  | set | miss | delete =>
    cases h
    constructor
  | lasting _ he =>
    cases h
    exact .lasting he
  | found _ he =>
    cases h
    exact .found he
  | fresh now hf =>
    cases h
    exact .fresh hf
  | expired now hf =>
    cases h
    exact .expired
  | drop =>
    cases h
    exact .drop
  | ret => exact .ret h

theorem Act.of_none (h : Act L c none e c' loc) : ∃ op, e = .invoke op ∧ loc = .called op := by
  cases h
  exact ⟨_, rfl, rfl⟩

/-- A call begins once. -/
theorem Path.first (h : Path es loc) :
    ∃ op tail, es = .invoke op :: tail ∧ ∀ op', .invoke op' ∉ tail := by
  induction h with
  | ret _ ih =>
    obtain ⟨op, tail, rfl, htail⟩ := ih
    exact ⟨op, _, rfl, fun op' => by simpa using htail op'⟩
  | _ => exact ⟨_, _, rfl, by simp⟩

theorem Path.no_ret {r r' : Reply ByteView} (h : Path es (.done r)) : .ret r' ∉ es := by
  cases h <;> simp

/-- A call that has returned has been done before. -/
theorem Path.of_ret {r : Reply ByteView} (h : Path es loc) (hr : .ret r ∈ es) :
    ∃ es', es = es' ++ [.ret r] ∧ Path es' (.done r) := by
  cases h with
  | @ret es' r' h =>
    rcases List.mem_append.mp hr with hr | hr
    · exact (h.no_ret hr).elim
    · cases List.mem_singleton.mp hr
      exact ⟨es', rfl, h⟩
  | _ => simp at hr

section Runs

variable {P : Type} [DecidableEq P] {c₀ : C} {ls ls₁ ls₂ : List (P × Event)} {s : State C P}
  {p q : P} {k : GoString} {now : Time}

/-- The events of one call. -/
def own (ls : List (P × Event)) (p : P) : List Event := (ls.filter (·.1 = p)).map (·.2)

theorem mem_own : e ∈ own ls p ↔ (p, e) ∈ ls := by
  simp [own]

theorem own_append : own (ls₁ ++ ls₂) p = own ls₁ p ++ own ls₂ p := by
  simp [own]

theorem filter_eq_own : ls.filter (·.1 = p) = (own ls p).map fun e => (p, e) := by
  rw [own, List.map_map]
  refine (List.map_id _).symm.trans (List.map_congr_left fun l hl => ?_)
  have hp : l.1 = p := by simpa using (List.mem_filter.mp hl).2
  simp [← hp]

/-- Every call has followed its path. -/
theorem own_path (h : (lts L P c₀).Run ls s) (p : P) :
    (s.pc p = none → own ls p = []) ∧ ∀ loc, s.pc p = some loc → Path (own ls p) loc := by
  induction h with
  | init hi => exact ⟨fun _ => rfl, by simp [hi.2 p]⟩
  | @step ls s t l _ hs ih =>
    obtain ⟨loc, ha, hpc⟩ := hs
    by_cases hp : l.1 = p
    · subst hp
      have hlast : own [l] l.1 = [l.2] := by simp [own]
      rw [own_append, hlast, hpc]
      refine ⟨by simp, ?_⟩
      rintro loc' heq
      obtain rfl : loc = loc' := by simpa using heq
      cases hloc : s.pc l.1 with
      | none =>
        rw [hloc] at ha
        obtain ⟨op, he, rfl⟩ := ha.of_none
        rw [ih.1 hloc, he]
        exact .invoke op
      | some loc₀ =>
        rw [hloc] at ha
        exact (ih.2 loc₀ hloc).step ha
    · have hnil : own [l] p = [] := by simp [own, hp]
      rw [own_append, hnil, List.append_nil, hpc, Function.update_of_ne (Ne.symm hp)]
      exact ih

theorem exists_path (h : (lts L P c₀).Run ls s) (he : (p, e) ∈ ls) :
    ∃ loc, Path (own ls p) loc := by
  cases hloc : s.pc p with
  | none =>
    have hmem := mem_own.mpr he
    rw [(own_path h p).1 hloc] at hmem
    cases hmem
  | some loc => exact ⟨loc, (own_path h p).2 loc hloc⟩

/-- The call has returned and deleted nothing; a `Get` then takes effect at its lookup. -/
def Kept (ls : List (P × Event)) (p : P) : Prop :=
  (∃ r, (p, .ret r) ∈ ls) ∧ ∀ k now, (p, .drop k now) ∉ ls

open Classical in
/-- The call's reading of the clock, if it has made one. -/
noncomputable def reading (ls : List (P × Event)) (p : P) : Time :=
  if h : ∃ now, (p, .clock now) ∈ ls then h.choose else .zero

open Classical in
/-- Where each call takes effect: at its `Set` or `Delete`, or at its lookup. -/
noncomputable def point (ls : List (P × Event)) :
    P × Event → Option (Done P (Call GoString ByteView Time) (Reply ByteView))
  | (p, .set k v) => some ⟨p, .add k v, .done⟩
  | (p, .lookup k r) => if Kept ls p then some ⟨p, .get (reading ls p) k, .got r⟩ else none
  | (p, .drop k now) => some ⟨p, .get now k, .got none⟩
  | (p, .delete k) => some ⟨p, .remove k, .done⟩
  | _ => none

omit [DecidableEq P] in
theorem reads_reading (ls : List (P × Event)) (p : P) : Reads ls p (reading ls p) := by
  by_cases h : ∃ now, (p, .clock now) ∈ ls
  · rw [reading, dif_pos h]
    exact Or.inl h.choose_spec
  · exact Or.inr (not_exists.mp h)

/-- What a call has found and kept had not expired at its reading. -/
theorem not_expired_of_kept (h : (lts L P c₀).Run ls s) (hk : Kept ls p) {v : ByteView}
    (hl : (p, .lookup k (some v)) ∈ ls) : expired v (reading ls p) = false := by
  obtain ⟨⟨r, hr⟩, hdrop⟩ := hk
  obtain ⟨loc, hpath⟩ := exists_path h hr
  obtain ⟨es, hes, hdone⟩ := hpath.of_ret (mem_own.mpr hr)
  have hfound : .lookup k (some v) ∈ es := by simpa [hes] using mem_own.mpr hl
  cases hdone with
  | set | miss | delete => simp at hfound
  | lasting he =>
    obtain ⟨_, rfl⟩ : k = _ ∧ v = _ := by simpa using hfound
    simp [expired, he]
  | @fresh k' v' now hf =>
    obtain ⟨_, rfl⟩ : k = _ ∧ v = _ := by simpa using hfound
    have hnow : reading ls p = now := by
      rcases reads_reading ls p with hread | hnone
      · simpa [hes] using mem_own.mpr hread
      · exact (hnone now (mem_own.mp (by simp [hes]))).elim
    simp [expired, hnow, hf]
  | @drop k' v' now => exact (hdrop k' now (mem_own.mp (by simp [hes]))).elim

variable (L) in
/-- The sequential cache holds the same. -/
def Agrees (c : C) (o : OtterCache C) : Prop :=
  L.capacity o.cache = L.capacity c ∧ ∀ k, o.find? L k = L.entry c k

section Agrees

variable {o : OtterCache C} {v : ByteView}

theorem Agrees.lookup (h : Agrees L c o) (hL : L.Contract) (k : GoString) :
    Agrees L (L.get c k).1 o :=
  ⟨h.1.trans (hL.capacity_get c k).symm, fun k' => (h.2 k').trans (hL.get c k k').symm⟩

theorem Agrees.get (h : Agrees L c o) (hL : L.Contract) (now : Time)
    (hfresh : ∀ v, L.entry c k = some v → expired v now = false) :
    (o.get L now k).2 = L.entry c k ∧ Agrees L (L.get c k).1 (o.get L now k).1 := by
  obtain ⟨hreply, hfind⟩ := OtterCache.get_of_not_expired hL
    fun v hv => hfresh v ((h.2 k).symm.trans hv)
  have hsame := h.lookup hL k
  exact ⟨hreply.trans (h.2 k), (OtterCache.get_capacity hL).trans hsame.1,
    fun k' => (hfind k').trans (hsame.2 k')⟩

theorem Agrees.drop (h : Agrees L c o) (hL : L.Contract) (now : Time)
    (hexpired : ∀ v, L.entry c k = some v → expired v now = true) :
    (o.get L now k).2 = none ∧ Agrees L (L.delete c k) (o.get L now k).1 := by
  have hcap : L.capacity (o.get L now k).1.cache = L.capacity (L.delete c k) := by
    rw [OtterCache.get_capacity hL, h.1, hL.capacity_delete]
  cases hk : L.entry c k with
  | none =>
    obtain ⟨hreply, hagrees⟩ := h.get (k := k) hL now (by simp [hk])
    refine ⟨hreply.trans hk, hcap, fun k' => ?_⟩
    rw [hagrees.2 k', hL.get, hL.delete]
    split
    · rename_i heq
      rw [heq, hk]
    · rfl
  | some v =>
    obtain ⟨hreply, hfind⟩ := OtterCache.get_of_expired hL ((h.2 k).trans hk) (hexpired v hk)
    refine ⟨hreply, hcap, fun k' => ?_⟩
    rw [hfind, hL.delete, h.2]

theorem Agrees.add (h : Agrees L c o) (hL : L.Contract) (hc : 10 * cost v ≤ L.capacity c) :
    Agrees L (L.set c k v (cost v)).1 (o.add L k v) := by
  refine ⟨((OtterCache.add_capacity hL).trans h.1).trans (hL.capacity_set ..).symm, fun k' => ?_⟩
  rw [OtterCache.find?_add hL, (hL.stores c k v _ hc).2, h.1, h.2]
  simp only [hc, true_and]

theorem Agrees.remove (h : Agrees L c o) (hL : L.Contract) (k : GoString) :
    Agrees L (L.delete c k) (o.remove L k) := by
  refine ⟨((hL.capacity_delete ..).trans h.1).trans (hL.capacity_delete ..).symm, fun k' => ?_⟩
  rw [OtterCache.find?_remove hL, hL.delete, h.2]

end Agrees

omit [DecidableEq P] in
/-- At its point a call does what it does alone. -/
theorem commits_of_act (hL : L.Contract) {pc : Option Loc} {o : OtterCache C}
    (ha : Act L c pc e c' loc) (ho : Agrees L c o)
    (hstores : ∀ k v, e = .set k v → 10 * cost v ≤ L.capacity c)
    (hkept : ∀ k v, e = .lookup k (some v) → Kept ls p → expired v (reading ls p) = false)
    (hdrop : ∀ k now v, e = .drop k now → L.entry c k = some v → expired v now = true) :
    TakesEffect (OtterCache.call L) (Agrees L) c' o (point ls (p, e)) := by
  have hlookup : ∀ k r, L.entry c k = r →
      (∀ v, r = some v → Kept ls p → expired v (reading ls p) = false) →
      TakesEffect (OtterCache.call L) (Agrees L) (L.get c k).1 o (point ls (p, .lookup k r)) := by
    rintro k _ rfl hfresh
    by_cases hk : Kept ls p
    · rw [point, if_pos hk]
      obtain ⟨hreply, hagrees⟩ := ho.get hL (reading ls p) fun v hv => hfresh v hv hk
      exact ⟨congrArg Reply.got hreply, hagrees⟩
    · rw [point, if_neg hk]
      exact ho.lookup hL k
  cases ha with
  | invoke | fresh | expired | ret => exact ho
  | set => exact ⟨rfl, ho.add hL (hstores _ _ rfl)⟩
  | delete => exact ⟨rfl, ho.remove hL _⟩
  | miss h => exact hlookup _ _ h nofun
  | lasting h | found h => exact hlookup _ _ h fun v hv => hkept _ v (by rw [hv])
  | drop =>
    obtain ⟨hreply, hagrees⟩ := ho.drop hL _ fun v => hdrop _ _ v rfl
    exact ⟨congrArg Reply.got hreply, hagrees⟩

theorem commits (hL : L.Contract) (h : (lts L P c₀).Run ls s) :
    Commits (soundLTS L P c₀) (OtterCache.call L) (fun s => Agrees L s.cache) (point ls) ls := by
  rintro s ⟨p, e⟩ t o hl ⟨⟨loc, ha, _⟩, hstores, hdrop⟩ ho
  have hkept : ∀ k v, e = .lookup k (some v) → Kept ls p → expired v (reading ls p) = false := by
    rintro k v rfl hk
    exact not_expired_of_kept h hk hl
  have heffect := commits_of_act hL ha ho hstores hkept hdrop
  revert heffect
  cases point ls (p, e) <;> exact id

omit [DecidableEq P] in
theorem point_cases {d : Done P (Call GoString ByteView Time) (Reply ByteView)}
    (h : point ls (p, e) = some d) :
    (∃ k v, e = .set k v ∧ d = ⟨p, .add k v, .done⟩) ∨
    (∃ k r, e = .lookup k r ∧ d = ⟨p, .get (reading ls p) k, .got r⟩) ∨
    (∃ k now, e = .drop k now ∧ d = ⟨p, .get now k, .got none⟩) ∨
    ∃ k, e = .delete k ∧ d = ⟨p, .remove k, .done⟩ := by
  cases e with
  | set k v => exact Or.inl ⟨k, v, rfl, (Option.some.inj h).symm⟩
  | lookup k r =>
    rw [point] at h
    split at h
    · exact Or.inr (Or.inl ⟨k, r, rfl, (Option.some.inj h).symm⟩)
    · cases h
  | drop k now => exact Or.inr (Or.inr (Or.inl ⟨k, now, rfl, (Option.some.inj h).symm⟩))
  | delete k => exact Or.inr (Or.inr (Or.inr ⟨k, rfl, (Option.some.inj h).symm⟩))
  | _ => cases h

omit [DecidableEq P] in
/-- No call has two points: one that deletes does not take effect at its lookup. -/
theorem Path.once (h : Path es loc) (hdrop : ∀ k now, .drop k now ∈ es → ¬Kept ls p) :
    (es.filterMap fun e => point ls (p, e)).length ≤ 1 := by
  induction h with
  | invoke | set | delete => simp [point]
  | miss | lasting | found | fresh | expired =>
    by_cases hk : Kept ls p <;> simp [point, hk]
  | @drop k v now => simp [point, hdrop k now (by simp)]
  | ret _ ih =>
    have hle := ih fun k now hmem => hdrop k now (List.mem_append_left _ hmem)
    simpa [point] using hle

theorem once (h : (lts L P c₀).Run ls s) (p : P) :
    ((ls.filter (·.1 = p)).filterMap (point ls)).length ≤ 1 := by
  rw [filter_eq_own, List.filterMap_map]
  cases hloc : s.pc p with
  | none => simp [(own_path h p).1 hloc]
  | some loc =>
    exact ((own_path h p).2 loc hloc).once fun k now hmem hk => hk.2 k now (mem_own.mp hmem)

/-- What a call was invoked as, by the event at which it takes effect. -/
theorem Path.invoked (h : Path es loc) :
    (∀ k v, .set k v ∈ es → .invoke (.add k v) ∈ es) ∧
    (∀ k r, .lookup k r ∈ es → .invoke (.get k) ∈ es) ∧
    (∀ k now, .drop k now ∈ es → .invoke (.get k) ∈ es ∧ .clock now ∈ es) ∧
    ∀ k, .delete k ∈ es → .invoke (.remove k) ∈ es := by
  induction h with
  | ret _ ih =>
    simp only [List.mem_append, List.mem_singleton, reduceCtorEq, or_false]
    exact ih
  | _ => simp

theorem invoked_of_point (h : (lts L P c₀).Run ls s) {l : P × Event} (hl : l ∈ ls)
    {d : Done P (Call GoString ByteView Time) (Reply ByteView)} (hd : point ls l = some d) :
    ∃ op, .inv d.proc op ∈ ls.filterMap event ∧ op.Stands (Reads ls d.proc) d.op := by
  obtain ⟨p, e⟩ := l
  have hinv : ∀ op, .invoke op ∈ own ls p → .inv p op ∈ ls.filterMap event :=
    fun op hop => List.mem_filterMap.mpr ⟨(p, .invoke op), mem_own.mp hop, rfl⟩
  have he := mem_own.mpr hl
  obtain ⟨loc, hpath⟩ := exists_path h hl
  obtain ⟨hset, hlookup, hdrop, hdelete⟩ := hpath.invoked
  rcases point_cases hd with
    ⟨k, v, rfl, rfl⟩ | ⟨k, r, rfl, rfl⟩ | ⟨k, now, rfl, rfl⟩ | ⟨k, rfl, rfl⟩
  · exact ⟨.add k v, hinv _ (hset k v he), rfl, rfl⟩
  · exact ⟨.get k, hinv _ (hlookup k r he), rfl, reads_reading ls p⟩
  · obtain ⟨hget, hclock⟩ := hdrop k now he
    exact ⟨.get k, hinv _ hget, rfl, Or.inl (mem_own.mp hclock)⟩
  · exact ⟨.remove k, hinv _ (hdelete k he), rfl⟩

/-- A call that has returned has taken effect, with the reply it returned. -/
theorem point_of_returned (h : (lts L P c₀).Run ls s) {r : Reply ByteView} (hr : (p, .ret r) ∈ ls) :
    ∃ l ∈ ls, ∃ x, point ls l = some ⟨p, x, r⟩ := by
  obtain ⟨loc, hpath⟩ := exists_path h hr
  obtain ⟨es, hes, hdone⟩ := hpath.of_ret (mem_own.mpr hr)
  have hmem : ∀ e ∈ es, (p, e) ∈ ls := fun e he => mem_own.mp (by simp [hes, he])
  have hkept : (∀ k now, .drop k now ∉ es) → Kept ls p := by
    refine fun hno => ⟨⟨r, hr⟩, fun k now hdrop => hno k now ?_⟩
    simpa [hes] using mem_own.mpr hdrop
  cases hdone with
  | @set k v => exact ⟨(p, .set k v), hmem _ (by simp), .add k v, rfl⟩
  | @miss k => exact ⟨(p, .lookup k none), hmem _ (by simp), _, if_pos (hkept (by simp))⟩
  | @lasting k v | @fresh k v =>
    exact ⟨(p, .lookup k (some v)), hmem _ (by simp), _, if_pos (hkept (by simp))⟩
  | @drop k v now => exact ⟨(p, .drop k now), hmem _ (by simp), .get now k, rfl⟩
  | @delete k => exact ⟨(p, .delete k), hmem _ (by simp), .remove k, rfl⟩

/-- A call has no step after its return, and none before its invocation. -/
theorem within (h : (lts L P c₀).Run (ls₁ ++ ls₂) s) {r : Reply ByteView} {op : Op}
    (hr : (p, .ret r) ∈ ls₁) (hop : (q, .invoke op) ∈ ls₂) :
    (∀ l ∈ ls₂, l.1 ≠ p) ∧ ∀ l ∈ ls₁, l.1 ≠ q := by
  constructor
  · rintro ⟨p', e⟩ hl rfl
    obtain ⟨loc, hpath⟩ := exists_path h (List.mem_append_left _ hr)
    obtain ⟨es, hes, hdone⟩ := hpath.of_ret (mem_own.mpr (List.mem_append_left _ hr))
    rw [own_append] at hes
    rcases List.eq_nil_or_concat (own ls₂ p') with hnil | ⟨b, x, hb⟩
    · have he := mem_own.mpr hl
      rw [hnil] at he
      cases he
    · rw [hb, List.concat_eq_append, ← List.append_assoc] at hes
      obtain ⟨rfl, _⟩ := List.append_inj' hes rfl
      exact hdone.no_ret (List.mem_append_left _ (mem_own.mpr hr))
  · rintro ⟨q', e⟩ hl rfl
    obtain ⟨loc, hpath⟩ := exists_path h (List.mem_append_right _ hop)
    obtain ⟨op', tail, hes, htail⟩ := hpath.first
    rw [own_append] at hes
    cases ha : own ls₁ q' with
    | nil =>
      have he := mem_own.mpr hl
      rw [ha] at he
      cases he
    | cons x a =>
      rw [ha, List.cons_append] at hes
      obtain ⟨_, rfl⟩ := List.cons.inj hes
      exact htail op (List.mem_append_right _ (mem_own.mpr hop))

omit [DecidableEq P] in
theorem mem_history_res {r : Reply ByteView} (h : .res p r ∈ ls.filterMap event) :
    (p, .ret r) ∈ ls := by
  obtain ⟨⟨p', e⟩, hl, he⟩ := List.mem_filterMap.mp h
  cases e <;> cases he
  exact hl

omit [DecidableEq P] in
theorem mem_history_inv {op : Op} (h : .inv p op ∈ ls.filterMap event) : (p, .invoke op) ∈ ls := by
  obtain ⟨⟨p', e⟩, hl, he⟩ := List.mem_filterMap.mp h
  cases e <;> cases he
  exact hl

/-- The calls are linearizable, each `Get` at its own reading of the clock, as long as otter stores
what it is given and no `Get` deletes an entry that has not expired. -/
theorem otter_linearizable (hL : L.Contract) {o : OtterCache C}
    (h : (soundLTS L P o.cache).Run ls s) : Linearizable (OtterCache.call L) o
      (fun p op x => op.Stands (Reads ls p) x) (ls.filterMap event) := by
  have hrun := h.of_restrict
  have hpoints :
      HasPoints (fun p op x => op.Stands (Reads ls p) x) Prod.fst (point ls) event ls := by
    refine ⟨?_, once hrun, ?_, ?_, ?_⟩
    · rintro ⟨p, e⟩ d hd
      rcases point_cases hd with ⟨_, _, _, rfl⟩ | ⟨_, _, _, rfl⟩ | ⟨_, _, _, rfl⟩ | ⟨_, _, rfl⟩ <;>
        rfl
    · exact fun l hl d hd => invoked_of_point hrun hl hd
    · exact fun p r hr => point_of_returned hrun (mem_history_res hr)
    · rintro ls₁ ls₂ rfl p r q op hr hop
      exact within hrun (mem_history_res hr) (mem_history_inv hop)
  refine linearizable_of_points h ?_ (commits hL hrun) hpoints
  rintro s ⟨hs, _⟩
  rw [hs]
  exact ⟨rfl, fun _ => rfl⟩

theorem step_of_act {loc₀ : Loc} (hp : s.pc p = some loc₀)
    (h : Act L s.cache (some loc₀) e c' loc) :
    (lts L P c₀).Step s (p, e) ⟨c', Function.update s.pc p (some loc)⟩ :=
  ⟨loc, hp ▸ h, rfl⟩

theorem step_of_invoke (hp : s.pc p = none) (op : Op) : (lts L P c₀).Step s (p, .invoke op)
    ⟨s.cache, Function.update s.pc p (some (.called op))⟩ :=
  ⟨_, hp ▸ .invoke op, rfl⟩

/-- A step of a run that stores and drops nothing meets the two conditions. -/
theorem sound_of_step {t : State C P} (hs : (lts L P c₀).Step s (p, e) t)
    (hset : ∀ k v, e = .set k v → 10 * cost v ≤ L.capacity s.cache)
    (hdrop : ∀ k now v, e = .drop k now → L.entry s.cache k = some v → expired v now = true) :
    (soundLTS L P c₀).Step s (p, e) t :=
  ⟨hs, hset, hdrop⟩

end Runs

/-- A value that expires at 5, and one that does not expire. -/
def brief : ByteView := .withExpire (some [1]) ⟨5⟩

def lasting : ByteView := .withExpire (some [2]) .zero

/-- An empty cache and no calls. -/
def fresh : State ListCache ℕ := ⟨listOtter.build 20, fun _ => none⟩

/-- A `Get` deletes what has expired and returns, while another one finds it before its time is
over; a later one finds the value added in between. -/
def overlapRun : List (ℕ × Event) :=
  [(0, .invoke (.add [107] brief)), (0, .set [107] brief), (0, .ret .done),
    (1, .invoke (.get [107])), (1, .lookup [107] (some brief)),
    (2, .invoke (.get [107])), (2, .lookup [107] (some brief)), (2, .clock ⟨4⟩),
    (1, .clock ⟨10⟩), (3, .invoke (.add [107] lasting)),
    (1, .drop [107] ⟨10⟩), (1, .ret (.got none)), (3, .set [107] lasting), (3, .ret .done),
    (2, .ret (.got (some brief))),
    (4, .invoke (.get [107])), (4, .lookup [107] (some lasting)), (4, .ret (.got (some lasting)))]

theorem overlapRun_run : ∃ s, (soundLTS listOtter ℕ (listOtter.build 20)).Run overlapRun s := by
  have h₀ : (soundLTS listOtter ℕ (listOtter.build 20)).Run [] fresh := .init ⟨rfl, fun _ => rfl⟩
  have h₁ := h₀.step (sound_of_step (step_of_invoke (p := 0) rfl (.add [107] brief)) nofun nofun)
  have h₂ := h₁.step
    (sound_of_step (step_of_act (p := 0) rfl .set) (by rintro _ _ ⟨⟩; decide) nofun)
  have h₃ := h₂.step (sound_of_step (step_of_act (p := 0) rfl .ret) nofun nofun)
  have h₄ := h₃.step (sound_of_step (step_of_invoke (p := 1) rfl (.get [107])) nofun nofun)
  have h₅ := h₄.step (sound_of_step (step_of_act (p := 1) rfl (.found rfl rfl)) nofun nofun)
  have h₆ := h₅.step (sound_of_step (step_of_invoke (p := 2) rfl (.get [107])) nofun nofun)
  have h₇ := h₆.step (sound_of_step (step_of_act (p := 2) rfl (.found rfl rfl)) nofun nofun)
  have h₈ := h₇.step (sound_of_step (step_of_act (p := 2) rfl (.fresh ⟨4⟩ rfl)) nofun nofun)
  have h₉ := h₈.step (sound_of_step (step_of_act (p := 1) rfl (.expired ⟨10⟩ rfl)) nofun nofun)
  have h₁₀ := h₉.step (sound_of_step (step_of_invoke (p := 3) rfl (.add [107] lasting)) nofun nofun)
  have h₁₁ := h₁₀.step (sound_of_step (step_of_act (p := 1) rfl .drop) nofun ?_)
  · have h₁₂ := h₁₁.step (sound_of_step (step_of_act (p := 1) rfl .ret) nofun nofun)
    have h₁₃ := h₁₂.step (sound_of_step (step_of_act (p := 3) rfl .set)
      (by rintro _ _ ⟨⟩; decide) nofun)
    have h₁₄ := h₁₃.step (sound_of_step (step_of_act (p := 3) rfl .ret) nofun nofun)
    have h₁₅ := h₁₄.step (sound_of_step (step_of_act (p := 2) rfl .ret) nofun nofun)
    have h₁₆ := h₁₅.step (sound_of_step (step_of_invoke (p := 4) rfl (.get [107])) nofun nofun)
    have h₁₇ := h₁₆.step (sound_of_step (step_of_act (p := 4) rfl (.lasting rfl rfl)) nofun nofun)
    have h₁₈ := h₁₇.step (sound_of_step (step_of_act (p := 4) rfl .ret) nofun nofun)
    exact ⟨_, h₁₈⟩
  · rintro _ _ v ⟨⟩ hv
    obtain rfl : brief = v := Option.some.inj hv
    rfl

/-- What its callers see. -/
def overlapHistory : List (HistoryEvent ℕ Op (Reply ByteView)) :=
  [.inv 0 (.add [107] brief), .res 0 .done, .inv 1 (.get [107]), .inv 2 (.get [107]),
    .inv 3 (.add [107] lasting), .res 1 (.got none), .res 3 .done, .res 2 (.got (some brief)),
    .inv 4 (.get [107]), .res 4 (.got (some lasting))]

/-- All five calls of that run return, and some order of them explains their replies. -/
theorem otter_linearizable_overlap :
    (∃ s, (soundLTS listOtter ℕ (listOtter.build 20)).Run overlapRun s) ∧
      Linearizable (OtterCache.call listOtter) ⟨listOtter.build 20, 0, 0⟩
        (fun p op x => op.Stands (Reads overlapRun p) x) overlapHistory := by
  obtain ⟨s, hrun⟩ := overlapRun_run
  exact ⟨⟨s, hrun⟩, otter_linearizable (o := ⟨listOtter.build 20, 0, 0⟩) listOtter_contract hrun⟩

theorem final_capacity {P C : Type} {L : Otter C} (hL : L.Contract) (o : OtterCache C)
    (ds : List (Done P (Call GoString ByteView Time) (Reply ByteView))) :
    L.capacity (final (OtterCache.call L) o ds).cache = L.capacity o.cache := by
  induction ds generalizing o with
  | nil => rfl
  | cons d ds ih => exact (ih _).trans (OtterCache.call_capacity hL d.op)

/-- A value that does not expire is what lookups alone return. -/
theorem reply_of_lasting {P C : Type} {L : Otter C} (hL : L.Contract) {o : OtterCache C}
    {k : GoString} {v : ByteView}
    {ds : List (Done P (Call GoString ByteView Time) (Reply ByteView))} (ho : o.find? L k = some v)
    (hv : v.expire.isZero = true) (h : Legal (OtterCache.call L) o ds)
    (hget : ∀ d ∈ ds, ∃ now, d.op = .get now k) : ∀ d ∈ ds, d.reply = .got (some v) := by
  induction ds generalizing o with
  | nil => simp
  | cons d ds ih =>
    obtain ⟨now, hop⟩ := hget d List.mem_cons_self
    have hfresh : ∀ v, o.find? L k = some v → expired v now = false := by
      intro v' hv'
      cases ho.symm.trans hv'
      simp [expired, hv]
    obtain ⟨hreply, hfind⟩ := OtterCache.get_of_not_expired hL hfresh
    obtain ⟨hd, hrest⟩ := h
    rw [hop] at hd hrest
    intro d' hd'
    rcases List.mem_cons.mp hd' with rfl | hd'
    · rw [← hd, ← ho, ← hreply]
      rfl
    · exact ih ((hfind k).trans ho) hrest (fun d hd => hget d (List.mem_cons_of_mem _ hd)) d' hd'

/-- While a `Get` deletes a value that has expired, an `Add` stores one that does not expire, and a
later `Get` misses. -/
def lostRun : List (ℕ × Event) :=
  [(0, .invoke (.add [107] brief)), (0, .set [107] brief), (0, .ret .done),
    (1, .invoke (.get [107])), (1, .lookup [107] (some brief)), (1, .clock ⟨10⟩),
    (2, .invoke (.add [107] lasting)), (2, .set [107] lasting), (2, .ret .done),
    (1, .drop [107] ⟨10⟩), (1, .ret (.got none)),
    (3, .invoke (.get [107])), (3, .lookup [107] none), (3, .ret (.got none))]

theorem lostRun_run : ∃ s, (lts listOtter ℕ (listOtter.build 20)).Run lostRun s := by
  have h₀ : (lts listOtter ℕ (listOtter.build 20)).Run [] fresh := .init ⟨rfl, fun _ => rfl⟩
  have h₁ := h₀.step (step_of_invoke (p := 0) rfl (.add [107] brief))
  have h₂ := h₁.step (step_of_act (p := 0) rfl .set)
  have h₃ := h₂.step (step_of_act (p := 0) rfl .ret)
  have h₄ := h₃.step (step_of_invoke (p := 1) rfl (.get [107]))
  have h₅ := h₄.step (step_of_act (p := 1) rfl (.found rfl rfl))
  have h₆ := h₅.step (step_of_act (p := 1) rfl (.expired ⟨10⟩ rfl))
  have h₇ := h₆.step (step_of_invoke (p := 2) rfl (.add [107] lasting))
  have h₈ := h₇.step (step_of_act (p := 2) rfl .set)
  have h₉ := h₈.step (step_of_act (p := 2) rfl .ret)
  have h₁₀ := h₉.step (step_of_act (p := 1) rfl .drop)
  have h₁₁ := h₁₀.step (step_of_act (p := 1) rfl .ret)
  have h₁₂ := h₁₁.step (step_of_invoke (p := 3) rfl (.get [107]))
  have h₁₃ := h₁₂.step (step_of_act (p := 3) rfl (.miss rfl))
  have h₁₄ := h₁₃.step (step_of_act (p := 3) rfl .ret)
  exact ⟨_, h₁₄⟩

/-- What its callers see. -/
def lostHistory : List (HistoryEvent ℕ Op (Reply ByteView)) :=
  [.inv 0 (.add [107] brief), .res 0 .done, .inv 1 (.get [107]), .inv 2 (.add [107] lasting),
    .res 2 .done, .res 1 (.got none), .inv 3 (.get [107]), .res 3 (.got none)]

theorem stands_lost {p : ℕ} {op : Op} {x : Call GoString ByteView Time}
    (hinv : .inv p op ∈ lostHistory) (hx : op.Stands (fun _ => True) x) :
    p = 0 ∨ p = 2 ∧ x = .add [107] lasting ∨ p ≠ 2 ∧ ∃ now, x = .get now [107] := by
  have hcases : p = 0 ∧ op = .add [107] brief ∨ p = 1 ∧ op = .get [107] ∨
      p = 2 ∧ op = .add [107] lasting ∨ p = 3 ∧ op = .get [107] := by
    simpa [lostHistory] using hinv
  rcases hcases with ⟨rfl, _⟩ | ⟨rfl, rfl⟩ | ⟨rfl, rfl⟩ | ⟨rfl, rfl⟩
  · exact Or.inl rfl
  · cases x with
    | get now k => exact Or.inr (Or.inr ⟨by simp, now, by rw [hx.1]⟩)
    | _ => exact hx.elim
  · cases x with
    | add k v => exact Or.inr (Or.inl ⟨rfl, by rw [hx.1, hx.2]⟩)
    | _ => exact hx.elim
  · cases x with
    | get now k => exact Or.inr (Or.inr ⟨by simp, now, by rw [hx.1]⟩)
    | _ => exact hx.elim

/-- No order of the calls explains it, whatever the `Get`s would have read from the clock. -/
theorem lost_not_linearizable : ¬Linearizable (OtterCache.call listOtter) ⟨listOtter.build 20, 0, 0⟩
    (fun _ op x => op.Stands (fun _ => True) x) lostHistory := by
  rintro ⟨order, hlegal, hnodup, hinvoked, hreturned, htime⟩
  obtain ⟨x₀, h₀⟩ := hreturned 0 .done (by simp [lostHistory])
  obtain ⟨x₂, h₂⟩ := hreturned 2 .done (by simp [lostHistory])
  obtain ⟨x₃, h₃⟩ := hreturned 3 (.got none) (by simp [lostHistory])
  have h₀₂ : Precedes order ⟨0, x₀, .done⟩ ⟨2, x₂, .done⟩ :=
    htime 0 .done 2 (.add [107] lasting) ⟨lostHistory.take 2, lostHistory.drop 2, rfl,
      by simp [lostHistory], by simp [lostHistory]⟩ _ h₀ _ h₂ rfl rfl
  have h₂₃ : Precedes order ⟨2, x₂, .done⟩ ⟨3, x₃, .got none⟩ :=
    htime 2 .done 3 (.get [107]) ⟨lostHistory.take 5, lostHistory.drop 5, rfl,
      by simp [lostHistory], by simp [lostHistory]⟩ _ h₂ _ h₃ rfl rfl
  have hx₂ : x₂ = .add [107] lasting := by
    obtain ⟨op, hop, hstands⟩ := hinvoked _ h₂
    rcases stands_lost hop hstands with h | ⟨_, h⟩ | ⟨h, _⟩
    · simp at h
    · exact h
    · simp at h
  obtain ⟨a, b, rfl, h₂a, h₃b⟩ := h₂₃
  obtain ⟨a₁, a₂, rfl⟩ := List.append_of_mem h₂a
  rw [List.append_assoc, List.cons_append] at hlegal hnodup hinvoked h₀ h₀₂
  -- after the second `Add` there are lookups only
  have hget : ∀ d ∈ a₂ ++ b, ∃ now, d.op = .get now [107] := by
    intro d hd
    have hd' : d ∈ a₁ ++ ⟨2, x₂, .done⟩ :: (a₂ ++ b) :=
      List.mem_append_right _ (List.mem_cons_of_mem _ hd)
    obtain ⟨op, hop, hstands⟩ := hinvoked d hd'
    rcases stands_lost hop hstands with h | ⟨h, _⟩ | ⟨_, h⟩
    · obtain rfl : d = ⟨0, x₀, .done⟩ := List.inj_on_of_nodup_map hnodup hd' h₀ h
      exact (h₀₂.asymm hnodup.of_map ⟨a₁ ++ [⟨2, x₂, .done⟩], a₂ ++ b, by simp, by simp, hd⟩).elim
    · have hmem : 2 ∈ (a₂ ++ b).map (·.proc) := List.mem_map.mpr ⟨d, hd, h⟩
      rw [List.map_append, List.nodup_append, List.map_cons, List.nodup_cons] at hnodup
      exact (hnodup.2.1.1 hmem).elim
    · exact h
  have hrest := hlegal.of_append.2
  rw [hx₂] at hrest
  have hcap := final_capacity listOtter_contract ⟨listOtter.build 20, 0, 0⟩ a₁
  have hreply := reply_of_lasting listOtter_contract
    (OtterCache.find?_add_self listOtter_contract (by rw [hcap]; decide)) rfl hrest hget _
    (List.mem_append_right _ h₃b)
  cases hreply

/-- An `Add` that has returned is lost to a `Get` that runs at the same time. -/
theorem otter_not_linearizable :
    (∃ s, (lts listOtter ℕ (listOtter.build 20)).Run lostRun s) ∧
      ¬Linearizable (OtterCache.call listOtter) ⟨listOtter.build 20, 0, 0⟩
        (fun _ op x => op.Stands (fun _ => True) x) (lostRun.filterMap event) :=
  ⟨lostRun_run, lost_not_linearizable⟩

end Groupcache.Contrib.Interleaved
