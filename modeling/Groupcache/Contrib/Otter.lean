import Mathlib.Data.List.AList
import Groupcache.Lib.Lru
import Groupcache.Lib.Run
import Groupcache.Transport.ByteView

/-! `contrib/otter.go`: a cache of the group made of otter's, and when it may serve a value that has
been superseded. The library is a parameter; what is assumed of it is named. -/
namespace Groupcache.Contrib

open Transport Lib
open Lib.Lru (Call Reply)

/-- A cache of the library otter, by the calls that are made of it. -/
structure Otter (C : Type) where
  build : ℕ → C
  get : C → GoString → C × Option ByteView
  -- the last argument is what the function given to `Cost` returns
  set : C → GoString → ByteView → ℕ → C × Bool
  delete : C → GoString → C
  -- what the library may do of its own accord
  Evicts : C → C → Prop
  capacity : C → ℕ
  size : C → ℕ
  hits : C → ℕ
  evictedCount : C → ℕ

/-- What a lookup would return. -/
def Otter.entry {C : Type} (L : Otter C) (c : C) (key : GoString) : Option ByteView :=
  (L.get c key).2

/-- Otter stores a value exactly if its cost is at most a tenth of the capacity and otherwise
changes nothing, removes what is deleted, and may evict any entry at any time. -/
structure Otter.Contract {C : Type} (L : Otter C) : Prop where
  build : ∀ n k, L.entry (L.build n) k = none
  get : ∀ c k k', L.entry (L.get c k).1 k' = L.entry c k'
  stores : ∀ c k v cost, 10 * cost ≤ L.capacity c → (L.set c k v cost).2 = true ∧
    ∀ k', L.entry (L.set c k v cost).1 k' = if k' = k then some v else L.entry c k'
  rejects : ∀ c k v cost, L.capacity c < 10 * cost → (L.set c k v cost).2 = false ∧
    ∀ k', L.entry (L.set c k v cost).1 k' = L.entry c k'
  delete : ∀ c k k', L.entry (L.delete c k) k' = if k' = k then none else L.entry c k'
  evicts : ∀ c c' k v, L.Evicts c c' → L.entry c' k = some v → L.entry c k = some v
  capacity_build : ∀ n, L.capacity (L.build n) = n
  capacity_get : ∀ c k, L.capacity (L.get c k).1 = L.capacity c
  capacity_set : ∀ c k v cost, L.capacity (L.set c k v cost).1 = L.capacity c
  capacity_delete : ∀ c k, L.capacity (L.delete c k) = L.capacity c
  capacity_evicts : ∀ c c', L.Evicts c c' → L.capacity c' = L.capacity c

structure OtterCache (C : Type) where
  cache : C
  rejected : ℕ
  gets : ℕ

namespace OtterCache

variable {C : Type} (L : Otter C)

/-- `NewOtterCache`; `MustBuilder` panics at a capacity that is not positive. -/
def new (maxBytes : ℤ) : Option (OtterCache C) :=
  if 0 < maxBytes then some { cache := L.build maxBytes.toNat, rejected := 0, gets := 0 } else none

/-- The function given to `Cost`: `uint32(value.Len())`. -/
def cost (value : ByteView) : ℕ := value.len % 2 ^ 32

/-- The test of `Get` for a value whose time is over. -/
def expired (v : ByteView) (now : Time) : Bool := !v.expire.isZero && v.expire.before now

/-- `Get`; a miss has the zero view, whose expiry is zero. -/
def get (o : OtterCache C) (now : Time) (key : GoString) : OtterCache C × Option ByteView :=
  let r := L.get o.cache key
  if expired (r.2.getD (.withExpire none .zero)) now then
    ({ o with cache := L.delete r.1 key }, none)
  else ({ o with cache := r.1, gets := o.gets + 1 }, r.2)

def add (o : OtterCache C) (key : GoString) (value : ByteView) : OtterCache C :=
  let r := L.set o.cache key value (cost value)
  if r.2 then { o with cache := r.1 } else { o with cache := r.1, rejected := o.rejected + 1 }

def remove (o : OtterCache C) (key : GoString) : OtterCache C :=
  { o with cache := L.delete o.cache key }

/-- What is stored under the key. -/
def find? (o : OtterCache C) (key : GoString) : Option ByteView := L.entry o.cache key

def call (o : OtterCache C) : Call GoString ByteView Time → OtterCache C × Reply ByteView
  | .add k v => (o.add L k v, .done)
  | .get now k => ((o.get L now k).1, .got (o.get L now k).2)
  | .remove k => (o.remove L k, .done)

/-- A call with its reply, or something that the library does by itself. -/
inductive Action
  | call (x : Call GoString ByteView Time) (r : Reply ByteView)
  | evict

/-- All sequential runs of a new cache. -/
def lts (maxBytes : ℤ) : LTS (OtterCache C) Action where
  Init o := new L maxBytes = some o
  Step o a o' :=
    match a with
    | .call x r => o.call L x = (o', r)
    | .evict => ∃ c, L.Evicts o.cache c ∧ o' = { o with cache := c }

variable {L} {o o' : OtterCache C} {a : Action} {k k' : GoString} {v w : ByteView} {now : Time}
  {maxBytes : ℤ}

theorem find?_of_init (hL : L.Contract) (h : (lts L maxBytes).Init o) (k : GoString) :
    o.find? L k = none ∧ 0 < maxBytes ∧ L.capacity o.cache = maxBytes.toNat := by
  have h : new L maxBytes = some o := h
  unfold new at h
  split at h
  · rename_i hpos
    cases h
    exact ⟨hL.build _ k, hpos, hL.capacity_build _⟩
  · cases h

theorem add_cache : (o.add L k v).cache = (L.set o.cache k v (cost v)).1 := by
  unfold add
  simp only
  split <;> rfl

theorem find?_add (hL : L.Contract) : (o.add L k v).find? L k' =
    if 10 * cost v ≤ L.capacity o.cache ∧ k' = k then some v else o.find? L k' := by
  rw [find?, add_cache]
  by_cases hc : 10 * cost v ≤ L.capacity o.cache
  · rw [(hL.stores _ k v _ hc).2 k']
    simp only [hc, true_and]
    rfl
  · rw [(hL.rejects _ k v _ (by omega)).2 k', if_neg fun h => hc h.1]
    rfl

theorem find?_add_self (hL : L.Contract) (h : 10 * cost v ≤ L.capacity o.cache) :
    (o.add L k v).find? L k = some v := by
  rw [find?_add hL, if_pos ⟨h, rfl⟩]

theorem find?_remove (hL : L.Contract) :
    (o.remove L k).find? L k' = if k' = k then none else o.find? L k' :=
  hL.delete o.cache k k'

theorem get_of_expired (hL : L.Contract) (h : o.find? L k = some v) (he : expired v now = true) :
    (o.get L now k).2 = none ∧
      ∀ k', (o.get L now k).1.find? L k' = if k' = k then none else o.find? L k' := by
  have hlook : (L.get o.cache k).2 = some v := h
  simp only [get, hlook, Option.getD_some, he, if_true, true_and]
  intro k'
  simp only [find?, hL.delete, hL.get]

theorem get_of_not_expired (hL : L.Contract)
    (h : ∀ v, o.find? L k = some v → expired v now = false) :
    (o.get L now k).2 = o.find? L k ∧ ∀ k', (o.get L now k).1.find? L k' = o.find? L k' := by
  have hfalse : expired ((L.get o.cache k).2.getD (.withExpire none .zero)) now = false := by
    cases hlook : (L.get o.cache k).2 with
    | none => rfl
    | some v => exact h v hlook
  simp only [get, hfalse, Bool.false_eq_true, if_false]
  exact ⟨rfl, hL.get o.cache k⟩

/-- A hit returns what is stored. -/
theorem get_some (hL : L.Contract) (h : (o.get L now k).2 = some v) : o.find? L k = some v := by
  by_cases he : ∀ v, o.find? L k = some v → expired v now = false
  · rwa [(get_of_not_expired hL he).1] at h
  · push Not at he
    obtain ⟨v', hv', he'⟩ := he
    rw [(get_of_expired hL hv' (by simpa using he')).1] at h
    cases h

theorem find?_get (hL : L.Contract) (h : (o.get L now k).1.find? L k' = some w) :
    o.find? L k' = some w := by
  by_cases he : ∀ v, o.find? L k = some v → expired v now = false
  · rwa [(get_of_not_expired hL he).2] at h
  · push Not at he
    obtain ⟨v', hv', he'⟩ := he
    rw [(get_of_expired hL hv' (by simpa using he')).2] at h
    split at h
    · cases h
    · exact h

/-- The value under a key has just been added, or it was there and is not added to. -/
theorem find?_step (hL : L.Contract) (h : (lts L maxBytes).Step o a o')
    (hw : o'.find? L k = some w) :
    a = .call (.add k w) .done ∨ o.find? L k = some w ∧
      ∀ v, a = .call (.add k v) .done → L.capacity o.cache < 10 * cost v := by
  cases a with
  | evict =>
    obtain ⟨c, hc, rfl⟩ := h
    exact Or.inr ⟨hL.evicts _ _ k w hc hw, by simp⟩
  | call x r =>
    cases x with
    | add k' v' =>
      obtain ⟨rfl, rfl⟩ := Prod.mk.inj h
      rw [find?_add hL] at hw
      split at hw
      · rename_i hc
        rw [hc.2, Option.some.inj hw]
        exact Or.inl rfl
      · rename_i hc
        refine Or.inr ⟨hw, ?_⟩
        rintro v ⟨⟩
        simp at hc
        omega
    | get now k' =>
      obtain ⟨rfl, rfl⟩ := Prod.mk.inj h
      exact Or.inr ⟨find?_get hL hw, by simp⟩
    | remove k' =>
      obtain ⟨rfl, rfl⟩ := Prod.mk.inj h
      rw [find?_remove hL] at hw
      split at hw
      · cases hw
      · exact Or.inr ⟨hw, by simp⟩

/-- The action is an `Add` or a `Remove` of the key. -/
def Action.Writes (k : GoString) : Action → Prop
  | .call (.add k' _) _ | .call (.remove k') _ => k' = k
  | _ => False

/-- Until the next write of its key, a value that was added is what `Get` returns, if anything. -/
def NeverSuperseded (as : List Action) : Prop :=
  ∀ (i j : ℕ) (k : GoString) (v : ByteView) (now : Time) (r : Option ByteView), i < j →
    as[i]? = some (.call (.add k v) .done) → as[j]? = some (.call (.get now k) (.got r)) →
    (∀ (m : ℕ) (a : Action), i < m → m < j → as[m]? = some a → ¬a.Writes k) →
    r = none ∨ r = some v

variable (L) in
/-- An `Add` of a key that is stored is accepted. -/
def Replaces (o : OtterCache C) (a : Action) (_ : OtterCache C) : Prop :=
  ∀ k v, a = .call (.add k v) .done → o.find? L k ≠ none → 10 * cost v ≤ L.capacity o.cache

/-- What is stored is what was added last. -/
theorem find?_eq_last (hL : L.Contract) {as : List Action}
    (h : ((lts L maxBytes).restrict (Replaces L)).Run as o) (hw : o.find? L k = some w) {i : ℕ}
    (hi : as[i]? = some (.call (.add k v) .done))
    (hlast : ∀ (m : ℕ) (a : Action), i < m → as[m]? = some a → ¬a.Writes k) : w = v := by
  induction h generalizing w with
  | init => simp at hi
  | @step as o o' a _ hs ih =>
    have hnew : (as ++ [a])[as.length]? = some a := by simp
    rcases Lib.getElem?_concat_cases hi with hold | ⟨rfl, rfl⟩
    · have hlt : i < as.length := (List.getElem?_eq_some_iff.mp hold).1
      have hkeep := hlast _ _ hlt hnew
      rcases find?_step hL hs.1 hw with rfl | ⟨hw', _⟩
      · exact (hkeep rfl).elim
      · exact ih hw' hold fun m a' hm ha' => hlast m a' hm (Lib.getElem?_concat_of_some ha')
    · rcases find?_step hL hs.1 hw with heq | ⟨hw', hreject⟩
      · cases heq
        rfl
      · have haccept := hs.2 k v rfl (by simp [hw'])
        have := hreject v rfl
        omega

theorem neverSuperseded_of_replaces (hL : L.Contract) {as : List Action}
    (h : ((lts L maxBytes).restrict (Replaces L)).Run as o) : NeverSuperseded as := by
  intro i j k v now r hij hi hj hbetween
  obtain ⟨u, u', hu, ⟨hget, _⟩, _⟩ := h.occurs hj
  cases r with
  | none => exact Or.inl rfl
  | some w =>
    have hr : (u.get L now k).2 = some w := by
      have := (Prod.mk.inj hget).2
      simpa using this
    have hi' : (as.take j)[i]? = some (.call (.add k v) .done) := by
      rwa [List.getElem?_take_of_lt hij]
    have hlast := find?_eq_last hL hu (get_some hL hr) hi' fun m a hm ha =>
      hbetween m a hm (Lib.getElem?_of_take ha).1 (Lib.getElem?_of_take ha).2
    exact Or.inr (by rw [hlast])

theorem add_capacity (hL : L.Contract) :
    L.capacity (o.add L k v).cache = L.capacity o.cache := by
  rw [add_cache]
  exact hL.capacity_set ..

theorem get_capacity (hL : L.Contract) :
    L.capacity (o.get L now k).1.cache = L.capacity o.cache := by
  unfold get
  simp only
  split
  · simp only [hL.capacity_delete, hL.capacity_get]
  · exact hL.capacity_get ..

theorem call_capacity (hL : L.Contract) (x : Call GoString ByteView Time) :
    L.capacity (o.call L x).1.cache = L.capacity o.cache := by
  cases x with
  | add k v => exact add_capacity hL
  | get now k => exact get_capacity hL
  | remove k => exact hL.capacity_delete ..

theorem step_capacity (hL : L.Contract) (h : (lts L maxBytes).Step o a o') :
    L.capacity o'.cache = L.capacity o.cache := by
  cases a with
  | evict =>
    obtain ⟨c, hc, rfl⟩ := h
    exact hL.capacity_evicts _ _ hc
  | call x r =>
    obtain ⟨rfl, _⟩ := Prod.mk.inj h
    exact call_capacity hL x

/-- A cache that is large enough for every cost accepts every value. -/
theorem replaces_of_large (hL : L.Contract) {as : List Action}
    (hlarge : 10 * (2 ^ 32 - 1) ≤ maxBytes) (h : (lts L maxBytes).Run as o) :
    ((lts L maxBytes).restrict (Replaces L)).Run as o ∧
      L.capacity o.cache = maxBytes.toNat := by
  induction h with
  | init hi => exact ⟨.init hi, (find?_of_init hL hi []).2.2⟩
  | @step as o o' a _ hs ih =>
    refine ⟨ih.1.step ⟨hs, fun k v _ _ => ?_⟩, (step_capacity hL hs).trans ih.2⟩
    have hlt : cost v < 2 ^ 32 := Nat.mod_lt _ (by decide)
    rw [ih.2]
    omega

/-- A view that never expires. -/
def view (bytes : GoString) : ByteView := .withExpire (some bytes) .zero

/-- A value is added, then another one under its key, and the key is looked up. -/
def staleRun (small big : GoString) : List Action :=
  [.call (.add [107] (view small)) .done, .call (.add [107] (view big)) .done,
    .call (.get .zero [107]) (.got (some (view small)))]

theorem staleRun_not_neverSuperseded {small big : GoString} (h : small ≠ big) :
    ¬NeverSuperseded (staleRun small big) := by
  intro hnever
  have hr := hnever 1 2 [107] (view big) .zero (some (view small)) (by omega) rfl rfl
    (fun m a hm hm' => by omega)
  simp [view, ByteView.withExpire, h] at hr

/-- The second value is rejected, and the first one stays. -/
theorem staleRun_run (hL : L.Contract) (hpos : 0 < maxBytes) {small big : GoString}
    (hs : 10 * (cost (view small) : ℤ) ≤ maxBytes) (hb : maxBytes < 10 * cost (view big)) :
    ∃ o, (lts L maxBytes).Run (staleRun small big) o := by
  obtain ⟨o₀, h₀⟩ : ∃ o₀, (lts L maxBytes).Init o₀ := ⟨_, if_pos hpos⟩
  have hcap₀ := (find?_of_init hL h₀ []).2.2
  let o₁ := o₀.add L [107] (view small)
  let o₂ := o₁.add L [107] (view big)
  have hcap : L.capacity o₁.cache = maxBytes.toNat := (add_capacity hL).trans hcap₀
  have hfind₁ : o₁.find? L [107] = some (view small) := find?_add_self hL (by omega)
  have hfind₂ : o₂.find? L [107] = some (view small) := by
    rw [find?_add hL, if_neg (by rw [hcap]; omega), hfind₁]
  have hfresh : ∀ v, o₂.find? L [107] = some v → expired v .zero = false := by
    intro v hv
    cases hfind₂.symm.trans hv
    rfl
  have hget : (o₂.get L .zero [107]).2 = some (view small) :=
    (get_of_not_expired hL hfresh).1.trans hfind₂
  have hstep₁ : (lts L maxBytes).Step o₀ (.call (.add [107] (view small)) .done) o₁ := rfl
  have hstep₂ : (lts L maxBytes).Step o₁ (.call (.add [107] (view big)) .done) o₂ := rfl
  have hstep₃ : (lts L maxBytes).Step o₂ (.call (.get .zero [107]) (.got (some (view small))))
      (o₂.get L .zero [107]).1 := Prod.ext rfl (congrArg Reply.got hget)
  exact ⟨_, .step (.step (.step (.init h₀) hstep₁) hstep₂) hstep₃⟩

theorem superseded_of_lt (hL : L.Contract) (hpos : 0 < maxBytes) {n : ℕ} (hn : n < 2 ^ 32)
    (h : maxBytes < 10 * n) : ∃ as o, (lts L maxBytes).Run as o ∧ ¬NeverSuperseded as := by
  have hcost : cost (view (List.replicate n 0)) = n := by
    simpa [cost, view, ByteView.withExpire, ByteView.len] using Nat.mod_eq_of_lt hn
  have hne : ([] : GoString) ≠ List.replicate n 0 := by
    intro heq
    have := congrArg List.length heq
    simp at this
    omega
  have hsmall : 10 * (cost (view []) : ℤ) ≤ maxBytes := by
    have : cost (view []) = 0 := rfl
    omega
  obtain ⟨o, ho⟩ := staleRun_run hL hpos hsmall (hcost.symm ▸ h)
  exact ⟨_, o, ho, staleRun_not_neverSuperseded hne⟩

/-- Superseded values are not served as long as no `Add` of a stored key is rejected, which is what
a capacity of ten times the largest cost means. -/
theorem otter_serves_last (hL : L.Contract) (hpos : 0 < maxBytes) :
    (∀ as o, ((lts L maxBytes).restrict (Replaces L)).Run as o → NeverSuperseded as) ∧
    ((∀ as o, (lts L maxBytes).Run as o → NeverSuperseded as) ↔
      10 * (2 ^ 32 - 1) ≤ maxBytes) := by
  refine ⟨fun as o h => neverSuperseded_of_replaces hL h, fun hall => ?_, fun hlarge as o h => ?_⟩
  · by_contra hsmall
    have hlt : maxBytes < 10 * ((2 ^ 32 - 1 : ℕ) : ℤ) := by omega
    obtain ⟨as, o, h, hnot⟩ := superseded_of_lt hL hpos (by omega) hlt
    exact hnot (hall as o h)
  · exact neverSuperseded_of_replaces hL (replaces_of_large hL hlarge h).1

end OtterCache

/-- A cache that keeps its entries in an association list. -/
structure ListCache where
  capacity : ℕ
  entries : AList fun _ : GoString => ByteView
  hits : ℕ
  evicted : ℕ

/-- It has the calls of the library, and evicts one entry at a time. -/
def listOtter : Otter ListCache where
  build n := { capacity := n, entries := ∅, hits := 0, evicted := 0 }
  get c key := ({ c with hits := c.hits + if (c.entries.lookup key).isSome then 1 else 0 },
    c.entries.lookup key)
  set c key value cost :=
    if 10 * cost ≤ c.capacity then ({ c with entries := c.entries.insert key value }, true)
    else (c, false)
  delete c key := { c with entries := c.entries.erase key }
  Evicts c c' := ∃ key ∈ c.entries,
    c' = { c with entries := c.entries.erase key, evicted := c.evicted + 1 }
  capacity := ListCache.capacity
  size c := c.entries.entries.length
  hits := ListCache.hits
  evictedCount := ListCache.evicted

theorem lookup_erase (m : AList fun _ : GoString => ByteView) (k k' : GoString) :
    (m.erase k).lookup k' = if k' = k then none else m.lookup k' := by
  by_cases hk : k' = k
  · subst hk
    simp
  · simp [hk]

theorem listOtter_contract : listOtter.Contract where
  build _ _ := rfl
  get _ _ _ := rfl
  stores c k v cost h := by
    refine ⟨by simp [listOtter, show 10 * cost ≤ c.capacity from h], fun k' => ?_⟩
    by_cases hk : k' = k
    · subst hk
      simp [listOtter, Otter.entry, show 10 * cost ≤ c.capacity from h]
    · simp [listOtter, Otter.entry, show 10 * cost ≤ c.capacity from h, hk]
  rejects c k v cost h := by
    have h : ¬ 10 * cost ≤ c.capacity := Nat.not_le.mpr h
    simp [listOtter, Otter.entry, h]
  delete c k k' := lookup_erase c.entries k k'
  evicts := by
    rintro c _ k v ⟨key, _, rfl⟩ hv
    have hv : (c.entries.erase key).lookup k = some v := hv
    rw [lookup_erase] at hv
    split at hv
    · cases hv
    · exact hv
  capacity_build _ := rfl
  capacity_get _ _ := rfl
  capacity_set c k v cost := by
    simp only [listOtter]
    split <;> rfl
  capacity_delete _ _ := rfl
  capacity_evicts := by
    rintro c _ ⟨_, _, rfl⟩
    rfl

namespace OtterCache

/-- With a capacity of 20, values of one byte replace each other, and one of three bytes is rejected
under a key of its own. -/
theorem otter_serves_last_small : ∃ o, ((lts listOtter 20).restrict (Replaces listOtter)).Run
    [.call (.add [107] (view [1])) .done, .call (.add [108] (view [3, 3, 3])) .done,
      .call (.add [107] (view [2])) .done, .call (.get .zero [107]) (.got (some (view [2]))),
      .evict, .call (.get .zero [107]) (.got none)] o ∧
    NeverSuperseded
      [.call (.add [107] (view [1])) .done, .call (.add [108] (view [3, 3, 3])) .done,
        .call (.add [107] (view [2])) .done, .call (.get .zero [107]) (.got (some (view [2]))),
        .evict, .call (.get .zero [107]) (.got none)] := by
  let o₀ : OtterCache ListCache := ⟨listOtter.build 20, 0, 0⟩
  let o₁ := o₀.add listOtter [107] (view [1])
  let o₂ := o₁.add listOtter [108] (view [3, 3, 3])
  let o₃ := o₂.add listOtter [107] (view [2])
  let o₄ := (o₃.get listOtter .zero [107]).1
  let o₅ : OtterCache ListCache :=
    { o₄ with cache := { o₄.cache with entries := o₄.cache.entries.erase [107], evicted := 1 } }
  have hadd : ∀ o b, listOtter.capacity o.cache = 20 →
      ((lts listOtter 20).restrict (Replaces listOtter)).Step o
        (.call (.add [107] (view [b])) .done) (o.add listOtter [107] (view [b])) := by
    intro o b hcap
    refine ⟨rfl, ?_⟩
    rintro _ _ ⟨⟩ _
    have hcost : cost (view [b]) = 1 := rfl
    omega
  have hreject : ((lts listOtter 20).restrict (Replaces listOtter)).Step o₁
      (.call (.add [108] (view [3, 3, 3])) .done) o₂ := by
    refine ⟨rfl, ?_⟩
    rintro _ _ ⟨⟩ hstored
    exact (hstored rfl).elim
  have hget : ((lts listOtter 20).restrict (Replaces listOtter)).Step o₃
      (.call (.get .zero [107]) (.got (some (view [2])))) o₄ := ⟨rfl, nofun⟩
  have hevict : ((lts listOtter 20).restrict (Replaces listOtter)).Step o₄ .evict o₅ :=
    ⟨⟨_, ⟨[107], by decide, rfl⟩, rfl⟩, nofun⟩
  have hmiss : ((lts listOtter 20).restrict (Replaces listOtter)).Step o₅
      (.call (.get .zero [107]) (.got none)) (o₅.get listOtter .zero [107]).1 := ⟨rfl, nofun⟩
  have hrun := LTS.Run.step (.step (.step (.step (.step (.step (.init rfl) (hadd o₀ 1 rfl)) hreject)
    (hadd o₂ 2 rfl)) hget) hevict) hmiss
  exact ⟨_, hrun, (otter_serves_last listOtter_contract (by decide)).1 _ _ hrun⟩

/-- After a value of three bytes was added, `Get` serves the one of one byte before it. -/
theorem otter_serves_superseded : ∃ o, (lts listOtter 20).Run (staleRun [1] [2, 2, 2]) o ∧
    ¬NeverSuperseded (staleRun [1] [2, 2, 2]) := by
  have hsmall : 10 * (cost (view [1]) : ℤ) ≤ 20 := by decide
  have hbig : 20 < 10 * (cost (view [2, 2, 2]) : ℤ) := by decide
  obtain ⟨o, ho⟩ := staleRun_run listOtter_contract (by decide) hsmall hbig
  exact ⟨o, ho, staleRun_not_neverSuperseded (by simp)⟩

end OtterCache

end Groupcache.Contrib
