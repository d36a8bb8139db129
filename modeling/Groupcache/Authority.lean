import Groupcache.ClusterProgress
import Groupcache.GroupStats

/-! What the two caches of a group are for: the hot cache holds keys that a peer owns, and the main
cache keys that this node owns, but for those that were written here or loaded after a peer's
failure. -/
namespace Groupcache.Concurrent

open Transport Peer

/-- The cache of a tier stores something under the key. -/
def Has (g : Group Value) (k : GoString) : Tier → Prop
  | .main => ∃ v, g.mainCache.find? k = some v
  | .hot => ∃ v, g.hotCache.find? k = some v

section Caches

variable {g g' : Group Value} {k k' : GoString} {v : Value} {tier tier' : Tier} {op : Op}

theorem not_has_new (cacheBytes : ℤ) : ¬ Has (.new cacheBytes) k tier := by
  cases tier <;> simp [Has, Group.new]

theorem has_count {c : Counter} {i : ℤ} : Has (g.count c i) k tier ↔ Has g k tier := by
  cases tier <;> rfl

theorem Has.of_look {now : Time} {r : Found} (hl : look g now k tier = (g', r))
    (h : Has g' k' tier') : Has g k' tier' := by
  obtain rfl : (look g now k tier).1 = g' := by rw [hl]
  cases tier with
  | main =>
    rw [look] at h
    split at h
    · exact h
    · cases tier' with
      | main => exact h.imp fun _ hv => Cache.find?_get_some hv
      | hot => exact h
  | hot =>
    cases tier' with
    | main => exact h
    | hot => exact h.imp fun _ hv => Cache.find?_get_some hv

/-- After `Add` a cache stores something under the keys that it did before, and under the new
one. -/
theorem stores_of_add {c : Cache Value} (h : ∃ w, (c.add k v).find? k' = some w) :
    (∃ w, c.find? k' = some w) ∨ k' = k := by
  obtain ⟨w, hw⟩ := h
  rcases Cache.find?_add_some hw with ⟨rfl, _⟩ | ⟨_, hold⟩
  · exact Or.inr rfl
  · exact Or.inl ⟨w, hold⟩

theorem Has.of_populateMain (h : Has (g.populateMain k v) k' tier) :
    Has g k' tier ∨ tier = .main ∧ k' = k := by
  unfold Group.populateMain at h
  split at h
  · exact Or.inl h
  · cases tier with
    | main => exact (stores_of_add h).imp id fun hk => ⟨rfl, hk⟩
    | hot => exact Or.inl h

theorem Has.of_populateHot (h : Has (g.populateHot k v) k' tier) :
    Has g k' tier ∨ tier = .hot ∧ k' = k := by
  unfold Group.populateHot at h
  split at h
  · exact Or.inl h
  · cases tier with
    | main => exact Or.inl h
    | hot => exact (stores_of_add h).imp id fun hk => ⟨rfl, hk⟩

theorem Has.of_update (h : Has (g.update k v) k' tier) : Has g k' tier ∨ tier = .main ∧ k' = k := by
  cases tier with
  | main => exact (stores_of_add h).imp id fun hk => ⟨rfl, hk⟩
  | hot => exact Or.inl (h.imp fun _ hw => (Cache.find?_remove_some hw).2)

theorem Has.of_localRemove (h : Has (g.localRemove k) k' tier) : Has g k' tier := by
  unfold Group.localRemove at h
  split at h
  · exact h
  · cases tier <;> exact h.imp fun _ hw => (Cache.find?_remove_some hw).2

/-- A write adds to the main cache only, and only if it writes a value. -/
theorem Has.of_write (h : Has (op.write g) k tier) :
    Has g k tier ∨ tier = .main ∧ op.key = k ∧ op.value.isSome = true := by
  cases op with
  | get => exact Or.inl h
  | set => exact h.of_update.imp id fun ⟨ht, hk⟩ => ⟨ht, hk.symm, rfl⟩
  | remoteSet =>
    simp only [Op.write, Group.remoteSet] at h
    split at h
    · exact Or.inl h
    · exact h.of_update.imp id fun ⟨ht, hk⟩ => ⟨ht, hk.symm, rfl⟩
  | remove | localRemove => exact Or.inl h.of_localRemove

end Caches

/-- The steps after which a key may be in the cache of a tier. -/
def Fills (op : Op) (loc : Loc) (e : Event) (k : GoString) : Tier → Prop
  | .main => op.key = k ∧ ((∃ c v, loc = .lead c (.fillMain v)) ∨
      e = .write ∧ op.value.isSome = true)
  | .hot => op.key = k ∧ ∃ c v, loc = .lead c (.fillHot v)

section Steps

variable {n n' : Node} {time : ℕ} {op : Op} {b b' : Body} {e : Event} {g : Group Value}
  {loc loc' : Loc} {k : GoString} {tier : Tier}

theorem BodyStep.has_cases (h : BodyStep n time op b e g b') (hk : Has g k tier) (c : ℕ) :
    Has n.group k tier ∨ Fills op (.lead c b) e k tier := by
  cases h with
  | hit _ h | miss _ h => exact Or.inl ((has_count.mp hk).of_look h)
  | next _ h => exact Or.inl (hk.of_look h)
  | @fillHot _ _ v =>
    rcases (has_count.mp hk).of_populateHot with hold | ⟨rfl, rfl⟩
    · exact Or.inl hold
    · exact Or.inr ⟨rfl, c, v, rfl⟩
  | @fillMain _ _ v =>
    rcases hk.of_populateMain with hold | ⟨rfl, rfl⟩
    · exact Or.inl hold
    · exact Or.inr ⟨rfl, Or.inl ⟨c, v, rfl⟩⟩
  | write =>
    rcases hk.of_write with hold | ⟨rfl, hkey, hval⟩
    · exact Or.inl hold
    · exact Or.inr ⟨hkey, Or.inr ⟨rfl, hval⟩⟩
  | fetchGiveUp | fetchFallBack | got | failed => exact Or.inl (has_count.mp hk)
  | _ => exact Or.inl hk

/-- A key is in a cache only if it was there before the step, or the step fills it in. -/
theorem Act.has_cases (h : Act n time op loc e n' loc') (hk : Has n'.group k tier) :
    Has n.group k tier ∨ Fills op loc e k tier := by
  cases h with
  | hit _ h => exact Or.inl ((has_count.mp hk).of_look h)
  | next _ h | miss _ h => exact Or.inl (hk.of_look h)
  | join | lead =>
    cases op with
    | get => exact Or.inl (has_count.mp hk)
    | _ => exact Or.inl hk
  | body h => exact h.has_cases hk _
  | @remoteSet key value expire =>
    have hk : Has (Op.write n.group (.remoteSet key value expire)) k tier := hk
    rcases hk.of_write with hold | ⟨rfl, hkey, hval⟩
    · exact Or.inl hold
    · exact Or.inr ⟨hkey, Or.inr ⟨rfl, hval⟩⟩
  | localRemove => exact Or.inl hk.of_localRemove
  | _ => exact Or.inl hk

theorem KeysStep.has {fr : Option KeysFrame} {op : KeysOp} {e : KeysEvent} {loc : KeysLoc}
    (h : KeysStep n fr op e g loc) (hk : Has g k tier) : Has n.group k tier := by
  rcases h.group_cases with rfl | ⟨_, rfl⟩ | ⟨_, _, rfl⟩
  · exact hk
  · cases op with
    | removeKeys keys =>
      rw [KeysOp.count] at hk
      split at hk
      · exact hk
      · exact has_count.mp (has_count.mp hk)
    | handle => exact hk
  · exact hk.of_localRemove

end Steps

section Runs

theorem Act.picks {n n' : Node} {time : ℕ} {op : Op} {loc loc' : Loc} {owner : Option Client}
    {isRemote : Bool} (h : Act n time op loc (.pick owner isRemote) n' loc') :
    n.inst.pickPeer op.key = (owner, isRemote) := by
  cases h with
  | body h =>
    cases h with
    | pickRemote h | pickLocal h => exact h

variable {P : Type} {ls ms : List (Label P)} {s t : State P} {l : Label P} {k : GoString}
  {tier : Tier} {cacheBytes : ℤ} {Q : Op → Event → Prop}

/-- An event of the run that satisfies `Q`. -/
def Seen (Q : Op → Event → Prop) (ls : List (Label P)) : Prop :=
  ∃ p op e, Label.call p op e ∈ ls ∧ Q op e

theorem Seen.append (h : Seen Q ls) (ms : List (Label P)) : Seen Q (ls ++ ms) := by
  obtain ⟨p, op, e, hmem, hq⟩ := h
  exact ⟨p, op, e, List.mem_append_left ms hmem, hq⟩

theorem seen_last {p : P} {op : Op} {e : Event} (hq : Q op e) : Seen Q (ls ++ [.call p op e]) :=
  ⟨p, op, e, by simp, hq⟩

/-- `PickPeer` named a remote owner of the key, or left it to this node. -/
def PicksPeer (isRemote : Bool) (k : GoString) (op : Op) (e : Event) : Prop :=
  op.key = k ∧ ∃ owner, e = .pick owner isRemote

/-- A peer has answered the call with an error that `load` does not return. -/
def PeerFailed (ls : List (Label P)) (p : P) (op : Op) : Prop :=
  ∃ c err, .call p op (.answered c (some err)) ∈ ls ∧ err.isFinal = false

/-- A peer failed a `Get` of the key so, and the `Get` went on to call the Getter. -/
def FellBack (ls : List (Label P)) (k : GoString) : Prop :=
  ∃ p dest c err, err.isFinal = false ∧
    [Label.call p (.get k dest) (.answered c (some err)),
      .call p (.get k dest) .callGetter].Sublist ls

theorem PeerFailed.fellBack {p : P} {dest : Option Sink} (h : PeerFailed ls p (.get k dest)) :
    FellBack (ls ++ [.call p (.get k dest) .callGetter]) k := by
  obtain ⟨c, err, hmem, hfinal⟩ := h
  exact ⟨p, dest, c, err, hfinal, (List.singleton_sublist.mpr hmem).append (.refl _)⟩

theorem PeerFailed.append {p : P} {op : Op} (h : PeerFailed ls p op) (ms : List (Label P)) :
    PeerFailed (ls ++ ms) p op := by
  obtain ⟨c, err, hmem, hfinal⟩ := h
  exact ⟨c, err, List.mem_append_left ms hmem, hfinal⟩

theorem FellBack.append (h : FellBack ls k) (ms : List (Label P)) : FellBack (ls ++ ms) k := by
  obtain ⟨p, dest, c, err, hfinal, hsub⟩ := h
  exact ⟨p, dest, c, err, hfinal, hsub.trans (List.sublist_append_left ls ms)⟩

/-- A value was written under the key. -/
def WritesValue (k : GoString) (op : Op) (e : Event) : Prop :=
  op.key = k ∧ e = .write ∧ op.value.isSome = true

/-- Why a key may be in the cache of a tier. -/
def Grounds (ls : List (Label P)) (k : GoString) : Tier → Prop
  | .main => Seen (PicksPeer false k) ls ∨ FellBack ls k ∨ Seen (WritesValue k) ls
  | .hot => Seen (PicksPeer true k) ls

theorem Grounds.append (h : Grounds ls k tier) (ms : List (Label P)) :
    Grounds (ls ++ ms) k tier := by
  cases tier with
  | main => exact h.imp (·.append ms) (·.imp (·.append ms) (·.append ms))
  | hot => exact h.append ms

/-- What a load that has come to this place is about to fill. -/
def Loc.Grounded (ls : List (Label P)) (p : P) (op : Op) : Loc → Prop
  | .lead _ (.call _) | .lead _ (.calling _ _) | .lead _ (.fillHot _) => Grounds ls op.key .hot
  | .lead _ .callGetter => Seen (PicksPeer false op.key) ls ∨ PeerFailed ls p op
  | .lead _ (.getter _) | .lead _ (.fillMain _) => Grounds ls op.key .main
  | _ => True

theorem Loc.Grounded.append {loc : Loc} {p : P} {op : Op} (h : loc.Grounded ls p op)
    (ms : List (Label P)) : loc.Grounded (ls ++ ms) p op := by
  unfold Loc.Grounded at h ⊢
  split at h
  · exact Grounds.append h ms
  · exact Grounds.append h ms
  · exact Grounds.append h ms
  · exact h.imp (·.append ms) (·.append ms)
  · exact Grounds.append h ms
  · exact Grounds.append h ms
  · trivial

theorem start_grounded (g : Group Value) (op : Op) (p : P) : (op.start g).Grounded ls p op := by
  cases op with
  | get key dest => cases dest <;> trivial
  | set key value expire =>
    rw [Op.start]
    split
    · trivial
    · split <;> trivial
  | _ => trivial

theorem BodyStep.grounded {n : Node} {time c : ℕ} {op : Op} {b b' : Body} {e : Event}
    {g : Group Value} (h : BodyStep n time op b e g b')
    {p : P} (hb : (Loc.lead c b).Grounded ls p op) :
    (Loc.lead c b').Grounded (ls ++ [.call p op e]) p op := by
  cases h with
  | pickRemote => exact seen_last ⟨rfl, _, rfl⟩
  | pickLocal =>
    cases op with
    | get => exact Or.inl (seen_last ⟨rfl, _, rfl⟩)
    | _ => trivial
  | fetchFallBack h => exact Or.inr ⟨_, _, List.mem_concat_self, h⟩
  | send | fetched => exact Seen.append hb _
  | callGetter => exact hb.imp (·.append _) fun hfailed => Or.inl hfailed.fellBack
  | got => exact (show Grounds ls _ .main from hb).append _
  | peers =>
    rcases broadcast_cases op _ _ with ⟨_, h⟩ | h <;> rw [h] <;> trivial
  | _ => trivial

theorem Act.grounded {n n' : Node} {time : ℕ} {op : Op} {e : Event} {loc loc' : Loc}
    {p : P} (h : Act n time op loc e n' loc') (hl : loc.Grounded ls p op) :
    loc'.Grounded (ls ++ [.call p op e]) p op := by
  cases h with
  | body h => exact h.grounded hl
  | lead => cases op <;> trivial
  | _ => trivial

/-- What is in a cache, and what is about to be, is there for a reason. -/
structure Grounded (ls : List (Label P)) (s : State P) : Prop where
  caches : ∀ tier k, Has s.node.group k tier → Grounds ls k tier
  frames : ∀ p fr, s.pc p = some fr → fr.loc.Grounded ls p fr.op

theorem Grounded.filled (hs : Grounded ls s) {p : P} {op : Op} {since : ℕ} {loc : Loc} {e : Event}
    (hp : s.pc p = some ⟨op, since, loc⟩) (h : Fills op loc e k tier) :
    Grounds (ls ++ [.call p op e]) k tier := by
  have hframe := hs.frames p _ hp
  cases tier with
  | main =>
    obtain ⟨rfl, ⟨c, v, rfl⟩ | ⟨rfl, hval⟩⟩ := h
    · exact (show Grounds ls _ .main from hframe).append _
    · exact Or.inr (Or.inr (seen_last ⟨rfl, rfl, hval⟩))
  | hot =>
    obtain ⟨rfl, c, v, rfl⟩ := h
    exact (show Grounds ls _ .hot from hframe).append _

variable [DecidableEq P]

theorem grounded_step (h : Step s l t) (hs : Grounded ls s) : Grounded (ls ++ [l]) t := by
  constructor
  · intro tier k hk
    cases h with
    | invoke op _ =>
      have hold : Has s.node.group k tier := by
        cases op with
        | get => exact has_count.mp hk
        | _ => exact hk
      exact (hs.caches tier k hold).append _
    | act hp ha =>
      rcases ha.has_cases hk with hold | hfills
      · exact (hs.caches tier k hold).append _
      · exact hs.filled hp hfills
    | keys h => exact (hs.caches tier k (h.has hk)).append _
    | setPeers => exact (hs.caches tier k hk).append _
  · intro p fr hp
    rcases h.frame_cases hp with ⟨hold, _⟩ | ⟨e, loc, rfl, hold, ha⟩ | ⟨_, _, hloc⟩
    · exact (hs.frames p fr hold).append _
    · exact ha.grounded (hs.frames p _ hold)
    · rw [hloc]
      exact start_grounded _ _ p

theorem grounded_run (h : (nodeLTS P cacheBytes).Run ls s) : Grounded ls s := by
  refine h.invariant (I := Grounded) ?_ ?_
  · intro s hinit
    refine ⟨fun tier k hk => ?_, fun p fr hp => (pc_ne_initial hinit hp).elim⟩
    rw [hinit.1] at hk
    exact (not_has_new cacheBytes hk).elim
  · exact fun _ _ _ _ _ hs hstep => grounded_step hstep hs

/-- As long as the peers do not change, they are the ones every call of the run was given. -/
theorem picks_steady (h : (nodeLTS P cacheBytes).Run ls s) (hsteady : ∀ ps, .setPeers ps ∉ ls)
    {isRemote : Bool} (hseen : Seen (PicksPeer isRemote k) ls) :
    (s.node.inst.pickPeer k).2 = isRemote := by
  obtain ⟨p, op, _, hmem, rfl, owner, rfl⟩ := hseen
  suffices s.node.inst.pickPeer op.key = (owner, isRemote) by rw [this]
  refine h.invariant (I := fun ls s => (∀ ps, .setPeers ps ∉ ls) →
    Label.call p op (.pick owner isRemote) ∈ ls →
    s.node.inst.pickPeer op.key = (owner, isRemote)) ?_ ?_ hsteady hmem
  · exact fun _ _ _ hmem => (List.not_mem_nil hmem).elim
  · intro ls s l t _ ih hstep hsteady hmem
    simp only [List.mem_append, List.mem_singleton, not_or] at hsteady hmem
    have hinst : t.node.inst = s.node.inst :=
      hstep.inst_eq fun ps hl => (hsteady ps).2 hl.symm
    rw [hinst]
    rcases hmem with hmem | rfl
    · exact ih (fun ps => (hsteady ps).1) hmem
    · obtain ⟨_, _, _, _, ha, _⟩ := hstep.frame nofun
      exact ha.picks

/-- As long as the peers do not change, the hot cache holds only keys that a peer owns, and the main
cache only keys that no peer owns, that were written at this node, or that a `Get` loaded here after
its peer had failed. -/
theorem caches_authoritative (h : (nodeLTS P cacheBytes).Run ls s)
    (hsteady : ∀ ps, .setPeers ps ∉ ls) :
    (∀ k v, s.node.group.hotCache.find? k = some v → (s.node.inst.pickPeer k).2 = true) ∧
    ∀ k v, s.node.group.mainCache.find? k = some v → (s.node.inst.pickPeer k).2 = false ∨
      FellBack ls k ∨ Seen (WritesValue k) ls := by
  have hgrounds := (grounded_run h).caches
  constructor
  · intro k v hv
    exact picks_steady h hsteady (hgrounds .hot k ⟨v, hv⟩)
  · intro k v hv
    exact (hgrounds .main k ⟨v, hv⟩).imp (picks_steady h hsteady) id

end Runs

/-- A `Get` at one host of a key that the other one owns. -/
def getSeven : Op := .get [7] (some .allocating)

/-- A `Get` whose peer is out of reach loads the key itself. -/
def fallBackRun : List (Label ℕ) :=
  let toB : Client := ⟨0, ⟨hostB, false⟩⟩
  [.call 0 getSeven .invoke, .call 0 getSeven .lookup, .call 0 getSeven .lookup,
    .call 0 getSeven (.lead 0), .call 0 getSeven .lookup, .call 0 getSeven .lookup,
    .call 0 getSeven (.pick (some toB) true), .call 0 getSeven (.send toB),
    .call 0 getSeven (.answered toB (some (.other "timeout"))),
    .call 0 getSeven .callGetter, .call 0 getSeven (.got viewK),
    .call 0 getSeven (.fill ⟨viewK, .fetch 9⟩), .call 0 getSeven .assign, .call 0 getSeven .done,
    .call 0 getSeven .delete, .call 0 getSeven (.ret (.value ⟨viewK, .fetch 9⟩))]

theorem fallBackRun_run : ∃ s : State ℕ, (nodeLTS ℕ 1000).Run fallBackRun s ∧
    s.node.inst = hostInst hostA ∧
    s.node.group.mainCache.find? [7] = some ⟨viewK, .fetch 9⟩ := by
  have h₀ : (nodeLTS ℕ 1000).Run [] (hostState hostA) := .init (hostState_initial hostA)
  have h₁ := h₀.step (Step.invoke (p := 0) getSeven rfl)
  have h₂ := h₁.step (Step.act (p := 0) rfl (.next .zero rfl))
  have h₃ := h₂.step (Step.act (p := 0) rfl (.miss .zero rfl))
  have h₄ := h₃.step (Step.act (p := 0) rfl (.lead rfl))
  have h₅ := h₄.step (Step.act (p := 0) rfl (.body (.next .zero rfl)))
  have h₆ := h₅.step (Step.act (p := 0) rfl (.body (.miss .zero rfl)))
  have h₇ := h₆.step (Step.act (p := 0) rfl (.body (.pickRemote pick_hostA)))
  have h₈ := h₇.step (Step.act (p := 0) rfl (.body .send))
  have h₉ := h₈.step (Step.act (p := 0) rfl (.body (.fetchFallBack (e := .other "timeout") rfl)))
  have h₁₀ := h₉.step (Step.act (p := 0) rfl (.body .callGetter))
  have h₁₁ := h₁₀.step (Step.act (p := 0) rfl (.body (.got viewK)))
  have h₁₂ := h₁₁.step (Step.act (p := 0) rfl (.body .fillMain))
  have h₁₃ := h₁₂.step (Step.act (p := 0) rfl .assign)
  have h₁₄ := h₁₃.step (Step.act (p := 0) rfl .done)
  have h₁₅ := h₁₄.step (Step.act (p := 0) rfl .delete)
  have h₁₆ := h₁₅.step (Step.act (p := 0) rfl .ret)
  exact ⟨_, h₁₆, rfl, rfl⟩

theorem caches_authoritative_fallBack : ∃ (s : State ℕ) (v : Value),
    (nodeLTS ℕ 1000).Run fallBackRun s ∧ (∀ ps, .setPeers ps ∉ fallBackRun) ∧
    s.node.group.mainCache.find? [7] = some v ∧ (s.node.inst.pickPeer [7]).2 = true ∧
    FellBack fallBackRun [7] := by
  obtain ⟨s, hrun, hinst, hmain⟩ := fallBackRun_run
  have hsteady : ∀ ps, .setPeers ps ∉ fallBackRun := by simp [fallBackRun]
  have hremote : (s.node.inst.pickPeer [7]).2 = true := by rw [hinst, pick_hostA]
  refine ⟨s, _, hrun, hsteady, hmain, hremote, ?_⟩
  rcases (caches_authoritative hrun hsteady).2 [7] _ hmain with hlocal | hfell | hwrote
  · rw [hremote] at hlocal
    cases hlocal
  · exact hfell
  · obtain ⟨p, op, e, hmem, _, rfl, _⟩ := hwrote
    simp [fallBackRun] at hmem

end Groupcache.Concurrent
