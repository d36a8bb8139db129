import Groupcache.Lib.Run
import Groupcache.Transport.Sinks

/-! A sink that is used again and again: what `View()` and the destination show after any sequence
of calls. `proto.Marshal` may return a nil slice here, and a view with a nil slice is read from its
string. -/
namespace Groupcache.Transport

open Lib

/-- `proto.Marshal`, where `none` is a nil slice, and `proto.Unmarshal`, which may have filled the
message in part when it fails. -/
structure WireCodec (M : Type) where
  marshal : M → Except Err (Option GoString)
  unmarshal : M → GoString → M × Option Err

variable {M : Type}

/-- The codec for the calls that see no nil slice. -/
def WireCodec.codec (W : WireCodec M) : ProtoCodec M where
  marshal m := (W.marshal m).map (·.getD [])
  unmarshal m b :=
    match W.unmarshal m b with
    | (m', none) => .ok m'
    | (_, some err) => .error err

/-- A call on a sink. -/
inductive SinkCall (M : Type)
  | set (c : SetCall M)
  | setSinkView (v : ByteView)

namespace SinkCall

/-- The slice that the value is, or is copied to. -/
def slice (W : WireCodec M) : SinkCall M → Except Err (Option GoString)
  | set (.setString v _) | set (.setBytes v _) => .ok (some v)
  | set (.setProto m _) => W.marshal m
  | setSinkView v => .ok (some v.bytes)

/-- The bytes of the value. -/
def value (W : WireCodec M) (x : SinkCall M) : Except Err GoString := (x.slice W).map (·.getD [])

def expire : SinkCall M → Time
  | set c => c.expire
  | setSinkView v => v.expire

/-- The bytes of the value, unless it is a message. -/
def plain? : SinkCall M → Option GoString
  | set (.setString v _) | set (.setBytes v _) => some v
  | set (.setProto _ _) => none
  | setSinkView v => some v.bytes

end SinkCall

namespace CallerSink

/-- `SetProto`, once `proto.Marshal` has returned `b`. -/
def setMarshaled (C : ProtoCodec M) (b : Option GoString) (e : Time) :
    CallerSink M → Except Err (CallerSink M)
  | string s => (s.setMarshaled b e).map string
  | byteView s => (s.setMarshaled b e).map byteView
  | proto s => (s.setMarshaled C b e).map proto
  | allocBytes s => (s.setBytesOwned b e).map allocBytes
  | truncBytes s => (s.setBytesOwned b e).map truncBytes

/-- The sink and the error after a call that was given the bytes `b`: when `proto.Unmarshal` fails,
it has still written to the destination. -/
def settle (W : WireCodec M) (s : CallerSink M) (b : GoString) :
    Except Err (CallerSink M) → CallerSink M × Option Err
  | .ok t => (t, none)
  | .error err =>
    match s with
    | proto s => (proto { s with dst := (W.unmarshal s.dst b).1 }, some err)
    | s => (s, some err)

def call (W : WireCodec M) (s : CallerSink M) : SinkCall M → CallerSink M × Option Err
  | .set (.setString v e) => s.settle W v (s.set W.codec (.setString v e))
  | .set (.setBytes v e) => s.settle W v (s.set W.codec (.setBytes v e))
  | .set (.setProto m e) =>
    match W.marshal m with
    | .error err => (s, some err)
    | .ok b => s.settle W (b.getD []) (s.setMarshaled W.codec b e)
  | .setSinkView v => s.settle W v.bytes (s.setSinkView W.codec v)

/-- A sink as its constructor returns it; the view of a `byteViewSink` is its destination. -/
def Fresh : CallerSink M → Prop
  | string s => s.v = ⟨none, [], .zero⟩
  | byteView _ => True
  | proto s => s.v = ⟨none, [], .zero⟩
  | allocBytes s => s.v = ⟨none, [], .zero⟩
  | truncBytes s => s.v = ⟨none, [], .zero⟩

/-- `View()` denotes the value of the call. -/
def Shows (W : WireCodec M) (s : CallerSink M) (x : SinkCall M) : Prop :=
  x.value W = .ok s.view.bytes ∧ s.view.expire = x.expire

end CallerSink

/-- The runs of a sink, each call with the error it returned. -/
def sinkLTS (W : WireCodec M) : LTS (CallerSink M) (SinkCall M × Option Err) where
  Init := CallerSink.Fresh
  Step s l t := s.call W l.1 = (t, l.2)

/-- The last call that returned nil. -/
def lastOk (ls : List (SinkCall M × Option Err)) : Option (SinkCall M) :=
  (ls.filterMap fun l => if l.2.isNone then some l.1 else none).getLast?

/-- The bytes of the last value that was not a message, if there is one. -/
def lastPlain (ls : List (SinkCall M × Option Err)) : GoString :=
  (ls.filterMap fun l => l.1.plain?).getLast?.getD []

namespace CallerSink

variable {W : WireCodec M} {s t : CallerSink M} {x : SinkCall M} {b : GoString} {e : Time}
  {err : Err} {r : Except Err (CallerSink M)} {ls : List (SinkCall M × Option Err)}

/-- What the view is read from when its slice is nil. -/
def leftover : CallerSink M → GoString
  | string s => s.v.s
  | _ => []

/-- What a failed call may have changed is the destination of a `protoSink`. -/
def Spoiled (s t : CallerSink M) : Prop :=
  t = s ∨ ∃ p dst, s = proto p ∧ t = proto { p with dst := dst }

theorem Spoiled.view_eq (h : Spoiled s t) : t.view = s.view := by
  rcases h with rfl | ⟨p, dst, rfl, rfl⟩ <;> rfl

theorem Spoiled.leftover_eq (h : Spoiled s t) : t.leftover = s.leftover := by
  rcases h with rfl | ⟨p, dst, rfl, rfl⟩ <;> rfl

theorem settle_ok (hr : r.map seen = (s.filled W.codec b).map (·, b, e))
    (h : s.settle W b r = (t, none)) :
    s.filled W.codec b = .ok t.content ∧ t.view.bytes = b ∧ t.view.expire = e := by
  cases r with
  | error err => cases s <;> cases h
  | ok t' =>
    cases h
    cases hf : s.filled W.codec b with
    | error err => simp [hf, Except.map] at hr
    | ok c =>
      simp only [hf, Except.map, seen, Except.ok.injEq, Prod.mk.injEq] at hr
      exact ⟨by rw [hr.1], hr.2⟩

theorem settle_error (h : s.settle W b r = (t, some err)) : Spoiled s t := by
  cases r with
  | ok t' => cases h
  | error err' =>
    cases s with
    | proto p =>
      cases h
      exact Or.inr ⟨p, _, rfl, rfl⟩
    | _ =>
      cases h
      exact Or.inl rfl

theorem eq_ok_of_settle (h : s.settle W b r = (t, none)) : r = .ok t := by
  cases r with
  | ok t' => rw [(Prod.mk.inj h).1]
  | error err => cases s <;> cases h

theorem setMarshaled_ok {C : ProtoCodec M} {b : Option GoString}
    (h : s.setMarshaled C b e = .ok t) :
    s.filled C (b.getD []) = .ok t.content ∧ t.view.bytes = b.getD t.leftover ∧
      t.view.expire = e := by
  cases s with
  | proto p =>
    simp only [setMarshaled, ProtoSink.setMarshaled, filled] at h ⊢
    cases hu : C.unmarshal p.dst (b.getD []) with
    | error err => cases hu ▸ h
    | ok dst =>
      rw [hu] at h
      cases h
      cases b <;> exact ⟨rfl, rfl, rfl⟩
  | truncBytes q =>
    cases h
    refine ⟨congrArg (fun d => Except.ok (Content.bytes d)) (TruncBytesSink.copied_eq _ _).symm, ?_⟩
    cases b <;> exact ⟨rfl, rfl⟩
  | _ =>
    cases h
    cases b <;> exact ⟨rfl, rfl, rfl⟩

/-- A call that returns nil passes on its value, but for the string a nil slice uncovers. -/
theorem call_ok (h : s.call W x = (t, none)) :
    ∃ b, x.slice W = .ok b ∧ s.filled W.codec (b.getD []) = .ok t.content ∧
      t.view.bytes = b.getD t.leftover ∧ t.view.expire = x.expire := by
  cases x with
  | setSinkView v => exact ⟨some v.bytes, rfl, settle_ok (s.setSinkView_seen W.codec v) h⟩
  | set c =>
    cases c with
    | setString v e =>
      exact ⟨some v, rfl, settle_ok (s.setBytes_seen W.codec (Or.inl rfl)) h⟩
    | setBytes v e =>
      exact ⟨some v, rfl, settle_ok (s.setBytes_seen W.codec (Or.inr rfl)) h⟩
    | setProto m e =>
      simp only [call] at h
      cases hm : W.marshal m with
      | error err => simp [hm] at h
      | ok b =>
        rw [hm] at h
        exact ⟨b, hm, setMarshaled_ok (eq_ok_of_settle h)⟩

theorem call_error (h : s.call W x = (t, some err)) : Spoiled s t := by
  cases x with
  | setSinkView v => exact settle_error h
  | set c =>
    cases c with
    | setString v e | setBytes v e => exact settle_error h
    | setProto m e =>
      simp only [call] at h
      cases hm : W.marshal m with
      | error err =>
        rw [hm] at h
        cases h
        exact Or.inl rfl
      | ok b =>
        rw [hm] at h
        exact settle_error h

/-- What a string sink keeps in its string is the last value that was not a message. -/
theorem call_string (q : StringSink) (x : SinkCall M) :
    ∃ q' r, (string q).call W x = (string q', r) ∧ q'.v.s = x.plain?.getD q.v.s := by
  cases x with
  | setSinkView v =>
    simp only [call, setSinkView, SinkCall.plain?, ByteView.bytes]
    cases v.b <;> exact ⟨_, _, rfl, rfl⟩
  | set c =>
    cases c with
    | setString v e | setBytes v e => exact ⟨_, _, rfl, rfl⟩
    | setProto m e =>
      simp only [call]
      cases W.marshal m <;> exact ⟨_, _, rfl, rfl⟩

def isString : CallerSink M → Bool
  | string _ => true
  | _ => false

theorem isString_set {C : ProtoCodec M} {c : SetCall M} (h : s.set C c = .ok t) :
    t.isString = s.isString := by
  cases s <;> cases c <;> simp only [set, Except.map] at h <;> split at h <;> cases h <;> rfl

theorem isString_setMarshaled {C : ProtoCodec M} {b : Option GoString}
    (h : s.setMarshaled C b e = .ok t) : t.isString = s.isString := by
  cases s <;> simp only [setMarshaled, Except.map] at h <;> split at h <;> cases h <;> rfl

theorem isString_settle (h : ∀ t, r = .ok t → t.isString = s.isString) :
    (s.settle W b r).1.isString = s.isString := by
  cases r with
  | ok t => exact h t rfl
  | error err => cases s <;> rfl

/-- No call makes a string sink of another one. -/
theorem isString_call (x : SinkCall M) : (s.call W x).1.isString = s.isString := by
  cases x with
  | setSinkView v =>
    refine isString_settle fun t ht => ?_
    cases s with
    | byteView q | allocBytes q =>
      simp only [setSinkView, Except.map] at ht
      split at ht <;> cases ht
      rfl
    | _ =>
      simp only [setSinkView] at ht
      split at ht <;> exact isString_set ht
  | set c =>
    cases c with
    | setString v e | setBytes v e => exact isString_settle fun t => isString_set
    | setProto m e =>
      simp only [call]
      cases W.marshal m with
      | error err => rfl
      | ok b => exact isString_settle fun t => isString_setMarshaled

@[simp] theorem lastOk_ok : lastOk (ls ++ [(x, none)]) = some x := by
  simp [lastOk]

@[simp] theorem lastOk_error : lastOk (ls ++ [(x, some err)]) = lastOk ls := by
  simp [lastOk]

theorem lastPlain_concat (o : Option Err) :
    lastPlain (ls ++ [(x, o)]) = x.plain?.getD (lastPlain ls) := by
  cases hx : x.plain? <;> simp [lastPlain, hx]

/-- The string of a string sink, and the view of every sink, after the calls so far. -/
structure Tracked (W : WireCodec M) (ls : List (SinkCall M × Option Err)) (s : CallerSink M) :
    Prop where
  string : ∀ q, s = string q → q.v.s = lastPlain ls
  view : ∀ x, lastOk ls = some x → ∃ b, x.slice W = .ok b ∧ s.view.bytes = b.getD s.leftover ∧
    s.view.expire = x.expire

theorem tracked_fresh (h : s.Fresh) : Tracked W [] s := by
  constructor
  · rintro q rfl
    rw [show q.v = ⟨none, [], .zero⟩ from h]
    rfl
  · intro x hx
    cases hx

theorem tracked_call {o : Option Err} (h : s.call W x = (t, o)) (hs : Tracked W ls s) :
    Tracked W (ls ++ [(x, o)]) t := by
  constructor
  · rintro q rfl
    -- Only a string sink becomes a string sink, and of its calls the plain ones write the string.
    have hkind : s.isString = true := by
      rw [← isString_call (W := W) x, h]
      rfl
    cases s with
    | string q₀ =>
      obtain ⟨q', r, hcall, hq'⟩ := call_string (W := W) q₀ x
      rw [h] at hcall
      cases hcall
      rw [hq', hs.string q₀ rfl, lastPlain_concat]
    | _ => cases hkind
  · intro y hy
    cases o with
    | none =>
      rw [lastOk_ok] at hy
      cases hy
      obtain ⟨b, hb, -, hview⟩ := call_ok h
      exact ⟨b, hb, hview⟩
    | some err =>
      rw [lastOk_error] at hy
      have hspoiled := call_error h
      rw [hspoiled.view_eq, hspoiled.leftover_eq]
      exact hs.view y hy

theorem tracked_run (h : (sinkLTS W).Run ls s) : Tracked W ls s :=
  h.invariant (fun _ => tracked_fresh) fun _ _ _ _ _ hs hcall => tracked_call hcall hs

theorem exists_setProto_of_slice (h : x.slice W = .ok none) :
    ∃ m e, x = .set (.setProto m e) ∧ W.marshal m = .ok none := by
  cases x with
  | setSinkView v => cases h
  | set c =>
    cases c with
    | setProto m e => exact ⟨m, e, rfl, h⟩
    | _ => cases h

theorem Tracked.shows_iff (hs : Tracked W ls s) (hx : lastOk ls = some x) :
    s.Shows W x ↔ x.slice W = .ok none → s.leftover = [] := by
  obtain ⟨b, hb, hbytes, hexpire⟩ := hs.view x hx
  simp only [Shows, SinkCall.value, hb, Except.map, hbytes, hexpire, and_true, Except.ok.injEq]
  cases b with
  | none => exact ⟨fun h _ => h.symm, fun h => (h rfl).symm⟩
  | some b => simp

/-- `View()` is the value of the last call that returned nil, unless that call is a `SetProto` of a
string sink which got a nil slice, after a value that was not empty and not a message. The
destination is filled with the value in every case, and a call that fails leaves `View()` alone. -/
theorem view_last_iff (h : (sinkLTS W).Run ls s) :
    ((∀ x, lastOk ls = some x → s.Shows W x) ↔
      ¬∃ q m e, s = string q ∧ lastOk ls = some (.set (.setProto m e)) ∧
        W.marshal m = .ok none ∧ lastPlain ls ≠ []) ∧
    (∀ x t, s.call W x = (t, none) →
      ∃ b, x.value W = .ok b ∧ s.filled W.codec b = .ok t.content) ∧
    ∀ x t err, s.call W x = (t, some err) → t.view = s.view ∧ ((∀ p, s ≠ proto p) → t = s) := by
  have htracked := tracked_run h
  refine ⟨⟨?_, ?_⟩, ?_, ?_⟩
  · rintro hshows ⟨q, m, e, rfl, hlast, hm, hne⟩
    have hempty := (htracked.shows_iff hlast).mp (hshows _ hlast) hm
    exact hne ((htracked.string q rfl).symm.trans hempty)
  · intro hnil x hx
    refine (htracked.shows_iff hx).mpr fun hslice => ?_
    obtain ⟨m, e, rfl, hm⟩ := exists_setProto_of_slice hslice
    cases s with
    | string q =>
      by_contra hne
      refine hnil ⟨q, m, e, rfl, hx, hm, ?_⟩
      rwa [← htracked.string q rfl]
    | _ => rfl
  · intro x t hcall
    obtain ⟨b, hb, hfilled, -⟩ := call_ok hcall
    exact ⟨b.getD [], by simp [SinkCall.value, hb, Except.map], hfilled⟩
  · intro x t err hcall
    have hspoiled := call_error hcall
    refine ⟨hspoiled.view_eq, fun hproto => ?_⟩
    rcases hspoiled with rfl | ⟨p, dst, rfl, -⟩
    · rfl
    · exact (hproto p rfl).elim

/-- Messages that are their own encoding, where the encoding of the empty one is a nil slice. -/
def rawCodec : WireCodec GoString where
  marshal m := .ok (if m = [] then none else some m)
  unmarshal _ b := (b, none)

/-- A string sink that is given a string and then a message. -/
theorem view_last_message : ∃ s, (sinkLTS rawCodec).Run
      [(.set (.setString [120] ⟨5⟩), none), (.set (.setProto [121] ⟨6⟩), none)] s ∧
    s.Shows rawCodec (.set (.setProto [121] ⟨6⟩)) := by
  have hstring : (sinkLTS rawCodec).Step (string ⟨[], ⟨none, [], .zero⟩⟩)
      (.set (.setString [120] ⟨5⟩), none) (string ⟨[120], ⟨none, [120], ⟨5⟩⟩⟩) := rfl
  have hproto : (sinkLTS rawCodec).Step (string ⟨[120], ⟨none, [120], ⟨5⟩⟩⟩)
      (.set (.setProto [121] ⟨6⟩), none) (string ⟨[121], ⟨some [121], [120], ⟨6⟩⟩⟩) := rfl
  have hrun := ((LTS.Run.init rfl).step hstring).step hproto
  refine ⟨_, hrun, (view_last_iff hrun).1.mpr ?_ _ rfl⟩
  rintro ⟨q, m, e, -, hlast, hm, -⟩
  cases hlast
  cases hm

/-- It is given a string and then the empty message: the destination is empty, and `View()` still
shows the string, with the new expiry. -/
theorem view_uncovers_string : ∃ s, (sinkLTS rawCodec).Run
      [(.set (.setString [120] ⟨5⟩), none), (.set (.setProto [] ⟨6⟩), none)] s ∧
    s.content = .bytes [] ∧ s.view.bytes = [120] ∧ s.view.expire = ⟨6⟩ ∧
    SinkCall.value rawCodec (.set (.setProto [] ⟨6⟩)) = .ok [] ∧
    ¬s.Shows rawCodec (.set (.setProto [] ⟨6⟩)) := by
  have hstring : (sinkLTS rawCodec).Step (string ⟨[], ⟨none, [], .zero⟩⟩)
      (.set (.setString [120] ⟨5⟩), none) (string ⟨[120], ⟨none, [120], ⟨5⟩⟩⟩) := rfl
  have hproto : (sinkLTS rawCodec).Step (string ⟨[120], ⟨none, [120], ⟨5⟩⟩⟩)
      (.set (.setProto [] ⟨6⟩), none) (string ⟨[], ⟨none, [120], ⟨6⟩⟩⟩) := rfl
  refine ⟨_, ((LTS.Run.init rfl).step hstring).step hproto, rfl, rfl, rfl, rfl, ?_⟩
  rintro ⟨hvalue, -⟩
  cases hvalue

end CallerSink

end Groupcache.Transport
