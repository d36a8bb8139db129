import Groupcache.Transport.ByteView
import Groupcache.Errors

/-! The methods of `transport.ByteView`, on both representations, against the same operations on the
list of bytes. Capacities are not modelled: a `[]byte` is as long as its bytes. -/
namespace Groupcache.Transport

/-- What `ByteViewFrom` takes; a nil slice is `none`. -/
inductive Data
  | bytes (b : Option GoString)
  | string (s : GoString)

def byteViewFrom : Data → ByteView
  | .bytes b => { b := b, s := [], e := .zero }
  | .string s => { b := none, s := s, e := .zero }

/-- `x[i]`; `none` is a panic. -/
def index (x : GoString) (i : ℤ) : Option UInt8 := if 0 ≤ i then x[i.toNat]? else none

/-- `x[from:to]`; `none` is a pair of indices out of range. -/
def cut (x : GoString) (lo hi : ℤ) : Option GoString :=
  if 0 ≤ lo ∧ lo ≤ hi ∧ hi ≤ x.length then some ((x.take hi.toNat).drop lo.toNat) else none

/-- `copy(dest, src)`: the destination after it, and the number of bytes copied. -/
def goCopy (dest src : GoString) : GoString × ℕ :=
  (src.take dest.length ++ dest.drop src.length, min dest.length src.length)

/-- `io.EOF`. -/
def eof : Err := .other "EOF"

/-- `io.ErrShortWrite`. -/
def errShortWrite : Err := .other "short write"

/-- An `io.Writer` with its state. If it is an `io.StringWriter` too, `WriteString` writes the bytes
of the string. -/
structure Writer (σ : Type) where
  write : σ → GoString → σ × ℤ × Option Err
  writeString? : Option (σ → GoString → σ × ℤ × Option Err)
  writeString_eq : ∀ f, writeString? = some f → f = write

/-- `io.WriteString`. -/
def Writer.writeString {σ : Type} (wr : Writer σ) (st : σ) (s : GoString) : σ × ℤ × Option Err :=
  match wr.writeString? with
  | some f => f st s
  | none => wr.write st s

namespace ByteView

def byteSlice (v : ByteView) : GoString :=
  match v.b with
  | some b => b
  | none => v.s

def string (v : ByteView) : GoString :=
  match v.b with
  | some b => b
  | none => v.s

/-- `At`. -/
def byteAt (v : ByteView) (i : ℤ) : Option UInt8 :=
  match v.b with
  | some b => index b i
  | none => index v.s i

/-- A slice that is not nil stays so, and the expiry is dropped. Go bounds `hi` by the capacity of a
`[]byte`, so that a `hi` between its length and its capacity is out of range only here. -/
def slice (v : ByteView) (lo hi : ℤ) : Option ByteView :=
  match v.b with
  | some b => (cut b lo hi).map fun b' => { b := some b', s := [], e := .zero }
  | none => (cut v.s lo hi).map fun s' => { b := none, s := s', e := .zero }

def sliceFrom (v : ByteView) (lo : ℤ) : Option ByteView :=
  match v.b with
  | some b => (cut b lo b.length).map fun b' => { b := some b', s := [], e := .zero }
  | none => (cut v.s lo v.s.length).map fun s' => { b := none, s := s', e := .zero }

def copy (v : ByteView) (dest : GoString) : GoString × ℕ :=
  match v.b with
  | some b => goCopy dest b
  | none => goCopy dest v.s

/-- The loop of `EqualString` and of `EqualBytes`, over the rest of one side from index `i` on. -/
def equalLoop (x : GoString) : GoString → ℤ → Option Bool
  | [], _ => some true
  | bi :: rest, i =>
    match index x i with
    | none => none
    | some xi => if bi ≠ xi then some false else equalLoop x rest (i + 1)

def equalString (v : ByteView) (s : GoString) : Option Bool :=
  match v.b with
  | none => some (v.s == s)
  | some b => if s.length ≠ v.len then some false else equalLoop s b 0

/-- For `bytes.Equal` a nil slice is an empty one. -/
def equalBytes (v : ByteView) (b2 : Option GoString) : Option Bool :=
  match v.b with
  | some b => some (b == b2.getD [])
  | none => if (b2.getD []).length ≠ v.len then some false else equalLoop v.s (b2.getD []) 0

def equal (v b2 : ByteView) : Option Bool :=
  match b2.b with
  | none => v.equalString b2.s
  | some b => v.equalBytes (some b)

/-- The buffer after `ReadAt`, and what it returns. -/
def readAt (v : ByteView) (p : GoString) (off : ℤ) : Option (GoString × ℕ × Option Err) :=
  if off < 0 then some (p, 0, some (.other "view: invalid offset"))
  else if v.len ≤ off then some (p, 0, some eof)
  else
    (v.sliceFrom off).map fun u =>
      let r := u.copy p
      (r.1, r.2, if r.2 < p.length then some eof else none)

def writeTo {σ : Type} (v : ByteView) (wr : Writer σ) (st : σ) : σ × ℤ × Option Err :=
  let r :=
    match v.b with
    | some b => wr.write st b
    | none => wr.writeString st v.s
  (r.1, r.2.1, if r.2.2.isNone ∧ r.2.1 < (v.len : ℤ) then some errShortWrite else r.2.2)

end ByteView

/-- A call of `Slice` or `SliceFrom`. -/
inductive Cut
  | slice (lo hi : ℤ)
  | sliceFrom (lo : ℤ)

namespace Cut

def InRange (w : GoString) : Cut → Prop
  | slice lo hi => 0 ≤ lo ∧ lo ≤ hi ∧ hi ≤ w.length
  | sliceFrom lo => 0 ≤ lo ∧ lo ≤ w.length

/-- The call on a list of bytes. -/
def apply (w : GoString) : Cut → GoString
  | slice lo hi => (w.take hi.toNat).drop lo.toNat
  | sliceFrom lo => w.drop lo.toNat

end Cut

/-- Each call of the chain is in range for what the calls before it left. -/
def InRange : GoString → List Cut → Prop
  | _, [] => True
  | w, c :: cs => c.InRange w ∧ InRange (c.apply w) cs

/-- `ReadAt` on a list of bytes. -/
def readBytesAt (w p : GoString) (off : ℤ) : GoString × ℕ × Option Err :=
  if off < 0 then (p, 0, some (.other "view: invalid offset"))
  else if w.length ≤ off then (p, 0, some eof)
  else
    let rest := w.drop off.toNat
    (rest.take p.length ++ p.drop rest.length, min p.length rest.length,
      if rest.length < p.length then some eof else none)

/-- `WriteTo` on a list of bytes. -/
def writeBytes {σ : Type} (w : GoString) (wr : Writer σ) (st : σ) : σ × ℤ × Option Err :=
  let r := wr.write st w
  (r.1, r.2.1, if r.2.2.isNone ∧ r.2.1 < (w.length : ℤ) then some errShortWrite else r.2.2)

namespace ByteView

def cut (v : ByteView) : Cut → Option ByteView
  | .slice lo hi => v.slice lo hi
  | .sliceFrom lo => v.sliceFrom lo

def cuts (v : ByteView) : List Cut → Option ByteView
  | [] => some v
  | c :: cs => (v.cut c).bind fun u => u.cuts cs

/-- Whatever is read from the view is what the list of bytes gives. -/
structure Reads (v : ByteView) (w : GoString) : Prop where
  len : v.len = w.length
  byteAt : ∀ i, v.byteAt i = index w i
  string : v.string = w
  byteSlice : v.byteSlice = w
  copy : ∀ dest, v.copy dest = goCopy dest w
  readAt : ∀ p off, v.readAt p off = some (readBytesAt w p off)
  writeTo : ∀ (σ : Type) (wr : Writer σ) (st : σ), v.writeTo wr st = writeBytes w wr st

variable {v : ByteView} {w b : GoString}

theorem bytes_of_some (h : v.b = some b) : v.bytes = b := by simp [bytes, h]

theorem bytes_of_none (h : v.b = none) : v.bytes = v.s := by simp [bytes, h]

theorem length_bytes : v.bytes.length = v.len := by
  unfold bytes len
  split <;> rfl

theorem copy_eq (dest : GoString) : v.copy dest = goCopy dest v.bytes := by
  unfold copy bytes
  cases v.b <;> rfl

/-- A slice of a view is a view of the slice, of either representation. -/
theorem slice_eq {lo hi : ℤ} (h : 0 ≤ lo ∧ lo ≤ hi ∧ hi ≤ v.bytes.length) :
    ∃ u, v.slice lo hi = some u ∧ u.bytes = (v.bytes.take hi.toNat).drop lo.toNat := by
  unfold slice
  cases hb : v.b with
  | some b =>
    rw [bytes_of_some hb] at h ⊢
    simp [Transport.cut, h, bytes]
  | none =>
    rw [bytes_of_none hb] at h ⊢
    simp [Transport.cut, h, bytes]

theorem sliceFrom_eq_slice (v : ByteView) (lo : ℤ) :
    v.sliceFrom lo = v.slice lo v.bytes.length := by
  unfold sliceFrom slice bytes
  cases v.b <;> rfl

theorem sliceFrom_eq {lo : ℤ} (h : 0 ≤ lo ∧ lo ≤ v.bytes.length) :
    ∃ u, v.sliceFrom lo = some u ∧ u.bytes = v.bytes.drop lo.toNat := by
  obtain ⟨u, hu, hbytes⟩ := slice_eq (v := v) ⟨h.1, h.2, le_refl _⟩
  exact ⟨u, by rw [sliceFrom_eq_slice, hu], by simpa using hbytes⟩

theorem cut_eq {c : Cut} (h : c.InRange v.bytes) :
    ∃ u, v.cut c = some u ∧ u.bytes = c.apply v.bytes := by
  cases c with
  | slice lo hi => exact slice_eq h
  | sliceFrom lo => exact sliceFrom_eq h

/-- By induction on the chain, from any view. -/
theorem cuts_eq (cs : List Cut) (h : InRange v.bytes cs) :
    ∃ u, v.cuts cs = some u ∧ u.bytes = cs.foldl Cut.apply v.bytes := by
  induction cs generalizing v with
  | nil => exact ⟨v, rfl, rfl⟩
  | cons c cs ih =>
    obtain ⟨hc, hcs⟩ := h
    obtain ⟨u, hu, hbytes⟩ := cut_eq hc
    rw [← hbytes] at hcs
    obtain ⟨t, ht, hbytes'⟩ := ih hcs
    refine ⟨t, by simp [cuts, hu, ht], ?_⟩
    rw [hbytes', hbytes, List.foldl_cons]

theorem readAt_eq (p : GoString) (off : ℤ) :
    v.readAt p off = some (readBytesAt v.bytes p off) := by
  unfold readAt readBytesAt
  rw [length_bytes]
  split
  · rfl
  · split
    · rfl
    · have hrange : 0 ≤ off ∧ off ≤ v.bytes.length := by
        rw [length_bytes]
        omega
      obtain ⟨u, hu, hbytes⟩ := sliceFrom_eq hrange
      have hshort : min p.length (v.bytes.drop off.toNat).length < p.length ↔
          (v.bytes.drop off.toNat).length < p.length := by omega
      simp only [hu, Option.map_some, copy_eq, hbytes, goCopy, hshort]

theorem writeString_eq_write {σ : Type} (wr : Writer σ) (st : σ) (s : GoString) :
    wr.writeString st s = wr.write st s := by
  unfold Writer.writeString
  cases hf : wr.writeString? with
  | none => rfl
  | some f => rw [wr.writeString_eq f hf]

theorem writeTo_eq {σ : Type} (wr : Writer σ) (st : σ) :
    v.writeTo wr st = writeBytes v.bytes wr st := by
  unfold writeTo writeBytes
  rw [length_bytes]
  cases hb : v.b with
  | some b => rw [bytes_of_some hb]
  | none => rw [bytes_of_none hb, writeString_eq_write]

/-- Nothing that is read from a view depends on which field holds its bytes. -/
theorem reads_bytes (v : ByteView) : v.Reads v.bytes where
  len := length_bytes.symm
  byteAt i := by
    unfold byteAt bytes
    cases v.b <;> rfl
  string := rfl
  byteSlice := rfl
  copy := copy_eq
  readAt := readAt_eq
  writeTo _ := writeTo_eq

/-- The loop compares the rest of one side with the rest of the other, which is as long. -/
theorem equalLoop_eq (x rest : GoString) (i : ℕ) (h : i + rest.length = x.length) :
    equalLoop x rest i = some (decide (rest = x.drop i)) := by
  induction rest generalizing i with
  | nil =>
    have hdrop : x.drop i = [] := List.drop_eq_nil_of_le (by simp at h; omega)
    rw [hdrop]
    rfl
  | cons bi rest ih =>
    rw [List.length_cons] at h
    -- There is a byte at index `i`, so the loop does not panic.
    have hlt : i < x.length := by omega
    have hindex : index x i = some x[i] := by simp [index, hlt]
    have hdrop : x.drop i = x[i] :: x.drop (i + 1) := List.drop_eq_getElem_cons hlt
    have hrest := ih (i + 1) (by omega)
    push_cast at hrest
    simp only [equalLoop, hindex]
    rw [hdrop]
    by_cases heq : bi = x[i]
    · rw [if_neg (not_not.mpr heq), hrest]
      simp only [heq, List.cons.injEq, true_and]
    · rw [if_pos heq]
      simp only [heq, List.cons.injEq, false_and, decide_false]

/-- The loop behind its check of the lengths. -/
theorem guarded_equalLoop_eq (x y : GoString) :
    (if x.length ≠ y.length then some false else equalLoop x y 0) = some (decide (y = x)) := by
  by_cases hlen : x.length = y.length
  · rw [if_neg (not_not.mpr hlen)]
    simpa using equalLoop_eq x y 0 (by omega)
  · have hne : y ≠ x := fun heq => hlen (by rw [heq])
    rw [if_pos hlen, decide_eq_false hne]

theorem equalString_eq (v : ByteView) (s : GoString) :
    v.equalString s = some (decide (v.bytes = s)) := by
  cases hb : v.b with
  | none => simp [equalString, bytes, hb, beq_eq_decide]
  | some b =>
    have hloop := guarded_equalLoop_eq s b
    simpa [equalString, bytes, len, hb] using hloop

theorem equalBytes_eq (v : ByteView) (b2 : Option GoString) :
    v.equalBytes b2 = some (decide (v.bytes = b2.getD [])) := by
  cases hb : v.b with
  | some b => simp [equalBytes, bytes, hb, beq_eq_decide]
  | none =>
    have hloop := guarded_equalLoop_eq v.s (b2.getD [])
    simp only [ne_eq, eq_comm (a := v.s.length), eq_comm (b := v.s)] at hloop
    simpa [equalBytes, bytes, len, hb] using hloop

theorem equal_eq (v v₂ : ByteView) : v.equal v₂ = some (decide (v.bytes = v₂.bytes)) := by
  unfold equal
  cases hb : v₂.b with
  | none =>
    rw [bytes_of_none hb]
    exact v.equalString_eq v₂.s
  | some b =>
    rw [bytes_of_some hb]
    exact v.equalBytes_eq (some b)

/-- The view of a `[]byte` and that of a string read alike after any slicing, as the bytes do, and
views compare by their bytes. -/
theorem representation_invisible {b : Option GoString} (hb : b.getD [] = w) {cs : List Cut}
    (hcs : InRange w cs) :
    (∃ u u', (byteViewFrom (.bytes b)).cuts cs = some u ∧
      (byteViewFrom (.string w)).cuts cs = some u' ∧
      u.Reads (cs.foldl Cut.apply w) ∧ u'.Reads (cs.foldl Cut.apply w)) ∧
    ∀ v : ByteView, v.Reads v.bytes ∧
      (∀ v₂ : ByteView, v.equal v₂ = some (decide (v.bytes = v₂.bytes))) ∧
      (∀ s, v.equalString s = some (decide (v.bytes = s))) ∧
      ∀ b2, v.equalBytes b2 = some (decide (v.bytes = b2.getD [])) := by
  refine ⟨?_, fun v => ⟨v.reads_bytes, v.equal_eq, v.equalString_eq, v.equalBytes_eq⟩⟩
  have hview : (byteViewFrom (.bytes b)).bytes = w := by
    rw [← hb]
    cases b <;> rfl
  obtain ⟨u, hu, hbytes⟩ := cuts_eq (v := byteViewFrom (.bytes b)) cs (by rwa [hview])
  obtain ⟨u', hu', hbytes'⟩ := cuts_eq (v := byteViewFrom (.string w)) cs hcs
  rw [hview] at hbytes
  exact ⟨u, u', hu, hu', hbytes ▸ u.reads_bytes, hbytes' ▸ u'.reads_bytes⟩

/-- `bytes.Buffer`, which holds what has been written. -/
def buffer : Writer GoString where
  write st b := (st ++ b, b.length, none)
  writeString? := some fun st s => (st ++ s, s.length, none)
  writeString_eq := by
    rintro _ ⟨⟩
    rfl

/-- The nil slice and the empty string, a view that is cut until nothing is left of it, and one that
is written to a buffer. -/
theorem representation_invisible_empty :
    (∃ u u', (byteViewFrom (.bytes none)).cuts [.slice 0 0] = some u ∧
      (byteViewFrom (.string [])).cuts [.slice 0 0] = some u' ∧ u.Reads [] ∧ u'.Reads []) ∧
    (∃ u u', (byteViewFrom (.bytes (some [97, 98, 99]))).cuts [.slice 1 3, .sliceFrom 2] = some u ∧
      (byteViewFrom (.string [97, 98, 99])).cuts [.slice 1 3, .sliceFrom 2] = some u' ∧
      u.Reads [] ∧ u'.Reads []) ∧
    ∃ u u', (byteViewFrom (.bytes (some [97, 98, 99]))).cuts [.slice 1 3] = some u ∧
      (byteViewFrom (.string [97, 98, 99])).cuts [.slice 1 3] = some u' ∧
      u.writeTo buffer [120] = ([120, 98, 99], 2, none) ∧
      u'.writeTo buffer [120] = ([120, 98, 99], 2, none) := by
  have hnil : InRange [] [.slice 0 0] := ⟨by simp [Cut.InRange], trivial⟩
  have habc : InRange [97, 98, 99] [.slice 1 3, .sliceFrom 2] :=
    ⟨by simp [Cut.InRange], by simp [Cut.InRange, Cut.apply], trivial⟩
  have hbc : InRange [97, 98, 99] [.slice 1 3] := ⟨by simp [Cut.InRange], trivial⟩
  obtain ⟨u, u', hu, hu', hreads, hreads'⟩ :=
    (representation_invisible (b := some [97, 98, 99]) rfl hbc).1
  exact ⟨(representation_invisible (b := none) rfl hnil).1,
    (representation_invisible (b := some [97, 98, 99]) rfl habc).1,
    u, u', hu, hu', hreads.writeTo _ buffer [120], hreads'.writeTo _ buffer [120]⟩

end ByteView

end Groupcache.Transport
