import Mathlib.Data.List.Basic

/-! Byte strings that are not UTF-8, and their repair with the replacement character. -/
namespace Lib.Utf8

/-- The bytes are the UTF-8 encoding of some text. -/
def Valid (s : List UInt8) : Prop := s.toByteArray.IsValidUTF8

instance (s : List UInt8) : Decidable (Valid s) :=
  decidable_of_iff (s.toByteArray.validateUTF8 = true) ByteArray.validateUTF8_eq_true_iff

/-- The character whose encoding the bytes start with. -/
def head? (s : List UInt8) : Option Char := s.toByteArray.utf8DecodeChar? 0

/-- U+FFFD. -/
def replacement : List UInt8 := [0xEF, 0xBF, 0xBD]

/-- Copy `n` bytes, then replace each byte at which no character starts. -/
def repairFrom : ℕ → List UInt8 → List UInt8
  | _, [] => []
  | n + 1, b :: s => b :: repairFrom n s
  | 0, b :: s =>
    match head? (b :: s) with
    | some c => b :: repairFrom (c.utf8Size - 1) s
    | none => replacement ++ repairFrom 0 s

def repair (s : List UInt8) : List UInt8 := repairFrom 0 s

variable {s t : List UInt8} {c : Char}

theorem repairFrom_append (a t : List UInt8) : repairFrom a.length (a ++ t) = a ++ repair t := by
  induction a with
  | nil => rfl
  | cons b a ih => rw [List.length_cons, List.cons_append, repairFrom, ih, List.cons_append]

theorem head?_encode : head? (String.utf8EncodeChar c ++ t) = some c := by
  rw [head?, List.toByteArray_append]
  exact ByteArray.utf8DecodeChar?_utf8EncodeChar_append

theorem exists_of_head? (h : head? s = some c) : ∃ t, s = String.utf8EncodeChar c ++ t := by
  have heq := ByteArray.eq_of_utf8DecodeChar?_eq_some h
  have hdata := congrArg (fun b : ByteArray => b.data.toList) heq
  exact ⟨_, by simpa using hdata⟩

/-- A character at the head is copied. -/
theorem repair_encode :
    repair (String.utf8EncodeChar c ++ t) = String.utf8EncodeChar c ++ repair t := by
  have hhead : head? (String.utf8EncodeChar c ++ t) = some c := head?_encode
  have hlen := String.length_utf8EncodeChar c
  rcases he : String.utf8EncodeChar c with _ | ⟨b, a⟩
  · exact (String.utf8EncodeChar_ne_nil he).elim
  · rw [he] at hhead hlen
    have hsize : c.utf8Size - 1 = a.length := by simp [← hlen]
    rw [repair, List.cons_append, repairFrom]
    rw [List.cons_append] at hhead
    simp only [hhead, hsize, repairFrom_append, List.cons_append]

theorem length_le_repairFrom (n : ℕ) (s : List UInt8) : s.length ≤ (repairFrom n s).length := by
  induction s generalizing n with
  | nil => simp
  | cons b s ih =>
    cases n with
    | succ n => simpa [repairFrom] using ih n
    | zero =>
      rw [repairFrom]
      split
      · simpa using ih _
      · have := ih 0
        simp [replacement]
        omega

/-- A byte at which no character starts grows to three. -/
theorem repair_ne {b : UInt8} (h : head? (b :: s) = none) : repair (b :: s) ≠ b :: s := by
  intro heq
  have hlen := congrArg List.length heq
  have hle := length_le_repairFrom 0 s
  rw [repair, repairFrom, h] at hlen
  simp [replacement] at hlen
  omega

theorem valid_encode : Valid (String.utf8EncodeChar c ++ t) ↔ Valid t := by
  rw [Valid, List.toByteArray_append, ← List.utf8Encode_singleton]
  exact ByteArray.isValidUTF8_utf8Encode_singleton_append_iff

theorem head?_of_valid {b : UInt8} (h : Valid (b :: s)) : (head? (b :: s)).isSome := by
  obtain ⟨m, hm⟩ := h
  cases m with
  | nil =>
    have hsize := congrArg ByteArray.size hm
    simp at hsize
  | cons c m => simp [head?, hm, List.utf8DecodeChar?_utf8Encode_cons]

/-- Exactly the valid strings are left as they are. -/
theorem repair_eq_self_iff : repair s = s ↔ Valid s := by
  induction hn : s.length using Nat.strongRecOn generalizing s with
  | _ n ih =>
    cases s with
    | nil => exact ⟨fun _ => ⟨[], rfl⟩, fun _ => rfl⟩
    | cons b s =>
      cases hh : head? (b :: s) with
      | none =>
        refine ⟨fun heq => (repair_ne hh heq).elim, fun hv => ?_⟩
        simpa [hh] using head?_of_valid hv
      | some c =>
        obtain ⟨t, ht⟩ := exists_of_head? hh
        have hlen : t.length < n := by
          have := c.utf8Size_pos
          have := congrArg List.length ht
          rw [List.length_append, String.length_utf8EncodeChar] at this
          omega
        rw [ht, repair_encode, valid_encode, List.append_cancel_left_eq]
        exact ih t.length hlen rfl

end Lib.Utf8
