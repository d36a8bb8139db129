import Mathlib.Data.List.Basic
import Mathlib.Tactic.IntervalCases

/-! Percent-encoding of byte strings. -/
namespace Lib.Percent

def hexDigit (n : ℕ) : UInt8 := UInt8.ofNat (if n < 10 then 48 + n else 55 + n)

def unhex (c : UInt8) : Option ℕ :=
  if 48 ≤ c ∧ c ≤ 57 then some (c.toNat - 48)
  else if 65 ≤ c ∧ c ≤ 70 then some (c.toNat - 55)
  else if 97 ≤ c ∧ c ≤ 102 then some (c.toNat - 87)
  else none

def encodeByte (keep : UInt8 → Bool) (b : UInt8) : List UInt8 :=
  if keep b then [b] else [37, hexDigit (b.toNat / 16), hexDigit (b.toNat % 16)]

/-- Every byte outside `keep` becomes `%XX`. -/
def encode (keep : UInt8 → Bool) (s : List UInt8) : List UInt8 := s.flatMap (encodeByte keep)

/-- The inverse of `encode`; a malformed escape stays as it is. -/
def decode : List UInt8 → List UInt8
  | [] => []
  | 37 :: a :: b :: t =>
    match unhex a, unhex b with
    | some x, some y => UInt8.ofNat (x * 16 + y) :: decode t
    | _, _ => 37 :: decode (a :: b :: t)
  | c :: t => c :: decode t

variable {keep : UInt8 → Bool}

theorem unhex_hexDigit {n : ℕ} (h : n < 16) : unhex (hexDigit n) = some n := by
  interval_cases n <;> decide

theorem decode_cons {c : UInt8} (h : c ≠ 37) (t : List UInt8) :
    decode (c :: t) = c :: decode t := by
  rw [decode]
  exact fun _ _ _ hc _ => h hc

/-- Text without escapes is its own encoding. -/
theorem decode_append {s : List UInt8} (h : 37 ∉ s) (t : List UInt8) :
    decode (s ++ t) = s ++ decode t := by
  induction s with
  | nil => rfl
  | cons c s ih =>
    obtain ⟨hc, hs⟩ := not_or.mp (mt List.mem_cons.mpr h)
    rw [List.cons_append, decode_cons (Ne.symm hc), ih hs, List.cons_append]

theorem decode_encodeByte (hkeep : keep 37 = false) (b : UInt8) (t : List UInt8) :
    decode (encodeByte keep b ++ t) = b :: decode t := by
  unfold encodeByte
  split
  · rename_i hb
    have hne : b ≠ 37 := by
      rintro rfl
      simp [hkeep] at hb
    exact decode_cons hne t
  · have hlt := b.toNat_lt
    rw [List.cons_append, List.cons_append, List.cons_append, List.nil_append, decode,
      unhex_hexDigit (by omega), unhex_hexDigit (by omega)]
    simp only [Nat.div_add_mod', UInt8.ofNat_toNat]

/-- Encoded text decodes to itself, whatever follows it. -/
theorem decode_encode_append (hkeep : keep 37 = false) (s t : List UInt8) :
    decode (encode keep s ++ t) = s ++ decode t := by
  induction s with
  | nil => rfl
  | cons b s ih =>
    rw [encode, List.flatMap_cons, List.append_assoc, decode_encodeByte hkeep, ← encode, ih,
      List.cons_append]

end Lib.Percent
