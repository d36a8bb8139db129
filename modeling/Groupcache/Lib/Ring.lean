import Mathlib.Data.Prod.Lex
import Mathlib.Order.BooleanAlgebra.Set
import Mathlib.Data.List.Basic
import Mathlib.Tactic.Order

/-! Going once round a ring of points: binary search in a sorted list, and the
order in which a walk that starts at a pivot meets the points. -/
namespace Lib

universe u v

/-- The halving loop over `[i, j)`; `fuel` bounds the number of iterations. -/
def searchLoop (p : ℕ → Bool) : ℕ → ℕ → ℕ → ℕ
  | 0, i, _ => i
  | fuel + 1, i, j =>
    if i < j then
      let h := (i + j) / 2
      if !p h then searchLoop p fuel (h + 1) j else searchLoop p fuel i h
    else i

/-- The least index below `n` at which a monotone `p` holds, or `n`. -/
def search (n : ℕ) (p : ℕ → Bool) : ℕ := searchLoop p n 0 n

/-- The loop narrows `[i, j)` onto the boundary between failing and holding. -/
theorem searchLoop_spec {p : ℕ → Bool} {n : ℕ}
    (hp : ∀ a b, a ≤ b → b < n → p a = true → p b = true) (fuel i j : ℕ)
    (hij : i ≤ j) (hjn : j ≤ n) (hf : j - i ≤ fuel)
    (hlow : ∀ a < i, p a = false) (hhigh : ∀ a, j ≤ a → a < n → p a = true) :
    searchLoop p fuel i j ≤ n ∧ (∀ a < searchLoop p fuel i j, p a = false) ∧
      ∀ a, searchLoop p fuel i j ≤ a → a < n → p a = true := by
  induction fuel generalizing i j with
  | zero =>
    have hji : j = i := by omega
    subst hji
    exact ⟨hjn, hlow, hhigh⟩
  | succ fuel ih =>
    simp only [searchLoop]
    split
    · rename_i hlt
      split
      · rename_i hph
        have hfalse : p ((i + j) / 2) = false := by simpa using hph
        apply ih _ _ (by omega) hjn (by omega) ?_ hhigh
        intro a ha
        by_contra hpa
        have := hp a ((i + j) / 2) (by omega) (by omega) (by simpa using hpa)
        simp [hfalse] at this
      · rename_i hph
        have htrue : p ((i + j) / 2) = true := by simpa using hph
        apply ih _ _ (by omega) (by omega) (by omega) hlow
        intro a ha han
        exact hp _ a ha han htrue
    · have hji : j = i := by omega
      subst hji
      exact ⟨hjn, hlow, hhigh⟩

theorem search_spec {p : ℕ → Bool} {n : ℕ}
    (hp : ∀ a b, a ≤ b → b < n → p a = true → p b = true) :
    search n p ≤ n ∧ (∀ a < search n p, p a = false) ∧
      ∀ a, search n p ≤ a → a < n → p a = true :=
  searchLoop_spec hp n 0 n (Nat.zero_le n) le_rfl (by omega) (by omega) (by omega)

section Lap

variable {α : Type u} [LinearOrder α]

/-- Where a walk from `h` meets `x`: first the points from `h` upwards, then the rest. -/
def lap (h x : α) : Bool ×ₗ α := toLex (decide (x < h), x)

theorem lap_injective (h : α) : Function.Injective (lap h) := by
  intro x y hxy
  have := congrArg (fun z => (ofLex z).2) hxy
  simpa [lap] using this

theorem lap_le_iff {h x y : α} :
    lap h x ≤ lap h y ↔ (h ≤ x ∧ y < h) ∨ ((x < h ↔ y < h) ∧ x ≤ y) := by
  rw [lap, lap, Prod.Lex.toLex_le_toLex]
  by_cases hx : x < h <;> by_cases hy : y < h <;> simp [hx, hy, not_le.mpr, not_lt.mp]

/-- In a sorted list the first element not below `h`, or the head if there is none,
is the one a walk from `h` meets first. -/
theorem lap_le_of_sorted {β : Type v} {f : β → α} {l : List β} {h : α} {i : ℕ} {b : β}
    (hs : l.Pairwise (fun a b => f a ≤ f b))
    (hlow : ∀ j < i, ∀ a, l[j]? = some a → f a < h)
    (hhigh : ∀ j, i ≤ j → ∀ a, l[j]? = some a → h ≤ f a)
    (hb : l[if i = l.length then 0 else i]? = some b) :
    ∀ a ∈ l, lap h (f b) ≤ lap h (f a) := by
  intro a ha
  obtain ⟨j, hj⟩ := List.mem_iff_getElem?.mp ha
  have hmono : ∀ (m n : ℕ) (x y : β), m ≤ n → l[m]? = some x → l[n]? = some y → f x ≤ f y := by
    intro m n x y hmn hx hy
    obtain ⟨hm, rfl⟩ := List.getElem?_eq_some_iff.mp hx
    obtain ⟨hn, rfl⟩ := List.getElem?_eq_some_iff.mp hy
    rcases hmn.eq_or_lt with rfl | hlt
    · exact le_rfl
    · exact List.pairwise_iff_getElem.mp hs m n hm hn hlt
  rw [lap_le_iff]
  by_cases hend : i = l.length
  · rw [if_pos hend] at hb
    have hjl : j < i := by
      rw [hend]
      exact (List.getElem?_eq_some_iff.mp hj).1
    have hbh : f b < h := hlow 0 (by omega) b hb
    exact Or.inr ⟨by simp [hbh, hlow j hjl a hj], hmono 0 j b a (Nat.zero_le j) hb hj⟩
  · rw [if_neg hend] at hb
    have hbh : h ≤ f b := hhigh i le_rfl b hb
    rcases lt_or_ge j i with hji | hij
    · exact Or.inl ⟨hbh, hlow j hji a hj⟩
    · have hah := hhigh j hij a hj
      exact Or.inr ⟨by simp [not_lt.mpr hbh, not_lt.mpr hah], hmono i j b a hij hb hj⟩

end Lap

/-- The number of a lap's place among those of the integers in `[lo, lo + n)`. -/
def lapRank (lo : ℤ) (n : ℕ) (t : Bool ×ₗ ℤ) : ℕ :=
  (if (ofLex t).1 then n else 0) + ((ofLex t).2 - lo).toNat

theorem lapRank_lt {lo : ℤ} {n : ℕ} {t u : Bool ×ₗ ℤ} (h : t < u)
    (ht : lo ≤ (ofLex t).2 ∧ (ofLex t).2 < lo + n) (hu : lo ≤ (ofLex u).2) :
    lapRank lo n t < lapRank lo n u := by
  unfold lapRank
  rcases Prod.Lex.lt_iff.mp h with hlt | ⟨heq, hlt⟩
  · obtain ⟨hb, hc⟩ := Bool.lt_iff.mp hlt
    simp only [hb, hc, Bool.false_eq_true, if_false, if_true]
    omega
  · rw [heq]
    omega

end Lib
