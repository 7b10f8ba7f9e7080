/-!
# Ranked keys

The identifiers of the engine are ordered by a natural number each.  One number per key keeps
every question about order a question of arithmetic.
-/

namespace PagedHeap

/-- A type whose values are told apart, and ordered, by a number. -/
class Ranked (κ : Type) where
  rank : κ → Nat
  rank_injective : ∀ {a b : κ}, rank a = rank b → a = b

export Ranked (rank)

variable {κ : Type} [Ranked κ]

theorem rank_inj {a b : κ} : rank a = rank b ↔ a = b :=
  ⟨Ranked.rank_injective, fun h => h ▸ rfl⟩

theorem rank_ne {a b : κ} : rank a ≠ rank b ↔ a ≠ b :=
  not_congr rank_inj

def compareRank (a b : κ) : Ordering :=
  compare (rank a) (rank b)

def sortByRank (l : List κ) : List κ :=
  l.mergeSort fun a b => rank a ≤ rank b

/-- Two digits in base `m` are told apart by the number they write. -/
theorem digits_inj {m a b c d : Nat} (hc : c < m) (hd : d < m) (h : a * m + c = b * m + d) :
    a = b ∧ c = d := by
  have hm : 0 < m := by omega
  have quotient : ∀ x y, y < m → (x * m + y) / m = x := by
    intro x y hy
    rw [Nat.mul_comm, Nat.mul_add_div hm, Nat.div_eq_of_lt hy, Nat.add_zero]
  have hab : a = b := by rw [← quotient a c hc, h, quotient b d hd]
  subst hab
  exact ⟨rfl, by omega⟩

instance : Ranked Nat := ⟨id, fun h => h⟩

end PagedHeap
