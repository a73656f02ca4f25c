import Mathlib.Data.Finset.Card
import Mathlib.Order.Interval.Finset.Nat

/-! Intersection of quorums of a finite set of which at most `f` members are bad. -/

namespace Quorum

variable {α : Type} {U B Q Q' : Finset α} {f : ℕ}

theorem exists_good (hB : B.card ≤ f) (hQ : f < Q.card) : ∃ x ∈ Q, x ∉ B := by
  obtain ⟨x, hx, hxB⟩ := Finset.exists_mem_notMem_of_card_lt_card (hB.trans_lt hQ)
  exact ⟨x, hx, hxB⟩

variable [DecidableEq α]

theorem card_add_card_le (hQ : Q ⊆ U) (hQ' : Q' ⊆ U) :
    Q.card + Q'.card ≤ U.card + (Q ∩ Q').card := by
  have hu := Finset.card_union_add_card_inter Q Q'
  have hle := Finset.card_le_card (Finset.union_subset hQ hQ')
  omega

/-- Two quorums with more than `f` common members share a good one. -/
theorem exists_good_inter (hQ : Q ⊆ U) (hQ' : Q' ⊆ U) (hB : B.card ≤ f)
    (h : U.card + f < Q.card + Q'.card) : ∃ x, x ∈ Q ∧ x ∈ Q' ∧ x ∉ B := by
  have hc := card_add_card_le hQ hQ'
  obtain ⟨x, hx, hxB⟩ := exists_good (Q := Q ∩ Q') hB (by omega)
  exact ⟨x, (Finset.mem_inter.mp hx).1, (Finset.mem_inter.mp hx).2, hxB⟩

theorem exists_mem_inter (hQ : Q ⊆ U) (hQ' : Q' ⊆ U) (h : U.card < Q.card + Q'.card) :
    ∃ x, x ∈ Q ∧ x ∈ Q' := by
  obtain ⟨x, hx, hx', -⟩ := exists_good_inter hQ hQ' (B := ∅) (f := 0) (by simp) (by simpa using h)
  exact ⟨x, hx, hx'⟩

theorem card_good (hB : B.card ≤ f) : Q.card ≤ (Q \ B).card + f := by
  have := Finset.le_card_sdiff B Q
  omega

end Quorum
