import Mathlib.Data.Int.Order.Basic
import Mathlib.Order.Filter.AtTopBot.Basic
import Mathlib.Order.WellFounded

/-! What is so from some index on of a sequence: rules for what single steps do. -/

namespace Sequence

open Filter

variable {P Q : ℕ → Prop}

theorem exists_first (h : ∃ᶠ i in atTop, P i) (a : ℕ) : ∃ i ≥ a, P i ∧ ∀ k, a ≤ k → k < i → ¬ P k := by
  classical
  obtain ⟨i, hai, hi⟩ := frequently_atTop.mp h a
  have hex : ∃ i, a ≤ i ∧ P i := ⟨i, hai, hi⟩
  obtain ⟨ha, hP⟩ := Nat.find_spec hex
  exact ⟨Nat.find hex, ha, hP, fun k hk hlt hPk => Nat.find_min hex hlt ⟨hk, hPk⟩⟩

/-- What is kept from `a` on. -/
theorem of_stays {R : ℕ → ℕ → Prop} {a : ℕ} (hrefl : ∀ i, R i i) (hstep : ∀ i j, a ≤ i → i ≤ j → R i j → R i (j + 1))
    {i j : ℕ} (hai : a ≤ i) (hij : i ≤ j) : R i j := by
  induction j, hij using Nat.le_induction with
  | base => exact hrefl i
  | succ j hij ih => exact hstep i j hai hij ih

/-- What is brought about again and again and then kept. -/
theorem eventually_of_kept (hP : ∃ᶠ i in atTop, P i) (hset : ∀ᶠ i in atTop, P i → Q (i + 1))
    (hkeep : ∀ᶠ i in atTop, Q i → Q (i + 1)) : ∀ᶠ i in atTop, Q i := by
  obtain ⟨a, ha⟩ := eventually_atTop.mp (hset.and hkeep)
  obtain ⟨i, hai, hi⟩ := frequently_atTop.mp hP a
  refine eventually_atTop.mpr ⟨i + 1, fun j hij => ?_⟩
  induction j, hij using Nat.le_induction with
  | base => exact (ha i hai).1 hi
  | succ j hij ih => exact (ha j (by omega)).2 ih

theorem exists_eq_of_stays {α : Type} {f : ℕ → α} (h : ∀ᶠ i in atTop, f (i + 1) = f i) :
    ∃ c, ∀ᶠ i in atTop, f i = c := by
  obtain ⟨a, ha⟩ := eventually_atTop.mp h
  exact ⟨f a, eventually_atTop.mpr ⟨a, fun j haj =>
    of_stays (R := fun i j => f j = f i) (fun _ => rfl) (fun i j hai hij ih => (ha j (hai.trans hij)).trans ih)
      le_rfl haj⟩⟩

/-- A bounded sequence that does not go down comes to rest. -/
theorem exists_eq_of_bounded {f : ℕ → ℤ} {B : ℤ} (hmono : ∀ᶠ i in atTop, f i ≤ f (i + 1))
    (hB : ∀ᶠ i in atTop, f i < B) : ∃ c, ∀ᶠ i in atTop, f i = c := by
  obtain ⟨a, ha⟩ := eventually_atTop.mp (hmono.and hB)
  -- from where the distance to the bound is least
  obtain ⟨i, hai, hmin⟩ : ∃ i, a ≤ i ∧ ∀ j, a ≤ j → (B - f i).toNat ≤ (B - f j).toNat := by
    obtain ⟨i, hi, hmin⟩ := (measure fun i => (B - f i).toNat).wf.has_min {i | a ≤ i} ⟨a, le_refl a⟩
    exact ⟨i, hi, fun j hj => not_lt.mp (hmin j hj)⟩
  refine ⟨f i, eventually_atTop.mpr ⟨i, fun j hij => ?_⟩⟩
  have hle : f i ≤ f j := of_stays (R := fun i j => f i ≤ f j) (fun _ => le_rfl)
    (fun i j hai hij ih => ih.trans (ha j (hai.trans hij)).1) hai hij
  have hleast := hmin j (hai.trans hij)
  have hbound := (ha j (hai.trans hij)).2
  omega

/-- What is opened again and again, and stays open unless `f` goes up, makes `f` reach every bound. -/
theorem eventually_ge_of_opened {f : ℕ → ℕ} {N : ℕ} (hmono : ∀ i, f i ≤ f (i + 1)) (hP : ∃ᶠ i in atTop, P i)
    (hopen : ∀ᶠ i in atTop, f i < N → P i → Q (i + 1)) (hkeep : ∀ᶠ i in atTop, f (i + 1) = f i → Q i → Q (i + 1))
    (hshut : ∀ i, Q i → ¬ P i) : ∀ᶠ i in atTop, N ≤ f i := by
  by_contra hnot
  have hbelow : ∀ i, f i < N := by
    intro i
    obtain ⟨j, hij, hj⟩ := frequently_atTop.mp (not_eventually.mp hnot) i
    exact (monotone_nat_of_le_succ hmono hij).trans_lt (not_le.mp hj)
  -- so that `f` comes to rest
  obtain ⟨c, hc⟩ := exists_eq_of_bounded (f := fun i => (f i : ℤ)) (B := N)
    (.of_forall fun i => Int.ofNat_le.mpr (hmono i)) (.of_forall fun i => Int.ofNat_lt.mpr (hbelow i))
  have hrest : ∀ᶠ i in atTop, f (i + 1) = f i := by
    filter_upwards [hc, (tendsto_add_atTop_nat 1).eventually hc] with i hi hi'
    exact Int.ofNat_inj.mp (hi'.trans hi.symm)
  have hopened : ∀ᶠ i in atTop, Q i := by
    refine eventually_of_kept hP (hopen.mono fun i hi => hi (hbelow i)) ?_
    filter_upwards [hkeep, hrest] with i hi hsame
    exact hi hsame
  obtain ⟨i, hi, hQ⟩ := (hP.and_eventually hopened).exists
  exact hshut i hQ hi

end Sequence
