import Mathlib.Data.Int.Notation
import Mathlib.Order.Lattice
import Mathlib.Tactic.SplitIfs

/-! `struct timeval` with the macros of `sys/time.h`. The seconds do not overflow. -/

namespace CLib

@[ext] structure Timeval where
  tvSec : ℤ
  tvUsec : ℤ
deriving DecidableEq

namespace Timeval

/-- The order is `timercmp`. -/
instance : LE Timeval :=
  ⟨fun a b => if a.tvSec = b.tvSec then a.tvUsec ≤ b.tvUsec else a.tvSec ≤ b.tvSec⟩

instance : LT Timeval :=
  ⟨fun a b => if a.tvSec = b.tvSec then a.tvUsec < b.tvUsec else a.tvSec < b.tvSec⟩

theorem le_def {a b : Timeval} :
    a ≤ b ↔ a.tvSec < b.tvSec ∨ a.tvSec = b.tvSec ∧ a.tvUsec ≤ b.tvUsec := by
  change (if a.tvSec = b.tvSec then a.tvUsec ≤ b.tvUsec else a.tvSec ≤ b.tvSec) ↔ _
  split_ifs <;> omega

theorem lt_def {a b : Timeval} :
    a < b ↔ a.tvSec < b.tvSec ∨ a.tvSec = b.tvSec ∧ a.tvUsec < b.tvUsec := by
  change (if a.tvSec = b.tvSec then a.tvUsec < b.tvUsec else a.tvSec < b.tvSec) ↔ _
  split_ifs <;> omega

instance (a b : Timeval) : Decidable (a ≤ b) := inferInstanceAs (Decidable (ite _ _ _))

instance (a b : Timeval) : Decidable (a < b) := inferInstanceAs (Decidable (ite _ _ _))

instance : LinearOrder Timeval where
  le_refl a := by rw [le_def]; omega
  le_trans a b c := by simp only [le_def]; omega
  lt_iff_le_not_ge a b := by simp only [le_def, lt_def]; omega
  le_antisymm a b := by simp only [le_def, Timeval.ext_iff]; omega
  le_total a b := by simp only [le_def]; omega
  toDecidableLE := inferInstance
  toDecidableLT := inferInstance
  toDecidableEq := inferInstance

/-- What the clock returns, and what the macros are meant for. -/
def Valid (t : Timeval) : Prop := 0 ≤ t.tvUsec ∧ t.tvUsec < 1000000

instance (t : Timeval) : Decidable t.Valid := inferInstanceAs (Decidable (_ ∧ _))

def timeradd (a b : Timeval) : Timeval :=
  let sec := a.tvSec + b.tvSec
  let usec := a.tvUsec + b.tvUsec
  if usec ≥ 1000000 then ⟨sec + 1, usec - 1000000⟩ else ⟨sec, usec⟩

def timersub (a b : Timeval) : Timeval :=
  let sec := a.tvSec - b.tvSec
  let usec := a.tvUsec - b.tvUsec
  if usec < 0 then ⟨sec - 1, usec + 1000000⟩ else ⟨sec, usec⟩

def ofSec (secs : ℤ) : Timeval := ⟨secs, 0⟩

/-- The time as one number. -/
def micros (t : Timeval) : ℤ := t.tvSec * 1000000 + t.tvUsec

variable {a b d t : Timeval}

theorem valid_ofSec (secs : ℤ) : (ofSec secs).Valid := by
  unfold Valid ofSec
  dsimp only
  omega

theorem Valid.timeradd (ha : a.Valid) (hb : b.Valid) : (timeradd a b).Valid := by
  unfold Valid at ha hb ⊢
  unfold Timeval.timeradd
  dsimp only
  split_ifs <;> dsimp only <;> omega

@[simp] theorem micros_timeradd (a b : Timeval) : (timeradd a b).micros = a.micros + b.micros := by
  unfold micros Timeval.timeradd
  dsimp only
  split_ifs <;> dsimp only <;> omega

@[simp] theorem micros_timersub (a b : Timeval) : (timersub a b).micros = a.micros - b.micros := by
  unfold micros timersub
  dsimp only
  split_ifs <;> dsimp only <;> omega

theorem le_iff_micros (ha : a.Valid) (hb : b.Valid) : a ≤ b ↔ a.micros ≤ b.micros := by
  unfold Valid at ha hb
  unfold micros
  rw [le_def]
  omega

theorem timeradd_le_timeradd (ha : a.Valid) (hb : b.Valid) (hd : d.Valid) (hab : a ≤ b) :
    timeradd a d ≤ timeradd b d := by
  rw [le_iff_micros (ha.timeradd hd) (hb.timeradd hd)]
  have := (le_iff_micros ha hb).mp hab
  simpa using this

/-- Nothing is left of the time to a deadline only once it has passed. -/
theorem le_of_timersub_eq (hd : d.Valid) (ht : t.Valid) (h : timersub d t = ofSec 0) : d ≤ t := by
  rw [le_iff_micros hd ht]
  have hm : (timersub d t).micros = 0 := by rw [h]; rfl
  rw [micros_timersub] at hm
  omega

end Timeval

end CLib
