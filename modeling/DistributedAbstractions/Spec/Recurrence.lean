import DistributedAbstractions.Lib.Path
import DistributedAbstractions.Spec.Retransmission
import Mathlib.Order.Filter.AtTopBot.Defs

/-! What keeps the recurrent tasks of an orchestrator going, and with them the retransmissions of a component. -/

namespace DSA

open CLib Filter Timeval Trans

variable {ω α : Type} {P : Program ω α}

/-- The orchestrator gets task `k` at some time, `select` times out again and again, and time goes on. -/
structure TaskLive (k : ℕ) (π : Path (orchestration P) Timely) : Prop where
  held : ∃ i, k ∈ (π.state i).orch.tasks
  times_out : ∃ᶠ i in atTop, ∃ now, π.event i = some (.wake true now)
  passes : ∀ t, ∃ i, t ≤ (π.state i).clock

/-- At step `i` task `k` is run. -/
def RunsAt (k : ℕ) (π : Path (orchestration P) Timely) (i : ℕ) : Prop :=
  ∃ t, (π.state (i + 1)).trace = (π.state i).trace ++ [.ran k t] ∧
    (π.state (i + 1)).world = P.callback k t (π.state i).world

/-- What a stubborn link has been asked to send is handed to the fair-loss link again and again. -/
def SentForever {c : Component} {period : LinkName → ℤ} {others : ℕ → TaskSpec} (ℓ : LinkName)
    (π : Path (orchestration (componentProgram c period others)) Timely) : Prop :=
  ∀ i, ∀ e ∈ (π.state i).world.outbox ℓ, ∃ᶠ j in atTop, ∃ handed,
    (π.state (j + 1)).world.handed = (π.state j).world.handed ++ handed ∧ (ℓ, e) ∈ handed

end DSA
