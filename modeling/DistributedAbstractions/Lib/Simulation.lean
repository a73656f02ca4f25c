import DistributedAbstractions.Lib.Run

/-! Forward simulations between guarded systems: each step of the concrete one is answered by some steps of
the abstract one, or by none. -/

namespace Trans

variable {σ τ ε δ : Type}

/-- The answer may use that both sides have been reached. -/
structure Simulation (C : System σ ε) (ok : σ → ε → Prop) (A : System τ δ) (ok' : τ → δ → Prop)
    (R : σ → τ → Prop) : Prop where
  init : R C.init A.init
  step : ∀ evs s e s' evs' t, Run C ok evs s → Run A ok' evs' t → R s t → ok s e → C.next s e = some s' →
    ∃ ds t', Run A ok' (evs' ++ ds) t' ∧ R s' t'

variable {C : System σ ε} {ok ok₁ : σ → ε → Prop} {A : System τ δ} {ok' : τ → δ → Prop} {R : σ → τ → Prop}

/-- One step of the abstract system or none is enough. -/
theorem Simulation.of_step (init : R C.init A.init)
    (step : ∀ evs s e s' evs' t, Run C ok evs s → Run A ok' evs' t → R s t → ok s e → C.next s e = some s' →
      R s' t ∨ ∃ d t', ok' t d ∧ A.next t d = some t' ∧ R s' t') : Simulation C ok A ok' R where
  init := init
  step evs s e s' evs' t hr ht hR hok hn := by
    rcases step evs s e s' evs' t hr ht hR hok hn with hR' | ⟨d, t', hok', hn', hR'⟩
    · exact ⟨[], t, by rwa [List.append_nil], hR'⟩
    · exact ⟨[d], t', .snoc ht hok' hn', hR'⟩

/-- Every run is the run of the abstract system, up to the steps that it does not see. -/
theorem Simulation.run (h : Simulation C ok A ok' R) {evs : List ε} {s : σ} (hr : Run C ok evs s) :
    ∃ evs' t, Run A ok' evs' t ∧ R s t := by
  induction hr with
  | nil => exact ⟨[], _, .nil, h.init⟩
  | snoc hr hok hn ih =>
    obtain ⟨evs', t, ht, hR⟩ := ih
    obtain ⟨ds, t', ht', hR'⟩ := h.step _ _ _ _ _ _ hr ht hR hok hn
    exact ⟨evs' ++ ds, t', ht', hR'⟩

/-- A guard that holds of each step from where the run is does so throughout. -/
theorem Run.strengthen (h : ∀ evs s e s', Run C ok₁ evs s → ok s e → C.next s e = some s' → ok₁ s e)
    {evs : List ε} {s : σ} (hr : Run C ok evs s) : Run C ok₁ evs s := by
  induction hr with
  | nil => exact .nil
  | snoc _ hok hn ih => exact .snoc ih (h _ _ _ _ ih hok hn) hn

end Trans
