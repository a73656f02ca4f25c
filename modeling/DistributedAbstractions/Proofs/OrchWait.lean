import DistributedAbstractions.Proofs.OrchSteps

/-! What the orchestrator waits for. The scan for the next deadline takes in the tasks that are
done and an external deadline that may be indeterminate. -/

namespace DSA

open CLib Timeval Trans

variable {ω α : Type} {P : Program ω α}

/-- All that the scan takes in. -/
def OrchState.scanned (s : OrchState ω) : List Timeval :=
  s.externalDeadline :: s.orch.deadlines s.orch.tasks

theorem mem_scanned {s : OrchState ω} {d : Timeval} :
    d ∈ s.scanned ↔ d = s.externalDeadline ∨ ∃ k ∈ s.orch.tasks, (s.orch.heap k).deadline = d := by
  simp [OrchState.scanned, Orchestrator.deadlines]

theorem mem_scanned_of_pending {s : OrchState ω} {d : Timeval} (h : d ∈ s.pending) : d ∈ s.scanned := by
  rw [mem_scanned]
  rcases h with ⟨k, hk, -, hd⟩ | ⟨-, hd⟩
  · exact .inr ⟨k, hk, hd⟩
  · exact .inl hd.symm

theorem Waits.least {evs : List (OrchEvent α)} {s : OrchState ω} {t deadline timeout : Timeval}
    (h : Waits P evs s t deadline timeout) : deadline ∈ s.scanned ∧
      (∀ d ∈ s.scanned, deadline ≤ d) ∧ timeout = tvTimeToDeadline deadline t := by
  obtain ⟨pre, s', -, -, hhead, -, hnext, hs'⟩ := h
  obtain ⟨d, hd, hmem, hle⟩ := s.orch.exists_nextDeadline s.externalDeadline
  obtain ⟨d', t', he, hd', rfl⟩ := (next_moves hnext).of_head hhead
  obtain rfl := OrchEvent.step.inj he
  obtain rfl := Option.some.inj (hd.symm.trans hd')
  obtain ⟨rfl, rfl⟩ := Phase.waiting.inj hs'
  exact ⟨hmem, hle, rfl⟩

theorem exists_waits {pre evs : List (OrchEvent α)} {s : OrchState ω} {t : Timeval}
    (hpre : pre ++ [.step t] <+: evs) (hrun : Run (orchestration P) Timely pre s)
    (hhead : s.phase = .head) (ht : t.Valid ∧ s.clock ≤ t) :
    ∃ deadline timeout, Waits P evs s t deadline timeout := by
  obtain ⟨d, hd, -⟩ := s.orch.exists_nextDeadline s.externalDeadline
  refine ⟨d, tvTimeToDeadline d t, pre,
    { s with phase := .waiting d (tvTimeToDeadline d t), clock := t }, hpre, hrun, hhead, ht, ?_, rfl⟩
  change s.step P t = _
  simp only [OrchState.step, hhead, hd]

theorem Waits.sound {evs : List (OrchEvent α)} {s : OrchState ω} {t deadline timeout : Timeval}
    (h : Waits P evs s t deadline timeout) : Sound P s ∧ t.Valid := by
  obtain ⟨pre, s', -, hrun, -, ht, -, -⟩ := h
  exact ⟨sound_run hrun, ht.1⟩

theorem valid_of_pending {s : OrchState ω} (h : Sound P s) {d : Timeval} (hd : d ∈ s.pending) : d.Valid := by
  rcases hd with ⟨k, -, -, rfl⟩ | ⟨hsome, rfl⟩
  · exact (h.heap k).deadline
  · exact h.external hsome

theorem le_of_timeToDeadline {d t : Timeval} (hd : d.Valid) (ht : t.Valid)
    (h : tvTimeToDeadline d t = ⟨0, 0⟩) : d ≤ t := by
  unfold tvTimeToDeadline at h
  split_ifs at h with hle
  · exact hle
  · exact le_of_timersub_eq hd ht h

/-- The least of what the scan takes in is the earliest pending deadline if and only if a pending
one comes before the rest. -/
theorem pendingFirst_iff {s : OrchState ω} {deadline : Timeval} (hmem : deadline ∈ s.scanned)
    (hle : ∀ d ∈ s.scanned, deadline ≤ d) : IsLeast s.pending deadline ↔ PendingFirst s := by
  constructor
  · intro h
    refine ⟨deadline, h.1, fun k hk _ => hle _ (mem_scanned.mpr (.inr ⟨k, hk, rfl⟩)), fun _ => ?_⟩
    exact hle _ (mem_scanned.mpr (.inl rfl))
  · rintro ⟨d, hd, hdone, hext⟩
    have hfirst : d ≤ deadline ∨ deadline ∈ s.pending := by
      rcases mem_scanned.mp hmem with rfl | ⟨k, hk, rfl⟩
      · cases hx : s.externalTimeout with
        | none => exact .inl (hext hx)
        | some x => exact .inr (.inr ⟨by rw [hx]; rfl, rfl⟩)
      · by_cases hk' : (s.orch.heap k).status = .done
        · exact .inl (hdone k hk hk')
        · exact .inr (.inl ⟨k, hk, hk', rfl⟩)
    refine ⟨hfirst.elim (fun h => ?_) id, fun x hx => hle x (mem_scanned_of_pending hx)⟩
    exact (h.antisymm (hle d (mem_scanned_of_pending hd))) ▸ hd

theorem Waits.right_iff {evs : List (OrchEvent α)} {s : OrchState ω} {t deadline timeout : Timeval}
    (h : Waits P evs s t deadline timeout) : WaitsRight s t deadline timeout ↔ PendingFirst s := by
  obtain ⟨hmem, hle, htimeout⟩ := h.least
  obtain ⟨hsound, ht⟩ := h.sound
  rw [← pendingFirst_iff hmem hle]
  refine ⟨fun hw => hw.earliest, fun hl => ⟨hl, fun hzero => ⟨deadline, hl.1, ?_⟩⟩⟩
  exact le_of_timeToDeadline (valid_of_pending hsound hl.1) ht (htimeout ▸ hzero)

theorem waits_right_iff (P : Program ω α) (evs : List (OrchEvent α)) :
    (∀ s t deadline timeout, Waits P evs s t deadline timeout → WaitsRight s t deadline timeout) ↔
      ∀ s t deadline timeout, Waits P evs s t deadline timeout → PendingFirst s :=
  forall₄_congr fun _ _ _ _ => forall_congr' fun h => h.right_iff

/-- Once the only task is done the loop does not wait any more. -/
theorem spins_when_done : ¬ ∀ s t deadline timeout,
    Waits onceProgram (onceRun ++ [.step (ofSec 2)]) s t deadline timeout →
      WaitsRight s t deadline timeout := by
  intro h
  obtain ⟨s, hs, hview⟩ := @exists_run_of_exec _ _ (orchestration onceProgram) Timely _ _ onceRun
    (fun s => decide (s.phase = .head ∧ s.clock ≤ ofSec 2 ∧ s.orch.tasks = [0] ∧
      (s.orch.heap 0).status = .done ∧ s.externalTimeout = none)) true (by decide)
  obtain ⟨hphase, hclock, htasks, hdone, hext⟩ := of_decide_eq_true hview
  obtain ⟨d, timeout, hwait⟩ := exists_waits (t := ofSec 2) (List.prefix_refl _) hs hphase ⟨valid_ofSec 2, hclock⟩
  rcases (h s _ _ _ hwait).earliest.1 with ⟨k, hk, hk', -⟩ | ⟨hsome, -⟩
  · rw [htasks, List.mem_singleton] at hk
    subst hk
    exact hk' hdone
  · rw [hext] at hsome
    cases hsome

end DSA
