import DistributedAbstractions.Proofs.OrchPace

/-! Recurrent tasks that the orchestrator holds when it is started come due in time: their deadlines
are set when the loop is entered, and after each run to one delay later. -/

namespace DSA

open CLib Timeval Trans

variable {ω α : Type} {P : Program ω α} {s s' : OrchState ω} {e : OrchEvent α} {k : ℕ}

/-- The deadline of a task is a delay after a moment that is not after the entry of the loop, or is
the end of a run. -/
def SetBy (P : Program ω α) (s : OrchState ω) (k : ℕ) : Prop :=
  ∃ a, a.Valid ∧ a ≤ s.clock ∧ (s.orch.heap k).deadline = timeradd a (P.spec k).delay ∧
    ((∀ t, .looping t ∈ s.trace → a ≤ t) ∨ .finished k a ∈ s.trace)

theorem Moves.clock_le (hm : Moves P s e s') (ht : Timely s e) : s.clock ≤ s'.clock := by
  cases hm with
  | addHandler => exact le_rfl
  | act => exact le_rfl
  | start => exact ht.2.2
  | _ => exact ht.2

theorem Moves.trace_prefix (hm : Moves P s e s') : s.trace <+: s'.trace := by
  rcases hm.trace_cases with heq | ⟨mark, heq, -⟩
  · exact heq ▸ List.prefix_refl _
  · exact heq ▸ List.prefix_append _ _

theorem Moves.tasks_prefix (hm : Moves P s e s') : s.orch.tasks <+: s'.orch.tasks := by
  cases hm with
  | addTask => exact List.prefix_append _ _
  | arm => exact Orchestrator.setDeadline_tasks _ _ _ ▸ List.prefix_refl _
  | finish => exact Orchestrator.finish_tasks _ _ _ ▸ List.prefix_refl _
  | _ => exact List.prefix_refl _

theorem Moves.looping_cases (hm : Moves P s e s') (ht : Timely s e) {t : Timeval}
    (h : .looping t ∈ s'.trace) : .looping t ∈ s.trace ∨ s.clock ≤ t ∧ ∃ i, s.phase = .arming i := by
  cases hm with
  | @enter i t' hp =>
    rcases List.mem_append.mp h with h | h
    · exact .inl h
    · obtain rfl := Mark.looping.inj (List.mem_singleton.mp h)
      exact .inr ⟨ht.2, i, hp⟩
  | addTask => exact .inl (by simpa using h)
  | start => exact .inl (by simpa using h)
  | call => exact .inl (by simpa using h)
  | finish => exact .inl (by simpa using h)
  | _ => exact .inl h

theorem SetBy.step (h : SetBy P s k) (hs : Sound P s) (ht : Timely s e) (hm : Moves P s e s')
    (harming : ∀ i, s.phase = .arming i → ∀ t, .looping t ∉ s.trace) : SetBy P s' k := by
  rcases hm.deadline_cases hs ht k with heq | ⟨t, hv, -, hclock, hd, hset⟩
  · obtain ⟨a, hv, hle, hd, hset⟩ := h
    refine ⟨a, hv, hle.trans (hm.clock_le ht), heq.trans hd, ?_⟩
    rcases hset with hset | hset
    · refine .inl fun t hloop => ?_
      rcases hm.looping_cases ht hloop with hold | ⟨hlt, -⟩
      · exact hset t hold
      · exact hle.trans hlt
    · exact .inr (hm.trace_prefix.subset hset)
  · refine ⟨t, hv, hclock.ge, hd, ?_⟩
    rcases hset with hset | ⟨⟨i, hp⟩, htrace⟩
    · exact .inr hset
    · exact .inl fun t' hloop => absurd (htrace ▸ hloop) (harming i hp t')

/-- A recurrent task that is held from the start on. -/
structure Armed (P : Program ω α) (s : OrchState ω) (k : ℕ) : Prop where
  status : (s.orch.heap k).status ≠ .done
  before : (s.phase = .idle ∨ ∃ i, s.phase = .arming i) → ∀ t, .looping t ∉ s.trace
  idle : s.phase = .idle → (s.orch.heap k).status = .new
  held : s.phase = .idle ∨ k ∈ s.orch.tasks ∧ (SetBy P s k ∨
    (s.orch.heap k).status = .new ∧ ∃ i j, s.phase = .arming i ∧ i ≤ j ∧ s.orch.tasks[j]? = some k)

theorem Moves.status_ne_done (hm : Moves P s e s') (hs : Sound P s) (hr : (P.spec k).isRecurrent = 1)
    (h : (s.orch.heap k).status ≠ .done) : (s'.orch.heap k).status ≠ .done := by
  cases hm with
  | addTask =>
    dsimp only
    rw [Orchestrator.addTask_heap]
    split_ifs
    · simp
    · exact h
  | arm =>
    dsimp only
    rw [Orchestrator.setDeadline_heap]
    split_ifs
    · simp
    · exact h
  | @finish now t i k' =>
    dsimp only
    rw [Orchestrator.finish_heap]
    split_ifs with hk hr'
    · subst hk
      exact h
    · subst hk
      exact absurd ((hs.heap k).isRecurrent.trans hr) hr'
    · exact h
  | _ => exact h

theorem Moves.before (hm : Moves P s e s') (hp : s'.phase = .idle ∨ ∃ i, s'.phase = .arming i) :
    (s.phase = .idle ∨ ∃ i, s.phase = .arming i) ∧ ∀ t, .looping t ∈ s'.trace → .looping t ∈ s.trace := by
  cases hm with
  | addTask => exact ⟨hp, fun t h => by simpa using h⟩
  | addHandler => exact ⟨hp, fun _ h => h⟩
  | act => exact ⟨hp, fun _ h => h⟩
  | start hidle => exact ⟨.inl hidle, fun t h => by simpa using h⟩
  | arm harm => exact ⟨.inr ⟨_, harm⟩, fun _ h => h⟩
  | @wake _ _ timedOut => cases timedOut <;> simp at hp
  | close =>
    dsimp only at hp
    split_ifs at hp <;> simp at hp
  | _ => simp at hp

theorem Armed.step_idle (h : Armed P s k) (hm : Moves P s e s') (hp : s'.phase = .idle) :
    (s'.orch.heap k).status = .new := by
  cases hm with
  | addTask =>
    dsimp only
    rw [Orchestrator.addTask_heap]
    split_ifs
    · rfl
    · exact h.idle hp
  | addHandler => exact h.idle hp
  | act => exact h.idle hp
  | @wake _ _ timedOut => cases timedOut <;> cases hp
  | close =>
    dsimp only at hp
    split_ifs at hp
  | _ => cases hp

theorem Armed.step_held (h : Armed P s k) (hs : Sound P s) (ht : Timely s e) (hm : Moves P s e s')
    (hhold : ∀ x d t, e = .start x d t → k ∈ s.orch.tasks) :
    s'.phase = .idle ∨ k ∈ s'.orch.tasks ∧ (SetBy P s' k ∨ (s'.orch.heap k).status = .new ∧
      ∃ i j, s'.phase = .arming i ∧ i ≤ j ∧ s'.orch.tasks[j]? = some k) := by
  rcases h.held with hidle | ⟨hk, hset | ⟨hnew, i, j, hp, hij, hj⟩⟩
  · rcases hm.of_idle hidle with hidle' | ⟨hp, ho, x, d, t, rfl⟩
    · exact .inl hidle'
    · have hk := hhold x d t rfl
      obtain ⟨j, hj⟩ := List.getElem?_of_mem hk
      rw [ho]
      exact .inr ⟨hk, .inr ⟨h.idle hidle, 0, j, hp, Nat.zero_le j, hj⟩⟩
  · exact .inr ⟨hm.tasks_prefix.subset hk, .inl (hset.step hs ht hm fun i hp => h.before (.inr ⟨i, hp⟩))⟩
  · refine .inr ⟨hm.tasks_prefix.subset hk, ?_⟩
    rcases hm.armed_or hs hp hnew hij hj with ⟨t, rfl, hclock, hd, htrace⟩ | hahead
    · have hbefore := h.before (.inr ⟨i, hp⟩)
      exact .inl ⟨t, ht.1, hclock.ge, hd, .inl fun t' hloop => absurd (htrace ▸ hloop) (hbefore t')⟩
    · exact .inr hahead

/-- The rule for runs whose start finds the task in the list. -/
theorem armed_run {ok : OrchState ω → OrchEvent α → Prop} {evs : List (OrchEvent α)}
    (h : Run (orchestration P) ok evs s) (htimely : ∀ s e, ok s e → Timely s e)
    (hhold : ∀ s x d t, ok s (.start x d t) → k ∈ s.orch.tasks) (hr : (P.spec k).isRecurrent = 1) :
    Armed P s k := by
  refine h.state_invariant (I := fun s => Armed P s k) ?_ ?_
  · refine ⟨?_, fun _ t => List.not_mem_nil, fun _ => rfl, .inl rfl⟩
    simp [orchestration, taskNew]
  · intro evs s e s' hrun ih hok hn
    have hs := sound_run (hrun.weaken htimely)
    have hm := next_moves hn
    refine ⟨hm.status_ne_done hs hr ih.status, fun hp t hloop => ?_, ih.step_idle hm, ?_⟩
    · obtain ⟨hp', hold⟩ := hm.before hp
      exact ih.before hp' t (hold t hloop)
    · refine ih.step_held hs (htimely s e hok) hm ?_
      rintro x d t rfl
      exact hhold s x d t hok

theorem Armed.isDue (h : Armed P s k) {now deadline timeout t : Timeval} (hp : s.phase = .waiting deadline timeout)
    (hs : Sound P s) (hloop : .looping t ∈ s.trace) (ht : timeradd t (P.spec k).delay ≤ now)
    (hfinished : ∀ a, .finished k a ∈ s.trace → timeradd a (P.spec k).delay ≤ now) :
    k ∈ s.orch.tasks ∧ s.orch.isDue k now := by
  rcases h.held with hidle | ⟨hk, ⟨a, hv, -, hd, hset⟩ | ⟨-, i, j, hp', -⟩⟩
  · simp [hp] at hidle
  · refine ⟨hk, h.status, ?_⟩
    rw [hd]
    rcases hset with hset | hset
    · exact (timeradd_le_timeradd hv (hs.trace _ hloop).1 (P.spec k).valid (hset t hloop)).trans ht
    · exact hfinished a hset
  · simp [hp] at hp'

end DSA
