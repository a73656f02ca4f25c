import DistributedAbstractions.Proofs.OrchSteps

/-! When the orchestrator runs its tasks. A deadline is set when the loop is entered and after each
run, so that a recurrent task always keeps its pace, while a task that is added by a callback has
no deadline of its own. -/

namespace DSA

open CLib Timeval Trans

variable {ω α : Type} {P : Program ω α} {s s' : OrchState ω} {e : OrchEvent α}

/-- A deadline that is set now comes after all that has to wait for it. -/
theorem timeradd_delay_le (hs : Sound P s) {a t : Timeval} (k : ℕ) (ha : a.Valid) (ht : t.Valid)
    (hle : a ≤ t) : timeradd a (P.spec k).delay ≤ timeradd t (s.orch.heap k).delay := by
  rw [(hs.heap k).delay]
  exact timeradd_le_timeradd ha ht (P.spec k).valid hle

theorem Moves.deadline_cases (hm : Moves P s e s') (hs : Sound P s) (ht : Timely s e) (k : ℕ) :
    (s'.orch.heap k).deadline = (s.orch.heap k).deadline ∨
      ∃ t, t.Valid ∧ s.clock ≤ t ∧ s'.clock = t ∧
        (s'.orch.heap k).deadline = timeradd t (P.spec k).delay ∧
        (.finished k t ∈ s'.trace ∨ (∃ i, s.phase = .arming i) ∧ s'.trace = s.trace) := by
  cases hm with
  | @addTask k' =>
    left
    dsimp only
    rw [Orchestrator.addTask_heap]
    split_ifs with hk
    · rw [hk]
    · rfl
  | @arm i k' t hp =>
    dsimp only
    rw [Orchestrator.setDeadline_heap]
    split_ifs with hk
    · obtain ⟨rfl, -⟩ := hk
      exact .inr ⟨t, ht.1, ht.2, rfl, by rw [← (hs.heap k).delay], .inr ⟨⟨i, hp⟩, rfl⟩⟩
    · exact .inl rfl
  | @finish now t i k' =>
    dsimp only
    rw [Orchestrator.finish_heap]
    split_ifs with hk
    · subst hk
      exact .inr ⟨t, ht.1, ht.2, rfl, by rw [← (hs.heap k).delay], .inl (by simp)⟩
    · exact .inl (by rw [hk])
    · exact .inl rfl
  | _ => exact .inl rfl

theorem Moves.keeps_deadline (hm : Moves P s e s') (hs : Sound P s) (ht : Timely s e) {k : ℕ} {a : Timeval}
    (ha : a.Valid) (hle : a ≤ s.clock) (h : timeradd a (P.spec k).delay ≤ (s.orch.heap k).deadline) :
    timeradd a (P.spec k).delay ≤ (s'.orch.heap k).deadline := by
  rcases hm.deadline_cases hs ht k with heq | ⟨t, hv, hle', -, hd, -⟩
  · rw [heq]
    exact h
  · rw [hd]
    exact timeradd_le_timeradd ha hv (P.spec k).valid (hle.trans hle')

def IsRunning (s : OrchState ω) (k : ℕ) : Prop := ∃ now i, s.phase = .running now i k

theorem isRunning_of_task {k : ℕ} (h : s.phase.task = some k) : IsRunning s k := by
  unfold Phase.task at h
  split at h
  · rename_i now i k' hp
    exact ⟨now, i, Option.some.inj h ▸ hp⟩
  · cases h

/-- The end of its callback is all that can end a task. -/
theorem Moves.isRunning_or (hm : Moves P s e s') {k : ℕ} (h : IsRunning s k) :
    IsRunning s' k ∨ ∃ t, e = .step t ∧ s'.orch = s.orch.finish k t := by
  obtain ⟨now, i, hphase⟩ := h
  rcases hm.of_running hphase with hstill | hended
  · exact .inl ⟨now, i, hstill⟩
  · exact .inr hended

theorem Moves.trace_cases (hm : Moves P s e s') : s'.trace = s.trace ∨
    ∃ mark, s'.trace = s.trace ++ [mark] ∧ ((∀ k t, mark ≠ .ran k t) ∨
      ∃ now i k t, mark = .ran k t ∧ e = .step t ∧ s.phase = .scanning now i ∧
        (k ∈ s.orch.tasks ∧ s.orch.isDue k now) ∧ s'.phase = .running now i k) := by
  cases hm with
  | @addTask k t => exact .inr ⟨.added k t, rfl, .inl (by simp)⟩
  | @start _ _ t => exact .inr ⟨.started t, rfl, .inl (by simp)⟩
  | @enter _ t => exact .inr ⟨.looping t, rfl, .inl (by simp)⟩
  | @finish _ t _ k => exact .inr ⟨.finished k t, rfl, .inl (by simp)⟩
  | @call now t i k hp hk hdue =>
    exact .inr ⟨.ran k t, rfl, .inr ⟨now, i, k, t, rfl, rfl, hp, ⟨List.mem_of_getElem? hk, hdue⟩, rfl⟩⟩
  | _ => exact .inl rfl

theorem Moves.ran_cases (hm : Moves P s e s') {k : ℕ} {a : Timeval} (h : .ran k a ∈ s'.trace) :
    .ran k a ∈ s.trace ∨ IsRunning s' k := by
  rcases hm.trace_cases with heq | ⟨mark, heq, hmark⟩
  · exact .inl (heq ▸ h)
  · rw [heq, List.mem_append, List.mem_singleton] at h
    rcases h with h | rfl
    · exact .inl h
    · rcases hmark with hno | ⟨now, i, k', t, hran, -, -, -, hp⟩
      · exact absurd rfl (hno k a)
      · obtain ⟨rfl, -⟩ := Mark.ran.inj hran
        exact .inr ⟨now, i, hp⟩

/-- The rule for what a run of a task has to wait for. -/
theorem Moves.trace_pairwise {R : Mark → Mark → Prop} (hm : Moves P s e s') (h : s.trace.Pairwise R)
    (hother : ∀ m m', (∀ k t, m' ≠ .ran k t) → R m m')
    (hran : ∀ now i k t, e = .step t → s.phase = .scanning now i →
      k ∈ s.orch.tasks ∧ s.orch.isDue k now → ∀ m ∈ s.trace, R m (.ran k t)) : s'.trace.Pairwise R := by
  rcases hm.trace_cases with heq | ⟨mark, heq, hmark⟩
  · exact heq ▸ h
  · rw [heq, List.pairwise_append]
    refine ⟨h, List.pairwise_singleton _ _, fun m hm' m' hm'' => ?_⟩
    rw [List.mem_singleton.mp hm'']
    rcases hmark with hno | ⟨now, i, k, t, rfl, he, hp, hdue, -⟩
    · exact hother m mark hno
    · exact hran now i k t he hp hdue m hm'

theorem deadline_le_of_due (hs : Sound P s) {now t : Timeval} {i k : ℕ} (ht : s.clock ≤ t)
    (hp : s.phase = .scanning now i) (hdue : s.orch.isDue k now) : (s.orch.heap k).deadline ≤ t :=
  (hdue.2.trans (hs.now now (by rw [hp]; rfl))).trans ht

theorem not_isRunning_of_scanning {now : Timeval} {i k : ℕ} (hp : s.phase = .scanning now i) :
    ¬ IsRunning s k := by
  rintro ⟨now', i', h⟩
  rw [hp] at h
  cases h

/-- Two runs of a recurrent task have its delay between them. -/
def Spacing (P : Program ω α) (m m' : Mark) : Prop :=
  ∀ k a t, (P.spec k).isRecurrent = 1 → m = .ran k a → m' = .ran k t → timeradd a (P.spec k).delay ≤ t

structure Spaced (P : Program ω α) (s : OrchState ω) : Prop where
  trace : s.trace.Pairwise (Spacing P)
  deadline : ∀ k a, (P.spec k).isRecurrent = 1 → .ran k a ∈ s.trace →
    timeradd a (P.spec k).delay ≤ (s.orch.heap k).deadline ∨ IsRunning s k

theorem Spaced.deadline_of_scanning (h : Spaced P s) {now : Timeval} {i k : ℕ} {a : Timeval}
    (hp : s.phase = .scanning now i) (hr : (P.spec k).isRecurrent = 1) (ha : .ran k a ∈ s.trace) :
    timeradd a (P.spec k).delay ≤ (s.orch.heap k).deadline :=
  (h.deadline k a hr ha).resolve_right (not_isRunning_of_scanning hp)

theorem Spaced.step (h : Spaced P s) (hs : Sound P s) (ht : Timely s e) (hm : Moves P s e s') :
    Spaced P s' := by
  refine ⟨hm.trace_pairwise h.trace ?_ ?_, fun k a hr ha => ?_⟩
  · intro m m' hno k a t _ _ hm'
    exact absurd hm' (hno k t)
  · rintro now i k t rfl hp hdue m hmem k' a t' hr rfl hm'
    obtain ⟨rfl, rfl⟩ := Mark.ran.inj hm'
    exact (h.deadline_of_scanning hp hr hmem).trans (deadline_le_of_due hs ht.2 hp hdue.2)
  · rcases hm.ran_cases ha with hold | hrunning
    · obtain ⟨hv, hle⟩ := hs.trace _ hold
      rcases h.deadline k a hr hold with hd | hrunning
      · exact .inl (hm.keeps_deadline hs ht hv hle hd)
      · rcases hm.isRunning_or hrunning with hr' | ⟨t, rfl, ho⟩
        · exact .inr hr'
        · left
          rw [ho, Orchestrator.finish_heap, if_pos rfl, if_pos ((hs.heap k).isRecurrent.trans hr)]
          exact timeradd_delay_le hs k hv ht.1 (hle.trans ht.2)
    · exact .inr hrunning

theorem spaced_run {evs : List (OrchEvent α)} (h : Run (orchestration P) Timely evs s) : Spaced P s := by
  refine h.state_invariant ⟨List.Pairwise.nil, fun _ _ _ ha => absurd ha List.not_mem_nil⟩ ?_
  intro evs s e s' hr ih ht hn
  exact ih.step (sound_run hr) ht (next_moves hn)

/-- The deadline of a task comes after what it has waited for since its addition and the start. -/
def Kept (P : Program ω α) (s : OrchState ω) (k : ℕ) : Prop :=
  (s.orch.heap k).status = .done ∨
    ∀ m ∈ s.trace, (∀ a, m ≠ .ran k a) → m.Allows P k (s.orch.heap k).deadline

/-- The deadline of a task in the list is still to be set. -/
def Unset (s : OrchState ω) (k : ℕ) : Prop :=
  s.phase = .idle ∨ IsRunning s k ∨
    (s.orch.heap k).status = .new ∧ ∃ i j, s.phase = .arming i ∧ i ≤ j ∧ s.orch.tasks[j]? = some k

structure Paced (P : Program ω α) (s : OrchState ω) : Prop where
  trace : NeverEarly P s.trace
  kept : ∀ k ∈ s.orch.tasks, Unset s k ∨ Kept P s k
  once : ∀ k a, .ran k a ∈ s.trace →
    (P.spec k).isRecurrent = 1 ∨ (s.orch.heap k).status = .done ∨ IsRunning s k
  idle : s.phase = .idle → (∀ k, (s.orch.heap k).status = .new) ∧ ∀ k a, .ran k a ∉ s.trace

/-- A deadline that is not before the present has waited for everything. -/
theorem allows_of_late (hs : Sound P s) {k : ℕ} {m : Mark} {t d : Timeval} (hm : m ∈ s.trace)
    (hno : ∀ a, m ≠ .ran k a) (ht : t.Valid) (hle : s.clock ≤ t)
    (hd : timeradd t (P.spec k).delay ≤ d) : m.Allows P k d := by
  obtain ⟨hv, hmle⟩ := hs.trace m hm
  have hlate : timeradd m.time (P.spec k).delay ≤ d :=
    (timeradd_le_timeradd hv ht (P.spec k).valid (hmle.trans hle)).trans hd
  cases m with
  | added k' a => exact fun _ => hlate
  | started a => exact hlate
  | ran k' a => exact fun hk => absurd (hk ▸ rfl) (hno a)
  | looping a => trivial
  | finished k' a => trivial

theorem Mark.Allows.keeps {k : ℕ} {m : Mark} (h : m.Allows P k (s.orch.heap k).deadline)
    (hm : Moves P s e s') (hs : Sound P s) (ht : Timely s e) (hmem : m ∈ s.trace) :
    m.Allows P k (s'.orch.heap k).deadline := by
  obtain ⟨hv, hle⟩ := hs.trace m hmem
  cases m with
  | added k' a => exact fun hk => hm.keeps_deadline hs ht hv hle (h hk)
  | started a => exact hm.keeps_deadline hs ht hv hle h
  | ran k' a => exact fun hk => ⟨(h hk).1, hm.keeps_deadline hs ht hv hle (h hk).2⟩
  | looping a => trivial
  | finished k' a => trivial

/-- A step that does not take a finished task up again, and marks nothing that the task has to
wait for, leaves it kept. -/
theorem Kept.step {k : ℕ} (h : Kept P s k) (hs : Sound P s) (ht : Timely s e) (hm : Moves P s e s')
    (hdone : (s.orch.heap k).status = .done → (s'.orch.heap k).status = .done)
    (hnew : ∀ m ∈ s'.trace, m ∉ s.trace → (∀ a, m ≠ .ran k a) → m.Allows P k (s'.orch.heap k).deadline) :
    Kept P s' k := by
  rcases h with h | h
  · exact .inl (hdone h)
  · refine .inr fun m hmem hno => ?_
    by_cases hold : m ∈ s.trace
    · exact (h m hold hno).keeps hm hs ht hold
    · exact hnew m hmem hold hno

theorem not_unset {k : ℕ} (h1 : s.phase ≠ .idle) (h2 : ∀ now i, s.phase ≠ .running now i k)
    (h3 : ∀ i, s.phase ≠ .arming i) : ¬ Unset s k := by
  rintro (h | ⟨now, i, h⟩ | ⟨-, i, j, h, -⟩)
  · exact h1 h
  · exact h2 now i h
  · exact h3 i h

/-- Between the setting of the deadlines and the return, every task in the list but the one that
runs is kept. -/
theorem Paced.kept_of_phase (h : Paced P s) {k : ℕ} (hk : k ∈ s.orch.tasks) (h1 : s.phase ≠ .idle)
    (h2 : ∀ now i, s.phase ≠ .running now i k) (h3 : ∀ i, s.phase ≠ .arming i) : Kept P s k :=
  (h.kept k hk).resolve_left (not_unset h1 h2 h3)

theorem Paced.once_of_phase (h : Paced P s) {k : ℕ} {a : Timeval} (ha : .ran k a ∈ s.trace)
    (hno : ¬ IsRunning s k) : (P.spec k).isRecurrent = 1 ∨ (s.orch.heap k).status = .done := by
  rcases h.once k a ha with h | h | h
  · exact .inl h
  · exact .inr h
  · exact absurd h hno

theorem Mark.Allows.mono {k : ℕ} {m : Mark} {d t : Timeval} (h : m.Allows P k d) (hle : d ≤ t) :
    m.Allows P k t := by
  cases m with
  | added k' a => exact fun hk => (h hk).trans hle
  | started a => exact h.trans hle
  | ran k' a => exact fun hk => ⟨(h hk).1, (h hk).2.trans hle⟩
  | looping a => trivial
  | finished k' a => trivial

theorem Moves.status_done (hm : Moves P s e s') {k : ℕ} (h : (s.orch.heap k).status = .done) :
    (s'.orch.heap k).status = .done ∨ ∃ t, e = .addTask k t := by
  cases hm with
  | @addTask k' t =>
    by_cases hk : k = k'
    · exact .inr ⟨t, hk ▸ rfl⟩
    · left
      dsimp only
      rw [Orchestrator.addTask_heap, if_neg hk]
      exact h
  | arm =>
    left
    dsimp only
    rw [Orchestrator.setDeadline_heap]
    split_ifs with hk
    · obtain ⟨rfl, hnew⟩ := hk
      rw [h] at hnew
      cases hnew
    · exact h
  | finish =>
    left
    dsimp only
    rw [Orchestrator.finish_heap]
    split_ifs with hk hr
    · exact hk ▸ h
    · rfl
    · exact h
  | _ => exact .inl h

theorem Paced.step_trace (h : Paced P s) (hs : Sound P s) (hsp : Spaced P s) (ht : Timely s e)
    (hm : Moves P s e s') : NeverEarly P s'.trace := by
  refine hm.trace_pairwise h.trace (fun m m' hno k t hm' => absurd hm' (hno k t)) ?_
  rintro now i k t rfl hp ⟨hk, hdue⟩ m hmem k' t' hm'
  obtain ⟨rfl, rfl⟩ := Mark.ran.inj hm'
  have hkept : Kept P s k := h.kept_of_phase hk (by simp [hp]) (by simp [hp]) (by simp [hp])
  have hno : (s.orch.heap k).status ≠ .done := hdue.1
  have hle := deadline_le_of_due hs ht.2 hp hdue
  by_cases hran : ∃ a, m = .ran k a
  · obtain ⟨a, rfl⟩ := hran
    have hr := (h.once_of_phase hmem (not_isRunning_of_scanning hp)).resolve_right hno
    exact fun _ => ⟨hr, (hsp.deadline_of_scanning hp hr hmem).trans hle⟩
  · exact (hkept.resolve_left hno m hmem fun a ha => hran ⟨a, ha⟩).mono hle

theorem Paced.step_once (h : Paced P s) (hs : Sound P s) (hadd : TimedAddition P s e)
    (hm : Moves P s e s') (k : ℕ) (a : Timeval) (ha : .ran k a ∈ s'.trace) :
    (P.spec k).isRecurrent = 1 ∨ (s'.orch.heap k).status = .done ∨ IsRunning s' k := by
  rcases hm.ran_cases ha with hold | hrunning
  · rcases h.once k a hold with hr | hdone | hrunning
    · exact .inl hr
    · rcases hm.status_done hdone with hdone' | ⟨t, rfl⟩
      · exact .inr (.inl hdone')
      · cases hm with
        | addTask =>
          rcases hadd with hidle | hrunning | ⟨hno, -⟩
          · exact absurd hold ((h.idle hidle).2 k a)
          · exact .inr (.inr (isRunning_of_task hrunning))
          · exact absurd hdone hno
    · rcases hm.isRunning_or hrunning with hr | ⟨t, -, ho⟩
      · exact .inr (.inr hr)
      · rw [ho, Orchestrator.finish_heap, if_pos rfl]
        split_ifs with hr
        · exact .inl ((hs.heap k).isRecurrent.symm.trans hr)
        · exact .inr (.inl rfl)
  · exact .inr (.inr hrunning)

theorem Paced.step_idle (h : Paced P s) (hm : Moves P s e s') (hidle : s'.phase = .idle) :
    (∀ k, (s'.orch.heap k).status = .new) ∧ ∀ k a, .ran k a ∉ s'.trace := by
  cases hm with
  | @addTask k' t =>
    obtain ⟨hnew, hran⟩ := h.idle hidle
    refine ⟨fun k => ?_, fun k a => by simpa using hran k a⟩
    dsimp only
    rw [Orchestrator.addTask_heap]
    split_ifs
    · rfl
    · exact hnew k
  | addHandler => exact h.idle hidle
  | act => exact h.idle hidle
  | @wake _ _ timedOut => cases timedOut <;> cases hidle
  | close =>
    dsimp only at hidle
    split_ifs at hidle
  | _ => cases hidle

/-- A deadline that is set now keeps a task, whatever it has waited for. -/
theorem kept_of_late (hs : Sound P s) {k : ℕ} {t : Timeval} (ht : t.Valid) (hle : s.clock ≤ t)
    (hd : timeradd t (P.spec k).delay ≤ (s'.orch.heap k).deadline)
    (hnew : ∀ m ∈ s'.trace, m ∈ s.trace ∨ m.Allows P k (s'.orch.heap k).deadline) : Kept P s' k := by
  refine .inr fun m hmem hno => ?_
  rcases hnew m hmem with hold | hallows
  · exact allows_of_late hs hold hno ht hle hd
  · exact hallows

theorem Paced.addTask_kept (h : Paced P s) (hs : Sound P s) {k' : ℕ} {t : Timeval}
    (ht : Timely s (.addTask k' t : OrchEvent α)) (hadd : TimedAddition P s (.addTask k' t : OrchEvent α))
    (hm : Moves P s (.addTask k' t) s') {k : ℕ} (hk : k ∈ s'.orch.tasks) : Unset s' k ∨ Kept P s' k := by
  have hm' := hm
  cases hm with
  | addTask hu =>
    by_cases hself : k = k'
    · subst hself
      rcases hadd with hidle | hrunning | ⟨-, hd⟩
      · exact .inl (.inl hidle)
      · exact .inl (.inr (.inl (isRunning_of_task hrunning)))
      · refine .inr (kept_of_late (t := t) hs ht.1 ht.2 ?_ fun m hmem => ?_)
        · simpa [Orchestrator.addTask_heap] using hd
        · rcases List.mem_append.mp hmem with hold | hnew
          · exact .inl hold
          · rw [List.mem_singleton.mp hnew]
            exact .inr fun _ => by simpa [Orchestrator.addTask_heap] using hd
    · have hmem : k ∈ s.orch.tasks := by simpa [hself] using hk
      rcases h.kept k hmem with (hidle | hrunning | ⟨-, i, j, hp, -⟩) | hkept
      · exact .inl (.inl hidle)
      · exact .inl (.inr (.inl hrunning))
      · simp [OrchState.inUserCode, hp] at hu
      · refine .inr (hkept.step hs ht hm' (fun hdone => ?_) fun m hmem' hold _ => ?_)
        · simpa [Orchestrator.addTask_heap, hself] using hdone
        · rw [List.mem_singleton.mp ((List.mem_append.mp hmem').resolve_left hold)]
          exact fun heq => absurd heq.symm hself

/-- What is still to get its deadline gets it now, or is still ahead. -/
theorem Moves.armed_or (hm : Moves P s e s') (hs : Sound P s) {i j k : ℕ} (hp : s.phase = .arming i)
    (hnew : (s.orch.heap k).status = .new) (hij : i ≤ j) (hj : s.orch.tasks[j]? = some k) :
    (∃ t, e = .step t ∧ s'.clock = t ∧ (s'.orch.heap k).deadline = timeradd t (P.spec k).delay ∧ s'.trace = s.trace) ∨
      (s'.orch.heap k).status = .new ∧ ∃ i j, s'.phase = .arming i ∧ i ≤ j ∧ s'.orch.tasks[j]? = some k := by
  obtain ⟨t, rfl, ⟨k', hget, rfl⟩ | ⟨hend, -⟩⟩ := hm.of_arming hp
  · dsimp only
    rw [Orchestrator.setDeadline_heap, Orchestrator.setDeadline_tasks]
    by_cases hself : k = k'
    · subst hself
      rw [if_pos ⟨rfl, hnew⟩, ← (hs.heap k).delay]
      exact .inl ⟨t, rfl, rfl, rfl, rfl⟩
    · rw [if_neg fun hand => hself hand.1]
      refine .inr ⟨hnew, i + 1, j, rfl, ?_, hj⟩
      rcases Nat.lt_or_eq_of_le hij with hlt | rfl
      · exact hlt
      · rw [hget] at hj
        exact absurd (Option.some.inj hj).symm hself
  · have hlen := List.getElem?_eq_none_iff.mp hend
    have hlt := (List.getElem?_eq_some_iff.mp hj).1
    omega

theorem Paced.arming_kept (h : Paced P s) (hs : Sound P s) (ht : Timely s e) (hm : Moves P s e s') {i k : ℕ}
    (hp : s.phase = .arming i) (hk : k ∈ s.orch.tasks) : Unset s' k ∨ Kept P s' k := by
  rcases h.kept k hk with (hidle | ⟨now, j, hr⟩ | ⟨hnew, i', j, hp', hij, hj⟩) | hkept
  · simp [hp] at hidle
  · simp [hp] at hr
  · rcases hm.armed_or hs hp' hnew hij hj with ⟨t, rfl, -, hd, htrace⟩ | hahead
    · exact .inr (kept_of_late hs ht.1 ht.2 hd.ge fun m hmem => .inl (htrace ▸ hmem))
    · exact .inl (.inr (.inr hahead))
  · obtain ⟨t, rfl, hcases⟩ := hm.of_arming hp
    refine .inr (hkept.step hs ht hm (fun hdone => ?_) fun m hmem hold _ => ?_)
    · exact (hm.status_done hdone).resolve_right fun ⟨_, hadd⟩ => nomatch hadd
    · rcases hcases with ⟨k', -, rfl⟩ | ⟨-, rfl⟩
      · exact absurd hmem hold
      · rw [List.mem_singleton.mp ((List.mem_append.mp hmem).resolve_left hold)]
        trivial

theorem Paced.finish_kept (h : Paced P s) (hs : Sound P s) {i k' : ℕ} {now t : Timeval} (ht : t.Valid)
    (hle : s.clock ≤ t) (hp : s.phase = .running now i k') {k : ℕ} (hk : k ∈ s.orch.tasks)
    (hs' : s'.orch = s.orch.finish k' t ∧ s'.trace = s.trace ++ [.finished k' t]) : Kept P s' k := by
  obtain ⟨ho, htrace⟩ := hs'
  by_cases hself : k = k'
  · subst hself
    by_cases hr : (s.orch.heap k).isRecurrent = 1
    · refine kept_of_late (t := t) hs ht hle ?_ fun m hm => ?_
      · rw [ho, Orchestrator.finish_heap, if_pos rfl, if_pos hr, ← (hs.heap k).delay]
      · rw [htrace] at hm
        rcases List.mem_append.mp hm with hold | hnew
        · exact .inl hold
        · rw [List.mem_singleton.mp hnew]
          exact .inr trivial
    · left
      rw [ho, Orchestrator.finish_heap, if_pos rfl, if_neg hr]
  · have hkept : Kept P s k :=
      h.kept_of_phase hk (by simp [hp]) (by simp [hp, Ne.symm hself]) (by simp [hp])
    unfold Kept at hkept ⊢
    rw [ho, Orchestrator.finish_heap, if_neg hself, htrace]
    refine hkept.imp_right fun hall m hm hno => ?_
    rcases List.mem_append.mp hm with hold | hnew
    · exact hall m hold hno
    · rw [List.mem_singleton.mp hnew]
      trivial

theorem Paced.step_kept (h : Paced P s) (hs : Sound P s) (ht : Timely s e) (hadd : TimedAddition P s e)
    (hm : Moves P s e s') {k : ℕ} (hk : k ∈ s'.orch.tasks) : Unset s' k ∨ Kept P s' k := by
  have hm' := hm
  cases hm with
  | addTask hu => exact h.addTask_kept hs ht hadd hm' hk
  | addHandler => exact h.kept k hk
  | act => exact h.kept k hk
  | start hp =>
    obtain ⟨j, hj⟩ := List.getElem?_of_mem hk
    exact .inl (.inr (.inr ⟨(h.idle hp).1 k, 0, j, rfl, Nat.zero_le j, hj⟩))
  | arm hp =>
    rw [Orchestrator.setDeadline_tasks] at hk
    exact h.arming_kept hs ht hm' hp hk
  | enter hp => exact h.arming_kept hs ht hm' hp hk
  | finish hp =>
    rw [Orchestrator.finish_tasks] at hk
    exact .inr (h.finish_kept hs ht.1 ht.2 hp hk ⟨rfl, rfl⟩)
  | @call now t i k' hp =>
    by_cases hself : k = k'
    · exact .inl (.inr (.inl ⟨now, i, hself ▸ rfl⟩))
    · have hkept := h.kept_of_phase hk (by simp [hp]) (by simp [hp]) (by simp [hp])
      refine .inr (hkept.step hs ht hm' id fun m hmem hold _ => ?_)
      rw [List.mem_singleton.mp ((List.mem_append.mp hmem).resolve_left hold)]
      exact fun heq => absurd heq.symm hself
  | wake hp | wait hp | skip hp | close hp | handled hp | rest hp =>
    exact .inr (h.kept_of_phase hk (by simp [hp]) (by simp [hp]) (by simp [hp]))

theorem paced_run {evs : List (OrchEvent α)} (h : TimedRun P evs s) : Paced P s := by
  refine h.state_invariant ?_ ?_
  · exact ⟨List.Pairwise.nil, fun _ hk => absurd hk List.not_mem_nil, fun _ _ ha => absurd ha List.not_mem_nil,
      fun _ => ⟨fun _ => rfl, fun _ _ => List.not_mem_nil⟩⟩
  · rintro evs s e s' hr ih ⟨ht, hadd⟩ hn
    have hr' : Run (orchestration P) Timely evs s := hr.weaken fun _ _ h => h.1
    have hs := sound_run hr'
    have hm := next_moves hn
    exact ⟨ih.step_trace hs (spaced_run hr') ht hm, fun k hk => ih.step_kept hs ht hadd hm hk,
      ih.step_once hs hadd hm, ih.step_idle hm⟩

/-- Tasks never run early when the loop keeps the time of every addition. -/
theorem never_early {evs : List (OrchEvent α)} (h : TimedRun P evs s) : NeverEarly P s.trace :=
  (paced_run h).trace

/-- A task that is added before the start runs after its second. -/
theorem never_early_once : ∃ s, TimedRun onceProgram onceRun s ∧
    s.trace.contains (.ran 0 (ofSec 1)) = true ∧ NeverEarly onceProgram s.trace := by
  obtain ⟨s, hs, hran⟩ := @exists_run_of_exec _ _ (orchestration onceProgram)
    (fun s e => Timely s e ∧ TimedAddition onceProgram s e) _ _ onceRun
    (fun s => s.trace.contains (.ran 0 (ofSec 1))) true (by decide)
  exact ⟨s, hs, hran, never_early hs⟩

section Late

/-- A handler adds the task when the clock shows one second. -/
def lateAddition : List (OrchEvent Unit) :=
  [.addHandler, .start none (ofSec 9) (ofSec 0), .step (ofSec 0), .step (ofSec 0), .wake false (ofSec 1),
    .addTask 0 (ofSec 1), .step (ofSec 1), .step (ofSec 1), .step (ofSec 1), .wake true (ofSec 1), .step (ofSec 1)]

/-- A task that is added by a handler runs at once. -/
theorem late_addition_runs_early : ¬ ∀ s, Run (orchestration onceProgram) Timely lateAddition s →
    NeverEarly onceProgram s.trace := by
  intro h
  obtain ⟨s, hs, htrace⟩ := @exists_run_of_exec _ _ (orchestration onceProgram) Timely _ _ lateAddition
    (fun s => s.trace) [.started (ofSec 0), .looping (ofSec 0), .added 0 (ofSec 1), .ran 0 (ofSec 1)] (by decide)
  have hearly := h s hs
  rw [NeverEarly, htrace] at hearly
  have hsub : [.added 0 (ofSec 1), .ran 0 (ofSec 1)].Sublist
      [Mark.started (ofSec 0), .looping (ofSec 0), .added 0 (ofSec 1), .ran 0 (ofSec 1)] := by decide
  have hle := List.pairwise_pair.mp (hearly.sublist hsub) 0 (ofSec 1) rfl rfl
  exact absurd hle (by decide)

end Late

end DSA
