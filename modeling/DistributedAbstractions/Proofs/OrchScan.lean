import DistributedAbstractions.Proofs.OrchSteps

/-! Which iterations of the orchestrator serve what is due. The tasks are scanned, and the external
deadline is looked at, only after a wait that has timed out. -/

namespace DSA

open CLib Timeval Trans

variable {ω α : Type} {P : Program ω α}

/-- Task `k` has run since `s`. -/
def RanSince (s s' : OrchState ω) (k : ℕ) : Prop :=
  ∃ marks t, s'.trace = s.trace ++ marks ∧ .ran k t ∈ marks

/-- A task that was due when the wait ended has run, or is due and not among the first `i`. -/
def Awaits (s : OrchState ω) (now : Timeval) (s' : OrchState ω) (i k : ℕ) : Prop :=
  RanSince s s' k ∨ s'.orch.isDue k now ∧ ∀ j < i, s'.orch.tasks[j]? ≠ some k

/-- Every task that is due in `s` is served by a scan that has come to `i`. -/
def ScannedTo (s : OrchState ω) (now : Timeval) (s' : OrchState ω) (i : ℕ) : Prop :=
  ∀ k ∈ s.orch.tasks, s.orch.isDue k now → Awaits s now s' i k

def ScanPhase (s : OrchState ω) (now : Timeval) (s' : OrchState ω) : Phase → Prop
  | .scanning now' i => now' = now ∧ ScannedTo s now s' i
  | .running now' i k => now' = now ∧ s'.orch.tasks[i]? = some k ∧ ScannedTo s now s' (i + 1)
  | .head => ServesDue s now s'
  | .returned => ServesDue s now s'
  | .waiting _ _ => True
  | .idle | .arming _ | .handling _ => False

/-- A state in an iteration that began with a timeout in `s`. -/
structure Scans (s : OrchState ω) (now : Timeval) (s' : OrchState ω) : Prop where
  tasks : s.orch.tasks <+: s'.orch.tasks
  external : ∀ t, s'.isExpired t ↔ s.isExpired t
  trace : s.trace <+: s'.trace
  phase : ScanPhase s now s' s'.phase

theorem RanSince.mono {s s' s'' : OrchState ω} {k : ℕ} {marks : List Mark} (h : RanSince s s' k)
    (ht : s''.trace = s'.trace ++ marks) : RanSince s s'' k := by
  obtain ⟨marks', t, htrace, hmem⟩ := h
  exact ⟨marks' ++ marks, t, by rw [ht, htrace, List.append_assoc], List.mem_append_left _ hmem⟩

theorem RanSince.of_append {s s' s'' : OrchState ω} {k : ℕ} {marks : List Mark} (h : RanSince s s'' k)
    (hpre : s.trace <+: s'.trace) (ht : s''.trace = s'.trace ++ marks) :
    RanSince s s' k ∨ ∃ t, .ran k t ∈ marks := by
  obtain ⟨marks', t, htrace, hmem⟩ := h
  obtain ⟨marks₀, hpre⟩ := hpre
  rw [ht, ← hpre, List.append_assoc] at htrace
  rw [← List.append_cancel_left htrace] at hmem
  rcases List.mem_append.mp hmem with hmem | hmem
  · exact .inl ⟨marks₀, t, hpre.symm, hmem⟩
  · exact .inr ⟨t, hmem⟩

theorem ScannedTo.mono {s s' s'' : OrchState ω} {now : Timeval} {i i' : ℕ} {marks : List Mark}
    (h : ScannedTo s now s' i) (ht : s''.trace = s'.trace ++ marks)
    (hdue : ∀ k, s'.orch.isDue k now → (∀ j < i, s'.orch.tasks[j]? ≠ some k) → RanSince s s'' k ∨
      s''.orch.isDue k now ∧ ∀ j < i', s''.orch.tasks[j]? ≠ some k) : ScannedTo s now s'' i' := by
  intro k hk hk'
  rcases h k hk hk' with hran | ⟨hd, hj⟩
  · exact .inl (hran.mono ht)
  · exact hdue k hd hj

/-- A scan that has come to the end has run all that was due. -/
theorem ScannedTo.ran {s s' : OrchState ω} {now : Timeval} {i : ℕ} (h : ScannedTo s now s' i)
    (htasks : s.orch.tasks <+: s'.orch.tasks) (hend : s'.orch.tasks[i]? = none) :
    ∀ k ∈ s.orch.tasks, s.orch.isDue k now → RanSince s s' k := by
  intro k hk hdue
  rcases h k hk hdue with hran | ⟨-, hj⟩
  · exact hran
  · obtain ⟨j, hlt, hget⟩ := List.getElem_of_mem (htasks.subset hk)
    have hlen := List.getElem?_eq_none_iff.mp hend
    exact absurd (List.getElem?_eq_some_iff.mpr ⟨hlt, hget⟩) (hj j (by omega))

theorem ScanPhase.same {s s' s'' : OrchState ω} {now : Timeval} {p : Phase} (h : ScanPhase s now s' p)
    (htasks : s''.orch.tasks = s'.orch.tasks) (hheap : s''.orch.heap = s'.orch.heap)
    (htrace : s''.trace = s'.trace) (hphase : s''.phase = s'.phase) : ScanPhase s now s'' p := by
  have hscan {i : ℕ} (h : ScannedTo s now s' i) : ScannedTo s now s'' i := by
    unfold ScannedTo Awaits RanSince Orchestrator.isDue
    rw [htasks, hheap, htrace]
    exact h
  have hserves (h : ServesDue s now s') : ServesDue s now s'' :=
    ⟨by rw [htrace]; exact h.ran, by rw [hphase]; exact h.left⟩
  cases p with
  | scanning now' i => exact ⟨h.1, hscan h.2⟩
  | running now' i k => exact ⟨h.1, htasks ▸ h.2.1, hscan h.2.2⟩
  | head => exact hserves h
  | returned => exact hserves h
  | waiting => trivial
  | idle => cases h
  | arming => cases h
  | handling => cases h

theorem isDue_addTask {o : Orchestrator} {k k' : ℕ} {now : Timeval} (h : o.isDue k now) :
    (o.addTask k').isDue k now := by
  unfold Orchestrator.isDue at h ⊢
  rw [Orchestrator.addTask_heap]
  split_ifs with hk
  · subst hk
    exact ⟨by simp, h.2⟩
  · exact h

theorem isDue_finish {o : Orchestrator} {k k' : ℕ} {now t : Timeval} (hk : k ≠ k') :
    (o.finish k' t).isDue k now ↔ o.isDue k now := by
  unfold Orchestrator.isDue
  rw [Orchestrator.finish_heap, if_neg hk]

theorem not_among_succ {tasks : List ℕ} {i k k' : ℕ} (hget : tasks[i]? = some k) (hne : k' ≠ k)
    (hj : ∀ j < i, tasks[j]? ≠ some k') : ∀ j < i + 1, tasks[j]? ≠ some k' := by
  intro j hlt
  rcases Nat.lt_succ_iff_lt_or_eq.mp hlt with hlt | rfl
  · exact hj j hlt
  · rw [hget]
    exact fun heq => hne (Option.some.inj heq).symm

theorem ScanPhase.addTask {s s' : OrchState ω} {now t : Timeval} {k : ℕ} (h : ScanPhase s now s' s'.phase)
    (hu : s'.inUserCode = true) : ScanPhase s now
      { s' with orch := s'.orch.addTask k, clock := t, trace := s'.trace ++ [.added k t] } s'.phase := by
  unfold OrchState.inUserCode at hu
  split at hu
  · rename_i hp
    rw [hp] at h
    cases h
  · rename_i now' i k' hp
    rw [hp] at h ⊢
    obtain ⟨rfl, hget, hscan⟩ := h
    have hlt : i < s'.orch.tasks.length := (List.getElem?_eq_some_iff.mp hget).1
    refine ⟨rfl, by rwa [Orchestrator.addTask_tasks, List.getElem?_append_left hlt], ?_⟩
    apply hscan.mono rfl
    intro k hdue hj
    refine .inr ⟨isDue_addTask hdue, fun j hlt' => ?_⟩
    rw [Orchestrator.addTask_tasks, List.getElem?_append_left (by omega)]
    exact hj j hlt'
  · rename_i i hp
    rw [hp] at h
    cases h
  · cases hu

theorem Scans.step {s s' s'' : OrchState ω} {now : Timeval} {e : OrchEvent α} (h : Scans s now s')
    (hm : Moves P s' e s'') (he : e.isWake = false) : Scans s now s'' := by
  obtain ⟨htasks, hext, htrace, hphase⟩ := h
  cases hm with
  | addTask hu =>
    exact ⟨htasks.trans (List.prefix_append _ _), hext, htrace.trans (List.prefix_append _ _), hphase.addTask hu⟩
  | addHandler => exact ⟨htasks, hext, htrace, hphase.same rfl rfl rfl rfl⟩
  | act => exact ⟨htasks, hext, htrace, hphase.same rfl rfl rfl rfl⟩
  | wake => cases he
  | wait => exact ⟨htasks, hext, htrace, trivial⟩
  | @call now' t i k hp hget hdue =>
    rw [hp] at hphase
    obtain ⟨rfl, hscan⟩ := hphase
    refine ⟨htasks, hext, htrace.trans (List.prefix_append _ _), rfl, hget, ?_⟩
    apply hscan.mono rfl
    intro k' hd hj
    by_cases hk : k' = k
    · obtain ⟨marks, hmarks⟩ := htrace
      exact .inl ⟨marks ++ [.ran k t], t, by simp [← hmarks], by simp [hk]⟩
    · exact .inr ⟨hd, not_among_succ hget hk hj⟩
  | @skip now' t i k hp hget hdue =>
    rw [hp] at hphase
    obtain ⟨rfl, hscan⟩ := hphase
    refine ⟨htasks, hext, htrace, rfl, ?_⟩
    refine hscan.mono (List.append_nil _).symm ?_
    intro k' hd hj
    exact .inr ⟨hd, not_among_succ hget (fun heq => hdue (heq ▸ hd)) hj⟩
  | @close now' t i hp hget =>
    rw [hp] at hphase
    obtain ⟨rfl, hscan⟩ := hphase
    refine ⟨htasks, hext, htrace, ?_⟩
    dsimp only
    split_ifs with hexp
    · exact ⟨hscan.ran htasks hget, fun _ => rfl⟩
    · exact ⟨hscan.ran htasks hget, fun hs => absurd ((hext _).mpr hs) hexp⟩
  | @finish now' t i k hp =>
    rw [hp] at hphase
    obtain ⟨rfl, hget, hscan⟩ := hphase
    refine ⟨by rw [Orchestrator.finish_tasks]; exact htasks, hext, htrace.trans (List.prefix_append _ _), rfl, ?_⟩
    apply hscan.mono rfl
    intro k' hd hj
    have hk : k' ≠ k := fun heq => hj i (by omega) (heq ▸ hget)
    exact .inr ⟨(isDue_finish hk).mpr hd, by simpa using hj⟩
  | start hp | arm hp | enter hp | handled hp | rest hp =>
    rw [hp] at hphase
    cases hphase

/-- A state in an iteration in which handlers are called. -/
structure Handles (s s' : OrchState ω) : Prop where
  trace : ∃ marks, s'.trace = s.trace ++ marks ∧ ∀ k t, .ran k t ∉ marks
  phase : (∃ i, s'.phase = .handling i) ∨ s'.phase = .head ∨ ∃ deadline timeout, s'.phase = .waiting deadline timeout

theorem Handles.step {s s' s'' : OrchState ω} {e : OrchEvent α} (h : Handles s s')
    (hm : Moves P s' e s'') (he : e.isWake = false) : Handles s s'' := by
  obtain ⟨⟨marks, htrace, hran⟩, hphase⟩ := h
  cases hm with
  | @addTask k t =>
    refine ⟨⟨marks ++ [.added k t], by simp [htrace], fun k' t' => ?_⟩, hphase⟩
    simpa using hran k' t'
  | addHandler => exact ⟨⟨marks, htrace, hran⟩, hphase⟩
  | act => exact ⟨⟨marks, htrace, hran⟩, hphase⟩
  | wake => cases he
  | wait => exact ⟨⟨marks, htrace, hran⟩, .inr (.inr ⟨_, _, rfl⟩)⟩
  | handled => exact ⟨⟨marks, htrace, hran⟩, .inl ⟨_, rfl⟩⟩
  | rest => exact ⟨⟨marks, htrace, hran⟩, .inr (.inl rfl)⟩
  | start hp | arm hp | enter hp | call hp | skip hp | close hp | finish hp => simp [hp] at hphase

section Iterations

variable {ok : OrchState ω → OrchEvent α → Prop} {evs : List (OrchEvent α)} {s s' : OrchState ω} {timedOut : Bool}
  {now : Timeval}

/-- The rule for what holds at the end of an iteration. -/
theorem Iteration.induct {J : OrchState ω → Prop} (h : Iteration P ok evs s timedOut now s')
    (hwake : ∀ deadline timeout, s.phase = .waiting deadline timeout →
      J { s with phase := if timedOut then .scanning now 0 else .handling 0, clock := now })
    (hstep : ∀ t t' e, J t → Moves P t e t' → e.isWake = false → J t') : J s' := by
  obtain ⟨pre, body, -, hbody, hs, hs', -⟩ := h
  rw [← List.singleton_append, ← List.append_assoc] at hs'
  obtain ⟨s₁, hs₁⟩ := hs'.of_append
  obtain ⟨t, ht, -, hn⟩ := hs₁.snoc_inv
  obtain rfl := hs.unique ht
  refine hs₁.segment (J := fun post u => (∀ e ∈ post, e.isWake = false) → J u) (fun _ => ?_) ?_ hs' hbody
  · cases next_moves hn with
    | wake hp => exact hwake _ _ hp
  · intro post u e u' _ ih _ hn' hpost
    exact hstep u u' e (ih fun e' he' => hpost e' (by simp [he'])) (next_moves hn') (hpost e (by simp))

theorem Iteration.waited (h : Iteration P ok evs s timedOut now s') :
    ∃ deadline timeout, s.phase = .waiting deadline timeout := by
  refine h.induct (J := fun _ => ∃ deadline timeout, s.phase = .waiting deadline timeout) ?_ ?_
  · exact fun deadline timeout hp => ⟨deadline, timeout, hp⟩
  · exact fun _ _ _ hp _ _ => hp

theorem Iteration.scans (h : Iteration P ok evs s true now s') : Scans s now s' := by
  refine h.induct (fun deadline timeout _ => ?_) fun t t' e ht hm he => ht.step hm he
  refine ⟨List.prefix_refl _, fun _ => Iff.rfl, List.prefix_refl _, rfl, ?_⟩
  intro k hk hdue
  exact .inr ⟨hdue, fun j hj => absurd hj (Nat.not_lt_zero j)⟩

theorem Iteration.handles (h : Iteration P ok evs s false now s') : Handles s s' := by
  refine h.induct (fun deadline timeout _ => ?_) fun t t' e ht hm he => ht.step hm he
  exact ⟨⟨[], by simp, by simp⟩, .inl ⟨0, rfl⟩⟩

theorem Iteration.ended (h : Iteration P ok evs s timedOut now s') : s'.phase = .head ∨ s'.phase = .returned := by
  obtain ⟨_, _, -, -, -, -, hend⟩ := h
  exact hend

theorem Iteration.serves_of_timedOut (h : Iteration P ok evs s true now s') : ServesDue s now s' := by
  have hphase := h.scans.phase
  rcases h.ended with hend | hend <;> rw [hend] at hphase <;> exact hphase

theorem Iteration.not_serves_of_ready (h : Iteration P ok evs s false now s') (hdue : SomethingDue s now) :
    ¬ ServesDue s now s' := by
  intro hserves
  obtain ⟨⟨marks, htrace, hran⟩, hphase⟩ := h.handles
  rcases hdue with ⟨k, hk, hdue⟩ | hexp
  · obtain ⟨marks', t, htrace', hmem⟩ := hserves.ran k hk hdue
    obtain rfl := List.append_cancel_left (htrace.symm.trans htrace')
    exact hran k t hmem
  · simp [hserves.left hexp] at hphase

theorem Iteration.serves_iff (h : Iteration P ok evs s timedOut now s') :
    ServesDue s now s' ↔ timedOut = true ∨ ¬ SomethingDue s now := by
  cases timedOut with
  | true => exact iff_of_true h.serves_of_timedOut (.inl rfl)
  | false =>
    constructor
    · exact fun hserves => .inr fun hdue => h.not_serves_of_ready hdue hserves
    · rintro (hb | hno)
      · cases hb
      · exact ⟨fun k hk hdue => absurd (.inl ⟨k, hk, hdue⟩) hno, fun hexp => absurd (.inr hexp) hno⟩

end Iterations

theorem iterations_serve_due_iff (P : Program ω α) (evs : List (OrchEvent α)) :
    (∀ s timedOut now s', Iteration P Timely evs s timedOut now s' → ServesDue s now s') ↔
      ∀ s timedOut now s', Iteration P Timely evs s timedOut now s' → timedOut = true ∨ ¬ SomethingDue s now :=
  forall₄_congr fun _ _ _ _ => forall_congr' fun h => h.serves_iff

section Traffic

/-- One task and one handler, up to the first wait. -/
def beforeTraffic : List (OrchEvent Unit) :=
  [.addTask 0 (ofSec 0), .addHandler, .start none (ofSec 0) (ofSec 0), .step (ofSec 0),
    .step (ofSec 0), .step (ofSec 0)]

def traffic : List (OrchEvent Unit) := [.step (ofSec 9), .step (ofSec 9)]

/-- A datagram comes in after nine seconds, and the task that was due after one is not run. -/
theorem traffic_starves : ¬ ∀ s timedOut now s',
    Iteration onceProgram Timely (beforeTraffic ++ .wake false (ofSec 9) :: traffic) s timedOut now s' →
      ServesDue s now s' := by
  intro h
  obtain ⟨s, hs, hview⟩ := @exists_run_of_exec _ _ (orchestration onceProgram) Timely _ _ beforeTraffic
    (fun s => decide (s.orch.tasks = [0] ∧ s.orch.isDue 0 (ofSec 9))) true (by decide)
  obtain ⟨s', hs', hhead⟩ := @exists_run_of_exec _ _ (orchestration onceProgram) Timely _ _
    (beforeTraffic ++ .wake false (ofSec 9) :: traffic) (fun s => s.phase) .head (by decide)
  obtain ⟨htasks, hdue⟩ := of_decide_eq_true hview
  have hit : Iteration onceProgram Timely (beforeTraffic ++ .wake false (ofSec 9) :: traffic) s false (ofSec 9) s' :=
    ⟨beforeTraffic, traffic, List.prefix_refl _, by simp [traffic, OrchEvent.isWake], hs, hs', .inl hhead⟩
  exact hit.not_serves_of_ready (.inl ⟨0, by simp [htasks], hdue⟩) (h _ _ _ _ hit)

end Traffic

end DSA
