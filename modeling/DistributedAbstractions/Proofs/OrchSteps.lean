import DistributedAbstractions.Spec.Orchestrator

/-! What the steps of the orchestrator do, and what all of its runs keep. -/

namespace DSA

open CLib Timeval Trans

namespace Orchestrator

variable (o : Orchestrator) (k k' : ℕ) (now : Timeval)

theorem setTask_heap (task : Task) :
    (o.setTask k task).heap k' = if k' = k then task else o.heap k' := Function.update_apply ..

@[simp] theorem setTask_tasks (task : Task) : (o.setTask k task).tasks = o.tasks := rfl

@[simp] theorem addTask_tasks : (o.addTask k).tasks = o.tasks ++ [k] := rfl

theorem addTask_heap : (o.addTask k).heap k' =
    if k' = k then { o.heap k with status := .new } else o.heap k' := setTask_heap ..

@[simp] theorem setDeadline_tasks : (o.setDeadline k now).tasks = o.tasks := by
  unfold setDeadline
  split_ifs <;> rfl

theorem setDeadline_heap : (o.setDeadline k now).heap k' =
    if k' = k ∧ (o.heap k).status = .new then { o.heap k with
      status := .started
      deadline := timeradd now (o.heap k).delay }
    else o.heap k' := by
  unfold setDeadline
  by_cases hs : (o.heap k).status = .new
  · simp only [hs, and_true, if_true, setTask_heap]
    rfl
  · simp [hs]

@[simp] theorem finish_tasks : (o.finish k now).tasks = o.tasks := by
  unfold finish
  split_ifs <;> rfl

theorem finish_heap : (o.finish k now).heap k' =
    if k' = k then
      if (o.heap k).isRecurrent = 1 then { o.heap k with deadline := timeradd now (o.heap k).delay }
      else { o.heap k with status := .done }
    else o.heap k' := by
  unfold finish
  split_ifs <;> simp_all [setTask_heap, tvResetDeadline]

/-- The deadlines that the scan of `orchestrator_get_next_deadline` goes through. -/
def deadlines (o : Orchestrator) (ks : List ℕ) : List Timeval := ks.map fun k => (o.heap k).deadline

variable {o}

theorem minDeadline_eq (ks : List ℕ) (nextDeadline : Option Timeval) :
    o.minDeadline nextDeadline ks = (nextDeadline.toList ++ o.deadlines ks).min? := by
  induction ks generalizing nextDeadline with
  | nil => cases nextDeadline <;> rfl
  | cons k ks ih =>
    rw [minDeadline, ih]
    cases nextDeadline with
    | none => rfl
    | some d =>
      simp only [deadlines, List.map_cons, Option.all_some, decide_eq_true_eq, Option.toList_some,
        List.singleton_append, List.min?_cons', List.foldl_cons]
      split_ifs with hlt
      · rw [min_eq_right hlt.le, Option.toList_some, List.singleton_append, List.min?_cons']
      · rw [min_eq_left (not_lt.mp hlt), Option.toList_some, List.singleton_append, List.min?_cons']

theorem getNextDeadline_eq (external : Timeval) :
    o.getNextDeadline (some external) = (external :: o.deadlines o.tasks).min? := by
  unfold getNextDeadline
  rw [minDeadline_eq, Option.toList_none, List.nil_append, List.min?_cons]
  cases (o.deadlines o.tasks).min? with
  | none => rfl
  | some d =>
    simp only [Option.elim_some, Option.some.injEq, tvMin]
    split_ifs with hlt
    · exact (min_eq_right hlt.le).symm
    · exact (min_eq_left (not_lt.mp hlt)).symm

/-- There always is a deadline to wait for: the least of those of all tasks and the one passed. -/
theorem exists_nextDeadline (o : Orchestrator) (external : Timeval) :
    ∃ d, o.getNextDeadline (some external) = some d ∧ d ∈ external :: o.deadlines o.tasks ∧
      ∀ x ∈ external :: o.deadlines o.tasks, d ≤ x := by
  have hsome : (external :: o.deadlines o.tasks).min? ≠ none := by simp
  obtain ⟨d, hd⟩ := Option.ne_none_iff_exists'.mp hsome
  exact ⟨d, (getNextDeadline_eq external).trans hd, List.min?_eq_some_iff.mp hd⟩

end Orchestrator

section Moves

variable {ω α : Type} {P : Program ω α}

/-- The steps of the orchestrator and of the user code that it calls. -/
inductive Moves (P : Program ω α) (s : OrchState ω) : OrchEvent α → OrchState ω → Prop
  | addTask {k : ℕ} {t : Timeval} (hu : s.inUserCode = true) : Moves P s (.addTask k t)
      { s with orch := s.orch.addTask k, clock := t, trace := s.trace ++ [.added k t] }
  | addHandler (hu : s.inUserCode = true) : Moves P s .addHandler { s with orch := s.orch.addHandler }
  | act {a : α} {w : ω} (hu : s.inUserCode = true) (hw : P.act s.world a = some w) :
      Moves P s (.act a) { s with world := w }
  | start {externalTimeout : Option Timeval} {indeterminate t : Timeval} (hp : s.phase = .idle) :
      Moves P s (.start externalTimeout indeterminate t) { s with
        phase := .arming 0
        externalTimeout := externalTimeout
        externalDeadline := (externalTimeout.map (timeradd t)).getD indeterminate
        clock := t
        trace := s.trace ++ [.started t] }
  | wake {deadline timeout : Timeval} {timedOut : Bool} {t : Timeval}
      (hp : s.phase = .waiting deadline timeout) : Moves P s (.wake timedOut t)
      { s with phase := if timedOut then .scanning t 0 else .handling 0, clock := t }
  | arm {i k : ℕ} {t : Timeval} (hp : s.phase = .arming i) (hk : s.orch.tasks[i]? = some k) :
      Moves P s (.step t)
      { s with orch := s.orch.setDeadline k t, phase := .arming (i + 1), clock := t }
  | enter {i : ℕ} {t : Timeval} (hp : s.phase = .arming i) (hk : s.orch.tasks[i]? = none) :
      Moves P s (.step t) { s with phase := .head, clock := t, trace := s.trace ++ [.looping t] }
  | wait {deadline t : Timeval} (hp : s.phase = .head)
      (hd : s.orch.getNextDeadline (some s.externalDeadline) = some deadline) : Moves P s (.step t)
      { s with phase := .waiting deadline (tvTimeToDeadline deadline t), clock := t }
  | call {now t : Timeval} {i k : ℕ} (hp : s.phase = .scanning now i)
      (hk : s.orch.tasks[i]? = some k) (hdue : s.orch.isDue k now) : Moves P s (.step t) { s with
        phase := .running now i k
        clock := t
        trace := s.trace ++ [.ran k t]
        world := P.callback k t s.world }
  | skip {now t : Timeval} {i k : ℕ} (hp : s.phase = .scanning now i)
      (hk : s.orch.tasks[i]? = some k) (hdue : ¬ s.orch.isDue k now) :
      Moves P s (.step t) { s with phase := .scanning now (i + 1), clock := t }
  | close {now t : Timeval} {i : ℕ} (hp : s.phase = .scanning now i) (hk : s.orch.tasks[i]? = none) :
      Moves P s (.step t) { s with phase := if s.isExpired now then .returned else .head, clock := t }
  | finish {now t : Timeval} {i k : ℕ} (hp : s.phase = .running now i k) : Moves P s (.step t) { s with
      orch := s.orch.finish k t
      phase := .scanning now (i + 1)
      clock := t
      trace := s.trace ++ [.finished k t] }
  | handled {i : ℕ} {t : Timeval} (hp : s.phase = .handling i) (hi : i < s.orch.handlers) :
      Moves P s (.step t) { s with phase := .handling (i + 1), clock := t }
  | rest {i : ℕ} {t : Timeval} (hp : s.phase = .handling i) (hi : ¬ i < s.orch.handlers) :
      Moves P s (.step t) { s with phase := .head, clock := t }

theorem step_moves {s s' : OrchState ω} {t : Timeval} (h : s.step P t = some s') :
    Moves P s (.step t) s' := by
  unfold OrchState.step at h
  split at h
  · rename_i i hp
    split at h
    · rename_i k hk
      exact Option.some.inj h ▸ .arm hp hk
    · rename_i hk
      exact Option.some.inj h ▸ .enter hp hk
  · rename_i hp
    obtain ⟨d, hd, -⟩ := s.orch.exists_nextDeadline s.externalDeadline
    rw [hd] at h
    exact Option.some.inj h ▸ .wait hp hd
  · rename_i now i hp
    split at h
    · rename_i k hk
      split_ifs at h with hdue
      · exact Option.some.inj h ▸ .call hp hk hdue
      · exact Option.some.inj h ▸ .skip hp hk hdue
    · rename_i hk
      exact Option.some.inj h ▸ .close hp hk
  · rename_i now i k hp
    exact Option.some.inj h ▸ .finish hp
  · rename_i i hp
    split_ifs at h with hi
    · exact Option.some.inj h ▸ .handled hp hi
    · exact Option.some.inj h ▸ .rest hp hi
  all_goals cases h

theorem next_moves {s s' : OrchState ω} {e : OrchEvent α} (h : (orchestration P).next s e = some s') :
    Moves P s e s' := by
  change s.next P e = some s' at h
  unfold OrchState.next at h
  cases e with
  | addTask k t =>
    dsimp only at h
    split_ifs at h with hu
    exact Option.some.inj h ▸ .addTask hu
  | addHandler =>
    dsimp only at h
    split_ifs at h with hu
    exact Option.some.inj h ▸ .addHandler hu
  | act a =>
    dsimp only at h
    split_ifs at h with hu
    obtain ⟨w, hw, rfl⟩ := Option.map_eq_some_iff.mp h
    exact .act hu hw
  | start externalTimeout indeterminate t =>
    dsimp only at h
    split_ifs at h with hp
    exact Option.some.inj h ▸ .start hp
  | wake timedOut t =>
    dsimp only at h
    split at h
    · rename_i d timeout hp
      exact Option.some.inj h ▸ .wake hp
    · cases h
  | step t => exact step_moves h

section Phases

variable {s s' : OrchState ω} {e : OrchEvent α} {now : Timeval} {i k : ℕ}

theorem Moves.of_idle (hm : Moves P s e s') (hidle : s.phase = .idle) :
    s'.phase = .idle ∨ s'.phase = .arming 0 ∧ s'.orch = s.orch ∧ ∃ x d t, e = .start x d t := by
  cases hm with
  | addTask | addHandler | act => exact .inl hidle
  | start => exact .inr ⟨rfl, rfl, _, _, _, rfl⟩
  | wake hp | arm hp | enter hp | wait hp | call hp | skip hp | close hp | finish hp | handled hp | rest hp =>
    simp [hidle] at hp

theorem Moves.of_arming (hm : Moves P s e s') (harming : s.phase = .arming i) : ∃ t, e = .step t ∧
    ((∃ k, s.orch.tasks[i]? = some k ∧
        s' = { s with orch := s.orch.setDeadline k t, phase := .arming (i + 1), clock := t }) ∨
      s.orch.tasks[i]? = none ∧ s' = { s with phase := .head, clock := t, trace := s.trace ++ [.looping t] }) := by
  cases hm with
  | @arm j k t hp hk =>
    obtain rfl := Phase.arming.inj (harming.symm.trans hp)
    exact ⟨t, rfl, .inl ⟨k, hk, rfl⟩⟩
  | @enter j t hp hk =>
    obtain rfl := Phase.arming.inj (harming.symm.trans hp)
    exact ⟨t, rfl, .inr ⟨hk, rfl⟩⟩
  | addTask hu | addHandler hu | act hu => simp [OrchState.inUserCode, harming] at hu
  | start hp | wake hp | wait hp | call hp | skip hp | close hp | finish hp | handled hp | rest hp =>
    simp [harming] at hp

theorem Moves.of_head (hm : Moves P s e s') (hhead : s.phase = .head) : ∃ deadline t, e = .step t ∧
    s.orch.getNextDeadline (some s.externalDeadline) = some deadline ∧
      s' = { s with phase := .waiting deadline (tvTimeToDeadline deadline t), clock := t } := by
  cases hm with
  | wait hp hd => exact ⟨_, _, rfl, hd, rfl⟩
  | addTask hu | addHandler hu | act hu => simp [OrchState.inUserCode, hhead] at hu
  | start hp | wake hp | arm hp | enter hp | call hp | skip hp | close hp | finish hp | handled hp | rest hp =>
    simp [hhead] at hp

theorem Moves.of_running (hm : Moves P s e s') (hrunning : s.phase = .running now i k) :
    s'.phase = .running now i k ∨ ∃ t, e = .step t ∧ s'.orch = s.orch.finish k t := by
  cases hm with
  | addTask | addHandler | act => exact .inl hrunning
  | @finish now' t i' k' hp =>
    obtain ⟨-, -, rfl⟩ := Phase.running.inj (hrunning.symm.trans hp)
    exact .inr ⟨t, rfl, rfl⟩
  | start hp | wake hp | arm hp | enter hp | wait hp | call hp | skip hp | close hp | handled hp | rest hp =>
    simp [hrunning] at hp

end Phases

theorem Moves.world_cases {s s' : OrchState ω} {e : OrchEvent α} (h : Moves P s e s') :
    (∃ now i k t, e = .step t ∧ s.phase = .scanning now i ∧ s.orch.tasks[i]? = some k ∧ s.orch.isDue k now ∧
      s'.trace = s.trace ++ [.ran k t] ∧ s'.world = P.callback k t s.world) ∨
    (∃ marks, s'.trace = s.trace ++ marks ∧ ∀ k t, .ran k t ∉ marks) ∧
      (s'.world = s.world ∨ ∃ a, e = .act a ∧ P.act s.world a = some s'.world) := by
  have hnil : s.trace = s.trace ++ [] ∧ ∀ k t, Mark.ran k t ∉ ([] : List Mark) := by simp
  cases h with
  | @addTask k t => exact .inr ⟨⟨[.added k t], rfl, by simp⟩, .inl rfl⟩
  | addHandler => exact .inr ⟨⟨[], hnil⟩, .inl rfl⟩
  | act hu hw => exact .inr ⟨⟨[], hnil⟩, .inr ⟨_, rfl, hw⟩⟩
  | @start _ _ t => exact .inr ⟨⟨[.started t], rfl, by simp⟩, .inl rfl⟩
  | @enter _ t => exact .inr ⟨⟨[.looping t], rfl, by simp⟩, .inl rfl⟩
  | @finish _ t _ k => exact .inr ⟨⟨[.finished k t], rfl, by simp⟩, .inl rfl⟩
  | @call now t i k hp hk hdue => exact .inl ⟨now, i, k, t, rfl, hp, hk, hdue, rfl, rfl⟩
  | _ => exact .inr ⟨⟨[], hnil⟩, .inl rfl⟩

end Moves

section Sound

variable {ω α : Type} {P : Program ω α}

structure Task.Fits (spec : TaskSpec) (task : Task) : Prop where
  delay : task.delay = spec.delay
  isRecurrent : task.isRecurrent = spec.isRecurrent
  deadline : task.deadline.Valid

namespace Orchestrator

variable {o : Orchestrator} {spec : ℕ → TaskSpec} {now : Timeval}

theorem addTask_fits (h : ∀ k, (o.heap k).Fits (spec k)) (k k' : ℕ) :
    ((o.addTask k).heap k').Fits (spec k') := by
  rw [addTask_heap]
  split_ifs with hk
  · subst hk
    exact ⟨(h k').delay, (h k').isRecurrent, (h k').deadline⟩
  · exact h k'

theorem setDeadline_fits (h : ∀ k, (o.heap k).Fits (spec k)) (hnow : now.Valid) (k k' : ℕ) :
    ((o.setDeadline k now).heap k').Fits (spec k') := by
  rw [setDeadline_heap]
  split_ifs with hk
  · obtain ⟨rfl, -⟩ := hk
    refine ⟨(h k').delay, (h k').isRecurrent, hnow.timeradd ?_⟩
    rw [(h k').delay]
    exact (spec k').valid
  · exact h k'

theorem finish_fits (h : ∀ k, (o.heap k).Fits (spec k)) (hnow : now.Valid) (k k' : ℕ) :
    ((o.finish k now).heap k').Fits (spec k') := by
  rw [finish_heap]
  split_ifs with hk hr
  · subst hk
    refine ⟨(h k').delay, (h k').isRecurrent, hnow.timeradd ?_⟩
    rw [(h k').delay]
    exact (spec k').valid
  · subst hk
    exact ⟨(h k').delay, (h k').isRecurrent, (h k').deadline⟩
  · exact h k'

end Orchestrator

def Mark.time : Mark → Timeval
  | .added _ t | .started t | .looping t | .ran _ t | .finished _ t => t

def Phase.now : Phase → Option Timeval
  | .scanning now _ | .running now _ _ => some now
  | _ => none

structure Sound (P : Program ω α) (s : OrchState ω) : Prop where
  clock : s.clock.Valid
  heap : ∀ k, (s.orch.heap k).Fits (P.spec k)
  external : s.externalTimeout.isSome = true → s.externalDeadline.Valid
  trace : ∀ m ∈ s.trace, m.time.Valid ∧ m.time ≤ s.clock
  now : ∀ now ∈ s.phase.now, now ≤ s.clock

theorem sound_init (P : Program ω α) : Sound P (orchestration P).init where
  clock := valid_ofSec 0
  heap _ := ⟨rfl, rfl, valid_ofSec 0⟩
  external h := nomatch h
  trace _ hm := nomatch hm
  now _ h := nomatch h

section

variable {s : OrchState ω} {t : Timeval}

theorem Sound.trace_mono (h : Sound P s) (ht : s.clock ≤ t) {m : Mark} (hm : m ∈ s.trace) :
    m.time.Valid ∧ m.time ≤ t := ⟨(h.trace m hm).1, (h.trace m hm).2.trans ht⟩

theorem Sound.trace_mark (h : Sound P s) (hv : t.Valid) (ht : s.clock ≤ t) {mark : Mark} (htime : mark.time = t) :
    ∀ m ∈ s.trace ++ [mark], m.time.Valid ∧ m.time ≤ t := by
  intro m hm
  rcases List.mem_append.mp hm with hm | hm
  · exact h.trace_mono ht hm
  · rw [List.mem_singleton.mp hm, htime]
    exact ⟨hv, le_rfl⟩

end

theorem Sound.step {s s' : OrchState ω} {e : OrchEvent α} (h : Sound P s) (ht : Timely s e)
    (hm : Moves P s e s') : Sound P s' := by
  have mono {t : Timeval} (hle : s.clock ≤ t) : ∀ now ∈ s.phase.now, now ≤ t :=
    fun now hn => (h.now now hn).trans hle
  cases hm with
  | addTask => exact ⟨ht.1, Orchestrator.addTask_fits h.heap _, h.external, h.trace_mark ht.1 ht.2 rfl, mono ht.2⟩
  | addHandler => exact ⟨h.clock, h.heap, h.external, h.trace, h.now⟩
  | act => exact ⟨h.clock, h.heap, h.external, h.trace, h.now⟩
  | start =>
    refine ⟨ht.2.1, h.heap, fun hx => ?_, h.trace_mark ht.2.1 ht.2.2 rfl, fun _ hn => nomatch hn⟩
    obtain ⟨x, hx⟩ := Option.isSome_iff_exists.mp hx
    dsimp only at hx ⊢
    rw [hx]
    exact ht.2.1.timeradd (ht.1 x hx)
  | @wake _ _ timedOut t =>
    refine ⟨ht.1, h.heap, h.external, fun m hm => h.trace_mono ht.2 hm, fun now hn => ?_⟩
    cases timedOut with
    | false => cases hn
    | true => exact le_of_eq (Option.some.inj hn).symm
  | arm => exact ⟨ht.1, Orchestrator.setDeadline_fits h.heap ht.1 _, h.external,
      fun m hm => h.trace_mono ht.2 hm, fun _ hn => nomatch hn⟩
  | enter => exact ⟨ht.1, h.heap, h.external, h.trace_mark ht.1 ht.2 rfl, fun _ hn => nomatch hn⟩
  | wait => exact ⟨ht.1, h.heap, h.external, fun m hm => h.trace_mono ht.2 hm, fun _ hn => nomatch hn⟩
  | call hp =>
    rw [hp] at mono
    exact ⟨ht.1, h.heap, h.external, h.trace_mark ht.1 ht.2 rfl, mono ht.2⟩
  | skip hp =>
    rw [hp] at mono
    exact ⟨ht.1, h.heap, h.external, fun m hm => h.trace_mono ht.2 hm, mono ht.2⟩
  | close =>
    refine ⟨ht.1, h.heap, h.external, fun m hm => h.trace_mono ht.2 hm, fun now hn => ?_⟩
    dsimp only at hn
    split_ifs at hn <;> cases hn
  | finish hp =>
    rw [hp] at mono
    exact ⟨ht.1, Orchestrator.finish_fits h.heap ht.1 _, h.external, h.trace_mark ht.1 ht.2 rfl, mono ht.2⟩
  | handled => exact ⟨ht.1, h.heap, h.external, fun m hm => h.trace_mono ht.2 hm, fun _ hn => nomatch hn⟩
  | rest => exact ⟨ht.1, h.heap, h.external, fun m hm => h.trace_mono ht.2 hm, fun _ hn => nomatch hn⟩

theorem sound_run {evs : List (OrchEvent α)} {s : OrchState ω} (h : Run (orchestration P) Timely evs s) :
    Sound P s :=
  h.state_invariant (sound_init P) fun _ _ _ _ _ hs hok hn => hs.step hok (next_moves hn)

end Sound

/-- Tasks that are to run once, a second after the start. -/
def onceProgram : Program Unit Unit where
  spec _ := ⟨ofSec 1, 0, valid_ofSec 1⟩
  init := ()
  callback _ _ _ := ()
  act _ _ := none

/-- One task is added and run, and the loop is at its head again. -/
def onceRun : List (OrchEvent Unit) :=
  [.addTask 0 (ofSec 0), .start none (ofSec 100) (ofSec 0), .step (ofSec 0), .step (ofSec 0),
    .step (ofSec 0), .wake true (ofSec 1), .step (ofSec 1), .step (ofSec 1), .step (ofSec 1)]

end DSA
