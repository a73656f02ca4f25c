import DistributedAbstractions.Proofs.EleSelection
import DistributedAbstractions.Proofs.OrchPace

/-! The period between two timeouts of the eventual leader elector. The elector's own loop sets each
deadline from the period of the moment; an orchestrator keeps the delay that the task was made with. -/

namespace DSA

open CLib Timeval Trans

theorem PeriodHonoured.snoc {calls : Calls} {c : Timeval × ℤ} (h : PeriodHonoured calls)
    (hc : ∀ c' ∈ calls.getLast?, timeradd c'.1 (ofSec c'.2) ≤ c.1) : PeriodHonoured (calls ++ [c]) := by
  refine List.IsChain.append h (List.IsChain.singleton c) fun c' hc' c'' hc'' => ?_
  obtain rfl : c = c'' := by simpa using hc''
  exact hc c' hc'

/-- What a round does: it calls the timeout handler if the deadline has passed, and nothing else. -/
theorem eleLoop_round {s s' : EleLoop} {now called returned : Timeval}
    (hn : eleLoopNext s (.round now called returned) = some s') : s'.phase ≠ .idle ∧
      (s.heartbeatDeadline ≤ now ∧ s'.ele = (eleHandleTimeout s.ele).1 ∧ s'.clock = returned ∧
          s'.heartbeatDeadline = timeradd returned (ofSec s'.ele.periodDurationSecs) ∧
          s'.calls = s.calls ++ [(called, s'.ele.periodDurationSecs)] ∨
        s'.ele = s.ele ∧ s'.clock = now ∧ s'.heartbeatDeadline = s.heartbeatDeadline ∧ s'.calls = s.calls) := by
  unfold eleLoopNext at hn
  dsimp only at hn
  have hphase : (if s.externalDeadline.any (· ≤ now) then ElePhase.returned else .consuming) ≠ .idle := by
    split_ifs <;> simp
  by_cases hp : s.phase = .consuming
  · rw [if_pos hp] at hn
    by_cases hdue : s.heartbeatDeadline ≤ now
    · rw [if_pos hdue] at hn
      obtain rfl := Option.some.inj hn
      exact ⟨hphase, .inl ⟨hdue, rfl, rfl, rfl, rfl⟩⟩
    · rw [if_neg hdue] at hn
      obtain rfl := Option.some.inj hn
      exact ⟨hphase, .inr ⟨rfl, rfl, rfl, rfl⟩⟩
  · rw [if_neg hp] at hn
    cases hn

/-- The next call is not due before the period is over that the last one has left. -/
structure EleWaits (s : EleLoop) : Prop where
  calls : PeriodHonoured s.calls
  last : ∀ c ∈ s.calls.getLast?, c.2 = s.ele.periodDurationSecs ∧
    timeradd c.1 (ofSec c.2) ≤ s.heartbeatDeadline
  idle : s.phase = .idle → s.calls = []

theorem EleWaits.round {s s' : EleLoop} {now called returned : Timeval} (h : EleWaits s)
    (ht : EleTimely s (.round now called returned))
    (hn : eleLoopNext s (.round now called returned) = some s') : EleWaits s' := by
  obtain ⟨-, ⟨hcalled, hle⟩, hreturned, hle'⟩ := ht
  obtain ⟨hphase, ⟨hdue, -, -, hd, hcalls⟩ | ⟨hele, -, hd, hcalls⟩⟩ := eleLoop_round hn
  · refine ⟨?_, fun c hc => ?_, fun hp => absurd hp hphase⟩
    · rw [hcalls]
      apply h.calls.snoc
      intro c hc
      exact (h.last c hc).2.trans (hdue.trans hle)
    · obtain rfl : (called, s'.ele.periodDurationSecs) = c := by simpa [hcalls] using hc
      refine ⟨rfl, ?_⟩
      rw [hd]
      exact timeradd_le_timeradd hcalled hreturned (valid_ofSec _) hle'
  · refine ⟨hcalls ▸ h.calls, fun c hc => ?_, fun hp => absurd hp hphase⟩
    rw [hele, hd]
    exact h.last c (hcalls ▸ hc)

theorem EleWaits.step {s s' : EleLoop} {e : EleLoopEvent} (h : EleWaits s) (ht : EleTimely s e)
    (hn : eleLoopNext s e = some s') : EleWaits s' := by
  cases e with
  | start x t t' =>
    unfold eleLoopNext at hn
    dsimp only at hn
    split_ifs at hn with hp
    obtain rfl := Option.some.inj hn
    refine ⟨h.calls, fun c hc => ?_, fun hp' => nomatch hp'⟩
    simp [h.idle hp] at hc
  | deliver e =>
    unfold eleLoopNext at hn
    dsimp only at hn
    split_ifs at hn with hp
    obtain rfl := Option.some.inj hn
    refine ⟨h.calls, fun c hc => ?_, fun hp' => by simp [hp] at hp'⟩
    rw [(wrapper_frame s.ele e).2]
    exact h.last c hc
  | round now called returned => exact h.round ht hn

/-- The elector's own loop honours the period in every run. -/
theorem eleStart_honours {ele : Ele} {evs : List EleLoopEvent} {s : EleLoop}
    (h : Run (eleStart ele) EleTimely evs s) : PeriodHonoured s.calls := by
  have h0 : EleWaits (eleStart ele).init := ⟨List.IsChain.nil, fun _ hc => (Option.not_mem_none _ hc).elim, fun _ => rfl⟩
  exact (h.state_invariant h0 fun _ _ _ _ _ ih ht hn => ih.step ht hn).calls

section Orchestrated

variable {ele : Ele} {others : ℕ → TaskSpec} {s s' : OrchState EleDriven} {e : OrchEvent Deliver}

def runTimes (k : ℕ) (trace : List Mark) : List Timeval :=
  trace.filterMap fun
    | .ran k' t => if k' = k then some t else none
    | _ => none

/-- While the leader stays, the calls are the runs of the task, with the period it was made for. -/
structure EleSteady (ele : Ele) (s : OrchState EleDriven) : Prop where
  period : s.world.ele.periodDurationSecs = ele.periodDurationSecs
  calls : s.world.calls = (runTimes 0 s.trace).map fun t => (t, ele.periodDurationSecs)

theorem EleSteady.step (h : EleSteady ele s) (hm : Moves (eleProgram ele others) s e s')
    (hkeeps : KeepsLeader s) : EleSteady ele s' := by
  rcases hm.world_cases with ⟨now, i, k, t, rfl, hp, hget, hdue, htrace, hw⟩ | ⟨⟨marks, htrace, hno⟩, hw⟩
  · cases k with
    | zero =>
      have hcallee : s.callee = some 0 := by simp [OrchState.callee, hp, hget, hdue]
      have hsame := handleTimeout_of_same (hkeeps hcallee)
      have hperiod : (eleHandleTimeout s.world.ele).1.periodDurationSecs = ele.periodDurationSecs := by
        rw [hsame]
        exact h.period
      refine ⟨by rw [hw]; exact hperiod, ?_⟩
      rw [hw, htrace]
      simp only [eleProgram, runTimes, List.filterMap_append, List.map_append]
      rw [hperiod, h.calls]
      rfl
    | succ k =>
      refine ⟨by rw [hw]; exact h.period, ?_⟩
      rw [hw, htrace]
      simp [eleProgram, h.calls, runTimes, List.filterMap_append]
  · have hnone : runTimes 0 marks = [] := by
      rw [runTimes, List.filterMap_eq_nil_iff]
      intro m hm
      cases m with
      | ran k t => exact absurd hm (hno k t)
      | _ => rfl
    have hruns : runTimes 0 s'.trace = runTimes 0 s.trace := by
      rw [htrace, runTimes, List.filterMap_append]
      exact (congrArg _ hnone).trans (List.append_nil _)
    rcases hw with hw | ⟨a, -, ha⟩
    · exact ⟨by rw [hw]; exact h.period, by rw [hw, hruns]; exact h.calls⟩
    · refine ⟨?_, ?_⟩
      · rw [← Option.some.inj ha]
        exact (wrapper_frame _ _).2.trans h.period
      · rw [← Option.some.inj ha, hruns]
        exact h.calls

theorem runTimes_spaced {P : Program EleDriven Deliver} {k : ℕ} {trace : List Mark} (h : trace.Pairwise (Spacing P))
    (hr : (P.spec k).isRecurrent = 1) :
    (runTimes k trace).Pairwise fun a t => timeradd a (P.spec k).delay ≤ t := by
  rw [runTimes, List.pairwise_filterMap]
  refine h.imp ?_
  intro m m' hspacing a ha t ht
  cases m with
  | ran k' a' =>
    cases m' with
    | ran k'' t' =>
      simp only [Option.ite_none_right_eq_some, Option.some.injEq] at ha ht
      obtain ⟨rfl, rfl⟩ := ha
      obtain ⟨rfl, rfl⟩ := ht
      exact hspacing k'' a' t' hr rfl rfl
    | _ => cases ht
  | _ => cases ha

/-- An orchestrator honours the period in the runs in which the leader stays. -/
theorem orchestrated_honours {evs : List (OrchEvent Deliver)}
    (h : Run (orchestration (eleProgram ele others)) (fun s e => Timely s e ∧ KeepsLeader s) evs s) :
    PeriodHonoured s.world.calls := by
  have hsteady : EleSteady ele s :=
    h.state_invariant (I := EleSteady ele) ⟨rfl, rfl⟩ fun _ _ _ _ _ ih hok hn => ih.step (next_moves hn) hok.2
  have hspaced := (spaced_run (h.weaken fun _ _ h => h.1)).trace
  have htimes := @runTimes_spaced (eleProgram ele others) 0 s.trace hspaced rfl
  rw [hsteady.calls]
  refine List.Pairwise.isChain ?_
  rw [List.pairwise_map]
  exact htimes

end Orchestrated

theorem both_loops_honour {ele ele' : Ele} {others : ℕ → TaskSpec} {evs : List EleLoopEvent}
    {evs' : List (OrchEvent Deliver)} {s : EleLoop} {s' : OrchState EleDriven}
    (h : Run (eleStart ele) EleTimely evs s)
    (h' : Run (orchestration (eleProgram ele' others)) (fun s e => Timely s e ∧ KeepsLeader s) evs' s') :
    PeriodHonoured s.calls ∧ PeriodHonoured s'.world.calls :=
  ⟨eleStart_honours h, orchestrated_honours h'⟩

section Silence

/-- Nothing is heard in two rounds, and the local process becomes leader in the first. -/
def silentLoop : List EleLoopEvent :=
  [.start none (ofSec 0) (ofSec 0), .round (ofSec 4) (ofSec 4) (ofSec 4), .round (ofSec 10) (ofSec 10) (ofSec 10)]

/-- Two timeouts of an orchestrator that holds the task of the elector. -/
def silentRun : List (OrchEvent Deliver) :=
  [.addTask 0 (ofSec 0), .start none (ofSec 99) (ofSec 0), .step (ofSec 0), .step (ofSec 0),
    .step (ofSec 0), .wake true (ofSec 4), .step (ofSec 4), .step (ofSec 4), .step (ofSec 4),
    .step (ofSec 4), .wake true (ofSec 8), .step (ofSec 8)]

/-- Of two processes the second is the leader already. -/
theorem both_loops_honour_silence : ∃ (s : EleLoop) (s' : OrchState EleDriven), s.calls = [(ofSec 4, 6), (ofSec 10, 6)] ∧
    s'.world.calls = [(ofSec 4, 4), (ofSec 8, 4)] ∧ PeriodHonoured s.calls ∧ PeriodHonoured s'.world.calls := by
  obtain ⟨s, hs, hcalls⟩ := @exists_run_of_exec _ _ (eleStart (eleNew 1 2 1)) EleTimely _ _ silentLoop
    (fun s => s.calls) [(ofSec 4, 6), (ofSec 10, 6)] (by decide)
  obtain ⟨s', hs', hcalls'⟩ := @exists_run_of_exec _ _ (orchestration (eleProgram (eleNew 2 2 1) onceProgram.spec))
    (fun s e => Timely s e ∧ KeepsLeader s) _ _ silentRun
    (fun s => s.world.calls) [(ofSec 4, 4), (ofSec 8, 4)] (by decide)
  exact ⟨s, s', hcalls, hcalls', both_loops_honour hs hs'⟩

/-- The first process finds itself leader at the first timeout, and the second comes too early for
the period of six seconds. -/
theorem second_timeout_early : ¬ ∀ s, Run (orchestration (eleProgram (eleNew 1 2 1) onceProgram.spec)) Timely silentRun s →
    PeriodHonoured s.world.calls := by
  intro h
  obtain ⟨s, hs, hcalls⟩ := @exists_run_of_exec _ _ (orchestration (eleProgram (eleNew 1 2 1) onceProgram.spec))
    Timely _ _ silentRun (fun s => s.world.calls) [(ofSec 4, 6), (ofSec 8, 6)] (by decide)
  have hearly := h s hs
  rw [hcalls] at hearly
  exact absurd (List.isChain_pair.mp hearly) (by decide)

end Silence

end DSA
