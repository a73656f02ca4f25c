import DistributedAbstractions.Lib.Eventually
import DistributedAbstractions.Proofs.Coverage
import DistributedAbstractions.Spec.Recurrence

/-! Recurrent tasks run again and again when the loop comes to scan them: between two runs the deadline of a task
stays as it is, so that some scan finds it due. -/

namespace DSA

open CLib Filter Timeval Trans

section Steps

variable {ω α : Type} {P : Program ω α} {s s' : OrchState ω} {e : OrchEvent α} {k : ℕ}

/-- The scan that goes on is going to find task `k` due. -/
def WillRun (k : ℕ) (s : OrchState ω) : Prop :=
  ∃ now i, s.orch.isDue k now ∧ k ∈ s.orch.tasks ∧ (∀ j < i, s.orch.tasks[j]? ≠ some k) ∧
    (s.phase = .scanning now i ∨
      ∃ l k', i = l + 1 ∧ s.orch.tasks[l]? = some k' ∧ k' ≠ k ∧ s.phase = .running now l k')

theorem willRun_scanning {now : Timeval} {i : ℕ} (hdue : s.orch.isDue k now) (hmem : k ∈ s.orch.tasks)
    (hj : ∀ j < i, s.orch.tasks[j]? ≠ some k) (hp : s.phase = .scanning now i) (hm : Moves P s e s')
    (hno : ∀ t, s'.trace ≠ s.trace ++ [.ran k t]) : WillRun k s' := by
  cases hm with
  | @call now' t i' k' hp' hk hdue' =>
    obtain ⟨rfl, rfl⟩ := Phase.scanning.inj (hp.symm.trans hp')
    have hne : k' ≠ k := fun heq => hno t (heq ▸ rfl)
    exact ⟨now, i + 1, hdue, hmem, not_among_succ hk (Ne.symm hne) hj, .inr ⟨i, k', rfl, hk, hne, rfl⟩⟩
  | @skip now' t i' k' hp' hk hnot =>
    obtain ⟨rfl, rfl⟩ := Phase.scanning.inj (hp.symm.trans hp')
    have hne : k ≠ k' := fun heq => hnot (heq ▸ hdue)
    exact ⟨now, i + 1, hdue, hmem, not_among_succ hk hne hj, .inl rfl⟩
  | @close now' t i' hp' hk =>
    -- the scan does not end before it has come to `k`
    obtain ⟨rfl, rfl⟩ := Phase.scanning.inj (hp.symm.trans hp')
    obtain ⟨j, hjk⟩ := List.getElem?_of_mem hmem
    have hlt := (List.getElem?_eq_some_iff.mp hjk).1
    exact absurd hjk (hj j (hlt.trans_le (List.getElem?_eq_none_iff.mp hk)))
  | addTask hu | addHandler hu | act hu => simp [OrchState.inUserCode, hp] at hu
  | start hp' | wake hp' | arm hp' | enter hp' | wait hp' | finish hp' | handled hp' | rest hp' => simp [hp] at hp'

theorem willRun_running {now : Timeval} {l k' : ℕ} (hdue : s.orch.isDue k now) (hmem : k ∈ s.orch.tasks)
    (hj : ∀ j < l + 1, s.orch.tasks[j]? ≠ some k) (hl : s.orch.tasks[l]? = some k') (hne : k' ≠ k)
    (hp : s.phase = .running now l k') (hm : Moves P s e s') : WillRun k s' := by
  cases hm with
  | @addTask k'' t hu =>
    have hlt := (List.getElem?_eq_some_iff.mp hl).1
    have hsame : ∀ j < l + 1, (s.orch.tasks ++ [k''])[j]? = s.orch.tasks[j]? := fun j hjl =>
      List.getElem?_append_left (by omega)
    refine ⟨now, l + 1, isDue_addTask hdue, List.mem_append_left _ hmem, fun j hjl => ?_,
      .inr ⟨l, k', rfl, ?_, hne, hp⟩⟩
    · exact (hsame j hjl).symm ▸ hj j hjl
    · exact (hsame l (Nat.lt_succ_self l)).trans hl
  | addHandler => exact ⟨now, l + 1, hdue, hmem, hj, .inr ⟨l, k', rfl, hl, hne, hp⟩⟩
  | act => exact ⟨now, l + 1, hdue, hmem, hj, .inr ⟨l, k', rfl, hl, hne, hp⟩⟩
  | @finish now' t i k'' hp' =>
    obtain ⟨rfl, rfl, rfl⟩ := Phase.running.inj (hp.symm.trans hp')
    refine ⟨now, l + 1, (isDue_finish (Ne.symm hne)).mpr hdue, ?_, ?_, .inl rfl⟩
    · dsimp only
      rwa [Orchestrator.finish_tasks]
    · dsimp only
      rwa [Orchestrator.finish_tasks]
  | start hp' | wake hp' | arm hp' | enter hp' | wait hp' | call hp' | skip hp' | close hp' | handled hp' | rest hp' =>
    simp [hp] at hp'

theorem WillRun.next (h : WillRun k s) (hm : Moves P s e s') (hno : ∀ t, s'.trace ≠ s.trace ++ [.ran k t]) :
    WillRun k s' := by
  obtain ⟨now, i, hdue, hmem, hj, hp | ⟨l, k', rfl, hl, hne, hp⟩⟩ := h
  · exact willRun_scanning hdue hmem hj hp hm hno
  · exact willRun_running hdue hmem hj hl hne hp hm

/-- The loop has been entered, and task `k` does not run. -/
def Between (k : ℕ) (s : OrchState ω) : Prop :=
  s.phase ≠ .idle ∧ (∀ i, s.phase ≠ .arming i) ∧ ∀ now i, s.phase ≠ .running now i k

/-- Between two runs its deadline stays as it is. -/
theorem Between.next (h : Between k s) (hm : Moves P s e s') (hno : ∀ t, s'.trace ≠ s.trace ++ [.ran k t]) :
    Between k s' ∧ (s'.orch.heap k).deadline = (s.orch.heap k).deadline := by
  obtain ⟨hidle, harming, hrunning⟩ := h
  cases hm with
  | addTask =>
    refine ⟨⟨hidle, harming, hrunning⟩, ?_⟩
    dsimp only
    rw [Orchestrator.addTask_heap]
    split_ifs with hk
    · rw [hk]
    · rfl
  | addHandler | act => exact ⟨⟨hidle, harming, hrunning⟩, rfl⟩
  | start hp => exact absurd hp hidle
  | arm hp => exact absurd hp (harming _)
  | enter hp => exact absurd hp (harming _)
  | @call now t i k' hp hk hdue =>
    refine ⟨⟨by simp, by simp, fun now' i' hp' => ?_⟩, rfl⟩
    obtain ⟨-, -, rfl⟩ := Phase.running.inj hp'
    exact hno t rfl
  | @finish now t i k' hp =>
    have hne : k ≠ k' := fun hk => hrunning now i (hk ▸ hp)
    refine ⟨⟨by simp, by simp, by simp⟩, ?_⟩
    dsimp only
    rw [Orchestrator.finish_heap, if_neg hne]
  | @wake _ _ timedOut t hp =>
    refine ⟨⟨?_, ?_, ?_⟩, rfl⟩ <;> cases timedOut <;> simp
  | @close now t i hp =>
    refine ⟨⟨?_, ?_, ?_⟩, rfl⟩ <;> dsimp only <;> split_ifs <;> simp
  | wait | skip | handled | rest => exact ⟨⟨by simp, by simp, by simp⟩, rfl⟩

theorem willRun_wake {now : Timeval} (hm : Moves P s (.wake true now) s') (hmem : k ∈ s.orch.tasks)
    (hdue : s.orch.isDue k now) : WillRun k s' := by
  cases hm with
  | wake hp => exact ⟨now, 0, hdue, hmem, fun j hj => absurd hj (Nat.not_lt_zero j), .inl rfl⟩

theorem WillRun.not_wake {timedOut : Bool} {now : Timeval} (h : WillRun k s) : ¬ Moves P s (.wake timedOut now) s' := by
  intro hm
  obtain ⟨now', i, -, -, -, hp | ⟨l, k', -, -, -, hp⟩⟩ := h <;>
  · cases hm with
    | wake hp' => simp [hp] at hp'

end Steps

section Paths

variable {ω α : Type} {P : Program ω α} {π : Path (orchestration P) Timely} {k : ℕ}

theorem path_moves (π : Path (orchestration P) Timely) (i : ℕ) : π.state (i + 1) = π.state i ∨
    ∃ e, π.event i = some e ∧ Timely (π.state i) e ∧ Moves P (π.state i) e (π.state (i + 1)) := by
  rcases π.step i with ⟨-, hs⟩ | ⟨e, he, hok, hn⟩
  · exact .inl hs
  · exact .inr ⟨e, he, hok, next_moves hn⟩

theorem status_ne_done (hr : (P.spec k).isRecurrent = 1) (i : ℕ) : ((π.state i).orch.heap k).status ≠ .done := by
  obtain ⟨evs, hrun⟩ := π.exists_run i
  refine hrun.state_invariant (I := fun s => (s.orch.heap k).status ≠ .done) (by simp [orchestration, taskNew]) ?_
  exact fun evs s e s' hrun h hok hn => (next_moves hn).status_ne_done (sound_run hrun) hr h

theorem clock_path {i j : ℕ} (hij : i ≤ j) : (π.state i).clock ≤ (π.state j).clock :=
  π.rel (R := fun s s' => s.clock ≤ s'.clock) (fun _ => le_rfl) (fun _ _ _ => le_trans)
    (fun _ _ _ _ _ hok hn => (next_moves hn).clock_le hok) hij

theorem tasks_path {i j : ℕ} (hij : i ≤ j) : (π.state i).orch.tasks <+: (π.state j).orch.tasks :=
  π.rel (R := fun s s' => s.orch.tasks <+: s'.orch.tasks) (fun _ => List.prefix_refl _)
    (fun _ _ _ => List.IsPrefix.trans) (fun _ _ _ _ _ _ hn => Moves.tasks_prefix (next_moves hn)) hij

theorem not_ran {i : ℕ} (h : ¬ RunsAt k π i) (t : Timeval) :
    (π.state (i + 1)).trace ≠ (π.state i).trace ++ [.ran k t] := by
  intro htrace
  rcases path_moves π i with hs | ⟨e, -, -, hm⟩
  · rw [hs] at htrace
    simp at htrace
  · rcases hm.world_cases with ⟨now, l, k', t', -, -, -, -, htrace', hworld⟩ | ⟨⟨marks, hmarks, hno⟩, -⟩
    · obtain ⟨rfl, rfl⟩ : k = k' ∧ t = t' := by simpa using htrace.symm.trans htrace'
      exact h ⟨t, htrace, hworld⟩
    · rw [htrace, List.append_cancel_left_eq] at hmarks
      exact hno k t (hmarks ▸ List.mem_singleton.mpr rfl)

theorem between_path {a b j : ℕ} (ha : ∀ i ≥ a, ¬ RunsAt k π i) (hab : a ≤ b) (hb : Between k (π.state b))
    (hbj : b ≤ j) :
    Between k (π.state j) ∧ ((π.state j).orch.heap k).deadline = ((π.state b).orch.heap k).deadline := by
  refine π.kept (I := fun s => Between k s ∧ (s.orch.heap k).deadline = ((π.state b).orch.heap k).deadline)
    ⟨hb, rfl⟩ (fun i e hbi _ _ hn ih => ?_) hbj
  obtain ⟨hnext, hsame⟩ := ih.1.next (next_moves hn) (not_ran (ha i (hab.trans hbi)))
  exact ⟨hnext, hsame.trans ih.2⟩

theorem between_of_wake {timedOut : Bool} {now : Timeval} {s s' : OrchState ω}
    (hm : Moves P s (.wake timedOut now) s') : Between k s := by
  cases hm with
  | wake hp => exact ⟨by simp [hp], by simp [hp], by simp [hp]⟩

theorem recurs (hr : (P.spec k).isRecurrent = 1) (h : TaskLive k π) : ∃ᶠ i in atTop, RunsAt k π i := by
  by_contra hnot
  obtain ⟨a, ha⟩ := eventually_atTop.mp (not_frequently.mp hnot)
  have htick : ∀ a, ∃ i ≥ a, ∃ now, now ≥ (π.state i).clock ∧
      Moves P (π.state i) (.wake true now) (π.state (i + 1)) := by
    intro a
    obtain ⟨i, hai, now, hi⟩ := frequently_atTop.mp h.times_out a
    obtain ⟨hok, hn⟩ := π.of_event hi
    exact ⟨i, hai, now, hok.2, next_moves hn⟩
  -- from a timeout on the deadline stays as it is
  obtain ⟨b, hab, _, -, hwake⟩ := htick a
  have hdeadline : ∀ j ≥ b, ((π.state j).orch.heap k).deadline = ((π.state b).orch.heap k).deadline := fun j hbj =>
    (between_path ha hab (between_of_wake hwake) hbj).2
  obtain ⟨c, hc⟩ := h.held
  obtain ⟨d, hd⟩ := h.passes ((π.state b).orch.heap k).deadline
  -- and a later one comes after it
  obtain ⟨i, hi, now, hnow, hwake'⟩ := htick (max b (max c d))
  have hdue : (π.state i).orch.isDue k now := by
    refine ⟨status_ne_done hr i, ?_⟩
    rw [hdeadline i (by omega)]
    exact (hd.trans (clock_path (by omega))).trans hnow
  have hwill : WillRun k (π.state (i + 1)) := willRun_wake hwake' ((tasks_path (by omega)).subset hc) hdue
  have hkept : ∀ j ≥ i + 1, WillRun k (π.state j) := fun j hij =>
    π.kept hwill (fun l e hil _ _ hn ih => ih.next (next_moves hn) (not_ran (ha l (by omega)))) hij
  obtain ⟨j, hij, _, -, hwake''⟩ := htick (i + 1)
  exact (hkept j hij).not_wake hwake''

end Paths

section Components

variable {c : Component} {period : LinkName → ℤ} {others : ℕ → TaskSpec} {ℓ : LinkName} {k : ℕ}
  {π : Path (orchestration (componentProgram c period others)) Timely}

theorem outbox_path {i j : ℕ} (hij : i ≤ j) (ℓ : LinkName) :
    (π.state i).world.outbox ℓ <+: (π.state j).world.outbox ℓ :=
  π.rel (R := fun s s' => s.world.outbox ℓ <+: s'.world.outbox ℓ) (fun _ => List.prefix_refl _)
    (fun _ _ _ => List.IsPrefix.trans) (fun _ _ _ _ _ _ hn => Moves.outbox_prefix (next_moves hn) ℓ) hij

theorem retransmits_again (hdata : .data ∈ c.links) (h : TaskLive 0 π) : SentForever .data π := by
  have hret : Retransmits c period 0 .data := retransmits_data hdata
  intro i e he
  refine ((recurs (hret.spec others).2.2 h).and_eventually (eventually_ge_atTop i)).mono fun j hj => ?_
  obtain ⟨⟨t, -, hworld⟩, hij⟩ := hj
  obtain ⟨handed, hhanded, hall⟩ := @handed_callback c period others t (π.state j).world 0
  exact ⟨handed, hworld ▸ hhanded, hall .data hret e ((outbox_path hij .data).subset he)⟩

end Components

section Witness

variable {ω α : Type} {P : Program ω α} {s s' : OrchState ω}

/-- What comes next when nothing arrives, and each wait takes a second. -/
def idleEvent (s : OrchState ω) : OrchEvent α :=
  match s.phase with
  | .waiting _ _ => .wake true (timeradd s.clock (ofSec 1))
  | _ => .step s.clock

/-- How many steps it takes at most until the loop waits. -/
def stepsLeft (s : OrchState ω) : ℕ :=
  match s.phase with
  | .head => 1
  | .scanning _ i => 2 * (s.orch.tasks.length - i) + 2
  | .running _ i _ => 2 * (s.orch.tasks.length - i) + 1
  | _ => 0

/-- The loop goes on as long as there is no external timeout. -/
structure Looping (s : OrchState ω) : Prop where
  external : s.externalTimeout = none
  clock : s.clock.Valid
  phase : s.phase = .head ∨ (∃ d w, s.phase = .waiting d w) ∨ (∃ now i, s.phase = .scanning now i) ∨
    ∃ now i k, s.phase = .running now i k ∧ i < s.orch.tasks.length

theorem exists_next (h : Looping s) : ∃ s', s.next P (idleEvent s) = some s' := by
  rcases h.phase with hp | ⟨d, w, hp⟩ | ⟨now, i, hp⟩ | ⟨now, i, k, hp, -⟩
  · obtain ⟨d, hd, -⟩ := s.orch.exists_nextDeadline s.externalDeadline
    simp [idleEvent, OrchState.next, OrchState.step, hp, hd]
  · simp [idleEvent, OrchState.next, hp]
  · simp only [idleEvent, OrchState.next, OrchState.step, hp]
    cases s.orch.tasks[i]? with
    | none => exact ⟨_, rfl⟩
    | some k =>
      dsimp only
      split_ifs <;> exact ⟨_, rfl⟩
  · simp [idleEvent, OrchState.next, OrchState.step, hp]

theorem le_next_second {t : Timeval} (ht : t.Valid) : t ≤ timeradd t (ofSec 1) := by
  rw [le_iff_micros ht (ht.timeradd (valid_ofSec 1)), micros_timeradd]
  exact Int.le_add_of_nonneg_right (by decide)

theorem tvSec_next_second {t : Timeval} (ht : t.Valid) : (timeradd t (ofSec 1)).tvSec = t.tvSec + 1 := by
  have hlt : ¬ t.tvUsec + (ofSec 1).tvUsec ≥ 1000000 := not_le.mpr (by simpa [ofSec] using ht.2)
  rw [timeradd, if_neg hlt]
  rfl

theorem Looping.wake (h : Looping s)
    (hm : Moves P s (.wake true (timeradd s.clock (ofSec 1))) s') :
    Looping s' ∧ s'.clock = timeradd s.clock (ofSec 1) := by
  cases hm with
  | wake => exact ⟨⟨h.external, h.clock.timeradd (valid_ofSec 1), .inr (.inr (.inl ⟨_, _, rfl⟩))⟩, rfl⟩

theorem Looping.step (h : Looping s) (hm : Moves P s (.step s.clock) s') :
    Looping s' ∧ s'.clock = s.clock ∧ stepsLeft s' < stepsLeft s := by
  cases hm with
  | wait hp => exact ⟨⟨h.external, h.clock, .inr (.inl ⟨_, _, rfl⟩)⟩, rfl, by simp [stepsLeft, hp]⟩
  | @call now t i k hp hk hdue =>
    have hlt := (List.getElem?_eq_some_iff.mp hk).1
    exact ⟨⟨h.external, h.clock, .inr (.inr (.inr ⟨_, _, _, rfl, hlt⟩))⟩, rfl, by simp [stepsLeft, hp]⟩
  | @skip now t i k hp hk =>
    have hlt := (List.getElem?_eq_some_iff.mp hk).1
    refine ⟨⟨h.external, h.clock, .inr (.inr (.inl ⟨_, _, rfl⟩))⟩, rfl, ?_⟩
    simp only [stepsLeft, hp]
    omega
  | @close now t i hp hk =>
    have hnot : ¬ s.isExpired now := fun hex => by simp [OrchState.isExpired, h.external] at hex
    refine ⟨⟨h.external, h.clock, .inl (if_neg hnot)⟩, rfl, ?_⟩
    simp only [stepsLeft, hp, if_neg hnot]
    omega
  | @finish now t i k hp =>
    have hlt : i < s.orch.tasks.length := by
      rcases h.phase with hp' | ⟨d, w, hp'⟩ | ⟨now', j, hp'⟩ | ⟨now', j, k', hp', hlt⟩
      · simp [hp] at hp'
      · simp [hp] at hp'
      · simp [hp] at hp'
      · obtain ⟨-, rfl, -⟩ := Phase.running.inj (hp.symm.trans hp')
        exact hlt
    refine ⟨⟨h.external, h.clock, .inr (.inr (.inl ⟨_, _, rfl⟩))⟩, rfl, ?_⟩
    simp only [stepsLeft, hp, Orchestrator.finish_tasks]
    omega
  | arm hp | enter hp | handled hp | rest hp => simpa [hp] using h.phase

/-- It waits, or gets closer to where it does. -/
theorem Looping.next (h : Looping s) : ∃ s', (orchestration P).next s (idleEvent s) = some s' ∧
    Timely s (idleEvent s : OrchEvent α) ∧ Looping s' ∧
    ((∃ d w, s.phase = .waiting d w) ∧ s'.clock = timeradd s.clock (ofSec 1) ∨
      s'.clock = s.clock ∧ stepsLeft s' < stepsLeft s) := by
  obtain ⟨s', hn⟩ := exists_next (P := P) h
  refine ⟨s', hn, ?_⟩
  have hm : Moves P s (idleEvent s) s' := next_moves hn
  by_cases hw : ∃ d w, s.phase = .waiting d w
  · obtain ⟨d, w, hp⟩ := hw
    have he : (idleEvent s : OrchEvent α) = .wake true (timeradd s.clock (ofSec 1)) := by simp [idleEvent, hp]
    rw [he] at hm ⊢
    obtain ⟨hs', hclock⟩ := h.wake hm
    exact ⟨⟨h.clock.timeradd (valid_ofSec 1), le_next_second h.clock⟩, hs', .inl ⟨⟨d, w, hp⟩, hclock⟩⟩
  · have he : (idleEvent s : OrchEvent α) = .step s.clock := by
      unfold idleEvent
      split
      · rename_i d w hp
        exact absurd ⟨d, w, hp⟩ hw
      · rfl
    rw [he] at hm ⊢
    obtain ⟨hs', hclock, hless⟩ := h.step hm
    exact ⟨⟨h.clock, le_rfl⟩, hs', .inr ⟨hclock, hless⟩⟩

section Idle

variable {π : Path (orchestration P) Timely} {a : ℕ}
  (hπ : ∀ j, Looping (π.state (a + j)) ∧ π.event (a + j) = some (idleEvent (π.state (a + j))))
include hπ

theorem idle_next (j : ℕ) : (∃ d w, (π.state (a + j)).phase = .waiting d w) ∧
      (π.state (a + (j + 1))).clock = timeradd (π.state (a + j)).clock (ofSec 1) ∨
    (π.state (a + (j + 1))).clock = (π.state (a + j)).clock ∧
      stepsLeft (π.state (a + (j + 1))) < stepsLeft (π.state (a + j)) := by
  obtain ⟨hs, he⟩ := hπ j
  obtain ⟨s', hn, -, -, hs'⟩ := hs.next (P := P)
  obtain rfl := Option.some.inj (hn.symm.trans (π.of_event he).2)
  exact hs'

theorem exists_waiting (k : ℕ) : ∃ j ≥ k, (∃ d w, (π.state (a + j)).phase = .waiting d w) ∧
    (π.state (a + k)).clock = (π.state (a + j)).clock := by
  induction hn : stepsLeft (π.state (a + k)) using Nat.strong_induction_on generalizing k with
  | _ n ih =>
    rcases idle_next hπ k with ⟨hw, -⟩ | ⟨hclock, hless⟩
    · exact ⟨k, le_rfl, hw, rfl⟩
    · obtain ⟨j, hj, hw, hsame⟩ := ih _ (hn ▸ hless) (k + 1) rfl
      exact ⟨j, by omega, hw, hclock.symm.trans hsame⟩

theorem exists_later (m : ℕ) : ∃ j, (π.state a).clock.tvSec + m ≤ (π.state (a + j)).clock.tvSec := by
  induction m with
  | zero => exact ⟨0, le_of_eq (Int.add_zero _)⟩
  | succ m ih =>
    obtain ⟨k, hk⟩ := ih
    obtain ⟨j, -, ⟨d, w, hp⟩, hclock⟩ := exists_waiting hπ k
    have hnone : stepsLeft (π.state (a + j)) = 0 := by simp [stepsLeft, hp]
    rcases idle_next hπ j with ⟨-, hlater⟩ | ⟨-, hless⟩
    · refine ⟨j + 1, ?_⟩
      rw [hlater, tvSec_next_second (hπ j).1.clock, ← hclock]
      push_cast
      omega
    · omega

theorem idle_live {k : ℕ} (hk : k ∈ (π.state a).orch.tasks) : TaskLive k π := by
  refine ⟨⟨a, hk⟩, frequently_atTop.mpr fun b => ?_, fun t => ?_⟩
  · obtain ⟨j, hj, ⟨d, w, hp⟩, -⟩ := exists_waiting hπ b
    refine ⟨a + j, by omega, timeradd (π.state (a + j)).clock (ofSec 1), ?_⟩
    rw [(hπ j).2, idleEvent, hp]
  · obtain ⟨j, hj⟩ := exists_later hπ ((t.tvSec - (π.state a).clock.tvSec).toNat + 1)
    refine ⟨a + j, ?_⟩
    rw [Timeval.le_def]
    left
    push_cast at hj
    omega

end Idle

/-- A component has a message to send, and its task is added. -/
def brbSends : List (OrchEvent (LinkName × Send)) :=
  [.act (.data, ⟨['h', 'i'], 2⟩), .addTask 0 (ofSec 0), .start none (ofSec 100) (ofSec 0), .step (ofSec 0),
    .step (ofSec 0)]

theorem brbSends_forever :
    ∃ π : Path (orchestration (componentProgram .brb (fun _ => 3) fun _ => ⟨ofSec 1, 0, valid_ofSec 1⟩)) Timely,
      (π.state 5).world.outbox .data = [⟨['h', 'i'], 2⟩] ∧ SentForever .data π := by
  obtain ⟨s, hrun, hs⟩ : ∃ s, Run (orchestration
      (componentProgram .brb (fun _ => 3) fun _ => ⟨ofSec 1, 0, valid_ofSec 1⟩)) Timely brbSends s ∧
      (s.world.outbox .data, s.orch.tasks, s.externalTimeout, s.clock, s.phase) =
        ([⟨['h', 'i'], 2⟩], [0], none, ofSec 0, .head) :=
    exists_run_of_exec (fun s : OrchState Links =>
      (s.world.outbox .data, s.orch.tasks, s.externalTimeout, s.clock, s.phase)) (by decide +kernel)
  obtain ⟨houtbox, hs⟩ := Prod.mk.inj hs
  obtain ⟨htasks, hs⟩ := Prod.mk.inj hs
  obtain ⟨hexternal, hs⟩ := Prod.mk.inj hs
  obtain ⟨hclock, hphase⟩ := Prod.mk.inj hs
  have h : Looping s := ⟨hexternal, hclock ▸ valid_ofSec 0, .inl hphase⟩
  obtain ⟨π, h5, -, hπ⟩ := hrun.exists_path (I := fun _ => Looping) (fun _ => idleEvent) h fun _ s hs => by
    obtain ⟨s', hn, hok, hs', -⟩ := hs.next
    exact ⟨s', hok, hn, hs'⟩
  change π.state 5 = s at h5
  refine ⟨π, h5 ▸ houtbox, retransmits_again (by decide) (idle_live hπ ?_)⟩
  change 0 ∈ (π.state 5).orch.tasks
  rw [h5, htasks]
  exact List.mem_singleton.mpr rfl

end Witness

end DSA
