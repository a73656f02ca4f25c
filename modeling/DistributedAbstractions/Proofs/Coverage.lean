import DistributedAbstractions.Proofs.OrchDue
import DistributedAbstractions.Proofs.OrchScan
import DistributedAbstractions.Spec.Retransmission

/-! Which links the orchestrator retransmits: those of a component's own messages, after waits that
time out. The getters of the failure detectors leave out the task of the link below. -/

namespace DSA

open CLib Timeval Trans

variable {c : Component} {period : LinkName → ℤ} {others : ℕ → TaskSpec} {ℓ : LinkName} {k : ℕ}

/-- A task that retransmits does so for the link of the messages, in each of its periods. -/
def Tends (period : LinkName → ℤ) (τ : NewTask) : Prop :=
  ∀ ℓ, τ.callback = .sblHandleTimeout ℓ → ℓ = .data ∧ τ.delay = ofSec (period ℓ) ∧ τ.isRecurrent = 1

theorem tends_sbl : ∀ τ ∈ sblGetTasks period .data, Tends period τ := by
  intro τ hτ ℓ hcallback
  obtain rfl := List.mem_singleton.mp hτ
  obtain rfl := TaskCallback.sblHandleTimeout.inj hcallback
  exact ⟨rfl, rfl, rfl⟩

theorem tends_pfd : ∀ τ ∈ pfdGetTasks, Tends period τ := by
  intro τ hτ ℓ hcallback
  obtain rfl := List.mem_singleton.mp hτ
  cases hcallback

theorem tends_epfd : ∀ τ ∈ epfdGetTasks, Tends period τ := by
  intro τ hτ ℓ hcallback
  obtain rfl := List.mem_singleton.mp hτ
  cases hcallback

theorem tends_getTasks : ∀ τ ∈ c.getTasks period, Tends period τ := by
  cases c with
  | pfd => exact tends_pfd
  | epfd => exact tends_epfd
  | mle => exact tends_pfd
  | rb => exact fun τ hτ => (List.mem_append.mp hτ).elim (tends_sbl τ) (tends_pfd τ)
  | urb => exact tends_sbl
  | brb => exact tends_sbl
  | ble => exact tends_sbl

theorem Retransmits.eq_data (h : Retransmits c period k ℓ) : ℓ = .data := by
  obtain ⟨τ, hτ, hcallback⟩ := Option.map_eq_some_iff.mp h
  exact (tends_getTasks τ (List.mem_of_getElem? hτ) ℓ hcallback).1

theorem Retransmits.spec (h : Retransmits c period k ℓ) (others : ℕ → TaskSpec) :
    k < (c.getTasks period).length ∧
      ((componentProgram c period others).spec k).delay = ofSec (period ℓ) ∧
      ((componentProgram c period others).spec k).isRecurrent = 1 := by
  obtain ⟨τ, hτ, hcallback⟩ := Option.map_eq_some_iff.mp h
  have hspec : (componentProgram c period others).spec k = τ.toTaskSpec := by
    simp [componentProgram, hτ]
  rw [hspec]
  exact ⟨(List.getElem?_eq_some_iff.mp hτ).1, (tends_getTasks τ (List.mem_of_getElem? hτ) ℓ hcallback).2⟩

theorem retransmits_data (h : .data ∈ c.links) : Retransmits c period 0 .data := by
  cases c with
  | pfd => simp [Component.links] at h
  | epfd => simp [Component.links] at h
  | mle => simp [Component.links] at h
  | rb => rfl
  | urb => rfl
  | brb => rfl
  | ble => rfl

section Callbacks

variable {t : Timeval} {ls : Links}

theorem callback_of_retransmits (h : Retransmits c period k ℓ) :
    (componentProgram c period others).callback k t ls = ls.handleTimeout ℓ := by
  simp only [componentProgram, show (c.getTasks period)[k]?.map NewTask.callback = _ from h]

theorem callback_cases (k : ℕ) : (componentProgram c period others).callback k t ls = ls ∨
    ∃ ℓ, Retransmits c period k ℓ ∧ (componentProgram c period others).callback k t ls = ls.handleTimeout ℓ := by
  by_cases h : ∃ ℓ, Retransmits c period k ℓ
  · obtain ⟨ℓ, hℓ⟩ := h
    exact .inr ⟨ℓ, hℓ, callback_of_retransmits hℓ⟩
  · left
    unfold componentProgram
    dsimp only
    split
    · rename_i ℓ hℓ
      exact absurd ⟨ℓ, hℓ⟩ h
    · rfl

theorem outbox_callback (k : ℕ) : ((componentProgram c period others).callback k t ls).outbox = ls.outbox := by
  rcases @callback_cases c period others t ls k with h | ⟨ℓ, -, h⟩ <;> rw [h]
  rfl

theorem handed_callback (k : ℕ) :
    ∃ handed, ((componentProgram c period others).callback k t ls).handed = ls.handed ++ handed ∧
      ∀ ℓ, Retransmits c period k ℓ → ∀ m ∈ ls.outbox ℓ, (ℓ, m) ∈ handed := by
  by_cases h : ∃ ℓ, Retransmits c period k ℓ
  · obtain ⟨ℓ, hℓ⟩ := h
    refine ⟨(ls.outbox ℓ).map fun m => (ℓ, m), by rw [callback_of_retransmits hℓ, Links.handleTimeout], ?_⟩
    intro ℓ' hℓ' m hmem
    obtain rfl : ℓ' = ℓ := hℓ'.eq_data.trans hℓ.eq_data.symm
    exact List.mem_map_of_mem hmem
  · rcases @callback_cases c period others t ls k with heq | ⟨ℓ, hℓ, -⟩
    · exact ⟨[], by rw [heq, List.append_nil], fun ℓ hℓ => absurd ⟨ℓ, hℓ⟩ h⟩
    · exact absurd ⟨ℓ, hℓ⟩ h

end Callbacks

section Steps

variable {s s' u u' : OrchState Links} {e : OrchEvent (LinkName × Send)}

theorem Moves.outbox_prefix (hm : Moves (componentProgram c period others) s e s') (ℓ : LinkName) :
    s.world.outbox ℓ <+: s'.world.outbox ℓ := by
  rcases hm.world_cases with ⟨_, _, k, t, -, -, -, -, -, hw⟩ | ⟨-, hw | ⟨a, -, ha⟩⟩
  · rw [hw, outbox_callback]
  · rw [hw]
  · rw [← Option.some.inj ha]
    dsimp only [Links.send]
    rw [Function.update_apply]
    split_ifs with hℓ
    · exact hℓ ▸ List.prefix_append _ _
    · exact List.prefix_refl _

/-- What the tasks that have run since `s` have retransmitted. -/
structure Served (c : Component) (period : LinkName → ℤ) (s u : OrchState Links) : Prop where
  trace : s.trace <+: u.trace
  outbox : ∀ ℓ, s.world.outbox ℓ <+: u.world.outbox ℓ
  handed : ∃ handed, u.world.handed = s.world.handed ++ handed ∧
    ∀ k ℓ, RanSince s u k → Retransmits c period k ℓ → ∀ m ∈ s.world.outbox ℓ, (ℓ, m) ∈ handed

theorem Served.step (h : Served c period s u) (hm : Moves (componentProgram c period others) u e u') :
    Served c period s u' := by
  obtain ⟨htrace, houtbox, handed, hhanded, hserved⟩ := h
  refine ⟨htrace.trans hm.trace_prefix, fun ℓ => (houtbox ℓ).trans (hm.outbox_prefix ℓ), ?_⟩
  rcases hm.world_cases with ⟨_, _, k, t, -, -, -, -, htr, hw⟩ | ⟨⟨marks, htr, hno⟩, hw⟩
  · obtain ⟨extra, hextra, hcall⟩ := @handed_callback c period others t u.world k
    refine ⟨handed ++ extra, by rw [hw, hextra, hhanded, List.append_assoc], fun k' ℓ hran hret m hmem => ?_⟩
    rcases hran.of_append htrace htr with hran | ⟨t', hmark⟩
    · exact List.mem_append_left _ (hserved k' ℓ hran hret m hmem)
    · obtain ⟨rfl, -⟩ := Mark.ran.inj (List.mem_singleton.mp hmark)
      exact List.mem_append_right _ (hcall ℓ hret m ((houtbox ℓ).subset hmem))
  · refine ⟨handed, ?_, fun k ℓ hran hret m hmem => ?_⟩
    · rcases hw with hw | ⟨a, -, ha⟩
      · rw [hw, hhanded]
      · rw [← Option.some.inj ha]
        exact hhanded
    · rcases hran.of_append htrace htr with hran | ⟨t, hmark⟩
      · exact hserved k ℓ hran hret m hmem
      · exact absurd hmark (hno k t)

theorem handed_data {ok : OrchState Links → OrchEvent (LinkName × Send) → Prop}
    {evs : List (OrchEvent (LinkName × Send))} (h : Run (orchestration (componentProgram c period others)) ok evs s) :
    ∀ x ∈ s.world.handed, x.1 = .data := by
  refine h.state_invariant (I := fun s => ∀ x ∈ s.world.handed, x.1 = .data) (fun x hx => absurd hx List.not_mem_nil) ?_
  intro evs s e s' _ ih _ hn x hx
  rcases (next_moves hn).world_cases with ⟨_, _, k, t, -, -, -, -, -, hw⟩ | ⟨-, hw | ⟨a, -, ha⟩⟩
  · rw [hw] at hx
    rcases @callback_cases c period others t s.world k with heq | ⟨ℓ, hret, heq⟩
    · exact ih x (heq ▸ hx)
    · rw [heq] at hx
      rcases List.mem_append.mp hx with hx | hx
      · exact ih x hx
      · obtain ⟨m, -, rfl⟩ := List.mem_map.mp hx
        exact hret.eq_data
  · exact ih x (hw ▸ hx)
  · rw [← Option.some.inj ha] at hx
    exact ih x hx

end Steps

section Iterations

variable {evs : List (OrchEvent (LinkName × Send))} {s s' : OrchState Links} {timedOut : Bool} {now : Timeval}

theorem ComponentIteration.served (h : ComponentIteration c period others evs s timedOut now s') :
    Served c period s s' := by
  refine Iteration.induct h (fun _ _ _ => ?_) fun _ _ _ hu hm _ => hu.step hm
  refine ⟨List.prefix_refl _, fun _ => List.prefix_refl _, [], by simp, ?_⟩
  rintro k ℓ ⟨marks, t, htrace, hmem⟩
  obtain rfl : marks = [] := by simpa using htrace
  cases hmem

theorem ComponentIteration.handed_of_ready (h : ComponentIteration c period others evs s false now s') :
    s'.world.handed = s.world.handed := by
  refine (Iteration.induct h (J := fun u => Handles s u ∧ u.world.handed = s.world.handed) (fun _ _ _ => ?_) ?_).2
  · exact ⟨⟨⟨[], by simp, by simp⟩, .inl ⟨0, rfl⟩⟩, rfl⟩
  · rintro u u' e ⟨hu, heq⟩ hm he
    refine ⟨hu.step hm he, ?_⟩
    rcases hm.world_cases with ⟨_, _, k, t, -, hp, -⟩ | ⟨-, hw | ⟨a, -, ha⟩⟩
    · rcases hu.phase with ⟨i, hp'⟩ | hp' | ⟨d, τ, hp'⟩ <;> simp [hp] at hp'
    · rw [hw, heq]
    · rw [← Option.some.inj ha]
      exact heq

theorem ComponentIteration.isDue (h : ComponentIteration c period others evs s timedOut now s')
    (hret : Retransmits c period k ℓ) (helapsed : PeriodElapsed c period ℓ s now) :
    k ∈ s.orch.tasks ∧ s.orch.isDue k now := by
  obtain ⟨deadline, timeout, hp⟩ := Iteration.waited h
  obtain ⟨pre, body, -, -, hs, -, -⟩ := h
  obtain ⟨hk, hdelay, hr⟩ := hret.spec others
  obtain ⟨⟨t, hloop, ht⟩, hfinished⟩ := helapsed
  have hsound : Sound (componentProgram c period others) s := sound_run (hs.weaken fun _ _ h => h.1)
  have harmed : Armed (componentProgram c period others) s k :=
    armed_run hs (fun _ _ h => h.1) (fun _ _ _ _ h => h.2 k hk) hr
  refine harmed.isDue hp hsound hloop (by rw [hdelay]; exact ht) fun a ha => ?_
  rw [hdelay]
  exact hfinished k a hret ha

theorem ComponentIteration.covers_iff (h : ComponentIteration c period others evs s timedOut now s') :
    Covers c period s now s' ↔ ∀ ℓ ∈ c.links, PeriodElapsed c period ℓ s now → s.world.outbox ℓ ≠ [] →
      timedOut = true ∧ ℓ = .data := by
  constructor
  · intro hcovers ℓ hℓ helapsed hne
    obtain ⟨m, hm⟩ := List.exists_mem_of_ne_nil _ hne
    obtain ⟨handed, hhanded, hmem⟩ := hcovers ℓ hℓ helapsed m hm
    constructor
    · cases timedOut with
      | true => rfl
      | false =>
        obtain rfl : handed = [] := by simpa [h.handed_of_ready] using hhanded
        cases hmem
    · obtain ⟨pre, body, -, -, -, hs', -⟩ := h
      exact handed_data hs' (ℓ, m) (by rw [hhanded]; exact List.mem_append_right _ hmem)
  · intro hcond ℓ hℓ helapsed m hm
    obtain ⟨rfl, rfl⟩ := hcond ℓ hℓ helapsed (List.ne_nil_of_mem hm)
    have hret := @retransmits_data c period hℓ
    obtain ⟨hk, hdue⟩ := h.isDue hret helapsed
    have hran : RanSince s s' 0 := (Iteration.serves_of_timedOut h).ran 0 hk hdue
    obtain ⟨handed, hhanded, hserved⟩ := h.served.handed
    exact ⟨handed, hhanded, hserved 0 .data hran hret m hm⟩

end Iterations

theorem coverage_iff (c : Component) (period : LinkName → ℤ) (others : ℕ → TaskSpec)
    (evs : List (OrchEvent (LinkName × Send))) :
    (∀ s timedOut now s', ComponentIteration c period others evs s timedOut now s' → Covers c period s now s') ↔
      ∀ s timedOut now s', ComponentIteration c period others evs s timedOut now s' →
        ∀ ℓ ∈ c.links, PeriodElapsed c period ℓ s now → s.world.outbox ℓ ≠ [] → timedOut = true ∧ ℓ = .data :=
  forall₄_congr fun _ _ _ _ => forall_congr' fun h => h.covers_iff

section Heartbeat

/-- The retransmission period is a second, and there are no tasks besides the detector's. -/
def pfdProgram : Program Links (LinkName × Send) := componentProgram .pfd (fun _ => 1) onceProgram.spec

/-- At the first health check the detector sends a heartbeat. -/
def beforeSecondCheck : List (OrchEvent (LinkName × Send)) :=
  [.addTask 0 (ofSec 0), .start none (ofSec 9) (ofSec 0), .step (ofSec 0), .step (ofSec 0),
    .step (ofSec 0), .wake true (ofSec 4), .step (ofSec 4), .act (.control, ⟨['i', 'd', ',', 'H', 'B'], 2⟩),
    .step (ofSec 4), .step (ofSec 4), .step (ofSec 4)]

/-- A second one is sent with the next check, and the first is not sent again. -/
def secondCheck : List (OrchEvent (LinkName × Send)) :=
  [.step (ofSec 8), .act (.control, ⟨['i', 'e', ',', 'H', 'B'], 2⟩), .step (ofSec 8), .step (ofSec 8)]

theorem heartbeat_sent_once : ¬ ∀ s timedOut now s',
    ComponentIteration .pfd (fun _ => 1) onceProgram.spec
        (beforeSecondCheck ++ .wake true (ofSec 8) :: secondCheck) s timedOut now s' →
      Covers .pfd (fun _ => 1) s now s' := by
  intro h
  obtain ⟨s, hs, hview⟩ := @exists_run_of_exec _ _ (orchestration pfdProgram)
    (fun s e => Timely s e ∧ HoldsTasks .pfd (fun _ => 1) s e) _ _ beforeSecondCheck
    (fun s => decide (.looping (ofSec 0) ∈ s.trace ∧ (s.world.outbox .control).length = 1)) true (by decide)
  obtain ⟨s', hs', hhead⟩ := @exists_run_of_exec _ _ (orchestration pfdProgram)
    (fun s e => Timely s e ∧ HoldsTasks .pfd (fun _ => 1) s e) _ _
    (beforeSecondCheck ++ .wake true (ofSec 8) :: secondCheck) (fun s => s.phase) .head (by decide)
  obtain ⟨hloop, hlen⟩ := of_decide_eq_true hview
  have hit : ComponentIteration .pfd (fun _ => 1) onceProgram.spec
      (beforeSecondCheck ++ .wake true (ofSec 8) :: secondCheck) s true (ofSec 8) s' :=
    ⟨beforeSecondCheck, secondCheck, List.prefix_refl _, by simp [secondCheck, OrchEvent.isWake], hs, hs', .inl hhead⟩
  have helapsed : PeriodElapsed .pfd (fun _ => 1) .control s (ofSec 8) := by
    refine ⟨⟨ofSec 0, hloop, by decide⟩, fun k t hret => ?_⟩
    cases hret.eq_data
  have hne : s.world.outbox .control ≠ [] := fun hnil => by simp [hnil] at hlen
  obtain ⟨-, hdata⟩ := hit.covers_iff.mp (h _ _ _ _ hit) .control (by decide) helapsed hne
  cases hdata

end Heartbeat

end DSA
