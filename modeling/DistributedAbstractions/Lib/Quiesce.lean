import DistributedAbstractions.Lib.NetFacts
import Mathlib.Algebra.BigOperators.Group.Finset.Basic
import Mathlib.Algebra.Order.BigOperators.Group.Finset

/-! Runs that end in a quiet state. A protocol whose handlers pay for what they send out
of a finite budget can always be run until nothing is on its way. -/

namespace Net

open Trans

variable {ρ σ ι μ ω : Type} [DecidableEq μ] {F : Setting μ} {P : Protocol ρ σ ι μ ω}

/-- Any set of processes can be down from the start. -/
theorem exists_crashed (hF : F.crashes = true) {B : Finset ℤ} (hB : ∀ p ∈ B, F.correct p = true) :
    ∃ evs s, Run (system P F) (fun _ _ => True) evs s ∧ s.flight = [] ∧ s.handled = [] ∧
      ∀ p, s.proc p = ⟨P.init p, [], [], decide (p ∈ B)⟩ := by
  induction B using Finset.induction_on with
  | empty => exact ⟨[], _, .nil, rfl, rfl, fun p => by simp [system, start]⟩
  | insert b B hb ih =>
    obtain ⟨evs, s, hrun, hfl, hh, hp⟩ := ih fun p hp => hB p (Finset.mem_insert_of_mem hp)
    have hlive : F.live s b = true :=
      live_iff.mpr ⟨hB b (Finset.mem_insert_self b B), by rw [hp]; simpa using hb⟩
    refine ⟨evs ++ [.crash b], s.crash b, .snoc hrun trivial ?_, hfl, hh, fun p => ?_⟩
    · change next P F s (.crash b) = _
      rw [next, hlive, hF]
      rfl
    · by_cases hpb : p = b
      · subst hpb; simp [State.crash, hp]
      · rw [crash_proc_ne s b hpb, hp]
        simp [hpb]

theorem next_deliver {s : State σ ι μ ω} {p src : ℤ} {m : μ} (r : ρ) (hp : F.live s p = true)
    (hm : ⟨src, p, m⟩ ∈ s.flight) (hc : F.carries ⟨src, p, m⟩ = true) :
    next P F s (.act p r (.deliver src m) none) = some (s.act P p r (.deliver src m) none) := by
  simp [next, hp, Setting.admits, hm, hc]

/-- What is on its way and what the processes in `A` may still send. -/
def budget (A : Finset ℤ) (weight : σ → ℕ) (s : State σ ι μ ω) : ℕ :=
  s.flight.length + ∑ p ∈ A, weight (s.proc p).state

theorem budget_deliver {A : Finset ℤ} {weight : σ → ℕ} {s : State σ ι μ ω} {p src : ℤ} {m : μ} {r : ρ}
    (hp : p ∈ A) (hm : ⟨src, p, m⟩ ∈ s.flight)
    (hw : weight (P.handle r (s.proc p).state (.receive src m)).1 +
      (packets p (P.handle r (s.proc p).state (.receive src m)).2).length ≤
        weight (s.proc p).state) :
    budget A weight (s.act P p r (.deliver src m) none) < budget A weight s := by
  have hrest : ∑ q ∈ A.erase p, weight ((s.act P p r (.deliver src m) none).proc q).state =
      ∑ q ∈ A.erase p, weight (s.proc q).state :=
    Finset.sum_congr rfl fun q hq => by rw [act_proc_ne P s p r _ _ (Finset.ne_of_mem_erase hq)]
  have hsum := Finset.add_sum_erase A (fun q => weight (s.proc q).state) hp
  have hsum' := Finset.add_sum_erase A
    (fun q => weight ((s.act P p r (.deliver src m) none).proc q).state) hp
  simp only [act_state_self, Arrival.input, hrest] at hsum'
  have hpos := List.length_pos_of_mem hm
  have hlen : (s.act P p r (.deliver src m) none).flight.length = s.flight.length - 1 +
      (packets p (P.handle r (s.proc p).state (.receive src m)).2).length := by
    rw [act_flight, List.length_append]
    simp [State.consume, List.length_erase_of_mem hm, cut, Arrival.input]
  unfold budget
  omega

/-- Delivering what is on its way inside `A` comes to an end. -/
theorem exists_quiet {A : Finset ℤ} {K : State σ ι μ ω → Prop} (weight : σ → ℕ) (r : ρ)
    (hw : ∀ p st src m, weight (P.handle r st (.receive src m)).1 +
      (packets p (P.handle r st (.receive src m)).2).length ≤ weight st)
    (hlive : ∀ s p, K s → p ∈ A → F.live s p = true)
    (hcar : ∀ evs s k, Run (system P F) (fun _ _ => True) evs s → K s → k ∈ s.flight →
      F.carries k = true)
    (hk : ∀ s p src m, K s → p ∈ A → ⟨src, p, m⟩ ∈ s.flight → K (s.act P p r (.deliver src m) none))
    {evs : List (Event ρ ι μ)} {s : State σ ι μ ω}
    (h : Run (system P F) (fun _ _ => True) evs s) (hs : K s) :
    ∃ evs' s', Run (system P F) (fun _ _ => True) (evs ++ evs') s' ∧ K s' ∧ Quiet s' A := by
  refine h.complete (Q := (Quiet · A)) (budget A weight) (fun evs s hrun hK hq => ?_) hs
  simp only [Quiet, not_forall, not_not] at hq
  obtain ⟨⟨src, dst, m⟩, hm, -, hdst⟩ := hq
  exact ⟨.act dst r (.deliver src m) none, _, trivial,
    next_deliver r (hlive s dst hK hdst) hm (hcar _ _ _ hrun hK hm), hk s dst src m hK hdst hm,
    budget_deliver hdst hm (hw _ _ _ _)⟩

section

variable [DecidableEq ω] [DecidableEq ι]

theorem count_packets (p : ℤ) (es : List (Effect μ ω)) (d : ℤ) (m : μ) :
    (packets p es).count ⟨p, d, m⟩ = es.count (.send d m) := by
  induction es with
  | nil => rfl
  | cons e es ih =>
    rw [← List.singleton_append, packets_append, List.count_append, List.count_append, ih]
    congr 1
    cases e with
    | send d' m' => simp [packets, Effect.packet?, List.count_singleton]
    | indicate o => simp [packets, List.filterMap_cons, Effect.packet?]

/-- Without an adversary nothing is taken in more often than it was sent. -/
theorem count_inputs_le {ok : State σ ι μ ω → Event ρ ι μ → Prop} {evs : List (Event ρ ι μ)}
    {s : State σ ι μ ω} (hbyz : F.byz = ∅) (hrep : F.replays = false)
    (h : Run (system P F) ok evs s) (p q : ℤ) (m : μ) :
    (s.proc p).inputs.count (.receive q m) ≤ (s.proc q).effects.count (.send p m) := by
  have hin := count_inputs hbyz hrep h ⟨q, p, m⟩
  have hsent := sent_count h ⟨q, p, m⟩
  rw [count_packets] at hsent
  simp only at hin hsent
  omega

end

end Net
