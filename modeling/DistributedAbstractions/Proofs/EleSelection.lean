import DistributedAbstractions.Lib.NetFacts
import DistributedAbstractions.Spec.EventualLeader
import Mathlib.Data.List.Chain

/-! The leader that the eventual leader elector chooses is the best contender, in whatever order the
candidates have come, and is indicated exactly when it changes. -/

namespace DSA

open CLib Net

theorem Beats.trans {a b c : Heartbeat} (hab : Beats a b) (hbc : Beats b c) : Beats a c := by
  unfold Beats at *
  omega

theorem Beats.asymm {a b : Heartbeat} (h : Beats a b) : ¬ Beats b a := by
  unfold Beats at *
  omega

theorem beats_or_beats {a b : Heartbeat} (h : a ≠ b) : Beats a b ∨ Beats b a := by
  obtain ⟨sender, epoch⟩ := a
  obtain ⟨sender', epoch'⟩ := b
  unfold Beats
  simp only [ne_eq, Heartbeat.mk.injEq] at h ⊢
  omega

theorem IsBest.unique {S : Set Heartbeat} {b b' : Heartbeat} (h : IsBest S b) (h' : IsBest S b') : b' = b := by
  by_contra hne
  exact (h.2 b' h'.1 hne).asymm (h'.2 b h.1 (Ne.symm hne))

theorem betterCandidate_cases (best hb : Heartbeat) :
    betterCandidate best hb = hb ∧ Beats hb best ∨
      betterCandidate best hb = best ∧ (hb ≠ best → Beats best hb) := by
  unfold betterCandidate
  split_ifs with h
  · exact .inl ⟨rfl, h.imp_right fun h => ⟨h.2, h.1⟩⟩
  · refine .inr ⟨rfl, fun hne => (beats_or_beats hne).resolve_left fun hbeats => h ?_⟩
    exact hbeats.imp_right fun h => ⟨h.2, h.1⟩

theorem betterCandidate_over {best hb x : Heartbeat} (hx : x = best ∨ x = hb) :
    x = betterCandidate best hb ∨ Beats (betterCandidate best hb) x := by
  rcases betterCandidate_cases best hb with ⟨heq, hbeats⟩ | ⟨heq, hbeats⟩
  · rw [heq]
    exact hx.elim (fun hx => .inr (hx ▸ hbeats)) .inl
  · rw [heq]
    rcases hx with rfl | rfl
    · exact .inl rfl
    · by_cases hself : x = best
      · exact .inl hself
      · exact .inr (hbeats hself)

theorem IsBest.beats {S : Set Heartbeat} {b a x : Heartbeat} (h : IsBest S b) (ha : a ∈ S) (hx : Beats a x) :
    Beats b x := by
  by_cases heq : a = b
  · exact heq ▸ hx
  · exact (h.2 a ha heq).trans hx

theorem isBest_foldl (hbs : List Heartbeat) (best : Heartbeat) :
    IsBest {hb | hb = best ∨ hb ∈ hbs} (hbs.foldl betterCandidate best) := by
  induction hbs generalizing best with
  | nil =>
    refine ⟨.inl rfl, fun x hx hne => ?_⟩
    rcases hx with rfl | hx
    · exact absurd rfl hne
    · cases hx
  | cons hb hbs ih =>
    rw [List.foldl_cons]
    have hbest := ih (betterCandidate best hb)
    constructor
    · rcases hbest.1 with hmem | hmem
      · rw [hmem]
        rcases betterCandidate_cases best hb with ⟨heq, -⟩ | ⟨heq, -⟩
        · exact .inr (by simp [heq])
        · exact .inl heq
      · exact .inr (List.mem_cons_of_mem _ hmem)
    · intro x hx hne
      by_cases hrest : x ∈ hbs
      · exact hbest.2 x (.inr hrest) hne
      · have hx' : x = best ∨ x = hb := by simpa [hrest] using hx
        rcases betterCandidate_over hx' with heq | hbeats
        · exact hbest.2 x (.inl heq) hne
        · exact hbest.beats (.inl rfl) hbeats

theorem isBest_bestCandidate (ele : Ele) : IsBest ele.contenders (bestCandidate ele) :=
  isBest_foldl ele.candidates ele.self

theorem handleTimeout_of_same {ele : Ele} (h : (bestCandidate ele).sender = ele.leader) :
    eleHandleTimeout ele = ({ ele with candidates := [] }, sendHeartbeats ele) :=
  if_neg (not_not.mpr h)

theorem handleTimeout_of_new {ele : Ele} (h : (bestCandidate ele).sender ≠ ele.leader) :
    eleHandleTimeout ele = ({ ele with
        leader := (bestCandidate ele).sender
        periodDurationSecs := ele.periodDurationSecs + HEARTBEAT_INCREMENT_SEC
        candidates := [] },
      .indicate ⟨(bestCandidate ele).sender⟩ :: sendHeartbeats ele) :=
  if_pos h

theorem handleTimeout_leader (ele : Ele) : (eleHandleTimeout ele).1.leader = (bestCandidate ele).sender := by
  by_cases h : (bestCandidate ele).sender = ele.leader
  · rw [handleTimeout_of_same h]
    exact h.symm
  · rw [handleTimeout_of_new h]

@[simp] theorem indications_sendHeartbeats (ele : Ele) : indications (sendHeartbeats ele) = [] := by
  apply indications_eq_nil
  intro o ho
  simp [sendHeartbeats] at ho

theorem handleTimeout_trust (ele : Ele) : indications (eleHandleTimeout ele).2 =
    if (eleHandleTimeout ele).1.leader = ele.leader then [] else [⟨(eleHandleTimeout ele).1.leader⟩] := by
  rw [handleTimeout_leader]
  by_cases h : (bestCandidate ele).sender = ele.leader
  · rw [if_pos h, handleTimeout_of_same h, indications_sendHeartbeats]
  · rw [if_neg h, handleTimeout_of_new h, indications_cons_indicate, indications_sendHeartbeats]

theorem handleTimeout_period (ele : Ele) : (eleHandleTimeout ele).1.periodDurationSecs =
    if (eleHandleTimeout ele).1.leader = ele.leader then ele.periodDurationSecs
    else ele.periodDurationSecs + HEARTBEAT_INCREMENT_SEC := by
  rw [handleTimeout_leader]
  by_cases h : (bestCandidate ele).sender = ele.leader
  · rw [if_pos h, handleTimeout_of_same h]
  · rw [if_neg h, handleTimeout_of_new h]

theorem wrapper_frame (ele : Ele) (e : Deliver) : (eleWrapper ele e).leader = ele.leader ∧
    (eleWrapper ele e).periodDurationSecs = ele.periodDurationSecs := by
  unfold eleWrapper
  split <;> exact ⟨rfl, rfl⟩

theorem elects (ele : Ele) : Elects ele where
  best := ⟨bestCandidate ele, isBest_bestCandidate ele, fun _ h => (isBest_bestCandidate ele).unique h,
    handleTimeout_leader ele⟩
  agrees ele' h := by
    have hbest := isBest_bestCandidate ele'
    rw [h] at hbest
    rw [handleTimeout_leader, handleTimeout_leader, (isBest_bestCandidate ele).unique hbest]
  trust := handleTimeout_trust ele
  period := handleTimeout_period ele
  heartbeat := wrapper_frame ele

theorem trusts_chain_last (ele : Ele) (evs : List EleEvent) : (trusts ele evs).IsChain (· ≠ ·) ∧
    ∀ p ∈ (trusts ele evs).getLast?, p = (eleAfter ele evs).leader := by
  refine Machine.invariant (I := fun _ (t : Ele) out => ((indications out).map Trust.peerRank).IsChain (· ≠ ·) ∧
    ∀ p ∈ ((indications out).map Trust.peerRank).getLast?, p = t.leader) ⟨.nil, by simp⟩ ?_ evs
  rintro evs e t out ⟨hchain, hlast⟩
  cases e with
  | deliver e =>
    rw [eleStep, List.append_nil, (wrapper_frame t e).1]
    exact ⟨hchain, hlast⟩
  | timeout =>
    rw [eleStep, indications_append, handleTimeout_trust]
    split_ifs with h
    · rw [List.append_nil, h]
      exact ⟨hchain, hlast⟩
    · rw [List.map_append, List.map_singleton]
      refine ⟨hchain.append (.singleton _) ?_, by simp⟩
      rintro p hp q hq
      obtain rfl : (eleHandleTimeout t).1.leader = q := by simpa using hq
      exact hlast p hp ▸ Ne.symm h

/-- The elector chooses the best contender at each timeout of every run, and no two indications in
turn name the same peer. -/
theorem elects_in_every_run (ele : Ele) (evs : List EleEvent) :
    Elects (eleAfter ele evs) ∧ (trusts ele evs).IsChain (· ≠ ·) :=
  ⟨elects _, (trusts_chain_last ele evs).1⟩

end DSA
