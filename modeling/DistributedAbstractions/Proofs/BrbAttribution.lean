import DistributedAbstractions.Proofs.BrbSafety

/-! Whom an indication of the Byzantine broadcast names: the peer whose READY was the last one that the
count needed, which depends on the order of arrival. -/

namespace DSA

open CLib Net Trans

variable {config : BrbConfig} {byz : Finset ℤ} {evs : List (Event (ℤ → Bool) CString CString)} {s : BrbState}

theorem completes_of_indication {b : Brb} {ok : ℤ → Bool} {q : ℤ} {P : CString} {d : Deliver}
    (hd : d ∈ indications (brbCallback b ok ⟨P, q⟩).2) :
    d.sender = q ∧ (tryParseMessage P READY_CODE).any (completes b q) = true := by
  have hout := brbCallback_outcome ok b q P
  generalize (brbCallback b ok ⟨P, q⟩).1 = b' at hout
  generalize (brbCallback b ok ⟨P, q⟩).2 = effects at hout hd
  cases hout with
  | delivered body hP hn hcount hnew =>
    obtain rfl := List.mem_singleton.mp hd
    refine ⟨rfl, ?_⟩
    rw [hP]
    simp [completes, hn, hnew, hcount]
  | ignored | echoCounted | readyCounted => cases hd
  | echoed | echoQuorum | amplified =>
    rw [indications_broadcastAux] at hd
    cases hd

theorem sender_of_indication {guard : BrbState → Event (ℤ → Bool) CString CString → Prop}
    (hguard : ∀ s e, guard s e → SenderCompletes s e) (h : Run (brbSystem id config byz) guard evs s) (p : ℤ) :
    ∀ d ∈ indications (s.proc p).effects, d.sender = config.senderRank := by
  refine local_invariant_of_live (R := fun _ l => ∀ d ∈ indications l.effects, d.sender = config.senderRank)
    (fun _ d hd => (List.not_mem_nil hd).elim) ?_ h (not_crashed rfl h p)
  intro evs s p ok a stop hr _ _ hok ih
  have hsteps := hguard _ _ hok
  have hsender := (brb_local_of_run hr p).senderRank
  intro d hd
  rw [Proc.perform, indications_append, List.mem_append] at hd
  rcases hd with hd | hd
  · exact ih d hd
  unfold SenderCompletes at hsteps
  dsimp only at hsteps
  cases hinput : a.input with
  | call m =>
    rw [hinput] at hd
    have hnone := indications_broadcastAux (s.proc p).state (id ok) m SEND_CODE
    change d ∈ indications (broadcastAux (s.proc p).state (id ok) m SEND_CODE).1 at hd
    rw [hnone] at hd
    cases hd
  | receive q P =>
    rw [hinput] at hd hsteps
    obtain ⟨hd, hcompletes⟩ := completes_of_indication hd
    exact hd.trans ((hsteps hcompletes).trans hsender)

/-- Where the designated sender's READY is the one that completes the counts, and no peer is counted
twice, all indications are the same. -/
theorem brb_attributed (hbyz : byz.card ≤ config.maxFaultyNodes)
    (hq : config.maxRank + config.maxFaultyNodes ≤ toFloat (config.maxRank + config.maxFaultyNodes) + 1)
    (h : Run (brbSystem id config byz) (fun s e => ScanComplete s e ∧ SenderCompletes s e) evs s) :
    Attributed config byz s := by
  have hsender := sender_of_indication (fun _ _ h => h.2) h
  refine ⟨fun p _ => hsender p, fun p _ q _ d hd d' hd' => ?_⟩
  have hmsg : d.msg = d'.msg :=
    (certified_of_indication (fun _ _ h => h.1) hbyz h hd).unique hbyz (quorum_intersects hq) h
      (certified_of_indication (fun _ _ h => h.1) hbyz h hd')
  have hsame : d.sender = d'.sender := (hsender p d hd).trans (hsender q d' hd').symm
  obtain ⟨m, x⟩ := d
  obtain ⟨m', x'⟩ := d'
  rw [Deliver.mk.injEq]
  exact ⟨hmsg, hsame⟩

/-- Peer 1 broadcasts, and three peers handle all they send one another, with its READY as the last one. -/
def senderLastRun : List (Event (ℤ → Bool) CString CString) :=
  let up : ℤ → Bool := fun _ => true
  let correct : List ℤ := [1, 2, 3]
  .act 1 up (.call ['a']) none :: correct.map (got up · 1 SEND_CODE ['a']) ++
    correct.flatMap (fun p => correct.map (got up p · ECHO_CODE ['a'])) ++
    correct.flatMap (fun p => [2, 3, 1].map (got up p · READY_CODE ['a']))

theorem senderLastRun_attributed : ∃ s,
    Run (brbSystem id ⟨1, 1, 4⟩ ∅) (fun s e => ScanComplete s e ∧ SenderCompletes s e) senderLastRun s ∧
      deliveredAt s 3 = [['a']] ∧ Attributed ⟨1, 1, 4⟩ ∅ s := by
  obtain ⟨s, hrun, hs⟩ : ∃ s,
      Run (brbSystem id ⟨1, 1, 4⟩ ∅) (fun s e => ScanComplete s e ∧ SenderCompletes s e) senderLastRun s ∧
        deliveredAt s 3 = [['a']] :=
    exists_run_of_exec (deliveredAt · 3) (by decide +kernel)
  exact ⟨s, hrun, hs, @brb_attributed ⟨1, 1, 4⟩ ∅ _ _ (by decide) (by decide) hrun⟩

/-- All peers are correct, and peer 1's message is indicated as one of peer 3. -/
theorem brb_misattributes : ¬ ∀ (config : BrbConfig) (byz : Finset ℤ),
    3 * config.maxFaultyNodes < config.maxRank → byz ⊆ peers config.maxRank →
    byz.card ≤ config.maxFaultyNodes → ∀ evs s,
    Run (brbSystem id config byz) (fun _ _ => True) evs s → Attributed config byz s := by
  intro H
  obtain ⟨s, hrun, hs⟩ : ∃ s, Run (brbSystem id ⟨1, 1, 4⟩ ∅) (fun _ _ => True) (plainRun fun _ => true) s ∧
      indications (s.proc 1).effects = [⟨['a'], 3⟩] :=
    exists_run_of_exec (fun s : BrbState => indications (s.proc 1).effects) (by decide +kernel)
  have hsender := (H ⟨1, 1, 4⟩ ∅ (by decide) (by decide) (by decide) _ _ hrun).sender 1 (by decide) ⟨['a'], 3⟩
    (by rw [hs]; simp)
  exact absurd hsender (by decide)

end DSA
