import DistributedAbstractions.Proofs.BrbCertificates

/-! Consistency and integrity of the Byzantine broadcast in runs that count no peer
twice, and the runs in which an adversary gets its first message counted twice. -/

namespace DSA

open CLib Net Trans

/-- Echo quorums share a correct peer as long as single precision does not round
`max_rank + max_faulty_nodes` down by more than one. -/
theorem quorum_intersects {maxRank f : ℕ} (h : maxRank + f ≤ toFloat (maxRank + f) + 1) :
    maxRank + f < 2 * (quorumSize maxRank f + 1) := by
  unfold quorumSize
  by_cases hle : maxRank + f ≤ 2 ^ 24
  · rw [toFloat_of_le hle]
    omega
  · obtain ⟨k, hk⟩ := two_dvd_toFloat (Nat.lt_of_not_le hle)
    omega

theorem maxFaulty_le_quorum {maxRank f : ℕ} (h : 3 * f < maxRank) : f ≤ quorumSize maxRank f := by
  have := le_two_mul_toFloat (maxRank + f)
  rw [quorumSize, Nat.le_div_iff_mul_le (by decide)]
  omega

def forged {ρ : Type} (r : ρ) (p q : ℤ) (code body : CString) : Event ρ CString CString :=
  .act p r (.forge q (payload code body)) none

def got {ρ : Type} (r : ρ) (p q : ℤ) (code body : CString) : Event ρ CString CString :=
  .act p r (.deliver q (payload code body)) none

/-- Peer 1 broadcasts, and peers 1, 2 and 3 handle all they send one another. -/
def plainRun {ρ : Type} (r : ρ) : List (Event ρ CString CString) :=
  let correct : List ℤ := [1, 2, 3]
  .act 1 r (.call ['a']) none :: correct.map (got r · 1 SEND_CODE ['a']) ++
    correct.flatMap (fun p => correct.map (got r p · ECHO_CODE ['a'])) ++
    correct.flatMap (fun p => correct.map (got r p · READY_CODE ['a']))

theorem mem_deliveredAt {s : BrbState} {p : ℤ} {m : CString} :
    m ∈ deliveredAt s p ↔ ∃ d ∈ indications (s.proc p).effects, d.msg = m := by
  simp [deliveredAt]

theorem brb_consistent {config : BrbConfig} {byz : Finset ℤ}
    (hbyz : byz.card ≤ config.maxFaultyNodes)
    (hq : config.maxRank + config.maxFaultyNodes ≤
      toFloat (config.maxRank + config.maxFaultyNodes) + 1)
    {evs : List (Event (ℤ → Bool) CString CString)} {s : BrbState}
    (h : Run (brbSystem id config byz) ScanComplete evs s) : Consistent config.maxRank byz s := by
  refine ⟨fun p _ q _ d hd d' hd' => ?_, fun p _ => ?_⟩
  · exact (certified_of_indication (fun _ _ h => h) hbyz h hd).unique hbyz (quorum_intersects hq) h
      (certified_of_indication (fun _ _ h => h) hbyz h hd')
  · rcases (brb_local_of_run h p).indicated with ⟨-, hi⟩ | ⟨-, d, hi, -⟩ <;> simp [hi]

theorem plainRun_consistent : ∃ s, Run (brbSystem id ⟨1, 1, 4⟩ {4}) ScanComplete
    (plainRun fun _ => true) s ∧ deliveredAt s 3 = [['a']] ∧ Consistent 4 {4} s := by
  obtain ⟨s, hrun, hs⟩ : ∃ s, Run (brbSystem id ⟨1, 1, 4⟩ {4}) ScanComplete
      (plainRun fun _ => true) s ∧ deliveredAt s 3 = [['a']] :=
    exists_run_of_exec (deliveredAt · 3) (by decide +kernel)
  exact ⟨s, hrun, hs, @brb_consistent ⟨1, 1, 4⟩ {4} (by decide) (by decide) _ _ hrun⟩

/-- Peer 4 of four splits peers 1 and 2: each of them counts its first ECHO and its
first READY twice. -/
def splitRun : List (Event (ℤ → Bool) CString CString) :=
  let up : ℤ → Bool := fun _ => true
  [forged up 1 4 SEND_CODE ['a'], forged up 2 4 SEND_CODE ['b'],
   forged up 1 4 ECHO_CODE ['a'], forged up 1 4 ECHO_CODE ['a'], got up 1 1 ECHO_CODE ['a'],
   forged up 2 4 ECHO_CODE ['b'], forged up 2 4 ECHO_CODE ['b'], got up 2 2 ECHO_CODE ['b'],
   forged up 1 4 READY_CODE ['a'], forged up 1 4 READY_CODE ['a'], got up 1 1 READY_CODE ['a'],
   forged up 2 4 READY_CODE ['b'], forged up 2 4 READY_CODE ['b'], got up 2 2 READY_CODE ['b']]

theorem brb_splits : ¬ ∀ (config : BrbConfig) (byz : Finset ℤ),
    3 * config.maxFaultyNodes < config.maxRank → byz ⊆ peers config.maxRank →
    byz.card ≤ config.maxFaultyNodes → ∀ evs s,
    Run (brbSystem id config byz) (fun _ _ => True) evs s → Consistent config.maxRank byz s := by
  intro H
  obtain ⟨s, hrun, hs⟩ : ∃ s, Run (brbSystem id ⟨4, 1, 4⟩ {4}) (fun _ _ => True) splitRun s ∧
      (deliveredAt s 1, deliveredAt s 2) = ([['a']], [['b']]) :=
    exists_run_of_exec (fun s => (deliveredAt s 1, deliveredAt s 2)) (by decide +kernel)
  obtain ⟨h1, h2⟩ := Prod.mk.inj hs
  obtain ⟨d, hd, ha⟩ := mem_deliveredAt.mp (h1 ▸ List.mem_singleton_self ['a'])
  obtain ⟨d', hd', hb⟩ := mem_deliveredAt.mp (h2 ▸ List.mem_singleton_self ['b'])
  have hsame := (H ⟨4, 1, 4⟩ {4} (by decide) (by decide) (by decide) _ _ hrun).1
    1 (by decide) 2 (by decide) d hd d' hd'
  rw [ha, hb] at hsame
  exact absurd hsame (by decide)

section Integrity

variable {config : BrbConfig} {byz : Finset ℤ} {evs : List (Event (ℤ → Bool) CString CString)}
  {s : BrbState}

theorem echoCause_of_sent {guard : BrbState → Event (ℤ → Bool) CString CString → Prop}
    (h : Run (brbSystem id config byz) guard evs s) {p : ℤ} {m : CString}
    (hm : SentCode s p ECHO_CODE m) : EchoCause (s.proc p) m := by
  obtain ⟨d, P, hP, hpm⟩ := hm.mem_codeSends
  rcases (brb_local_of_run h p).echo_round with ⟨-, hn⟩ | ⟨-, r, b, hb, hs⟩
  · rw [hn] at hP; cases hP
  · rw [hs] at hP
    obtain rfl := send_mem_sendLoop hP
    obtain ⟨P', hP', hb'⟩ := hb
    have hcar : P'.length + 3 < MAX_MSG_LEN := length_of_carried (receive_inv h hP').carried
    have hlen := tryParseMessage_length hb'
    have hcode : ECHO_CODE.length = 2 := rfl
    have hD : DELIM_LEN = 1 := rfl
    have hS : SEND_CODE.length = 2 := rfl
    obtain rfl : b = m := by
      rw [payload_of_length (by omega), tryParseMessage_eq_some] at hpm
      exact hpm.2.symm
    exact ⟨P', hP', hb'⟩

theorem call_of_echoCause {guard : BrbState → Event (ℤ → Bool) CString CString → Prop}
    (h : Run (brbSystem id config byz) guard evs s) (hsnd : config.senderRank ∉ byz) {p : ℤ}
    {m : CString} (hc : EchoCause (s.proc p) m) : .call m ∈ (s.proc config.senderRank).inputs := by
  obtain ⟨P, hP, hm⟩ := hc
  rw [(brb_local_of_run h p).senderRank] at hP
  have hsrc := receive_inv h hP
  obtain ⟨d, hd⟩ := said_iff.mp (hsrc.said.resolve_left hsnd)
  obtain ⟨m', hcall, rfl⟩ := (brb_local_of_run h config.senderRank).send_call d P
    (mem_codeSends.mpr ⟨hd, by simp [hm]⟩)
  have hcar : (payload SEND_CODE m').length + 3 < MAX_MSG_LEN := length_of_carried hsrc.carried
  rw [payload_of_length (length_of_payload (by omega)), tryParseMessage_eq_some] at hm
  obtain rfl : m = m' := hm.2
  exact hcall

/-- More than `max_faulty_nodes` peers have sent ECHO for a certified body, one of them
is correct. -/
theorem Certified.exists_echo (hf : 3 * config.maxFaultyNodes < config.maxRank)
    (hbyz : byz.card ≤ config.maxFaultyNodes) {m : CString} (h : Certified config byz s m) :
    ∃ x ∈ peers config.maxRank \ byz, SentCode s x ECHO_CODE m := by
  obtain ⟨Q, hQ, hc, hs⟩ := h
  obtain ⟨x, hx, hxb⟩ := Quorum.exists_good hbyz ((maxFaulty_le_quorum hf).trans_lt hc)
  exact ⟨x, Finset.mem_sdiff.mpr ⟨hQ hx, hxb⟩, hs x hx hxb⟩

theorem brb_integrity (hf : 3 * config.maxFaultyNodes < config.maxRank)
    (hbyz : byz.card ≤ config.maxFaultyNodes) (hsnd : config.senderRank ∉ byz)
    (h : Run (brbSystem id config byz) ScanComplete evs s) : Integrity config byz s := by
  refine ⟨fun p _ d hd => ?_, fun p _ m hm => ?_⟩
  · obtain ⟨x, -, hx⟩ := (certified_of_indication (fun _ _ h => h) hbyz h hd).exists_echo hf hbyz
    exact call_of_echoCause h hsnd (echoCause_of_sent h hx)
  · exact (certified_of_ready (fun _ _ h => h) hbyz h hm).exists_echo hf hbyz

end Integrity

theorem plainRun_integrity : ∃ s, Run (brbSystem id ⟨1, 1, 4⟩ {4}) ScanComplete
    (plainRun fun _ => true) s ∧ deliveredAt s 3 = [['a']] ∧ Integrity ⟨1, 1, 4⟩ {4} s := by
  obtain ⟨s, hrun, hs⟩ : ∃ s, Run (brbSystem id ⟨1, 1, 4⟩ {4}) ScanComplete
      (plainRun fun _ => true) s ∧ deliveredAt s 3 = [['a']] :=
    exists_run_of_exec (deliveredAt · 3) (by decide +kernel)
  exact ⟨s, hrun, hs, brb_integrity (by decide) (by decide) (by decide) hrun⟩

/-- Two READYs of peer 4 make peer 1 send its own and deliver what nobody broadcast. -/
def inventedRun : List (Event (ℤ → Bool) CString CString) :=
  let up : ℤ → Bool := fun _ => true
  [forged up 1 4 READY_CODE ['a'], forged up 1 4 READY_CODE ['a'], got up 1 1 READY_CODE ['a']]

theorem brb_invents : ¬ ∀ (config : BrbConfig) (byz : Finset ℤ),
    3 * config.maxFaultyNodes < config.maxRank → 1 ≤ config.maxFaultyNodes →
    byz ⊆ peers config.maxRank → byz.card ≤ config.maxFaultyNodes →
    config.senderRank ∈ peers config.maxRank \ byz → ∀ evs s,
    Run (brbSystem id config byz) (fun _ _ => True) evs s → Integrity config byz s := by
  intro H
  obtain ⟨s, hrun, hs⟩ : ∃ s, Run (brbSystem id ⟨1, 1, 4⟩ {4}) (fun _ _ => True) inventedRun s ∧
      (deliveredAt s 1, calls (s.proc 1).inputs) = ([['a']], []) :=
    exists_run_of_exec (fun s => (deliveredAt s 1, calls (s.proc 1).inputs)) (by decide +kernel)
  obtain ⟨h1, h2⟩ := Prod.mk.inj hs
  obtain ⟨d, hd, -⟩ := mem_deliveredAt.mp (h1 ▸ List.mem_singleton_self ['a'])
  have hcall := (H ⟨1, 1, 4⟩ {4} (by decide) (by decide) (by decide) (by decide) (by decide) _ _
    hrun).1 1 (by decide) d hd
  rw [← mem_calls, h2] at hcall
  cases hcall

end DSA
