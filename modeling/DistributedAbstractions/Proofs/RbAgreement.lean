import DistributedAbstractions.Proofs.RbRuns

/-! Agreement of the lazy broadcast in runs where nothing new of a reported peer comes
from a peer that crashes, and the run in which such a message is not passed on. -/

namespace DSA

open CLib Net Trans

section

variable {N : ℕ} {A : Finset ℤ} {evs : List RbEvent} {s : RbState}

section

variable (h : Run (rbSystem N) (fun s e => FreshIds RbRequest.broadcast? N s e ∧ Relayable A s e) evs s)
include h

theorem said_by_left (hA : A = uncrashed N s)
    (hnotified : ∀ p ∈ A, ∀ q ∈ peers N \ A, notified s p q = true) {p x : ℤ} {M : CString} {f : Fields}
    (hp : p ∈ A) (hM : .receive x M ∈ (s.proc p).inputs) (hf : openFrame N M = some f) :
    ∃ z ∈ A, ∃ d, .send d (bcFrame f) ∈ (s.proc z).effects := by
  have hlocal : ∀ {q}, q ∈ A → RbLocal N A q (s.proc q) := fun hq =>
    rb_local_of_uncrashed h (hA ▸ hq)
  obtain ⟨-, -, e, he, hfe⟩ := said_of_opened h hM hf
  have ho := (openFrame_eq_some hf).1
  by_cases hoA : f.originalSender ∈ A
  · have hs := (hlocal hoA).called e he _ ho
    rw [← hfe] at hs
    exact ⟨_, hoA, _, hs⟩
  · have hcr : .call (.crashed f.originalSender) ∈ (s.proc p).inputs := by
      simpa [notified] using hnotified p hp _ (Finset.mem_sdiff.mpr ⟨ho, hoA⟩)
    have hl := hlocal hp
    obtain ⟨m, hm, hid⟩ := hl.known x M f hM hf fun hop => hoA (hop ▸ hp)
    obtain ⟨⟨x', M', hM', hf'⟩, -⟩ := hl.saved _ m hm
    have hmf : ⟨f.originalSender, m.id, m.msg⟩ = f := rb_frame_unique h hM' hf' hM hf hid
    have hpp : p ∈ peers N := (mem_uncrashed.mp (hA ▸ hp)).1
    rcases hl.retransmitted hp _ hcr m hm with hall | ⟨z, hz, M'', hM'', hf''⟩
    · exact ⟨p, hp, p, hmf ▸ hall p hpp⟩
    · exact ⟨z, hz, hmf ▸ (said_of_opened h hM'' hf'').1⟩

end

theorem rb_agreement (h : Run (rbSystem N) (fun s e => RbFair N s e ∧ Relayable A s e) evs s)
    (hA : A = uncrashed N s) : RbAgreement N s := by
  replace h : Run (rbSystem N) (fun s e => FreshIds RbRequest.broadcast? N s e ∧ Relayable A s e) evs s :=
    h.weaken fun _ _ hok => ⟨hok.1.1, hok.2⟩
  intro hquiet hnotified
  rw [← hA] at hquiet hnotified ⊢
  have hlocal : ∀ {q}, q ∈ A → RbLocal N A q (s.proc q) := fun hq =>
    rb_local_of_uncrashed h (hA ▸ hq)
  have hrank : ∀ {q}, q ∈ A → q ∈ peers N := fun hq => (mem_uncrashed.mp (hA ▸ hq)).1
  suffices hsub : ∀ p ∈ A, ∀ q ∈ A, ∀ d,
      d ∈ indications (s.proc p).effects → d ∈ indications (s.proc q).effects from
    fun p hp q hq d => ⟨hsub p hp q hq d, hsub q hq p hp d⟩
  rintro p hp q hq ⟨id, ⟨msg, o⟩⟩ hd
  obtain ⟨x, M, hM, hf⟩ := (hlocal hp).indicated _ (mem_indications.mp hd)
  obtain ⟨-, hopen, e, he, hfe⟩ := said_of_opened h hM hf
  have reaches : ∀ {z}, z ∈ A → .send q (bcFrame ⟨o, id, msg⟩) ∈ (s.proc z).effects →
      .receive z (bcFrame ⟨o, id, msg⟩) ∈ (s.proc q).inputs := fun hz hs =>
    receive_of_handled h (handled_of_quiet h hquiet hz hq hs)
  rw [mem_indications]
  by_cases hqo : o = q
  · -- its own message reaches `q` from itself
    have hsend := (hlocal hq).called e (hqo ▸ he) q (hrank hq)
    rw [← hqo, ← hfe] at hsend
    have hown := (hlocal hq).own _ _ (reaches hq (hqo ▸ hsend)) hopen hqo
    rwa [createRbDelivery, show msg.take MAX_MSG_LEN = msg from openFrame_body hopen] at hown
  · obtain ⟨z, hz, d', hs⟩ := said_by_left h hA hnotified hp hM hf
    obtain ⟨m, hm, hid⟩ := (hlocal hq).known z _ _
      (reaches hz ((hlocal hz).to_all d' _ hs q (hrank hq))) hopen hqo
    obtain ⟨⟨x', M', hM', hf'⟩, hdel⟩ := (hlocal hq).saved _ m hm
    have hsame := rb_frame_unique h hM' hf' hM hf hid
    simp only [Fields.mk.injEq] at hsame
    obtain ⟨-, rfl, rfl⟩ := hsame
    exact hdel

end

/-- Process 3 of three is told of the crash of 1 after it has saved 1's message. -/
def relayedRun : List RbEvent :=
  let frame := bcFrame ⟨1, ['u'], ['a']⟩
  let got (p q : ℤ) : RbEvent := .act p () (.deliver q frame) none
  [.act 1 () (.call (.broadcast ⟨['a'], ['u']⟩)) (some 2), got 2 1, .act 2 () (.call (.crashed 1)) none,
   got 3 2, .act 3 () (.call (.crashed 1)) none, got 2 2, got 2 3, got 3 3]

theorem relayedRun_agreement : ∃ s, Run (rbSystem 3)
    (fun s e => RbFair 3 s e ∧ Relayable {2, 3} s e) relayedRun s ∧
    indications (s.proc 3).effects = [⟨['u'], ⟨['a'], 1⟩⟩] ∧ RbAgreement 3 s := by
  obtain ⟨s, hrun, hs⟩ : ∃ s, Run (rbSystem 3)
      (fun s e => RbFair 3 s e ∧ Relayable {2, 3} s e) relayedRun s ∧
      (indications (s.proc 3).effects, decide ({2, 3} = uncrashed 3 s)) =
        ([⟨['u'], ⟨['a'], 1⟩⟩], true) :=
    exists_run_of_exec (fun s => (indications (s.proc 3).effects, decide ({2, 3} = uncrashed 3 s)))
      (by decide +kernel)
  obtain ⟨h1, h2⟩ := Prod.mk.inj hs
  exact ⟨s, hrun, h1, rb_agreement hrun (of_decide_eq_true h2)⟩

/-- Process 3 of three crashes when it has sent its message to 1 only, and 1 delivers it
after it was told of the crash. -/
def lateRun : List RbEvent :=
  [.act 3 () (.call (.broadcast ⟨['a'], ['u']⟩)) (some 1), .act 1 () (.call (.crashed 3)) none,
   .act 2 () (.call (.crashed 3)) none, .act 1 () (.deliver 3 (bcFrame ⟨3, ['u'], ['a']⟩)) none]

theorem rb_leaves_behind :
    ¬ ∀ N evs s, Run (rbSystem N) (RbFair N) evs s → RbAgreement N s := by
  intro H
  obtain ⟨s, hrun, hs⟩ : ∃ s, Run (rbSystem 3) (RbFair 3) lateRun s ∧
      (indications (s.proc 1).effects, indications (s.proc 2).effects,
        decide (uncrashed 3 s = {1, 2} ∧ Quiet s (uncrashed 3 s)),
        decide (notified s 1 3 = true ∧ notified s 2 3 = true)) =
          ([⟨['u'], ⟨['a'], 3⟩⟩], [], true, true) :=
    exists_run_of_exec (fun s => (indications (s.proc 1).effects, indications (s.proc 2).effects,
      decide (uncrashed 3 s = {1, 2} ∧ Quiet s (uncrashed 3 s)),
      decide (notified s 1 3 = true ∧ notified s 2 3 = true))) (by decide +kernel)
  obtain ⟨h1, hs⟩ := Prod.mk.inj hs
  obtain ⟨h2, hs⟩ := Prod.mk.inj hs
  obtain ⟨h3, h4⟩ := Prod.mk.inj hs
  obtain ⟨hU, hquiet⟩ := of_decide_eq_true h3
  obtain ⟨hn1, hn2⟩ := of_decide_eq_true h4
  have hall : ∀ p ∈ uncrashed 3 s, ∀ q ∈ peers 3 \ uncrashed 3 s, notified s p q = true := by
    intro p hp q hq
    rw [hU] at hp hq
    obtain rfl : q = 3 := by simp at hq; omega
    rcases Finset.mem_insert.mp hp with rfl | hp
    · exact hn1
    · rwa [Finset.mem_singleton.mp hp]
  have hsame := (H 3 _ s hrun hquiet hall 1 (by simp [hU]) 2 (by simp [hU])
    ⟨['u'], ⟨['a'], 3⟩⟩).mp (by simp [h1])
  rw [h2] at hsame
  cases hsame

end DSA
