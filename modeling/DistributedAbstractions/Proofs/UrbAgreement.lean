import DistributedAbstractions.Lib.Quorum
import DistributedAbstractions.Proofs.UrbTable

/-! Uniform agreement of the majority-acknowledged broadcast: a delivery has a majority
of acks, one of them of a process that is left, and what such a process has sent once
it has sent to all. -/

namespace DSA

open CLib Net Trans

theorem card_acks (maxRank : ℕ) (acks : ℤ → Bool) :
    (List.range maxRank).countP (fun i : ℕ => acks i) =
      ((peers maxRank).filter fun x => acks (x - 1) = true).card := by
  have hset : ((ranks maxRank).filter fun x => acks (x - 1)).toFinset =
      (peers maxRank).filter fun x => acks (x - 1) = true := by
    ext x
    rw [List.mem_toFinset, List.mem_filter, mem_ranks, Finset.mem_filter]
  rw [← hset, List.toFinset_card_of_nodup ((ranks_nodup maxRank).filter _),
    ← List.countP_eq_length_filter, ranks, List.countP_map]
  congr 1
  funext i
  simp

theorem shouldDeliver_iff {u : Urb} {m : SavedMessage} : shouldDeliver u m = true ↔
    u.maxRank / 2 + 1 ≤ ((peers u.maxRank).filter fun x => m.acks (x - 1) = true).card := by
  simp only [shouldDeliver, card_acks, ge_iff_le, decide_eq_true_eq]

section

variable {maxRank : ℕ} {evs : List (Event Unit Broadcast CString)} {s : UrbState}
  (h : Run (urbSystem maxRank) (FreshIds some maxRank) evs s)
include h

theorem urb_allOriginal : AllOriginal some maxRank s :=
  allOriginal_of_forwards (fun _ _ h => h) (fun _ _ p h => urb_forwards h p) h

theorem urb_original {p x : ℤ} {M : CString} (hM : .receive x M ∈ (s.proc p).inputs) :
    (∃ d, .send d M ∈ (s.proc x).effects) ∧
      ∃ o e, .call e ∈ (s.proc o).inputs ∧ M = bcFrame (originalFrame o e) ∧
        openFrame maxRank M = some (originalFrame o e) := by
  obtain ⟨hs, o, e, he, hMe, hopen⟩ := original_of_sourced (urb_allOriginal h) (receive_inv h hM)
  exact ⟨hs, o, e, mem_broadcasts_some.mp he, hMe, hopen⟩

theorem urb_frame_unique {p x p' x' : ℤ} {M M' : CString} {f f' : Fields}
    (hM : .receive x M ∈ (s.proc p).inputs) (hf : openFrame maxRank M = some f)
    (hM' : .receive x' M' ∈ (s.proc p').inputs) (hf' : openFrame maxRank M' = some f')
    (hid : f.originalId = f'.originalId) : f = f' :=
  frame_unique (fun _ _ h => h) h (urb_allOriginal h) hM hf hM' hf' hid

theorem urb_table (p : ℤ) : ∃ l, UrbTable maxRank p l ∧ Shadow (s.proc p) l := by
  refine local_invariant (R := UrbTable maxRank) (fun _ => urbTable_init) ?_ h p
  intro evs s p _ a _ hr _ ha _ ih
  cases hi : a.input with
  | call e => exact ih.call e
  | receive q M => exact ih.receive fun f hf => (isUuid_of_sourced (fun _ _ h => h) hr
      (urb_allOriginal hr) (sourced_of_admits hr ha hi) hf).1

theorem urb_table_of_uncrashed {x : ℤ} (hx : x ∈ uncrashed maxRank s) :
    UrbTable maxRank x (s.proc x) := by
  obtain ⟨l, hl, hsh⟩ := urb_table h x
  exact hsh.2.2 (mem_uncrashed.mp hx).2 ▸ hl

theorem relays_all {x : ℤ} (hx : x ∈ uncrashed maxRank s) {q : ℤ} {M : CString} {f : Fields}
    (hM : .receive q M ∈ (s.proc x).inputs) (hf : openFrame maxRank M = some f) {y : ℤ}
    (hy : y ∈ peers maxRank) : .send y (bcFrame f) ∈ (s.proc x).effects := by
  have ht := urb_table_of_uncrashed h hx
  obtain ⟨m, hm, hid⟩ := ht.known f.originalId q ⟨M, f, hM, hf, rfl⟩
  obtain ⟨q', M', f', hM', hf', hid', hall⟩ := (ht.saved m hm).relayed
  obtain rfl := urb_frame_unique h hM hf hM' hf' (by rw [hid', hid])
  by_cases ho : f.originalSender = x
  · obtain ⟨-, o, e, he, -, hopen⟩ := urb_original h hM
    obtain rfl := Option.some.inj (hf.symm.trans hopen)
    cases ho
    exact ht.called e he y hy
  · exact hall ho y hy

theorem sent_all {x : ℤ} (hx : x ∈ uncrashed maxRank s) {d : ℤ} {P : CString}
    (hP : .send d P ∈ (s.proc x).effects) {y : ℤ} (hy : y ∈ peers maxRank) :
    .send y P ∈ (s.proc x).effects := by
  rcases urb_forwards h x d P hP with ⟨e, he, rfl⟩ | ⟨q, M, f, hM, hf, rfl⟩
  · exact (urb_table_of_uncrashed h hx).called e (mem_broadcasts_some.mp he) y hy
  · exact relays_all h hx hM hf hy

variable {A : Finset ℤ} (hA : A ⊆ uncrashed maxRank s) (hquiet : Quiet s A)
include hA hquiet

theorem received_by_all {x : ℤ} (hx : x ∈ A) {d : ℤ} {f : Fields}
    (hP : .send d (bcFrame f) ∈ (s.proc x).effects) (hf : openFrame maxRank (bcFrame f) = some f)
    {y z : ℤ} (hy : y ∈ A) (hz : z ∈ A) : .receive y (bcFrame f) ∈ (s.proc z).inputs := by
  have hrank : ∀ {w}, w ∈ A → w ∈ peers maxRank := fun hw => (mem_uncrashed.mp (hA hw)).1
  have hyx : .receive x (bcFrame f) ∈ (s.proc y).inputs :=
    receive_of_handled h (handled_of_quiet h hquiet hx hy (sent_all h (hA hx) hP (hrank hy)))
  exact receive_of_handled h
    (handled_of_quiet h hquiet hy hz (relays_all h (hA hy) hyx hf (hrank hz)))

theorem urb_agreement (hcard : maxRank / 2 + 1 ≤ A.card) : UniformAgreement maxRank A s := by
  intro p _ d hd q hq
  -- `d` has a majority of acks at `p`, one of them from a process of `A`
  obtain ⟨l, hl, hin, heff, -⟩ := urb_table h p
  obtain ⟨⟨x₀, M₀, hM₀, hf₀⟩, m, hm, hmid, hdue⟩ := hl.indicated d (heff.subset (mem_indications.mp hd))
  rw [shouldDeliver_iff, hl.maxRank_eq] at hdue
  obtain ⟨x, hxQ, hxA⟩ := Quorum.exists_mem_inter (Finset.filter_subset _ (peers maxRank))
    (fun y hy => (mem_uncrashed.mp (hA hy)).1) (by rw [card_peers]; omega : (peers maxRank).card <
      ((peers maxRank).filter fun x => m.acks (x - 1) = true).card + A.card)
  obtain ⟨M, f, hM, hf, hfid⟩ := ((hl.saved m hm).tallied x).mp (Finset.mem_filter.mp hxQ).2
  rw [← hin] at hM₀ hM
  obtain rfl := urb_frame_unique h hM hf hM₀ hf₀ (hfid.trans hmid)
  obtain ⟨⟨d', hsent⟩, o, e, -, hMe, hopen⟩ := urb_original h hM
  rw [Option.some.inj (hopen.symm.trans hf)] at hMe
  subst hMe
  -- so every process of `A` has the acks of all of `A`
  have hall : ∀ y ∈ A, Heard maxRank (s.proc q).inputs d.id y := fun y hy =>
    ⟨_, _, received_by_all h hA hquiet hxA hsent hf hy hq, hf, rfl⟩
  have ht := urb_table_of_uncrashed h (hA hq)
  obtain ⟨m', hm', hid'⟩ := ht.known d.id q (hall q hq)
  have hok := ht.saved m' hm'
  have hdue' : shouldDeliver (s.proc q).state m' = true := by
    rw [shouldDeliver_iff, ht.maxRank_eq]
    refine hcard.trans (Finset.card_le_card fun y hy => ?_)
    exact Finset.mem_filter.mpr ⟨(mem_uncrashed.mp (hA hy)).1, (hok.tallied y).mpr (hid' ▸ hall y hy)⟩
  obtain ⟨d'', hd'', hid''⟩ := hok.delivered (hok.due hdue')
  obtain ⟨⟨x₁, M₁, hM₁, hf₁⟩, -⟩ := ht.indicated d'' hd''
  have hsame := urb_frame_unique h hM₁ hf₁ hM hf (hid''.trans hid')
  obtain ⟨id, msg, sender⟩ := d
  obtain ⟨id', msg', sender'⟩ := d''
  simp only [Fields.mk.injEq] at hsame
  obtain ⟨rfl, rfl, rfl⟩ := hsame
  exact mem_indications.mpr hd''

end

/-- Process 3 of three delivers and crashes before 1 and 2 have their acks. -/
def majorityRun : List (Event Unit Broadcast CString) :=
  let frame := bcFrame ⟨1, ['u'], ['a']⟩
  let got (p q : ℤ) : Event Unit Broadcast CString := .act p () (.deliver q frame) none
  [.act 1 () (.call ⟨['a'], ['u']⟩) none, got 1 1, got 2 1, got 3 2, got 3 1, .crash 3, got 1 2, got 2 2]

theorem majorityRun_agreement : ∃ s, Run (urbSystem 3) (FreshIds some 3) majorityRun s ∧
    indications (s.proc 3).effects = [⟨['u'], ⟨['a'], 1⟩⟩] ∧ (s.proc 3).crashed = true ∧
    UniformAgreement 3 {1, 2} s := by
  obtain ⟨s, hrun, hs⟩ : ∃ s, Run (urbSystem 3) (FreshIds some 3) majorityRun s ∧
      (indications (s.proc 3).effects, (s.proc 3).crashed,
        decide ({1, 2} ⊆ uncrashed 3 s ∧ Quiet s {1, 2})) = ([⟨['u'], ⟨['a'], 1⟩⟩], true, true) :=
    exists_run_of_exec (fun s => (indications (s.proc 3).effects, (s.proc 3).crashed,
      decide ({1, 2} ⊆ uncrashed 3 s ∧ Quiet s {1, 2}))) (by decide +kernel)
  obtain ⟨h1, hs⟩ := Prod.mk.inj hs
  obtain ⟨h2, h3⟩ := Prod.mk.inj hs
  obtain ⟨hA, hquiet⟩ := of_decide_eq_true h3
  exact ⟨s, hrun, h1, h2, urb_agreement hrun hA hquiet (by decide)⟩

end DSA
