import DistributedAbstractions.Proofs.BroadcastStack
import DistributedAbstractions.Proofs.StackDelivery
import DistributedAbstractions.Proofs.UrbIntegrity

/-! Uniform reliable broadcast over channels that lose datagrams: a frame that one process which stays up
has sent to anybody comes to all of them from all of them, and they are a majority. -/

namespace DSA

open CLib Filter Inbox Net Trans

/-- The frame of a delivery. -/
def Indication.fields (d : Indication) : Fields := ⟨d.deliver.sender, d.id, d.deliver.msg⟩

section Net

variable {n : ℕ} {evs : List (Event Unit Broadcast CString)} {t : UrbState}
  (h : Run (urbSystem n) (FreshIds some n) evs t)
include h

theorem asked_of_delivered {p : ℤ} {d : Indication} (hd : d ∈ indications (t.proc p).effects) :
    .call ⟨d.deliver.msg, d.id⟩ ∈ (t.proc d.deliver.sender).inputs := by
  obtain ⟨l, hl, hin, heff, -⟩ := urb_table h p
  obtain ⟨⟨x, M, hM, hf⟩, -⟩ := hl.indicated d (heff.subset (mem_indications.mp hd))
  obtain ⟨-, o, e, he, -, hopen⟩ := urb_original h (hin ▸ hM)
  have hsame : d.fields = originalFrame o e := Option.some.inj (hf.symm.trans hopen)
  simp only [Indication.fields, originalFrame, Fields.mk.injEq] at hsame
  obtain ⟨rfl, hid, hmsg⟩ := hsame
  rw [hid, hmsg]
  exact he

variable {A : Finset ℤ} (hA : A ⊆ peers n) (hcard : n / 2 + 1 ≤ A.card)
include hA hcard

theorem delivered_of_frames {q : ℤ} (hq : q ∈ uncrashed n t) {d : Indication}
    (hopen : openFrame n (bcFrame d.fields) = some d.fields)
    (hall : ∀ y ∈ A, .receive y (bcFrame d.fields) ∈ (t.proc q).inputs) : d ∈ indications (t.proc q).effects := by
  have ht := urb_table_of_uncrashed h hq
  have hheard : ∀ y ∈ A, Heard n (t.proc q).inputs d.id y := fun y hy => ⟨_, _, hall y hy, hopen, rfl⟩
  obtain ⟨x, hx⟩ := Finset.card_pos.mp (Nat.lt_of_lt_of_le (Nat.succ_pos _) hcard)
  obtain ⟨m, hm, hid⟩ := ht.known d.id x (hheard x hx)
  have hok := ht.saved m hm
  have hdue : shouldDeliver (t.proc q).state m = true := by
    rw [shouldDeliver_iff, ht.maxRank_eq]
    refine hcard.trans (Finset.card_le_card fun y hy => ?_)
    exact Finset.mem_filter.mpr ⟨hA hy, (hok.tallied y).mpr (hid ▸ hheard y hy)⟩
  obtain ⟨d', hd', hid'⟩ := hok.delivered (hok.due hdue)
  obtain ⟨⟨x', M, hM, hf⟩, -⟩ := ht.indicated d' hd'
  have hsame : d'.fields = d.fields := urb_frame_unique h hM hf (hall x hx) hopen (hid'.trans hid)
  obtain ⟨id, msg, sender⟩ := d
  obtain ⟨id', msg', sender'⟩ := d'
  simp only [Indication.fields, Fields.mk.injEq] at hsame
  obtain ⟨rfl, rfl, rfl⟩ := hsame
  exact mem_indications.mpr hd'

theorem sent_of_delivered {p : ℤ} {d : Indication} (hd : d ∈ indications (t.proc p).effects) :
    openFrame n (bcFrame d.fields) = some d.fields ∧
      ∃ x ∈ A, ∃ y, .send y (bcFrame d.fields) ∈ (t.proc x).effects := by
  obtain ⟨l, hl, hin, heff, -⟩ := urb_table h p
  obtain ⟨⟨x₀, M₀, hM₀, hf₀⟩, m, hm, hmid, hdue⟩ := hl.indicated d (heff.subset (mem_indications.mp hd))
  rw [shouldDeliver_iff, hl.maxRank_eq] at hdue
  obtain ⟨x, hxQ, hxA⟩ := Quorum.exists_mem_inter (Finset.filter_subset _ (peers n)) hA
    (by rw [card_peers]; omega : (peers n).card < ((peers n).filter fun x => m.acks (x - 1) = true).card + A.card)
  obtain ⟨M, f, hM, hf, hfid⟩ := ((hl.saved m hm).tallied x).mp (Finset.mem_filter.mp hxQ).2
  rw [← hin] at hM₀ hM
  obtain rfl : f = d.fields := urb_frame_unique h hM hf hM₀ hf₀ (hfid.trans hmid)
  obtain ⟨⟨y, hsent⟩, o, e, -, hMe, hopen⟩ := urb_original h hM
  rw [Option.some.inj (hopen.symm.trans hf)] at hMe
  subst hMe
  exact ⟨hf, x, hxA, y, hsent⟩

end Net

section Path

variable {w : Socket} {n : ℕ} {A : Finset ℤ} {π : Path (urbStack w n) (UrbStackFair n)} (hn : n ≤ INT_MAX)
include hn

/-- The run with what is known of all that is sent. -/
theorem urb_fits {evs : List (StackEvent Unit Broadcast)} {s s' : UrbStack} {e : StackEvent Unit Broadcast}
    (hr : Run (urbStack w n) (StackFair (urbProtocol n) (SendsAsked some n) Fitting) evs s)
    (hok : UrbStackFair n s e) (hnext : stackNext (urbProtocol n) w n s e = some s') :
    StackFair (urbProtocol n) (SendsAsked some n) Fitting s e :=
  fitting_step hn byProc_sendsAsked (fun _ _ h => h)
    (fun _ _ h => urb_allOriginal (h.weaken fun _ _ hok => hok.1)) hr hok hnext

theorem path_urb (i : ℕ) : ∃ evs t, Run (urbSystem n) (FreshIds some n) evs t ∧ t.proc = (π.state i).proc := by
  obtain ⟨evs, hr⟩ := (π.strengthen fun _ _ _ _ => urb_fits hn).exists_run i
  obtain ⟨evs', t, ht, hshow⟩ := (stack_simulation hn byProc_sendsAsked).run hr
  exact ⟨evs', t, ht.weaken fun _ _ hok => hok.1, hshow.proc_eq⟩

theorem path_sendable {i : ℕ} {p : ℤ} {e : Broadcast} (he : .call e ∈ ((π.state i).proc p).inputs) :
    Sendable n p e := by
  obtain ⟨evs, hr⟩ := (π.strengthen fun _ _ _ _ => urb_fits hn).exists_run i
  obtain ⟨evs', t, ht, hshow⟩ := (stack_simulation hn byProc_sendsAsked).run hr
  have he' : .call e ∈ (t.proc p).inputs := by
    rw [hshow.proc_eq]
    exact he
  exact sendable_of_run (fun _ _ h => h) ht (mem_broadcasts_some.mpr he')

variable (hlive : StackLive A π)
include hlive

theorem frame_arrives {p q : ℤ} (hp : p ∈ A) (hq : q ∈ A) {m : CString} {i : ℕ}
    (hsent : .send q m ∈ ((π.state i).proc p).effects) :
    ∀ᶠ j in atTop, .receive p m ∈ ((π.state j).proc q).inputs := by
  have hlive' : StackLive A (π.strengthen fun _ _ _ _ => urb_fits hn) :=
    ⟨hlive.ranks, hlive.up, hlive.timer, hlive.channel, hlive.distinct⟩
  filter_upwards [count_received hn hlive' byProc_sendsAsked hp hq m i] with j hj
  exact List.count_pos_iff.mp ((List.count_pos_iff.mpr hsent).trans_le hj)

omit hn in
theorem mem_uncrashed_of_live_path {t : UrbState} {i : ℕ} (ht : t.proc = (π.state i).proc) {p : ℤ} (hp : p ∈ A) :
    p ∈ uncrashed n t :=
  mem_uncrashed.mpr ⟨hlive.ranks hp, ht ▸ hlive.up i p hp⟩

theorem spreads {x : ℤ} (hx : x ∈ A) {d : ℤ} {f : Fields} (hopen : openFrame n (bcFrame f) = some f) {i : ℕ}
    (hsent : .send d (bcFrame f) ∈ ((π.state i).proc x).effects) :
    ∀ᶠ j in atTop, ∀ q ∈ A, ∀ y ∈ A, .receive y (bcFrame f) ∈ ((π.state j).proc q).inputs := by
  have hfirst : ∀ᶠ j in atTop, ∀ y ∈ A, .receive x (bcFrame f) ∈ ((π.state j).proc y).inputs := by
    refine (eventually_all_finset A).mpr fun y hy => ?_
    obtain ⟨evs, t, ht, hproc⟩ := path_urb (π := π) hn i
    have hall := sent_all ht (mem_uncrashed_of_live_path hlive hproc hx) (hproc ▸ hsent) (hlive.ranks hy)
    exact frame_arrives hn hlive hx hy (hproc ▸ hall)
  obtain ⟨j, hj⟩ := hfirst.exists
  refine (eventually_all_finset A).mpr fun q hq => (eventually_all_finset A).mpr fun y hy => ?_
  obtain ⟨evs, t, ht, hproc⟩ := path_urb (π := π) hn j
  have hrelayed := relays_all ht (mem_uncrashed_of_live_path hlive hproc hy) (hproc ▸ hj y hy) hopen
    (hlive.ranks hq)
  exact frame_arrives hn hlive hy hq (hproc ▸ hrelayed)

theorem delivered_by_all (hcard : n / 2 + 1 ≤ A.card) {x : ℤ} (hx : x ∈ A) {y : ℤ} {d : Indication}
    (hopen : openFrame n (bcFrame d.fields) = some d.fields) {i : ℕ}
    (hsent : .send y (bcFrame d.fields) ∈ ((π.state i).proc x).effects) :
    ∀ᶠ j in atTop, ∀ q ∈ A, d ∈ indications ((π.state j).proc q).effects := by
  filter_upwards [spreads hn hlive hx hopen hsent] with j hj q hq
  obtain ⟨evs, t, ht, hproc⟩ := path_urb (π := π) hn j
  rw [← hproc]
  exact delivered_of_frames ht hlive.ranks hcard (mem_uncrashed_of_live_path hlive hproc hq) hopen
    (hproc ▸ hj q hq)

theorem urb_correct (hcard : n / 2 + 1 ≤ A.card) : UrbCorrect A π := by
  refine ⟨fun i p hp e he => ?_, fun i p d hd => ?_, fun i p => ?_, fun i p d hd => ?_⟩
  · obtain ⟨hid, -, hcar⟩ := path_sendable (π := π) hn he
    have hopen : openFrame n (bcFrame (originalFrame p e)) = some (originalFrame p e) :=
      openFrame_bcFrame (plCarries_length (hcar p (mem_ranks.mpr (hlive.ranks hp)))) hid.2.1 (hlive.ranks hp)
    obtain ⟨evs, t, ht, hproc⟩ := path_urb (π := π) hn i
    have hsent := (urb_table_of_uncrashed ht (mem_uncrashed_of_live_path hlive hproc hp)).called e
      (hproc ▸ he) p (hlive.ranks hp)
    exact delivered_by_all (d := ⟨e.uuid, ⟨e.msg, p⟩⟩) hn hlive hcard hp hopen (hproc ▸ hsent)
  · obtain ⟨evs, t, ht, hproc⟩ := path_urb (π := π) hn i
    obtain ⟨hopen, x, hx, y, hsent⟩ := sent_of_delivered ht hlive.ranks hcard (hproc ▸ hd)
    exact delivered_by_all hn hlive hcard hx hopen (hproc ▸ hsent)
  · obtain ⟨evs, t, ht, hproc⟩ := path_urb (π := π) hn i
    rw [← hproc]
    exact urb_delivers_once ht p
  · obtain ⟨evs, t, ht, hproc⟩ := path_urb (π := π) hn i
    rw [← hproc] at hd ⊢
    exact asked_of_delivered ht hd

end Path

theorem StackFair.mono {ρ σ ι ω : Type} {P : Protocol ρ σ ι CString ω}
    {ok : State σ ι CString ω → Event ρ ι CString → Prop} {fit fit' : Packet CString → Prop} {s : Stack σ ι ω}
    {e : StackEvent ρ ι} (hfit : ∀ k, fit k → fit' k) (h : StackFair P ok fit s e) : StackFair P ok fit' s e := by
  cases e with
  | call p r i ids stop => exact ⟨h.1, h.2.1, fun k hk => hfit k (h.2.2 k hk)⟩
  | arrive q x r ids stop =>
    refine ⟨h.1, fun e he => ?_⟩
    obtain ⟨hok, hids, hall⟩ := h.2 e he
    exact ⟨hok, hids, fun k hk => hfit k (hall k hk)⟩
  | timeout p stop => exact h
  | crash p => exact h

theorem lastWords_correct : ∃ π : Path (urbStack plainSocket 3) (UrbStackFair 3),
    indications ((π.state 7).proc 2).effects = [⟨uuidOf 'a', ⟨['h', 'i'], 1⟩⟩] ∧
      ((π.state 7).proc 1).crashed = true ∧ UrbCorrect {2, 3} π := by
  obtain ⟨π, hind, hdown, hlive⟩ := exists_lastWords
  exact ⟨π.strengthen fun _ _ _ _ _ hok _ => hok.mono fun _ _ => trivial, hind, hdown,
    urb_correct (by decide) ⟨hlive.ranks, hlive.up, hlive.timer, hlive.channel, hlive.distinct⟩ (by decide)⟩

end DSA
