import DistributedAbstractions.Lib.Quorum
import DistributedAbstractions.Proofs.BleLocal

/-! No round is left without a complaint of a correct application: every complaint of a
correct peer goes back to one, by induction over the run. -/

namespace DSA

open CLib Net Trans

variable {N f : ℕ} {byz : Finset ℤ} {evs : List BleEvent} {s : BleState}

/-- Some correct application has complained in round `r`. -/
def Grounded (N f : ℕ) (byz : Finset ℤ) (evs : List BleEvent) (r : ℤ) : Prop :=
  ∃ q ∈ peers N \ byz, AppComplained (bleSystem N f byz) evs q r

def AllGrounded (N f : ℕ) (byz : Finset ℤ) (evs : List BleEvent) (s : BleState) : Prop :=
  ∀ p d P, .send d P ∈ (s.proc p).effects → ∃ r, P = coFrame r ∧ Grounded N f byz evs r

theorem Grounded.mono {evs' : List BleEvent} (h : evs <+: evs') {r : ℤ}
    (hr : Grounded N f byz evs r) : Grounded N f byz evs' r := by
  obtain ⟨q, hq, pre, t, stop, hpre, ht⟩ := hr
  exact ⟨q, hq, pre, t, stop, hpre.trans h, ht⟩

theorem mem_correct {p : ℤ} : p ∈ peers N \ byz ↔ (aplSetting N byz).correct p = true := by
  rw [Finset.mem_sdiff, mem_peers, correct_iff, rank_iff]
  rfl

theorem correct_of_sourced {p q : ℤ} {P : CString} (h : Sourced (aplSetting N byz) s p q P)
    (hq : q ∉ byz) : q ∈ peers N \ byz :=
  mem_correct.mpr (correct_iff.mpr ⟨h.rank, hq⟩)

theorem sent_of_sourced (hs : AllGrounded N f byz evs s) {p x r : ℤ} {P : CString}
    (h : Sourced (aplSetting N byz) s p x P) (hx : x ∉ byz) (hr : complaint P = some r) :
    SentComplaint s x r ∧ Grounded N f byz evs r := by
  obtain ⟨d, hd⟩ := said_iff.mp (h.said.resolve_left hx)
  obtain ⟨r', rfl, hg⟩ := hs x d P hd
  have hcar : (coFrame r').length + 3 < MAX_MSG_LEN := length_of_carried h.carried
  obtain rfl : r' = r := Option.some.inj ((complaint_coFrame (by omega)).symm.trans hr)
  exact ⟨⟨d, hd⟩, hg⟩

theorem grounded_of_heard (hbyz : byz.card ≤ f) (hs : AllGrounded N f byz evs s) {p r : ℤ}
    {is : List (Input Unit CString)}
    (hsrc : ∀ x P, .receive x P ∈ is → Sourced (aplSetting N byz) s p x P) {Q : Finset ℤ}
    (hQ : f < Q.card) (hheard : ∀ x ∈ Q, HeardComplaint is x r) : Grounded N f byz evs r := by
  obtain ⟨x, hxQ, hx⟩ := Quorum.exists_good hbyz hQ
  obtain ⟨P, hP, hr⟩ := hheard x hxQ
  exact (sent_of_sourced hs (hsrc x P hP) hx hr).2

theorem grounded_of_reaction (hbyz : byz.card ≤ f)
    (h : Run (bleSystem N f byz) (fun _ _ => True) evs s) (hs : AllGrounded N f byz evs s) {p x : ℤ}
    {M : CString} {a : Arrival Unit CString} (ha : (aplSetting N byz).admits s p a = true)
    (hi : a.input = .receive x M) {d : ℤ} {P : CString}
    (hP : .send d P ∈ (bleCallback (s.proc p).state ⟨M, x⟩).2) :
    ∃ r, P = coFrame r ∧ Grounded N f byz evs r := by
  have hsrc : ∀ y K, .receive y K ∈ (s.proc p).inputs ++ [.receive x M] →
      Sourced (aplSetting N byz) s p y K := by
    intro y K hK
    rcases List.mem_append.mp hK with hK | hK
    · exact receive_inv h hK
    · cases List.mem_singleton.mp hK
      exact sourced_of_admits h ha hi
  have hloc := ble_local rfl h p
  obtain ⟨hsend, hM, hne, hlt⟩ := (bleCallback_outcome (s.proc p).state x M).send hP
  obtain ⟨y, -, -, hy⟩ := mem_bleSends.mp hsend
  cases hy
  obtain ⟨Q, hQ, hheard⟩ := hloc.complainers hM hne
  rw [hloc.maxFaultyPeers] at hlt
  exact ⟨_, rfl, grounded_of_heard hbyz hs hsrc (by omega) hheard⟩

theorem ble_grounded (hbyz : byz.card ≤ f)
    (h : Run (bleSystem N f byz) (fun _ _ => True) evs s) : AllGrounded N f byz evs s := by
  refine h.invariant (fun _ _ _ hP => (List.not_mem_nil hP).elim) ?_
  intro evs s e s' hr ih _ hn p d P hP
  have hold : .send d P ∈ (s.proc p).effects →
      ∃ r, P = coFrame r ∧ Grounded N f byz (evs ++ [e]) r := fun hP => by
    obtain ⟨r, hPr, hg⟩ := ih p d P hP
    exact ⟨r, hPr, hg.mono (List.prefix_append _ _)⟩
  rcases next_cases hn with ⟨q, ⟨⟩, a, stop, rfl, hl, ha, -, rfl⟩ | ⟨q, -, -, -, rfl⟩
  swap
  · exact hold (by simpa using hP)
  by_cases hpq : p = q
  swap
  · rw [act_proc_ne _ s q () a stop hpq] at hP
    exact hold hP
  subst hpq
  rw [act_effects_self] at hP
  rcases List.mem_append.mp hP with hP | hP
  · exact hold hP
  have hP := (prefix_of_cut stop _).subset hP
  cases hi : a.input with
  | call i =>
    -- the application itself complains
    rw [hi] at hP
    obtain ⟨y, -, -, hy⟩ := mem_bleSends.mp hP
    cases hy
    obtain rfl : a = .call i := by
      cases a with
      | call j => cases hi; rfl
      | deliver src m => cases hi
      | forge src m => cases hi
    exact ⟨_, rfl, p, mem_correct.mpr (live_iff.mp hl).1, evs, s, stop, List.prefix_refl _, hr, rfl⟩
  | receive x M =>
    rw [hi] at hP
    obtain ⟨r, hPr, hg⟩ := grounded_of_reaction hbyz hr ih ha hi hP
    exact ⟨r, hPr, hg.mono (List.prefix_append _ _)⟩

theorem putsch_resistance (hbyz : byz.card ≤ f)
    (h : Run (bleSystem N f byz) (fun _ _ => True) evs s) :
    PutschResistance (bleSystem N f byz) N f byz evs s := by
  intro p _ r h0 hr
  have hall := ble_grounded hbyz h
  obtain ⟨-, Q, hQ, hheard⟩ := (ble_local rfl h p).left r h0 hr
  refine ⟨⟨Q \ byz, fun x hx => ?_, ?_, fun x hx => ?_⟩,
    grounded_of_heard hbyz hall (fun x P => receive_inv h) (by omega) hheard⟩
  · obtain ⟨hxQ, hxb⟩ := Finset.mem_sdiff.mp hx
    obtain ⟨P, hP, -⟩ := hheard x hxQ
    exact correct_of_sourced (receive_inv h hP) hxb
  · have := Quorum.card_good (Q := Q) hbyz
    omega
  · obtain ⟨hxQ, hxb⟩ := Finset.mem_sdiff.mp hx
    obtain ⟨P, hP, hPr⟩ := hheard x hxQ
    exact (sent_of_sourced hall (receive_inv h hP) hxb hPr).1

/-- A peer handles a complaint of `q` from its link. -/
def heard (p q r : ℤ) : BleEvent := .act p () (.deliver q (coFrame r)) none

def appComplains (p : ℤ) : BleEvent := .act p () (.call ()) none

/-- Peer 4 of four complains with peer 1, and 2 leaves the round on their and 3's complaints. -/
def putschRun : List BleEvent :=
  [appComplains 1, .act 2 () (.forge 4 (coFrame 0)) none, heard 2 1 0, heard 3 1 0, heard 3 2 0,
   heard 2 3 0]

theorem putschRun_grounded : ∃ s, Run (bleSystem 4 1 {4}) (fun _ _ => True) putschRun s ∧
    (s.proc 2).state.round = 1 ∧ PutschResistance (bleSystem 4 1 {4}) 4 1 {4} putschRun s := by
  obtain ⟨s, hrun, hs⟩ : ∃ s, Run (bleSystem 4 1 {4}) (fun _ _ => True) putschRun s ∧
      (s.proc 2).state.round = 1 :=
    exists_run_of_exec (fun s : BleState => (s.proc 2).state.round) (by decide +kernel)
  exact ⟨s, hrun, hs, putsch_resistance (by decide) hrun⟩

end DSA
