import DistributedAbstractions.Proofs.RbLocal

/-! Runs of the lazy broadcast with fresh uuids, where what is new of a reported peer comes
to the processes of `A` from `A`. Every run is one for the empty `A`. -/

namespace DSA

open CLib Net Trans

variable {N : ℕ} {A : Finset ℤ} {evs : List RbEvent} {s : RbState}

theorem relayable_empty (s : RbState) (e : RbEvent) : Relayable ∅ s e := by
  cases e with
  | crash p => trivial
  | act p r a stop =>
    cases a with
    | deliver q M => exact fun hp => (Finset.notMem_empty p hp).elim
    | call i => trivial
    | forge q M => trivial

theorem mem_rbBroadcasts {is : List (Input RbRequest CString)} {e : Broadcast} :
    e ∈ broadcasts RbRequest.broadcast? is ↔ .call (.broadcast e) ∈ is := by
  refine mem_broadcasts.trans ⟨?_, fun h => ⟨_, h, rfl⟩⟩
  rintro ⟨i, hi, he⟩
  cases i with
  | broadcast e' => cases he; exact hi
  | crashed o => cases he

theorem late_of_relayable {p q : ℤ} {M : CString} {a : Arrival RbRequest CString} {r : Unit}
    {stop : Option ℕ} (hi : a.input = .receive q M) (ha : (crashSetting N).admits s p a = true)
    (hg : Relayable A s (.act p r a stop)) (hN : (s.proc p).state.maxRank = N) :
    p ∈ A → q ∉ A → ∀ f, openFrame N M = some f → f.originalSender ≠ p →
      .call (.crashed f.originalSender) ∈ (s.proc p).inputs →
      isMessageDuplicate (s.proc p).state f = true := by
  intro hp hq f hf ho hcr
  obtain ⟨rfl, -⟩ := deliver_of_admits ha hi
  exact hg hp hq f (by rw [hN]; exact hf) ho (by simpa [notified] using hcr)

theorem rb_run (h : Run (rbSystem N) (fun s e => FreshIds RbRequest.broadcast? N s e ∧ Relayable A s e) evs s) :
    (∀ p, ∃ l, RbLocal N A p l ∧ Shadow (s.proc p) l) ∧ AllOriginal RbRequest.broadcast? N s := by
  refine h.state_invariant (I := fun s => (∀ p, ∃ l, RbLocal N A p l ∧ Shadow (s.proc p) l) ∧
    AllOriginal RbRequest.broadcast? N s)
    ⟨local_start fun _ => rbLocal_init, fun _ _ _ hM => by cases hM⟩ ?_
  intro evs s e s' hr ⟨hloc, horig⟩ hok hn
  have hfresh : ∀ s e, FreshIds RbRequest.broadcast? N s e ∧ Relayable A s e →
    FreshIds RbRequest.broadcast? N s e := fun _ _ h => h.1
  have hloc' : ∀ p, ∃ l, RbLocal N A p l ∧ Shadow (s'.proc p) l := by
    refine local_next hn hloc fun p r a stop he _ ha ih => ?_
    subst he
    cases hi : a.input with
    | call i =>
      cases i with
      | broadcast e => exact ih.broadcast e
      | crashed o => exact ih.crashed o
    | receive q M =>
      refine ih.receive (fun f hf => ?_) (late_of_relayable hi ha hok.2 ih.maxRank)
      exact (isUuid_of_sourced hfresh hr horig (sourced_of_admits hr ha hi) hf).1
  refine ⟨hloc', allOriginal_next hfresh hr hok hn horig fun p => ?_⟩
  obtain ⟨l, hl, hsh⟩ := hloc' p
  exact hl.forwards.shadow hsh

section

variable (h : Run (rbSystem N) (fun s e => FreshIds RbRequest.broadcast? N s e ∧ Relayable A s e) evs s)
include h

theorem rb_frame_unique {p x p' x' : ℤ} {M M' : CString} {f f' : Fields}
    (hM : .receive x M ∈ (s.proc p).inputs) (hf : openFrame N M = some f)
    (hM' : .receive x' M' ∈ (s.proc p').inputs) (hf' : openFrame N M' = some f')
    (hid : f.originalId = f'.originalId) : f = f' :=
  frame_unique (fun _ _ h => h.1) h (rb_run h).2 hM hf hM' hf' hid

theorem rb_local_of_uncrashed {p : ℤ} (hp : p ∈ uncrashed N s) : RbLocal N A p (s.proc p) := by
  obtain ⟨l, hl, hsh⟩ := (rb_run h).1 p
  exact hsh.2.2 (mem_uncrashed.mp hp).2 ▸ hl

theorem said_of_opened {p x : ℤ} {M : CString} {f : Fields}
    (hM : .receive x M ∈ (s.proc p).inputs) (hf : openFrame N M = some f) :
    (∃ d, .send d (bcFrame f) ∈ (s.proc x).effects) ∧ openFrame N (bcFrame f) = some f ∧
      ∃ e, .call (.broadcast e) ∈ (s.proc f.originalSender).inputs ∧
        f = originalFrame f.originalSender e := by
  obtain ⟨hs, o, e, he, hMe, hopen⟩ := original_of_sourced (rb_run h).2 (receive_inv h hM)
  obtain rfl := Option.some.inj (hf.symm.trans hopen)
  exact ⟨hMe ▸ hs, hMe ▸ hopen, e, mem_rbBroadcasts.mp he, rfl⟩

end

end DSA
