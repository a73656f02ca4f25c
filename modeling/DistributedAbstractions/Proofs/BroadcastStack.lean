import DistributedAbstractions.Proofs.Forwarding
import DistributedAbstractions.Proofs.StackRefinement
import DistributedAbstractions.Spec.BroadcastStack

/-! Broadcasts that only pass on frames of requests fit their stack when the requests do. -/

namespace DSA

open CLib Inbox Net Trans

variable {σ ι ω : Type} {asked : ι → Option Broadcast} {P : Protocol Unit σ ι CString ω} {w : Socket} {n : ℕ}
  {G : State σ ι CString ω → Event Unit ι CString → Prop}

theorem Sendable.fitting {o : ℤ} {e : Broadcast} (h : Sendable n o e) {p d : ℤ} (hp : p ∈ peers n) :
    Fitting ⟨p, d, bcFrame (originalFrame o e)⟩ := by
  obtain ⟨⟨hlen, -, hnul⟩, hmsg, hcar⟩ := h
  have hcar := hcar p (mem_ranks.mpr hp)
  have hshort := plCarries_length hcar
  simp only [bcFrame, snprintf, List.length_take] at hshort
  have hframe : bcFrame (originalFrame o e) =
      BC_CODE ++ ',' :: (fmtInt o ++ ',' :: (e.uuid ++ ',' :: e.msg)) := by
    apply snprintf_of_lt
    simp only [originalFrame] at hshort ⊢
    omega
  have hU : UUID_STR_LEN = 37 := rfl
  have hcomma : NUL ≠ ',' := by decide
  refine ⟨?_, ?_, hcar⟩
  · have hcode : NUL ∉ BC_CODE := by decide
    rw [hframe]
    simp only [List.mem_append, List.mem_cons, not_or]
    exact ⟨hcode, hcomma, nul_notMem_fmtInt o, hcomma, hnul, hcomma, hmsg⟩
  · rw [hframe]
    simp only [List.length_append, List.length_cons, BC_CODE, List.length_nil]
    omega

theorem sendable_of_run (hG : ∀ t e, G t e → SendsAsked asked n t e) {evs : List (Event Unit ι CString)}
    {t : State σ ι CString ω} (h : Run (system P (crashSetting n)) G evs t) {o : ℤ} {e : Broadcast}
    (he : e ∈ broadcasts asked (t.proc o).inputs) : Sendable n o e := by
  revert o e
  refine h.state_invariant (I := fun t => ∀ {o : ℤ} {e : Broadcast}, e ∈ broadcasts asked (t.proc o).inputs →
    Sendable n o e) (fun he => (List.not_mem_nil he).elim) ?_
  intro evs t ev t' _ ih hok hnext o e he
  rcases next_cases hnext with ⟨p, r, a, stop, rfl, -, -, -, rfl⟩ | ⟨p, -, -, -, rfl⟩
  · by_cases hop : o = p
    · subst hop
      obtain ⟨i, hi, ha⟩ := mem_broadcasts.mp he
      rw [act_inputs_self, List.mem_append, List.mem_singleton] at hi
      rcases hi with hi | hi
      · exact ih (mem_broadcasts.mpr ⟨i, hi, ha⟩)
      · cases a with
        | call j =>
          cases hi
          exact (hG _ _ hok).2 e ha
        | deliver src m => cases hi
        | forge src m => cases hi
    · rw [act_proc_ne P t p r a stop hop] at he
      exact ih he
  · exact ih (by simpa using he)

/-- When the guard asks something of requests only, all that is sent fits. -/
theorem fitting_step (hn : n ≤ INT_MAX) (hproc : ByProc G) (hG : ∀ t e, G t e → SendsAsked asked n t e)
    (horig : ∀ evs t, Run (system P (crashSetting n)) G evs t → AllOriginal asked n t)
    {evs : List (StackEvent Unit ι)} {s s' : Stack σ ι ω} {e : StackEvent Unit ι}
    (hr : Run (stackSystem P w n) (StackFair P G Fitting) evs s) (hok : StackFair P G (fun _ => True) s e)
    (hnext : stackNext P w n s e = some s') : StackFair P G Fitting s e := by
  have ht := stack_traffic hn hr
  obtain ⟨evs', t, htrun, hshow⟩ := (stack_simulation hn hproc).run hr
  -- what a handler sends has been sent after the step that it is for the protocol
  have hfits : ∀ {p : ℤ} {r : Unit} {a : Arrival ι CString} {ids : List CString} {stop : Option ℕ},
      s.up n p = true → (crashSetting n).admits t p a = true →
      s.Admits P G (fun _ => True) p r a ids stop → s.Admits P G Fitting p r a ids stop := by
    intro p r a ids stop hp ha hadm
    refine ⟨hadm.1, hadm.2.1, fun k hk => ?_⟩
    have htrun' : Run (system P (crashSetting n)) G (evs' ++ [.act p r a stop]) (t.act P p r a stop) :=
      .snoc htrun (hproc _ _ _ hshow.proc_eq.symm hadm.1) (next_act hp hshow.proc_eq ha)
    obtain ⟨hsrc, hsend⟩ := mem_packets.mp hk
    have hmem : .send k.dst k.msg ∈ ((t.act P p r a stop).proc p).effects := by
      rw [act_effects_self, hshow.proc_eq]
      exact List.mem_append_right _ hsend
    obtain ⟨o, e, he, hmsg, -⟩ := horig _ _ htrun' p k.dst k.msg hmem
    obtain ⟨src, d, m⟩ := k
    obtain rfl : m = _ := hmsg
    obtain rfl : src = p := hsrc
    exact (sendable_of_run hG htrun' he).fitting (up_iff.mp hp).1
  cases e with
  | call p r i ids stop =>
    obtain ⟨hp, -⟩ := Option.ite_none_right_eq_some.mp hnext
    exact hfits hp rfl hok
  | arrive q x r ids stop =>
    obtain ⟨hp, -⟩ := Option.ite_none_right_eq_some.mp hnext
    rw [Bool.and_eq_true, decide_eq_true_eq] at hp
    obtain ⟨c, hc, rfl, hx⟩ := ht.exists_copy hp.2
    refine ⟨hok.1, fun e he => ?_⟩
    have hadm := hok.2 e he
    rw [ht.consume_copy hn hc hx hok.1] at he
    split_ifs at he with hdup
    · cases he
    · obtain rfl := Option.some.inj he
      exact hfits hp.1 (admits_of_new ht hshow hc hdup) hadm
  | timeout p stop => exact hok
  | crash p => exact hok

end DSA
