import DistributedAbstractions.Proofs.MleLeader
import DistributedAbstractions.Proofs.PfdDetection
import DistributedAbstractions.Proofs.RbHistory
import DistributedAbstractions.Spec.Detection

/-! The perfect failure detector among processes that crash: in runs with long enough periods it reports
those who have crashed and nobody else, and the electors on top of it agree. -/

namespace DSA

open CLib Net Trans

section Pfd

variable {n : ℕ}

/-- What a detector knows of itself. -/
def PfdOwn (n : ℕ) (p : ℤ) (pfd : Pfd) : Prop := pfd.localRank = p ∧ pfd.maxRank = n

theorem heartbeat_mem_loop {pfd : Pfd} {rs : List ℤ} {q : ℤ} (hq : q ∈ rs) (hqp : q ≠ pfd.localRank) :
    (.send q HB_CODE : Effect CString Crash) ∈ Machine.outputs pfdCheckPeer pfd rs := by
  refine Machine.mem_outputs (I := fun t => t.localRank = pfd.localRank) (fun t r ht => ?_) (fun t ht => ?_) hq rfl
  · unfold pfdCheckPeer
    dsimp only
    split_ifs <;> exact ht
  · unfold pfdCheckPeer
    dsimp only
    rw [if_neg (ht.symm ▸ hqp)]
    split_ifs <;> simp

theorem pfd_monitor (n : ℕ) : Monitor (pfdProtocol n) (peers n) HB_CODE IA_CODE IsTimeout (PfdOwn n)
    fun pfd q => q ∈ pfd.alivePeers where
  own_init p := ⟨rfl, rfl⟩
  own_handle p r pfd x h := by
    rcases x with (_ | _) | ⟨q, m⟩
    · exact h
    · obtain ⟨hm, hl⟩ := frame_pfdHandleTimeout pfd
      exact ⟨hl.trans h.1, hm.trans h.2⟩
    · exact h
  seeds p q hq hqp := by simpa [pfdProtocol, pfdInit] using And.intro hq hqp
  asks p r pfd i h hi q hq hqp := by
    obtain rfl := hi
    exact heartbeat_mem_loop (mem_ranks.mpr (h.2.symm ▸ hq)) (h.1.symm ▸ hqp)
  answers r pfd q := by
    have hhb : (tryParseMessage HB_CODE HB_CODE).isSome = true := by decide
    simp [pfdProtocol, pfdCallback, fdCallback, hhb]
  hears r pfd q := by
    have hia : (tryParseMessage IA_CODE IA_CODE).isSome = true := by decide
    exact (mem_fdCallback (ω := Crash)).mpr (.inr ⟨hia, rfl⟩)
  keeps r pfd x q hx h := by
    rcases x with (_ | _) | ⟨p, m⟩
    · exact h
    · exact absurd rfl (hx .timeout rfl)
    · exact (mem_fdCallback (ω := Crash)).mpr (.inl h)
  clears r pfd i q hi := by
    obtain rfl := hi
    exact List.not_mem_nil
  hears_only r pfd x q h := by
    rcases x with (_ | _) | ⟨p, m⟩
    · exact .inl h
    · exact absurd h List.not_mem_nil
    · exact ((mem_fdCallback (ω := Crash)).mp h).imp_right fun hp => ⟨m, by rw [← hp.2]⟩

theorem mem_reports {pfd : Pfd} {q : ℤ} : .indicate ⟨q⟩ ∈ (pfdHandleTimeout pfd).2 ↔
    q ∈ peers pfd.maxRank ∧ q ≠ pfd.localRank ∧ q ∉ pfd.alivePeers ∧ q ∉ pfd.faultyPeers := by
  rw [← mem_indications]
  change _ ∈ indications (Machine.outputs pfdCheckPeer pfd (ranks pfd.maxRank)) ↔ _
  rw [(pfdLoop_eq pfd (ranks pfd.maxRank) (ranks_nodup _)).2]
  simp [isSilent, and_assoc]

theorem mem_faultyPeers_handle {pfd : Pfd} {x : Input FdCall CString} {q : ℤ} :
    q ∈ ((pfdProtocol n).handle () pfd x).1.faultyPeers ↔ q ∈ pfd.faultyPeers ∨
      x = .call .timeout ∧ q ∈ peers pfd.maxRank ∧ q ≠ pfd.localRank ∧ q ∉ pfd.alivePeers := by
  match x with
  | .call .start => simp [pfdProtocol]
  | .receive p m => simp [pfdProtocol, pfdCallback]
  | .call .timeout =>
    change q ∈ (Machine.state pfdCheckPeer pfd (ranks pfd.maxRank)).faultyPeers ↔ _
    rw [(pfdLoop_eq pfd (ranks pfd.maxRank) (ranks_nodup _)).1, List.mem_append, List.mem_filter, mem_ranks]
    by_cases hf : q ∈ pfd.faultyPeers
    · simp [hf]
    · simp [isSilent, hf]

section Hosted

variable {σ' ι' μ' ω' : Type} [DecidableEq μ'] {P' : Protocol Unit σ' ι' μ' ω'} {F : Setting μ'} {proj : σ' → Pfd}
  {inp : Input ι' μ' → Option (Input FdCall CString)} {wrap : CString → μ'} {tick : ι' → Prop}
  {ok : State σ' ι' μ' ω' → Event Unit ι' μ' → Prop} {evs : List (Event Unit ι' μ')} {s : State σ' ι' μ' ω'}
  (hH : Hosts P' (pfdProtocol n) proj inp wrap)
  (htick : ∀ i', tick i' ↔ ∃ i, inp (.call i') = some (.call i) ∧ IsTimeout i)
include hH htick

omit [DecidableEq μ'] in
theorem monitor_of_hosts : Monitor P' (peers n) (wrap HB_CODE) (wrap IA_CODE) tick
    (fun p s => PfdOwn n p (proj s)) fun s q => q ∈ (proj s).alivePeers :=
  (pfd_monitor n).host hH htick

omit [DecidableEq μ'] in
/-- The host holds for faulty whom it held so before, and at the end of a period whom it has not heard. -/
theorem mem_faultyPeers_of_hosts {p : ℤ} {st : σ'} {x : Input ι' μ'} {q : ℤ} (hown : PfdOwn n p (proj st)) :
    q ∈ (proj (P'.handle () st x).1).faultyPeers ↔ q ∈ (proj st).faultyPeers ∨
      (∃ i, x = .call i ∧ tick i) ∧ q ∈ peers n ∧ q ≠ p ∧ q ∉ (proj st).alivePeers := by
  have hcall : (∃ i, x = .call i ∧ tick i) ↔ inp x = some (.call .timeout) := by
    constructor
    · rintro ⟨i, rfl, hi⟩
      obtain ⟨j, hj, rfl⟩ := (htick i).mp hi
      exact hj
    · intro hx
      obtain ⟨i, rfl⟩ := hH.called x _ hx
      exact ⟨i, rfl, (htick i).mpr ⟨_, hx, rfl⟩⟩
  rw [hcall]
  cases hx : inp x with
  | none => simp [hH.idle () st x hx]
  | some y =>
    rw [hH.runs () st x y hx, mem_faultyPeers_handle, hown.1, hown.2, Option.some.injEq]

theorem crashed_of_faulty (h : Run (system P' F) ok evs s)
    (hprompt : ∀ s e, ok s e → Prompt (peers n) (wrap HB_CODE) (wrap IA_CODE) tick s e) {p q : ℤ}
    (hq : q ∈ (proj (s.proc p).state).faultyPeers) : (s.proc q).crashed = true := by
  revert p q
  refine h.state_invariant (I := fun s => ∀ {p q : ℤ}, q ∈ (proj (s.proc p).state).faultyPeers →
    (s.proc q).crashed = true) (fun {p q} h => ?_) ?_
  · change q ∈ (proj (P'.init p)).faultyPeers at h
    rw [hH.init] at h
    cases h
  intro evs s e s' hr ih hok hn p q hq
  have hstays : (s.proc q).crashed = true → (s'.proc q).crashed = true := fun hc => by
    rw [(grows_next hn).crashed q hc]
    exact hc
  rcases next_cases hn with ⟨x, r, a, stop, rfl, hlive, -, -, rfl⟩ | ⟨x, -, -, -, rfl⟩
  · by_cases hp : p = x
    · subst hp
      have hM := monitor_of_hosts hH htick
      rw [act_state_self, mem_faultyPeers_of_hosts hH htick (hM.own_of_run hr p)] at hq
      rcases hq with hq | ⟨⟨i, hi, htick⟩, hrank, hne, hnot⟩
      · exact hstays (ih hq)
      · cases a with
        | deliver src m => cases hi
        | forge src m => cases hi
        | call j =>
          obtain rfl := Input.call.inj hi
          exact hstays (hM.crashed_of_not_alive hr htick (hprompt _ _ hok) hne hrank (live_iff.mp hlive).2 hnot)
    · rw [act_proc_ne _ _ _ _ _ _ hp] at hq
      exact hstays (ih hq)
  · rw [crash_state] at hq
    exact hstays (ih hq)

theorem faulty_of_silent [DecidablePred tick] (hbyz : F.byz = ∅) (hrep : F.replays = false)
    {pre post : List (Event Unit ι' μ')} {s₀ : State σ' ι' μ' ω'} {p q : ℤ} (h₀ : Run (system P' F) ok pre s₀)
    (h : Run (system P' F) ok (pre ++ post) s) (hq : q ∈ peers n) (hpq : q ≠ p) (hsilent : Silent s₀ p q)
    (htwo : 2 ≤ post.countP (EndsPeriod tick p)) : q ∈ (proj (s.proc p).state).faultyPeers := by
  have hM := monitor_of_hosts hH htick
  refine (h₀.segment (J := fun post s => Run (system P' F) ok (pre ++ post) s ∧
    (2 ≤ post.countP (EndsPeriod tick p) → q ∈ (proj (s.proc p).state).faultyPeers))
    ⟨by simpa using h₀, fun htwo => by simp at htwo⟩ ?_ h).2 htwo
  rintro post s e s' hr ⟨hrun, ih⟩ hok hn
  refine ⟨?_, fun htwo => ?_⟩
  · rw [← List.append_assoc]
    exact hrun.snoc hok hn
  rw [countP_snoc] at htwo
  rcases next_cases hn with ⟨x, r, a, stop, rfl, -, -, -, rfl⟩ | ⟨x, rfl, -, -, rfl⟩
  · by_cases hp : p = x
    · subst hp
      rw [act_state_self, mem_faultyPeers_of_hosts hH htick (hM.own_of_run hrun p)]
      by_cases hends : EndsPeriod tick p (.act p r a stop : Event Unit ι' μ') = true
      · obtain ⟨r', i, he, hi⟩ := endsPeriod_iff.mp hends
        obtain ⟨-, -, rfl, -⟩ := (Event.act.injEq ..).mp he
        refine .inr ⟨⟨i, rfl, hi⟩, hq, hpq, (hM.forgotten hbyz hrep h₀ hsilent hrun).2 ?_⟩
        rw [if_pos hends] at htwo
        omega
      · rw [if_neg hends] at htwo
        exact .inl (ih htwo)
    · rw [act_proc_ne _ _ _ _ _ _ hp]
      refine ih ?_
      rwa [if_neg fun hends => hp ?_] at htwo
      obtain ⟨r', i, he, -⟩ := endsPeriod_iff.mp hends
      exact ((Event.act.injEq ..).mp he).1.symm
  · rw [crash_state]
    exact ih (by simpa [EndsPeriod] using htwo)

end Hosted

section

variable {ok : PfdState → Event Unit FdCall CString → Prop} {evs : List (Event Unit FdCall CString)} {s : PfdState}

theorem faultyPeers_pfdHandleTimeout (pfd : Pfd) : (pfdHandleTimeout pfd).1.faultyPeers.map Crash.mk =
    pfd.faultyPeers.map Crash.mk ++ indications (pfdHandleTimeout pfd).2 := by
  obtain ⟨hstate, hout⟩ := pfdLoop_eq pfd (ranks pfd.maxRank) (ranks_nodup _)
  change (Machine.state pfdCheckPeer pfd _).faultyPeers.map Crash.mk =
    _ ++ indications (Machine.outputs pfdCheckPeer pfd _)
  rw [hstate, hout, List.map_append]

theorem indications_pfdStart (pfd : Pfd) : indications (pfdStart pfd) = [] :=
  indications_eq_nil fun o ho => by
    obtain ⟨q, -, hq⟩ := List.mem_map.mp ho
    cases hq

theorem indications_pfdCallback (pfd : Pfd) (e : Deliver) : indications (pfdCallback pfd e).2 = [] :=
  indications_eq_nil fun _ => indicate_notMem_fdCallback

theorem faultyPeers_handle (pfd : Pfd) (x : Input FdCall CString) :
    ((pfdProtocol n).handle () pfd x).1.faultyPeers.map Crash.mk =
      pfd.faultyPeers.map Crash.mk ++ indications ((pfdProtocol n).handle () pfd x).2 := by
  match x with
  | .call .start => exact (List.append_nil _).symm.trans (congrArg _ (indications_pfdStart pfd).symm)
  | .call .timeout => exact faultyPeers_pfdHandleTimeout pfd
  | .receive q m => exact (List.append_nil _).symm.trans (congrArg _ (indications_pfdCallback pfd ⟨m, q⟩).symm)

theorem faulty_of_reported (h : Run (pfdSystem n) ok evs s) {p : ℤ} {crash : Crash}
    (hc : crash ∈ indications (s.proc p).effects) : crash ∈ (s.proc p).state.faultyPeers.map Crash.mk := by
  revert p crash
  refine h.state_invariant (I := fun s => ∀ {p crash}, crash ∈ indications (s.proc p).effects →
    crash ∈ (s.proc p).state.faultyPeers.map Crash.mk) (fun h => by cases h) ?_
  intro evs s e s' _ ih _ hn p crash hc
  rcases next_cases hn with ⟨x, r, a, stop, -, -, -, -, rfl⟩ | ⟨x, -, -, -, rfl⟩
  · by_cases hp : p = x
    · subst hp
      rw [act_effects_self, indications_append, List.mem_append] at hc
      rw [act_state_self, faultyPeers_handle, List.mem_append]
      exact hc.imp ih fun hnew => mem_indications.mpr ((prefix_of_cut _ _).subset (mem_indications.mp hnew))
    · rw [act_proc_ne _ _ _ _ _ _ hp] at hc ⊢
      exact ih hc
  · rw [crash_effects] at hc
    rw [crash_state]
    exact ih hc

theorem reported_of_faulty (h : Run (pfdSystem n) ok evs s) {p : ℤ} (hp : (s.proc p).crashed = false) :
    indications (s.proc p).effects = (s.proc p).state.faultyPeers.map Crash.mk := by
  refine local_invariant_of_live (R := fun _ l => indications l.effects = l.state.faultyPeers.map Crash.mk)
    (fun _ => rfl) (fun evs s p r a stop _ _ _ _ ih => ?_) h hp
  change _ = ((pfdProtocol n).handle r (s.proc p).state a.input).1.faultyPeers.map Crash.mk
  rw [Proc.perform, indications_append, ih, faultyPeers_handle]

end

theorem mem_map_crash {q : ℤ} {l : List ℤ} : (⟨q⟩ : Crash) ∈ l.map Crash.mk ↔ q ∈ l := by simp

theorem isTimeout_iff (i : FdCall) :
    IsTimeout i ↔ ∃ j, (some (.call i) : Option (Input FdCall CString)) = some (.call j) ∧ IsTimeout j := by
  simp

theorem pfd_perfect {pre post : List (Event Unit FdCall CString)} {s₀ s : PfdState}
    (h₀ : Run (pfdSystem n) (Synchronous n) pre s₀) (h : Run (pfdSystem n) (Synchronous n) (pre ++ post) s) :
    PfdPerfect n s₀ post s where
  strong_accuracy p q hq := crashed_of_faulty (hosts_self _) isTimeout_iff h (fun _ _ hok => hok)
    (mem_map_crash.mp (faulty_of_reported h hq))
  strong_completeness p hp q hq hpq hsilent htwo := by
    rw [reported_of_faulty h (mem_uncrashed.mp hp).2]
    exact mem_map_crash.mpr (faulty_of_silent (hosts_self _) isTimeout_iff rfl rfl h₀ h hq hpq hsilent htwo)

/-- Process 2 answers the first heartbeat of process 1, and crashes in its second period. -/
def answeredOnce : List (Event Unit FdCall CString) :=
  [.act 1 () (.call .start) none, .act 2 () (.deliver 1 HB_CODE) none, .act 1 () (.deliver 2 IA_CODE) none,
    .act 1 () (.call .timeout) none, .crash 2]

theorem answeredOnce_detected : ∃ s₀ s, Run (pfdSystem 2) (Synchronous 2) answeredOnce s₀ ∧
    indications (s₀.proc 1).effects = [] ∧ Silent s₀ 1 2 ∧
    indications (s.proc 1).effects = [⟨2⟩] ∧
    PfdPerfect 2 s₀ (List.replicate 2 (.act 1 () (.call .timeout) none)) s := by
  obtain ⟨s₀, h₀, hs₀⟩ : ∃ s₀, Run (pfdSystem 2) (Synchronous 2) answeredOnce s₀ ∧
      (indications (s₀.proc 1).effects, decide (Silent s₀ 1 2)) = ([], true) :=
    exists_run_of_exec (fun s : PfdState => (indications (s.proc 1).effects, decide (Silent s 1 2)))
      (by decide +kernel)
  obtain ⟨s, h, hs⟩ : ∃ s, Run (pfdSystem 2) (Synchronous 2)
      (answeredOnce ++ List.replicate 2 (.act 1 () (.call .timeout) none)) s ∧
      indications (s.proc 1).effects = [⟨2⟩] :=
    exists_run_of_exec (fun s : PfdState => indications (s.proc 1).effects) (by decide +kernel)
  obtain ⟨h1, h2⟩ := Prod.mk.inj hs₀
  exact ⟨s₀, s, h₀, h1, of_decide_eq_true h2, hs, pfd_perfect h₀ h⟩

end Pfd

end DSA
