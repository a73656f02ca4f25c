import DistributedAbstractions.Proofs.Detection

/-! The electors of processes that crash. The ranks above a leader have been reported, and with long enough
periods only those who have crashed are reported. -/

namespace DSA

open CLib Net Trans

variable {n : ℕ}

theorem HighestLeft.above {crashes : List Crash} {leader q : ℤ} (h : HighestLeft n crashes leader)
    (hq : q ∈ peers n) (hlt : leader < q) : (⟨q⟩ : Crash) ∈ crashes := by
  by_contra hnot
  rcases h with h | ⟨hnone, -⟩
  · exact absurd (h.2 ⟨hq, hnot⟩) (not_le.mpr hlt)
  · exact (hnone ▸ (⟨hq, hnot⟩ : q ∈ Left n crashes) : q ∈ (∅ : Set ℤ))

section Reports

theorem onPfdReports_eq (mle : Mle) (es : PfdEffects) :
    (onPfdReports mle es).1 = Machine.state mleCallbackOnCrash mle (indications es) ∧
    indications (onPfdReports mle es).2 = Machine.outputs mleCallbackOnCrash mle (indications es) := by
  induction es generalizing mle with
  | nil => exact ⟨rfl, rfl⟩
  | cons e es ih =>
    cases e with
    | send d m => exact ih mle
    | indicate crash =>
      obtain ⟨h1, h2⟩ := ih (mleCallbackOnCrash mle crash).1
      have hout : indications ((mleCallbackOnCrash mle crash).2.map Effect.indicate :
          List (Effect CString Leader)) = (mleCallbackOnCrash mle crash).2 := by
        rw [indications, List.filterMap_map]
        exact List.filterMap_some
      refine ⟨h1, ?_⟩
      rw [onPfdReports, indications_append, hout, h2]
      rfl

theorem send_mem_onPfdReports (mle : Mle) {es : PfdEffects} {d : ℤ} {m : CString} (h : .send d m ∈ es) :
    .send d m ∈ (onPfdReports mle es).2 := by
  induction es generalizing mle with
  | nil => cases h
  | cons e es ih =>
    cases e with
    | send d' m' =>
      rcases List.mem_cons.mp h with h | h
      · obtain ⟨rfl, rfl⟩ := Effect.send.inj h
        exact List.mem_cons_self
      · exact List.mem_cons_of_mem _ (ih mle h)
    | indicate crash =>
      exact List.mem_append_right _ (ih _ ((List.mem_cons.mp h).resolve_left (by simp)))

/-- Whom the elector proclaims for new crashes, with those above it having crashed. -/
theorem MleTable.reports {crashes new : List Crash} {mle : Mle} {out : List Leader}
    (h : MleTable n crashes mle out) (hnew : ∀ e ∈ new, e.peerId ∈ peers n) :
    MleTable n (crashes ++ new) (Machine.state mleCallbackOnCrash mle new)
      (out ++ Machine.outputs mleCallbackOnCrash mle new) ∧
    ∀ l ∈ Machine.outputs mleCallbackOnCrash mle new, ∀ q ∈ peers n, l.peerRank < q → ⟨q⟩ ∈ crashes ++ new := by
  refine @Machine.invariant_of_guarded _ _ _ mleCallbackOnCrash mle _ (fun new mle' out' =>
    MleTable n (crashes ++ new) mle' (out ++ out') ∧
      ∀ l ∈ out', ∀ q ∈ peers n, l.peerRank < q → ⟨q⟩ ∈ crashes ++ new)
    ⟨by simpa using h, fun _ hl => (List.not_mem_nil hl).elim⟩ ?_ _ (Machine.guarded_of_forall hnew)
  rintro new e mle' out' he ⟨ht, habove⟩
  have hnext := ht.crash he
  rw [List.append_assoc] at hnext
  refine ⟨by rw [← List.append_assoc out]; exact hnext, fun l hl q hq hlt => ?_⟩
  rw [← List.append_assoc]
  rcases List.mem_append.mp hl with hl | hl
  · exact List.mem_append_left _ (habove l hl q hq hlt)
  · rw [ht.indicates he] at hl
    split_ifs at hl
    · cases hl
    · rw [List.mem_singleton.mp hl] at hlt
      rw [List.append_assoc]
      exact hnext.leader.above hq hlt

end Reports

theorem mle_hosts (n : ℕ) : Hosts (mleProtocol n) (pfdProtocol n) MleNode.pfd some id where
  init _ := rfl
  idle _ _ _ h := by cases h
  runs r s x y h := by
    obtain rfl := Option.some.inj h
    match x with
    | .call .start => rfl
    | .call .timeout => rfl
    | .receive q m => rfl
  sends r s x y d m h hm := by
    obtain rfl := Option.some.inj h
    match x, hm with
    | .call .start, hm => exact List.mem_cons_of_mem _ (send_mem_onPfdReports _ hm)
    | .call .timeout, hm => exact send_mem_onPfdReports _ hm
    | .receive q m, hm => exact send_mem_onPfdReports _ hm
  wraps _ _ := rfl
  called _ i h := ⟨i, Option.some.inj h⟩
  received _ _ m h := ⟨m, Option.some.inj h⟩

/-- What is so of every process, whether it has crashed or not. -/
structure MleLocal (n : ℕ) (node : MleNode) (es : List (Effect CString Leader)) : Prop where
  table : ∃ out, MleTable n (node.pfd.faultyPeers.map Crash.mk) node.mle out
  rightful : ∀ l ∈ indications es, ∀ q ∈ peers n, l.peerRank < q → q ∈ node.pfd.faultyPeers

/-- The detector takes its step, and the elector gets to know what it indicates. The leader in office may
be indicated once more. -/
theorem MleLocal.takes {node : MleNode} {es es' : List (Effect CString Leader)} (out : Pfd × PfdEffects)
    (h : MleLocal n node es) (hout : ∀ crash ∈ indications out.2, crash.peerId ∈ peers n)
    (hfaulty : out.1.faultyPeers.map Crash.mk = node.pfd.faultyPeers.map Crash.mk ++ indications out.2)
    (hes : ∀ l ∈ indications es', l = ⟨node.mle.leader⟩ ∨ l ∈ indications (mleTakes out node.mle).2) :
    MleLocal n (mleTakes out node.mle).1 (es ++ es') := by
  obtain ⟨leaders, ht⟩ := h.table
  obtain ⟨htable, habove⟩ := ht.reports hout
  obtain ⟨hmle, hind⟩ := onPfdReports_eq node.mle out.2
  have hmem : ∀ q, (⟨q⟩ : Crash) ∈ node.pfd.faultyPeers.map Crash.mk ++ indications out.2 ↔
      q ∈ out.1.faultyPeers := fun q => by
    rw [← hfaulty]
    simp
  refine ⟨⟨leaders ++ Machine.outputs mleCallbackOnCrash node.mle (indications out.2), ?_⟩,
    fun l hl q hq hlt => (hmem q).mp ?_⟩
  · change MleTable n (out.1.faultyPeers.map Crash.mk) (onPfdReports node.mle out.2).1 _
    rw [hfaulty, hmle]
    exact htable
  · rw [indications_append, List.mem_append] at hl
    rcases hl with hl | hl
    · exact List.mem_append_left _ (List.mem_map_of_mem (h.rightful l hl q hq hlt))
    · rcases hes l hl with rfl | hl
      · exact List.mem_append_left _ (ht.leader.above hq hlt)
      · exact habove l (hind ▸ hl) q hq hlt

theorem mem_indications_of_initial {μ ω : Type} {es es' : List (Effect μ ω)} (h : es' <+: es) {o : ω}
    (ho : o ∈ indications es') : o ∈ indications es :=
  mem_indications.mpr (h.subset (mem_indications.mp ho))

theorem MleLocal.handle {node : MleNode} {es es' : List (Effect CString Leader)} (h : MleLocal n node es)
    (hrank : node.pfd.maxRank = n) {x : Input FdCall CString}
    (hes : es' <+: ((mleProtocol n).handle () node x).2) :
    MleLocal n ((mleProtocol n).handle () node x).1 (es ++ es') := by
  match x, hes with
  | .call .start, hes =>
    have hnone := indications_pfdStart node.pfd
    refine h.takes (node.pfd, pfdStart node.pfd) (fun crash hc => ?_) ?_ fun l hl => ?_
    · rw [hnone] at hc
      cases hc
    · rw [hnone, List.append_nil]
    · exact List.mem_cons.mp (mem_indications_of_initial hes hl)
  | .call .timeout, hes =>
    refine h.takes (pfdHandleTimeout node.pfd) (fun crash hc => ?_)
      (faultyPeers_pfdHandleTimeout _) fun l hl => .inr (mem_indications_of_initial hes hl)
    exact hrank ▸ (mem_reports.mp (mem_indications.mp hc)).1
  | .receive q m, hes =>
    have hnone := indications_pfdCallback node.pfd ⟨m, q⟩
    refine h.takes (pfdCallback node.pfd ⟨m, q⟩) (fun crash hc => ?_) ?_
      fun l hl => .inr (mem_indications_of_initial hes hl)
    · rw [hnone] at hc
      cases hc
    · rw [hnone, List.append_nil]
      rfl

section Run

variable {ok : MleState → Event Unit FdCall CString → Prop} {evs : List (Event Unit FdCall CString)} {s : MleState}

theorem mle_local (h : Run (mleSystem n) ok evs s) (p : ℤ) :
    MleLocal n (s.proc p).state (s.proc p).effects := by
  revert p
  refine h.state_invariant (I := fun s => ∀ p, MleLocal n (s.proc p).state (s.proc p).effects)
    (fun p => ⟨⟨[], mleTable_init⟩, fun _ hl => (List.not_mem_nil hl).elim⟩) ?_
  intro evs s e s' hr ih _ hn p
  rcases next_cases hn with ⟨x, r, a, stop, rfl, -, -, -, rfl⟩ | ⟨x, -, -, -, rfl⟩
  · by_cases hp : p = x
    · subst hp
      rw [act_state_self, act_effects_self]
      exact (ih p).handle ((monitor_of_hosts (mle_hosts n) isTimeout_iff).own_of_run hr p).2 (prefix_of_cut _ _)
    · rw [act_proc_ne _ _ _ _ _ _ hp]
      exact ih p
  · rw [crash_state, crash_effects]
    exact ih p

theorem mle_crashed_of_faulty (h : Run (mleSystem n) (Synchronous n) evs s) {p q : ℤ}
    (hq : q ∈ (s.proc p).state.pfd.faultyPeers) : (s.proc q).crashed = true :=
  crashed_of_faulty (mle_hosts n) isTimeout_iff h (fun _ _ hok => hok) hq

theorem left_of_uncrashed (h : Run (mleSystem n) (Synchronous n) evs s) {p q : ℤ} (hq : q ∈ uncrashed n s) :
    q ∈ Left n ((s.proc p).state.pfd.faultyPeers.map Crash.mk) := by
  obtain ⟨hrank, hup⟩ := mem_uncrashed.mp hq
  refine ⟨hrank, fun hmem => ?_⟩
  obtain ⟨q', hq', hqq⟩ := List.mem_map.mp hmem
  obtain rfl := Crash.mk.inj hqq
  rw [mle_crashed_of_faulty h hq'] at hup
  cases hup

theorem mle_highest (h : Run (mleSystem n) (Synchronous n) evs s) {p q : ℤ} (hq : q ∈ uncrashed n s) :
    IsGreatest (Left n ((s.proc p).state.pfd.faultyPeers.map Crash.mk)) (s.proc p).state.mle.leader := by
  obtain ⟨out, ht⟩ := (mle_local h p).table
  refine ht.leader.resolve_right fun ⟨hnone, _⟩ => ?_
  have hleft := left_of_uncrashed h (p := p) hq
  rw [hnone] at hleft
  exact hleft

end Run

theorem mle_agreement {pre post : List (Event Unit FdCall CString)} {s₀ s : MleState}
    (h₀ : Run (mleSystem n) (Synchronous n) pre s₀) (h : Run (mleSystem n) (Synchronous n) (pre ++ post) s) :
    MleAgreement n s₀ post s where
  highest p _ q hq := (mle_highest h hq).2 (left_of_uncrashed h hq)
  agreement p hp q hq hlp hlq := le_antisymm ((mle_highest h hq).2 (left_of_uncrashed h hlp))
    ((mle_highest h hp).2 (left_of_uncrashed h hlq))
  rightful p r hr q hq := by
    obtain ⟨hrank, hup⟩ := mem_uncrashed.mp hq
    by_contra hlt
    have hc := mle_crashed_of_faulty h ((mle_local h p).rightful ⟨r⟩ hr q hrank (not_le.mp hlt))
    rw [hc] at hup
    cases hup
  eventual p hp hsilent htwo := by
    have hgreatest := mle_highest h hp (p := p)
    refine ⟨mem_uncrashed.mpr ⟨hgreatest.1.1, ?_⟩, fun q hq => hgreatest.2 (left_of_uncrashed h hq)⟩
    rw [← Bool.not_eq_true]
    intro hc
    have hne : (s.proc p).state.mle.leader ≠ p := fun heq => by
      rw [heq, (mem_uncrashed.mp hp).2] at hc
      cases hc
    have hfaulty := faulty_of_silent (mle_hosts n) isTimeout_iff rfl rfl h₀ h hgreatest.1.1 hne
      (hsilent _ hgreatest.1.1 hc) htwo
    exact hgreatest.1.2 (mem_map_crash.mpr hfaulty)

/-- The processes 1 and 2 ask each other for a sign of life, and then end a period each. -/
def aliveRound : List (Event Unit FdCall CString) :=
  [.act 2 () (.deliver 1 HB_CODE) none, .act 1 () (.deliver 2 IA_CODE) none, .act 1 () (.deliver 2 HB_CODE) none,
    .act 2 () (.deliver 1 IA_CODE) none, .act 1 () (.call .timeout) none, .act 2 () (.call .timeout) none]

/-- The processes 1 and 2 of three start when 3 has crashed. -/
def withoutThird : List (Event Unit FdCall CString) :=
  [.crash 3, .act 1 () (.call .start) none, .act 2 () (.call .start) none]

theorem second_leads : ∃ s₀ s, Run (mleSystem 3) (Synchronous 3) withoutThird s₀ ∧
    Run (mleSystem 3) (Synchronous 3) (withoutThird ++ (aliveRound ++ aliveRound)) s ∧
    ((s₀.proc 1).state.mle.leader, decide (Silent s₀ 1 3)) = (3, true) ∧
    ((s.proc 1).state.mle.leader, (s.proc 2).state.mle.leader) = (2, 2) ∧
    MleAgreement 3 s₀ (aliveRound ++ aliveRound) s := by
  obtain ⟨s₀, h₀, hs₀⟩ : ∃ s₀, Run (mleSystem 3) (Synchronous 3) withoutThird s₀ ∧
      ((s₀.proc 1).state.mle.leader, decide (Silent s₀ 1 3)) = (3, true) :=
    exists_run_of_exec (fun s : MleState => ((s.proc 1).state.mle.leader, decide (Silent s 1 3)))
      (by decide +kernel)
  obtain ⟨s, h, hs⟩ : ∃ s, Run (mleSystem 3) (Synchronous 3) (withoutThird ++ (aliveRound ++ aliveRound)) s ∧
      ((s.proc 1).state.mle.leader, (s.proc 2).state.mle.leader) = (2, 2) :=
    exists_run_of_exec (fun s : MleState => ((s.proc 1).state.mle.leader, (s.proc 2).state.mle.leader))
      (by decide +kernel)
  exact ⟨s₀, s, h₀, h, hs₀, hs, mle_agreement h₀ h⟩

end DSA
