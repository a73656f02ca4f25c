import DistributedAbstractions.Proofs.BleSafety

/-! What becomes of complaints that are all handled, when none of them came before its
recipient had reached their round: enough of them make everybody leave the round, and
nobody is left behind. -/

namespace DSA

open CLib Net Trans

/-- A complaint of `x` for round `r` counts, or the round is over. -/
def Accounted (b : Ble) (x r : ℤ) : Prop :=
  r < b.round ∨ r = b.round ∧ ∃ e ∈ b.complains, e.peerRank = x

theorem Accounted.of_outcome {b b' : Ble} {q : ℤ} {P : CString} {es : BleEffects}
    (ho : BleOutcome b q P b' es) {x r : ℤ} (h : Accounted b x r) : Accounted b' x r := by
  cases ho with
  | ignored => exact h
  | counted =>
    obtain h | ⟨h, e, he, hx⟩ := h
    · exact .inl h
    · exact .inr ⟨h, e, List.mem_append_left _ he, hx⟩
  | advanced =>
    have hle : r ≤ b.round := h.elim le_of_lt fun h => h.1.le
    exact .inl (Int.lt_add_one_of_le hle)

theorem accounted_of_outcome {b b' : Ble} {q : ℤ} {P : CString} {es : BleEffects}
    (ho : BleOutcome b q P b' es) {r : ℤ} (hP : complaint P = some r) (hr : r ≤ b.round) :
    Accounted b' q r := by
  rcases lt_or_eq_of_le hr with hr | rfl
  · exact Accounted.of_outcome ho (.inl hr)
  · cases ho with
    | ignored h => exact .inr ⟨rfl, h hP⟩
    | counted => exact .inr ⟨rfl, _, List.mem_append_right _ (List.mem_singleton_self _), rfl⟩
    | advanced => exact .inl (Int.lt_add_one_of_le le_rfl)

section

variable {N f : ℕ} {F : Setting CString} {evs : List BleEvent} {s : BleState}

theorem accounted_of_run (h : Run (system (bleProtocol N f) F) NotEarly evs s) :
    ∀ k ∈ s.handled, ∀ r, complaint k.msg = some r → Accounted (s.proc k.dst).state k.src r := by
  refine h.state_invariant (I := fun s => ∀ k ∈ s.handled, ∀ r, complaint k.msg = some r →
    Accounted (s.proc k.dst).state k.src r) (fun _ hk => (List.not_mem_nil hk).elim) ?_
  intro evs s e s' hr ih hok hn k hk r hkr
  rcases next_cases hn with ⟨p, ⟨⟩, a, stop, rfl, -, -, -, rfl⟩ | ⟨p, -, -, -, rfl⟩
  swap
  · simpa using ih k hk r hkr
  have hold : k ∈ s.handled →
      Accounted ((s.act (bleProtocol N f) p () a stop).proc k.dst).state k.src r := by
    intro hk
    by_cases hp : k.dst = p
    · have hc := ih k hk r hkr
      rw [hp] at hc ⊢
      rw [act_state_self]
      cases a.input with
      | call i => exact hc
      | receive q P => exact hc.of_outcome (bleCallback_outcome _ q P)
    · rw [act_proc_ne _ s p () a stop hp]
      exact ih k hk r hkr
  rw [act_handled] at hk
  cases a with
  | call i => exact hold hk
  | forge src m => exact hold hk
  | deliver src m =>
    rcases List.mem_append.mp hk with hk | hk
    · exact hold hk
    · cases List.mem_singleton.mp hk
      rw [act_state_self]
      exact accounted_of_outcome (bleCallback_outcome _ src m) hkr (hok r hkr)

theorem left_of_handled (hF : F.crashes = false)
    (hcar : ∀ k, F.carries k = true ∨ F.forges k = true → k.msg.length + 3 < MAX_MSG_LEN)
    (h : Run (system (bleProtocol N f) F) NotEarly evs s) {p r : ℤ} {Q : Finset ℤ}
    (hQ : 2 * f < Q.card) (hall : ∀ x ∈ Q, ⟨x, p, coFrame r⟩ ∈ s.handled) :
    r < (s.proc p).state.round := by
  have hloc := ble_local hF h p
  have hread : ∀ x ∈ Q, complaint (coFrame r) = some r := fun x hx => by
    have hlen := hcar _ (receive_inv h (receive_of_handled h (hall x hx))).carried
    exact complaint_coFrame (by simp only at hlen; omega)
  by_contra hle
  have hsub : Q ⊆ ((s.proc p).state.complains.map (·.peerRank)).toFinset := by
    intro x hx
    obtain ⟨-, e, he, hex⟩ := (accounted_of_run h _ (hall x hx) r (hread x hx)).resolve_left hle
    exact List.mem_toFinset.mpr (List.mem_map.mpr ⟨e, he, hex⟩)
  have hlen := (Finset.card_le_card hsub).trans (List.toFinset_card_le _)
  rw [List.length_map] at hlen
  have := hloc.few
  omega

end

section

variable {N f : ℕ} {byz : Finset ℤ} {evs : List BleEvent} {s : BleState}

theorem toOthers_of_appComplained {guard : BleState → BleEvent → Prop}
    (h : Run (bleSystem N f byz) guard evs s) {q r : ℤ}
    (hq : AppComplained (bleSystem N f byz) evs q r) : ToOthers N q (s.proc q).effects r := by
  obtain ⟨pre, t, stop, ⟨post, rfl⟩, ht, rfl⟩ := hq
  have hrun : Run (bleSystem N f byz) (fun _ _ => True) (pre ++ [.act q () (.call ()) stop] ++ post) s :=
    h.weaken fun _ _ _ => trivial
  obtain ⟨t', ht'⟩ := hrun.of_append
  obtain ⟨t₀, h₀, -, hn⟩ := ht'.snoc_inv
  obtain rfl := h₀.unique ht
  generalize he : (Event.act q () (.call ()) stop : BleEvent) = e at hn
  have hloc := ble_local rfl ht' q
  have hstate : (t'.proc q).state = (bleComplain (t₀.proc q).state).1 := by
    rcases next_cases hn with ⟨p, r, a, k, rfl, -, -, -, rfl⟩ | ⟨p, rfl, -⟩
    · cases he
      exact act_state_self _ _ _ _ _ _
    · cases he
  have hto := hloc.complained (by rw [hstate]; rfl)
  rw [hstate] at hto
  exact hto.mono ((grows_of_append ht' hrun).effects q)

theorem succession (hcard : 2 * f + 2 ≤ (peers N \ byz).card)
    (h : Run (bleSystem N f byz) NotEarly evs s) : Succession (bleSystem N f byz) N byz evs s := by
  intro hquiet r hall p hp
  refine left_of_handled (Q := (peers N \ byz).erase p) rfl (fun _ => length_of_carried) h ?_
    fun x hx => ?_
  · rw [Finset.card_erase_of_mem hp]
    omega
  · obtain ⟨hne, hx⟩ := Finset.mem_erase.mp hx
    apply handled_of_quiet h hquiet hx hp
    exact toOthers_of_appComplained h (hall x hx) p (Finset.mem_sdiff.mp hp).1 hne.symm

theorem appComplained_of_exec (pre : List BleEvent) {post : List BleEvent} {q r : ℤ}
    (h : ((bleSystem N f byz).exec (fun _ _ => True) (bleSystem N f byz).init pre).map
      (fun s => (s.proc q).state.round) = some r) :
    AppComplained (bleSystem N f byz) (pre ++ [appComplains q] ++ post) q r := by
  obtain ⟨t, ht, hr⟩ := exists_run_of_exec (fun s : BleState => (s.proc q).state.round) h
  exact ⟨pre, t, none, List.prefix_append _ _, ht, hr⟩

end

section

variable {N f : ℕ} {evs : List BleEvent} {s : BleState}

theorem toOthers_of_heard {guard : BleState → BleEvent → Prop}
    (h : Run (bleHonestSystem N f) guard evs s) {p x r : ℤ}
    (hx : HeardComplaint (s.proc p).inputs x r) :
    x ∈ peers N ∧ x ≠ p ∧ ToOthers N x (s.proc x).effects r := by
  obtain ⟨P, hP, hr⟩ := hx
  have hsrc := receive_inv h hP
  have hk : ⟨x, p, P⟩ ∈ s.handled := by
    rw [← List.count_pos_iff, ← count_inputs rfl rfl h]
    exact List.count_pos_iff.mpr hP
  obtain ⟨hne, r', rfl, hto⟩ := (ble_local rfl h x).sent p P (handled_sent h (.inr hk))
  have hlen : (coFrame r').length + 3 < MAX_MSG_LEN := length_of_carried hsrc.carried
  obtain rfl : r' = r := Option.some.inj ((complaint_coFrame (by omega)).symm.trans hr)
  exact ⟨mem_peers.mpr (rank_iff.mp hsrc.rank), hne.symm, hto⟩

theorem round_le (h : Run (bleHonestSystem N f) NotEarly evs s) (hquiet : Quiet s (peers N))
    {p q : ℤ} (hp : p ∈ peers N) (hq : q ∈ peers N) :
    (s.proc p).state.round ≤ (s.proc q).state.round := by
  by_contra hlt
  rw [not_le] at hlt
  obtain ⟨hto, Q, hQ, hheard⟩ := (ble_local rfl h p).left _ (ble_local rfl h q).nonneg hlt
  have hpQ : p ∉ Q := fun hpQ => (toOthers_of_heard h (hheard p hpQ)).2.1 rfl
  have hall : ∀ x ∈ insert p Q,
      x ∈ peers N ∧ ToOthers N x (s.proc x).effects (s.proc q).state.round := by
    intro x hx
    rcases Finset.mem_insert.mp hx with rfl | hx
    · exact ⟨hp, hto⟩
    · obtain ⟨hxN, -, hxto⟩ := toOthers_of_heard h (hheard x hx)
      exact ⟨hxN, hxto⟩
  have hleft : (s.proc q).state.round < (s.proc q).state.round := left_of_handled
    (Q := (insert p Q).erase q) rfl (fun _ => length_of_carried) h ?_ fun x hx => ?_
  · exact lt_irrefl _ hleft
  · have hcard := Finset.card_insert_of_notMem hpQ
    have := Finset.pred_card_le_card_erase (s := insert p Q) (a := q)
    omega
  · obtain ⟨hne, hx⟩ := Finset.mem_erase.mp hx
    obtain ⟨hxN, hxto⟩ := hall x hx
    exact handled_of_quiet h hquiet hxN hq (hxto q hq hne.symm)

theorem round_agreement (h : Run (bleHonestSystem N f) NotEarly evs s) : RoundAgreement N s := by
  intro hquiet p hp q hq
  have hround := le_antisymm (round_le h hquiet hp hq) (round_le h hquiet hq hp)
  refine ⟨hround, ?_⟩
  rw [getRoundLeader, getRoundLeader, hround, (ble_local rfl h p).maxRank, (ble_local rfl h q).maxRank]

end

/-- All peers of `l` complain, and hear one another. -/
def allComplain (l : List ℤ) : List BleEvent :=
  l.map appComplains ++ l.flatMap fun p => (l.filter (· ≠ p)).map (heard p · 0)

/-- Four correct peers out of five leave the round together. -/
theorem allComplain_succession : ∃ s, Run (bleSystem 5 1 {5}) NotEarly (allComplain [1, 2, 3, 4]) s ∧
    Quiet s (peers 5 \ {5}) ∧ (s.proc 1).state.round = 1 ∧
    Succession (bleSystem 5 1 {5}) 5 {5} (allComplain [1, 2, 3, 4]) s := by
  obtain ⟨s, hrun, hs⟩ : ∃ s, Run (bleSystem 5 1 {5}) NotEarly (allComplain [1, 2, 3, 4]) s ∧
      (decide (Quiet s (peers 5 \ {5})), (s.proc 1).state.round) = (true, 1) :=
    exists_run_of_exec (fun s : BleState => (decide (Quiet s (peers 5 \ {5})), (s.proc 1).state.round))
      (by decide +kernel)
  obtain ⟨hq, hr⟩ := Prod.mk.inj hs
  exact ⟨s, hrun, of_decide_eq_true hq, hr, succession (by decide) hrun⟩

/-- With four peers the three correct ones hear of two others each, and none of them
counts itself. -/
theorem no_succession : ¬ ∀ (N f : ℕ) (byz : Finset ℤ), 3 * f < N → 1 ≤ f → byz ⊆ peers N →
    byz.card ≤ f → ∀ evs s, Run (bleSystem N f byz) (fun _ _ => True) evs s →
    Succession (bleSystem N f byz) N byz evs s := by
  intro H
  obtain ⟨s, hrun, hs⟩ : ∃ s, Run (bleSystem 4 1 {4}) (fun _ _ => True) (allComplain [1, 2, 3]) s ∧
      (decide (Quiet s (peers 4 \ {4})), (s.proc 1).state.round) = (true, 0) :=
    exists_run_of_exec (fun s : BleState => (decide (Quiet s (peers 4 \ {4})), (s.proc 1).state.round))
      (by decide +kernel)
  obtain ⟨hq, hr⟩ := Prod.mk.inj hs
  have hleft := H 4 1 {4} (by decide) le_rfl (by decide) le_rfl _ _ hrun (of_decide_eq_true hq) 0 ?_
    1 (by decide)
  · rw [hr] at hleft
    exact absurd hleft (by decide)
  intro p hp
  obtain rfl | rfl | rfl : p = 1 ∨ p = 2 ∨ p = 3 := by
    simp at hp
    omega
  · exact appComplained_of_exec [] (by decide +kernel)
  · exact appComplained_of_exec [appComplains 1] (by decide +kernel)
  · exact appComplained_of_exec [appComplains 1, appComplains 2] (by decide +kernel)

/-- Three peers hear of 2's complaint, and of one another's. -/
def togetherRun : List BleEvent :=
  [appComplains 2, heard 3 2 0, heard 2 3 0, heard 1 2 0, heard 1 3 0, heard 2 1 0, heard 3 1 0]

theorem togetherRun_agrees : ∃ s, Run (bleHonestSystem 3 0) NotEarly togetherRun s ∧
    Quiet s (peers 3) ∧ (s.proc 1).state.round = 1 ∧ RoundAgreement 3 s := by
  obtain ⟨s, hrun, hs⟩ : ∃ s, Run (bleHonestSystem 3 0) NotEarly togetherRun s ∧
      (decide (Quiet s (peers 3)), (s.proc 1).state.round) = (true, 1) :=
    exists_run_of_exec (fun s : BleState => (decide (Quiet s (peers 3)), (s.proc 1).state.round))
      (by decide +kernel)
  obtain ⟨hq, hr⟩ := Prod.mk.inj hs
  exact ⟨s, hrun, of_decide_eq_true hq, hr, round_agreement hrun⟩

/-- Peers 2 and 3 of three go through two rounds before 1 hears of the first. -/
def outrunRun : List BleEvent :=
  [appComplains 2, heard 3 2 0, heard 2 3 0, appComplains 3, heard 1 3 1, heard 2 3 1, heard 3 2 1,
   heard 1 2 1, heard 1 2 0, heard 1 3 0, heard 2 1 0, heard 3 1 0]

theorem outrunRun_splits : ¬ ∀ N f : ℕ, 3 * f < N → ∀ evs s,
    Run (bleHonestSystem N f) (fun _ _ => True) evs s → RoundAgreement N s := by
  intro H
  obtain ⟨s, hrun, hs⟩ : ∃ s, Run (bleHonestSystem 3 0) (fun _ _ => True) outrunRun s ∧
      (decide (Quiet s (peers 3)), (s.proc 1).state.round, (s.proc 2).state.round) = (true, 1, 2) :=
    exists_run_of_exec (fun s : BleState =>
      (decide (Quiet s (peers 3)), (s.proc 1).state.round, (s.proc 2).state.round)) (by decide +kernel)
  obtain ⟨hq, hr⟩ := Prod.mk.inj hs
  obtain ⟨h1, h2⟩ := Prod.mk.inj hr
  have hsame := (H 3 0 (by decide) _ _ hrun (of_decide_eq_true hq) 1 (by decide) 2 (by decide)).1
  rw [h1, h2] at hsame
  exact absurd hsame (by decide)

end DSA
