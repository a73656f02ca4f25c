import DistributedAbstractions.Proofs.Detection
import DistributedAbstractions.Proofs.EpfdAlternation
import DistributedAbstractions.Spec.EventualDetection
import Mathlib.Order.Filter.Finite

/-! The eventually perfect failure detector among processes that crash: once periods are long enough, those who
are up are restored and stay so, and those who have crashed stay suspected. -/

namespace DSA

open CLib Filter Net Trans

variable {n : ℕ}

section Handlers

variable {epfd : Epfd} {p q : ℤ}

/-- What a detector knows of itself. -/
def EpfdOwn (n : ℕ) (p : ℤ) (epfd : Epfd) : Prop := epfd.localRank = p ∧ epfd.maxRank = n

theorem heartbeat_mem_epfdLoop {rs : List ℤ} (hq : q ∈ rs) (hqp : q ≠ epfd.localRank) :
    (.send q HB_CODE : Effect CString EpfdIndication) ∈ Machine.outputs epfdCheckPeer epfd rs := by
  refine Machine.mem_outputs (I := fun t => t.localRank = epfd.localRank)
    (fun t r ht => (epfdCheckPeer_frame t r).2.1.trans ht) (fun t ht => ?_) hq rfl
  unfold epfdCheckPeer
  dsimp only
  rw [if_neg (ht.symm ▸ hqp)]
  split_ifs <;> simp

theorem frame_epfdHandleTimeout (epfd : Epfd) : (epfdHandleTimeout epfd).1.maxRank = epfd.maxRank ∧
    (epfdHandleTimeout epfd).1.localRank = epfd.localRank :=
  Machine.invariant (I := fun _ t _ => t.maxRank = epfd.maxRank ∧ t.localRank = epfd.localRank) ⟨rfl, rfl⟩
    (fun _ r t _ h => ⟨(epfdCheckPeer_frame t r).1.trans h.1, (epfdCheckPeer_frame t r).2.1.trans h.2⟩)
    (ranks epfd.maxRank)

theorem epfd_polling (n : ℕ) : Polling (epfdProtocol n) (peers n) HB_CODE IA_CODE IsTimeout (EpfdOwn n)
    fun epfd q => q ∈ epfd.alivePeers where
  own_init p := ⟨rfl, rfl⟩
  own_handle p r epfd x h := by
    rcases x with (_ | _) | ⟨q, m⟩
    · exact h
    · obtain ⟨hm, hl⟩ := frame_epfdHandleTimeout epfd
      exact ⟨hl.trans h.1, hm.trans h.2⟩
    · exact h
  asks p r epfd i h hi q hq hqp := by
    obtain rfl := hi
    exact heartbeat_mem_epfdLoop (mem_ranks.mpr (h.2.symm ▸ hq)) (h.1.symm ▸ hqp)
  answers r epfd q := by
    have hhb : (tryParseMessage HB_CODE HB_CODE).isSome = true := by decide
    simp [epfdProtocol, epfdCallback, fdCallback, hhb]
  hears r epfd q := by
    have hia : (tryParseMessage IA_CODE IA_CODE).isSome = true := by decide
    exact (mem_fdCallback (ω := EpfdIndication)).mpr (.inr ⟨hia, rfl⟩)
  keeps r epfd x q hx h := by
    rcases x with (_ | _) | ⟨p, m⟩
    · exact h
    · exact absurd rfl (hx .timeout rfl)
    · exact (mem_fdCallback (ω := EpfdIndication)).mpr (.inl h)
  clears r epfd i q hi := by
    obtain rfl := hi
    exact List.not_mem_nil
  hears_only r epfd x q h := by
    rcases x with (_ | _) | ⟨p, m⟩
    · exact .inl h
    · exact absurd h List.not_mem_nil
    · exact ((mem_fdCallback (ω := EpfdIndication)).mp h).imp_right fun hp => ⟨m, by rw [← hp.2]⟩

theorem mem_suspectedPeers_handleTimeout (hown : EpfdOwn n p epfd) (hnodup : epfd.suspectedPeers.Nodup)
    (hq : q ∈ peers n) (hqp : q ≠ p) : q ∈ (epfdHandleTimeout epfd).1.suspectedPeers ↔ q ∉ epfd.alivePeers :=
  (swept_loop hnodup (ranks epfd.maxRank)).swept q (mem_ranks.mpr (hown.2.symm ▸ hq)) (hown.1.symm ▸ hqp)

theorem epfdCheckPeer_of_right (h : q ≠ epfd.localRank → (q ∈ epfd.suspectedPeers ↔ q ∉ epfd.alivePeers)) :
    (epfdCheckPeer epfd q).1 = epfd ∧ indications (epfdCheckPeer epfd q).2 = [] := by
  unfold epfdCheckPeer
  dsimp only
  split_ifs with hl hs hr
  · exact ⟨rfl, rfl⟩
  · simp only [Bool.and_eq_true, Bool.not_eq_true', decide_eq_false_iff_not] at hs
    exact absurd ((h hl).mpr hs.1) hs.2
  · simp only [Bool.and_eq_true, decide_eq_true_eq] at hr
    exact absurd hr.1 ((h hl).mp hr.2)
  · exact ⟨rfl, rfl⟩

theorem indications_epfdLoop {rs : List ℤ}
    (h : ∀ q ∈ rs, q ≠ epfd.localRank → (q ∈ epfd.suspectedPeers ↔ q ∉ epfd.alivePeers)) :
    indications (Machine.outputs epfdCheckPeer epfd rs) = [] := by
  induction rs with
  | nil => rfl
  | cons r rs ih =>
    obtain ⟨hsame, hnone⟩ := epfdCheckPeer_of_right (h r List.mem_cons_self)
    change indications ((epfdCheckPeer epfd r).2 ++ Machine.outputs epfdCheckPeer (epfdCheckPeer epfd r).1 rs) = []
    rw [indications_append, hnone, hsame, List.nil_append]
    exact ih fun q hq => h q (List.mem_cons_of_mem r hq)

theorem epfd_between {x : Input FdCall CString} (hx : x ≠ .call .timeout) :
    ((epfdProtocol n).handle () epfd x).1.suspectedPeers = epfd.suspectedPeers ∧
      indications ((epfdProtocol n).handle () epfd x).2 = [] := by
  rcases x with (_ | _) | ⟨p, m⟩
  · refine ⟨rfl, indications_eq_nil fun o ho => ?_⟩
    obtain ⟨r, -, hr⟩ := List.mem_map.mp ho
    cases hr
  · exact absurd rfl hx
  · exact ⟨rfl, indications_eq_nil fun _ => indicate_notMem_fdCallback⟩

theorem input_ne_timeout {a : Arrival FdCall CString} (ha : a ≠ .call .timeout) : a.input ≠ .call .timeout := by
  rcases a with c | ⟨src, m⟩ | ⟨src, m⟩
  · exact fun h => ha (congrArg _ (Input.call.inj h))
  · exact fun h => by cases h
  · exact fun h => by cases h

theorem InStep.handle {is : List EpfdIndication} (h : InStep n p epfd is) (x : Input FdCall CString) :
    InStep n p ((epfdProtocol n).handle () epfd x).1 (is ++ indications ((epfdProtocol n).handle () epfd x).2) := by
  by_cases hx : x = .call .timeout
  · subst hx
    exact h.handleTimeout
  · obtain ⟨hs, hi⟩ : ((epfdProtocol n).handle () epfd x).1.suspectedPeers = epfd.suspectedPeers ∧
        indications ((epfdProtocol n).handle () epfd x).2 = [] := epfd_between hx
    have hown := (epfd_polling n).own_handle p () epfd x ⟨h.localRank_eq, h.maxRank_eq⟩
    rw [hi, List.append_nil]
    refine ⟨hown.2, hown.1, hs ▸ h.nodup, h.alternates, fun q => ?_, h.remote⟩
    rw [hs]
    exact h.suspected q

end Handlers

section Path

variable {A : Finset ℤ} {π : Path (epfdSystem n) fun _ _ => True} {p q : ℤ}

theorem path_inStep {i : ℕ} (hp : ((π.state i).proc p).crashed = false) :
    InStep n p ((π.state i).proc p).state (indications ((π.state i).proc p).effects) := by
  obtain ⟨evs, hr⟩ := π.exists_run i
  refine local_invariant_of_live (R := fun p l => InStep n p l.state (indications l.effects)) (fun p => ?_)
    (fun evs s p r a stop _ _ _ _ ih => ?_) hr hp
  · exact in_step n p []
  · rw [Proc.perform, indications_append]
    exact ih.handle a.input

variable (hlive : DetectionLive A π) (hp : p ∈ A)
include hlive hp

theorem timer_act : ∃ᶠ i in atTop, ∃ r c, π.event i = some (.act p r (.call c) none) ∧ IsTimeout c :=
  (hlive.timer p hp).mono fun _ he => ⟨(), .timeout, he, rfl⟩

/-- In the end a process has heard of exactly those of `A` when its period ends. -/
theorem heard_iff : ∀ᶠ i in atTop, ∀ q ∈ peers n, q ≠ p → π.event i = some (.act p () (.call .timeout) none) →
    (q ∉ ((π.state i).proc p).state.alivePeers ↔ q ∉ A) := by
  refine (eventually_all_finset (peers n)).mpr fun q hq => ?_
  by_cases hqp : q = p
  · exact .of_forall fun _ hne => absurd hqp hne
  by_cases hqA : q ∈ A
  · filter_upwards [(epfd_polling n).eventually_awaited (timer_act hlive hp) hqp hq (fun i => hlive.up i p hp)
      (fun i => hlive.up i q hqA), hlive.prompt] with i hi hprompt _ he
    obtain ⟨hreq, hrep⟩ : ⟨p, q, HB_CODE⟩ ∉ (π.state i).flight ∧ ⟨q, p, IA_CODE⟩ ∉ (π.state i).flight :=
      hprompt _ he rfl q hq (hlive.up i q hqA)
    have hheard : q ∈ ((π.state i).proc p).state.alivePeers := (hi.resolve_left hreq).resolve_left hrep
    exact iff_of_false (not_not.mpr hheard) (not_not.mpr hqA)
  · filter_upwards [(epfd_polling n).eventually_not_alive (timer_act hlive hp) rfl rfl
      (hlive.silent p hp q (Finset.mem_sdiff.mpr ⟨hq, hqA⟩))] with i hi _ _
    exact iff_of_true hi hqA

theorem suspected_iff : ∀ᶠ i in atTop, ∀ q ∈ peers n, q ≠ p →
    (q ∈ ((π.state i).proc p).state.suspectedPeers ↔ q ∉ A) := by
  have htick : ∀ᶠ i in atTop, π.event i = some (.act p () (.call .timeout) none) →
      ∀ q ∈ peers n, q ≠ p → (q ∈ ((π.state (i + 1)).proc p).state.suspectedPeers ↔ q ∉ A) := by
    filter_upwards [heard_iff hlive hp] with i hi he q hq hqp
    have hin := path_inStep (hlive.up i p hp)
    rw [state_of_act he, act_state_self, ← hi q hq hqp he]
    exact mem_suspectedPeers_handleTimeout ⟨hin.localRank_eq, hin.maxRank_eq⟩ hin.nodup hq hqp
  refine Sequence.eventually_of_kept (hlive.timer p hp) htick ?_
  filter_upwards [htick] with i hi hkeep
  by_cases he : π.event i = some (.act p () (.call .timeout) none)
  · exact hi he
  · rcases proc_step (π := π) i (hlive.up (i + 1) p hp) with ⟨hs, -⟩ | ⟨r, a, hact, hs⟩
    · rwa [hs]
    · rw [hs]
      have hne : a.input ≠ .call .timeout := input_ne_timeout fun ha => he (ha ▸ hact)
      change ∀ q ∈ peers n, q ≠ p →
        (q ∈ ((epfdProtocol n).handle () ((π.state i).proc p).state a.input).1.suspectedPeers ↔ q ∉ A)
      rwa [(epfd_between hne).1]

theorem told_nothing : ∀ᶠ i in atTop,
    indications ((π.state (i + 1)).proc p).effects = indications ((π.state i).proc p).effects := by
  filter_upwards [heard_iff hlive hp, suspected_iff hlive hp] with i hi hs
  rcases proc_step (π := π) i (hlive.up (i + 1) p hp) with ⟨hsame, -⟩ | ⟨r, a, hact, hsame⟩
  · rw [hsame]
  · rw [hsame, Proc.perform, indications_append]
    refine (List.append_right_eq_self ..).mpr ?_
    by_cases ha : a = .call .timeout
    · subst ha
      have hin := path_inStep (π := π) (hlive.up i p hp)
      refine indications_epfdLoop fun q hq hqp => ?_
      rw [hin.localRank_eq] at hqp
      rw [mem_ranks, hin.maxRank_eq] at hq
      exact (hs q hq hqp).trans (hi q hq hqp hact).symm
    · exact (epfd_between (input_ne_timeout ha)).2

end Path

theorem epfd_eventually_perfect {A : Finset ℤ} {π : Path (epfdSystem n) fun _ _ => True}
    (hlive : DetectionLive A π) : EventuallyPerfect A π := by
  refine (eventually_all_finset A).mpr fun p hp => ?_
  filter_upwards [suspected_iff hlive hp, told_nothing hlive hp] with i hs htold
  refine ⟨fun q hq hqp => ?_, htold⟩
  have hin := path_inStep (π := π) (hlive.up i p hp)
  rw [(hin.alternates q).last_iff, ← hin.suspected q]
  exact hs q hq hqp

section Witness

/-- The period of `p` ends. -/
def periodEnds (p : ℤ) : Event Unit FdCall CString := .act p () (.call .timeout) none

/-- Process `p` gets a heartbeat of `q`. -/
def isAsked (p q : ℤ) : Event Unit FdCall CString := .act p () (.deliver q HB_CODE) none

/-- Process `p` gets a reply of `q`. -/
def isAnswered (p q : ℤ) : Event Unit FdCall CString := .act p () (.deliver q IA_CODE) none

/-- Process 3 of three crashes. The first period of process 1 ends before 2 has answered, so that 2 is suspected, and
restored at the end of the next one. -/
def suspectedTooSoon : List (Event Unit FdCall CString) :=
  [.act 1 () (.call .start) none, .act 2 () (.call .start) none, .crash 3, periodEnds 1, isAsked 2 1, isAsked 2 1,
    isAnswered 1 2, isAnswered 1 2, isAsked 1 2, isAnswered 2 1, periodEnds 1, periodEnds 2, isAsked 2 1, isAsked 1 2,
    isAnswered 1 2, isAnswered 2 1]

/-- Each of the two asks the other, who answers. -/
def roundTrip : List (Event Unit FdCall CString) :=
  [periodEnds 1, isAsked 2 1, isAnswered 1 2, periodEnds 2, isAsked 1 2, isAnswered 2 1]

theorem roundTrip_pos : 0 < roundTrip.length := by decide

/-- Where the first `k` steps of a round trip lead. -/
def tripFrom (s : EpfdState) (k : ℕ) : Option EpfdState :=
  (epfdSystem 3).exec (fun _ _ => True) s (roundTrip.take k)

theorem roundTrip_cases {e : Event Unit FdCall CString} (he : e ∈ roundTrip) :
    ∃ p ∈ ({1, 2} : Finset ℤ), ∃ a, e = .act p () a none ∧ ∀ src m, a ≠ .forge src m := by
  simp only [roundTrip, List.mem_cons, List.not_mem_nil, or_false] at he
  rcases he with rfl | rfl | rfl | rfl | rfl | rfl
  · exact ⟨1, by decide, _, rfl, nofun⟩
  · exact ⟨2, by decide, _, rfl, nofun⟩
  · exact ⟨1, by decide, _, rfl, nofun⟩
  · exact ⟨2, by decide, _, rfl, nofun⟩
  · exact ⟨1, by decide, _, rfl, nofun⟩
  · exact ⟨2, by decide, _, rfl, nofun⟩

section Live

variable {A : Finset ℤ} {π : Path (epfdSystem n) fun _ _ => True} {a : ℕ}

theorem up_of_timer {p : ℤ} (ht : ∃ᶠ i in atTop, π.event i = some (periodEnds p)) (i : ℕ) :
    ((π.state i).proc p).crashed = false := by
  rw [← Bool.not_eq_true]
  intro hc
  obtain ⟨j, hij, he⟩ := frequently_atTop.mp ht i
  have hgrows : Grows (π.state i) (π.state j) :=
    π.rel Grows.refl (fun _ _ _ => Grows.trans) (fun _ _ _ _ _ _ hn => grows_next hn) hij
  have hn : next (epfdProtocol n) (crashSetting n) (π.state j) (periodEnds p) = some (π.state (j + 1)) :=
    (π.of_event he).2
  rcases next_cases hn with ⟨q, r, x, stop, heq, hl, -, -, -⟩ | ⟨q, heq, -⟩
  · obtain ⟨rfl, -⟩ := (Event.act.injEq ..).mp heq
    have hup := (live_iff.mp hl).2
    rw [hgrows.crashed p hc, hc] at hup
    cases hup
  · cases heq

/-- Those of `A` end their periods when all that are left have answered. -/
theorem detectionLive_of_turns (hA : A ⊆ peers n) (hsilent : ∀ p ∈ A, ∀ q ∈ peers n \ A, Silent (π.state a) p q)
    (htimer : ∀ p ∈ A, ∃ᶠ i in atTop, π.event i = some (periodEnds p))
    (hprompt : ∀ i ≥ a, ∃ p ∈ A, ∃ x t, π.event i = some (.act p () x none) ∧ Alike A (π.state i) t ∧
      Synchronous n t (.act p () x none)) : DetectionLive A π := by
  have hstays : ∀ p ∈ A, ∀ q ∈ peers n \ A, ∀ i ≥ a, Silent (π.state i) p q := fun p hp q hq i hi =>
    π.kept (I := fun s => Silent s p q) (hsilent p hp q hq) (fun _ _ _ _ _ hn ih => silent_next hn ih) hi
  refine ⟨hA, fun i p hp => up_of_timer (htimer p hp) i, fun p hp q hq => ?_, htimer, ?_⟩
  · exact eventually_atTop.mpr ⟨a, hstays p hp q hq⟩
  · filter_upwards [eventually_ge_atTop a] with i hi e he
    obtain ⟨p, hp, x, t, hev, halike, ht⟩ := hprompt i hi
    obtain rfl := Option.some.inj (hev.symm.trans he)
    exact halike.prompt (fun q hq hqA => (hstays p hp q (Finset.mem_sdiff.mpr ⟨hq, hqA⟩) i hi).1) hp ht

end Live

/-- Process 3 has fallen silent, and after a round trip from `s` all is as at its beginning; the answers come in
time. -/
def GoesRound (s : EpfdState) : Prop :=
  (Silent s 1 3 ∧ Silent s 2 3) ∧ (∃ s' ∈ tripFrom s 6, Alike {1, 2} s' s) ∧
    ∀ j < 6, ∃ t ∈ tripFrom s j, Synchronous 3 t (inTurn roundTrip roundTrip_pos j)

instance (s : EpfdState) : Decidable (GoesRound s) := inferInstanceAs (Decidable (_ ∧ _ ∧ _))

theorem suspectedTooSoon_detected : ∃ π : Path (epfdSystem 3) fun _ _ => True,
    (indications ((π.state 16).proc 1).effects, indications ((π.state 16).proc 2).effects) =
      ([.suspect 2, .suspect 3, .restore 2], [.suspect 3]) ∧ EventuallyPerfect {1, 2} π := by
  obtain ⟨s, hrun, hs⟩ : ∃ s, Run (epfdSystem 3) (fun _ _ => True) suspectedTooSoon s ∧
      (decide (GoesRound s), indications (s.proc 1).effects, indications (s.proc 2).effects) =
        (true, [.suspect 2, .suspect 3, .restore 2], [.suspect 3]) :=
    exists_run_of_exec (fun s : EpfdState =>
      (decide (GoesRound s), indications (s.proc 1).effects, indications (s.proc 2).effects)) (by decide +kernel)
  obtain ⟨hround, htold⟩ := Prod.mk.inj hs
  obtain ⟨⟨h1, h2⟩, ⟨s', hs', halike⟩, hturns⟩ := of_decide_eq_true hround
  have hback : Run (epfdSystem 3) (fun _ _ => True) (suspectedTooSoon ++ roundTrip) s' := hrun.append_exec hs'
  obtain ⟨π, h16, hπ⟩ := hrun.exists_path_round Alike.refl (fun _ _ _ => Alike.trans)
    (fun u t e t' hR he _ hn => by
      obtain ⟨p, hp, a, rfl, ha⟩ := roundTrip_cases he
      obtain ⟨u', hn', hR'⟩ := hR.next hp ha hn
      exact ⟨u', trivial, hn', hR'⟩)
    hback roundTrip_pos halike
  change π.state 16 = s at h16
  have hcases : ∀ {p}, p ∈ ({1, 2} : Finset ℤ) → p = 1 ∨ p = 2 := fun hp => by simpa using hp
  refine ⟨π, by rw [h16]; exact htold, epfd_eventually_perfect
    (detectionLive_of_turns (a := 16) (by decide) (fun p hp q hq => ?_) (fun p hp => ?_) fun i hi => ?_)⟩
  · obtain rfl : q = 3 := by
      simp only [Finset.mem_sdiff, mem_peers, Finset.mem_insert, Finset.mem_singleton] at hq
      omega
    rw [h16]
    rcases hcases hp with rfl | rfl
    · exact h1
    · exact h2
  · have hmem : periodEnds p ∈ roundTrip := by
      rcases hcases hp with rfl | rfl
      · exact List.mem_cons_self
      · simp [roundTrip]
    refine frequently_atTop.mpr fun b => ?_
    obtain ⟨k, hk, he⟩ := frequently_atTop.mp (frequently_inTurn roundTrip_pos hmem) b
    exact ⟨16 + k, by omega, he ▸ (hπ k).2⟩
  · obtain ⟨k, rfl⟩ := Nat.exists_eq_add_of_le hi
    obtain ⟨⟨t, ht, hR⟩, hev⟩ := hπ k
    obtain ⟨t', ht', hsync⟩ := hturns (k % roundTrip.length) (Nat.mod_lt k roundTrip_pos)
    obtain rfl := ht.unique (hrun.append_exec ht')
    obtain ⟨p, hp, a, he, -⟩ := roundTrip_cases (inTurn_mem roundTrip_pos k)
    rw [inTurn_mod, he] at hsync
    exact ⟨p, hp, a, t, he ▸ hev, hR, hsync⟩

end Witness

end DSA
