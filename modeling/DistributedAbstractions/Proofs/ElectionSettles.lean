import DistributedAbstractions.Lib.Eventually
import DistributedAbstractions.Proofs.Election
import Mathlib.Data.Int.Interval
import Mathlib.Order.Filter.Finite

/-! The eventual leader electors come to trust the best of those that stay up: its period is the first to come
to rest, and those of the others grow until they hear from it. -/

namespace DSA

open CLib Filter Net Sequence Trans

section Candidates

variable {b hb c : Heartbeat} {cs : List Heartbeat} {ele : Ele}

/-- `hb` is `b`, or somebody else's and not as good. -/
def Yields (b hb : Heartbeat) : Prop := hb = b ∨ hb.sender ≠ b.sender ∧ Beats b hb

theorem Yields.eq_of_sender (h : Yields b hb) (hs : hb.sender = b.sender) : hb = b :=
  h.resolve_right fun h => h.1 hs

theorem mem_of_recordHeartbeat (h : c ∈ recordHeartbeat hb cs) : c = hb ∨ c ∈ cs := by
  induction cs with
  | nil => exact .inl (List.mem_singleton.mp h)
  | cons past rest ih =>
    unfold recordHeartbeat at h
    split_ifs at h with hs he
    · exact .inr (List.mem_cons_of_mem _ h)
    · exact .inr h
    · rcases List.mem_cons.mp h with rfl | h
      · exact .inr List.mem_cons_self
      · exact (ih h).imp_right (List.mem_cons_of_mem _)

theorem mem_recordHeartbeat_of_yields (hcs : ∀ c ∈ cs, Yields b c) (hhb : Yields b hb) (h : b ∈ cs ∨ hb = b) :
    b ∈ recordHeartbeat hb cs := by
  induction cs with
  | nil =>
    rcases h with h | rfl
    · cases h
    · exact List.mem_singleton_self _
  | cons past rest ih =>
    have hrest := ih (fun c hc => hcs c (List.mem_cons_of_mem _ hc))
    unfold recordHeartbeat
    split_ifs with hs he
    · -- a higher epoch: neither is the best one
      have hpast : past ≠ b := by
        rintro rfl
        rw [hhb.eq_of_sender hs.symm] at he
        exact absurd he (lt_irrefl _)
      rcases h with h | rfl
      · exact (List.mem_cons.mp h).resolve_left hpast.symm
      · exact absurd ((hcs past List.mem_cons_self).eq_of_sender hs) hpast
    · rcases h with h | rfl
      · exact h
      · rw [(hcs past List.mem_cons_self).eq_of_sender hs]
        exact List.mem_cons_self
    · by_cases hpast : past = b
      · rw [hpast]
        exact List.mem_cons_self
      · exact List.mem_cons_of_mem _ (hrest (h.imp_left fun h => (List.mem_cons.mp h).resolve_left (Ne.symm hpast)))

theorem bestCandidate_of_yields (hcs : ∀ c ∈ ele.candidates, Yields b c) (hself : Yields b ele.self)
    (hb : b ∈ ele.contenders) : bestCandidate ele = b := by
  refine IsBest.unique ⟨hb, fun x hx hne => ?_⟩ (isBest_bestCandidate ele)
  rcases hx with rfl | hx
  · exact (hself.resolve_left hne).2
  · exact ((hcs x hx).resolve_left hne).2

end Candidates

variable {w : Socket} {n : ℕ} {U : Finset ℤ} {δ : ℤ} {π : Path (election w n) ElectionFair}

theorem ElectionStep.file_of_up {s s' : Election} {e : ElectionEvent} (hs : ElectionStep w n s e s') {p : ℤ}
    (hp : s.node p ≠ none) : s'.file p = s.file p := by
  cases hs with
  | @store q i stop hq hdown hi =>
    rw [Election.stored_file, if_neg]
    rintro rfl
    exact hp hdown
  | @boot q opened stop ele hq hdown hi hele =>
    change (s.stored q _).file p = _
    rw [Election.stored_file, if_neg]
    rintro rfl
    exact hp hdown
  | hear hnode hsent hair hx hle => rfl
  | timeout hnode => rfl
  | crash hnode => rfl

section Path

variable (hn : n ≤ INT_MAX)
include hn

theorem path_sound (i : ℕ) : (π.state i).Sound w n := by
  obtain ⟨evs, hr⟩ := π.exists_run i
  exact election_sound hn hr

theorem path_election_step (i : ℕ) : π.event i = none ∧ π.state (i + 1) = π.state i ∨
    ∃ e, π.event i = some e ∧ ElectionStep w n (π.state i) e (π.state (i + 1)) := by
  rcases π.step i with hstay | ⟨e, he, hok, hnext⟩
  · exact .inl hstay
  · exact .inr ⟨e, he, electionStep_of_next (path_sound hn i) hn hok hnext⟩

theorem path_event_step {i : ℕ} {e : ElectionEvent} (he : π.event i = some e) :
    ElectionStep w n (π.state i) e (π.state (i + 1)) :=
  electionStep_of_next (path_sound hn i) hn (π.of_event he).1 (π.of_event he).2

theorem path_later {i j : ℕ} (hij : i ≤ j) (p : ℤ) :
    storedEpoch ((π.state i).file p) ≤ storedEpoch ((π.state j).file p) ∧
      ((π.state i).node p = none → (π.state j).node p ≠ none →
        storedEpoch ((π.state i).file p) < storedEpoch ((π.state j).file p)) := by
  refine π.rel (R := fun s s' => storedEpoch (s.file p) ≤ storedEpoch (s'.file p) ∧
    (s.node p = none → s'.node p ≠ none → storedEpoch (s.file p) < storedEpoch (s'.file p)))
    (fun s => ⟨le_rfl, fun hnone hsome => absurd hnone hsome⟩) (fun s t u hst htu => ?_) ?_ hij
  · refine ⟨hst.1.trans htu.1, fun hnone hsome => ?_⟩
    by_cases ht : t.node p = none
    · exact hst.1.trans_lt (htu.2 ht hsome)
    · exact (hst.2 hnone ht).trans_le htu.1
  · intro evs s e s' hr hok hnext
    have hs := election_sound hn hr
    exact (electionStep_of_next hs hn hok hnext).later hs p

theorem path_sends {i : ℕ} {hb : Heartbeat} {q : ℤ} (hsent : hb.Sendable n)
    (hput : SentAt π i (heartbeatDatagram w hb q)) : hb.epoch = storedEpoch ((π.state (i + 1)).file hb.sender) ∧
      ((π.state i).node hb.sender ≠ none ∨
        storedEpoch ((π.state i).file hb.sender) < storedEpoch ((π.state (i + 1)).file hb.sender)) := by
  rcases path_election_step (π := π) hn i with ⟨-, hstay⟩ | ⟨e, -, hs⟩
  · unfold SentAt at hput
    rw [hstay] at hput
    exact absurd hput (lt_irrefl _)
  · exact hs.sends (path_sound hn i) hn hsent hput

variable (hlive : ElectionLive U π δ)
include hlive

theorem epoch_settles {p : ℤ} (hp : p ∈ U) : ∃ e, ∀ᶠ i in atTop, storedEpoch ((π.state i).file p) = e := by
  refine exists_eq_of_stays ((hlive.stays p hp).mono fun i hup => ?_)
  rcases path_election_step (π := π) hn i with ⟨-, hstay⟩ | ⟨e, -, hs⟩
  · rw [hstay]
  · rw [hs.file_of_up hup]

/-- A heartbeat that is sent again and again is one of a process that stays up, with its last epoch. -/
theorem current_of_sent {hb : Heartbeat} {q : ℤ} (hsent : hb.Sendable n)
    (hput : ∃ᶠ i in atTop, SentAt π i (heartbeatDatagram w hb q)) :
    hb.sender ∈ U ∧ ∀ᶠ i in atTop, storedEpoch ((π.state i).file hb.sender) = hb.epoch := by
  have hp : hb.sender ∈ U := by
    by_contra hp
    -- it is sent, its sender goes down, and it is sent once more
    obtain ⟨i, hi⟩ := hput.exists
    obtain ⟨k, hik, hdown⟩ := frequently_atTop.mp (hlive.leaves _ hp) (i + 1)
    obtain ⟨l, hkl, hl⟩ := frequently_atTop.mp hput k
    have h1 := (path_sends hn hsent hi).1
    obtain ⟨h2, hup⟩ := path_sends hn hsent hl
    have h3 := (path_later (π := π) hn hik hb.sender).1
    obtain ⟨h4, hlt⟩ := path_later (π := π) hn hkl hb.sender
    have h5 := (path_later (π := π) hn (Nat.le_add_right l 1) hb.sender).1
    rcases hup with hup | hup
    · have := hlt hdown hup
      omega
    · omega
  refine ⟨hp, ?_⟩
  obtain ⟨e, he⟩ := epoch_settles hn hlive hp
  obtain ⟨a, ha⟩ := eventually_atTop.mp he
  obtain ⟨l, hal, hl⟩ := frequently_atTop.mp hput a
  have heq := (path_sends hn hsent hl).1
  rw [ha (l + 1) (by omega)] at heq
  rwa [heq]

omit hn hlive in
theorem finite_sendable : {hb : Heartbeat | hb.Sendable n}.Finite := by
  refine ((peers n ×ˢ Finset.Icc (0 : ℤ) INT_MAX).finite_toSet.image fun x => ⟨x.1, x.2⟩).subset ?_
  rintro ⟨sender, epoch⟩ ⟨hrank, hnonneg, hbounded⟩
  exact ⟨(sender, epoch), by simpa [hnonneg, hbounded] using mem_peers.mp hrank, rfl⟩

/-- In the end only those arrive that are sent again and again. -/
theorem current_of_arrives : ∀ᶠ i in atTop, ∀ hb : Heartbeat, hb.Sendable n → ∀ p ∈ U,
    ArrivesAt π i (heartbeatDatagram w hb p) →
      hb.sender ∈ U ∧ ∀ᶠ j in atTop, storedEpoch ((π.state j).file hb.sender) = hb.epoch := by
  have hone : ∀ hb ∈ {hb : Heartbeat | hb.Sendable n}, ∀ᶠ i in atTop, ∀ p ∈ U,
      ArrivesAt π i (heartbeatDatagram w hb p) →
        hb.sender ∈ U ∧ ∀ᶠ j in atTop, storedEpoch ((π.state j).file hb.sender) = hb.epoch := by
    intro hb hsent
    refine (eventually_all_finset U).mpr fun p _ => ?_
    by_cases hput : ∃ᶠ i in atTop, SentAt π i (heartbeatDatagram w hb p)
    · exact .of_forall fun _ _ => current_of_sent hn hlive hsent hput
    · have hnone := not_frequently.mp fun harr => hput (hlive.finite_duplication _ harr)
      exact hnone.mono fun i hnot harr => absurd harr hnot
  exact (eventually_all_finite finite_sendable).mpr hone

end Path

section Elector

/-- The elector of `p`, for a process that is up. -/
def elector (π : Path (election w n) ElectionFair) (p : ℤ) (i : ℕ) : Ele := ((π.state i).node p).getD (eleNew p n 0)

theorem elector_eq {p : ℤ} {i : ℕ} {ele : Ele} (h : (π.state i).node p = some ele) : elector π p i = ele := by
  rw [elector, h]
  rfl

/-- What happens to an elector that is up before and after. -/
inductive EleMoves (π : Path (election w n) ElectionFair) (p : ℤ) (i : ℕ) : Prop
  | idle (hele : elector π p (i + 1) = elector π p i) (htrusts : (π.state (i + 1)).trusts p = (π.state i).trusts p)
      (hno : ∀ stop, π.event i ≠ some (.timeout p stop)) (hnone : ∀ d : Datagram, d.dst = p → ¬ ArrivesAt π i d)
  | hear {hb} (hsent : hb.Sendable n) (harr : ArrivesAt π i (heartbeatDatagram w hb p))
      (hele : elector π p (i + 1) =
        { elector π p i with candidates := recordHeartbeat hb (elector π p i).candidates })
      (htrusts : (π.state (i + 1)).trusts p = (π.state i).trusts p)
      (hno : ∀ stop, π.event i ≠ some (.timeout p stop))
  | tick (hev : π.event i = some (.timeout p none)) (hele : elector π p (i + 1) = (eleHandleTimeout (elector π p i)).1)
      (htrusts : (π.state (i + 1)).trusts p =
        (π.state i).trusts p ++ indications (eleHandleTimeout (elector π p i)).2)

theorem eleMoves (hn : n ≤ INT_MAX) {p : ℤ} {i : ℕ} (hp : (π.state i).node p ≠ none)
    (hp' : (π.state (i + 1)).node p ≠ none) : EleMoves π p i := by
  obtain ⟨ele, hele⟩ := Option.ne_none_iff_exists'.mp hp
  rcases path_election_step (π := π) hn i with ⟨hnone, hstay⟩ | ⟨e, he, hs⟩
  · refine .idle (by rw [elector, elector, hstay]) (by rw [hstay]) (by simp [hnone]) ?_
    rintro d - ⟨x, hx, -⟩
    rw [hnone] at hx
    cases hx
  generalize hs' : π.state (i + 1) = s' at hs hp'
  have hsame : s'.node p = (π.state i).node p → s'.trusts p = (π.state i).trusts p →
      (∀ stop, e ≠ .timeout p stop) → (∀ x, e ≠ .receive p x) → EleMoves π p i := by
    intro hnode htrusts hno hrec
    refine .idle (by rw [elector, elector, hs', hnode]) (by rw [hs', htrusts]) (by simpa [he] using hno) ?_
    rintro d rfl ⟨x, hx, -⟩
    exact hrec x (Option.some.inj (he.symm.trans hx))
  have hne : ∀ {q}, (π.state i).node q = none → p ≠ q := by
    rintro q hq rfl
    exact hp hq
  cases hs with
  | store hq hdown hi => exact hsame rfl rfl nofun nofun
  | boot hq hdown hi hele =>
    exact hsame (Function.update_of_ne (hne hdown) _ _) (Function.update_of_ne (hne hdown) _ _) nofun nofun
  | @hear q x ele' hb hnode hsent hair hx hle =>
    by_cases hpq : p = q
    · subst hpq
      obtain rfl := Option.some.inj (hele.symm.trans hnode)
      refine .hear hsent ⟨x, he, hx⟩ ?_ (by rw [hs']) (by simp [he])
      rw [elector_eq hele, elector, hs']
      simp
    · refine hsame (Function.update_of_ne hpq _ _) rfl nofun fun x' hx' => ?_
      exact hpq ((ElectionEvent.receive.injEq ..).mp hx').1.symm
  | @timeout q ele' stop hnode =>
    by_cases hpq : p = q
    · subst hpq
      obtain rfl := Option.some.inj (hele.symm.trans hnode)
      rw [Election.timeout, Election.perform_node, if_pos rfl] at hp'
      obtain rfl : stop = none := by
        cases stop with
        | none => rfl
        | some k => exact absurd rfl hp'
      refine .tick he ?_ ?_
      · rw [elector_eq hele, elector, hs', Election.timeout, Election.perform_node, if_pos rfl]
        rfl
      · rw [hs', elector_eq hele, Election.timeout, Election.perform_trusts, if_pos rfl]
        rfl
    · exact hsame (Function.update_of_ne hpq _ _) (Function.update_of_ne hpq _ _)
        (fun stop' hx' => hpq ((ElectionEvent.timeout.injEq ..).mp hx').1.symm) nofun
  | @crash q ele' hnode =>
    have hpq : p ≠ q := by
      rintro rfl
      exact hp' (Function.update_self _ _ _)
    exact hsame (Function.update_of_ne hpq _ _) rfl nofun nofun

end Elector

/-- Those of `U` are up with epochs that are not better than `b`, and so are the heartbeats that arrive. -/
structure Calm (U : Finset ℤ) (π : Path (election w n) ElectionFair) (b : Heartbeat) (i : ℕ) : Prop where
  up : ∀ p ∈ U, (π.state i).node p ≠ none
  self : ∀ p ∈ U, Yields b (elector π p i).self
  best : (elector π b.sender i).self = b
  arrives : ∀ hb : Heartbeat, hb.Sendable n → ∀ p ∈ U, ArrivesAt π i (heartbeatDatagram w hb p) → Yields b hb

theorem exists_isBest {e : ℤ → ℤ} (hU : U.Nonempty) :
    ∃ b, IsBest {hb : Heartbeat | hb.sender ∈ U ∧ hb.epoch = e hb.sender} b := by
  obtain ⟨p, hp⟩ := hU
  have hset : {hb : Heartbeat | hb.sender ∈ U ∧ hb.epoch = e hb.sender} =
      {hb | hb = ⟨p, e p⟩ ∨ hb ∈ U.toList.map fun q => ⟨q, e q⟩} := by
    ext ⟨sender, epoch⟩
    simp only [Set.mem_ofPred_eq, List.mem_map, Finset.mem_toList, Heartbeat.mk.injEq]
    constructor
    · rintro ⟨hs, rfl⟩
      exact .inr ⟨sender, hs, rfl, rfl⟩
    · rintro (⟨rfl, rfl⟩ | ⟨q, hq, rfl, rfl⟩)
      · exact ⟨hp, rfl⟩
      · exact ⟨hq, rfl⟩
  rw [hset]
  exact ⟨_, isBest_foldl _ _⟩

theorem exists_calm (hn : n ≤ INT_MAX) (hlive : ElectionLive U π δ) :
    ∃ b, b.sender ∈ U ∧ ∀ᶠ i in atTop, Calm U π b i ∧ IsBest ((π.state i).standing U) b := by
  choose! e he using fun p (hp : p ∈ U) => epoch_settles hn hlive hp
  obtain ⟨b, hbest⟩ := exists_isBest (e := e) hlive.nonempty
  have hyields : ∀ hb : Heartbeat, hb.sender ∈ U → hb.epoch = e hb.sender → Yields b hb := by
    intro hb hU hepoch
    by_cases heq : hb = b
    · exact .inl heq
    · refine .inr ⟨fun hs => heq ?_, hbest.2 hb ⟨hU, hepoch⟩ heq⟩
      obtain ⟨sender, epoch⟩ := hb
      obtain ⟨sender', epoch'⟩ := b
      obtain rfl : sender = sender' := hs
      exact congrArg _ (hepoch.trans hbest.1.2.symm)
  refine ⟨b, hbest.1.1, ?_⟩
  have hup : ∀ᶠ i in atTop, ∀ p ∈ U, (π.state i).node p ≠ none ∧ storedEpoch ((π.state i).file p) = e p :=
    (eventually_all_finset U).mpr fun p hp => (hlive.stays p hp).and (he p hp)
  filter_upwards [hup, current_of_arrives hn hlive] with i hi harr
  have hself : ∀ p ∈ U, ∃ ele, (π.state i).node p = some ele ∧ ele.self = ⟨p, e p⟩ := by
    intro p hp
    obtain ⟨ele, hele⟩ := Option.ne_none_iff_exists'.mp (hi p hp).1
    have hs := path_sound (π := π) hn i
    exact ⟨ele, hele, congrArg₂ Heartbeat.mk (hs.rank p ele hele).2.1 ((hs.epoch p ele hele).trans (hi p hp).2)⟩
  have helector : ∀ p ∈ U, (elector π p i).self = ⟨p, e p⟩ := by
    intro p hp
    obtain ⟨ele, hele, heq⟩ := hself p hp
    rw [elector_eq hele, heq]
  refine ⟨⟨fun p hp => (hi p hp).1, fun p hp => ?_, ?_, fun hb hsent p hp ha => ?_⟩, ?_⟩
  · rw [helector p hp]
    exact hyields _ hp rfl
  · rw [helector b.sender hbest.1.1, ← hbest.1.2]
  · obtain ⟨hU, hev⟩ := harr hb hsent p hp ha
    obtain ⟨j, hj, hj'⟩ := (hev.and (he _ hU)).exists
    exact hyields hb hU (hj.symm.trans hj')
  · have hset : (π.state i).standing U = {hb : Heartbeat | hb.sender ∈ U ∧ hb.epoch = e hb.sender} := by
      ext hb
      refine and_congr_right fun hU => ?_
      obtain ⟨ele, hele, heq⟩ := hself hb.sender hU
      constructor
      · rintro ⟨ele', hele', rfl⟩
        obtain rfl := Option.some.inj (hele.symm.trans hele')
        exact congrArg Heartbeat.epoch heq
      · intro hepoch
        exact ⟨ele, hele, heq.symm ▸ congrArg (Heartbeat.mk hb.sender) hepoch⟩
    rw [hset]
    exact hbest

section Settling

variable (hn : n ≤ INT_MAX) (hlive : ElectionLive U π δ) {b : Heartbeat} (hb : b.sender ∈ U)
  (hcalm : ∀ᶠ i in atTop, Calm U π b i) {p : ℤ} (hp : p ∈ U)

include hn hb in
theorem sendable_of_calm {i : ℕ} (h : Calm U π b i) : b.Sendable n := by
  obtain ⟨ele, hele⟩ := Option.ne_none_iff_exists'.mp (h.up b.sender hb)
  have hs := path_sound (π := π) hn i
  have hself : ele.self = b := elector_eq hele ▸ h.best
  have hepoch : b.epoch = storedEpoch ((π.state i).file b.sender) :=
    (congrArg Heartbeat.epoch hself).symm.trans (hs.epoch _ _ hele)
  exact ⟨(hs.rank _ _ hele).1, hepoch ▸ (hs.file _).nonneg, hepoch ▸ (hs.file _).bounded⟩

include hn hp hcalm in
theorem moves_of_calm : ∀ᶠ i in atTop, EleMoves π p i := by
  filter_upwards [hcalm, (tendsto_add_atTop_nat 1).eventually hcalm] with i hi hi'
  exact eleMoves hn (hi.up p hp) (hi'.up p hp)

include hn hlive hcalm hp in
theorem clean_of_calm : ∀ᶠ i in atTop, ∀ c ∈ (elector π p i).candidates, Yields b c := by
  refine eventually_of_kept (hlive.timer p hp) ?_ ?_
  · filter_upwards [moves_of_calm hn hcalm hp] with i hi hev
    cases hi with
    | idle hele htrusts hno hnone => exact absurd hev (hno none)
    | hear hsent harr hele htrusts hno => exact absurd hev (hno none)
    | tick hev hele htrusts =>
      rw [hele, handleTimeout_candidates]
      exact fun c hc => (List.not_mem_nil hc).elim
  · filter_upwards [moves_of_calm hn hcalm hp, hcalm] with i hi hc hclean
    cases hi with
    | idle hele htrusts hno hnone => rwa [hele]
    | @hear hb hsent harr hele htrusts hno =>
      rw [hele]
      intro c hc'
      rcases mem_of_recordHeartbeat hc' with rfl | hc'
      · exact hc.arrives _ hsent p hp harr
      · exact hclean c hc'
    | tick hev hele htrusts =>
      rw [hele, handleTimeout_candidates]
      exact fun c hc => (List.not_mem_nil hc).elim

/-- All that is so from some time on. -/
structure Steadied (U : Finset ℤ) (π : Path (election w n) ElectionFair) (b : Heartbeat) (p : ℤ) (i : ℕ) : Prop where
  calm : Calm U π b i
  moves : EleMoves π p i
  clean : ∀ c ∈ (elector π p i).candidates, Yields b c

include hn hlive hcalm hp in
theorem steadied_of_calm : ∀ᶠ i in atTop, Steadied U π b p i := by
  filter_upwards [hcalm, moves_of_calm hn hcalm hp, clean_of_calm hn hlive hcalm hp] with i h1 h2 h3
  exact ⟨h1, h2, h3⟩

include hp in
theorem Steadied.elects {i : ℕ} (h : Steadied U π b p i) (hknows : b ∈ (elector π p i).contenders)
    (hev : π.event i = some (.timeout p none)) : (elector π p (i + 1)).leader = b.sender := by
  cases h.moves with
  | idle hele htrusts hno hnone => exact absurd hev (hno none)
  | hear hsent harr hele htrusts hno => exact absurd hev (hno none)
  | tick hev hele htrusts =>
    rw [hele, handleTimeout_leader, bestCandidate_of_yields h.clean (h.calm.self p hp) hknows]

theorem EleMoves.same {i : ℕ} (h : EleMoves π p i) (hev : π.event i ≠ some (.timeout p none)) :
    (elector π p (i + 1)).leader = (elector π p i).leader ∧
      (elector π p (i + 1)).periodDurationSecs = (elector π p i).periodDurationSecs ∧
      (π.state (i + 1)).trusts p = (π.state i).trusts p := by
  cases h with
  | idle hele htrusts hno hnone => exact ⟨by rw [hele], by rw [hele], htrusts⟩
  | hear hsent harr hele htrusts hno => exact ⟨by rw [hele], by rw [hele], htrusts⟩
  | tick hev' hele htrusts => exact absurd hev' hev

theorem EleMoves.period {i : ℕ} (h : EleMoves π p i) : (elector π p (i + 1)).periodDurationSecs =
    if (elector π p (i + 1)).leader = (elector π p i).leader then (elector π p i).periodDurationSecs
    else (elector π p i).periodDurationSecs + HEARTBEAT_INCREMENT_SEC := by
  by_cases hev : π.event i = some (.timeout p none)
  · cases h with
    | idle hele htrusts hno hnone => exact absurd hev (hno none)
    | hear hsent harr hele htrusts hno => exact absurd hev (hno none)
    | tick hev hele htrusts =>
      rw [hele]
      exact handleTimeout_period _
  · obtain ⟨hl, hd, -⟩ := h.same hev
    rw [hl, if_pos rfl, hd]

include hn hp in
/-- What arrives from `b` is known when the period ends. -/
theorem known_of_arrives {a j i : ℕ} (ha : ∀ i, a ≤ i → Steadied U π b p i) (haj : a ≤ j) (hji : j < i)
    (hsent : b.Sendable n) (harr : ArrivesAt π j (heartbeatDatagram w b p)) (hperiod : SamePeriod π p j i) :
    b ∈ (elector π p i).candidates := by
  induction i, hji using Nat.le_induction with
  | base =>
    have hj := ha j haj
    cases hj.moves with
    | idle hele htrusts hno hnone => exact absurd harr (hnone _ rfl)
    | @hear hb' hsent' harr' hele htrusts hno =>
      obtain ⟨x, hx, hxb⟩ := harr
      obtain ⟨x', hx', hxb'⟩ := harr'
      obtain ⟨-, rfl⟩ := (ElectionEvent.receive.injEq ..).mp (Option.some.inj (hx.symm.trans hx'))
      rw [hele, hsent.eq_of_bytes hsent' hn (hxb.symm.trans hxb')]
      exact mem_recordHeartbeat_of_yields (fun c hc => hsent.eq_of_bytes hsent' hn (hxb.symm.trans hxb') ▸ hj.clean c hc)
        (.inl rfl) (.inr rfl)
    | tick hev hele htrusts =>
      obtain ⟨x, hx, -⟩ := harr
      rw [hev] at hx
      cases hx
  | succ i hji ih =>
    have hi := ha i (by omega)
    have hmem := ih fun k hjk hki => hperiod k hjk (by omega)
    cases hi.moves with
    | idle hele htrusts hno hnone => rwa [hele]
    | @hear hb' hsent' harr' hele htrusts hno =>
      rw [hele]
      exact mem_recordHeartbeat_of_yields hi.clean (hi.calm.arrives _ hsent' p hp harr') (.inl hmem)
    | tick hev hele htrusts => exact absurd hev (hperiod i (by omega) (by omega) none)

include hn hlive hcalm hp in
theorem leader_of_known (hknows : ∀ᶠ i in atTop, π.event i = some (.timeout p none) → b ∈ (elector π p i).contenders) :
    ∀ᶠ i in atTop, (elector π p i).leader = b.sender := by
  refine eventually_of_kept (hlive.timer p hp) ?_ ?_
  · filter_upwards [steadied_of_calm hn hlive hcalm hp, hknows] with i hi hk hev
    exact hi.elects hp (hk hev) hev
  · filter_upwards [steadied_of_calm hn hlive hcalm hp, hknows] with i hi hk hl
    by_cases hev : π.event i = some (.timeout p none)
    · exact hi.elects hp (hk hev) hev
    · exact (hi.moves.same hev).1.trans hl

include hn hlive hb hcalm in
theorem best_trusts_itself : ∀ᶠ i in atTop, (elector π b.sender i).leader = b.sender :=
  leader_of_known hn hlive hcalm hb (hcalm.mono fun _ hi _ => .inl hi.best.symm)

include hn hlive hb hcalm in
theorem best_period_settles : ∃ D, ∀ᶠ i in atTop, (elector π b.sender i).periodDurationSecs = D := by
  have htrusts := best_trusts_itself hn hlive hb hcalm
  refine exists_eq_of_stays ?_
  filter_upwards [moves_of_calm hn hcalm hb, htrusts, (tendsto_add_atTop_nat 1).eventually htrusts] with i hi hl hl'
  rw [hi.period, if_pos (hl'.trans hl.symm)]

include hn hcalm hp in
theorem period_grows :
    ∀ᶠ i in atTop, (elector π p i).periodDurationSecs ≤ (elector π p (i + 1)).periodDurationSecs := by
  filter_upwards [moves_of_calm hn hcalm hp] with i hi
  have hinc : HEARTBEAT_INCREMENT_SEC = 2 := rfl
  rw [hi.period]
  split_ifs
  · exact le_rfl
  · omega

include hn hlive hb hcalm hp in
/-- A period that is long enough lets `p` hear from `b` each time. -/
theorem leader_of_long_period (hpb : b.sender ≠ p) {D : ℤ}
    (hD : ∀ᶠ i in atTop, (elector π b.sender i).periodDurationSecs = D)
    (hlong : ∀ᶠ i in atTop, D + δ ≤ (elector π p i).periodDurationSecs) :
    ∀ᶠ i in atTop, (elector π p i).leader = b.sender := by
  refine leader_of_known hn hlive hcalm hp ?_
  obtain ⟨a, ha⟩ := eventually_atTop.mp (steadied_of_calm hn hlive hcalm hp)
  obtain ⟨t, hat, ht⟩ := frequently_atTop.mp (hlive.timer p hp) a
  filter_upwards [hlive.timely, hcalm, hD, hlong, eventually_gt_atTop t] with i htimely hi hDi hlongi hti hev
  obtain ⟨ele, hele⟩ := Option.ne_none_iff_exists'.mp (hi.up p hp)
  obtain ⟨ele', hele'⟩ := Option.ne_none_iff_exists'.mp (hi.up b.sender hb)
  rw [elector_eq hele] at hlongi
  rw [elector_eq hele'] at hDi
  obtain ⟨j, hji, harr, hperiod⟩ := htimely p hp b.sender hb hpb hev ele ele' hele hele' (by omega)
  have hself : ele'.self = b := elector_eq hele' ▸ hi.best
  rw [hself] at harr
  -- the period began after `p` had come to rest
  have haj : a ≤ j := by
    by_contra hlt
    exact hperiod t (by omega) hti none ht
  exact .inr (known_of_arrives hn hp ha haj hji (sendable_of_calm hn hb hi) harr hperiod)

include hn in
theorem sent_of_tick {i : ℕ} (hi : Calm U π b i) (hpb : b.sender ≠ p) (hpn : p ∈ peers n)
    (hev : π.event i = some (.timeout b.sender none)) : SentAt π i (heartbeatDatagram w b p) := by
  have hs := path_sound (π := π) hn i
  have hstep := path_event_step hn hev
  unfold SentAt
  generalize π.state (i + 1) = s' at hstep
  cases hstep with
  | @timeout _ ele _ hnode =>
    obtain ⟨-, hrank, hmax⟩ := hs.rank _ _ hnode
    have hself : ele.self = b := elector_eq hnode ▸ hi.best
    have hes : ∀ d m, .send d m ∈ (eleHandleTimeout ele).2 → .send d m ∈ sendHeartbeats ele :=
      fun d m => send_mem_eleHandleTimeout.mp
    have hmsg : .send p (snprintf MAX_MSG_LEN (HE_CODE ++ ',' :: fmtInt ele.localEpoch)) ∈
        cut none (eleHandleTimeout ele).2 :=
      send_mem_eleHandleTimeout.mpr (mem_sendHeartbeats.mpr ⟨hmax.symm ▸ hpn, fun h => hpb (hrank ▸ h.symm), rfl⟩)
    have hput := (Election.mem_emitted (w := w) hes hrank).mpr ⟨p, _, hmsg, rfl⟩
    rw [hself] at hput
    change _ < ((π.state i).air ++ _).count _
    rw [List.count_append]
    exact Nat.lt_add_right_iff_pos.mpr (List.count_pos_iff.mpr hput)

include hn hlive hb hcalm hp in
/-- A period that never gets long enough comes to rest, and so does the leader, who has to be the one that `p`
hears from again and again. -/
theorem leader_of_short_period (hpb : b.sender ≠ p) {B : ℤ}
    (hshort : ∀ᶠ i in atTop, (elector π p i).periodDurationSecs < B) :
    ∀ᶠ i in atTop, (elector π p i).leader = b.sender := by
  obtain ⟨D, hD⟩ := exists_eq_of_bounded (period_grows hn hcalm hp) hshort
  obtain ⟨l, hl⟩ : ∃ l, ∀ᶠ i in atTop, (elector π p i).leader = l := by
    refine exists_eq_of_stays ?_
    filter_upwards [moves_of_calm hn hcalm hp, hD, (tendsto_add_atTop_nat 1).eventually hD] with i hi hDi hDi'
    have hinc : HEARTBEAT_INCREMENT_SEC = 2 := rfl
    have hperiod := hi.period
    by_contra hne
    rw [if_neg hne] at hperiod
    omega
  obtain ⟨a, ha⟩ := eventually_atTop.mp ((steadied_of_calm hn hlive hcalm hp).and hl)
  have hsends : ∃ᶠ i in atTop, SentAt π i (heartbeatDatagram w b p) :=
    ((hlive.timer _ hb).and_eventually hcalm).mono fun _ ⟨hev, hi⟩ => sent_of_tick hn hi hpb (hlive.ranks hp) hev
  obtain ⟨j, haj, hj⟩ := frequently_atTop.mp (hlive.fair_loss _ hp hsends) a
  obtain ⟨i, hji, hev, hfirst⟩ := exists_first (P := fun i => ∃ stop, π.event i = some (.timeout p stop))
    ((hlive.timer p hp).mono fun _ hev => ⟨none, hev⟩) (j + 1)
  have hi := (ha i (by omega)).1
  have hknows := known_of_arrives hn hp (fun i hai => (ha i hai).1) haj hji (sendable_of_calm hn hb hi.calm) hj
    fun k hjk hki stop hev => hfirst k hjk hki ⟨stop, hev⟩
  have hlb : l = b.sender := by
    obtain ⟨stop, hev⟩ := hev
    cases hi.moves with
    | idle hele htrusts hno hnone => exact absurd hev (hno stop)
    | hear hsent harr hele htrusts hno => exact absurd hev (hno stop)
    | tick hev' hele htrusts => exact (ha (i + 1) (by omega)).2.symm.trans (hi.elects hp (.inr hknows) hev')
  exact hlb ▸ hl

include hn hlive hb hcalm hp in
theorem leader_settles : ∀ᶠ i in atTop, (elector π p i).leader = b.sender := by
  by_cases hpb : b.sender = p
  · exact hpb ▸ best_trusts_itself hn hlive hb hcalm
  obtain ⟨D, hD⟩ := best_period_settles hn hlive hb hcalm
  by_cases hlong : ∃ᶠ i in atTop, D + δ ≤ (elector π p i).periodDurationSecs
  · obtain ⟨a, ha⟩ := eventually_atTop.mp (period_grows hn hcalm hp)
    obtain ⟨i, hai, hi⟩ := frequently_atTop.mp hlong a
    refine leader_of_long_period hn hlive hb hcalm hp hpb hD (eventually_atTop.mpr ⟨i, fun j hij => hi.trans ?_⟩)
    exact of_stays (R := fun i j => (elector π p i).periodDurationSecs ≤ (elector π p j).periodDurationSecs)
      (fun _ => le_rfl) (fun i j hai hij ih => ih.trans (ha j (hai.trans hij))) hai hij
  · exact leader_of_short_period hn hlive hb hcalm hp hpb ((not_frequently.mp hlong).mono fun _ => not_le.mp)

end Settling

section Witness

def heartbeatCopy (hb : Heartbeat) (q : ℤ) : ElectionEvent :=
  .receive q ⟨(heartbeatDatagram plainSocket hb q).bytes, [], [], []⟩

/-- Three processes come up, and the third crashes. The first hears from it, from nobody, and from the second. -/
def threeTrusted : List ElectionEvent :=
  [.boot 1 (.through true true) none, .boot 2 (.through true true) none, .boot 3 (.through true true) none, .crash 3,
    heartbeatCopy ⟨3, 1⟩ 1, .timeout 1 none, .timeout 1 none, heartbeatCopy ⟨2, 1⟩ 1, .timeout 1 none,
    .timeout 2 none]

def follower : Ele := { eleNew 1 3 1 with leader := 2, periodDurationSecs := 8 }

def followed : Ele := { eleNew 2 3 1 with leader := 2, periodDurationSecs := 6 }

/-- The two exchange heartbeats. The second has two periods while the first has one, and one of the heartbeats
that it sends to the first is lost. -/
def exchange (k : ℕ) : ElectionEvent :=
  match k % 5 with
  | 0 => heartbeatCopy ⟨2, 1⟩ 1
  | 1 => .timeout 1 none
  | 2 => heartbeatCopy ⟨1, 1⟩ 2
  | _ => .timeout 2 none

/-- What is sent then. -/
def exchanged (k : ℕ) : List Datagram :=
  match k % 5 with
  | 0 | 2 => []
  | 1 => [heartbeatDatagram plainSocket ⟨1, 1⟩ 2, heartbeatDatagram plainSocket ⟨1, 1⟩ 3]
  | _ => [heartbeatDatagram plainSocket ⟨2, 1⟩ 1, heartbeatDatagram plainSocket ⟨2, 1⟩ 3]

/-- What they have heard of each other. -/
def heardLast (k r : ℕ) (hb : Heartbeat) : List Heartbeat := if k % 5 = r then [hb] else []

structure Exchanging (k : ℕ) (s : Election) : Prop where
  first : s.node 1 = some { follower with candidates := heardLast k 1 ⟨2, 1⟩ }
  second : s.node 2 = some { followed with candidates := heardLast k 3 ⟨1, 1⟩ }
  third : s.node 3 = none
  flying : heartbeatDatagram plainSocket ⟨2, 1⟩ 1 ∈ s.air ∧ heartbeatDatagram plainSocket ⟨1, 1⟩ 2 ∈ s.air

theorem heartbeatCopy_next {s : Election} {hb : Heartbeat} {q : ℤ} {ele : Ele} (hq : s.node q = some ele)
    (hsent : hb.Sendable 3) (hair : heartbeatDatagram plainSocket hb q ∈ s.air) :
    electionNext plainSocket 3 s (heartbeatCopy hb q) = some { s with
      node := Function.update s.node q (some { ele with candidates := recordHeartbeat hb ele.candidates }) } := by
  obtain ⟨e, he, hhb⟩ := hsent.read (w := plainSocket) (q := q) (x := ⟨_, [], [], []⟩) (by decide) rfl (by simp)
  have hwrap : eleWrapper ele e = { ele with candidates := recordHeartbeat hb ele.candidates } := by
    rw [eleWrapper, hhb]
  rw [heartbeatCopy, electionNext, hq, Option.bind_some]
  refine (if_pos hair).trans ?_
  rw [Election.receive, he]
  dsimp only
  rw [hwrap]

theorem timeout_next {s : Election} {p : ℤ} {ele ele' : Ele} {es : EleEffects} (hp : s.node p = some ele)
    (h : eleHandleTimeout ele = (ele', es)) : electionNext plainSocket 3 s (.timeout p none) =
      some (s.perform plainSocket p ele' es none) := by
  rw [electionNext, hp, Option.map_some, Election.timeout, h]

/-- What the handler of `hb.sender` sends when it keeps its leader. -/
def greetingOf (hb : Heartbeat) : EleEffects :=
  ((ranks 3).filter (· ≠ hb.sender)).map (.send · ['H', 'E', ',', '1'])

theorem Exchanging.next {k : ℕ} {s : Election} (h : Exchanging k s) : ∃ s',
    electionNext plainSocket 3 s (exchange k) = some s' ∧ Exchanging (k + 1) s' ∧
      s'.air = s.air ++ exchanged k := by
  obtain ⟨h1, h2, h3, hair1, hair2⟩ := h
  have hfirst : eleHandleTimeout { follower with candidates := [⟨2, 1⟩] } = (follower, greetingOf ⟨1, 1⟩) := by decide
  have hsecond : eleHandleTimeout { followed with candidates := [⟨1, 1⟩] } = (followed, greetingOf ⟨2, 1⟩) := by decide
  have hagain : eleHandleTimeout { followed with candidates := [] } = (followed, greetingOf ⟨2, 1⟩) := by decide
  have hk : k % 5 = 0 ∨ k % 5 = 1 ∨ k % 5 = 2 ∨ k % 5 = 3 ∨ k % 5 = 4 := by omega
  rcases hk with hk | hk | hk | hk | hk
  all_goals
    have hk' := Nat.add_mod k 1 5
    rw [hk] at hk'
    simp only [heardLast, hk, Nat.reduceEqDiff, if_true, if_false] at h1 h2
    rw [exchange, exchanged, hk]
  · refine ⟨_, heartbeatCopy_next h1 ⟨by decide, by decide, by decide⟩ hair1, ⟨?_, ?_, h3, hair1, hair2⟩,
      (List.append_nil _).symm⟩
    · rw [heardLast, hk']
      rfl
    · rw [heardLast, hk']
      exact h2
  · refine ⟨_, timeout_next h1 hfirst, ⟨?_, ?_, h3, List.mem_append_left _ hair1, List.mem_append_left _ hair2⟩, rfl⟩
    · rw [heardLast, hk']
      rfl
    · rw [heardLast, hk']
      exact h2
  · refine ⟨_, heartbeatCopy_next h2 ⟨by decide, by decide, by decide⟩ hair2, ⟨?_, ?_, h3, hair1, hair2⟩,
      (List.append_nil _).symm⟩
    · rw [heardLast, hk']
      exact h1
    · rw [heardLast, hk']
      rfl
  · refine ⟨_, timeout_next h2 hsecond, ⟨?_, ?_, h3, List.mem_append_left _ hair1, List.mem_append_left _ hair2⟩, rfl⟩
    · rw [heardLast, hk']
      exact h1
    · rw [heardLast, hk']
      rfl
  · refine ⟨_, timeout_next h2 hagain, ⟨?_, ?_, h3, List.mem_append_left _ hair1, List.mem_append_left _ hair2⟩, rfl⟩
    · rw [heardLast, hk']
      exact h1
    · rw [heardLast, hk']
      rfl

theorem exchange_fair (s : Election) (k : ℕ) : ElectionFair s (exchange k) := by
  unfold exchange
  split
  · exact nofun
  · trivial
  · exact nofun
  · trivial

theorem mem_exchanged {k : ℕ} {d : Datagram} (h : d ∈ exchanged k) (hd : d.dst ∈ ({1, 2} : Finset ℤ)) :
    d = heartbeatDatagram plainSocket ⟨2, 1⟩ 1 ∨ d = heartbeatDatagram plainSocket ⟨1, 1⟩ 2 := by
  unfold exchanged at h
  split at h
  · cases h
  · cases h
  · rcases List.mem_cons.mp h with rfl | h
    · exact .inr rfl
    · obtain rfl := List.mem_singleton.mp h
      exact absurd hd (by decide)
  · rcases List.mem_cons.mp h with rfl | h
    · exact .inl rfl
    · obtain rfl := List.mem_singleton.mp h
      exact absurd hd (by decide)

theorem exchange_eq_receive {k : ℕ} {d : Datagram} {x : Received} (h : exchange k = .receive d.dst x)
    (hx : x.bytes = d.bytes) :
    d = heartbeatDatagram plainSocket ⟨2, 1⟩ 1 ∨ d = heartbeatDatagram plainSocket ⟨1, 1⟩ 2 := by
  unfold exchange at h
  split at h
  · obtain ⟨hq, rfl⟩ := (ElectionEvent.receive.injEq ..).mp h
    exact .inl ((Datagram.mk.injEq ..).mpr ⟨hq.symm, hx.symm⟩)
  · cases h
  · obtain ⟨hq, rfl⟩ := (ElectionEvent.receive.injEq ..).mp h
    exact .inr ((Datagram.mk.injEq ..).mpr ⟨hq.symm, hx.symm⟩)
  · cases h

theorem exchange_eq_timeout {k : ℕ} (h : exchange k = .timeout 1 none) : k % 5 = 1 := by
  unfold exchange at h
  split at h
  · cases h
  · assumption
  · cases h
  · cases h

section Live

variable {π : Path (election plainSocket 3) ElectionFair} {a : ℕ}

theorem frequently_turn {Q : ℕ → Prop} (r : ℕ) (hr : r < 5) (h : ∀ k, k % 5 = r → Q (a + k)) : ∃ᶠ i in atTop, Q i :=
  frequently_atTop.mpr fun b => ⟨a + (r + 5 * b), by omega, h _ (by omega)⟩

variable (hπ : ∀ k, Exchanging k (π.state (a + k)) ∧ π.event (a + k) = some (exchange k))
include hπ

theorem sentAt_exchange {k : ℕ} {d : Datagram} : SentAt π (a + k) d ↔ d ∈ exchanged k := by
  obtain ⟨hs, he⟩ := hπ k
  obtain ⟨s', hn, -, hair⟩ := hs.next
  obtain rfl := Option.some.inj (hn.symm.trans (π.of_event he).2)
  rw [SentAt, hair, List.count_append, ← List.count_pos_iff]
  omega

theorem arrives_first {k : ℕ} (hk : k % 5 = 0) : ArrivesAt π (a + k) (heartbeatDatagram plainSocket ⟨2, 1⟩ 1) := by
  refine ⟨⟨(heartbeatDatagram plainSocket ⟨2, 1⟩ 1).bytes, [], [], []⟩, ?_, rfl⟩
  rw [(hπ k).2, exchange, hk]
  rfl

theorem arrives_second {k : ℕ} (hk : k % 5 = 2) : ArrivesAt π (a + k) (heartbeatDatagram plainSocket ⟨1, 1⟩ 2) := by
  refine ⟨⟨(heartbeatDatagram plainSocket ⟨1, 1⟩ 2).bytes, [], [], []⟩, ?_, rfl⟩
  rw [(hπ k).2, exchange, hk]
  rfl

theorem exchange_fair_loss {d : Datagram} (hd : d.dst ∈ ({1, 2} : Finset ℤ)) (hput : ∃ᶠ i in atTop, SentAt π i d) :
    ∃ᶠ i in atTop, ArrivesAt π i d := by
  obtain ⟨i, hput, hi⟩ := (hput.and_eventually (eventually_ge_atTop a)).exists
  obtain ⟨k, rfl⟩ := Nat.exists_eq_add_of_le hi
  rcases mem_exchanged ((sentAt_exchange hπ).mp hput) hd with rfl | rfl
  · exact frequently_turn 0 (by decide) fun k hk => arrives_first hπ hk
  · exact frequently_turn 2 (by decide) fun k hk => arrives_second hπ hk

theorem exchange_finite_duplication {d : Datagram} (harr : ∃ᶠ i in atTop, ArrivesAt π i d) :
    ∃ᶠ i in atTop, SentAt π i d := by
  obtain ⟨i, ⟨x, hx, hbytes⟩, hi⟩ := (harr.and_eventually (eventually_ge_atTop a)).exists
  obtain ⟨k, rfl⟩ := Nat.exists_eq_add_of_le hi
  rw [(hπ k).2] at hx
  rcases exchange_eq_receive (Option.some.inj hx) hbytes with rfl | rfl
  · refine frequently_turn 3 (by decide) fun k hk => (sentAt_exchange hπ).mpr ?_
    rw [exchanged, hk]
    exact List.mem_cons_self
  · refine frequently_turn 1 (by decide) fun k hk => (sentAt_exchange hπ).mpr ?_
    rw [exchanged, hk]
    exact List.mem_cons_self

theorem exchange_live : ElectionLive {1, 2} π 0 := by
  have htail : ∀ {i}, a ≤ i → ∃ k, i = a + k := fun hi => ⟨_, (Nat.add_sub_of_le hi).symm⟩
  have hcases : ∀ {p}, p ∈ ({1, 2} : Finset ℤ) → p = 1 ∨ p = 2 := fun hp => by simpa using hp
  refine ⟨⟨1, by decide⟩, by decide, fun p hp => ?_, fun p hp => ?_, fun p hp => ?_,
    fun d hd => exchange_fair_loss hπ hd, fun d => exchange_finite_duplication hπ, ?_⟩
  · filter_upwards [eventually_ge_atTop a] with i hi
    obtain ⟨k, rfl⟩ := htail hi
    obtain ⟨h1, h2, -⟩ := (hπ k).1
    rcases hcases hp with rfl | rfl
    · simp [h1]
    · simp [h2]
  · refine (eventually_atTop.mpr ⟨a, fun i hi => ?_⟩).frequently
    obtain ⟨k, rfl⟩ := htail hi
    by_contra hup
    obtain ⟨ele, hele⟩ := Option.ne_none_iff_exists'.mp hup
    obtain ⟨hp1, hp3⟩ := mem_peers.mp ((path_sound (π := π) (by decide) (a + k)).rank p ele hele).1
    obtain rfl : p = 3 := by
      simp only [Finset.mem_insert, Finset.mem_singleton] at hp
      omega
    rw [(hπ k).1.third] at hele
    cases hele
  · rcases hcases hp with rfl | rfl
    · refine frequently_turn (a := a) 1 (by decide) fun k hk => ?_
      rw [(hπ k).2, exchange, hk]
      rfl
    · refine frequently_turn (a := a) 3 (by decide) fun k hk => ?_
      rw [(hπ k).2, exchange, hk]
      rfl
  · filter_upwards [eventually_ge_atTop a] with i hi p hp q hq hne hev ele ele' hele hele' hperiod
    obtain ⟨k, rfl⟩ := htail hi
    obtain ⟨h1, h2, -⟩ := (hπ k).1
    rcases hcases hp with rfl | rfl
    · -- the heartbeat arrives just ahead of the end of the period
      obtain rfl : q = 2 := (hcases hq).resolve_left hne
      obtain rfl := Option.some.inj (h2.symm.trans hele')
      have hk := exchange_eq_timeout (Option.some.inj ((hπ k).2.symm.trans hev))
      refine ⟨a + (k - 1), by omega, arrives_first hπ (by omega), fun l hl hl' => ?_⟩
      omega
    · -- the period of the first is longer
      obtain rfl : q = 1 := (hcases hq).resolve_right hne
      obtain rfl := Option.some.inj (h2.symm.trans hele)
      obtain rfl := Option.some.inj (h1.symm.trans hele')
      change (8 : ℤ) + 0 ≤ 6 at hperiod
      omega

end Live

end Witness

end DSA
