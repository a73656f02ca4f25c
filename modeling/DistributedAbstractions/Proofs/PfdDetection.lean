import DistributedAbstractions.Proofs.HeardPeriods

/-! The perfect failure detector reports exactly those that were silent for a whole period
after the initial one. -/

namespace DSA

open CLib Net

variable {maxRank : ℕ} {localRank : ℤ}

/-- Not heard, and not reported before. -/
def isSilent (pfd : Pfd) (p : ℤ) : Bool :=
  p ≠ pfd.localRank && p ∉ pfd.alivePeers && p ∉ pfd.faultyPeers

theorem pfdLoop_eq (pfd : Pfd) (rs : List ℤ) (hrs : rs.Nodup) :
    Machine.state pfdCheckPeer pfd rs =
      { pfd with faultyPeers := pfd.faultyPeers ++ rs.filter (isSilent pfd) } ∧
    indications (Machine.outputs pfdCheckPeer pfd rs) = (rs.filter (isSilent pfd)).map Crash.mk := by
  refine Machine.invariant (s := pfd) (I := fun rs t out => rs.Nodup →
    t = { pfd with faultyPeers := pfd.faultyPeers ++ rs.filter (isSilent pfd) } ∧
    indications out = (rs.filter (isSilent pfd)).map Crash.mk) (fun _ => by simp) ?_ rs hrs
  intro rs p t out ih hrs
  obtain ⟨hrs, -, hp⟩ := List.nodup_append.mp hrs
  obtain ⟨rfl, hout⟩ := ih hrs
  have hnew : p ∉ rs := fun h => hp p h p (by simp) rfl
  unfold pfdCheckPeer
  dsimp only
  split_ifs with hl hd
  · have hno : isSilent pfd p = false := by simp [isSilent, hl]
    simp [List.filter_append, hno, hout]
  · have hyes : isSilent pfd p = true := by simpa [isSilent, hl, hnew] using hd
    simp [List.filter_append, hyes, ← hout]
  · have hno : isSilent pfd p = false := by
      rw [← Bool.not_eq_true]
      exact fun h => hd (by simpa [isSilent, hl, hnew] using h)
    simp [List.filter_append, hno, hout]

/-- The state of the detector and the crashes it has reported, by what it has heard. -/
structure PfdTable (maxRank : ℕ) (localRank : ℤ) (evs : List FdEvent) (pfd : Pfd) (out : PfdEffects) :
    Prop where
  maxRank_eq : pfd.maxRank = maxRank
  localRank_eq : pfd.localRank = localRank
  alive : ∀ p, p ∈ pfd.alivePeers ↔ Alive (Remote maxRank localRank) evs p
  nodup : pfd.faultyPeers.Nodup
  faulty : ∀ p, p ∈ pfd.faultyPeers ↔
    Remote maxRank localRank p ∧ ∃ j, 2 ≤ j ∧ j ≤ timeouts evs ∧ ¬ HeardIn evs j p
  crashes : indications out = pfd.faultyPeers.map Crash.mk

theorem pfdTable_init : PfdTable maxRank localRank [] (pfdInit localRank maxRank) [] where
  maxRank_eq := rfl
  localRank_eq := rfl
  alive p := by simp [pfdInit, Alive, Remote, not_heardIn_nil]
  nodup := List.nodup_nil
  faulty p := by
    simp only [pfdInit, List.not_mem_nil, timeouts_nil, false_iff]
    rintro ⟨-, j, h2, h0, -⟩
    omega
  crashes := rfl

variable {evs : List FdEvent} {pfd : Pfd} {out : PfdEffects}

theorem PfdTable.deliver (h : PfdTable maxRank localRank evs pfd out) (e : Deliver) :
    PfdTable maxRank localRank (evs ++ [.deliver e]) (pfdCallback pfd e).1 (out ++ (pfdCallback pfd e).2) := by
  refine ⟨h.maxRank_eq, h.localRank_eq, fun p => Alive.deliver (h.alive p), h.nodup, fun p => ?_, ?_⟩
  · change p ∈ pfd.faultyPeers ↔ _
    rw [h.faulty, timeouts_deliver]
    refine and_congr_right fun _ => exists_congr fun j => and_congr_right fun _ => ?_
    -- the message is one of a period that has not ended
    refine and_congr_right fun hj => not_congr (heardIn_deliver.trans (or_iff_left ?_)).symm
    omega
  · have hnone : indications (pfdCallback pfd e).2 = [] :=
      indications_eq_nil fun _ => indicate_notMem_fdCallback
    rw [indications_append, hnone, List.append_nil]
    exact h.crashes

theorem PfdTable.isSilent_iff (h : PfdTable maxRank localRank evs pfd out) {p : ℤ} :
    p ∈ (ranks pfd.maxRank).filter (isSilent pfd) ↔
      Remote maxRank localRank p ∧ FirstSilent evs (timeouts evs + 1) p := by
  have hfaulty := not_congr (h.faulty p)
  simp only [List.mem_filter, mem_ranks, isSilent, Bool.and_eq_true, decide_eq_true_eq, h.maxRank_eq,
    h.localRank_eq, h.alive, hfaulty]
  constructor
  · rintro ⟨hp, ⟨hl, ha⟩, hf⟩
    have hr : Remote maxRank localRank p := ⟨hp, hl⟩
    rw [Alive, not_or, not_and'] at ha
    refine ⟨hr, ?_, ha.2, fun i h2 hi => by_contra fun hno => hf ⟨hr, i, h2, by omega, hno⟩⟩
    have := ha.1 hr
    omega
  · rintro ⟨hr, h2, hno, hbefore⟩
    refine ⟨hr.1, ⟨hr.2, ?_⟩, ?_⟩
    · rintro (⟨h0, -⟩ | hh)
      · omega
      · exact hno hh
    · rintro ⟨-, j, hj2, hj, hsilent⟩
      exact hsilent (hbefore j hj2 (by omega))

theorem PfdTable.timeout (h : PfdTable maxRank localRank evs pfd out) :
    PfdTable maxRank localRank (evs ++ [.timeout]) (pfdHandleTimeout pfd).1
      (out ++ (pfdHandleTimeout pfd).2) := by
  obtain ⟨hstate, hout⟩ := pfdLoop_eq pfd (ranks pfd.maxRank) (ranks_nodup _)
  have hfaulty : (pfdHandleTimeout pfd).1.faultyPeers =
      pfd.faultyPeers ++ (ranks pfd.maxRank).filter (isSilent pfd) := congrArg Pfd.faultyPeers hstate
  refine ⟨(congrArg Pfd.maxRank hstate).trans h.maxRank_eq,
    (congrArg Pfd.localRank hstate).trans h.localRank_eq,
    fun p => iff_of_false List.not_mem_nil alive_timeout, ?_, fun p => ?_, ?_⟩
  · rw [hfaulty, List.nodup_append]
    refine ⟨h.nodup, (ranks_nodup _).filter _, ?_⟩
    rintro a ha _ hb rfl
    have := (List.mem_filter.mp hb).2
    simp [isSilent, ha] at this
  · rw [hfaulty, List.mem_append, h.isSilent_iff, h.faulty, timeouts_timeout, ← and_or_left]
    simp only [heardIn_timeout]
    apply and_congr_right
    intro hr
    constructor
    · rintro (⟨j, h2, hj, hno⟩ | ⟨h2, hno, -⟩)
      · exact ⟨j, h2, by omega, hno⟩
      · exact ⟨_, h2, le_rfl, hno⟩
    · rintro ⟨j, h2, hj, hno⟩
      by_cases hold : ∃ i, 2 ≤ i ∧ i ≤ timeouts evs ∧ ¬ HeardIn evs i p
      · exact .inl hold
      · push Not at hold
        obtain rfl : j = timeouts evs + 1 := by
          by_contra hne
          exact hno (hold j h2 (by omega))
        exact .inr ⟨h2, hno, fun i hi2 hi => hold i hi2 (by omega)⟩
  · rw [hfaulty, List.map_append, indications_append, h.crashes]
    exact congrArg (_ ++ ·) hout

theorem pfd_table (maxRank : ℕ) (localRank : ℤ) (evs : List FdEvent) :
    PfdTable maxRank localRank evs (pfdAfter localRank maxRank evs)
      (Machine.outputs pfdStep (pfdInit localRank maxRank) evs) := by
  refine Machine.invariant (I := PfdTable maxRank localRank) pfdTable_init ?_ evs
  intro evs e pfd out h
  cases e with
  | deliver e => exact h.deliver e
  | timeout => exact h.timeout

theorem exact_detection (maxRank : ℕ) (localRank : ℤ) (evs : List FdEvent) :
    ExactDetection maxRank localRank evs := by
  have h := pfd_table maxRank localRank evs
  refine ⟨h.nodup, h.faulty, h.crashes, fun e p => ?_⟩
  cases e with
  | deliver e => exact iff_of_false indicate_notMem_fdCallback fun hp => by cases hp.1
  | timeout =>
    obtain ⟨-, hout⟩ := pfdLoop_eq (pfdAfter localRank maxRank evs) _ (ranks_nodup _)
    rw [← h.isSilent_iff, and_iff_right rfl, ← mem_indications]
    change _ ∈ indications (Machine.outputs pfdCheckPeer _ _) ↔ _
    rw [hout]
    simp

end DSA
