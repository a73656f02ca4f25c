import DistributedAbstractions.Proofs.HeardPeriods

/-! The eventually perfect failure detector suspects exactly those that were not heard in the
last period, the initial one included. -/

namespace DSA

open CLib Net

variable {maxRank : ℕ} {localRank : ℤ}

/-- Each peer that the loop has gone through is suspected if it is not alive. -/
structure Swept (epfd : Epfd) (rs : List ℤ) (t : Epfd) : Prop where
  maxRank_eq : t.maxRank = epfd.maxRank
  localRank_eq : t.localRank = epfd.localRank
  alive_eq : t.alivePeers = epfd.alivePeers
  nodup : t.suspectedPeers.Nodup
  swept : ∀ p ∈ rs, p ≠ epfd.localRank → (p ∈ t.suspectedPeers ↔ p ∉ epfd.alivePeers)
  others : ∀ p, ¬ (p ∈ rs ∧ p ≠ epfd.localRank) → (p ∈ t.suspectedPeers ↔ p ∈ epfd.suspectedPeers)

theorem epfdCheckPeer_frame (t : Epfd) (p : ℤ) : (epfdCheckPeer t p).1.maxRank = t.maxRank ∧
    (epfdCheckPeer t p).1.localRank = t.localRank ∧ (epfdCheckPeer t p).1.alivePeers = t.alivePeers := by
  unfold epfdCheckPeer
  dsimp only
  split_ifs <;> exact ⟨rfl, rfl, rfl⟩

theorem epfdCheckPeer_suspected {t : Epfd} (p : ℤ) (h : t.suspectedPeers.Nodup) :
    (epfdCheckPeer t p).1.suspectedPeers.Nodup ∧
    (p = t.localRank → (epfdCheckPeer t p).1.suspectedPeers = t.suspectedPeers) ∧
    (p ≠ t.localRank → (p ∈ (epfdCheckPeer t p).1.suspectedPeers ↔ p ∉ t.alivePeers)) ∧
    ∀ q, q ≠ p → (q ∈ (epfdCheckPeer t p).1.suspectedPeers ↔ q ∈ t.suspectedPeers) := by
  unfold epfdCheckPeer
  dsimp only
  split_ifs with hl hs hr
  · exact ⟨h, fun _ => rfl, fun hno => absurd hl hno, fun _ _ => Iff.rfl⟩
  · simp only [Bool.and_eq_true, Bool.not_eq_true', decide_eq_false_iff_not] at hs
    exact ⟨h.append (List.nodup_singleton p) (by simpa using hs.2), fun heq => absurd heq hl,
      fun _ => by simp [hs.1], fun q hq => by simp [hq]⟩
  · simp only [Bool.and_eq_true, decide_eq_true_eq] at hr
    exact ⟨h.erase p, fun heq => absurd heq hl, fun _ => by simp [h.mem_erase_iff, hr.1],
      fun q hq => by simp [h.mem_erase_iff, hq]⟩
  · simp only [Bool.and_eq_true, Bool.not_eq_true', decide_eq_false_iff_not, decide_eq_true_eq] at hs hr
    exact ⟨h, fun heq => absurd heq hl, fun _ => by tauto, fun _ _ => Iff.rfl⟩

theorem Swept.round {epfd t : Epfd} {rs : List ℤ} {p : ℤ} (h : Swept epfd rs t) :
    Swept epfd (rs ++ [p]) (epfdCheckPeer t p).1 := by
  obtain ⟨hmax, hlocal, halive, hnodup, hswept, hothers⟩ := h
  obtain ⟨hmax', hlocal', halive'⟩ := epfdCheckPeer_frame t p
  obtain ⟨hn, hself, hp, hq⟩ := epfdCheckPeer_suspected p hnodup
  rw [hlocal] at hself hp
  rw [halive] at hp
  refine ⟨hmax'.trans hmax, hlocal'.trans hlocal, halive'.trans halive, hn, fun q hqrs hql => ?_,
    fun q hno => ?_⟩
  · by_cases hqp : q = p
    · exact hqp ▸ hp (hqp ▸ hql)
    · exact (hq q hqp).trans (hswept q (by simpa [hqp] using hqrs) hql)
  · have hold : ¬ (q ∈ rs ∧ q ≠ epfd.localRank) := fun h => hno ⟨List.mem_append_left _ h.1, h.2⟩
    by_cases hqp : q = p
    · subst hqp
      rw [hself (by simpa using hno)]
      exact hothers q hold
    · exact (hq q hqp).trans (hothers q hold)

theorem swept_loop {epfd : Epfd} (h : epfd.suspectedPeers.Nodup) (rs : List ℤ) :
    Swept epfd rs (Machine.state epfdCheckPeer epfd rs) :=
  Machine.invariant (I := fun rs t _ => Swept epfd rs t)
    ⟨rfl, rfl, rfl, h, fun _ hp => (List.not_mem_nil hp).elim, fun _ _ => Iff.rfl⟩
    (fun _ _ _ _ h => h.round) rs

structure EpfdTable (maxRank : ℕ) (localRank : ℤ) (evs : List FdEvent) (epfd : Epfd) : Prop where
  maxRank_eq : epfd.maxRank = maxRank
  localRank_eq : epfd.localRank = localRank
  alive : ∀ p, p ∈ epfd.alivePeers ↔ Alive (· ∈ (epfdInit localRank maxRank).alivePeers) evs p
  nodup : epfd.suspectedPeers.Nodup
  suspected : ∀ p, p ∈ epfd.suspectedPeers ↔
    Remote maxRank localRank p ∧ 1 ≤ timeouts evs ∧ ¬ HeardIn evs (timeouts evs) p

/-- Rank 0 is nobody's, so that only who was heard is alive. -/
theorem alive_seeded {evs : List FdEvent} {p : ℤ} (hp : p ∈ peers maxRank) :
    Alive (· ∈ (epfdInit localRank maxRank).alivePeers) evs p ↔ HeardIn evs (timeouts evs + 1) p := by
  apply or_iff_right
  intro h
  obtain ⟨-, -, rfl⟩ := List.mem_map.mp h.2
  have := (mem_peers.mp hp).1
  omega

theorem EpfdTable.timeout {evs : List FdEvent} {epfd : Epfd} (h : EpfdTable maxRank localRank evs epfd) :
    EpfdTable maxRank localRank (evs ++ [.timeout]) (epfdHandleTimeout epfd).1 := by
  have hs := swept_loop h.nodup (ranks epfd.maxRank)
  refine ⟨hs.maxRank_eq.trans h.maxRank_eq, hs.localRank_eq.trans h.localRank_eq,
    fun p => iff_of_false List.not_mem_nil alive_timeout, hs.nodup, fun p => ?_⟩
  change p ∈ (Machine.state epfdCheckPeer epfd (ranks epfd.maxRank)).suspectedPeers ↔ _
  rw [timeouts_timeout, heardIn_timeout]
  by_cases hr : Remote maxRank localRank p
  · rw [hs.swept p (by rw [h.maxRank_eq]; exact mem_ranks.mpr hr.1) (by rw [h.localRank_eq]; exact hr.2),
      h.alive, alive_seeded hr.1]
    simp [hr]
  · rw [hs.others p (by rw [h.maxRank_eq, h.localRank_eq, mem_ranks]; exact hr), h.suspected]
    simp [hr]

theorem epfd_table (maxRank : ℕ) (localRank : ℤ) (evs : List FdEvent) :
    EpfdTable maxRank localRank evs (epfdAfter localRank maxRank evs) := by
  refine Machine.invariant (I := fun evs epfd _ => EpfdTable maxRank localRank evs epfd) ?_ ?_ evs
  · exact ⟨rfl, rfl, fun p => by simp [Alive, not_heardIn_nil], List.nodup_nil, fun p => by simp [epfdInit]⟩
  intro evs e epfd _ h
  cases e with
  | timeout => exact h.timeout
  | deliver e =>
    refine ⟨h.maxRank_eq, h.localRank_eq, fun p => Alive.deliver (h.alive p), h.nodup, fun p => ?_⟩
    change p ∈ epfd.suspectedPeers ↔ _
    rw [h.suspected, timeouts_deliver]
    refine and_congr_right fun _ => and_congr_right fun _ => not_congr ?_
    exact (heardIn_deliver.trans (or_iff_left (by omega))).symm

/-- After a timeout those are suspected who were not heard in the period it ends, whichever
period it is. -/
theorem suspected_after_timeout (pre : List FdEvent) (p : ℤ) :
    p ∈ (epfdAfter localRank maxRank (pre ++ [.timeout])).suspectedPeers ↔
      Remote maxRank localRank p ∧ ¬ HeardIn pre (timeouts pre + 1) p := by
  rw [(epfd_table maxRank localRank _).suspected, timeouts_timeout, heardIn_timeout]
  simp

theorem exact_suspicion_iff (maxRank : ℕ) (localRank : ℤ) (evs : List FdEvent) :
    ExactSuspicion maxRank localRank evs ↔
      timeouts evs = 0 ∨ ∀ p, Remote maxRank localRank p → HeardIn evs 1 p := by
  constructor
  · intro h
    by_cases h0 : timeouts evs = 0
    · exact .inl h0
    · obtain ⟨pre, hp, hpre⟩ := exists_first_timeout h0
      refine .inr fun p hr => by_contra fun hno => ?_
      have hmissed := (h pre hp p).mp ((suspected_after_timeout pre p).mpr ⟨hr, ?_⟩)
      · rw [hpre] at hmissed
        have := hmissed.2.1
        omega
      · rwa [← heardIn_of_prefix hp le_rfl, hpre]
  · intro h pre hp p
    rw [suspected_after_timeout, Missed]
    refine and_congr_right fun hr => (and_iff_right_of_imp fun hno => ?_).symm
    by_contra h2
    have hpre : timeouts pre = 0 := by omega
    rcases h with h | h
    · have hcount : timeouts (pre ++ [.timeout]) ≤ timeouts evs := hp.sublist.count_le _
      rw [timeouts_timeout] at hcount
      omega
    · rw [← heardIn_of_prefix hp le_rfl, hpre] at hno
      exact hno (h p hr)

/-- Of two processes the first suspects the second when the initial period ends. -/
theorem initial_period_suspects : ¬ ExactSuspicion 2 1 [.timeout] := by
  intro h
  have hmissed := (h [] (List.prefix_refl _) 2).mp (by decide)
  exact absurd hmissed.2.1 (by decide)

end DSA
