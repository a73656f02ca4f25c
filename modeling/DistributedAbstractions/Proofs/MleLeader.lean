import DistributedAbstractions.Spec.LeaderElection
import Mathlib.Order.Bounds.Basic

/-! The leader of the monarchical elector is the highest rank left, whatever the order of the
notifications: a rank that crashes while it does not lead is remembered, and passed over when
the search comes to it. -/

namespace DSA

section Left

variable {maxRank : ℕ} {crashes crashes' : List Crash} {e : Crash} {leader leader' : ℤ}

theorem left_snoc : Left maxRank (crashes ++ [e]) = Left maxRank crashes \ {e.peerId} := by
  ext r
  simp only [Left, Set.mem_ofPred_eq, Set.mem_sdiff, Set.mem_singleton_iff, List.mem_append,
    List.mem_singleton, not_or, and_assoc]
  rw [show (⟨r⟩ : Crash) = e ↔ r = e.peerId from ⟨fun h => h ▸ rfl, fun h => h ▸ rfl⟩]

theorem left_congr (h : ∀ e, e ∈ crashes ↔ e ∈ crashes') : Left maxRank crashes = Left maxRank crashes' := by
  ext r
  simp only [Left, Set.mem_ofPred_eq, h]

theorem HighestLeft.unique (h : HighestLeft maxRank crashes leader)
    (h' : HighestLeft maxRank crashes leader') : leader = leader' := by
  rcases h with h | ⟨hnone, rfl⟩
  · rcases h' with h' | ⟨hnone, -⟩
    · exact h.unique h'
    · exact absurd h.1 (by simp [hnone])
  · rcases h' with h' | ⟨-, rfl⟩
    · exact absurd h'.1 (by simp [hnone])
    · rfl

theorem HighestLeft.keep (h : HighestLeft maxRank crashes leader) (hne : e.peerId ≠ leader) :
    HighestLeft maxRank (crashes ++ [e]) leader := by
  rw [HighestLeft, left_snoc]
  rcases h with h | ⟨hnone, rfl⟩
  · exact .inl ⟨⟨h.1, hne.symm⟩, fun r hr => h.2 hr.1⟩
  · exact .inr ⟨by rw [hnone, Set.empty_sdiff], rfl⟩

theorem HighestLeft.lt (h : HighestLeft maxRank crashes e.peerId) (he : e.peerId ∈ peers maxRank)
    (h' : HighestLeft maxRank (crashes ++ [e]) leader') : leader' < e.peerId := by
  have hpos := (mem_peers.mp he).1
  rcases h' with h' | ⟨-, rfl⟩
  · obtain ⟨hl, hne⟩ : leader' ∈ Left maxRank crashes \ {e.peerId} := by
      rw [← left_snoc]
      exact h'.1
    rcases h with h | ⟨hnone, -⟩
    · exact lt_of_le_of_ne (h.2 hl) hne
    · rw [hnone] at hl
      exact hl.elim
  · omega

end Left

theorem highestLeft_electFrom (crashes : List Crash) (candidate : ℕ) :
    HighestLeft candidate crashes (electFrom (crashes.map Crash.peerId) candidate) := by
  have hmem : ∀ r, r ∈ crashes.map Crash.peerId ↔ (⟨r⟩ : Crash) ∈ crashes := fun r =>
    ⟨fun h => by obtain ⟨e, he, rfl⟩ := List.mem_map.mp h; exact he, fun h => List.mem_map.mpr ⟨_, h, rfl⟩⟩
  induction candidate with
  | zero =>
    refine .inr ⟨Set.eq_empty_iff_forall_notMem.mpr fun r hr => ?_, rfl⟩
    have := mem_peers.mp hr.1
    omega
  | succ c ih =>
    rw [electFrom]
    split_ifs with h
    · -- the highest rank has crashed, so that the same ranks are left below it
      have hsame : Left (c + 1) crashes = Left c crashes := by
        ext r
        apply and_congr_left
        intro hr
        rw [mem_peers, mem_peers]
        have hne : r ≠ (c + 1 : ℤ) := fun heq => hr ((hmem r).mp (heq ▸ h))
        omega
      rw [HighestLeft, hsame]
      exact ih
    · refine .inl ⟨⟨mem_peers.mpr ⟨by omega, by push_cast; omega⟩, fun hc => h ((hmem _).mpr hc)⟩,
        fun r hr => ?_⟩
      have := (mem_peers.mp hr.1).2
      push_cast at this
      exact this

section

variable {maxRank : ℕ}

/-- The leaders indicated so far come down to the one that is in office. -/
structure MleTable (maxRank : ℕ) (crashes : List Crash) (mle : Mle) (out : List Leader) : Prop where
  maxRank_eq : mle.maxRank = maxRank
  crashed_eq : mle.crashedPeers = crashes.map Crash.peerId
  leader : HighestLeft maxRank crashes mle.leader
  decreasing : (out.map Leader.peerRank).Pairwise (· > ·)
  above : ∀ r ∈ out.map Leader.peerRank, mle.leader ≤ r

theorem mleTable_init : MleTable maxRank [] (mleInit maxRank) [] where
  maxRank_eq := rfl
  crashed_eq := rfl
  leader := by
    have h := highestLeft_electFrom [] maxRank
    cases maxRank with
    | zero => exact h
    | succ n => simpa [electFrom, mleInit] using h
  decreasing := List.Pairwise.nil
  above _ h := (List.not_mem_nil h).elim

theorem MleTable.successor {crashes : List Crash} {e : Crash} {mle : Mle} {out : List Leader}
    (h : MleTable maxRank crashes mle out) (he : e.peerId ∈ peers maxRank) (hl : e.peerId = mle.leader) :
    HighestLeft maxRank (crashes ++ [e]) (electFrom (mle.crashedPeers ++ [e.peerId]) mle.maxRank) ∧
      electFrom (mle.crashedPeers ++ [e.peerId]) mle.maxRank < mle.leader := by
  have hnew : HighestLeft maxRank (crashes ++ [e])
      (electFrom (mle.crashedPeers ++ [e.peerId]) mle.maxRank) := by
    have hcrashed : mle.crashedPeers ++ [e.peerId] = (crashes ++ [e]).map Crash.peerId := by
      rw [h.crashed_eq, List.map_append, List.map_singleton]
    rw [hcrashed, h.maxRank_eq]
    exact highestLeft_electFrom _ _
  have hold : HighestLeft maxRank crashes e.peerId := by
    rw [hl]
    exact h.leader
  exact ⟨hnew, (hold.lt he hnew).trans_eq hl⟩

theorem MleTable.crash {crashes : List Crash} {e : Crash} {mle : Mle} {out : List Leader}
    (he : e.peerId ∈ peers maxRank) (h : MleTable maxRank crashes mle out) :
    MleTable maxRank (crashes ++ [e]) (mleCallbackOnCrash mle e).1 (out ++ (mleCallbackOnCrash mle e).2) := by
  have hcrashed : mle.crashedPeers ++ [e.peerId] = (crashes ++ [e]).map Crash.peerId := by
    rw [h.crashed_eq, List.map_append, List.map_singleton]
  unfold mleCallbackOnCrash
  dsimp only
  split_ifs with hne
  · exact ⟨h.maxRank_eq, hcrashed, h.leader.keep hne, by rw [List.append_nil]; exact h.decreasing,
      by rw [List.append_nil]; exact h.above⟩
  · obtain ⟨hnew, hlt⟩ := h.successor he (not_not.mp hne)
    refine ⟨h.maxRank_eq, hcrashed, hnew, ?_, fun r hr => ?_⟩
    · rw [List.map_append, List.pairwise_append]
      refine ⟨h.decreasing, List.pairwise_singleton _ _, fun a ha b hb => ?_⟩
      rw [List.mem_singleton.mp hb]
      exact hlt.trans_le (h.above a ha)
    · rw [List.map_append, List.mem_append] at hr
      rcases hr with hr | hr
      · exact hlt.le.trans (h.above r hr)
      · rw [List.mem_singleton.mp hr]

theorem mle_table {crashes : List Crash} (h : ∀ e ∈ crashes, e.peerId ∈ peers maxRank) :
    MleTable maxRank crashes (mleAfter maxRank crashes) (mleIndications maxRank crashes) :=
  Machine.invariant_of_guarded mleTable_init (fun _ _ _ _ he ht => ht.crash he)
    (Machine.guarded_of_forall h)

theorem MleTable.indicates {crashes : List Crash} {e : Crash} {mle : Mle} {out : List Leader}
    (h : MleTable maxRank crashes mle out) (he : e.peerId ∈ peers maxRank) :
    (mleCallbackOnCrash mle e).2 =
      if (mleCallbackOnCrash mle e).1.leader = mle.leader then []
      else [⟨(mleCallbackOnCrash mle e).1.leader⟩] := by
  by_cases hl : e.peerId = mle.leader
  · have hlt := (h.successor he hl).2
    have hcall : mleCallbackOnCrash mle e = ({ mle with
        crashedPeers := mle.crashedPeers ++ [e.peerId]
        leader := electFrom (mle.crashedPeers ++ [e.peerId]) mle.maxRank },
        [⟨electFrom (mle.crashedPeers ++ [e.peerId]) mle.maxRank⟩]) := if_neg (not_not.mpr hl)
    rw [hcall]
    exact (if_neg hlt.ne).symm
  · have hcall : mleCallbackOnCrash mle e =
        ({ mle with crashedPeers := mle.crashedPeers ++ [e.peerId] }, []) := if_pos hl
    rw [hcall]
    exact (if_pos rfl).symm

theorem monarch {crashes : List Crash} (h : ∀ e ∈ crashes, e.peerId ∈ peers maxRank) :
    Monarch maxRank crashes := by
  have ht := mle_table h
  refine ⟨ht.leader, fun e he => ht.indicates he, ht.decreasing, fun crashes' h' hsame => ?_⟩
  have ht' := (mle_table h').leader
  rw [HighestLeft, ← left_congr hsame] at ht'
  exact ht.leader.unique ht'

/-- Rank 2 of three crashes while it does not lead, and is passed over when 3 crashes. -/
theorem monarch_of_three : mleIndications 3 [⟨2⟩, ⟨2⟩, ⟨3⟩, ⟨1⟩] = [⟨1⟩, ⟨0⟩] ∧
    Monarch 3 [⟨2⟩, ⟨2⟩, ⟨3⟩, ⟨1⟩] :=
  ⟨by decide, monarch (by decide)⟩

end

end DSA
