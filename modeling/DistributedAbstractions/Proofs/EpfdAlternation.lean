import DistributedAbstractions.Lib.NetFacts
import DistributedAbstractions.Proofs.EpfdSuspicion

/-! The indications of the eventually perfect failure detector: for each peer they alternate, and the
list of suspected peers keeps up with them. -/

namespace DSA

open CLib Net

variable {maxRank : ℕ} {localRank : ℤ}

theorem Alternates.snoc {p : ℤ} {is : List EpfdIndication} {x : EpfdIndication} (h : Alternates p is)
    (hx : x = if is.length % 2 = 0 then .suspect p else .restore p) : Alternates p (is ++ [x]) := by
  intro n y hy
  rcases Nat.lt_or_ge n is.length with hlt | hge
  · rw [List.getElem?_append_left hlt] at hy
    exact h n y hy
  · rw [List.getElem?_append_right hge, List.getElem?_singleton] at hy
    split_ifs at hy with hn
    obtain rfl : n = is.length := by omega
    exact (Option.some.inj hy) ▸ hx

theorem Alternates.last_iff {p : ℤ} {is : List EpfdIndication} (h : Alternates p is) :
    is.getLast? = some (.suspect p) ↔ is.length % 2 = 1 := by
  rw [List.getLast?_eq_getElem?]
  constructor
  · intro hlast
    have hx := h _ _ hlast
    have hlt := (List.getElem?_eq_some_iff.mp hlast).1
    split_ifs at hx with hn
    omega
  · intro hodd
    have hlt : is.length - 1 < is.length := by omega
    have hget := List.getElem?_eq_getElem hlt
    rw [hget, h _ _ hget, if_pos (by omega)]

/-- The suspected peers against the history of the indications. -/
structure InStep (maxRank : ℕ) (localRank : ℤ) (t : Epfd) (is : List EpfdIndication) : Prop where
  maxRank_eq : t.maxRank = maxRank
  localRank_eq : t.localRank = localRank
  nodup : t.suspectedPeers.Nodup
  alternates : ∀ p, Alternates p (indicatedFor p is)
  suspected : ∀ p, p ∈ t.suspectedPeers ↔ (indicatedFor p is).length % 2 = 1
  remote : ∀ i ∈ is, Remote maxRank localRank i.peerRank

theorem indicatedFor_snoc (p : ℤ) (is : List EpfdIndication) (x : EpfdIndication) :
    indicatedFor p (is ++ [x]) = indicatedFor p is ++ if x.peerRank = p then [x] else [] := by
  unfold indicatedFor
  rw [List.filter_append, List.filter_singleton]
  simp

/-- An indication of the other kind than the last one for its peer. -/
theorem InStep.indicate {t t' : Epfd} {is : List EpfdIndication} {x : EpfdIndication}
    (h : InStep maxRank localRank t is) (hframe : t'.maxRank = t.maxRank ∧ t'.localRank = t.localRank)
    (hx : x = if x.peerRank ∈ t.suspectedPeers then .restore x.peerRank else .suspect x.peerRank)
    (hr : Remote maxRank localRank x.peerRank) (hnodup : t'.suspectedPeers.Nodup)
    (hself : x.peerRank ∈ t'.suspectedPeers ↔ x.peerRank ∉ t.suspectedPeers)
    (hother : ∀ q, q ≠ x.peerRank → (q ∈ t'.suspectedPeers ↔ q ∈ t.suspectedPeers)) :
    InStep maxRank localRank t' (is ++ [x]) := by
  refine ⟨hframe.1.trans h.maxRank_eq, hframe.2.trans h.localRank_eq, hnodup, fun p => ?_, fun p => ?_, ?_⟩
  · rw [indicatedFor_snoc]
    split_ifs with hp
    · subst hp
      apply (h.alternates _).snoc
      have hs := h.suspected x.peerRank
      refine hx.trans ?_
      split_ifs with hmem hlen hlen
      · have := hs.mp hmem
        omega
      · rfl
      · rfl
      · exact absurd (hs.mpr (by omega)) hmem
    · rw [List.append_nil]
      exact h.alternates p
  · rw [indicatedFor_snoc]
    split_ifs with hp
    · subst hp
      rw [hself, h.suspected, List.length_append, List.length_singleton]
      omega
    · rw [List.append_nil, hother p (Ne.symm hp)]
      exact h.suspected p
  · intro i hi
    rcases List.mem_append.mp hi with hi | hi
    · exact h.remote i hi
    · rw [List.mem_singleton.mp hi]
      exact hr

theorem InStep.checkPeer {t : Epfd} {is : List EpfdIndication} {p : ℤ} (h : InStep maxRank localRank t is)
    (hp : p ∈ peers maxRank) :
    InStep maxRank localRank (epfdCheckPeer t p).1 (is ++ indications (epfdCheckPeer t p).2) := by
  unfold epfdCheckPeer
  dsimp only
  split_ifs with hl hs hr
  · simpa using h
  · simp only [Bool.and_eq_true, Bool.not_eq_true', decide_eq_false_iff_not] at hs
    have hremote : Remote maxRank localRank p := ⟨hp, fun heq => hl (heq.trans h.localRank_eq.symm)⟩
    simp only [indications_cons_indicate, indications_cons_send, indications_nil]
    refine h.indicate (x := .suspect p) ⟨rfl, rfl⟩ ?_ hremote ?_ ?_ ?_
    · exact (if_neg hs.2).symm
    · exact h.nodup.append (List.nodup_singleton p) (by simpa using hs.2)
    · simp [EpfdIndication.peerRank, hs.2]
    · intro q hq
      simp [show q ≠ p from hq]
  · simp only [Bool.and_eq_true, decide_eq_true_eq] at hr
    have hremote : Remote maxRank localRank p := ⟨hp, fun heq => hl (heq.trans h.localRank_eq.symm)⟩
    simp only [indications_cons_indicate, indications_cons_send, indications_nil]
    refine h.indicate (x := .restore p) ⟨rfl, rfl⟩ ?_ hremote ?_ ?_ ?_
    · exact (if_pos hr.2).symm
    · exact h.nodup.erase p
    · simp [EpfdIndication.peerRank, hr.2, h.nodup.mem_erase_iff]
    · intro q hq
      simp [h.nodup.mem_erase_iff, show q ≠ p from hq]
  · simpa using h

theorem InStep.handleTimeout {t : Epfd} {is : List EpfdIndication} (h : InStep maxRank localRank t is) :
    InStep maxRank localRank (epfdHandleTimeout t).1 (is ++ indications (epfdHandleTimeout t).2) := by
  have hranks : ∀ p ∈ ranks t.maxRank, p ∈ peers maxRank := by
    intro p hp
    rw [h.maxRank_eq] at hp
    exact mem_ranks.mp hp
  have hguard : Machine.Guarded epfdCheckPeer (fun _ p => p ∈ peers maxRank) t (ranks t.maxRank) :=
    Machine.guarded_of_forall hranks
  have hloop := Machine.invariant_of_guarded
    (I := fun _ u out => InStep maxRank localRank u (is ++ indications out))
    (by simpa using h)
    (fun _ p u out hp hu => by
      rw [indications_append, ← List.append_assoc]
      exact hu.checkPeer hp)
    hguard
  exact ⟨hloop.maxRank_eq, hloop.localRank_eq, hloop.nodup, hloop.alternates, hloop.suspected, hloop.remote⟩

theorem in_step (maxRank : ℕ) (localRank : ℤ) (evs : List FdEvent) :
    InStep maxRank localRank (epfdAfter localRank maxRank evs) (epfdIndications localRank maxRank evs) := by
  refine Machine.invariant (I := fun _ t out => InStep maxRank localRank t (indications out)) ?_ ?_ evs
  · refine ⟨rfl, rfl, List.nodup_nil, ?_, fun p => ?_, ?_⟩
    · intro p n x hx
      cases hx
    · simp [indicatedFor, epfdInit]
    · intro i hi
      cases hi
  · intro evs e t out h
    rw [indications_append]
    cases e with
    | deliver e =>
      have hnone : indications (epfdCallback t e).2 = [] := by
        unfold epfdCallback fdCallback
        dsimp only
        split_ifs <;> rfl
      rw [epfdStep, hnone, List.append_nil]
      exact ⟨h.maxRank_eq, h.localRank_eq, h.nodup, h.alternates, h.suspected, h.remote⟩
    | timeout => exact h.handleTimeout

theorem indications_alternate (maxRank : ℕ) (localRank : ℤ) (evs : List FdEvent) :
    Alternation maxRank localRank evs := by
  have h := in_step maxRank localRank evs
  refine ⟨h.alternates, h.nodup, fun p => ?_, h.remote⟩
  rw [(h.alternates p).last_iff]
  exact h.suspected p

end DSA
