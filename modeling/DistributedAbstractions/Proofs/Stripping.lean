import DistributedAbstractions.Proofs.PlDedup

/-! Which bodies the perfect link hands over without their id: those that are longer than the id. The
bound of the loop is a difference of unsigned numbers, and wraps around for the others. -/

namespace DSA

open CLib Inbox

variable {es : List Deliver} {id body : CString} {sender : ℤ}

theorem Tagged.idLen (h : Tagged id body) (sender : ℤ) : idLen ⟨id ++ ',' :: body, sender⟩ = id.length :=
  strcspn_append h.comma body

theorem Tagged.plWrapper (h : Tagged id body) (sender : ℤ) (inbox : List Hash) :
    (plWrapper inbox ⟨id ++ ',' :: body, sender⟩).2 =
      if plHash ⟨id ++ ',' :: body, sender⟩ ∈ inbox then .returned
      else if body.length ≤ id.length then .overrun
      else .callback ⟨body, sender⟩ := by
  have hid := h.id_fits
  have hshort : (id ++ ',' :: body).length < 2 * (id.length + DELIM_LEN) ↔ body.length ≤ id.length := by
    simp only [List.length_append, List.length_cons, DELIM_LEN]
    omega
  rw [plWrapper_eq h.string h.fits, h.idLen, if_neg (by omega)]
  dsimp only
  split_ifs with hdup hle hle' hle'
  · rfl
  · rfl
  · exact absurd (hshort.mp hle) hle'
  · exact absurd (hshort.mpr hle') hle
  · rw [drop_field]

theorem strips_iff (hwf : ∀ e ∈ es, WellFormed e) (hrun : (plRun es).running = true) (htag : Tagged id body) :
    Strips es id body sender ↔
      id.length < body.length ∧ ∀ e ∈ es, plHash e ≠ plHash ⟨id ++ ',' :: body, sender⟩ := by
  have hinbox := plRun_running hwf hrun (plHash ⟨id ++ ',' :: body, sender⟩)
  rw [Strips, htag.plWrapper]
  by_cases hdup : plHash ⟨id ++ ',' :: body, sender⟩ ∈ (plRun es).inbox
  · rw [if_pos hdup]
    obtain ⟨e, he, heq⟩ := hinbox.mp hdup
    exact iff_of_false (fun h => by cases h) fun h => h.2 e he heq
  · rw [if_neg hdup]
    have hno : ∀ e ∈ es, plHash e ≠ plHash ⟨id ++ ',' :: body, sender⟩ := fun e he heq => hdup (hinbox.mpr ⟨e, he, heq⟩)
    by_cases hle : body.length ≤ id.length
    · rw [if_pos hle]
      exact iff_of_false (fun h => by cases h) fun h => absurd h.1 (by omega)
    · rw [if_neg hle]
      exact iff_of_true rfl ⟨by omega, hno⟩

/-- Peer 2 after a message of peer 1, with a body that is longer than the id. -/
theorem strips_longer : Strips [⟨"u,abc".toList, 1⟩] "v".toList "hello".toList 2 := by
  refine (strips_iff (by decide) (by decide +kernel) ⟨by decide, by decide, by decide, by decide, by decide⟩).mpr ?_
  exact ⟨by decide, by decide +kernel⟩

/-- The id of a heartbeat is longer than the heartbeat, and the loop leaves the buffer. -/
theorem heartbeat_not_stripped : ¬ ∀ id body sender, Tagged id body → Strips [] id body sender := by
  intro h
  have htag : Tagged (List.replicate 36 'a') ['H', 'B'] :=
    ⟨by decide, by decide, by decide, by decide, by decide⟩
  have hstrips := h _ _ 2 htag
  rw [Strips, htag.plWrapper, if_neg (by exact List.not_mem_nil), if_pos (by decide)] at hstrips
  cases hstrips

end DSA
