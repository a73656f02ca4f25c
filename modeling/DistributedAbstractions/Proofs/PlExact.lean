import DistributedAbstractions.Proofs.PlDedup

/-! No duplication and no creation of the perfect link: whatever arrives is a copy of the message
of a call, and all copies of it have one hash, under which one callback is raised at most. -/

namespace DSA

open CLib Inbox Net Trans

section Call

variable {c : PlCall}

/-- What the guard says about a call, whenever it was made. -/
structure PlCall.Fits (c : PlCall) : Prop where
  uuid : IsUuid c.uuid
  text : NUL ∉ c.uuid ++ c.msg
  frame : plFrameLen c.src c.msg < MAX_MSG_LEN

theorem PlCall.Fits.sent_eq (h : c.Fits) :
    c.sent.msg = c.uuid ++ ',' :: c.msg ∧ c.sent.msg.length < MAX_MSG_LEN := by
  have huuid : c.uuid.length < UUID_STR_LEN := h.uuid.1
  have hframe := h.frame
  have hlen : (c.uuid ++ ',' :: c.msg).length < MAX_MSG_LEN := by
    simp only [plFrameLen, DELIM_LEN] at hframe
    simp only [List.length_append, List.length_cons]
    omega
  have heq : c.sent.msg = c.uuid ++ ',' :: c.msg := snprintf_of_lt hlen
  exact ⟨heq, heq ▸ hlen⟩

theorem PlCall.Fits.idLen_eq (h : c.Fits) : idLen c.raised.cause = c.uuid.length := by
  rw [idLen, show c.raised.cause.msg = c.sent.msg from rfl, h.sent_eq.1, strcspn_append h.uuid.2]

theorem PlCall.Fits.wellFormed (h : c.Fits) : WellFormed c.raised.cause := by
  refine ⟨?_, h.sent_eq.2, h.idLen_eq ▸ h.uuid.1⟩
  rw [show c.raised.cause.msg = c.sent.msg from rfl, h.sent_eq.1]
  have hcomma : NUL ≠ ',' := by decide
  simpa [hcomma] using h.text

/-- A copy raises what the call is for, or is too short to be moved. -/
theorem PlCall.Fits.accepted (h : c.Fits) {k : Hash} {r : Raised}
    (hr : plReading c.raised.cause = .accepted k r) : k = plHash c.raised.cause ∧ r = c.raised := by
  unfold plReading at hr
  split_ifs at hr
  obtain ⟨rfl, rfl⟩ := Reading.accepted.inj hr
  refine ⟨rfl, ?_⟩
  have hdrop : c.raised.cause.msg.drop (idLen c.raised.cause + DELIM_LEN) = c.msg := by
    rw [h.idLen_eq, show c.raised.cause.msg = c.sent.msg from rfl, h.sent_eq.1]
    simp [DELIM_LEN]
  rw [hdrop]
  rfl

end Call

section Stubborn

variable {δ : Type} {emit : ℤ → Send → δ} {sbl : Stubborn δ}

/-- All that is stored satisfies `P`, and all that is on its way was made of something that does. -/
structure Stubborn.Holds (sbl : Stubborn δ) (emit : ℤ → Send → δ) (P : ℤ → Send → Prop) : Prop where
  outbox : ∀ p, ∀ e ∈ sbl.outbox p, P p e
  air : ∀ k ∈ sbl.air, ∃ p e, P p e ∧ k = emit p e

theorem Stubborn.Holds.send {P Q : ℤ → Send → Prop} (h : sbl.Holds emit P) (hPQ : ∀ p e, P p e → Q p e)
    {p : ℤ} {e : Send} (he : Q p e) : (sblSend emit sbl p e).Holds emit Q := by
  refine ⟨fun p' e' he' => ?_, fun k hk => ?_⟩
  · simp only [sblSend, Function.update_apply] at he'
    split_ifs at he' with hp
    · rcases List.mem_append.mp he' with he' | he'
      · exact hPQ _ _ (h.outbox p' e' (hp ▸ he'))
      · rw [hp, List.mem_singleton.mp he']
        exact he
    · exact hPQ _ _ (h.outbox p' e' he')
  · rcases List.mem_append.mp hk with hk | hk
    · obtain ⟨p', e', he', rfl⟩ := h.air k hk
      exact ⟨p', e', hPQ _ _ he', rfl⟩
    · exact ⟨p, e, he, List.mem_singleton.mp hk⟩

theorem Stubborn.Holds.timeout {P : ℤ → Send → Prop} (h : sbl.Holds emit P) (p : ℤ) :
    (sblHandleTimeout emit sbl p).Holds emit P := by
  refine ⟨h.outbox, fun k hk => ?_⟩
  rcases List.mem_append.mp hk with hk | hk
  · exact h.air k hk
  · obtain ⟨e, he, rfl⟩ := List.mem_map.mp hk
    exact ⟨p, e, h.outbox p e he, rfl⟩

end Stubborn

/-- `e` is what `p` sends for one of the calls. -/
def SentFor (calls : List PlCall) (p : ℤ) (e : Send) : Prop := ∃ c ∈ calls, c.src = p ∧ c.sent = e

/-- All that is stored, on its way or received goes back to a call. -/
structure PlTraffic (s : PlState) : Prop where
  fits : ∀ c ∈ s.calls, c.Fits
  sent : s.sbl.Holds fllSend (SentFor s.calls)
  received : ∀ q, ∀ e ∈ s.received q, ∃ c ∈ s.calls, c.dst = q ∧ e = c.raised.cause

section Step

variable {s : PlState}

theorem PlTraffic.send (h : PlTraffic s) {c : PlCall} (hc : c.Fits) : PlTraffic (s.send c) := by
  have hold : ∀ {P : PlCall → Prop}, (∃ c' ∈ s.calls, P c') → ∃ c' ∈ s.calls ++ [c], P c' := by
    rintro P ⟨c', hc', hP⟩
    exact ⟨c', List.mem_append_left _ hc', hP⟩
  refine ⟨fun c' hc' => ?_, h.sent.send (fun _ _ => hold) ⟨c, by simp, rfl, rfl⟩,
    fun q e he => hold (h.received q e he)⟩
  rcases List.mem_append.mp hc' with hc' | hc'
  · exact h.fits c' hc'
  · exact List.mem_singleton.mp hc' ▸ hc

theorem PlTraffic.arrive (h : PlTraffic s) {k : Packet CString} (hk : k ∈ s.sbl.air) :
    PlTraffic (s.arrive k) := by
  refine ⟨h.fits, h.sent, fun q e he => ?_⟩
  simp only [PlState.arrive, Function.update_apply] at he
  split_ifs at he with hq
  · rcases List.mem_append.mp he with he | he
    · exact h.received q e (hq ▸ he)
    · obtain ⟨p, _, ⟨c, hc, rfl, rfl⟩, rfl⟩ := h.sent.air k hk
      exact ⟨c, hc, hq.symm, List.mem_singleton.mp he⟩
  · exact h.received q e he

theorem plTraffic_of_run {evs : List PlEvent} (h : Run plSystem PlFair evs s) : PlTraffic s := by
  refine h.state_invariant (I := PlTraffic) ⟨fun _ hc => (List.not_mem_nil hc).elim,
    ⟨fun _ _ he => (List.not_mem_nil he).elim, fun _ hk => (List.not_mem_nil hk).elim⟩,
    fun _ _ he => (List.not_mem_nil he).elim⟩ ?_
  intro evs s e s' _ ih hok hn
  cases e with
  | send c =>
    obtain rfl := Option.some.inj hn
    exact ih.send ⟨hok.1, hok.2.1, hok.2.2.1⟩
  | timeout p =>
    obtain rfl := Option.some.inj hn
    exact ⟨ih.fits, ih.sent.timeout p, ih.received⟩
  | arrive k =>
    obtain ⟨hk, hs⟩ := Option.ite_none_right_eq_some.mp hn
    obtain rfl := Option.some.inj hs
    exact ih.arrive hk

theorem PlTraffic.delivered (h : PlTraffic s) (q : ℤ) :
    (∀ r ∈ (s.link q).delivered, ∃ c ∈ s.calls, c.dst = q ∧ c.raised = r) ∧
      ((s.link q).delivered.map Raised.cause).Nodup := by
  have hwf : ∀ e ∈ s.received q, WellFormed e := by
    intro e he
    obtain ⟨c, hc, -, rfl⟩ := h.received q e he
    exact (h.fits c hc).wellFormed
  obtain ⟨l, hdel, hnodup, hl⟩ := exists_keyed ((s.received q).map plReading)
  rw [PlState.link, plRun_eq hwf, hdel]
  have horigin : ∀ x ∈ l, x.1 = plHash x.2.cause ∧ ∃ c ∈ s.calls, c.dst = q ∧ c.raised = x.2 := by
    intro x hx
    obtain ⟨e, he, hread⟩ := List.mem_map.mp (hl x hx).1
    obtain ⟨c, hc, hq, rfl⟩ := h.received q e he
    obtain ⟨hkey, hraised⟩ := (h.fits c hc).accepted hread
    exact ⟨by rw [hkey, hraised], c, hc, hq, hraised.symm⟩
  refine ⟨fun r hr => ?_, ?_⟩
  · obtain ⟨x, hx, rfl⟩ := List.mem_map.mp hr
    exact (horigin x hx).2
  · -- the keys are the hashes of the causes
    have hkeys : l.map Prod.fst = ((l.map Prod.snd).map Raised.cause).map plHash := by
      rw [List.map_map, List.map_map]
      exact List.map_congr_left fun x hx => (horigin x hx).1
    rw [hkeys] at hnodup
    exact hnodup.of_map _

end Step

theorem pl_integrity {evs : List PlEvent} {s : PlState} (h : Run plSystem PlFair evs s) :
    PlIntegrity s := by
  have ht := plTraffic_of_run h
  refine ⟨fun c _ => ?_, fun q => ?_⟩
  · have hcount := List.nodup_iff_count_le_one.mp (ht.delivered c.dst).2 c.raised.cause
    rw [List.count, List.countP_map, List.countP_eq_length_filter] at hcount
    simpa [Function.comp_def, beq_eq_decide] using hcount
  · obtain ⟨horigin, hnodup⟩ := ht.delivered q
    choose! call hcall hdst hraised using horigin
    have hmap : ((s.link q).delivered.map call).map PlCall.raised = (s.link q).delivered := by
      rw [List.map_map]
      exact (List.map_congr_left hraised).trans (List.map_id _)
    refine ⟨(s.link q).delivered.map call, ?_, fun c hc => ?_, hmap.symm⟩
    · exact List.Nodup.of_map PlCall.raised (hmap.symm ▸ hnodup.of_map _)
    · obtain ⟨r, hr, rfl⟩ := List.mem_map.mp hc
      exact ⟨hcall r hr, hdst r hr⟩

/-- Peer 1 sends to 2, and two copies arrive. -/
def repeatedRun : List PlEvent :=
  [.send ⟨1, 2, "ab".toList, ['u']⟩, .timeout 1, .arrive ⟨1, 2, "u,ab".toList⟩, .arrive ⟨1, 2, "u,ab".toList⟩]

theorem repeatedRun_integrity : ∃ s, Run plSystem PlFair repeatedRun s ∧
    (s.link 2).delivered.map Raised.event = [⟨"ab".toList, 1⟩] ∧ PlIntegrity s := by
  obtain ⟨s, hrun, hs⟩ : ∃ s, Run plSystem PlFair repeatedRun s ∧
      (s.link 2).delivered.map Raised.event = [⟨"ab".toList, 1⟩] :=
    exists_run_of_exec (fun s : PlState => (s.link 2).delivered.map Raised.event) (by decide +kernel)
  exact ⟨s, hrun, hs, pl_integrity hrun⟩

end DSA
