import DistributedAbstractions.Proofs.UrbAgreement

/-! Integrity of the majority-acknowledged broadcast: an entry of the table is delivered
when it has not been yet, and its acks and its frame were on their way before. -/

namespace DSA

open CLib Net Trans

section Local

variable {u : Urb} {q : ℤ} {f : Fields} {pre post : List SavedMessage} {m : SavedMessage}

theorem acknowledge_indications :
    indications (acknowledge { u with received := pre ++ m :: post } pre.length q f).2 = [] ∨
    m.wasDelivered = false ∧
      indications (acknowledge { u with received := pre ++ m :: post } pre.length q f).2 =
        [⟨f.originalId, createRbDelivery f⟩] := by
  rw [acknowledge_eq]
  split_ifs with hd
  · rw [Bool.and_eq_true, Bool.not_eq_true'] at hd
    exact .inr ⟨hd.1, rfl⟩
  · exact .inl rfl

/-- At most one indication a frame, and none for an entry that is delivered. -/
theorem urbCallback_indications (u : Urb) (q : ℤ) (M : CString) :
    indications (urbCallback u ⟨M, q⟩).2 = [] ∨
    ∃ f pre m post relay, openFrame u.maxRank M = some f ∧ Place u f pre m post relay ∧
      m.wasDelivered = false ∧
      indications (urbCallback u ⟨M, q⟩).2 = [⟨f.originalId, createRbDelivery f⟩] := by
  unfold urbCallback
  dsimp only
  split
  · exact .inl rfl
  next f hf =>
  split
  · next i hi =>
    obtain ⟨pre, m, post, hsplit, rfl, hid⟩ := place_of_known hi
    have hout := @acknowledge_indications u q f pre post m
    rw [← hsplit] at hout
    exact hout.imp_right fun ⟨hd, ho⟩ => ⟨f, pre, m, post, [], hf, .known hsplit hid, hd, ho⟩
  · next hnone =>
    have hnew : ∀ m ∈ u.received, m.id ≠ f.originalId := by
      simpa using List.findIdx?_eq_none_iff.mp hnone
    have hrelay : indications (if f.originalSender ≠ u.localRank then
        urbBroadcastAux u (createRbDelivery f).msg f.originalId f.originalSender else []) = [] := by
      split_ifs
      · exact indications_sendLoop
      · rfl
    rw [indications_append, hrelay, List.nil_append]
    exact acknowledge_indications.imp_right fun ⟨hd, ho⟩ =>
      ⟨f, u.received, newSavedMessage f, [], _, hf, .new hnew, hd, ho⟩

theorem UrbTable.marked {maxRank : ℕ} {p : ℤ} {l : UrbProc} (h : UrbTable maxRank p l) {d : Indication}
    (hd : .indicate d ∈ l.effects) : ∃ m ∈ l.state.received, m.id = d.id ∧ m.wasDelivered = true := by
  obtain ⟨-, m, hm, hid, hdue⟩ := h.indicated d hd
  exact ⟨m, hm, hid, (h.saved m hm).due hdue⟩

theorem Place.unmarked {relay : UrbEffects} (hp : Place u f pre m post relay)
    (hnodup : (u.received.map (·.id)).Nodup) (hd : m.wasDelivered = false) :
    ∀ e ∈ u.received, e.id = f.originalId → e.wasDelivered = false := by
  intro e he hid
  cases hp with
  | known hsplit hm =>
    have hmem : m ∈ u.received := by rw [hsplit]; simp
    rwa [List.inj_on_of_nodup_map hnodup he hmem (hid.trans hm.symm)]
  | new hnew => exact absurd hid (hnew e he)

end Local

section

variable {maxRank : ℕ} {evs : List (Event Unit Broadcast CString)} {s : UrbState}
  (h : Run (urbSystem maxRank) (FreshIds some maxRank) evs s)
include h

theorem urb_delivers_once (p : ℤ) : ((indications (s.proc p).effects).map (·.id)).Nodup := by
  refine nodup_indications (fun evs s p _ a _ hr hlive _ _ => ?_) h p
  have ht := urb_table_of_uncrashed hr (mem_uncrashed_of_live hlive)
  cases a.input with
  | call e => exact .inl indications_sendLoop
  | receive q M =>
    refine (urbCallback_indications (s.proc p).state q M).imp_right ?_
    rintro ⟨f, pre, m, post, relay, -, hpl, hd, hone⟩
    refine ⟨_, hone, fun d hmem hid => ?_⟩
    obtain ⟨e, he, heid, hmark⟩ := ht.marked (mem_indications.mp hmem)
    rw [hpl.unmarked ht.nodup hd e he (heid.trans hid)] at hmark
    cases hmark

end

theorem urb_integrity {maxRank : ℕ} {evs : List (Event Unit Broadcast CString)} {s s' : UrbState}
    {e : Event Unit Broadcast CString} (h : Run (urbSystem maxRank) (FreshIds some maxRank) evs s)
    (hok : FreshIds some maxRank s e) (hn : (urbSystem maxRank).next s e = some s') :
    UrbIntegrity maxRank s s' := by
  have h' : Run (urbSystem maxRank) (FreshIds some maxRank) (evs ++ [e]) s' := .snoc h hok hn
  refine ⟨urb_delivers_once h', fun p d hd => ?_, fun p d hd => ?_⟩
  · obtain ⟨l, hl, hin, heff, -⟩ := urb_table h' p
    obtain ⟨⟨x₀, M₀, hM₀, hf₀⟩, m, hm, hmid, hdue⟩ :=
      hl.indicated d (heff.subset (mem_indications.mp hd))
    rw [shouldDeliver_iff, hl.maxRank_eq] at hdue
    refine ⟨_, Finset.filter_subset _ _, hdue, fun x hx => ?_⟩
    obtain ⟨M, f, hM, hf, hfid⟩ := ((hl.saved m hm).tallied x).mp (Finset.mem_filter.mp hx).2
    rw [← hin] at hM₀ hM
    obtain rfl := urb_frame_unique h' hM hf hM₀ hf₀ (hfid.trans hmid)
    exact (sent_before h (urb_allOriginal h) hn hM hf).1
  · obtain ⟨l, hl, hin, heff, -⟩ := urb_table h' p
    obtain ⟨⟨x, M, hM, hf⟩, -⟩ := hl.indicated d (heff.subset (mem_indications.mp hd))
    exact mem_broadcasts_some.mp (sent_before h (urb_allOriginal h) hn (hin ▸ hM) hf).2

/-- Process 1 of three has its own ack, and 2 has passed its message on. -/
def passedOnRun : List (Event Unit Broadcast CString) :=
  let frame := bcFrame ⟨1, ['u'], ['a']⟩
  [.act 1 () (.call ⟨['a'], ['u']⟩) none, .act 1 () (.deliver 1 frame) none,
    .act 2 () (.deliver 1 frame) none]

theorem passedOnRun_integrity : ∃ s s', Run (urbSystem 3) (FreshIds some 3) passedOnRun s ∧
    (urbSystem 3).next s (.act 1 () (.deliver 2 (bcFrame ⟨1, ['u'], ['a']⟩)) none) = some s' ∧
    indications (s.proc 1).effects = [] ∧ indications (s'.proc 1).effects = [⟨['u'], ⟨['a'], 1⟩⟩] ∧
    UrbIntegrity 3 s s' := by
  obtain ⟨s', hrun, hs'⟩ : ∃ s', Run (urbSystem 3) (FreshIds some 3)
      (passedOnRun ++ [.act 1 () (.deliver 2 (bcFrame ⟨1, ['u'], ['a']⟩)) none]) s' ∧
      indications (s'.proc 1).effects = [⟨['u'], ⟨['a'], 1⟩⟩] :=
    exists_run_of_exec (fun s : UrbState => indications (s.proc 1).effects) (by decide +kernel)
  obtain ⟨s, hprev, hok, hn⟩ := hrun.snoc_inv
  obtain ⟨t, ht, hnone⟩ : ∃ t, Run (urbSystem 3) (FreshIds some 3) passedOnRun t ∧
      indications (t.proc 1).effects = [] :=
    exists_run_of_exec (fun s : UrbState => indications (s.proc 1).effects) (by decide +kernel)
  obtain rfl := ht.unique hprev
  exact ⟨t, s', ht, hn, hnone, hs', urb_integrity ht hok hn⟩

end DSA
