import DistributedAbstractions.Proofs.PfdDetection
import DistributedAbstractions.Spec.RbHistory

/-! Every access to `rb->history` is to a slot that `rb_init` has set: the delivery path checks the original
sender, and the detector reports no other ranks. -/

namespace DSA

open CLib Net Access

section Handlers

variable {rb : Rb}

theorem only_historyOf {rank : ℤ} (h : Remote rb.maxRank rb.localRank rank) :
    Only (IsSet rb.localRank rb.maxRank) (historyOf rb rank) := by
  obtain ⟨hrank, hne⟩ := h
  obtain ⟨h1, hmax⟩ := mem_peers.mp hrank
  exact only_access ⟨rank, rfl, h1, hmax, hne⟩ _

theorem only_onCrashedAt {peerId : ℤ} (h : Remote rb.maxRank rb.localRank peerId) :
    Only (IsSet rb.localRank rb.maxRank) (onCrashedAt rb peerId) :=
  (only_historyOf h).bind (only_pure _)

theorem only_onDeliveryWrapperAt (e : Deliver) :
    Only (IsSet rb.localRank rb.maxRank) (onDeliveryWrapperAt rb e) := by
  unfold onDeliveryWrapperAt
  split
  · exact only_pure _
  next fields hfields =>
  dsimp only
  by_cases hown : fields.originalSender = rb.localRank
  · rw [if_pos hown]
    split
    · exact only_pure _
    · exact only_pure _
  · rw [if_neg hown]
    have hremote : Remote rb.maxRank rb.localRank fields.originalSender := ⟨(openFrame_eq_some hfields).1, hown⟩
    apply Only.bind
    · exact (only_historyOf hremote).bind (only_pure _)
    · split
      · exact only_pure _
      · exact ((only_historyOf hremote).bind (only_pure _)).bind (only_pure _)

theorem only_rbFree (rb : Rb) : Only (IsSet rb.localRank rb.maxRank) (rbFree rb) := by
  apply only_mapM
  intro rank hrank
  rw [List.mem_filter, mem_ranks, decide_eq_true_eq] at hrank
  exact only_historyOf hrank

theorem value_onCrashedAt (peerId : ℤ) : (onCrashedAt rb peerId).value = onCrashed rb peerId := rfl

/-- The accesses are recorded beside what the handler does. -/
theorem value_onDeliveryWrapperAt (e : Deliver) : (onDeliveryWrapperAt rb e).value = onDeliveryWrapper rb e := by
  unfold onDeliveryWrapperAt onDeliveryWrapper
  cases openFrame rb.maxRank e.msg with
  | none => rfl
  | some fields =>
    dsimp only
    by_cases hown : fields.originalSender = rb.localRank
    · rw [if_pos hown, if_pos hown]
      split <;> rfl
    · rw [if_neg hown, if_neg hown, value_bind]
      change (if isMessageDuplicate rb fields = true then _ else _ : Logged ℤ (Rb × RbEffects)).value = _
      split <;> rfl

end Handlers

theorem frame_onDeliveryWrapper (rb : Rb) (e : Deliver) : (onDeliveryWrapper rb e).1.localRank = rb.localRank ∧
    (onDeliveryWrapper rb e).1.maxRank = rb.maxRank := by
  unfold onDeliveryWrapper
  split
  · exact ⟨rfl, rfl⟩
  · dsimp only
    split_ifs
    all_goals exact ⟨rfl, rfl⟩

theorem remote_of_indicated {pfd : Pfd} {crash : Crash} (h : .indicate crash ∈ (pfdHandleTimeout pfd).2) :
    Remote pfd.maxRank pfd.localRank crash.peerId := by
  have hcrashes := (pfdLoop_eq pfd (ranks pfd.maxRank) (ranks_nodup _)).2
  have hmem : crash ∈ ((ranks pfd.maxRank).filter (isSilent pfd)).map Crash.mk := by
    rw [← hcrashes, mem_indications]
    exact h
  obtain ⟨rank, hrank, rfl⟩ := List.mem_map.mp hmem
  rw [List.mem_filter, mem_ranks, isSilent, Bool.and_eq_true, Bool.and_eq_true, decide_eq_true_eq] at hrank
  exact ⟨hrank.1, hrank.2.1.1⟩

theorem frame_pfdHandleTimeout (pfd : Pfd) : (pfdHandleTimeout pfd).1.maxRank = pfd.maxRank ∧
    (pfdHandleTimeout pfd).1.localRank = pfd.localRank := by
  have hstate := (pfdLoop_eq pfd (ranks pfd.maxRank) (ranks_nodup _)).1
  exact ⟨(congrArg Pfd.maxRank hstate).trans rfl, (congrArg Pfd.localRank hstate).trans rfl⟩

theorem only_onPfdEffects {rb : Rb} {es : PfdEffects}
    (h : ∀ crash, .indicate crash ∈ es → Remote rb.maxRank rb.localRank crash.peerId) :
    Only (IsSet rb.localRank rb.maxRank) (onPfdEffects rb es) := by
  induction es with
  | nil => exact only_pure _
  | cons e es ih =>
    have hrest := ih fun crash hcrash => h crash (List.mem_cons_of_mem _ hcrash)
    cases e with
    | send recipient msg => exact hrest.bind (only_pure _)
    | indicate crash =>
      exact (only_onCrashedAt (h crash (by simp))).bind (hrest.bind (only_pure _))

/-- Both modules know the rank of the process and how many there are. -/
structure RbNodeOk (localRank : ℤ) (maxRank : ℕ) (node : RbNode) : Prop where
  rbLocal : node.rb.localRank = localRank
  rbMax : node.rb.maxRank = maxRank
  pfdLocal : node.pfd.localRank = localRank
  pfdMax : node.pfd.maxRank = maxRank

theorem rbNodeOk_init (localRank : ℤ) (maxRank : ℕ) : RbNodeOk localRank maxRank (rbInit localRank maxRank) :=
  ⟨rfl, rfl, rfl, rfl⟩

section Run

variable {localRank : ℤ} {maxRank : ℕ} {node : RbNode}

theorem RbNodeOk.step (h : RbNodeOk localRank maxRank node) (ev : RbNodeEvent) :
    Only (IsSet localRank maxRank) (rbNodeStep node ev) ∧ RbNodeOk localRank maxRank (rbNodeStep node ev).value.1 := by
  obtain ⟨rfl, rfl, hlocal, hmax⟩ := h
  cases ev with
  | broadcast e => exact ⟨only_pure _, rfl, rfl, hlocal, hmax⟩
  | data e =>
    obtain ⟨hl, hm⟩ := frame_onDeliveryWrapper node.rb e
    refine ⟨(only_onDeliveryWrapperAt e).bind (only_pure _), ?_, ?_, hlocal, hmax⟩
    · change (onDeliveryWrapperAt node.rb e).value.1.localRank = _
      rw [value_onDeliveryWrapperAt, hl]
    · change (onDeliveryWrapperAt node.rb e).value.1.maxRank = _
      rw [value_onDeliveryWrapperAt, hm]
  | control e =>
    refine ⟨Only.bind (only_onPfdEffects fun crash hcrash => ?_) (only_pure _), rfl, rfl, hlocal, hmax⟩
    exact absurd hcrash indicate_notMem_fdCallback
  | timeout =>
    obtain ⟨hm, hl⟩ := frame_pfdHandleTimeout node.pfd
    refine ⟨Only.bind (only_onPfdEffects fun crash hcrash => ?_) (only_pure _), rfl, rfl, hl.trans hlocal, hm.trans hmax⟩
    rw [← hlocal, ← hmax]
    exact remote_of_indicated hcrash

theorem RbNodeOk.run (h : RbNodeOk localRank maxRank node) (evs : List RbNodeEvent) :
    Only (IsSet localRank maxRank) (rbNodeRun node evs) ∧ RbNodeOk localRank maxRank (rbNodeRun node evs).value.1 := by
  induction evs generalizing node with
  | nil => exact ⟨only_pure _, h⟩
  | cons ev evs ih =>
    obtain ⟨honly, hok⟩ := h.step ev
    obtain ⟨hrest, hlast⟩ := ih hok
    exact ⟨honly.bind (hrest.bind (only_pure _)), hlast⟩

end Run

theorem unset_slot_untouched (localRank : ℤ) (maxRank : ℕ) (evs : List RbNodeEvent) :
    Only (IsSet localRank maxRank) (rbLifetime localRank maxRank evs) := by
  obtain ⟨honly, hok⟩ := (rbNodeOk_init localRank maxRank).run evs
  have hfree : Only (IsSet localRank maxRank) (rbFree (rbNodeRun (rbInit localRank maxRank) evs).value.1.rb) := by
    have h := only_rbFree (rbNodeRun (rbInit localRank maxRank) evs).value.1.rb
    rwa [hok.rbLocal, hok.rbMax] at h
  exact honly.bind (hfree.bind (only_pure _))

/-- Peer 2 is reported at the second timeout, and its history is freed in the end. -/
example : (rbLifetime 1 2 [.timeout, .timeout]).places = [1, 1] := rfl

end DSA
