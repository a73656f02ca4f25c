import DistributedAbstractions.Proofs.Forwarding
import DistributedAbstractions.Spec.Rb

/-! What the history of one process of the lazy broadcast says about its saved messages:
each was delivered when it was saved, and is retransmitted when its sender is reported
crashed, unless it was saved later. -/

namespace DSA

open CLib Net Trans

abbrev RbProc := Proc Rb RbRequest CString Indication

inductive RbOutcome (rb : Rb) (q : ℤ) (M : CString) : Rb → RbEffects → Prop
  | ignored (h : ∀ f, openFrame rb.maxRank M = some f →
      f.originalSender = rb.localRank ∧ q ≠ rb.localRank ∨
        f.originalSender ≠ rb.localRank ∧ isMessageDuplicate rb f = true) : RbOutcome rb q M rb []
  | own {f : Fields} (hf : openFrame rb.maxRank M = some f) (ho : f.originalSender = rb.localRank)
      (hq : q = rb.localRank) :
      RbOutcome rb q M rb [.indicate ⟨f.originalId, createRbDelivery f⟩]
  | saved {f : Fields} (hf : openFrame rb.maxRank M = some f) (ho : f.originalSender ≠ rb.localRank)
      (hd : isMessageDuplicate rb f = false) :
      RbOutcome rb q M (saveMessageToHistory rb f) [.indicate ⟨f.originalId, createRbDelivery f⟩]

theorem onDeliveryWrapper_outcome (rb : Rb) (q : ℤ) (M : CString) :
    RbOutcome rb q M (onDeliveryWrapper rb ⟨M, q⟩).1 (onDeliveryWrapper rb ⟨M, q⟩).2 := by
  unfold onDeliveryWrapper
  dsimp only
  split
  · next h => exact .ignored fun f hf => by rw [h] at hf; cases hf
  next f hf =>
  have hsame : ∀ f', openFrame rb.maxRank M = some f' → f' = f := fun f' hf' =>
    Option.some.inj (hf'.symm.trans hf)
  split_ifs with ho hq hd
  · exact .own hf ho hq
  · exact .ignored fun f' hf' => .inl (hsame f' hf' ▸ ⟨ho, hq⟩)
  · exact .ignored fun f' hf' => .inr (hsame f' hf' ▸ ⟨ho, hd⟩)
  · exact .saved hf ho (Bool.eq_false_iff.mpr hd)

theorem rbBroadcastAux_eq (rb : Rb) (content id : CString) (o : ℤ) :
    rbBroadcastAux rb content id o =
      (ranks rb.maxRank).map (.send · (bcFrame ⟨o, id, content⟩)) := by
  rw [rbBroadcastAux, sendLoop_of_ok fun _ _ => rfl]

theorem mem_rbBroadcastAux {rb : Rb} {content id : CString} {o : ℤ} {e : Effect CString Indication} :
    e ∈ rbBroadcastAux rb content id o ↔
      ∃ y ∈ peers rb.maxRank, e = .send y (bcFrame ⟨o, id, content⟩) := by
  simp only [rbBroadcastAux_eq, List.mem_map, mem_ranks, eq_comm (a := e)]

theorem mem_onCrashed {rb : Rb} {o : ℤ} {e : Effect CString Indication} :
    e ∈ onCrashed rb o ↔ ∃ m ∈ rb.history (o - 1), ∃ y ∈ peers rb.maxRank,
      e = .send y (bcFrame ⟨o, m.id, m.msg⟩) := by
  simp only [onCrashed, List.mem_flatMap, mem_rbBroadcastAux]

/-- `m` was taken from a frame of `o`, and delivered. -/
def SavedFrom (maxRank : ℕ) (o : ℤ) (is : List (Input RbRequest CString)) (es : RbEffects)
    (m : RbSavedMessage) : Prop :=
  (∃ x M, .receive x M ∈ is ∧ openFrame maxRank M = some ⟨o, m.id, m.msg⟩) ∧
    .indicate ⟨m.id, ⟨m.msg, o⟩⟩ ∈ es

/-- The frame for `m` has been sent to all, or heard from a process of `A`. -/
def Spread (maxRank : ℕ) (A : Finset ℤ) (o : ℤ) (is : List (Input RbRequest CString)) (es : RbEffects)
    (m : RbSavedMessage) : Prop :=
  (∀ y ∈ peers maxRank, .send y (bcFrame ⟨o, m.id, m.msg⟩) ∈ es) ∨
    ∃ x ∈ A, ∃ M, .receive x M ∈ is ∧ openFrame maxRank M = some ⟨o, m.id, m.msg⟩

structure RbLocal (N : ℕ) (A : Finset ℤ) (p : ℤ) (l : RbProc) : Prop where
  localRank : l.state.localRank = p
  maxRank : l.state.maxRank = N
  forwards : Forwards RbRequest.broadcast? N p l
  to_all : ∀ d P, .send d P ∈ l.effects → ∀ y ∈ peers N, .send y P ∈ l.effects
  called : ∀ e, .call (.broadcast e) ∈ l.inputs → ∀ y ∈ peers N,
    .send y (bcFrame (originalFrame p e)) ∈ l.effects
  saved : ∀ o, ∀ m ∈ l.state.history (o - 1), SavedFrom N o l.inputs l.effects m
  known : ∀ x M f, .receive x M ∈ l.inputs → openFrame N M = some f → f.originalSender ≠ p →
    ∃ m ∈ l.state.history (f.originalSender - 1), m.id = f.originalId
  own : ∀ M f, .receive p M ∈ l.inputs → openFrame N M = some f → f.originalSender = p →
    .indicate ⟨f.originalId, createRbDelivery f⟩ ∈ l.effects
  indicated : ∀ d, .indicate d ∈ l.effects → ∃ x M, .receive x M ∈ l.inputs ∧
    openFrame N M = some ⟨d.deliver.sender, d.id, d.deliver.msg⟩
  retransmitted : p ∈ A → ∀ o, .call (.crashed o) ∈ l.inputs → ∀ m ∈ l.state.history (o - 1),
    Spread N A o l.inputs l.effects m

section Step

variable {N : ℕ} {A : Finset ℤ} {p : ℤ} {l : RbProc}

theorem SavedFrom.mono {o : ℤ} {is is' : List (Input RbRequest CString)} {es es' : RbEffects}
    (hi : is <+: is') (he : es <+: es') {m : RbSavedMessage} (h : SavedFrom N o is es m) :
    SavedFrom N o is' es' m := by
  obtain ⟨⟨x, M, hM, hf⟩, hd⟩ := h
  exact ⟨⟨x, M, hi.subset hM, hf⟩, he.subset hd⟩

theorem Spread.mono {o : ℤ} {is is' : List (Input RbRequest CString)} {es es' : RbEffects}
    (hi : is <+: is') (he : es <+: es') {m : RbSavedMessage} (h : Spread N A o is es m) :
    Spread N A o is' es' m := by
  rcases h with h | ⟨x, hx, M, hM, hf⟩
  · exact .inl fun y hy => he.subset (h y hy)
  · exact .inr ⟨x, hx, M, hi.subset hM, hf⟩

/-- A step keeps what it does not touch. Left to show is what the new input and the new
effects bring. -/
theorem RbLocal.extend (h : RbLocal N A p l) {rb : Rb} {i : Input RbRequest CString} {es : RbEffects}
    (hp : rb.localRank = l.state.localRank) (hN : rb.maxRank = l.state.maxRank)
    (hfw : ∀ d P, .send d P ∈ es →
      (∃ e ∈ broadcasts RbRequest.broadcast? (l.inputs ++ [i]), P = bcFrame (originalFrame p e)) ∨
      ∃ x P' f, .receive x P' ∈ l.inputs ++ [i] ∧ openFrame N P' = some f ∧ P = bcFrame f)
    (hall : ∀ d P, .send d P ∈ es → ∀ y ∈ peers N, .send y P ∈ es)
    (hcalled : ∀ e, i = .call (.broadcast e) → ∀ y ∈ peers N,
      .send y (bcFrame (originalFrame p e)) ∈ es)
    (hmono : ∀ o, ∀ m ∈ l.state.history o, m ∈ rb.history o)
    (hsaved : ∀ o, ∀ m ∈ rb.history (o - 1), m ∈ l.state.history (o - 1) ∨
      SavedFrom N o (l.inputs ++ [i]) (l.effects ++ es) m)
    (hknown : ∀ x M f, i = .receive x M → openFrame N M = some f → f.originalSender ≠ p →
      ∃ m ∈ rb.history (f.originalSender - 1), m.id = f.originalId)
    (hown : ∀ M f, i = .receive p M → openFrame N M = some f → f.originalSender = p →
      .indicate ⟨f.originalId, createRbDelivery f⟩ ∈ es)
    (hind : ∀ d, .indicate d ∈ es → ∃ x M, i = .receive x M ∧
      openFrame N M = some ⟨d.deliver.sender, d.id, d.deliver.msg⟩)
    (hre : p ∈ A → ∀ o, .call (.crashed o) ∈ l.inputs ++ [i] → ∀ m ∈ rb.history (o - 1),
      .call (.crashed o) ∈ l.inputs ∧ m ∈ l.state.history (o - 1) ∨
        Spread N A o (l.inputs ++ [i]) (l.effects ++ es) m) :
    RbLocal N A p ⟨rb, l.inputs ++ [i], l.effects ++ es, l.crashed⟩ := by
  have hi : l.inputs <+: l.inputs ++ [i] := List.prefix_append _ _
  have he : l.effects <+: l.effects ++ es := List.prefix_append _ _
  have last : ∀ {j}, j ∈ l.inputs ++ [i] → j ∈ l.inputs ∨ i = j := fun hj =>
    (List.mem_append.mp hj).imp_right fun h => (List.mem_singleton.mp h).symm
  refine ⟨hp.trans h.localRank, hN.trans h.maxRank, h.forwards.snoc hfw, fun d P hP y hy => ?_,
    fun e he' y hy => ?_, fun o m hm => ?_, fun x M f hM hf ho => ?_, fun M f hM hf ho => ?_,
    fun d hd => ?_, fun hA o ho m hm => ?_⟩
  · exact (List.mem_append.mp hP).elim (fun hP => he.subset (h.to_all d P hP y hy))
      fun hP => List.mem_append_right _ (hall d P hP y hy)
  · exact (last he').elim (fun he' => he.subset (h.called e he' y hy))
      fun he' => List.mem_append_right _ (hcalled e he' y hy)
  · exact (hsaved o m hm).elim (fun hm => (h.saved o m hm).mono hi he) id
  · rcases last hM with hM | hM
    · obtain ⟨m, hm, hid⟩ := h.known x M f hM hf ho
      exact ⟨m, hmono _ m hm, hid⟩
    · exact hknown x M f hM hf ho
  · exact (last hM).elim (fun hM => he.subset (h.own M f hM hf ho))
      fun hM => List.mem_append_right _ (hown M f hM hf ho)
  · rcases List.mem_append.mp hd with hd | hd
    · obtain ⟨x, M, hM, hf⟩ := h.indicated d hd
      exact ⟨x, M, hi.subset hM, hf⟩
    · obtain ⟨x, M, rfl, hf⟩ := hind d hd
      exact ⟨x, M, by simp, hf⟩
  · exact (hre hA o ho m hm).elim (fun ⟨ho, hm⟩ => (h.retransmitted hA o ho m hm).mono hi he) id

theorem rbLocal_init : RbLocal N A p ⟨⟨p, N, fun _ => []⟩, [], [], false⟩ where
  localRank := rfl
  maxRank := rfl
  forwards _ _ h := (List.not_mem_nil h).elim
  to_all _ _ h := (List.not_mem_nil h).elim
  called _ h := (List.not_mem_nil h).elim
  saved _ _ h := (List.not_mem_nil h).elim
  known _ _ _ h := (List.not_mem_nil h).elim
  own _ _ h := (List.not_mem_nil h).elim
  indicated _ h := (List.not_mem_nil h).elim
  retransmitted _ _ h := (List.not_mem_nil h).elim

theorem RbLocal.broadcast (h : RbLocal N A p l) (e : Broadcast) :
    RbLocal N A p (l.perform (rbProtocol N) () (.call (.broadcast e))) := by
  have hsend : ∀ {x}, x ∈ rbBroadcast l.state e ↔
      ∃ y ∈ peers N, x = .send y (bcFrame (originalFrame p e)) := by
    intro x
    rw [rbBroadcast, mem_rbBroadcastAux, h.localRank, h.maxRank]
    rfl
  refine h.extend rfl rfl (fun d P hP => .inl ⟨e, mem_broadcasts.mpr ⟨.broadcast e, by simp, rfl⟩, ?_⟩)
    (fun d P hP y hy => ?_) (fun e' he' y hy => ?_) (fun _ _ => id) (fun _ _ => .inl)
    (fun _ _ _ hi => by cases hi) (fun _ _ hi => by cases hi) (fun d hd => ?_)
    fun _ o ho m hm => .inl ⟨by simpa using ho, hm⟩
  · obtain ⟨y, -, hy⟩ := hsend.mp hP
    cases hy
    rfl
  · obtain ⟨y', -, hy'⟩ := hsend.mp hP
    cases hy'
    exact hsend.mpr ⟨y, hy, rfl⟩
  · cases he'
    exact hsend.mpr ⟨y, hy, rfl⟩
  · obtain ⟨y, -, hy⟩ := hsend.mp hd
    cases hy

theorem RbLocal.crashed (h : RbLocal N A p l) (o : ℤ) :
    RbLocal N A p (l.perform (rbProtocol N) () (.call (.crashed o))) := by
  have hsend : ∀ {x}, x ∈ onCrashed l.state o ↔ ∃ m ∈ l.state.history (o - 1), ∃ y ∈ peers N,
      x = .send y (bcFrame ⟨o, m.id, m.msg⟩) := by
    intro x
    rw [mem_onCrashed, h.maxRank]
  refine h.extend rfl rfl (fun d P hP => .inr ?_) (fun d P hP y hy => ?_) (fun _ hi => by cases hi)
    (fun _ _ => id) (fun _ _ => .inl) (fun _ _ _ hi => by cases hi) (fun _ _ hi => by cases hi)
    (fun d hd => ?_) fun _ o' ho' m hm => ?_
  · obtain ⟨m, hm, y, -, hy⟩ := hsend.mp hP
    obtain ⟨⟨x, M, hM, hf⟩, -⟩ := h.saved o m hm
    cases hy
    exact ⟨x, M, _, List.mem_append_left _ hM, hf, rfl⟩
  · obtain ⟨m, hm, y', -, hy'⟩ := hsend.mp hP
    cases hy'
    exact hsend.mpr ⟨m, hm, y, hy, rfl⟩
  · obtain ⟨m, -, y, -, hy⟩ := hsend.mp hd
    cases hy
  · rcases List.mem_append.mp ho' with ho' | ho'
    · exact .inl ⟨ho', hm⟩
    · cases List.mem_singleton.mp ho'
      exact .inr (.inl fun y hy => List.mem_append_right _ (hsend.mpr ⟨m, hm, y, hy, rfl⟩))

theorem RbLocal.receive_ignored (h : RbLocal N A p l) {q : ℤ} {M : CString}
    (hno : ∀ f, openFrame N M = some f → f.originalSender = p ∧ q ≠ p ∨
      f.originalSender ≠ p ∧ isMessageDuplicate l.state f = true) :
    RbLocal N A p ⟨l.state, l.inputs ++ [.receive q M], l.effects ++ [], l.crashed⟩ := by
  refine h.extend rfl rfl (fun _ _ hP => by cases hP) (fun _ _ hP => by cases hP)
    (fun _ hi => by cases hi) (fun _ _ => id) (fun _ _ => .inl) (fun x M' f hi hf ho => ?_)
    (fun M' f hi hf ho => ?_) (fun _ hd => by cases hd) fun _ o ho m hm => .inl ⟨by simpa using ho, hm⟩
  · cases hi
    obtain ⟨-, hdup⟩ := (hno f hf).resolve_left fun hp => ho hp.1
    simpa [isMessageDuplicate] using hdup
  · cases hi
    exact ((hno f hf).elim (fun hp => hp.2 rfl) fun hp => hp.1 ho).elim

theorem RbLocal.receive_own (h : RbLocal N A p l) {M : CString} {f : Fields} (hf : openFrame N M = some f)
    (ho : f.originalSender = p) : RbLocal N A p ⟨l.state, l.inputs ++ [.receive p M],
      l.effects ++ [.indicate ⟨f.originalId, createRbDelivery f⟩], l.crashed⟩ := by
  refine h.extend rfl rfl (fun _ _ hP => by simp at hP) (fun _ _ hP => by simp at hP)
    (fun _ hi => by cases hi) (fun _ _ => id) (fun _ _ => .inl) (fun x M' f' hi hf' ho' => ?_)
    (fun M' f' hi hf' _ => ?_) (fun d hd => ?_) fun _ o ho m hm => .inl ⟨by simpa using ho, hm⟩
  · cases hi
    obtain rfl := Option.some.inj (hf.symm.trans hf')
    exact absurd ho ho'
  · cases hi
    obtain rfl := Option.some.inj (hf.symm.trans hf')
    simp
  · obtain rfl : d = ⟨f.originalId, createRbDelivery f⟩ := by simpa using hd
    exact ⟨p, M, rfl, by rw [hf, openFrame_body hf]; rfl⟩

theorem mem_history_save {rb : Rb} {M : CString} {f : Fields} (hf : openFrame N M = some f)
    (hshort : f.originalId.length < UUID_STR_LEN) {o : ℤ} {m : RbSavedMessage} :
    m ∈ (saveMessageToHistory rb f).history (o - 1) ↔
      m ∈ rb.history (o - 1) ∨ o = f.originalSender ∧ m = ⟨f.originalId, f.body⟩ := by
  have hmsg : f.body.take MAX_MSG_LEN = f.body := openFrame_body hf
  have hsaved : savedMessage f.originalId f.body = ⟨f.originalId, f.body⟩ := by
    simp only [savedMessage, if_pos hshort, hmsg]
  simp only [saveMessageToHistory, Function.update_apply, hsaved]
  split_ifs with ho
  · have hof : o = f.originalSender := by omega
    rw [List.mem_append, List.mem_singleton, hof]
    simp
  · have hof : o ≠ f.originalSender := fun h => ho (by rw [h])
    simp [hof]

theorem RbLocal.receive_saved (h : RbLocal N A p l) {q : ℤ} {M : CString} {f : Fields}
    (hf : openFrame N M = some f) (ho : f.originalSender ≠ p) (hshort : f.originalId.length < UUID_STR_LEN)
    (hlate : p ∈ A → .call (.crashed f.originalSender) ∈ l.inputs → q ∈ A) :
    RbLocal N A p ⟨saveMessageToHistory l.state f, l.inputs ++ [.receive q M],
      l.effects ++ [.indicate ⟨f.originalId, createRbDelivery f⟩], l.crashed⟩ := by
  have hfields : openFrame N M = some ⟨f.originalSender, f.originalId, f.body⟩ := hf
  have hmsg : f.body.take MAX_MSG_LEN = f.body := openFrame_body hf
  refine h.extend rfl rfl (fun _ _ hP => by simp at hP) (fun _ _ hP => by simp at hP)
    (fun _ hi => by cases hi) (fun o m hm => ?_) (fun o m hm => ?_) (fun x M' f' hi hf' _ => ?_)
    (fun M' f' hi hf' ho' => ?_) (fun d hd => ?_) fun hA o hcr m hm => ?_
  · have hkept := (@mem_history_save N l.state M f hf hshort (o + 1) m).mpr
    rw [add_sub_cancel_right] at hkept
    exact hkept (.inl hm)
  · refine ((mem_history_save hf hshort).mp hm).imp_right ?_
    rintro ⟨rfl, rfl⟩
    exact ⟨⟨q, M, by simp, hfields⟩, by simp [createRbDelivery, hmsg]⟩
  · cases hi
    obtain rfl := Option.some.inj (hf.symm.trans hf')
    exact ⟨⟨f.originalId, f.body⟩, (mem_history_save hf hshort).mpr (.inr ⟨rfl, rfl⟩), rfl⟩
  · cases hi
    obtain rfl := Option.some.inj (hf.symm.trans hf')
    exact absurd ho' ho
  · obtain rfl : d = ⟨f.originalId, createRbDelivery f⟩ := by simpa using hd
    exact ⟨q, M, rfl, by rw [hf, openFrame_body hf]; rfl⟩
  · have hcr' : .call (.crashed o) ∈ l.inputs := by simpa using hcr
    refine ((mem_history_save hf hshort).mp hm).imp (fun hm => ⟨hcr', hm⟩) ?_
    rintro ⟨rfl, rfl⟩
    exact .inr ⟨q, hlate hA hcr', M, by simp, hfields⟩

/-- What is new of a sender that was reported crashed has to come from `A`. -/
theorem RbLocal.receive (h : RbLocal N A p l) {q : ℤ} {M : CString}
    (hshort : ∀ f, openFrame N M = some f → f.originalId.length < UUID_STR_LEN)
    (hlate : p ∈ A → q ∉ A → ∀ f, openFrame N M = some f → f.originalSender ≠ p →
      .call (.crashed f.originalSender) ∈ l.inputs → isMessageDuplicate l.state f = true) :
    RbLocal N A p (l.perform (rbProtocol N) () (.receive q M)) := by
  have hout := onDeliveryWrapper_outcome l.state q M
  change RbLocal N A p ⟨(onDeliveryWrapper l.state ⟨M, q⟩).1, l.inputs ++ [.receive q M],
    l.effects ++ (onDeliveryWrapper l.state ⟨M, q⟩).2, l.crashed⟩
  generalize (onDeliveryWrapper l.state ⟨M, q⟩).1 = rb at hout ⊢
  generalize (onDeliveryWrapper l.state ⟨M, q⟩).2 = es at hout ⊢
  cases hout with
  | ignored hno =>
    rw [h.maxRank, h.localRank] at hno
    exact h.receive_ignored hno
  | own hf ho hq =>
    rw [h.maxRank] at hf
    rw [h.localRank] at ho hq
    subst hq
    exact h.receive_own hf ho
  | saved hf ho hd =>
    rw [h.maxRank] at hf
    rw [h.localRank] at ho
    refine h.receive_saved hf ho (hshort _ hf) fun hA hcr => by_contra fun hq => ?_
    rw [hlate hA hq _ hf ho hcr] at hd
    cases hd

end Step

end DSA
