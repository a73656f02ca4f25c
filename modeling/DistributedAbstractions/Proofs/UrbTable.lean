import DistributedAbstractions.Proofs.UrbLocal

/-! The table of received messages of the uniform broadcast: an entry's acks are the
processes its frames were heard from, it was relayed when it was made, and with a
majority of acks it has been delivered. -/

namespace DSA

open CLib Net Trans

/-- `x` is heard with a frame under `id`. -/
def Heard (maxRank : ℕ) (is : List (Input Broadcast CString)) (id : CString) (x : ℤ) : Prop :=
  ∃ M f, .receive x M ∈ is ∧ openFrame maxRank M = some f ∧ f.originalId = id

theorem Heard.mono {maxRank : ℕ} {is is' : List (Input Broadcast CString)} (h : is <+: is')
    {id : CString} {x : ℤ} (hx : Heard maxRank is id x) : Heard maxRank is' id x := by
  obtain ⟨M, f, hM, hf, hid⟩ := hx
  exact ⟨M, f, h.subset hM, hf, hid⟩

theorem heard_snoc {maxRank : ℕ} {is : List (Input Broadcast CString)} {q : ℤ} {M : CString}
    {f : Fields} (hf : openFrame maxRank M = some f) {id : CString} {x : ℤ} :
    Heard maxRank (is ++ [.receive q M]) id x ↔
      Heard maxRank is id x ∨ x = q ∧ id = f.originalId := by
  constructor
  · rintro ⟨M', f', hM', hf', rfl⟩
    rcases List.mem_append.mp hM' with hM' | hM'
    · exact .inl ⟨M', f', hM', hf', rfl⟩
    · cases List.mem_singleton.mp hM'
      obtain rfl := Option.some.inj (hf'.symm.trans hf)
      exact .inr ⟨rfl, rfl⟩
  · rintro (h | ⟨rfl, rfl⟩)
    · exact h.mono (List.prefix_append _ _)
    · exact ⟨M, f, by simp, hf, rfl⟩

/-- The acks of `m` are those heard under its id. -/
def Tallied (maxRank : ℕ) (is : List (Input Broadcast CString)) (m : SavedMessage) : Prop :=
  ∀ x, m.acks (x - 1) = true ↔ Heard maxRank is m.id x

/-- A frame under `id` has been relayed to all, unless it is of the process itself. -/
def Relayed (maxRank : ℕ) (p : ℤ) (l : UrbProc) (id : CString) : Prop :=
  ∃ x M f, .receive x M ∈ l.inputs ∧ openFrame maxRank M = some f ∧ f.originalId = id ∧
    (f.originalSender ≠ p → ∀ y ∈ peers maxRank, .send y (bcFrame f) ∈ l.effects)

structure SavedOk (maxRank : ℕ) (p : ℤ) (l : UrbProc) (m : SavedMessage) : Prop where
  tallied : Tallied maxRank l.inputs m
  relayed : Relayed maxRank p l m.id
  due : shouldDeliver l.state m = true → m.wasDelivered = true
  delivered : m.wasDelivered = true → ∃ d, .indicate d ∈ l.effects ∧ d.id = m.id

structure UrbTable (maxRank : ℕ) (p : ℤ) (l : UrbProc) : Prop where
  localRank_eq : l.state.localRank = p
  maxRank_eq : l.state.maxRank = maxRank
  nodup : (l.state.received.map (·.id)).Nodup
  saved : ∀ m ∈ l.state.received, SavedOk maxRank p l m
  known : ∀ id x, Heard maxRank l.inputs id x → ∃ m ∈ l.state.received, m.id = id
  called : ∀ e, .call e ∈ l.inputs → ∀ y ∈ peers maxRank,
    .send y (bcFrame (originalFrame p e)) ∈ l.effects
  indicated : ∀ d, .indicate d ∈ l.effects →
    (∃ x M, .receive x M ∈ l.inputs ∧
      openFrame maxRank M = some ⟨d.deliver.sender, d.id, d.deliver.msg⟩) ∧
    ∃ m ∈ l.state.received, m.id = d.id ∧ shouldDeliver l.state m = true

section

variable {maxRank : ℕ} {is : List (Input Broadcast CString)} {q : ℤ} {M : CString} {f : Fields}
  {m : SavedMessage}

theorem Tallied.ack (h : Tallied maxRank is m) (hf : openFrame maxRank M = some f)
    (hid : m.id = f.originalId) : Tallied maxRank (is ++ [.receive q M]) (m.ack q) := by
  intro x
  change Function.update m.acks (q - 1) true (x - 1) = true ↔ _
  rw [heard_snoc hf, Function.update_apply]
  split_ifs with hx
  · exact iff_of_true rfl (.inr ⟨by omega, hid⟩)
  · refine (h x).trans ⟨.inl, fun hh => hh.resolve_right fun ⟨hxq, _⟩ => hx (by rw [hxq])⟩

theorem Tallied.other (h : Tallied maxRank is m) (hf : openFrame maxRank M = some f)
    (hid : m.id ≠ f.originalId) : Tallied maxRank (is ++ [.receive q M]) m := by
  intro x
  rw [heard_snoc hf]
  exact (h x).trans ⟨.inl, fun hh => hh.resolve_right fun ⟨_, he⟩ => hid he⟩

theorem shouldDeliver_congr {u u' : Urb} (hN : u'.maxRank = u.maxRank) {m m' : SavedMessage}
    (hm : m'.acks = m.acks) : shouldDeliver u' m' = shouldDeliver u m := by
  rw [shouldDeliver, shouldDeliver, hN, hm]

theorem shouldDeliver_ack {u : Urb} (h : shouldDeliver u m = true) (q : ℤ) :
    shouldDeliver u (m.ack q) = true := by
  simp only [shouldDeliver, ge_iff_le, decide_eq_true_eq] at h ⊢
  refine h.trans (List.countP_mono_left fun i _ hi => ?_)
  change Function.update m.acks (q - 1) true _ = true
  rw [Function.update_apply]
  split_ifs
  · rfl
  · exact hi

end

section Step

variable {maxRank : ℕ} {p : ℤ} {l : UrbProc}

theorem Relayed.mono {l' : UrbProc} (hi : l.inputs <+: l'.inputs) (he : l.effects <+: l'.effects)
    {id : CString} (h : Relayed maxRank p l id) : Relayed maxRank p l' id := by
  obtain ⟨x, M, f, hM, hf, hid, hall⟩ := h
  exact ⟨x, M, f, hi.subset hM, hf, hid, fun ho y hy => he.subset (hall ho y hy)⟩

theorem urbTable_init : UrbTable maxRank p ⟨⟨p, maxRank, []⟩, [], [], false⟩ :=
  ⟨rfl, rfl, List.nodup_nil, fun _ h => (List.not_mem_nil h).elim,
    fun _ _ ⟨_, _, h, _⟩ => (List.not_mem_nil h).elim, fun _ h => (List.not_mem_nil h).elim,
    fun _ h => (List.not_mem_nil h).elim⟩

theorem heard_ignored {is : List (Input Broadcast CString)} {q : ℤ} {M : CString}
    (hM : openFrame maxRank M = none) {id : CString} {x : ℤ} :
    Heard maxRank (is ++ [.receive q M]) id x ↔ Heard maxRank is id x := by
  refine ⟨?_, fun h => h.mono (List.prefix_append _ _)⟩
  rintro ⟨M', f, hM', hf, hid⟩
  rcases List.mem_append.mp hM' with hM' | hM'
  · exact ⟨M', f, hM', hf, hid⟩
  · cases List.mem_singleton.mp hM'
    rw [hM] at hf
    cases hf

theorem heard_call {is : List (Input Broadcast CString)} {e : Broadcast} {id : CString} {x : ℤ} :
    Heard maxRank (is ++ [.call e]) id x ↔ Heard maxRank is id x := by
  simp [Heard]

/-- Inputs that are no frames, and what is sent for them, change nothing. -/
theorem UrbTable.unheard (h : UrbTable maxRank p l) {i : Input Broadcast CString} {es : UrbEffects}
    (hheard : ∀ id x, Heard maxRank (l.inputs ++ [i]) id x ↔ Heard maxRank l.inputs id x)
    (hcalled : ∀ e, i = .call e → ∀ y ∈ peers maxRank, .send y (bcFrame (originalFrame p e)) ∈ es)
    (hes : ∀ d, .indicate d ∉ es) :
    UrbTable maxRank p ⟨l.state, l.inputs ++ [i], l.effects ++ es, l.crashed⟩ := by
  have hi : l.inputs <+: l.inputs ++ [i] := List.prefix_append _ _
  have he : l.effects <+: l.effects ++ es := List.prefix_append _ _
  refine ⟨h.localRank_eq, h.maxRank_eq, h.nodup, fun m hm => ?_,
    fun id x hx => h.known id x ((hheard id x).mp hx), fun e he' y hy => ?_, fun d hd => ?_⟩
  · have hok := h.saved m hm
    refine ⟨fun x => (hok.tallied x).trans (hheard _ _).symm, hok.relayed.mono hi he, hok.due,
      fun hd => ?_⟩
    obtain ⟨d, hd, hid⟩ := hok.delivered hd
    exact ⟨d, he.subset hd, hid⟩
  · rcases List.mem_append.mp he' with he' | he'
    · exact he.subset (h.called e he' y hy)
    · exact List.mem_append_right _ (hcalled e (List.mem_singleton.mp he').symm y hy)
  · obtain ⟨⟨x, M, hM, hf⟩, hm⟩ := h.indicated d ((List.mem_append.mp hd).resolve_right (hes d))
    exact ⟨⟨x, M, hi.subset hM, hf⟩, hm⟩

theorem UrbTable.call (h : UrbTable maxRank p l) (e : Broadcast) :
    UrbTable maxRank p (l.perform (urbProtocol maxRank) () (.call e)) := by
  refine h.unheard (fun _ _ => heard_call) (fun e' he' y hy => ?_) fun d hd => indicate_notMem_sendLoop hd
  cases he'
  change _ ∈ urbBroadcast l.state e
  rw [urbBroadcast, urbBroadcastAux_eq, h.localRank_eq, h.maxRank_eq]
  exact List.mem_map_of_mem (mem_ranks.mpr hy)

theorem SavedOk.other {l' : UrbProc} {q : ℤ} {M : CString} {f : Fields} {m : SavedMessage}
    (h : SavedOk maxRank p l m) (hf : openFrame maxRank M = some f) (hid : m.id ≠ f.originalId)
    (hi : l'.inputs = l.inputs ++ [.receive q M]) (he : l.effects <+: l'.effects)
    (hN : l'.state.maxRank = l.state.maxRank) : SavedOk maxRank p l' m := by
  refine ⟨by rw [hi]; exact h.tallied.other hf hid,
    h.relayed.mono (by rw [hi]; exact List.prefix_append _ _) he, fun hd => h.due ?_, fun hd => ?_⟩
  · rwa [shouldDeliver_congr hN rfl] at hd
  · obtain ⟨d, hd, hid⟩ := h.delivered hd
    exact ⟨d, he.subset hd, hid⟩

/-- What is known about the entry a frame is about before it gets its ack. -/
structure Touched (maxRank : ℕ) (p : ℤ) (l : UrbProc) (q : ℤ) (M : CString) (f : Fields)
    (pre : List SavedMessage) (m : SavedMessage) (post : List SavedMessage) (relay : UrbEffects) :
    Prop where
  nodup : ((pre ++ m :: post).map (·.id)).Nodup
  id_eq : m.id = f.originalId
  tallied : Tallied maxRank l.inputs m
  others : ∀ e ∈ pre ++ post, e ∈ l.state.received
  all : ∀ e ∈ l.state.received, e ∈ pre ++ m :: post
  delivered : m.wasDelivered = true → ∃ d, .indicate d ∈ l.effects ∧ d.id = m.id
  silent : ∀ e ∈ relay, ∃ y, e = .send y (bcFrame f)
  relayed : ∀ u' es c,
    Relayed maxRank p ⟨u', l.inputs ++ [.receive q M], l.effects ++ (relay ++ es), c⟩ m.id

theorem touched_of_place (h : UrbTable maxRank p l) {q : ℤ} {M : CString} {f : Fields}
    (hf : openFrame maxRank M = some f) (hshort : f.originalId.length < UUID_STR_LEN)
    {pre post : List SavedMessage} {m : SavedMessage} {relay : UrbEffects}
    (hp : Place l.state f pre m post relay) : Touched maxRank p l q M f pre m post relay := by
  have hrelay := hp.relay_eq (h.maxRank_eq.symm ▸ hf)
  cases hp with
  | known hsplit hid =>
    have hok := h.saved m (by rw [hsplit]; simp)
    have hothers : ∀ e ∈ pre ++ post, e ∈ l.state.received := fun e he => by
      rw [hsplit]
      exact (List.mem_append.mp he).elim (List.mem_append_left _)
        fun he => List.mem_append_right _ (List.mem_cons_of_mem _ he)
    exact ⟨hsplit ▸ h.nodup, hid, hok.tallied, hothers, fun e he => hsplit ▸ he, hok.delivered, hrelay.1,
      fun u' es c => hok.relayed.mono (List.prefix_append _ _) (List.prefix_append _ _)⟩
  | new hnew =>
    have hid : (newSavedMessage f).id = f.originalId := List.take_of_length_le hshort.le
    have hnone : ∀ x, ¬ Heard maxRank l.inputs f.originalId x := fun x hx => by
      obtain ⟨m, hm, hmid⟩ := h.known _ x hx
      exact hnew m hm hmid
    refine ⟨?_, hid, fun x => ?_, fun e he => by simpa using he, fun e he => List.mem_append_left _ he,
      fun hd => absurd hd Bool.false_ne_true, hrelay.1, fun u' es c => ?_⟩
    · exact nodup_map_append_singleton.mpr ⟨h.nodup, fun m hm => by
        rw [hid]
        exact hnew m hm⟩
    · rw [hid]
      exact iff_of_false Bool.false_ne_true (hnone x)
    · refine ⟨q, M, f, by simp, hf, hid.symm, fun ho y hy => ?_⟩
      rcases hrelay.2 with hold | ⟨-, -, -, hall⟩
      · exact absurd hid (hnew _ (by rw [hold]; simp))
      · refine List.mem_append_right _ (List.mem_append_left _ (hall ?_ y (h.maxRank_eq.symm ▸ hy)))
        rwa [h.localRank_eq]

section Touch

variable {q : ℤ} {M : CString} {f : Fields} {pre post : List SavedMessage} {m m' : SavedMessage}
  {relay : UrbEffects} (ht : Touched maxRank p l q M f pre m post relay) (hid : m'.id = m.id)

include ht hid

theorem Touched.nodup_new : ((pre ++ m' :: post).map (·.id)).Nodup := by
  have hids : (pre ++ m' :: post).map (·.id) = (pre ++ m :: post).map (·.id) := by simp [hid]
  rw [hids]
  exact ht.nodup

theorem Touched.entry {e : SavedMessage} (he : e ∈ pre ++ m' :: post) :
    e = m' ∨ e ∈ l.state.received ∧ e.id ≠ f.originalId := by
  by_cases heid : e.id = f.originalId
  · exact .inl (List.inj_on_of_nodup_map (ht.nodup_new hid) he (by simp) (by rw [heid, hid, ht.id_eq]))
  · refine .inr ⟨ht.others e ?_, heid⟩
    rcases List.mem_append.mp he with hpre | hpost
    · exact List.mem_append_left _ hpre
    · refine List.mem_append_right _ ((List.mem_cons.mp hpost).resolve_left fun hem => heid ?_)
      rw [hem, hid, ht.id_eq]

theorem Touched.successor (hacks : m'.acks = (m.ack q).acks) {e : SavedMessage} (he : e ∈ l.state.received) :
    ∃ e' ∈ pre ++ m' :: post, e'.id = e.id ∧
      (shouldDeliver l.state e = true → shouldDeliver l.state e' = true) := by
  rcases List.mem_append.mp (ht.all e he) with hpre | hpost
  · exact ⟨e, List.mem_append_left _ hpre, rfl, id⟩
  · rcases List.mem_cons.mp hpost with rfl | hpost
    · exact ⟨m', by simp, hid, fun hd => shouldDeliver_congr rfl hacks ▸ shouldDeliver_ack hd q⟩
    · exact ⟨e, by simp [hpost], rfl, id⟩

end Touch

theorem UrbTable.touch (h : UrbTable maxRank p l) {q : ℤ} {M : CString} {f : Fields}
    {pre post : List SavedMessage} {m : SavedMessage} {relay : UrbEffects}
    (hf : openFrame maxRank M = some f) (ht : Touched maxRank p l q M f pre m post relay)
    (m' : SavedMessage) (es : UrbEffects) (c : Bool)
    (hid : m'.id = m.id) (hacks : m'.acks = (m.ack q).acks)
    (hdue : shouldDeliver l.state m' = true → m'.wasDelivered = true)
    (hdel : m'.wasDelivered = true → ∃ d, .indicate d ∈ l.effects ++ (relay ++ es) ∧ d.id = m.id)
    (hes : ∀ d, .indicate d ∈ es → shouldDeliver l.state m' = true ∧
      d = ⟨f.originalId, createRbDelivery f⟩) :
    UrbTable maxRank p ⟨{ l.state with received := pre ++ m' :: post }, l.inputs ++ [.receive q M],
      l.effects ++ (relay ++ es), c⟩ := by
  have hi : l.inputs <+: l.inputs ++ [.receive q M] := List.prefix_append _ _
  have he : l.effects <+: l.effects ++ (relay ++ es) := List.prefix_append _ _
  have hm' : m' ∈ pre ++ m' :: post := by simp
  refine ⟨h.localRank_eq, h.maxRank_eq, ht.nodup_new hid, fun e hmem => ?_,
    fun id x hx => ?_, fun e hcall y hy => ?_, fun d hd => ?_⟩
  · rcases ht.entry hid hmem with rfl | ⟨hold, heid⟩
    · refine ⟨fun x => ?_, by rw [hid]; exact ht.relayed _ _ _, hdue, by rw [hid]; exact hdel⟩
      rw [hacks, hid]
      exact ht.tallied.ack hf ht.id_eq x
    · exact (h.saved e hold).other hf heid rfl he rfl
  · rcases (heard_snoc hf).mp hx with hx | ⟨-, rfl⟩
    · obtain ⟨e, hmem, rfl⟩ := h.known id x hx
      obtain ⟨e', he', hid', -⟩ := ht.successor hid hacks hmem
      exact ⟨e', he', hid'⟩
    · exact ⟨m', hm', hid.trans ht.id_eq⟩
  · exact he.subset (h.called e (by simpa using hcall) y hy)
  · rcases List.mem_append.mp hd with hd | hd
    · obtain ⟨⟨x, M', hM', hf'⟩, e, hmem, heid, hsd⟩ := h.indicated d hd
      obtain ⟨e', he', hid', hsd'⟩ := ht.successor hid hacks hmem
      exact ⟨⟨x, M', hi.subset hM', hf'⟩, e', he', hid'.trans heid, hsd' hsd⟩
    · rcases List.mem_append.mp hd with hd | hd
      · obtain ⟨y, hy⟩ := ht.silent _ hd
        cases hy
      · obtain ⟨hsd, rfl⟩ := hes d hd
        refine ⟨⟨q, M, by simp, ?_⟩, m', hm', hid.trans ht.id_eq, hsd⟩
        rw [hf, openFrame_body hf]
        rfl

theorem UrbTable.receive (h : UrbTable maxRank p l) {q : ℤ} {M : CString}
    (hshort : ∀ f, openFrame maxRank M = some f → f.originalId.length < UUID_STR_LEN) :
    UrbTable maxRank p (l.perform (urbProtocol maxRank) () (.receive q M)) := by
  have hout := urbCallback_outcome l.state q M
  change UrbTable maxRank p ⟨(urbCallback l.state ⟨M, q⟩).1, l.inputs ++ [.receive q M],
    l.effects ++ (urbCallback l.state ⟨M, q⟩).2, l.crashed⟩
  generalize (urbCallback l.state ⟨M, q⟩).1 = u' at hout ⊢
  generalize (urbCallback l.state ⟨M, q⟩).2 = es at hout ⊢
  cases hout with
  | ignored hf =>
    rw [h.maxRank_eq] at hf
    exact h.unheard (fun _ _ => heard_ignored hf) (fun _ he => by cases he) fun _ => List.not_mem_nil
  | @counted f pre post m relay hf hp hd =>
    rw [h.maxRank_eq] at hf
    have ht := touched_of_place (q := q) h hf (hshort _ hf) hp
    have hnext := h.touch hf ht (m.ack q) [] l.crashed rfl rfl
      (fun hsd => hd.resolve_right (by rw [hsd]; decide))
      (fun hdel => by
        obtain ⟨d, hd, hid⟩ := ht.delivered hdel
        exact ⟨d, List.mem_append_left _ hd, hid⟩)
      (fun d hd => (List.not_mem_nil hd).elim)
    rwa [List.append_nil] at hnext
  | @delivered f pre post m relay hf hp hd =>
    rw [h.maxRank_eq] at hf
    have ht := touched_of_place (q := q) h hf (hshort _ hf) hp
    exact h.touch hf ht { m.ack q with wasDelivered := true } _ l.crashed rfl rfl (fun _ => rfl)
      (fun _ => ⟨⟨f.originalId, createRbDelivery f⟩, by simp, ht.id_eq.symm⟩)
      (fun d hd' => ⟨hd, by simpa using hd'⟩)

end Step

end DSA
