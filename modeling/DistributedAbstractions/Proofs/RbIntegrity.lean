import DistributedAbstractions.Proofs.RbRuns

/-! Integrity of the lazy broadcast: what is of others is delivered when the history has it
not, and what is the process's own when it comes from itself, where it was sent once. -/

namespace DSA

open CLib Net Trans

/-- Nothing of its own is in the history of `p`, and nothing of its own is delivered unless
it comes from `p`. -/
structure RbOwn (N : ℕ) (p : ℤ) (l : RbProc) : Prop where
  slot : l.state.history (p - 1) = []
  heard : ∀ d, .indicate d ∈ l.effects → d.deliver.sender = p →
    ∃ M, .receive p M ∈ l.inputs ∧ openFrame N M = some ⟨p, d.id, d.deliver.msg⟩

section Local

variable {N : ℕ} {A : Finset ℤ} {p : ℤ} {l : RbProc}

/-- Requests and notifications are answered by frames only. -/
theorem indicate_notMem_call {rb : Rb} {i : RbRequest} {d : Indication} :
    .indicate d ∉ ((rbProtocol N).handle () rb (.call i)).2 := by
  intro hd
  cases i with
  | broadcast e => exact indicate_notMem_sendLoop hd
  | crashed o =>
    obtain ⟨m, -, y, -, hy⟩ := mem_onCrashed.mp hd
    cases hy

theorem RbOwn.call (h : RbOwn N p l) (i : RbRequest) :
    RbOwn N p (l.perform (rbProtocol N) () (.call i)) := by
  refine ⟨?_, fun d hd ho => ?_⟩
  · cases i <;> exact h.slot
  · obtain ⟨M, hM, hf⟩ := h.heard d ((List.mem_append.mp hd).resolve_right indicate_notMem_call) ho
    exact ⟨M, List.mem_append_left _ hM, hf⟩

theorem RbOwn.receive (h : RbOwn N p l) (hl : RbLocal N A p l) (q : ℤ) (M : CString) :
    RbOwn N p (l.perform (rbProtocol N) () (.receive q M)) := by
  have hout := onDeliveryWrapper_outcome l.state q M
  change RbOwn N p ⟨(onDeliveryWrapper l.state ⟨M, q⟩).1, l.inputs ++ [.receive q M],
    l.effects ++ (onDeliveryWrapper l.state ⟨M, q⟩).2, l.crashed⟩
  generalize (onDeliveryWrapper l.state ⟨M, q⟩).1 = rb at hout ⊢
  generalize (onDeliveryWrapper l.state ⟨M, q⟩).2 = es at hout ⊢
  have old : ∀ d, .indicate d ∈ l.effects → d.deliver.sender = p → ∃ M', .receive p M' ∈
      l.inputs ++ [.receive q M] ∧ openFrame N M' = some ⟨p, d.id, d.deliver.msg⟩ := by
    intro d hd ho
    obtain ⟨M', hM', hf⟩ := h.heard d hd ho
    exact ⟨M', List.mem_append_left _ hM', hf⟩
  cases hout with
  | ignored => exact ⟨h.slot, fun d hd ho => old d (by simpa using hd) ho⟩
  | @own f hf ho hq =>
    rw [hl.maxRank] at hf
    rw [hl.localRank] at hq ho
    refine ⟨h.slot, fun d hd hdo => (List.mem_append.mp hd).elim (old d · hdo) fun hd => ?_⟩
    obtain rfl : d = ⟨f.originalId, createRbDelivery f⟩ := by simpa using hd
    exact ⟨M, by simp [hq], by rw [hf, openFrame_body hf, ← ho]⟩
  | @saved f hf ho hdup =>
    rw [hl.localRank] at ho
    refine ⟨?_, fun d hd hdo => (List.mem_append.mp hd).elim (old d · hdo) fun hd => ?_⟩
    · have hne : p - 1 ≠ f.originalSender - 1 := fun heq => ho (by omega)
      simpa only [saveMessageToHistory, Function.update_of_ne hne] using h.slot
    · obtain rfl : d = ⟨f.originalId, createRbDelivery f⟩ := by simpa using hd
      exact absurd hdo ho

theorem nodup_packets_rbBroadcast (rb : Rb) (e : Broadcast) : (packets p (rbBroadcast rb e)).Nodup := by
  rw [rbBroadcast, rbBroadcastAux_eq, packets_map_send]
  exact (ranks_nodup _).map fun a b hab => (Packet.mk.inj hab).2.1

end Local

section

variable {N : ℕ} {A : Finset ℤ} {evs : List RbEvent} {s : RbState}
  (h : Run (rbSystem N) (fun s e => FreshIds RbRequest.broadcast? N s e ∧ Relayable A s e) evs s)
include h

theorem rb_own (p : ℤ) : ∃ l, RbOwn N p l ∧ Shadow (s.proc p) l := by
  refine local_invariant (R := RbOwn N) (fun _ => ⟨rfl, fun _ hd => by cases hd⟩) ?_ h p
  intro evs s p _ a _ hr hlive _ _ ih
  cases a.input with
  | call i => exact ih.call i
  | receive q M => exact ih.receive (rb_local_of_uncrashed hr (mem_uncrashed_of_live hlive)) q M

theorem rb_own_of_live {p : ℤ} (hp : (crashSetting N).live s p = true) : RbOwn N p (s.proc p) := by
  obtain ⟨l, hl, hsh⟩ := rb_own h p
  exact hsh.2.2 (live_iff.mp hp).2 ▸ hl

theorem broadcast_of_own_send {p : ℤ} (hp : (crashSetting N).live s p = true) {i : Input RbRequest CString}
    {d : ℤ} {M : CString} {f : Fields} (hM : .send d M ∈ ((rbProtocol N).handle () (s.proc p).state i).2)
    (hf : openFrame N M = some f) (ho : f.originalSender = p) :
    ∃ e, i = .call (.broadcast e) ∧ M = bcFrame (originalFrame p e) := by
  have hl := rb_local_of_uncrashed h (mem_uncrashed_of_live hp)
  cases i with
  | call i =>
    cases i with
    | broadcast e =>
      refine ⟨e, rfl, (send_mem_sendLoop hM).trans ?_⟩
      rw [hl.localRank]
      rfl
    | crashed o =>
      -- what is saved of a reported peer is read as that peer's, and not `p`'s
      obtain ⟨m, hm, y, -, hy⟩ := mem_onCrashed.mp hM
      cases hy
      obtain ⟨⟨x, M', hM', hf'⟩, -⟩ := hl.saved o m hm
      obtain rfl := Option.some.inj (hf.symm.trans (said_of_opened h hM' hf').2.1)
      rw [show o = p from ho, (rb_own_of_live h hp).slot] at hm
      cases hm
  | receive q M' =>
    have hout := onDeliveryWrapper_outcome (s.proc p).state q M'
    change .send d M ∈ (onDeliveryWrapper (s.proc p).state ⟨M', q⟩).2 at hM
    generalize (onDeliveryWrapper (s.proc p).state ⟨M', q⟩).1 = rb at hout
    generalize (onDeliveryWrapper (s.proc p).state ⟨M', q⟩).2 = es at hout hM
    cases hout <;> simp at hM

theorem unsent_of_fresh {p : ℤ} {e : Broadcast} {M : CString}
    (hfit : M.length + 1 < MAX_MSG_LEN) (hM : M = bcFrame (originalFrame p e)) (hp : p ∈ peers N)
    (hid : IsUuid e.uuid)
    (hnew : ∀ q ∈ ranks N, ∀ e' ∈ broadcasts RbRequest.broadcast? (s.proc q).inputs, e'.uuid ≠ e.uuid)
    {q d : ℤ} : .send d M ∉ (s.proc q).effects := by
  intro hs
  obtain ⟨o, e', he', -, hopen⟩ := (rb_run h).2 q d M hs
  have hsame : originalFrame o e' = originalFrame p e := by
    have hopen' := openFrame_bcFrame (f := originalFrame p e) (hM ▸ hfit) hid.2 hp
    exact Option.some.inj ((hopen hfit).symm.trans (hM ▸ hopen'))
  exact hnew o (mem_ranks.mpr (mem_peers_of_broadcast h he')) e' he' (congrArg Fields.originalId hsame)

theorem own_sent_once {p : ℤ} {M : CString} {f : Fields} (hfit : M.length + 1 < MAX_MSG_LEN)
    (hf : openFrame N M = some f) (ho : f.originalSender = p) :
    (packets p (s.proc p).effects).count ⟨p, p, M⟩ ≤ 1 := by
  refine Run.state_invariant (I := fun s => (packets p (s.proc p).effects).count ⟨p, p, M⟩ ≤ 1) ?_ ?_ h
  · exact Nat.zero_le 1
  intro evs s e s' hr ih hok hn
  rcases next_cases hn with ⟨p', r, a, stop, rfl, hlive, -, -, rfl⟩ | ⟨p', -, -, -, rfl⟩
  · by_cases hp : p' = p
    · subst hp
      rw [act_effects_self, packets_append, List.count_append]
      have hcut := prefix_of_cut stop ((rbProtocol N).handle r (s.proc p').state a.input).2
      by_cases hM : .send p' M ∈ ((rbProtocol N).handle r (s.proc p').state a.input).2
      · obtain ⟨b, hi, hMb⟩ := broadcast_of_own_send hr hlive hM hf ho
        obtain rfl : a = .call (.broadcast b) := by
          cases a <;> cases hi
          rfl
        obtain ⟨hid, hnew⟩ := hok.1 b rfl
        have hp' := (mem_uncrashed.mp (mem_uncrashed_of_live hlive)).1
        have hold : (packets p' (s.proc p').effects).count ⟨p', p', M⟩ = 0 :=
          List.count_eq_zero.mpr fun hk =>
            unsent_of_fresh hr hfit hMb hp' hid hnew (mem_packets.mp hk).2
        rw [hold, Nat.zero_add]
        exact List.nodup_iff_count_le_one.mp
          ((nodup_packets_rbBroadcast (s.proc p').state b).sublist (hcut.sublist.filterMap _)) _
      · have hnone : (packets p' (cut stop ((rbProtocol N).handle r (s.proc p').state a.input).2)).count
            ⟨p', p', M⟩ = 0 :=
          List.count_eq_zero.mpr fun hk => hM (hcut.subset (mem_packets.mp hk).2)
        rw [hnone, Nat.add_zero]
        exact ih
    · rw [act_proc_ne (rbProtocol N) s p' r a stop (Ne.symm hp)]
      exact ih
  · simpa using ih

theorem own_unheard {p : ℤ} {M : CString} {f : Fields} (hM : ⟨p, p, M⟩ ∈ s.flight)
    (hfit : M.length + 1 < MAX_MSG_LEN) (hf : openFrame N M = some f) (ho : f.originalSender = p) :
    .receive p M ∉ (s.proc p).inputs := by
  intro hin
  have hsent := sent_count h ⟨p, p, M⟩
  have hhandled := count_inputs rfl rfl h ⟨p, p, M⟩
  have honce := own_sent_once h hfit hf ho
  have hflight := List.count_pos_iff.mpr hM
  have hheard := List.count_pos_iff.mpr hin
  simp only at hsent hhandled
  omega

theorem rb_delivers_once (p : ℤ) :
    ((indications (s.proc p).effects).map fun d => (d.deliver.sender, d.id)).Nodup := by
  refine nodup_indications (fun evs s p _ a _ hr hlive ha _ => ?_) h p
  have hl := rb_local_of_uncrashed hr (mem_uncrashed_of_live hlive)
  cases hi : a.input with
  | call i => exact .inl (indications_eq_nil fun _ => indicate_notMem_call)
  | receive q M =>
    have hout := onDeliveryWrapper_outcome (s.proc p).state q M
    change indications (onDeliveryWrapper (s.proc p).state ⟨M, q⟩).2 = [] ∨
      ∃ o, indications (onDeliveryWrapper (s.proc p).state ⟨M, q⟩).2 = [o] ∧ _
    generalize (onDeliveryWrapper (s.proc p).state ⟨M, q⟩).1 = rb at hout
    generalize (onDeliveryWrapper (s.proc p).state ⟨M, q⟩).2 = es at hout ⊢
    cases hout with
    | ignored => exact .inl rfl
    | @own f hf ho hq =>
      rw [hl.maxRank] at hf
      rw [hl.localRank] at ho hq
      subst hq
      refine .inr ⟨_, rfl, fun d hmem hkey => ?_⟩
      obtain ⟨hsender, hid⟩ := Prod.mk.inj hkey
      -- the link brings the frame for the first time, so nothing was delivered for it
      obtain ⟨M', hM', hf'⟩ := (rb_own_of_live hr hlive).heard d (mem_indications.mp hmem)
        (hsender.trans ho)
      obtain ⟨rfl, -⟩ := sourced_unique (fun _ _ h => h.1) hr (rb_run hr).2 (receive_inv hr hM') hf'
        (sourced_of_admits hr ha hi) hf hid
      obtain ⟨-, hM, hfit⟩ := deliver_of_admits ha hi
      exact own_unheard hr hM (plCarries_length hfit) hf ho hM'
    | @saved f hf ho hdup =>
      rw [hl.localRank] at ho
      refine .inr ⟨_, rfl, fun d hmem hkey => ?_⟩
      obtain ⟨hsender, hid⟩ := Prod.mk.inj hkey
      obtain ⟨x, M', hM', hf'⟩ := hl.indicated d (mem_indications.mp hmem)
      obtain ⟨m, hm, hmid⟩ := hl.known x M' _ hM' hf' fun hp => ho (hsender.symm.trans hp)
      have hold : isMessageDuplicate (s.proc p).state f = true := by
        rw [isMessageDuplicate, List.any_eq_true]
        refine ⟨m, ?_, by simpa using hmid.trans hid⟩
        rw [← show d.deliver.sender = f.originalSender from hsender]
        exact hm
      rw [hold] at hdup
      cases hdup

end

theorem rb_integrity {N : ℕ} {evs : List RbEvent} {s s' : RbState} {e : RbEvent}
    (h : Run (rbSystem N) (FreshIds RbRequest.broadcast? N) evs s)
    (hok : FreshIds RbRequest.broadcast? N s e) (hn : (rbSystem N).next s e = some s') :
    RbIntegrity s s' := by
  have hr : Run (rbSystem N) (fun s e => FreshIds RbRequest.broadcast? N s e ∧ Relayable ∅ s e) evs s :=
    h.weaken fun s e hok => ⟨hok, relayable_empty s e⟩
  have hr' := hr.snoc ⟨hok, relayable_empty s e⟩ hn
  refine ⟨rb_delivers_once hr', fun p d hd => ?_⟩
  obtain ⟨l, hl, hin, heff, -⟩ := (rb_run hr').1 p
  obtain ⟨x, M, hM, hf⟩ := hl.indicated d (heff.subset (mem_indications.mp hd))
  exact mem_rbBroadcasts.mp (sent_before hr (rb_run hr).2 hn (hin ▸ hM) hf).2

/-- Process 2 of three is wrongly told of the crash of 1, and passes on what it has of it,
to 1 as well. -/
def wrongedRun : List RbEvent :=
  let frame := bcFrame ⟨1, ['u'], ['a']⟩
  let got (p q : ℤ) : RbEvent := .act p () (.deliver q frame) none
  [.act 1 () (.call (.broadcast ⟨['a'], ['u']⟩)) none, got 1 1, got 2 1,
   .act 2 () (.call (.crashed 1)) none, got 1 2, got 3 2]

theorem wrongedRun_integrity : ∃ s s', Run (rbSystem 3) (FreshIds RbRequest.broadcast? 3) wrongedRun s ∧
    (rbSystem 3).next s (.act 3 () (.deliver 1 (bcFrame ⟨1, ['u'], ['a']⟩)) none) = some s' ∧
    indications (s'.proc 1).effects = [⟨['u'], ⟨['a'], 1⟩⟩] ∧
    indications (s'.proc 3).effects = [⟨['u'], ⟨['a'], 1⟩⟩] ∧ RbIntegrity s s' := by
  obtain ⟨s', hrun, hs'⟩ : ∃ s', Run (rbSystem 3) (FreshIds RbRequest.broadcast? 3)
      (wrongedRun ++ [.act 3 () (.deliver 1 (bcFrame ⟨1, ['u'], ['a']⟩)) none]) s' ∧
      (indications (s'.proc 1).effects, indications (s'.proc 3).effects) =
        ([⟨['u'], ⟨['a'], 1⟩⟩], [⟨['u'], ⟨['a'], 1⟩⟩]) :=
    exists_run_of_exec (fun s : RbState => (indications (s.proc 1).effects, indications (s.proc 3).effects))
      (by decide +kernel)
  obtain ⟨h1, h3⟩ := Prod.mk.inj hs'
  obtain ⟨s, hprev, hok, hn⟩ := hrun.snoc_inv
  exact ⟨s, s', hprev, hn, h1, h3, rb_integrity hprev hok hn⟩

end DSA
