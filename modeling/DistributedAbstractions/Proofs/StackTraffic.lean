import DistributedAbstractions.Lib.NetFacts
import DistributedAbstractions.Proofs.PlExact
import DistributedAbstractions.Proofs.RoundTrip
import DistributedAbstractions.Spec.Stack

/-! What is on its way between the links of a stack: every datagram is a copy of the message of one call of
`pl_send`, and the first copy to arrive raises the callback for that call. -/

namespace DSA

open CLib Inbox Net Trans

theorem consumeMsg_sent {w : Socket} {rank : ℤ} {e : Send} {x : Received} (hrank : IsRank rank) (hmsg : NUL ∉ e.msg)
    (hfit : (fmtInt rank ++ ',' :: e.msg).length < MAX_MSG_LEN) (hx : x.bytes = (w.fllSend rank e).bytes)
    (hid : ∀ d ∈ x.id.head?, ¬ d.isDigit) : consumeMsg x = .callback ⟨e.msg, rank⟩ := by
  have hbytes : x.bytes.take (MAX_MSG_LEN - 1) = fmtInt rank ++ ',' :: e.msg := by
    rw [hx, w.read_fllSend, snprintf_of_lt hfit]
  rw [consumeMsg_frame hrank hmsg hbytes, (hrank.atoi_eq_iff x.id).mpr hid]

section Call

variable {n : ℕ} {c c' : PlCall}

/-- What the guard says about a call, whenever it was made. -/
structure PlCall.Sound (n : ℕ) (c : PlCall) : Prop extends c.Fits where
  unparsed : IsUnparsed c.uuid
  long : UUID_STR_LEN ≤ c.msg.length
  src_mem : c.src ∈ peers n

theorem PlCall.Fits.uuid_eq (h : c.Fits) (h' : c'.Fits) (heq : c.raised = c'.raised) : c.uuid = c'.uuid := by
  have hmsg : c.sent.msg = c'.sent.msg := congrArg (fun r : Raised => r.cause.msg) heq
  have hid : c.uuid.length = c'.uuid.length := by rw [← h.idLen_eq, ← h'.idLen_eq, heq]
  rw [h.sent_eq.1, h'.sent_eq.1] at hmsg
  exact List.append_inj_left hmsg hid

theorem PlCall.Sound.consumeMsg_eq (h : c.Sound n) (hn : n ≤ INT_MAX) {w : Socket} {x : Received}
    (hx : x.bytes = (w.fllSend c.src c.sent).bytes) (hid : ∀ d ∈ x.id.head?, ¬ d.isDigit) :
    consumeMsg x = .callback c.raised.cause := by
  obtain ⟨h1, h2⟩ := mem_peers.mp h.src_mem
  refine consumeMsg_sent ⟨h1, h2.trans (by exact_mod_cast hn)⟩ h.wellFormed.1 ?_ hx hid
  have hframe := h.frame
  have hlen : c.uuid.length = UUID_STR_LEN - 1 := h.unparsed.1
  rw [h.sent_eq.1]
  simp only [plFrameLen, DELIM_LEN] at hframe
  simp only [List.length_append, List.length_cons]
  omega

theorem PlCall.Sound.plWrapper_eq (h : c.Sound n) (inbox : List Hash) : plWrapper inbox c.raised.cause =
    if plHash c.raised.cause ∈ inbox then (inbox, .returned)
    else (inbox ++ [plHash c.raised.cause], .callback ⟨c.msg, c.src⟩) := by
  have hid := h.idLen_eq
  have hlen : c.uuid.length = UUID_STR_LEN - 1 := h.unparsed.1
  have hU : UUID_STR_LEN = 37 := rfl
  have hlong := h.long
  have hmsg : c.raised.cause.msg = c.uuid ++ ',' :: c.msg := h.sent_eq.1
  have hdrop : c.raised.cause.msg.drop (idLen c.raised.cause + DELIM_LEN) = c.msg := by
    rw [hid, hmsg]
    simp [DELIM_LEN]
  rw [DSA.plWrapper_eq h.wellFormed.1 h.wellFormed.2.1, if_neg (by omega), hdrop]
  split_ifs with hdup hshort
  · rfl
  · simp only [hmsg, hid, List.length_append, List.length_cons, DELIM_LEN] at hshort
    omega
  · rfl

end Call

section Sending

variable {δ : Type} {emit : ℤ → Send → δ} {sbl : Stubborn δ} {Q : ℤ → Send → Prop} {p : ℤ} {cs : List PlCall}

theorem Stubborn.Holds.mono {Q' : ℤ → Send → Prop} (h : sbl.Holds emit Q) (hQ : ∀ p e, Q p e → Q' p e) :
    sbl.Holds emit Q' := by
  refine ⟨fun p e he => hQ p e (h.outbox p e he), fun k hk => ?_⟩
  obtain ⟨p, e, he, rfl⟩ := h.air k hk
  exact ⟨p, e, hQ p e he, rfl⟩

theorem Stubborn.Holds.sendAll (h : sbl.Holds emit Q) (hcs : ∀ c ∈ cs, Q p c.sent) :
    (cs.foldl (fun sbl c => sblSend emit sbl p c.sent) sbl).Holds emit Q := by
  induction cs generalizing sbl with
  | nil => exact h
  | cons c cs ih =>
    exact ih (h.send (fun _ _ hQ => hQ) (hcs c (by simp))) fun c' hc' => hcs c' (by simp [hc'])

theorem outbox_sendAll (q : ℤ) : (cs.foldl (fun sbl c => sblSend emit sbl p c.sent) sbl).outbox q =
    sbl.outbox q ++ if q = p then cs.map PlCall.sent else [] := by
  induction cs generalizing sbl with
  | nil => simp
  | cons c cs ih =>
    rw [List.foldl_cons, ih]
    by_cases hq : q = p
    · subst hq; simp [sblSend]
    · simp [sblSend, hq]

theorem plCalls_packet {ks : List (Packet CString)} {ids : List CString} (h : ids.length = ks.length) :
    (plCalls ks ids).map PlCall.packet = ks := by
  induction ks generalizing ids with
  | nil => simp [plCalls]
  | cons k ks ih =>
    cases ids with
    | nil => simp at h
    | cons id ids =>
      rw [plCalls, List.zipWith_cons_cons, List.map_cons]
      exact congrArg _ (ih (by simpa using h))

theorem plCalls_uuid {ks : List (Packet CString)} {ids : List CString} (h : ids.length = ks.length) :
    (plCalls ks ids).map PlCall.uuid = ids := by
  induction ks generalizing ids with
  | nil => simp [plCalls, List.length_eq_zero_iff.mp h]
  | cons k ks ih =>
    cases ids with
    | nil => simp at h
    | cons id ids =>
      rw [plCalls, List.zipWith_cons_cons, List.map_cons]
      exact congrArg _ (ih (by simpa using h))

theorem plCalls_src {ks : List (Packet CString)} {ids : List CString} (hks : ∀ k ∈ ks, k.src = p) {c : PlCall}
    (hc : c ∈ plCalls ks ids) : c.src = p := by
  obtain ⟨i, hi, rfl⟩ := List.mem_iff_getElem.mp hc
  simp only [plCalls, List.getElem_zipWith]
  exact hks _ (List.getElem_mem _)

end Sending

variable {ρ σ ι ω : Type} {P : Protocol ρ σ ι CString ω} {w : Socket} {n : ℕ} {s : Stack σ ι ω}

structure StackTraffic (w : Socket) (n : ℕ) (s : Stack σ ι ω) : Prop where
  sound : ∀ c ∈ s.sent, c.Sound n
  uuids : (s.sent.map PlCall.uuid).Nodup
  stored : s.sbl.Holds w.datagram (SentFor s.sent)
  running : ∀ q, (s.link q).running = true
  hashed : ∀ q, ∀ r ∈ (s.link q).delivered, plHash r.cause ∈ (s.link q).inbox
  origin : ∀ q, ∀ r ∈ (s.link q).delivered, ∃ c ∈ s.sent, c.dst = q ∧ c.raised = r

theorem stackTraffic_start : StackTraffic w n (stackStart P : Stack σ ι ω) :=
  ⟨fun _ hc => (List.not_mem_nil hc).elim, List.nodup_nil,
    ⟨fun _ _ he => (List.not_mem_nil he).elim, fun _ hk => (List.not_mem_nil hk).elim⟩, fun _ => rfl,
    fun _ _ hr => (List.not_mem_nil hr).elim, fun _ _ hr => (List.not_mem_nil hr).elim⟩

/-- A perfect link after it has raised the callback for `c`. -/
def PlCall.accepted (c : PlCall) (l : PlLink) : PlLink :=
  { l with inbox := l.inbox ++ [plHash c.raised.cause], delivered := l.delivered ++ [c.raised] }

def Stack.accept (s : Stack σ ι ω) (c : PlCall) : Stack σ ι ω :=
  { s with link := Function.update s.link c.dst (c.accepted (s.link c.dst)) }

theorem accept_link (s : Stack σ ι ω) (c : PlCall) (q : ℤ) :
    (s.accept c).link q = if q = c.dst then c.accepted (s.link c.dst) else s.link q :=
  Function.update_apply ..

namespace StackTraffic

variable (h : StackTraffic w n s) {c c' : PlCall}
include h

theorem eq_of_uuid (hc : c ∈ s.sent) (hc' : c' ∈ s.sent) (heq : c.uuid = c'.uuid) : c = c' :=
  List.inj_on_of_nodup_map h.uuids hc hc' heq

theorem eq_of_raised (hc : c ∈ s.sent) (hc' : c' ∈ s.sent) (heq : c.raised = c'.raised) : c = c' :=
  h.eq_of_uuid hc hc' ((h.sound c hc).uuid_eq (h.sound c' hc').toFits heq)

/-- A copy of a message that has been sent raises its callback, or is one too many. -/
theorem consume_copy (hn : n ≤ INT_MAX) (hc : c ∈ s.sent) {x : Received}
    (hx : x.bytes = (w.datagram c.src c.sent).bytes) (hid : ∀ d ∈ x.id.head?, ¬ d.isDigit) :
    s.consume c.dst x = if plHash c.raised.cause ∈ (s.link c.dst).inbox then (s, .returned)
      else (s.accept c, .callback ⟨c.msg, c.src⟩) := by
  have hsound := h.sound c hc
  have hrun := h.running c.dst
  unfold Stack.consume plConsume
  rw [hsound.consumeMsg_eq hn hx hid]
  simp only [hsound.plWrapper_eq, hrun, Bool.not_true, Bool.false_eq_true, if_false]
  split_ifs with hdup
  · rw [Function.update_eq_self]
  · rw [Stack.accept, PlCall.accepted, hrun]
    rfl

theorem arrive_eq (hn : n ≤ INT_MAX) (hc : c ∈ s.sent) {x : Received}
    (hx : x.bytes = (w.datagram c.src c.sent).bytes) (hid : ∀ d ∈ x.id.head?, ¬ d.isDigit) (r : ρ)
    (ids : List CString) (stop : Option ℕ) : s.arrive P w c.dst x r ids stop =
      if plHash c.raised.cause ∈ (s.link c.dst).inbox then s
      else (s.accept c).handle P w c.dst r (.deliver c.src c.msg) ids stop := by
  unfold Stack.arrive
  rw [h.consume_copy hn hc hx hid]
  split_ifs
  · rfl
  · rfl

theorem exists_copy {q : ℤ} {x : Received} (hair : ⟨q, x.bytes⟩ ∈ s.sbl.air) :
    ∃ c ∈ s.sent, c.dst = q ∧ x.bytes = (w.datagram c.src c.sent).bytes := by
  obtain ⟨p, e, ⟨c, hc, rfl, rfl⟩, heq⟩ := h.stored.air _ hair
  obtain ⟨hq, hbytes⟩ := (Datagram.mk.injEq ..).mp heq
  exact ⟨c, hc, hq.symm, hbytes⟩

theorem accept (hc : c ∈ s.sent) : StackTraffic w n (s.accept c) := by
  refine ⟨h.sound, h.uuids, h.stored, fun q => ?_, fun q r hr => ?_, fun q r hr => ?_⟩
  · rw [accept_link]
    split_ifs with hq
    · exact h.running _
    · exact h.running _
  · rw [accept_link] at hr ⊢
    split_ifs at hr ⊢ with hq
    · rcases List.mem_append.mp hr with hr | hr
      · exact List.mem_append_left _ (h.hashed _ r hr)
      · rw [List.mem_singleton.mp hr]
        exact List.mem_append_right _ (List.mem_singleton_self _)
    · exact h.hashed q r hr
  · rw [accept_link] at hr
    split_ifs at hr with hq
    · rcases List.mem_append.mp hr with hr | hr
      · exact hq ▸ h.origin _ r hr
      · exact ⟨c, hc, hq.symm, (List.mem_singleton.mp hr).symm⟩
    · exact h.origin q r hr

theorem handle {p : ℤ} {r : ρ} {a : Arrival ι CString} {ids : List CString} {stop : Option ℕ}
    (hp : p ∈ peers n) (hids : Draws s.sent (packets p (s.effects P p r a stop)) ids)
    (hfit : ∀ k ∈ packets p (s.effects P p r a stop), Fitting k) :
    StackTraffic w n (s.handle P w p r a ids stop) := by
  obtain ⟨hlen, hnodup, hnew⟩ := hids
  have hpackets := plCalls_packet hlen
  have huuids := plCalls_uuid hlen
  have hsrc : ∀ c ∈ plCalls (packets p (s.effects P p r a stop)) ids, c.src = p := fun c hc =>
    plCalls_src (fun k hk => (mem_packets.mp hk).1) hc
  refine ⟨fun c hc => ?_, ?_, ?_, h.running, h.hashed, fun q r' hr' => ?_⟩
  · rcases List.mem_append.mp hc with hc | hc
    · exact h.sound c hc
    · obtain ⟨hnul, hlong, hcar⟩ := hfit c.packet (hpackets ▸ List.mem_map_of_mem hc)
      obtain ⟨hun, -⟩ := hnew c.uuid (huuids ▸ List.mem_map_of_mem hc)
      have hU : UUID_STR_LEN = 37 := rfl
      refine ⟨⟨⟨by have := hun.1; omega, hun.2.1⟩, ?_, of_decide_eq_true hcar⟩, hun, hlong, hsrc c hc ▸ hp⟩
      rw [List.mem_append, not_or]
      exact ⟨hun.2.2, hnul⟩
  · change (List.map PlCall.uuid (s.sent ++ plCalls _ ids)).Nodup
    rw [List.map_append, huuids, List.nodup_append]
    refine ⟨h.uuids, hnodup, fun id hid id' hid' heq => ?_⟩
    obtain ⟨c, hc, rfl⟩ := List.mem_map.mp hid
    exact (hnew id' hid').2 c hc heq
  · have hold : s.sbl.Holds w.datagram (SentFor (s.sent ++ plCalls (packets p (s.effects P p r a stop)) ids)) :=
      h.stored.mono fun p e ⟨c, hc, hp, he⟩ => ⟨c, List.mem_append_left _ hc, hp, he⟩
    exact hold.sendAll fun c hc => ⟨c, List.mem_append_right _ hc, hsrc c hc, rfl⟩
  · obtain ⟨c, hc, hq, hr⟩ := h.origin q r' hr'
    exact ⟨c, List.mem_append_left _ hc, hq, hr⟩

theorem timeout (p : ℤ) (stop : Option ℕ) : StackTraffic w n (s.timeout w p stop) := by
  refine ⟨h.sound, h.uuids, ⟨h.stored.outbox, fun k hk => ?_⟩, h.running, h.hashed, h.origin⟩
  rcases List.mem_append.mp hk with hk | hk
  · exact h.stored.air k hk
  · obtain ⟨e, he, rfl⟩ := List.mem_map.mp ((prefix_of_cut _ _).subset hk)
    exact ⟨p, e, h.stored.outbox p e he, rfl⟩

end StackTraffic

end DSA
