import DistributedAbstractions.Proofs.EleCandidates
import DistributedAbstractions.Proofs.EleEpochs
import DistributedAbstractions.Proofs.EleSelection
import DistributedAbstractions.Proofs.StackTraffic
import DistributedAbstractions.Spec.Election

/-! What is on its way between electors: heartbeats with epochs that their senders have stored. -/

namespace DSA

open CLib Net Trans

variable {w : Socket} {n : ℕ}

section Datagram

/-- A heartbeat as the processes send them. -/
structure Heartbeat.Sendable (n : ℕ) (hb : Heartbeat) : Prop where
  rank : hb.sender ∈ peers n
  nonneg : 0 ≤ hb.epoch
  bounded : hb.epoch ≤ INT_MAX

variable {hb hb' : Heartbeat} {q q' : ℤ} {x : Received}

theorem Heartbeat.Sendable.length_epoch (h : hb.Sendable n) : (fmtInt hb.epoch).length ≤ 10 := by
  apply length_fmtInt_le h.nonneg (by decide)
  have hmax : (INT_MAX : ℤ) = 2147483647 := rfl
  have hbound := h.bounded
  omega

theorem Heartbeat.Sendable.message_eq (h : hb.Sendable n) :
    snprintf MAX_MSG_LEN (HE_CODE ++ ',' :: fmtInt hb.epoch) = HE_CODE ++ ',' :: fmtInt hb.epoch := by
  have hlen := h.length_epoch
  have hmax : MAX_MSG_LEN = 1024 := rfl
  apply snprintf_of_lt
  simp only [List.length_append, List.length_cons, HE_CODE, List.length_nil]
  omega

/-- The fair-loss link reads it, and the wrapper finds the heartbeat in it. -/
theorem Heartbeat.Sendable.read (h : hb.Sendable n) (hn : n ≤ INT_MAX)
    (hx : x.bytes = (heartbeatDatagram w hb q).bytes) (hid : ∀ c ∈ x.id.head?, ¬ c.isDigit) :
    ∃ e, consumeMsg x = .callback e ∧ heartbeatOf e = some hb := by
  obtain ⟨h1, h2⟩ := mem_peers.mp h.rank
  have hrank : IsRank hb.sender := ⟨h1, h2.trans (by exact_mod_cast hn)⟩
  have hnul : NUL ∉ HE_CODE ++ ',' :: fmtInt hb.epoch := by
    rw [List.mem_append, List.mem_cons, not_or, not_or]
    exact ⟨by decide, by decide, nul_notMem_fmtInt _⟩
  have hfit : (fmtInt hb.sender ++ ',' :: (HE_CODE ++ ',' :: fmtInt hb.epoch)).length < MAX_MSG_LEN := by
    have hepoch := h.length_epoch
    have hsender := hrank.length_fmtInt
    have hlen : FLL_ID_LEN = 10 := rfl
    have hmax : MAX_MSG_LEN = 1024 := rfl
    simp only [List.length_append, List.length_cons, HE_CODE, List.length_nil]
    omega
  have hsent : x.bytes = (w.fllSend hb.sender ⟨HE_CODE ++ ',' :: fmtInt hb.epoch, q⟩).bytes := by
    rw [hx, heartbeatDatagram, h.message_eq]
    rfl
  refine ⟨_, consumeMsg_sent hrank hnul hfit hsent hid, ?_⟩
  have hbody : tryParseMessage (HE_CODE ++ ',' :: fmtInt hb.epoch) HE_CODE = some (fmtInt hb.epoch) :=
    tryParseMessage_eq_some.mpr ⟨List.prefix_append _ _, rfl⟩
  rw [heartbeatOf, hbody, Option.map_some, atoi_fmtInt]

theorem Heartbeat.Sendable.eq_of_bytes (h : hb.Sendable n) (h' : hb'.Sendable n) (hn : n ≤ INT_MAX)
    (heq : (heartbeatDatagram w hb q).bytes = (heartbeatDatagram w hb' q').bytes) : hb = hb' := by
  obtain ⟨e, he, hhb⟩ := h.read (x := ⟨_, [], [], []⟩) hn rfl (by simp)
  obtain ⟨e', he', hhb'⟩ := h'.read (x := ⟨_, [], [], []⟩) hn heq (by simp)
  obtain rfl := Handled.callback.inj (he.symm.trans he')
  exact Option.some.inj (hhb.symm.trans hhb')

end Datagram

section Epoch

variable {file : StateFile}

theorem Intact.bounded (h : Intact file) : storedEpoch file ≤ INT_MAX := by
  rcases h with rfl | ⟨e, he, hmax, rfl⟩
  · decide
  · rwa [storedEpoch_fmtInt he]

theorem eleInit_crashed {written : ℕ} (hi : KeepsEpoch file (.crashed written)) :
    (eleInit file (.crashed written)).1 = some (fmtInt (localEpoch file)) :=
  congrArg some (List.take_of_length_le hi.1)

theorem eleInit_stored (h : Intact file) {i : Incarnation} (hi : KeepsEpoch file i) :
    Intact (eleInit file i).1 ∧ storedEpoch file ≤ storedEpoch (eleInit file i).1 := by
  cases i with
  | early => exact ⟨h, le_rfl⟩
  | crashed written =>
    obtain ⟨-, hint, hst⟩ := h.localEpoch_eq hi.2
    rw [eleInit_crashed hi]
    exact ⟨hint, by omega⟩
  | through opened sends =>
    obtain ⟨-, hint, hst⟩ := h.localEpoch_eq hi.2
    cases opened with
    | false => exact ⟨h, le_rfl⟩
    | true => exact ⟨hint, by change _ ≤ storedEpoch (some (fmtInt (localEpoch file))); omega⟩

theorem eleInit_sends (h : Intact file) {opened : Bool} (hi : KeepsEpoch file (.through opened true)) :
    localEpoch file = storedEpoch (eleInit file (.through opened true)).1 ∧
      storedEpoch file < storedEpoch (eleInit file (.through opened true)).1 := by
  obtain ⟨heq, -, hst⟩ := h.localEpoch_eq hi.2
  obtain rfl : opened = true := hi.1 rfl
  change localEpoch file = storedEpoch (some (fmtInt (localEpoch file))) ∧
    storedEpoch file < storedEpoch (some (fmtInt (localEpoch file)))
  omega

end Epoch

section Handlers

variable {ele : Ele} {d : ℤ} {m : CString}

theorem frame_eleHandleTimeout (ele : Ele) : (eleHandleTimeout ele).1.localRank = ele.localRank ∧
    (eleHandleTimeout ele).1.maxRank = ele.maxRank ∧ (eleHandleTimeout ele).1.localEpoch = ele.localEpoch := by
  unfold eleHandleTimeout
  dsimp only
  split_ifs <;> exact ⟨rfl, rfl, rfl⟩

theorem mem_sendHeartbeats : .send d m ∈ sendHeartbeats ele ↔ d ∈ peers ele.maxRank ∧ d ≠ ele.localRank ∧
    m = snprintf MAX_MSG_LEN (HE_CODE ++ ',' :: fmtInt ele.localEpoch) := by
  simp only [sendHeartbeats, List.mem_map, List.mem_filter, mem_ranks, Effect.send.injEq, decide_eq_true_eq]
  constructor
  · rintro ⟨q, ⟨hq, hne⟩, rfl, rfl⟩
    exact ⟨hq, hne, rfl⟩
  · rintro ⟨hq, hne, rfl⟩
    exact ⟨d, ⟨hq, hne⟩, rfl, rfl⟩

theorem send_mem_eleHandleTimeout : .send d m ∈ (eleHandleTimeout ele).2 ↔ .send d m ∈ sendHeartbeats ele := by
  by_cases h : (bestCandidate ele).sender = ele.leader
  · rw [handleTimeout_of_same h]
  · rw [handleTimeout_of_new h]
    simp

theorem send_mem_eleGreeting : .send d m ∈ eleGreeting ele ↔ .send d m ∈ sendHeartbeats ele := by
  simp [eleGreeting]

end Handlers

/-- Who is up has stored its epoch, and has told of its leader. What has been sent has an epoch that its
sender has stored. -/
structure Election.Sound (w : Socket) (n : ℕ) (s : Election) : Prop where
  file : ∀ p, Intact (s.file p)
  rank : ∀ p ele, s.node p = some ele → p ∈ peers n ∧ ele.localRank = p ∧ ele.maxRank = n
  epoch : ∀ p ele, s.node p = some ele → ele.localEpoch = storedEpoch (s.file p)
  told : ∀ p ele, s.node p = some ele → (s.trusts p).getLast? = some ⟨ele.leader⟩
  air : ∀ d ∈ s.air, ∃ hb q, hb.Sendable n ∧ hb.epoch ≤ storedEpoch (s.file hb.sender) ∧ d = heartbeatDatagram w hb q

namespace Election

variable {s s' : Election} {p q : ℤ} {ele ele' : Ele} {es : EleEffects} {stop : Option ℕ}

theorem perform_node (q : ℤ) : (s.perform w p ele es stop).node q =
    if q = p then if stop.isNone then some ele else none else s.node q :=
  Function.update_apply ..

theorem perform_trusts (q : ℤ) : (s.perform w p ele es stop).trusts q =
    if q = p then s.trusts p ++ indications (cut stop es) else s.trusts q :=
  Function.update_apply ..

theorem mem_emitted (hes : ∀ d m, .send d m ∈ es → .send d m ∈ sendHeartbeats ele) (hrank : ele.localRank = p)
    {d : Datagram} : d ∈ (packets p (cut stop es)).map (fun k => w.datagram p ⟨k.msg, k.dst⟩) ↔
      ∃ q m, .send q m ∈ cut stop es ∧ d = heartbeatDatagram w ele.self q := by
  have hnew : ∀ q m, .send q m ∈ cut stop es → w.datagram p ⟨m, q⟩ = heartbeatDatagram w ele.self q := by
    intro q m hm
    obtain ⟨-, -, rfl⟩ := mem_sendHeartbeats.mp (hes q m ((prefix_of_cut _ _).subset hm))
    rw [← hrank]
    rfl
  rw [List.mem_map]
  constructor
  · rintro ⟨⟨src, dst, m⟩, hk, rfl⟩
    obtain ⟨-, hm⟩ := mem_packets.mp hk
    exact ⟨dst, m, hm, hnew dst m hm⟩
  · rintro ⟨q, m, hm, rfl⟩
    exact ⟨⟨p, q, m⟩, mem_packets.mpr ⟨rfl, hm⟩, hnew q m hm⟩

/-- The file has been written to while the process was down. -/
def stored (s : Election) (p : ℤ) (i : Incarnation) : Election :=
  { s with file := Function.update s.file p (eleInit (s.file p) i).1 }

theorem stored_file (s : Election) (p : ℤ) (i : Incarnation) (q : ℤ) :
    (s.stored p i).file q = if q = p then (eleInit (s.file p) i).1 else s.file q :=
  Function.update_apply ..

namespace Sound

variable (h : s.Sound w n)
include h

theorem stored_le {i : Incarnation} (hi : KeepsEpoch (s.file p) i) (q : ℤ) :
    storedEpoch (s.file q) ≤ storedEpoch ((s.stored p i).file q) := by
  rw [stored_file]
  split_ifs with hq
  · subst hq
    exact (eleInit_stored (h.file q) hi).2
  · exact le_rfl

theorem store (hdown : s.node p = none) {i : Incarnation} (hi : KeepsEpoch (s.file p) i) :
    (s.stored p i).Sound w n := by
  refine ⟨fun q => ?_, h.rank, fun q ele hq => ?_, h.told, fun d hd => ?_⟩
  · rw [stored_file]
    split_ifs
    · exact (eleInit_stored (h.file p) hi).1
    · exact h.file q
  · have hne : q ≠ p := fun heq => by rw [heq, show (s.stored p i).node = s.node from rfl, hdown] at hq; cases hq
    rw [stored_file, if_neg hne]
    exact h.epoch q ele hq
  · obtain ⟨hb, q, hs, hle, rfl⟩ := h.air d hd
    exact ⟨hb, q, hs, hle.trans (h.stored_le hi _), rfl⟩

theorem perform (hp : p ∈ peers n) (hrank : ele.localRank = p) (hmax : ele.maxRank = n)
    (hepoch : ele.localEpoch = storedEpoch (s.file p)) (hes : ∀ d m, .send d m ∈ es → .send d m ∈ sendHeartbeats ele)
    (htold : stop = none → (s.trusts p ++ indications es).getLast? = some ⟨ele.leader⟩) :
    (s.perform w p ele es stop).Sound w n := by
  have hself : ele.self.Sendable n ∧ ele.self.epoch ≤ storedEpoch (s.file ele.self.sender) := by
    have hfile := h.file p
    change ({ sender := ele.localRank, epoch := ele.localEpoch } : Heartbeat).Sendable n ∧
      ele.localEpoch ≤ storedEpoch (s.file ele.localRank)
    rw [hrank, hepoch]
    exact ⟨⟨hp, hfile.nonneg, hfile.bounded⟩, le_rfl⟩
  have hnode : ∀ q ele', (s.perform w p ele es stop).node q = some ele' →
      (q = p ∧ stop = none ∧ ele' = ele) ∨ q ≠ p ∧ s.node q = some ele' := by
    intro q ele' hq
    rw [perform_node] at hq
    split_ifs at hq with hqp hstop
    · exact .inl ⟨hqp, Option.isNone_iff_eq_none.mp hstop, (Option.some.inj hq).symm⟩
    · exact .inr ⟨hqp, hq⟩
  refine ⟨h.file, fun q ele' hq => ?_, fun q ele' hq => ?_, fun q ele' hq => ?_, fun d hd => ?_⟩
  · rcases hnode q ele' hq with ⟨rfl, -, rfl⟩ | ⟨-, hq⟩
    · exact ⟨hp, hrank, hmax⟩
    · exact h.rank q ele' hq
  · rcases hnode q ele' hq with ⟨rfl, -, rfl⟩ | ⟨-, hq⟩
    · exact hepoch
    · exact h.epoch q ele' hq
  · rw [perform_trusts]
    rcases hnode q ele' hq with ⟨rfl, rfl, rfl⟩ | ⟨hqp, hq⟩
    · rw [if_pos rfl]
      exact htold rfl
    · rw [if_neg hqp]
      exact h.told q ele' hq
  · rcases List.mem_append.mp hd with hd | hd
    · exact h.air d hd
    · obtain ⟨q, m, -, rfl⟩ := (mem_emitted hes hrank).mp hd
      exact ⟨ele.self, q, hself.1, hself.2, rfl⟩

theorem replace_node (o : Option Ele) (ho : ∀ ele', o = some ele' → ∃ ele, s.node p = some ele ∧
    ele'.localRank = ele.localRank ∧ ele'.maxRank = ele.maxRank ∧ ele'.localEpoch = ele.localEpoch ∧
    ele'.leader = ele.leader) : Sound w n { s with node := Function.update s.node p o } := by
  have hnode : ∀ q ele', Function.update s.node p o q = some ele' → ∃ ele, s.node q = some ele ∧
      ele'.localRank = ele.localRank ∧ ele'.maxRank = ele.maxRank ∧ ele'.localEpoch = ele.localEpoch ∧
      ele'.leader = ele.leader := by
    intro q ele' hq
    rw [Function.update_apply] at hq
    split_ifs at hq with hqp
    · exact hqp ▸ ho ele' hq
    · exact ⟨ele', hq, rfl, rfl, rfl, rfl⟩
  refine ⟨h.file, fun q ele' hq => ?_, fun q ele' hq => ?_, fun q ele' hq => ?_, h.air⟩
  · obtain ⟨ele, hele, hl, hm, -, -⟩ := hnode q ele' hq
    rw [hl, hm]
    exact h.rank q ele hele
  · obtain ⟨ele, hele, -, -, he, -⟩ := hnode q ele' hq
    rw [he]
    exact h.epoch q ele hele
  · obtain ⟨ele, hele, -, -, -, hl⟩ := hnode q ele' hq
    rw [hl]
    exact h.told q ele hele

end Sound

end Election

/-- What a step of a sound state can be. -/
inductive ElectionStep (w : Socket) (n : ℕ) (s : Election) : ElectionEvent → Election → Prop
  | store {p i stop} (hp : p ∈ peers n) (hdown : s.node p = none) (hi : KeepsEpoch (s.file p) i) :
      ElectionStep w n s (.boot p i stop) (s.stored p i)
  | boot {p opened stop ele} (hp : p ∈ peers n) (hdown : s.node p = none)
      (hi : KeepsEpoch (s.file p) (.through opened true)) (hele : ele = eleNew p n (localEpoch (s.file p))) :
      ElectionStep w n s (.boot p (.through opened true) stop)
        ((s.stored p (.through opened true)).perform w p ele (eleGreeting ele) stop)
  | hear {p x ele hb} (hnode : s.node p = some ele) (hsent : hb.Sendable n)
      (hair : heartbeatDatagram w hb p ∈ s.air) (hx : x.bytes = (heartbeatDatagram w hb p).bytes)
      (hle : hb.epoch ≤ storedEpoch (s.file hb.sender)) :
      ElectionStep w n s (.receive p x) { s with
        node := Function.update s.node p (some { ele with candidates := recordHeartbeat hb ele.candidates }) }
  | timeout {p ele stop} (hnode : s.node p = some ele) :
      ElectionStep w n s (.timeout p stop) (s.timeout w p ele stop)
  | crash {p ele} (hnode : s.node p = some ele) :
      ElectionStep w n s (.crash p) { s with node := Function.update s.node p none }

theorem electionStep_of_next {s s' : Election} (h : s.Sound w n) (hn : n ≤ INT_MAX) {e : ElectionEvent}
    (hok : ElectionFair s e) (hnext : electionNext w n s e = some s') : ElectionStep w n s e s' := by
  match e, hok, hnext with
  | .boot p i stop, hok, hnext =>
    obtain ⟨⟨hp, hdown⟩, hs⟩ := Option.ite_none_right_eq_some.mp hnext
    obtain rfl := Option.some.inj hs
    match i, hok with
    | .early, hok => exact .store (mem_ranks.mp hp) hdown hok
    | .crashed written, hok => exact .store (mem_ranks.mp hp) hdown hok
    | .through opened false, hok => exact .store (mem_ranks.mp hp) hdown hok
    | .through opened true, hok => exact .boot (mem_ranks.mp hp) hdown hok rfl
  | .receive p x, hok, hnext =>
    obtain ⟨ele, hnode, hs⟩ := Option.bind_eq_some_iff.mp hnext
    obtain ⟨hair, hs⟩ := Option.ite_none_right_eq_some.mp hs
    obtain ⟨hb, q, hsent, hle, hd⟩ := h.air _ hair
    obtain ⟨rfl, hx⟩ := (Datagram.mk.injEq ..).mp hd
    obtain ⟨e, he, hhb⟩ := hsent.read (w := w) (q := p) hn hx hok
    obtain rfl := Option.some.inj hs
    rw [Election.receive, he]
    have hwrap : eleWrapper ele e = { ele with candidates := recordHeartbeat hb ele.candidates } := by
      rw [eleWrapper, hhb]
    dsimp only
    rw [hwrap]
    exact .hear hnode hsent (hd ▸ hair) hx hle
  | .timeout p stop, hok, hnext =>
    obtain ⟨ele, hnode, hs⟩ := Option.map_eq_some_iff.mp hnext
    exact hs ▸ .timeout hnode
  | .crash p, hok, hnext =>
    obtain ⟨ele, hnode, hs⟩ := Option.map_eq_some_iff.mp hnext
    exact hs ▸ .crash hnode

theorem told_handleTimeout {ele : Ele} {trusts : List Trust} (h : trusts.getLast? = some ⟨ele.leader⟩) :
    (trusts ++ indications (eleHandleTimeout ele).2).getLast? = some ⟨(eleHandleTimeout ele).1.leader⟩ := by
  rw [handleTimeout_trust]
  split_ifs with hsame
  · rw [List.append_nil, h, hsame]
  · simp

theorem told_eleGreeting (ele : Ele) (trusts : List Trust) :
    (trusts ++ indications (eleGreeting ele)).getLast? = some ⟨ele.leader⟩ := by
  rw [eleGreeting, indications_cons_indicate, indications_sendHeartbeats]
  simp

namespace ElectionStep

variable {s s' : Election} {e : ElectionEvent}

theorem sound (hs : ElectionStep w n s e s') (h : s.Sound w n) : s'.Sound w n := by
  cases hs with
  | store hp hdown hi => exact h.store hdown hi
  | @boot p opened stop ele hp hdown hi hele =>
    have hepoch := (eleInit_sends (h.file p) hi).1
    subst hele
    refine (h.store hdown hi).perform hp rfl rfl ?_ (fun d m => send_mem_eleGreeting.mp) fun _ => told_eleGreeting _ _
    rw [Election.stored_file, if_pos rfl]
    exact hepoch
  | @hear p x ele hb hnode hsent hair hx hle =>
    refine h.replace_node _ fun ele' hele' => ?_
    obtain rfl := Option.some.inj hele'
    exact ⟨ele, hnode, rfl, rfl, rfl, rfl⟩
  | @timeout p ele stop hnode =>
    obtain ⟨hp, hrank, hmax⟩ := h.rank p ele hnode
    obtain ⟨hl, hm, he⟩ := frame_eleHandleTimeout ele
    refine h.perform hp (hl.trans hrank) (hm.trans hmax) (he.trans (h.epoch p ele hnode)) (fun d m hdm => ?_)
      fun _ => told_handleTimeout (h.told p ele hnode)
    rw [mem_sendHeartbeats, hl, hm, he, ← mem_sendHeartbeats]
    exact send_mem_eleHandleTimeout.mp hdm
  | crash hnode => exact h.replace_node none nofun

theorem later (hs : ElectionStep w n s e s') (h : s.Sound w n) (p : ℤ) :
    storedEpoch (s.file p) ≤ storedEpoch (s'.file p) ∧
      (s.node p = none → s'.node p ≠ none → storedEpoch (s.file p) < storedEpoch (s'.file p)) := by
  have hne : ∀ {q ele}, s.node q = some ele → s.node p = none → p ≠ q := by
    rintro q ele hq hnone rfl
    rw [hq] at hnone
    cases hnone
  cases hs with
  | store hp hdown hi => exact ⟨h.stored_le hi p, fun hnone hsome => absurd hnone hsome⟩
  | @boot q opened stop ele hp hdown hi hele =>
    refine ⟨h.stored_le hi p, fun hnone hsome => ?_⟩
    change _ < storedEpoch ((s.stored q _).file p)
    rw [Election.stored_file]
    split_ifs with hpq
    · subst hpq
      exact (eleInit_sends (h.file p) hi).2
    · rw [Election.perform_node, if_neg hpq] at hsome
      exact absurd hnone hsome
  | hear hnode hsent hair hx hle =>
    exact ⟨le_rfl, fun hnone hsome => (hsome ((Function.update_of_ne (hne hnode hnone) _ _).trans hnone)).elim⟩
  | timeout hnode =>
    exact ⟨le_rfl, fun hnone hsome => (hsome ((Function.update_of_ne (hne hnode hnone) _ _).trans hnone)).elim⟩
  | crash hnode =>
    exact ⟨le_rfl, fun hnone hsome => (hsome ((Function.update_of_ne (hne hnode hnone) _ _).trans hnone)).elim⟩

theorem sends (hs : ElectionStep w n s e s') (h : s.Sound w n) (hn : n ≤ INT_MAX) {hb : Heartbeat} {q : ℤ}
    (hsent : hb.Sendable n)
    (hput : s.air.count (heartbeatDatagram w hb q) < s'.air.count (heartbeatDatagram w hb q)) :
    hb.epoch = storedEpoch (s'.file hb.sender) ∧
      (s.node hb.sender ≠ none ∨ storedEpoch (s.file hb.sender) < storedEpoch (s'.file hb.sender)) := by
  have hnew : ∀ {p ele} {es : EleEffects} {stop}, s'.Sound w n → p ∈ peers n → ele.localRank = p →
      ele.localEpoch = storedEpoch (s'.file p) → (∀ d m, .send d m ∈ es → .send d m ∈ sendHeartbeats ele) →
      s'.air = s.air ++ (packets p (cut stop es)).map (fun k => w.datagram p ⟨k.msg, k.dst⟩) →
      hb.sender = p ∧ hb.epoch = storedEpoch (s'.file p) := by
    intro p ele es stop hs' hp hrank hepoch hes hair
    rw [hair, List.count_append] at hput
    obtain ⟨q', m, -, hd⟩ := (Election.mem_emitted hes hrank).mp
      (List.count_pos_iff.mp (Nat.lt_add_right_iff_pos.mp hput))
    have hself : ele.self.Sendable n := by
      have hfile := hs'.file p
      change ({ sender := ele.localRank, epoch := ele.localEpoch } : Heartbeat).Sendable n
      rw [hrank, hepoch]
      exact ⟨hp, hfile.nonneg, hfile.bounded⟩
    obtain rfl := hsent.eq_of_bytes hself hn (congrArg Datagram.bytes hd)
    exact ⟨hrank, hepoch⟩
  have hsound := hs.sound h
  cases hs with
  | store hp hdown hi => exact absurd hput (lt_irrefl _)
  | @boot p opened stop ele hp hdown hi hele =>
    subst hele
    have hst : (Election.perform w (s.stored p (.through opened true)) p (eleNew p n (localEpoch (s.file p)))
        (eleGreeting (eleNew p n (localEpoch (s.file p)))) stop).file p =
        (eleInit (s.file p) (.through opened true)).1 := by
      change (s.stored p _).file p = _
      rw [Election.stored_file, if_pos rfl]
    obtain ⟨heq, hlt⟩ := eleInit_sends (h.file p) hi
    obtain ⟨hsender, hepoch⟩ := hnew hsound hp rfl (by rw [hst]; exact heq) (fun d m => send_mem_eleGreeting.mp) rfl
    rw [hsender]
    exact ⟨hepoch, .inr (by rw [hst]; exact hlt)⟩
  | hear hnode hsent hair hx hle => exact absurd hput (lt_irrefl _)
  | @timeout p ele stop hnode =>
    obtain ⟨hp, hrank, -⟩ := h.rank p ele hnode
    obtain ⟨hsender, hepoch⟩ := hnew hsound hp hrank (h.epoch p ele hnode)
      (fun d m => send_mem_eleHandleTimeout.mp) rfl
    rw [hsender]
    exact ⟨hepoch, .inl (by rw [hnode]; exact Option.some_ne_none _)⟩
  | crash hnode => exact absurd hput (lt_irrefl _)

end ElectionStep

theorem election_sound (hn : n ≤ INT_MAX) {evs : List ElectionEvent} {s : Election}
    (h : Run (election w n) ElectionFair evs s) : s.Sound w n := by
  refine h.state_invariant ⟨fun _ => .inl rfl, nofun, nofun, nofun, fun _ hd => (List.not_mem_nil hd).elim⟩ ?_
  intro evs s e s' _ ih hok hnext
  exact (electionStep_of_next ih hn hok hnext).sound ih

end DSA
