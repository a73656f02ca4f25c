import DistributedAbstractions.Lib.Simulation
import DistributedAbstractions.Proofs.Detection
import DistributedAbstractions.Proofs.RbAgreement
import DistributedAbstractions.Proofs.RbIntegrity
import DistributedAbstractions.Spec.RbNode

/-! A process with its failure detector is, at its data port, one of the broadcast that is told of crashes by an
oracle. The detector is called at the ends of control periods, and may report several peers at once. -/

namespace DSA

open CLib Net Trans Access

variable {n : ℕ} {A : Finset ℤ}

section Views

/-- A frame of the broadcast among the messages of both ports. -/
def dataPacket (k : Packet CString) : Packet RbMessage := ⟨k.src, k.dst, .data k.msg⟩

theorem dataPacket?_iff (k : Packet RbMessage) (k' : Packet CString) : dataPacket? k = some k' ↔ k = dataPacket k' := by
  obtain ⟨src, dst, m⟩ := k
  obtain ⟨src', dst', m'⟩ := k'
  cases m <;> simp [dataPacket?, dataPacket]

theorem dataPackets_packets (p : ℤ) (es : List (Effect RbMessage Indication)) :
    (packets p es).filterMap dataPacket? = packets p (es.filterMap dataEffect?) := by
  induction es with
  | nil => rfl
  | cons e es ih =>
    match e with
    | .send d (.data m) => exact congrArg (List.cons _) ih
    | .send d (.control m) => exact ih
    | .indicate d => exact ih

theorem indications_dataEffects (es : List (Effect RbMessage Indication)) :
    indications (es.filterMap dataEffect?) = indications es := by
  induction es with
  | nil => rfl
  | cons e es ih =>
    match e with
    | .send d (.data m) => exact ih
    | .send d (.control m) => exact ih
    | .indicate d => exact congrArg (List.cons _) ih

theorem send_mem_dataEffects {es : List (Effect RbMessage Indication)} {d : ℤ} {m : CString} :
    .send d m ∈ es.filterMap dataEffect? ↔ .send d (.data m) ∈ es := by
  rw [List.mem_filterMap]
  constructor
  · rintro ⟨e, he, hd⟩
    match e with
    | .send d' (.data m') => cases hd; exact he
    | .send d' (.control m') => cases hd
    | .indicate o => cases hd
  · exact fun h => ⟨_, h, rfl⟩

theorem dataEffects_data (es : RbEffects) :
    (es.map fun e => (RbNodeEffect.data e).effect).filterMap dataEffect? = es := by
  rw [List.filterMap_map]
  refine (List.filterMap_congr fun e _ => ?_).trans List.filterMap_some
  cases e <;> rfl

theorem dataEffects_cut (stop : Option ℕ) (es : RbEffects) :
    (cut stop (es.map fun e => (RbNodeEffect.data e).effect)).filterMap dataEffect? = cut stop es := by
  cases stop with
  | none => exact dataEffects_data es
  | some k =>
    change ((es.map _).take k).filterMap dataEffect? = es.take k
    rw [← List.map_take, dataEffects_data]

end Views

/-- The calls of the broadcast's handler for what the detector indicates. -/
def crashCalls (es : PfdEffects) : List RbRequest := (indications es).map fun crash => .crashed crash.peerId

theorem call_mem_crashCalls {es : PfdEffects} {q : ℤ} :
    (.call (.crashed q) : Input RbRequest CString) ∈ (crashCalls es).map .call ↔ ⟨q⟩ ∈ indications es := by
  simp only [crashCalls, List.mem_map, Input.call.injEq, RbRequest.crashed.injEq, exists_exists_and_eq_and]
  exact ⟨fun ⟨_, hc, hq⟩ => hq ▸ hc, fun h => ⟨_, h, rfl⟩⟩

/-- At the data port there is what the handler does for these calls. -/
theorem onPfdEffects_eq (rb : Rb) (es : PfdEffects) :
    answers (rbProtocol n) () rb (crashCalls es) =
      (rb, ((onPfdEffects rb es).value.map RbNodeEffect.effect).filterMap dataEffect?) := by
  induction es with
  | nil => rfl
  | cons e es ih =>
    cases e with
    | send d m => exact ih
    | indicate crash =>
      have hhead : ((onPfdEffects rb (.indicate crash :: es)).value.map RbNodeEffect.effect).filterMap dataEffect? =
          onCrashed rb crash.peerId ++
            ((onPfdEffects rb es).value.map RbNodeEffect.effect).filterMap dataEffect? := by
        change ((((onCrashed rb crash.peerId).map RbNodeEffect.data ++ (onPfdEffects rb es).value).map
          RbNodeEffect.effect).filterMap dataEffect?) = _
        rw [List.map_append, List.filterMap_append, List.map_map]
        exact congrArg (· ++ _) (dataEffects_data _)
      rw [hhead]
      change ((answers (rbProtocol n) () rb (crashCalls es)).1,
        onCrashed rb crash.peerId ++ (answers (rbProtocol n) () rb (crashCalls es)).2) = _
      rw [ih]

theorem control_mem_onPfdEffects (rb : Rb) {es : PfdEffects} {d : ℤ} {m : CString} (h : .send d m ∈ es) :
    .control d m ∈ (onPfdEffects rb es).value := by
  induction es with
  | nil => cases h
  | cons e es ih =>
    cases e with
    | send d' m' =>
      rcases List.mem_cons.mp h with h | h
      · obtain ⟨rfl, rfl⟩ := Effect.send.inj h
        exact List.mem_cons_self
      · exact List.mem_cons_of_mem _ (ih h)
    | indicate crash =>
      exact List.mem_append_right _ (ih ((List.mem_cons.mp h).resolve_left (by simp)))

/-- What of the inputs is for the detector. -/
def controlInput : Input RbCall RbMessage → Option (Input FdCall CString)
  | .call (.broadcast _) => none
  | .call .timeout => some (.call .timeout)
  | .receive _ (.data _) => none
  | .receive q (.control m) => some (.receive q m)

theorem rbNode_hosts (n : ℕ) : Hosts (rbNodeProtocol n) (pfdProtocol n) RbNode.pfd controlInput .control where
  init _ := rfl
  idle r node x h := by
    match x with
    | .call (.broadcast e) => rfl
    | .call .timeout => cases h
    | .receive q (.data m) => rfl
    | .receive q (.control m) => cases h
  runs r node x y h := by
    match x with
    | .call (.broadcast e) => cases h
    | .call .timeout => cases h; rfl
    | .receive q (.data m) => cases h
    | .receive q (.control m) => cases h; rfl
  sends r node x y d m h hm := by
    have hsend : ∀ es : PfdEffects, .send d m ∈ es →
        .send d (.control m) ∈ (onPfdEffects node.rb es).value.map RbNodeEffect.effect :=
      fun es hes => List.mem_map_of_mem (f := RbNodeEffect.effect) (control_mem_onPfdEffects node.rb hes)
    match x with
    | .call (.broadcast e) => cases h
    | .call .timeout => cases h; exact hsend _ hm
    | .receive q (.data m) => cases h
    | .receive q (.control m) => cases h; exact hsend _ hm
  wraps _ _ := rfl
  called x i h := by
    match x with
    | .call i' => exact ⟨i', rfl⟩
    | .receive q (.data m) => cases h
    | .receive q (.control m) => cases h
  received x q m h := by
    match x with
    | .call (.broadcast e) => cases h
    | .call .timeout => cases h
    | .receive q' (.data m') => cases h
    | .receive q' (.control m') => cases h; exact ⟨_, rfl⟩

theorem endsControl_iff (i : RbCall) :
    i.EndsControl ↔ ∃ j, controlInput (.call i) = some (.call j) ∧ IsTimeout j := by
  cases i with
  | broadcast e => simp [RbCall.EndsControl, controlInput]
  | timeout => simp [RbCall.EndsControl, controlInput, IsTimeout]

/-- `t` is what goes on at the data ports in `s`. -/
structure RbHosted (s : RbNodeState) (t : RbState) : Prop where
  crashed : ∀ p, (t.proc p).crashed = (s.proc p).crashed
  effects : ∀ p, (t.proc p).effects = (s.proc p).effects.filterMap dataEffect?
  flight : t.flight = s.flight.filterMap dataPacket?
  asked : ∀ p e, .call (.broadcast e) ∈ (t.proc p).inputs ↔ .call (.broadcast e) ∈ (s.proc p).inputs
  state : ∀ p, (s.proc p).crashed = false → (t.proc p).state = (s.proc p).state.rb
  notified : ∀ p, (s.proc p).crashed = false → ∀ q,
    .call (.crashed q) ∈ (t.proc p).inputs ↔ q ∈ (s.proc p).state.pfd.faultyPeers

theorem up_of_crash {σ ι μ ω : Type} {s : State σ ι μ ω} {p q : ℤ} (h : ((s.crash p).proc q).crashed = false) :
    (s.proc q).crashed = false := by
  by_cases hq : q = p
  · simp [State.crash, hq] at h
  · rwa [crash_proc_ne s p hq] at h

theorem rbHosted_start : RbHosted (start (rbNodeProtocol n)) (start (rbProtocol n)) where
  crashed _ := rfl
  effects _ := rfl
  flight := rfl
  asked _ _ := by simp [start]
  state _ _ := rfl
  notified _ _ _ := by simp [start, rbNodeProtocol, rbInit, pfdInit]

section Step

variable {evs : List RbNodeStep} {s : RbNodeState} {t t' : RbState} {p : ℤ}
  {a : Arrival RbCall RbMessage} {stop : Option ℕ}

theorem RbHosted.live (h : RbHosted s t) (hp : (rbNodeSetting n).live s p = true) :
    (crashSetting n).live t p = true := by
  obtain ⟨hc, hup⟩ := live_iff.mp hp
  exact live_iff.mpr ⟨hc, (h.crashed p).trans hup⟩

/-- One process acts, and the others are as they were. -/
theorem RbHosted.act (h : RbHosted s t) (hothers : ∀ q, q ≠ p → t'.proc q = t.proc q)
    (hcrashed : (t'.proc p).crashed = stop.isSome)
    (heffects : (t'.proc p).effects = (t.proc p).effects ++
      (cut stop ((rbNodeProtocol n).handle () (s.proc p).state a.input).2).filterMap dataEffect?)
    (hflight : t'.flight = (s.consume p a).flight.filterMap dataPacket? ++
      packets p ((cut stop ((rbNodeProtocol n).handle () (s.proc p).state a.input).2).filterMap dataEffect?))
    (hasked : ∀ e, .call (.broadcast e) ∈ (t'.proc p).inputs ↔
      .call (.broadcast e) ∈ (t.proc p).inputs ∨ .call (.broadcast e) = a.input)
    (hstate : stop = none → (t'.proc p).state = ((rbNodeProtocol n).handle () (s.proc p).state a.input).1.rb)
    (hnotified : stop = none → ∀ q, .call (.crashed q) ∈ (t'.proc p).inputs ↔
      q ∈ ((rbNodeProtocol n).handle () (s.proc p).state a.input).1.pfd.faultyPeers) :
    RbHosted (s.act (rbNodeProtocol n) p () a stop) t' := by
  have hcases : ∀ {C : Proc RbNode RbCall RbMessage Indication → RbProc → Prop},
      C ((s.act (rbNodeProtocol n) p () a stop).proc p) (t'.proc p) → (∀ q, C (s.proc q) (t.proc q)) →
      ∀ q, C ((s.act (rbNodeProtocol n) p () a stop).proc q) (t'.proc q) := by
    intro C hself hother q
    by_cases hq : q = p
    · rw [hq]
      exact hself
    · rw [act_proc_ne _ _ _ _ _ _ hq, hothers q hq]
      exact hother q
  refine ⟨hcases (C := fun l l' => l'.crashed = l.crashed) ?_ h.crashed,
    hcases (C := fun l l' => l'.effects = l.effects.filterMap dataEffect?) ?_ h.effects, ?_,
    hcases (C := fun l l' => ∀ e, .call (.broadcast e) ∈ l'.inputs ↔ .call (.broadcast e) ∈ l.inputs) ?_ h.asked,
    hcases (C := fun l l' => l.crashed = false → l'.state = l.state.rb) ?_ h.state,
    hcases (C := fun l l' => l.crashed = false → ∀ q, .call (.crashed q) ∈ l'.inputs ↔ q ∈ l.state.pfd.faultyPeers)
      ?_ h.notified⟩
  · rw [hcrashed, act_crashed_self]
  · rw [act_effects_self, List.filterMap_append, heffects, h.effects p]
  · rw [hflight, act_flight, List.filterMap_append, dataPackets_packets]
  · intro e
    rw [act_inputs_self, hasked, h.asked, List.mem_append, List.mem_singleton]
  · intro hup
    rw [act_crashed_self, Option.isSome_eq_false_iff, Option.isNone_iff_eq_none] at hup
    rw [act_state_self, hstate hup]
  · intro hup
    rw [act_crashed_self, Option.isSome_eq_false_iff, Option.isNone_iff_eq_none] at hup
    rw [act_state_self]
    exact hnotified hup

theorem RbHosted.crash (h : RbHosted s t) (p : ℤ) : RbHosted (s.crash p) (t.crash p) where
  crashed q := by
    by_cases hq : q = p
    · simp [State.crash, hq]
    · rw [crash_proc_ne s p hq, crash_proc_ne t p hq, h.crashed]
  effects q := by rw [crash_effects, crash_effects, h.effects]
  flight := h.flight
  asked q e := by rw [crash_inputs, crash_inputs, h.asked]
  state q hq := by
    rw [crash_state, crash_state]
    exact h.state q (up_of_crash hq)
  notified q hq r := by
    rw [crash_inputs, crash_state]
    exact h.notified q (up_of_crash hq) r

/-- The guards of a run at the data ports. -/
abbrev RbGuard (n : ℕ) (A : Finset ℤ) (t : RbState) (e : RbEvent) : Prop := RbFair n t e ∧ Relayable A t e

abbrev RbNodeGuard (n : ℕ) (A : Finset ℤ) (s : RbNodeState) (e : RbNodeStep) : Prop :=
  RbNodeFair n s e ∧ RelaysAmong A s e

theorem mem_asked {is : List (Input RbCall RbMessage)} {e : Broadcast} :
    e ∈ is.filterMap askedOf ↔ .call (.broadcast e) ∈ is := by
  rw [List.mem_filterMap]
  constructor
  · rintro ⟨x, hx, he⟩
    match x with
    | .call (.broadcast e') => cases he; exact hx
    | .call .timeout => cases he
    | .receive q m => cases he
  · exact fun h => ⟨_, h, rfl⟩

theorem RbHosted.fresh (h : RbHosted s t) {e : Broadcast}
    (hok : FreshBroadcasts n s (.act p () (.call (.broadcast e)) stop)) :
    RbGuard n A t (.act p () (.call (.broadcast e)) stop) := by
  refine ⟨⟨fun e' he' => ?_, trivial⟩, trivial⟩
  obtain rfl := Option.some.inj he'
  exact ⟨hok.1, fun q hq b hb => hok.2 q hq b (mem_asked.mpr ((h.asked q b).mp (mem_rbBroadcasts.mp hb)))⟩

theorem RbHosted.relays (h : RbHosted s t) (hup : (s.proc p).crashed = false) {q : ℤ} {m : CString}
    (hok : RelaysAmong A s (.act p () (.deliver q (.data m)) stop)) :
    RbGuard n A t (.act p () (.deliver q m) stop) := by
  refine ⟨⟨trivial, trivial⟩, fun hp hq f hf ho hnot => ?_⟩
  rw [h.state p hup] at hf ⊢
  refine hok hp hq f hf ho ((h.notified p hup _).mp ?_)
  simpa [DSA.notified] using hnot

/-- The requests and the frames are those of the broadcast, one for one. -/
theorem RbHosted.same (h : RbHosted s t) (hup : (s.proc p).crashed = false) {a' : Arrival RbRequest CString}
    (hout : (rbNodeProtocol n).handle () (s.proc p).state a.input =
      (⟨((rbProtocol n).handle () (s.proc p).state.rb a'.input).1, (s.proc p).state.pfd⟩,
        ((rbProtocol n).handle () (s.proc p).state.rb a'.input).2.map fun e => (RbNodeEffect.data e).effect))
    (hflight : (t.consume p a').flight = (s.consume p a).flight.filterMap dataPacket?)
    (hasked : ∀ e, (.call (.broadcast e) : Input RbRequest CString) = a'.input ↔ .call (.broadcast e) = a.input)
    (hcrashed : ∀ q, a'.input ≠ .call (.crashed q)) :
    RbHosted (s.act (rbNodeProtocol n) p () a stop) (t.act (rbProtocol n) p () a' stop) := by
  have hstate := h.state p hup
  refine h.act (fun q hq => act_proc_ne _ _ _ _ _ _ hq) (act_crashed_self _ _ _ _ _ _) ?_ ?_ (fun e => ?_)
    (fun _ => ?_) fun _ q => ?_
  · rw [act_effects_self, hout, dataEffects_cut, hstate]
  · rw [act_flight, hout, dataEffects_cut, hstate, hflight]
  · rw [act_inputs_self, List.mem_append, List.mem_singleton, hasked]
  · rw [act_state_self, hout, hstate]
  · rw [act_inputs_self, List.mem_append, List.mem_singleton, hout]
    exact (or_iff_left (hcrashed q).symm).trans (h.notified p hup q)

/-- The detector has taken its turn, and the broadcast is called for what it indicates. -/
theorem RbHosted.detects (out : Pfd × PfdEffects) (h : RbHosted s t) (hp : (rbNodeSetting n).live s p = true)
    {evs' : List RbEvent} (ht : Run (rbSystem n) (RbGuard n A) evs' t)
    (hout : (rbNodeProtocol n).handle () (s.proc p).state a.input =
      (⟨(s.proc p).state.rb, out.1⟩, (onPfdEffects (s.proc p).state.rb out.2).value.map RbNodeEffect.effect))
    (hfaulty : out.1.faultyPeers.map Crash.mk = (s.proc p).state.pfd.faultyPeers.map Crash.mk ++ indications out.2)
    (hcrashed : ∀ crash ∈ indications out.2,
      crash.peerId ∈ peers n ∧ (s.proc crash.peerId).crashed = true)
    (hflight : (s.consume p a).flight.filterMap dataPacket? = t.flight)
    (hasked : ∀ e, .call (.broadcast e) ≠ a.input) :
    ∃ ds t', Run (rbSystem n) (RbGuard n A) (evs' ++ ds) t' ∧
      RbHosted (s.act (rbNodeProtocol n) p () a stop) t' := by
  have hup := (live_iff.mp hp).2
  have hok : ∀ (t' : RbState) i stop, Grows t t' → i ∈ crashCalls out.2 → RbGuard n A t' (.act p () (.call i) stop) := by
    intro t' i stop hg hi
    obtain ⟨crash, hc, rfl⟩ := List.mem_map.mp hi
    obtain ⟨hrank, hdown⟩ := hcrashed crash hc
    have hdown := (h.crashed _).trans hdown
    refine ⟨⟨fun e he => (nomatch he), hrank, ?_⟩, trivial⟩
    rw [hg.crashed _ hdown]
    exact hdown
  have hansw : answers (rbProtocol n) () (t.proc p).state (crashCalls out.2) = ((s.proc p).state.rb,
      ((rbNodeProtocol n).handle () (s.proc p).state a.input).2.filterMap dataEffect?) := by
    rw [h.state p hup, hout]
    exact onPfdEffects_eq _ _
  have hasked' : ∀ {is}, is <+: crashCalls out.2 → ∀ e,
      (.call (.broadcast e) : Input RbRequest CString) ∈ (t.proc p).inputs ++ is.map .call ↔
      .call (.broadcast e) ∈ (t.proc p).inputs ∨ .call (.broadcast e) = a.input := by
    intro is his e
    rw [List.mem_append, or_iff_left (hasked e), or_iff_left]
    intro hmem
    obtain ⟨i, hi, hie⟩ := List.mem_map.mp hmem
    obtain ⟨crash, -, rfl⟩ := List.mem_map.mp (his.subset hi)
    cases hie
  cases stop with
  | none =>
    obtain ⟨ds, t', hr, hc, hs, hlive⟩ := run_calls (p := p) (r := ()) ht (h.live hp)
      fun t' i hg hi => hok t' i none hg hi
    rw [hansw] at hc hs
    refine ⟨ds, t', hr, h.act hc.others hlive ?_ ?_ ?_ (fun _ => ?_) fun _ q => ?_⟩
    · exact hc.effects
    · rw [hc.flight, hflight]
      rfl
    · rw [hc.inputs]
      exact hasked' (List.prefix_refl _)
    · rw [hs, hout]
    · rw [hc.inputs, List.mem_append, h.notified p hup, call_mem_crashCalls, hout, ← mem_map_crash,
        ← mem_map_crash (l := out.1.faultyPeers), hfaulty, List.mem_append]
  | some k =>
    have hprefix : (cut (some k) ((rbNodeProtocol n).handle () (s.proc p).state a.input).2).filterMap dataEffect? <+:
        (answers (rbProtocol n) () (t.proc p).state (crashCalls out.2)).2 := by
      rw [hansw]
      exact (prefix_of_cut _ _).filterMap _
    obtain ⟨ds, t', is, hr, his, hc, hdown⟩ := run_calls_until (p := p) (r := ()) rfl ht (h.live hp) hok
      (fun t' _ => ⟨⟨trivial, trivial⟩, trivial⟩) hprefix
    refine ⟨ds, t', hr, h.act hc.others hdown hc.effects ?_ ?_ nofun nofun⟩
    · rw [hc.flight, hflight]
    · rw [hc.inputs]
      exact hasked' his

theorem indicated_crashed (hr : Run (rbNodeSystem n) (RbNodeGuard n A) evs s)
    (hp : (rbNodeSetting n).live s p = true) (hok : RbNodeFair n s (.act p () (.call .timeout) stop))
    {crash : Crash} (hc : crash ∈ indications (pfdHandleTimeout (s.proc p).state.pfd).2) :
    crash.peerId ∈ peers n ∧ (s.proc crash.peerId).crashed = true := by
  have hM := monitor_of_hosts (rbNode_hosts n) endsControl_iff
  obtain ⟨hl, hm⟩ := hM.own_of_run hr p
  obtain ⟨hrank, hne, hnot, -⟩ := mem_reports.mp (mem_indications.mp hc)
  rw [hm] at hrank
  rw [hl] at hne
  exact ⟨hrank, hM.crashed_of_not_alive hr rfl hok.2 hne hrank (live_iff.mp hp).2 hnot⟩

end Step

theorem rbNode_simulation :
    Simulation (rbNodeSystem n) (RbNodeGuard n A) (rbSystem n) (RbGuard n A) RbHosted where
  init := rbHosted_start
  step evs s e s' evs' t hr ht h hok hn := by
    rcases next_cases hn with ⟨p, r, a, stop, rfl, hp, ha, -, rfl⟩ | ⟨p, rfl, hp, -, rfl⟩
    · have hup := (live_iff.mp hp).2
      rcases a with (e | _) | ⟨q, m | m⟩ | ⟨q, m⟩
      · refine ⟨[_], _, ht.snoc (h.fresh hok.1.1) (next_of_admits (h.live hp) rfl (.inr rfl)),
          h.same hup ?_ ?_ ?_ fun _ hc => by cases hc⟩
        · change (_, ((rbBroadcast (s.proc p).state.rb e).map RbNodeEffect.data).map RbNodeEffect.effect) = _
          rw [List.map_map]
          rfl
        · exact h.flight
        · intro e'
          simp [Arrival.input]
      · exact h.detects (pfdHandleTimeout (s.proc p).state.pfd) hp ht rfl (faultyPeers_pfdHandleTimeout _)
          (fun crash hc => indicated_crashed hr hp hok.1 hc) h.flight.symm fun _ hc => by cases hc
      · simp only [Setting.admits, Bool.and_eq_true, decide_eq_true_eq] at ha
        have hmem : (⟨q, p, m⟩ : Packet CString) ∈ t.flight := by
          rw [h.flight, List.mem_filterMap]
          exact ⟨_, ha.1, rfl⟩
        have hadmits : (crashSetting n).admits t p (.deliver q m) = true := by
          simp only [Setting.admits, Bool.and_eq_true, decide_eq_true_eq]
          exact ⟨hmem, ha.2⟩
        refine ⟨[_], _, ht.snoc (h.relays hup hok.2) (next_of_admits (h.live hp) hadmits (.inr rfl)),
          h.same hup ?_ ?_ ?_ fun _ hc => by cases hc⟩
        · change (RbNode.mk (onDeliveryWrapperAt (s.proc p).state.rb ⟨m, q⟩).value.1 _,
            ((onDeliveryWrapperAt (s.proc p).state.rb ⟨m, q⟩).value.2.map RbNodeEffect.data).map
              RbNodeEffect.effect) = _
          rw [value_onDeliveryWrapperAt, List.map_map]
          rfl
        · change t.flight.erase ⟨q, p, m⟩ = (s.flight.erase ⟨q, p, .data m⟩).filterMap dataPacket?
          rw [h.flight]
          exact (filterMap_erase (g := dataPacket) dataPacket?_iff ⟨q, p, m⟩).symm
        · intro e
          simp [Arrival.input]
      · have hnone := indications_pfdCallback (s.proc p).state.pfd ⟨m, q⟩
        refine h.detects (pfdCallback (s.proc p).state.pfd ⟨m, q⟩) hp ht rfl ?_ (fun crash hc => ?_) ?_
          fun _ hc => by cases hc
        · rw [hnone, List.append_nil]
          rfl
        · rw [hnone] at hc
          cases hc
        · rw [h.flight]
          exact filterMap_erase_of_none rfl
      · simp [Setting.admits, rbNodeSetting] at ha
    · have hcrash := next_crash_of_live (P := rbProtocol n) (h.live hp) rfl
      refine ⟨[.crash p], _, ht.snoc ⟨⟨trivial, trivial⟩, trivial⟩ hcrash, ?_⟩
      exact h.crash p

section Oracle

variable {evs : List RbEvent} {t : RbState}

/-- What a process has been asked for, or has delivered of one that has crashed. -/
def Owed (t : RbState) (p : ℤ) (msg : CString) : Prop :=
  (∃ e, .call (.broadcast e) ∈ (t.proc p).inputs ∧ msg = bcFrame (originalFrame p e)) ∨
    ∃ d ∈ indications (t.proc p).effects, (t.proc d.deliver.sender).crashed = true ∧
      msg = bcFrame ⟨d.deliver.sender, d.id, d.deliver.msg⟩

theorem Owed.mono {t t' : RbState} (hg : Grows t t') {p : ℤ} {msg : CString} (h : Owed t p msg) : Owed t' p msg := by
  rcases h with ⟨e, he, hmsg⟩ | ⟨d, hd, hc, hmsg⟩
  · exact .inl ⟨e, (hg.inputs p).subset he, hmsg⟩
  · refine .inr ⟨d, mem_indications.mpr ((hg.effects p).subset (mem_indications.mp hd)), ?_, hmsg⟩
    rw [hg.crashed _ hc]
    exact hc

theorem send_notMem_onDeliveryWrapper {rb : Rb} {e : Deliver} {q : ℤ} {msg : CString} :
    .send q msg ∉ (onDeliveryWrapper rb e).2 := by
  have hout := onDeliveryWrapper_outcome rb e.sender e.msg
  intro hs
  change .send q msg ∈ (onDeliveryWrapper rb ⟨e.msg, e.sender⟩).2 at hs
  generalize (onDeliveryWrapper rb ⟨e.msg, e.sender⟩).1 = rb' at hout
  generalize (onDeliveryWrapper rb ⟨e.msg, e.sender⟩).2 = es at hout hs
  cases hout <;> simp at hs

/-- Whoever passes something on has been asked for it, or owes it to those that are left. -/
theorem rb_owed (h : Run (rbSystem n) (RbGuard n A) evs t) {p q : ℤ} {msg : CString}
    (hs : .send q msg ∈ (t.proc p).effects) : Owed t p msg := by
  revert p q msg
  refine h.state_invariant (I := fun t => ∀ {p q : ℤ} {msg : CString}, .send q msg ∈ (t.proc p).effects →
    Owed t p msg) (fun h => by cases h) ?_
  intro evs t e t' hr ih hok hn p q msg hs
  have hg := grows_next hn
  rcases next_cases hn with ⟨x, r, a, stop, rfl, hlive, -, -, rfl⟩ | ⟨x, -, -, -, rfl⟩
  · by_cases hp : p = x
    · subst hp
      rw [act_effects_self, List.mem_append] at hs
      rcases hs with hs | hs
      · exact (ih hs).mono hg
      · replace hs := (prefix_of_cut _ _).subset hs
        have hl := rb_local_of_uncrashed (hr.weaken fun _ _ hok => ⟨hok.1.1, hok.2⟩) (mem_uncrashed_of_live hlive)
        match a, hs with
        | .call (.broadcast e), hs =>
          refine .inl ⟨e, by simp [Arrival.input], (send_mem_sendLoop hs).trans ?_⟩
          rw [hl.localRank]
          rfl
        | .call (.crashed o), hs =>
          obtain ⟨m, hm, y, -, hy⟩ := mem_onCrashed.mp hs
          obtain ⟨-, rfl⟩ := Effect.send.inj hy
          have hd := (hl.saved o m hm).2
          refine Owed.mono hg (.inr ⟨_, mem_indications.mpr hd, hok.1.2.2, rfl⟩)
        | .deliver src m, hs => exact (send_notMem_onDeliveryWrapper hs).elim
        | .forge src m, hs => exact (send_notMem_onDeliveryWrapper hs).elim
    · rw [act_proc_ne _ _ _ _ _ _ hp] at hs
      exact (ih hs).mono hg
  · rw [crash_effects] at hs
    exact (ih hs).mono hg

/-- These are runs with any detector. -/
theorem rb_unguarded (h : Run (rbSystem n) (RbGuard n A) evs t) :
    Run (rbSystem n) (fun s e => FreshIds RbRequest.broadcast? n s e ∧ Relayable A s e) evs t :=
  h.weaken fun _ _ hok => ⟨hok.1.1, hok.2⟩

theorem rb_created (h : Run (rbSystem n) (RbGuard n A) evs t) {p : ℤ} {d : Indication}
    (hd : d ∈ indications (t.proc p).effects) :
    .call (.broadcast ⟨d.deliver.msg, d.id⟩) ∈ (t.proc d.deliver.sender).inputs := by
  replace h := rb_unguarded h
  obtain ⟨l, hl, hin, heff, -⟩ := (rb_run h).1 p
  obtain ⟨x, M, hM, hf⟩ := hl.indicated d (heff.subset (mem_indications.mp hd))
  obtain ⟨-, -, e, he, hfe⟩ := said_of_opened h (hin ▸ hM) hf
  obtain ⟨-, hid, hmsg⟩ := (Fields.mk.injEq ..).mp hfe
  rw [hid, hmsg]
  exact he

/-- What one of those that are left has delivered reaches the others, when they know who has crashed. -/
theorem rb_reaches (h : Run (rbSystem n) (RbGuard n A) evs t) (hA : A = uncrashed n t) (hquiet : Quiet t A)
    (hnotified : ∀ p ∈ A, ∀ q ∈ peers n \ A, notified t p q = true) {p q : ℤ} (hp : p ∈ A) (hq : q ∈ A)
    {d : Indication} (hd : d ∈ indications (t.proc p).effects) : d ∈ indications (t.proc q).effects := by
  replace h := rb_unguarded h
  have hlocal : ∀ {q}, q ∈ A → RbLocal n A q (t.proc q) := fun hq => rb_local_of_uncrashed h (hA ▸ hq)
  have hrank : q ∈ peers n := (mem_uncrashed.mp (hA ▸ hq)).1
  obtain ⟨id, ⟨msg, o⟩⟩ := d
  obtain ⟨x, M, hM, hf⟩ := (hlocal hp).indicated _ (mem_indications.mp hd)
  obtain ⟨-, hopen, e, he, hfe⟩ := said_of_opened h hM hf
  have hgets : ∀ {z}, z ∈ A → .send q (bcFrame ⟨o, id, msg⟩) ∈ (t.proc z).effects →
      .receive z (bcFrame ⟨o, id, msg⟩) ∈ (t.proc q).inputs := fun hz hs =>
    receive_of_handled h (handled_of_quiet h hquiet hz hq hs)
  rw [mem_indications]
  by_cases hqo : o = q
  · -- it is `q`'s own message
    subst hqo
    have hsend := (hlocal hq).called e he o hrank
    rw [← hfe] at hsend
    have hown := (hlocal hq).own _ _ (hgets hq hsend) hopen rfl
    rwa [createRbDelivery, show msg.take MAX_MSG_LEN = msg from openFrame_body hopen] at hown
  · obtain ⟨z, hz, y, hs⟩ := said_by_left h hA hnotified hp hM hf
    obtain ⟨m, hm, hid⟩ := (hlocal hq).known z _ _ (hgets hz ((hlocal hz).to_all y _ hs q hrank)) hopen hqo
    obtain ⟨⟨x', M', hM', hf'⟩, hdel⟩ := (hlocal hq).saved _ m hm
    obtain ⟨-, rfl, rfl⟩ := (Fields.mk.injEq ..).mp (rb_frame_unique h hM' hf' hM hf hid)
    exact hdel

end Oracle

section Correct

variable {evs : List RbNodeStep} {s : RbNodeState}

theorem relaysAmong_empty (s : RbNodeState) (e : RbNodeStep) : RelaysAmong ∅ s e := by
  match e with
  | .act p r (.deliver q (.data m)) stop => exact fun hp => (Finset.notMem_empty p hp).elim
  | .act p r (.deliver q (.control m)) stop => trivial
  | .act p r (.call i) stop => trivial
  | .act p r (.forge q m) stop => trivial
  | .crash p => trivial

theorem RbHosted.indications_eq {t : RbState} (h : RbHosted s t) (p : ℤ) :
    indications (t.proc p).effects = indications (s.proc p).effects := by
  rw [h.effects, indications_dataEffects]

theorem rbNode_safety (h : Run (rbNodeSystem n) (RbNodeFair n) evs s) : RbNodeSafety s := by
  obtain ⟨evs', t, ht, hs⟩ := (rbNode_simulation (n := n) (A := ∅)).run
    (h.weaken fun s e hok => ⟨hok, relaysAmong_empty s e⟩)
  refine ⟨fun p => ?_, fun p d hd => ?_, fun p q msg hmsg => ?_⟩
  · have honce := rb_delivers_once (rb_unguarded ht) p
    rwa [hs.indications_eq] at honce
  · rw [← hs.indications_eq] at hd
    exact (hs.asked _ _).mp (rb_created ht hd)
  · have hsent : .send q msg ∈ (t.proc p).effects := by
      rw [hs.effects]
      exact send_mem_dataEffects.mpr hmsg
    have howed := rb_owed ht hsent
    rcases howed with ⟨e, he, hm⟩ | ⟨d, hd, hc, hm⟩
    · exact .inl ⟨e, (hs.asked _ _).mp he, hm⟩
    · refine .inr ⟨d, ?_, (hs.crashed _).symm.trans hc, hm⟩
      rwa [hs.indications_eq] at hd

/-- Process 1 of three crashes when it has sent its message to itself and to 2, who delivers it. -/
def halfSent : List RbNodeStep :=
  [.act 1 () (.call (.broadcast ⟨['a'], ['u']⟩)) (some 2), .act 2 () (.deliver 1 (.data (bcFrame ⟨1, ['u'], ['a']⟩))) none]

/-- Both of the others end a period, exchange heartbeats and end another one, and 2 passes the message on. -/
def passedOn : List RbNodeStep :=
  let beat (p q : ℤ) : RbNodeStep := .act q () (.deliver p (.control HB_CODE)) none
  let reply (p q : ℤ) : RbNodeStep := .act q () (.deliver p (.control IA_CODE)) none
  let timeouts : List RbNodeStep := [.act 2 () (.call .timeout) none, .act 3 () (.call .timeout) none]
  let got (q : ℤ) : RbNodeStep := .act q () (.deliver 2 (.data (bcFrame ⟨1, ['u'], ['a']⟩))) none
  timeouts ++ [beat 2 3, reply 3 2, beat 3 2, reply 2 3] ++ timeouts ++ [got 2, got 3]

theorem passedOn_safe : ∃ s, Run (rbNodeSystem 3) (RbNodeFair 3) (halfSent ++ passedOn) s ∧
    (Effect.send 3 (RbMessage.data (bcFrame ⟨1, ['u'], ['a']⟩)) : Effect RbMessage Indication) ∈ (s.proc 2).effects ∧
    RbNodeSafety s := by
  obtain ⟨s, h, hs⟩ : ∃ s, Run (rbNodeSystem 3) (RbNodeFair 3) (halfSent ++ passedOn) s ∧
      decide ((Effect.send 3 (RbMessage.data (bcFrame ⟨1, ['u'], ['a']⟩)) : Effect RbMessage Indication) ∈
        (s.proc 2).effects) = true :=
    exists_run_of_exec (fun s : RbNodeState => decide
      ((Effect.send 3 (RbMessage.data (bcFrame ⟨1, ['u'], ['a']⟩)) : Effect RbMessage Indication) ∈
        (s.proc 2).effects)) (by decide +kernel)
  exact ⟨s, h, of_decide_eq_true hs, rbNode_safety h⟩

theorem rbNode_agreement {pre post : List RbNodeStep} {s₀ : RbNodeState}
    (h₀ : Run (rbNodeSystem n) (fun s e => RbNodeFair n s e ∧ RelaysAmong A s e) pre s₀)
    (h : Run (rbNodeSystem n) (fun s e => RbNodeFair n s e ∧ RelaysAmong A s e) (pre ++ post) s)
    (hA : A = uncrashed n s) : RbNodeAgreement n s₀ post s := by
  obtain ⟨evs', t, ht, hs⟩ := rbNode_simulation.run h
  have hAt : A = uncrashed n t := by
    rw [hA]
    exact Finset.filter_congr fun p _ => by rw [hs.crashed]
  intro hquiet hsilent htwo
  rw [← hA] at hquiet hsilent htwo ⊢
  rw [← hs.flight] at hquiet
  have hnotified : ∀ p ∈ A, ∀ q ∈ peers n \ A, notified t p q = true := by
    intro p hp q hq
    obtain ⟨hqn, hqA⟩ := Finset.mem_sdiff.mp hq
    have hfaulty := faulty_of_silent (rbNode_hosts n) endsControl_iff rfl rfl h₀ h hqn
      (fun heq => hqA (heq ▸ hp)) (hsilent p hp q hq) (htwo p hp)
    exact decide_eq_true ((hs.notified p (mem_uncrashed.mp (hA ▸ hp)).2 q).mpr hfaulty)
  intro p hp q hq d
  rw [← hs.indications_eq, ← hs.indications_eq]
  exact ⟨rb_reaches ht hAt hquiet hnotified hp hq, rb_reaches ht hAt hquiet hnotified hq hp⟩

theorem passedOn_agreement : ∃ s₀ s,
    Run (rbNodeSystem 3) (fun s e => RbNodeFair 3 s e ∧ RelaysAmong {2, 3} s e) halfSent s₀ ∧
    Run (rbNodeSystem 3) (fun s e => RbNodeFair 3 s e ∧ RelaysAmong {2, 3} s e) (halfSent ++ passedOn) s ∧
    Silent s₀ 2 1 ∧ Silent s₀ 3 1 ∧ indications (s₀.proc 3).effects = [] ∧
    indications (s.proc 3).effects = [⟨['u'], ⟨['a'], 1⟩⟩] ∧ RbNodeAgreement 3 s₀ passedOn s := by
  obtain ⟨s₀, h₀, hs₀⟩ : ∃ s₀,
      Run (rbNodeSystem 3) (fun s e => RbNodeFair 3 s e ∧ RelaysAmong {2, 3} s e) halfSent s₀ ∧
      (indications (s₀.proc 3).effects, decide (Silent s₀ 2 1 ∧ Silent s₀ 3 1)) = ([], true) :=
    exists_run_of_exec (fun s : RbNodeState => (indications (s.proc 3).effects, decide (Silent s 2 1 ∧ Silent s 3 1)))
      (by decide +kernel)
  obtain ⟨s, h, hs⟩ : ∃ s, Run (rbNodeSystem 3) (fun s e => RbNodeFair 3 s e ∧ RelaysAmong {2, 3} s e)
      (halfSent ++ passedOn) s ∧
      (indications (s.proc 3).effects, decide ({2, 3} = uncrashed 3 s)) = ([⟨['u'], ⟨['a'], 1⟩⟩], true) :=
    exists_run_of_exec (fun s : RbNodeState => (indications (s.proc 3).effects, decide ({2, 3} = uncrashed 3 s)))
      (by decide +kernel)
  obtain ⟨hnone, hsilent⟩ := Prod.mk.inj hs₀
  obtain ⟨hone, hA⟩ := Prod.mk.inj hs
  obtain ⟨h2, h3⟩ := of_decide_eq_true hsilent
  exact ⟨s₀, s, h₀, h, h2, h3, hnone, hone, rbNode_agreement h₀ h (of_decide_eq_true hA)⟩

end Correct

end DSA
