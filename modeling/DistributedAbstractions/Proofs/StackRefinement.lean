import DistributedAbstractions.Lib.Simulation
import DistributedAbstractions.Proofs.StackTraffic
import DistributedAbstractions.Spec.BroadcastStack

/-! A protocol over its stack runs as it would over channels that bring every message once: repeated
datagrams and retransmissions are steps that the protocol does not see. -/

namespace DSA

open CLib Inbox Net Trans

variable {ρ σ ι ω : Type} {P : Protocol ρ σ ι CString ω} {w : Socket} {n : ℕ}
  {ok : State σ ι CString ω → Event ρ ι CString → Prop} {s s' : Stack σ ι ω}

/-- All that a fair step can do. -/
inductive StackStep (P : Protocol ρ σ ι CString ω) (ok : State σ ι CString ω → Event ρ ι CString → Prop)
    (w : Socket) (n : ℕ) (s : Stack σ ι ω) : StackEvent ρ ι → Stack σ ι ω → Prop
  | call {p : ℤ} {r : ρ} {i : ι} {ids : List CString} {stop : Option ℕ} (hp : s.up n p = true)
      (hok : s.Admits P ok Fitting p r (.call i) ids stop) :
      StackStep P ok w n s (.call p r i ids stop) (s.handle P w p r (.call i) ids stop)
  | arrive {c : PlCall} {x : Received} {r : ρ} {ids : List CString} {stop : Option ℕ}
      (hp : s.up n c.dst = true) (hc : c ∈ s.sent) (hx : x.bytes = (w.datagram c.src c.sent).bytes)
      (hnew : plHash c.raised.cause ∉ (s.link c.dst).inbox)
      (hok : s.Admits P ok Fitting c.dst r (.deliver c.src c.msg) ids stop) :
      StackStep P ok w n s (.arrive c.dst x r ids stop)
        ((s.accept c).handle P w c.dst r (.deliver c.src c.msg) ids stop)
  | again {c : PlCall} {x : Received} {r : ρ} {ids : List CString} {stop : Option ℕ}
      (hp : s.up n c.dst = true) (hc : c ∈ s.sent) (hx : x.bytes = (w.datagram c.src c.sent).bytes)
      (hdup : plHash c.raised.cause ∈ (s.link c.dst).inbox) :
      StackStep P ok w n s (.arrive c.dst x r ids stop) s
  | timeout {p : ℤ} {stop : Option ℕ} (hp : s.up n p = true) (hok : stop ≠ none → ok s.view (.crash p)) :
      StackStep P ok w n s (.timeout p stop) (s.timeout w p stop)
  | crash {p : ℤ} (hp : s.up n p = true) (hok : ok s.view (.crash p)) :
      StackStep P ok w n s (.crash p) (s.setCrashed p true)

theorem stackStep_of_next (ht : StackTraffic w n s) (hn : n ≤ INT_MAX) {e : StackEvent ρ ι}
    (hok : StackFair P ok Fitting s e) (h : stackNext P w n s e = some s') : StackStep P ok w n s e s' := by
  cases e with
  | call p r i ids stop =>
    obtain ⟨hp, hs⟩ := Option.ite_none_right_eq_some.mp h
    obtain rfl := Option.some.inj hs
    exact .call hp hok
  | arrive q x r ids stop =>
    obtain ⟨hp, hs⟩ := Option.ite_none_right_eq_some.mp h
    obtain rfl := Option.some.inj hs
    rw [Bool.and_eq_true, decide_eq_true_eq] at hp
    obtain ⟨c, hc, rfl, hx⟩ := ht.exists_copy hp.2
    have hadm := hok.2
    rw [ht.consume_copy hn hc hx hok.1] at hadm
    rw [ht.arrive_eq hn hc hx hok.1]
    split_ifs at hadm ⊢ with hdup
    · exact .again hp.1 hc hx hdup
    · exact .arrive hp.1 hc hx hdup (hadm _ rfl)
  | timeout p stop =>
    obtain ⟨hp, hs⟩ := Option.ite_none_right_eq_some.mp h
    obtain rfl := Option.some.inj hs
    exact .timeout hp hok
  | crash p =>
    obtain ⟨hp, hs⟩ := Option.ite_none_right_eq_some.mp h
    obtain rfl := Option.some.inj hs
    exact .crash hp hok

theorem up_iff {p : ℤ} : s.up n p = true ↔
    p ∈ peers n ∧ (s.proc p).crashed = false ∧ (s.link p).running = true := by
  simp [Stack.up, and_assoc]

theorem stackNext_arrive {q : ℤ} {x : Received} (hq : s.up n q = true) (hair : ⟨q, x.bytes⟩ ∈ s.sbl.air) (r : ρ)
    (ids : List CString) (stop : Option ℕ) :
    stackNext P w n s (.arrive q x r ids stop) = some (s.arrive P w q x r ids stop) := by
  rw [stackNext, hq, decide_eq_true hair]
  rfl

theorem StackTraffic.step (ht : StackTraffic w n s) {e : StackEvent ρ ι} (h : StackStep P ok w n s e s') :
    StackTraffic w n s' := by
  cases h with
  | call hp hok => exact ht.handle (up_iff.mp hp).1 hok.2.1 hok.2.2
  | arrive hp hc hx hnew hok => exact (ht.accept hc).handle (up_iff.mp hp).1 hok.2.1 hok.2.2
  | again hp hc hx hdup => exact ht
  | timeout hp hok => exact ht.timeout _ _
  | crash hp hok => exact ⟨ht.sound, ht.uuids, ht.stored, ht.running, ht.hashed, ht.origin⟩

theorem stack_traffic (hn : n ≤ INT_MAX) {evs : List (StackEvent ρ ι)}
    (h : Run (stackSystem P w n) (StackFair P ok Fitting) evs s) : StackTraffic w n s :=
  h.state_invariant stackTraffic_start fun _ _ _ _ _ ih hok hnext => ih.step (stackStep_of_next ih hn hok hnext)

section Pending

variable (ht : StackTraffic w n s)
include ht

theorem pending_handle {p : ℤ} {r : ρ} {a : Arrival ι CString} {ids : List CString} {stop : Option ℕ}
    (hids : Draws s.sent (packets p (s.effects P p r a stop)) ids)
    (ht' : StackTraffic w n (s.handle P w p r a ids stop)) :
    (s.handle P w p r a ids stop).pending.map PlCall.packet =
      s.pending.map PlCall.packet ++ packets p (s.effects P p r a stop) := by
  set cs := plCalls (packets p (s.effects P p r a stop)) ids with hcs
  have hall : cs.filter (fun c => decide (c.raised ∉ (s.link c.dst).delivered)) = cs := by
    refine List.filter_eq_self.mpr fun c hc => decide_eq_true fun hr => ?_
    obtain ⟨c', hc', -, heq⟩ := ht.origin c.dst _ hr
    obtain rfl := ht'.eq_of_raised (List.mem_append_left _ hc') (List.mem_append_right _ hc) heq
    have hid : c'.uuid ∈ ids := by
      rw [← plCalls_uuid hids.1]
      exact List.mem_map_of_mem hc
    exact (hids.2.2 _ hid).2 c' hc' rfl
  have hpending : (s.handle P w p r a ids stop).pending = s.pending ++ cs := by
    unfold Stack.pending Stack.handle
    rw [List.filter_append, ← hcs, hall]
  rw [hpending, List.map_append, hcs, plCalls_packet hids.1]

theorem pending_accept {c : PlCall} (hc : c ∈ s.sent)
    (hnew : plHash c.raised.cause ∉ (s.link c.dst).inbox) :
    c ∈ s.pending ∧ (s.accept c).pending = s.pending.erase c := by
  have hraised : c.raised ∉ (s.link c.dst).delivered := fun hr => hnew (ht.hashed c.dst _ hr)
  have hnodup : s.pending.Nodup := (ht.uuids.of_map _).filter _
  refine ⟨List.mem_filter.mpr ⟨hc, decide_eq_true hraised⟩, ?_⟩
  rw [hnodup.erase_eq_filter, Stack.pending, Stack.pending, List.filter_filter]
  refine List.filter_congr fun c' hc' => ?_
  rw [accept_link]
  by_cases heq : c' = c
  · subst heq
    simp [PlCall.accepted]
  · have hne : c'.raised ≠ c.raised := fun h' => heq (ht.eq_of_raised hc' hc h')
    split_ifs with hq
    · simp [PlCall.accepted, hne, heq, hq]
    · simp [heq]

end Pending

section Step

variable {t : State σ ι CString ω} {p : ℤ} {r : ρ} {a : Arrival ι CString} {ids : List CString}
  {stop : Option ℕ}

theorem shows_handle (ht : StackTraffic w n s) (hp : s.up n p = true)
    (hok : s.Admits P ok Fitting p r a ids stop) (hproc : t.proc = s.proc)
    (hflight : (t.consume p a).flight.Perm (s.pending.map PlCall.packet)) :
    Shows (s.handle P w p r a ids stop) (t.act P p r a stop) := by
  have hes : cut stop (P.handle r (t.proc p).state a.input).2 = s.effects P p r a stop := by
    rw [hproc]
    rfl
  constructor
  · unfold State.act Stack.handle
    dsimp only
    rw [hes, hproc]
  · rw [act_flight, hes, pending_handle ht hok.2.1 (ht.handle (up_iff.mp hp).1 hok.2.1 hok.2.2)]
    exact hflight.append_right _

theorem live_of_up (hp : s.up n p = true) (hproc : t.proc = s.proc) : (crashSetting n).live t p = true := by
  obtain ⟨hmem, hup, -⟩ := up_iff.mp hp
  refine live_iff.mpr ⟨correct_iff.mpr ⟨rank_iff.mpr (mem_peers.mp hmem), Finset.notMem_empty p⟩, ?_⟩
  rw [hproc]
  exact hup

theorem next_act (hp : s.up n p = true) (hproc : t.proc = s.proc)
    (ha : (crashSetting n).admits t p a = true) :
    next P (crashSetting n) t (.act p r a stop) = some (t.act P p r a stop) := by
  rw [next, live_of_up hp hproc, ha]
  simp [crashSetting]

theorem admits_of_new (ht : StackTraffic w n s) (hshow : Shows s t) {c : PlCall} (hc : c ∈ s.sent)
    (hnew : plHash c.raised.cause ∉ (s.link c.dst).inbox) :
    (crashSetting n).admits t c.dst (.deliver c.src c.msg : Arrival ι CString) = true := by
  obtain ⟨hmem, -⟩ := pending_accept ht hc hnew
  have hflight : c.packet ∈ t.flight := hshow.flight_perm.mem_iff.mpr (List.mem_map_of_mem hmem)
  rw [Setting.admits, Bool.and_eq_true]
  exact ⟨decide_eq_true hflight, decide_eq_true (ht.sound c hc).frame⟩

theorem next_crash (hp : s.up n p = true) (hproc : t.proc = s.proc) :
    next P (crashSetting n) t (.crash p) = some (t.crash p) := by
  dsimp only [next]
  rw [live_of_up hp hproc]
  rfl

theorem Shows.crash (h : Shows s t) : Shows (s.setCrashed p true) (t.crash p) := by
  constructor
  · simp only [State.crash, Stack.setCrashed, h.proc_eq]
  · exact h.flight_perm

theorem accept_up (c : PlCall) : (s.accept c).up n p = s.up n p := by
  unfold Stack.up
  rw [accept_link]
  split_ifs with hq
  · rw [hq]
    rfl
  · rfl

theorem setCrashed_false (hp : (s.proc p).crashed = false) : (s.setCrashed p false).proc = s.proc := by
  rw [Stack.setCrashed, ← hp]
  exact Function.update_eq_self p s.proc

end Step

theorem stack_simulation (hn : n ≤ INT_MAX) (hproc : ByProc ok) :
    Simulation (stackSystem P w n) (StackFair P ok Fitting) (system P (crashSetting n)) ok Shows := by
  refine .of_step ⟨rfl, List.Perm.refl _⟩ fun evs s e s' evs' t hr _ hshow hfair hnext => ?_
  have ht := stack_traffic hn hr
  have hview : ∀ e, ok s.view e → ok t e := fun e => hproc _ _ e hshow.proc_eq.symm
  cases stackStep_of_next ht hn hfair hnext with
  | call hp hok =>
    exact .inr ⟨_, _, hview _ hok.1, next_act hp hshow.proc_eq rfl,
      shows_handle ht hp hok hshow.proc_eq hshow.flight_perm⟩
  | @arrive c x r ids stop hp hc hx hnew hok =>
    obtain ⟨hmem, herase⟩ := pending_accept ht hc hnew
    refine .inr ⟨_, _, hview _ hok.1, next_act hp hshow.proc_eq (admits_of_new ht hshow hc hnew),
      shows_handle (ht.accept hc) ((accept_up c).trans hp) hok hshow.proc_eq ?_⟩
    rw [herase]
    -- which of several equal packets is taken makes no difference
    have hrest := (List.perm_cons_erase hmem).map PlCall.packet
    exact ((hshow.flight_perm.trans hrest).erase c.packet).trans (by rw [List.map_cons, List.erase_cons_head])
  | again hp hc hx hdup => exact .inl hshow
  | @timeout p stop hp hok =>
    cases stop with
    | none => exact .inl ⟨hshow.proc_eq.trans (setCrashed_false (up_iff.mp hp).2.1).symm, hshow.flight_perm⟩
    | some k =>
      exact .inr ⟨_, _, hview _ (hok (by simp)), next_crash (P := P) hp hshow.proc_eq, hshow.crash.proc_eq,
        hshow.flight_perm⟩
  | crash hp hok => exact .inr ⟨_, _, hview _ hok, next_crash (P := P) hp hshow.proc_eq, hshow.crash⟩

/-- Every run of a stack is, for the protocol, a run over channels. -/
theorem stack_refines (hn : n ≤ INT_MAX) (hproc : ByProc ok) {evs : List (StackEvent ρ ι)}
    (h : Run (stackSystem P w n) (StackFair P ok Fitting) evs s) :
    ∃ evs' t, Run (system P (crashSetting n)) ok evs' t ∧ Shows s t :=
  (stack_simulation hn hproc).run h

theorem byProc_freshIds {asked : ι → Option Broadcast} :
    ByProc (FreshIds asked n : State σ ι CString ω → Event Unit ι CString → Prop) := by
  intro t t' e hproc h
  cases e with
  | crash p => trivial
  | act p r a stop =>
    cases a with
    | deliver src m => trivial
    | forge src m => trivial
    | call i =>
      intro b hb
      rw [← hproc]
      exact h b hb

theorem byProc_sendsAsked {asked : ι → Option Broadcast} :
    ByProc (SendsAsked asked n : State σ ι CString ω → Event Unit ι CString → Prop) :=
  fun t t' e hproc h => ⟨byProc_freshIds t t' e hproc h.1, h.2⟩

section Witness

/-- A uuid of one letter. -/
def uuidOf (c : Char) : CString := List.replicate (UUID_STR_LEN - 1) c

/-- `hi` of process 1 under the uuid of `a`s, as process `p` sends it to `q` under that of `c`s. -/
def hiCall (p q : ℤ) (c : Char) : PlCall := ⟨p, q, bcFrame ⟨1, uuidOf 'a', ['h', 'i']⟩, uuidOf c⟩

def hiArrives (p q : ℤ) (c : Char) (ids : List CString) : StackEvent Unit Broadcast :=
  .arrive q ⟨(plainSocket.datagram p (hiCall p q c).sent).bytes, [], [], []⟩ () ids none

/-- Process 1 of two sends `hi`, and so again when its timer goes off. Its datagram to process 2 arrives
twice. -/
def repeatedFrames : List (StackEvent Unit Broadcast) :=
  [.call 1 () ⟨['h', 'i'], uuidOf 'a'⟩ [uuidOf 'b', uuidOf 'c'] none, .timeout 1 none,
    hiArrives 1 2 'c' [uuidOf 'd', uuidOf 'e'], hiArrives 1 2 'c' []]

theorem repeatedFrames_refined : ∃ s, Run (stackSystem (urbProtocol 2) plainSocket 2)
      (StackFair (urbProtocol 2) (FreshIds some 2) Fitting) repeatedFrames s ∧
    (s.proc 2).inputs = [.receive 1 (hiCall 1 2 'c').msg] ∧ s.sbl.air.length = 6 ∧
    ∃ evs' t, Run (system (urbProtocol 2) (crashSetting 2)) (FreshIds some 2) evs' t ∧ Shows s t := by
  obtain ⟨s, hrun, hs⟩ : ∃ s, Run (stackSystem (urbProtocol 2) plainSocket 2)
      (StackFair (urbProtocol 2) (FreshIds some 2) Fitting) repeatedFrames s ∧
      ((s.proc 2).inputs, s.sbl.air.length) = ([.receive 1 (hiCall 1 2 'c').msg], 6) :=
    exists_run_of_exec (fun s : Stack Urb Broadcast Indication => ((s.proc 2).inputs, s.sbl.air.length))
      (by decide +kernel)
  obtain ⟨h1, h2⟩ := Prod.mk.inj hs
  exact ⟨s, hrun, h1, h2, stack_refines (by decide) byProc_freshIds hrun⟩

end Witness

end DSA
