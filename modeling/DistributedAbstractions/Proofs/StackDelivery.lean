import DistributedAbstractions.Lib.Quiesce
import DistributedAbstractions.Proofs.StackRefinement
import Mathlib.Order.Filter.Finite

/-! Reliable delivery over channels that lose datagrams: what a process sends stays in its outbox and is
sent again, until a copy arrives and raises the callback. -/

namespace DSA

open CLib Filter Inbox Net Trans

variable {ρ σ ι ω : Type} {P : Protocol ρ σ ι CString ω} {w : Socket} {n : ℕ}
  {ok : State σ ι CString ω → Event ρ ι CString → Prop} {s s' : Stack σ ι ω}

/-- Histories are only ever extended. -/
structure Stack.Grows (s s' : Stack σ ι ω) : Prop where
  sent : s.sent <+: s'.sent
  inputs : ∀ p, (s.proc p).inputs <+: (s'.proc p).inputs
  effects : ∀ p, (s.proc p).effects <+: (s'.proc p).effects
  delivered : ∀ q, (s.link q).delivered <+: (s'.link q).delivered

namespace Stack.Grows

theorem refl (s : Stack σ ι ω) : Grows s s :=
  ⟨List.prefix_refl _, fun _ => List.prefix_refl _, fun _ => List.prefix_refl _, fun _ => List.prefix_refl _⟩

theorem trans {a b c : Stack σ ι ω} (h : Grows a b) (h' : Grows b c) : Grows a c :=
  ⟨h.sent.trans h'.sent, fun p => (h.inputs p).trans (h'.inputs p),
    fun p => (h.effects p).trans (h'.effects p), fun q => (h.delivered q).trans (h'.delivered q)⟩

theorem handle (s : Stack σ ι ω) (p : ℤ) (r : ρ) (a : Arrival ι CString) (ids : List CString)
    (stop : Option ℕ) : Grows s (s.handle P w p r a ids stop) := by
  refine ⟨List.prefix_append _ _, fun q => ?_, fun q => ?_, fun _ => List.prefix_refl _⟩
  · by_cases hq : q = p
    · subst hq; simp [Stack.handle]
    · simp [Stack.handle, hq]
  · by_cases hq : q = p
    · subst hq; simp [Stack.handle]
    · simp [Stack.handle, hq]

theorem accept (s : Stack σ ι ω) (c : PlCall) : Grows s (s.accept c) := by
  refine ⟨List.prefix_refl _, fun _ => List.prefix_refl _, fun _ => List.prefix_refl _, fun q => ?_⟩
  rw [accept_link]
  split_ifs with hq
  · subst hq
    exact List.prefix_append _ _
  · exact List.prefix_refl _

theorem setCrashed (s : Stack σ ι ω) (p : ℤ) (b : Bool) : Grows s (s.setCrashed p b) := by
  refine ⟨List.prefix_refl _, fun q => ?_, fun q => ?_, fun _ => List.prefix_refl _⟩
  · by_cases hq : q = p
    · subst hq; simp [Stack.setCrashed]
    · simp [Stack.setCrashed, hq]
  · by_cases hq : q = p
    · subst hq; simp [Stack.setCrashed]
    · simp [Stack.setCrashed, hq]

end Stack.Grows

theorem StackStep.grows {e : StackEvent ρ ι} (h : StackStep P ok w n s e s') : Stack.Grows s s' := by
  cases h with
  | call hp hok => exact .handle ..
  | arrive hp hc hx hnew hok => exact .trans (.accept ..) (.handle ..)
  | again hp hc hx hdup => exact .refl _
  | @timeout p stop hp hok =>
    have h := Stack.Grows.setCrashed s p stop.isSome
    exact ⟨h.sent, h.inputs, h.effects, h.delivered⟩
  | crash hp hok => exact .setCrashed ..

theorem StackStep.crashed {e : StackEvent ρ ι} (h : StackStep P ok w n s e s') {p : ℤ}
    (hp : (s.proc p).crashed = true) : (s'.proc p).crashed = true := by
  have hne : ∀ {q}, s.up n q = true → p ≠ q := by
    rintro q hq rfl
    rw [(up_iff.mp hq).2.1] at hp
    cases hp
  cases h with
  | call hq | arrive hq => exact (congrArg Proc.crashed (Function.update_of_ne (hne hq) _ _)).trans hp
  | again => exact hp
  | timeout hq | crash hq => exact (congrArg Proc.crashed (Function.update_of_ne (hne hq) _ _)).trans hp

/-- Where what is sent and what has been recorded come from and go to. -/
structure StackHistory (s : Stack σ ι ω) : Prop where
  made : ∀ k, (s.sent.map PlCall.packet).count k = (packets k.src (s.proc k.src).effects).count k
  stored : ∀ c ∈ s.sent, c.sent ∈ s.sbl.outbox c.src
  keyed : ∀ q, ∀ k ∈ (s.link q).inbox, ∃ r ∈ (s.link q).delivered, plHash r.cause = k

theorem StackHistory.handle (h : StackHistory s) {p : ℤ} {r : ρ} {a : Arrival ι CString} {ids : List CString}
    {stop : Option ℕ} (hids : ids.length = (packets p (s.effects P p r a stop)).length) :
    StackHistory (s.handle P w p r a ids stop) := by
  refine ⟨fun k => ?_, fun c hc => ?_, h.keyed⟩
  · change (List.map PlCall.packet (s.sent ++ plCalls _ ids)).count k = _
    rw [List.map_append, plCalls_packet hids, List.count_append, h.made]
    by_cases hk : k.src = p
    · subst hk
      simp [Stack.handle, packets_append]
    · rw [count_packets_ne hk]
      simp [Stack.handle, hk]
  · change c.sent ∈ (List.foldl _ s.sbl _).outbox c.src
    rw [outbox_sendAll]
    rcases List.mem_append.mp hc with hc | hc
    · exact List.mem_append_left _ (h.stored c hc)
    · rw [if_pos (plCalls_src (fun k hk => (mem_packets.mp hk).1) hc)]
      exact List.mem_append_right _ (List.mem_map_of_mem hc)

theorem StackHistory.accept (h : StackHistory s) (c : PlCall) : StackHistory (s.accept c) := by
  refine ⟨h.made, h.stored, fun q k hk => ?_⟩
  rw [accept_link] at hk ⊢
  split_ifs at hk ⊢ with hq
  · rcases List.mem_append.mp hk with hk | hk
    · obtain ⟨r, hr, hrk⟩ := h.keyed c.dst k hk
      exact ⟨r, List.mem_append_left _ hr, hrk⟩
    · exact ⟨c.raised, List.mem_append_right _ (List.mem_singleton_self _), (List.mem_singleton.mp hk).symm⟩
  · exact h.keyed q k hk

theorem StackHistory.setCrashed (h : StackHistory s) (p : ℤ) (b : Bool) : StackHistory (s.setCrashed p b) := by
  refine ⟨fun k => (h.made k).trans ?_, h.stored, h.keyed⟩
  by_cases hk : k.src = p
  · subst hk
    simp [Stack.setCrashed]
  · simp [Stack.setCrashed, hk]

theorem StackHistory.step (h : StackHistory s) {e : StackEvent ρ ι} (hs : StackStep P ok w n s e s') :
    StackHistory s' := by
  cases hs with
  | call hp hok => exact h.handle hok.2.1.1
  | arrive hp hc hx hnew hok => exact (h.accept _).handle hok.2.1.1
  | again hp hc hx hdup => exact h
  | @timeout p stop hp hok =>
    have h' := h.setCrashed p stop.isSome
    exact ⟨h'.made, h'.stored, h'.keyed⟩
  | crash hp hok => exact h.setCrashed _ _

theorem stack_history (hn : n ≤ INT_MAX) {evs : List (StackEvent ρ ι)}
    (h : Run (stackSystem P w n) (StackFair P ok Fitting) evs s) : StackHistory s := by
  refine h.state_invariant ⟨fun _ => rfl, fun _ hc => (List.not_mem_nil hc).elim,
    fun _ _ hk => (List.not_mem_nil hk).elim⟩ fun _ _ _ _ hr ih hok hnext => ?_
  exact ih.step (stackStep_of_next (stack_traffic hn hr) hn hok hnext)

section Path

variable {A : Finset ℤ} {π : Path (stackSystem P w n) (StackFair P ok Fitting)}

variable (hn : n ≤ INT_MAX)
include hn

theorem path_traffic (i : ℕ) : StackTraffic w n (π.state i) := by
  obtain ⟨evs, hr⟩ := π.exists_run i
  exact stack_traffic hn hr

theorem path_history (i : ℕ) : StackHistory (π.state i) := by
  obtain ⟨evs, hr⟩ := π.exists_run i
  exact stack_history hn hr

theorem path_grows {i j : ℕ} (hij : i ≤ j) : (π.state i).Grows (π.state j) :=
  π.rel .refl (fun _ _ _ => .trans)
    (fun _ _ _ _ hr hok hnext => (stackStep_of_next (stack_traffic hn hr) hn hok hnext).grows) hij

theorem path_crashed {i j : ℕ} (hij : i ≤ j) {p : ℤ} (hp : ((π.state i).proc p).crashed = true) :
    ((π.state j).proc p).crashed = true := by
  have hkept := π.rel (R := fun s s' : Stack σ ι ω => (s.proc p).crashed = true → (s'.proc p).crashed = true)
    (fun _ h => h) (fun _ _ _ hab hbc h => hbc (hab h))
    (fun _ _ _ _ hr hok hnext => (stackStep_of_next (stack_traffic hn hr) hn hok hnext).crashed) hij
  exact hkept hp

variable (hlive : StackLive A π)
include hlive

/-- The outbox is emptied onto the channel again and again. -/
theorem resent {c : PlCall} {i : ℕ} (hc : c ∈ (π.state i).sent) (hsrc : c.src ∈ A) :
    ∃ᶠ j in atTop, (π.state j).sbl.air.count (w.datagram c.src c.sent) <
      (π.state (j + 1)).sbl.air.count (w.datagram c.src c.sent) := by
  refine ((hlive.timer _ hsrc).and_eventually (eventually_ge_atTop i)).mono fun j ⟨hj, hij⟩ => ?_
  obtain ⟨-, hnext⟩ := π.of_event hj
  obtain ⟨-, hs⟩ := Option.ite_none_right_eq_some.mp hnext
  rw [← Option.some.inj hs]
  have hstored := (path_history hn j).stored c ((path_grows hn hij).sent.subset hc)
  have hpos : 0 < (((π.state j).sbl.outbox c.src).map (w.datagram c.src)).count (w.datagram c.src c.sent) :=
    List.count_pos_iff.mpr (List.mem_map_of_mem hstored)
  change _ < ((π.state j).sbl.air ++ ((π.state j).sbl.outbox c.src).map (w.datagram c.src)).count _
  rw [List.count_append]
  omega

theorem raised_of_sent {c : PlCall} {i : ℕ} (hc : c ∈ (π.state i).sent) (hsrc : c.src ∈ A) (hdst : c.dst ∈ A) :
    ∃ j, c.raised ∈ ((π.state j).link c.dst).delivered := by
  have harrives := hlive.channel (w.datagram c.src c.sent) hdst (resent hn hlive hc hsrc)
  obtain ⟨j, ⟨x, r, ids, stop, hj, hx⟩, hij⟩ := (harrives.and_eventually (eventually_ge_atTop i)).exists
  obtain ⟨hfair, hnext⟩ := π.of_event hj
  have ht := path_traffic (π := π) hn j
  have hc' : c ∈ (π.state j).sent := (path_grows hn hij).sent.subset hc
  by_cases hdup : plHash c.raised.cause ∈ ((π.state j).link c.dst).inbox
  · -- its hash has been recorded for a call, which can only be this one
    obtain ⟨r, hr, hhash⟩ := (path_history (π := π) hn j).keyed _ _ hdup
    obtain ⟨c', hc'', hq, rfl⟩ := ht.origin _ r hr
    obtain rfl := hlive.distinct j c' hc'' c hc' hq hhash
    exact ⟨j, hr⟩
  · refine ⟨j + 1, ?_⟩
    obtain ⟨-, hs⟩ := Option.ite_none_right_eq_some.mp hnext
    change some (Stack.arrive P w (π.state j) c.dst x r ids stop) = some (π.state (j + 1)) at hs
    rw [← Option.some.inj hs, ht.arrive_eq hn hc' hx hfair.1, if_neg hdup]
    change _ ∈ (((π.state j).accept c).link c.dst).delivered
    rw [accept_link, if_pos rfl]
    exact List.mem_append_right _ (List.mem_singleton_self _)

/-- Of what was on its way to a process of `A` from one of them, nothing is left in the end. -/
theorem pending_bound {p q : ℤ} (hp : p ∈ A) (hq : q ∈ A) (m : CString) (i : ℕ) : ∀ᶠ j in atTop,
    ((π.state j).pending.map PlCall.packet).count ⟨p, q, m⟩ + ((π.state i).sent.map PlCall.packet).count ⟨p, q, m⟩ ≤
      ((π.state j).sent.map PlCall.packet).count ⟨p, q, m⟩ := by
  have hall : ∀ᶠ j in atTop, ∀ c ∈ {c | c ∈ (π.state i).sent}, c.packet = ⟨p, q, m⟩ →
      c.raised ∈ ((π.state j).link c.dst).delivered := by
    refine (eventually_all_finite (List.finite_toSet _)).mpr fun c hc => ?_
    by_cases hk : c.packet = ⟨p, q, m⟩
    · obtain ⟨hsrc, hdst, -⟩ := (Packet.mk.injEq ..).mp hk
      obtain ⟨j, hj⟩ := raised_of_sent hn hlive hc (hsrc ▸ hp) (hdst ▸ hq)
      filter_upwards [eventually_ge_atTop j] with j' hjj' _
      exact ((path_grows hn hjj').delivered _).subset hj
    · exact .of_forall fun _ h => absurd h hk
  filter_upwards [hall, eventually_ge_atTop i] with j hdel hij
  obtain ⟨rest, hrest⟩ := (path_grows (π := π) hn hij).sent
  unfold Stack.pending
  rw [← hrest, List.filter_append, List.map_append, List.map_append, List.count_append, List.count_append]
  have hnone : (((π.state i).sent.filter fun c => decide (c.raised ∉ ((π.state j).link c.dst).delivered)).map
      PlCall.packet).count ⟨p, q, m⟩ = 0 := by
    refine List.count_eq_zero.mpr fun hk => ?_
    obtain ⟨c, hc, hk⟩ := List.mem_map.mp hk
    obtain ⟨hc, hnot⟩ := List.mem_filter.mp hc
    exact of_decide_eq_true hnot (hdel c hc hk)
  have hle := ((List.filter_sublist (l := rest) (p := fun c =>
    decide (c.raised ∉ ((π.state j).link c.dst).delivered))).map PlCall.packet).count_le ⟨p, q, m⟩
  omega

theorem count_received [DecidableEq ω] [DecidableEq ι] (hproc : ByProc ok) {p q : ℤ} (hp : p ∈ A) (hq : q ∈ A)
    (m : CString) (i : ℕ) : ∀ᶠ j in atTop,
      ((π.state i).proc p).effects.count (.send q m) ≤ ((π.state j).proc q).inputs.count (.receive p m) := by
  filter_upwards [pending_bound hn hlive hp hq m i] with j hj
  obtain ⟨evs, hr⟩ := π.exists_run j
  obtain ⟨evs', t, ht, hshow⟩ := (stack_simulation hn hproc).run hr
  have hsent := sent_count ht ⟨p, q, m⟩
  have hin := count_inputs rfl rfl ht ⟨p, q, m⟩
  have hi := (path_history (π := π) hn i).made ⟨p, q, m⟩
  have hj' := (path_history (π := π) hn j).made ⟨p, q, m⟩
  simp only [hshow.proc_eq, hshow.flight_perm.count_eq, count_packets] at hsent hin hi hj'
  omega

/-- Between processes that stay up each message arrives, in the end as often as it has been sent. -/
theorem stack_delivers [DecidableEq ω] [DecidableEq ι] (hproc : ByProc ok) {p q : ℤ} (hp : p ∈ A) (hq : q ∈ A)
    (m : CString) : (∀ i, ∀ᶠ j in atTop,
      ((π.state i).proc p).effects.count (.send q m) ≤ ((π.state j).proc q).inputs.count (.receive p m)) ∧
    ∀ j, ((π.state j).proc q).inputs.count (.receive p m) ≤ ((π.state j).proc p).effects.count (.send q m) := by
  refine ⟨count_received hn hlive hproc hp hq m, fun j => ?_⟩
  obtain ⟨evs, hr⟩ := π.exists_run j
  obtain ⟨evs', t, ht, hshow⟩ := (stack_simulation hn hproc).run hr
  rw [← hshow.proc_eq]
  exact count_inputs_le rfl rfl ht q p m

end Path

section Rest

variable {A : Finset ℤ} {cs : List PlCall}

/-- All that has been sent to a process of `A` is on the channel and has been recorded, under hashes of its own. -/
def Arrived (w : Socket) (n : ℕ) (A : Finset ℤ) (s : Stack σ ι ω) : Prop :=
  (∀ p ∈ A, s.up n p = true) ∧
    (∀ c ∈ s.sent, c.dst ∈ A →
      plHash c.raised.cause ∈ (s.link c.dst).inbox ∧ w.datagram c.src c.sent ∈ s.sbl.air) ∧
    ∀ c ∈ s.sent, ∀ c' ∈ s.sent, c.dst = c'.dst → plHash c.raised.cause = plHash c'.raised.cause → c = c'

instance (w : Socket) (n : ℕ) (A : Finset ℤ) (s : Stack σ ι ω) : Decidable (Arrived w n A s) :=
  inferInstanceAs (Decidable (_ ∧ _ ∧ _))

/-- So it has, and nothing but `cs` has been sent. -/
structure Rested (w : Socket) (n : ℕ) (A : Finset ℤ) (cs : List PlCall) (s : Stack σ ι ω) : Prop where
  traffic : StackTraffic w n s
  arrived : Arrived w n A s
  sent : s.sent = cs

/-- A copy of the message of `c`, with nothing behind it. -/
def PlCall.copy (w : Socket) (c : PlCall) : Received := ⟨(w.datagram c.src c.sent).bytes, [], [], []⟩

/-- The timers of `A` go off, and one more copy arrives of each message. -/
def restTurns (ι : Type) (w : Socket) (n : ℕ) (A : Finset ℤ) (cs : List PlCall) : List (StackEvent Unit ι) :=
  ((ranks n).filter (· ∈ A)).map (.timeout · none) ++
    (cs.filter (·.dst ∈ A)).map fun c => .arrive c.dst (c.copy w) () [] none

theorem timeout_mem_restTurns {p : ℤ} : .timeout p none ∈ restTurns ι w n A cs ↔ p ∈ peers n ∧ p ∈ A := by
  simp [restTurns]

theorem arrive_mem_restTurns {c : PlCall} (hc : c ∈ cs) (hdst : c.dst ∈ A) :
    .arrive c.dst (c.copy w) () [] none ∈ restTurns ι w n A cs :=
  List.mem_append_right _ (List.mem_map.mpr ⟨c, List.mem_filter.mpr ⟨hc, decide_eq_true hdst⟩, rfl⟩)

theorem up_timeout {p q : ℤ} (hp : s.up n p = true) : (s.timeout w p none).up n q = s.up n q := by
  have hproc : (s.timeout w p none).proc = s.proc := setCrashed_false (up_iff.mp hp).2.1
  unfold Stack.up
  rw [hproc]
  rfl

variable {P : Protocol Unit σ ι CString ω} {ok : State σ ι CString ω → Event Unit ι CString → Prop}

theorem Rested.next (hn : n ≤ INT_MAX) (h : Rested w n A cs s) {e : StackEvent Unit ι}
    (he : e ∈ restTurns ι w n A cs) :
    ∃ s', StackFair P ok Fitting s e ∧ stackNext P w n s e = some s' ∧ Rested w n A cs s' := by
  obtain ⟨ht, ⟨hup, hall, hdistinct⟩, rfl⟩ := h
  rcases List.mem_append.mp he with he | he
  · obtain ⟨p, hp, rfl⟩ := List.mem_map.mp he
    have hpA := hup p (of_decide_eq_true (List.mem_filter.mp hp).2)
    refine ⟨s.timeout w p none, fun hne => absurd rfl hne, if_pos hpA, ht.timeout p none, ⟨fun q hq => ?_, ?_, ?_⟩, rfl⟩
    · rw [up_timeout hpA]
      exact hup q hq
    · exact fun c hc hdst => ⟨(hall c hc hdst).1, List.mem_append_left _ (hall c hc hdst).2⟩
    · exact hdistinct
  · obtain ⟨c, hc, rfl⟩ := List.mem_map.mp he
    obtain ⟨hc, hdst⟩ := List.mem_filter.mp hc
    obtain ⟨hseen, hair⟩ := hall c hc (of_decide_eq_true hdst)
    have hcopy := ht.consume_copy (x := c.copy w) hn hc rfl (by simp [PlCall.copy])
    rw [if_pos hseen] at hcopy
    refine ⟨s, ⟨by simp [PlCall.copy], fun e he => ?_⟩, ?_, ht, ⟨hup, hall, hdistinct⟩, rfl⟩
    · rw [hcopy] at he
      cases he
    · rw [stackNext_arrive (x := c.copy w) (hup _ (of_decide_eq_true hdst)) hair, Stack.arrive, hcopy]

/-- A run after which all has arrived goes on for ever, with one copy after the other. -/
theorem exists_live_path (hn : n ≤ INT_MAX) (hA : A.Nonempty) {evs : List (StackEvent Unit ι)}
    (hr : Run (stackSystem P w n) (StackFair P ok Fitting) evs s) (hs : Arrived w n A s) :
    ∃ π : Path (stackSystem P w n) (StackFair P ok Fitting), π.state evs.length = s ∧ StackLive A π := by
  have hpeers : ∀ p ∈ A, p ∈ peers n := fun p hp => (up_iff.mp (hs.1 p hp)).1
  have hmem : ∀ p ∈ A, .timeout p none ∈ restTurns ι w n A s.sent := fun p hp =>
    timeout_mem_restTurns.mpr ⟨hpeers p hp, hp⟩
  obtain ⟨p₀, hp₀⟩ := hA
  obtain ⟨π, hlast, htail, hturns⟩ := hr.exists_path_inTurn (List.length_pos_of_mem (hmem p₀ hp₀))
    (⟨stack_traffic hn hr, hs, rfl⟩ : Rested w n A s.sent s) fun s' h e he => h.next hn he
  have hsent : ∀ i, ∀ c ∈ (π.state i).sent, c ∈ s.sent := by
    intro i c hc
    have hgrows := (path_grows (π := π) hn (le_max_right evs.length i)).sent
    exact (htail _ (le_max_left _ i)).1.sent ▸ hgrows.subset hc
  refine ⟨π, hlast, hpeers, fun i p hp => ?_, fun p hp => hturns _ (hmem p hp), fun d hd hput => ?_,
    fun i c hc c' hc' => hs.2.2 c (hsent i c hc) c' (hsent i c' hc')⟩
  · rw [← Bool.not_eq_true]
    intro hc
    have hdown := path_crashed (π := π) hn (le_max_right evs.length i) hc
    rw [(up_iff.mp ((htail _ (le_max_left _ i)).1.arrived.1 p hp)).2.1] at hdown
    cases hdown
  · -- what is put on the channel is a copy of something that has been sent
    obtain ⟨i, hput, hi⟩ := (hput.and_eventually (eventually_ge_atTop evs.length)).exists
    obtain ⟨hrest, e, he, hev⟩ := htail i hi
    have hair : d ∈ (π.state (i + 1)).sbl.air := List.count_pos_iff.mp (Nat.zero_lt_of_lt hput)
    obtain ⟨c, hc, hdst, hbytes⟩ := (htail (i + 1) (by omega)).1.traffic.exists_copy (x := ⟨d.bytes, [], [], []⟩) hair
    have hcopy : w.datagram c.src c.sent = d := (Datagram.mk.injEq ..).mpr ⟨hdst, hbytes.symm⟩
    have hagain := hturns _ (arrive_mem_restTurns (w := w) (hsent _ c hc) (hdst ▸ hd))
    refine hagain.mono fun j hj => ⟨c.copy w, (), [], none, ?_, congrArg Datagram.bytes hcopy⟩
    rw [hj, hdst]

end Rest

section Witness

/-- Process 1 of three crashes when it has sent `hi` to process 2, which passes it on. -/
def lastWords : List (StackEvent Unit Broadcast) :=
  [.call 1 () ⟨['h', 'i'], uuidOf 'a'⟩ [uuidOf 'b', uuidOf 'c'] (some 2),
    hiArrives 1 2 'c' [uuidOf 'd', uuidOf 'e', uuidOf 'f'], hiArrives 2 2 'e' [], .timeout 2 none,
    hiArrives 2 3 'f' [uuidOf 'g', uuidOf 'h', uuidOf 'i'], hiArrives 3 2 'h' [], hiArrives 3 3 'i' []]

theorem exists_lastWords : ∃ π : Path (urbStack plainSocket 3) (StackFair (urbProtocol 3) (SendsAsked some 3) Fitting),
    indications ((π.state 7).proc 2).effects = [⟨uuidOf 'a', ⟨['h', 'i'], 1⟩⟩] ∧
      ((π.state 7).proc 1).crashed = true ∧ StackLive {2, 3} π := by
  obtain ⟨s, hrun, hs⟩ : ∃ s, Run (urbStack plainSocket 3) (StackFair (urbProtocol 3) (SendsAsked some 3) Fitting)
      lastWords s ∧ (indications (s.proc 2).effects, (s.proc 1).crashed, decide (Arrived plainSocket 3 {2, 3} s)) =
        ([⟨uuidOf 'a', ⟨['h', 'i'], 1⟩⟩], true, true) :=
    exists_run_of_exec (fun s : UrbStack => (indications (s.proc 2).effects, (s.proc 1).crashed,
      decide (Arrived plainSocket 3 {2, 3} s))) (by decide +kernel)
  obtain ⟨hind, hs⟩ := Prod.mk.inj hs
  obtain ⟨hdown, harrived⟩ := Prod.mk.inj hs
  obtain ⟨π, hlast, hlive⟩ := exists_live_path (by decide) (by decide) hrun (of_decide_eq_true harrived)
  change π.state 7 = s at hlast
  exact ⟨π, by rw [hlast, hind], by rw [hlast, hdown], hlive⟩

theorem lastWords_delivers :
    ∃ π : Path (urbStack plainSocket 3) (StackFair (urbProtocol 3) (SendsAsked some 3) Fitting),
      ((π.state 7).proc 1).crashed = true ∧
      (∀ i, ∀ᶠ j in atTop, ((π.state i).proc 2).effects.count (.send 3 (hiCall 2 3 'f').msg) ≤
        ((π.state j).proc 3).inputs.count (.receive 2 (hiCall 2 3 'f').msg)) ∧
      ∀ j, ((π.state j).proc 3).inputs.count (.receive 2 (hiCall 2 3 'f').msg) ≤
        ((π.state j).proc 2).effects.count (.send 3 (hiCall 2 3 'f').msg) := by
  obtain ⟨π, -, hdown, hlive⟩ := exists_lastWords
  exact ⟨π, hdown, stack_delivers (by decide) hlive byProc_sendsAsked (by decide) (by decide) _⟩

end Witness

end DSA
