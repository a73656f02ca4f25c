import DistributedAbstractions.Lib.Simulation
import DistributedAbstractions.Proofs.OrchSteps
import DistributedAbstractions.Spec.Dispatch

/-! What the handlers of an orchestrator take from its descriptors: in each round one item from each that has
one. The invariant says what of the round that `select` has begun is over. -/

namespace DSA

open CLib Timeval Trans

section Handlers

mutual

theorem callback_eq (reads : FdSet) : (h : Handler) → h.callback reads = h.fds.filter (· ∈ reads)
  | .reader fd => by
    rw [Handler.callback, Handler.fds, List.filter_singleton]
    simp
  | .composite handlers => by
    rw [Handler.callback, Handler.fds]
    exact handlerListCb_eq reads handlers

theorem handlerListCb_eq (reads : FdSet) :
    (handlers : List Handler) → handlerListCb reads handlers = (fdsOf handlers).filter (· ∈ reads)
  | [] => rfl
  | h :: handlers => by
    rw [handlerListCb, fdsOf, List.filter_append, callback_eq reads h, handlerListCb_eq reads handlers]

end

@[simp] theorem fdsOf_nil : fdsOf [] = [] := rfl

theorem fdsOf_append (hs hs' : List Handler) : fdsOf (hs ++ hs') = fdsOf hs ++ fdsOf hs' := by
  induction hs with
  | nil => rfl
  | cons h hs ih => rw [List.cons_append, fdsOf, fdsOf, ih, List.append_assoc]

theorem fdsOf_singleton (h : Handler) : fdsOf [h] = h.fds := by rw [fdsOf, fdsOf_nil, List.append_nil]

end Handlers

namespace Dispatch

variable {ω α δ : Type} {P : Program ω α} {s s₀ s' : Dispatch ω δ} {e : DispatchEvent α δ}

/-- The handlers that have been called in this round. -/
def called (s : Dispatch ω δ) : List Handler :=
  match s.loop.phase with
  | .handling i => s.handlers.take (i + 1)
  | _ => s.handlers

/-- What the events of user code make of the descriptors that are watched. -/
def rewatch (o : Descriptors) : DispatchEvent α δ → Option Descriptors
  | .registerFd fd event => some (o.registerFd fd event)
  | .unregisterFd fd event => some (o.unregisterFd fd event)
  | .registerWatchSet ws => some (o.registerWatchSet ws)
  | .clearWatchSet ws => some (o.clearWatchSet ws)
  | _ => none

/-- What can happen. -/
inductive Turns (P : Program ω α) (s : Dispatch ω δ) : DispatchEvent α δ → Dispatch ω δ → Prop
  | arrive {fd : Fd} {x : δ} : Turns P s (.arrive fd x)
      { s with queue := Function.update s.queue fd (s.queue fd ++ [x]) }
  | watch {e : DispatchEvent α δ} {watched : Descriptors} (hu : s.loop.inUserCode = true)
      (hw : rewatch s.watched e = some watched) : Turns P s e { s with watched := watched }
  | addHandler {h : Handler} (hu : s.loop.inUserCode = true) : Turns P s (.addHandler h) { s with
      loop := { s.loop with orch := s.loop.orch.addHandler }
      handlers := s.handlers ++ [h] }
  | select {writable : Option FdSet} {timedOut : Bool} {deadline timeout t : Timeval}
      (hp : s.loop.phase = .waiting deadline timeout) (hout : timedOut = true → s.reported writable = ∅) :
      Turns P s (.select writable t) { s with
        loop := { s.loop with phase := if timedOut then .scanning t 0 else .handling 0, clock := t }
        ready := s.reported writable
        todo := if timedOut then [] else upcoming s.handlers (s.reported writable) (.handling 0) }
  | read {fd : Fd} {x : δ} {todo : List Fd} {queue : List δ} (htodo : s.todo = fd :: todo)
      (hq : s.queue fd = x :: queue) : Turns P s .read { s with
        todo := todo
        queue := Function.update s.queue fd queue
        taken := Function.update s.taken fd (s.taken fd ++ [x]) }
  | step {t : Timeval} {loop : OrchState ω} (htodo : s.todo = []) (hm : Moves P s.loop (.step t) loop) :
      Turns P s (.orch (.step t)) { s with
        loop := loop
        todo := upcoming s.handlers s.ready loop.phase }
  | user {e : OrchEvent α} {loop : OrchState ω} (hm : Moves P s.loop e loop)
      (hp : loop.phase = s.loop.phase ∨ s.loop.phase = .idle ∧ loop.phase = .arming 0)
      (hh : loop.orch.handlers = s.loop.orch.handlers) : Turns P s (.orch e) { s with loop := loop }

theorem select_turns {writable : Option FdSet} {t : Timeval} (h : s.select P writable t = some s') :
    Turns P s (.select writable t) s' := by
  obtain ⟨loop, hl, rfl⟩ := Option.map_eq_some_iff.mp h
  generalize hout : decide (s.selectStatus writable = 0) = timedOut at hl
  have hm : Moves P s.loop (.wake timedOut t) loop := next_moves hl
  cases hm with
  | wake hp =>
    have hnone : timedOut = true → s.reported writable = ∅ := fun ht => by
      have hstatus := of_decide_eq_true (hout.trans ht)
      cases writable with
      | none => cases hstatus
      | some writable =>
        refine Finset.card_eq_zero.mp ?_
        change (s.readable.card : ℤ) + _ = 0 at hstatus
        change s.readable.card = 0
        omega
    cases timedOut with
    | true => exact .select hp hnone
    | false => exact .select hp hnone

theorem next_turns (h : s.next P e = some s') : Turns P s e s' := by
  have hwatch : ∀ {watched}, s.watch watched = some s' →
      s.loop.inUserCode = true ∧ { s with watched := watched } = s' := fun hw => by
    unfold watch at hw
    split_ifs at hw with hu
    exact ⟨hu, Option.some.inj hw⟩
  cases e with
  | arrive fd x => exact Option.some.inj h ▸ .arrive
  | registerFd fd event =>
    obtain ⟨hu, rfl⟩ := hwatch h
    exact .watch hu rfl
  | unregisterFd fd event =>
    obtain ⟨hu, rfl⟩ := hwatch h
    exact .watch hu rfl
  | registerWatchSet ws =>
    obtain ⟨hu, rfl⟩ := hwatch h
    exact .watch hu rfl
  | clearWatchSet ws =>
    obtain ⟨hu, rfl⟩ := hwatch h
    exact .watch hu rfl
  | addHandler hd =>
    obtain ⟨loop, hl, rfl⟩ := Option.map_eq_some_iff.mp h
    have hm : Moves P s.loop .addHandler loop := next_moves hl
    cases hm with
    | addHandler hu => exact .addHandler hu
  | select writable t => exact select_turns h
  | read =>
    change s.read = some s' at h
    unfold read at h
    split at h
    · cases h
    · rename_i fd todo htodo
      split at h
      · cases h
      · rename_i x queue hq
        exact Option.some.inj h ▸ .read htodo hq
  | orch e =>
    change s.advance P e = some s' at h
    cases e with
    | addHandler => cases h
    | wake timedOut t => cases h
    | step t =>
      unfold advance at h
      dsimp only at h
      split_ifs at h with htodo
      obtain ⟨loop, hl, rfl⟩ := Option.map_eq_some_iff.mp h
      exact .step htodo (next_moves hl)
    | addTask k t =>
      obtain ⟨loop, hl, rfl⟩ := Option.map_eq_some_iff.mp h
      have hm : Moves P s.loop (.addTask k t) loop := next_moves hl
      cases hm with
      | addTask hu => exact .user (.addTask hu) (.inl rfl) rfl
    | act a =>
      obtain ⟨loop, hl, rfl⟩ := Option.map_eq_some_iff.mp h
      have hm : Moves P s.loop (.act a) loop := next_moves hl
      cases hm with
      | act hu hw => exact .user (.act hu hw) (.inl rfl) rfl
    | start externalTimeout indeterminate t =>
      obtain ⟨loop, hl, rfl⟩ := Option.map_eq_some_iff.mp h
      have hm : Moves P s.loop (.start externalTimeout indeterminate t) loop := next_moves hl
      cases hm with
      | start hp => exact .user (.start hp) (.inr ⟨hp, rfl⟩) rfl

/-- Where the steps of the loop lead, as to the calls of its handlers. -/
theorem step_cases {l l' : OrchState ω} {t : Timeval} (hm : Moves P l (.step t) l') :
    l'.orch.handlers = l.orch.handlers ∧
      ((∃ i, l.phase = .handling i ∧ i < l.orch.handlers ∧ l'.phase = .handling (i + 1)) ∨
        (∃ i, l.phase = .handling i ∧ ¬ i < l.orch.handlers ∧ l'.phase = .head) ∨
        (∀ i, l.phase ≠ .handling i) ∧ (∀ i, l'.phase ≠ .handling i) ∧ (∀ d w, l.phase ≠ .waiting d w) ∧
          (l.phase = .head → ∃ d w, l'.phase = .waiting d w)) := by
  cases hm with
  | handled hp hi => exact ⟨rfl, .inl ⟨_, hp, hi, rfl⟩⟩
  | rest hp hi => exact ⟨rfl, .inr (.inl ⟨_, hp, hi, rfl⟩)⟩
  | @close now t i hp hk =>
    refine ⟨rfl, .inr (.inr ⟨by simp [hp], fun i => ?_, by simp [hp], by simp [hp]⟩)⟩
    dsimp only
    split_ifs <;> simp
  | @arm i k t hp hk =>
    have hsame : (l.orch.setDeadline k t).handlers = l.orch.handlers := by
      unfold Orchestrator.setDeadline
      split_ifs <;> rfl
    exact ⟨hsame, .inr (.inr (by simp [hp]))⟩
  | @finish now t i k hp =>
    have hsame : (l.orch.finish k t).handlers = l.orch.handlers := by
      unfold Orchestrator.finish
      split_ifs <;> rfl
    exact ⟨hsame, .inr (.inr (by simp [hp]))⟩
  | enter hp | wait hp | call hp | skip hp => exact ⟨rfl, .inr (.inr (by simp [hp]))⟩

theorem count_next (ht : Turns P s e s') (h : s.loop.orch.handlers = s.handlers.length) :
    s'.loop.orch.handlers = s'.handlers.length := by
  cases ht with
  | addHandler hu =>
    change s.loop.orch.handlers + 1 = _
    rw [h, List.length_append, List.length_singleton]
  | step htodo hm => exact (step_cases hm).1.trans h
  | user hm hp hh => exact hh.trans h
  | _ => exact h

/-- What the handlers have taken from the descriptors since `s₀`, where the last `select` was entered. -/
structure Round (s₀ : Dispatch ω δ) (writable : Option FdSet) (s : Dispatch ω δ) : Prop where
  ready : s.ready = s₀.reported writable
  reads : ∃ read, read ++ s.todo = (fdsOf s.called).filter (· ∈ s.ready) ∧
    ∀ fd, (s.taken fd).length = (s₀.taken fd).length + if fd ∈ read then 1 else 0
  later : ∀ fd, s₀.taken fd ++ s₀.queue fd <+: s.taken fd ++ s.queue fd
  todo : (∀ i, s.loop.phase ≠ .handling i) → s.todo = []
  within : s.ready = ∅ ∨ (∃ i, s.loop.phase = .handling i) ∨ s.loop.phase = .head ∨ ∃ d w, s.loop.phase = .waiting d w

theorem called_of_handling {i : ℕ} (h : s.loop.phase = .handling i) : s.called = s.handlers.take (i + 1) := by
  unfold called
  rw [h]

theorem called_of_not_handling (h : ∀ i, s.loop.phase ≠ .handling i) : s.called = s.handlers := by
  unfold called
  split
  · rename_i i hi
    exact absurd hi (h i)
  · rfl

theorem called_congr (hp : s'.loop.phase = s.loop.phase) (hh : s'.handlers = s.handlers) : s'.called = s.called := by
  unfold called
  rw [hp, hh]

theorem called_sublist (s : Dispatch ω δ) : (fdsOf s.called).Sublist (fdsOf s.handlers) := by
  unfold called
  split
  · rename_i i _
    conv_rhs => rw [← List.take_append_drop (i + 1) s.handlers, fdsOf_append]
    exact List.sublist_append_left ..
  · exact List.Sublist.refl _

theorem upcoming_of_not_handling {handlers : List Handler} {ready : FdSet} {phase : Phase}
    (hp : ∀ i, phase ≠ .handling i) : upcoming handlers ready phase = [] := by
  unfold upcoming
  split
  · rename_i i
    exact absurd rfl (hp i)
  · rfl

theorem upcoming_handling (handlers : List Handler) (ready : FdSet) (i : ℕ) :
    upcoming handlers ready (.handling i) = (fdsOf handlers[i]?.toList).filter (· ∈ ready) := by
  change (handlers[i]?.map (Handler.callback ready)).getD [] = _
  cases handlers[i]? with
  | none => rfl
  | some h => rw [Option.map_some, Option.getD_some, Option.toList_some, fdsOf_singleton, callback_eq]

theorem mem_readable {fd : Fd} : fd ∈ s.readable ↔ fd ∈ s.watched.reads ∧ s.queue fd ≠ [] := by
  rw [readable, Finset.mem_filter]
  constructor
  · exact fun h => ⟨h.1, h.2.2⟩
  · exact fun h => ⟨h.1, Nat.lt_succ_of_le (s.watched.le_nfds fd (Finset.mem_union_left _ h.1)), h.2⟩

namespace Round

variable {writable : Option FdSet} (h : Round s₀ writable s)
include h

theorem taken_grows (fd : Fd) : s₀.taken fd <+: s.taken fd := by
  obtain ⟨read, -, htaken⟩ := h.reads
  refine List.prefix_of_prefix_length_le ((List.prefix_append _ _).trans (h.later fd)) (List.prefix_append _ _) ?_
  rw [htaken]
  exact Nat.le_add_right _ _

/-- Nothing has been taken in this round from a descriptor that is still to be read. -/
theorem queue_of_todo (hd : (fdsOf s.handlers).Nodup) {fd : Fd} (hfd : fd ∈ s.todo) :
    fd ∈ s.ready ∧ s.taken fd = s₀.taken fd ∧ s₀.queue fd <+: s.queue fd := by
  obtain ⟨read, hsplit, htaken⟩ := h.reads
  have hmem : fd ∈ (fdsOf s.called).filter (· ∈ s.ready) := hsplit ▸ List.mem_append_right read hfd
  have hnodup : (read ++ s.todo).Nodup := hsplit ▸ (hd.sublist (called_sublist s)).filter _
  have hnot : fd ∉ read := fun hr => (List.disjoint_of_nodup_append hnodup) hr hfd
  have hlen := htaken fd
  rw [if_neg hnot, Nat.add_zero] at hlen
  have hsame := ((h.taken_grows fd).eq_of_length hlen.symm).symm
  have hlater := h.later fd
  rw [hsame, List.prefix_append_right_inj] at hlater
  exact ⟨of_decide_eq_true (List.mem_filter.mp hmem).2, hsame, hlater⟩

theorem arrive (fd : Fd) (x : δ) :
    Round s₀ writable { s with queue := Function.update s.queue fd (s.queue fd ++ [x]) } := by
  refine ⟨h.ready, h.reads, fun fd' => (h.later fd').trans ?_, h.todo, h.within⟩
  dsimp only
  rw [Function.update_apply]
  split_ifs with hfd
  · subst hfd
    rw [← List.append_assoc]
    exact List.prefix_append _ _
  · exact List.prefix_refl _

theorem addHandler (hu : s.loop.inUserCode = true) (hc : s.loop.orch.handlers = s.handlers.length) (hd : Handler) :
    Round s₀ writable { s with
      loop := { s.loop with orch := s.loop.orch.addHandler }
      handlers := s.handlers ++ [hd] } := by
  obtain ⟨read, hsplit, htaken⟩ := h.reads
  refine ⟨h.ready, ⟨read, ?_, htaken⟩, h.later, h.todo, h.within⟩
  dsimp only
  rcases h.within with hnone | ⟨i, hi⟩ | hp | ⟨d, w, hp⟩
  · rw [hsplit, hnone]
    simp
  · -- it is called after those that have been
    have hlt : i < s.handlers.length := by
      rw [OrchState.inUserCode, hi] at hu
      exact hc ▸ of_decide_eq_true hu
    rw [hsplit, called_of_handling hi, called_of_handling (s := { s with
      loop := { s.loop with orch := s.loop.orch.addHandler }
      handlers := s.handlers ++ [hd] }) hi, List.take_append_of_le_length hlt]
  · simp [OrchState.inUserCode, hp] at hu
  · simp [OrchState.inUserCode, hp] at hu

theorem read (hd : (fdsOf s.handlers).Nodup) {fd : Fd} {x : δ} {todo : List Fd} {queue : List δ}
    (htodo : s.todo = fd :: todo) (hq : s.queue fd = x :: queue) : Round s₀ writable { s with
      todo := todo
      queue := Function.update s.queue fd queue
      taken := Function.update s.taken fd (s.taken fd ++ [x]) } := by
  obtain ⟨read, hsplit, htaken⟩ := h.reads
  obtain ⟨-, hsame, -⟩ := h.queue_of_todo hd (htodo ▸ List.mem_cons_self)
  refine ⟨h.ready, ⟨read ++ [fd], ?_, fun fd' => ?_⟩, fun fd' => (h.later fd').trans ?_, fun hp => ?_, h.within⟩
  · dsimp only
    rw [List.append_assoc, List.singleton_append, ← htodo, hsplit]
    rfl
  · dsimp only
    rw [Function.update_apply]
    split_ifs with hfd hmem hmem
    · rw [hfd, List.length_append, hsame, List.length_singleton]
    · exact absurd (hfd ▸ List.mem_append_right read List.mem_cons_self) hmem
    · rw [htaken, if_pos ((List.mem_append.mp hmem).resolve_right fun h => hfd (List.mem_singleton.mp h))]
    · rw [htaken, if_neg fun h => hmem (List.mem_append_left _ h)]
  · simp only [Function.update_apply]
    split_ifs with hfd
    · rw [hfd, hq, List.append_assoc, List.singleton_append]
    · exact List.prefix_refl _
  · have hnil := h.todo hp
    rw [htodo] at hnil
    cases hnil

theorem step (hc : s.loop.orch.handlers = s.handlers.length) {t : Timeval} {loop : OrchState ω} (htodo : s.todo = [])
    (hm : Moves P s.loop (.step t) loop) : Round s₀ writable { s with
      loop := loop
      todo := upcoming s.handlers s.ready loop.phase } := by
  obtain ⟨read, hsplit, htaken⟩ := h.reads
  rw [htodo, List.append_nil] at hsplit
  obtain ⟨-, hphase⟩ := step_cases hm
  refine ⟨h.ready, ⟨read, ?_, htaken⟩, h.later, upcoming_of_not_handling, ?_⟩
  · rcases hphase with ⟨i, hi, -, hi'⟩ | ⟨i, hi, hge, hhead⟩ | ⟨hp, hp', -, -⟩
    · -- the next handler, if there is one
      rw [called_of_handling hi] at hsplit
      rw [called_of_handling (s := { s with
        loop := loop
        todo := upcoming s.handlers s.ready loop.phase }) hi']
      dsimp only
      have hnext : s.handlers.take (i + 1 + 1) = s.handlers.take (i + 1) ++ s.handlers[i + 1]?.toList :=
        List.take_add_one
      rw [hi', hsplit, hnext, fdsOf_append, List.filter_append, upcoming_handling]
    · -- all have been called
      rw [hc, not_lt] at hge
      have hp' : ∀ i, loop.phase ≠ .handling i := by simp [hhead]
      rw [called_of_handling hi, List.take_of_length_le (hge.trans (Nat.le_succ i))] at hsplit
      rw [called_of_not_handling (s := { s with
        loop := loop
        todo := upcoming s.handlers s.ready loop.phase }) hp']
      dsimp only
      rw [upcoming_of_not_handling hp', List.append_nil, hsplit]
    · rw [called_of_not_handling hp] at hsplit
      rw [called_of_not_handling (s := { s with
        loop := loop
        todo := upcoming s.handlers s.ready loop.phase }) hp']
      dsimp only
      rw [upcoming_of_not_handling hp', List.append_nil, hsplit]
  · rcases hphase with ⟨i, -, -, hi'⟩ | ⟨i, -, -, hhead⟩ | ⟨hp, -, hw, hhead⟩
    · exact .inr (.inl ⟨i + 1, hi'⟩)
    · exact .inr (.inr (.inl hhead))
    · rcases h.within with hnone | ⟨i, hi⟩ | hph | ⟨d, w, hdw⟩
      · exact .inl hnone
      · exact absurd hi (hp i)
      · exact .inr (.inr (.inr (hhead hph)))
      · exact absurd hdw (hw d w)

theorem user {loop : OrchState ω} (hp : loop.phase = s.loop.phase ∨ s.loop.phase = .idle ∧ loop.phase = .arming 0) :
    Round s₀ writable { s with loop := loop } := by
  rcases hp with hp | ⟨hidle, harming⟩
  · refine ⟨h.ready, ?_, h.later, fun hno => h.todo fun i hi => hno i (hp.trans hi), ?_⟩
    · have hcalled : ({ s with loop := loop } : Dispatch ω δ).called = s.called := called_congr hp rfl
      rw [hcalled]
      exact h.reads
    · dsimp only
      rw [hp]
      exact h.within
  · have hno : ∀ i, s.loop.phase ≠ .handling i := by simp [hidle]
    have hno' : ∀ i, loop.phase ≠ .handling i := by simp [harming]
    refine ⟨h.ready, ?_, h.later, fun _ => h.todo hno, ?_⟩
    · have hreads := h.reads
      rw [called_of_not_handling hno] at hreads
      rwa [called_of_not_handling (s := { s with loop := loop }) hno']
    · have hwithin := h.within
      simp only [hidle, reduceCtorEq, exists_false, or_false] at hwithin
      exact .inl hwithin

theorem next (hc : s.loop.orch.handlers = s.handlers.length) (hd : (fdsOf s.handlers).Nodup) (ht : Turns P s e s')
    (he : e.isSelect = false) : Round s₀ writable s' := by
  cases ht with
  | arrive => exact h.arrive _ _
  | watch => exact ⟨h.ready, h.reads, h.later, h.todo, h.within⟩
  | addHandler hu => exact h.addHandler hu hc _
  | select => cases he
  | read htodo hq => exact h.read hd htodo hq
  | step htodo hm => exact h.step hc htodo hm
  | user hm hp hh => exact h.user hp

/-- When all handlers have been called, one item has been taken from each descriptor that was reported. -/
theorem taken_eq (hhead : s.loop.phase = .head) (fd : Fd) : ∃ xs, s.taken fd = s₀.taken fd ++ xs ∧
    xs.length = if fd ∈ s₀.reported writable ∧ fd ∈ fdsOf s.handlers then 1 else 0 := by
  obtain ⟨read, hsplit, htaken⟩ := h.reads
  have hno : ∀ i, s.loop.phase ≠ .handling i := by simp [hhead]
  rw [h.todo hno, List.append_nil, called_of_not_handling hno, h.ready] at hsplit
  have hmem : fd ∈ read ↔ fd ∈ s₀.reported writable ∧ fd ∈ fdsOf s.handlers := by
    rw [hsplit, List.mem_filter, decide_eq_true_eq, and_comm]
  obtain ⟨xs, hxs⟩ := h.taken_grows fd
  refine ⟨xs, hxs.symm, ?_⟩
  have hlen := htaken fd
  rw [← hxs, List.length_append] at hlen
  simp only [← hmem]
  omega

end Round

theorem round_select {writable : Option FdSet} {t : Timeval} (ht : Turns P s (.select writable t) s') :
    Round s writable s' := by
  cases ht with
  | watch hu hw => cases hw
  | @select _ timedOut d w t hp hout =>
    refine ⟨rfl, ⟨[], ?_, fun fd => rfl⟩, fun fd => List.prefix_refl _, fun hno => ?_, ?_⟩
    · cases timedOut with
      | true =>
        dsimp only
        rw [if_pos rfl, hout rfl]
        simp
      | false =>
        rw [called_of_handling rfl]
        dsimp only
        rw [List.nil_append, if_neg Bool.false_ne_true, List.take_add_one, List.take_zero, List.nil_append,
          upcoming_handling]
    · cases timedOut with
      | true => rfl
      | false => exact absurd rfl (hno 0)
    · cases timedOut with
      | true => exact .inl (hout rfl)
      | false => exact .inr (.inl ⟨0, rfl⟩)

theorem round_init (P : Program ω α) : Round (dispatching δ P).init (some ∅) (dispatching δ P).init where
  ready := rfl
  reads := ⟨[], rfl, fun _ => rfl⟩
  later _ := List.prefix_refl _
  todo _ := rfl
  within := .inl rfl

theorem distinct_next (hd : (fdsOf s.handlers).Nodup) (hok : Orderly s e) (ht : Turns P s e s') :
    (fdsOf s'.handlers).Nodup := by
  cases ht with
  | addHandler hu =>
    rw [fdsOf_append, fdsOf_singleton]
    exact hok.2
  | _ => exact hd

section Runs

variable {evs : List (DispatchEvent α δ)} {ok : Dispatch ω δ → DispatchEvent α δ → Prop}

theorem count_of_run (h : Run (dispatching δ P) ok evs s) : s.loop.orch.handlers = s.handlers.length :=
  h.state_invariant (I := fun s => s.loop.orch.handlers = s.handlers.length) rfl fun _ _ _ _ _ ih _ hn =>
    count_next (next_turns hn) ih

theorem distinct_of_run (h : Run (dispatching δ P) Orderly evs s) : (fdsOf s.handlers).Nodup :=
  h.state_invariant List.nodup_nil fun _ _ _ _ _ hd hok hn => distinct_next hd hok (next_turns hn)

theorem isSelect_iff : e.isSelect = true ↔ ∃ writable t, e = .select writable t := by
  cases e <;> simp [DispatchEvent.isSelect, DispatchEvent.outcome?]

theorem lastSelect_snoc (evs : List (DispatchEvent α δ)) (e : DispatchEvent α δ) :
    lastSelect (evs ++ [e]) = e.outcome?.or (lastSelect evs) := by
  unfold lastSelect
  rw [List.filterMap_append, List.getLast?_append]
  cases he : e.outcome? with
  | none => simp [he]
  | some writable => simp [he]

theorem round_of_run (h : Run (dispatching δ P) Orderly evs s) :
    ∃ s₀, Round s₀ ((lastSelect evs).getD (some ∅)) s := by
  refine h.invariant (I := fun evs s => ∃ s₀, Round s₀ ((lastSelect evs).getD (some ∅)) s) ⟨_, round_init P⟩ ?_
  rintro evs s e s' hr ⟨s₀, hs₀⟩ hok hn
  have ht := next_turns hn
  rw [lastSelect_snoc]
  cases he : e.isSelect with
  | false =>
    rw [Option.isNone_iff_eq_none.mp (Option.isSome_eq_false_iff.mp he), Option.none_or]
    exact ⟨s₀, hs₀.next (count_of_run hr) (distinct_of_run hr) ht he⟩
  | true =>
    obtain ⟨writable, t, rfl⟩ := isSelect_iff.mp he
    exact ⟨s, round_select ht⟩

theorem arrivals_snoc (fd : Fd) (evs : List (DispatchEvent α δ)) (e : DispatchEvent α δ) :
    arrivals fd (evs ++ [e]) = arrivals fd evs ++ e.arrival fd := by
  rw [arrivals, List.flatMap_append, List.flatMap_singleton]
  rfl

theorem arrival_of_rewatch {o watched : Descriptors} (hw : rewatch o e = some watched) (fd : Fd) :
    e.arrival fd = [] := by
  cases e with
  | arrive fd' x => cases hw
  | _ => rfl

theorem in_order (h : Run (dispatching δ P) ok evs s) (fd : Fd) : s.taken fd ++ s.queue fd = arrivals fd evs := by
  refine h.invariant (I := fun evs s => s.taken fd ++ s.queue fd = arrivals fd evs) rfl ?_
  intro evs s e s' hr ih hok hn
  rw [arrivals_snoc, ← ih]
  cases next_turns hn with
  | @arrive fd' x =>
    dsimp only
    rw [Function.update_apply, DispatchEvent.arrival, List.append_assoc]
    by_cases hfd : fd = fd'
    · rw [if_pos hfd, if_pos hfd.symm, hfd]
    · rw [if_neg hfd, if_neg (Ne.symm hfd), List.append_nil]
  | @read fd' x todo queue htodo hq =>
    change _ = s.taken fd ++ s.queue fd ++ []
    simp only [Function.update_apply, List.append_nil]
    split_ifs with hfd
    · rw [hfd, hq, List.append_assoc, List.singleton_append]
    · rfl
  | watch hu hw =>
    rw [arrival_of_rewatch hw, List.append_nil]
  | addHandler | select | step | user => exact (List.append_nil _).symm

theorem loop_next (hn : s.next P e = some s') : s'.loop = s.loop ∨
    ∃ e', s.loop.next P e' = some s'.loop ∧ (OnTime s e → Timely s.loop e') := by
  have hstep : ∀ {e' : OrchEvent α} {f : OrchState ω → Dispatch ω δ}, (∀ l, (f l).loop = l) →
      (s.loop.next P e').map f = some s' → s.loop.next P e' = some s'.loop := fun hf h => by
    obtain ⟨l, hl, rfl⟩ := Option.map_eq_some_iff.mp h
    rw [hf, hl]
  cases e with
  | addHandler h => exact .inr ⟨.addHandler, hstep (fun _ => rfl) hn, fun _ => trivial⟩
  | select writable t => exact .inr ⟨.wake _ t, hstep (fun _ => rfl) hn, id⟩
  | orch e =>
    change s.advance P e = some s' at hn
    cases e with
    | addHandler => cases hn
    | wake timedOut t => cases hn
    | step t =>
      unfold advance at hn
      dsimp only at hn
      split_ifs at hn
      exact .inr ⟨.step t, hstep (fun _ => rfl) hn, id⟩
    | addTask | act | start => exact .inr ⟨_, hstep (fun _ => rfl) hn, id⟩
  | _ =>
    left
    cases next_turns hn <;> rfl

theorem orchestrated (P : Program ω α) :
    Simulation (dispatching δ P) Orderly (orchestration P) Timely fun s l => s.loop = l := by
  refine Simulation.of_step rfl ?_
  rintro evs s e s' evs' l - - rfl hok hn
  rcases loop_next hn with hsame | ⟨e', hn', ht⟩
  · exact .inl hsame
  · exact .inr ⟨e', s'.loop, ht hok.1, hn', rfl⟩

theorem round_of_segment (h : Run (dispatching δ P) Orderly evs s) {pre body : List (DispatchEvent α δ)}
    {writable : Option FdSet} {t : Timeval} (hevs : evs = pre ++ .select writable t :: body)
    (hbody : ∀ e ∈ body, e.isSelect = false) (h₀ : Run (dispatching δ P) Orderly pre s₀) : Round s₀ writable s := by
  subst hevs
  rw [← List.singleton_append, ← List.append_assoc] at h
  obtain ⟨s₁, h₁⟩ := h.of_append
  obtain ⟨s₀', h₀', hok, hn⟩ := h₁.snoc_inv
  obtain rfl := h₀.unique h₀'
  refine h₁.segment (J := fun body s => (∀ e ∈ body, e.isSelect = false) → Round s₀ writable s)
    (fun _ => round_select (next_turns hn)) (fun body s e s' hr ih _ hn hall => ?_) h hbody
  exact (ih fun e he => hall e (List.mem_append_left _ he)).next (count_of_run hr) (distinct_of_run hr)
    (next_turns hn) (hall e (List.mem_append_right _ List.mem_cons_self))

end Runs

end Dispatch

section

variable {ω α δ : Type} {P : Program ω α} {evs : List (DispatchEvent α δ)} {s : Dispatch ω δ}

theorem dispatch_sound (h : Run (dispatching δ P) Orderly evs s) : DispatchSound P evs s where
  orchestrated := by
    obtain ⟨evs', l, hl, rfl⟩ := (Dispatch.orchestrated P).run h
    exact ⟨evs', hl⟩
  in_order := Dispatch.in_order h
  never_blocks fd hfd hq := by
    obtain ⟨s₀, hs₀⟩ := Dispatch.round_of_run h
    obtain ⟨hready, -, hqueue⟩ := hs₀.queue_of_todo (Dispatch.distinct_of_run h) (List.mem_of_mem_head? hfd)
    rw [hs₀.ready] at hready
    rw [hq, List.prefix_nil] at hqueue
    rcases hlast : lastSelect evs with _ | _ | writable
    · rw [hlast] at hready
      exact absurd hqueue (Dispatch.mem_readable.mp hready).2
    · rfl
    · rw [hlast] at hready
      exact absurd hqueue (Dispatch.mem_readable.mp hready).2
  one_each s₀ writable hround fd := by
    obtain ⟨pre, t, body, hevs, hbody, h₀, hhead⟩ := hround
    have hr := Dispatch.round_of_segment h hevs hbody h₀
    obtain ⟨xs, hxs, hlen⟩ := hr.taken_eq hhead fd
    rw [hxs]
    congr 1
    have hmem : fd ∈ s₀.reported (some writable) ↔ fd ∈ s₀.watched.reads ∧ s₀.queue fd ≠ [] := Dispatch.mem_readable
    have hlater := hr.later fd
    rw [hxs, List.append_assoc, List.prefix_append_right_inj] at hlater
    cases hq : s₀.queue fd with
    | nil =>
      rw [if_neg fun hready => (hmem.mp hready.1).2 hq] at hlen
      rw [List.length_eq_zero_iff.mp hlen, List.take_nil, ite_self]
    | cons x rest =>
      simp only [hmem, hq, ne_eq, reduceCtorEq, not_false_eq_true, and_true] at hlen
      split_ifs at hlen ⊢
      · obtain ⟨y, rfl⟩ := List.length_eq_one_iff.mp hlen
        rw [hq, List.singleton_append, List.cons_prefix_cons] at hlater
        rw [List.take_succ_cons, List.take_zero, hlater.1]
      · exact List.length_eq_zero_iff.mp hlen
  one_each_failed s₀ hround fd := by
    obtain ⟨pre, t, body, hevs, hbody, h₀, hhead⟩ := hround
    exact (Dispatch.round_of_segment h hevs hbody h₀).taken_eq hhead fd

end

/-- The sockets of lazy reliable broadcast. -/
def rbSocket : LinkName → Fd
  | .data => 3
  | .control => 4

/-- Two datagrams wait at the data socket and one at the control socket, and a round is over. In the next one
`select` fails, and the handler has to wait for a datagram at the control socket. -/
def rbRounds : List (DispatchEvent Unit CString) :=
  [.registerWatchSet (rbGetWatchSet rbSocket), .addHandler (rbGetHandler rbSocket), .arrive 3 ['a'],
    .arrive 3 ['b'], .arrive 4 ['c'], .orch (.start (some (ofSec 30)) (ofSec 0) (ofSec 0)),
    .orch (.step (ofSec 0)), .orch (.step (ofSec 0)), .select (some ∅) (ofSec 0), .read, .read,
    .orch (.step (ofSec 0)), .orch (.step (ofSec 0)), .orch (.step (ofSec 0)), .select none (ofSec 0), .read,
    .arrive 4 ['d'], .read, .orch (.step (ofSec 0)), .orch (.step (ofSec 0))]

theorem rbRounds_sound : ∃ s, Run (dispatching CString onceProgram) Orderly rbRounds s ∧
    (s.taken 3, s.queue 3, s.taken 4, s.queue 4) = ([['a'], ['b']], [], [['c'], ['d']], []) ∧
    DispatchSound onceProgram rbRounds s := by
  obtain ⟨s, h, hs⟩ : ∃ s, Run (dispatching CString onceProgram) Orderly rbRounds s ∧
      (s.taken 3, s.queue 3, s.taken 4, s.queue 4) = ([['a'], ['b']], [], [['c'], ['d']], []) :=
    exists_run_of_exec (fun s : Dispatch Unit CString => (s.taken 3, s.queue 3, s.taken 4, s.queue 4))
      (by decide +kernel)
  exact ⟨s, h, hs, dispatch_sound h⟩

end DSA
