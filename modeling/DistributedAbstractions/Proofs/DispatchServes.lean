import DistributedAbstractions.Lib.Eventually
import DistributedAbstractions.Proofs.Dispatch

/-! The handlers of a component serve its sockets: as long as the loop goes on, whatever arrives is taken. -/

namespace DSA

open CLib Filter Timeval Trans

namespace Descriptors

variable {o : Descriptors} {fd : Fd}

theorem mem_foldl_setRead {fds : List Fd} : fd ∈ (fds.foldl setRead o).reads ↔ fd ∈ o.reads ∨ fd ∈ fds := by
  induction fds generalizing o with
  | nil => simp
  | cons x fds ih =>
    rw [List.foldl_cons, ih, setRead, Finset.mem_insert, List.mem_cons]
    tauto

theorem mem_foldl_clearRead {fds : List Fd} (h : fd ∈ o.reads) (hfd : fd ∉ fds) :
    fd ∈ (fds.foldl clearRead o).reads := by
  induction fds generalizing o with
  | nil => exact h
  | cons x fds ih =>
    rw [List.mem_cons, not_or] at hfd
    exact ih (Finset.mem_erase.mpr ⟨hfd.1, h⟩) hfd.2

end Descriptors

namespace Dispatch

variable {ω α δ : Type} {P : Program ω α} {s s' : Dispatch ω δ} {e : DispatchEvent α δ} {fd : Fd}

theorem reads_of_rewatch {o watched : Descriptors} (hw : rewatch o e = some watched) (hc : ¬ e.Clears fd)
    (h : fd ∈ o.reads) : fd ∈ watched.reads := by
  cases e with
  | registerFd fd' event =>
    obtain rfl := Option.some.inj hw
    unfold Descriptors.registerFd
    dsimp only
    split_ifs
    · exact Finset.mem_insert_of_mem h
    · exact h
    · exact Finset.mem_insert_of_mem h
    · exact h
  | unregisterFd fd' event =>
    obtain rfl := Option.some.inj hw
    have hne : event &&& READ ≠ 0 → fd ≠ fd' := fun hr hfd => hc ⟨hfd.symm, hr⟩
    unfold Descriptors.unregisterFd
    dsimp only
    split_ifs with hwrite hr hr
    · exact Finset.mem_erase.mpr ⟨hne hr, h⟩
    · exact h
    · exact Finset.mem_erase.mpr ⟨hne hr, h⟩
    · exact h
  | registerWatchSet ws =>
    obtain rfl := Option.some.inj hw
    exact Descriptors.mem_foldl_setRead.mpr (.inl h)
  | clearWatchSet ws =>
    obtain rfl := Option.some.inj hw
    exact Descriptors.mem_foldl_clearRead h hc
  | _ => cases hw

theorem reads_next (ht : Turns P s e s') (hc : ¬ e.Clears fd) (h : fd ∈ s.watched.reads) : fd ∈ s'.watched.reads := by
  cases ht with
  | watch hu hw => exact reads_of_rewatch hw hc h
  | _ => exact h

theorem handlers_next (ht : Turns P s e s') : s.handlers <+: s'.handlers := by
  cases ht with
  | addHandler => exact List.prefix_append _ _
  | _ => exact List.prefix_refl _

theorem mem_fdsOf_of_isPrefix {hs hs' : List Handler} (h : hs <+: hs') (hfd : fd ∈ fdsOf hs) : fd ∈ fdsOf hs' := by
  obtain ⟨more, rfl⟩ := h
  rw [fdsOf_append]
  exact List.mem_append_left _ hfd

theorem taken_next (ht : Turns P s e s') (fd : Fd) : s.taken fd <+: s'.taken fd := by
  cases ht with
  | read =>
    dsimp only
    rw [Function.update_apply]
    split_ifs with hfd
    · rw [hfd]
      exact List.prefix_append _ _
    · exact List.prefix_refl _
  | _ => exact List.prefix_refl _

/-- In this round `fd` is still to be read. -/
def Upcoming (fd : Fd) (s : Dispatch ω δ) : Prop :=
  ∃ i, s.loop.phase = .handling i ∧ (fd ∈ s.todo ∨ fd ∈ s.ready ∧ fd ∈ fdsOf (s.handlers.drop (i + 1)))

theorem upcoming_next (hh : s.loop.orch.handlers = s.handlers.length) (ht : Turns P s e s')
    (hsame : (s'.taken fd).length = (s.taken fd).length) (h : Upcoming fd s) : Upcoming fd s' := by
  obtain ⟨i, hi, hfd⟩ := h
  cases ht with
  | arrive => exact ⟨i, hi, hfd⟩
  | watch => exact ⟨i, hi, hfd⟩
  | addHandler hu =>
    refine ⟨i, hi, hfd.imp_right fun h => ⟨h.1, mem_fdsOf_of_isPrefix ?_ h.2⟩⟩
    rw [List.drop_append]
    exact List.prefix_append _ _
  | select hp => simp [hi] at hp
  | @read fd' x todo queue htodo hq =>
    refine ⟨i, hi, hfd.imp_left fun hmem => ?_⟩
    rw [htodo, List.mem_cons] at hmem
    refine hmem.resolve_left fun hfd' => ?_
    subst hfd'
    simp at hsame
  | @step t loop htodo hm =>
    rw [htodo] at hfd
    obtain ⟨hready, hmem⟩ := hfd.resolve_left List.not_mem_nil
    have hlt : i + 1 < s.handlers.length := by
      by_contra hge
      rw [List.drop_of_length_le (not_lt.mp hge)] at hmem
      exact List.not_mem_nil hmem
    rcases (step_cases hm).2 with ⟨j, hj, -, hj'⟩ | ⟨j, hj, hge, -⟩ | ⟨hp, -⟩
    · obtain rfl := Phase.handling.inj (hi.symm.trans hj)
      refine ⟨i + 1, hj', ?_⟩
      rw [List.drop_eq_getElem_cons hlt, fdsOf, List.mem_append] at hmem
      dsimp only
      rw [hj', upcoming_handling, List.getElem?_eq_getElem hlt, Option.toList_some, fdsOf_singleton, List.mem_filter,
        decide_eq_true_eq]
      exact hmem.imp (fun h => ⟨h, hready⟩) fun h => ⟨hready, h⟩
    · obtain rfl := Phase.handling.inj (hi.symm.trans hj)
      omega
    · exact absurd hi (hp i)
  | user hm hp hh =>
    rcases hp with hp | ⟨hidle, -⟩
    · exact ⟨i, hp.trans hi, hfd⟩
    · rw [hi] at hidle
      cases hidle

theorem upcoming_select {writable : Option FdSet} {t : Timeval} (ht : Turns P s (.select writable t) s')
    (hread : fd ∈ s.watched.reads) (hfd : fd ∈ fdsOf s.handlers) (hq : s.queue fd ≠ []) : Upcoming fd s' := by
  have hready : fd ∈ s.reported writable := by
    cases writable with
    | none => exact hread
    | some writable => exact mem_readable.mpr ⟨hread, hq⟩
  cases ht with
  | watch hu hw => cases hw
  | @select _ timedOut d w t hp hout =>
    obtain rfl : timedOut = false := by
      rw [← Bool.not_eq_true]
      intro ht
      rw [hout ht] at hready
      exact absurd hready (Finset.notMem_empty fd)
    refine ⟨0, rfl, ?_⟩
    dsimp only
    rw [if_neg Bool.false_ne_true, upcoming_handling, List.mem_filter, decide_eq_true_eq]
    have hsplit : s.handlers[0]?.toList ++ s.handlers.drop 1 = s.handlers := by
      cases s.handlers <;> rfl
    rw [← hsplit, fdsOf_append, List.mem_append] at hfd
    exact hfd.imp (fun h => ⟨h, hready⟩) fun h => ⟨hready, h⟩

theorem Turns.handlers_of_add {h : Handler} (ht : Turns P s (.addHandler h) s') : s'.handlers = s.handlers ++ [h] := by
  cases ht with
  | watch hu hw => cases hw
  | addHandler hu => rfl

theorem Turns.watched_of_register {ws : WatchSet} (ht : Turns P s (.registerWatchSet ws) s') :
    s'.watched = s.watched.registerWatchSet ws := by
  cases ht with
  | watch hu hw => exact (Option.some.inj hw).symm

theorem Turns.waiting_of_select {writable : Option FdSet} {t : Timeval} (ht : Turns P s (.select writable t) s') :
    ∃ d w, s.loop.phase = .waiting d w := by
  cases ht with
  | watch hu hw => cases hw
  | select hp => exact ⟨_, _, hp⟩

section Paths

variable {π : Path (dispatching δ P) fun _ _ => True}

theorem turns_at {i : ℕ} {e : DispatchEvent α δ} (he : π.event i = some e) :
    Turns P (π.state i) e (π.state (i + 1)) := next_turns (P := P) (π.of_event he).2

theorem path_turns (π : Path (dispatching δ P) fun _ _ => True) (i : ℕ) : π.state (i + 1) = π.state i ∨
    ∃ e, π.event i = some e ∧ Turns P (π.state i) e (π.state (i + 1)) := by
  rcases π.step i with ⟨-, hs⟩ | ⟨e, he, -, hn⟩
  · exact .inl hs
  · exact .inr ⟨e, he, next_turns hn⟩

theorem taken_path (i : ℕ) (fd : Fd) : (π.state i).taken fd <+: (π.state (i + 1)).taken fd := by
  rcases path_turns π i with hs | ⟨e, -, ht⟩
  · rw [hs]
  · exact taken_next ht fd

theorem arrived_path {i j : ℕ} (hij : i ≤ j) (fd : Fd) :
    (π.state i).taken fd ++ (π.state i).queue fd <+: (π.state j).taken fd ++ (π.state j).queue fd := by
  refine π.rel (R := fun s s' => s.taken fd ++ s.queue fd <+: s'.taken fd ++ s'.queue fd)
    (fun _ => List.prefix_refl _) (fun _ _ _ => List.IsPrefix.trans) (fun evs s e s' hr hok hn => ?_) hij
  rw [in_order hr, in_order (hr.snoc hok hn), arrivals_snoc]
  exact List.prefix_append _ _

theorem handlers_path {i j : ℕ} (hij : i ≤ j) : (π.state i).handlers <+: (π.state j).handlers :=
  π.rel (R := fun s s' => s.handlers <+: s'.handlers) (fun _ => List.prefix_refl _) (fun _ _ _ => List.IsPrefix.trans)
    (fun _ _ _ _ _ _ hn => handlers_next (next_turns hn)) hij

theorem eventually_handled {h : Handler} (hadd : ∃ i, π.event i = some (.addHandler h)) (hfd : fd ∈ h.fds) :
    ∀ᶠ i in atTop, fd ∈ fdsOf (π.state i).handlers := by
  obtain ⟨i, hi⟩ := hadd
  refine eventually_atTop.mpr ⟨i + 1, fun j hij => mem_fdsOf_of_isPrefix (handlers_path hij) ?_⟩
  rw [(turns_at hi).handlers_of_add, fdsOf_append, fdsOf_singleton]
  exact List.mem_append_right _ hfd

theorem eventually_watched {ws : WatchSet} (hreg : ∃ i, π.event i = some (.registerWatchSet ws) ∧
    ∀ j ≥ i, ∀ e ∈ π.event j, ¬ e.Clears fd) (hfd : fd ∈ ws.fds) : ∀ᶠ i in atTop, fd ∈ (π.state i).watched.reads := by
  obtain ⟨i, hi, hkeep⟩ := hreg
  refine eventually_atTop.mpr ⟨i + 1, fun j hij => ?_⟩
  refine π.kept (I := fun s => fd ∈ s.watched.reads) ?_ (fun j e hij he _ hn ih => ?_) hij
  · rw [(turns_at hi).watched_of_register]
    exact Descriptors.mem_foldl_setRead.mpr (.inr hfd)
  · exact reads_next (next_turns (P := P) hn) (hkeep j (by omega) e he) ih

theorem eventually_taken (hselect : ∃ᶠ i in atTop, ∃ e ∈ π.event i, e.isSelect = true)
    (hread : ∀ᶠ i in atTop, fd ∈ (π.state i).watched.reads)
    (hfd : ∀ᶠ i in atTop, fd ∈ fdsOf (π.state i).handlers) (i : ℕ) :
    ∀ᶠ j in atTop, (π.state i).taken fd ++ (π.state i).queue fd <+: (π.state j).taken fd := by
  have hlong : ∀ᶠ j in atTop,
      ((π.state i).taken fd ++ (π.state i).queue fd).length ≤ ((π.state j).taken fd).length := by
    refine Sequence.eventually_ge_of_opened (Q := fun i => Upcoming fd (π.state i))
      (fun j => (taken_path j fd).length_le) hselect ?_ ?_ ?_
    · filter_upwards [hread, hfd, eventually_ge_atTop i] with j hj hj' hij hshort ⟨e, he, hsel⟩
      obtain ⟨writable, t, rfl⟩ := isSelect_iff.mp hsel
      refine upcoming_select (turns_at he) hj hj' fun hq => ?_
      have hlong := (arrived_path (π := π) hij fd).length_le
      rw [hq, List.append_nil] at hlong
      omega
    · refine .of_forall fun j hsame hup => ?_
      obtain ⟨evs, hr⟩ := π.exists_run j
      rcases path_turns π j with hs | ⟨e, -, ht⟩
      · rwa [hs]
      · exact upcoming_next (count_of_run hr) ht hsame hup
    · -- `select` is not entered in the middle of a round
      rintro j ⟨k, hk, -⟩ ⟨e, he, hsel⟩
      obtain ⟨writable, t, rfl⟩ := isSelect_iff.mp hsel
      obtain ⟨d, w, hp⟩ := (turns_at he).waiting_of_select
      rw [hk] at hp
      cases hp
  filter_upwards [hlong, eventually_ge_atTop i] with j hj hij
  exact List.prefix_of_prefix_length_le (arrived_path hij fd) (List.prefix_append _ _) hj

end Paths

end Dispatch

section

variable {c : Upcalls.Kind} {socket : LinkName → Fd}

/-- The watch set of a component has its sockets, and its handler looks after them. -/
theorem mem_getWatchSet {ℓ : LinkName} (h : ℓ ∈ c.links) : socket ℓ ∈ (c.getWatchSet socket).fds := by
  cases c with
  | rb =>
    change socket ℓ ∈ [socket .control, socket .data]
    cases ℓ <;> simp
  | _ =>
    obtain rfl := List.mem_singleton.mp h
    exact List.mem_singleton.mpr rfl

theorem mem_getHandler {ℓ : LinkName} (h : ℓ ∈ c.links) : socket ℓ ∈ (c.getHandler socket).fds := by
  cases c with
  | rb =>
    change socket ℓ ∈ [socket .data, socket .control]
    cases ℓ <;> simp
  | _ =>
    obtain rfl := List.mem_singleton.mp h
    exact List.mem_singleton.mpr rfl

theorem component_served {ω α δ : Type} {P : Program ω α} {π : Path (dispatching δ P) fun _ _ => True}
    (h : DispatchLive c socket π) : SocketsServed c socket π := by
  intro ℓ hℓ i
  obtain ⟨a, ha, hkeep⟩ := h.watched
  exact Dispatch.eventually_taken h.selects
    (Dispatch.eventually_watched ⟨a, ha, fun j hj e he => hkeep j hj e he ℓ hℓ⟩ (mem_getWatchSet hℓ))
    (Dispatch.eventually_handled h.handled (mem_getHandler hℓ)) i

end

section Witness

/-- Nothing is left to be done, and the clock stands still. -/
structure Resting (s : Dispatch Unit CString) : Prop where
  tasks : s.loop.orch.tasks = []
  clock : s.loop.clock = ofSec 0
  deadline : s.loop.externalDeadline = ofSec 30
  empty : ∀ fd ∈ s.watched.reads, s.queue fd = []
  todo : s.todo = []
  phase : s.loop.phase = .head ∨ (∃ d w, s.loop.phase = .waiting d w) ∨ s.loop.phase = .scanning (ofSec 0) 0

def restingEvent (s : Dispatch Unit CString) : DispatchEvent Unit CString :=
  match s.loop.phase with
  | .waiting _ _ => .select (some ∅) (ofSec 0)
  | _ => .orch (.step (ofSec 0))

theorem resting_step {s : Dispatch Unit CString} (loop : OrchState Unit) (h : Resting s)
    (hp : ∀ d w, s.loop.phase ≠ .waiting d w) (hl : s.loop.next onceProgram (.step (ofSec 0)) = some loop) :
    (dispatching CString onceProgram).next s (restingEvent s) = some { s with
      loop := loop
      todo := Dispatch.upcoming s.handlers s.ready loop.phase } := by
  have he : restingEvent s = .orch (.step (ofSec 0)) := by
    unfold restingEvent
    split
    · rename_i d w hdw
      exact absurd hdw (hp d w)
    · rfl
  rw [he]
  change s.advance onceProgram (.step (ofSec 0)) = _
  rw [Dispatch.advance, if_pos h.todo, hl, Option.map_some]

theorem Resting.next {s : Dispatch Unit CString} (h : Resting s) : ∃ s',
    (dispatching CString onceProgram).next s (restingEvent s) = some s' ∧ Resting s' ∧
    (s.loop.phase = .head → ∃ d w, s'.loop.phase = .waiting d w) ∧
    (s.loop.phase = .scanning (ofSec 0) 0 → s'.loop.phase = .head) := by
  rcases h.phase with hp | ⟨d, w, hp⟩ | hp
  · obtain ⟨d, hd, -⟩ := s.loop.orch.exists_nextDeadline s.loop.externalDeadline
    have hn := resting_step { s.loop with
      phase := .waiting d (tvTimeToDeadline d (ofSec 0))
      clock := ofSec 0 } h (by simp [hp]) (by simp [OrchState.next, OrchState.step, hp, hd])
    refine ⟨_, hn, ⟨h.tasks, rfl, h.deadline, h.empty, rfl, .inr (.inl ⟨_, _, rfl⟩)⟩,
      fun _ => ⟨_, _, rfl⟩, by simp [hp]⟩
  · have hnone : s.readable = ∅ := by
      refine Finset.eq_empty_of_forall_notMem fun fd hfd => ?_
      obtain ⟨hread, hq⟩ := Dispatch.mem_readable.mp hfd
      exact hq (h.empty fd hread)
    have he : restingEvent s = .select (some ∅) (ofSec 0) := by simp [restingEvent, hp]
    have hl : s.loop.next onceProgram (.wake true (ofSec 0)) = some { s.loop with
        phase := .scanning (ofSec 0) 0
        clock := ofSec 0 } := by simp [OrchState.next, hp]
    have hn : s.select onceProgram (some ∅) (ofSec 0) = some { s with
        loop := { s.loop with phase := .scanning (ofSec 0) 0, clock := ofSec 0 }
        ready := ∅
        todo := [] } := by
      have hstatus : s.selectStatus (some ∅) = 0 := by simp [Dispatch.selectStatus, hnone]
      simp only [Dispatch.select, hstatus, decide_true, hl, Option.map_some, Dispatch.reported, hnone]
      rfl
    rw [he]
    exact ⟨_, hn, ⟨h.tasks, rfl, h.deadline, h.empty, rfl, .inr (.inr rfl)⟩,
      by simp [hp], by simp [hp]⟩
  · have hnot : ¬ s.loop.isExpired (ofSec 0) := fun hex => absurd (h.deadline ▸ hex.2) (by decide)
    have hn := resting_step { s.loop with
      phase := .head
      clock := ofSec 0 } h (by simp [hp]) (by simp [OrchState.next, OrchState.step, hp, h.tasks, hnot])
    exact ⟨_, hn, ⟨h.tasks, rfl, h.deadline, h.empty, rfl, .inl rfl⟩, by simp [hp], fun _ => rfl⟩

theorem resting_selects {π : Path (dispatching CString onceProgram) fun _ _ => True} {a : ℕ}
    (hπ : ∀ k, Resting (π.state (a + k)) ∧ π.event (a + k) = some (restingEvent (π.state (a + k)))) (k : ℕ) :
    ∃ j ≥ k, ∃ d w, (π.state (a + j)).loop.phase = .waiting d w := by
  have hnext : ∀ k, ((π.state (a + k)).loop.phase = .head → ∃ d w, (π.state (a + (k + 1))).loop.phase = .waiting d w) ∧
      ((π.state (a + k)).loop.phase = .scanning (ofSec 0) 0 → (π.state (a + (k + 1))).loop.phase = .head) := by
    intro k
    obtain ⟨hs, he⟩ := hπ k
    obtain ⟨s', hn, -, hs'⟩ := hs.next
    obtain rfl := Option.some.inj (hn.symm.trans (π.of_event he).2)
    exact hs'
  rcases (hπ k).1.phase with hp | hp | hp
  · exact ⟨k + 1, by omega, (hnext k).1 hp⟩
  · exact ⟨k, le_rfl, hp⟩
  · exact ⟨k + 2, by omega, (hnext (k + 1)).1 ((hnext k).2 hp)⟩

theorem restingEvent_keeps (s : Dispatch Unit CString) : ∀ ℓ ∈ Upcalls.Kind.rb.links,
    ¬ (restingEvent s).Clears (rbSocket ℓ) := by
  intro ℓ _
  unfold restingEvent
  split <;> exact not_false

theorem rbRounds_served : ∃ π : Path (dispatching CString onceProgram) fun _ _ => True,
    ((π.state 20).taken 3, (π.state 20).taken 4) = ([['a'], ['b']], [['c'], ['d']]) ∧
      SocketsServed .rb rbSocket π := by
  obtain ⟨s, hrun, hs⟩ : ∃ s, Run (dispatching CString onceProgram) (fun _ _ => True) rbRounds s ∧
      (decide (s.loop.orch.tasks = [] ∧ s.loop.clock = ofSec 0 ∧ s.loop.externalDeadline = ofSec 30 ∧
        (∀ fd ∈ s.watched.reads, s.queue fd = []) ∧ s.todo = [] ∧ s.loop.phase = .head),
        s.taken 3, s.taken 4) = (true, [['a'], ['b']], [['c'], ['d']]) :=
    exists_run_of_exec (fun s : Dispatch Unit CString =>
      (decide (s.loop.orch.tasks = [] ∧ s.loop.clock = ofSec 0 ∧ s.loop.externalDeadline = ofSec 30 ∧
        (∀ fd ∈ s.watched.reads, s.queue fd = []) ∧ s.todo = [] ∧ s.loop.phase = .head),
        s.taken 3, s.taken 4)) (by decide +kernel)
  obtain ⟨hrest, htaken⟩ := Prod.mk.inj hs
  obtain ⟨htasks, hclock, hdeadline, hempty, htodo, hphase⟩ := of_decide_eq_true hrest
  have h : Resting s := ⟨htasks, hclock, hdeadline, hempty, htodo, .inl hphase⟩
  obtain ⟨π, hlast, hpre, hπ⟩ := hrun.exists_path (I := fun _ => Resting) (fun _ => restingEvent) h
    fun _ s hs => by
      obtain ⟨s', hn, hs', -⟩ := hs.next
      exact ⟨s', trivial, hn, hs'⟩
  have hnone : ∀ e ∈ rbRounds, ∀ ℓ ∈ Upcalls.Kind.rb.links, ¬ e.Clears (rbSocket ℓ) := by decide
  refine ⟨π, ?_, component_served ⟨⟨0, hpre 0 _ rfl, fun j _ e he => ?_⟩, ⟨1, hpre 1 _ rfl⟩, ?_⟩⟩
  · change ((π.state rbRounds.length).taken 3, (π.state rbRounds.length).taken 4) = _
    rw [hlast]
    exact htaken
  · rcases Nat.lt_or_ge j rbRounds.length with hlt | hge
    · obtain rfl := Option.some.inj (he.symm.trans (hpre j _ (List.getElem?_eq_getElem hlt)))
      exact hnone _ (List.getElem_mem hlt)
    · rw [← Nat.add_sub_of_le hge, (hπ _).2] at he
      obtain rfl := Option.some.inj he
      exact restingEvent_keeps _
  · refine frequently_atTop.mpr fun a => ?_
    obtain ⟨j, hj, d, w, hp⟩ := resting_selects hπ a
    refine ⟨rbRounds.length + j, by omega, .select (some ∅) (ofSec 0), ?_, rfl⟩
    refine (hπ j).2.trans ?_
    simp [restingEvent, hp]

end Witness

end DSA
