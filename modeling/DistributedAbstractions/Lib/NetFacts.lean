import DistributedAbstractions.Lib.Net
import Mathlib.Data.List.Count
import Mathlib.Data.List.Nodup

/-! What holds of every run of a network, whatever the processes compute: histories
only grow, every packet sent is on its way or handled, and what a process takes in
from a correct process was sent by it. -/

namespace Net

open Trans

variable {ρ σ ι μ ω : Type} {F : Setting μ}

theorem mem_packets {p : ℤ} {es : List (Effect μ ω)} {k : Packet μ} :
    k ∈ packets p es ↔ k.src = p ∧ .send k.dst k.msg ∈ es := by
  simp only [packets, List.mem_filterMap]
  constructor
  · rintro ⟨e, he, hk⟩
    cases e with
    | send d m =>
      obtain rfl := Option.some.inj hk
      exact ⟨rfl, he⟩
    | indicate o => cases hk
  · rintro ⟨rfl, h⟩
    exact ⟨_, h, rfl⟩

theorem packets_append (p : ℤ) (es es' : List (Effect μ ω)) :
    packets p (es ++ es') = packets p es ++ packets p es' :=
  List.filterMap_append

theorem packets_map_send (p : ℤ) (m : μ) (rs : List ℤ) :
    packets p (rs.map fun y => (.send y m : Effect μ ω)) = rs.map fun y => ⟨p, y, m⟩ := by
  rw [packets, List.filterMap_map]
  exact congrFun List.filterMap_eq_map rs

theorem mem_indications {es : List (Effect μ ω)} {o : ω} :
    o ∈ indications es ↔ .indicate o ∈ es := by
  simp only [indications, List.mem_filterMap]
  constructor
  · rintro ⟨e, he, ho⟩
    cases e with
    | send d m => cases ho
    | indicate o' =>
      obtain rfl := Option.some.inj ho
      exact he
  · exact fun h => ⟨_, h, rfl⟩

@[simp] theorem indications_append (es es' : List (Effect μ ω)) :
    indications (es ++ es') = indications es ++ indications es' :=
  List.filterMap_append

@[simp] theorem indications_nil : indications ([] : List (Effect μ ω)) = [] := rfl

@[simp] theorem indications_cons_send (d : ℤ) (m : μ) (es : List (Effect μ ω)) :
    indications (.send d m :: es) = indications es := rfl

@[simp] theorem indications_cons_indicate (o : ω) (es : List (Effect μ ω)) :
    indications (.indicate o :: es) = o :: indications es := rfl

theorem indications_eq_nil {es : List (Effect μ ω)} (h : ∀ o, .indicate o ∉ es) : indications es = [] :=
  List.eq_nil_iff_forall_not_mem.mpr fun o ho => h o (mem_indications.mp ho)

theorem nodup_map_append_singleton {α β : Type} {key : α → β} {l : List α} {a : α} :
    ((l ++ [a]).map key).Nodup ↔ (l.map key).Nodup ∧ ∀ b ∈ l, key b ≠ key a := by
  simp [List.nodup_append]

theorem mem_calls {is : List (Input ι μ)} {i : ι} : i ∈ calls is ↔ .call i ∈ is := by
  simp only [calls, List.mem_filterMap]
  constructor
  · rintro ⟨x, hx, hi⟩
    cases x with
    | call j =>
      obtain rfl := Option.some.inj hi
      exact hx
    | receive src m => cases hi
  · exact fun h => ⟨_, h, rfl⟩

theorem prefix_of_cut {α : Type} (stop : Option ℕ) (l : List α) : cut stop l <+: l := by
  cases stop with
  | none => exact List.prefix_refl _
  | some k => exact List.take_prefix _ _

theorem rank_iff {p : ℤ} : F.rank p = true ↔ 1 ≤ p ∧ p ≤ F.size := by simp [Setting.rank]

theorem correct_iff {p : ℤ} : F.correct p = true ↔ F.rank p = true ∧ p ∉ F.byz := by
  simp [Setting.correct]

theorem live_iff {s : State σ ι μ ω} {p : ℤ} :
    F.live s p = true ↔ F.correct p = true ∧ (s.proc p).crashed = false := by
  simp [Setting.live]

section Crash

variable (s : State σ ι μ ω) (p : ℤ)

theorem crash_proc_ne {q : ℤ} (h : q ≠ p) : (s.crash p).proc q = s.proc q := by
  simp [State.crash, h]

@[simp] theorem crash_inputs (q : ℤ) : ((s.crash p).proc q).inputs = (s.proc q).inputs := by
  by_cases h : q = p
  · subst h; simp [State.crash]
  · rw [crash_proc_ne s p h]

@[simp] theorem crash_effects (q : ℤ) : ((s.crash p).proc q).effects = (s.proc q).effects := by
  by_cases h : q = p
  · subst h; simp [State.crash]
  · rw [crash_proc_ne s p h]

@[simp] theorem crash_state (q : ℤ) : ((s.crash p).proc q).state = (s.proc q).state := by
  by_cases h : q = p
  · subst h; simp [State.crash]
  · rw [crash_proc_ne s p h]

@[simp] theorem crash_flight : (s.crash p).flight = s.flight := rfl

@[simp] theorem crash_handled : (s.crash p).handled = s.handled := rfl

end Crash

/-- Histories are only ever extended. -/
structure Grows (s s' : State σ ι μ ω) : Prop where
  inputs : ∀ p, (s.proc p).inputs <+: (s'.proc p).inputs
  effects : ∀ p, (s.proc p).effects <+: (s'.proc p).effects
  handled : s.handled <+: s'.handled
  crashed : ∀ p, (s.proc p).crashed = true → s'.proc p = s.proc p

theorem Grows.refl (s : State σ ι μ ω) : Grows s s :=
  ⟨fun _ => List.prefix_refl _, fun _ => List.prefix_refl _, List.prefix_refl _, fun _ _ => rfl⟩

theorem Grows.trans {a b c : State σ ι μ ω} (h : Grows a b) (h' : Grows b c) : Grows a c :=
  ⟨fun p => (h.inputs p).trans (h'.inputs p), fun p => (h.effects p).trans (h'.effects p),
    h.handled.trans h'.handled,
    fun p hp => (h'.crashed p (by rw [h.crashed p hp]; exact hp)).trans (h.crashed p hp)⟩

variable [DecidableEq μ] {P : Protocol ρ σ ι μ ω} {ok : State σ ι μ ω → Event ρ ι μ → Prop}

theorem said_iff {s : State σ ι μ ω} {p : ℤ} {m : μ} :
    s.said p m = true ↔ ∃ d, .send d m ∈ (s.proc p).effects := by
  simp only [State.said, List.any_eq_true]
  constructor
  · rintro ⟨e, he, hm⟩
    cases e with
    | send d m' => exact ⟨d, (by simpa using hm : m' = m) ▸ he⟩
    | indicate o => cases hm
  · rintro ⟨d, hd⟩
    exact ⟨_, hd, by simp⟩

/-- All that a step can do. -/
theorem next_cases {s s' : State σ ι μ ω} {e : Event ρ ι μ} (h : next P F s e = some s') :
    (∃ p r a stop, e = .act p r a stop ∧ F.live s p = true ∧ F.admits s p a = true ∧
      (stop = none ∨ F.crashes = true) ∧ s' = s.act P p r a stop) ∨
    (∃ p, e = .crash p ∧ F.live s p = true ∧ F.crashes = true ∧ s' = s.crash p) := by
  cases e with
  | act p r a stop =>
    simp only [next, Option.ite_none_right_eq_some, Bool.and_eq_true, Bool.or_eq_true,
      Option.isNone_iff_eq_none, Option.some.injEq] at h
    exact .inl ⟨p, r, a, stop, rfl, h.1.1.1, h.1.1.2, h.1.2, h.2.symm⟩
  | crash p =>
    simp only [next, Option.ite_none_right_eq_some, Bool.and_eq_true, Option.some.injEq] at h
    exact .inr ⟨p, rfl, h.1.1, h.1.2, h.2.symm⟩

section Act

variable (P) (s : State σ ι μ ω) (p : ℤ) (r : ρ) (a : Arrival ι μ) (stop : Option ℕ)

@[simp] theorem act_inputs_self :
    ((s.act P p r a stop).proc p).inputs = (s.proc p).inputs ++ [a.input] := by
  simp [State.act]

@[simp] theorem act_effects_self :
    ((s.act P p r a stop).proc p).effects =
      (s.proc p).effects ++ cut stop (P.handle r (s.proc p).state a.input).2 := by
  simp [State.act]

@[simp] theorem act_state_self :
    ((s.act P p r a stop).proc p).state = (P.handle r (s.proc p).state a.input).1 := by
  simp [State.act]

@[simp] theorem act_crashed_self : ((s.act P p r a stop).proc p).crashed = stop.isSome := by
  simp [State.act]

theorem act_proc_ne {q : ℤ} (h : q ≠ p) : (s.act P p r a stop).proc q = s.proc q := by
  simp [State.act, h]

theorem act_none_proc (h : (s.proc p).crashed = false) :
    (s.act P p r a none).proc p = (s.proc p).perform P r a.input := by
  simp [State.act, Proc.perform, cut, h]

theorem act_flight : (s.act P p r a stop).flight =
    (s.consume p a).flight ++ packets p (cut stop (P.handle r (s.proc p).state a.input).2) := rfl

@[simp] theorem act_handled : (s.act P p r a stop).handled = (s.consume p a).handled := rfl

end Act

theorem consume_handled_prefix (s : State σ ι μ ω) (p : ℤ) (a : Arrival ι μ) :
    s.handled <+: (s.consume p a).handled := by
  cases a with
  | deliver src m => exact List.prefix_append _ _
  | call i => exact List.prefix_refl _
  | forge src m => exact List.prefix_refl _

theorem grows_next {s s' : State σ ι μ ω} {e : Event ρ ι μ} (h : next P F s e = some s') :
    Grows s s' := by
  rcases next_cases h with ⟨p, r, a, stop, -, hl, -, -, rfl⟩ | ⟨p, -, hl, -, rfl⟩
  · refine ⟨fun q => ?_, fun q => ?_, consume_handled_prefix s p a, fun q hq => ?_⟩
    · by_cases hqp : q = p
      · subst hqp; simp
      · rw [act_proc_ne P s p r a stop hqp]
    · by_cases hqp : q = p
      · subst hqp; simp
      · rw [act_proc_ne P s p r a stop hqp]
    · apply act_proc_ne P s p r a stop
      intro hqp
      rw [hqp, (live_iff.mp hl).2] at hq
      cases hq
  · refine ⟨fun q => by simp, fun q => by simp, List.prefix_refl _, fun q hq => ?_⟩
    apply crash_proc_ne s p
    intro hqp
    rw [hqp, (live_iff.mp hl).2] at hq
    cases hq

theorem grows_of_append {pre post : List (Event ρ ι μ)} {s₀ s : State σ ι μ ω}
    (h₀ : Run (system P F) ok pre s₀) (h : Run (system P F) ok (pre ++ post) s) : Grows s₀ s :=
  h₀.rel_of_append Grows.refl (fun _ _ _ => Grows.trans) (fun _ _ _ => grows_next) h

theorem said_mono {s s' : State σ ι μ ω} (h : Grows s s') {p : ℤ} {m : μ}
    (hs : s.said p m = true) : s'.said p m = true := by
  obtain ⟨d, hd⟩ := said_iff.mp hs
  exact said_iff.mpr ⟨d, (h.effects p).subset hd⟩

/-- `l'` is `l`, or `l` crashed before it performed all of its effects. -/
def Shadow (l' l : Proc σ ι μ ω) : Prop :=
  l'.inputs = l.inputs ∧ l'.effects <+: l.effects ∧ (l'.crashed = false → l' = l)

/-- A step keeps a property of single processes that the code keeps, of each process
that has not crashed, and of what a crashed one would have become. -/
theorem local_next {R : ℤ → Proc σ ι μ ω → Prop} {s s' : State σ ι μ ω} {e : Event ρ ι μ}
    (hn : next P F s e = some s') (h : ∀ q, ∃ l, R q l ∧ Shadow (s.proc q) l)
    (hs : ∀ p r a stop, e = .act p r a stop → F.live s p = true → F.admits s p a = true →
      R p (s.proc p) → R p ((s.proc p).perform P r a.input)) (q : ℤ) :
    ∃ l, R q l ∧ Shadow (s'.proc q) l := by
  obtain ⟨l, hl, hsh⟩ := h q
  rcases next_cases hn with ⟨p, r, a, stop, rfl, hp, ha, -, rfl⟩ | ⟨p, -, hp, -, rfl⟩
  · by_cases hqp : q = p
    · subst hqp
      have hc := (live_iff.mp hp).2
      obtain rfl := hsh.2.2 hc
      refine ⟨_, hs _ _ _ _ rfl hp ha hl, by simp [Proc.perform], ?_, fun h => ?_⟩
      · rw [act_effects_self]
        exact (List.prefix_append_right_inj _).mpr (prefix_of_cut _ _)
      · obtain rfl : stop = none := by simpa using h
        exact act_none_proc P s q r a hc
    · exact ⟨l, hl, by rw [act_proc_ne P s p r a stop hqp]; exact hsh⟩
  · refine ⟨l, hl, by simpa using hsh.1, by simpa using hsh.2.1, fun h => ?_⟩
    by_cases hqp : q = p
    · subst hqp; simp [State.crash] at h
    · rw [crash_proc_ne s p hqp] at h ⊢
      exact hsh.2.2 h

omit [DecidableEq μ] in
theorem local_start {R : ℤ → Proc σ ι μ ω → Prop} (h0 : ∀ p, R p ⟨P.init p, [], [], false⟩) (q : ℤ) :
    ∃ l, R q l ∧ Shadow ((start P).proc q) l :=
  ⟨_, h0 q, rfl, List.prefix_refl _, fun _ => rfl⟩

theorem local_invariant {R : ℤ → Proc σ ι μ ω → Prop} (h0 : ∀ p, R p ⟨P.init p, [], [], false⟩)
    (hs : ∀ evs s p r a stop, Run (system P F) ok evs s → F.live s p = true →
      F.admits s p a = true → ok s (.act p r a stop) → R p (s.proc p) →
      R p ((s.proc p).perform P r a.input))
    {evs : List (Event ρ ι μ)} {s : State σ ι μ ω} (h : Run (system P F) ok evs s) (p : ℤ) :
    ∃ l, R p l ∧ Shadow (s.proc p) l := by
  revert p
  refine h.state_invariant (I := fun s => ∀ p, ∃ l, R p l ∧ Shadow (s.proc p) l) (local_start h0) ?_
  intro evs s e s' hr ih hok hn
  refine local_next hn ih fun p r a stop he hp ha hl => ?_
  exact hs _ _ _ _ _ _ hr hp ha (he ▸ hok) hl

/-- `local_invariant` for the processes that have not crashed. -/
theorem local_invariant_of_live {R : ℤ → Proc σ ι μ ω → Prop}
    (h0 : ∀ p, R p ⟨P.init p, [], [], false⟩)
    (hs : ∀ evs s p r a stop, Run (system P F) ok evs s → F.live s p = true →
      F.admits s p a = true → ok s (.act p r a stop) → R p (s.proc p) →
      R p ((s.proc p).perform P r a.input))
    {evs : List (Event ρ ι μ)} {s : State σ ι μ ω} (h : Run (system P F) ok evs s) {p : ℤ}
    (hp : (s.proc p).crashed = false) : R p (s.proc p) := by
  obtain ⟨l, hl, hsh⟩ := local_invariant h0 hs h p
  exact hsh.2.2 hp ▸ hl

/-- Nobody indicates anything twice if each handler indicates nothing, or one thing of which
there is none yet with its key. -/
theorem nodup_indications {κ : Type} {key : ω → κ}
    (hs : ∀ evs s p r a stop, Run (system P F) ok evs s → F.live s p = true → F.admits s p a = true →
      ok s (.act p r a stop) → indications (P.handle r (s.proc p).state a.input).2 = [] ∨
        ∃ o, indications (P.handle r (s.proc p).state a.input).2 = [o] ∧
          ∀ o' ∈ indications (s.proc p).effects, key o' ≠ key o)
    {evs : List (Event ρ ι μ)} {s : State σ ι μ ω} (h : Run (system P F) ok evs s) (p : ℤ) :
    ((indications (s.proc p).effects).map key).Nodup := by
  suffices H : ∃ l : Proc σ ι μ ω, ((indications l.effects).map key).Nodup ∧ Shadow (s.proc p) l by
    obtain ⟨l, hl, -, heff, -⟩ := H
    exact hl.sublist ((heff.sublist.filterMap _).map _)
  refine local_invariant (R := fun _ l => ((indications l.effects).map key).Nodup)
    (fun _ => List.nodup_nil) (fun evs s p r a stop hr hl ha hok ih => ?_) h p
  rw [Proc.perform, indications_append]
  rcases hs evs s p r a stop hr hl ha hok with hnone | ⟨o, hone, hnew⟩
  · rw [hnone, List.append_nil]
    exact ih
  · rw [hone, nodup_map_append_singleton]
    exact ⟨ih, hnew⟩

theorem not_crashed (hF : F.crashes = false) {evs : List (Event ρ ι μ)} {s : State σ ι μ ω}
    (h : Run (system P F) ok evs s) (p : ℤ) : (s.proc p).crashed = false := by
  revert p
  refine h.state_invariant (I := fun s => ∀ p, (s.proc p).crashed = false) (fun _ => rfl) ?_
  intro evs s e s' _ ih _ hn q
  rcases next_cases hn with ⟨p, r, a, stop, -, -, -, hst, rfl⟩ | ⟨p, -, -, hc, -⟩
  · obtain rfl : stop = none := by simpa [hF] using hst
    by_cases hqp : q = p
    · subst hqp; simp
    · rw [act_proc_ne P s p r a none hqp]; exact ih q
  · rw [hF] at hc; cases hc

/-- Only correct processes run the code. -/
theorem correct_of_inputs {evs : List (Event ρ ι μ)} {s : State σ ι μ ω}
    (h : Run (system P F) ok evs s) {p : ℤ} :
    F.correct p = true ∨ (s.proc p).inputs = [] ∧ (s.proc p).effects = [] := by
  revert p
  refine h.state_invariant (I := fun s => ∀ {p : ℤ}, F.correct p = true ∨
    (s.proc p).inputs = [] ∧ (s.proc p).effects = []) (.inr ⟨rfl, rfl⟩) ?_
  intro evs s e s' _ ih _ hn q
  rcases next_cases hn with ⟨p, r, a, stop, -, hp, -, -, rfl⟩ | ⟨p, -, -, -, rfl⟩
  · by_cases hqp : q = p
    · subst hqp; exact .inl (live_iff.mp hp).1
    · rw [act_proc_ne P s p r a stop hqp]; exact ih
  · simpa using ih (p := q)

theorem correct_of_send {evs : List (Event ρ ι μ)} {s : State σ ι μ ω}
    (h : Run (system P F) ok evs s) {p d : ℤ} {m : μ} (hm : .send d m ∈ (s.proc p).effects) :
    F.correct p = true := by
  rcases correct_of_inputs h (p := p) with hc | ⟨-, he⟩
  · exact hc
  · rw [he] at hm; cases hm

theorem count_packets_ne {p : ℤ} {k : Packet μ} (h : k.src ≠ p) (es : List (Effect μ ω)) :
    (packets p es).count k = 0 :=
  List.count_eq_zero.mpr fun hk => h (mem_packets.mp hk).1

theorem consume_count {s : State σ ι μ ω} {p : ℤ} {a : Arrival ι μ}
    (ha : F.admits s p a = true) (k : Packet μ) :
    (s.consume p a).flight.count k + (s.consume p a).handled.count k =
      s.flight.count k + s.handled.count k := by
  cases a with
  | call i => rfl
  | forge src m => rfl
  | deliver src m =>
    have hmem : ⟨src, p, m⟩ ∈ s.flight := by
      simp only [Setting.admits, Bool.and_eq_true, decide_eq_true_eq] at ha
      exact ha.1
    have hpos := List.count_pos_iff.mpr hmem
    simp only [State.consume, List.count_append, List.count_erase, List.count_singleton]
    by_cases hk : (⟨src, p, m⟩ : Packet μ) = k
    · subst hk; simp; omega
    · simp [hk]

/-- Every packet sent is on its way or handled, and nothing else is. -/
theorem sent_count {evs : List (Event ρ ι μ)} {s : State σ ι μ ω}
    (h : Run (system P F) ok evs s) (k : Packet μ) :
    (packets k.src (s.proc k.src).effects).count k = s.flight.count k + s.handled.count k := by
  refine h.state_invariant (I := fun s =>
    (packets k.src (s.proc k.src).effects).count k = s.flight.count k + s.handled.count k) rfl ?_
  intro evs s e s' _ ih _ hn
  rcases next_cases hn with ⟨p, r, a, stop, -, -, ha, -, rfl⟩ | ⟨p, -, -, -, rfl⟩
  · have hc := consume_count ha k
    rw [act_flight, act_handled, List.count_append]
    by_cases hk : k.src = p
    · subst hk
      rw [act_effects_self, packets_append, List.count_append]
      omega
    · rw [act_proc_ne P s p r a stop hk, count_packets_ne hk]
      omega
  · simpa using ih

theorem handled_sent {evs : List (Event ρ ι μ)} {s : State σ ι μ ω}
    (h : Run (system P F) ok evs s) {k : Packet μ} (hk : k ∈ s.flight ∨ k ∈ s.handled) :
    .send k.dst k.msg ∈ (s.proc k.src).effects := by
  have hpos : 0 < (packets k.src (s.proc k.src).effects).count k := by
    rw [sent_count h k]
    rcases hk with hk | hk
    · have := List.count_pos_iff.mpr hk; omega
    · have := List.count_pos_iff.mpr hk; omega
  exact (mem_packets.mp (List.count_pos_iff.mp hpos)).2

/-- In a quiet state everything sent inside `A` has been handled. -/
theorem handled_of_quiet {evs : List (Event ρ ι μ)} {s : State σ ι μ ω}
    (h : Run (system P F) ok evs s) {A : Finset ℤ} (hq : Quiet s A) {p q : ℤ} {m : μ}
    (hp : p ∈ A) (hqA : q ∈ A) (hm : .send q m ∈ (s.proc p).effects) : ⟨p, q, m⟩ ∈ s.handled := by
  have hpos : 0 < (packets p (s.proc p).effects).count ⟨p, q, m⟩ :=
    List.count_pos_iff.mpr (mem_packets.mpr ⟨rfl, hm⟩)
  have hz : s.flight.count ⟨p, q, m⟩ = 0 :=
    List.count_eq_zero.mpr fun hk => hq _ hk ⟨hp, hqA⟩
  have := sent_count h ⟨p, q, m⟩
  exact List.count_pos_iff.mp (by simp only at this; omega)

/-- What has been handled is among the inputs of its recipient. -/
theorem count_handled_le {evs : List (Event ρ ι μ)} {s : State σ ι μ ω} [DecidableEq ι]
    (h : Run (system P F) ok evs s) (k : Packet μ) :
    s.handled.count k ≤ (s.proc k.dst).inputs.count (.receive k.src k.msg) := by
  refine h.state_invariant (I := fun s =>
    s.handled.count k ≤ (s.proc k.dst).inputs.count (.receive k.src k.msg)) le_rfl ?_
  intro evs s e s' _ ih _ hn
  rcases next_cases hn with ⟨p, r, a, stop, -, -, -, -, rfl⟩ | ⟨p, -, -, -, rfl⟩
  · have hle := ((grows_next hn).inputs k.dst).sublist.count_le (.receive k.src k.msg)
    cases a with
    | call i => exact ih.trans hle
    | forge src m => exact ih.trans hle
    | deliver src m =>
      by_cases hk : (⟨src, p, m⟩ : Packet μ) = k
      · subst hk
        simp only [act_handled, State.consume, act_inputs_self, Arrival.input, List.count_append,
          List.count_singleton, beq_self_eq_true, if_true]
        exact Nat.add_le_add_right ih 1
      · simp only [act_handled, State.consume, List.count_append, List.count_singleton]
        have : ((⟨src, p, m⟩ : Packet μ) == k) = false := by simpa using hk
        simp only [this, Bool.false_eq_true, if_false, Nat.add_zero]
        exact ih.trans hle
  · simpa using ih

theorem receive_of_handled {evs : List (Event ρ ι μ)} {s : State σ ι μ ω} [DecidableEq ι]
    (h : Run (system P F) ok evs s) {k : Packet μ} (hk : k ∈ s.handled) :
    .receive k.src k.msg ∈ (s.proc k.dst).inputs :=
  List.count_pos_iff.mp ((List.count_pos_iff.mpr hk).trans_le (count_handled_le h k))

/-- Without an adversary a process takes in exactly what has been handled. -/
theorem count_inputs {evs : List (Event ρ ι μ)} {s : State σ ι μ ω} [DecidableEq ι]
    (hbyz : F.byz = ∅) (hrep : F.replays = false) (h : Run (system P F) ok evs s) (k : Packet μ) :
    (s.proc k.dst).inputs.count (.receive k.src k.msg) = s.handled.count k := by
  refine h.state_invariant (I := fun s =>
    (s.proc k.dst).inputs.count (.receive k.src k.msg) = s.handled.count k) rfl ?_
  intro evs s e s' _ ih _ hn
  rcases next_cases hn with ⟨p, r, a, stop, -, -, ha, -, rfl⟩ | ⟨p, -, -, -, rfl⟩
  · cases a with
    | call i =>
      by_cases hp : k.dst = p
      · subst hp; simpa [Arrival.input, State.consume, List.count_singleton] using ih
      · rw [act_proc_ne P s p r _ stop hp]; exact ih
    | forge src m => simp [Setting.admits, hbyz, hrep] at ha
    | deliver src m =>
      simp only [act_handled, State.consume, List.count_append, List.count_singleton]
      by_cases hp : k.dst = p
      · subst hp
        simp only [act_inputs_self, Arrival.input, List.count_append, List.count_singleton, ih]
        congr 1
        cases k
        simp
      · rw [act_proc_ne P s p r _ stop hp, ih]
        have : ((⟨src, p, m⟩ : Packet μ) == k) = false := by
          simpa using fun h => hp (by rw [← h])
        simp [this]
  · simpa using ih

/-- A message that `p` can get from `q`: if `q` is not in `byz` it has sent the message
to somebody. -/
structure Sourced (F : Setting μ) (s : State σ ι μ ω) (p q : ℤ) (m : μ) : Prop where
  rank : F.rank q = true
  carried : F.carries ⟨q, p, m⟩ = true ∨ F.forges ⟨q, p, m⟩ = true
  said : q ∈ F.byz ∨ s.said q m = true

theorem Sourced.mono {s s' : State σ ι μ ω} (hg : Grows s s') {p q : ℤ} {m : μ}
    (h : Sourced F s p q m) : Sourced F s' p q m :=
  ⟨h.rank, h.carried, h.said.imp_right (said_mono hg)⟩

theorem sourced_of_admits {evs : List (Event ρ ι μ)} {s : State σ ι μ ω}
    (h : Run (system P F) ok evs s) {p q : ℤ} {a : Arrival ι μ} {m : μ}
    (ha : F.admits s p a = true) (hi : a.input = .receive q m) : Sourced F s p q m := by
  cases a with
  | call i => cases hi
  | deliver src m' =>
    obtain ⟨rfl, rfl⟩ : src = q ∧ m' = m := by simpa [Arrival.input] using hi
    simp only [Setting.admits, Bool.and_eq_true, decide_eq_true_eq] at ha
    have hs := handled_sent h (.inl ha.1)
    exact ⟨(correct_iff.mp (correct_of_send h hs)).1, .inl ha.2, .inr (said_iff.mpr ⟨_, hs⟩)⟩
  | forge src m' =>
    obtain ⟨rfl, rfl⟩ : src = q ∧ m' = m := by simpa [Arrival.input] using hi
    simp only [Setting.admits, Bool.and_eq_true, Bool.or_eq_true, decide_eq_true_eq] at ha
    exact ⟨ha.1.1, .inr ha.2, ha.1.2.imp_right And.right⟩

/-- What a process takes in at a step was there before it. -/
theorem sourced_of_next {evs : List (Event ρ ι μ)} {s s' : State σ ι μ ω} {e : Event ρ ι μ}
    (h : Run (system P F) ok evs s) (hn : next P F s e = some s') {p q : ℤ} {m : μ}
    (hold : .receive q m ∈ (s.proc p).inputs → Sourced F s p q m)
    (hm : .receive q m ∈ (s'.proc p).inputs) : Sourced F s p q m := by
  rcases next_cases hn with ⟨p', r, a, stop, -, -, ha, -, rfl⟩ | ⟨p', -, -, -, rfl⟩
  · by_cases hp : p = p'
    · subst hp
      rw [act_inputs_self, List.mem_append, List.mem_singleton] at hm
      exact hm.elim hold fun hm => sourced_of_admits h ha hm.symm
    · rw [act_proc_ne P s p' r a stop hp] at hm
      exact hold hm
  · exact hold (by simpa using hm)

theorem receive_inv {evs : List (Event ρ ι μ)} {s : State σ ι μ ω}
    (h : Run (system P F) ok evs s) {p q : ℤ} {m : μ}
    (hm : .receive q m ∈ (s.proc p).inputs) : Sourced F s p q m := by
  refine h.state_invariant (I := fun s => .receive q m ∈ (s.proc p).inputs → Sourced F s p q m)
    (fun h => by cases h) ?_ hm
  intro evs s e s' hr ih _ hn hm
  exact (sourced_of_next hr hn ih hm).mono (grows_next hn)

section Alike

variable {A : Finset ℤ} {s t u : State σ ι μ ω}

/-- The processes of `A` are in the same states, and the same is on its way to them. What has been done before
may differ. -/
structure Alike (A : Finset ℤ) (s t : State σ ι μ ω) : Prop where
  state : ∀ p ∈ A, (s.proc p).state = (t.proc p).state
  crashed : ∀ p ∈ A, (s.proc p).crashed = (t.proc p).crashed
  flight : (s.flight.filter fun k => decide (k.dst ∈ A)) = t.flight.filter fun k => decide (k.dst ∈ A)

instance [DecidableEq σ] : Decidable (Alike A s t) :=
  decidable_of_iff ((∀ p ∈ A, (s.proc p).state = (t.proc p).state) ∧
      (∀ p ∈ A, (s.proc p).crashed = (t.proc p).crashed) ∧
      (s.flight.filter fun k => decide (k.dst ∈ A)) = t.flight.filter fun k => decide (k.dst ∈ A))
    ⟨fun ⟨h1, h2, h3⟩ => ⟨h1, h2, h3⟩, fun h => ⟨h.state, h.crashed, h.flight⟩⟩

omit [DecidableEq μ] in
theorem Alike.refl (s : State σ ι μ ω) : Alike A s s := ⟨fun _ _ => rfl, fun _ _ => rfl, rfl⟩

omit [DecidableEq μ] in
theorem Alike.trans (h : Alike A s t) (h' : Alike A t u) : Alike A s u :=
  ⟨fun p hp => (h.state p hp).trans (h'.state p hp), fun p hp => (h.crashed p hp).trans (h'.crashed p hp),
    h.flight.trans h'.flight⟩

omit [DecidableEq μ] in
theorem Alike.mem_flight (h : Alike A s t) {k : Packet μ} (hk : k.dst ∈ A) : k ∈ s.flight ↔ k ∈ t.flight := by
  have hmem : ∀ l : List (Packet μ), k ∈ l ↔ k ∈ l.filter fun k => decide (k.dst ∈ A) := fun l => by simp [hk]
  rw [hmem, h.flight, ← hmem]

theorem Alike.act (h : Alike A s t) {p : ℤ} (hp : p ∈ A) (r : ρ) (a : Arrival ι μ) (stop : Option ℕ) :
    Alike A (s.act P p r a stop) (t.act P p r a stop) := by
  refine ⟨fun q hq => ?_, fun q hq => ?_, ?_⟩
  · by_cases hqp : q = p
    · subst hqp
      rw [act_state_self, act_state_self, h.state q hq]
    · rw [act_proc_ne P s p r a stop hqp, act_proc_ne P t p r a stop hqp]
      exact h.state q hq
  · by_cases hqp : q = p
    · subst hqp
      rw [act_crashed_self, act_crashed_self]
    · rw [act_proc_ne P s p r a stop hqp, act_proc_ne P t p r a stop hqp]
      exact h.crashed q hq
  · have hconsume : ((s.consume p a).flight.filter fun k => decide (k.dst ∈ A)) =
        (t.consume p a).flight.filter fun k => decide (k.dst ∈ A) := by
      cases a with
      | deliver src m => rw [State.consume, State.consume, ← List.erase_filter, ← List.erase_filter, h.flight]
      | call i => exact h.flight
      | forge src m => exact h.flight
    rw [act_flight, act_flight, List.filter_append, List.filter_append, hconsume, h.state p hp]

/-- Where nothing is forged, what the processes of `A` can do depends on no more. -/
theorem Alike.next (h : Alike A s t) {p : ℤ} (hp : p ∈ A) {r : ρ} {a : Arrival ι μ} {stop : Option ℕ}
    (ha : ∀ src m, a ≠ .forge src m) {t' : State σ ι μ ω} (hn : next P F t (.act p r a stop) = some t') :
    ∃ s', Net.next P F s (.act p r a stop) = some s' ∧ Alike A s' t' := by
  have hlive : F.live s p = F.live t p := by rw [Setting.live, Setting.live, h.crashed p hp]
  have hadmits : F.admits s p a = F.admits t p a := by
    cases a with
    | call i => rfl
    | deliver src m => simp only [Setting.admits, h.mem_flight (k := ⟨src, p, m⟩) hp]
    | forge src m => exact absurd rfl (ha src m)
  rw [Net.next] at hn ⊢
  split_ifs at hn with hcan
  obtain rfl := Option.some.inj hn
  exact ⟨_, if_pos (by rwa [hlive, hadmits]), h.act hp r a stop⟩

end Alike

end Net
