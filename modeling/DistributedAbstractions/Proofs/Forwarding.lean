import DistributedAbstractions.Lib.NetFacts
import DistributedAbstractions.Spec.BcFrame

/-! Broadcasts that only ever send frames of their own or frames they have received:
whatever arrives anywhere goes back to a request of the process it names. -/

namespace DSA

open CLib Net Trans

variable {σ ι ω : Type} {asked : ι → Option Broadcast} {maxRank : ℕ}

theorem mem_broadcasts {is : List (Input ι CString)} {e : Broadcast} :
    e ∈ broadcasts asked is ↔ ∃ i, .call i ∈ is ∧ asked i = some e := by
  simp only [broadcasts, List.mem_filterMap, mem_calls]

theorem mem_broadcasts_some {is : List (Input Broadcast CString)} {e : Broadcast} :
    e ∈ broadcasts some is ↔ .call e ∈ is := by
  simp [mem_broadcasts]

theorem broadcasts_mono {is is' : List (Input ι CString)} (h : is <+: is') {e : Broadcast}
    (he : e ∈ broadcasts asked is) : e ∈ broadcasts asked is' := by
  obtain ⟨i, hi, ha⟩ := mem_broadcasts.mp he
  exact mem_broadcasts.mpr ⟨i, h.subset hi, ha⟩

/-- Everything `p` sends is a frame for one of its requests or one that it has opened. -/
def Forwards (asked : ι → Option Broadcast) (maxRank : ℕ) (p : ℤ) (l : Proc σ ι CString ω) : Prop :=
  ∀ d P, .send d P ∈ l.effects →
    (∃ e ∈ broadcasts asked l.inputs, P = bcFrame (originalFrame p e)) ∨
    ∃ x P' f, .receive x P' ∈ l.inputs ∧ openFrame maxRank P' = some f ∧ P = bcFrame f

theorem Forwards.snoc {p : ℤ} {st st' : σ} {is : List (Input ι CString)} {i : Input ι CString}
    {es es' : List (Effect CString ω)} {c c' : Bool} (h : Forwards asked maxRank p ⟨st, is, es, c⟩)
    (hnew : ∀ d P, .send d P ∈ es' →
      (∃ e ∈ broadcasts asked (is ++ [i]), P = bcFrame (originalFrame p e)) ∨
      ∃ x P' f, .receive x P' ∈ is ++ [i] ∧ openFrame maxRank P' = some f ∧ P = bcFrame f) :
    Forwards asked maxRank p ⟨st', is ++ [i], es ++ es', c'⟩ := by
  intro d P hP
  rcases List.mem_append.mp hP with hP | hP
  · refine (h d P hP).imp ?_ ?_
    · rintro ⟨e, he, rfl⟩
      exact ⟨e, broadcasts_mono (List.prefix_append _ _) he, rfl⟩
    · rintro ⟨x, P', f, hx, hf, rfl⟩
      exact ⟨x, P', f, List.mem_append_left _ hx, hf, rfl⟩
  · exact hnew d P hP

theorem Forwards.shadow {p : ℤ} {l l' : Proc σ ι CString ω} (h : Forwards asked maxRank p l)
    (hs : Shadow l' l) : Forwards asked maxRank p l' := by
  intro d P hP
  rw [hs.1]
  exact h d P (hs.2.1.subset hP)

section

variable {P : Protocol Unit σ ι CString ω}
  {guard : State σ ι CString ω → Event Unit ι CString → Prop}
  {evs : List (Event Unit ι CString)} {s s' : State σ ι CString ω}

theorem mem_peers_of_inputs {ok : State σ ι CString ω → Event Unit ι CString → Prop}
    (h : Run (system P (crashSetting maxRank)) ok evs s) {p : ℤ} {i : Input ι CString}
    (hi : i ∈ (s.proc p).inputs) : p ∈ peers maxRank := by
  rcases correct_of_inputs h (p := p) with hc | ⟨h0, -⟩
  · exact mem_peers.mpr (rank_iff.mp (correct_iff.mp hc).1)
  · rw [h0] at hi; cases hi

theorem mem_peers_of_broadcast {ok : State σ ι CString ω → Event Unit ι CString → Prop}
    (h : Run (system P (crashSetting maxRank)) ok evs s) {p : ℤ} {e : Broadcast}
    (he : e ∈ broadcasts asked (s.proc p).inputs) : p ∈ peers maxRank := by
  obtain ⟨i, hi, -⟩ := mem_broadcasts.mp he
  exact mem_peers_of_inputs h hi

theorem mem_uncrashed_of_live {p : ℤ} (h : (crashSetting maxRank).live s p = true) :
    p ∈ uncrashed maxRank s := by
  obtain ⟨hc, hup⟩ := live_iff.mp h
  exact mem_uncrashed.mpr ⟨mem_peers.mpr (rank_iff.mp (correct_iff.mp hc).1), hup⟩

theorem deliver_of_admits {p q : ℤ} {a : Arrival ι CString} {M : CString}
    (ha : (crashSetting maxRank).admits s p a = true) (hi : a.input = .receive q M) :
    a = .deliver q M ∧ ⟨q, p, M⟩ ∈ s.flight ∧ plCarries ⟨q, p, M⟩ = true := by
  cases a with
  | call i => cases hi
  | forge src m => simp [Setting.admits, crashSetting] at ha
  | deliver src m =>
    cases hi
    simp only [Setting.admits, Bool.and_eq_true, decide_eq_true_eq] at ha
    exact ⟨rfl, ha⟩

variable (hfresh : ∀ s e, guard s e → FreshIds asked maxRank s e)
include hfresh

theorem broadcast_of_next (hr : Run (system P (crashSetting maxRank)) guard evs s)
    {ev : Event Unit ι CString} (hok : guard s ev)
    (hn : next P (crashSetting maxRank) s ev = some s') {p : ℤ} {e : Broadcast}
    (he : e ∈ broadcasts asked (s'.proc p).inputs) : e ∈ broadcasts asked (s.proc p).inputs ∨
      IsUuid e.uuid ∧ (∀ q, ∀ e' ∈ broadcasts asked (s.proc q).inputs, e'.uuid ≠ e.uuid) ∧
      ∀ q, ∀ e' ∈ broadcasts asked (s'.proc q).inputs, e' ∈ broadcasts asked (s.proc q).inputs ∨
        q = p ∧ e' = e := by
  rcases next_cases hn with ⟨p', r, a, stop, rfl, -, -, -, rfl⟩ | ⟨p', -, -, -, rfl⟩
  · -- only the acting process has a new input
    have hnew : ∀ q, ∀ e' ∈ broadcasts asked ((s.act P p' r a stop).proc q).inputs,
        e' ∈ broadcasts asked (s.proc q).inputs ∨
          q = p' ∧ ∃ i, a = .call i ∧ asked i = some e' := by
      intro q e' he'
      by_cases hq : q = p'
      · subst hq
        obtain ⟨i, hi, ha⟩ := mem_broadcasts.mp he'
        rw [act_inputs_self, List.mem_append, List.mem_singleton] at hi
        rcases hi with hi | hi
        · exact .inl (mem_broadcasts.mpr ⟨i, hi, ha⟩)
        · cases a with
          | call j => cases hi; exact .inr ⟨rfl, i, rfl, ha⟩
          | deliver src m => cases hi
          | forge src m => cases hi
      · rw [act_proc_ne P s p' r a stop hq] at he'
        exact .inl he'
    rcases hnew p e he with h | ⟨rfl, i, rfl, ha⟩
    · exact .inl h
    · obtain ⟨hid, hne⟩ := hfresh _ _ hok e ha
      refine .inr ⟨hid, fun q e' he' => ?_, fun q e' he' => ?_⟩
      · exact hne q (mem_ranks.mpr (mem_peers_of_broadcast hr he')) e' he'
      · refine (hnew q e' he').imp_right fun ⟨hq, j, hj, ha'⟩ => ⟨hq, ?_⟩
        cases hj
        exact Option.some.inj (ha'.symm.trans ha)
  · exact .inl (by simpa using he)

theorem broadcast_unique (h : Run (system P (crashSetting maxRank)) guard evs s) :
    (∀ p, ∀ e ∈ broadcasts asked (s.proc p).inputs, IsUuid e.uuid) ∧
    ∀ p q, ∀ e ∈ broadcasts asked (s.proc p).inputs, ∀ e' ∈ broadcasts asked (s.proc q).inputs,
      e.uuid = e'.uuid → p = q ∧ e = e' := by
  refine h.state_invariant (I := fun s =>
    (∀ p, ∀ e ∈ broadcasts asked (s.proc p).inputs, IsUuid e.uuid) ∧
    ∀ p q, ∀ e ∈ broadcasts asked (s.proc p).inputs, ∀ e' ∈ broadcasts asked (s.proc q).inputs,
      e.uuid = e'.uuid → p = q ∧ e = e')
    ⟨fun _ _ he => (List.not_mem_nil he).elim, fun _ _ _ he => (List.not_mem_nil he).elim⟩ ?_
  intro evs s ev s' hr ⟨hid, huniq⟩ hok hn
  refine ⟨fun p e he => ?_, fun p q e he e' he' heq => ?_⟩
  · exact (broadcast_of_next hfresh hr hok hn he).elim (hid p e) fun h => h.1
  · rcases broadcast_of_next hfresh hr hok hn he with ho | ⟨-, hne, hold⟩
    · rcases broadcast_of_next hfresh hr hok hn he' with ho' | ⟨-, hne', -⟩
      · exact huniq p q e ho e' ho' heq
      · exact absurd heq (hne' p e ho)
    · rcases hold q e' he' with ho' | ⟨rfl, rfl⟩
      · exact absurd heq.symm (hne q e' ho')
      · exact ⟨rfl, rfl⟩

/-- `P` is the frame for a request of a process, and is read as such. -/
def Original (asked : ι → Option Broadcast) (maxRank : ℕ) (s : State σ ι CString ω) (P : CString) : Prop :=
  ∃ o e, e ∈ broadcasts asked (s.proc o).inputs ∧ P = bcFrame (originalFrame o e) ∧
    (P.length + 1 < MAX_MSG_LEN → openFrame maxRank P = some (originalFrame o e))

def AllOriginal (asked : ι → Option Broadcast) (maxRank : ℕ) (s : State σ ι CString ω) : Prop :=
  ∀ p d M, .send d M ∈ (s.proc p).effects → Original asked maxRank s M

theorem allOriginal_next (hr : Run (system P (crashSetting maxRank)) guard evs s)
    {ev : Event Unit ι CString} (hok : guard s ev) (hn : next P (crashSetting maxRank) s ev = some s')
    (h : AllOriginal asked maxRank s) (hfw : ∀ p, Forwards asked maxRank p (s'.proc p)) :
    AllOriginal asked maxRank s' := by
  intro p d M hM
  have hr' : Run (system P (crashSetting maxRank)) guard _ s' := .snoc hr hok hn
  rcases hfw p d M hM with ⟨e, he, rfl⟩ | ⟨x, M', f, hx, hf, rfl⟩
  · refine ⟨p, e, he, rfl, fun hlen => openFrame_bcFrame hlen ?_ (mem_peers_of_broadcast hr' he)⟩
    exact ((broadcast_unique hfresh hr').1 p e he).2
  · -- the frame was sent before this step
    have hsrc := sourced_of_next hr hn (receive_inv hr) hx
    obtain ⟨d', hd'⟩ := said_iff.mp (hsrc.said.resolve_left (Finset.notMem_empty x))
    obtain ⟨o, e, he, rfl, hopen⟩ := h x d' M' hd'
    have hfit := hopen (plCarries_length (hsrc.carried.resolve_right (by simp [crashSetting])))
    obtain rfl := Option.some.inj (hf.symm.trans hfit)
    exact ⟨o, e, broadcasts_mono ((grows_next hn).inputs o) he, rfl, hopen⟩

theorem allOriginal_of_forwards (hfw : ∀ evs s p, Run (system P (crashSetting maxRank)) guard evs s →
    Forwards asked maxRank p (s.proc p)) (h : Run (system P (crashSetting maxRank)) guard evs s) :
    AllOriginal asked maxRank s :=
  h.state_invariant (fun _ _ _ hM => by cases hM) fun _ _ _ _ hr ih hok hn =>
    allOriginal_next hfresh hr hok hn ih fun p => hfw _ _ p (.snoc hr hok hn)

omit hfresh

/-- What can arrive has been sent by the process it comes from, and names a request. -/
theorem original_of_sourced (h : AllOriginal asked maxRank s) {p x : ℤ} {M : CString}
    (hsrc : Sourced (crashSetting maxRank) s p x M) : (∃ d, .send d M ∈ (s.proc x).effects) ∧
      ∃ o e, e ∈ broadcasts asked (s.proc o).inputs ∧ M = bcFrame (originalFrame o e) ∧
        openFrame maxRank M = some (originalFrame o e) := by
  obtain ⟨d, hd⟩ := said_iff.mp (hsrc.said.resolve_left (Finset.notMem_empty x))
  obtain ⟨o, e, he, hMe, hopen⟩ := h x d M hd
  exact ⟨⟨d, hd⟩, o, e, he, hMe,
    hopen (plCarries_length (hsrc.carried.resolve_right (by simp [crashSetting])))⟩

theorem sent_before (hr : Run (system P (crashSetting maxRank)) guard evs s)
    (h : AllOriginal asked maxRank s) {ev : Event Unit ι CString}
    (hn : next P (crashSetting maxRank) s ev = some s') {p x : ℤ} {M : CString} {f : Fields}
    (hM : .receive x M ∈ (s'.proc p).inputs) (hf : openFrame maxRank M = some f) :
    (∃ d, .send d (bcFrame f) ∈ (s.proc x).effects) ∧
      ⟨f.body, f.originalId⟩ ∈ broadcasts asked (s.proc f.originalSender).inputs := by
  have hsrc := sourced_of_next hr hn (receive_inv hr) hM
  obtain ⟨⟨d, hd⟩, o, e, he, rfl, hopen⟩ := original_of_sourced h hsrc
  obtain rfl := Option.some.inj (hf.symm.trans hopen)
  exact ⟨⟨d, hd⟩, he⟩

include hfresh

theorem isUuid_of_sourced (hr : Run (system P (crashSetting maxRank)) guard evs s)
    (h : AllOriginal asked maxRank s) {p x : ℤ} {M : CString} {f : Fields}
    (hsrc : Sourced (crashSetting maxRank) s p x M) (hf : openFrame maxRank M = some f) :
    IsUuid f.originalId := by
  obtain ⟨-, o, e, he, -, hopen⟩ := original_of_sourced h hsrc
  obtain rfl := Option.some.inj (hf.symm.trans hopen)
  exact (broadcast_unique hfresh hr).1 o e he

theorem sourced_unique (hr : Run (system P (crashSetting maxRank)) guard evs s)
    (h : AllOriginal asked maxRank s) {p x p' x' : ℤ} {M M' : CString} {f f' : Fields}
    (hM : Sourced (crashSetting maxRank) s p x M) (hf : openFrame maxRank M = some f)
    (hM' : Sourced (crashSetting maxRank) s p' x' M') (hf' : openFrame maxRank M' = some f')
    (hid : f.originalId = f'.originalId) : M = M' ∧ f = f' := by
  obtain ⟨-, o, e, he, hMe, hopen⟩ := original_of_sourced h hM
  obtain ⟨-, o', e', he', hMe', hopen'⟩ := original_of_sourced h hM'
  obtain rfl := Option.some.inj (hf.symm.trans hopen)
  obtain rfl := Option.some.inj (hf'.symm.trans hopen')
  obtain ⟨rfl, rfl⟩ := (broadcast_unique hfresh hr).2 o o' e he e' he' hid
  exact ⟨hMe.trans hMe'.symm, rfl⟩

theorem frame_unique (hr : Run (system P (crashSetting maxRank)) guard evs s)
    (h : AllOriginal asked maxRank s) {p x p' x' : ℤ} {M M' : CString} {f f' : Fields}
    (hM : .receive x M ∈ (s.proc p).inputs) (hf : openFrame maxRank M = some f)
    (hM' : .receive x' M' ∈ (s.proc p').inputs) (hf' : openFrame maxRank M' = some f')
    (hid : f.originalId = f'.originalId) : f = f' :=
  (sourced_unique hfresh hr h (receive_inv hr hM) hf (receive_inv hr hM') hf' hid).2

end

end DSA
