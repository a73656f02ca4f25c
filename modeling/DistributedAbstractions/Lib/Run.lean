import Mathlib.Data.List.Induction
import Mathlib.Order.Basic

/-! Finite runs of a deterministic-by-label transition system, with a guard that
every step of the run has to meet. `fun _ _ => True` is the guard of all runs. -/

namespace Trans

structure System (σ ε : Type) where
  init : σ
  next : σ → ε → Option σ

variable {σ ε : Type}

inductive Run (S : System σ ε) (ok : σ → ε → Prop) : List ε → σ → Prop
  | nil : Run S ok [] S.init
  | snoc {evs : List ε} {s s' : σ} {e : ε} :
      Run S ok evs s → ok s e → S.next s e = some s' → Run S ok (evs ++ [e]) s'

variable {S : System σ ε} {ok ok' : σ → ε → Prop}

/-- What holds at the start and is kept by every step of a run holds at its end.
The step may use that the state before it is itself reached. -/
theorem Run.invariant {I : List ε → σ → Prop} (h0 : I [] S.init)
    (hs : ∀ evs s e s', Run S ok evs s → I evs s → ok s e → S.next s e = some s' →
      I (evs ++ [e]) s') {evs : List ε} {s : σ} (h : Run S ok evs s) : I evs s := by
  induction h with
  | nil => exact h0
  | snoc hr hok hn ih => exact hs _ _ _ _ hr ih hok hn

theorem Run.state_invariant {I : σ → Prop} (h0 : I S.init)
    (hs : ∀ evs s e s', Run S ok evs s → I s → ok s e → S.next s e = some s' → I s')
    {evs : List ε} {s : σ} (h : Run S ok evs s) : I s :=
  h.invariant (I := fun _ s => I s) h0 hs

theorem Run.weaken (hok : ∀ s e, ok s e → ok' s e) {evs : List ε} {s : σ}
    (h : Run S ok evs s) : Run S ok' evs s :=
  h.invariant .nil fun _ _ _ _ _ ih hs hn => .snoc ih (hok _ _ hs) hn

theorem Run.snoc_inv {evs : List ε} {e : ε} {s' : σ} (h : Run S ok (evs ++ [e]) s') :
    ∃ s, Run S ok evs s ∧ ok s e ∧ S.next s e = some s' := by
  generalize hl : evs ++ [e] = l at h
  cases h with
  | nil => simp at hl
  | snoc hr hok hn =>
    obtain ⟨rfl, he⟩ := List.append_inj' hl rfl
    obtain rfl : e = _ := by simpa using he
    exact ⟨_, hr, hok, hn⟩

theorem Run.nil_inv {s : σ} (h : Run S ok [] s) : s = S.init := by
  generalize hl : ([] : List ε) = l at h
  cases h with
  | nil => rfl
  | snoc => simp at hl

/-- The labels determine the state. -/
theorem Run.unique {evs : List ε} {s s' : σ} (h : Run S ok evs s) (h' : Run S ok evs s') :
    s = s' := by
  induction h generalizing s' with
  | nil => exact h'.nil_inv.symm
  | snoc _ _ hn ih =>
    obtain ⟨t, ht, -, hn'⟩ := h'.snoc_inv
    obtain rfl := ih ht
    exact Option.some.inj (hn.symm.trans hn')

theorem Run.of_append {pre post : List ε} {s : σ} (h : Run S ok (pre ++ post) s) :
    ∃ t, Run S ok pre t := by
  induction post using List.reverseRecOn generalizing s with
  | nil => exact ⟨s, by simpa using h⟩
  | append_singleton post e ih =>
    rw [← List.append_assoc] at h
    obtain ⟨t, ht, -, -⟩ := h.snoc_inv
    exact ih ht

/-- A reflexive and transitive relation that every step puts between the states
before and after it relates a state of a run to each later one. -/
theorem Run.rel_of_append {R : σ → σ → Prop} (hrefl : ∀ s, R s s)
    (htrans : ∀ a b c, R a b → R b c → R a c)
    (hs : ∀ s e s', S.next s e = some s' → R s s')
    {pre : List ε} {s₀ : σ} (h₀ : Run S ok pre s₀) {post : List ε} {s : σ}
    (h : Run S ok (pre ++ post) s) : R s₀ s := by
  induction post using List.reverseRecOn generalizing s with
  | nil =>
    rw [List.append_nil] at h
    exact h₀.unique h ▸ hrefl s₀
  | append_singleton post e ih =>
    rw [← List.append_assoc] at h
    obtain ⟨t, ht, -, hn⟩ := h.snoc_inv
    exact htrans _ _ _ (ih ht) (hs _ _ _ hn)

/-- The rule for what a run does after it has been in a state. -/
theorem Run.segment {J : List ε → σ → Prop} {pre : List ε} {s₀ : σ} (h₀ : Run S ok pre s₀)
    (hnil : J [] s₀)
    (hs : ∀ post s e s', Run S ok (pre ++ post) s → J post s → ok s e → S.next s e = some s' →
      J (post ++ [e]) s')
    {post : List ε} {s : σ} (h : Run S ok (pre ++ post) s) : J post s := by
  induction post using List.reverseRecOn generalizing s with
  | nil =>
    rw [List.append_nil] at h
    exact h₀.unique h ▸ hnil
  | append_singleton post e ih =>
    rw [← List.append_assoc] at h
    obtain ⟨t, ht, hok, hn⟩ := h.snoc_inv
    exact hs post t e s ht (ih ht) hok hn

/-- Execution of a list of labels, for runs that are given label by label. -/
def System.exec (S : System σ ε) (ok : σ → ε → Prop) [∀ s e, Decidable (ok s e)] :
    σ → List ε → Option σ
  | s, [] => some s
  | s, e :: evs => if ok s e then (S.next s e).bind fun s' => S.exec ok s' evs else none

theorem Run.append_exec [∀ s e, Decidable (ok s e)] {evs : List ε} {s : σ} (h : Run S ok evs s) :
    ∀ {evs' : List ε} {s' : σ}, S.exec ok s evs' = some s' → Run S ok (evs ++ evs') s' := by
  intro evs'
  induction evs' generalizing evs s with
  | nil =>
    intro s' he
    rw [List.append_nil]
    exact Option.some.inj he ▸ h
  | cons e rest ih =>
    intro s' he
    rw [System.exec] at he
    split_ifs at he with hok
    obtain ⟨t, hn, he⟩ := Option.bind_eq_some_iff.mp he
    rw [← List.singleton_append, ← List.append_assoc]
    exact ih (.snoc h hok hn) he

theorem run_of_exec [∀ s e, Decidable (ok s e)] {evs : List ε} {s : σ}
    (h : S.exec ok S.init evs = some s) : Run S ok evs s := by
  simpa using Run.append_exec .nil h

/-- What an executed run ends in, by one of its aspects. -/
theorem exists_run_of_exec [∀ s e, Decidable (ok s e)] {α : Type} {evs : List ε} (f : σ → α) {x : α}
    (h : (S.exec ok S.init evs).map f = some x) : ∃ s, Run S ok evs s ∧ f s = x := by
  obtain ⟨s, hs, hx⟩ := Option.map_eq_some_iff.mp h
  exact ⟨s, run_of_exec hs, hx⟩

/-- A run can be prolonged within `K` to a state satisfying `Q` when every other state
of `K` has a step inside `K` that lowers the measure. -/
theorem Run.complete {K Q : σ → Prop} (size : σ → ℕ)
    (hstep : ∀ evs s, Run S ok evs s → K s → ¬ Q s →
      ∃ e s', ok s e ∧ S.next s e = some s' ∧ K s' ∧ size s' < size s)
    {evs : List ε} {s : σ} (h : Run S ok evs s) (hk : K s) :
    ∃ evs' s', Run S ok (evs ++ evs') s' ∧ K s' ∧ Q s' := by
  induction hn : size s using Nat.strongRecOn generalizing evs s with
  | _ n ih =>
    by_cases hq : Q s
    · exact ⟨[], s, by simpa using h, hk, hq⟩
    · obtain ⟨e, s', hok, hnext, hk', hlt⟩ := hstep evs s h hk hq
      obtain ⟨evs', t, hrun, ht⟩ := ih _ (hn ▸ hlt) (.snoc h hok hnext) hk' rfl
      exact ⟨e :: evs', t, by simpa using hrun, ht⟩

end Trans
