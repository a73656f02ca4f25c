import Mathlib.Data.List.Induction
import Mathlib.Data.List.Infix

/-! A machine that takes in one item after the other and puts out a list for each. A
component is one over the events it handles, and so is a loop over its rounds. -/

namespace Machine

variable {σ ε ω : Type}

def run (step : σ → ε → σ × List ω) (s : σ) : List ε → σ × List ω
  | [] => (s, [])
  | e :: es =>
    let rest := run step (step s e).1 es
    (rest.1, (step s e).2 ++ rest.2)

def state (step : σ → ε → σ × List ω) (s : σ) (es : List ε) : σ := (run step s es).1

def outputs (step : σ → ε → σ × List ω) (s : σ) (es : List ε) : List ω := (run step s es).2

variable {step : σ → ε → σ × List ω} {s : σ}

@[simp] theorem state_nil : state step s [] = s := rfl

@[simp] theorem outputs_nil : outputs step s [] = [] := rfl

theorem run_append (es es' : List ε) : run step s (es ++ es') =
    (state step (state step s es) es', outputs step s es ++ outputs step (state step s es) es') := by
  induction es generalizing s with
  | nil => rfl
  | cons e es ih =>
    rw [List.cons_append, run, ih]
    simp only [outputs, run, List.append_assoc]
    rfl

theorem state_append (es es' : List ε) :
    state step s (es ++ es') = state step (state step s es) es' := by
  rw [state, run_append]

theorem outputs_append (es es' : List ε) :
    outputs step s (es ++ es') = outputs step s es ++ outputs step (state step s es) es' := by
  rw [outputs, run_append]

@[simp] theorem state_append_singleton (es : List ε) (e : ε) :
    state step s (es ++ [e]) = (step (state step s es) e).1 := by
  rw [state_append]
  rfl

@[simp] theorem outputs_append_singleton (es : List ε) (e : ε) :
    outputs step s (es ++ [e]) = outputs step s es ++ (step (state step s es) e).2 := by
  rw [outputs_append]
  simp [outputs, run]

/-- What holds before the first item and is kept by each one holds of every run, of what was
taken in, the state and what was put out. -/
theorem invariant {I : List ε → σ → List ω → Prop} (h0 : I [] s [])
    (hs : ∀ es e t out, I es t out → I (es ++ [e]) (step t e).1 (out ++ (step t e).2)) (es : List ε) :
    I es (state step s es) (outputs step s es) := by
  induction es using List.reverseRecOn with
  | nil => exact h0
  | append_singleton es e ih =>
    rw [state_append_singleton, outputs_append_singleton]
    exact hs es e _ _ ih

/-- What an item puts out in whatever state it is taken in. -/
theorem mem_outputs {I : σ → Prop} (hkeep : ∀ t e, I t → I (step t e).1) {o : ω} {e : ε}
    (ho : ∀ t, I t → o ∈ (step t e).2) {es : List ε} (he : e ∈ es) (h0 : I s) : o ∈ outputs step s es := by
  induction es generalizing s with
  | nil => cases he
  | cons e' es ih =>
    change o ∈ (step s e').2 ++ outputs step (step s e').1 es
    rcases List.mem_cons.mp he with rfl | he
    · exact List.mem_append_left _ (ho s h0)
    · exact List.mem_append_right _ (ih he (hkeep s e' h0))

/-- Every item meets `ok` in the state in which it is taken in. -/
def Guarded (step : σ → ε → σ × List ω) (ok : σ → ε → Prop) (s : σ) : List ε → Prop
  | [] => True
  | e :: es => ok s e ∧ Guarded step ok (step s e).1 es

instance instDecidableGuarded (ok : σ → ε → Prop) [∀ s e, Decidable (ok s e)] :
    (s : σ) → (es : List ε) → Decidable (Guarded step ok s es)
  | _, [] => isTrue trivial
  | s, e :: es =>
    have := instDecidableGuarded ok (step s e).1 es
    inferInstanceAs (Decidable (ok s e ∧ Guarded step ok (step s e).1 es))

/-- An item with what was taken in before it, in a run that has one more item. -/
theorem prefix_append_singleton_iff {pre es : List ε} {x e : ε} :
    pre ++ [x] <+: es ++ [e] ↔ pre ++ [x] <+: es ∨ pre = es ∧ x = e := by
  refine List.prefix_concat_iff.trans (or_comm.trans (or_congr_right ?_))
  constructor
  · intro h
    obtain ⟨rfl, hx⟩ := List.append_inj' h rfl
    exact ⟨rfl, by simpa using hx⟩
  · rintro ⟨rfl, rfl⟩
    rfl

variable {ok : σ → ε → Prop}

theorem guarded_append_singleton {es : List ε} {e : ε} :
    Guarded step ok s (es ++ [e]) ↔ Guarded step ok s es ∧ ok (state step s es) e := by
  induction es generalizing s with
  | nil => exact and_comm
  | cons e' es ih =>
    rw [List.cons_append, Guarded, ih, Guarded, and_assoc]
    rfl

theorem guarded_of_forall {P : ε → Prop} {es : List ε} (h : ∀ e ∈ es, P e) :
    Guarded step (fun _ e => P e) s es := by
  induction es generalizing s with
  | nil => trivial
  | cons e es ih => exact ⟨h e (by simp), ih fun e' he' => h e' (by simp [he'])⟩

/-- The rule for runs whose items all meet a guard. -/
theorem invariant_of_guarded {I : List ε → σ → List ω → Prop} (h0 : I [] s [])
    (hs : ∀ es e t out, ok t e → I es t out → I (es ++ [e]) (step t e).1 (out ++ (step t e).2))
    {es : List ε} (hes : Guarded step ok s es) : I es (state step s es) (outputs step s es) := by
  induction es using List.reverseRecOn with
  | nil => exact h0
  | append_singleton es e ih =>
    rw [guarded_append_singleton] at hes
    rw [state_append_singleton, outputs_append_singleton]
    exact hs es e _ _ hes.2 (ih hes.1)

end Machine
