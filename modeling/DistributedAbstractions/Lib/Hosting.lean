import DistributedAbstractions.Lib.Machine
import DistributedAbstractions.Lib.NetFacts

/-! A protocol that runs as a part of another one, with a share of its links: calls that it gets several at a
time, before its process may crash, and its share of what is on its way. -/

namespace Net

open Trans

section Share

variable {α β : Type} [DecidableEq α] [DecidableEq β] {f : α → Option β} {l : List α}

/-- `f` picks out the elements that are of the form `g b`. -/
theorem filterMap_erase {g : β → α} (hf : ∀ a b, f a = some b ↔ a = g b) (b : β) :
    (l.erase (g b)).filterMap f = (l.filterMap f).erase b := by
  induction l with
  | nil => rfl
  | cons a l ih =>
    by_cases ha : a = g b
    · subst ha
      rw [List.erase_cons_head, List.filterMap_cons_some ((hf _ b).mpr rfl), List.erase_cons_head]
    · rw [List.erase_cons_tail (by simpa using ha)]
      cases hfa : f a with
      | none => rw [List.filterMap_cons_none hfa, List.filterMap_cons_none hfa, ih]
      | some b' =>
        have hb : b' ≠ b := fun h => ha (h ▸ (hf a b').mp hfa)
        rw [List.filterMap_cons_some hfa, List.filterMap_cons_some hfa, List.erase_cons_tail (by simpa using hb), ih]

omit [DecidableEq β] in
theorem filterMap_erase_of_none {a : α} (hf : f a = none) : (l.erase a).filterMap f = l.filterMap f := by
  induction l with
  | nil => rfl
  | cons a' l ih =>
    by_cases ha : a' = a
    · subst ha
      rw [List.erase_cons_head, List.filterMap_cons_none hf]
    · rw [List.erase_cons_tail (by simpa using ha), List.filterMap_cons, List.filterMap_cons, ih]

end Share

section Calls

variable {ρ σ ι μ ω : Type} {P : Protocol ρ σ ι μ ω} {F : Setting μ}

/-- What becomes of a process that is called several times. -/
def answers (P : Protocol ρ σ ι μ ω) (r : ρ) (s : σ) (is : List ι) : σ × List (Effect μ ω) :=
  Machine.run (fun s i => P.handle r s (.call i)) s is

/-- From `t` to `t'` process `p` is called for `is`, and gets `es` done. -/
structure Called (p : ℤ) (is : List ι) (es : List (Effect μ ω)) (t t' : State σ ι μ ω) : Prop where
  others : ∀ q, q ≠ p → t'.proc q = t.proc q
  inputs : (t'.proc p).inputs = (t.proc p).inputs ++ is.map .call
  effects : (t'.proc p).effects = (t.proc p).effects ++ es
  flight : t'.flight = t.flight ++ packets p es

theorem called_nil (p : ℤ) (t : State σ ι μ ω) : Called p [] [] t t :=
  ⟨fun _ _ => rfl, by simp, by simp, by simp [packets]⟩

theorem Called.trans {p : ℤ} {is is' : List ι} {es es' : List (Effect μ ω)} {t t' t'' : State σ ι μ ω}
    (h : Called p is es t t') (h' : Called p is' es' t' t'') : Called p (is ++ is') (es ++ es') t t'' where
  others q hq := (h'.others q hq).trans (h.others q hq)
  inputs := by rw [h'.inputs, h.inputs, List.map_append, List.append_assoc]
  effects := by rw [h'.effects, h.effects, List.append_assoc]
  flight := by rw [h'.flight, h.flight, packets_append, List.append_assoc]

variable [DecidableEq μ] {ok : State σ ι μ ω → Event ρ ι μ → Prop} {evs : List (Event ρ ι μ)} {t : State σ ι μ ω}
  {p : ℤ} {r : ρ} {is : List ι}

theorem called_act (t : State σ ι μ ω) (p : ℤ) (r : ρ) (i : ι) (stop : Option ℕ) :
    Called p [i] (cut stop (P.handle r (t.proc p).state (.call i)).2) t (t.act P p r (.call i) stop) :=
  ⟨fun _ hq => act_proc_ne _ _ _ _ _ _ hq, act_inputs_self _ _ _ _ _ _, act_effects_self _ _ _ _ _ _, rfl⟩

theorem next_of_admits {a : Arrival ι μ} {stop : Option ℕ} (hp : F.live t p = true) (ha : F.admits t p a = true)
    (hstop : stop = none ∨ F.crashes = true) : next P F t (.act p r a stop) = some (t.act P p r a stop) := by
  rcases hstop with rfl | hstop
  · simp [next, hp, ha]
  · simp [next, hp, ha, hstop]

theorem next_crash_of_live (hp : F.live t p = true) (hF : F.crashes = true) :
    next P F t (.crash p) = some (t.crash p) := by
  simp [next, hp, hF]

theorem live_act (hp : F.live t p = true) (i : ι) : F.live (t.act P p r (.call i) none) p = true :=
  live_iff.mpr ⟨(live_iff.mp hp).1, act_crashed_self _ _ _ _ _ _⟩

/-- The process has got through all of its calls. -/
theorem run_calls (h : Run (system P F) ok evs t) (hp : F.live t p = true)
    (hok : ∀ t' i, Grows t t' → i ∈ is → ok t' (.act p r (.call i) none)) :
    ∃ ds t', Run (system P F) ok (evs ++ ds) t' ∧ Called p is (answers P r (t.proc p).state is).2 t t' ∧
      (t'.proc p).state = (answers P r (t.proc p).state is).1 ∧ (t'.proc p).crashed = false := by
  induction is generalizing evs t with
  | nil => exact ⟨[], t, by rwa [List.append_nil], called_nil p t, rfl, (live_iff.mp hp).2⟩
  | cons i is ih =>
    have hn := next_of_admits (P := P) (r := r) (a := .call i) hp rfl (.inl rfl)
    have hg := grows_next hn
    obtain ⟨ds, t', hr, hc, hs, hup⟩ := ih (h.snoc (hok t i (Grows.refl t) List.mem_cons_self) hn) (live_act hp i)
      fun t' j hg' hj => hok t' j (hg.trans hg') (List.mem_cons_of_mem i hj)
    rw [act_state_self] at hc hs
    refine ⟨.act p r (.call i) none :: ds, t', ?_, (called_act (P := P) t p r i none).trans hc, hs, hup⟩
    rwa [List.append_assoc] at hr

/-- The process crashes when it has got `es` done. -/
theorem run_calls_until (hF : F.crashes = true) (h : Run (system P F) ok evs t) (hp : F.live t p = true)
    (hok : ∀ t' i stop, Grows t t' → i ∈ is → ok t' (.act p r (.call i) stop))
    (hcrash : ∀ t', Grows t t' → ok t' (.crash p)) {es : List (Effect μ ω)}
    (hes : es <+: (answers P r (t.proc p).state is).2) :
    ∃ ds t' is₀, Run (system P F) ok (evs ++ ds) t' ∧ is₀ <+: is ∧ Called p is₀ es t t' ∧
      (t'.proc p).crashed = true := by
  induction is generalizing evs t es with
  | nil =>
    obtain rfl := List.prefix_nil.mp hes
    have hn := next_crash_of_live (P := P) hp hF
    refine ⟨_, _, [], h.snoc (hcrash t (Grows.refl t)) hn, List.prefix_refl _, ?_, by simp [State.crash]⟩
    exact ⟨fun q hq => crash_proc_ne t p hq, by simp, by simp, by simp [packets]⟩
  | cons i is ih =>
    have hfirst := List.prefix_append (P.handle r (t.proc p).state (.call i)).2
      (answers P r (P.handle r (t.proc p).state (.call i)).1 is).2
    rcases List.prefix_or_prefix_of_prefix hes hfirst with hle | ⟨es', rfl⟩
    · -- in the middle of the first call
      have hn : next P F t (.act p r (.call i) (some es.length)) = _ := next_of_admits hp rfl (.inr hF)
      refine ⟨_, _, [i], h.snoc (hok t i _ (Grows.refl t) List.mem_cons_self) hn, ?_, ?_, act_crashed_self _ _ _ _ _ _⟩
      · exact ⟨is, rfl⟩
      · have hcut : es = cut (some es.length) (P.handle r (t.proc p).state (.call i)).2 :=
          List.prefix_iff_eq_take.mp hle
        have hcalled := called_act (P := P) t p r i (some es.length)
        rwa [← hcut] at hcalled
    · have hn := next_of_admits (P := P) (r := r) (a := .call i) hp rfl (.inl rfl)
      have hg := grows_next hn
      have hrest : es' <+: (answers P r ((t.act P p r (.call i) none).proc p).state is).2 := by
        rw [act_state_self]
        exact (List.prefix_append_right_inj _).mp hes
      obtain ⟨ds, t', is₀, hr, his, hc, hdown⟩ := ih
        (h.snoc (hok t i none (Grows.refl t) List.mem_cons_self) hn) (live_act hp i)
        (fun t' j stop hg' hj => hok t' j stop (hg.trans hg') (List.mem_cons_of_mem i hj))
        (fun t' hg' => hcrash t' (hg.trans hg')) hrest
      refine ⟨.act p r (.call i) none :: ds, t', i :: is₀, ?_, (List.prefix_cons_inj i).mpr his,
        (called_act (P := P) t p r i none).trans hc, hdown⟩
      rwa [List.append_assoc] at hr

end Calls

end Net
