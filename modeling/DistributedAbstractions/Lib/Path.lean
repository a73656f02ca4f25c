import DistributedAbstractions.Lib.Simulation
import Mathlib.Order.Filter.AtTopBot.Basic

/-! Infinite runs of a guarded system, in which nothing may happen for a while. -/

namespace Trans

variable {σ ε : Type}

structure Path (S : System σ ε) (ok : σ → ε → Prop) where
  state : ℕ → σ
  event : ℕ → Option ε
  init_eq : state 0 = S.init
  step : ∀ i, event i = none ∧ state (i + 1) = state i ∨
    ∃ e, event i = some e ∧ ok (state i) e ∧ S.next (state i) e = some (state (i + 1))

variable {S : System σ ε} {ok ok' : σ → ε → Prop}

theorem Path.of_event (π : Path S ok) {i : ℕ} {e : ε} (he : π.event i = some e) :
    ok (π.state i) e ∧ S.next (π.state i) e = some (π.state (i + 1)) := by
  rcases π.step i with ⟨hnone, -⟩ | ⟨e', he', hok, hn⟩
  · rw [he] at hnone
    cases hnone
  · obtain rfl := Option.some.inj (he.symm.trans he')
    exact ⟨hok, hn⟩

theorem Path.exists_run (π : Path S ok) (i : ℕ) : ∃ evs, Run S ok evs (π.state i) := by
  induction i with
  | zero => exact ⟨[], π.init_eq ▸ .nil⟩
  | succ i ih =>
    obtain ⟨evs, hr⟩ := ih
    rcases π.step i with ⟨-, hs⟩ | ⟨e, -, hok, hn⟩
    · exact ⟨evs, hs ▸ hr⟩
    · exact ⟨evs ++ [e], .snoc hr hok hn⟩

/-- A reflexive and transitive relation that the steps of runs respect relates each state to the
later ones. -/
theorem Path.rel {R : σ → σ → Prop} (hrefl : ∀ s, R s s) (htrans : ∀ a b c, R a b → R b c → R a c)
    (hs : ∀ evs s e s', Run S ok evs s → ok s e → S.next s e = some s' → R s s') (π : Path S ok)
    {i j : ℕ} (hij : i ≤ j) : R (π.state i) (π.state j) := by
  induction hij with
  | refl => exact hrefl _
  | @step j _ ih =>
    rcases π.step j with ⟨-, hs'⟩ | ⟨e, -, hok, hn⟩
    · rw [hs']
      exact ih
    · obtain ⟨evs, hr⟩ := π.exists_run j
      exact htrans _ _ _ ih (hs evs _ e _ hr hok hn)

/-- What the steps from `a` on keep. -/
theorem Path.kept {I : σ → Prop} (π : Path S ok) {a j : ℕ} (h : I (π.state a))
    (hs : ∀ i e, a ≤ i → π.event i = some e → ok (π.state i) e → S.next (π.state i) e = some (π.state (i + 1)) →
      I (π.state i) → I (π.state (i + 1))) (haj : a ≤ j) : I (π.state j) := by
  induction haj with
  | refl => exact h
  | @step j haj ih =>
    rcases π.step j with ⟨-, hsame⟩ | ⟨e, he, hok, hn⟩
    · rwa [hsame]
    · exact hs j e haj he hok hn ih

/-- `Run.strengthen` for infinite runs. -/
def Path.strengthen (π : Path S ok)
    (h : ∀ evs s e s', Run S ok' evs s → ok s e → S.next s e = some s' → ok' s e) : Path S ok' where
  state := π.state
  event := π.event
  init_eq := π.init_eq
  step i := by
    obtain ⟨evs, hr⟩ := π.exists_run i
    rcases π.step i with hstay | ⟨e, he, hok, hn⟩
    · exact .inl hstay
    · exact .inr ⟨e, he, h _ _ _ _ (hr.strengthen h) hok hn, hn⟩

/-- A finite run goes on as `tail`. -/
theorem Run.append_tail {evs : List ε} {s : σ} (h : Run S ok evs s) (tail : ℕ → σ) (event : ℕ → ε) (h0 : tail 0 = s)
    (hstep : ∀ k, ok (tail k) (event k) ∧ S.next (tail k) (event k) = some (tail (k + 1))) :
    ∃ π : Path S ok, (∀ k, π.state (evs.length + k) = tail k ∧ π.event (evs.length + k) = some (event k)) ∧
      ∀ i e, evs[i]? = some e → π.event i = some e := by
  induction h generalizing tail event with
  | nil =>
    refine ⟨⟨tail, fun k => some (event k), h0, fun k => .inr ⟨_, rfl, hstep k⟩⟩, fun k => ?_, fun i e he => ?_⟩
    · rw [List.length_nil, Nat.zero_add]
      exact ⟨rfl, rfl⟩
    · cases he
  | @snoc evs s s' e hr hok hn ih =>
    obtain ⟨π, hπ, hpre⟩ := ih (fun k => k.casesOn s tail) (fun k => k.casesOn e event) rfl fun k => by
      cases k with
      | zero => exact ⟨hok, hn.trans (congrArg some h0.symm)⟩
      | succ k => exact hstep k
    refine ⟨π, fun k => ?_, fun i e' he' => ?_⟩
    · have hk := hπ (k + 1)
      rwa [List.length_append, List.length_singleton, Nat.add_right_comm, Nat.add_assoc]
    · rcases Nat.lt_or_ge i evs.length with hlt | hge
      · rw [List.getElem?_append_left hlt] at he'
        exact hpre i e' he'
      · rw [List.getElem?_append_right hge, List.getElem?_singleton] at he'
        split_ifs at he' with hi
        obtain rfl : i = evs.length := by omega
        obtain rfl := Option.some.inj he'
        exact (hπ 0).2

/-- A finite run goes on with the events that `event` chooses, as long as they keep `I`. -/
theorem Run.exists_path {I : ℕ → σ → Prop} {evs : List ε} {s : σ} (h : Run S ok evs s) (event : ℕ → σ → ε)
    (h0 : I 0 s)
    (hstep : ∀ k s, I k s → ∃ s', ok s (event k s) ∧ S.next s (event k s) = some s' ∧ I (k + 1) s') :
    ∃ π : Path S ok, π.state evs.length = s ∧ (∀ i e, evs[i]? = some e → π.event i = some e) ∧
      ∀ k, I k (π.state (evs.length + k)) ∧
        π.event (evs.length + k) = some (event k (π.state (evs.length + k))) := by
  choose! next hnext using hstep
  obtain ⟨tail, hzero, hsucc⟩ : ∃ tail : ℕ → σ, tail 0 = s ∧ ∀ k, tail (k + 1) = next k (tail k) :=
    ⟨fun k => k.rec s next, rfl, fun _ => rfl⟩
  have hI : ∀ k, I k (tail k) := by
    intro k
    induction k with
    | zero => exact hzero ▸ h0
    | succ k ih => exact hsucc k ▸ (hnext k _ ih).2.2
  obtain ⟨π, hπ, hpre⟩ := h.append_tail tail (fun k => event k (tail k)) hzero fun k =>
    ⟨(hnext k _ (hI k)).1, hsucc k ▸ (hnext k _ (hI k)).2.1⟩
  refine ⟨π, (hπ 0).1.trans hzero, hpre, fun k => ?_⟩
  rw [(hπ k).1]
  exact ⟨hI k, (hπ k).2⟩

section Turns

open Filter

variable {es : List ε}

/-- The events of `es` in turn, over and over. -/
def inTurn (es : List ε) (h : 0 < es.length) (k : ℕ) : ε := es.get ⟨k % es.length, Nat.mod_lt k h⟩

theorem inTurn_mem (h : 0 < es.length) (k : ℕ) : inTurn es h k ∈ es := List.get_mem ..

theorem inTurn_mod (h : 0 < es.length) (k : ℕ) : inTurn es h (k % es.length) = inTurn es h k := by
  simp only [inTurn, Nat.mod_mod]

theorem take_inTurn (h : 0 < es.length) (k : ℕ) :
    es.take (k % es.length + 1) = es.take (k % es.length) ++ [inTurn es h k] := by
  rw [inTurn, List.get_eq_getElem, List.take_append_getElem (Nat.mod_lt k h)]

theorem frequently_inTurn (h : 0 < es.length) {e : ε} (he : e ∈ es) : ∃ᶠ k in atTop, inTurn es h k = e := by
  obtain ⟨⟨i, hi⟩, rfl⟩ := List.get_of_mem he
  refine frequently_atTop.mpr fun a => ⟨i + es.length * a, ?_, ?_⟩
  · exact (Nat.le_mul_of_pos_left a h).trans (Nat.le_add_left _ _)
  · simp only [inTurn, Nat.add_mul_mod_self_left, Nat.mod_eq_of_lt hi]

/-- A finite run goes on with the events of `es` in turn when each of them keeps `I`. -/
theorem Run.exists_path_inTurn {I : σ → Prop} {evs : List ε} {s : σ} (hr : Run S ok evs s) (h : 0 < es.length)
    (h0 : I s) (hstep : ∀ s, I s → ∀ e ∈ es, ∃ s', ok s e ∧ S.next s e = some s' ∧ I s') :
    ∃ π : Path S ok, π.state evs.length = s ∧
      (∀ i ≥ evs.length, I (π.state i) ∧ ∃ e ∈ es, π.event i = some e) ∧
      ∀ e ∈ es, ∃ᶠ i in atTop, π.event i = some e := by
  obtain ⟨π, hs, -, hπ⟩ := hr.exists_path (I := fun _ => I) (fun k _ => inTurn es h k) h0
    fun k s hs => hstep s hs _ (inTurn_mem h k)
  refine ⟨π, hs, fun i hi => ?_, fun e he => frequently_atTop.mpr fun a => ?_⟩
  · rw [← Nat.add_sub_of_le hi]
    exact ⟨(hπ _).1, _, inTurn_mem h _, (hπ _).2⟩
  · obtain ⟨k, hk, rfl⟩ := frequently_atTop.mp (frequently_inTurn h he) a
    exact ⟨evs.length + k, hk.trans (Nat.le_add_left _ _), (hπ k).2⟩

/-- When states in the relation `R` make the same steps of `es`, a run whose last part is `es` and leads back to
where that began, up to `R`, goes on round and round. -/
theorem Run.exists_path_round {R : σ → σ → Prop} (hrefl : ∀ s, R s s) (htrans : ∀ a b c, R a b → R b c → R a c)
    (hstep : ∀ s t e t', R s t → e ∈ es → ok t e → S.next t e = some t' →
      ∃ s', ok s e ∧ S.next s e = some s' ∧ R s' t')
    {evs : List ε} {s s' : σ} (hr : Run S ok evs s) (hr' : Run S ok (evs ++ es) s') (h : 0 < es.length)
    (hround : R s' s) : ∃ π : Path S ok, π.state evs.length = s ∧
      ∀ k, (∃ t, Run S ok (evs ++ es.take (k % es.length)) t ∧ R (π.state (evs.length + k)) t) ∧
        π.event (evs.length + k) = some (inTurn es h k) := by
  obtain ⟨π, hs, -, hπ⟩ := hr.exists_path
    (I := fun k s => ∃ t, Run S ok (evs ++ es.take (k % es.length)) t ∧ R s t) (fun k _ => inTurn es h k)
    ⟨s, by simpa using hr, hrefl s⟩ fun k u ⟨t, ht, hR⟩ => by
      have hk : k % es.length < es.length := Nat.mod_lt k h
      -- the run goes on with the event whose turn it is
      have hcut : evs ++ es = evs ++ es.take (k % es.length + 1) ++ es.drop (k % es.length + 1) := by
        rw [List.append_assoc, List.take_append_drop]
      obtain ⟨t', ht'⟩ := (hcut ▸ hr').of_append
      have htake := ht'
      rw [take_inTurn h, ← List.append_assoc] at htake
      obtain ⟨t₁, ht₁, hok, hn⟩ := htake.snoc_inv
      obtain rfl := ht.unique ht₁
      obtain ⟨u', hok', hn', hR'⟩ := hstep u t _ t' hR (inTurn_mem h k) hok hn
      refine ⟨u', hok', hn', ?_⟩
      rcases Nat.lt_or_eq_of_le (Nat.succ_le_of_lt hk) with hlt | hlast
      · have hmod : (k + 1) % es.length = k % es.length + 1 := by
          rw [← Nat.mod_add_mod, Nat.mod_eq_of_lt hlt]
        exact ⟨t', hmod ▸ ht', hR'⟩
      · -- the round is over
        have hmod : (k + 1) % es.length = 0 := by
          rw [← Nat.mod_add_mod, ← Nat.succ_eq_add_one, hlast, Nat.mod_self]
        rw [← Nat.succ_eq_add_one, hlast, List.take_length] at ht'
        obtain rfl := ht'.unique hr'
        exact ⟨s, by simpa [hmod] using hr, htrans _ _ _ hR' hround⟩
  exact ⟨π, hs, hπ⟩

end Turns

end Trans
