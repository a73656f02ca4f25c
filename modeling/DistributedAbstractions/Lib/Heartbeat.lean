import DistributedAbstractions.Lib.Eventually
import DistributedAbstractions.Lib.NetFacts
import DistributedAbstractions.Lib.Path

/-! Processes that ask each other for a sign of life. A process counts a peer as alive from the reply to its
request on until its period ends, so that a peer which is up counts as alive at the end of every period that
is long enough for a request and its reply. -/

namespace Net

open Trans

variable {ρ σ ι μ ω : Type}

/-- `tick` ends a period, `own p` is what process `p` knows of itself. -/
structure Polling (P : Protocol ρ σ ι μ ω) (U : Finset ℤ) (request reply : μ) (tick : ι → Prop)
    (own : ℤ → σ → Prop) (alive : σ → ℤ → Prop) : Prop where
  own_init : ∀ p, own p (P.init p)
  own_handle : ∀ p r s x, own p s → own p (P.handle r s x).1
  asks : ∀ p r s i, own p s → tick i → ∀ q ∈ U, q ≠ p → .send q request ∈ (P.handle r s (.call i)).2
  answers : ∀ r s q, .send q reply ∈ (P.handle r s (.receive q request)).2
  hears : ∀ r s q, alive (P.handle r s (.receive q reply)).1 q
  keeps : ∀ r s x q, (∀ i, x = .call i → ¬ tick i) → alive s q → alive (P.handle r s x).1 q
  clears : ∀ r s i q, tick i → ¬ alive (P.handle r s (.call i)).1 q
  hears_only : ∀ r s x q, alive (P.handle r s x).1 q → alive s q ∨ ∃ m, x = .receive q m

/-- In the first period everybody counts as alive. -/
structure Monitor (P : Protocol ρ σ ι μ ω) (U : Finset ℤ) (request reply : μ) (tick : ι → Prop)
    (own : ℤ → σ → Prop) (alive : σ → ℤ → Prop) : Prop extends Polling P U request reply tick own alive where
  seeds : ∀ p, ∀ q ∈ U, q ≠ p → alive (P.init p) q

variable [DecidableEq μ]

/-- When the period of a process ends, its requests to those who are up have been answered. -/
def Prompt (U : Finset ℤ) (request reply : μ) (tick : ι → Prop) (s : State σ ι μ ω) : Event ρ ι μ → Prop
  | .act p _ (.call i) _ => tick i → ∀ q ∈ U, (s.proc q).crashed = false →
      ⟨p, q, request⟩ ∉ s.flight ∧ ⟨q, p, reply⟩ ∉ s.flight
  | _ => True

instance (U : Finset ℤ) (request reply : μ) (tick : ι → Prop) [DecidablePred tick] (s : State σ ι μ ω) :
    (e : Event ρ ι μ) → Decidable (Prompt U request reply tick s e)
  | .act _ _ (.call _) _ => inferInstanceAs (Decidable (_ → _))
  | .act _ _ (.deliver _ _) _ => isTrue trivial
  | .act _ _ (.forge _ _) _ => isTrue trivial
  | .crash _ => isTrue trivial

omit [DecidableEq μ] in
/-- Those who are not in `A` are down, and so their answers do not matter. -/
theorem Alike.prompt {U A : Finset ℤ} {request reply : μ} {tick : ι → Prop} {s t : State σ ι μ ω} (h : Alike A s t)
    (hdown : ∀ q ∈ U, q ∉ A → (s.proc q).crashed = true) {p : ℤ} (hp : p ∈ A) {r : ρ} {a : Arrival ι μ}
    {stop : Option ℕ} (ht : Prompt U request reply tick t (.act p r a stop)) :
    Prompt U request reply tick s (.act p r a stop) := by
  cases a with
  | call i =>
    intro hi q hq hup
    have hqA : q ∈ A := by
      by_contra hqA
      rw [hdown q hq hqA] at hup
      cases hup
    rw [h.mem_flight (k := ⟨p, q, request⟩) hqA, h.mem_flight (k := ⟨q, p, reply⟩) hp]
    exact ht hi q hq (h.crashed q hqA ▸ hup)
  | deliver src m => trivial
  | forge src m => trivial

/-- A packet stays on its way as long as its recipient does not take it in. -/
theorem mem_flight_act {P : Protocol ρ σ ι μ ω} {s : State σ ι μ ω} {p : ℤ} {r : ρ} {a : Arrival ι μ}
    {stop : Option ℕ} {k : Packet μ} (hk : k ∈ s.flight)
    (h : ∀ src m, a = .deliver src m → k ≠ ⟨src, p, m⟩) : k ∈ (s.act P p r a stop).flight := by
  rw [act_flight, List.mem_append]
  cases a with
  | call i => exact .inl hk
  | forge src m => exact .inl hk
  | deliver src m => exact .inl ((List.mem_erase_of_ne (h src m rfl)).mpr hk)

theorem mem_flight_sent {P : Protocol ρ σ ι μ ω} {s : State σ ι μ ω} {p d : ℤ} {r : ρ} {a : Arrival ι μ} {m : μ}
    (h : .send d m ∈ (P.handle r (s.proc p).state a.input).2) : ⟨p, d, m⟩ ∈ (s.act P p r a none).flight := by
  rw [act_flight, List.mem_append]
  exact .inr (mem_packets.mpr ⟨rfl, h⟩)

/-- `q` has crashed, and nothing that it has sent is on its way to `p`. -/
def Silent (s : State σ ι μ ω) (p q : ℤ) : Prop :=
  (s.proc q).crashed = true ∧ ∀ k ∈ s.flight, ¬ (k.src = q ∧ k.dst = p)

instance (s : State σ ι μ ω) (p q : ℤ) : Decidable (Silent s p q) := inferInstanceAs (Decidable (_ ∧ _))

theorem silent_next {P : Protocol ρ σ ι μ ω} {F : Setting μ} {s s' : State σ ι μ ω} {e : Event ρ ι μ} {p q : ℤ}
    (hn : next P F s e = some s') (h : Silent s p q) : Silent s' p q := by
  refine ⟨by rw [(grows_next hn).crashed q h.1]; exact h.1, fun k hk hkq => ?_⟩
  rcases next_cases hn with ⟨x, r, a, stop, -, hlive, -, -, rfl⟩ | ⟨x, -, -, -, rfl⟩
  · rw [act_flight, List.mem_append] at hk
    rcases hk with hk | hk
    · refine h.2 k ?_ hkq
      cases a with
      | call i => exact hk
      | forge src m => exact hk
      | deliver src m => exact List.mem_of_mem_erase hk
    · -- who has crashed sends nothing
      obtain rfl : q = x := hkq.1.symm.trans (mem_packets.mp hk).1
      have hup := (live_iff.mp hlive).2
      rw [h.1] at hup
      cases hup
  · exact h.2 k hk hkq

/-- An end of a period that `p` gets through. -/
def EndsPeriod (tick : ι → Prop) [DecidablePred tick] (p : ℤ) : Event ρ ι μ → Bool
  | .act q _ (.call i) none => decide (q = p ∧ tick i)
  | _ => false

omit [DecidableEq μ] in
theorem endsPeriod_iff {tick : ι → Prop} [DecidablePred tick] {p : ℤ} {e : Event ρ ι μ} :
    EndsPeriod tick p e = true ↔ ∃ r i, e = .act p r (.call i) none ∧ tick i := by
  match e with
  | .act q r (.call i) none =>
    rw [EndsPeriod, decide_eq_true_eq]
    constructor
    · rintro ⟨rfl, hi⟩
      exact ⟨r, i, rfl, hi⟩
    · rintro ⟨r', i', he, hi⟩
      obtain ⟨rfl, -, hcall, -⟩ := (Event.act.injEq ..).mp he
      exact ⟨rfl, Arrival.call.inj hcall ▸ hi⟩
  | .act q r (.call i) (some k) => simp [EndsPeriod]
  | .act q r (.deliver src m) stop => simp [EndsPeriod]
  | .act q r (.forge src m) stop => simp [EndsPeriod]
  | .crash q => simp [EndsPeriod]

theorem countP_snoc {α : Type} (P : α → Bool) (l : List α) (a : α) :
    (l ++ [a]).countP P = l.countP P + if P a = true then 1 else 0 := by
  rw [List.countP_append, List.countP_singleton]

namespace Polling

variable {P : Protocol ρ σ ι μ ω} {F : Setting μ} {U : Finset ℤ} {request reply : μ} {tick : ι → Prop}
  {own : ℤ → σ → Prop} {alive : σ → ℤ → Prop} {ok : State σ ι μ ω → Event ρ ι μ → Prop}
  (hM : Polling P U request reply tick own alive) {evs : List (Event ρ ι μ)} {s : State σ ι μ ω}
include hM

theorem own_of_run (h : Run (system P F) ok evs s) (p : ℤ) : own p (s.proc p).state := by
  revert p
  refine h.state_invariant (I := fun s => ∀ p, own p (s.proc p).state) hM.own_init ?_
  intro evs s e s' _ ih _ hn q
  rcases next_cases hn with ⟨p, r, a, stop, -, -, -, -, rfl⟩ | ⟨p, -, -, -, rfl⟩
  · by_cases hq : q = p
    · subst hq
      rw [act_state_self]
      exact hM.own_handle _ _ _ _ (ih q)
    · rw [act_proc_ne P s p r a stop hq]
      exact ih q
  · rw [crash_state]
    exact ih q

/-- What `p` is waiting for from a peer that is up, or else it has heard of it. -/
def Awaited (request reply : μ) (alive : σ → ℤ → Prop) (s : State σ ι μ ω) (p q : ℤ) : Prop :=
  ⟨p, q, request⟩ ∈ s.flight ∨ ⟨q, p, reply⟩ ∈ s.flight ∨ alive (s.proc p).state q

theorem awaited_act {p q : ℤ} (hpq : q ≠ p) (hq : q ∈ U) {x : ℤ} {r : ρ} {a : Arrival ι μ} {stop : Option ℕ}
    (hown : own p (s.proc p).state) (hp : ((s.act P x r a stop).proc p).crashed = false)
    (hqup : ((s.act P x r a stop).proc q).crashed = false) (h : Awaited request reply alive s p q) :
    Awaited request reply alive (s.act P x r a stop) p q := by
  by_cases hxp : x = p
  · -- `p` itself: it asks anew, hears the reply, or keeps what it has heard
    subst hxp
    obtain rfl : stop = none := by simpa using hp
    by_cases htick : ∃ i, a = .call i ∧ tick i
    · obtain ⟨i, rfl, hi⟩ := htick
      exact .inl (mem_flight_sent (hM.asks _ _ _ _ hown hi q hq hpq))
    · have hkeep : ∀ i, a.input = .call i → ¬ tick i := by
        intro i hi hti
        refine htick ⟨i, ?_, hti⟩
        cases a with
        | call j => exact congrArg _ (Input.call.inj hi)
        | deliver src m => cases hi
        | forge src m => cases hi
      rcases h with h | h | h
      · exact .inl (mem_flight_act h fun src m _ hk => hpq ((Packet.mk.injEq ..).mp hk).2.1)
      · by_cases ha : a = .deliver q reply
        · subst ha
          refine .inr (.inr ?_)
          rw [act_state_self]
          exact hM.hears _ _ _
        · refine .inr (.inl (mem_flight_act h fun src m hdel hk => ha ?_))
          obtain ⟨rfl, -, rfl⟩ := (Packet.mk.injEq ..).mp hk
          exact hdel
      · refine .inr (.inr ?_)
        rw [act_state_self]
        exact hM.keeps _ _ _ _ hkeep h
  · have hproc : (s.act P x r a stop).proc p = s.proc p := act_proc_ne P s x r a stop (Ne.symm hxp)
    rcases h with h | h | h
    · by_cases ha : x = q ∧ a = .deliver p request
      · -- `q` takes in the request, and answers it
        obtain ⟨rfl, rfl⟩ := ha
        obtain rfl : stop = none := by simpa using hqup
        exact .inr (.inl (mem_flight_sent (hM.answers _ _ _)))
      · refine .inl (mem_flight_act h fun src m hdel hk => ha ?_)
        obtain ⟨rfl, rfl, rfl⟩ := (Packet.mk.injEq ..).mp hk
        exact ⟨rfl, hdel⟩
    · exact .inr (.inl (mem_flight_act h fun src m _ hk => hxp ((Packet.mk.injEq ..).mp hk).2.1.symm))
    · refine .inr (.inr ?_)
      rw [hproc]
      exact h

/-- A step after which the two are up. -/
theorem awaited_next (h : Run (system P F) ok evs s) {s' : State σ ι μ ω} {e : Event ρ ι μ}
    (hn : next P F s e = some s') {p q : ℤ} (hpq : q ≠ p) (hq : q ∈ U) (hp : (s'.proc p).crashed = false) (hqup : (s'.proc q).crashed = false)
    (ha : Awaited request reply alive s p q) : Awaited request reply alive s' p q := by
  rcases next_cases hn with ⟨x, r, a, stop, -, -, -, -, rfl⟩ | ⟨x, -, -, -, rfl⟩
  · exact hM.awaited_act hpq hq (hM.own_of_run h p) hp hqup ha
  · rcases ha with ha | ha | ha
    · exact .inl ha
    · exact .inr (.inl ha)
    · refine .inr (.inr ?_)
      rw [crash_state]
      exact ha

omit [DecidableEq μ] hM in
/-- What has been asked for long enough ago has been heard. -/
theorem alive_of_awaited {p q : ℤ} {r : ρ} {i : ι} {stop : Option ℕ} (hi : tick i)
    (hprompt : Prompt U request reply tick s (.act p r (.call i) stop)) (hq : q ∈ U)
    (hqup : (s.proc q).crashed = false) (ha : Awaited request reply alive s p q) : alive (s.proc p).state q := by
  obtain ⟨hreq, hrep⟩ := hprompt hi q hq hqup
  exact (ha.resolve_left hreq).resolve_left hrep

/-- Who has fallen silent does not count as alive from the next end of a period on. -/
theorem not_alive_act (hbyz : F.byz = ∅) (hrep : F.replays = false) {p q : ℤ} {r : ρ} {a : Arrival ι μ}
    (ha : F.admits s p a = true) (hs : Silent s p q)
    (h : (∃ i, a = .call i ∧ tick i) ∨ ¬ alive (s.proc p).state q) :
    ¬ alive (P.handle r (s.proc p).state a.input).1 q := by
  intro halive
  rcases h with ⟨i, rfl, hi⟩ | hnot
  · exact hM.clears _ _ _ _ hi halive
  · obtain ⟨m, hm⟩ := (hM.hears_only _ _ _ _ halive).resolve_left hnot
    cases a with
    | call i => cases hm
    | forge src m' => simp [Setting.admits, hbyz, hrep] at ha
    | deliver src m' =>
      obtain ⟨rfl, -⟩ := (Input.receive.injEq ..).mp hm
      simp only [Setting.admits, Bool.and_eq_true, decide_eq_true_eq] at ha
      exact hs.2 _ ha.1 ⟨rfl, rfl⟩

/-- Once `p` has ended a period it does not count as alive who has been silent since then. -/
theorem forgotten (hbyz : F.byz = ∅) (hrep : F.replays = false) [DecidablePred tick] {pre post : List (Event ρ ι μ)}
    {s₀ : State σ ι μ ω} {p q : ℤ} (h₀ : Run (system P F) ok pre s₀) (hs₀ : Silent s₀ p q)
    (h : Run (system P F) ok (pre ++ post) s) :
    Silent s p q ∧ (1 ≤ post.countP (EndsPeriod tick p) → ¬ alive (s.proc p).state q) := by
  refine h₀.segment (J := fun post s => Silent s p q ∧
    (1 ≤ post.countP (EndsPeriod tick p) → ¬ alive (s.proc p).state q)) ⟨hs₀, fun hone => by simp at hone⟩ ?_ h
  rintro post s e s' - ⟨hsilent, hforgotten⟩ - hn
  refine ⟨silent_next hn hsilent, fun hone => ?_⟩
  rw [countP_snoc] at hone
  have hearlier : EndsPeriod tick p e ≠ true → ¬ alive (s.proc p).state q := fun hends => by
    rw [if_neg hends] at hone
    exact hforgotten hone
  rcases next_cases hn with ⟨x, r, a, stop, rfl, -, ha, -, rfl⟩ | ⟨x, rfl, -, -, rfl⟩
  · by_cases hp : p = x
    · subst hp
      rw [act_state_self]
      refine hM.not_alive_act hbyz hrep ha hsilent ?_
      by_cases hends : EndsPeriod tick p (.act p r a stop : Event ρ ι μ) = true
      · obtain ⟨r', i, he, hi⟩ := endsPeriod_iff.mp hends
        exact .inl ⟨i, ((Event.act.injEq ..).mp he).2.2.1, hi⟩
      · exact .inr (hearlier hends)
    · rw [act_proc_ne _ _ _ _ _ _ hp]
      refine hearlier fun hends => hp ?_
      obtain ⟨r', i, he, -⟩ := endsPeriod_iff.mp hends
      exact ((Event.act.injEq ..).mp he).1.symm
  · rw [crash_state]
    exact hearlier Bool.false_ne_true

end Polling

namespace Monitor

variable {P : Protocol ρ σ ι μ ω} {F : Setting μ} {U : Finset ℤ} {request reply : μ} {tick : ι → Prop}
  {own : ℤ → σ → Prop} {alive : σ → ℤ → Prop} {ok : State σ ι μ ω → Event ρ ι μ → Prop}
  (hM : Monitor P U request reply tick own alive) {evs : List (Event ρ ι μ)} {s : State σ ι μ ω}
include hM

theorem awaited (h : Run (system P F) ok evs s) {p q : ℤ} (hpq : q ≠ p) (hq : q ∈ U)
    (hp : (s.proc p).crashed = false) (hqup : (s.proc q).crashed = false) :
    Polling.Awaited request reply alive s p q := by
  refine h.state_invariant (I := fun s => (s.proc p).crashed = false → (s.proc q).crashed = false →
    Polling.Awaited request reply alive s p q) (fun _ _ => .inr (.inr (hM.seeds p q hq hpq))) ?_ hp hqup
  intro evs s e s' hr ih _ hn hp hqup
  have hgrows := grows_next hn
  have hup : ∀ x, (s'.proc x).crashed = false → (s.proc x).crashed = false := fun x hx => by
    rw [← Bool.not_eq_true]
    intro hc
    rw [hgrows.crashed x hc, hc] at hx
    cases hx
  exact hM.awaited_next hr hn hpq hq hp hqup (ih (hup p hp) (hup q hqup))

/-- At the end of a period everybody who is up counts as alive. -/
theorem crashed_of_not_alive (h : Run (system P F) ok evs s) {p q : ℤ} {r : ρ} {i : ι} {stop : Option ℕ}
    (hi : tick i) (hprompt : Prompt U request reply tick s (.act p r (.call i) stop)) (hpq : q ≠ p) (hq : q ∈ U)
    (hp : (s.proc p).crashed = false) (hnot : ¬ alive (s.proc p).state q) : (s.proc q).crashed = true := by
  rw [← Bool.not_eq_false]
  exact fun hqup => hnot (Polling.alive_of_awaited hi hprompt hq hqup (hM.awaited h hpq hq hp hqup))

end Monitor

section Paths

open Filter

variable {P : Protocol ρ σ ι μ ω} {F : Setting μ} {U : Finset ℤ} {request reply : μ} {tick : ι → Prop}
  {own : ℤ → σ → Prop} {alive : σ → ℤ → Prop} {ok : State σ ι μ ω → Event ρ ι μ → Prop}
  (hM : Polling P U request reply tick own alive) {π : Path (system P F) ok} {p q : ℤ}
  (htimer : ∃ᶠ i in atTop, ∃ r c, π.event i = some (.act p r (.call c) none) ∧ tick c)

theorem state_of_act {i : ℕ} {r : ρ} {a : Arrival ι μ} {stop : Option ℕ}
    (he : π.event i = some (.act p r a stop)) : π.state (i + 1) = (π.state i).act P p r a stop := by
  have hn : next P F (π.state i) (.act p r a stop) = some (π.state (i + 1)) := (π.of_event he).2
  rcases next_cases hn with ⟨x, r', a', stop', hact, -, -, -, hs⟩ | ⟨x, hact, -⟩
  · obtain ⟨rfl, rfl, rfl, rfl⟩ := (Event.act.injEq ..).mp hact
    exact hs
  · cases hact

/-- What happens to a process that stays up. -/
theorem proc_step (i : ℕ) (hup : ((π.state (i + 1)).proc p).crashed = false) :
    (π.state (i + 1)).proc p = (π.state i).proc p ∧ (∀ r a, π.event i ≠ some (.act p r a none)) ∨
      ∃ r a, π.event i = some (.act p r a none) ∧
        (π.state (i + 1)).proc p = ((π.state i).proc p).perform P r a.input := by
  rcases π.step i with ⟨hnone, hs⟩ | ⟨e, he, -, hn⟩
  · exact .inl ⟨by rw [hs], by simp [hnone]⟩
  rcases next_cases hn with ⟨x, r, a, stop, rfl, hlive, -, -, hs⟩ | ⟨x, rfl, -, -, hs⟩
  · by_cases hpx : p = x
    · subst hpx
      rw [hs, act_crashed_self] at hup
      obtain rfl : stop = none := by simpa using hup
      exact .inr ⟨r, a, he, hs ▸ act_none_proc _ _ _ _ _ (live_iff.mp hlive).2⟩
    · exact .inl ⟨by rw [hs, act_proc_ne _ _ _ _ _ _ hpx], by simp [he, Ne.symm hpx]⟩
  · by_cases hpx : p = x
    · subst hpx
      rw [hs] at hup
      simp [State.crash] at hup
    · exact .inl ⟨by rw [hs, crash_proc_ne _ _ hpx], by simp [he]⟩

include hM htimer

/-- Who is up has been asked in the end, and what has been asked for is awaited. -/
theorem Polling.eventually_awaited (hpq : q ≠ p) (hq : q ∈ U) (hp : ∀ i, ((π.state i).proc p).crashed = false)
    (hqup : ∀ i, ((π.state i).proc q).crashed = false) :
    ∀ᶠ i in atTop, Awaited request reply alive (π.state i) p q := by
  refine Sequence.eventually_of_kept htimer (.of_forall fun i ⟨r, c, he, hc⟩ => ?_) (.of_forall fun i ha => ?_)
  · obtain ⟨evs, hr⟩ := π.exists_run i
    rw [state_of_act he]
    exact .inl (mem_flight_sent (hM.asks _ _ _ _ (hM.own_of_run hr p) hc q hq hpq))
  · obtain ⟨evs, hr⟩ := π.exists_run i
    rcases π.step i with ⟨-, hs⟩ | ⟨e, -, -, hn⟩
    · rwa [hs]
    · exact hM.awaited_next hr hn hpq hq (hp _) (hqup _) ha

/-- Who has fallen silent does not count as alive in the end. -/
theorem Polling.eventually_not_alive (hbyz : F.byz = ∅) (hrep : F.replays = false)
    (hsilent : ∀ᶠ i in atTop, Silent (π.state i) p q) : ∀ᶠ i in atTop, ¬ alive ((π.state i).proc p).state q := by
  refine Sequence.eventually_of_kept htimer (.of_forall fun i ⟨r, c, he, hc⟩ => ?_) (hsilent.mono fun i hs hnot => ?_)
  · rw [state_of_act he, act_state_self]
    exact hM.clears _ _ _ _ hc
  · rcases π.step i with ⟨-, hsame⟩ | ⟨e, -, -, hn⟩
    · rwa [hsame]
    · rcases next_cases hn with ⟨x, r, a, stop, -, -, ha, -, hs'⟩ | ⟨x, -, -, -, hs'⟩
      · rw [hs']
        by_cases hpx : p = x
        · subst hpx
          rw [act_state_self]
          exact hM.not_alive_act hbyz hrep ha hs (.inr hnot)
        · rwa [act_proc_ne _ _ _ _ _ _ hpx]
      · rwa [hs', crash_state]

end Paths

section Hosting

variable {σ' ι' μ' ω' : Type}

/-- Inside of `P'` there runs `P`: it has its share `proj` of the state, gets the inputs that `inp` takes for
it, and what it sends goes out wrapped up. -/
structure Hosts (P' : Protocol ρ σ' ι' μ' ω') (P : Protocol ρ σ ι μ ω) (proj : σ' → σ)
    (inp : Input ι' μ' → Option (Input ι μ)) (wrap : μ → μ') : Prop where
  init : ∀ p, proj (P'.init p) = P.init p
  idle : ∀ r s x, inp x = none → proj (P'.handle r s x).1 = proj s
  runs : ∀ r s x y, inp x = some y → proj (P'.handle r s x).1 = (P.handle r (proj s) y).1
  sends : ∀ r s x y d m, inp x = some y → .send d m ∈ (P.handle r (proj s) y).2 →
    .send d (wrap m) ∈ (P'.handle r s x).2
  wraps : ∀ q m, inp (.receive q (wrap m)) = some (.receive q m)
  called : ∀ x i, inp x = some (.call i) → ∃ i', x = .call i'
  received : ∀ x q m, inp x = some (.receive q m) → ∃ m', x = .receive q m'

omit [DecidableEq μ] in
theorem hosts_self (P : Protocol ρ σ ι μ ω) : Hosts P P id some id where
  init _ := rfl
  idle _ _ _ h := by cases h
  runs r s x y h := by
    obtain rfl := Option.some.inj h
    rfl
  sends r s x y d m h hm := by
    obtain rfl := Option.some.inj h
    exact hm
  wraps _ _ := rfl
  called _ i h := ⟨i, Option.some.inj h⟩
  received _ _ m h := ⟨m, Option.some.inj h⟩

omit [DecidableEq μ] in
theorem Monitor.host {P' : Protocol ρ σ' ι' μ' ω'} {P : Protocol ρ σ ι μ ω} {proj : σ' → σ}
    {inp : Input ι' μ' → Option (Input ι μ)} {wrap : μ → μ'} {U : Finset ℤ} {request reply : μ}
    {tick : ι → Prop} {tick' : ι' → Prop} {own : ℤ → σ → Prop} {alive : σ → ℤ → Prop}
    (hM : Monitor P U request reply tick own alive) (hH : Hosts P' P proj inp wrap)
    (htick : ∀ i', tick' i' ↔ ∃ i, inp (.call i') = some (.call i) ∧ tick i) :
    Monitor P' U (wrap request) (wrap reply) tick' (fun p s => own p (proj s)) fun s q => alive (proj s) q where
  own_init p := hH.init p ▸ hM.own_init p
  own_handle p r s x h := by
    cases hx : inp x with
    | none => rwa [hH.idle r s x hx]
    | some y =>
      rw [hH.runs r s x y hx]
      exact hM.own_handle p r _ y h
  seeds p q hq hqp := hH.init p ▸ hM.seeds p q hq hqp
  asks p r s i h hi q hq hqp := by
    obtain ⟨j, hj, htj⟩ := (htick i).mp hi
    exact hH.sends r s _ _ _ _ hj (hM.asks p r _ j h htj q hq hqp)
  answers r s q := hH.sends r s _ _ _ _ (hH.wraps q request) (hM.answers r _ q)
  hears r s q := by
    rw [hH.runs r s _ _ (hH.wraps q reply)]
    exact hM.hears r _ q
  keeps r s x q hx h := by
    cases hy : inp x with
    | none => rwa [hH.idle r s x hy]
    | some y =>
      rw [hH.runs r s x y hy]
      refine hM.keeps r _ y q (fun i hi hti => ?_) h
      subst hi
      obtain ⟨i', rfl⟩ := hH.called x i hy
      exact hx i' rfl ((htick i').mpr ⟨i, hy, hti⟩)
  clears r s i q hi := by
    obtain ⟨j, hj, htj⟩ := (htick i).mp hi
    rw [hH.runs r s _ _ hj]
    exact hM.clears r _ j q htj
  hears_only r s x q h := by
    cases hy : inp x with
    | none =>
      rw [hH.idle r s x hy] at h
      exact .inl h
    | some y =>
      rw [hH.runs r s x y hy] at h
      refine (hM.hears_only r _ y q h).imp_right fun ⟨m, hm⟩ => ?_
      subst hm
      exact hH.received x q m hy

end Hosting

end Net
