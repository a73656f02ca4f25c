import DistributedAbstractions.Lib.Machine
import DistributedAbstractions.Proofs.BleLocal

/-! What one peer of the leader election keeps between its steps, whoever complains to it. -/

namespace DSA

open CLib Net

theorem indications_bleSends (b : Ble) : indications (bleSends b) = [] := by
  apply indications_eq_nil
  intro o ho
  obtain ⟨y, -, -, hy⟩ := mem_bleSends.mp ho
  cases hy

theorem Amplified.indications {b : Ble} {c : Bool} {es : BleEffects} (h : Amplified b c es) :
    indications es = [] := by
  induction h with
  | no => rfl
  | yes => exact indications_bleSends b

theorem BleOutcome.advances {b b' : Ble} {q : ℤ} {P : CString} {es : BleEffects} (h : BleOutcome b q P b' es) :
    Advances b b' es := by
  induction h with
  | ignored => exact .inl ⟨rfl, rfl⟩
  | counted hP hn ha hlen => exact .inl ⟨rfl, ha.indications⟩
  | advanced hP hn ha hlen =>
    refine .inr ⟨rfl, ?_⟩
    rw [indications_append, ha.indications]
    rfl

theorem BleOutcome.current {b b' : Ble} {q : ℤ} {P : CString} {es : BleEffects} (h : BleOutcome b q P b' es)
    (hcurrent : ∀ e ∈ b.complains, e.round = b.round) : ∀ e ∈ b'.complains, e.round = b'.round := by
  induction h with
  | ignored => exact hcurrent
  | counted hP hn ha hlen =>
    intro e he
    rcases List.mem_append.mp he with he | he
    · exact hcurrent e he
    · rw [List.mem_singleton.mp he]
  | advanced hP hn ha hlen => exact fun _ he => absurd he List.not_mem_nil

theorem advances_bleStep (N f : ℕ) (b : Ble) (i : Input Unit CString) :
    Advances b (bleStep N f b i).1 (bleStep N f b i).2 := by
  cases i with
  | call => exact .inl ⟨rfl, indications_bleSends b⟩
  | receive q P => exact (bleCallback_outcome b q P).advances

theorem current_bleStep (N f : ℕ) {b : Ble} (h : ∀ e ∈ b.complains, e.round = b.round) (i : Input Unit CString) :
    ∀ e ∈ (bleStep N f b i).1.complains, e.round = (bleStep N f b i).1.round := by
  cases i with
  | call => exact h
  | receive q P => exact (bleCallback_outcome b q P).current h

theorem bleLocal_bleStep {N f : ℕ} {p : ℤ} {b : Ble} {is : List (Input Unit CString)} {es : BleEffects}
    (h : BleLocal N f p ⟨b, is, es, false⟩) (i : Input Unit CString) :
    BleLocal N f p ⟨(bleStep N f b i).1, is ++ [i], es ++ (bleStep N f b i).2, false⟩ := by
  cases i with
  | call => exact h.call
  | receive q P => exact h.receive q P

theorem BleLocal.steady {N f : ℕ} {p : ℤ} {l : BleProc} (h : BleLocal N f p l)
    (hcurrent : ∀ e ∈ l.state.complains, e.round = l.state.round) : BleSteady N f p l.state l.effects :=
  ⟨h.nodup, hcurrent, h.few, h.complained⟩

/-- After every sequence of complaints and calls the state is steady, and the next step advances. -/
theorem ble_steady (N f : ℕ) (p : ℤ) (is : List (Input Unit CString)) :
    BleSteady N f p (Machine.state (bleStep N f) ((bleProtocol N f).init p) is)
        (Machine.outputs (bleStep N f) ((bleProtocol N f).init p) is) ∧
      ∀ i, Advances (Machine.state (bleStep N f) ((bleProtocol N f).init p) is)
        (bleStep N f (Machine.state (bleStep N f) ((bleProtocol N f).init p) is) i).1
        (bleStep N f (Machine.state (bleStep N f) ((bleProtocol N f).init p) is) i).2 := by
  refine ⟨?_, advances_bleStep N f _⟩
  obtain ⟨hlocal, hcurrent⟩ := @Machine.invariant _ _ _ (bleStep N f) ((bleProtocol N f).init p)
    (fun is b es => BleLocal N f p ⟨b, is, es, false⟩ ∧ ∀ e ∈ b.complains, e.round = b.round)
    ⟨bleLocal_init, fun _ he => absurd he List.not_mem_nil⟩
    (fun _ i _ _ h => ⟨bleLocal_bleStep h.1 i, current_bleStep N f h.2 i⟩) is
  exact hlocal.steady hcurrent

end DSA
