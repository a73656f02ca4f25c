import DistributedAbstractions.Spec.LeaderElection

/-! The epochs that the incarnations of a process send grow, as long as the file in which the
last one is kept is not lost. -/

namespace DSA

open CLib

/-- The epoch that the file stands for, 0 without one. -/
def storedEpoch (file : StateFile) : ℤ := if retrieveEpoch file = -1 then 0 else retrieveEpoch file

/-- The file holds the text of a positive `int`, or does not exist. -/
def Intact (file : StateFile) : Prop :=
  file = none ∨ ∃ e : ℤ, 1 ≤ e ∧ e ≤ INT_MAX ∧ file = some (fmtInt e)

@[simp] theorem retrieveEpoch_fmtInt (e : ℤ) : retrieveEpoch (some (fmtInt e)) = e := by
  simp [retrieveEpoch, scanInt_fmtInt]

theorem storedEpoch_fmtInt {e : ℤ} (h : 1 ≤ e) : storedEpoch (some (fmtInt e)) = e := by
  rw [storedEpoch, retrieveEpoch_fmtInt, if_neg (by omega)]

theorem Intact.nonneg {file : StateFile} (h : Intact file) : 0 ≤ storedEpoch file := by
  rcases h with rfl | ⟨e, he, -, rfl⟩
  · decide
  · rw [storedEpoch_fmtInt he]
    omega

/-- The increment does not overflow, and its result can be stored. -/
theorem Intact.localEpoch_eq {file : StateFile} (h : Intact file) (hmax : retrieveEpoch file < INT_MAX) :
    localEpoch file = storedEpoch file + 1 ∧ Intact (some (fmtInt (localEpoch file))) ∧
      storedEpoch (some (fmtInt (localEpoch file))) = storedEpoch file + 1 := by
  have h0 := h.nonneg
  have hle : storedEpoch file < INT_MAX := by
    rw [storedEpoch]
    split_ifs
    · decide
    · exact hmax
  have hI : (INT_MAX : ℤ) = 2 ^ 31 - 1 := by decide
  have heq : localEpoch file = storedEpoch file + 1 := by
    change (storedEpoch file + 1).bmod (2 ^ 32) = _
    exact Int.bmod_eq_of_le (by omega) (by omega)
  rw [heq]
  exact ⟨rfl, .inr ⟨_, by omega, by omega, rfl⟩, storedEpoch_fmtInt (by omega)⟩

/-- The file stands for the last epoch sent, or a later one. -/
structure EpochTable (file : StateFile) (sent : List ℤ) : Prop where
  intact : Intact file
  grow : sent.Pairwise (· < ·)
  covered : ∀ e ∈ sent, e ≤ storedEpoch file

theorem EpochTable.step {file : StateFile} {sent : List ℤ} (h : EpochTable file sent) {i : Incarnation}
    (hi : KeepsEpoch file i) : EpochTable (eleInit file i).1 (sent ++ (eleInit file i).2) := by
  obtain ⟨hint, hgrow, hcov⟩ := h
  cases i with
  | early => simpa [eleInit] using (⟨hint, hgrow, hcov⟩ : EpochTable file sent)
  | crashed written =>
    obtain ⟨-, hint', hst⟩ := hint.localEpoch_eq hi.2
    have hfile : (eleInit file (.crashed written)).1 = some (fmtInt (localEpoch file)) :=
      congrArg some (List.take_of_length_le hi.1)
    rw [hfile]
    refine ⟨hint', by simpa [eleInit] using hgrow, fun e he => ?_⟩
    have := hcov e (by simpa [eleInit] using he)
    omega
  | through opened sends =>
    obtain ⟨hnew, hint', hst⟩ := hint.localEpoch_eq hi.2
    cases opened with
    | false =>
      -- nothing is stored, and nothing is sent either
      obtain rfl : sends = false := by simpa using hi.1
      simpa [eleInit, storeEpoch] using (⟨hint, hgrow, hcov⟩ : EpochTable file sent)
    | true =>
      refine ⟨hint', ?_, fun e he => ?_⟩
      · rw [List.pairwise_append]
        refine ⟨hgrow, by cases sends <;> simp [eleInit], fun a ha b hb => ?_⟩
        obtain rfl : b = localEpoch file := by cases sends <;> simp_all [eleInit]
        have := hcov a ha
        omega
      · change e ≤ storedEpoch (some (fmtInt (localEpoch file)))
        rcases List.mem_append.mp he with he | he
        · have := hcov e he
          omega
        · obtain rfl : e = localEpoch file := by cases sends <;> simp_all [eleInit]
          omega

theorem epochs_grow {is : List Incarnation} (h : Machine.Guarded eleInit KeepsEpoch none is) :
    EpochsGrow is := by
  have ht := Machine.invariant_of_guarded (I := fun _ => EpochTable)
    ⟨.inl rfl, List.Pairwise.nil, fun _ he => (List.not_mem_nil he).elim⟩
    (fun _ _ _ _ hi ht => ht.step hi) h
  exact ht.grow

/-- The second incarnation cannot open the file and does not get as far as sending, the third
crashes when all of its epoch is written. -/
theorem epochs_grow_of_four :
    epochsSent [.through true true, .through false false, .crashed 1, .through true true] = [1, 3] ∧
    EpochsGrow [.through true true, .through false false, .crashed 1, .through true true] :=
  ⟨by decide +kernel, epochs_grow (by decide +kernel)⟩

/-- The second incarnation crashes when it has emptied the file. -/
theorem epochs_repeat : ¬ EpochsGrow [.through true true, .crashed 0, .through true true] := by
  decide +kernel

end DSA
