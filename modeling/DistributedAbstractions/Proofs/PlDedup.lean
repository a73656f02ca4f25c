import DistributedAbstractions.Proofs.ForgedTraffic
import DistributedAbstractions.Spec.PerfectLink
import Mathlib.Data.List.Pairwise

/-! Duplicate suppression of the perfect link. Records are compared by a hash of the sender's
digits with the id behind them, so that two records are told apart exactly if their texts are
different numbers modulo `2 ^ 64`. -/

namespace DSA

open CLib Inbox

section Djb2

theorem shiftLeft_add_self (h : Hash) : (h <<< 5) + h = 33 * h := by
  apply BitVec.eq_of_toNat_eq
  simp only [BitVec.toNat_add, BitVec.toNat_shiftLeft, BitVec.toNat_mul, Nat.shiftLeft_eq]
  rw [show (33 : Hash).toNat = 33 from rfl]
  omega

/-- The hash is the text as a number to the base 33, as far as 64 bits go. -/
theorem djb2_eq (s : CString) : djb2 s = BitVec.ofInt 64 (textValue s) := by
  have hfold : ∀ v : ℤ, s.foldl (fun (hash : Hash) c => ((hash <<< 5) + hash) + BitVec.ofInt 64 (charVal c))
      (BitVec.ofInt 64 v) = BitVec.ofInt 64 (s.foldl (fun v c => 33 * v + charVal c) v) := by
    induction s with
    | nil => exact fun _ => rfl
    | cons c s ih =>
      intro v
      rw [List.foldl_cons, List.foldl_cons, ← ih, shiftLeft_add_self, BitVec.ofInt_add, BitVec.ofInt_mul]
      rfl
  exact hfold 5381

theorem djb2_eq_iff {s t : CString} : djb2 s = djb2 t ↔ textValue s % 2 ^ 64 = textValue t % 2 ^ 64 := by
  rw [djb2_eq, djb2_eq, ← BitVec.toInt_inj, BitVec.toInt_ofInt, BitVec.toInt_ofInt]
  constructor
  · intro h
    have hmod := congrArg (· % ((2 ^ 64 : ℕ) : ℤ)) h
    simp only [Int.bmod_emod] at hmod
    exact_mod_cast hmod
  · intro h
    rw [← Int.emod_bmod (textValue s), ← Int.emod_bmod (textValue t)]
    exact congrArg (Int.bmod · (2 ^ 64)) h

theorem plHash_eq_iff {e e' : Deliver} : plHash e = plHash e' ↔
    textValue (recordText e) % 2 ^ 64 = textValue (recordText e') % 2 ^ 64 := djb2_eq_iff

theorem SameRecord.plHash_eq {e e' : Deliver} (h : SameRecord e e') : plHash e = plHash e' := by
  rw [plHash, plHash, h.1, h.2]

end Djb2

section Link

variable {e : Deliver} {es : List Deliver}

theorem plConsume_eq (hmsg : NUL ∉ e.msg) (hlen : e.msg.length < MAX_MSG_LEN) (l : PlLink) :
    plConsume l e = l.read (plReading e) := by
  cases hl : l.running with
  | false => simp [plConsume, Receiver.read, hl]
  | true =>
    simp only [plConsume, Receiver.read, hl, Bool.not_true, Bool.false_eq_true, if_false, if_true,
      plWrapper_eq hmsg hlen, plReading]
    by_cases hid : idLen e ≥ UUID_STR_LEN
    · rw [if_pos hid, if_pos hid]
      rfl
    rw [if_neg hid, if_neg hid]
    by_cases hdup : plHash e ∈ l.inbox
    · rw [if_pos hdup]
      split_ifs <;> simp [Receiver.step, hdup]
    rw [if_neg hdup]
    split_ifs
    · simp [Receiver.step, hdup]
    · simp [Receiver.step, hdup, hl]

theorem plRun_eq (h : ∀ e ∈ es, WellFormed e) : plRun es = run (es.map plReading) := by
  induction es using List.reverseRecOn with
  | nil => rfl
  | append_singleton es e ih =>
    have he := h e (by simp)
    rw [List.map_append, List.map_singleton, run_append_singleton, ← ih fun e' he' => h e' (by simp [he']),
      ← plConsume_eq he.1 he.2.1]
    simp [plRun]

@[simp] theorem plRun_append_singleton : plRun (es ++ [e]) = plConsume (plRun es) e := by
  simp [plRun]

theorem plWrapper_returned_iff (he : WellFormed e) (inbox : List Hash) :
    (plWrapper inbox e).2 = .returned ↔ plHash e ∈ inbox := by
  obtain ⟨hmsg, hlen, hid⟩ := he
  rw [plWrapper_eq hmsg hlen, if_neg (by omega)]
  split_ifs with hdup
  · exact iff_of_true rfl hdup
  · exact iff_of_false (fun h => by cases h) hdup
  · exact iff_of_false (fun h => by cases h) hdup

theorem plConsume_running {l : PlLink} (he : WellFormed e) (h : (plConsume l e).running = true) :
    l.running = true ∧ ∀ k, k ∈ (plConsume l e).inbox ↔ k ∈ l.inbox ∨ plHash e = k := by
  obtain ⟨hmsg, hlen, hid⟩ := he
  unfold plConsume at h ⊢
  cases hl : l.running with
  | false => simp [hl] at h
  | true =>
    simp only [hl, Bool.not_true, Bool.false_eq_true, if_false, plWrapper_eq hmsg hlen,
      if_neg (Nat.not_le.mpr hid), ge_iff_le] at h ⊢
    refine ⟨trivial, fun k => ?_⟩
    by_cases hdup : plHash e ∈ l.inbox
    · rw [if_pos hdup]
      exact (or_iff_left_of_imp fun hk => hk ▸ hdup).symm
    · rw [if_neg hdup] at h ⊢
      split_ifs at h ⊢
      simp [eq_comm]

theorem plRun_running (hwf : ∀ e ∈ es, WellFormed e) (h : (plRun es).running = true) (k : Hash) :
    k ∈ (plRun es).inbox ↔ ∃ e ∈ es, plHash e = k := by
  induction es using List.reverseRecOn with
  | nil => simp [plRun, empty]
  | append_singleton es e ih =>
    rw [plRun_append_singleton] at h ⊢
    obtain ⟨hrun, hinbox⟩ := plConsume_running (hwf e (by simp)) h
    rw [hinbox, ih (fun e' he' => hwf e' (by simp [he'])) hrun]
    simp [or_and_right, exists_or]

theorem running_of_append {e : Deliver} (he : WellFormed e) (h : (plRun (es ++ [e])).running = true) :
    (plRun es).running = true := by
  rw [plRun_append_singleton] at h
  exact (plConsume_running he h).1

end Link

section Suppression

variable {es : List Deliver} {e : Deliver}

theorem exactSuppression_append_singleton : ExactSuppression (es ++ [e]) ↔ ExactSuppression es ∧
    ((plRun es).running = true → ((plWrapper (plRun es).inbox e).2 = .returned ↔
      ∃ e' ∈ es, SameRecord e' e)) :=
  forall_prefix_append_singleton

theorem noCollision_append_singleton : NoCollision (es ++ [e]) ↔ NoCollision es ∧
    ((plRun es).running = true → ∀ e' ∈ es, plHash e' = plHash e → SameRecord e' e) := by
  simp only [NoCollision, ← plHash_eq_iff]
  exact forall_prefix_append_singleton

/-- While the link goes on, the hash tells all records apart. -/
theorem NoCollision.injective (hwf : ∀ e ∈ es, WellFormed e) (h : NoCollision es)
    (hrun : (plRun es).running = true) :
    ∀ a ∈ es, ∀ b ∈ es, plHash a = plHash b → SameRecord a b := by
  have hpair : es.Pairwise fun a b => plHash a = plHash b → SameRecord a b := by
    induction es using List.reverseRecOn with
    | nil => exact List.Pairwise.nil
    | append_singleton es e ih =>
      have hrun' := running_of_append (hwf e (by simp)) hrun
      obtain ⟨hold, hlast⟩ := noCollision_append_singleton.mp h
      refine List.pairwise_append.mpr ⟨ih (fun e' he' => hwf e' (by simp [he'])) hold hrun',
        List.pairwise_singleton _ _, fun a ha b hb => ?_⟩
      rw [List.mem_singleton.mp hb]
      exact hlast hrun' a ha
  have hflip : es.Pairwise fun a b => plHash b = plHash a → SameRecord b a :=
    hpair.imp fun hab heq => ⟨(hab heq.symm).1.symm, (hab heq.symm).2.symm⟩
  exact fun a ha b hb => hpair.forall_of_forall_of_flip (fun _ _ _ => ⟨rfl, rfl⟩) hflip ha hb

theorem exact_suppression_iff (hwf : ∀ e ∈ es, WellFormed e) : ExactSuppression es ↔ NoCollision es := by
  induction es using List.reverseRecOn with
  | nil => exact iff_of_true (fun pre e hp => by simp at hp) fun pre e hp => by simp at hp
  | append_singleton es e ih =>
    have hwf' : ∀ e' ∈ es, WellFormed e' := fun e' he' => hwf e' (by simp [he'])
    rw [exactSuppression_append_singleton, noCollision_append_singleton, ih hwf']
    refine and_congr_right fun hno => forall_congr' fun hrun => ?_
    rw [plWrapper_returned_iff (hwf e (by simp)), plRun_running hwf' hrun]
    constructor
    · -- the record of `e` is there already, and nothing else has its hash
      intro h e' he' heq
      obtain ⟨e'', he'', hsame⟩ := h.mp ⟨e', he', heq⟩
      have h' := hno.injective hwf' hrun e' he' e'' he'' (heq.trans hsame.plHash_eq.symm)
      exact ⟨h'.1.trans hsame.1, h'.2.trans hsame.2⟩
    · intro h
      exact ⟨fun ⟨e', he', heq⟩ => ⟨e', he', h e' he' heq⟩, fun ⟨e', he', hsame⟩ => ⟨e', he', hsame.plHash_eq⟩⟩

theorem noCollision_of_forall (h : ∀ a ∈ es, ∀ b ∈ es, plHash a = plHash b → SameRecord a b) :
    NoCollision es := by
  intro pre e hp _ e' he' heq
  exact h e' (hp.subset (by simp [he'])) e (hp.subset (by simp)) (plHash_eq_iff.mpr heq)

/-- Peers 1 and 2 under the same id, and a repetition. -/
theorem exact_suppression_of_two :
    ExactSuppression [⟨"u,ab".toList, 1⟩, ⟨"u,ab".toList, 2⟩, ⟨"u,cd".toList, 1⟩] :=
  (exact_suppression_iff (by decide)).mpr (noCollision_of_forall (by decide +kernel))

/-- Peer 1 under the id `1u` and peer 11 under the id `u`. -/
theorem undelimited_records : (∀ e ∈ [⟨"1u,abc".toList, 1⟩, ⟨"u,ab".toList, 11⟩], WellFormed e) ∧
    ¬ ExactSuppression [⟨"1u,abc".toList, 1⟩, ⟨"u,ab".toList, 11⟩] := by
  refine ⟨by decide, fun h => ?_⟩
  have hlast := (h [⟨"1u,abc".toList, 1⟩] ⟨"u,ab".toList, 11⟩ (List.prefix_refl _) (by decide +kernel)).mp
    ((plWrapper_returned_iff (by decide) _).mpr (by decide +kernel))
  exact absurd hlast (by decide)

end Suppression

end DSA
