import DistributedAbstractions.Spec.Sending

/-! Which messages go out whole: those whose frame fits. Each of the three formatters cuts at the same
length, so that together they cut the frame once, but the datagram is as long as the last text was before
it was cut. -/

namespace DSA

open CLib

variable (w : Socket) (id : ℤ) (uuid : CString) (outbox : List Send)

/-- To cut what is going to be cut behind a prefix makes no difference. -/
theorem snprintf_append (pre text : CString) (size : ℕ) :
    snprintf size (pre ++ snprintf size text) = snprintf size (pre ++ text) := by
  unfold snprintf
  rw [List.take_append, List.take_append, List.take_take, Nat.min_eq_left (Nat.sub_le _ _)]

theorem Socket.fllSend_of_fits {e : Send} (h : (fmtInt id ++ ',' :: e.msg).length < MAX_MSG_LEN) :
    (w.fllSend id e).bytes = fmtInt id ++ ',' :: e.msg := by
  unfold fllSend
  dsimp only
  rw [snprintf_of_lt h]
  exact List.take_left

theorem Socket.read_fllSend (e : Send) :
    (w.fllSend id e).bytes.take (MAX_MSG_LEN - 1) = snprintf MAX_MSG_LEN (fmtInt id ++ ',' :: e.msg) := by
  by_cases hfit : (fmtInt id ++ ',' :: e.msg).length < MAX_MSG_LEN
  · rw [w.fllSend_of_fits id hfit, snprintf]
  · have hmax : MAX_MSG_LEN = 1024 := rfl
    have hlen : (snprintf MAX_MSG_LEN (fmtInt id ++ ',' :: e.msg)).length = MAX_MSG_LEN - 1 := by
      rw [snprintf, List.length_take]
      omega
    unfold fllSend
    dsimp only
    rw [List.take_take, Nat.min_eq_left (by omega), ← hlen]
    exact List.take_left

theorem text_plSend (e : Send) :
    snprintf MAX_MSG_LEN (fmtInt id ++ ',' :: (plSend uuid e).msg) =
      snprintf MAX_MSG_LEN (plFrame id uuid e.msg) := by
  have h := snprintf_append (fmtInt id ++ [',']) (uuid ++ ',' :: e.msg) MAX_MSG_LEN
  simpa [plSend, plFrame] using h

theorem Socket.read_plSend (e : Send) :
    (w.plSend id uuid outbox e).2.bytes.take (MAX_MSG_LEN - 1) =
      snprintf MAX_MSG_LEN (plFrame id uuid e.msg) := by
  rw [plSend, sblSend, read_fllSend, text_plSend]

theorem Socket.plSend_of_fits {e : Send} (h : (plFrame id uuid e.msg).length < MAX_MSG_LEN) :
    (w.plSend id uuid outbox e).2.bytes = plFrame id uuid e.msg ∧
      (w.plSend id uuid outbox e).2.len = (plFrame id uuid e.msg).length := by
  have hmsg : (DSA.plSend uuid e).msg = uuid ++ ',' :: e.msg := by
    apply snprintf_of_lt
    simp only [plFrame, List.length_append, List.length_cons] at h ⊢
    omega
  have htext : fmtInt id ++ ',' :: (DSA.plSend uuid e).msg = plFrame id uuid e.msg := by
    rw [hmsg, plFrame]
  constructor
  · rw [plSend, sblSend, w.fllSend_of_fits id (htext ▸ h), htext]
  · simp only [plSend, sblSend, fllSend, htext]

/-- The code does not look at the length, so that it refuses nothing. -/
theorem untruncated_iff (e : Send) :
    Untruncated (plFrame id uuid e.msg) (w.plSend id uuid outbox e).2 ↔
      (plFrame id uuid e.msg).length < MAX_MSG_LEN ∨ w.ok = false := by
  have hmax : MAX_MSG_LEN = 1024 := rfl
  have hstatus : (w.plSend id uuid outbox e).2.status = if w.ok then 0 else -1 := rfl
  constructor
  · intro h
    cases hok : w.ok with
    | false => exact .inr rfl
    | true =>
      left
      by_contra hlong
      apply h.refused (by omega)
      rw [hstatus, hok]
      rfl
  · intro h
    cases hok : w.ok with
    | false =>
      have hne : (w.plSend id uuid outbox e).2.status ≠ 0 := by
        rw [hstatus, hok]
        decide
      exact ⟨fun h0 => absurd h0 hne, fun h0 => absurd h0 hne, fun h0 => absurd h0 hne, fun _ => hne⟩
    | true =>
      have hfit : (plFrame id uuid e.msg).length < MAX_MSG_LEN := by
        rcases h with h | h
        · exact h
        · rw [hok] at h
          cases h
      obtain ⟨hbytes, hlen⟩ := w.plSend_of_fits id uuid outbox hfit
      refine ⟨fun _ => hbytes, fun _ => ?_, fun _ => ?_, fun hlong => absurd hlong (by omega)⟩
      · rw [hbytes]
        omega
      · rw [Transmission.outside, hlen]
        omega

/-- The frame has one byte more than the receiver reads, and the call succeeds. -/
theorem pl_send_truncates : ¬ ∀ (w : Socket) id uuid outbox (e : Send), e.msg.length < MAX_MSG_LEN →
    Untruncated (plFrame id uuid e.msg) (w.plSend id uuid outbox e).2 := by
  intro h
  have hlong := h ⟨[], true⟩ 1 (List.replicate 36 'a') [] ⟨List.replicate 985 'x', 2⟩
    (by rw [List.length_replicate]; decide)
  have hlen : MAX_MSG_LEN ≤ (plFrame 1 (List.replicate 36 'a') (List.replicate 985 'x')).length := by
    rw [plFrame, List.length_append, List.length_cons, List.length_append, List.length_cons,
      List.length_replicate, List.length_replicate]
    decide
  exact hlong.refused hlen rfl

end DSA
