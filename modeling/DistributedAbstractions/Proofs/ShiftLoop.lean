import DistributedAbstractions.Spec.Links

/-! The perfect link moves a message to the front of its buffer. The loop compares with
the length of what is in the buffer at the time, and stays inside only if the message
is at least as long as what is in front of it. -/

namespace DSA

open CLib

/-- The buffer `M` after `i` rounds of the loop. -/
def shifted (offset : ℕ) (M : List Char) (i : ℕ) : List Char := (M.drop offset).take i ++ M.drop i

theorem cstr_append_nul {s : CString} (h : NUL ∉ s) (rest : List Char) :
    cstr (s ++ NUL :: rest) = s := by
  have hs : ∀ c ∈ s, decide (c ≠ NUL) = true := fun c hc => by
    simpa using fun e : c = NUL => h (e ▸ hc)
  rw [cstr, List.takeWhile_append_of_pos hs]
  simp

theorem drop_field (field : CString) (c : Char) (rest : CString) :
    (field ++ c :: rest).drop (field.length + DELIM_LEN) = rest := by
  rw [List.drop_append, List.drop_eq_nil_of_le (Nat.le_add_right _ _), Nat.add_sub_cancel_left]
  rfl

section

variable {offset i : ℕ} {M : List Char}

theorem shifted_succ (hi : i + offset < M.length) :
    shifted offset M (i + 1) =
      (shifted offset M i).set i ((shifted offset M i).getD (i + offset) NUL) := by
  have hlen : ((M.drop offset).take i).length = i := by
    rw [List.length_take, List.length_drop]
    omega
  have hget : (shifted offset M i).getD (i + offset) NUL = M[i + offset] := by
    rw [List.getD_eq_getElem?_getD, shifted, List.getElem?_append_right (by omega), hlen,
      List.getElem?_drop, show i + (i + offset - i) = i + offset by omega, List.getElem?_eq_getElem hi,
      Option.getD_some]
  have htake : (M.drop offset).take (i + 1) = (M.drop offset).take i ++ [M[i + offset]] := by
    rw [List.take_add_one, List.getElem?_drop, Nat.add_comm offset i, List.getElem?_eq_getElem hi]
    rfl
  rw [hget, shifted, htake, shifted, List.set_append_right _ _ (by omega), hlen, Nat.sub_self,
    ← List.cons_getElem_drop_succ (h := (by omega : i < M.length)), List.set_cons_zero,
    List.append_assoc, List.singleton_append]

/-- A loop that goes on up to round `k` moves the memory by one cell more, and one that goes on for ever
leaves it. -/
theorem moveLoop_shifted {goesOn : ℕ → List Char → Bool} {k : ℕ} {forever : Prop} [Decidable forever]
    (hgo : ∀ i, i + offset ≤ M.length → (goesOn i (shifted offset M i) = true ↔ i ≤ k ∨ forever))
    (hroom : ¬ forever → k + 1 + offset ≤ M.length) (room : ℕ) :
    ∀ i, i + offset + room = M.length → (i ≤ k + 1 ∨ forever) →
      moveLoop goesOn offset room i (shifted offset M i) =
        if forever then none else some (shifted offset M (k + 1)) := by
  induction room with
  | zero =>
    intro i hi hend
    have hgo := hgo i (by omega)
    rw [moveLoop]
    by_cases hf : forever
    · rw [if_pos (hgo.mpr (.inr hf)), if_pos hf]
    · have := hroom hf
      have hk := hend.resolve_right hf
      rw [if_neg (fun h => by have := (hgo.mp h).resolve_right hf; omega), if_neg hf]
      congr 2
      omega
  | succ room ih =>
    intro i hi hend
    have hgo := hgo i (by omega)
    rw [moveLoop]
    by_cases h : i ≤ k ∨ forever
    · rw [if_pos (hgo.mpr h), ← shifted_succ (by omega)]
      exact ih (i + 1) (by omega) (h.imp_left Nat.succ_le_succ)
    · obtain ⟨hik, hf⟩ := not_or.mp h
      have hk := hend.resolve_right hf
      rw [if_neg (mt hgo.mp h), if_neg hf]
      congr 2
      omega

end

section

variable {msg : CString} {offset i : ℕ} (hmsg : NUL ∉ msg) (hlen : msg.length < MAX_MSG_LEN)
include hmsg hlen

theorem strlen_shifted (hoff : offset ≤ msg.length + 1) (hi : i + offset ≤ MAX_MSG_LEN) :
    strlen (shifted offset (msgBuffer msg) i) =
      if i ≤ msg.length - offset then msg.length else msg.length - offset := by
  have hpad : 0 < MAX_MSG_LEN - msg.length := by omega
  have hbody : (msg.drop offset).length = msg.length - offset := List.length_drop
  have hdrop : (msgBuffer msg).drop offset =
      msg.drop offset ++ List.replicate (MAX_MSG_LEN - msg.length - (offset - msg.length)) NUL := by
    rw [msgBuffer, List.drop_append, List.drop_replicate]
  split_ifs with h
  · have hstring : shifted offset (msgBuffer msg) i = (msg.drop offset).take i ++ msg.drop i ++
        NUL :: List.replicate (MAX_MSG_LEN - msg.length - 1) NUL := by
      rw [shifted, hdrop, List.take_append_of_le_length (by omega), msgBuffer,
        List.drop_append_of_le_length (by omega), List.append_assoc, ← List.replicate_succ,
        Nat.sub_add_cancel hpad]
    rw [strlen, hstring, cstr_append_nul, List.length_append, List.length_take, List.length_drop,
      List.length_drop]
    · omega
    · rw [List.mem_append, not_or]
      exact ⟨fun hm => hmsg (List.mem_of_mem_drop (List.mem_of_mem_take hm)),
        fun hm => hmsg (List.mem_of_mem_drop hm)⟩
  · obtain ⟨n, hn⟩ : ∃ n, min (i - (msg.length - offset))
        (MAX_MSG_LEN - msg.length - (offset - msg.length)) = n + 1 :=
      Nat.exists_eq_succ_of_ne_zero (by omega)
    have hstring : shifted offset (msgBuffer msg) i = msg.drop offset ++
        NUL :: (List.replicate n NUL ++ (msgBuffer msg).drop i) := by
      rw [shifted, hdrop, List.take_append, List.take_of_length_le (by omega), List.take_replicate,
        hbody, hn, List.replicate_succ, List.append_assoc, List.cons_append]
    rw [strlen, hstring, cstr_append_nul fun hm => hmsg (List.mem_of_mem_drop hm), hbody]

/-- With a message shorter than `offset` the loop never finds an end, else it stops as soon
as the message and its terminator are moved. -/
theorem shiftGoesOn_shifted (hoff : offset ≤ msg.length + 1) (hi : i + offset ≤ MAX_MSG_LEN) :
    shiftGoesOn offset i (shifted offset (msgBuffer msg) i) = true ↔
      i ≤ msg.length - offset ∨ msg.length < 2 * offset := by
  rw [shiftGoesOn, strlen_shifted hmsg hlen hoff hi, Bool.or_eq_true, decide_eq_true_eq,
    decide_eq_true_eq]
  split_ifs with h
  · omega
  · omega

omit hmsg in
theorem length_msgBuffer : (msgBuffer msg).length = MAX_MSG_LEN := by
  rw [msgBuffer, List.length_append, List.length_replicate]
  omega

theorem cstr_shifted (hoff : offset ≤ msg.length) :
    cstr (shifted offset (msgBuffer msg) (msg.length - offset + 1)) = msg.drop offset := by
  rw [shifted, msgBuffer, List.drop_append_of_le_length hoff, List.take_append,
    List.length_drop, Nat.add_sub_cancel_left, List.take_of_length_le (by simp),
    ← Nat.sub_add_cancel (by omega : 1 ≤ MAX_MSG_LEN - msg.length), List.replicate_succ,
    List.take_succ_cons, List.append_assoc, List.cons_append,
    cstr_append_nul fun hm => hmsg (List.mem_of_mem_drop hm)]

end

/-- What the loop leaves is the message behind the id, or it leaves the buffer. -/
theorem shiftLoop_eq {msg : CString} (hmsg : NUL ∉ msg) (hlen : msg.length < MAX_MSG_LEN) {offset : ℕ}
    (hoff : offset ≤ msg.length + 1) :
    (shiftLoop offset (MAX_MSG_LEN - offset) 0 (msgBuffer msg)).map cstr =
      if msg.length < 2 * offset then none else some (msg.drop offset) := by
  have hstart : shifted offset (msgBuffer msg) 0 = msgBuffer msg := by simp [shifted]
  have hsize := length_msgBuffer hlen
  have hloop := moveLoop_shifted (fun i hi => shiftGoesOn_shifted hmsg hlen hoff (by omega)) (by omega)
    (MAX_MSG_LEN - offset) 0 (by omega) (by omega)
  rw [hstart] at hloop
  rw [shiftLoop, hloop]
  split_ifs with h
  · rfl
  · rw [Option.map_some, cstr_shifted hmsg hlen (by omega)]

end DSA
