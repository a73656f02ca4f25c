import DistributedAbstractions.Proofs.AuthRuns
import DistributedAbstractions.Proofs.Truncation

/-! What the receiving side makes of a datagram of the sending side. The fair-loss link does not terminate
the rank, so that digits that its buffer holds behind the rank are read as part of it. -/

namespace DSA

open CLib Inbox

theorem nul_notMem_fmtInt (n : ℤ) : NUL ∉ fmtInt n := by
  have hd : NUL ∉ Nat.toDigits 10 n.natAbs := fun h => absurd (isDigit_toDigits _ _ h) (by decide)
  unfold fmtInt
  split_ifs
  · simpa [NUL] using hd
  · exact hd

/-- A rank as it stands in a datagram. -/
def IsRank (rank : ℤ) : Prop := 1 ≤ rank ∧ rank ≤ INT_MAX

instance (rank : ℤ) : Decidable (IsRank rank) := inferInstanceAs (Decidable (_ ∧ _))

theorem IsRank.length_fmtInt {rank : ℤ} (h : IsRank rank) : (fmtInt rank).length ≤ FLL_ID_LEN := by
  obtain ⟨hpos, hmax⟩ := h
  apply length_fmtInt_le (by omega) (by decide)
  have : INT_MAX = 2147483647 := rfl
  have : (10 : ℤ) ^ FLL_ID_LEN = 10000000000 := rfl
  omega

section

variable {rank : ℤ} {r : Received}

/-- What `atoi` makes of the rank and the memory behind it. -/
theorem IsRank.atoi_eq_iff (h : IsRank rank) (rest : CString) :
    atoi (fmtInt rank ++ rest) = rank ↔ ∀ c ∈ rest.head?, ¬ c.isDigit := by
  constructor
  · intro heq c hc hdigit
    cases rest with
    | nil => cases hc
    | cons d t =>
      obtain rfl : d = c := Option.some.inj hc
      have hlt := lt_atoi_fmtInt_digit h.1 hdigit t
      omega
  · exact atoi_fmtInt_append rank

theorem consumeMsg_frame (hrank : IsRank rank) {msg : CString} (hmsg : NUL ∉ msg)
    (hbytes : r.bytes.take (MAX_MSG_LEN - 1) = fmtInt rank ++ ',' :: msg) :
    consumeMsg r = .callback ⟨msg, atoi (fmtInt rank ++ r.id)⟩ := by
  have hid := hrank.length_fmtInt
  have hlen : (fmtInt rank ++ ',' :: msg).length ≤ MAX_MSG_LEN - 1 := hbytes ▸ List.length_take_le _ _
  have hmax : MAX_MSG_LEN = 1024 := rfl
  have hstring : NUL ∉ fmtInt rank ++ ',' :: msg := by
    rw [List.mem_append, List.mem_cons, not_or, not_or]
    exact ⟨nul_notMem_fmtInt rank, by decide, hmsg⟩
  obtain ⟨behind, hbuf⟩ : ∃ behind, (fmtInt rank ++ ',' :: msg ++ NUL :: r.buf).take MAX_MSG_LEN =
      fmtInt rank ++ ',' :: msg ++ NUL :: behind := by
    obtain ⟨n, hn⟩ : ∃ n, MAX_MSG_LEN - (fmtInt rank ++ ',' :: msg).length = n + 1 :=
      Nat.exists_eq_succ_of_ne_zero (by omega)
    refine ⟨r.buf.take n, ?_⟩
    rw [List.take_append, List.take_of_length_le (by omega), hn, List.take_succ_cons]
  have hcomma : strcspn (fmtInt rank ++ ',' :: msg) ',' = (fmtInt rank).length :=
    strcspn_append (comma_not_mem_fmtInt rank) msg
  have hdrop : (fmtInt rank ++ ',' :: msg ++ NUL :: behind).drop ((fmtInt rank).length + DELIM_LEN) =
      msg ++ NUL :: behind := by
    rw [List.append_assoc]
    exact drop_field _ _ _
  have htake : (fmtInt rank ++ ',' :: msg ++ NUL :: behind).take (fmtInt rank).length = fmtInt rank := by
    rw [List.append_assoc, List.take_left]
  unfold consumeMsg
  dsimp only
  rw [hbytes, if_neg (by simp), hbuf, cstr_append_nul hstring, hcomma, if_neg (by omega), hdrop,
    if_neg (by simp), cstr_append_nul hmsg, htake]

end

/-- The rank comes back unless there is a digit behind it in `id`; the message always does. -/
theorem fll_round_trip_iff (w : Socket) {rank : ℤ} {msg : CString} {dst : ℤ} {r : Received}
    (hrank : IsRank rank) (hmsg : NUL ∉ msg) (hfit : (fmtInt rank ++ ',' :: msg).length < MAX_MSG_LEN)
    (hsent : r.bytes = (w.fllSend rank ⟨msg, dst⟩).bytes) :
    consumeMsg r = .callback ⟨msg, rank⟩ ↔ ∀ c ∈ r.id.head?, ¬ c.isDigit := by
  have hbytes : r.bytes.take (MAX_MSG_LEN - 1) = fmtInt rank ++ ',' :: msg := by
    rw [hsent, w.read_fllSend, snprintf_of_lt hfit]
  rw [consumeMsg_frame hrank hmsg hbytes, ← hrank.atoi_eq_iff]
  constructor
  · intro h
    have he := Handled.callback.inj h
    rw [Deliver.mk.injEq] at he
    exact he.2
  · intro h
    rw [h]

/-- `hi` of peer 1 with `rest` in the buffer of the rank behind it. -/
def hiFrom1 (rest : List Char) : Received := ⟨['1', ',', 'h', 'i'], [], rest, []⟩

theorem fll_round_trip_hi : consumeMsg (hiFrom1 [NUL, '2']) = .callback ⟨['h', 'i'], 1⟩ := by
  refine (@fll_round_trip_iff ⟨[], true⟩ 1 ['h', 'i'] 2 _ (by decide) (by decide) (by decide) (by decide)).mpr ?_
  intro c hc
  obtain rfl := Option.some.inj hc
  decide

/-- Behind the rank there is what is left of rank 12. -/
theorem fll_round_trip_fails : ¬ ∀ (w : Socket) (rank : ℤ) (msg : CString) (dst : ℤ) (r : Received), IsRank rank →
    NUL ∉ msg → (fmtInt rank ++ ',' :: msg).length < MAX_MSG_LEN → r.bytes = (w.fllSend rank ⟨msg, dst⟩).bytes →
      consumeMsg r = .callback ⟨msg, rank⟩ := by
  intro h
  have hi := h ⟨[], true⟩ 1 ['h', 'i'] 2 (hiFrom1 ['2', NUL]) (by decide) (by decide) (by decide) (by decide)
  have h12 : consumeMsg (hiFrom1 ['2', NUL]) = .callback ⟨['h', 'i'], 12⟩ :=
    @consumeMsg_frame 1 (hiFrom1 ['2', NUL]) (by decide) ['h', 'i'] (by decide) (by decide)
  rw [h12] at hi
  exact absurd (Handled.callback.inj hi) (by decide)

end DSA
