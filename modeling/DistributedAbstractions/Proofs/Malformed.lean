import DistributedAbstractions.Proofs.ForgedTraffic
import DistributedAbstractions.Spec.Arrays

/-! What a datagram has to be like for `consume_msg` and the wrapper of the perfect link to stay within
their arrays. -/

namespace DSA

open CLib

theorem strlen_cells {a : Cells} (h : NUL ∈ a) : a.strlen = some (strlen a) := by
  have hany : a.any (fun c => decide (c = '\x00')) = true := List.any_eq_true.mpr ⟨NUL, h, by decide⟩
  rw [Cells.strlen, Cells.scan_eq, if_pos hany, strlen, cstr]
  congr 3
  funext c
  rw [decide_not]
  rfl

theorem takeWhile_field (a : Cells) :
    (a.takeWhile fun c => !(c = ',' || c = NUL)) = (cstr a).takeWhile (· != ',') := by
  rw [cstr, List.takeWhile_takeWhile]
  congr 1
  funext c
  by_cases hc : c = ',' <;> simp [hc]

theorem strcspn_cells {a : Cells} (h : NUL ∈ a) : a.strcspn ',' = some (strcspn (cstr a) ',') := by
  have hany : a.any (fun c => decide (c = ',') || decide (c = '\x00')) = true :=
    List.any_eq_true.mpr ⟨NUL, h, by decide⟩
  rw [Cells.strcspn, Cells.scan_eq, if_pos hany, strcspn, ← takeWhile_field]
  rfl

theorem strcpy_cells (dst src : Cells) : dst.strcpy src =
    if NUL ∈ src ∧ strlen src < dst.length then some (cstr src ++ NUL :: dst.drop (strlen src + 1)) else none :=
  Cells.strcpy_eq dst src

/-- The loop over cells is the one over the message: the terminator in the last cell stays, since the cell
that would be copied there is outside. -/
theorem shiftAt_eq {offset : ℕ} (hoff : 0 < offset) {last : ℕ} (room : ℕ) : ∀ (rounds i : ℕ) (msg : Cells),
    room < rounds → i + offset + room = last + 1 → msg.length = last + 1 → msg[last]? = some NUL →
      shiftAt offset rounds i msg = shiftLoop offset room i msg := by
  induction room with
  | zero =>
    intro rounds i msg hrounds hi hlen hlast
    obtain ⟨rounds, rfl⟩ := Nat.exists_eq_succ_of_ne_zero (Nat.ne_of_gt hrounds)
    have hload : Cells.load msg (i + offset) = none := List.getElem?_eq_none (by omega)
    rw [shiftAt, strlen_cells (List.mem_of_getElem? hlast), shiftLoop, moveLoop, hload]
    simp [shiftGoesOn]
  | succ room ih =>
    intro rounds i msg hrounds hi hlen hlast
    obtain ⟨rounds, rfl⟩ := Nat.exists_eq_succ_of_ne_zero (Nat.ne_of_gt (Nat.zero_lt_of_lt hrounds))
    have hload : Cells.load msg (i + offset) = some (msg.getD (i + offset) NUL) := by
      rw [Cells.load, List.getD_eq_getElem?_getD, List.getElem?_eq_getElem (by omega), Option.getD_some]
    have hstore (c : Char) : Cells.store msg i c = some (msg.set i c) := if_pos (by omega)
    have hnext (c : Char) : shiftAt offset rounds (i + 1) (msg.set i c) =
        moveLoop (shiftGoesOn offset) offset room (i + 1) (msg.set i c) := by
      apply ih
      · omega
      · omega
      · rw [List.length_set, hlen]
      · rw [List.getElem?_set_ne (by omega), hlast]
    rw [shiftAt, strlen_cells (List.mem_of_getElem? hlast), shiftLoop, moveLoop, hload]
    simp [shiftGoesOn, hstore, hnext]

theorem moveLoop_last {goesOn : ℕ → List Char → Bool} {offset : ℕ} (hoff : 0 < offset) {last : ℕ} (room : ℕ) :
    ∀ (i : ℕ) (msg mem : Cells), i + offset + room = last + 1 → msg.length = last + 1 → msg[last]? = some NUL →
      moveLoop goesOn offset room i msg = some mem → mem.length = last + 1 ∧ mem[last]? = some NUL := by
  induction room with
  | zero =>
    intro i msg mem hi hlen hlast h
    rw [moveLoop] at h
    split_ifs at h
    obtain rfl := Option.some.inj h
    exact ⟨hlen, hlast⟩
  | succ room ih =>
    intro i msg mem hi hlen hlast h
    rw [moveLoop] at h
    split_ifs at h
    · apply ih (i + 1) _ mem (by omega) _ _ h
      · rw [List.length_set, hlen]
      · rw [List.getElem?_set_ne (by omega), hlast]
    · obtain rfl := Option.some.inj h
      exact ⟨hlen, hlast⟩

section Message

variable {msg : CString} (hmsg : NUL ∉ msg) (hlen : msg.length < MAX_MSG_LEN)

include hlen in
theorem msgBuffer_eq : msgBuffer msg = msg ++ NUL :: zeros.drop (msg.length + 1) := by
  rw [msgBuffer, zeros, List.drop_replicate, ← List.replicate_succ]
  congr 2
  omega

include hmsg hlen in
theorem cstr_msgBuffer : cstr (msgBuffer msg) = msg := by
  rw [msgBuffer_eq hlen, cstr_append_nul hmsg]

include hlen in
theorem last_msgBuffer : (msgBuffer msg)[MAX_MSG_LEN - 1]? = some NUL := by
  rw [msgBuffer, List.getElem?_append_right (by omega), List.getElem?_replicate, if_pos (by omega)]

end Message

/-- The result of the wrapper for the arrays. -/
def inCells : List Hash × Handled Deliver → Option (List Hash × Option (Cells × ℤ))
  | (_, .overrun) => none
  | (inbox, .returned) => some (inbox, none)
  | (inbox, .callback e) => some (inbox, some (msgBuffer e.msg, e.sender))

section Wrapper

variable {e : Deliver} {id : Cells} (hmsg : NUL ∉ e.msg) (hlen : e.msg.length < MAX_MSG_LEN)
  (hid : id.length = UUID_STR_LEN)

include hlen in
theorem shiftAt_msgBuffer {offset : ℕ} (hoff : 0 < offset) (hle : offset ≤ MAX_MSG_LEN) :
    shiftAt offset ((msgBuffer e.msg).length + 1) 0 (msgBuffer e.msg) =
      shiftLoop offset (MAX_MSG_LEN - offset) 0 (msgBuffer e.msg) := by
  have hmax : MAX_MSG_LEN = 1024 := rfl
  have hsize := length_msgBuffer hlen
  exact shiftAt_eq hoff _ _ _ _ (by omega) (by omega) (by omega) (last_msgBuffer hlen)

include hid in
theorem terminate_id {n : ℕ} (hn : n ≤ e.msg.length) (hstring : NUL ∉ e.msg) :
    ((Cells.strncpy id (msgBuffer e.msg) n).bind fun id => Cells.store id n NUL) =
      if n < UUID_STR_LEN then some (e.msg.take n ++ NUL :: id.drop (n + 1)) else none := by
  have htake : (msgBuffer e.msg).take n = e.msg.take n := by
    rw [msgBuffer, List.take_append_of_le_length hn]
  have hcopied : n ≤ (msgBuffer e.msg).length := by
    rw [msgBuffer, List.length_append]
    omega
  have hlen : (e.msg.take n).length = n := List.length_take_of_le hn
  rw [Cells.strncpy_eq hcopied (by rw [htake]; exact fun h => hstring (List.mem_of_mem_take h)), htake, hid]
  by_cases hlt : n < UUID_STR_LEN
  · have hroom : n < (e.msg.take n ++ id.drop n).length := by
      rw [List.length_append, List.length_drop]
      omega
    rw [if_pos hlt.le, if_pos hlt, Option.bind_some, Cells.store, if_pos hroom,
      List.set_append_right _ _ (by omega), hlen, Nat.sub_self,
      List.drop_eq_getElem_cons (by omega : n < id.length), List.set_cons_zero]
  · rw [if_neg hlt]
    by_cases hle : n ≤ UUID_STR_LEN
    · have hfull : ¬ n < (e.msg.take n ++ id.drop n).length := by
        rw [List.length_append, List.length_drop]
        omega
      rw [if_pos hle, Option.bind_some, Cells.store, if_neg hfull]
    · rw [if_neg hle]
      rfl

theorem stored_id {n : ℕ} (hn : n ≤ e.msg.length) (hstring : NUL ∉ e.msg) (rest : Cells) :
    Cells.strlen (e.msg.take n ++ NUL :: rest) = some n ∧ (e.msg.take n ++ NUL :: rest).take n = e.msg.take n := by
  have hlen : (e.msg.take n).length = n := List.length_take_of_le hn
  have hfield : NUL ∉ e.msg.take n := fun h => hstring (List.mem_of_mem_take h)
  constructor
  · rw [strlen_cells (by simp), strlen, cstr_append_nul hfield, hlen]
  · exact List.take_left' hlen

include hlen in
theorem copy_shifted {α : Type} {offset : ℕ} (hoff : 0 < offset) (hle : offset ≤ MAX_MSG_LEN) (g : Cells → α) :
    ((shiftAt offset ((msgBuffer e.msg).length + 1) 0 (msgBuffer e.msg)).bind fun msg =>
        (Cells.strcpy zeros msg).map g) =
      (shiftLoop offset (MAX_MSG_LEN - offset) 0 (msgBuffer e.msg)).map fun mem => g (msgBuffer (cstr mem)) := by
  have hmax : MAX_MSG_LEN = 1024 := rfl
  have hzeros : zeros.length = MAX_MSG_LEN := List.length_replicate
  rw [shiftAt_msgBuffer hlen hoff hle]
  cases hloop : shiftLoop offset (MAX_MSG_LEN - offset) 0 (msgBuffer e.msg) with
  | none => rfl
  | some mem =>
    obtain ⟨hsize, hlast⟩ := moveLoop_last hoff _ _ _ mem (by omega) (length_msgBuffer hlen)
      (last_msgBuffer hlen) hloop
    have hmem : NUL ∈ mem := List.mem_of_getElem? hlast
    have hshort := strlen_lt hmem
    have hbuffer : msgBuffer (cstr mem) = cstr mem ++ NUL :: zeros.drop (strlen mem + 1) :=
      msgBuffer_eq (by rw [← strlen]; omega)
    rw [Option.bind_some, strcpy_cells, if_pos ⟨hmem, by omega⟩, Option.map_some, Option.map_some, hbuffer]

include hmsg hlen hid in
theorem wrapperAt_eq (inbox : List Hash) :
    wrapperAt id inbox (msgBuffer e.msg) e.sender = inCells (plWrapper inbox e) := by
  have hnul : NUL ∈ msgBuffer e.msg := List.mem_of_getElem? (last_msgBuffer hlen)
  have hle : idLen e ≤ e.msg.length := strcspn_le _ _
  have hfield : Cells.strcspn (msgBuffer e.msg) ',' = some (idLen e) := by
    rw [strcspn_cells hnul, cstr_msgBuffer hmsg hlen, idLen]
  unfold wrapperAt plWrapper
  simp only [hfield, Option.bind_eq_bind, Option.bind_some]
  rw [← Option.bind_assoc, terminate_id hid hle hmsg]
  by_cases hlong : idLen e ≥ UUID_STR_LEN
  · rw [if_pos hlong, if_neg (by omega)]
    rfl
  obtain ⟨hstrlen, htake⟩ := stored_id hle hmsg (id.drop (idLen e + 1))
  rw [if_neg hlong, if_pos (by omega)]
  simp only [Option.bind_some, hstrlen, htake]
  rw [← plHash]
  by_cases hdup : plHash e ∈ inbox
  · rw [if_pos (List.contains_iff_mem.mpr hdup), if_pos hdup]
    rfl
  have hmax : MAX_MSG_LEN = 1024 := rfl
  have h37 : UUID_STR_LEN = 37 := rfl
  have hoff : 0 < idLen e + DELIM_LEN := Nat.succ_pos _
  have hoffle : idLen e + DELIM_LEN ≤ MAX_MSG_LEN := by
    rw [DELIM_LEN]
    omega
  rw [if_neg (mt List.contains_iff_mem.mp hdup), if_neg hdup, copy_shifted hlen hoff hoffle]
  cases shiftLoop (idLen e + DELIM_LEN) (MAX_MSG_LEN - (idLen e + DELIM_LEN)) 0 (msgBuffer e.msg) with
  | none => rfl
  | some mem => rfl

end Wrapper

section Consume

variable (a : RawArrival)

theorem takeWhile_append_stop {p : Char → Bool} {c : Char} (hc : p c = false) (s rest : List Char) :
    (s ++ c :: rest).takeWhile p = s.takeWhile p := by
  induction s with
  | nil => simp [hc]
  | cons d s ih => by_cases hd : p d = true <;> simp [hd, ih]

/-- `buf` when the datagram is terminated. -/
theorem store_terminator : Cells.store (a.bytes ++ a.buf.drop a.bytes.length) a.bytes.length NUL =
    some (a.bytes ++ NUL :: a.buf.drop (a.bytes.length + 1)) := by
  have hn := a.received.2
  have hsize := a.size_buf
  have hroom : a.bytes.length < (a.bytes ++ a.buf.drop a.bytes.length).length := by
    rw [List.length_append, List.length_drop]
    omega
  rw [Cells.store, if_pos hroom, List.set_append_right _ _ (Nat.le_refl _), Nat.sub_self,
    List.drop_eq_getElem_cons (by omega : a.bytes.length < a.buf.length), List.set_cons_zero]

theorem takeWhile_buf (rest : List Char) : (cstr (a.bytes ++ NUL :: rest)).takeWhile (· != ',') = a.rank := by
  rw [← takeWhile_field, takeWhile_append_stop (by decide), RawArrival.rank]

theorem take_rank (rest : List Char) : (a.bytes ++ NUL :: rest).take a.rank.length = a.rank := by
  have hpre : a.rank <+: a.bytes ++ NUL :: rest := (List.takeWhile_prefix _).trans (List.prefix_append _ _)
  exact (List.prefix_iff_eq_take.mp hpre).symm

theorem nul_notMem_rank : NUL ∉ a.rank := fun h => by
  simpa using List.mem_takeWhile_imp h

theorem length_event_lt : a.event.msg.length < MAX_MSG_LEN := by
  have hn := a.received.2
  have hsize := a.size_buf
  apply (List.takeWhile_prefix _).length_le.trans_lt
  rw [RawArrival.behindRank, List.length_drop, List.length_append, List.length_cons, List.length_drop, DELIM_LEN]
  omega

theorem consumeMsgAt_eq : consumeMsgAt a =
    if a.rank.length ≤ FLL_ID_LEN ∧ NUL ∈ a.behindRank then
      (Cells.atoi a.rankCells).map fun sender => (msgBuffer a.event.msg, sender)
    else none := by
  have hnul (rest : List Char) : NUL ∈ a.bytes ++ NUL :: rest := by simp
  have hcopied (rest : List Char) : a.rank.length ≤ (a.bytes ++ NUL :: rest).length := by
    rw [← take_rank a rest, List.length_take]
    exact Nat.min_le_right _ _
  have hevent := length_event_lt a
  have hzeros : zeros.length = MAX_MSG_LEN := List.length_replicate
  unfold consumeMsgAt
  simp only [store_terminator, Option.bind_eq_bind, Option.bind_some, strcspn_cells (hnul _), strcspn,
    takeWhile_buf]
  rw [Cells.strncpy_eq (hcopied _) (by rw [take_rank]; exact nul_notMem_rank a), take_rank, a.size_id,
    ← RawArrival.behindRank, strcpy_cells, ← RawArrival.rankCells]
  by_cases hrank : a.rank.length ≤ FLL_ID_LEN
  · by_cases hend : NUL ∈ a.behindRank
    · rw [if_pos hrank, if_pos ⟨hend, by rw [hzeros]; exact hevent⟩, if_pos ⟨hrank, hend⟩, Option.bind_some,
        Option.bind_some, msgBuffer_eq hevent, Option.map_eq_bind]
      rfl
    · rw [if_pos hrank, if_neg (fun h => hend h.1), if_neg (fun h => hend h.2)]
      rfl
  · rw [if_neg hrank, Option.bind_none, if_neg (fun h => hrank h.1)]

/-- Where the arrays are kept to, the message and the sender are those of `consumeMsg`. -/
theorem consumeMsg_toReceived {msg : Cells} {sender : ℤ} (h : consumeMsgAt a = some (msg, sender)) (sig : List ℕ) :
    consumeMsg (a.toReceived sig) = .callback ⟨cstr msg, sender⟩ := by
  rw [consumeMsgAt_eq] at h
  split_ifs at h with hfits
  obtain ⟨sender', hsender, hpair⟩ := Option.map_eq_some_iff.mp h
  obtain ⟨rfl, rfl⟩ := Prod.mk.inj hpair
  have hatoi := Cells.atoi_of_ne_none (a := a.rankCells) (by rw [hsender]; simp)
  obtain rfl : a.event.sender = sender' := Option.some.inj (hatoi.symm.trans hsender)
  have hn := a.received.2
  have hsize := a.size_buf
  have hbytes : a.bytes.take (MAX_MSG_LEN - 1) = a.bytes := List.take_of_length_le (by omega)
  have hbuf : (a.bytes ++ NUL :: a.buf.drop (a.bytes.length + 1)).take MAX_MSG_LEN =
      a.bytes ++ NUL :: a.buf.drop (a.bytes.length + 1) := by
    apply List.take_of_length_le
    rw [List.length_append, List.length_cons, List.length_drop]
    omega
  unfold consumeMsg
  dsimp only [RawArrival.toReceived]
  rw [hbytes, hbuf, if_neg a.received.1, strcspn, takeWhile_buf, ← RawArrival.behindRank, if_neg (by omega),
    if_neg (not_not_intro hfits.2), take_rank, @cstr_msgBuffer a.event.msg (nul_notMem_cstr _) (length_event_lt a)]
  rfl

end Consume

/-- A datagram is handled within the arrays in these cases, and in no others. -/
theorem harmless_iff (a : RawArrival) (inbox : List Hash) : Harmless a inbox ↔ Benign a inbox := by
  have hmsg : NUL ∉ a.event.msg := nul_notMem_cstr _
  have hlen := length_event_lt a
  have hwrap := wrapperAt_eq hmsg hlen a.size_uuid inbox
  rw [plWrapper_eq hmsg hlen] at hwrap
  have hrun := Cells.atoi_eq_none_iff a.rankCells
  rw [Harmless, handleAt, consumeMsgAt_eq]
  constructor
  · intro h
    split_ifs at h with hfits
    · have hne : Cells.atoi a.rankCells ≠ none := by
        intro hnone
        rw [hnone] at h
        cases h
      have hatoi : Cells.atoi a.rankCells = some a.event.sender := Cells.atoi_of_ne_none hne
      rw [hatoi, Option.map_some, Option.bind_some] at h
      dsimp only at h
      rw [hwrap] at h
      split_ifs at h with hid hdup hshort
      · cases h
      · exact ⟨hfits.1, mt hrun.mpr hne, hfits.2, by omega, .inl hdup⟩
      · cases h
      · exact ⟨hfits.1, mt hrun.mpr hne, hfits.2, by omega, .inr (by omega)⟩
    · cases h
  · rintro ⟨hrank, hnumber, hend, hid, hmoved⟩
    have hatoi : Cells.atoi a.rankCells = some a.event.sender := Cells.atoi_of_ne_none (mt hrun.mp hnumber)
    rw [if_pos ⟨hrank, hend⟩, hatoi, Option.map_some, Option.bind_some]
    dsimp only
    rw [hwrap, if_neg (by omega)]
    split_ifs with hdup hshort
    · rfl
    · rcases hmoved with h | h
      · exact absurd h hdup
      · omega
    · rfl

/-- A rank of eleven digits, which is one more than there is room for. -/
def longRank : RawArrival where
  bytes := List.replicate 11 '1'
  buf := List.replicate MAX_MSG_LEN NUL
  id := List.replicate FLL_ID_LEN NUL
  uuid := List.replicate UUID_STR_LEN NUL
  received := by rw [List.length_replicate]; decide
  size_buf := List.length_replicate
  size_id := List.length_replicate
  size_uuid := List.length_replicate

theorem long_rank_overruns : ¬ ∀ a inbox, Harmless a inbox := by
  intro h
  have hnone : consumeMsgAt longRank = none := by
    rw [consumeMsgAt_eq, if_neg]
    exact fun hfits => absurd hfits.1 (by decide)
  have hhandled := h longRank []
  rw [Harmless, handleAt, hnone] at hhandled
  cases hhandled

end DSA
