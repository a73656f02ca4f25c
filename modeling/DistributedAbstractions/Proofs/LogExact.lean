import DistributedAbstractions.Proofs.Stripping
import DistributedAbstractions.Spec.LoggedLink

/-! The log of the logged perfect link. Its loop goes on for one cell less than the length of what is in
the buffer at the time, so that it moves every body but an empty one: there the length gets to zero. -/

namespace DSA

open CLib Inbox

section

variable {msg : CString} {offset : ℕ} (hmsg : NUL ∉ msg) (hlen : msg.length < MAX_MSG_LEN)
  (hoff : 1 < offset) (hle : offset ≤ msg.length)
include hmsg hlen hoff hle

/-- The loop goes on until the terminator is moved, and for an empty rest of the message for ever. -/
theorem lplGoesOn_shifted {i : ℕ} (hi : i + offset ≤ MAX_MSG_LEN) :
    lplGoesOn i (shifted offset (msgBuffer msg) i) = true ↔ i ≤ msg.length - offset ∨ msg.length = offset := by
  rw [lplGoesOn, strlen_shifted hmsg hlen (by omega) hi, Bool.or_eq_true, decide_eq_true_eq, decide_eq_true_eq,
    DELIM_LEN]
  split_ifs with h
  · omega
  · omega

theorem lplShift_eq : (lplShift offset (msgBuffer msg)).map cstr =
    if msg.length = offset then none else some (msg.drop offset) := by
  have hstart : shifted offset (msgBuffer msg) 0 = msgBuffer msg := by simp [shifted]
  have hsize := length_msgBuffer hlen
  have hloop := moveLoop_shifted (fun i hi => lplGoesOn_shifted hmsg hlen hoff hle (by omega)) (by omega)
    (MAX_MSG_LEN - offset) 0 (by omega) (by omega)
  rw [hstart] at hloop
  rw [lplShift, hloop]
  split_ifs
  · rfl
  · rw [Option.map_some, cstr_shifted hmsg hlen hle]

end

theorem lplSend_of_tagged {m : LplDeliver} (h : Tagged m.id m.msg) (recipient : ℤ) :
    (lplSend m.id ⟨m.msg, recipient⟩).msg = m.arrival.msg := snprintf_of_lt h.fits

section Wrapper

variable {m : LplDeliver} {lpl : LoggedLink}

theorem lplWrapper_arrival (h : Tagged m.id m.msg) (hrun : lpl.running = true) : lplWrapper lpl m.arrival =
    if lpl.deliveries.any (·.id = m.id) then (lpl, [])
    else if m.msg = [] then ({ lpl with running := false }, [])
    else ({ lpl with deliveries := lpl.deliveries ++ [m] }, [lpl.deliveries ++ [m]]) := by
  have hid : idLen m.arrival = m.id.length := h.idLen m.sender
  have htake : m.arrival.msg.take m.id.length = m.id := List.take_left
  have hfits := h.id_fits
  have hpos := h.id_pos
  have hlen : m.arrival.msg.length = m.id.length + DELIM_LEN + m.msg.length := by
    simp only [LplDeliver.arrival, List.length_append, List.length_cons, DELIM_LEN]
    omega
  have hdrop : m.arrival.msg.drop (m.id.length + DELIM_LEN) = m.msg := drop_field _ _ _
  have hD : DELIM_LEN = 1 := rfl
  have hloop := @lplShift_eq m.arrival.msg (m.id.length + DELIM_LEN) h.string h.fits (by omega) (by omega)
  rw [hdrop] at hloop
  have hempty : m.arrival.msg.length = m.id.length + DELIM_LEN ↔ m.msg = [] := by
    rw [hlen, ← List.length_eq_zero_iff]
    omega
  unfold lplWrapper
  dsimp only
  rw [hrun, hid, htake, if_neg (by decide), if_neg (by omega)]
  by_cases hdup : lpl.deliveries.any (·.id = m.id) = true
  · rw [if_pos hdup, if_pos hdup]
  rw [if_neg hdup, if_neg hdup]
  by_cases hnil : m.msg = []
  · rw [if_pos (hempty.mpr hnil), Option.map_eq_none_iff] at hloop
    rw [hloop, if_pos hnil]
  · rw [if_neg (mt hempty.mp hnil), Option.map_eq_some_iff] at hloop
    obtain ⟨mem, hmem, hbody⟩ := hloop
    rw [hmem, if_neg hnil]
    dsimp only
    rw [hbody]
    rfl

theorem lplWrapper_stopped (hrun : lpl.running = false) (e : Deliver) : lplWrapper lpl e = (lpl, []) := by
  unfold lplWrapper
  rw [hrun]
  rfl

end Wrapper

theorem lplRun_append_singleton (ms : List LplDeliver) (m : LplDeliver) : lplRun (ms ++ [m]) =
    ((lplWrapper (lplRun ms).1 m.arrival).1, (lplRun ms).2 ++ (lplWrapper (lplRun ms).1 m.arrival).2) := by
  rw [lplRun, List.map_append]
  exact Prod.ext (Machine.state_append_singleton _ _) (Machine.outputs_append_singleton _ _)

section Run

variable {ms : List LplDeliver} {m : LplDeliver}

theorem Sends.init (h : Sends (ms ++ [m])) : Sends ms :=
  ⟨fun m hm => h.tagged m (List.mem_append_left _ hm),
    fun m hm m' hm' => h.unique m (List.mem_append_left _ hm) m' (List.mem_append_left _ hm')⟩

theorem eraseDups_append_singleton (ms : List LplDeliver) (m : LplDeliver) :
    (ms ++ [m]).eraseDups = if m ∈ ms then ms.eraseDups else ms.eraseDups ++ [m] := by
  rw [List.eraseDups_append]
  split_ifs with hm
  · simp [List.removeAll, hm]
  · simp [List.removeAll, hm, List.eraseDups_cons]

theorem Sends.logged_iff (h : Sends (ms ++ [m])) : ms.eraseDups.any (·.id = m.id) = true ↔ m ∈ ms := by
  rw [List.any_eq_true]
  constructor
  · rintro ⟨m', hm', hid⟩
    have hmem : m' ∈ ms := List.mem_eraseDups.mp hm'
    have heq := h.unique m' (by simp [hmem]) m (by simp) (of_decide_eq_true hid)
    exact heq ▸ hmem
  · exact fun hm => ⟨m, List.mem_eraseDups.mpr hm, decide_eq_true rfl⟩

theorem ExactLog.append_singleton (hx : ExactLog ms) (h : Sends (ms ++ [m])) (hm : m.msg ≠ []) :
    ExactLog (ms ++ [m]) := by
  have hwrap := lplWrapper_arrival (h.tagged m (by simp)) hx.running
  rw [hx.log] at hwrap
  by_cases hmem : m ∈ ms
  · rw [if_pos (h.logged_iff.mpr hmem)] at hwrap
    have hrun : lplRun (ms ++ [m]) = lplRun ms := by
      rw [lplRun_append_singleton, hwrap, List.append_nil]
    have hdups : (ms ++ [m]).eraseDups = ms.eraseDups := by rw [eraseDups_append_singleton, if_pos hmem]
    exact ⟨hrun ▸ hx.running, by rw [hrun, hdups, hx.log], by rw [hrun, hdups, hx.callbacks]⟩
  · rw [if_neg (mt h.logged_iff.mp hmem), if_neg hm] at hwrap
    have hdups : (ms ++ [m]).eraseDups = ms.eraseDups ++ [m] := by rw [eraseDups_append_singleton, if_neg hmem]
    refine ⟨?_, ?_, ?_⟩
    · rw [lplRun_append_singleton, hwrap]
      exact hx.running
    · rw [lplRun_append_singleton, hwrap, hdups]
    · -- the earlier lists are the first ones of the longer log
      have hearlier : (List.range ms.eraseDups.length).map (fun k => (ms.eraseDups ++ [m]).take (k + 1)) =
          (List.range ms.eraseDups.length).map fun k => ms.eraseDups.take (k + 1) := by
        apply List.map_congr_left
        intro k hk
        rw [List.take_append_of_le_length (List.mem_range.mp hk)]
      rw [lplRun_append_singleton, hwrap, hx.callbacks, hdups, List.length_append, List.length_singleton,
        List.range_succ, List.map_append, hearlier]
      simp

theorem exactLog_of_bodies (h : Sends ms) (hne : ∀ m ∈ ms, m.msg ≠ []) : ExactLog ms := by
  induction ms using List.reverseRecOn with
  | nil => exact ⟨rfl, rfl, rfl⟩
  | append_singleton ms m ih =>
    exact (ih h.init fun m hm => hne m (by simp [hm])).append_singleton h (hne m (by simp))

/-- The first message without a body ends the link. -/
theorem stopped_of_empty (h : Sends ms) (hempty : ∃ m ∈ ms, m.msg = []) : (lplRun ms).1.running = false := by
  induction ms using List.reverseRecOn with
  | nil =>
    obtain ⟨m, hm, -⟩ := hempty
    cases hm
  | append_singleton ms m ih =>
    rw [lplRun_append_singleton]
    by_cases hearlier : ∃ m ∈ ms, m.msg = []
    · rw [lplWrapper_stopped (ih h.init hearlier)]
      exact ih h.init hearlier
    · have hbodies : ∀ m ∈ ms, m.msg ≠ [] := fun m hm hnil => hearlier ⟨m, hm, hnil⟩
      have hnil : m.msg = [] := by
        obtain ⟨m', hm', hnil⟩ := hempty
        rcases List.mem_append.mp hm' with hm' | hm'
        · exact absurd hnil (hbodies m' hm')
        · rwa [← List.mem_singleton.mp hm']
      have hx := exactLog_of_bodies h.init hbodies
      have hnew : m ∉ ms := fun hm => hbodies m hm hnil
      rw [lplWrapper_arrival (h.tagged m (by simp)) hx.running, hx.log, if_neg (mt h.logged_iff.mp hnew), if_pos hnil]

/-- The log is exact in the runs whose messages all have a body. -/
theorem exact_log_iff (h : Sends ms) : ExactLog ms ↔ ∀ m ∈ ms, m.msg ≠ [] := by
  constructor
  · intro hx m hm hnil
    have hstop := stopped_of_empty h ⟨m, hm, hnil⟩
    rw [hx.running] at hstop
    cases hstop
  · exact exactLog_of_bodies h

end Run

theorem sends_repeated : Sends [⟨['u'], 1, ['h', 'i']⟩, ⟨['v'], 2, [',']⟩, ⟨['u'], 1, ['h', 'i']⟩] where
  tagged m hm := by
    simp only [List.mem_cons, List.not_mem_nil, or_false] at hm
    rcases hm with rfl | rfl | rfl <;> exact ⟨by decide, by decide, by decide, by decide, by decide⟩
  unique := by decide

/-- The repetition is not logged. -/
theorem exact_log_repeated : ExactLog [⟨['u'], 1, ['h', 'i']⟩, ⟨['v'], 2, [',']⟩, ⟨['u'], 1, ['h', 'i']⟩] :=
  (exact_log_iff sends_repeated).mpr (by decide)

/-- An empty body: the loop leaves the buffer. -/
theorem empty_body_overruns : ¬ ∀ ms, Sends ms → ExactLog ms := by
  intro h
  have hsends : Sends [⟨['u'], 1, []⟩] := by
    refine ⟨fun m hm => ?_, by decide⟩
    rw [List.mem_singleton.mp hm]
    exact ⟨by decide, by decide, by decide, by decide, by decide⟩
  have hstop := stopped_of_empty hsends ⟨_, List.mem_singleton_self _, rfl⟩
  rw [(h _ hsends).running] at hstop
  cases hstop

end DSA
