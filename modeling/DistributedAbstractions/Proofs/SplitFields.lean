import DistributedAbstractions.Proofs.Malformed
import DistributedAbstractions.Spec.Splitting

/-! `parse_message` splits a string at its first commas, and nowhere else. On the arrays it does what it
does on strings, and it leaves the message alone. -/

namespace DSA

open CLib Memory

theorem exists_comma_split {s : CString} (h : ',' ∈ s) : ∃ x rest, ',' ∉ x ∧ s = x ++ ',' :: rest := by
  have hlt : strcspn s ',' < s.length := by
    by_contra hge
    have hall := take_strcspn s ','
    rw [List.take_of_length_le (Nat.le_of_not_lt hge)] at hall
    exact notMem_take_strcspn s ',' (by rw [take_strcspn, ← hall]; exact h)
  exact ⟨_, _, notMem_take_strcspn s ',', take_strcspn_append hlt⟩

theorem parseMessage_of_notMem {s : CString} (h : ',' ∉ s) (n : ℕ) : parseMessage (n + 2) s = none := by
  rw [parseMessage, if_neg h]

theorem parseMessage_one {s : CString} (h : s.length ≤ MAX_MSG_LEN) : parseMessage 1 s = some [s] := by
  rw [parseMessage, List.take_of_length_le h]

theorem intercalate_comma (f : CString) {gs : List CString} (hgs : gs ≠ []) :
    List.intercalate [','] (f :: gs) = f ++ ',' :: List.intercalate [','] gs := by
  rw [List.intercalate_cons_of_ne_nil hgs, List.append_assoc]
  rfl

/-- `fs` joins to `s` with `n` commas, and all but the last have none. -/
def JoinsTo (n : ℕ) (fs : List CString) (s : CString) : Prop :=
  fs.length = n + 1 ∧ (∀ f ∈ fs.take n, ',' ∉ f) ∧ List.intercalate [','] fs = s

theorem joinsTo_zero {fs : List CString} {s : CString} : JoinsTo 0 fs s ↔ fs = [s] := by
  constructor
  · rintro ⟨hlen, -, hjoin⟩
    obtain ⟨f, rfl⟩ := List.length_eq_one_iff.mp hlen
    rw [← hjoin, List.intercalate_singleton]
  · rintro rfl
    exact ⟨rfl, by simp, List.intercalate_singleton⟩

theorem joinsTo_succ {n : ℕ} {fs : List CString} {s : CString} : JoinsTo (n + 1) fs s ↔
    ∃ f gs rest, fs = f :: gs ∧ s = f ++ ',' :: rest ∧ ',' ∉ f ∧ JoinsTo n gs rest := by
  constructor
  · rintro ⟨hlen, hfields, hjoin⟩
    obtain ⟨f, gs, rfl⟩ := List.exists_cons_of_length_eq_add_one hlen
    rw [List.length_cons, Nat.add_right_cancel_iff] at hlen
    rw [intercalate_comma f (List.ne_nil_of_length_eq_add_one hlen)] at hjoin
    rw [List.take_succ_cons] at hfields
    exact ⟨f, gs, _, rfl, hjoin.symm, hfields f (by simp), hlen, fun g hg => hfields g (by simp [hg]), rfl⟩
  · rintro ⟨f, gs, rest, rfl, rfl, hf, hlen, hfields, hjoin⟩
    refine ⟨by rw [List.length_cons, hlen], ?_, ?_⟩
    · rw [List.take_succ_cons]
      intro g hg
      rcases List.mem_cons.mp hg with rfl | hg
      · exact hf
      · exact hfields g hg
    · rw [intercalate_comma f (List.ne_nil_of_length_eq_add_one hlen), hjoin]

/-- The fields are what joins to the string. -/
theorem parseMessage_eq_some {n : ℕ} {s : CString} (hs : s.length ≤ MAX_MSG_LEN) {fs : List CString} :
    parseMessage (n + 1) s = some fs ↔ JoinsTo n fs s := by
  induction n generalizing s fs with
  | zero => rw [parseMessage_one hs, Option.some_inj, joinsTo_zero, eq_comm]
  | succ n ih =>
    rw [joinsTo_succ]
    by_cases hc : ',' ∈ s
    · obtain ⟨x, rest, hx, rfl⟩ := exists_comma_split hc
      have hrest : rest.length ≤ MAX_MSG_LEN := by
        rw [List.length_append, List.length_cons] at hs
        omega
      rw [parseMessage_field hx, Option.map_eq_some_iff]
      constructor
      · rintro ⟨gs, hgs, rfl⟩
        exact ⟨x, gs, rest, rfl, rfl, hx, (ih hrest).mp hgs⟩
      · rintro ⟨f, gs, rest', rfl, hsplit, hf, hgs⟩
        -- there is one first comma only
        obtain ⟨rfl, -, rfl⟩ := append_cons_inj (P := (· = ',')) (fun d hd hdc => hx (hdc ▸ hd)) rfl
          (fun d hd hdc => hf (hdc ▸ hd)) rfl hsplit
        exact ⟨gs, (ih hrest).mpr hgs, rfl⟩
    · rw [parseMessage_of_notMem hc]
      refine iff_of_false (by simp) ?_
      rintro ⟨f, gs, rest, -, rfl, -⟩
      exact hc (by simp)

theorem parseMessage_isSome (n : ℕ) (s : CString) : (parseMessage (n + 1) s).isSome ↔ n ≤ s.count ',' := by
  induction n generalizing s with
  | zero => simp [parseMessage]
  | succ n ih =>
    by_cases hc : ',' ∈ s
    · obtain ⟨x, rest, hx, rfl⟩ := exists_comma_split hc
      rw [parseMessage_field hx, Option.isSome_map, ih, List.count_append, List.count_eq_zero_of_not_mem hx,
        List.count_cons_self]
      omega
    · rw [parseMessage_of_notMem hc, List.count_eq_zero_of_not_mem hc]
      simp

theorem freeAll_spec {fields : List ℕ} {heap : Heap Cells} (hnodup : fields.Nodup)
    (hload : ∀ a ∈ fields, ∃ x, heap.load a = some x) :
    ∃ heap', freeAll heap fields = some heap' ∧ ∀ b, b ∉ fields → heap'.load b = heap.load b := by
  induction fields generalizing heap with
  | nil => exact ⟨heap, rfl, fun _ _ => rfl⟩
  | cons a fields ih =>
    obtain ⟨ha, hnodup⟩ := List.nodup_cons.mp hnodup
    obtain ⟨x, hx⟩ := hload a (by simp)
    have hrest : ∀ b ∈ fields, ∃ x, Heap.load (heap.set a none) b = some x := by
      intro b hb
      have hab : a ≠ b := by
        rintro rfl
        exact ha hb
      rw [Heap.load_set_ne hab]
      exact hload b (by simp [hb])
    obtain ⟨heap', hfree, hsame⟩ := ih hnodup hrest
    refine ⟨heap', ?_, fun b hb => ?_⟩
    · rw [freeAll, Heap.free_of_load hx, Option.bind_eq_bind, Option.bind_some]
      exact hfree
    · rw [List.mem_cons, not_or] at hb
      rw [hsame b hb.2, Heap.load_set_ne (Ne.symm hb.1)]

/-- What the loop makes of a rest of the message that splits into `strings`, or does not. -/
inductive LoopOutcome (heap : Heap Cells) (fields : List ℕ) (out : Parsed) : Option (List CString) → Prop
  | failed (h : out.status = -1) : LoopOutcome heap fields out none
  | split {strings : List CString} (new : List ℕ) (hstatus : out.status = 0) (hfields : out.fields = fields ++ new)
      (hold : ∀ a ∈ fields, out.heap.load a = heap.load a)
      (hnew : new.map (fun a => (out.heap.load a).bind stringIn) = strings.map some) :
      LoopOutcome heap fields out (some strings)

theorem stringIn_append_nul {s : CString} (hs : NUL ∉ s) (rest : Cells) : stringIn (s ++ NUL :: rest) = some s := by
  rw [stringIn, if_pos (by simp), cstr_append_nul hs]

theorem copy_field {x : Cells} (rest : Cells) (hx : NUL ∉ x) : ∃ copy,
    Cells.strncpy (List.replicate (x.length + 1) NUL) (x ++ ',' :: rest) (x.length + 1) = some copy ∧
      Cells.store copy x.length NUL = some (x ++ [NUL]) := by
  have htake : (x ++ ',' :: rest).take (x.length + 1) = x ++ [','] := by
    rw [List.take_append, List.take_of_length_le (by omega), Nat.add_sub_cancel_left]
    rfl
  have hnul : NUL ∉ x ++ [','] := by
    rw [List.mem_append, not_or]
    exact ⟨hx, by decide⟩
  refine ⟨x ++ [','], ?_, ?_⟩
  · rw [Cells.strncpy_eq (by simp) (by rw [htake]; exact hnul), if_pos (by simp), htake]
    simp
  · rw [Cells.store, if_pos (by simp)]
    simp

theorem copy_last {t : Cells} (behind : Cells) (ht : NUL ∉ t) (hlen : t.length < MAX_MSG_LEN) : ∃ padding,
    Cells.strncpy (List.replicate MAX_MSG_LEN NUL) (t ++ NUL :: behind) MAX_MSG_LEN = some (t ++ NUL :: padding) := by
  obtain ⟨k, hk⟩ : ∃ k, MAX_MSG_LEN - t.length = k + 1 := Nat.exists_eq_succ_of_ne_zero (by omega)
  have hcopy := @Cells.strncpy_string (List.replicate MAX_MSG_LEN NUL) _ _ behind ht hlen (by simp)
  rw [hk, List.replicate_succ, List.append_assoc, List.cons_append] at hcopy
  exact ⟨_, hcopy⟩

section Rounds

variable {msg ptr : ℕ} {buf t behind : Cells} {fields : List ℕ} {heap : Heap Cells} (hmsg : heap.load msg = some buf)

include hmsg

theorem parseLoop_last (hbuf : buf.drop ptr = t ++ NUL :: behind) (ht : NUL ∉ t) (hlen : t.length < MAX_MSG_LEN) :
    ∃ padding, parseLoop msg 0 ptr fields heap =
      some ⟨heap.alloc (t ++ NUL :: padding), 0, fields ++ [heap.length]⟩ := by
  obtain ⟨padding, hcopy⟩ := copy_last behind ht hlen
  refine ⟨padding, ?_⟩
  have hmsg' := Heap.load_alloc_of_load (x := List.replicate MAX_MSG_LEN NUL) hmsg
  simp only [parseLoop, Heap.load_alloc_self, hmsg', Option.bind_eq_bind, Option.bind_some, hbuf, hcopy,
    Heap.store_alloc_self]

theorem parseLoop_round (n : ℕ) {x rest : Cells} (hbuf : buf.drop ptr = x ++ ',' :: rest) (hx : ',' ∉ x)
    (hnul : NUL ∉ x) : parseLoop msg (n + 1) ptr fields heap =
      parseLoop msg n (ptr + (x.length + 1)) (fields ++ [heap.length]) (heap.alloc (x ++ [NUL])) := by
  have hchr := Cells.strchr_append rest hx hnul (.inl rfl)
  rw [if_pos rfl] at hchr
  obtain ⟨copy, hcopy, hstore⟩ := copy_field rest hnul
  have hmsg' := Heap.load_alloc_of_load (x := List.replicate (x.length + 1) NUL) hmsg
  rw [parseLoop]
  simp only [hmsg, Option.bind_eq_bind, Option.bind_some, hbuf, hchr, Heap.load_alloc_self, hmsg', hcopy,
    Nat.add_sub_cancel, hstore, Heap.store_alloc_self]

theorem parseLoop_stuck (n : ℕ) (hbuf : buf.drop ptr = t ++ NUL :: behind) (hc : ',' ∉ t) (ht : NUL ∉ t) :
    parseLoop msg (n + 1) ptr fields heap = (freeAll heap fields).map (⟨·, -1, fields⟩) := by
  have hchr := Cells.strchr_append behind hc ht (.inr rfl)
  rw [if_neg (by decide)] at hchr
  simp only [parseLoop, hmsg, Option.bind_eq_bind, Option.bind_some, hbuf]
  rw [show NUL = '\x00' from rfl, hchr, Option.bind_some]
  cases freeAll heap fields <;> rfl

end Rounds

theorem LoopOutcome.field {heap : Heap Cells} {fields : List ℕ} {out : Parsed} {strings : Option (List CString)}
    {x : CString} (h : LoopOutcome (heap.alloc (x ++ [NUL])) (fields ++ [heap.length]) out strings) (hx : NUL ∉ x)
    (hfields : ∀ a ∈ fields, a < heap.length) : LoopOutcome heap fields out (strings.map (x :: ·)) := by
  induction h with
  | failed h => exact .failed h
  | split new hstatus hout hold hnew =>
    rw [Option.map_some]
    refine .split (heap.length :: new) hstatus (by rw [hout, List.append_assoc, List.singleton_append])
      (fun a ha => (hold a (by simp [ha])).trans (Heap.load_alloc (hfields a ha))) ?_
    rw [List.map_cons, hold _ (by simp), Heap.load_alloc_self, Option.bind_some, stringIn_append_nul hx, hnew,
      List.map_cons]

/-- The fields so far are different blocks, and none of them is the message. -/
structure Apart (heap : Heap Cells) (msg : ℕ) (fields : List ℕ) : Prop where
  nodup : fields.Nodup
  block : ∀ a ∈ fields, a ≠ msg ∧ ∃ x, heap.load a = some x

theorem Apart.lt {heap : Heap Cells} {msg : ℕ} {fields : List ℕ} (h : Apart heap msg fields) :
    ∀ a ∈ fields, a < heap.length := by
  intro a ha
  obtain ⟨-, x, hx⟩ := h.block a ha
  exact Heap.lt_of_load hx

theorem Apart.alloc {heap : Heap Cells} {msg : ℕ} {fields : List ℕ} {buf : Cells} (h : Apart heap msg fields)
    (hmsg : heap.load msg = some buf) (x : Cells) : Apart (heap.alloc x) msg (fields ++ [heap.length]) := by
  refine ⟨List.nodup_append.mpr ⟨h.nodup, List.nodup_singleton _, fun a ha b hb => ?_⟩, fun a ha => ?_⟩
  · rw [List.mem_singleton.mp hb]
    exact (h.lt a ha).ne
  · rcases List.mem_append.mp ha with ha | ha
    · obtain ⟨hne, y, hy⟩ := h.block a ha
      exact ⟨hne, y, Heap.load_alloc_of_load hy⟩
    · rw [List.mem_singleton.mp ha]
      exact ⟨(Heap.lt_of_load hmsg).ne', _, Heap.load_alloc_self⟩

theorem parseLoop_outcome {msg : ℕ} {buf behind : Cells} (n : ℕ) {ptr : ℕ} {fields : List ℕ} {heap : Heap Cells}
    {t : CString} (hmsg : heap.load msg = some buf) (hbuf : buf.drop ptr = t ++ NUL :: behind) (ht : NUL ∉ t)
    (hlen : t.length < MAX_MSG_LEN) (hfields : Apart heap msg fields) :
    ∃ out, parseLoop msg n ptr fields heap = some out ∧ out.heap.load msg = some buf ∧
      LoopOutcome heap fields out (parseMessage (n + 1) t) := by
  induction n generalizing ptr fields heap t with
  | zero =>
    obtain ⟨padding, hrun⟩ := parseLoop_last hmsg hbuf ht hlen
    refine ⟨_, hrun, Heap.load_alloc_of_load hmsg, ?_⟩
    rw [parseMessage_one hlen.le]
    refine .split [heap.length] rfl rfl (fun a ha => Heap.load_alloc (hfields.lt a ha)) ?_
    rw [List.map_singleton, Heap.load_alloc_self, Option.bind_some, stringIn_append_nul ht]
    rfl
  | succ n ih =>
    by_cases hc : ',' ∈ t
    · obtain ⟨x, t', hx, rfl⟩ := exists_comma_split hc
      rw [List.append_assoc, List.cons_append] at hbuf
      rw [List.mem_append, not_or] at ht
      rw [List.length_append, List.length_cons] at hlen
      have hdrop : buf.drop (ptr + (x.length + 1)) = t' ++ NUL :: behind := by
        rw [← List.drop_drop, hbuf, List.append_cons]
        exact List.drop_left' (by simp)
      obtain ⟨out, hrun, hkept, hout⟩ := ih (Heap.load_alloc_of_load hmsg) hdrop
        (fun h => ht.2 (List.mem_cons_of_mem _ h)) (by omega) (hfields.alloc hmsg (x ++ [NUL]))
      refine ⟨out, (parseLoop_round hmsg n hbuf hx ht.1).trans hrun, hkept, ?_⟩
      rw [parseMessage_field hx]
      exact hout.field ht.1 hfields.lt
    · obtain ⟨heap', hfree, hsame⟩ := freeAll_spec hfields.nodup fun a ha => (hfields.block a ha).2
      refine ⟨⟨heap', -1, fields⟩, ?_, (hsame msg fun h => (hfields.block msg h).1 rfl).trans hmsg, ?_⟩
      · rw [parseLoop_stuck hmsg n hbuf hc ht, hfree]
        rfl
      · rw [parseMessage_of_notMem hc]
        exact .failed rfl

/-- What a message in the heap is split into. -/
theorem parseMessageAt_outcome {heap : Heap Cells} {msg : ℕ} {s : CString} {behind : Cells} (n : ℕ)
    (hmsg : heap.load msg = some (s ++ NUL :: behind)) (hs : NUL ∉ s) (hlen : s.length < MAX_MSG_LEN) :
    ∃ out, parseMessageAt heap msg (n + 1) = some out ∧ out.heap.load msg = heap.load msg ∧
      LoopOutcome heap [] out (parseMessage (n + 1) s) := by
  obtain ⟨out, hrun, hkept, hout⟩ := parseLoop_outcome n hmsg List.drop_zero hs hlen
    ⟨List.nodup_nil, fun _ ha => absurd ha List.not_mem_nil⟩
  exact ⟨out, hrun, hkept.trans hmsg.symm, hout⟩

theorem parse_message_splits (heap : Heap Cells) (msg : ℕ) (s : CString) (behind : Cells) (n : ℕ)
    (hmsg : heap.load msg = some (s ++ NUL :: behind)) (hstring : NUL ∉ s) (hlen : s.length ≤ 1023) (hn : 1 ≤ n) :
    ∃ out, parseMessageAt heap msg n = some out ∧ SplitsExactly s n heap msg out := by
  obtain ⟨n, rfl⟩ := Nat.exists_eq_add_of_le' hn
  have hmax : s.length < MAX_MSG_LEN := Nat.lt_succ_of_le hlen
  obtain ⟨out, hrun, hkept, hout⟩ := parseMessageAt_outcome n hmsg hstring hmax
  have hcount := parseMessage_isSome n s
  generalize hstrings : parseMessage (n + 1) s = strings at hout hcount
  refine ⟨out, hrun, ?_⟩
  induction hout with
  | failed h =>
    have hne : out.status ≠ 0 := by
      rw [h]
      decide
    have hfew : ¬ n ≤ s.count ',' := fun hle => Bool.false_ne_true (hcount.mpr hle)
    exact ⟨⟨fun h0 => absurd h0 hne, fun hle => absurd hle hfew⟩, fun _ => h, fun h0 => absurd h0 hne, hkept⟩
  | @split strings new hstatus hfields hold hnew =>
    obtain ⟨hlength, hcommas, hjoin⟩ := (parseMessage_eq_some hmax.le).mp hstrings
    have hread : out.Reads strings := by
      rw [Parsed.Reads, hfields, List.nil_append]
      exact hnew
    exact ⟨⟨fun _ => hcount.mp rfl, fun _ => hstatus⟩, fun hne => absurd hstatus hne,
      fun _ => ⟨strings, hread, hlength, hcommas, hjoin⟩, hkept⟩

theorem parse_message_splits_text : ∃ out,
    parseMessageAt [some ['1', ',', ',', 'a', NUL]] 0 3 = some out ∧
      SplitsExactly ['1', ',', ',', 'a'] 3 [some ['1', ',', ',', 'a', NUL]] 0 out :=
  parse_message_splits [some ['1', ',', ',', 'a', NUL]] 0 ['1', ',', ',', 'a'] [] 3 rfl (by decide) (by decide)
    (by decide)

end DSA
