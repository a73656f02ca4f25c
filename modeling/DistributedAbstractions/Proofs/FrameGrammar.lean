import DistributedAbstractions.Proofs.SplitFields

/-! The front end of the two reliable broadcasts reads `"BC,"`, two fields and the rest, whatever character
there is behind `"BC"`. The layer below has filled up the message with zeros. -/

namespace DSA

open CLib Memory

theorem headerMatches_eq {header : CString} (hheader : NUL ∉ header) (msg before behind : Cells) :
    headerMatches (before ++ (msg ++ NUL :: behind)) header before.length = some (header.isPrefixOf msg) := by
  induction header generalizing msg before with
  | nil => simp [headerMatches]
  | cons c header ih =>
    rw [List.mem_cons, not_or] at hheader
    cases msg with
    | nil =>
      have hload : Cells.load (before ++ ([] ++ NUL :: behind)) before.length = some NUL := by simp [Cells.load]
      rw [headerMatches, hload, Option.bind_eq_bind, Option.bind_some, if_neg hheader.1]
      rfl
    | cons d msg =>
      have hload : Cells.load (before ++ (d :: msg ++ NUL :: behind)) before.length = some d := by simp [Cells.load]
      rw [headerMatches, hload, Option.bind_eq_bind, Option.bind_some, List.isPrefixOf_cons_cons]
      by_cases hdc : d = c
      · have hnext := ih hheader.2 msg (before ++ [d])
        rw [List.length_append, List.length_singleton, List.append_assoc, List.singleton_append] at hnext
        rw [if_pos hdc, hdc, beq_self_eq_true, Bool.true_and, ← hnext, hdc]
        rfl
      · rw [if_neg hdc, beq_eq_false_iff_ne.mpr (Ne.symm hdc), Bool.false_and]

/-- `strncpy` finds the rest of the message, or nothing at all, behind header and delimiter. -/
theorem drop_msgBuffer {msg : CString} (hlen : msg.length < MAX_MSG_LEN) {k : ℕ} (hk : k < MAX_MSG_LEN) :
    ∃ more, (msgBuffer msg).drop k = msg.drop k ++ NUL :: more := by
  have hzeros : MAX_MSG_LEN - msg.length - (k - msg.length) ≠ 0 := by omega
  obtain ⟨z, hz⟩ := Nat.exists_eq_succ_of_ne_zero hzeros
  refine ⟨List.replicate z NUL, ?_⟩
  rw [msgBuffer, List.drop_append, List.drop_replicate, hz, List.replicate_succ]

theorem tryParseMessageAt_eq {msg : CString} {buf : Cells} (hmsg : NUL ∉ msg) (hlen : msg.length < MAX_MSG_LEN)
    (hbuf : buf.length = MAX_MSG_LEN) :
    (tryParseMessage msg BC_CODE = none ∧ tryParseMessageAt (msgBuffer msg) BC_CODE buf MAX_MSG_LEN = some none) ∨
      ∃ body more, tryParseMessage msg BC_CODE = some body ∧ NUL ∉ body ∧ body.length < MAX_MSG_LEN ∧
        tryParseMessageAt (msgBuffer msg) BC_CODE buf MAX_MSG_LEN = some (some (body ++ NUL :: more)) := by
  have hheader := @headerMatches_eq BC_CODE (by decide) msg [] (zeros.drop (msg.length + 1))
  rw [List.nil_append, ← msgBuffer_eq hlen, List.length_nil] at hheader
  rw [tryParseMessageAt, hheader, Option.bind_eq_bind, Option.bind_some, tryParseMessage]
  by_cases hprefix : BC_CODE.isPrefixOf msg = true
  · obtain ⟨more, hmore⟩ := drop_msgBuffer hlen (k := BC_CODE.length + DELIM_LEN) (by decide)
    have hbody : NUL ∉ msg.drop (BC_CODE.length + DELIM_LEN) := fun h => hmsg (List.mem_of_mem_drop h)
    have hshort : (msg.drop (BC_CODE.length + DELIM_LEN)).length < MAX_MSG_LEN := by
      rw [List.length_drop]
      omega
    obtain ⟨z, hz⟩ := Nat.exists_eq_succ_of_ne_zero (Nat.sub_ne_zero_of_lt hshort)
    refine .inr ⟨_, List.replicate z NUL, if_pos hprefix, hbody, hshort, ?_⟩
    have hcopy := Cells.strncpy_string more hbody hshort hbuf.ge
    rw [List.drop_eq_nil_of_le hbuf.le, hz, List.append_nil, List.replicate_succ] at hcopy
    rw [if_pos hprefix, hmore]
    exact congrArg (Option.map some) hcopy
  · exact .inl ⟨if_neg hprefix, if_neg hprefix⟩

theorem mapM_of_map_eq {f : ℕ → Option CString} {as : List ℕ} {strings : List CString}
    (h : as.map f = strings.map some) : as.mapM f = some strings := by
  induction as generalizing strings with
  | nil =>
    rw [List.map_nil, eq_comm, List.map_eq_nil_iff] at h
    rw [h]
    rfl
  | cons a as ih =>
    cases strings with
    | nil => cases h
    | cons s strings =>
      rw [List.map_cons, List.map_cons, List.cons.injEq] at h
      rw [List.mapM_cons, h.1, ih h.2]
      rfl

theorem frontEnd_eq {msg : CString} {buf : Cells} (hmsg : NUL ∉ msg) (hlen : msg.length < MAX_MSG_LEN)
    (hbuf : buf.length = MAX_MSG_LEN) :
    frontEnd (msgBuffer msg) buf = some ((tryParseMessage msg BC_CODE).bind (parseMessage 3)) := by
  rcases tryParseMessageAt_eq hmsg hlen hbuf with ⟨hnone, hat⟩ | ⟨body, more, hbody, hnul, hshort, hat⟩
  · rw [frontEnd, hat, hnone]
    rfl
  · rw [frontEnd, hat, hbody, Option.bind_some]
    obtain ⟨out, hrun, -, hout⟩ := @parseMessageAt_outcome [some (body ++ NUL :: more)] 0 _ _ 2 rfl hnul hshort
    simp only [Option.bind_eq_bind, Option.bind_some, hrun]
    generalize parseMessage 3 body = strings at hout ⊢
    induction hout with
    | failed h => rw [if_pos (by rw [h]; decide)]
    | @split strings new hstatus hfields hold hnew =>
      rw [if_neg (by simp [hstatus]), hfields, List.nil_append, mapM_of_map_eq hnew]
      rfl

theorem intercalate_three (a b c : CString) : List.intercalate [','] [a, b, c] = a ++ ',' :: (b ++ ',' :: c) := by
  rw [intercalate_comma a (by simp), intercalate_comma b (by simp), List.intercalate_singleton]

/-- What the front end accepts, with the character that it skips. -/
theorem accepts_iff {msg : CString} (hlen : msg.length < MAX_MSG_LEN) {f₁ f₂ rest : CString} :
    (tryParseMessage msg BC_CODE).bind (parseMessage 3) = some [f₁, f₂, rest] ↔
      ∃ c, msg = BC_CODE ++ c :: (f₁ ++ ',' :: (f₂ ++ ',' :: rest)) ∧ ',' ∉ f₁ ∧ ',' ∉ f₂ := by
  rw [Option.bind_eq_some_iff]
  constructor
  · rintro ⟨body, hbody, hfields⟩
    have hshort : body.length ≤ MAX_MSG_LEN := by
      rw [tryParseMessage_length hbody]
      omega
    obtain ⟨-, hcommas, hjoin⟩ := (parseMessage_eq_some hshort).mp hfields
    obtain ⟨⟨t, rfl⟩, hdrop⟩ := tryParseMessage_eq_some.mp hbody
    rw [← List.drop_drop, List.drop_left] at hdrop
    rw [intercalate_three] at hjoin
    cases t with
    | nil =>
      rw [hdrop] at hjoin
      cases f₁ <;> cases hjoin
    | cons c t =>
      obtain rfl : body = t := hdrop
      exact ⟨c, by rw [hjoin], hcommas f₁ (by simp), hcommas f₂ (by simp)⟩
  · rintro ⟨c, rfl, h₁, h₂⟩
    refine ⟨f₁ ++ ',' :: (f₂ ++ ',' :: rest), tryParseMessage_eq_some.mpr ⟨List.prefix_append _ _, rfl⟩, ?_⟩
    have hshort : rest.length ≤ MAX_MSG_LEN := by
      simp only [List.length_append, List.length_cons] at hlen
      omega
    rw [parseMessage_field h₁, parseMessage_field h₂, parseMessage_one hshort]
    rfl

theorem accepts_of_count {msg : CString} (hlen : msg.length < MAX_MSG_LEN) {c : Char} {rest : CString}
    (hmsg : msg = BC_CODE ++ c :: rest) (hcount : 2 ≤ rest.count ',') :
    ∃ f₁ f₂ last, (tryParseMessage msg BC_CODE).bind (parseMessage 3) = some [f₁, f₂, last] := by
  obtain ⟨fs, hfs⟩ := Option.isSome_iff_exists.mp ((parseMessage_isSome 2 rest).mpr hcount)
  have hshort : rest.length ≤ MAX_MSG_LEN := by
    rw [hmsg, List.length_append, List.length_cons] at hlen
    omega
  obtain ⟨hlength, -, -⟩ := (parseMessage_eq_some hshort).mp hfs
  obtain ⟨f₁, f₂, last, rfl⟩ := List.length_eq_three.mp hlength
  refine ⟨f₁, f₂, last, ?_⟩
  have hbody : tryParseMessage msg BC_CODE = some rest := by
    rw [hmsg]
    exact tryParseMessage_eq_some.mpr ⟨List.prefix_append _ _, rfl⟩
  rw [hbody, Option.bind_some, hfs]

theorem frameGrammar_of_delimited {msg : CString} (hlen : msg.length < MAX_MSG_LEN) (hdelimited : Delimited msg) :
    FrameGrammar msg ((tryParseMessage msg BC_CODE).bind (parseMessage 3)) := by
  have haccepts : ∀ f₁ f₂ rest, (tryParseMessage msg BC_CODE).bind (parseMessage 3) = some [f₁, f₂, rest] ↔
      msg = bcText f₁ f₂ rest ∧ ',' ∉ f₁ ∧ ',' ∉ f₂ := by
    intro f₁ f₂ rest
    rw [accepts_iff hlen]
    constructor
    · rintro ⟨c, hmsg, h₁, h₂⟩
      have hcount : 2 ≤ (f₁ ++ ',' :: (f₂ ++ ',' :: rest)).count ',' := by
        simp only [List.count_append, List.count_cons_self]
        omega
      obtain rfl := hdelimited c _ hmsg hcount
      exact ⟨hmsg, h₁, h₂⟩
    · rintro ⟨hmsg, h₁, h₂⟩
      exact ⟨',', hmsg, h₁, h₂⟩
  refine ⟨?_, haccepts, ?_, fun f₁ f₂ rest h => ((haccepts f₁ f₂ rest).mp h).1.symm, ?_⟩
  · intro fields hfields
    obtain ⟨body, hbody, hparse⟩ := Option.bind_eq_some_iff.mp hfields
    have hshort : body.length ≤ MAX_MSG_LEN := by
      rw [tryParseMessage_length hbody]
      omega
    exact List.length_eq_three.mp ((parseMessage_eq_some hshort).mp hparse).1
  · intro f hid hfit hmsg
    rw [haccepts]
    exact ⟨hmsg.trans (snprintf_of_lt hfit), comma_not_mem_fmtInt _, hid⟩
  · intro f₁ f₂ rest h hrank
    obtain ⟨rfl, -, -⟩ := (haccepts f₁ f₂ rest).mp h
    rw [bcFrame, hrank]
    exact snprintf_of_lt hlen

theorem front_end_grammar (msg : CString) (buf : Cells) (hstring : NUL ∉ msg) (hlen : msg.length < MAX_MSG_LEN)
    (hbuf : buf.length = MAX_MSG_LEN) :
    ∃ accepted, frontEnd (msgBuffer msg) buf = some accepted ∧ (FrameGrammar msg accepted ↔ Delimited msg) := by
  refine ⟨_, frontEnd_eq hstring hlen hbuf, fun hgrammar => ?_, frameGrammar_of_delimited hlen⟩
  intro c rest hmsg hcount
  obtain ⟨f₁, f₂, last, haccepted⟩ := accepts_of_count hlen hmsg hcount
  obtain ⟨htext, -, -⟩ := (hgrammar.accepts f₁ f₂ last).mp haccepted
  rw [hmsg, bcText] at htext
  exact (List.cons.inj (List.append_cancel_left htext)).1

theorem front_end_grammar_text : ∃ accepted,
    frontEnd (msgBuffer ['B', 'C', ',', '1', ',', 'u', ',', 'h', 'i']) zeros = some accepted ∧
      (FrameGrammar ['B', 'C', ',', '1', ',', 'u', ',', 'h', 'i'] accepted ↔
        Delimited ['B', 'C', ',', '1', ',', 'u', ',', 'h', 'i']) :=
  front_end_grammar ['B', 'C', ',', '1', ',', 'u', ',', 'h', 'i'] zeros (by decide) (by decide)
    (List.length_replicate ..)

/-- Another character in the place of the first comma. -/
theorem undelimited_accepted : ∃ accepted,
    frontEnd (msgBuffer ['B', 'C', 'x', '1', ',', 'u', ',', 'h', 'i']) zeros = some accepted ∧
      ¬ FrameGrammar ['B', 'C', 'x', '1', ',', 'u', ',', 'h', 'i'] accepted := by
  refine ⟨_, frontEnd_eq (by decide) (by decide) List.length_replicate, fun hgrammar => ?_⟩
  obtain ⟨htext, -, -⟩ := (hgrammar.accepts ['1'] ['u'] ['h', 'i']).mp (by decide)
  exact absurd htext (by decide)

end DSA
