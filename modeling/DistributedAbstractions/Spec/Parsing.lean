import DistributedAbstractions.Spec.Common

/-! The header check and the field splitter of the message formats. -/

namespace DSA

open CLib

/-- The body is read behind the header and one more character, whatever that
character is; the zero padding of the message buffer ends a body that is not there. -/
def tryParseMessage (msg expectedHeader : CString) : Option CString :=
  if expectedHeader.isPrefixOf msg then some (msg.drop (expectedHeader.length + DELIM_LEN))
  else none

/-- `fields[0] .. fields[n - 1]`, the last of them with all that is left. -/
def parseMessage : ℕ → CString → Option (List CString)
  | 0, _ => none
  | 1, msg => some [msg.take MAX_MSG_LEN]
  | n + 2, msg =>
    if ',' ∈ msg then
      (parseMessage (n + 1) (msg.drop (strcspn msg ',' + DELIM_LEN))).map
        (msg.take (strcspn msg ',') :: ·)
    else none

theorem tryParseMessage_eq_some {msg header body : CString} :
    tryParseMessage msg header = some body ↔
      header <+: msg ∧ body = msg.drop (header.length + DELIM_LEN) := by
  simp only [tryParseMessage, List.isPrefixOf_iff_prefix, Option.ite_none_right_eq_some,
    Option.some.injEq]
  exact and_congr_right fun _ => eq_comm

theorem tryParseMessage_length {msg header body : CString}
    (h : tryParseMessage msg header = some body) :
    body.length = msg.length - (header.length + DELIM_LEN) := by
  rw [(tryParseMessage_eq_some.mp h).2, List.length_drop]

/-- `"<code>,<body>"` as the encoders leave it in a message buffer. -/
def payload (code body : CString) : CString := snprintf MAX_MSG_LEN (code ++ ',' :: body)

theorem payload_of_length {code body : CString} (h : code.length + body.length + 1 < MAX_MSG_LEN) :
    payload code body = code ++ ',' :: body :=
  snprintf_of_lt (by simpa [Nat.add_assoc] using h)

/-- A payload that does not fill the buffer has not been cut. -/
theorem length_of_payload {code body : CString} (h : (payload code body).length + 1 < MAX_MSG_LEN) :
    code.length + body.length + 1 < MAX_MSG_LEN := by
  simp only [payload, snprintf, List.length_take, List.length_append, List.length_cons] at h
  omega

theorem payload_eq {code : CString} (h : code.length + 1 < MAX_MSG_LEN) (body : CString) :
    payload code body = code ++ ',' :: body.take (MAX_MSG_LEN - 2 - code.length) := by
  have h2 : MAX_MSG_LEN - 1 - code.length = (MAX_MSG_LEN - 2 - code.length) + 1 := by omega
  rw [payload, snprintf, List.take_append, List.take_of_length_le (by omega), h2, List.take_succ_cons]

/-- Decoding an encoded body under the same code gives the body back, cut to the buffer. -/
theorem tryParseMessage_payload_self {code : CString} (h : code.length + 1 < MAX_MSG_LEN)
    (body : CString) :
    tryParseMessage (payload code body) code = some (body.take (MAX_MSG_LEN - 2 - code.length)) := by
  rw [payload_eq h, tryParseMessage_eq_some]
  refine ⟨List.prefix_append _ _, ?_⟩
  rw [List.drop_append, List.drop_eq_nil_of_le (by simp [DELIM_LEN]), DELIM_LEN,
    Nat.add_sub_cancel_left]
  rfl

theorem tryParseMessage_payload_ne {code code' : CString} (h : code.length + 1 < MAX_MSG_LEN)
    (hlen : code'.length = code.length) (hne : code ≠ code') (body : CString) :
    tryParseMessage (payload code body) code' = none := by
  rw [payload_eq h, tryParseMessage, if_neg]
  rw [List.isPrefixOf_iff_prefix]
  intro hp
  exact hne ((List.prefix_of_prefix_length_le (List.prefix_append _ _) hp hlen.ge).eq_of_length
    hlen.symm)

end DSA
