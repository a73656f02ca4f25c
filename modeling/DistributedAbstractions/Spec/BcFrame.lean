import DistributedAbstractions.Spec.Parsing

/-! The `BC` messages of the two reliable broadcasts: who broadcast first, under which
id, and what. -/

namespace DSA

open CLib Net

def BC_CODE : CString := ['B', 'C']

structure Fields where
  originalSender : ℤ
  originalId : CString
  body : CString
deriving DecidableEq

/-- `"BC,%d,%s,%s"`. -/
def bcFrame (f : Fields) : CString :=
  snprintf MAX_MSG_LEN
    (BC_CODE ++ ',' :: (fmtInt f.originalSender ++ ',' :: (f.originalId ++ ',' :: f.body)))

/-- How both callbacks begin: header, fields and the range of the original sender. -/
def openFrame (maxRank : ℕ) (msg : CString) : Option Fields :=
  match tryParseMessage msg BC_CODE with
  | none => none
  | some buf =>
    match parseMessage 3 buf with
    | some [originalSender, originalId, body] =>
      if atoi originalSender < 1 || atoi originalSender > maxRank then none
      else some ⟨atoi originalSender, originalId, body⟩
    | _ => none

/-- `create_rb_delivery`. -/
def createRbDelivery (f : Fields) : Deliver := ⟨f.body.take MAX_MSG_LEN, f.originalSender⟩

/-- A perfect link hands a message over uncut if its datagram fits the buffers. -/
def plCarries (k : Packet CString) : Bool := plFrameLen k.src k.msg < MAX_MSG_LEN

theorem plCarries_length {k : Packet CString} (h : plCarries k = true) :
    k.msg.length + 1 < MAX_MSG_LEN := by
  have hlt : plFrameLen k.src k.msg < MAX_MSG_LEN := of_decide_eq_true h
  have hD : DELIM_LEN = 1 := rfl
  simp only [plFrameLen] at hlt
  omega

theorem parseMessage_field {x : CString} (hx : ',' ∉ x) (n : ℕ) (rest : CString) :
    parseMessage (n + 2) (x ++ ',' :: rest) = (parseMessage (n + 1) rest).map (x :: ·) := by
  have hdrop : (x ++ ',' :: rest).drop (x.length + 1) = rest := by simp
  rw [parseMessage, if_pos (by simp), strcspn_append hx, List.take_left, DELIM_LEN, hdrop]

/-- A frame that fits its buffer is read as it was written. -/
theorem openFrame_bcFrame {maxRank : ℕ} {f : Fields} (hlen : (bcFrame f).length + 1 < MAX_MSG_LEN)
    (hid : ',' ∉ f.originalId) (hs : f.originalSender ∈ peers maxRank) :
    openFrame maxRank (bcFrame f) = some f := by
  have hfit : (BC_CODE ++ ',' ::
      (fmtInt f.originalSender ++ ',' :: (f.originalId ++ ',' :: f.body))).length < MAX_MSG_LEN := by
    simp only [bcFrame, snprintf, List.length_take] at hlen
    omega
  have hbody : f.body.length ≤ MAX_MSG_LEN := by
    simp only [List.length_append, List.length_cons] at hfit
    omega
  have hparse : tryParseMessage (bcFrame f) BC_CODE =
      some (fmtInt f.originalSender ++ ',' :: (f.originalId ++ ',' :: f.body)) := by
    rw [bcFrame, snprintf_of_lt hfit, tryParseMessage_eq_some]
    exact ⟨List.prefix_append _ _, rfl⟩
  have hfields : parseMessage 3 (fmtInt f.originalSender ++ ',' :: (f.originalId ++ ',' :: f.body)) =
      some [fmtInt f.originalSender, f.originalId, f.body] := by
    rw [parseMessage_field (comma_not_mem_fmtInt _), parseMessage_field hid, parseMessage,
      List.take_of_length_le hbody]
    rfl
  obtain ⟨h1, h2⟩ := mem_peers.mp hs
  simp [openFrame, hparse, hfields, atoi_fmtInt]
  omega

theorem openFrame_eq_some {maxRank : ℕ} {msg : CString} {f : Fields}
    (h : openFrame maxRank msg = some f) : f.originalSender ∈ peers maxRank ∧
      ∃ buf s, parseMessage 3 buf = some [s, f.originalId, f.body] := by
  unfold openFrame at h
  split at h
  · cases h
  · next buf _ =>
    split at h
    · next s id body hp =>
      split_ifs at h with hr
      obtain rfl := Option.some.inj h
      exact ⟨by simpa using hr, buf, s, hp⟩
    · cases h

/-- The last field fits the buffer of a delivery. -/
theorem openFrame_body {maxRank : ℕ} {msg : CString} {f : Fields}
    (h : openFrame maxRank msg = some f) : (createRbDelivery f).msg = f.body := by
  obtain ⟨-, buf, s, hp⟩ := openFrame_eq_some h
  simp only [parseMessage] at hp
  split_ifs at hp
  · obtain ⟨-, -, hbody⟩ : _ ∧ _ ∧ _ = f.body := by simpa using hp
    rw [createRbDelivery, ← hbody, List.take_take, Nat.min_self]
  · cases hp

/-- An application's message with the uuid that the broadcast draws for it. -/
structure Broadcast where
  msg : CString
  uuid : CString
deriving DecidableEq

/-- What a callback gets, and the id of the message that it gets it for. -/
structure Indication where
  id : CString
  deliver : Deliver
deriving DecidableEq

/-- What process `o` sends when it is asked for `e`. -/
def originalFrame (o : ℤ) (e : Broadcast) : Fields := ⟨o, e.uuid, e.msg⟩

/-- Processes that run the code over ideal perfect links until they crash. These links carry whatever fits its
datagram; the perfect link of the repository does so only when the message is not shorter than its uuid. -/
def crashSetting (maxRank : ℕ) : Setting CString where
  size := maxRank
  byz := ∅
  replays := false
  crashes := true
  carries := plCarries
  forges _ := false

/-- What `uuid_unparse` writes has no comma. -/
def IsUuid (id : CString) : Prop := id.length < UUID_STR_LEN ∧ ',' ∉ id

instance (id : CString) : Decidable (IsUuid id) := inferInstanceAs (Decidable (_ ∧ _))

section

variable {σ ι ω : Type}

/-- The broadcasts among the requests of the application. -/
def broadcasts (asked : ι → Option Broadcast) (is : List (Input ι CString)) : List Broadcast :=
  (calls is).filterMap asked

/-- A uuid that is drawn has not been drawn before. -/
def FreshIds (asked : ι → Option Broadcast) (maxRank : ℕ) (s : State σ ι CString ω) :
    Event Unit ι CString → Prop
  | .act _ _ (.call i) _ => ∀ e ∈ asked i, IsUuid e.uuid ∧
      ∀ q ∈ ranks maxRank, ∀ e' ∈ broadcasts asked (s.proc q).inputs, e'.uuid ≠ e.uuid
  | _ => True

instance (asked : ι → Option Broadcast) (maxRank : ℕ) (s : State σ ι CString ω) :
    (e : Event Unit ι CString) → Decidable (FreshIds asked maxRank s e)
  | .act _ _ (.call i) _ =>
    match h : asked i with
    | none => isTrue (by simp [FreshIds, h])
    | some e => decidable_of_iff (IsUuid e.uuid ∧
        ∀ q ∈ ranks maxRank, ∀ e' ∈ broadcasts asked (s.proc q).inputs, e'.uuid ≠ e.uuid)
        (by simp [FreshIds, h])
  | .act _ _ (.deliver _ _) _ => isTrue trivial
  | .act _ _ (.forge _ _) _ => isTrue trivial
  | .crash _ => isTrue trivial

end

end DSA
