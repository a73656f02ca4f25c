import DistributedAbstractions.Lib.Cells
import DistributedAbstractions.Lib.Heap
import DistributedAbstractions.Spec.BcFrame
import DistributedAbstractions.Spec.Links

/-! `try_parse_message` and `parse_message` on the arrays that they read and write, and how the callbacks
of the two reliable broadcasts begin. Allocations succeed. -/

namespace DSA

open CLib Memory

/-- The loop over the header, from cell `i` of `msg` on. -/
def headerMatches (msg : Cells) : CString → ℕ → Option Bool
  | [], _ => some true
  | c :: header, i => do
    if (← Cells.load msg i) = c then headerMatches msg header (i + 1) else some false

/-- `body` afterwards, or nothing if the message has another header. -/
def tryParseMessageAt (msg : Cells) (expectedHeader : CString) (body : Cells) (len : ℕ) : Option (Option Cells) := do
  if ← headerMatches msg expectedHeader 0 then
    (Cells.strncpy body (msg.drop (expectedHeader.length + DELIM_LEN)) len).map some
  else some none

/-- What `parse_message` returns and leaves on the heap. The rest of the array `fields` is `NULL`. -/
structure Parsed where
  heap : Heap Cells
  status : ℤ
  fields : List ℕ

def freeAll (heap : Heap Cells) : List ℕ → Option (Heap Cells)
  | [] => some heap
  | a :: as => do freeAll (← heap.free a) as

/-- The loop with `rounds` to go, at cell `ptr` of the message, and what comes behind it. -/
def parseLoop (msg : ℕ) : ℕ → ℕ → List ℕ → Heap Cells → Option Parsed
  | 0, ptr, fields, heap => do
    let field := heap.length
    let heap := heap.alloc (List.replicate MAX_MSG_LEN NUL)
    let copy ← Cells.strncpy (← heap.load field) ((← heap.load msg).drop ptr) MAX_MSG_LEN
    let heap ← heap.store field copy
    some ⟨heap, 0, fields ++ [field]⟩
  | rounds + 1, ptr, fields, heap => do
    let delim ← Cells.strchr ((← heap.load msg).drop ptr) ','
    match delim with
    | none => do
      let heap ← freeAll heap fields
      some ⟨heap, -1, fields⟩
    | some delim => do
      let fieldLen := delim + 1
      let field := heap.length
      let heap := heap.alloc (List.replicate fieldLen NUL)
      let copy ← Cells.strncpy (← heap.load field) ((← heap.load msg).drop ptr) fieldLen
      let copy ← Cells.store copy (fieldLen - 1) NUL
      let heap ← heap.store field copy
      parseLoop msg rounds (ptr + fieldLen) (fields ++ [field]) heap

/-- With no field at all `fields[-1]` is written. -/
def parseMessageAt (heap : Heap Cells) (msg : ℕ) : ℕ → Option Parsed
  | 0 => none
  | expectedFields + 1 => parseLoop msg expectedFields 0 [] heap

/-- The string in an array, if there is one. -/
def stringIn (a : Cells) : Option CString := if NUL ∈ a then some (cstr a) else none

/-- `fields` as strings. -/
def Parsed.Reads (out : Parsed) (strings : List CString) : Prop :=
  out.fields.map (fun a => (out.heap.load a).bind stringIn) = strings.map some

/-- The status is 0 if there are commas enough. The fields are then what is between them, and the message
is as it was. -/
structure SplitsExactly (s : CString) (n : ℕ) (heap : Heap Cells) (msg : ℕ) (out : Parsed) : Prop where
  success : out.status = 0 ↔ n - 1 ≤ s.count ','
  failure : out.status ≠ 0 → out.status = -1
  splits : out.status = 0 → ∃ strings, out.Reads strings ∧ strings.length = n ∧
    (∀ f ∈ strings.take (n - 1), ',' ∉ f) ∧ List.intercalate [','] strings = s
  unmodified : out.heap.load msg = heap.load msg

/-- How `urb_callback` and `on_delivery_wrapper` begin, with `buf` as it happens to be: the strings in the
fields, or nothing if they return. -/
def frontEnd (msg buf : Cells) : Option (Option (List CString)) := do
  let body ← tryParseMessageAt msg BC_CODE buf MAX_MSG_LEN
  match body with
  | none => some none
  | some body =>
    let out ← parseMessageAt [some body] 0 3
    if out.status ≠ 0 then some none
    else (out.fields.mapM fun a => (out.heap.load a).bind stringIn).map some

/-- `"BC,"`, two fields without commas, and anything behind them. -/
def bcText (f₁ f₂ rest : CString) : CString := BC_CODE ++ ',' :: (f₁ ++ ',' :: (f₂ ++ ',' :: rest))

/-- The messages of the form of `bcText` are accepted and read as what they consist of, and no others. So
what the encoder writes is read back, and what is read can be written again, by the encoder itself if the rank
is written as `%d` writes it. -/
structure FrameGrammar (msg : CString) (accepted : Option (List CString)) : Prop where
  shape : ∀ fields, accepted = some fields → ∃ f₁ f₂ rest, fields = [f₁, f₂, rest]
  accepts : ∀ f₁ f₂ rest, accepted = some [f₁, f₂, rest] ↔ msg = bcText f₁ f₂ rest ∧ ',' ∉ f₁ ∧ ',' ∉ f₂
  decodes : ∀ f : Fields, ',' ∉ f.originalId →
    (bcText (fmtInt f.originalSender) f.originalId f.body).length < MAX_MSG_LEN → msg = bcFrame f →
      accepted = some [fmtInt f.originalSender, f.originalId, f.body]
  encodes : ∀ f₁ f₂ rest, accepted = some [f₁, f₂, rest] → bcText f₁ f₂ rest = msg
  encodes_rank : ∀ f₁ f₂ rest, accepted = some [f₁, f₂, rest] → fmtInt (atoi f₁) = f₁ →
    bcFrame ⟨atoi f₁, f₂, rest⟩ = msg

/-- If there are fields enough behind it, the header ends with a comma. -/
def Delimited (msg : CString) : Prop :=
  ∀ c rest, msg = BC_CODE ++ c :: rest → 2 ≤ rest.count ',' → c = ','

end DSA
