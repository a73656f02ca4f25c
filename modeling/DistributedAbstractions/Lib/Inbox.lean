import DistributedAbstractions.Lib.Machine
import Mathlib.Data.List.Induction
import Mathlib.Data.List.Basic
import Mathlib.Data.List.Infix
import Mathlib.Data.List.Nodup

/-! A receiver that drops items whose key it has recorded, and that records a key
before it knows whether it will accept the item: when some of the items make no
difference to what it delivers. How an item is read may depend on those before it. -/

namespace Inbox

/-- What an item turns out to be. A broken item stops the receiver, a ragged one does
unless its key is recorded. -/
inductive Reading (κ γ : Type)
  | broken
  | ignored
  | ragged (k : κ)
  | rejected (k : κ)
  | accepted (k : κ) (e : γ)

structure Receiver (κ γ : Type) where
  inbox : List κ
  delivered : List γ
  running : Bool

variable {κ γ : Type}

def empty : Receiver κ γ := ⟨[], [], true⟩

variable [DecidableEq κ]

def Receiver.step (r : Receiver κ γ) : Reading κ γ → Receiver κ γ
  | .broken => { r with running := false }
  | .ignored => r
  | .ragged k => if k ∈ r.inbox then r else { r with running := false }
  | .rejected k => if k ∈ r.inbox then r else { r with inbox := r.inbox ++ [k] }
  | .accepted k e =>
    if k ∈ r.inbox then r
    else { r with inbox := r.inbox ++ [k], delivered := r.delivered ++ [e] }

def Receiver.read (r : Receiver κ γ) (x : Reading κ γ) : Receiver κ γ :=
  if r.running then r.step x else r

def run (xs : List (Reading κ γ)) : Receiver κ γ := xs.foldl Receiver.read empty

/-- What reading `x` adds to the deliveries. -/
def Receiver.output (r : Receiver κ γ) : Reading κ γ → List γ
  | .accepted k e => if r.running = true ∧ k ∉ r.inbox then [e] else []
  | _ => []

/-- An item among `xs` has left the key `k` behind. -/
def Recorded (xs : List (Reading κ γ)) (k : κ) : Prop :=
  .rejected k ∈ xs ∨ ∃ e, .accepted k e ∈ xs

/-- No item among `xs` stops the receiver. -/
def Survives (xs : List (Reading κ γ)) : Prop :=
  ∀ pre x, pre ++ [x] <+: xs → x ≠ .broken ∧ ∀ k, x = .ragged k → Recorded pre k

/-- Each item under `f`, with the items before it. -/
def mapPast {δ ε : Type} (f : List δ → δ → ε) (before : List δ) : List δ → List ε
  | [] => []
  | x :: xs => f before x :: mapPast f (before ++ [x]) xs

/-- How the items are read one after the other. -/
def readings {δ : Type} (read : List δ → δ → Reading κ γ) (xs : List δ) : List (Reading κ γ) := mapPast read [] xs

/-- Behind `before` the item `x` is delivered as `e`: no item has stopped the receiver, and none has
recorded the key. -/
def New {δ : Type} (read : List δ → δ → Reading κ γ) (before : List δ) (x : δ) (e : γ) : Prop :=
  ∃ k, read before x = .accepted k e ∧ Survives (readings read before) ∧ ¬ Recorded (readings read before) k

/-- Behind `before` the item `x` is not disturbed by those which are not in `p`: one of them is not new
itself, and one in `p` is new exactly if it is so without them. -/
structure Undisturbed {δ : Type} (read : List δ → δ → Reading κ γ) (p : δ → Bool) (before : List δ) (x : δ) :
    Prop where
  not_new : p x = false → ∀ e, ¬ New read before x e
  new_iff : p x = true → ∀ e, New read before x e ↔ New read (before.filter p) x e

@[simp] theorem run_append_singleton (xs : List (Reading κ γ)) (x : Reading κ γ) :
    run (xs ++ [x]) = (run xs).read x := by
  simp [run]

theorem read_delivered (r : Receiver κ γ) (x : Reading κ γ) :
    (r.read x).delivered = r.delivered ++ r.output x := by
  unfold Receiver.read Receiver.output Receiver.step
  cases hr : r.running with
  | false => cases x <;> simp
  | true =>
    cases x with
    | broken => simp
    | ignored => simp
    | ragged k => by_cases hk : k ∈ r.inbox <;> simp [hk]
    | rejected k => by_cases hk : k ∈ r.inbox <;> simp [hk]
    | accepted k e => by_cases hk : k ∈ r.inbox <;> simp [hk]

/-- Keys stay recorded. -/
theorem read_inbox (r : Receiver κ γ) (x : Reading κ γ) : r.inbox <+: (r.read x).inbox := by
  unfold Receiver.read Receiver.step
  split_ifs
  · cases x with
    | broken => exact List.prefix_refl _
    | ignored => exact List.prefix_refl _
    | ragged k => dsimp only; split_ifs <;> exact List.prefix_refl _
    | rejected k =>
      dsimp only
      split_ifs
      · exact List.prefix_refl _
      · exact List.prefix_append _ _
    | accepted k e =>
      dsimp only
      split_ifs
      · exact List.prefix_refl _
      · exact List.prefix_append _ _
  · exact List.prefix_refl _

theorem nodup_append_singleton {α : Type} {xs : List α} {x : α} : (xs ++ [x]).Nodup ↔ x ∉ xs ∧ xs.Nodup := by
  rw [← List.concat_eq_append, List.nodup_concat]

omit [DecidableEq κ] in
theorem forall_prefix_append_singleton {α : Type} {p : List α → α → Prop} {xs : List α} {x : α} :
    (∀ pre y, pre ++ [y] <+: xs ++ [x] → p pre y) ↔ (∀ pre y, pre ++ [y] <+: xs → p pre y) ∧ p xs x := by
  constructor
  · exact fun h => ⟨fun pre y hp => h pre y (hp.trans (List.prefix_append _ _)),
      h xs x (List.prefix_refl _)⟩
  · rintro ⟨hold, hnew⟩ pre y hp
    rcases Machine.prefix_append_singleton_iff.mp hp with hp | ⟨rfl, rfl⟩
    · exact hold pre y hp
    · exact hnew

omit [DecidableEq κ] in
theorem survives_append_singleton {xs : List (Reading κ γ)} {x : Reading κ γ} :
    Survives (xs ++ [x]) ↔ Survives xs ∧ x ≠ .broken ∧ ∀ k, x = .ragged k → Recorded xs k :=
  forall_prefix_append_singleton

/-- A receiver is running as long as no item has stopped it, and its inbox then has the
keys recorded so far. -/
theorem run_running (xs : List (Reading κ γ)) : ((run xs).running = true ↔ Survives xs) ∧
    ((run xs).running = true → ∀ k, k ∈ (run xs).inbox ↔ Recorded xs k) := by
  induction xs using List.reverseRecOn with
  | nil => exact ⟨iff_of_true rfl fun pre x h => by simp at h, fun _ k => by simp [run, empty, Recorded]⟩
  | append_singleton xs x ih =>
    obtain ⟨hrun, hkeys⟩ := ih
    rw [run_append_singleton, survives_append_singleton, ← hrun]
    cases hr : (run xs).running with
    | false => simp [Receiver.read, hr]
    | true =>
      have hkeys := hkeys hr
      have hrec : ∀ k, Recorded (xs ++ [x]) k ↔ k ∈ (run xs).inbox ∨ x = .rejected k ∨
          ∃ e, x = .accepted k e := by
        intro k
        rw [hkeys]
        simp only [Recorded, List.mem_append, List.mem_singleton, exists_or]
        grind
      simp only [hrec, Receiver.read, hr, if_true]
      cases x with
      | broken => simp [Receiver.step]
      | ignored => simp [Receiver.step, hr]
      | ragged k => by_cases hk : k ∈ (run xs).inbox <;> simp [Receiver.step, hk, hr, ← hkeys]
      | rejected k =>
        by_cases hk : k ∈ (run xs).inbox
        · simp only [Receiver.step, if_pos hk, hr]
          grind
        · simp only [Receiver.step, if_neg hk, hr, List.mem_append, List.mem_singleton]
          grind
      | accepted k e =>
        by_cases hk : k ∈ (run xs).inbox
        · simp only [Receiver.step, if_pos hk, hr]
          grind
        · simp only [Receiver.step, if_neg hk, hr, List.mem_append, List.mem_singleton]
          grind

omit [DecidableEq κ] in
theorem mapPast_append_singleton {δ ε : Type} (f : List δ → δ → ε) (before xs : List δ) (x : δ) :
    mapPast f before (xs ++ [x]) = mapPast f before xs ++ [f (before ++ xs) x] := by
  induction xs generalizing before with
  | nil => simp [mapPast]
  | cons y ys ih => simp [mapPast, ih]

omit [DecidableEq κ] in
theorem map_mapPast {δ ε ε' : Type} (g : ε → ε') (f : List δ → δ → ε) (before xs : List δ) :
    (mapPast f before xs).map g = mapPast (fun b x => g (f b x)) before xs := by
  induction xs generalizing before with
  | nil => rfl
  | cons y ys ih => rw [mapPast, List.map_cons, ih, mapPast]

section Past

variable {δ : Type} {read : List δ → δ → Reading κ γ} {p : δ → Bool}

/-- At most one event, and which one. -/
theorem output_eq_iff {r r' : Receiver κ γ} {x x' : Reading κ γ} :
    r.output x = r'.output x' ↔ ∀ e, e ∈ r.output x ↔ e ∈ r'.output x' := by
  have hone : ∀ (r : Receiver κ γ) (x : Reading κ γ), r.output x = [] ∨ ∃ e, r.output x = [e] := by
    intro r x
    unfold Receiver.output
    split
    · split_ifs
      · exact .inr ⟨_, rfl⟩
      · exact .inl rfl
    · exact .inl rfl
  refine ⟨fun h e => by rw [h], fun h => ?_⟩
  rcases hone r x with hx | ⟨e, hx⟩ <;> rcases hone r' x' with hx' | ⟨e', hx'⟩ <;> rw [hx, hx'] at h ⊢
  · exact absurd ((h e').mpr (List.mem_singleton_self e')) List.not_mem_nil
  · exact absurd ((h e).mp (List.mem_singleton_self e)) List.not_mem_nil
  · rw [List.mem_singleton.mp ((h e).mp (List.mem_singleton_self e))]

theorem mem_output_iff {before : List δ} {x : δ} {e : γ} :
    e ∈ (run (readings read before)).output (read before x) ↔ New read before x e := by
  obtain ⟨hrun, hkeys⟩ := run_running (readings read before)
  unfold Receiver.output New
  cases read before x with
  | accepted k e' =>
    have hfresh : (run (readings read before)).running = true ∧ k ∉ (run (readings read before)).inbox ↔
        Survives (readings read before) ∧ ¬ Recorded (readings read before) k := by
      rw [← hrun]
      exact and_congr_right fun h => not_congr (hkeys h k)
    dsimp only
    rw [List.mem_ite_nil_right, hfresh, List.mem_singleton]
    constructor
    · rintro ⟨h, rfl⟩
      exact ⟨k, rfl, h⟩
    · rintro ⟨_, hk, h⟩
      obtain ⟨rfl, rfl⟩ := Reading.accepted.inj hk
      exact ⟨h, rfl⟩
  | _ => simp

omit [DecidableEq κ] in
theorem readings_append_singleton (xs : List δ) (x : δ) :
    readings read (xs ++ [x]) = readings read xs ++ [read xs x] :=
  mapPast_append_singleton read [] xs x

theorem delivered_append_singleton (xs : List δ) (x : δ) :
    (run (readings read (xs ++ [x]))).delivered =
      (run (readings read xs)).delivered ++ (run (readings read xs)).output (read xs x) := by
  rw [readings_append_singleton, run_append_singleton, read_delivered]

/-- One more item keeps the deliveries equal exactly if it is not disturbed. -/
theorem delivered_eq_iff {xs : List δ}
    (h : (run (readings read xs)).delivered = (run (readings read (xs.filter p))).delivered) (x : δ) :
    (run (readings read (xs ++ [x]))).delivered = (run (readings read ((xs ++ [x]).filter p))).delivered ↔
      Undisturbed read p xs x := by
  rw [List.filter_append, delivered_append_singleton]
  cases hp : p x with
  | true =>
    rw [List.filter_singleton, hp, cond_true, delivered_append_singleton, h, List.append_cancel_left_eq, output_eq_iff]
    simp only [mem_output_iff]
    exact ⟨fun heq => ⟨fun hno => by simp [hp] at hno, fun _ => heq⟩, fun hx => hx.new_iff hp⟩
  | false =>
    rw [List.filter_singleton, hp, cond_false, List.append_nil, h, List.append_right_eq_self,
      List.eq_nil_iff_forall_not_mem]
    simp only [mem_output_iff]
    exact ⟨fun hnone => ⟨fun _ => hnone, fun hyes => by simp [hp] at hyes⟩, fun hx => hx.not_new hp⟩

/-- At every moment the deliveries are those without the items which are not in `p`, exactly if no item is
disturbed by these. -/
theorem unmoved_iff (xs : List δ) :
    (∀ pre, pre <+: xs → (run (readings read pre)).delivered = (run (readings read (pre.filter p))).delivered) ↔
      ∀ pre x, pre ++ [x] <+: xs → Undisturbed read p pre x := by
  induction xs using List.reverseRecOn with
  | nil =>
    refine iff_of_true (fun pre h => ?_) fun pre x h => by simp at h
    rw [List.prefix_nil.mp h]
    rfl
  | append_singleton xs x ih =>
    rw [forall_prefix_append_singleton, ← ih]
    simp only [List.prefix_concat_iff]
    constructor
    · intro h
      have hxs := fun pre hpre => h pre (.inr hpre)
      exact ⟨hxs, (delivered_eq_iff (hxs xs (List.prefix_refl xs)) x).mp (h _ (.inl rfl))⟩
    · rintro ⟨hxs, hx⟩ pre (rfl | hpre)
      · exact (delivered_eq_iff (hxs xs (List.prefix_refl xs)) x).mpr hx
      · exact hxs pre hpre

end Past

/-- Every delivery goes back to an accepted item of its own key. -/
theorem exists_keyed (xs : List (Reading κ γ)) : ∃ l : List (κ × γ),
    (run xs).delivered = l.map Prod.snd ∧ (l.map Prod.fst).Nodup ∧
    ∀ x ∈ l, .accepted x.1 x.2 ∈ xs ∧ x.1 ∈ (run xs).inbox := by
  induction xs using List.reverseRecOn with
  | nil => exact ⟨[], rfl, List.nodup_nil, fun _ h => (List.not_mem_nil h).elim⟩
  | append_singleton xs x ih =>
    obtain ⟨l, hdel, hnodup, hl⟩ := ih
    have hgrow := read_inbox (run xs) x
    rw [run_append_singleton, read_delivered, hdel]
    have hold : ∀ y ∈ l, .accepted y.1 y.2 ∈ xs ++ [x] ∧ y.1 ∈ ((run xs).read x).inbox := fun y hy =>
      ⟨List.mem_append_left _ (hl y hy).1, hgrow.subset (hl y hy).2⟩
    unfold Receiver.output
    split
    · next k e =>
      split_ifs with hk
      · refine ⟨l ++ [(k, e)], by simp, ?_, fun y hy => ?_⟩
        · rw [List.map_append, List.nodup_append]
          refine ⟨hnodup, List.nodup_singleton _, fun a ha b hb => ?_⟩
          obtain ⟨y, hy, rfl⟩ := List.mem_map.mp ha
          obtain rfl := List.mem_singleton.mp hb
          rintro rfl
          exact hk.2 (hl y hy).2
        · rcases List.mem_append.mp hy with hy | hy
          · exact hold y hy
          · obtain rfl := List.mem_singleton.mp hy
            refine ⟨by simp, ?_⟩
            simp [Receiver.read, Receiver.step, hk.1, hk.2]
      · exact ⟨l, by simp, hnodup, hold⟩
    · exact ⟨l, by simp, hnodup, hold⟩

end Inbox
