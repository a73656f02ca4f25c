import DistributedAbstractions.Lib.CString

/-! Arrays of characters whose accesses are checked: `none` is one outside the array. A loop of
`string.h` goes on from cell to cell until one of them ends it, or until it is outside. -/

namespace CLib

abbrev Cells := List Char

namespace Cells

def load (a : Cells) (i : ℕ) : Option Char := a[i]?

def store (a : Cells) (i : ℕ) (c : Char) : Option Cells := if i < a.length then some (a.set i c) else none

/-- The index of the first cell that `stop`s the loop. -/
def scan (stop : Char → Bool) : Cells → Option ℕ
  | [] => none
  | c :: a => if stop c then some 0 else (scan stop a).map (· + 1)

def strlen (a : Cells) : Option ℕ := scan (· = '\x00') a

def strcspn (a : Cells) (c : Char) : Option ℕ := scan (fun d => d = c || d = '\x00') a

/-- How far it is to `c`, unless the string ends first. -/
def strchr (a : Cells) (c : Char) : Option (Option ℕ) :=
  (a.strcspn c).map fun i => if a[i]? = some c then some i else none

/-- The terminator is copied too. -/
def strcpy : Cells → Cells → Option Cells
  | _, [] => none
  | [], _ :: _ => none
  | _ :: dst, c :: src => if c = '\x00' then some (c :: dst) else (strcpy dst src).map (c :: ·)

/-- Behind the end of the string in `src` the copy is filled up. -/
def padded (src : Cells) (n : ℕ) : Option Char := if '\x00' ∈ src.take n then some '\x00' else load src n

def strncpy (dst src : Cells) : ℕ → Option Cells
  | 0 => some dst
  | n + 1 => do
    let dst ← strncpy dst src n
    let c ← padded src n
    store dst n c

def behindSign : Cells → Cells
  | [] => []
  | c :: a => if c = '-' ∨ c = '+' then a else c :: a

/-- The number ends at a cell that is no digit. -/
def atoi (a : Cells) : Option ℤ :=
  if (behindSign (a.dropWhile isSpace)).all Char.isDigit then none else some (CLib.atoi a)

/-- Spaces, a sign and digits, and nothing else. -/
def RunsOn (a : Cells) : Prop :=
  ∃ spaces sign digits, a = spaces ++ (sign ++ digits) ∧ (∀ c ∈ spaces, isSpace c) ∧
    (sign = [] ∨ sign = ['-'] ∨ sign = ['+']) ∧ ∀ c ∈ digits, c.isDigit

variable {a dst src : Cells} {stop : Char → Bool}

theorem scan_eq (stop : Char → Bool) (a : Cells) :
    scan stop a = if a.any stop then some (a.takeWhile fun c => !stop c).length else none := by
  induction a with
  | nil => rfl
  | cons c a ih =>
    unfold scan
    by_cases hc : stop c = true
    · simp [hc]
    · rw [if_neg hc, ih]
      by_cases ha : a.any stop = true
      · simp [hc, ha]
      · simp [hc, ha]

theorem scan_append {x rest : Cells} {c : Char} (hx : ∀ d ∈ x, stop d = false) (hc : stop c = true) :
    scan stop (x ++ c :: rest) = some x.length := by
  induction x with
  | nil =>
    rw [List.nil_append, scan, if_pos hc]
    rfl
  | cons d x ih =>
    rw [List.cons_append, scan, hx d (by simp), if_neg (by decide), ih fun e he => hx e (by simp [he])]
    rfl

/-- `strchr` stops at the delimiter or at the terminator, whichever is first. -/
theorem strchr_append {x : Cells} (rest : Cells) {c d : Char} (hc : c ∉ x) (hnul : '\x00' ∉ x)
    (hd : d = c ∨ d = '\x00') :
    strchr (x ++ d :: rest) c = some (if d = c then some x.length else none) := by
  have hscan : strcspn (x ++ d :: rest) c = some x.length := by
    apply scan_append
    · intro e he
      have hec : e ≠ c := fun h => hc (h ▸ he)
      have hen : e ≠ '\x00' := fun h => hnul (h ▸ he)
      simp [hec, hen]
    · simpa using hd
  have hcell : (x ++ d :: rest)[x.length]? = some d := by simp
  rw [strchr, hscan, Option.map_some, hcell]
  simp only [Option.some_inj]

theorem strcpy_eq (dst src : Cells) : strcpy dst src =
    if '\x00' ∈ src ∧ (src.takeWhile (· ≠ '\x00')).length < dst.length then
      some (src.takeWhile (· ≠ '\x00') ++ '\x00' :: dst.drop ((src.takeWhile (· ≠ '\x00')).length + 1))
    else none := by
  induction src generalizing dst with
  | nil => cases dst <;> rfl
  | cons c src ih =>
    cases dst with
    | nil => simp [strcpy]
    | cons d dst =>
      unfold strcpy
      by_cases hc : c = '\x00'
      · simp [hc]
      · have hmem : '\x00' ∈ c :: src ↔ '\x00' ∈ src := by simp [Ne.symm hc]
        rw [if_neg hc, ih, List.takeWhile_cons_of_pos (by simp [hc])]
        simp only [hmem, List.length_cons, Nat.add_lt_add_iff_right]
        split_ifs <;> rfl

theorem strncpy_eq {n : ℕ} (hn : n ≤ src.length) (hnul : '\x00' ∉ src.take n) :
    strncpy dst src n = if n ≤ dst.length then some (src.take n ++ dst.drop n) else none := by
  induction n with
  | zero => simp [strncpy]
  | succ n ih =>
    have hsub : '\x00' ∉ src.take n := fun h => hnul (List.take_subset_take_left _ (Nat.le_succ n) h)
    have hcell : padded src n = some src[n] := by
      rw [padded, if_neg hsub, load, List.getElem?_eq_getElem hn]
    have ih := ih (by omega) hsub
    unfold strncpy
    rw [hcell]
    by_cases hlt : n < dst.length
    · have hlen : (src.take n).length = n := by
        rw [List.length_take]
        omega
      have hroom : n < (src.take n ++ dst.drop n).length := by
        rw [List.length_append, List.length_drop]
        omega
      have hset : (src.take n ++ dst.drop n).set n src[n] = src.take (n + 1) ++ dst.drop (n + 1) := by
        rw [List.set_append_right _ _ (by omega), hlen, Nat.sub_self, List.drop_eq_getElem_cons hlt,
          List.set_cons_zero, List.take_succ_eq_append_getElem hn, List.append_assoc, List.singleton_append]
      rw [ih, if_pos hlt.le, if_pos (Nat.succ_le_of_lt hlt)]
      simp only [Option.bind_eq_bind, Option.bind_some, store]
      rw [if_pos hroom, hset]
    · rw [if_neg (by omega)]
      by_cases hle : n ≤ dst.length
      · have hfull : ¬ n < (src.take n ++ dst.drop n).length := by
          rw [List.length_append, List.length_take, List.length_drop]
          omega
        rw [ih, if_pos hle]
        simp only [Option.bind_eq_bind, Option.bind_some, store]
        rw [if_neg hfull]
      · rw [ih, if_neg hle]
        rfl

/-- A string that is shorter than what is to be copied is filled up. -/
theorem strncpy_string {n : ℕ} {s : Cells} (rest : Cells) (hnul : '\x00' ∉ s) (hlt : s.length < n)
    (hn : n ≤ dst.length) :
    strncpy dst (s ++ '\x00' :: rest) n = some (s ++ List.replicate (n - s.length) '\x00' ++ dst.drop n) := by
  induction n with
  | zero => omega
  | succ n ih =>
    have hcell : padded (s ++ '\x00' :: rest) n = some '\x00' := by
      rcases Nat.lt_or_eq_of_le (Nat.le_of_lt_succ hlt) with hlt | rfl
      · obtain ⟨k, hk⟩ : ∃ k, n - s.length = k + 1 := Nat.exists_eq_succ_of_ne_zero (by omega)
        rw [padded, if_pos]
        rw [List.take_append, hk, List.take_succ_cons]
        simp
      · rw [padded, List.take_left, if_neg hnul, load, List.getElem?_append_right (le_refl _), Nat.sub_self]
        rfl
    have hcopy : strncpy dst (s ++ '\x00' :: rest) n =
        some (s ++ List.replicate (n - s.length) '\x00' ++ dst.drop n) := by
      rcases Nat.lt_or_eq_of_le (Nat.le_of_lt_succ hlt) with hlt | rfl
      · exact ih hlt (by omega)
      · rw [strncpy_eq (by simp) (by rw [List.take_left]; exact hnul), if_pos (by omega), List.take_left,
          Nat.sub_self, List.replicate_zero, List.append_nil]
    have hlen : (s ++ List.replicate (n - s.length) '\x00').length = n := by
      rw [List.length_append, List.length_replicate]
      omega
    have hroom : n < (s ++ List.replicate (n - s.length) '\x00' ++ dst.drop n).length := by
      rw [List.length_append, hlen, List.length_drop]
      omega
    unfold strncpy
    rw [hcopy, hcell]
    simp only [Option.bind_eq_bind, Option.bind_some, store]
    rw [if_pos hroom, List.set_append_right _ _ (by omega), hlen, Nat.sub_self, List.drop_eq_getElem_cons (by omega),
      List.set_cons_zero, Nat.succ_sub (by omega), List.replicate_succ']
    simp only [List.append_assoc, List.singleton_append]

theorem atoi_of_ne_none (h : a.atoi ≠ none) : a.atoi = some (CLib.atoi a) := by
  unfold atoi at h ⊢
  split_ifs at h ⊢
  · exact absurd rfl h
  · rfl

theorem atoi_eq_none_iff (a : Cells) : a.atoi = none ↔ RunsOn a := by
  have hdigit : a.atoi = none ↔ ∀ c ∈ behindSign (a.dropWhile isSpace), c.isDigit := by
    unfold atoi
    rw [← List.all_eq_true]
    split_ifs with h
    · exact iff_of_true rfl h
    · exact iff_of_false (by simp) h
  rw [hdigit]
  constructor
  · intro h
    have hsplit := a.takeWhile_append_dropWhile (p := isSpace)
    have hspaces : ∀ c ∈ a.takeWhile isSpace, isSpace c := fun c hc => List.mem_takeWhile_imp hc
    generalize a.dropWhile isSpace = rest at h hsplit
    cases rest with
    | nil => exact ⟨_, [], [], hsplit.symm, hspaces, .inl rfl, h⟩
    | cons c t =>
      by_cases hsign : c = '-' ∨ c = '+'
      · rw [behindSign, if_pos hsign] at h
        refine ⟨_, [c], t, hsplit.symm, hspaces, ?_, h⟩
        rcases hsign with rfl | rfl
        · exact .inr (.inl rfl)
        · exact .inr (.inr rfl)
      · rw [behindSign, if_neg hsign] at h
        exact ⟨_, [], c :: t, hsplit.symm, hspaces, .inl rfl, h⟩
  · rintro ⟨spaces, sign, digits, rfl, hspaces, hsign, hdigits⟩
    have hdrop : behindSign ((spaces ++ (sign ++ digits)).dropWhile isSpace) = digits := by
      rw [List.dropWhile_append_of_pos hspaces]
      rcases hsign with rfl | rfl | rfl
      · cases digits with
        | nil => rfl
        | cons d t =>
          obtain ⟨hsp, hm, hp, -⟩ := digit_facts (hdigits d (by simp))
          simp [behindSign, hsp, hm, hp]
      · simp [behindSign, isSpace]
      · simp [behindSign, isSpace]
    rw [hdrop]
    exact hdigits

end Cells

end CLib
