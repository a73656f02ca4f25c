import Mathlib.Data.List.Basic
import Mathlib.Data.List.TakeWhile
import Mathlib.Data.Nat.Digits.Defs

/-! C strings as the characters before the terminating NUL, with the part of
`string.h`, `stdio.h` and `stdlib.h` that message formats are written with. -/

namespace CLib

abbrev CString := List Char

/-- Length of the initial segment of `s` that does not contain `c`. -/
def strcspn (s : CString) (c : Char) : ℕ := (s.takeWhile (· != c)).length

/-- What `snprintf` leaves in a buffer of `size` bytes: the formatted text cut
so that the terminator fits. -/
def snprintf (size : ℕ) (text : CString) : CString := text.take (size - 1)

/-- `%d`. -/
def fmtInt (n : ℤ) : CString :=
  if n < 0 then '-' :: Nat.toDigits 10 n.natAbs else Nat.toDigits 10 n.natAbs

def isSpace (c : Char) : Bool :=
  c = ' ' || c = '\t' || c = '\n' || c = '\r' || c = '\x0b' || c = '\x0c'

def digitsVal (s : CString) : ℤ := Nat.ofDigitChars 10 (s.takeWhile Char.isDigit) 0

/-- `atoi` reads as many digits as it finds. A value outside `int` is undefined
in C; here it is read exactly. -/
def atoi (s : CString) : ℤ :=
  match s.dropWhile isSpace with
  | [] => 0
  | c :: t =>
    if c = '-' then -digitsVal t else if c = '+' then digitsVal t else digitsVal (c :: t)

/-- `fscanf` with `%d` fails where it finds no digit. -/
def scanInt (s : CString) : Option ℤ :=
  match s.dropWhile isSpace with
  | [] => none
  | c :: t =>
    let digits := if c = '-' || c = '+' then t else c :: t
    if digits.head?.any Char.isDigit then some (atoi s) else none

theorem snprintf_of_lt {size : ℕ} {text : CString} (h : text.length < size) :
    snprintf size text = text :=
  List.take_of_length_le (by omega)

theorem strcspn_le (s : CString) (c : Char) : strcspn s c ≤ s.length :=
  (List.takeWhile_prefix _).length_le

theorem strcspn_append {s : CString} {c : Char} (h : c ∉ s) (t : CString) :
    strcspn (s ++ c :: t) c = s.length := by
  have hs : ∀ a ∈ s, (a != c) = true := fun a ha => by
    simpa using fun e : a = c => h (e ▸ ha)
  simp [strcspn, List.takeWhile_append_of_pos hs]

theorem exists_takeWhile_split {p : Char → Bool} {s : CString} (h : (s.takeWhile p).length < s.length) :
    ∃ c rest, p c = false ∧ s = s.takeWhile p ++ c :: rest := by
  cases hd : s.dropWhile p with
  | nil =>
    have hlen := congrArg List.length (s.takeWhile_append_dropWhile (p := p))
    rw [hd, List.append_nil] at hlen
    omega
  | cons c rest =>
    refine ⟨c, rest, ?_, ?_⟩
    · have hhead := List.head_dropWhile_not p (l := s) (by simp [hd])
      simpa [hd] using hhead
    · rw [← hd, List.takeWhile_append_dropWhile]

/-- A text is cut at the first character of a kind in one way only. -/
theorem append_cons_inj {P : Char → Prop} {s s' rest rest' : CString} {c c' : Char}
    (hs : ∀ d ∈ s, ¬ P d) (hc : P c) (hs' : ∀ d ∈ s', ¬ P d) (hc' : P c')
    (h : s ++ c :: rest = s' ++ c' :: rest') : s = s' ∧ c = c' ∧ rest = rest' := by
  induction s generalizing s' with
  | nil =>
    cases s' with
    | nil => simpa using h
    | cons d s' =>
      obtain ⟨rfl, -⟩ := List.cons.inj h
      exact absurd hc (hs' c (by simp))
  | cons d s ih =>
    cases s' with
    | nil =>
      obtain ⟨rfl, -⟩ := List.cons.inj h
      exact absurd hc' (hs d (by simp))
    | cons d' s' =>
      obtain ⟨rfl, htail⟩ := List.cons.inj h
      obtain ⟨rfl, hrest⟩ := ih (fun e he => hs e (by simp [he])) (fun e he => hs' e (by simp [he])) htail
      exact ⟨rfl, hrest⟩

theorem take_strcspn (s : CString) (c : Char) : s.take (strcspn s c) = s.takeWhile (· != c) :=
  (List.prefix_iff_eq_take.mp (List.takeWhile_prefix _)).symm

theorem notMem_take_strcspn (s : CString) (c : Char) : c ∉ s.take (strcspn s c) := by
  rw [take_strcspn]
  exact fun h => by simpa using List.mem_takeWhile_imp h

/-- Behind the segment the string goes on with the character, unless it ends. -/
theorem take_strcspn_append {s : CString} {c : Char} (h : strcspn s c < s.length) :
    s = s.take (strcspn s c) ++ c :: s.drop (strcspn s c + 1) := by
  obtain ⟨d, rest, hd, hs⟩ := exists_takeWhile_split h
  obtain rfl : d = c := by simpa using hd
  have hdrop : s.drop (strcspn s d + 1) = rest := by
    calc s.drop (strcspn s d + 1)
        = (s.takeWhile (· != d) ++ d :: rest).drop (strcspn s d + 1) := congrArg (List.drop _) hs
      _ = rest := by simp [strcspn]
  rw [take_strcspn, hdrop]
  exact hs

theorem takeWhile_digits {l rest : CString} (hl : ∀ c ∈ l, c.isDigit)
    (hr : ∀ c ∈ rest.head?, ¬ c.isDigit) : (l ++ rest).takeWhile Char.isDigit = l := by
  rw [List.takeWhile_append_of_pos hl]
  cases rest with
  | nil => simp
  | cons c t =>
    have hc : ¬ c.isDigit := hr c rfl
    simp [hc]

theorem isDigit_toDigits (n : ℕ) : ∀ c ∈ Nat.toDigits 10 n, c.isDigit :=
  fun _ hc => Nat.isDigit_of_mem_toDigits (by decide) (by decide) hc

theorem digitsVal_toDigits (n : ℕ) {rest : CString} (hr : ∀ c ∈ rest.head?, ¬ c.isDigit) :
    digitsVal (Nat.toDigits 10 n ++ rest) = n := by
  rw [digitsVal, takeWhile_digits (isDigit_toDigits n) hr, Nat.ofDigitChars_ten_toDigits]

theorem digit_facts {c : Char} (h : c.isDigit) :
    isSpace c = false ∧ c ≠ '-' ∧ c ≠ '+' ∧ c ≠ ',' := by
  refine ⟨?_, ?_, ?_, ?_⟩
  · by_contra hs
    simp only [isSpace, Bool.not_eq_false, Bool.or_eq_true, decide_eq_true_eq] at hs
    rcases hs with ((((rfl | rfl) | rfl) | rfl) | rfl) | rfl <;> exact absurd h (by decide)
  all_goals rintro rfl; exact absurd h (by decide)

/-- `atoi` undoes `%d` up to whatever follows the number. -/
theorem atoi_fmtInt_append (n : ℤ) {rest : CString} (hr : ∀ c ∈ rest.head?, ¬ c.isDigit) :
    atoi (fmtInt n ++ rest) = n := by
  unfold fmtInt
  split_ifs with hn
  · have hsp : isSpace '-' = false := by decide
    simp only [atoi, List.cons_append, List.dropWhile_cons, hsp, Bool.false_eq_true, if_false, if_true]
    rw [digitsVal_toDigits _ hr]
    omega
  · obtain ⟨c, t, hct⟩ := List.exists_cons_of_ne_nil (Nat.toDigits_ne_nil (n := n.natAbs) (b := 10))
    have hc : c.isDigit := isDigit_toDigits n.natAbs c (by rw [hct]; simp)
    obtain ⟨hsp, hm, hp, -⟩ := digit_facts hc
    have hval : digitsVal (c :: (t ++ rest)) = n.natAbs := by
      rw [← List.cons_append, ← hct, digitsVal_toDigits _ hr]
    simp only [atoi, hct, List.cons_append, List.dropWhile_cons, hsp, Bool.false_eq_true, if_false,
      hm, hp, hval]
    omega

theorem le_ofDigitChars (l : CString) (init : ℕ) : init ≤ Nat.ofDigitChars 10 l init := by
  rw [Nat.ofDigitChars_eq_ofDigitChars_zero]
  calc init ≤ 10 ^ l.length * init := Nat.le_mul_of_pos_left _ (Nat.pow_pos (by decide))
    _ ≤ _ := Nat.le_add_right _ _

/-- With another digit behind it the number is read as a larger one. -/
theorem lt_atoi_fmtInt_digit {n : ℤ} (hn : 1 ≤ n) {c : Char} (hc : c.isDigit) (rest : CString) :
    n < atoi (fmtInt n ++ c :: rest) := by
  obtain ⟨d, t, hdt⟩ := List.exists_cons_of_ne_nil (Nat.toDigits_ne_nil (n := n.natAbs) (b := 10))
  have hd : d.isDigit := isDigit_toDigits n.natAbs d (by rw [hdt]; simp)
  obtain ⟨hsp, hm, hp, -⟩ := digit_facts hd
  have hval : atoi (fmtInt n ++ c :: rest) = digitsVal (Nat.toDigits 10 n.natAbs ++ c :: rest) := by
    simp only [atoi, fmtInt, if_neg (show ¬ n < 0 by omega), hdt, List.cons_append, List.dropWhile_cons,
      hsp, Bool.false_eq_true, if_false, hm, hp]
  rw [hval, digitsVal, List.takeWhile_append_of_pos (isDigit_toDigits _), List.takeWhile_cons_of_pos hc,
    Nat.ofDigitChars_append, Nat.ofDigitChars_ten_toDigits, Nat.ofDigitChars_cons]
  have hle := le_ofDigitChars (rest.takeWhile Char.isDigit) (10 * n.natAbs + (c.toNat - '0'.toNat))
  omega

theorem atoi_fmtInt (n : ℤ) : atoi (fmtInt n) = n := by
  have h := @atoi_fmtInt_append n [] (by simp)
  rwa [List.append_nil] at h

/-- `fscanf` reads what `fprintf` has written. -/
theorem scanInt_fmtInt (n : ℤ) : scanInt (fmtInt n) = some n := by
  obtain ⟨c, t, hct⟩ := List.exists_cons_of_ne_nil (Nat.toDigits_ne_nil (n := n.natAbs) (b := 10))
  have hc : c.isDigit := isDigit_toDigits n.natAbs c (by rw [hct]; simp)
  obtain ⟨hsp, hm, hp, -⟩ := digit_facts hc
  have hval := atoi_fmtInt n
  unfold scanInt
  rw [hval]
  unfold fmtInt
  split_ifs with hn
  · have hmin : isSpace '-' = false := by decide
    simp [hct, hmin, hc]
  · simp [hct, hsp, hm, hp, hc]

theorem comma_not_mem_fmtInt (n : ℤ) : ',' ∉ fmtInt n := by
  have hd : ',' ∉ Nat.toDigits 10 n.natAbs := fun h =>
    (digit_facts (isDigit_toDigits _ _ h)).2.2.2 rfl
  unfold fmtInt
  split_ifs
  · simpa using hd
  · exact hd

theorem length_fmtInt_le {n : ℤ} (h0 : 0 ≤ n) {k : ℕ} (hk : 0 < k) (h : n < 10 ^ k) :
    (fmtInt n).length ≤ k := by
  rw [fmtInt, if_neg (by omega), Nat.length_toDigits_le_iff (by decide) hk]
  zify
  rwa [abs_of_nonneg h0]

end CLib
