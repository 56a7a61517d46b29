/-
Strings as C code reads and prints them, for decimal text.

A pointer into a string is the rest of the string from there on; the
terminator stands behind it, so the character under a pointer at the end
is NUL, and a scan that runs past it has no defined outcome (`none`).

`printInt` is the conversion `%d`. `readInt` is what `strtol` and the `%d`
of `sscanf` do: white space, a sign, digits. What was printed is read
back, and the pointer stands behind it, whatever follows that is no digit
(`readInt_print`). `strchr` looks for a character up to the terminator.
-/
import Mathlib.Data.List.Basic
import Mathlib.Data.List.Induction
import Mathlib.Order.Lattice
import Mathlib.Algebra.Order.Ring.Int

namespace CString

/-- The values of an `int` of 32 bits. -/
def IsInt (v : ℤ) : Prop := -2 ^ 31 ≤ v ∧ v < 2 ^ 31

instance : DecidablePred IsInt := fun _ => inferInstanceAs (Decidable (_ ∧ _))

/-- The terminator. -/
def nul : Char := Char.ofNat 0

-- ============================================================ printing

/-- `%d`. -/
def printInt : ℤ → List Char
  | .ofNat m => Nat.toDigits 10 m
  | .negSucc m => '-' :: Nat.toDigits 10 (m + 1)

/-- The characters of a number. -/
def isNumeral (c : Char) : Bool := c.isDigit || c == '-'

theorem isNumeral_of_mem_printInt {v : ℤ} {c : Char} (h : c ∈ printInt v) :
    isNumeral c = true := by
  have hdigit : ∀ {m : ℕ}, c ∈ Nat.toDigits 10 m → isNumeral c = true := by
    intro m hm
    simp [isNumeral, Nat.isDigit_of_mem_toDigits (by decide) (by decide) hm]
  cases v with
  | ofNat m => exact hdigit h
  | negSucc m =>
      rcases List.mem_cons.mp h with rfl | h
      · decide
      · exact hdigit h

-- ============================================================= reading

/-- `isspace`. -/
def isSpace (c : Char) : Bool := c.toNat == 32 || decide (9 ≤ c.toNat ∧ c.toNat ≤ 13)

/-- Digits, at least one. -/
def readNat (s : List Char) : Option (ℕ × List Char) :=
  if s.takeWhile Char.isDigit = [] then none
  else some (Nat.ofDigitChars 10 (s.takeWhile Char.isDigit) 0, s.dropWhile Char.isDigit)

/-- A decimal number, and the pointer behind it. -/
def readInt (s : List Char) : Option (ℤ × List Char) :=
  match s.dropWhile isSpace with
  | '-' :: s => (readNat s).map fun p => (-(p.1 : ℤ), p.2)
  | '+' :: s => (readNat s).map fun p => ((p.1 : ℤ), p.2)
  | s => (readNat s).map fun p => ((p.1 : ℤ), p.2)

/-- A number as `strtol` returns it and an `int` keeps it: clipped to a
`long` of 64 bits, then cut to 32. -/
def asInt (v : ℤ) : ℤ := Int.bmod (max (-2 ^ 63) (min v (2 ^ 63 - 1))) (2 ^ 32)

/-- `atoi`. -/
def atoi (s : List Char) : ℤ :=
  match readInt s with
  | none => 0
  | some (v, _) => asInt v

/-- `while (!stop(*p)) p++`. -/
def skipTo (stop : Char → Bool) : List Char → Option (List Char)
  | [] => if stop nul then some [] else none
  | c :: s => if stop c then some (c :: s) else skipTo stop s

theorem asInt_of_isInt {v : ℤ} (h : IsInt v) : asInt v = v := by
  obtain ⟨hlo, hhi⟩ := h
  have hclip : max (-2 ^ 63) (min v (2 ^ 63 - 1)) = v := by omega
  rw [asInt, hclip, Int.bmod_def]
  omega

variable {v : ℤ} {rest s l : List Char} {stop : Char → Bool}

theorem readNat_toDigits (m : ℕ) (hrest : ∀ c ∈ rest.head?, c.isDigit = false) :
    readNat (Nat.toDigits 10 m ++ rest) = some (m, rest) := by
  have hdigits : ∀ c ∈ Nat.toDigits 10 m, c.isDigit = true :=
    fun c hc => Nat.isDigit_of_mem_toDigits (by decide) (by decide) hc
  have hnone : rest.takeWhile Char.isDigit = [] ∧ rest.dropWhile Char.isDigit = rest := by
    cases rest with
    | nil => exact ⟨rfl, rfl⟩
    | cons c rest => simp [hrest c rfl]
  have htake : (Nat.toDigits 10 m ++ rest).takeWhile Char.isDigit = Nat.toDigits 10 m := by
    rw [List.takeWhile_append_of_pos hdigits, hnone.1, List.append_nil]
  have hdrop : (Nat.toDigits 10 m ++ rest).dropWhile Char.isDigit = rest := by
    rw [List.dropWhile_append_of_pos hdigits, hnone.2]
  unfold readNat
  rw [htake, hdrop, if_neg Nat.toDigits_ne_nil,
    Nat.ofDigitChars_toDigits (by decide) (by decide)]

/-- The number a printed one is read as, up to what follows. -/
theorem readInt_print (v : ℤ) (hrest : ∀ c ∈ rest.head?, c.isDigit = false) :
    readInt (printInt v ++ rest) = some (v, rest) := by
  cases v with
  | negSucc m =>
      have hspace : ((printInt (.negSucc m)) ++ rest).dropWhile isSpace
          = '-' :: (Nat.toDigits 10 (m + 1) ++ rest) := rfl
      unfold readInt
      rw [hspace]
      simp only [readNat_toDigits (m + 1) hrest, Option.map_some]
      rfl
  | ofNat m =>
      -- the first character is a digit: neither space nor sign
      obtain ⟨c, cs, hcons⟩ := List.exists_cons_of_ne_nil (Nat.toDigits_ne_nil (b := 10) (n := m))
      have hdigit : c.isDigit = true :=
        Nat.isDigit_of_mem_toDigits (b := 10) (n := m) (by decide) (by decide)
          (by rw [hcons]; exact List.mem_cons_self)
      have hspace : isSpace c = false := by
        simp only [Char.isDigit, Bool.and_eq_true, decide_eq_true_eq] at hdigit
        have hlo : 48 ≤ c.toNat := hdigit.1
        simp only [isSpace, Bool.or_eq_false_iff, beq_eq_false_iff_ne, decide_eq_false_iff_not]
        omega
      have hread := readNat_toDigits m hrest
      have htext : printInt (.ofNat m) ++ rest = c :: (cs ++ rest) := by
        show Nat.toDigits 10 m ++ rest = _
        rw [hcons, List.cons_append]
      rw [hcons, List.cons_append] at hread
      unfold readInt
      rw [htext, List.dropWhile_cons_of_neg (by simp [hspace])]
      split
      · next heq =>
          obtain ⟨rfl, -⟩ := List.cons.inj heq
          exact absurd hdigit (by decide)
      · next heq =>
          obtain ⟨rfl, -⟩ := List.cons.inj heq
          exact absurd hdigit (by decide)
      · rw [hread]
        rfl

theorem atoi_printInt (v : ℤ) (hrest : ∀ c ∈ rest.head?, c.isDigit = false) :
    atoi (printInt v ++ rest) = asInt v := by
  unfold atoi
  rw [readInt_print v hrest]

-- ============================================================ scanning

theorem skipTo_append (h : ∀ c ∈ l, stop c = false) : skipTo stop (l ++ s) = skipTo stop s := by
  induction l with
  | nil => rfl
  | cons c l ih =>
      rw [List.cons_append, skipTo, h c List.mem_cons_self]
      exact ih fun d hd => h d (List.mem_cons_of_mem c hd)

/-- A scan for a character that no number has passes over a number. -/
theorem skipTo_print (hstop : ∀ c, isNumeral c = true → stop c = false) (v : ℤ) :
    skipTo stop (printInt v ++ s) = skipTo stop s :=
  skipTo_append fun c hc => hstop c (isNumeral_of_mem_printInt hc)

theorem length_skipTo (h : skipTo stop s = some l) : l.length ≤ s.length := by
  induction s with
  | nil =>
      unfold skipTo at h
      split at h
      · rw [← Option.some.inj h]
      · cases h
  | cons c s ih =>
      unfold skipTo at h
      split at h
      · rw [← Option.some.inj h]
      · exact (ih h).trans (Nat.le_succ _)

-- ========================================================== searching

/-- `strchr` for a character that is no terminator. -/
def strchr (c : Char) : List Char → Option ℕ
  | [] => none
  | d :: s => if d = c then some 0 else if d = nul then none else (strchr c s).map (· + 1)

variable {c : Char} {i : ℕ}

theorem strchr_lt (h : strchr c s = some i) : i < s.length := by
  induction s generalizing i with
  | nil => cases h
  | cons d s ih =>
      simp only [strchr] at h
      split at h
      · rw [← Option.some.inj h, List.length_cons]
        omega
      · split at h
        · cases h
        · obtain ⟨j, hj, rfl⟩ := Option.map_eq_some_iff.mp h
          rw [List.length_cons]
          have hlt := ih hj
          omega

theorem strchr_append (h : strchr c l = some i) : strchr c (l ++ s) = some i := by
  induction l generalizing i with
  | nil => cases h
  | cons d l ih =>
      simp only [List.cons_append, strchr] at h ⊢
      split at h
      · next hd => rw [if_pos hd, h]
      · next hd =>
          split at h
          · cases h
          · next hnul =>
              obtain ⟨j, hj, rfl⟩ := Option.map_eq_some_iff.mp h
              rw [if_neg hd, if_neg hnul, ih hj, Option.map_some]

theorem strchr_get (h : strchr c s = some i) : s[i]? = some c := by
  induction s generalizing i with
  | nil => cases h
  | cons d s ih =>
      simp only [strchr] at h
      split at h
      · next hd => rw [← Option.some.inj h, hd, List.getElem?_cons_zero]
      · split at h
        · cases h
        · obtain ⟨j, hj, rfl⟩ := Option.map_eq_some_iff.mp h
          rw [List.getElem?_cons_succ]
          exact ih hj

/-- A text without the character is passed over. -/
theorem strchr_skip (h : ∀ d ∈ l, d ≠ c ∧ d ≠ nul) :
    strchr c (l ++ s) = (strchr c s).map (l.length + ·) := by
  induction l with
  | nil => simp
  | cons d l ih =>
      obtain ⟨hd, hnul⟩ := h d List.mem_cons_self
      rw [List.cons_append, strchr, if_neg hd, if_neg hnul,
        ih fun e he => h e (List.mem_cons_of_mem d he), Option.map_map]
      congr 1
      funext j
      simp only [Function.comp_apply, List.length_cons]
      omega

-- ============================================================== decimals

theorem eq_digitChar {c : Char} (h : c.isDigit = true) :
    c.toNat - '0'.toNat < 10 ∧ c = Nat.digitChar (c.toNat - '0'.toNat) := by
  obtain ⟨hlo, hhi⟩ := Char.isDigit_iff_toNat.mp h
  have hzero : '0'.toNat = 48 := rfl
  have hnine : '9'.toNat = 57 := rfl
  have hlt : c.toNat - '0'.toNat < 10 := by omega
  refine ⟨hlt, Char.toNat_inj.mp ?_⟩
  rw [Nat.toNat_digitChar_of_lt_ten hlt]
  omega

/-- Digits that do not begin with a zero are the ones their value is
printed with. -/
theorem toDigits_ofDigitChars {l : List Char} (hne : l ≠ []) (hdigit : ∀ c ∈ l, c.isDigit = true)
    (hhead : l.head? ≠ some '0') : Nat.toDigits 10 (Nat.ofDigitChars 10 l 0) = l := by
  induction l using List.reverseRecOn with
  | nil => exact absurd rfl hne
  | append_singleton l c ih =>
      obtain ⟨hlt, hc⟩ := eq_digitChar (hdigit c (List.mem_append_right _ List.mem_cons_self))
      have hlast : Nat.toDigits 10 (c.toNat - '0'.toNat) = [c] := by
        rw [Nat.toDigits_of_lt_base hlt, ← hc]
      rw [Nat.ofDigitChars_append, Nat.ofDigitChars_cons, Nat.ofDigitChars_nil]
      by_cases hl : l = []
      · subst hl
        rw [Nat.ofDigitChars_nil, Nat.mul_zero, Nat.zero_add]
        exact hlast
      · have hl? : l.head? ≠ some '0' := by
          rwa [List.head?_append_of_ne_nil l hl] at hhead
        have hval := ih hl (fun d hd => hdigit d (List.mem_append_left _ hd)) hl?
        have hpos : 0 < Nat.ofDigitChars 10 l 0 := by
          refine Nat.pos_of_ne_zero fun hzero => hl? ?_
          rw [← hval, hzero, Nat.toDigits_zero]
          rfl
        rw [← Nat.toDigits_append_toDigits (by decide) hpos hlt, hval, hlast]

/-- A number that is not zero is printed without a zero in front. -/
theorem head_toDigits {m : ℕ} (hm : 0 < m) : (Nat.toDigits 10 m).head? ≠ some '0' := by
  induction m using Nat.strong_induction_on with
  | _ m ih =>
      by_cases hlt : m < 10
      · rw [Nat.toDigits_of_lt_base hlt]
        intro heq
        have hzero : (Nat.digitChar m).toNat = '0'.toNat :=
          congrArg Char.toNat (Option.some.inj heq)
        rw [Nat.toNat_digitChar_of_lt_ten hlt] at hzero
        have : '0'.toNat = 48 := rfl
        omega
      · rw [Nat.toDigits_of_base_le (by decide) (by omega),
          List.head?_append_of_ne_nil _ Nat.toDigits_ne_nil]
        exact ih _ (by omega) (by omega)

end CString
