/-
The words of an inline request, and the quoted form of a string
(`sdssplitargs` and `sdscatrepr` of sds.c).

`splitFrom` is the loop of `sdssplitargs` with its flags `inq` and `insq`
as one state. Every byte has a quoted form without a terminator, and the
loop reads it back one byte at a time (`splitFrom_reprChar`), so vectors
of any bytes can be written on a line.
-/
import CrdtRedis.Wire

namespace CrdtRedis

open CString

-- ========================================================== sdssplitargs

/-- `is_hex_digit`. -/
def isHexDigit (c : Char) : Bool :=
  decide (('0' ≤ c ∧ c ≤ '9') ∨ ('a' ≤ c ∧ c ≤ 'f') ∨ ('A' ≤ c ∧ c ≤ 'F'))

/-- `hex_digit_to_int`. -/
def hexDigitToInt (c : Char) : ℕ :=
  if '0' ≤ c ∧ c ≤ '9' then c.toNat - '0'.toNat
  else if 'a' ≤ c ∧ c ≤ 'f' then c.toNat - 'a'.toNat + 10
  else if 'A' ≤ c ∧ c ≤ 'F' then c.toNat - 'A'.toNat + 10
  else 0

/-- The character an escape in double quotes stands for. -/
def unescape (c : Char) : Char :=
  match c with
  | 'n' => '\n'
  | 'r' => '\r'
  | 't' => '\t'
  | 'b' => '\x08'
  | 'a' => '\x07'
  | c => c

/-- Where the loop of `sdssplitargs` is: between arguments, in one, or in
one in quotes. -/
inductive Quoting
  | blanks | token | inq | insq
deriving DecidableEq

/-- A closing quote must be followed by a space or nothing at all. -/
def closes : Sds → Bool
  | [] => true
  | c :: _ => isSpace c

/-- The loop of `sdssplitargs`, with `current` and `vector`. -/
def splitFrom : Quoting → Sds → List Sds → Sds → Option (List Sds)
  | .blanks, _, vector, [] => some vector
  | .token, current, vector, [] => some (vector ++ [current])
  | .inq, _, _, [] => none
  | .insq, _, _, [] => none
  | .blanks, current, vector, c :: p =>
      if isSpace c then splitFrom .blanks current vector p
      else if c = '"' then splitFrom .inq [] vector p
      else if c = '\'' then splitFrom .insq [] vector p
      else splitFrom .token [c] vector p
  | .token, current, vector, c :: p =>
      if c = ' ' ∨ c = '\n' ∨ c = '\r' ∨ c = '\t' then
        splitFrom .blanks [] (vector ++ [current]) p
      else if c = '"' then splitFrom .inq current vector p
      else if c = '\'' then splitFrom .insq current vector p
      else splitFrom .token (current ++ [c]) vector p
  | .inq, current, vector, '\\' :: 'x' :: a :: b :: p =>
      if isHexDigit a && isHexDigit b then
        splitFrom .inq (current ++ [Char.ofNat (hexDigitToInt a * 16 + hexDigitToInt b)]) vector p
      else splitFrom .inq (current ++ ['x']) vector (a :: b :: p)
  | .inq, current, vector, '\\' :: c :: p => splitFrom .inq (current ++ [unescape c]) vector p
  | .inq, current, vector, c :: p =>
      if c = '"' then
        if closes p then splitFrom .blanks [] (vector ++ [current]) p else none
      else splitFrom .inq (current ++ [c]) vector p
  | .insq, current, vector, '\\' :: '\'' :: p => splitFrom .insq (current ++ ['\'']) vector p
  | .insq, current, vector, c :: p =>
      if c = '\'' then
        if closes p then splitFrom .blanks [] (vector ++ [current]) p else none
      else splitFrom .insq (current ++ [c]) vector p

/-- `sdssplitargs`, which reads up to the first terminator; `none` is
NULL. -/
def sdssplitargs (line : Sds) : Option (List Sds) :=
  splitFrom .blanks [] [] (line.takeWhile (· ≠ nul))

-- ============================================================ sdscatrepr

/-- `isprint`. -/
def isprint (c : Char) : Bool := decide (32 ≤ c.toNat ∧ c.toNat ≤ 126)

/-- One character as `sdscatrepr` writes it. -/
def reprChar (c : Char) : Sds :=
  match c with
  | '\\' => ['\\', '\\']
  | '"' => ['\\', '"']
  | '\n' => ['\\', 'n']
  | '\r' => ['\\', 'r']
  | '\t' => ['\\', 't']
  | '\x07' => ['\\', 'a']
  | '\x08' => ['\\', 'b']
  | c =>
      if isprint c then [c]
      else ['\\', 'x', Nat.digitChar (c.toNat / 16), Nat.digitChar (c.toNat % 16)]

/-- `sdscatrepr` on an empty string. -/
def sdscatrepr (s : Sds) : Sds := '"' :: s.flatMap reprChar ++ ['"']

theorem hexDigit_digitChar : ∀ d < 16,
    isHexDigit (Nat.digitChar d) = true ∧ hexDigitToInt (Nat.digitChar d) = d ∧
      Nat.digitChar d ≠ nul := by decide

variable {c : Char} {current p s : Sds} {vector : List Sds}

/-- In double quotes a character other than the two that are special there
stands for itself. -/
theorem splitFrom_plain (hc : c ≠ '\\' ∧ c ≠ '"') :
    splitFrom .inq current vector (c :: p) = splitFrom .inq (current ++ [c]) vector p := by
  rw [splitFrom, if_neg hc.2]
  · intro a b p' h
    exact absurd h hc.1
  · intro c' p' h
    exact absurd h hc.1

/-- What `sdscatrepr` writes of a byte is read as that byte. -/
theorem splitFrom_reprChar (hc : c.toNat < 256) :
    splitFrom .inq current vector (reprChar c ++ p) = splitFrom .inq (current ++ [c]) vector p := by
  unfold reprChar
  split
  case h_8 hs hq _ _ _ _ _ =>
      split
      · exact splitFrom_plain ⟨hs, hq⟩
      · have hhi : c.toNat / 16 < 16 := by omega
        have hlo : c.toNat % 16 < 16 := by omega
        have hval : c.toNat / 16 * 16 + c.toNat % 16 = c.toNat := by omega
        simp only [List.cons_append, List.nil_append]
        rw [splitFrom, (hexDigit_digitChar _ hhi).1, (hexDigit_digitChar _ hlo).1]
        simp only [Bool.and_self, if_true]
        rw [(hexDigit_digitChar _ hhi).2.1, (hexDigit_digitChar _ hlo).2.1, hval, Char.ofNat_toNat]
  all_goals rfl

theorem splitFrom_repr (hs : ∀ c ∈ s, c.toNat < 256) :
    splitFrom .inq current vector (s.flatMap reprChar ++ p)
      = splitFrom .inq (current ++ s) vector p := by
  induction s generalizing current with
  | nil => rw [List.flatMap_nil, List.nil_append, List.append_nil]
  | cons c s ih =>
      rw [List.flatMap_cons, List.append_assoc, splitFrom_reprChar (hs c List.mem_cons_self),
        ih fun d hd => hs d (List.mem_cons_of_mem c hd), List.append_assoc, List.singleton_append]

/-- No terminator is written. -/
theorem nul_not_mem_reprChar (hc : c.toNat < 256) : nul ∉ reprChar c := by
  unfold reprChar
  split
  case h_8 =>
      split
      · next hprint =>
          intro hmem
          rw [← List.mem_singleton.mp hmem] at hprint
          exact absurd hprint (by decide)
      · have hhi := (hexDigit_digitChar (c.toNat / 16) (by omega)).2.2
        have hlo := (hexDigit_digitChar (c.toNat % 16) (by omega)).2.2
        simp only [List.mem_cons, List.not_mem_nil, or_false, not_or]
        exact ⟨by decide, by decide, hhi.symm, hlo.symm⟩
  all_goals decide

/-- Arguments written with `sdscatrepr`, a blank behind each. -/
def quoteArgs (argv : List Sds) : Sds := argv.flatMap fun a => sdscatrepr a ++ [' ']

theorem splitFrom_quoteArgs {argv : List Sds} (h : ∀ a ∈ argv, ∀ c ∈ a, c.toNat < 256) :
    splitFrom .blanks [] vector (quoteArgs argv) = some (vector ++ argv) := by
  induction argv generalizing vector with
  | nil =>
      rw [List.append_nil]
      rfl
  | cons a argv ih =>
      have hopen : quoteArgs (a :: argv)
          = '"' :: (a.flatMap reprChar ++ '"' :: ' ' :: quoteArgs argv) := by
        simp [quoteArgs, sdscatrepr]
      have hclose : ∀ l : Sds, splitFrom .inq l vector ('"' :: ' ' :: quoteArgs argv)
          = splitFrom .blanks [] (vector ++ [l]) (quoteArgs argv) := by
        intro l
        rw [splitFrom, if_pos rfl]
        · rfl
        · intro a b p' heq
          exact absurd heq (by decide)
        · intro c' p' heq
          exact absurd heq (by decide)
      rw [hopen]
      show splitFrom .inq [] vector (a.flatMap reprChar ++ '"' :: ' ' :: quoteArgs argv) = _
      rw [splitFrom_repr (h a List.mem_cons_self), List.nil_append, hclose,
        ih fun b hb => h b (List.mem_cons_of_mem a hb), List.append_assoc, List.singleton_append]

theorem nul_not_mem_quoteArgs {argv : List Sds} (h : ∀ a ∈ argv, ∀ c ∈ a, c.toNat < 256) :
    nul ∉ quoteArgs argv := by
  intro hmem
  obtain ⟨a, ha, hmem⟩ := List.mem_flatMap.mp hmem
  simp only [sdscatrepr, List.mem_append, List.mem_cons, List.mem_flatMap, List.not_mem_nil,
    or_false] at hmem
  rcases hmem with ((hmem | ⟨c, hc, hmem⟩) | hmem) | hmem
  · exact absurd hmem (by decide)
  · exact nul_not_mem_reprChar (h a ha c hc) hmem
  · exact absurd hmem (by decide)
  · exact absurd hmem (by decide)

/-- The words `sdscatrepr` quotes are the words `sdssplitargs` reads. -/
theorem sdssplitargs_quoteArgs {argv : List Sds} (h : ∀ a ∈ argv, ∀ c ∈ a, c.toNat < 256) :
    sdssplitargs (quoteArgs argv) = some argv := by
  have hall : ∀ c ∈ quoteArgs argv, decide (c ≠ nul) = true := by
    intro c hc
    rw [decide_eq_true_eq]
    rintro rfl
    exact nul_not_mem_quoteArgs h hc
  unfold sdssplitargs
  rw [List.takeWhile_eq_self_iff.mpr hall, splitFrom_quoteArgs h, List.nil_append]

theorem sdssplitargs_quoteArgs_bytes :
    sdssplitargs (quoteArgs [['a', ' ', '"', '\\'], [], ['\n', nul, Char.ofNat 255]])
      = some [['a', ' ', '"', '\\'], [], ['\n', nul, Char.ofNat 255]] := by
  refine sdssplitargs_quoteArgs ?_
  simp only [List.forall_mem_cons, List.not_mem_nil, false_implies, implies_true, and_true]
  decide

end CrdtRedis
