/-
The text of counted requests, and a reader that takes it in.

`encode` writes a vector as a count and arguments behind their lengths.
The statement that goes through the reader's functions is about a moment
in the middle of a stream: the unread rest and what is still under way
make up the text of the vectors that are to come (`Expects`). Reading
executes a front part of these and leaves a reader that expects the
others (`run_owes`), whatever was under way when the reading began; when
nothing is, they were all executed (`Expects.done`). A reader that waits
keeps less than one argument and one line (`Waits`), so its rest does not
grow with the stream.
-/
import CrdtRedis.Data.Request

namespace Request

open CString

-- ============================================================ encoding

/-- The end of a line. -/
def crlf : Text := ['\r', '\n']

/-- A number as a line after its mark. -/
def header (mark : Char) (k : ℕ) : Text := mark :: Nat.toDigits 10 k

/-- An argument: its length, then itself. -/
def encodeArg (a : Text) : Text := header '$' a.length ++ crlf ++ (a ++ crlf)

/-- A vector: its count, then the arguments. -/
def encode (argv : List Text) : Text := header '*' argv.length ++ crlf ++ argv.flatMap encodeArg

/-- The format reads back what is written of counts and lengths within
its limits, and waits for the lines that announce them. -/
structure Format.Reads (F : Format) : Prop where
  number : ∀ k : ℕ, (k : ℤ) ≤ F.maxCount ∨ k ≤ F.maxBulk →
    F.number (Nat.toDigits 10 k) = some (k : ℤ)
  short : ∀ k : ℕ, (k : ℤ) ≤ F.maxCount ∨ k ≤ F.maxBulk →
    (Nat.toDigits 10 k).length < F.maxLine

/-- The vectors within the limits of a format. -/
structure Format.Fits (F : Format) (argv : List Text) : Prop where
  ne : argv ≠ []
  count : (argv.length : ℤ) ≤ F.maxCount
  len : ∀ a ∈ argv, a.length ≤ F.maxBulk
  stays : F.quits argv = false

theorem header_plain {mark c : Char} {k : ℕ} (hmark : mark ≠ '\r' ∧ mark ≠ nul)
    (hc : c ∈ header mark k) : c ≠ '\r' ∧ c ≠ nul := by
  rcases List.mem_cons.mp hc with rfl | hc
  · exact hmark
  · have hdigit := Nat.isDigit_of_mem_toDigits (by decide) (by decide) hc
    constructor
    · rintro rfl
      exact absurd hdigit (by decide)
    · rintro rfl
      exact absurd hdigit (by decide)

/-- How much of a line is there. -/
theorem line_cases {h s b t : Text} (hplain : ∀ c ∈ h, c ≠ '\r' ∧ c ≠ nul)
    (heq : s ++ b = h ++ crlf ++ t) :
    b ≠ [] ∧ (line s = .endless ∧ s.length ≤ h.length ∨
        line s = .cut ∧ s.length ≤ h.length + 1) ∨
      ∃ s', line s = .whole h s' ∧ s' ++ b = t := by
  have hopen : ∀ l : Text, (∀ c ∈ l, c ≠ '\r' ∧ c ≠ nul) → line l = .endless := by
    intro l hl
    have hnone := strchr_skip (s := []) hl
    rw [List.append_nil] at hnone
    unfold line
    rw [hnone]
    rfl
  rw [List.append_assoc] at heq
  rcases List.append_eq_append_iff.mp heq with ⟨a, rfl, rfl⟩ | ⟨a, rfl, ha⟩
  · have hs := hopen s fun c hc => hplain c (List.mem_append_left _ hc)
    refine Or.inl ⟨by simp [crlf], Or.inl ⟨hs, ?_⟩⟩
    rw [List.length_append]
    omega
  · have hchr : strchr '\r' (h ++ a) = (strchr '\r' a).map (h.length + ·) := strchr_skip hplain
    unfold line
    cases a with
    | nil =>
        refine Or.inl ⟨?_, Or.inl ⟨?_, ?_⟩⟩
        · rintro rfl
          cases ha
        · rw [hchr]
          rfl
        · rw [List.append_nil]
    | cons c a =>
        obtain ⟨rfl, ha₁⟩ := List.cons.inj ha
        have hat : strchr '\r' (h ++ '\r' :: a) = some h.length := by
          rw [hchr]
          rfl
        rw [hat]
        cases a with
        | nil =>
            refine Or.inl ⟨?_, Or.inr ⟨?_, ?_⟩⟩
            · rintro rfl
              cases ha₁
            · simp
            · simp
        | cons d a =>
            obtain ⟨rfl, ha₂⟩ := List.cons.inj ha₁
            refine Or.inr ⟨a, ?_, ha₂.symm⟩
            simp only [List.length_append, List.length_cons, List.take_left']
            rw [if_neg (by omega)]
            congr 1
            rw [show h ++ '\r' :: '\n' :: a = (h ++ ['\r', '\n']) ++ a by simp]
            rw [show h.length + 2 = (h ++ ['\r', '\n']).length by simp]
            exact List.drop_left

namespace Parser

variable {F : Format} {p q : Parser} {m : ℕ} {b : Text} {vs : List (List Text)}

/-- The text from the unread rest on, for the vectors that are to come. -/
inductive Owes : Parser → List (List Text) → Text → Prop
  | fresh {p : Parser} {vs : List (List Text)} (hmiss : p.missing = 0) (hbulk : p.bulk = none)
      (hargv : p.argv = []) (hkind : p.kind ≠ some .inline) : Owes p vs (vs.flatMap encode)
  | args {p : Parser} {more : List Text} {vs : List (List Text)} (hne : more ≠ [])
      (hmiss : p.missing = more.length) (hbulk : p.bulk = none) (hkind : p.kind = some .multibulk) :
      Owes p ((p.argv ++ more) :: vs) (more.flatMap encodeArg ++ vs.flatMap encode)
  | arg {p : Parser} {a : Text} {more : List Text} {vs : List (List Text)}
      (hmiss : p.missing = more.length + 1) (hbulk : p.bulk = some a.length)
      (hkind : p.kind = some .multibulk) :
      Owes p ((p.argv ++ a :: more) :: vs)
        (a ++ crlf ++ (more.flatMap encodeArg ++ vs.flatMap encode))

/-- The receiver executes `vs` if it receives `b`. -/
structure Expects (F : Format) (p : Parser) (vs : List (List Text)) (b : Text) : Prop where
  running : p.stop = none
  fits : ∀ v ∈ vs, F.Fits v
  owes : p.Owes vs (p.rest ++ b)

/-- A receiver that waits: something is missing, and little is kept. -/
structure Waits (F : Format) (p : Parser) (b : Text) : Prop where
  more : b ≠ []
  bound : p.rest.length ≤ F.maxBulk + F.maxLine + 1

theorem lenOf_header (hF : F.Reads) {k : ℕ} (hk : k ≤ F.maxBulk) :
    lenOf F (header '$' k) = .ok k := by
  unfold lenOf header
  rw [if_neg (by simp), List.tail_cons, hF.number k (Or.inr hk)]
  simp only
  rw [if_neg (by omega), Int.toNat_natCast]

theorem countOf_header (hF : F.Reads) {k : ℕ} (hk : (k : ℤ) ≤ F.maxCount) :
    countOf F (header '*' k) = .ok k := by
  unfold countOf header
  rw [List.tail_cons, hF.number k (Or.inl hk)]
  simp only
  rw [if_neg (by omega), Int.toNat_natCast]

/-- The outcome of reading arguments: all of them, or a wait. -/
def Outcome (F : Format) (argv : List Text) (vs : List (List Text)) (b : Text)
    (r : Parser × Bool) : Prop :=
  r.1.stop = none ∧ r.1.kind = some .multibulk ∧
    if r.2 then r.1.argv = argv ∧ r.1.rest ++ b = vs.flatMap encode
    else r.1.Owes (argv :: vs) (r.1.rest ++ b) ∧ Waits F r.1 b

/-- An argument whose length is known is taken, or waited for. -/
theorem takeBulk_owes {a t : Text} (htext : p.rest ++ b = a ++ crlf ++ t) :
    p.takeBulk a.length = none ∧ b ≠ [] ∧ p.rest.length ≤ a.length + 1 ∨
      ∃ s, s ++ b = t ∧ p.takeBulk a.length = some { p with
        rest := s, missing := p.missing - 1, bulk := none, argv := p.argv ++ [a] } := by
  have hcrlf : (a ++ crlf).length = a.length + 2 := List.length_append
  have hlen := congrArg List.length htext
  rw [List.length_append, List.length_append, hcrlf] at hlen
  unfold takeBulk
  by_cases hshort : p.rest.length < a.length + 2
  · refine Or.inl ⟨if_pos hshort, ?_, by omega⟩
    rintro rfl
    rw [List.length_nil] at hlen
    omega
  · obtain ⟨s, hs, hst⟩ : ∃ s, p.rest = a ++ crlf ++ s ∧ s ++ b = t := by
      rcases List.append_eq_append_iff.mp htext with ⟨c, hc, hbc⟩ | ⟨s, hs, hst⟩
      · have hnil : c = [] := by
          have hclen := congrArg List.length hc
          rw [hcrlf, List.length_append] at hclen
          exact List.eq_nil_of_length_eq_zero (by omega)
        rw [hnil, List.append_nil] at hc
        refine ⟨[], ?_, ?_⟩
        · rw [List.append_nil, hc]
        · rw [hbc, hnil]
          rfl
      · exact ⟨s, hs, hst.symm⟩
    refine Or.inr ⟨s, hst, ?_⟩
    have hdrop : p.rest.drop (a.length + 2) = s := by
      rw [hs, ← hcrlf, List.drop_left]
    have htake : p.rest.take a.length = a := by
      rw [hs, List.append_assoc, List.take_left]
    rw [if_neg hshort, hdrop, htake]

/-- The first argument, once its length is known. -/
theorem bulks_arg {a : Text} {more : List Text} (hs : p.stop = none)
    (hkind : p.kind = some .multibulk) (hmiss : p.missing = more.length + 1)
    (hbulk : p.bulk = some a.length) (ha : a.length ≤ F.maxBulk)
    (htext : p.rest ++ b = a ++ crlf ++ (more.flatMap encodeArg ++ vs.flatMap encode))
    (ih : ∀ {q : Parser}, q.stop = none → q.kind = some .multibulk →
      q.missing = more.length → q.bulk = none →
      q.rest ++ b = more.flatMap encodeArg ++ vs.flatMap encode →
      Outcome F (q.argv ++ more) vs b (q.bulks F more.length)) :
    Outcome F (p.argv ++ a :: more) vs b (p.bulks F (more.length + 1)) := by
  have hknown : p.bulk.isSome = true := by rw [hbulk]; rfl
  have hget : p.bulk.getD 0 = a.length := by rw [hbulk]; rfl
  unfold bulks
  rw [readLen_of_bulk hknown]
  simp only [hget]
  rcases takeBulk_owes htext with ⟨hnone, hb, hlen⟩ | ⟨s, hs', hsome⟩
  · rw [hnone]
    refine ⟨hs, hkind, ?_⟩
    rw [if_neg (by simp)]
    refine ⟨?_, hb, ?_⟩
    · rw [htext]
      exact .arg hmiss hbulk hkind
    · simp only
      omega
  · rw [hsome]
    have hout := ih (q := { p with
      rest := s, missing := p.missing - 1, bulk := none, argv := p.argv ++ [a] })
      hs hkind (by simp only; omega) rfl hs'
    rwa [List.append_assoc, List.singleton_append] at hout

/-- Reading arguments out of the text of the vectors that are to come. -/
theorem bulks_owes (hF : F.Reads) {more : List Text} (hs : p.stop = none)
    (hkind : p.kind = some .multibulk) (hmiss : p.missing = more.length) (hbulk : p.bulk = none)
    (hfit : ∀ a ∈ more, a.length ≤ F.maxBulk)
    (htext : p.rest ++ b = more.flatMap encodeArg ++ vs.flatMap encode) :
    Outcome F (p.argv ++ more) vs b (p.bulks F more.length) := by
  induction more generalizing p with
  | nil =>
      refine ⟨hs, hkind, ?_⟩
      rw [List.length_nil, bulks, if_pos rfl, List.append_nil]
      exact ⟨rfl, htext⟩
  | cons a more ih =>
      have ha := hfit a List.mem_cons_self
      have hshort := hF.short a.length (Or.inr ha)
      have hlen : (header '$' a.length).length = (Nat.toDigits 10 a.length).length + 1 := rfl
      have hread : p.rest ++ b = header '$' a.length ++ crlf ++
          (a ++ crlf ++ (more.flatMap encodeArg ++ vs.flatMap encode)) := by
        rw [htext, List.flatMap_cons, encodeArg]
        simp only [List.append_assoc]
      -- not all of the line is there
      have hwait : b ≠ [] → p.rest.length ≤ (header '$' a.length).length + 1 →
          Outcome F (p.argv ++ a :: more) vs b (p, false) := by
        intro hb hle
        refine ⟨hs, hkind, ?_⟩
        rw [if_neg (by simp)]
        refine ⟨?_, hb, ?_⟩
        · rw [htext]
          exact .args (List.cons_ne_nil a more) hmiss hbulk hkind
        · simp only
          omega
      rcases line_cases (fun c hc => header_plain (by decide) hc) hread with
        ⟨hb, ⟨hl, hle⟩ | ⟨hl, hle⟩⟩ | ⟨s, hl, hst⟩
      · have hlong : p.await F .longLen = p := if_neg (by omega)
        rw [List.length_cons, bulks, readLen, hbulk]
        simp only [hl, hlong]
        exact hwait hb (by omega)
      · rw [List.length_cons, bulks, readLen, hbulk]
        simp only [hl]
        exact hwait hb hle
      · have hlenOf := lenOf_header hF ha
        have hknown : p.bulks F (more.length + 1)
            = bulks F (more.length + 1) { p with rest := s, bulk := some a.length } := by
          rw [bulks, bulks, readLen, hbulk]
          simp only [hl, hlenOf]
          rfl
        rw [List.length_cons, hknown]
        exact bulks_arg (p := { p with rest := s, bulk := some a.length }) hs hkind hmiss rfl ha hst
          fun hs hkind hmiss hbulk htext =>
            ih hs hkind hmiss hbulk (fun a' ha' => hfit a' (List.mem_cons_of_mem a ha')) htext

/-- The text of a vector begins with its mark. -/
theorem encode_eq (v : List Text) (t : Text) :
    encode v ++ t = header '*' v.length ++ crlf ++ (v.flatMap encodeArg ++ t) := by
  rw [encode, List.append_assoc]

/-- Reading a vector from its count on. -/
theorem multibulk_owes (hF : F.Reads) {v : List Text} (hs : p.stop = none)
    (hkind : p.kind = some .multibulk) (hmiss : p.missing = 0) (hbulk : p.bulk = none)
    (hargv : p.argv = []) (hfits : F.Fits v) (htext : p.rest ++ b = (v :: vs).flatMap encode) :
    Outcome F v vs b (p.multibulk F) := by
  have hshort := hF.short v.length (Or.inl hfits.count)
  have hlen : (header '*' v.length).length = (Nat.toDigits 10 v.length).length + 1 := rfl
  have hread := htext
  rw [List.flatMap_cons, encode_eq] at hread
  -- not all of the line is there
  have hwait : b ≠ [] → p.rest.length ≤ (header '*' v.length).length + 1 →
      Outcome F v vs b (p, false) := by
    intro hb hle
    refine ⟨hs, hkind, ?_⟩
    rw [if_neg (by simp)]
    refine ⟨?_, hb, ?_⟩
    · rw [htext]
      exact .fresh hmiss hbulk hargv (by simp [hkind])
    · simp only
      omega
  rcases line_cases (fun c hc => header_plain (by decide) hc) hread with
    ⟨hb, ⟨hl, hle⟩ | ⟨hl, hle⟩⟩ | ⟨s, hl, hst⟩
  · have hlong : p.await F .longCount = p := if_neg (by omega)
    unfold multibulk
    rw [if_neg (not_not.mpr hmiss), hl]
    simp only [hlong]
    exact hwait hb (by omega)
  · unfold multibulk
    rw [if_neg (not_not.mpr hmiss), hl]
    exact hwait hb hle
  · rw [multibulk_count hmiss hl (countOf_header hF hfits.count)]
    have hnil : p.argv ++ v = v := by rw [hargv, List.nil_append]
    have hout : Outcome F (p.argv ++ v) vs b (bulks F v.length _) :=
      bulks_owes (p := { p with rest := s, missing := v.length }) hF hs hkind rfl hbulk
        hfits.len hst
    rw [hnil] at hout
    exact hout

/-- One request out of the text of the vectors that are to come. -/
theorem round_owes (hF : F.Reads) (h : p.Expects F vs b) (hne : p.rest ≠ []) :
    (∃ q, p.round F = (q, [], false) ∧ q.Expects F vs b ∧ q.Waits F b) ∨
      ∃ q v vs', vs = v :: vs' ∧ p.round F = (q, [v], true) ∧ q.Expects F vs' b := by
  -- the end of a request whose arguments were read
  have hend : ∀ {v : List Text} {vs' : List (List Text)} {r : Parser × Bool}, vs = v :: vs' →
      p.choose.request F = r → Outcome F v vs' b r →
      (∃ q, p.round F = (q, [], false) ∧ q.Expects F vs b ∧ q.Waits F b) ∨
        ∃ q v vs', vs = v :: vs' ∧ p.round F = (q, [v], true) ∧ q.Expects F vs' b := by
    intro v vs' r hvs hreq hout
    obtain ⟨hstop, hkind, hout⟩ := hout
    have hfits : F.Fits v := h.fits v (hvs ▸ List.mem_cons_self)
    obtain ⟨q, whole⟩ := r
    cases whole with
    | false =>
        obtain ⟨howes, hwaits⟩ := hout
        refine Or.inl ⟨q, ?_, ⟨hstop, h.fits, hvs ▸ howes⟩, hwaits⟩
        unfold round
        rw [hreq]
    | true =>
        obtain ⟨hargv, htext⟩ := hout
        have hfin : q.finish F = (q.reset, [v]) := by
          have hargv : q.argv = v := hargv
          unfold finish
          rw [hargv, if_neg hfits.ne, hfits.stays]
          rfl
        refine Or.inr ⟨q.reset, v, vs', hvs, ?_, hstop, ?_, ?_⟩
        · unfold round
          rw [hreq]
          simp only [hfin]
        · exact fun w hw => h.fits w (hvs ▸ List.mem_cons_of_mem v hw)
        · have hrest : q.reset.rest ++ b = vs'.flatMap encode := htext
          rw [hrest]
          exact .fresh rfl rfl rfl (by simp [reset])
  have howes := h.owes
  generalize ht : p.rest ++ b = t at howes
  cases howes with
  | @args more vs' hmore hmiss hbulk hkind =>
      have hreq : p.choose.request F = p.bulks F more.length := by
        rw [choose_of_kind hkind, request_multibulk hkind, multibulk_going, hmiss]
        rw [hmiss]
        exact List.length_pos_iff.mpr hmore |>.ne'
      refine hend rfl hreq (bulks_owes hF h.running hkind hmiss hbulk ?_ ht)
      exact fun a ha => (h.fits _ List.mem_cons_self).len a (List.mem_append_right _ ha)
  | @arg a more vs' hmiss hbulk hkind =>
      have hlen := (h.fits _ List.mem_cons_self).len
      have hreq : p.choose.request F = p.bulks F (more.length + 1) := by
        rw [choose_of_kind hkind, request_multibulk hkind, multibulk_going, hmiss]
        omega
      refine hend rfl hreq (bulks_arg h.running hkind hmiss hbulk ?_ ht ?_)
      · exact hlen a (List.mem_append_right _ List.mem_cons_self)
      · intro q hs hkind hmiss hbulk htext
        refine bulks_owes hF hs hkind hmiss hbulk ?_ htext
        exact fun a' ha' => hlen a' (List.mem_append_right _ (List.mem_cons_of_mem a ha'))
  | fresh hmiss hbulk hargv hkind =>
      cases vs with
      | nil => exact absurd (List.append_eq_nil_iff.mp ht).1 hne
      | cons v vs' =>
          have hchoose : p.choose.kind = some .multibulk := by
            have hstar : p.rest.head? = some '*' := by
              obtain ⟨c, s, hcons⟩ := List.exists_cons_of_ne_nil hne
              rw [hcons, List.flatMap_cons, encode_eq] at ht
              rw [hcons, (List.cons.inj ht).1]
              rfl
            unfold choose
            rw [hstar]
            cases hk : p.kind with
            | none => rfl
            | some k =>
                cases k with
                | inline => exact absurd hk hkind
                | multibulk => rfl
          exact hend rfl (request_multibulk hchoose) (multibulk_owes (p := p.choose) hF h.running
            hchoose hmiss hbulk hargv (h.fits v List.mem_cons_self) ht)

/-- A receiver takes in the text of vectors in any pieces: it executes
those that are complete, in order, and waits for the rest. -/
theorem run_owes (hF : F.Reads) (h : p.Expects F vs b) :
    ∃ vs', vs = (run F p).2 ++ vs' ∧ (run F p).1.Expects F vs' b ∧
      ((run F p).1.rest = [] ∨ (run F p).1.Waits F b) := by
  induction hlen : p.rest.length using Nat.strong_induction_on generalizing p vs with
  | _ len ih =>
      subst hlen
      by_cases hne : p.rest = []
      · rw [run_idle (Or.inl hne)]
        exact ⟨vs, rfl, h, Or.inl hne⟩
      · rcases round_owes hF h hne with ⟨q, hr, hexp, hwaits⟩ | ⟨q, v, vs', rfl, hr, hexp⟩
        · rw [run_wait hne h.running hr]
          exact ⟨vs, rfl, hexp, Or.inr hwaits⟩
        · obtain ⟨ws, hws, hexp', hend⟩ := ih _ (round_length hr) hexp rfl
          rw [run_next hne h.running hr]
          refine ⟨ws, ?_, hexp', hend⟩
          rw [List.singleton_append, List.cons_append, ← hws]

theorem Expects.start (F : Format) : start.Expects F [] [] :=
  { running := rfl
    fits := fun v hv => absurd hv List.not_mem_nil
    owes := show Parser.start.Owes [] (List.flatMap encode []) from
      .fresh rfl rfl rfl (by simp [Parser.start]) }

/-- What was under way is received. -/
theorem Expects.push {s : Text} (h : p.Expects F vs (s ++ b)) : (p.push s).Expects F vs b := by
  refine ⟨h.running, h.fits, ?_⟩
  have howes := h.owes
  rw [push_rest, List.append_assoc]
  generalize p.rest ++ (s ++ b) = t at howes
  cases howes with
  | fresh hmiss hbulk hargv hkind => exact .fresh hmiss hbulk hargv hkind
  | args hne hmiss hbulk hkind => exact .args (p := p.push s) hne hmiss hbulk hkind
  | arg hmiss hbulk hkind => exact .arg (p := p.push s) hmiss hbulk hkind

/-- One more vector is on its way. -/
theorem Expects.snoc {v : List Text} (h : p.Expects F vs b) (hv : F.Fits v) :
    p.Expects F (vs ++ [v]) (b ++ encode v) := by
  refine ⟨h.running, ?_, ?_⟩
  · intro w hw
    rcases List.mem_append.mp hw with hw | hw
    · exact h.fits w hw
    · rw [List.mem_singleton.mp hw]
      exact hv
  · have howes := h.owes
    rw [← List.append_assoc]
    generalize p.rest ++ b = t at howes
    have hsnoc : ∀ ws : List (List Text),
        (ws ++ [v]).flatMap encode = ws.flatMap encode ++ encode v := by
      intro ws
      rw [List.flatMap_append, List.flatMap_cons, List.flatMap_nil, List.append_nil]
    cases howes with
    | fresh hmiss hbulk hargv hkind =>
        rw [← hsnoc]
        exact .fresh hmiss hbulk hargv hkind
    | args hne hmiss hbulk hkind =>
        rw [List.append_assoc, ← hsnoc, List.cons_append]
        exact .args hne hmiss hbulk hkind
    | arg hmiss hbulk hkind =>
        rw [List.append_assoc _ _ (encode v), List.append_assoc _ _ (encode v), ← hsnoc,
          List.cons_append]
        exact .arg hmiss hbulk hkind

/-- What is under way is part of the text of the vectors that are to come:
none of their vectors was executed too early. -/
theorem Expects.length_le (h : p.Expects F vs b) : b.length ≤ (vs.flatMap encode).length := by
  have hrest : b.length ≤ (p.rest ++ b).length := by
    rw [List.length_append]
    exact Nat.le_add_left _ _
  refine hrest.trans ?_
  have howes := h.owes
  generalize p.rest ++ b = t at howes
  cases howes with
  | fresh hmiss hbulk hargv hkind => exact le_rfl
  | args hne hmiss hbulk hkind =>
      simp only [List.flatMap_cons, encode, List.flatMap_append, List.length_append]
      omega
  | arg hmiss hbulk hkind =>
      simp only [List.flatMap_cons, encode, encodeArg, List.flatMap_append, List.length_append]
      omega

/-- Nothing is on its way to a receiver that got everything. -/
theorem Expects.done (h : p.Expects F vs []) (hend : p.rest = [] ∨ p.Waits F []) : vs = [] := by
  rcases hend with hnil | hwaits
  · have howes := h.owes
    rw [hnil, List.nil_append] at howes
    generalize ht : ([] : Text) = t at howes
    cases howes with
    | fresh hmiss hbulk hargv hkind =>
        cases vs with
        | nil => rfl
        | cons v vs =>
            rw [List.flatMap_cons, encode_eq] at ht
            cases ht
    | @args more vs' hne hmiss hbulk hkind =>
        obtain ⟨a, more', rfl⟩ := List.exists_cons_of_ne_nil hne
        rw [List.flatMap_cons, encodeArg] at ht
        cases ht
    | arg hmiss hbulk hkind =>
        rw [eq_comm, List.append_eq_nil_iff, List.append_eq_nil_iff] at ht
        cases ht.1.2
  · exact absurd rfl hwaits.more

end Parser

end Request
