/-
The static buffers of the decoders against what a run sends (`vc_int_buf`
of vector_clock.c, `leid_buf` of list_basics.c).

`sdsToVC` stores as many entries as there are servers, `sdsToLeid` as many
positions as the identifier has. Neither number is bounded by the program:
`replicateCommand` takes any count, and an identifier in front of the
first element of a list is one position deeper than that element's.

# What fits

An accepted command stays inside the buffers if there are at most 100
servers or its times are Lamport times, and if the identifier it makes, if
any, finds room between its neighbours within the first 1024 positions
(`fits`). The runs whose messages are all decoded are exactly the runs of
such commands (`decoders_in_bounds_iff`).
-/
import CrdtRedis.Stored
import CrdtRedis.Wire

namespace CrdtRedis

open Replication

variable {n : ℕ}

/-- A timestamp or identifier whose text goes through its decoder with
every store inside the static buffer, whatever that held. -/
def Arg.Decodes : Arg n → Prop
  | .vc t => ∀ buf : Block ℤ, buf.length = vcIntBuf →
      ∃ s, t.raw.vcToSds = some s ∧ (RawVc.sdsToVC buf s).isSome = true
  | .leid p => ∀ buf : Block Position, buf.length = leidBuf →
      ∃ s, leidToSds p = some s ∧ (sdsToLeid buf s).isSome = true
  | .str _ => True
  | .lc _ => True

/-- Between the neighbours of the identifier a client's vector makes there
is room at one of the first `leidBuf` positions. -/
def roomy (argv : List String) (db : Db n) : Bool :=
  (newGap argv db).all fun b =>
    (List.range leidBuf).any fun i => decide (2 ≤ rprefix b.2 i - lprefix b.1 i)

/-- What a client's vector makes fits the buffers. -/
def fits (argv : List String) (db : Db n) : Bool :=
  (decide (n ≤ vcIntBuf) || (cmdOf argv).any Cmd.lamport) && roomy argv db

-- ======================================================= one argument

theorem decodes_vc_iff (hn : 0 < n) (t : Vc n) : (Arg.vc t).Decodes ↔ n ≤ vcIntBuf := by
  have hlen : t.raw.vector.length = n := List.length_ofFn
  constructor
  · intro hdec
    by_contra hlt
    have hcap : (Block.new vcIntBuf : Block ℤ).length < t.raw.vector.length := by
      rw [Block.length_new, hlen]
      exact not_le.mp hlt
    obtain ⟨s, hs, hsome⟩ := hdec _ (Block.length_new vcIntBuf)
    obtain ⟨s', hs', hnone⟩ := RawVc.sdsToVC_overflow hcap
    obtain rfl := Option.some.inj (hs.symm.trans hs')
    rw [hnone] at hsome
    cases hsome
  · intro hle buf hbuf
    have hne : t.raw.vector ≠ [] := List.ne_nil_of_length_pos (hn.trans_eq hlen.symm)
    have hcap : t.raw.vector.length ≤ buf.length := by omega
    obtain ⟨s, buf', hs, hdec⟩ := RawVc.sdsToVC_text hne hcap
    exact ⟨s, hs, by rw [hdec]; rfl⟩

theorem decodes_leid_iff {p : Leid} (hne : p ≠ []) :
    (Arg.leid p : Arg n).Decodes ↔ p.length ≤ leidBuf := by
  constructor
  · intro hdec
    by_contra hlt
    have hcap : (Block.new leidBuf : Block Position).length < p.length := by
      rw [Block.length_new]
      exact not_le.mp hlt
    obtain ⟨s, hs, hsome⟩ := hdec _ (Block.length_new leidBuf)
    obtain ⟨s', hs', hnone⟩ := sdsToLeid_overflow hcap
    obtain rfl := Option.some.inj (hs.symm.trans hs')
    rw [hnone] at hsome
    cases hsome
  · intro hle buf hbuf
    obtain ⟨s, buf', hs, hdec⟩ := sdsToLeid_text hne (hle.trans_eq hbuf.symm)
    exact ⟨s, hs, by rw [hdec]; rfl⟩

theorem constructLeid_ne_nil (p q : Option Leid) (t : Vc n) : constructLeid p q t ≠ [] := by
  simp [constructLeid]

/-- The depth of a new identifier is where its neighbours leave room. -/
theorem constructLeid_length_le_iff (p q : Option Leid) (t : Vc n) (m : ℕ) :
    (constructLeid p q t).length ≤ m ↔ ∃ i < m, 2 ≤ rprefix q i - lprefix p i := by
  obtain ⟨-, hroom, hbefore⟩ := gapIndex_spec (p := p) (q := q) (Nat.zero_add _).ge
  have hlen : (constructLeid p q t).length
      = gapIndex p q (max (leidDepth p) (leidDepth q)) 0 + 1 := by simp [constructLeid]
  rw [hlen]
  constructor
  · exact fun hle => ⟨_, hle, hroom⟩
  · intro hex
    obtain ⟨i, hi, hgap⟩ := hex
    by_contra hlt
    have hblocked := hbefore i (Nat.zero_le i) (by omega)
    omega

theorem roomy_iff {argv : List String} {db : Db n} (t : Vc n) : roomy argv db = true ↔
    ∀ b, newGap argv db = some b → (constructLeid b.1 b.2 t).length ≤ leidBuf := by
  unfold roomy
  cases newGap argv db with
  | none => exact iff_of_true rfl fun b hb => by cases hb
  | some b =>
      simp only [Option.all_some, List.any_eq_true, List.mem_range, decide_eq_true_iff,
        constructLeid_length_le_iff, Option.some.injEq, forall_eq']

-- ======================================================== one command

section Commands

variable {dbl : String → Option ℤ} {me : Fin n} {argv : List String} {rargv : List (Arg n)}
  {db db' : Db n} {R : Value n → Prop} {L : Leid → Prop}

/-- A command sends a vector time unless its times are Lamport times. -/
theorem Sends.vc_iff (h : Sends L argv db rargv) :
    (∃ t, Arg.vc t ∈ rargv) ↔ (cmdOf argv).any Cmd.lamport = false := by
  cases h with
  | elem hc _ hargs =>
      rw [hc, Option.any_some]
      cases hargs with
      | lcs hlamport l => simp [hlamport]
      | vc hvc t => exact iff_of_true ⟨t, by simp⟩ hvc
  | list hc hvc hargs =>
      rw [hc, Option.any_some]
      cases hargs with
      | touch words lcs t _ => exact iff_of_true ⟨t, by simp⟩ hvc
      | insert words pos t _ _ => exact iff_of_true ⟨t, by simp⟩ hvc

/-- The identifier a command makes is sent. -/
theorem Sends.made (h : Sends L argv db rargv) {b : Option Leid × Option Leid}
    (hgap : newGap argv db = some b) :
    ∃ t : Vc n, Arg.leid (constructLeid b.1 b.2 t) ∈ rargv := by
  cases h with
  | elem _ hnone _ =>
      rw [hnone] at hgap
      cases hgap
  | list _ _ hargs =>
      cases hargs with
      | touch _ _ _ hnone =>
          rw [hnone] at hgap
          cases hgap
      | insert words pos t hmade _ =>
          obtain ⟨t', rfl⟩ := hmade b hgap
          exact ⟨t', by simp⟩

theorem fits_of_decodes (hdb : StoreKept R L db)
    (hp : prepareCommand dbl me argv db = some (db', .ok rargv))
    (hdec : ∀ a ∈ rargv, a.Decodes) : fits argv db = true := by
  have hsends := prepareCommand_sends hdb hp
  rw [fits, Bool.and_eq_true, Bool.or_eq_true, decide_eq_true_iff]
  constructor
  · cases hlamport : (cmdOf argv).any Cmd.lamport with
    | true => exact Or.inr rfl
    | false =>
        obtain ⟨t, ht⟩ := hsends.vc_iff.mpr hlamport
        exact Or.inl ((decodes_vc_iff (Fin.pos me) t).mp (hdec _ ht))
  · rw [roomy_iff (vcNew me)]
    intro b hgap
    obtain ⟨t, ht⟩ := hsends.made hgap
    have hle := (decodes_leid_iff (constructLeid_ne_nil _ _ _)).mp (hdec _ ht)
    rwa [constructLeid_length_le_iff] at hle ⊢

/-- An identifier that can be encoded and decoded. -/
def Leid.Fits (p : Leid) : Prop := p ≠ [] ∧ p.length ≤ leidBuf

theorem constructLeid_fits (hfits : fits argv db = true) {b : Option Leid × Option Leid}
    (hgap : newGap argv db = some b) (t : Vc n) : (constructLeid b.1 b.2 t).Fits :=
  ⟨constructLeid_ne_nil _ _ _, (roomy_iff t).mp (Bool.and_eq_true_iff.mp hfits).2 b hgap⟩

theorem decodes_of_fits (hdb : StoreKept R Leid.Fits db)
    (hp : prepareCommand dbl me argv db = some (db', .ok rargv))
    (hfits : fits argv db = true) : ∀ a ∈ rargv, a.Decodes := by
  intro a ha
  cases a with
  | str s => exact trivial
  | lc t => exact trivial
  | leid p =>
      obtain ⟨hne, hle⟩ := prepareCommand_leidsIn hdb
        (fun b t hgap _ _ => constructLeid_fits hfits hgap t) hp p ha
      exact (decodes_leid_iff hne).mpr hle
  | vc t =>
      have hvc := (prepareCommand_sends hdb hp).vc_iff.mp ⟨t, ha⟩
      rw [fits, hvc, Bool.or_false, Bool.and_eq_true, decide_eq_true_iff] at hfits
      exact (decodes_vc_iff (Fin.pos me) t).mpr hfits.1

end Commands

-- ============================================================ in runs

/-- While the accepted commands fit, so do the identifiers kept. -/
theorem fits_kept {dbl : String → Option ℤ}
    {pol : Policy n (Db n) (List String) (List (Arg n))} {k : Net n}
    (hk : Reachable ((crdtService dbl).limit fun _ => fits) pol k) (r : Fin n) :
    StoreKept (fun _ => True) Leid.Fits (k.site r) :=
  (kept_of_limit (keeps_true Leid.Fits)
    (fun _ _ _ _ t hfits hgap _ _ => constructLeid_fits hfits hgap t) hk).1 r

theorem decodes_of_limit {dbl : String → Option ℤ}
    {pol : Policy n (Db n) (List String) (List (Arg n))} {k : Net n}
    (hk : Reachable ((crdtService dbl).limit fun _ => fits) pol k) :
    ∀ o ∈ k.sent, ∀ a ∈ o.msg, a.Decodes := by
  refine hk.sent_forall (Q := fun o => ∀ a ∈ o.msg, a.Decodes) ?_
  intro k r argv db rargv u hk _ _ hp
  obtain ⟨hp, hfits⟩ := Service.limit_prepare hp
  exact decodes_of_fits (fits_kept hk r) (crdtService_accepts hp) (hfits rfl)

/-- The runs that send only what the decoders take in are the runs whose
accepted commands fit. -/
theorem decoders_in_bounds_iff (dbl : String → Option ℤ)
    (pol : Policy n (Db n) (List String) (List (Arg n))) (k : Net n) :
    (Reachable (crdtService dbl) pol k ∧ ∀ o ∈ k.sent, ∀ a ∈ o.msg, a.Decodes) ↔
      Reachable ((crdtService dbl).limit fun _ => fits) pol k := by
  constructor
  · intro h
    obtain ⟨hk, hdec⟩ := h
    refine hk.limit (G := fun rargv => ∀ a ∈ rargv, a.Decodes) ?_ hdec
    intro k r argv db rargv hk hp hgood
    have hstore := (kept_of_reachable (keeps_true fun _ => True) (fun _ _ _ _ _ => trivial) hk).1 r
    exact fits_of_decodes hstore (crdtService_accepts hp) hgood
  · exact fun hk => ⟨hk.of_limit, decodes_of_limit hk⟩

end CrdtRedis
