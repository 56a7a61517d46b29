/-
How deep the identifiers of a list get (`constructLeid` of list_basics.c).

A client inserts elements of fresh names, each before the first one. The
identifier of the first element has positions 0 and a 1 at the end, so
that nothing goes before it without one position more: the `m`-th insert
makes an identifier of `m` positions (`Front`, kept by `Front.step`).
Every insert is accepted, so there is no depth a run does not reach
(`identifiers_unbounded`), and `leid_buf` is overrun by the 1025th.

# Both buffers

At the end, what keeps a run inside `vc_int_buf` and `leid_buf`, command
by command (`decoders_safe_iff`), and the two ways out of them.
-/
import CrdtRedis.Buffers

namespace CrdtRedis

open Replication

variable {n : ℕ}

-- ======================================================== the commands

/-- The name of element `i`. -/
def frontName (i : ℕ) : String := String.ofList (List.replicate (i + 1) 'x')

theorem frontName_inj {i j : ℕ} (h : frontName i = frontName j) : i = j := by
  have htext := congrArg String.toList h
  simpa [frontName] using htext

theorem frontName_ne {s : String} (h : s.toList.head? ≠ some 'x') (i : ℕ) : frontName i ≠ s := by
  rintro rfl
  exact h (by simp [frontName, List.replicate_succ])

/-- The `i`-th command: element `i`, before the first one. -/
def frontArgv (i : ℕ) : List String :=
  ["rwflinsert", "l", "null", frontName i, "x", "0", "0", "0", "0"]

-- ===================================================== the identifiers

/-- Before an identifier that leaves no room there is one more position. -/
theorem constructLeid_front {p : Leid} (hlow : ∀ x ∈ p, x.pos < 2) (t : Vc n) :
    (constructLeid none (some p) t).length = p.length + 1 ∧
      ∀ x ∈ constructLeid none (some p) t, x.pos < 2 := by
  obtain ⟨hle, hroom, -⟩ := gapIndex_spec (p := none) (q := some p) (Nat.zero_add _).ge
  have hdepth : max (leidDepth none) (leidDepth (some p)) = p.length := by simp [leidDepth]
  unfold constructLeid
  generalize gapIndex none (some p) (max (leidDepth none) (leidDepth (some p))) 0 = index at *
  have hindex : index = p.length := by
    refine le_antisymm (by omega) (not_lt.mp fun hlt => ?_)
    have hat : rprefix (some p) index = (p[index]).pos := by simp [hlt, rprefix]
    have hpos := hlow _ (List.getElem_mem hlt)
    rw [hat, show lprefix none index = 0 from rfl] at hroom
    omega
  constructor
  · simp [hindex]
  · intro x hx
    rcases List.mem_append.mp hx with hx | hx
    · obtain ⟨i, -, rfl⟩ := List.mem_map.mp hx
      exact (by decide : (0 : ℤ) < 2)
    · rw [List.mem_singleton.mp hx]
      exact (by decide : (0 : ℤ) + 1 < 2)

-- ============================================================ the list

/-- The front of a list after `m` inserts before the first element: its
identifier is `m` deep and leaves no room before it. -/
inductive FrontAt (h : Hash n) : ℕ → Option Leid → Prop
  | empty (hhead : h.fields "head" = none) : FrontAt h 0 none
  | first {m : ℕ} {e : Rwfle n} {p : Leid}
      (hhead : h.fields "head" = some (.rwfle (frontName m)))
      (he : h.rwfles (frontName m) = some e) (hpos : e.posId = some p) (hok : p.Ok)
      (hlen : p.length = m + 1) (hlow : ∀ x ∈ p, x.pos < 2) : FrontAt h (m + 1) (some p)

/-- A list after `m` such inserts. -/
structure Front (m : ℕ) (h : Hash n) : Prop where
  null : h.fields "null" = none
  fresh : ∀ j, m ≤ j → h.fields (frontName j) = none
  clock : h.fields "current" = none ∨ ∃ c, h.fields "current" = some (.clock c)
  len : h.fields "length" = none ∨ ∃ l, h.fields "length" = some (.length l)
  head : ∃ q, FrontAt h m q

/-- A list after an element was made and its place chosen. -/
def frontMade (me : Fin n) (h : Hash n) (a : String) (c : Vc n) : Hash n :=
  { h with
    fields := Function.update (Function.update h.fields a (some (.rwfle a))) "current"
      (some (.clock c))
    rwfles := Function.update h.rwfles a (some (ListRec.new (RwflBody.new me)))
    allocs := h.allocs + 1 }

variable {m : ℕ} {h : Hash n} {q : Option Leid}

/-- The preparation of the next insert. -/
theorem Front.prepare (me : Fin n) {ho : Option (Hash n)} (hf : Front m (ho.getD .empty))
    (hq : FrontAt (ho.getD .empty) m q) :
    ∃ c : Vc n, Rwfl.insertPrepare me (frontArgv m) ho
      = some (some (frontMade me (ho.getD .empty) (frontName m) (vcInc c me)),
        .ok ((frontArgv m).map Arg.str ++ [.leid (constructLeid none q c), .vc (vcNew me)])) := by
  have hlow : sdstolower "null" = "null" := by decide
  have hnull : cText "null" = "null" := by decide
  have hpre : rwfleKind.checkPre Rwfl.exist ho "null" = some (.ok (none, "null")) := by
    have hfield := hf.null
    cases ho with
    | none => simp [ListKind.checkPre, ListKind.checkPre.missing, hlow, hnull]
    | some h =>
        simp only [Option.getD_some] at hfield
        simp [ListKind.checkPre, ListKind.checkPre.missing, ListKind.find, hfield, hlow, hnull]
  simp only [Rwfl.insertPrepare, frontArgv, List.getD_cons_succ, List.getD_cons_zero, hpre,
    Option.bind_some]
  generalize ho.getD .empty = h at hf hq ⊢
  have hnew := hf.fresh m le_rfl
  have hhead : frontName m ≠ "head" := frontName_ne (by decide) m
  have hcur : frontName m ≠ "current" := frontName_ne (by decide) m
  -- the record is made
  set h₁ : Hash n := { h with
    fields := Function.update h.fields (frontName m) (some (.rwfle (frontName m)))
    rwfles := Function.update h.rwfles (frontName m) (some (ListRec.new (RwflBody.new me)))
    allocs := h.allocs + 1 } with hh₁
  have hget : rwfleKind.findOrCreate me h (frontName m) = some (h₁, frontName m) := by
    simp only [ListKind.findOrCreate, hnew]
    rfl
  have hrec : h₁.rwfles (frontName m) = some (ListRec.new (RwflBody.new me)) :=
    Function.update_self ..
  have hbounds : rwfleKind.bounds h₁ none = some (none, q) := by
    cases hq with
    | empty hnone => simp [ListKind.bounds, ListKind.getHead, hh₁, hhead.symm, hnone]
    | @first i e p hfirst he hpos _ _ _ =>
        have hne : frontName i ≠ frontName (i + 1) := fun hcon => by
          have := frontName_inj hcon
          omega
        simp [ListKind.bounds, ListKind.getHead, hh₁, hhead.symm, hfirst, rwfleKind, hne, he, hpos]
  obtain ⟨c, h₂, hclock, hset⟩ : ∃ c h₂, getCurrent me h₁ = some (h₂, c) ∧
      h₂.set "current" (.clock (vcInc c me)) = frontMade me h (frontName m) (vcInc c me) := by
    rcases hf.clock with hc | ⟨c, hc⟩
    · exact ⟨vcNew me, h₁.set "current" (.clock (vcNew me)),
        by simp [getCurrent, hh₁, hcur.symm, hc], by simp [Hash.set, hh₁, frontMade]⟩
    · exact ⟨c, h₁, by simp [getCurrent, hh₁, hcur.symm, hc], rfl⟩
  refine ⟨c, ?_⟩
  have hhid : Rwfl.exist (ListRec.new (RwflBody.new me)) = false := rfl
  have hplace : rwfleKind.placeAt me (vcInc · me) h₁ none "null" (frontName m)
      (ListRec.new (RwflBody.new me))
      = some (frontMade me h (frontName m) (vcInc c me), .ok (constructLeid none q c)) := by
    simp [ListKind.placeAt, ListRec.new, hbounds, hclock, hset, hnull]
  rw [hget, Option.bind_some, hrec, Option.bind_some, if_neg (by simp [hhid]), hplace]
  rfl

/-- The record goes before the first one. -/
theorem FrontAt.position (me : Fin n) (c : Vc n) (hq : FrontAt h m q) {pos : Leid}
    (hlt : ∀ p ∈ q, leidCmp pos p < 0) :
    ∃ h' e, rwfleKind.position (frontMade me h (frontName m) c) "null" (frontName m) "x"
        (frontName m) pos = some h' ∧
      h'.fields = Function.update (frontMade me h (frontName m) c).fields "head"
        (some (.rwfle (frontName m))) ∧
      h'.rwfles (frontName m) = some e ∧ e.posId = some pos ∧ e.body = RwflBody.new me := by
  have hhead : frontName m ≠ "head" := frontName_ne (by decide) m
  have hch : "current" ≠ "head" := by decide
  cases hq with
  | empty hnone =>
      simp [ListKind.position, rwfleKind, frontMade, ListRec.new, ListKind.modify,
        ListKind.insertChain, ListKind.getHead, hhead.symm, hch.symm, hnone, ListKind.setHead,
        Hash.set]
  | @first i e p hfirst he hpos _ _ _ =>
      have hlt := hlt p rfl
      have hne : frontName i ≠ frontName (i + 1) := fun hcon => by
        have := frontName_inj hcon
        omega
      simp [ListKind.position, rwfleKind, frontMade, ListRec.new, ListKind.modify,
        ListKind.insertChain, ListKind.getHead, hhead.symm, hch.symm, hfirst, hne, he, hpos, hlt,
        ListKind.setHead, Hash.set]

/-- The effect of the insert, on the list its preparation leaves. -/
theorem Front.effect (me : Fin n) (c : Vc n) (hf : Front m h) (hq : FrontAt h m q) {pos : Leid}
    (hlt : ∀ p ∈ q, leidCmp pos p < 0) :
    ∃ h' e, Rwfl.insertEffect me ((frontArgv m).map Arg.str ++ [.leid pos, .vc (vcNew me)])
        (frontMade me h (frontName m) c) = some h' ∧
      (∃ l, h'.fields = Function.update (Function.update (frontMade me h (frontName m) c).fields
        "head" (some (.rwfle (frontName m)))) "length" (some (.length l))) ∧
      h'.rwfles (frontName m) = some e ∧ e.posId = some pos := by
  have h0 : getLongLongFromObject "0" = some 0 := by decide
  have hpid : pidNexist < (me : ℤ) := by simp [pidNexist]; omega
  have hcur : frontName m ≠ "current" := frontName_ne (by decide) m
  have hlen : frontName m ≠ "length" := frontName_ne (by decide) m
  have hlh : "length" ≠ "head" := by decide
  have hlc : "length" ≠ "current" := by decide
  obtain ⟨h₁, e, hposition, hfields, he, hpos, hbody⟩ := hq.position me c hlt
  have hinit : Rwfl.insertEffect me ((frontArgv m).map Arg.str ++ [.leid pos, .vc (vcNew me)])
        (frontMade me h (frontName m) c)
      = (rwfleKind.position (frontMade me h (frontName m) c) "null" (frontName m) "x"
          (frontName m) pos).bind (Rwfl.addFunc (frontName m) ⟨0, 0, 0, 0⟩ (vcNew me)) := by
    simp [Rwfl.insertEffect, frontArgv, crGetLast, vcAt, strAt, leidAt, Rwfl.insertProps, h0,
      ListKind.findOrCreate, rwfleKind, Rwfl.removeFunc, RwflBody.removeFunc, Reh.removeBy,
      Reh.removeCheck,
      RwflBody.new, Reh.new, ListRec.new, frontMade, hcur]
  obtain ⟨l, hl⟩ : ∃ l, getLen h₁ = some l := by
    unfold getLen
    rw [hfields]
    rcases hf.len with hnone | ⟨l, hl⟩
    · exact ⟨0, by simp [frontMade, hlh, hlc, hlen.symm, hnone]⟩
    · exact ⟨l, by simp [frontMade, hlh, hlc, hlen.symm, hl]⟩
  have hadd : Rwfl.addFunc (frontName m) ⟨0, 0, 0, 0⟩ (vcNew me) h₁
      = incrLen (Rwfl.setBody h₁ (frontName m)
        (RwflBody.innateUpdate ⟨0, 0, 0, 0⟩ { e.body with header := ⟨me, vcNew me⟩ })) 1 := by
    simp [Rwfl.addFunc, he, hbody, RwflBody.new, Reh.new, Reh.addCheck, hpid, Rwfl.exist,
      Reh.exist]
  rw [hinit, hposition, Option.bind_some, hadd, incrLen]
  generalize RwflBody.innateUpdate _ _ = body
  rw [show getLen (Rwfl.setBody h₁ _ _) = getLen h₁ from rfl, hl, Option.map_some]
  refine ⟨_, { e with body := body }, rfl, ⟨l + 1, ?_⟩, ?_, hpos⟩
  · rw [← hfields]
    rfl
  · show Function.update h₁.rwfles _ _ _ = _
    rw [Function.update_self]
    rw [show rwfleKind.heap h₁ (frontName m) = some e from he]
    rfl

/-- The identifier before the first one. -/
theorem FrontAt.next (hq : FrontAt h m q) (t : Vc n) :
    (constructLeid none q t).Ok ∧ (constructLeid none q t).length = m + 1 ∧
      (∀ x ∈ constructLeid none q t, x.pos < 2) ∧
      ∀ p ∈ q, leidCmp (constructLeid none q t) p < 0 := by
  cases hq with
  | empty hnone =>
      refine ⟨constructLeid_ok (fun l hl => by cases hl) (fun l hl => by cases hl) t, rfl,
        fun x hx => ?_, fun p hp => by cases hp⟩
      rw [List.mem_singleton.mp hx]
      exact (by decide : (0 : ℤ) + 1 < 2)
  | @first i e p hfirst he hpos hok hlen hlow =>
      obtain ⟨hlen', hlow'⟩ := constructLeid_front hlow t
      refine ⟨constructLeid_ok (fun l hl => by cases hl) (fun l hl => ?_) t,
        by rw [hlen', hlen], hlow', fun p' hp' => ?_⟩
      · obtain rfl := Option.some.inj hl
        exact hok
      · obtain rfl := Option.some.inj hp'
        exact leidCmp_neg.mpr (constructLeid_null_lt hok t)

/-- The list after the insert. -/
theorem Front.next {me : Fin n} (hf : Front m h) {h' : Hash n} {e : Rwfle n} {pos : Leid}
    {c : Vc n} {l : ℤ}
    (hfields : h'.fields = Function.update (Function.update
      (frontMade me h (frontName m) c).fields "head" (some (.rwfle (frontName m)))) "length"
      (some (.length l)))
    (he : h'.rwfles (frontName m) = some e) (hpos : e.posId = some pos) (hok : pos.Ok)
    (hlen : pos.length = m + 1) (hlow : ∀ x ∈ pos, x.pos < 2) : Front (m + 1) h' := by
  have hhead : frontName m ≠ "head" := frontName_ne (by decide) m
  have hother : ∀ a, a ≠ "head" → a ≠ "length" → a ≠ "current" → a ≠ frontName m →
      h'.fields a = h.fields a := by
    intro a h1 h2 h3 h4
    rw [hfields]
    simp [frontMade, h1, h2, h3, h4]
  refine ⟨?_, fun j hj => ?_, .inr ⟨c, ?_⟩, .inr ⟨l, ?_⟩, some pos, ?_⟩
  · rw [hother "null" (by decide) (by decide) (by decide) (frontName_ne (by decide) m).symm]
    exact hf.null
  · rw [hother _ (frontName_ne (by decide) j) (frontName_ne (by decide) j)
      (frontName_ne (by decide) j) fun hcon => by have := frontName_inj hcon; omega]
    exact hf.fresh j (by omega)
  · rw [hfields]
    simp [frontMade]
  · rw [hfields, Function.update_self]
  · refine .first ?_ he hpos hok hlen hlow
    rw [hfields]
    simp [frontMade]

-- ============================================================= the run

/-- One more insert at the front is accepted and applied. -/
theorem Front.step (dbl : String → Option ℤ) (me : Fin n) {db : Db n} {ho : Option (Hash n)}
    (hdb : db "l" = ho.map .hash) (hf : Front m (ho.getD .empty)) :
    ∃ db₁ rargv db₂ h' p, prepareCommand dbl me (frontArgv m) db = some (db₁, .ok rargv) ∧
      effectCommand dbl me rargv db₁ = some db₂ ∧ db₂ "l" = some (.hash h') ∧
      Front (m + 1) h' ∧ (∃ args, rargv = (frontArgv m).map Arg.str ++ args) ∧
      Arg.leid p ∈ rargv ∧ p.length = m + 1 := by
  obtain ⟨q, hq⟩ := hf.head
  obtain ⟨c, hprep⟩ := hf.prepare me hq
  obtain ⟨hok, hlen, hlow, hlt⟩ := hq.next c
  obtain ⟨h', e, heff, ⟨l, hfields⟩, he, hpos⟩ := hf.effect me (vcInc c me) hq hlt
  have hat : ListCommand.hashAt db "l" = ho := by
    cases ho <;> simp [ListCommand.hashAt, hdb]
  have hcmd : lookupCommand "rwflinsert" = some .rwflinsert := by decide
  have h0 : getLongLongFromObject "0" = some 0 := by decide
  have hchecks : failedCheck dbl (rwflinsertCommand (n := n)).checks (frontArgv m) = none := by
    simp [failedCheck, rwflinsertCommand, frontArgv, checkArgType, h0]
  obtain ⟨h₁, hh₁⟩ : ∃ h₁, h₁ = frontMade me (ho.getD .empty) (frontName m) (vcInc c me) := ⟨_, rfl⟩
  rw [← hh₁] at hprep heff
  obtain ⟨rargv, hrargv⟩ : ∃ rargv, rargv = (frontArgv m).map Arg.str ++
      [.leid (constructLeid none q c), Arg.vc (vcNew me)] := ⟨_, rfl⟩
  rw [← hrargv] at hprep heff
  have hmsg : cmdOfMsg rargv = some .rwflinsert := by
    rw [hrargv]
    exact hcmd
  have hname : strAt 1 rargv = some "l" := by
    rw [hrargv]
    rfl
  refine ⟨Function.update db "l" (some (.hash h₁)), rargv,
    Function.update (Function.update db "l" (some (.hash h₁))) "l" (some (.hash h')), h',
    constructLeid none q c, ?_, ?_, Function.update_self .., ?_, ⟨_, hrargv⟩, by simp [hrargv],
    hlen⟩
  · have hrun : (rwflinsertCommand (n := n)).runPrepare dbl me (frontArgv m) db
        = some (Function.update db "l" (some (.hash h₁)), .ok rargv) := by
      have htype : ∀ m, db "l" ≠ some (.zset m) := by
        intro m hm
        rw [hdb] at hm
        cases ho <;> simp at hm
      have hname : (frontArgv m).getD 1 "" = "l" := rfl
      unfold ListCommand.runPrepare
      rw [if_neg (by simp [frontArgv, rwflinsertCommand])]
      dsimp only
      rw [hname, hchecks, hat]
      split
      · next m hm => exact absurd hm (htype m)
      · show Option.map _ (Rwfl.insertPrepare me (frontArgv m) ho) = _
        rw [hprep]
        rfl
    show (lookupCommand "rwflinsert").bind _ = _
    rw [hcmd]
    exact hrun
  · show (cmdOfMsg rargv).bind _ = _
    rw [hmsg]
    show (strAt 1 rargv).bind _ = _
    rw [hname, Option.bind_some, Function.update_self]
    show Option.map _ (Rwfl.insertEffect me rargv _) = _
    rw [show ListCommand.hashAt (Function.update db "l" (some (.hash h₁))) "l" = some h₁ by
      simp [ListCommand.hashAt], Option.getD_some, heff]
    rfl
  · exact hf.next hfields he hpos hok hlen hlow

/-- An operation that is the insert of element `i` at server `me`, and how
deep the identifier is that it carries. -/
structure FrontOp (me : Fin n) (i : ℕ) (o : Op n (List (Arg n))) : Prop where
  src : o.src = me
  argv : ∃ args, o.msg = (frontArgv i).map Arg.str ++ args
  leid : ∃ p, Arg.leid p ∈ o.msg ∧ p.length = i + 1

theorem FrontOp.leid_decodes {me : Fin n} {i : ℕ} {o : Op n (List (Arg n))} (h : FrontOp me i o) :
    ∃ p, Arg.leid p ∈ o.msg ∧ p.length = i + 1 ∧
      ((Arg.leid p : Arg n).Decodes ↔ i < leidBuf) := by
  obtain ⟨p, hmem, hp⟩ := h.leid
  refine ⟨p, hmem, hp, ?_⟩
  rw [decodes_leid_iff (List.ne_nil_of_length_pos (by omega)), hp]
  exact Nat.succ_le_iff

/-- A run of `m` inserts at the front of one list, on one server. -/
theorem front_run (dbl : String → Option ℤ) (me : Fin n) (m : ℕ) :
    ∃ k : Net n, Reachable (crdtService dbl) (.once (Issues rwflCmds)) k ∧
      (∃ ho : Option (Hash n), k.site me "l" = ho.map .hash ∧ Front m (ho.getD .empty)) ∧
      k.sent.length = m ∧ (∀ o ∈ k.sent, o.uid < m) ∧
      ∀ i o, k.sent[i]? = some o → FrontOp me i o := by
  induction m with
  | zero =>
      refine ⟨_, .start, ⟨none, rfl, rfl, fun _ _ => rfl, .inl rfl, .inl rfl, none, .empty rfl⟩,
        rfl, fun o ho => absurd ho List.not_mem_nil, fun i o ho => ?_⟩
      cases ho
  | succ m ih =>
      obtain ⟨k, hk, ⟨ho, hdb, hf⟩, hlen, huid, hops⟩ := ih
      obtain ⟨db₁, rargv, db₂, h', p, hprep, heff, hat, hf', hargv, hmem, hp⟩ := hf.step dbl me hdb
      have hissue : Issues rwflCmds (frontArgv m) :=
        ⟨.rwflinsert, by decide, show lookupCommand "rwflinsert" = _ by decide⟩
      have haccept : (crdtService dbl).prepare me (frontArgv m) (k.site me)
          = some (db₁, some rargv) := by
        show Option.map _ (prepareCommand dbl me (frontArgv m) (k.site me)) = _
        rw [hprep]
        rfl
      refine ⟨k.issue ⟨m, me, rargv⟩ db₂, hk.step (.issue me (frontArgv m) m hissue haccept
        (fun o ho => (huid o ho).ne) trivial heff), ⟨some h', ?_, hf'⟩, ?_, ?_, fun i o ho => ?_⟩
      · exact (congrFun (Config.issue_site_self k ⟨m, me, rargv⟩ db₂) "l").trans hat
      · rw [Config.issue_sent, List.length_append, hlen]
        rfl
      · intro o ho
        rw [Config.issue_sent, List.mem_append, List.mem_singleton] at ho
        rcases ho with ho | rfl
        · exact Nat.lt_succ_of_lt (huid o ho)
        · exact Nat.lt_succ_self m
      · rw [Config.issue_sent] at ho
        by_cases hi : i < m
        · rw [List.getElem?_append_left (hlen ▸ hi)] at ho
          exact hops i o ho
        · -- the operation just issued
          rw [List.getElem?_append_right (by omega), List.getElem?_singleton] at ho
          split at ho
          · obtain rfl : i = m := by omega
            obtain rfl := Option.some.inj ho
            exact ⟨rfl, hargv, p, hmem, hp⟩
          · cases ho

/-- Identifiers have no bound: for every `m` there is a run in which one
server accepts `m` inserts, all at the front of one list, and the `i`-th of
them carries an identifier of `i + 1` positions. Beyond the buffer its
decoder stores out of bounds, at the issuer as at every receiver. -/
theorem identifiers_unbounded (dbl : String → Option ℤ) (me : Fin n) (m : ℕ) :
    ∃ k : Net n, Reachable (crdtService dbl) (.once (Issues rwflCmds)) k ∧
      k.sent.length = m ∧ ∀ i o, k.sent[i]? = some o →
        o.src = me ∧ (∃ args, o.msg = (frontArgv i).map Arg.str ++ args) ∧
        ∃ p, Arg.leid p ∈ o.msg ∧ p.length = i + 1 ∧
          ((Arg.leid p : Arg n).Decodes ↔ i < leidBuf) := by
  obtain ⟨k, hk, -, hlen, -, hops⟩ := front_run dbl me m
  refine ⟨k, hk, hlen, fun i o ho => ?_⟩
  exact ⟨(hops i o ho).src, (hops i o ho).argv, (hops i o ho).leid_decodes⟩

-- ======================================================== both buffers

-- `fits` searches the 1024 positions of the buffer
set_option maxRecDepth 2000

/-- While the accepted commands fit, all that was sent is decoded inside
the buffers, and what a server would send next is decoded so exactly if
its command fits the keys it is given to. -/
theorem decoders_safe_iff {dbl : String → Option ℤ}
    {pol : Policy n (Db n) (List String) (List (Arg n))} {k : Net n}
    (hk : Reachable ((crdtService dbl).limit fun _ => fits) pol k) :
    (∀ o ∈ k.sent, ∀ a ∈ o.msg, a.Decodes) ∧
      ∀ me argv db rargv, prepareCommand dbl me argv (k.site me) = some (db, .ok rargv) →
        ((∀ a ∈ rargv, a.Decodes) ↔ fits argv (k.site me) = true) := by
  refine ⟨decodes_of_limit hk, fun me argv db rargv hp => ?_⟩
  exact ⟨fits_of_decodes (fits_kept hk me) hp, decodes_of_fits (fits_kept hk me) hp⟩

/-- A hundred servers, an insert and an add. -/
theorem decoders_safe_hundred : ∃ k : Net 100,
    Reachable ((crdtService getLongLongFromObject).limit fun _ => fits) (.once fun _ => True) k ∧
      k.sent.length = 2 ∧ ∀ o ∈ k.sent, ∀ a ∈ o.msg, a.Decodes := by
  obtain ⟨k, hrun, hlen⟩ : ∃ k : Net 100,
      ((crdtService getLongLongFromObject).limit fun _ => fits).run
        ((crdtService getLongLongFromObject).limit fun _ => fits).start
        [.submit 0 ["rwflinsert", "l", "null", "a", "x", "1", "2", "3", "0"],
          .submit 1 ["rwfzadd", "z", "a", "1"]] = some k ∧
      k.sent.length = 2 := ⟨_, rfl, rfl⟩
  have hk : Reachable ((crdtService getLongLongFromObject).limit fun _ => fits)
      (.once fun _ => True) k := Service.run_reachable (by decide) hrun
  exact ⟨k, hk, hlen, (decoders_safe_iff hk).1⟩

/-- Both buffers can be overrun: `vc_int_buf` by the first operation of
101 servers, `leid_buf` by the 1025th of a single one. -/
theorem decoders_overrun :
    (∃ k : Net 101, Reachable (crdtService getLongLongFromObject) (.once fun _ => True) k ∧
      k.sent.length = 1 ∧ ∃ o ∈ k.sent, ∃ t, Arg.vc t ∈ o.msg ∧ ¬ (Arg.vc t).Decodes) ∧
    ∃ k : Net 1, Reachable (crdtService getLongLongFromObject) (.once (Issues rwflCmds)) k ∧
      k.sent.length = 1025 ∧
        ∃ o ∈ k.sent, ∃ p, Arg.leid p ∈ o.msg ∧ ¬ (Arg.leid p : Arg 1).Decodes := by
  constructor
  · obtain ⟨k, o, t, hrun, hsent, ht⟩ : ∃ (k : Net 101) (o : Op 101 (List (Arg 101))) (t : Vc 101),
        (crdtService getLongLongFromObject).run (crdtService getLongLongFromObject).start
          [.submit 0 ["rwfzadd", "z", "a", "1"]] = some k ∧
        k.sent = [o] ∧ o.msg[4]? = some (.vc t) := ⟨_, _, _, rfl, rfl, rfl⟩
    have hk : Reachable (crdtService getLongLongFromObject) (.once fun _ => True) k :=
      Service.run_reachable (by decide) hrun
    have hfar : ¬ (Arg.vc t).Decodes := by
      rw [decodes_vc_iff (by decide)]
      decide
    refine ⟨k, hk, ?_, o, ?_, t, List.mem_of_getElem? ht, hfar⟩
    · rw [hsent, List.length_singleton]
    · rw [hsent]
      exact List.mem_singleton_self o
  · obtain ⟨k, hk, -, hlen, -, hops⟩ := front_run getLongLongFromObject (0 : Fin 1) 1025
    have hlast : 1024 < k.sent.length := by omega
    obtain ⟨p, hmem, -, hp⟩ := (hops 1024 _ (List.getElem?_eq_getElem hlast)).leid_decodes
    refine ⟨k, hk, hlen, _, List.getElem_mem hlast, p, hmem, ?_⟩
    rw [hp]
    decide

end CrdtRedis
