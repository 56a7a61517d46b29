/-
What the keys of a server hold, whatever commands are mixed and whatever
names they use.

A list and a record table are both a hash, and nothing keeps a client from
using one key for several of them. So an invariant of what is stored has
to speak of every hash and be kept by every command. `Hash.Kept` is the
shape of such an invariant: a property `R` of the records, and a property
`L` of the position identifiers, wherever they are kept: in the records of
either list, and in the arguments of the commands a remove-wins list
buffers.

# Where identifiers come from

An identifier in a message was read from a record, or made by an insert
between two neighbours (`newGap`). So a property of identifiers that
`constructLeid` hands on holds of all that is ever sent
(`kept_of_reachable`).
-/
import CrdtRedis.Local
import CrdtRedis.ListInsert

namespace CrdtRedis

open Replication

variable {n : ℕ} {E E' A : Type} {R : Value n → Prop} {L : Leid → Prop}

-- ========================================================= arguments

/-- Every identifier among the arguments has `L`. -/
def LeidsIn (L : Leid → Prop) (args : List (Arg n)) : Prop := ∀ p, Arg.leid p ∈ args → L p

theorem leidsIn_append {l l' : List (Arg n)} :
    LeidsIn L (l ++ l') ↔ LeidsIn L l ∧ LeidsIn L l' := by
  simp only [LeidsIn, List.mem_append, or_imp, forall_and]

theorem leidsIn_str (argv : List String) : LeidsIn (n := n) L (argv.map Arg.str) := by
  intro p hp
  obtain ⟨s, -, hs⟩ := List.mem_map.mp hp
  cases hs

/-- Times are no identifiers. -/
theorem leidsIn_vc (t : Vc n) : LeidsIn L [Arg.vc t] := by
  intro p hp
  cases List.mem_singleton.mp hp

theorem leidsIn_lcs {B : Type} (f : B → Lc) (l : List B) :
    LeidsIn (n := n) L (l.map fun b => Arg.lc (f b)) := by
  intro p hp
  obtain ⟨b, -, hb⟩ := List.mem_map.mp hp
  cases hb

theorem LeidsIn.mono {l l' : List (Arg n)} (h : LeidsIn L l) (hsub : l' ⊆ l) : LeidsIn L l' :=
  fun p hp => h p (hsub hp)

theorem LeidsIn.leidAt {args : List (Arg n)} (h : LeidsIn L args) {i : ℕ} {p : Leid}
    (hp : leidAt i args = some p) : L p := by
  unfold CrdtRedis.leidAt at hp
  split at hp
  · next p' hget =>
      obtain rfl := Option.some.inj hp
      exact h p' (List.mem_of_getElem? hget)
  · cases hp

-- ============================================================ hashes

/-- A value with `R`, as far as it is a record of an element, whose
buffered commands carry identifiers with `L`. -/
def Value.Kept (R : Value n → Prop) (L : Leid → Prop) : Value n → Prop
  | .ops cmds => ∀ c ∈ cmds, LeidsIn L c.argv
  | .rle _ => True
  | .rwfle _ => True
  | .clock _ => True
  | .length _ => True
  | v => R v

namespace ListKind

/-- The records of a kind are sound and their identifiers have `L`. -/
structure Tidy (K : ListKind n E) (L : Leid → Prop) (h : Hash n) : Prop where
  sound : K.Sound h
  pos : ∀ a p, K.posAt h a = some p → L p

/-- Two kinds of lists that keep apart: neither writes the other's records
or reads its pointers. -/
structure Apart (K : ListKind n E) (K' : ListKind n E') : Prop where
  lawful : K.Lawful
  plain : K.Plain
  heap : ∀ h f, K'.heap (K.setHeap h f) = K'.heap h
  ptr : ∀ a, K'.unptr (K.ptr a) = none
  kept : ∀ R L a, (K.ptr a).Kept R L
  other : K'.Lawful
  otherPlain : K'.Plain

theorem rle_apart : (rleKind (n := n)).Apart rwfleKind :=
  ⟨rleKind_lawful, rleKind_plain, fun _ _ => rfl, fun _ => rfl, fun _ _ _ => trivial,
    rwfleKind_lawful, rwfleKind_plain⟩

theorem rwfle_apart : (rwfleKind (n := n)).Apart rleKind :=
  ⟨rwfleKind_lawful, rwfleKind_plain, fun _ _ => rfl, fun _ => rfl, fun _ _ _ => trivial,
    rleKind_lawful, rleKind_plain⟩

variable {K : ListKind n E} {h h' : Hash n}

/-- Writes elsewhere keep the records of a kind tidy. -/
theorem Tidy.aside (ht : K.Tidy L h) (hheap : K.heap h' = K.heap h)
    (hfields : ∀ f, h'.fields f = h.fields f ∨ ∃ v, h'.fields f = some v ∧ K.unptr v = none) :
    K.Tidy L h' := by
  refine ⟨⟨?_, ?_, ?_⟩, ?_⟩
  · intro a ha
    rw [hheap] at ha
    rcases hfields a with heq | ⟨v, hv, -⟩
    · rw [heq]
      exact ht.sound.taken a ha
    · rw [hv]
      rfl
  · intro f v a hf hv ha
    rcases hfields f with heq | ⟨v', hv', hno⟩
    · rw [heq] at hv
      exact ht.sound.addr f v a hf hv ha
    · rw [hv'] at hv
      rw [← Option.some.inj hv, hno] at ha
      cases ha
  · intro a e he
    rw [hheap] at he
    exact ht.sound.posId a e he
  · intro a p hp
    rw [posAt, hheap] at hp
    exact ht.pos a p hp

theorem Tidy.quiet (ht : K.Tidy L h) (hq : K.Quiet h h') : K.Tidy L h' := by
  refine ⟨ht.sound.quiet hq, fun a p hp => ht.pos a p ?_⟩
  rwa [posAt_congr (hq.mark a)] at hp

/-- The neighbours of a place have `L`. -/
theorem Tidy.gap (ht : K.Tidy L h) (w : String) :
    (∀ p ∈ (K.gap h w).1, L p) ∧ ∀ p ∈ (K.gap h w).2, L p := by
  obtain ⟨hleft, hright⟩ := K.gap_posAt h w
  constructor
  · intro p hp
    obtain ⟨a, ha⟩ := hleft p hp
    exact ht.pos a p ha
  · intro p hp
    obtain ⟨a, ha⟩ := hright p hp
    exact ht.pos a p ha

/-- The neighbours of the identifier an insert of `oid` behind `w` makes,
if it makes one. -/
def newGap (K : ListKind n E) (h : Hash n) (w oid : String) : Option (Option Leid × Option Leid) :=
  if K.posOf h oid = none then some (K.gap h w) else none

/-- An identifier that an insert makes is the one it broadcasts. -/
theorem Accepts.pos_of_newGap {me : Fin n} {w : String} {i : Placement}
    {b : Option Leid × Option Leid} (hacc : K.Accepts me h w i)
    (hgap : K.newGap h w i.oid = some b) : ∃ t : Vc n, i.pos = constructLeid b.1 b.2 t := by
  unfold newGap at hgap
  cases hacc with
  | fresh hnone _ _ hpos =>
      rw [if_pos hnone] at hgap
      obtain rfl := Option.some.inj hgap
      exact ⟨_, hpos⟩
  | again _ hpos =>
      rw [if_neg (by rw [hpos]; exact Option.some_ne_none _)] at hgap
      cases hgap

/-- An accepted insert broadcasts a new identifier or one it found. -/
theorem Tidy.accepts (ht : K.Tidy L h) {me : Fin n} {w : String} {i : Placement}
    (hnew : ∀ b t, K.newGap h w i.oid = some b → (∀ p ∈ b.1, L p) → (∀ p ∈ b.2, L p) →
      L (constructLeid b.1 b.2 (t : Vc n)))
    (hacc : K.Accepts me h w i) : L i.pos := by
  cases hacc with
  | fresh hnone _ _ hpos =>
      rw [hpos]
      exact hnew _ _ (if_pos hnone) (ht.gap w).1 (ht.gap w).2
  | again _ hpos =>
      obtain ⟨a, -, ha⟩ := posOf_posAt hpos
      exact ht.pos a _ ha

end ListKind

namespace Hash

/-- What is kept in a hash, for two kinds of lists that may share it. -/
structure Kept (K : ListKind n E) (K' : ListKind n E') (R : Value n → Prop) (L : Leid → Prop)
    (h : Hash n) : Prop where
  value : ∀ f v, h.fields f = some v → v.Kept R L
  own : K.Tidy L h
  other : K'.Tidy L h

variable {K : ListKind n E} {K' : ListKind n E'} {h h' : Hash n} {me : Fin n}

theorem Kept.swap (hh : h.Kept K K' R L) : h.Kept K' K R L := ⟨hh.value, hh.other, hh.own⟩

theorem kept_empty : (Hash.empty : Hash n).Kept rleKind rwfleKind R L := by
  refine ⟨(fun _ _ hf => nomatch hf), ⟨ListKind.sound_empty _ fun _ => rfl, ?_⟩,
    ⟨ListKind.sound_empty _ fun _ => rfl, ?_⟩⟩ <;>
    exact fun _ _ hp => nomatch hp

/-- A field takes a value that is no pointer. -/
theorem Kept.set (hh : h.Kept K K' R L) (ha : K.Apart K') (f : String) {v : Value n}
    (hv : v.Kept R L) (hown : K.unptr v = none) (hother : K'.unptr v = none) :
    (h.set f v).Kept K K' R L := by
  have hfields : ∀ g, (h.set f v).fields g = h.fields g ∨
      (h.set f v).fields g = some v := by
    intro g
    by_cases hg : g = f
    · exact Or.inr (by simp [Hash.set, hg])
    · exact Or.inl (by simp [Hash.set, hg])
  refine ⟨?_, ?_, ?_⟩
  · intro g u hu
    rcases hfields g with heq | heq
    · exact hh.value g u (heq ▸ hu)
    · obtain rfl := Option.some.inj (heq.symm.trans hu)
      exact hv
  · exact hh.own.aside (ha.lawful.heap_set h f v)
      fun g => (hfields g).imp_right fun heq => ⟨v, heq, hown⟩
  · exact hh.other.aside (ha.other.heap_set h f v)
      fun g => (hfields g).imp_right fun heq => ⟨v, heq, hother⟩

variable (ha : K.Apart K')

include ha

theorem Kept.clock (hh : h.Kept K K' R L) (c : Vc n) :
    (h.set "current" (.clock c)).Kept K K' R L :=
  hh.set ha _ trivial (ha.plain.clock c) (ha.otherPlain.clock c)

theorem Kept.length (hh : h.Kept K K' R L) (len : ℤ) :
    (h.set "length" (.length len)).Kept K K' R L :=
  hh.set ha _ trivial (ha.plain.length len) (ha.otherPlain.length len)

theorem Kept.ops (hh : h.Kept K K' R L) {cmds : List (RlCmd n)}
    (hcmds : ∀ c ∈ cmds, LeidsIn L c.argv) : (h.set "ops" (.ops cmds)).Kept K K' R L :=
  hh.set ha _ hcmds (ha.plain.ops cmds) (ha.otherPlain.ops cmds)

/-- The clock is read, and made if there is none. -/
theorem Kept.getCurrent (hh : h.Kept K K' R L) {c : Vc n}
    (hget : getCurrent me h = some (h', c)) : h'.Kept K K' R L := by
  rcases (getCurrent_cases hget).2 with ⟨rfl, -⟩ | ⟨rfl, -⟩
  · exact hh
  · exact hh.clock ha c

theorem Kept.incrLen (hh : h.Kept K K' R L) {inc : ℤ} (hincr : incrLen h inc = some h') :
    h'.Kept K K' R L := by
  obtain ⟨len, -, rfl⟩ := Option.map_eq_some_iff.mp hincr
  exact hh.length ha _

/-- The buffer is read, and made if there is none. -/
theorem Kept.getOps (hh : h.Kept K K' R L) {cmds : List (RlCmd n)}
    (hget : getOps h = some (h', cmds)) :
    h'.Kept K K' R L ∧ ∀ c ∈ cmds, LeidsIn L c.argv := by
  obtain ⟨hcases, hfield⟩ := Rl.getOps_control hget
  have hh' : h'.Kept K K' R L := by
    unfold CrdtRedis.getOps at hget
    split at hget
    · obtain ⟨rfl, -⟩ := Prod.mk.inj (Option.some.inj hget)
      exact hh.ops ha fun _ hc => nomatch hc
    · obtain ⟨rfl, -⟩ := Prod.mk.inj (Option.some.inj hget)
      exact hh
    · cases hget
  exact ⟨hh', hh'.value _ _ hfield⟩

/-- A record is looked up, and made if there is none. -/
theorem Kept.findOrCreate (hh : h.Kept K K' R L) {key addr : String}
    (hget : K.findOrCreate me h key = some (h', addr)) : h'.Kept K K' R L := by
  have hown : K.Tidy L h' := by
    refine ⟨hh.own.sound.make ha.lawful hget, fun a p hp => hh.own.pos a p ?_⟩
    rwa [hh.own.sound.posAt_make ha.lawful hget] at hp
  have hheap : K'.heap h' = K'.heap h := by
    unfold ListKind.findOrCreate at hget
    split at hget
    · obtain ⟨rfl, -⟩ := Prod.mk.inj (Option.some.inj hget)
      rw [ha.other.heap_allocs, ha.heap, ha.other.heap_set]
    · obtain ⟨a, -, heq⟩ := Option.map_eq_some_iff.mp hget
      rw [← (Prod.mk.inj heq).1]
  rcases ListKind.findOrCreate_cases ha.lawful hget with
    ⟨-, -, -, rfl⟩ | ⟨-, rfl, -, hfields, -⟩
  · exact hh
  have hor : ∀ f, h'.fields f = h.fields f ∨ h'.fields f = some (K.ptr addr) := by
    intro f
    rw [hfields]
    by_cases hf : f = addr
    · exact Or.inr (by rw [hf, Function.update_self])
    · exact Or.inl (Function.update_of_ne hf _ _)
  refine ⟨?_, hown, hh.other.aside hheap fun f => (hor f).imp_right fun heq => ⟨_, heq, ha.ptr _⟩⟩
  intro f v hv
  rcases hor f with heq | heq
  · exact hh.value f v (heq ▸ hv)
  · rw [← Option.some.inj (heq.symm.trans hv)]
    exact ha.kept R L addr

/-- The body of a record is written. -/
theorem Kept.modify (hh : h.Kept K K' R L) (addr : String) (f : ListRec E → E) :
    (K.modify h addr fun e => { e with body := f e }).Kept K K' R L := by
  refine ⟨?_, hh.own.quiet (.modify ha.lawful h addr f), hh.other.aside (ha.heap _ _) ?_⟩
  · rw [ListKind.fields_modify ha.lawful]
    exact hh.value
  · exact fun g => Or.inl (by rw [ListKind.fields_modify ha.lawful])

/-- What an insertion into the chain leaves apart from its own records: at
most `head` points elsewhere. -/
theorem insertChain_aside {g g' : Hash n} {pre addr : String} {pos : Leid}
    (hins : K.insertChain g pre addr pos = some g') :
    K'.heap g' = K'.heap g ∧
      ∀ f, g'.fields f = g.fields f ∨ g'.fields f = some (K.ptr addr) := by
  have hset : ∀ f, (K.setHead g addr).fields f = g.fields f ∨
      (K.setHead g addr).fields f = some (K.ptr addr) := by
    intro f
    by_cases hf : f = "head"
    · exact Or.inr (by simp [ListKind.setHead, Hash.set, hf])
    · exact Or.inl (by simp [ListKind.setHead, Hash.set, hf])
  rcases ListKind.insertChain_cases hins with ⟨-, rfl⟩ |
    ⟨head, x, -, -, ⟨-, rfl⟩ | ⟨-, po, s, p, q, -, -, -, rfl⟩⟩
  · exact ⟨ha.other.heap_set _ _ _, hset⟩
  · refine ⟨(ha.heap _ _).trans (ha.other.heap_set _ _ _), fun f => ?_⟩
    rw [ListKind.fields_modify ha.lawful]
    exact hset f
  · refine ⟨(ha.heap _ _).trans (ha.heap _ _), fun f => Or.inl ?_⟩
    rw [ListKind.fields_modify ha.lawful, ListKind.fields_modify ha.lawful]

/-- A record is placed under an identifier with `L`. -/
theorem Kept.position (hh : h.Kept K K' R L) {i : Placement} {addr : String} (hL : L i.pos)
    (hpos : K.position h i.pre i.oid i.content addr i.pos = some h') : h'.Kept K K' R L := by
  have hown : K.Tidy L h' := by
    refine ⟨hh.own.sound.place ha.lawful hpos, ?_⟩
    rcases hh.own.sound.posAt_place ha.lawful hpos with ⟨rfl, -⟩ | ⟨-, heq⟩
    · exact hh.own.pos
    · intro a p hp
      rw [heq] at hp
      by_cases haa : a = addr
      · rw [haa, Function.update_self] at hp
        rwa [← Option.some.inj hp]
      · rw [Function.update_of_ne haa] at hp
        exact hh.own.pos a p hp
  obtain ⟨e, -, ⟨-, rfl⟩ | ⟨-, hins⟩⟩ := ListKind.position_cases hpos
  · exact hh
  obtain ⟨hheap, hor⟩ := insertChain_aside ha hins
  rw [ListKind.fields_modify ha.lawful] at hor
  refine ⟨?_, hown, hh.other.aside (hheap.trans (ha.heap _ _))
    fun f => (hor f).imp_right fun heq => ⟨_, heq, ha.ptr _⟩⟩
  intro f v hv
  rcases hor f with heq | heq
  · exact hh.value f v (heq ▸ hv)
  · rw [← Option.some.inj (heq.symm.trans hv)]
    exact ha.kept R L addr

/-- The identifier of an insert is chosen; the clock may move. -/
theorem Kept.placeAt (hh : h.Kept K K' R L) {count : Vc n → Vc n} {pre : Option (ListRec E)}
    {preArg oid : String} {e : ListRec E} {res : Except Reply Leid}
    (hpl : K.placeAt me count h pre preArg oid e = some (h', res)) : h'.Kept K K' R L := by
  rcases ListKind.placeAt_cases ha.plain hpl with ⟨rfl, -⟩ | ⟨rfl, -⟩
  · exact hh
  · exact hh.clock ha _

theorem Kept.insertPrepared {lookup : ListRec E → Bool} {argv : List String}
    {ho ho' : Option (Hash n)} {count : Vc n → Vc n}
    {stamp : Hash n → ListRec E → Option (Hash n × Vc n)} {res : Except Reply (List (Arg n))}
    (hh : (ho.getD .empty).Kept K K' R L)
    (hstamp : ∀ {h h' : Hash n} {e t}, h.Kept K K' R L → stamp h e = some (h', t) →
      h'.Kept K K' R L)
    (hp : K.InsertPrepared lookup me argv ho count stamp ho' res) :
    (ho'.getD .empty).Kept K K' R L := by
  cases hp with
  | noPre _ => exact hh
  | shown hat _ => exact hh.findOrCreate ha hat.get
  | noPlace hat _ hplace => exact (hh.findOrCreate ha hat.get).placeAt ha hplace
  | placed hat _ hplace hst => exact hstamp ((hh.findOrCreate ha hat.get).placeAt ha hplace) hst

end Hash

-- ================================================ the remove-wins list

namespace Rl

open ListKind (rle_apart)

variable {me : Fin n} {h h' : Hash n}

theorem tick_kept (hh : h.Kept rleKind rwfleKind R L) {t : Vc n}
    (htick : tick me t h = some h') : h'.Kept rleKind rwfleKind R L := by
  obtain ⟨p, hget, rfl⟩ := Option.map_eq_some_iff.mp htick
  exact (hh.getCurrent rle_apart hget).clock rle_apart _

theorem stampNow_kept (hh : h.Kept rleKind rwfleKind R L) {t : Vc n}
    (hst : stampNow me h = some (h', t)) : h'.Kept rleKind rwfleKind R L := by
  obtain ⟨p, hget, heq⟩ := Option.map_eq_some_iff.mp hst
  obtain ⟨rfl, -⟩ := Prod.mk.inj heq
  exact hh.getCurrent rle_apart hget

theorem changeSets_kept (hh : h.Kept rleKind rwfleKind R L) {addr : String} {inc : ℤ}
    {shown : Bool} {f : RwSets n (RlAse n) → RwSets n (RlAse n)}
    (hch : changeSets h addr inc shown f = some h') : h'.Kept rleKind rwfleKind R L := by
  obtain ⟨e, -, hch⟩ := Option.bind_eq_some_iff.mp hch
  have hmod := hh.modify rle_apart addr fun e => f e.body
  dsimp only at hch
  split at hch
  · exact hmod.incrLen rle_apart hch
  · obtain rfl := Option.some.inj hch
    exact hmod

theorem changed_kept (hh : h.Kept rleKind rwfleKind R L) {cmd : RlCmd n} {addr : String}
    (hch : Changed cmd addr h h') : h'.Kept rleKind rwfleKind R L := by
  unfold Changed at hch
  split at hch
  · obtain ⟨v, -, hch⟩ := hch
    exact changeSets_kept hh hch
  · obtain ⟨type, value, -, -, rfl⟩ := hch
    split
    · exact hh
    · exact hh.modify rle_apart _ _
  · exact changeSets_kept hh hch

/-- The identifier of a command that places a record is among its
arguments. -/
theorem applyCmd_pos {cmd : RlCmd n} {i : Placement} (hop : cmd.op = .insert i)
    (happ : applyCmd me cmd h = some h') : leidAt 8 cmd.argv = some i.pos := by
  unfold applyCmd at happ
  unfold RlCmd.op at hop
  cases hty : cmd.type with
  | rladd =>
      simp only [hty] at happ hop
      obtain ⟨pre, -, happ⟩ := Option.bind_eq_some_iff.mp happ
      obtain ⟨oid, -, happ⟩ := Option.bind_eq_some_iff.mp happ
      obtain ⟨content, -, happ⟩ := Option.bind_eq_some_iff.mp happ
      obtain ⟨pos, hpos, -⟩ := Option.bind_eq_some_iff.mp happ
      injection hop with hi
      rw [← hi, hpos]
      rfl
  | rlupdate =>
      rw [hty] at hop
      cases hop
  | rlrem =>
      rw [hty] at hop
      cases hop

theorem applyCmd_kept (hh : h.Kept rleKind rwfleKind R L) {cmd : RlCmd n}
    (hcmd : LeidsIn L cmd.argv) (happ : applyCmd me cmd h = some h') :
    h'.Kept rleKind rwfleKind R L := by
  obtain ⟨h₁, h₂, addr, g, htick, hget, hplace, hother, hch⟩ := applyCmd_cases happ
  have hmade := (tick_kept hh htick).findOrCreate rle_apart hget
  refine changed_kept ?_ hch
  cases hop : cmd.op with
  | insert i => exact hmade.position rle_apart (hcmd.leidAt (applyCmd_pos hop happ)) (hplace i hop)
  | touch oid =>
      rw [hother fun i hi => by rw [hop] at hi; cases hi]
      exact hmade

theorem notifyLoop_kept (hh : h.Kept rleKind rwfleKind R L)
    (hloop : notifyLoop me h = some h') : h'.Kept rleKind rwfleKind R L := by
  obtain ⟨⟨h₁, cmds⟩, hops, hloop⟩ := Option.bind_eq_some_iff.mp hloop
  obtain ⟨h₂, hnotify, rfl⟩ := Option.map_eq_some_iff.mp hloop
  obtain ⟨hh₁, hcmds⟩ := hh.getOps rle_apart hops
  have hh₂ : h₂.Kept rleKind rwfleKind R L :=
    notify_option_forall (J := fun h : Hash n => h.Kept rleKind rwfleKind R L) hh₁
      (fun s c s' hs hc happ => applyCmd_kept hs (hcmds c hc) happ) hnotify
  exact hh₂.ops rle_apart fun c hc => hcmds c (mem_of_notify (Or.inr hc))

theorem receive_kept (hh : h.Kept rleKind rwfleKind R L) {type : RlCmdType}
    {rargv : List (Arg n)} (hm : LeidsIn L rargv) (hrec : receive type me rargv h = some h') :
    h'.Kept rleKind rwfleKind R L := by
  obtain ⟨t, -, hrec⟩ := Option.bind_eq_some_iff.mp hrec
  obtain ⟨⟨h₁, c⟩, hcur, hrec⟩ := Option.bind_eq_some_iff.mp hrec
  have hh₁ := hh.getCurrent rle_apart hcur
  have hdrop : LeidsIn L (rargv.drop 1) := hm.mono (List.drop_subset 1 rargv)
  dsimp only at hrec
  split at hrec
  · obtain ⟨h₂, happ, hloop⟩ := Option.bind_eq_some_iff.mp hrec
    exact notifyLoop_kept (applyCmd_kept hh₁ hdrop happ) hloop
  · obtain ⟨⟨h₂, cmds⟩, hops, rfl⟩ := Option.map_eq_some_iff.mp hrec
    obtain ⟨hh₂, hcmds⟩ := hh₁.getOps rle_apart hops
    refine hh₂.ops rle_apart fun c hc => ?_
    rcases List.mem_append.mp hc with hc | hc
    · exact hcmds c hc
    · rw [List.mem_singleton.mp hc]
      exact hdrop.mono (List.take_subset _ _)

variable {argv : List String} {ho ho' : Option (Hash n)} {res : Except Reply (List (Arg n))}

theorem insertPrepare_kept (hh : (ho.getD .empty).Kept rleKind rwfleKind R L)
    (hp : insertPrepare me argv ho = some (ho', res)) :
    (ho'.getD .empty).Kept rleKind rwfleKind R L :=
  hh.insertPrepared rle_apart (fun hh hst => stampNow_kept hh hst) (insertPrepare_cases hp)

theorem nonAddPrepare_kept {sent : List String}
    (hh : (ho.getD .empty).Kept rleKind rwfleKind R L)
    (hp : nonAddPrepare sent me argv ho = some (ho', res)) :
    (ho'.getD .empty).Kept rleKind rwfleKind R L := by
  cases nonAddPrepare_cases hp with
  | nexist => exact hh
  | accepted hho _ _ _ happend =>
      obtain ⟨⟨h₁, t⟩, hst, heq⟩ := Option.map_eq_some_iff.mp happend
      obtain ⟨rfl, -⟩ := Prod.mk.inj heq
      subst hho
      exact stampNow_kept hh hst

/-- An update or remove broadcasts words and the next clock. -/
theorem nonAddPrepare_sends {sent : List String} {rargv : List (Arg n)}
    (hp : nonAddPrepare sent me argv ho = some (ho', .ok rargv)) :
    ∃ t, rargv = sent.map Arg.str ++ [.vc t] := by
  cases nonAddPrepare_cases hp with
  | accepted _ _ _ _ happend =>
      obtain ⟨⟨h₁, t⟩, -, heq⟩ := Option.map_eq_some_iff.mp happend
      obtain ⟨-, rfl⟩ := Prod.mk.inj heq
      exact ⟨t, rfl⟩

end Rl

-- ======================================================== the RWF list

namespace Rwfl

open ListKind (rwfle_apart)

variable {me : Fin n} {h h' : Hash n}

theorem setBody_kept (hh : h.Kept rwfleKind rleKind R L) (addr : String) (body : RwflBody n) :
    (setBody h addr body).Kept rwfleKind rleKind R L :=
  hh.modify rwfle_apart addr fun _ => body

theorem removeFunc_kept (hh : h.Kept rwfleKind rleKind R L) {addr : String} {t : Vc n}
    (hrem : removeFunc addr t h = some h') : h'.Kept rwfleKind rleKind R L := by
  obtain ⟨e, -, hrem⟩ := Option.bind_eq_some_iff.mp hrem
  split at hrem
  · dsimp only at hrem
    split at hrem
    · exact (setBody_kept hh _ _).incrLen rwfle_apart hrem
    · obtain rfl := Option.some.inj hrem
      exact setBody_kept hh _ _
  · obtain rfl := Option.some.inj hrem
    exact hh

theorem addFunc_kept (hh : h.Kept rwfleKind rleKind R L) {addr : String} {v : InsertProps}
    {t : Vc n} (hadd : addFunc addr v t h = some h') : h'.Kept rwfleKind rleKind R L := by
  obtain ⟨e, -, hadd⟩ := Option.bind_eq_some_iff.mp hadd
  split at hadd
  · dsimp only at hadd
    split at hadd
    · obtain rfl := Option.some.inj hadd
      exact setBody_kept hh _ _
    · exact (setBody_kept hh _ _).incrLen rwfle_apart hadd
  · obtain rfl := Option.some.inj hadd
    exact hh

theorem updateFunc_kept (hh : h.Kept rwfleKind rleKind R L) {addr type : String} {lt : Lc}
    {value : ℤ} {t : Vc n} (hup : updateFunc addr type lt value t h = some h') :
    h'.Kept rwfleKind rleKind R L := by
  obtain ⟨e, -, rfl⟩ := Option.map_eq_some_iff.mp hup
  split
  · exact setBody_kept hh _ _
  · exact hh

theorem apply_kept (hh : h.Kept rwfleKind rleKind R L) {m : RwflOp n}
    (hpos : ∀ i, m.op = .insert i → L i.pos) (happ : m.apply me h = some h') :
    h'.Kept rwfleKind rleKind R L := by
  cases m with
  | insert i v t =>
      obtain ⟨⟨h₁, addr⟩, hget, happ⟩ := Option.bind_eq_some_iff.mp happ
      obtain ⟨h₂, hrem, happ⟩ := Option.bind_eq_some_iff.mp happ
      obtain ⟨h₃, hplace, hadd⟩ := Option.bind_eq_some_iff.mp happ
      have hrm := removeFunc_kept (hh.findOrCreate rwfle_apart hget) hrem
      exact addFunc_kept (hrm.position rwfle_apart (hpos i rfl) hplace) hadd
  | update oid type value lt t =>
      obtain ⟨⟨h₁, addr⟩, hget, happ⟩ := Option.bind_eq_some_iff.mp happ
      obtain ⟨h₂, hrem, hup⟩ := Option.bind_eq_some_iff.mp happ
      exact updateFunc_kept (removeFunc_kept (hh.findOrCreate rwfle_apart hget) hrem) hup
  | rem oid t =>
      obtain ⟨⟨h₁, addr⟩, hget, hrem⟩ := Option.bind_eq_some_iff.mp happ
      exact removeFunc_kept (hh.findOrCreate rwfle_apart hget) hrem

/-- The identifier of a broadcast that places a record is among its
arguments. -/
theorem decode_pos {c : Cmd} {rargv : List (Arg n)} {m : RwflOp n} (hm : LeidsIn L rargv)
    (hdec : rwflDecode c rargv = some m) : ∀ i, m.op = .insert i → L i.pos := by
  intro i hi
  cases c with
  | rwflinsert =>
      obtain ⟨t, -, hdec⟩ := Option.bind_eq_some_iff.mp hdec
      obtain ⟨pre, -, hdec⟩ := Option.bind_eq_some_iff.mp hdec
      obtain ⟨oid, -, hdec⟩ := Option.bind_eq_some_iff.mp hdec
      obtain ⟨content, -, hdec⟩ := Option.bind_eq_some_iff.mp hdec
      obtain ⟨pos, hpos, hdec⟩ := Option.bind_eq_some_iff.mp hdec
      obtain ⟨v, -, rfl⟩ := Option.map_eq_some_iff.mp hdec
      injection hi with hi
      rw [← hi]
      exact hm.leidAt hpos
  | rwflupdate =>
      obtain ⟨t, -, hdec⟩ := Option.bind_eq_some_iff.mp hdec
      obtain ⟨oid, -, hdec⟩ := Option.bind_eq_some_iff.mp hdec
      obtain ⟨type, -, hdec⟩ := Option.bind_eq_some_iff.mp hdec
      obtain ⟨value, -, hdec⟩ := Option.bind_eq_some_iff.mp hdec
      obtain ⟨lt, -, rfl⟩ := Option.map_eq_some_iff.mp hdec
      cases hi
  | rwflrem =>
      obtain ⟨t, -, hdec⟩ := Option.bind_eq_some_iff.mp hdec
      obtain ⟨oid, -, rfl⟩ := Option.map_eq_some_iff.mp hdec
      cases hi
  | _ => cases hdec

variable {argv : List String} {ho ho' : Option (Hash n)} {res : Except Reply (List (Arg n))}

theorem insertPrepare_kept (hh : (ho.getD .empty).Kept rwfleKind rleKind R L)
    (hp : insertPrepare me argv ho = some (ho', res)) :
    (ho'.getD .empty).Kept rwfleKind rleKind R L := by
  refine hh.insertPrepared rwfle_apart (fun hh hst => ?_) (insertPrepare_cases hp)
  cases hst
  exact hh

theorem nonAddPrepare_kept {sent : List String} {append : RwflBody n → List (Arg n)}
    (hh : (ho.getD .empty).Kept rwfleKind rleKind R L)
    (hp : nonAddPrepare sent append argv ho = some (ho', res)) :
    (ho'.getD .empty).Kept rwfleKind rleKind R L := by
  cases nonAddPrepare_cases hp with
  | nexist => exact hh
  | accepted hho _ _ _ happend =>
      cases happend
      subst hho
      exact hh

/-- An update or remove broadcasts words and what it takes from a record. -/
theorem nonAddPrepare_sends {sent : List String} {append : RwflBody n → List (Arg n)}
    {rargv : List (Arg n)} (hp : nonAddPrepare sent append argv ho = some (ho', .ok rargv)) :
    ∃ body, rargv = sent.map Arg.str ++ append body := by
  cases nonAddPrepare_cases hp with
  | accepted _ _ _ _ happend =>
      cases happend
      exact ⟨_, rfl⟩

end Rwfl

-- ======================================================== the servers

/-- What holds of every hash of a server. -/
abbrev StoreKept (R : Value n → Prop) (L : Leid → Prop) (db : Db n) : Prop :=
  EveryHash (fun h => h.Kept rleKind rwfleKind R L) db

/-- A table's records are no pointers, and no other value reads as one. -/
structure Table.Plain (T : Table n A) : Prop where
  exact : ∀ v e, T.unwrap v = some e → v = T.wrap e
  rle : ∀ e, rleKind.unptr (T.wrap e) = none
  rwfle : ∀ e, rwfleKind.unptr (T.wrap e) = none

/-- A table whose new records have `R` stores records with `R`. -/
theorem Table.Plain.stores {T : Table n A} (hT : T.Plain)
    (hnew : ∀ me, (T.wrap (T.new me)).Kept R L) :
    T.Stores (fun h => h.Kept rleKind rwfleKind R L) fun e => (T.wrap e).Kept R L := by
  refine ⟨Hash.kept_empty, hnew, ?_, ?_⟩
  · intro h f v e hh hv he
    rw [← hT.exact v e he]
    exact hh.value f v hv
  · intro h f e hh he
    exact hh.set ListKind.rle_apart f he (hT.rle e) (hT.rwfle e)

/-- What a command on an element keeps of a record, and that it broadcasts
no identifier. -/
structure ElemCommand.Keeps (cmd : ElemCommand n A) (I : A → Prop) : Prop where
  prepare : ∀ me o e args, (∀ e₀ ∈ o, I e₀) → cmd.prepare me o = .ok (e, args) → I e
  effect : ∀ dbl rargv f e, cmd.effect dbl rargv = some f → I e → I (f e).1

/-- The same for the procedure of a command, where it is about an
element. -/
def Proc.Keeps (R : Value n → Prop) (L : Leid → Prop) : Proc n → Prop
  | .elem T cmd => (∀ me, (T.wrap (T.new me)).Kept R L) ∧ cmd.Keeps fun e => (T.wrap e).Kept R L
  | .list _ => True

/-- The tables of the commands. -/
theorem Cmd.proc_plain {c : Cmd} {T : Table n A} {cmd : ElemCommand n A}
    (h : c.proc = Proc.elem T cmd) : T.Plain := by
  cases c <;> cases h <;>
    exact ⟨fun v e hv => by cases v <;> cases hv; rfl, fun _ => rfl, fun _ => rfl⟩

/-- The commands of the add-wins types, whose times are Lamport times. -/
def Cmd.lamport : Cmd → Bool
  | .ozadd | .ozincrby | .ozrem | .osadd | .osrem => true
  | _ => false

/-- What an accepted command on an element appends: Lamport times, or one
vector time. -/
inductive ElemSends (c : Cmd) : List (Arg n) → Prop
  | lcs (hc : c.lamport = true) (l : List Lc) (hl : l ≠ []) : ElemSends c (l.map Arg.lc)
  | vc (hc : c.lamport = false) (t : Vc n) : ElemSends c [.vc t]

theorem rwfAddPrepare_sends {header : A → Reh n} {new e : A} {o : Option A}
    {args : List (Arg n)} (hp : rwfAddPrepare header new o = .ok (e, args)) :
    ∃ t, args = [.vc t] := by
  unfold rwfAddPrepare at hp
  dsimp only at hp
  split at hp
  · cases hp
  · cases hp
    exact ⟨_, rfl⟩

theorem rwfNonAddPrepare_sends {header : A → Reh n} {history : Vc n → Vc n} {e : A}
    {o : Option A} {args : List (Arg n)}
    (hp : rwfNonAddPrepare header history o = .ok (e, args)) : ∃ t, args = [.vc t] := by
  unfold rwfNonAddPrepare at hp
  split at hp
  · cases hp
  · split at hp
    · cases hp
      exact ⟨_, rfl⟩
    · cases hp

theorem Cmd.proc_sends {c : Cmd} {T : Table n A} {cmd : ElemCommand n A}
    (h : c.proc = Proc.elem T cmd) {me : Fin n} {o : Option A} {e : A} {args : List (Arg n)}
    (hp : cmd.prepare me o = .ok (e, args)) : ElemSends c args := by
  have hvc : c.lamport = false → (∃ t, args = [.vc t]) → ElemSends c args := by
    intro hc ht
    obtain ⟨t, rfl⟩ := ht
    exact .vc hc t
  cases c <;> cases h
  case ozadd =>
    dsimp only [ozaddCommand] at hp
    split at hp
    · cases hp
    · cases hp
      exact .lcs rfl [_] (List.cons_ne_nil _ _)
  case ozincrby =>
    obtain ⟨-, hl, rfl⟩ := Oze.nonAddPrepare_ok hp
    exact .lcs rfl e.tags (mt List.map_eq_nil_iff.mp (of_decide_eq_true hl))
  case ozrem =>
    obtain ⟨-, hl, rfl⟩ := Oze.nonAddPrepare_ok hp
    exact .lcs rfl e.tags (mt List.map_eq_nil_iff.mp (of_decide_eq_true hl))
  case rzadd =>
    dsimp only [rzaddCommand] at hp
    split at hp
    · cases hp
    · cases hp
      exact .vc rfl _
  case rzincrby => exact hvc rfl ⟨_, (Rze.nonAddPrepare_ok hp).2.2⟩
  case rzrem => exact hvc rfl ⟨_, (Rze.nonAddPrepare_ok hp).2.2⟩
  case rwfzadd => exact hvc rfl (rwfAddPrepare_sends hp)
  case rwfzincrby =>
    have hp' : rwfNonAddPrepare Rwfze.header (fun c => c) o = .ok (e, args) := hp
    exact hvc rfl (rwfNonAddPrepare_sends hp')
  case rwfzrem => exact hvc rfl (rwfNonAddPrepare_sends hp)
  case rwfsadd => exact hvc rfl (rwfAddPrepare_sends hp)
  case rwfsrem => exact hvc rfl (rwfNonAddPrepare_sends hp)
  case osadd =>
    dsimp only [osaddCommand] at hp
    split at hp
    · cases hp
    · cases hp
      exact .lcs rfl [_] (List.cons_ne_nil _ _)
  case osrem =>
    dsimp only [osremCommand] at hp
    split at hp
    · cases hp
    · split at hp
      · next hl =>
          cases hp
          have htags := ElemSends.lcs (n := n) (c := .osrem) rfl (e.aset.map OsAse.t)
            (mt List.map_eq_nil_iff.mp (of_decide_eq_true hl))
          rwa [List.map_map] at htags
      · cases hp

theorem ElemSends.leidsIn {c : Cmd} {args : List (Arg n)} (h : ElemSends c args) :
    LeidsIn L args := by
  cases h with
  | lcs _ l _ => exact leidsIn_lcs (fun t => t) l
  | vc _ t => exact leidsIn_vc t

-- ------------------------------------------------------ list commands

theorem EveryHash.hashAt {P : Hash n → Prop} {db : Db n} (hempty : P .empty)
    (hdb : EveryHash P db) (tname : String) : P ((ListCommand.hashAt db tname).getD .empty) := by
  unfold ListCommand.hashAt
  split
  · next h hh => exact hdb _ h hh
  · exact hempty

namespace ListCommand

variable {cmd : ListCommand n} {dbl : String → Option ℤ} {me : Fin n} {argv : List String}
  {db db' : Db n} {P : Hash n → Prop}

theorem runPrepare_every (hempty : P .empty)
    (hcmd : ∀ ho ho' res, P (ho.getD .empty) → cmd.prepare me argv ho = some (ho', res) →
      P (ho'.getD .empty))
    (hdb : EveryHash P db) {res : Except Reply (List (Arg n))}
    (hp : cmd.runPrepare dbl me argv db = some (db', res)) : EveryHash P db' := by
  have hsame : ∀ {r : Except Reply (List (Arg n))}, some (db, r) = some (db', res) →
      EveryHash P db' := fun heq => (Prod.mk.inj (Option.some.inj heq)).1 ▸ hdb
  unfold runPrepare at hp
  split at hp
  · exact hsame hp
  · dsimp only at hp
    split at hp
    · exact hsame hp
    · split at hp
      · exact hsame hp
      · obtain ⟨⟨ho', res'⟩, hprep, heq⟩ := Option.map_eq_some_iff.mp hp
        rw [← (Prod.mk.inj heq).1]
        refine hdb.update _ ?_
        intro h hh
        have hP := hcmd _ ho' res' (hdb.hashAt hempty _) hprep
        cases ho' with
        | none => cases hh
        | some h' =>
            obtain rfl := Obj.hash.inj (Option.some.inj hh)
            exact hP

theorem runEffect_every (hempty : P .empty) {rargv : List (Arg n)}
    (hcmd : ∀ h h', P h → cmd.effect me rargv h = some h' → P h') (hdb : EveryHash P db)
    (he : cmd.runEffect me rargv db = some db') : EveryHash P db' := by
  obtain ⟨tname, -, he⟩ := Option.bind_eq_some_iff.mp he
  split at he
  · cases he
  · obtain ⟨h, heff, rfl⟩ := Option.map_eq_some_iff.mp he
    refine hdb.update _ ?_
    intro h' hh
    obtain rfl := Obj.hash.inj (Option.some.inj hh)
    exact hcmd _ _ (hdb.hashAt hempty _) heff

theorem runPrepare_broadcast {rargv : List (Arg n)}
    (hp : cmd.runPrepare dbl me argv db = some (db', .ok rargv)) :
    ∃ ho', cmd.prepare me argv (hashAt db (argv.getD 1 "")) = some (ho', .ok rargv) := by
  unfold runPrepare at hp
  split at hp
  · cases hp
  · dsimp only at hp
    split at hp
    · cases hp
    · split at hp
      · cases hp
      · obtain ⟨⟨ho', res⟩, hprep, heq⟩ := Option.map_eq_some_iff.mp hp
        obtain ⟨-, rfl⟩ := Prod.mk.inj heq
        exact ⟨ho', hprep⟩

end ListCommand

theorem ElemCommand.runPrepare_broadcast {T : Table n A} {cmd : ElemCommand n A}
    {dbl : String → Option ℤ} {me : Fin n} {argv : List String} {db db' : Db n}
    {rargv : List (Arg n)} (hp : cmd.runPrepare T dbl me argv db = some (db', .ok rargv)) :
    ∃ o e args, cmd.prepare me o = .ok (e, args) ∧ rargv = argv.map Arg.str ++ args := by
  unfold runPrepare at hp
  split at hp
  · cases hp
  · dsimp only at hp
    split at hp
    · cases hp
    · split at hp
      · cases hp
      · obtain ⟨p, -, heq⟩ := Option.map_eq_some_iff.mp hp
        split at heq
        · cases (Prod.mk.inj heq).2
        · next e args h e₀ hprep _ =>
            exact ⟨_, e, args, hprep, (Except.ok.inj (Prod.mk.inj heq).2).symm⟩
        · next _ e args hprep _ =>
            exact ⟨_, e, args, hprep, (Except.ok.inj (Prod.mk.inj heq).2).symm⟩

-- ------------------------------------------------------------ commands

section Commands

variable {dbl : String → Option ℤ} {me : Fin n} {argv : List String} {rargv : List (Arg n)}
  {db db' : Db n} {c : Cmd} {lc : ListCommand n}

/-- The neighbours of the identifier a client's vector makes, if it makes
one. -/
def newGap (argv : List String) (db : Db n) : Option (Option Leid × Option Leid) :=
  let h := (ListCommand.hashAt db (argv.getD 1 "")).getD .empty
  match cmdOf argv with
  | some .rlinsert => rleKind.newGap h (argv.getD 2 "") (argv.getD 3 "")
  | some .rwflinsert => rwfleKind.newGap h (argv.getD 2 "") (argv.getD 3 "")
  | _ => none

theorem Cmd.list_prepare_kept (h : c.proc = Proc.list lc) {ho ho' : Option (Hash n)}
    {res : Except Reply (List (Arg n))} (hh : (ho.getD .empty).Kept rleKind rwfleKind R L)
    (hp : lc.prepare me argv ho = some (ho', res)) :
    (ho'.getD .empty).Kept rleKind rwfleKind R L := by
  cases c <;> cases h
  case rlinsert => exact Rl.insertPrepare_kept hh hp
  case rlupdate => exact Rl.nonAddPrepare_kept hh hp
  case rlrem => exact Rl.nonAddPrepare_kept hh hp
  case rwflinsert => exact (Rwfl.insertPrepare_kept hh.swap hp).swap
  case rwflupdate =>
    rw [Rwfl.updatePrepare_eq] at hp
    exact (Rwfl.nonAddPrepare_kept hh.swap hp).swap
  case rwflrem =>
    rw [Rwfl.remPrepare_eq] at hp
    exact (Rwfl.nonAddPrepare_kept hh.swap hp).swap

/-- What an accepted list command broadcasts: words, and a time at the end.
Between them an insert has an identifier, which is one it makes or has `L`
as all that is kept. -/
inductive ListSends (L : Leid → Prop) (argv : List String) (db : Db n) : List (Arg n) → Prop
  | touch (words : List String) (lcs : List Lc) (t : Vc n) (hnone : newGap argv db = none) :
      ListSends L argv db (words.map Arg.str ++ (lcs.map Arg.lc ++ [.vc t]))
  | insert (words : List String) (pos : Leid) (t : Vc n)
      (hmade : ∀ b, newGap argv db = some b → ∃ t : Vc n, pos = constructLeid b.1 b.2 t)
      (hpos : (∀ b t, newGap argv db = some b → (∀ p ∈ b.1, L p) → (∀ p ∈ b.2, L p) →
        L (constructLeid b.1 b.2 (t : Vc n))) → L pos) :
      ListSends L argv db (words.map Arg.str ++ [.leid pos, .vc t])

/-- An insert into a list of either kind. -/
theorem ListSends.of_accepts {K : ListKind n E} {h : Hash n} {w : String} {i : Placement}
    (ht : K.Tidy L h) (hgap : newGap argv db = K.newGap h w i.oid) (hacc : K.Accepts me h w i)
    (words : List String) (t : Vc n) :
    ListSends L argv db (words.map Arg.str ++ [.leid i.pos, .vc t]) := by
  refine .insert words i.pos t (fun b hb => hacc.pos_of_newGap (hgap.symm.trans hb)) ?_
  rw [hgap]
  exact fun hnew => ht.accepts hnew hacc

theorem Cmd.list_prepare_sends (h : c.proc = Proc.list lc) (hc : cmdOf argv = some c)
    (hdb : StoreKept R L db) {ho' : Option (Hash n)}
    (hp : lc.prepare me argv (ListCommand.hashAt db (argv.getD 1 "")) = some (ho', .ok rargv)) :
    ListSends L argv db rargv := by
  have hh := EveryHash.hashAt Hash.kept_empty hdb (argv.getD 1 "")
  have hother : c ≠ .rlinsert → c ≠ .rwflinsert → newGap argv db = none := by
    intro h₁ h₂
    unfold newGap
    rw [hc]
    split
    · next hcon => exact absurd (Option.some.inj hcon) h₁
    · next hcon => exact absurd (Option.some.inj hcon) h₂
    · rfl
  cases c <;> cases h
  case rlinsert =>
    obtain ⟨preArg, pos, t, rfl, hacc⟩ := (Rl.insertPrepare_cases hp).sends rleKind_lawful
      ListKind.rleKind_plain hh.own.sound
    exact .of_accepts hh.own (by simp only [newGap, hc]) (hacc "") _ t
  case rlupdate =>
    obtain ⟨t, rfl⟩ := Rl.nonAddPrepare_sends hp
    exact .touch _ [] t (hother (by decide) (by decide))
  case rlrem =>
    obtain ⟨t, rfl⟩ := Rl.nonAddPrepare_sends hp
    exact .touch _ [] t (hother (by decide) (by decide))
  case rwflinsert =>
    obtain ⟨preArg, pos, t, rfl, hacc⟩ := (Rwfl.insertPrepare_cases hp).sends rwfleKind_lawful
      ListKind.rwfleKind_plain hh.other.sound
    exact .of_accepts hh.other (by simp only [newGap, hc]) (hacc "") _ t
  case rwflupdate =>
    rw [Rwfl.updatePrepare_eq] at hp
    obtain ⟨e, rfl⟩ := Rwfl.nonAddPrepare_sends hp
    exact .touch _ [_] _ (hother (by decide) (by decide))
  case rwflrem =>
    rw [Rwfl.remPrepare_eq] at hp
    obtain ⟨e, rfl⟩ := Rwfl.nonAddPrepare_sends hp
    exact .touch _ [] _ (hother (by decide) (by decide))

theorem ListSends.leidsIn (h : ListSends L argv db rargv)
    (hnew : ∀ b t, newGap argv db = some b → (∀ p ∈ b.1, L p) → (∀ p ∈ b.2, L p) →
      L (constructLeid b.1 b.2 (t : Vc n))) : LeidsIn L rargv := by
  cases h with
  | touch words lcs t _ =>
      simp only [leidsIn_append]
      exact ⟨leidsIn_str _, leidsIn_lcs (fun t => t) _, leidsIn_vc _⟩
  | insert words pos t _ hpos =>
      refine leidsIn_append.mpr ⟨leidsIn_str _, fun p hmem => ?_⟩
      simp only [List.mem_cons, Arg.leid.injEq, reduceCtorEq, List.not_mem_nil, or_self,
        or_false] at hmem
      rw [hmem]
      exact hpos hnew

theorem Cmd.list_effect_kept (h : c.proc = Proc.list lc) (hm : LeidsIn L rargv) {g g' : Hash n}
    (hg : g.Kept rleKind rwfleKind R L) (he : lc.effect me rargv g = some g') :
    g'.Kept rleKind rwfleKind R L := by
  have hrwfl : ∀ c, rwflCommand c = some lc → g'.Kept rleKind rwfleKind R L := by
    intro c hlc
    rw [rwfl_effect_eq me rargv g hlc] at he
    obtain ⟨m, hdec, happ⟩ := Option.bind_eq_some_iff.mp he
    exact (Rwfl.apply_kept hg.swap (Rwfl.decode_pos hm hdec) happ).swap
  cases c <;> cases h
  case rlinsert => exact Rl.receive_kept hg hm he
  case rlupdate => exact Rl.receive_kept hg hm he
  case rlrem => exact Rl.receive_kept hg hm he
  case rwflinsert => exact hrwfl .rwflinsert rfl
  case rwflupdate => exact hrwfl .rwflupdate rfl
  case rwflrem => exact hrwfl .rwflrem rfl

/-- What a preparation leaves. -/
theorem prepareCommand_kept (hR : ∀ c : Cmd, Proc.Keeps R L (c.proc : Proc n))
    (hdb : StoreKept R L db) {res : Except Reply (List (Arg n))}
    (hp : prepareCommand dbl me argv db = some (db', res)) : StoreKept R L db' := by
  obtain ⟨c, -, hp⟩ := Option.bind_eq_some_iff.mp hp
  have hkeeps := hR c
  split at hp
  · exact (Prod.mk.inj (Option.some.inj hp)).1 ▸ hdb
  · cases hproc : (c.proc : Proc n) with
    | elem T cmd =>
        rw [hproc] at hp hkeeps
        exact ElemCommand.runPrepare_every ((Cmd.proc_plain hproc).stores hkeeps.1)
          (hkeeps.2.prepare me) hdb hp
    | list lc =>
        rw [hproc] at hp
        exact ListCommand.runPrepare_every Hash.kept_empty
          (fun _ _ _ hh hprep => Cmd.list_prepare_kept hproc hh hprep) hdb hp

/-- What an accepted vector broadcasts. -/
inductive Sends (L : Leid → Prop) (argv : List String) (db : Db n) : List (Arg n) → Prop
  | elem {c : Cmd} {args : List (Arg n)} (hc : cmdOf argv = some c)
      (hnone : newGap argv db = none) (hargs : ElemSends c args) :
      Sends L argv db (argv.map Arg.str ++ args)
  | list {c : Cmd} {rargv : List (Arg n)} (hc : cmdOf argv = some c) (hvc : c.lamport = false)
      (hargs : ListSends L argv db rargv) : Sends L argv db rargv

theorem prepareCommand_sends (hdb : StoreKept R L db)
    (hp : prepareCommand dbl me argv db = some (db', .ok rargv)) : Sends L argv db rargv := by
  obtain ⟨c, hc, hp⟩ := Option.bind_eq_some_iff.mp hp
  split at hp
  · cases hp
  · cases hproc : (c.proc : Proc n) with
    | elem T cmd =>
        rw [hproc] at hp
        obtain ⟨o, e, args, hprep, rfl⟩ := ElemCommand.runPrepare_broadcast hp
        have hargs := Cmd.proc_sends hproc hprep
        refine .elem hc ?_ hargs
        unfold newGap
        rw [hc]
        cases c <;> first | rfl | cases hproc
    | list lc =>
        rw [hproc] at hp
        obtain ⟨ho', hprep⟩ := ListCommand.runPrepare_broadcast hp
        refine .list hc ?_ (Cmd.list_prepare_sends hproc hc hdb hprep)
        cases c <;> first | rfl | cases hproc

theorem prepareCommand_leidsIn (hdb : StoreKept R L db)
    (hnew : ∀ b t, newGap argv db = some b → (∀ p ∈ b.1, L p) → (∀ p ∈ b.2, L p) →
      L (constructLeid b.1 b.2 (t : Vc n)))
    (hp : prepareCommand dbl me argv db = some (db', .ok rargv)) : LeidsIn L rargv := by
  cases prepareCommand_sends hdb hp with
  | elem _ _ hargs => exact leidsIn_append.mpr ⟨leidsIn_str _, hargs.leidsIn⟩
  | list _ _ hargs => exact hargs.leidsIn hnew

/-- What an application leaves. -/
theorem effectCommand_kept (hR : ∀ c : Cmd, Proc.Keeps R L (c.proc : Proc n))
    (hm : LeidsIn L rargv) (hdb : StoreKept R L db)
    (he : effectCommand dbl me rargv db = some db') : StoreKept R L db' := by
  obtain ⟨c, -, he⟩ := Option.bind_eq_some_iff.mp he
  have hkeeps := hR c
  cases hproc : (c.proc : Proc n) with
  | elem T cmd =>
      rw [hproc] at he hkeeps
      exact ElemCommand.runEffect_every ((Cmd.proc_plain hproc).stores hkeeps.1)
        (hkeeps.2.effect dbl rargv) hdb he
  | list lc =>
      rw [hproc] at he
      exact ListCommand.runEffect_every Hash.kept_empty
        (fun _ _ hg heff => Cmd.list_effect_kept hproc hm hg heff) hdb he

end Commands

-- ============================================================ in runs

/-- In a run whose inserts, where they are accepted, make identifiers with
`L` between neighbours with `L`, all that is kept and sent has it. -/
theorem kept_of_limit {dbl : String → Option ℤ} {ok : Fin n → List String → Db n → Bool}
    {pol : Policy n (Db n) (List String) (List (Arg n))} {k : Net n}
    (hR : ∀ c : Cmd, Proc.Keeps R L (c.proc : Proc n))
    (hnew : ∀ r argv db b t, ok r argv db = true → newGap argv db = some b →
      (∀ p ∈ b.1, L p) → (∀ p ∈ b.2, L p) → L (constructLeid b.1 b.2 (t : Vc n)))
    (hk : Reachable ((crdtService dbl).limit ok) pol k) :
    (∀ r, StoreKept R L (k.site r)) ∧ ∀ o ∈ k.sent, LeidsIn L o.msg := by
  refine hk.run_forall (I := fun _ db _ => StoreKept R L db) (Q := fun o => LeidsIn L o.msg)
    (F := fun _ => True) (fun _ _ => trivial) (fun _ => .empty) ?_ ?_ ?_
  · intro r argv db db' m l _ hdb hp
    obtain ⟨res, hp⟩ := crdtService_prepares (Service.limit_prepare hp).1
    exact prepareCommand_kept hR hdb hp
  · intro r argv db db' rargv l u _ hdb hp _
    obtain ⟨hp, hok⟩ := Service.limit_prepare hp
    exact prepareCommand_leidsIn hdb (fun b t => hnew r argv db b t (hok rfl))
      (crdtService_accepts hp)
  · intro r o db db' l _ hdb _ hm he
    exact effectCommand_kept hR hm hdb he

/-- The same for all runs. -/
theorem kept_of_reachable {dbl : String → Option ℤ}
    {pol : Policy n (Db n) (List String) (List (Arg n))} {k : Net n}
    (hR : ∀ c : Cmd, Proc.Keeps R L (c.proc : Proc n))
    (hnew : ∀ p q t, (∀ l ∈ p, L l) → (∀ l ∈ q, L l) → L (constructLeid p q (t : Vc n)))
    (hk : Reachable (crdtService dbl) pol k) :
    (∀ r, StoreKept R L (k.site r)) ∧ ∀ o ∈ k.sent, LeidsIn L o.msg := by
  rw [← (crdtService dbl).limit_true] at hk
  exact kept_of_limit hR (fun _ _ _ b t _ _ hp hq => hnew b.1 b.2 t hp hq) hk

/-- Every command keeps what is true of all records. -/
theorem keeps_true (L : Leid → Prop) (c : Cmd) :
    Proc.Keeps (fun _ => True) L (c.proc : Proc n) := by
  cases c <;> first
    | exact trivial
    | exact ⟨fun _ => trivial, fun _ _ _ _ _ _ => trivial, fun _ _ _ _ _ _ => trivial⟩

end CrdtRedis
