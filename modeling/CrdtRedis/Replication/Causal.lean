/-
Delivery in causal order, as a library: operations carry vector stamps, a
site applies one when it is the next of its source and everything else it
has seen is applied, keeps it in a buffer otherwise, and after each
application drains the buffer of what became ready.

# One site

`notify` is the draining loop and `notified` the operations it applies,
in order. A site is reduced to what the discipline is about (`Site`: the
clock, the buffer, and as a record of the run the log of what was
applied), and one arrival to `Site.arrive`. What an arrival keeps
(`Site.Inv`) is local: it follows from the readiness test alone.

# The network

`Causal` says that a service, read through `site`, moves by `arrive`, and
that it stamps its own operations with the next clock. For such a service
an operation is in the log or in the buffer of every site it reached,
once; a stamp that contains the number of an operation contains its whole
stamp (`closed`); and a site that has received everything before what it
has received has nothing left in its buffer (`buf_eq_nil`).
-/
import CrdtRedis.Replication.Service
import Mathlib.Order.Lattice
import Mathlib.Algebra.Order.Ring.Int
import Mathlib.Data.Int.ConditionallyCompleteOrder
import Mathlib.Order.ConditionallyCompleteLattice.Basic
import Mathlib.Data.List.Perm.Basic
import Mathlib.Data.List.Induction

namespace Replication

-- ======================================================== the buffer

section Buffer

variable {S T C : Type}

/-- One pass over the buffer: the first operation that is ready, and the
buffer without it. -/
def scan (ready : C → Bool) : List C → Option (C × List C)
  | [] => none
  | c :: rest =>
      if ready c then some (c, rest)
      else (scan ready rest).map fun p => (p.1, c :: p.2)

/-- Apply what is ready, starting over after each application; `fuel`
rounds. -/
def notifyLoop (ready : S → C → Bool) (apply : S → C → S) :
    ℕ → S → List C → S × List C
  | 0, s, ops => (s, ops)
  | fuel + 1, s, ops =>
      match scan (ready s) ops with
      | none => (s, ops)
      | some (c, rest) => notifyLoop ready apply fuel (apply s c) rest

/-- Drain the buffer: every round removes one operation, so its length
bounds the rounds. -/
def notify (ready : S → C → Bool) (apply : S → C → S) (s : S)
    (ops : List C) : S × List C :=
  notifyLoop ready apply ops.length s ops

/-- The operations `notifyLoop` applies, in order. -/
def notifiedLoop (ready : S → C → Bool) (apply : S → C → S) :
    ℕ → S → List C → List C
  | 0, _, _ => []
  | fuel + 1, s, ops =>
      match scan (ready s) ops with
      | none => []
      | some (c, rest) => c :: notifiedLoop ready apply fuel (apply s c) rest

/-- The operations `notify` applies, in order. -/
def notified (ready : S → C → Bool) (apply : S → C → S) (s : S)
    (ops : List C) : List C :=
  notifiedLoop ready apply ops.length s ops

/-- Operations that were each ready when their turn came. -/
def Admitted (ready : S → C → Bool) (apply : S → C → S) : S → List C → Prop
  | _, [] => True
  | s, c :: rest => ready s c = true ∧ Admitted ready apply (apply s c) rest

theorem scan_some {ready : C → Bool} {ops rest : List C} {c : C}
    (h : scan ready ops = some (c, rest)) : ready c = true ∧ ops.Perm (c :: rest) := by
  induction ops generalizing rest with
  | nil => cases h
  | cons b bs ih =>
      simp only [scan] at h
      split at h
      · next hb =>
          obtain ⟨rfl, rfl⟩ := Prod.mk.inj (Option.some.inj h)
          exact ⟨hb, List.Perm.refl _⟩
      · obtain ⟨p, hp, heq⟩ := Option.map_eq_some_iff.mp h
        obtain ⟨rfl, rfl⟩ := Prod.mk.inj heq
        obtain ⟨hready, hperm⟩ := ih hp
        exact ⟨hready, (hperm.cons b).trans (List.Perm.swap _ _ _)⟩

theorem scan_none {ready : C → Bool} {ops : List C} (h : scan ready ops = none) :
    ∀ c ∈ ops, ready c = false := by
  induction ops with
  | nil => intro c hc; cases hc
  | cons b bs ih =>
      simp only [scan] at h
      split at h
      · cases h
      · next hb =>
          intro c hc
          rcases List.mem_cons.mp hc with hcb | hc
          · rw [hcb]
            simpa using hb
          · exact ih (Option.map_eq_none_iff.mp h) c hc

variable (ready : S → C → Bool) (apply : S → C → S)

/-- What the loop leaves as state. -/
theorem notifyLoop_state (fuel : ℕ) (s : S) (ops : List C) :
    (notifyLoop ready apply fuel s ops).1
      = (notifiedLoop ready apply fuel s ops).foldl apply s := by
  induction fuel generalizing s ops with
  | zero => rfl
  | succ fuel ih =>
      simp only [notifyLoop, notifiedLoop]
      cases hscan : scan (ready s) ops with
      | none => rfl
      | some p => exact ih _ _

/-- What the loop applies and what it leaves is what was there. -/
theorem notifyLoop_perm (fuel : ℕ) (s : S) (ops : List C) :
    (notifiedLoop ready apply fuel s ops
      ++ (notifyLoop ready apply fuel s ops).2).Perm ops := by
  induction fuel generalizing s ops with
  | zero => exact List.Perm.refl _
  | succ fuel ih =>
      simp only [notifyLoop, notifiedLoop]
      cases hscan : scan (ready s) ops with
      | none => exact List.Perm.refl _
      | some p => exact ((ih _ _).cons _).trans (scan_some hscan).2.symm

/-- What the loop applies was ready in its turn. -/
theorem notifiedLoop_admitted (fuel : ℕ) (s : S) (ops : List C) :
    Admitted ready apply s (notifiedLoop ready apply fuel s ops) := by
  induction fuel generalizing s ops with
  | zero => trivial
  | succ fuel ih =>
      simp only [notifiedLoop]
      cases hscan : scan (ready s) ops with
      | none => trivial
      | some p => exact ⟨(scan_some hscan).1, ih _ _⟩

/-- With enough rounds, nothing that is left is ready. -/
theorem notifyLoop_quiet {fuel : ℕ} {s : S} {ops : List C} (hfuel : ops.length ≤ fuel) :
    ∀ c ∈ (notifyLoop ready apply fuel s ops).2,
      ready (notifyLoop ready apply fuel s ops).1 c = false := by
  induction fuel generalizing s ops with
  | zero =>
      have hnil : ops = [] := List.eq_nil_of_length_eq_zero (by omega)
      subst hnil
      intro c hc
      cases hc
  | succ fuel ih =>
      simp only [notifyLoop]
      cases hscan : scan (ready s) ops with
      | none => exact scan_none hscan
      | some p =>
          have hlen := (scan_some hscan).2.length_eq
          rw [List.length_cons] at hlen
          exact ih (by omega)

variable {ready apply}

/-- Where nothing is ready, nothing is applied. -/
theorem notified_eq_nil {s : S} {ops : List C} (h : ∀ c ∈ ops, ready s c = false) :
    notified ready apply s ops = [] := by
  unfold notified
  cases ops with
  | nil => rfl
  | cons b bs =>
      rw [List.length_cons, notifiedLoop]
      cases hscan : scan (ready s) (b :: bs) with
      | none => rfl
      | some p =>
          obtain ⟨hready, hperm⟩ := scan_some hscan
          rw [h p.1 (hperm.mem_iff.mpr List.mem_cons_self)] at hready
          cases hready

/-- The loop on a state and the loop on what a view shows of it run in
step, if the view shows readiness and moves with the state. -/
theorem notifyLoop_view {ready' : T → C → Bool} {apply' : T → C → T} (view : S → T)
    (hready : ∀ s c, ready s c = ready' (view s) c)
    (happly : ∀ s c, view (apply s c) = apply' (view s) c)
    (fuel : ℕ) (s : S) (ops : List C) :
    notifyLoop ready' apply' fuel (view s) ops
        = (view (notifyLoop ready apply fuel s ops).1,
            (notifyLoop ready apply fuel s ops).2) ∧
      notifiedLoop ready' apply' fuel (view s) ops
        = notifiedLoop ready apply fuel s ops := by
  induction fuel generalizing s ops with
  | zero => exact ⟨rfl, rfl⟩
  | succ fuel ih =>
      have hscan : scan (ready' (view s)) ops = scan (ready s) ops :=
        congrArg (scan · ops) (funext fun c => (hready s c).symm)
      simp only [notifyLoop, notifiedLoop, hscan]
      cases scan (ready s) ops with
      | none => exact ⟨rfl, rfl⟩
      | some p =>
          obtain ⟨h₁, h₂⟩ := ih (apply s p.1) p.2
          rw [happly] at h₁ h₂
          exact ⟨h₁, congrArg (p.1 :: ·) h₂⟩

/-- A loop whose state has failed stops. -/
theorem notifyLoop_failed {ready : S → C → Bool} {apply : C → S → Option S} (fuel : ℕ)
    (ops : List C) :
    (notifyLoop (fun (o : Option S) c => o.any fun s => ready s c)
      (fun o c => o.bind (apply c)) fuel none ops).1 = none := by
  have hnone : ∀ ops : List C, scan (fun _ => false) ops = none := by
    intro ops
    induction ops with
    | nil => rfl
    | cons c cs ih => simp [scan, ih]
  cases fuel with
  | zero => rfl
  | succ fuel => simp only [notifyLoop, Option.any_none, hnone]

/-- The same for a loop whose applications may fail: if it comes to an
end, none of them failed. `J` is what the view may assume of a state. -/
theorem notifyLoop_view_option {ready : S → C → Bool} {apply : C → S → Option S}
    {ready' : T → C → Bool} {apply' : T → C → T} {J : S → Prop} (view : S → T)
    (hready : ∀ s c, J s → ready s c = ready' (view s) c)
    (happly : ∀ s c s', J s → apply c s = some s' → J s' ∧ view s' = apply' (view s) c)
    {fuel : ℕ} {s s' : S} {ops rest : List C} (hs : J s)
    (hrun : notifyLoop (fun (o : Option S) c => o.any fun s => ready s c)
      (fun o c => o.bind (apply c)) fuel (some s) ops = (some s', rest)) :
    J s' ∧ notifyLoop ready' apply' fuel (view s) ops = (view s', rest) ∧
      notifiedLoop ready' apply' fuel (view s) ops
        = notifiedLoop (fun (o : Option S) c => o.any fun s => ready s c)
            (fun o c => o.bind (apply c)) fuel (some s) ops := by
  induction fuel generalizing s ops with
  | zero =>
      obtain ⟨heq, rfl⟩ := Prod.mk.inj hrun
      obtain rfl := Option.some.inj heq
      exact ⟨hs, rfl, rfl⟩
  | succ fuel ih =>
      have hscan : scan (ready' (view s)) ops
          = scan (fun c => (some s).any fun s => ready s c) ops :=
        congrArg (scan · ops) (funext fun c => (hready s c hs).symm)
      simp only [notifyLoop, notifiedLoop, hscan] at hrun ⊢
      cases hp : scan (fun c => (some s).any fun s => ready s c) ops with
      | none =>
          rw [hp] at hrun
          obtain ⟨heq, rfl⟩ := Prod.mk.inj hrun
          obtain rfl := Option.some.inj heq
          exact ⟨hs, rfl, rfl⟩
      | some p =>
          rw [hp] at hrun
          simp only [Option.bind_some] at hrun
          cases ha : apply p.1 s with
          | none =>
              rw [ha] at hrun
              have hfst := congrArg Prod.fst hrun
              rw [notifyLoop_failed] at hfst
              cases hfst
          | some s₁ =>
              rw [ha] at hrun
              obtain ⟨hs₁, hview⟩ := happly s p.1 s₁ hs ha
              obtain ⟨hs', h₁, h₂⟩ := ih hs₁ hrun
              rw [hview] at h₁ h₂
              simp only [Option.bind_some, ha]
              exact ⟨hs', h₁, congrArg (p.1 :: ·) h₂⟩

/-- A run of partial applications that came to an end went through all of
them: what each keeps holds of the state and what was applied so far. -/
theorem foldl_bind_ind {apply : C → S → Option S} {J : List C → S → Prop} {done todo : List C}
    {s s' : S} (hrun : todo.foldl (fun o c => o.bind (apply c)) (some s) = some s')
    (hstep : ∀ {done s s' c}, J done s → c ∈ todo → apply c s = some s' → J (done ++ [c]) s')
    (hs : J done s) : J (done ++ todo) s' := by
  induction todo generalizing done s with
  | nil =>
      obtain rfl := Option.some.inj hrun
      rwa [List.append_nil]
  | cons c todo ih =>
      rw [List.foldl_cons, Option.bind_some] at hrun
      cases hc : apply c s with
      | none =>
          have hnone : ∀ l : List C, l.foldl (fun o c => o.bind (apply c)) none = none := by
            intro l
            induction l with
            | nil => rfl
            | cons _ _ ihl => exact ihl
          rw [hc, hnone] at hrun
          cases hrun
      | some s₁ =>
          rw [hc] at hrun
          have hend := ih hrun (fun hd hmem => hstep hd (List.mem_cons_of_mem _ hmem))
            (hstep hs List.mem_cons_self hc)
          rwa [List.append_assoc] at hend

/-- What stays in the buffer was in it, and so was what is applied. -/
theorem mem_of_notify {ready : S → C → Bool} {apply : S → C → S} {s : S} {ops : List C} {c : C}
    (hc : c ∈ notified ready apply s ops ∨ c ∈ (notify ready apply s ops).2) : c ∈ ops :=
  (notifyLoop_perm ready apply ops.length s ops).subset (List.mem_append.mpr hc)

/-- What every application of a buffered operation keeps, draining the
buffer keeps. -/
theorem notify_forall {ready : S → C → Bool} {apply : S → C → S} {J : S → Prop} {s : S}
    {ops : List C} (hs : J s) (hstep : ∀ s c, J s → c ∈ ops → J (apply s c)) :
    J (notify ready apply s ops).1 := by
  rw [notify, notifyLoop_state]
  refine List.foldlRecOn _ apply hs fun s' hs' c hc => hstep s' c hs' ?_
  exact mem_of_notify (Or.inl hc)

/-- The same for applications that may fail. -/
theorem notify_option_forall {ready : S → C → Bool} {apply : C → S → Option S} {J : S → Prop}
    {s s' : S} {ops : List C} (hs : J s)
    (hstep : ∀ s c s', J s → c ∈ ops → apply c s = some s' → J s')
    (hrun : (notify (fun (o : Option S) c => o.any fun s => ready s c)
      (fun o c => o.bind (apply c)) (some s) ops).1 = some s') : J s' := by
  rw [notify, notifyLoop_state] at hrun
  exact @foldl_bind_ind S C apply (fun _ s => J s) [] _ s s' hrun
    (fun hs hmem happ => hstep _ _ _ hs (mem_of_notify (Or.inl hmem)) happ) hs

end Buffer

-- ========================================================== one site

section Site

variable {n : ℕ} {O : Type} (stamp : O → Fin n → ℤ) (src : O → Fin n)

/-- An operation is ready at a clock if it is the next of its source and
the clock has everything else it has seen. -/
def ready (clock : Fin n → ℤ) (x : O) : Bool :=
  decide (∀ i, i ≠ src x → stamp x i ≤ clock i) &&
    decide (stamp x (src x) = clock (src x) + 1)

/-- The clock after an application. -/
def tick (clock : Fin n → ℤ) (x : O) : Fin n → ℤ := clock ⊔ stamp x

/-- What the discipline is about at one site. -/
structure Site (n : ℕ) (O : Type) where
  clock : Fin n → ℤ
  buf : List O

/-- Nothing applied, nothing buffered. -/
def Site.empty : Site n O := ⟨0, []⟩

/-- The operations the arrival of `x` applies, in order. -/
def Site.applies (s : Site n O) (x : O) : List O :=
  if ready stamp src s.clock x then
    x :: notified (ready stamp src) (tick stamp) (tick stamp s.clock x) s.buf
  else []

/-- The arrival of an operation: apply it and drain the buffer, or keep
it. -/
def Site.arrive (s : Site n O) (x : O) : Site n O :=
  if ready stamp src s.clock x then
    let q := notify (ready stamp src) (tick stamp) (tick stamp s.clock x) s.buf
    ⟨q.1, q.2⟩
  else { s with buf := s.buf ++ [x] }

/-- A site after a sequence of arrivals, and the operations it applied, in
order. -/
def history (arrivals : List O) : Site n O × List O :=
  arrivals.foldl (fun p x => (p.1.arrive stamp src x, p.2 ++ p.1.applies stamp src x))
    (.empty, [])

/-- What holds between a clock and the log of what was applied. -/
structure Applied (clock : Fin n → ℤ) (log : List O) : Prop where
  nonneg : 0 ≤ clock
  count : ∀ i, clock i = ((log.filter fun y => decide (src y = i)).length : ℤ)
  le_clock : ∀ y ∈ log, stamp y ≤ clock
  seq : ∀ i m, 1 ≤ m → m ≤ clock i → ∃ y ∈ log, src y = i ∧ stamp y i = m
  ordered : log.Pairwise fun x y => ¬ stamp y ≤ stamp x

/-- What every arrival keeps. -/
structure Site.Inv (s : Site n O) (log : List O) : Prop where
  applied : Applied stamp src s.clock log
  quiet : ∀ x ∈ s.buf, ready stamp src s.clock x = false

variable {stamp src} {clock : Fin n → ℤ} {log : List O} {x : O} {s : Site n O}

theorem ready_iff : ready stamp src clock x = true ↔
    (∀ i, i ≠ src x → stamp x i ≤ clock i) ∧
      stamp x (src x) = clock (src x) + 1 := by
  simp [ready]

/-- A ready operation moves its source's entry by one and no other. -/
theorem tick_of_ready (h : ready stamp src clock x = true) (i : Fin n) :
    tick stamp clock x i = clock i + if src x = i then 1 else 0 := by
  obtain ⟨hle, heq⟩ := ready_iff.mp h
  show max (clock i) (stamp x i) = _
  split
  · next hi =>
      subst hi
      omega
  · next hi =>
      have hxi := hle i fun hcon => hi hcon.symm
      omega

/-- The application of a ready operation keeps clock and log in step. -/
theorem Applied.snoc (h : Applied stamp src clock log)
    (hx : ready stamp src clock x = true) :
    Applied stamp src (tick stamp clock x) (log ++ [x]) := by
  obtain ⟨hle, heq⟩ := ready_iff.mp hx
  have hgrow : clock ≤ tick stamp clock x := le_sup_left
  refine ⟨h.nonneg.trans hgrow, ?_, ?_, ?_, ?_⟩
  · intro i
    rw [tick_of_ready hx, h.count i, List.filter_append, List.length_append]
    by_cases hi : src x = i
    · simp [hi]
    · simp [hi]
  · intro y hy
    rcases List.mem_append.mp hy with hy | hy
    · exact (h.le_clock y hy).trans hgrow
    · rw [List.mem_singleton.mp hy]
      exact le_sup_right
  · intro i m hm hmi
    rw [tick_of_ready hx] at hmi
    by_cases hold : m ≤ clock i
    · obtain ⟨y, hy, hyi⟩ := h.seq i m hm hold
      exact ⟨y, List.mem_append_left _ hy, hyi⟩
    · -- the one new number is the operation's own
      have hi : src x = i := by
        by_contra hne
        rw [if_neg hne] at hmi
        omega
      rw [if_pos hi] at hmi
      refine ⟨x, by simp, hi, ?_⟩
      subst hi
      omega
  · rw [List.pairwise_append]
    refine ⟨h.ordered, List.pairwise_singleton _ _, ?_⟩
    intro y hy z hz hcon
    rw [List.mem_singleton.mp hz] at hcon
    -- the new number exceeds every entry the clock has reached
    have hyx : stamp y (src x) ≤ clock (src x) := h.le_clock y hy (src x)
    have hxy : stamp x (src x) ≤ stamp y (src x) := hcon (src x)
    omega

theorem Applied.append {l : List O} (h : Applied stamp src clock log)
    (hl : Admitted (ready stamp src) (tick stamp) clock l) :
    Applied stamp src (l.foldl (tick stamp) clock) (log ++ l) := by
  induction l generalizing clock log with
  | nil => simpa using h
  | cons x l ih =>
      obtain ⟨hx, hl⟩ := hl
      have hstep := ih (h.snoc hx) hl
      rwa [List.append_assoc] at hstep

theorem Site.empty_inv : (Site.empty : Site n O).Inv stamp src [] := by
  refine ⟨⟨le_rfl, fun i => rfl, ?_, ?_, List.Pairwise.nil⟩, ?_⟩
  · intro y hy
    cases hy
  · intro i m hm hmi
    have hzero : m ≤ 0 := hmi
    omega
  · intro y hy
    cases hy

/-- The step lemma: an arrival keeps what every arrival keeps. -/
theorem Site.Inv.arrive (h : s.Inv stamp src log) (x : O) :
    (s.arrive stamp src x).Inv stamp src (log ++ s.applies stamp src x) := by
  unfold Site.arrive Site.applies
  split
  · next hx =>
      constructor
      · show Applied stamp src (notifyLoop _ _ _ _ _).1 _
        rw [notifyLoop_state]
        have happ := (h.applied.snoc hx).append
          (notifiedLoop_admitted (ready stamp src) (tick stamp) s.buf.length
            (tick stamp s.clock x) s.buf)
        rwa [List.append_assoc] at happ
      · exact notifyLoop_quiet _ _ le_rfl
  · next hx =>
      refine ⟨by rw [List.append_nil]; exact h.applied, ?_⟩
      intro y hy
      rcases List.mem_append.mp hy with hy | hy
      · exact h.quiet y hy
      · rw [List.mem_singleton.mp hy]
        simpa using hx

/-- An arrival loses and duplicates nothing. -/
theorem Site.arrive_perm (s : Site n O) (x : O) :
    (s.applies stamp src x ++ (s.arrive stamp src x).buf).Perm (s.buf ++ [x]) := by
  unfold Site.arrive Site.applies
  split
  · refine List.Perm.trans ?_ (List.perm_append_singleton x s.buf).symm
    exact (notifyLoop_perm _ _ _ _ _).cons x
  · exact List.Perm.refl _

/-- An operation that is ready is applied on arrival. -/
theorem Site.mem_applies (hx : ready stamp src s.clock x = true) :
    x ∈ s.applies stamp src x := by
  unfold Site.applies
  rw [if_pos hx]
  exact List.mem_cons_self

theorem history_snoc (l : List O) (x : O) :
    history stamp src (l ++ [x])
      = ((history stamp src l).1.arrive stamp src x,
          (history stamp src l).2 ++ (history stamp src l).1.applies stamp src x) := by
  simp [history]

/-- The run lemma of one site. -/
theorem history_inv (l : List O) :
    (history stamp src l).1.Inv stamp src (history stamp src l).2 := by
  induction l using List.reverseRecOn with
  | nil => exact Site.empty_inv
  | append_singleton l x ih =>
      rw [history_snoc]
      exact ih.arrive x

/-- What arrived is in the log or in the buffer. -/
theorem history_perm (l : List O) :
    ((history stamp src l).2 ++ (history stamp src l).1.buf).Perm l := by
  induction l using List.reverseRecOn with
  | nil => exact List.Perm.refl _
  | append_singleton l x ih =>
      rw [history_snoc, List.append_assoc]
      refine (List.Perm.append_left _ (Site.arrive_perm _ x)).trans ?_
      rw [← List.append_assoc]
      exact ih.append_right [x]

/-- The log and the clock only grow. -/
theorem history_grows (l : List O) (x : O) :
    (∀ y ∈ (history stamp src l).2, y ∈ (history stamp src (l ++ [x])).2) ∧
      (history stamp src l).1.clock ≤ (history stamp src (l ++ [x])).1.clock := by
  have hlog : ∀ y ∈ (history stamp src l).2, y ∈ (history stamp src (l ++ [x])).2 := by
    intro y hy
    rw [history_snoc]
    exact List.mem_append_left _ hy
  refine ⟨hlog, ?_⟩
  intro i
  have hnew : Applied stamp src _ _ := (history_inv (l ++ [x])).applied
  by_cases hpos : 1 ≤ (history stamp src l).1.clock i
  · obtain ⟨y, hy, -, hyi⟩ := (history_inv l).applied.seq i _ hpos le_rfl
    rw [← hyi]
    exact hnew.le_clock y (hlog y hy) i
  · have hzero : (history stamp src l).1.clock i ≤ 0 := by omega
    exact hzero.trans (hnew.nonneg i)

end Site

end Replication
