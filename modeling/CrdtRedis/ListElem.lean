/-
The element records of the two replicated lists (list_basics.h,
t_rlist.c, t_rwflist.c), without the chain and the headers they hang in.

An element has three numeric properties (`FORALL_NORMAL`) and three bits
of one `int` (`FORALL_BITMAP`). The remove-wins list keeps them per add,
each with a vector clock; the RWF list keeps one copy, each with an
optional Lamport time, and `rwfleNew` writes only the bits.
-/
import CrdtRedis.Rw.Sets
import CrdtRedis.Rwf.Header

namespace CrdtRedis

-- ========================================================= properties

/-- `FORALL_NORMAL`. -/
inductive Normal
  | font | size | color
deriving DecidableEq, Repr

/-- `FORALL_BITMAP`. -/
inductive Bitmap
  | bold | italic | underline
deriving DecidableEq, Repr

/-- `FORALL`. -/
inductive Property
  | normal (p : Normal)
  | bitmap (p : Bitmap)
deriving DecidableEq, Repr

/-- `enum property_type`. -/
def Bitmap.mask : Bitmap → BitVec 32
  | bold => 1
  | italic => 2
  | underline => 4

/-- The `strcmp` chain on the lowercased property name. -/
def Property.ofType (type : String) : Option Property :=
  match cText (sdstolower type) with
  | "font" => some (.normal .font)
  | "size" => some (.normal .size)
  | "color" => some (.normal .color)
  | "bold" => some (.bitmap .bold)
  | "italic" => some (.bitmap .italic)
  | "underline" => some (.bitmap .underline)
  | _ => none

/-- The property fields of a record. -/
structure Props where
  normal : Normal → Score
  property : BitVec 32

/-- Write property `p`: a number as an `int`, a bit by the value being
zero or not. -/
def Props.set (s : Props) (p : Property) (v : ℤ) : Props :=
  match p with
  | .normal q => { s with normal := Function.update s.normal q (some (toInt v)) }
  | .bitmap b =>
      { s with property :=
          if v = 0 then s.property &&& ~~~b.mask else s.property ||| b.mask }

/-- Read property `p`; a bit reads as zero or one. -/
def Props.get (s : Props) (p : Property) : Score :=
  match p with
  | .normal q => s.normal q
  | .bitmap b => some (if s.property &&& b.mask = 0 then 0 else 1)

/-- What a property shows after value `v` was written to it. -/
def Property.shown (p : Property) (v : ℤ) : ℤ :=
  match p with
  | .normal _ => toInt v
  | .bitmap _ => if v = 0 then 0 else 1

theorem Bitmap.mask_ne_zero (b : Bitmap) : b.mask ≠ 0 := by
  cases b <;> decide

theorem Bitmap.mask_and_of_ne {b c : Bitmap} (h : b ≠ c) : b.mask &&& c.mask = 0 := by
  cases b <;> cases c <;> first | exact absurd rfl h | decide

/-- Bits set and cleared by `Props.set`, seen through another mask. -/
theorem Bitmap.and_mask (x : BitVec 32) {b c : Bitmap} (h : b ≠ c) :
    x &&& ~~~b.mask &&& c.mask = x &&& c.mask ∧ (x ||| b.mask) &&& c.mask = x &&& c.mask := by
  have hbit : ∀ i (hi : i < 32), c.mask[i] = true → b.mask[i] = false := by
    intro i hi hc
    have hzero := congrArg (fun y => y.getLsbD i) (Bitmap.mask_and_of_ne h)
    simpa [BitVec.getLsbD_eq_getElem hi, hc] using hzero
  constructor
  · ext i hi
    simp only [BitVec.getElem_and, BitVec.getElem_not]
    cases hc : c.mask[i] with
    | false => simp
    | true => simp [hbit i hi hc]
  · ext i hi
    simp only [BitVec.getElem_and, BitVec.getElem_or]
    cases hc : c.mask[i] with
    | false => simp
    | true => simp [hbit i hi hc]

theorem Props.get_bitmap (s : Props) (b : Bitmap) :
    s.get (.bitmap b) = some (if s.property &&& b.mask = 0 then 0 else 1) := rfl

theorem Props.set_bitmap (s : Props) (b : Bitmap) (v : ℤ) : (s.set (.bitmap b) v).property
    = if v = 0 then s.property &&& ~~~b.mask else s.property ||| b.mask := rfl

theorem Props.get_set_self (s : Props) (p : Property) (v : ℤ) :
    (s.set p v).get p = some (p.shown v) := by
  cases p with
  | normal q => simp [Props.set, Props.get, Property.shown]
  | bitmap b =>
      have hset : (s.property ||| b.mask) &&& b.mask = b.mask := by
        ext i hi
        simp only [BitVec.getElem_and, BitVec.getElem_or]
        cases b.mask[i] <;> simp
      rw [Props.get_bitmap, Props.set_bitmap, Property.shown]
      by_cases hv : v = 0
      · have hclear : s.property &&& ~~~b.mask &&& b.mask = 0 := by
          ext i hi
          simp
        rw [if_pos hv, if_pos hv, hclear, if_pos rfl]
      · rw [if_neg hv, if_neg hv, hset, if_neg b.mask_ne_zero]

theorem Props.get_set_ne (s : Props) {p q : Property} (v : ℤ) (h : q ≠ p) :
    (s.set p v).get q = s.get q := by
  cases p with
  | normal p =>
      cases q with
      | normal q =>
          have hne : q ≠ p := fun hcon => h (by rw [hcon])
          simp [Props.set, Props.get, Function.update_of_ne hne]
      | bitmap b => rfl
  | bitmap b =>
      cases q with
      | normal q => rfl
      | bitmap c =>
          have hmask := Bitmap.and_mask s.property (show b ≠ c from fun hcon => h (by rw [hcon]))
          rw [Props.get_bitmap, Props.set_bitmap, Props.get_bitmap]
          by_cases hv : v = 0
          · rw [if_pos hv, hmask.1]
          · rw [if_neg hv, hmask.2]

/-- The property values an insert carries: font, size, color and the
bits, as `long long`. -/
structure InsertProps where
  font : ℤ
  size : ℤ
  color : ℤ
  property : ℤ
deriving DecidableEq, Repr

/-- The value of a numeric property an insert carries. -/
def InsertProps.normal (v : InsertProps) : Normal → ℤ
  | .font => v.font
  | .size => v.size
  | .color => v.color

/-- `(property & __T) == 0` on what an insert carries: the value to write
to the bit. -/
def InsertProps.bit (v : InsertProps) (b : Bitmap) : ℤ :=
  if BitVec.ofInt 32 v.property &&& b.mask = 0 then 0 else 1

/-- What an insert carries for property `p`. -/
def InsertProps.val (v : InsertProps) : Property → ℤ
  | .normal q => v.normal q
  | .bitmap b => v.bit b

variable {n : ℕ}

/-- The fields the records of both lists share; `next` is the address of
its target, `body` what the list keeps besides. -/
structure ListRec (E : Type) where
  oid : Option String
  posId : Option Leid
  content : Option String
  body : E
  next : Option String

/-- A record nothing has positioned yet. -/
def ListRec.new {E : Type} (body : E) : ListRec E := ⟨none, none, none, body, none⟩

-- ==================================================== remove-wins list

/-- `struct rlist_aset_element`. -/
structure RlAse (n : ℕ) where
  t : Vc n
  clock : Property → Vc n
  props : Props

/-- `rl_aseNew` and the assignments after it in `insertFunc`. -/
def RlAse.new (t : Vc n) (v : InsertProps) : RlAse n :=
  ⟨t, fun _ => t, fun q => some (toInt (v.normal q)), BitVec.ofInt 32 v.property⟩

/-- `updateFunc` on one entry. -/
def RlAse.update (p : Property) (v : ℤ) (t : Vc n) (a : RlAse n) : RlAse n :=
  if RwSets.below t a.t && decide ((vcCmp (a.clock p) t).code < 0) then
    { a with
      clock := Function.update a.clock p { vcUpdate (a.clock p) t with id := t.id }
      props := a.props.set p v }
  else a

/-- `struct rw_list_element`. -/
abbrev Rle (n : ℕ) := ListRec (RwSets n (RlAse n))

/-- `LOOKUP`. -/
def Rle.lookup (e : Rle n) : Bool := e.body.lookup

/-- `enum rl_cmd_type`. -/
inductive RlCmdType
  | rladd | rlupdate | rlrem
deriving DecidableEq, Repr

/-- `struct rlist_unready_command`. -/
structure RlCmd (n : ℕ) where
  type : RlCmdType
  argv : List (Arg n)
  t : Vc n
deriving DecidableEq

/-- `rl_cmdNew`: the arguments between the command's name and its
timestamp. -/
def rlCmdNew (type : RlCmdType) (rargv : List (Arg n)) (t : Vc n) : RlCmd n :=
  ⟨type, (rargv.drop 1).take (rargv.length - 2), t⟩

-- ============================================================ RWF list

/-- What `struct rwf_list_element` keeps besides the shared fields. -/
structure RwflBody (n : ℕ) where
  header : Reh n
  current : Lc
  time : Property → Option Lc
  props : Props

/-- `struct rwf_list_element`. -/
abbrev Rwfle (n : ℕ) := ListRec (RwflBody n)

namespace RwflBody

/-- `rwfleNew`. -/
def new (me : Fin n) : RwflBody n :=
  ⟨Reh.new me, ⟨0, me⟩, fun _ => none, ⟨fun _ => none, 0⟩⟩

/-- `acquired_update`, where `type` names property `p`. -/
def acquiredUpdate (p : Property) (t : Lc) (v : ℤ) (e : RwflBody n) : RwflBody n :=
  if (e.time p).all fun u => decide (lcCmp u t ≤ 0) then
    { e with
      time := Function.update e.time p (some t)
      props := e.props.set p v
      current := lcUpdate e.current t }
  else e

/-- `removeFunc` on the record, and whether it fired. -/
def removeFunc : RwflBody n → Vc n → RwflBody n × Bool :=
  Reh.removeBy header
    (fun h e =>
      { e with header := h, time := fun _ => none, current := { e.current with x := 0 } })
    true false

/-- `IN_UPDATE_NORMAL` and `IN_UPDATE_BITMAP` over `FORALL`: every
property without a time takes the insert's value. -/
def innateUpdate (v : InsertProps) (e : RwflBody n) : RwflBody n :=
  let props := [Property.normal .font, .normal .size, .normal .color,
      .bitmap .bold, .bitmap .italic, .bitmap .underline].foldl
    (fun s p => if (e.time p).isNone then s.set p (v.val p) else s) e.props
  { e with props := props }

end RwflBody

end CrdtRedis
