import Almanac.Proofs.Series.Draft
import Almanac.Series.Return

/-! # Elementwise operations

Each of them follows a rule, for the values of one series or for those of two that stand at one
position, and each rule has a draft that fits.
-/
namespace Almanac.Series
set_option autoImplicit false

variable {α : Type}

inductive Arithmetic where
  | add
  | subtract
  | multiply
  | divide

inductive Relation where
  | higher
  | lower
  | both
  | either
  | equal
  | notEqual
  | greater
  | greaterEqual
  | less
  | lessEqual

/-- An operation on the values at each position. -/
inductive Elementwise (α : Type) where
  | negate (s : Series α)
  | magnitude (s : Series α)
  | logarithm (s : Series α)
  | replace (s : Series α) (old new : α)
  | fillHoles (s : Series α) (x : α)
  | fillNonFinite (s : Series α) (x : α)
  | withCeiling (s : Series α) (x : α)
  | withFloor (s : Series α) (x : α)
  | arithmetic (op : Arithmetic) (s : Series α) (other : Operand α)
  | scalarFirst (op : Arithmetic) (x : α) (s : Series α)
  | relate (op : Relation) (s : Series α) (other : Operand α)

/-- What a value alone decides about a value, and what two values do. -/
inductive Rule (α : Type) where
  | each (f : α → α) (s : Series α)
  | joint (f : α → α → α) (s other : Series α)

namespace Rule

def receiver : Rule α → Series α
  | each _ s => s
  | joint _ s _ => s

variable [Hole α]

/-- Holes are left as they are. -/
def observed (f : α → α) (s : Series α) : Rule α := each (fun x => if isHole x then x else f x) s

def applied (f : α → α → α) (s : Series α) : Operand α → Rule α
  | .series other => joint f s other
  | .value x => observed (fun y => f y x) s

def series : Rule α → Series α
  | each f s => s.mapValues f
  | joint f s other => s.combine f other

def draft : Rule α → Draft α
  | each f s => .direct s.dates (s.values.map f)
  | joint f s other =>
    if min s.count other.count = 0 then .direct [] []
    else
      .direct (s.longer other).dates
        (List.zipWith (unlessHole f) s.values other.values ++
          List.replicate (max s.count other.count - min s.count other.count) hole)

omit [Hole α] in
theorem count_longer (s t : Series α) : (s.longer t).count = max s.count t.count := by
  rw [longer]
  split
  · omega
  · omega

theorem fits_draft (rule : Rule α) : rule.draft.Fits := by
  cases rule with
  | each f s => simp [draft, Draft.Fits, Series.dates, Series.values]
  | joint f s other =>
    rw [draft]
    split
    · rfl
    · rw [Draft.Fits, length_dates, count_longer, List.length_append, List.length_zipWith,
        List.length_replicate, length_values, length_values]
      omega

theorem series_eq (rule : Rule α) : rule.series = rule.draft.series rule.receiver.options := by
  cases rule with
  | each f s =>
    rw [series, draft, mapValues, Draft.series, Draft.dates, Draft.values, derived, Series.dates,
      Series.values, List.map_map, List.zipWith_map, List.zipWith_self]
    rfl
  | joint f s other =>
    rw [series, draft, combine]
    split
    · rfl
    · rw [Draft.series, Draft.dates, Draft.values, derived, length_dates, count_longer,
        List.length_zipWith, length_values, length_values]
      rfl

end Rule

section Elementwise
variable [Hole α]

section Arithmetic
variable [Add α] [Sub α] [Mul α] [Div α]

def Arithmetic.value : Arithmetic → α → α → α
  | add, x, y => x + y
  | subtract, x, y => x - y
  | multiply, x, y => x * y
  | divide, x, y => x / y

def Arithmetic.perform : Arithmetic → Series α → Operand α → Series α
  | add, s, .series other => s + other
  | subtract, s, .series other => s - other
  | multiply, s, .series other => s * other
  | divide, s, .series other => s / other
  | add, s, .value x => s + x
  | subtract, s, .value x => s - x
  | multiply, s, .value x => s * x
  | divide, s, .value x => s / x

def Arithmetic.performFirst : Arithmetic → α → Series α → Series α
  | add, x, s => x + s
  | subtract, x, s => x - s
  | multiply, x, s => x * s
  | divide, x, s => x / s

theorem Arithmetic.perform_eq (op : Arithmetic) (s : Series α) (other : Operand α) :
    op.perform s other = (Rule.applied op.value s other).series := by
  cases op <;> cases other <;> rfl

theorem Arithmetic.performFirst_eq (op : Arithmetic) (x : α) (s : Series α) :
    op.performFirst x s = (Rule.observed (op.value x) s).series := by
  cases op <;> rfl

end Arithmetic

section Relation
variable [Zero α] [One α] [BEq α] [LT α] [DecidableLT α] [LE α] [DecidableLE α]

def Relation.value : Relation → α → α → α
  | higher, x, y => larger x y
  | lower, x, y => smaller x y
  | both, x, y => flag (x != 0 && y != 0)
  | either, x, y => flag (x != 0 || y != 0)
  | equal, x, y => flag (x == y)
  | notEqual, x, y => flag (x != y)
  | greater, x, y => flag (y < x)
  | greaterEqual, x, y => flag (y ≤ x)
  | less, x, y => flag (x < y)
  | lessEqual, x, y => flag (x ≤ y)

def Relation.perform : Relation → Series α → Operand α → Series α
  | higher, s, other => s.higher other
  | lower, s, other => s.lower other
  | both, s, other => s.both other
  | either, s, other => s.either other
  | equal, s, other => s.isEqual other
  | notEqual, s, other => s.isNotEqual other
  | greater, s, other => s.isGreater other
  | greaterEqual, s, other => s.isGreaterEqual other
  | less, s, other => s.isLess other
  | lessEqual, s, other => s.isLessEqual other

theorem Relation.perform_eq (op : Relation) (s : Series α) (other : Operand α) :
    op.perform s other = (Rule.applied op.value s other).series := by
  cases op <;> cases other <;> rfl

end Relation

variable [Zero α] [One α] [Add α] [Sub α] [Mul α] [Div α] [Neg α] [BEq α] [Magnitude α]
  [Elementary α] [LT α] [DecidableLT α] [LE α] [DecidableLE α]

namespace Elementwise

def perform : Elementwise α → Series α
  | negate s => -s
  | magnitude s => s.magnitude
  | logarithm s => s.logarithm
  | replace s old new => s.replace old new
  | fillHoles s x => s.fillHoles x
  | fillNonFinite s x => s.fillNonFinite x
  | withCeiling s x => s.withCeiling x
  | withFloor s x => s.withFloor x
  | arithmetic op s other => op.perform s other
  | scalarFirst op x s => op.performFirst x s
  | relate op s other => op.perform s other

/-- The series whose options the result has: the left one, or the only one. -/
def receiver : Elementwise α → Series α
  | negate s | magnitude s | logarithm s | replace s .. | fillHoles s _ | fillNonFinite s _
  | withCeiling s _ | withFloor s _ | arithmetic _ s _ | scalarFirst _ _ s | relate _ s _ => s

def rule : Elementwise α → Rule α
  | negate s => .observed (- ·) s
  | magnitude s => .observed abs s
  | logarithm s => .observed (fun x => if 0 < x then log x else hole) s
  | replace s old new => .observed (fun x => if x == old then new else x) s
  | fillHoles s x => .each (fun y => if isHole y then x else y) s
  | fillNonFinite s x => .each (finiteOr x) s
  | withCeiling s x => .observed (smaller · x) s
  | withFloor s x => .observed (larger · x) s
  | arithmetic op s other => .applied op.value s other
  | scalarFirst op x s => .observed (op.value x) s
  | relate op s other => .applied op.value s other

theorem perform_eq (op : Elementwise α) : op.perform = op.rule.series := by
  cases op with
  | arithmetic op s other => exact op.perform_eq s other
  | scalarFirst op x s => exact op.performFirst_eq x s
  | relate op s other => exact op.perform_eq s other
  | _ => rfl

theorem receiver_rule (op : Elementwise α) : op.rule.receiver = op.receiver := by
  cases op with
  | arithmetic op s other => cases other <;> rfl
  | relate op s other => cases other <;> rfl
  | _ => rfl

end Elementwise
end Elementwise

end Almanac.Series
