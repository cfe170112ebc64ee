import ArithDecide.Bound

/-!
# Intervals

Intervals over the rationals whose endpoints are closed, strict or infinite, with the operations
that nonlinear reasoning needs: sum, product, scaling, powers, inverse and intersection. A product
is found by comparing the products of the four pairs of endpoints, an endpoint being a point of the
extended line together with the information whether it is attained.
-/

namespace ArithDecide

/-- One end of an interval. -/
inductive Endpoint where
  | infinite
  | closed (value : Rat)
  | strict (value : Rat)
  deriving DecidableEq, Inhabited

namespace Endpoint

/-- The endpoint that a bound stands for. A bound whose infinitesimal points away from the interval
has no rational counterpart and bounds nothing. -/
def ofBound (kind : BoundKind) (value : InfRat) : Endpoint :=
  if value.eps = 0 then .closed value.real
  else if kind = .lower ∧ 0 < value.eps then .strict value.real
  else if kind = .upper ∧ value.eps < 0 then .strict value.real
  else .infinite

/-- The bound that an endpoint of the given side stands for. -/
def toBound (kind : BoundKind) : Endpoint → Option InfRat
  | .infinite => none
  | .closed value => some (.ofRat value)
  | .strict value => some ⟨value, if kind = .lower then 1 else -1⟩

def value? : Endpoint → Option Rat
  | .infinite => none
  | .closed value => some value
  | .strict value => some value

/-- Whether the endpoint belongs to the interval. -/
def isClosed : Endpoint → Bool
  | .closed _ => true
  | _ => false

/-- The endpoint with a function applied to its value. -/
def map (f : Rat → Rat) : Endpoint → Endpoint
  | .infinite => .infinite
  | .closed value => .closed (f value)
  | .strict value => .strict (f value)

/-- The sum of two endpoints of one side: it is attained when both are. -/
def add (left right : Endpoint) : Endpoint :=
  match left.value?, right.value? with
  | some l, some r =>
    if left.isClosed && right.isClosed then .closed (l + r) else .strict (l + r)
  | _, _ => .infinite

end Endpoint

/-! ## Corners -/

/-- A point of the line extended by two infinities. -/
inductive Extended where
  | negInfinity
  | finite (value : Rat)
  | posInfinity
  deriving DecidableEq, Inhabited

namespace Extended

/-- Minus one, zero or one. -/
def sign : Extended → Int
  | negInfinity => -1
  | finite value => if 0 < value then 1 else if value < 0 then -1 else 0
  | posInfinity => 1

def lt : Extended → Extended → Bool
  | finite a, finite b => a < b
  | negInfinity, finite _ => true
  | negInfinity, posInfinity => true
  | finite _, posInfinity => true
  | _, _ => false

/-- The product; zero times an infinity is zero. -/
def mul : Extended → Extended → Extended
  | finite a, finite b => finite (a * b)
  | a, b =>
    if a.sign * b.sign = 0 then finite 0
    else if 0 < a.sign * b.sign then posInfinity
    else negInfinity

end Extended

/-- An endpoint seen as a point together with whether it is attained. -/
structure Corner where
  point : Extended
  attained : Bool
  deriving DecidableEq, Inhabited

namespace Corner

/-- The corner at an endpoint of the given side. -/
def ofEndpoint (kind : BoundKind) : Endpoint → Corner
  | .infinite => ⟨if kind = .lower then .negInfinity else .posInfinity, false⟩
  | .closed value => ⟨.finite value, true⟩
  | .strict value => ⟨.finite value, false⟩

def toEndpoint (c : Corner) : Endpoint :=
  match c.point with
  | .finite value => if c.attained then .closed value else .strict value
  | _ => .infinite

/-- Whether the corner is an attained zero. -/
def isZero (c : Corner) : Bool := c.point.sign = 0 && c.attained

/-- The product of two corners. An attained zero absorbs anything, an infinity too. -/
def mul (c d : Corner) : Corner :=
  if c.isZero || d.isZero then ⟨.finite 0, true⟩
  else ⟨c.point.mul d.point, c.attained && d.attained⟩

/-- The corner farther to the given side; of two equal points, attained if one of them is. -/
def farther (kind : BoundKind) (c d : Corner) : Corner :=
  let beyond (p q : Extended) : Bool := if kind = .lower then p.lt q else q.lt p
  if beyond d.point c.point then d
  else if beyond c.point d.point then c
  else ⟨c.point, c.attained || d.attained⟩

end Corner

/-! ## Intervals -/

/-- The rationals between two endpoints. -/
structure Interval where
  lower : Endpoint
  upper : Endpoint
  deriving DecidableEq, Inhabited

namespace Interval

/-- The interval that holds one rational. -/
def point (value : Rat) : Interval := ⟨.closed value, .closed value⟩

/-- Whether a rational lies above the lower endpoint. -/
def aboveLower (i : Interval) (q : Rat) : Bool :=
  match i.lower with
  | .infinite => true
  | .closed value => value ≤ q
  | .strict value => value < q

/-- Whether a rational lies below the upper endpoint. -/
def belowUpper (i : Interval) (q : Rat) : Bool :=
  match i.upper with
  | .infinite => true
  | .closed value => q ≤ value
  | .strict value => q < value

/-- Whether a rational lies in the interval. -/
def contains (i : Interval) (q : Rat) : Bool := i.aboveLower q && i.belowUpper q

/-- The sums of members. -/
def add (i j : Interval) : Interval := ⟨i.lower.add j.lower, i.upper.add j.upper⟩

/-- The products of members: the extremes among the products of the endpoints. -/
def mul (i j : Interval) : Interval :=
  let il := Corner.ofEndpoint .lower i.lower
  let iu := Corner.ofEndpoint .upper i.upper
  let jl := Corner.ofEndpoint .lower j.lower
  let ju := Corner.ofEndpoint .upper j.upper
  let extreme (kind : BoundKind) : Corner :=
    (((il.mul jl).farther kind (il.mul ju)).farther kind (iu.mul jl)).farther kind (iu.mul ju)
  ⟨(extreme .lower).toEndpoint, (extreme .upper).toEndpoint⟩

/-- The multiples of members. -/
def scale (factor : Rat) (i : Interval) : Interval := i.mul (point factor)

/-- The negated members. -/
def negate (i : Interval) : Interval := ⟨i.upper.map (- ·), i.lower.map (- ·)⟩

/-- Whether all members are known to be at least zero. -/
def isNonNegative (i : Interval) : Bool := i.lower.value?.any fun value => 0 ≤ value

/-- Whether all members are known to be at most zero. -/
def isNonPositive (i : Interval) : Bool := i.upper.value?.any fun value => value ≤ 0

/-- The upper endpoint which reaches farther; of two equal ones the closed one. -/
def fartherUpper (p q : Endpoint) : Endpoint :=
  match p.value?, q.value? with
  | some a, some b => if b < a then p else if a < b then q else if p.isClosed then p else q
  | _, _ => .infinite

/-- The absolute values of members. -/
def abs (i : Interval) : Interval :=
  if i.isNonNegative then i
  else if i.isNonPositive then i.negate
  else ⟨.closed 0, fartherUpper i.negate.upper i.upper⟩

/-- The product of `count + 1` copies of an interval. -/
def mulSelf (i : Interval) : Nat → Interval
  | 0 => i
  | count + 1 => (mulSelf i count).mul i

/-- The powers of members. An odd power is monotone, so the endpoints are raised; an even power is
the power of the absolute value, where repeated products lose nothing. -/
def power (i : Interval) (exponent : Nat) : Interval :=
  if exponent % 2 = 1 then ⟨i.lower.map (· ^ exponent), i.upper.map (· ^ exponent)⟩
  else i.abs.mulSelf (exponent - 1)

/-- The endpoint of the reciprocals: that of zero is infinite and that of infinity is zero. -/
def invertEndpoint : Endpoint → Endpoint
  | .infinite => .strict 0
  | .closed value => .closed (1 / value)
  | .strict value => if value = 0 then .infinite else .strict (1 / value)

/-- The reciprocals of members, if zero is none. -/
def inverse (i : Interval) : Option Interval :=
  if i.contains 0 then none else some ⟨invertEndpoint i.upper, invertEndpoint i.lower⟩

/-- The endpoint which says more as an endpoint of the given side. -/
def tighterEndpoint (kind : BoundKind) (p q : Endpoint) : Endpoint :=
  match p.toBound kind, q.toBound kind with
  | some a, some b => if kind.tighter b a then q else p
  | none, _ => q
  | some _, none => p

/-- The common members. -/
def intersect (i j : Interval) : Interval :=
  ⟨tighterEndpoint .lower i.lower j.lower, tighterEndpoint .upper i.upper j.upper⟩

/-- The text of an interval: `[0, 2)`, `(-oo, oo)`. -/
def text (i : Interval) : String :=
  let lower := match i.lower with
    | .infinite => "(-oo"
    | .closed value => "[" ++ rationalText value
    | .strict value => "(" ++ rationalText value
  let upper := match i.upper with
    | .infinite => "oo)"
    | .closed value => rationalText value ++ "]"
    | .strict value => rationalText value ++ ")"
  lower ++ ", " ++ upper

end Interval

end ArithDecide
