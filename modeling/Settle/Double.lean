/-
  Settle.Double — finite IEEE doubles by their bits, and their shortest decimal text.

  A number of a state tree that is not an integer is a finite double. It is kept as
  its 64 bits, so two of them are told apart exactly (`DecidableEq`), while the
  comparison the engine uses is the IEEE one (`same`): the two zeros are one number.
  Infinities and NaN are no `Double`; arithmetic that ends in one has no result.

  The text of a double is the shortest decimal that reads back: among the grids of
  1, 2, … 17 significant digits the first that has a point in the interval of reals
  which round to the value wins, of two such points the nearer.
-/

namespace Settle

/-- A finite double. -/
structure Double where
  bits : UInt64
  finite : bits &&& 0x7ff0000000000000 ≠ 0x7ff0000000000000
  deriving DecidableEq

namespace Double

/-- The double with these bits, unless they stand for an infinity or no number. -/
def ofBits? (bits : UInt64) : Option Double :=
  if h : bits &&& 0x7ff0000000000000 ≠ 0x7ff0000000000000 then some ⟨bits, h⟩ else none

def ofFloat? (x : Float) : Option Double := ofBits? x.toBits

def toFloat (d : Double) : Float := Float.ofBits d.bits

def zero : Double := ⟨0, by decide⟩

instance : Inhabited Double := ⟨zero⟩

def isZero (d : Double) : Bool := d.bits <<< 1 == 0

/-- IEEE equality of finite doubles: equal bits, or two zeros of either sign. -/
def same (a b : Double) : Bool := a.bits == b.bits || (a.isZero && b.isZero)

@[simp] theorem same_self (a : Double) : same a a = true := by simp [same]

/-! ## Decimal text -/

def negative (d : Double) : Bool := d.bits >>> 63 == 1

/-- The fraction bits and the biased exponent. -/
def fraction (d : Double) : Nat := (d.bits &&& 0x000fffffffffffff).toNat
def biased (d : Double) : Nat := ((d.bits >>> 52) &&& 0x7ff).toNat

/-- `|d| = mantissa * 2 ^ exponent`. -/
def mantissa (d : Double) : Nat := if d.biased = 0 then d.fraction else d.fraction + (1 <<< 52)
def exponent (d : Double) : Int := (if d.biased = 0 then 1 else (d.biased : Int)) - 1075

/-- A positive real as a fraction of naturals, with the ends of the interval of reals
that round to it. All three share the denominator `den`. -/
structure Rounding where
  value : Nat
  low : Nat
  high : Nat
  den : Nat
  closed : Bool

/-- The rounding interval: half a unit on each side, a quarter below a power of two. -/
def rounding (d : Double) : Rounding :=
  let m := d.mantissa
  let q := d.exponent - 2
  let below := if d.fraction = 0 && d.biased > 1 then 1 else 2
  let up := 1 <<< q.toNat
  { value := 4 * m * up, low := (4 * m - below) * up, high := (4 * m + 2) * up
    den := 1 <<< (-q).toNat, closed := m % 2 == 0 }

/-- Digits of an integer and the power of ten it is scaled by. -/
structure Decimal where
  digits : Nat
  scale : Int
  deriving DecidableEq, Repr

def Rounding.contains (r : Rounding) (num den : Nat) : Bool :=
  if r.closed then r.low * den ≤ num * r.den && num * r.den ≤ r.high * den
  else r.low * den < num * r.den && num * r.den < r.high * den

/-- The point of the grid of multiples of `10 ^ scale` nearest to the value, of the two
neighbours that lie in the interval; a tie goes to the even one. -/
def Rounding.onGrid (r : Rounding) (scale : Int) : Option Decimal :=
  let up := Nat.pow 10 scale.toNat
  let down := Nat.pow 10 (-scale).toNat
  let num := r.value * down
  let den := r.den * up
  let f := num / den
  let inside (n : Nat) : Bool := r.contains (n * up) down
  let twice := 2 * (num % den)
  let upper := if twice = den then f % 2 == 1 else den < twice
  let lo : Decimal := ⟨f, scale⟩
  let hi : Decimal := ⟨f + 1, scale⟩
  if inside f && inside (f + 1) then some (if upper then hi else lo)
  else if inside f then some lo
  else if inside (f + 1) then some hi
  else none

/-- How many digits stand before the decimal point (zero or less below one tenth). -/
def Rounding.magnitude (r : Rounding) : Int :=
  if r.den ≤ r.value then ((Nat.toDigits 10 (r.value / r.den)).length : Int)
  else
    let rec up : Nat → Nat → Int → Int
      | 0, _, k => k
      | fuel + 1, num, k => if r.den ≤ 10 * num then k else up fuel (10 * num) (k - 1)
    up 400 r.value 0

/-- The shortest decimal in the rounding interval; seventeen digits always suffice. -/
def Rounding.shortest (r : Rounding) : Decimal :=
  let p := r.magnitude
  ((List.range 17).findSome? fun n => r.onGrid (p - (↑n + 1))).getD ⟨r.value / r.den, 0⟩

/-- Drop trailing zeros of the digits. -/
def Decimal.trim (d : Decimal) : Decimal :=
  let rec go : Nat → Nat → Int → Decimal
    | 0, n, k => ⟨n, k⟩
    | fuel + 1, n, k => if n ≠ 0 ∧ n % 10 = 0 then go fuel (n / 10) (k + 1) else ⟨n, k⟩
  go 400 d.digits d.scale

def zeros (n : Nat) : String := String.ofList (List.replicate n '0')

/-- Positional notation from `1e-5` up to below `1e16`, always with a point; otherwise
one digit, a point if more follow, and a signed exponent. -/
def Decimal.text (d : Decimal) : String :=
  let ds := Nat.toDigits 10 d.digits
  let n : Int := ds.length
  let point := n + d.scale
  if 0 ≤ d.scale && point ≤ 16 then String.ofList ds ++ zeros d.scale.toNat ++ ".0"
  else if 0 < point && point ≤ 16 then
    String.ofList (ds.take point.toNat) ++ "." ++ String.ofList (ds.drop point.toNat)
  else if -5 < point && point ≤ 0 then "0." ++ zeros (-point).toNat ++ String.ofList ds
  else
    let e := point - 1
    let head := String.ofList (ds.take 1)
    let tail := if ds.length = 1 then "" else "." ++ String.ofList (ds.drop 1)
    let sign := if e < 0 then "-" else "+"
    head ++ tail ++ "e" ++ sign ++ toString e.natAbs

/-- The text of a double: a sign for the negative ones, zero included. -/
def text (d : Double) : String :=
  let sign := if d.negative then "-" else ""
  if d.isZero then sign ++ "0.0" else sign ++ d.rounding.shortest.trim.text

end Double

end Settle
