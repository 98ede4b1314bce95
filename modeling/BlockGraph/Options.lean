/-!
# Options

Limits on what is built. A nested scope gets a fraction of the size that its parent may inline,
computed in single precision, but never less than what is always allowed.
-/

namespace BlockGraph

/-! ## Fractions in single precision -/

/-- A number nearest to `n` among those of at most `precision` bits before a run of zeros; of two
that are equally near, the one whose last bit is zero. -/
def roundBits (precision n : Nat) : Nat :=
  let dropped := n.log2 + 1 - precision
  let unit := 1 <<< dropped
  let kept := n / unit
  let rest := n % unit
  if 2 * rest > unit ∨ (2 * rest = unit ∧ kept % 2 = 1) then (kept + 1) * unit else kept * unit

/-- A factor that single-precision arithmetic multiplies by. -/
inductive Ratio where
  /-- The number `mantissa * 2 ^ exponent`, or its negative. -/
  | finite (negative : Bool) (mantissa : Nat) (exponent : Int)
  | infinite (negative : Bool)
  | undefined
deriving DecidableEq, Repr

namespace Ratio

/-- The number with the given single-precision bits. -/
def ofBits (bits : UInt32) : Ratio :=
  let n := bits.toNat
  let negative := n.testBit 31
  let exponent : Nat := (n >>> 23) % 256
  let fraction : Nat := n % 0x800000
  if exponent = 255 then (if fraction = 0 then .infinite negative else .undefined)
  else if exponent = 0 then .finite negative fraction (-149)
  else .finite negative (0x800000 + fraction) ((exponent : Int) - 150)

/-- The greatest 64-bit word. -/
def wordMax : Nat := 0xffffffffffffffff

/-- The product of a ratio and a size, cut off at the point and to the range of a 64-bit word.
The size and then the product are rounded to the 24 bits of a single-precision number. What is
negative or undefined counts as zero. -/
def scale (r : Ratio) (size : Nat) : Nat :=
  match r with
  | .undefined | .finite true _ _ | .infinite true => 0
  | .infinite false => if size = 0 then 0 else wordMax
  | .finite false mantissa exponent =>
    let product := roundBits 24 (mantissa * roundBits 24 size)
    min wordMax
      (if 0 ≤ exponent then product <<< exponent.toNat else product >>> (-exponent).toNat)

/-- Nine tenths. -/
def nineTenths : Ratio := ofBits 0x3f666666

end Ratio

/-! ## The options -/

/-- Limits on what is built. -/
structure Options where
  /-- Size that the method itself may inline, in bytes of code. -/
  inlineSize : Nat := 35
  /-- Methods up to this size may always be inlined. -/
  trivialSize : Nat := 6
  /-- The part of its parent's size that a nested scope gets. -/
  inlineRatio : Ratio := .nineTenths
  /-- A method with more blocks than this is given up. -/
  blockLimit : Nat := 10000
deriving DecidableEq, Repr

/-- Size that a scope may inline which is nested in a scope that may inline `parent`
(`Options::nested_inline_size`). -/
def Options.nestedShare (o : Options) (parent : Nat) : Nat :=
  max (o.inlineRatio.scale parent) o.trivialSize

example : ({} : Options).nestedShare 35 = 31 := by decide +kernel
example : ({} : Options).nestedShare 16777217 = 15099494 := by decide +kernel
example : ({} : Options).nestedShare Ratio.wordMax = 16602069226533945344 := by decide +kernel

end BlockGraph
