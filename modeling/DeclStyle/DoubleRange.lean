/-!
# The range of double-precision numbers

Which decimal numbers are too large for a double-precision number.  A number is out of range when
it rounds, to the nearest with ties to even, to something above the greatest finite value.

Two rules are in use.  The *exact* one rounds the number itself.  The *scaled* one takes the number
as a significand of at most 64 bits times a power of ten, rounds both to double precision and then
rounds their product.
-/

namespace DeclStyle.DoubleRange

/-- The least number that rounds to something above the greatest finite value. -/
def bound : Nat := Nat.pow 2 1024 - Nat.pow 2 970

/-- A natural number rounded to 53 significant bits, ties to even. -/
def round53 (n : Nat) : Nat :=
  if n < Nat.pow 2 53 then n
  else
    let unit := Nat.pow 2 (Nat.log2 n - 52)
    let kept := n / unit
    let dropped := 2 * (n % unit)
    (if unit < dropped ∨ (dropped = unit ∧ kept % 2 = 1) then kept + 1 else kept) * unit

/-- Whether a significand times a power of ten is out of range by the scaled rule. -/
def exceedsScaled (significand : Nat) (exponent : Int) : Bool :=
  if significand = 0 ∨ exponent < 0 then false
  else if 308 < exponent then true
  else decide (bound ≤ round53 significand * round53 (Nat.pow 10 exponent.toNat))

/-- Whether a number with the given decimal digits, times a power of ten, is out of range by the
exact rule.  Numbers far from the bound are told by the count of their digits. -/
def exceedsExact (digits : List Nat) (exponent : Int) : Bool :=
  let significant := digits.dropWhile (· == 0)
  let magnitude : Int := significant.length + exponent
  if significant.isEmpty ∨ magnitude < 309 then false
  else if 309 < magnitude then true
  else
    let n := significant.foldl (fun n d => 10 * n + d) 0
    if 0 ≤ exponent then decide (bound ≤ n * Nat.pow 10 exponent.toNat)
    else decide (bound * Nat.pow 10 (-exponent).toNat ≤ n)

example : exceedsScaled 17976931348623157 292 = false ∧ exceedsScaled 17976931348623159 292 := by
  decide +kernel

example :
    exceedsExact [1] 308 = false ∧ exceedsExact [1] 309 ∧ exceedsExact [0, 0] 999 = false := by
  decide +kernel

end DeclStyle.DoubleRange
