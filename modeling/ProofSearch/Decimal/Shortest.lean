/-! # Shortest decimals

The decimal written for a binary fraction is the one with the fewest digits that still reads back as
that fraction, and of those the nearest to it. A fraction `m · 2^q` is read back from every decimal
between the two midpoints to its neighbours, the midpoints included when `m` is even. -/

namespace ProofSearch.Decimal

/-- The power of the base; one where the exponent is below zero. -/
def power (base : Nat) (k : Int) : Nat := base.pow k.toNat

/-- The reals that read back as one binary fraction, all over one denominator. -/
structure Interval where
  low : Nat
  value : Nat
  high : Nat
  den : Nat
  closed : Bool

/-- Around `m · 2^q`; below a power of two the neighbour is only half as far, when `narrow`. -/
def Interval.around (m : Nat) (q : Int) (narrow : Bool) : Interval :=
  let scale := power 2 (q - 2)
  { low := (4 * m - if narrow then 1 else 2) * scale
    value := 4 * m * scale
    high := (4 * m + 2) * scale
    den := power 2 (2 - q)
    closed := m % 2 = 0 }

/-- The least `k` with `value < 10^k`, looked for from `k` up. -/
def Interval.magnitudeFrom (i : Interval) : Nat → Int → Int
  | 0, k => k
  | n + 1, k =>
    if i.value * power 10 (-k) < i.den * power 10 k then k else i.magnitudeFrom n (k + 1)

def Interval.magnitude (i : Interval) : Int := i.magnitudeFrom 700 (-330)

/-- The multiple `c` of `10^(k - n)` lies in the interval. -/
def Interval.holds (i : Interval) (up down c : Nat) : Bool :=
  if i.closed then i.low * down ≤ c * up * i.den && c * up * i.den ≤ i.high * down
  else i.low * down < c * up * i.den && c * up * i.den < i.high * down

/-- The nearest decimal of `n` digits in the interval, as a multiple of `10^(k - n)`. -/
def Interval.ofDigits? (i : Interval) (k : Int) (n : Nat) : Option Nat :=
  let up := power 10 (k - n)
  let down := power 10 (n - k)
  let c := i.value * down / (i.den * up)
  let below := i.value * down - c * up * i.den
  let above := (c + 1) * up * i.den - i.value * down
  match i.holds up down c, i.holds up down (c + 1) with
  | false, false => none
  | true, false => some c
  | false, true => some (c + 1)
  | true, true => some (if below < above || (below = above && c % 2 = 0) then c else c + 1)

def Interval.shortestFrom (i : Interval) (k : Int) : Nat → Nat → Nat × Nat
  | 0, n => (i.value * power 10 (n - k) / (i.den * power 10 (k - n)), n)
  | more + 1, n =>
    match i.ofDigits? k n with
    | some c => (c, n)
    | none => i.shortestFrom k more (n + 1)

/-- The digits `d₁ d₂ …` and the `k` of the shortest decimal `0.d₁d₂… · 10^k`. -/
def Interval.shortest (i : Interval) : List Char × Int :=
  let k := i.magnitude
  let (c, n) := i.shortestFrom k 17 1
  let ds := (toString c).toList
  let trimmed := (ds.reverse.dropWhile (· = '0')).reverse
  (trimmed, k + ((ds.length : Int) - n))

/-- Positional from `10^-4` up to below `10^16`, with a point at all times; otherwise with a signed
exponent of at least two digits. -/
def layOut (ds : List Char) (k : Int) : List Char :=
  if -4 < k && k ≤ 16 then
    if k ≤ 0 then '0' :: '.' :: List.replicate (-k).toNat '0' ++ ds
    else
      let n := k.toNat
      let whole := ds.take n ++ List.replicate (n - ds.length) '0'
      let rest := ds.drop n
      whole ++ '.' :: (if rest.isEmpty then ['0'] else rest)
  else
    let e := k - 1
    let es := (toString e.natAbs).toList
    let es := if es.length < 2 then '0' :: es else es
    let tail := ds.drop 1
    ds.take 1 ++ (if tail.isEmpty then [] else '.' :: tail) ++
      'e' :: (if e < 0 then '-' else '+') :: es

/-- The text of the number with these 64 bits. -/
def ofBits (bits : UInt64) : String :=
  let n := bits.toNat
  let minus := if n / power 2 63 = 1 then ['-'] else []
  let e : Nat := n / power 2 52 % power 2 11
  let f : Nat := n % power 2 52
  if e = 2047 then if f = 0 then String.ofList (minus ++ "inf".toList) else "nan"
  else if e = 0 && f = 0 then String.ofList (minus ++ ['0', '.', '0'])
  else
    let i :=
      if e = 0 then Interval.around f (-1074) false
      else Interval.around (f + power 2 52) ((e : Int) - 1075) (f = 0 && 1 < e)
    let (ds, k) := i.shortest
    String.ofList (minus ++ layOut ds k)

end ProofSearch.Decimal
