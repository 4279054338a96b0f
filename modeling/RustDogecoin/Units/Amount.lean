import RustDogecoin.Lib.Str
import Mathlib.Algebra.Group.Nat.Defs

/-!
# Amounts as text

`units/amount.rs`: parsing and formatting of `Amount` and `SignedAmount` in a denomination.  Both go
through one parser, `parseSignedToSatoshi`, and one formatter, `fmtSatoshiIn`.
-/

namespace RustDogecoin.Units

/-- A set of denominations in which amounts can be expressed. -/
inductive Denomination where
  | bitcoin
  | centiBitcoin
  | milliBitcoin
  | microBitcoin
  | nanoBitcoin
  | picoBitcoin
  | bit
  | satoshi
  | milliSatoshi
  deriving DecidableEq, Repr

/-- An error of `Denomination::from_str`, with the input. -/
inductive ParseDenominationError where
  | unknown (input : Str)
  | possiblyConfusing (input : Str)
  deriving DecidableEq, Repr

namespace Denomination

/-- The number of decimal places more than a satoshi. -/
def precision : Denomination → ℤ
  | bitcoin => -8
  | centiBitcoin => -6
  | milliBitcoin => -5
  | microBitcoin => -2
  | nanoBitcoin => 1
  | picoBitcoin => 4
  | bit => -2
  | satoshi => 0
  | milliSatoshi => 3

/-- Returns stringly representation of this. -/
def asStr : Denomination → Str
  | bitcoin => "BTC".toList
  | centiBitcoin => "cBTC".toList
  | milliBitcoin => "mBTC".toList
  | microBitcoin => "uBTC".toList
  | nanoBitcoin => "nBTC".toList
  | picoBitcoin => "pBTC".toList
  | bit => "bits".toList
  | satoshi => "satoshi".toList
  | milliSatoshi => "msat".toList

/-- The different str forms of denominations that are recognized. -/
def forms (s : Str) : Option Denomination :=
  match String.ofList s with
  | "BTC" | "btc" => some bitcoin
  | "cBTC" | "cbtc" => some centiBitcoin
  | "mBTC" | "mbtc" => some milliBitcoin
  | "uBTC" | "ubtc" => some microBitcoin
  | "nBTC" | "nbtc" => some nanoBitcoin
  | "pBTC" | "pbtc" => some picoBitcoin
  | "bit" | "bits" | "BIT" | "BITS" => some bit
  | "SATOSHI" | "satoshi" | "SATOSHIS" | "satoshis" | "SAT" | "sat" | "SATS" | "sats" => some satoshi
  | "mSAT" | "msat" | "mSATs" | "msats" => some milliSatoshi
  | _ => none

/-- These form are ambigous and could have many meanings. -/
def CONFUSING_FORMS : List Str :=
  ["Msat", "Msats", "MSAT", "MSATS", "MSat", "MSats", "MBTC", "Mbtc", "PBTC"].map String.toList

/-- Convert from a str to Denomination. -/
def fromStr (s : Str) : Outcome ParseDenominationError Denomination :=
  if s ∈ CONFUSING_FORMS then .err (.possiblyConfusing s)
  else
    match forms s with
    | some d => .ok d
    | none => .err (.unknown s)

/-- Every denomination is parsed from its own representation. -/
theorem fromStr_asStr (d : Denomination) : fromStr d.asStr = .ok d := by
  cases d <;> decide

end Denomination

/-! ## Errors -/

inductive MissingDigitsKind where
  | empty
  | onlyMinusSign
  deriving DecidableEq, Repr

/-- Returned when a parsed amount is too big or too small. -/
structure OutOfRangeError where
  isSigned : Bool
  isGreaterThanMax : Bool
  deriving DecidableEq, Repr

namespace OutOfRangeError

def tooBig (isSigned : Bool) : OutOfRangeError := ⟨isSigned, true⟩

def tooSmall : OutOfRangeError := ⟨true, false⟩

def negative : OutOfRangeError := ⟨false, false⟩

end OutOfRangeError

/-- An error during amount parsing. -/
inductive ParseAmountError where
  | outOfRange (e : OutOfRangeError)
  | tooPrecise (position : ℕ)
  | missingDigits (kind : MissingDigitsKind)
  | inputTooLarge (len : ℕ)
  | invalidCharacter (invalidChar : Char) (position : ℕ)
  deriving DecidableEq, Repr

/-- An error during amount parsing amount with denomination. -/
inductive ParseError where
  | amount (e : ParseAmountError)
  | denomination (e : ParseDenominationError)
  | missingDenomination
  deriving DecidableEq, Repr

inductive InnerParseError where
  | overflow (isNegative : Bool)
  | tooPrecise (position : ℕ)
  | missingDigits (kind : MissingDigitsKind)
  | inputTooLarge (len : ℕ)
  | invalidCharacter (invalidChar : Char) (position : ℕ)
  deriving DecidableEq, Repr

def InnerParseError.convert (isSigned : Bool) : InnerParseError → ParseAmountError
  | overflow isNegative => .outOfRange ⟨isSigned, !isNegative⟩
  | tooPrecise position => .tooPrecise position
  | missingDigits kind => .missingDigits kind
  | inputTooLarge len => .inputTooLarge len
  | invalidCharacter c position => .invalidCharacter c position

/-! ## Parsing -/

section

variable {ε : Type}

/-- The position of the last of up to `n` characters from the end that are not zeros. -/
def findNonZeroFromEnd (s : Str) (n : ℕ) : Option ℕ :=
  (((Str.charIndices 0 s).reverse.take n).find? fun x => x.2 != '0').map Prod.fst

/-- Returns `Some(position)` if the precision is not supported. -/
def isTooPrecise (s : Str) (precision : ℕ) : Outcome ε (Option ℕ) :=
  match s.find (· == '.') with
  | some pos =>
    if pos ≤ precision then return some 0
    else do
      let before ← s.sliceTo pos
      match findNonZeroFromEnd before precision with
      | some i => return some i
      | none => do
        let after ← s.sliceFrom (pos + 1)
        return (after.find (· != '0')).map fun i => i + pos + 1
  | none => if s.len ≤ precision then return some 0 else return findNonZeroFromEnd s precision

end

def INPUT_STRING_LEN_LIMIT : ℕ := 50

/-- An operation on `u64` that catches overflows. -/
def checkedU64 (isNegative : Bool) (x : ℕ) : Outcome InnerParseError ℕ :=
  .ensure (x < 2 ^ 64) (.overflow isNegative) >>= fun _ => .ok x

/-- The digit counter behind a digit: `None` before the dot. -/
def countDecimal (isNegative : Bool) (maxDecimals i : ℕ) :
    Option ℕ → Outcome InnerParseError (Option ℕ)
  | none => .ok none
  | some d => if d < maxDecimals then .ok (some (d + 1)) else .err (.tooPrecise (i + isNegative.toNat))

/-- The loop of `parse_signed_to_satoshi` over the characters, with the digits behind the dot so far
and the value so far. -/
def parseLoop (isNegative : Bool) (maxDecimals : ℕ) :
    List (ℕ × Char) → Option ℕ → ℕ → Outcome InnerParseError (Option ℕ × ℕ)
  | [], decimals, value => .ok (decimals, value)
  | (i, c) :: rest, decimals, value =>
    if c.isDigit then do
      let val ← checkedU64 isNegative (10 * value)
      let value ← checkedU64 isNegative (val + Str.digitVal c)
      let decimals ← countDecimal isNegative maxDecimals i decimals
      parseLoop isNegative maxDecimals rest decimals value
    else if c = '.' then
      match decimals with
      | none =>
        if maxDecimals ≤ 0 then .ok (none, value)
        else parseLoop isNegative maxDecimals rest (some 0) value
      | some _ => .err (.invalidCharacter '.' (i + isNegative.toNat))
    else .err (.invalidCharacter c (i + isNegative.toNat))

/-- Decimally shift left. -/
def scaleLoop (isNegative : Bool) : ℕ → ℕ → Outcome InnerParseError ℕ
  | 0, value => .ok value
  | n + 1, value => do
    let value ← checkedU64 isNegative (10 * value)
    scaleLoop isNegative n value

/-- The digits and the shift by the decimals that are missing. -/
def parseDigits (isNegative : Bool) (maxDecimals : ℕ) (s : Str) :
    Outcome InnerParseError (Bool × ℕ) := do
  let (decimals, value) ← parseLoop isNegative maxDecimals (s.charIndices 0) none 0
  let value ← scaleLoop isNegative (maxDecimals - decimals.getD 0) value
  return (isNegative, value)

/-- `parse_signed_to_satoshi` behind the sign. -/
def parseMagnitude (isNegative : Bool) (s : Str) (denom : Denomination) :
    Outcome InnerParseError (Bool × ℕ) :=
  let precisionDiff := -denom.precision
  if precisionDiff ≤ 0 then do
    -- a denomination as fine as a satoshi or finer: the last digits are dropped, and must be zeros
    let lastN := precisionDiff.natAbs
    let position ← isTooPrecise s lastN
    match position with
    | some position =>
      if s.parseI64 = some 0 then return (isNegative, 0)
      else .err (.tooPrecise (position + isNegative.toNat))
    | none => do
      let stop := (s.find (· == '.')).getD s.len
      .require (lastN ≤ stop) .overflow
      let s ← s.sliceTo (stop - lastN)
      parseDigits isNegative 0 s
  else parseDigits isNegative precisionDiff.toNat s

/-- Parse decimal string in the given denomination into a satoshi value and a bool indicator for a
negative amount. -/
def parseSignedToSatoshi (s : Str) (denom : Denomination) : Outcome InnerParseError (Bool × ℕ) :=
  if s = [] then .err (.missingDigits .empty)
  else if INPUT_STRING_LEN_LIMIT < s.len then .err (.inputTooLarge s.len)
  else if s.head? = some '-' then
    if s.len = 1 then .err (.missingDigits .onlyMinusSign)
    else do
      let s ← s.sliceFrom 1
      parseMagnitude true s denom
  else parseMagnitude false s denom

/-- The text before the denomination and the denomination, split at a space or at the first
alphabetic character. -/
def splitAmountAndDenomination (isAlphabetic : Char → Bool) (s : Str) :
    Outcome ParseError (Str × Denomination) := do
  let (i, j) ←
    match s.find (· == ' ') with
    | some i => Outcome.ok (i, i + 1)
    | none =>
      match s.find isAlphabetic with
      | some i => Outcome.ok (i, i)
      | none => Outcome.err .missingDenomination
  let amount ← s.sliceTo i
  let rest ← s.sliceFrom j
  let denom ← (Denomination.fromStr rest).mapErr .denomination
  return (amount, denom)

/-! ## Formatting -/

inductive Alignment where
  | left
  | right
  | center
  deriving DecidableEq, Repr

/-- Options given by `fmt::Formatter`. -/
structure FormatOptions where
  fill : Char := ' '
  align : Option Alignment := none
  width : Option ℕ := none
  precision : Option ℕ := none
  signPlus : Bool := false
  signAwareZeroPad : Bool := false
  deriving DecidableEq, Repr

/-- The number of decimal digits of `num`; the fuel is the number itself. -/
def decWidthLoop : ℕ → ℕ → ℕ → ℕ
  | 0, _, width => width
  | fuel + 1, num, width =>
    let num := num / 10
    if num = 0 then width else decWidthLoop fuel num (width + 1)

def decWidth (num : ℕ) : ℕ := decWidthLoop num num 1

/-- Normalize by stripping trailing zeros: the number of decimals and the digits in them. -/
def stripTrailingZeros : ℕ → ℕ → ℕ × ℕ
  | 0, num => (0, num)
  | nbDecimals + 1, num =>
    if num % 10 = 0 then stripTrailingZeros nbDecimals (num / 10) else (nbDecimals + 1, num)

/-- A number of satoshis normalized for a denomination. -/
structure Normalized where
  numBeforeDecimalPoint : ℕ
  exp : ℕ
  normNbDecimals : ℕ
  numAfterDecimalPoint : ℕ
  trailingDecimalZeros : ℕ
  deriving DecidableEq, Repr

def normalize (satoshi : ℕ) (denom : Denomination) (precision : Option ℕ) : Normalized :=
  if 0 < denom.precision then
    { numBeforeDecimalPoint := satoshi
      exp := if 0 < satoshi then denom.precision.toNat else 0
      normNbDecimals := 0
      numAfterDecimalPoint := 0
      trailingDecimalZeros := precision.getD 0 }
  else if denom.precision < 0 then
    let divisor := 10 ^ denom.precision.natAbs
    let after := satoshi % divisor
    let stripped := if after = 0 then (0, after) else stripTrailingZeros denom.precision.natAbs after
    { numBeforeDecimalPoint := satoshi / divisor
      exp := 0
      normNbDecimals := stripped.1
      numAfterDecimalPoint := stripped.2
      trailingDecimalZeros := precision.getD 0 - stripped.1 }
  else
    { numBeforeDecimalPoint := satoshi
      exp := 0
      normNbDecimals := 0
      numAfterDecimalPoint := 0
      trailingDecimalZeros := precision.getD 0 }

/-- `{:0width$}`. -/
def zeroPadded (num width : ℕ) : Str :=
  List.replicate (width - (Nat.toDigits 10 num).length) '0' ++ Nat.toDigits 10 num

namespace Normalized

def totalDecimals (n : Normalized) : ℕ := n.normNbDecimals + n.trailingDecimalZeros

/-- The digits with the dot between them. -/
def text (n : Normalized) : Str :=
  Nat.toDigits 10 n.numBeforeDecimalPoint ++ List.replicate n.exp '0' ++
    (if 0 < n.totalDecimals then ['.'] else []) ++
    (if 0 < n.normNbDecimals then zeroPadded n.numAfterDecimalPoint n.normNbDecimals else []) ++
    List.replicate n.trailingDecimalZeros '0'

/-- The width of the number without padding. -/
def width (n : Normalized) (negative showDenom : Bool) (denom : Denomination)
    (options : FormatOptions) : ℕ :=
  (if 0 < n.totalDecimals then 1 + n.totalDecimals else 0) +
    (decWidth n.numBeforeDecimalPoint + n.exp) +
    (if options.signPlus || negative then 1 else 0) +
    (if showDenom then denom.asStr.len + 1 else 0)

end Normalized

/-- The padding on the left and on the right. -/
def padding (numWidth : ℕ) (options : FormatOptions) : ℕ × ℕ :=
  let width := options.width.getD 0
  if numWidth < width then
    if options.signAwareZeroPad then (width - numWidth, 0)
    else
      match options.align.getD .right with
      | .right => (width - numWidth, 0)
      | .left => (0, width - numWidth)
      | .center => ((width - numWidth) / 2, (width - numWidth + 1) / 2)
  else (0, 0)

/-- Format the given satoshi amount in the given denomination. -/
def fmtSatoshiIn (satoshi : ℕ) (negative : Bool) (denom : Denomination) (showDenom : Bool)
    (options : FormatOptions) : Str :=
  let n := normalize satoshi denom options.precision
  let pad := padding (n.width negative showDenom denom options) options
  (if options.signAwareZeroPad then [] else List.replicate pad.1 options.fill) ++
    (if negative then ['-'] else if options.signPlus then ['+'] else []) ++
    (if options.signAwareZeroPad then List.replicate pad.1 '0' else []) ++
    n.text ++
    (if showDenom then ' ' :: denom.asStr else []) ++
    List.replicate pad.2 options.fill

/-! ## Amounts -/

/-- An amount in satoshis. -/
structure Amount where
  sat : UInt64
  deriving DecidableEq, Repr

namespace Amount

def ONE_BTC : Amount := ⟨100000000⟩

/-- Parse a decimal string as a value in the given denomination. -/
def fromStrIn (s : Str) (denom : Denomination) : Outcome ParseAmountError Amount := do
  let (negative, satoshi) ← (parseSignedToSatoshi s denom).mapErr (InnerParseError.convert false)
  if negative then .err (.outOfRange .negative) else return ⟨UInt64.ofNat satoshi⟩

/-- Parses amounts with denomination suffix; this is `from_str`. -/
def fromStrWithDenomination (isAlphabetic : Char → Bool) (s : Str) : Outcome ParseError Amount := do
  let (amt, denom) ← splitAmountAndDenomination isAlphabetic s
  (fromStrIn amt denom).mapErr .amount

/-- Get a string number of this amount in the given denomination. -/
def toStringIn (a : Amount) (denom : Denomination) : Str :=
  fmtSatoshiIn a.sat.toNat false denom false {}

/-- Get a formatted string of this amount, suffixed with the abbreviation for the denomination. -/
def toStringWithDenomination (a : Amount) (denom : Denomination) : Str :=
  toStringIn a denom ++ ' ' :: denom.asStr

/-- `Display::fmt`, with the options of the formatter. -/
def fmt (a : Amount) (formatOptions : FormatOptions) : Str :=
  let formatOptions :=
    if formatOptions.precision = none ∧ a.sat.toNat % ONE_BTC.sat.toNat ≠ 0 then
      { formatOptions with precision := some 8 }
    else formatOptions
  fmtSatoshiIn a.sat.toNat false .bitcoin true formatOptions

end Amount

/-- A signed amount in satoshis. -/
structure SignedAmount where
  sat : Int64
  deriving DecidableEq

namespace SignedAmount

/-- Parse a decimal string as a value in the given denomination. -/
def fromStrIn (s : Str) (denom : Denomination) : Outcome ParseAmountError SignedAmount := do
  let (negative, sat) ← (parseSignedToSatoshi s denom).mapErr (InnerParseError.convert true)
  if negative then
    if sat = 2 ^ 63 then return ⟨Int64.minValue⟩
    else if 2 ^ 63 < sat then .err (.outOfRange .tooSmall)
    else return ⟨-Int64.ofNat sat⟩
  else
    if 2 ^ 63 - 1 < sat then .err (.outOfRange (.tooBig true))
    else return ⟨Int64.ofNat sat⟩

/-- Parses amounts with denomination suffix; this is `from_str`. -/
def fromStrWithDenomination (isAlphabetic : Char → Bool) (s : Str) :
    Outcome ParseError SignedAmount := do
  let (amt, denom) ← splitAmountAndDenomination isAlphabetic s
  (fromStrIn amt denom).mapErr .amount

/-- Get the absolute value of this amount. -/
def unsignedAbs (a : SignedAmount) : ℕ := a.sat.toInt.natAbs

def isNegative (a : SignedAmount) : Bool := a.sat.toInt < 0

/-- Get a string number of this amount in the given denomination. -/
def toStringIn (a : SignedAmount) (denom : Denomination) : Str :=
  fmtSatoshiIn a.unsignedAbs a.isNegative denom false {}

/-- Get a formatted string of this amount, suffixed with the abbreviation for the denomination. -/
def toStringWithDenomination (a : SignedAmount) (denom : Denomination) : Str :=
  toStringIn a denom ++ ' ' :: denom.asStr

/-- `Display::fmt`, which does not look at the options of the formatter. -/
def fmt (a : SignedAmount) : Str := toStringIn a .bitcoin ++ ' ' :: Denomination.bitcoin.asStr

end SignedAmount

end RustDogecoin.Units
