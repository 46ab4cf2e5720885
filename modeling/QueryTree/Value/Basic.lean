import QueryTree.Value.Binary64
import QueryTree.Value.Decimal
import QueryTree.Value.Quoted
import QueryTree.Value.Timestamp

/-!
# Values

The values that are bound to placeholders, the literals that they are written as,
and the type that a value typed by a user gets from its shape. How decimals and
timestamps are read and written is up to the libraries that they come from, so it
is a parameter here.
-/

namespace QueryTree

/-- A value for a placeholder. -/
inductive Value where
  | null
  | boolean (value : Bool)
  | integer (value : Int64)
  | float (value : Binary64)
  | decimal (value : Decimal)
  | text (value : Text)
  | timestamp (value : Timestamp)
deriving DecidableEq, Inhabited

namespace Value

/-- An unsigned number. One that is too great for an integer becomes a decimal. -/
def ofUInt64 (n : UInt64) : Value :=
  if n.toNat < Nat.pow 2 63 then integer (Int64.ofNat n.toNat) else decimal (Decimal.ofUInt64 n)

/-- A value that may be missing. -/
def ofOption (value : Option Value) : Value :=
  value.getD null

/-- The decimal digits of an integer after a sign if it is negative. -/
def integerText (n : Int) : Text :=
  (if n < 0 then ['-'] else []) ++ Text.ofNat n.natAbs

/-- The written forms of decimals and of timestamps. -/
structure Forms where
  /-- The decimal that a text denotes. -/
  readDecimal : Text → Option Decimal
  writeDecimal : Decimal → Text
  /-- The timestamp that a text denotes. -/
  readTimestamp : Text → Option Timestamp
  writeTimestamp : Timestamp → Text

/-- The written forms that are in use. -/
def Forms.standard : Forms where
  readDecimal := Decimal.ofText?
  writeDecimal := Decimal.toText
  readTimestamp := Timestamp.ofText?
  writeTimestamp := Timestamp.toText

/-- The literal that a value is written as in a query, with given forms. -/
def literalIn (forms : Forms) : Value → Text
  | null => "NULL".toList
  | boolean true => "true".toList
  | boolean false => "false".toList
  | integer n => integerText n.toInt
  | float x => x.toText
  | decimal d => forms.writeDecimal d
  | text t => Text.quoted t
  | timestamp t => '\'' :: (forms.writeTimestamp t ++ ['\''])

/-- The literal that a value is written as in a query. -/
def literal (v : Value) : Text :=
  v.literalIn .standard

/-- The integer that a text denotes, if it fits in 64 bits: digits alone after an
optional sign. -/
def integer? (t : Text) : Option Int64 :=
  let (negative, unsigned) := Text.splitSign t
  match Text.digits? unsigned with
  | none => none
  | some n =>
    let value : Int := if negative then -(n : Int) else n
    if Int64.minValue.toInt ≤ value ∧ value ≤ Int64.maxValue.toInt then some (Int64.ofInt value)
    else none

/-- The value of a text typed by a user, with given forms. Its shape decides its type:
a null, a truth value, an integer, a decimal or a timestamp, in this order, and a plain
text otherwise or if `forceText` is set. -/
def ofTypedIn (forms : Forms) (typed : Text) (forceText : Bool) : Value :=
  if forceText then text typed
  else if Text.sameWord typed "null".toList then null
  else if Text.sameWord typed "true".toList then boolean true
  else if Text.sameWord typed "false".toList then boolean false
  else match integer? typed with
    | some n => integer n
    | none => match forms.readDecimal typed with
      | some d => decimal d
      | none => match forms.readTimestamp typed with
        | some t => timestamp t
        | none => text typed

/-- The value of a text typed by a user. -/
def ofTyped (typed : Text) (forceText : Bool) : Value :=
  ofTypedIn .standard typed forceText

end Value

end QueryTree
