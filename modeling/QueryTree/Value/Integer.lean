import QueryTree.Value.Basic

/-!
# Integers of all sizes

A value can be made of an integer of any machine type. Those that fit in 64 bits with a sign
become integers. The others are unsigned and become decimals.
-/

namespace QueryTree

/-- The machine types of integers. The size types have 64 bits. -/
inductive IntegerType where
  | int8
  | int16
  | int32
  | int64
  | uint8
  | uint16
  | uint32
  | uint64
  | usize
  | isize
deriving DecidableEq, Repr

namespace IntegerType

/-- The integers of a type. -/
abbrev Carrier : IntegerType → Type
  | int8 => Int8
  | int16 => Int16
  | int32 => Int32
  | int64 | isize => Int64
  | uint8 => UInt8
  | uint16 => UInt16
  | uint32 => UInt32
  | uint64 | usize => UInt64

/-- The number that an integer of a type is. -/
def toInt : (τ : IntegerType) → τ.Carrier → Int
  | int8, n => Int8.toInt n
  | int16, n => Int16.toInt n
  | int32, n => Int32.toInt n
  | int64, n | isize, n => Int64.toInt n
  | uint8, n => UInt8.toNat n
  | uint16, n => UInt16.toNat n
  | uint32, n => UInt32.toNat n
  | uint64, n | usize, n => UInt64.toNat n

end IntegerType

/-- The value of an integer. The types of less than 64 bits are widened first. -/
def Value.ofInteger : (τ : IntegerType) → τ.Carrier → Value
  | .int8, n => integer (Int8.toInt64 n)
  | .int16, n => integer (Int16.toInt64 n)
  | .int32, n => integer (Int32.toInt64 n)
  | .int64, n | .isize, n => integer n
  | .uint8, n => integer (UInt64.toInt64 (UInt8.toUInt64 n))
  | .uint16, n => integer (UInt64.toInt64 (UInt16.toUInt64 n))
  | .uint32, n => integer (UInt64.toInt64 (UInt32.toUInt64 n))
  | .uint64, n | .usize, n => ofUInt64 n

end QueryTree
