/-!
# Hexadecimal text

Lower case digits, as error messages write bytes and escaped characters.
-/

namespace RecordIndex.Text

/-- The lower case hexadecimal digits of `n`, without leading zeros. -/
def hexDigits (n : Nat) : String := String.ofList (Nat.toDigits 16 n)

/-- A byte as `0x` and two digits. -/
def hexByte (b : UInt8) : String :=
  if b.toNat < 16 then "0x0" ++ hexDigits b.toNat else "0x" ++ hexDigits b.toNat

end RecordIndex.Text
