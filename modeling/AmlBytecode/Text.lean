/-! # Numerals and listings

The pieces that the printed forms of this library are made of: decimal and hexadecimal numerals
without leading zeros, and the listing of several texts between square brackets. -/

namespace AmlBytecode.Text

/-- The decimal numeral of `n`, without leading zeros. -/
def decimal (n : Nat) : String := String.ofList (Nat.toDigits 10 n)

/-- The hexadecimal numeral of `n`: `0x`, then lower-case digits without leading zeros. -/
def hex (n : Nat) : String := "0x" ++ String.ofList (Nat.toDigits 16 n)

/-- Several texts between square brackets, separated by a comma and a blank. -/
def listing (items : List String) : String := "[" ++ ", ".intercalate items ++ "]"

end AmlBytecode.Text
