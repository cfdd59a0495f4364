/-! Numbers as text. -/
namespace CMakeManual.Text

/-- A number in decimal digits without leading zeros. -/
def decimal (n : Nat) : String := String.ofList (Nat.toDigits 10 n)

end CMakeManual.Text
