import CMakeManual.Text.Printable

/-! Characters and texts spelled out for messages and listings. -/
namespace CMakeManual.Text

/-- A character by its number, in lower case hexadecimal without leading zeros. -/
def codePoint (c : Char) : List Char :=
  ['\\', 'u', '\x7b'] ++ Nat.toDigits 16 c.toNat ++ ['\x7d']

/-- A single character as a message names it: visible ASCII as it is, with quotes and the
backslash escaped, and everything else by letter or number. -/
def spelled (c : Char) : List Char :=
  if c = '\t' then ['\\', 't']
  else if c = '\r' then ['\\', 'r']
  else if c = '\n' then ['\\', 'n']
  else if c = '\x27' || c = '\x22' || c = '\\' then ['\\', c]
  else if 0x20 ≤ c.toNat && c.toNat ≤ 0x7E then [c]
  else codePoint c

/-- One character of a listed text. The single quote needs no escape there. -/
def listedChar (c : Char) : List Char :=
  if c = '\x00' then ['\\', '0']
  else if c = '\t' then ['\\', 't']
  else if c = '\r' then ['\\', 'r']
  else if c = '\n' then ['\\', 'n']
  else if c = '\x22' || c = '\\' then ['\\', c]
  else if isPrintable c then [c]
  else codePoint c

/-- A text between double quotes, as a listing shows it. -/
def listed (s : String) : String :=
  String.ofList (['\x22'] ++ s.toList.flatMap listedChar ++ ['\x22'])

end CMakeManual.Text
