import ExactAlgebra.Text.Printable

namespace ExactAlgebra.Text

-- The last hexadecimal digits of a number, as many as asked for.
def hexDigits (n : Nat) : Nat → List Char
  | 0     => []
  | k + 1 => hexDigits (n / 16) k ++ [Nat.digitChar (n % 16)]

-- A character by its number, in two, four or eight digits.
def numbered (c : Char) : List Char :=
  let n := c.toNat
  if n < 0x100 then '\\' :: 'x' :: hexDigits n 2
  else if n < 0x10000 then '\\' :: 'u' :: hexDigits n 4
  else '\\' :: 'U' :: hexDigits n 8

-- Line ends and tabs have names, and everything else that does not show has its number.
def escaped (quote : Char) : Char → List Char
  | '\n' => ['\\', 'n']
  | '\r' => ['\\', 'r']
  | '\t' => ['\\', 't']
  | c    =>
    if c = '\\' ∨ c = quote then ['\\', c]
    else if isPrintable c then [c]
    else numbered c

-- Single quotes, unless the text holds some of them and no double ones.
def quoteFor (cs : List Char) : Char :=
  if '\'' ∈ cs ∧ '"' ∉ cs then '"' else '\''

-- A text as it is shown in a message: on one line, between quotes.
def quoted (s : String) : String :=
  let q := quoteFor s.toList
  String.ofList (q :: s.toList.flatMap (escaped q) ++ [q])

end ExactAlgebra.Text
