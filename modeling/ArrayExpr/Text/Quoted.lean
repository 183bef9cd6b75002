/-
Quoted text, the form in which messages show a piece of input.

* `Quoted.mark`: the quote around a text, `'` unless the text holds a `'` and
  no `"`;
* `Quoted.escape`: one character inside the quotes;
* `quoted`: the whole text.
-/
import ArrayExpr.Text.Printable

namespace ArrayExpr

namespace Quoted

/-- The quote to put around a text. -/
def mark (text : List Char) : Char :=
  if text.contains '\'' && !text.contains '"' then '"' else '\''

/-- The last `width` hexadecimal digits of a number, in lower case. -/
def hex (width n : Nat) : List Char :=
  (List.range width).reverse.map fun i => Nat.digitChar (n / Nat.pow 16 i % 16)

/-- A character inside quotes: the quote and the backslash are escaped, so are
characters that cannot be shown, by the shortest form that fits. -/
def escape (quote c : Char) : List Char :=
  if c = quote || c = '\\' then ['\\', c]
  else if c = '\n' then ['\\', 'n']
  else if c = '\r' then ['\\', 'r']
  else if c = '\t' then ['\\', 't']
  else if isPrintable c then [c]
  else if c.toNat < 0x100 then '\\' :: 'x' :: hex 2 c.toNat
  else if c.toNat < 0x10000 then '\\' :: 'u' :: hex 4 c.toNat
  else '\\' :: 'U' :: hex 8 c.toNat

end Quoted

/-- A text in quotes, with what cannot be shown escaped. -/
def quoted (text : String) : String :=
  let chars := text.toList
  let quote := Quoted.mark chars
  String.ofList (quote :: chars.flatMap (Quoted.escape quote) ++ [quote])

end ArrayExpr
