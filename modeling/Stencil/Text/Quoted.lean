import Stencil.Text.Word
import Stencil.Text.UnprintableTable

/-!
# Quoted text

The form in which names are shown in diagnostics: between double quotes, with a backslash in
front of quotes and backslashes, and unprintable characters given by their code point.
-/

namespace Stencil.Text

/-- The hexadecimal digits of a number, in lower case. -/
def hex (n : Nat) : Text := Nat.toDigits 16 n

/-- A character as it stands between quotes. -/
def quotedChar (c : Char) : Text :=
  if c = '"' then ['\\', '"']
  else if c = '\\' then ['\\', '\\']
  else if c = '\n' then ['\\', 'n']
  else if c = '\r' then ['\\', 'r']
  else if c = '\t' then ['\\', 't']
  else if c.toNat = 0 then ['\\', '0']
  else if inRanges unprintableRanges c.toNat then
    ['\\', 'u', '\x7b'] ++ hex c.toNat ++ ['\x7d']
  else [c]

/-- A text between double quotes. -/
def quoted (s : Text) : Text := '"' :: s.flatMap quotedChar ++ ['"']

/-- Quoted texts between square brackets, separated by commas. -/
def quotedList (items : List Text) : Text :=
  '[' :: [',', ' '].intercalate (items.map quoted) ++ [']']

end Stencil.Text
