import Recurrence.Text.Invisible

/-!
# Quoted text

Two ways to put a text between quotes. The *key* form is standard JSON: it escapes what must not
stand inside a quoted text and nothing else, so different texts have different forms. The *shown*
form is for people: it also writes each invisible character as its code.
-/

namespace Recurrence.Text

/-- A lower-case hexadecimal digit. -/
def hexDigit (n : Nat) : Char :=
  if n < 10 then Char.ofNat (48 + n) else Char.ofNat (87 + n)

/-- A number in hexadecimal, without leading zeros. -/
def hexChars (n : Nat) : List Char :=
  if n < 16 then [hexDigit n] else hexChars (n / 16) ++ [hexDigit (n % 16)]

/-- A text between quotes, each character as `escape` writes it. -/
def quoted (escape : Char → List Char) (cs : List Char) : List Char :=
  '"' :: (cs.flatMap escape ++ ['"'])

/-- The key form of a character: quote, backslash and the control characters are escaped. -/
def keyEscape (c : Char) : List Char :=
  if c = '"' then ['\\', '"']
  else if c = '\\' then ['\\', '\\']
  else if c = '\x08' then ['\\', 'b']
  else if c = '\t' then ['\\', 't']
  else if c = '\n' then ['\\', 'n']
  else if c = '\x0c' then ['\\', 'f']
  else if c = '\r' then ['\\', 'r']
  else if c.toNat < 32 then
    ['\\', 'u', '0', '0', hexDigit (c.toNat / 16), hexDigit (c.toNat % 16)]
  else [c]

/-- The shown form of a character; the single quote needs no escape. -/
def shownEscape (c : Char) : List Char :=
  if c = '"' then ['\\', '"']
  else if c = '\\' then ['\\', '\\']
  else if c = '\x00' then ['\\', '0']
  else if c = '\t' then ['\\', 't']
  else if c = '\n' then ['\\', 'n']
  else if c = '\r' then ['\\', 'r']
  else if 32 ≤ c.toNat ∧ c.toNat < 127 then [c]
  else if isInvisible c then ['\\', 'u', '\x7b'] ++ hexChars c.toNat ++ ['\x7d']
  else [c]

/-- A text in the form that stands in keys. -/
def quoteKey (cs : List Char) : List Char := quoted keyEscape cs

/-- A text in the form that is shown to people. -/
def quoteShown (cs : List Char) : List Char := quoted shownEscape cs

end Recurrence.Text
