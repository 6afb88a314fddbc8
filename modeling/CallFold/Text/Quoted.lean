import CallFold.Text.ExtendingMark
import CallFold.Text.Unprintable

/-!
# Quoted text

A text literal is printed between double quotes. A quote, a backslash and the four common control
characters have short escapes; a character that prints nothing of its own, or only on the one before
it, is written as its code point in hexadecimal, without leading zeros; every other character stands
for itself.
-/

namespace CallFold.Text

/-- Whether a code point lies in one of the ranges. -/
def inRanges (ranges : List (Nat × Nat)) (code : Nat) : Bool :=
  ranges.any fun (first, last) => first ≤ code && code ≤ last

/-- Whether a character is a mark that extends the grapheme before it. No ASCII character is. -/
def isExtendingMark (c : Char) : Bool :=
  0x80 ≤ c.toNat && inRanges extendingMarkRanges c.toNat

/-- Whether a character has a printed form. In ASCII those are the characters from the blank on. -/
def isPrintable (c : Char) : Bool :=
  if c.toNat < 0x80 then 0x20 ≤ c.toNat && c.toNat ≠ 0x7f
  else !inRanges unprintableRanges c.toNat

/-- A code point in hexadecimal, in lower case and without leading zeros. -/
def hexadecimal (code : Nat) : List Char :=
  Nat.toDigits 16 code

/-- The escape that writes a character by its code point. -/
def codePointEscape (c : Char) : List Char :=
  ['\\', 'u', '\x7b'] ++ hexadecimal c.toNat ++ ['\x7d']

/-- How one character is written between the quotes. -/
def quoteChar (c : Char) : List Char :=
  if c = '\x00' then ['\\', '0']
  else if c = '\t' then ['\\', 't']
  else if c = '\r' then ['\\', 'r']
  else if c = '\n' then ['\\', 'n']
  else if c = '"' then ['\\', '"']
  else if c = '\\' then ['\\', '\\']
  else if isExtendingMark c || !isPrintable c then codePointEscape c
  else [c]

/-- The quoted form of a text. -/
def quote (text : String) : String :=
  String.ofList ('"' :: (text.toList.flatMap quoteChar ++ ['"']))

end CallFold.Text
