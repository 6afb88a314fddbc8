import CallFold.Descriptor

/-!
# Reading descriptors

`Descriptor.parse` reads one field type and nothing after it, `MethodDescriptor.parse` a
parenthesised list of field types and a result. Both work on the list of characters: reading a
field type returns what is left, and `Descriptor.parseFront_length` says that something was
read, which ends the loop over the parameters.
-/

namespace CallFold

/-- Why a text is not a descriptor. -/
inductive DescriptorError where
  | empty
  | trailing (rest descriptor : String)
  | tooManyDimensions
  | unterminatedName (input : String)
  | invalidName (name : String)
  | invalidSymbol (symbol : Char)
  | missingParenthesis (descriptor : String)
  | unterminatedParameters (descriptor : String)
deriving DecidableEq

/-- The wording of each fault. -/
def DescriptorError.message : DescriptorError → String
  | empty => "Empty type descriptor"
  | trailing rest descriptor =>
    s!"Trailing characters '{rest}' in type descriptor '{descriptor}'"
  | tooManyDimensions => s!"Array descriptor exceeds {Descriptor.maxDimensions} dimensions"
  | unterminatedName input => s!"Unterminated class name in '{input}'"
  | invalidName name => s!"Invalid class name '{name}'"
  | invalidSymbol symbol => s!"Invalid field type character '{symbol}'"
  | missingParenthesis descriptor =>
    s!"Method descriptor '{descriptor}' must start with '('"
  | unterminatedParameters descriptor =>
    s!"Unterminated parameter list in '{descriptor}'"

namespace Descriptor

/-- Whether a character opens one more array dimension. -/
def isBracket (c : Char) : Bool := c = '['

/-- Whether a character belongs to a class name, which ends at the first semicolon. -/
def isNameChar (c : Char) : Bool := c ≠ ';'

/--
Reads a field type without its brackets. `input` is the text with the brackets, which the
message about an unterminated name quotes.
-/
def parseElement (input : List Char) : List Char → Except DescriptorError (Descriptor × List Char)
  | [] => .error .empty
  | 'L' :: text =>
    match text.dropWhile isNameChar with
    | [] => .error (.unterminatedName (String.ofList input))
    | _ :: rest =>
      let name := text.takeWhile isNameChar
      if name.isEmpty || name.any bannedInName then
        .error (.invalidName (String.ofList name))
      else
        .ok (object (String.ofList name), rest)
  | c :: rest =>
    match Primitive.ofSymbol? c with
    | some .void => .error (.invalidSymbol c)
    | some type => .ok (primitive type, rest)
    | none => .error (.invalidSymbol c)

/-- Reads one field type from the front of a text and returns what follows it. -/
def parseFront (input : List Char) : Except DescriptorError (Descriptor × List Char) :=
  let dimensions := (input.takeWhile isBracket).length
  if maxDimensions < dimensions then
    .error .tooManyDimensions
  else
    match parseElement input (input.dropWhile isBracket) with
    | .error e => .error e
    | .ok (element, rest) => .ok (nest dimensions element, rest)

/-- Reads a text that is exactly one field type. -/
def parse (descriptor : String) : Except DescriptorError Descriptor :=
  match parseFront descriptor.toList with
  | .error e => .error e
  | .ok (d, []) => .ok d
  | .ok (_, rest) => .error (.trailing (String.ofList rest) descriptor)

/-- An element that was read is not empty. -/
theorem parseElement_length {input text rest : List Char} {d : Descriptor}
    (h : parseElement input text = .ok (d, rest)) : rest.length < text.length := by
  unfold parseElement at h
  split at h
  · simp at h
  · next tail =>
    split at h
    · simp at h
    · next head rest' hdrop =>
      have hle : (tail.dropWhile isNameChar).length ≤ tail.length :=
        (List.dropWhile_suffix _).length_le
      rw [hdrop] at hle
      simp only [List.length_cons] at hle ⊢
      dsimp only at h
      split at h
      · simp at h
      · simp only [Except.ok.injEq, Prod.mk.injEq] at h
        rw [← h.2]; omega
  · split at h <;> simp_all

/-- A field type that was read is not empty. -/
theorem parseFront_length {input rest : List Char} {d : Descriptor}
    (h : parseFront input = .ok (d, rest)) : rest.length < input.length := by
  unfold parseFront at h
  dsimp only at h
  split at h
  · simp at h
  · split at h
    · simp at h
    · next element rest' helem =>
      simp only [Except.ok.injEq, Prod.mk.injEq] at h
      have hlt := parseElement_length helem
      have hle : (input.dropWhile isBracket).length ≤ input.length :=
        (List.dropWhile_suffix _).length_le
      rw [← h.2]; omega

end Descriptor

namespace MethodDescriptor

/--
Reads field types up to the closing parenthesis and returns them with what follows it.
`descriptor` is the whole text, for the message.
-/
def parseParameters (descriptor : String) (text : List Char) :
    Except DescriptorError (List Descriptor × List Char) :=
  match text with
  | [] => .error (.unterminatedParameters descriptor)
  | ')' :: rest => .ok ([], rest)
  | c :: text =>
    match _h : Descriptor.parseFront (c :: text) with
    | .error e => .error e
    | .ok (d, rest) =>
      match parseParameters descriptor rest with
      | .error e => .error e
      | .ok (ds, after) => .ok (d :: ds, after)
termination_by text.length
decreasing_by exact Descriptor.parseFront_length _h

/-- Reads the result: exactly `V` is no result, anything else is a field type. -/
def parseResult (text : List Char) : Except DescriptorError (Option Descriptor) :=
  if text = [Primitive.void.symbol] then .ok none
  else (Descriptor.parse (String.ofList text)).map some

/-- Reads a method descriptor. -/
def parse (descriptor : String) : Except DescriptorError MethodDescriptor :=
  match descriptor.toList with
  | '(' :: text =>
    match parseParameters descriptor text with
    | .error e => .error e
    | .ok (parameters, rest) =>
      match parseResult rest with
      | .error e => .error e
      | .ok result => .ok { parameters, result }
  | _ => .error (.missingParenthesis descriptor)

end MethodDescriptor

end CallFold
