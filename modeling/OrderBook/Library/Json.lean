/-
**A reader of JSON texts.**

`parse` reads one value of the grammar of RFC 8259, by recursive descent. The arguments called
`fuel` bound the nesting and the number of elements, and the length of the text is enough of it.
-/

import Mathlib.Data.List.Forall2

/-- A value; the number stays as it is spelled. -/
inductive Json
  | null
  | bool (value : Bool)
  | num (lexeme : List Char)
  | str (text : List Char)
  | arr (elements : List Json)
  | obj (members : List (List Char × Json))

namespace Json

/-! ### The reader -/

/-- What is left of a text after white space. -/
def skip (text : List Char) : List Char :=
  text.dropWhile fun c => c = ' ' ∨ c = '\t' ∨ c = '\n' ∨ c = '\r'

def hexDigit (c : Char) : Option Nat :=
  if '0'.toNat ≤ c.toNat ∧ c.toNat ≤ '9'.toNat then some (c.toNat - '0'.toNat)
  else if 'a'.toNat ≤ c.toNat ∧ c.toNat ≤ 'f'.toNat then some (c.toNat - 'a'.toNat + 10)
  else if 'A'.toNat ≤ c.toNat ∧ c.toNat ≤ 'F'.toNat then some (c.toNat - 'A'.toNat + 10)
  else none

/-- Four hexadecimal digits. -/
def codeUnit : List Char → Option (Nat × List Char)
  | a :: b :: c :: d :: rest => do
    let a ← hexDigit a
    let b ← hexDigit b
    let c ← hexDigit c
    let d ← hexDigit d
    return (((a * 16 + b) * 16 + c) * 16 + d, rest)
  | _ => none

/-- A character by its code units: one, or a high and a low surrogate. -/
def unicode (text : List Char) : Option (Char × List Char) := do
  let (high, rest) ← codeUnit text
  if 0xD800 ≤ high ∧ high < 0xDC00 then
    match rest with
    | '\\' :: 'u' :: rest => do
      let (low, rest) ← codeUnit rest
      if 0xDC00 ≤ low ∧ low < 0xE000 then
        return (Char.ofNat (0x10000 + (high - 0xD800) * 0x400 + (low - 0xDC00)), rest)
      else none
    | _ => none
  else if 0xDC00 ≤ high ∧ high < 0xE000 then none
  else return (Char.ofNat high, rest)

/-- What follows a backslash. -/
def escape : List Char → Option (Char × List Char)
  | '"' :: rest => some ('"', rest)
  | '\\' :: rest => some ('\\', rest)
  | '/' :: rest => some ('/', rest)
  | 'b' :: rest => some ('\x08', rest)
  | 'f' :: rest => some ('\x0c', rest)
  | 'n' :: rest => some ('\n', rest)
  | 'r' :: rest => some ('\r', rest)
  | 't' :: rest => some ('\t', rest)
  | 'u' :: rest => unicode rest
  | _ => none

/-- A string after its opening quote. -/
def string : Nat → List Char → Option (List Char × List Char)
  | 0, _ | _, [] => none
  | fuel + 1, c :: rest =>
    if c = '"' then some ([], rest)
    else if c = '\\' then do
      let (c, rest) ← escape rest
      let (text, rest) ← string fuel rest
      return (c :: text, rest)
    else if c.toNat < ' '.toNat then none
    else do
      let (text, rest) ← string fuel rest
      return (c :: text, rest)

/-- One of the characters, if it comes next. -/
def optional (allowed : List Char) : List Char → List Char × List Char
  | [] => ([], [])
  | c :: rest => if c ∈ allowed then ([c], rest) else ([], c :: rest)

/-- Digits, at least one. -/
def digits (text : List Char) : Option (List Char × List Char) :=
  if (text.takeWhile Char.isDigit).isEmpty then none
  else some (text.takeWhile Char.isDigit, text.dropWhile Char.isDigit)

/-- The part before the point has no leading zero. -/
def whole : List Char → Option (List Char × List Char)
  | '0' :: rest => some (['0'], rest)
  | text => digits text

/-- Digits after a mark and perhaps a sign, if the mark comes next. -/
def part (marks signs : List Char) (text : List Char) : Option (List Char × List Char) :=
  let (mark, rest) := optional marks text
  if mark.isEmpty then some ([], rest)
  else do
    let (sign, rest) := optional signs rest
    let (digits, rest) ← digits rest
    return (mark ++ sign ++ digits, rest)

def number (text : List Char) : Option (List Char × List Char) := do
  let (sign, rest) := optional ['-'] text
  let (whole, rest) ← whole rest
  let (fraction, rest) ← part ['.'] [] rest
  let (exponent, rest) ← part ['e', 'E'] ['+', '-'] rest
  return (sign ++ whole ++ fraction ++ exponent, rest)

/-- The rest of a word that stands for a value. -/
def word (letters : List Char) (v : Json) (text : List Char) : Option (Json × List Char) :=
  if letters.isPrefixOf text then some (v, text.drop letters.length) else none

section Items

variable {α : Type}

/-- Items with commas between them, up to and including the closing bracket. -/
def items (item : List Char → Option (α × List Char)) (close : Char) :
    Nat → List Char → Option (List α × List Char)
  | 0, _ => none
  | fuel + 1, text => do
    let (a, rest) ← item text
    match skip rest with
    | [] => none
    | c :: rest =>
      if c = close then return ([a], rest)
      else if c = ',' then do
        let (as, rest) ← items item close fuel rest
        return (a :: as, rest)
      else none

/-- The same for perhaps no items. -/
def list (item : List Char → Option (α × List Char)) (close : Char) (fuel : Nat)
    (text : List Char) : Option (List α × List Char) :=
  match skip text with
  | [] => none
  | c :: rest => if c = close then some ([], rest) else items item close fuel text

end Items

/-- A key, a colon and a value. -/
def member (value : List Char → Option (Json × List Char)) (text : List Char) :
    Option ((List Char × Json) × List Char) :=
  match skip text with
  | '"' :: rest => do
    let (key, rest) ← string rest.length rest
    match skip rest with
    | ':' :: rest => do
      let (v, rest) ← value rest
      return ((key, v), rest)
    | _ => none
  | _ => none

def value : Nat → List Char → Option (Json × List Char)
  | 0, _ => none
  | fuel + 1, text =>
    match skip text with
    | '"' :: rest => (string rest.length rest).map (Prod.map str id)
    | '[' :: rest => (list (value fuel) ']' fuel rest).map (Prod.map arr id)
    | '{' :: rest => (list (member (value fuel)) '}' fuel rest).map (Prod.map obj id)
    | 'n' :: rest => word ['u', 'l', 'l'] null rest
    | 't' :: rest => word ['r', 'u', 'e'] (bool true) rest
    | 'f' :: rest => word ['a', 'l', 's', 'e'] (bool false) rest
    | text => (number text).map (Prod.map num id)

/-- One value and nothing else. -/
def parse (text : List Char) : Option Json := do
  let (v, rest) ← value text.length text
  if (skip rest).isEmpty then return v else none

/-- The value of the first member of this key. -/
def field (key : List Char) : Json → Option Json
  | obj members => members.lookup key
  | _ => none

end Json
