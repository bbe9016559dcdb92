import Mathlib.Data.List.DropRight
import Mathlib.Data.Int.Basic

/-! The methods of Python's `str` that a reader of a log uses, on lists of
characters, and `int` with base 0. -/
namespace IoProcessor.Library.PythonText

abbrev Text := List Char

/-- The ends of lines, of which CR LF is a single one. -/
def lineBreaks : List Nat := [0x0A, 0x0B, 0x0C, 0x0D, 0x1C, 0x1D, 0x1E, 0x85, 0x2028, 0x2029]

def isBreak (c : Char) : Bool := lineBreaks.contains c.toNat

/-- The lines behind a line so far, which may be the one behind a CR. -/
def linesFrom (afterReturn : Bool) (line : Text) : Text → List Text
  | [] => if line = [] then [] else [line]
  | c :: text =>
    if afterReturn && c.toNat = 0x0A then linesFrom false line text
    else if isBreak c then line :: linesFrom (c.toNat = 0x0D) [] text
    else linesFrom false (line ++ [c]) text

def splitlines (text : Text) : List Text := linesFrom false [] text

/-- The pieces behind a piece so far, with characters of a separator to skip. -/
def piecesFrom (sep : Text) (skip : Nat) (piece : Text) : Text → List Text
  | [] => [piece]
  | c :: text =>
    if skip ≠ 0 then piecesFrom sep (skip - 1) piece text
    else if sep <+: c :: text then piece :: piecesFrom sep (sep.length - 1) [] text
    else piecesFrom sep 0 (piece ++ [c]) text

def split (sep text : Text) : List Text := piecesFrom sep 0 [] text

def spaces : List Nat :=
  [0x09, 0x0A, 0x0B, 0x0C, 0x0D, 0x1C, 0x1D, 0x1E, 0x1F, 0x20, 0x85, 0xA0, 0x1680, 0x2000, 0x2001, 0x2002, 0x2003,
    0x2004, 0x2005, 0x2006, 0x2007, 0x2008, 0x2009, 0x200A, 0x2028, 0x2029, 0x202F, 0x205F, 0x3000]

def isSpace (c : Char) : Bool := spaces.contains c.toNat

def strip (text : Text) : Text := (text.dropWhile isSpace).rdropWhile isSpace

/-- The zeros of Unicode's decimal digits, each followed by one to nine. -/
def zeros : List Nat :=
  [0x30, 0x660, 0x6F0, 0x7C0, 0x966, 0x9E6, 0xA66, 0xAE6, 0xB66, 0xBE6, 0xC66, 0xCE6, 0xD66, 0xDE6, 0xE50, 0xED0,
    0xF20, 0x1040, 0x1090, 0x17E0, 0x1810, 0x1946, 0x19D0, 0x1A80, 0x1A90, 0x1B50, 0x1BB0, 0x1C40, 0x1C50, 0xA620,
    0xA8D0, 0xA900, 0xA9D0, 0xA9F0, 0xAA50, 0xABF0, 0xFF10, 0x104A0, 0x10D30, 0x11066, 0x110F0, 0x11136, 0x111D0,
    0x112F0, 0x11450, 0x114D0, 0x11650, 0x116C0, 0x11730, 0x118E0, 0x11950, 0x11C50, 0x11D50, 0x11DA0, 0x11F50,
    0x16A60, 0x16AC0, 0x16B50, 0x1D7CE, 0x1D7D8, 0x1D7E2, 0x1D7EC, 0x1D7F6, 0x1E140, 0x1E2F0, 0x1E4F0, 0x1E950,
    0x1FBF0]

/-- A decimal digit as an ASCII one. -/
def toAscii (c : Char) : Char :=
  match zeros.find? fun z => z ≤ c.toNat ∧ c.toNat < z + 10 with
  | some z => Char.ofNat (0x30 + (c.toNat - z))
  | none => c

def digitValue (base : Nat) (c : Char) : Option Nat :=
  let value :=
    if '0' ≤ c ∧ c ≤ '9' then c.toNat - 48
    else if 'a' ≤ c ∧ c ≤ 'z' then c.toNat - 87
    else if 'A' ≤ c ∧ c ≤ 'Z' then c.toNat - 55
    else 37
  if value < base then some value else none

/-- Digits, between any two of which one underscore may stand. -/
def digits (base : Nat) : Text → Option (List Nat)
  | [] => none
  | [c] => (digitValue base c).map fun d => [d]
  | c :: '_' :: text => (digitValue base c).bind fun d => (digits base text).map (d :: ·)
  | c :: c' :: text => (digitValue base c).bind fun d => (digits base (c' :: text)).map (d :: ·)

/-- The sign, if there is one. -/
def signOf : Text → Bool × Text
  | '-' :: text => (true, text)
  | '+' :: text => (false, text)
  | text => (false, text)

def skipUnderscore : Text → Text
  | '_' :: text => text
  | text => text

/-- The base that the first characters give, and the digits. -/
def baseOf : Text → Nat × Text
  | '0' :: c :: text =>
    if c = 'x' ∨ c = 'X' then (16, skipUnderscore text)
    else if c = 'o' ∨ c = 'O' then (8, skipUnderscore text)
    else if c = 'b' ∨ c = 'B' then (2, skipUnderscore text)
    else (10, '0' :: c :: text)
  | text => (10, text)

/-- The greatest length of a decimal numeral that is converted. -/
def maxStrDigits : Nat := 4300

/-- `int` with base 0, on a text without spaces around it; none for a
`ValueError`. A decimal numeral other than zero has no zero in front. -/
def int0 (text : Text) : Option Int :=
  let (negative, unsigned) := signOf (text.map toAscii)
  let (base, numeral) := baseOf unsigned
  match digits base numeral with
  | none => none
  | some ds =>
    let value := ds.foldl (fun n d => base * n + d) 0
    if base = 10 ∧ (maxStrDigits < ds.length ∨ (ds.head? = some 0 ∧ value ≠ 0)) then none
    else some (if negative then -value else value)

theorem linesFrom_extends {text longer : Text} (h : text <+: longer) (afterReturn : Bool) (line : Text) :
    (linesFrom afterReturn line text).dropLast <+: linesFrom afterReturn line longer := by
  induction text generalizing longer afterReturn line with
  | nil =>
    rw [linesFrom]
    split <;> exact List.nil_prefix
  | cons c text ih =>
    obtain ⟨rest, rfl⟩ := h
    have hrest : text <+: text ++ rest := List.prefix_append text rest
    rw [List.cons_append, linesFrom, linesFrom]
    split
    · exact ih hrest false line
    · split
      · rcases hlines : linesFrom (c.toNat = 0x0D) [] text with _ | ⟨first, lines⟩
        · exact List.nil_prefix
        · rw [List.dropLast_cons_cons, ← hlines]
          exact List.prefix_cons_inj line |>.mpr (ih hrest _ [])
      · exact ih hrest false (line ++ [c])

/-- A longer text keeps all lines but the last one. -/
theorem splitlines_extends {text longer : Text} (h : text <+: longer) :
    (splitlines text).dropLast <+: splitlines longer :=
  linesFrom_extends h false []

end IoProcessor.Library.PythonText
