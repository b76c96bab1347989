/-
**Settings documents**: lines that give a value to a key, in sections.

A document has one entry a line: a key, an equals sign and a value that is a string, a truth value
or a number. A line in brackets opens a section, and the entries after it belong to the section. A
key is a bare word or a quoted string, or several of these with points between them, which names
an entry of a section. Nothing may be given twice, and what has a value cannot be a section.
-/
import ConstNarrow.Binary64.Text

set_option autoImplicit false

namespace ConstNarrow.Document

open ConstNarrow.Text

/-- What a key may be given. -/
inductive Value where
  | boolean (b : Bool)
  | integer (i : Int)
  /-- some number that is not an integer -/
  | float
  | string (s : String)
deriving DecidableEq, Repr

/-- The words that lead to an entry or a section. -/
abbrev Path := List String

/-- A line of a document. -/
inductive Line where
  | blank
  | heading (path : Path)
  | entry (path : Path) (value : Value)
deriving DecidableEq, Repr

/-! ## Pieces of a line -/

/-- A blank within a line. -/
def isBlank (c : Char) : Bool := c == ' ' || c == '\t'

/-- Drops blanks in front. -/
def skipBlanks (cs : List Char) : List Char := cs.dropWhile isBlank

/-- A character that may stand in a comment or in quotes. -/
def isText (c : Char) : Bool := c == '\t' || (32 ≤ c.toNat && c.toNat != 127)

/-- Whether nothing but blanks and a comment is left of a line. -/
def isRest (cs : List Char) : Bool :=
  match skipBlanks cs with
  | [] => true
  | '#' :: comment => comment.all isText
  | _ => false

/-- A character of a bare key. -/
def isBare (c : Char) : Bool :=
  ('a' ≤ c ∧ c ≤ 'z') || ('A' ≤ c ∧ c ≤ 'Z') || ('0' ≤ c ∧ c ≤ '9') || c == '_' || c == '-'

/-- The character of a code point written in hexadecimal digits. -/
def codePoint? (digits : List Char) : Option Char :=
  (natural? 16 digits).bind fun n => if h : n.isValidChar then some (Char.ofNatAux n h) else none

/-- The characters up to the closing double quote, escapes resolved, and what follows. The first
argument bounds the number of characters. -/
def doubleQuoted? : Nat → List Char → Option (List Char × List Char)
  | 0, _ => none
  | n + 1, cs =>
    let continue? (c : Char) (rest : List Char) :=
      (doubleQuoted? n rest).map fun (text, after) => (c :: text, after)
    match cs with
    | [] => none
    | '"' :: rest => some ([], rest)
    | '\\' :: 'b' :: rest => continue? '\x08' rest
    | '\\' :: 't' :: rest => continue? '\t' rest
    | '\\' :: 'n' :: rest => continue? '\n' rest
    | '\\' :: 'f' :: rest => continue? '\x0c' rest
    | '\\' :: 'r' :: rest => continue? '\r' rest
    | '\\' :: '"' :: rest => continue? '"' rest
    | '\\' :: '\\' :: rest => continue? '\\' rest
    | '\\' :: 'u' :: rest =>
      if rest.length < 4 then none else (codePoint? (rest.take 4)).bind fun c => continue? c (rest.drop 4)
    | '\\' :: 'U' :: rest =>
      if rest.length < 8 then none else (codePoint? (rest.take 8)).bind fun c => continue? c (rest.drop 8)
    | '\\' :: _ => none
    | c :: rest => if isText c then continue? c rest else none

/-- The characters up to the closing single quote, taken as they are, and what follows. -/
def singleQuoted? (cs : List Char) : Option (List Char × List Char) :=
  (splitFirst? (· == '\x27') cs).filter fun (text, _) => text.all isText

/-- A quoted string and what follows it. -/
def quoted? : List Char → Option (String × List Char)
  | '"' :: cs => (doubleQuoted? (cs.length + 1) cs).map fun (text, after) => (String.ofList text, after)
  | '\x27' :: cs => (singleQuoted? cs).map fun (text, after) => (String.ofList text, after)
  | _ => none

/-- One word of a key and what follows it. -/
def word? (cs : List Char) : Option (String × List Char) :=
  (quoted? cs).or <|
    let bare := cs.takeWhile isBare
    if bare.isEmpty then none else some (String.ofList bare, cs.dropWhile isBare)

/-- A key, with the blanks around its words dropped, and what follows it. The first argument bounds
the number of words. -/
def path? : Nat → List Char → Option (Path × List Char)
  | 0, _ => none
  | n + 1, cs =>
    (word? (skipBlanks cs)).bind fun (word, after) =>
    match skipBlanks after with
    | '.' :: rest => (path? n rest).map fun (path, after) => (word :: path, after)
    | rest => some ([word], rest)

/-! ## Values -/

/-- Digits of a base among which single underscores may stand, each between two digits. -/
def groupedDigits? (base : Nat) (cs : List Char) : Option Nat :=
  let groups := cs.splitOn '_'
  if groups.all (!·.isEmpty) then natural? base groups.flatten else none

/-- Decimal digits without a needless zero in front. -/
def decimalDigits? (cs : List Char) : Option Nat :=
  match cs with
  | '0' :: _ :: _ => none
  | cs => groupedDigits? 10 cs

/-- The text after a sign, and whether it was a minus. -/
def unsigned : List Char → Bool × List Char
  | '-' :: cs => (true, cs)
  | '+' :: cs => (false, cs)
  | cs => (false, cs)

/-- An integer of 64 bits: decimal with a sign, or in another base without one. -/
def integer? (cs : List Char) : Option Int :=
  let value? : Option Int :=
    match cs with
    | '0' :: 'x' :: digits => (groupedDigits? 16 digits).map fun n => (n : Int)
    | '0' :: 'o' :: digits => (groupedDigits? 8 digits).map fun n => (n : Int)
    | '0' :: 'b' :: digits => (groupedDigits? 2 digits).map fun n => (n : Int)
    | cs =>
      let (isNegative, digits) := unsigned cs
      (decimalDigits? digits).map fun n => if isNegative then -(n : Int) else n
  value?.filter fun i => -Int.pow 2 63 ≤ i ∧ i < Int.pow 2 63

/-- Whether a number, underscores dropped, is too large for a binary number. -/
def isTooLarge (cs : List Char) : Bool :=
  (Binary64.read? (String.ofList (cs.filter (· != '_')))).any (· == 1.0 / 0.0)

/-- Whether a text is a number with a fraction or an exponent, or the name of one. A number in
digits must not be too large; one that is too far below zero counts as the least of all. -/
def isFloat (cs : List Char) : Bool :=
  let (_, body) := unsigned cs
  let (mantissa, exponent?) :=
    match splitFirst? isExponentMark body with
    | some (mantissa, exponent) => (mantissa, some exponent)
    | none => (body, none)
  let exponentFits := exponent?.all fun e => (groupedDigits? 10 (unsigned e).2).isSome
  let mantissaFits :=
    match splitFirst? (· == '.') mantissa with
    | some (whole, after) => (decimalDigits? whole).isSome && (groupedDigits? 10 after).isSome
    | none => exponent?.isSome && (decimalDigits? mantissa).isSome
  body == "inf".toList || body == "nan".toList || (exponentFits && mantissaFits && !isTooLarge cs)

/-- The value of a text without quotes. -/
def bare? (cs : List Char) : Option Value :=
  if cs == "true".toList then some (.boolean true)
  else if cs == "false".toList then some (.boolean false)
  else ((integer? cs).map .integer).or (if isFloat cs then some .float else none)

/-- A value and what follows it. -/
def value? (cs : List Char) : Option (Value × List Char) :=
  match quoted? cs with
  | some (text, after) => some (.string text, after)
  | none =>
    -- what is not quoted ends at a blank or at a comment
    let ends (c : Char) := isBlank c || c == '#'
    (bare? (cs.takeWhile (!ends ·))).map fun value => (value, cs.dropWhile (!ends ·))

/-! ## Lines and documents -/

/-- Reads one line. -/
def line? (cs : List Char) : Option Line :=
  match skipBlanks cs with
  | [] => some .blank
  | '#' :: comment => if comment.all isText then some .blank else none
  | '[' :: rest =>
    (path? (rest.length + 1) rest).bind fun (path, after) =>
    match after with
    | ']' :: after => if isRest after then some (.heading path) else none
    | _ => none
  | cs =>
    (path? (cs.length + 1) cs).bind fun (path, after) =>
    match after with
    | '=' :: after =>
      (value? (skipBlanks after)).bind fun (value, after) =>
      if isRest after then some (.entry path value) else none
    | _ => none

end Document

/-- A document: its sections, and its entries with the words of their section in front. -/
structure Document where
  sections : List Document.Path
  entries : List (Document.Path × Document.Value)
deriving DecidableEq, Repr

namespace Document

/-- The document without lines. -/
def empty : Document := ⟨[], []⟩

/-- Adds a section, unless it is there already or one of the words before it has a value. -/
def addSection? (d : Document) (path : Path) : Option Document :=
  if d.sections.contains path || d.entries.any (fun (p, _) => p.isPrefixOf path) then none
  else some { d with sections := d.sections ++ [path] }

/-- Adds an entry, unless it has a value already, or is a section, or is within a value. -/
def addEntry? (d : Document) (path : Path) (value : Value) : Option Document :=
  if d.sections.any path.isPrefixOf
      || d.entries.any (fun (p, _) => p.isPrefixOf path || path.isPrefixOf p) then none
  else some { d with entries := d.entries ++ [(path, value)] }

/-- Adds lines to a document from within a section. -/
def addLines? (d : Document) (inside : Path) : List (List Char) → Option Document
  | [] => some d
  | cs :: rest =>
    (line? cs).bind fun
      | .blank => d.addLines? inside rest
      | .heading path => (d.addSection? path).bind fun d => d.addLines? path rest
      | .entry path value => (d.addEntry? (inside ++ path) value).bind fun d => d.addLines? inside rest

/-- A line without the carriage return at its end. -/
def withoutReturn (cs : List Char) : List Char :=
  if cs.getLast? == some '\r' then cs.dropLast else cs

/-- Reads a document. -/
def read? (text : String) : Option Document :=
  let lines := text.toList.splitOn '\n'
  empty.addLines? [] (lines.dropLast.map withoutReturn ++ lines.getLast?.toList)

/-- What stands under a word outside of all sections. -/
inductive Entry where
  | absent
  | heading
  | value (value : Value)
deriving DecidableEq, Repr

/-- Looks a word up outside of all sections. -/
def find (d : Document) (word : String) : Entry :=
  match d.entries.lookup [word] with
  | some value => .value value
  | none =>
    if d.sections.any (fun p => [word].isPrefixOf p) || d.entries.any (fun (p, _) => [word].isPrefixOf p)
    then .heading else .absent

end Document

end ConstNarrow
