/-!
JSON documents: their values and a reader. The reader checks the whole grammar but keeps only what
a document of this library can use: a number written with digits alone, and the code points of a
string, in which an escaped surrogate stands for itself until the text is asked for.
-/
namespace BinaryStream

inductive Json where
  | null
  | bool (value : Bool)
  /-- A number, with its value when it is written with digits alone. -/
  | number (natural : Option Nat)
  | string (units : List Nat)
  | array (items : List Json)
  | object (members : List (List Nat × Json))
  deriving Inhabited

namespace Json

/-- The text of code points; a surrogate that is not half of a pair has none. -/
def text? : List Nat → Option (List Char)
  | [] => some []
  | [unit] => if 0xD800 ≤ unit ∧ unit < 0xE000 then none else some [Char.ofNat unit]
  | unit :: next :: rest =>
    if 0xD800 ≤ unit ∧ unit < 0xDC00 then
      if 0xDC00 ≤ next ∧ next < 0xE000 then
        (text? rest).map (Char.ofNat (0x10000 + (unit - 0xD800) * 0x400 + (next - 0xDC00)) :: ·)
      else none
    else if 0xDC00 ≤ unit ∧ unit < 0xE000 then none
    else (text? (next :: rest)).map (Char.ofNat unit :: ·)

def isBlank (c : Char) : Bool := c == ' ' || c == '\n' || c == '\t' || c == '\r'

def skipBlank (cs : List Char) : List Char := cs.dropWhile isBlank

def hexValue? (c : Char) : Option Nat :=
  if '0' ≤ c ∧ c ≤ '9' then some (c.toNat - '0'.toNat)
  else if 'a' ≤ c ∧ c ≤ 'f' then some (c.toNat - 'a'.toNat + 10)
  else if 'A' ≤ c ∧ c ≤ 'F' then some (c.toNat - 'A'.toNat + 10)
  else none

def escapeValue? : Char → Option Nat
  | '"' => some 0x22
  | '\\' => some 0x5C
  | '/' => some 0x2F
  | 'b' => some 0x08
  | 'f' => some 0x0C
  | 'n' => some 0x0A
  | 'r' => some 0x0D
  | 't' => some 0x09
  | _ => none

def readString : List Char → Option (List Nat × List Char)
  | [] => none
  | '"' :: rest => some ([], rest)
  | '\\' :: 'u' :: a :: b :: c :: d :: rest => do
    let unit := (((← hexValue? a) * 16 + (← hexValue? b)) * 16 + (← hexValue? c)) * 16 +
      (← hexValue? d)
    let (units, rest) ← readString rest
    some (unit :: units, rest)
  | '\\' :: escape :: rest => do
    let unit ← escapeValue? escape
    let (units, rest) ← readString rest
    some (unit :: units, rest)
  | c :: rest =>
    if c.toNat < 0x20 ∨ c = '\\' then none
    else do
      let (units, rest) ← readString rest
      some (c.toNat :: units, rest)

/-- Splits off the leading digits, of which there has to be one. -/
def readDigits (cs : List Char) : Option (List Char × List Char) :=
  let digits := cs.takeWhile Char.isDigit
  if digits.isEmpty then none else some (digits, cs.dropWhile Char.isDigit)

/-- Passes the fraction of a number, if it has one; tells whether it has. -/
def readFraction : List Char → Option (Bool × List Char)
  | '.' :: rest => (readDigits rest).map fun r => (true, r.2)
  | cs => some (false, cs)

/-- Passes the exponent of a number, if it has one; tells whether it has. -/
def readExponent : List Char → Option (Bool × List Char)
  | e :: rest =>
    if e = 'e' ∨ e = 'E' then
      let unsigned := match rest with
        | '+' :: rest | '-' :: rest => rest
        | rest => rest
      (readDigits unsigned).map fun r => (true, r.2)
    else some (false, e :: rest)
  | [] => some (false, [])

/-- Reads a number without its sign: no digit follows a leading zero. -/
def readMagnitude (cs : List Char) : Option (Option Nat × List Char) := do
  let (digits, rest) ← readDigits cs
  if digits.head? = some '0' ∧ digits ≠ ['0'] then none
  else
    let (hasFraction, rest) ← readFraction rest
    let (hasExponent, rest) ← readExponent rest
    let natural := digits.foldl (fun n c => 10 * n + (c.toNat - '0'.toNat)) 0
    some (if hasFraction || hasExponent then none else some natural, rest)

def readNumber : List Char → Option (Json × List Char)
  | '-' :: rest => (readMagnitude rest).map fun r => (.number none, r.2)
  | cs => (readMagnitude cs).map fun r => (.number r.1, r.2)

mutual

/-- Reads a value; every nested call has less fuel. -/
def readValue : Nat → List Char → Option (Json × List Char)
  | 0, _ => none
  | fuel + 1, cs =>
    match skipBlank cs with
    | 'n' :: 'u' :: 'l' :: 'l' :: rest => some (.null, rest)
    | 't' :: 'r' :: 'u' :: 'e' :: rest => some (.bool true, rest)
    | 'f' :: 'a' :: 'l' :: 's' :: 'e' :: rest => some (.bool false, rest)
    | '"' :: rest => (readString rest).map fun r => (.string r.1, r.2)
    | '[' :: rest =>
      match skipBlank rest with
      | ']' :: rest => some (.array [], rest)
      | rest => (readItems fuel rest).map fun r => (.array r.1, r.2)
    | '{' :: rest =>
      match skipBlank rest with
      | '}' :: rest => some (.object [], rest)
      | rest => (readMembers fuel rest).map fun r => (.object r.1, r.2)
    | rest => readNumber rest

def readItems : Nat → List Char → Option (List Json × List Char)
  | 0, _ => none
  | fuel + 1, cs => do
    let (item, rest) ← readValue fuel cs
    match skipBlank rest with
    | ']' :: rest => some ([item], rest)
    | ',' :: rest =>
      let (items, rest) ← readItems fuel rest
      some (item :: items, rest)
    | _ => none

def readMembers : Nat → List Char → Option (List (List Nat × Json) × List Char)
  | 0, _ => none
  | fuel + 1, cs =>
    match skipBlank cs with
    | '"' :: rest => do
      let (key, rest) ← readString rest
      match skipBlank rest with
      | ':' :: rest =>
        let (value, rest) ← readValue fuel rest
        match skipBlank rest with
        | '}' :: rest => some ([(key, value)], rest)
        | ',' :: rest =>
          let (members, rest) ← readMembers fuel rest
          some ((key, value) :: members, rest)
        | _ => none
      | _ => none
    | _ => none

end

/-- Reads a document: one value with nothing but blanks around it. A value and the list it stands in
each take a step of fuel for at least one character. -/
def ofText? (document : String) : Option Json := do
  let cs := document.toList
  let (value, rest) ← readValue (2 * cs.length + 2) cs
  if (skipBlank rest).isEmpty then some value else none

def name? (units : List Nat) : Option String := (text? units).map String.ofList

def namedMembers? (members : List (List Nat × Json)) : Option (List (String × Json)) :=
  members.mapM fun (key, value) => (name? key).map (·, value)

/-- The value of a name that occurs exactly once. -/
def single? (members : List (String × Json)) (name : String) : Option Json :=
  match members.filter (·.1 == name) with
  | [(_, value)] => some value
  | _ => none

/-- The fields of a record: an object that has each once, among others, or an array of just them. -/
def fields? (names : List String) : Json → Option (List Json)
  | .object members => do
    let members ← namedMembers? members
    names.mapM (single? members)
  | .array items => if items.length = names.length then some items else none
  | _ => none

/-- A number below a limit, written with digits alone. -/
def natural? (limit : Nat) : Json → Option Nat
  | .number (some n) => if n < limit then some n else none
  | _ => none

def items? : Json → Option (List Json)
  | .array items => some items
  | _ => none

def bytes? (json : Json) : Option (List UInt8) := do
  let items ← json.items?
  items.mapM fun item => (item.natural? 256).map UInt8.ofNat

end Json

end BinaryStream
