import Equate.Node.Basic
import Equate.Node.Numeral
/-!
# Reading trees

A recursive descent over the bytes of a text. A cursor is what is left of the text together with
the position of its first byte, so every span and every error position is the position of some
byte offset. Each step down takes one unit of fuel; twice the length of the text is always enough,
because a form takes at least one byte.
-/

namespace Equate

namespace Position

def start : Position := ⟨1, 1⟩

/-- The position behind a byte. -/
def after (p : Position) (b : UInt8) : Position :=
  if b = Ascii.newline then ⟨p.line + 1, 1⟩ else ⟨p.line, p.column + 1⟩

/-- The position behind a run of bytes. -/
def afterAll (p : Position) (s : Bytes) : Position := s.foldl after p

end Position

/-! ## Errors -/

/-- What keeps a text from being read. -/
inductive ReadFault where
  | endOfInput
  | trailingBytes
  | unexpectedByte (b : UInt8)
  | unterminatedCollection
  | oddMap
  | unterminatedString
  | invalidNumber (text : Bytes)
  | emptyKeyword
  | unknownDispatch
  deriving DecidableEq, Repr

/-- A fault and the place it is reported at. -/
structure ReadError where
  fault : ReadFault
  position : Position
  deriving DecidableEq, Repr

namespace ReadFault

def message : ReadFault → Bytes
  | .endOfInput => "unexpected end of input"
  | .trailingBytes => "unexpected trailing characters"
  | .unexpectedByte b => utf8 "unexpected character '" ++ [b] ++ utf8 "'"
  | .unterminatedCollection => "unterminated collection"
  | .oddMap => "map requires even number of forms"
  | .unterminatedString => "unterminated string"
  | .invalidNumber text => utf8 "invalid number '" ++ text ++ utf8 "'"
  | .emptyKeyword => "empty symbol"
  | .unknownDispatch => "only #\x7b \x7d sets are supported after '#'"

end ReadFault

/-- The message with its position; it ends early at a NUL byte. -/
def ReadError.message (e : ReadError) : Bytes :=
  (e.fault.message ++ utf8 " (line " ++ Bytes.ofNat e.position.line ++ utf8 ":" ++
    Bytes.ofNat e.position.column ++ utf8 ")").untilNul

/-! ## Lexemes -/

/-- Blanks between forms; a comma is one of them. -/
def isBlank (b : UInt8) : Bool :=
  b == Ascii.space || b == Ascii.tab || b == Ascii.carriageReturn || b == Ascii.newline ||
    b == Ascii.comma || b == Ascii.formFeed || b == Ascii.verticalTab

def startsSymbol (b : UInt8) : Bool :=
  Ascii.isLetter b || (utf8 "*!_?-+/<>=$%&").contains b

def continuesSymbol (b : UInt8) : Bool :=
  startsSymbol b || Ascii.isDigit b || b == Ascii.dot || b == Ascii.hash || b == Ascii.colon

/-- How many bytes of blanks and comments come first. The flag tells whether a comment, which runs
through the end of its line, is already open. -/
def separatorLength : Bool → Bytes → Nat
  | _, [] => 0
  | true, b :: bs => 1 + separatorLength (b != Ascii.newline) bs
  | false, b :: bs =>
    if b = Ascii.semicolon then 1 + separatorLength true bs
    else if isBlank b then 1 + separatorLength false bs
    else 0

/-- What a backslash and a byte stand for. -/
def unescape (b : UInt8) : UInt8 :=
  if b = 0x6e then Ascii.newline
  else if b = 0x72 then Ascii.carriageReturn
  else if b = 0x74 then Ascii.tab
  else b

/-- The contents of a string whose opening quote has been read, and how many bytes it takes with
its closing quote. -/
def stringBody : Bytes → Option (Bytes × Nat)
  | [] => none
  | b :: bs =>
    if b = Ascii.quote then some ([], 1)
    else if b = Ascii.backslash then
      match bs with
      | [] => none
      | e :: es => (stringBody es).map fun (text, n) => (unescape e :: text, n + 2)
    else (stringBody bs).map fun (text, n) => (b :: text, n + 1)

/-! ## Collections -/

/-- The kinds of brackets. -/
inductive Bracket where
  | list
  | vector
  | set
  | map
  deriving DecidableEq, Repr

namespace Bracket

def opening : Bracket → Bytes
  | .list => [Ascii.leftParen]
  | .vector => [Ascii.leftBracket]
  | .set => [Ascii.hash, Ascii.leftBrace]
  | .map => [Ascii.leftBrace]

def closing : Bracket → UInt8
  | .list => Ascii.rightParen
  | .vector => Ascii.rightBracket
  | .set | .map => Ascii.rightBrace

end Bracket

/-- Groups forms into key and value; nothing if one is left over. -/
def pairUp : List Node → Option (List (Node × Node))
  | [] => some []
  | [_] => none
  | k :: v :: rest => (pairUp rest).map ((k, v) :: ·)

/-- The collection of a bracket's items; a map needs an even number of them. -/
def Bracket.node? (bracket : Bracket) (mark : Mark) (items : List Node) : Option Node :=
  match bracket with
  | .list => some (.list mark items)
  | .vector => some (.vector mark items)
  | .set => some (.set mark items)
  | .map => (pairUp items).map (.map mark)

/-! ## Cursors -/

/-- What is left of a text, and the position of its first byte. -/
structure Cursor where
  rest : Bytes
  position : Position
  deriving DecidableEq, Repr

namespace Cursor

def start (text : Bytes) : Cursor := ⟨text, .start⟩

/-- Moves over `n` bytes, or to the end of the text. -/
def skip (c : Cursor) (n : Nat) : Cursor :=
  ⟨c.rest.drop n, c.position.afterAll (c.rest.take n)⟩

/-- Moves to the next form, closing bracket or unreadable byte. -/
def skipSeparators (c : Cursor) : Cursor := c.skip (separatorLength false c.rest)

/-- The mark of a form of `n` bytes that starts here. -/
def mark (origin : Nat) (c : Cursor) (n : Nat) : Mark :=
  ⟨origin, some ⟨c.position, c.position.afterAll (c.rest.take (n - 1))⟩⟩

def error (c : Cursor) (fault : ReadFault) : ReadError := ⟨fault, c.position⟩

end Cursor

/-! ## Forms -/

/-- Reads a string at its opening quote. -/
def readString (origin : Nat) (c : Cursor) : Except ReadError (Node × Cursor) :=
  match stringBody (c.rest.drop 1) with
  | some (text, n) => .ok (.str (c.mark origin (n + 1)) text, c.skip (n + 1))
  | none => .error (c.error .unterminatedString)

/-- Reads a numeral at its first byte. -/
def readNumber (origin : Nat) (c : Cursor) : Except ReadError (Node × Cursor) :=
  let numeral := Numeral.scan c.rest
  let n := numeral.text.length
  let mark := c.mark origin n
  let node? :=
    if numeral.isInteger then numeral.int64?.map (.int mark)
    else numeral.binary64?.map (.float mark)
  match node? with
  | some node => .ok (node, c.skip n)
  | none => .error (c.error (.invalidNumber numeral.text))

/-- The node that a word stands for. -/
def wordNode (mark : Mark) (word : Bytes) : Node :=
  if word = utf8 "nil" then .nil mark
  else if word = utf8 "true" then .bool mark true
  else if word = utf8 "false" then .bool mark false
  else .symbol mark word

/-- Reads a keyword at its colon. -/
def readKeyword (origin : Nat) (c : Cursor) : Except ReadError (Node × Cursor) :=
  let name := (c.rest.drop 1).takeWhile continuesSymbol
  let n := name.length + 1
  if name.isEmpty then .error (c.error .emptyKeyword)
  else .ok (.keyword (c.mark origin n) name, c.skip n)

/-- Reads a symbol, `nil`, `true` or `false` at its first byte. -/
def readWord (origin : Nat) (c : Cursor) : Except ReadError (Node × Cursor) :=
  let word := c.rest.takeWhile continuesSymbol
  .ok (wordNode (c.mark origin word.length) word, c.skip word.length)

/-- The bracket that opens at the front of a text; a hash must be followed by a brace. -/
def bracket? : Bytes → Except ReadFault (Option Bracket)
  | b :: bs =>
    if b = Ascii.leftParen then .ok (some .list)
    else if b = Ascii.leftBracket then .ok (some .vector)
    else if b = Ascii.leftBrace then .ok (some .map)
    else if b = Ascii.hash then
      if bs.head? = some Ascii.leftBrace then .ok (some .set) else .error .unknownDispatch
    else .ok none
  | [] => .ok none

/-- Reads a form that has no parts. -/
def readAtom (origin : Nat) (c : Cursor) : Except ReadError (Node × Cursor) :=
  match c.rest with
  | [] => .error (c.error .endOfInput)
  | b :: _ =>
    if b = Ascii.quote then readString origin c
    else if Numeral.starts c.rest then readNumber origin c
    else if b = Ascii.colon then readKeyword origin c
    else if startsSymbol b then readWord origin c
    else .error (c.error (.unexpectedByte b))

/-- Closes a collection that opened at `c`, given its items and the cursor behind them. -/
def closeCollection (origin : Nat) (c : Cursor) (bracket : Bracket) (items : List Node)
    (behind : Cursor) : Except ReadError (Node × Cursor) :=
  if behind.rest.isEmpty then .error (c.error .unterminatedCollection)
  else
    match bracket.node? ⟨origin, some ⟨c.position, behind.position⟩⟩ items with
    | some node => .ok (node, behind.skip 1)
    | none => .error (c.error .oddMap)

mutual

/-- Reads the next form. -/
def readForm (origin : Nat) : Nat → Cursor → Except ReadError (Node × Cursor)
  | 0, c => .error (c.error .endOfInput)
  | fuel + 1, c =>
    let c := c.skipSeparators
    match bracket? c.rest with
    | .error fault => .error (c.error fault)
    | .ok none => readAtom origin c
    | .ok (some bracket) =>
      match readItems origin fuel bracket.closing (c.skip bracket.opening.length) with
      | .error e => .error e
      | .ok (items, behind) => closeCollection origin c bracket items behind

/-- Reads forms up to a closing byte or the end of the text, and stops in front of it. -/
def readItems (origin : Nat) : Nat → UInt8 → Cursor → Except ReadError (List Node × Cursor)
  | 0, _, c => .error (c.error .endOfInput)
  | fuel + 1, closing, c =>
    let c := c.skipSeparators
    if c.rest.isEmpty || c.rest.head? == some closing then .ok ([], c)
    else
      match readForm origin fuel c with
      | .error e => .error e
      | .ok (item, c) =>
        match readItems origin fuel closing c with
        | .error e => .error e
        | .ok (items, c) => .ok (item :: items, c)

end

/-- Reads a text that holds exactly one form. The nodes carry `origin` in their marks. -/
def Node.read (text : Bytes) (origin : Nat := 0) : Except ReadError Node :=
  match readForm origin (2 * text.length + 2) (.start text) with
  | .error e => .error e
  | .ok (node, c) =>
    let c := c.skipSeparators
    if c.rest.isEmpty then .ok node else .error (c.error .trailingBytes)

end Equate
