import ReliableBT.Bencode.Value

/-!
# The decoder (`bencode/decode.go`): tokens and `interface{}` values

The state of a `Decoder` is what is left of the input, the number of bytes used (`Offset`), and the
scratch buffer `buf`, which is kept between calls. Some paths of the code clear the buffer before
they use it, the others expect it to be empty.

A function of the code that panics returns `.error`. An error that is returned to the caller is
part of the result, since the decoder goes on after it in some places (`parseStringLength` here,
`parseValue` in the module on typed targets).

`parseValueInterface`, `parseDictInterface` and `parseListInterface` build the value for an
`interface{}`; `readOneValue` copies the text of one value into the buffer, for an `Unmarshaler`.
The recursion takes fuel, of which `2 * n + 1` is enough for `n` bytes of input.
-/

namespace ReliableBT.Bencode

open Decimal

/-- `DefaultDecodeMaxStrLen` -/
def defaultDecodeMaxStrLen : ℤ := 2 ^ 27 - 1

/-- `Decoder` -/
structure Decoder where
  /-- `r`: what it has not returned yet -/
  rest : Str
  offset : ℕ
  buf : Str
  maxStrLen : Int64
  deriving DecidableEq

/-- The limit that a value of `MaxStrLen` stands for. -/
def strLimit (maxStrLen : Int64) : ℤ :=
  if maxStrLen = 0 then defaultDecodeMaxStrLen else maxStrLen.toInt

/-- `SyntaxError.What` -/
inductive What
  /-- `io.ErrUnexpectedEOF` -/
  | unexpectedEOF
  /-- `unexpected I/O error: unexpected EOF` -/
  | ioError
  /-- a `*strconv.NumError` -/
  | number (e : NumError)
  /-- `unexpected 'e'` -/
  | unexpectedEnd
  /-- `failed to parse integer` -/
  | failedInteger
  /-- `non-string key in a dict` -/
  | nonStringKey
  /-- `dict keys unsorted: %q <= %q` -/
  | keysUnsorted (key lastKey : Str)
  /-- `dict elem missing value [key=%v]` -/
  | elemMissing (key : Str)
  /-- `unknown value type %+q` -/
  | unknownValueType (b : UInt8)
  deriving DecidableEq

/-- `UnmarshalTypeError.BencodeTypeName` -/
inductive TypeName
  | int
  | string
  | list
  deriving DecidableEq

/-- The errors of the package, returned or thrown. -/
inductive Err
  /-- `io.EOF` -/
  | eof
  /-- `io.ErrUnexpectedEOF` -/
  | unexpectedEOF
  /-- `*SyntaxError` -/
  | syntaxError (offset : ℕ) (what : What)
  /-- `invalid leading digit` -/
  | invalidLeadingDigit
  /-- `parsed string length %v exceeds limit (%v)` -/
  | exceedsLimit (length : ℤ)
  /-- `read %v bytes expected %v` -/
  | shortRead (got : ℕ) (expected : ℤ)
  /-- `*UnmarshalTypeError` -/
  | unmarshalType (name : TypeName)
  /-- `*UnmarshalerError` -/
  | unmarshaler
  /-- `*reflect.ValueError` -/
  | reflectValue
  /-- a panic of `reflect` that is no `error`: the field is not exported -/
  | unexportedField
  /-- a `runtime.Error` -/
  | runtimeError
  /-- `error parsing dict key: %w` -/
  | dictKey (err : Err)
  /-- `parsing bencode dict into %v: can't assign bencode dict items into a %v` -/
  | dictInto
  /-- `parsing value for key %q: %w` -/
  | keyValue (key : Str) (err : Err)
  /-- `error parsing value for key %q` -/
  | noValue (key : Str)
  /-- `missing value for key %q` -/
  | missingValue (key : Str)
  /-- `ErrUnusedTrailingBytes` -/
  | unusedTrailingBytes (n : ℕ)
  | outOfFuel
  deriving DecidableEq

/-- The panics that `Decode` does not turn into an error. -/
def Err.panics : Err → Bool
  | .unexportedField | .runtimeError => true
  | _ => false

/-- `errors.As(err, &target)` for a `*UnmarshalTypeError` -/
def Err.isUnmarshalType : Err → Bool
  | .unmarshalType _ => true
  | .dictKey err => err.isUnmarshalType
  | .keyValue _ err => err.isUnmarshalType
  | _ => false

namespace Decoder

variable (d : Decoder)

/-- `getMaxStrLen` -/
def getMaxStrLen : ℤ := strLimit d.maxStrLen

/-- `readByte` -/
def readByte : Except Err (UInt8 × Decoder) :=
  match d.rest with
  | [] => .error (.syntaxError d.offset .unexpectedEOF)
  | b :: rest => .ok (b, { d with rest := rest, offset := d.offset + 1 })

/-- The loop of `readUntil`, over what is left of the input. -/
def readUntilLoop (sep : UInt8) : Str → Decoder → Except Err Decoder
  | [], d => .error (.syntaxError d.offset .unexpectedEOF)
  | b :: rest, d =>
    if b = sep then .ok { d with rest := rest, offset := d.offset + 1 }
    else readUntilLoop sep rest
      { d with rest := rest, offset := d.offset + 1, buf := d.buf ++ [b] }

/-- `readUntil` -/
def readUntil (sep : UInt8) (d : Decoder) : Except Err Decoder := readUntilLoop sep d.rest d

/-- `checkBufferedInt`, at the bytes of the buffer: is the error nil? -/
def checkBufferedInt (b : Str) : Bool :=
  if b.length ≤ 1 then true
  else
    match (if b.head? = some 45 then b.tail else b) with
    | [] => true
    | c :: _ => decide (49 ≤ c.toNat ∧ c.toNat ≤ 57)

/-- `readInt` -/
def readInt : Except Err (Option Err × Decoder) := do
  let d ← d.readUntil 101
  return (if checkBufferedInt d.buf then none else some .invalidLeadingDigit, d)

/-- `parseStringLength` -/
def parseStringLength : Except Err (Except Err ℤ × Decoder) := do
  let start := d.offset - 1
  let d ← d.readUntil 58
  if checkBufferedInt d.buf then
    match parseInt d.buf with
    | .error e => .error (.syntaxError start (.number e))
    | .ok length =>
      if d.getMaxStrLen < length then
        return (.error (.exceedsLimit length), { d with buf := [] })
      else
        return (.ok length, { d with buf := [] })
  else
    return (.error .invalidLeadingDigit, d)

/-! ## Values of an `interface{}` -/

/-- `parseIntInterface` -/
def parseIntInterface : Except Err (Number × Decoder) := do
  let start := d.offset - 1
  let (err, d) ← d.readInt
  match err with
  | some e => .error e
  | none =>
    match parseInt d.buf with
    | .ok n => return (.ofInt n, { d with buf := [] })
    | .error .range =>
      match bigSetString d.buf with
      | none => .error (.syntaxError start .failedInteger)
      | some i => return (.ofInt i, { d with buf := [] })
    | .error e => .error (.syntaxError start (.number e))

/-- `readBytes` and the `Offset += len(b)` that follows it -/
def readBytes (length : ℤ) (d : Decoder) : Except Err (Str × Decoder) :=
  if 0 ≤ length ∧ length ≤ d.rest.length then
    .ok (d.rest.take length.toNat,
      { d with rest := d.rest.drop length.toNat, offset := d.offset + length.toNat })
  else .error (.shortRead (min length.toNat d.rest.length) length)

/-- `parseStringInterface` -/
def parseStringInterface : Except Err (Str × Decoder) := do
  let (length, d) ← d.parseStringLength
  match length with
  | .error e => .error e
  | .ok length => d.readBytes length

mutual

/-- `parseValueInterface`: no value is the end symbol. -/
def parseValueInterface : ℕ → Decoder → Except Err (Option Value × Decoder)
  | 0, _ => .error .outOfFuel
  | fuel + 1, d =>
    match d.rest with
    | [] => .error .eof
    | b :: rest =>
      let d := { d with rest := rest, offset := d.offset + 1 }
      if b = 101 then .ok (none, d)
      else if b = 100 then
        match parseDictInterface fuel [] none d with
        | .error e => .error e
        | .ok (es, d) => .ok (some (.dict es), d)
      else if b = 108 then
        match parseListInterface fuel [] d with
        | .error e => .error e
        | .ok (xs, d) => .ok (some (.list xs), d)
      else if b = 105 then
        match d.parseIntInterface with
        | .error e => .error e
        | .ok (n, d) => .ok (some (.int n), d)
      else if isDigit b then
        match { d with buf := d.buf ++ [b] }.parseStringInterface with
        | .error e => .error e
        | .ok (s, d) => .ok (some (.str s), d)
      else .error (.syntaxError (d.offset - 1) (.unknownValueType b))

/-- The loop of `parseDictInterface`, with `dict` and `lastKey`. -/
def parseDictInterface :
    ℕ → List (Str × Value) → Option Str → Decoder → Except Err (List (Str × Value) × Decoder)
  | 0, _, _, _ => .error .outOfFuel
  | fuel + 1, dict, lastKey, d =>
    match parseValueInterface fuel d with
    | .error e => .error e
    | .ok (none, d') => .ok (dict, d')
    | .ok (some (.str key), d') =>
      if lastKey.any (fun last => decide (ord key ≤ ord last)) then
        .error (.syntaxError d.offset (.keysUnsorted key (lastKey.getD [])))
      else
        match parseValueInterface fuel d' with
        | .error e => .error e
        | .ok (none, _) => .error (.syntaxError d'.offset (.elemMissing key))
        | .ok (some value, d'') =>
          parseDictInterface fuel (setKey key value dict) (some key) d''
    | .ok (some _, d') => .error (.syntaxError d'.offset .nonStringKey)

/-- The loop of `parseListInterface`, with `list`. -/
def parseListInterface : ℕ → List Value → Decoder → Except Err (List Value × Decoder)
  | 0, _, _ => .error .outOfFuel
  | fuel + 1, list, d =>
    match parseValueInterface fuel d with
    | .error e => .error e
    | .ok (none, d) => .ok (list, d)
    | .ok (some value, d) => parseListInterface fuel (list ++ [value]) d

end

/-! ## The text of a value -/

/-- `io.CopyN(&d.buf, d.r, length)` and what follows it -/
def copyN (length : ℕ) (d : Decoder) : Except Err Decoder :=
  if length ≤ d.rest.length then
    .ok { d with rest := d.rest.drop length, offset := d.offset + length,
                 buf := d.buf ++ d.rest.take length }
  else .error (.syntaxError (d.offset + d.rest.length) .unexpectedEOF)

/-- The string case of `readOneValue`, after its first digit went into the buffer. -/
def readOneString : Except Err Decoder := do
  let start := d.buf.length - 1
  let d ← d.readUntil 58
  match parseInt (d.buf.drop start) with
  | .error e => .error (.syntaxError (d.offset - 1) (.number e))
  | .ok length => copyN length.toNat { d with buf := d.buf ++ [58] }

mutual

/-- `readOneValue`: was there a value? -/
def readOneValue : ℕ → Decoder → Except Err (Bool × Decoder)
  | 0, _ => .error .outOfFuel
  | fuel + 1, d =>
    match d.rest with
    | [] => .error .eof
    | b :: rest =>
      if b = 101 then .ok (false, d)
      else
        let d := { d with rest := rest, offset := d.offset + 1, buf := d.buf ++ [b] }
        if b = 100 ∨ b = 108 then
          match readValues fuel d with
          | .error e => .error e
          | .ok d =>
            match d.readByte with
            | .error e => .error e
            | .ok (b, d) => .ok (true, { d with buf := d.buf ++ [b] })
        else if b = 105 then
          match d.readUntil 101 with
          | .error e => .error e
          | .ok d => .ok (true, { d with buf := d.buf ++ [101] })
        else if isDigit b then
          match d.readOneString with
          | .error e => .error e
          | .ok d => .ok (true, d)
        else .error (.syntaxError (d.offset - 1) (.unknownValueType b))

/-- `for d.readOneValue() {}` -/
def readValues : ℕ → Decoder → Except Err Decoder
  | 0, _ => .error .outOfFuel
  | fuel + 1, d =>
    match readOneValue fuel d with
    | .error e => .error e
    | .ok (true, d) => readValues fuel d
    | .ok (false, d) => .ok d

end

end Decoder

end ReliableBT.Bencode
