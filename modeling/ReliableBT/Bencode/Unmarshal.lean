import ReliableBT.Bencode.Decoder

/-!
# Decoding into Go types (`bencode/decode.go`, `bencode/tags.go`, `bencode/api.go`)

`parseValue` and the functions it calls store what they read in a variable of a Go type, by
reflection. Go types are given by a function `T : τ → GoType τ` from names to types, so that a type
may refer to itself as Go types may.

* A target is described by its `GoType`, and starts as the zero value of the type.
* `Val` is what a variable holds after the call. `zero` is the zero value of whatever type the
  variable has.
* An `Unmarshaler` is the function `UnmarshalBencode` of the type, or of the pointer to it. It may
  return an error, or panic with a `runtime.Error`.
* The fields of a struct are those `parseStructFields` finds, with the ones of embedded structs. A
  field that is reached through an embedded pointer has the number of the outermost of these
  pointers: `Get` allocates it if it is nil, but then does not follow one that is not.
* `Decode` recovers from the panics that are an `error` but no `runtime.Error`. The others leave it
  as panics; here they are errors too (`Err.panics`).
-/

namespace ReliableBT.Bencode

open Decimal

/-! ## Go types -/

/-- What a variable of a Go type holds. -/
inductive Val
  | zero
  | iface (v : Value)
  | int (n : ℤ)
  | bool (b : Bool)
  | str (s : Str)
  | list (xs : List Val)
  | map (es : List (Str × Val))
  /-- the fields that have been set, by their numbers, the last first -/
  | struct (fs : List (ℕ × Val))
  | ptr (v : Val)
  /-- what an `Unmarshaler` has made of the text of a value -/
  | custom (s : Str)

/-- A field of a struct. -/
structure Field (τ : Type) where
  name : Str
  /-- the `bencode` tag -/
  tagStr : Str
  type : τ
  /-- the field, and the embedded pointers on the way to it, are exported -/
  settable : Bool
  ptr : Option ℕ

/-- `reflect.Kind`, with the types it refers to. -/
inductive Kind (τ : Type)
  | iface
  | int (bits : ℕ)
  | uint (bits : ℕ)
  | bool
  | string
  | slice (elem : τ)
  | array (len : ℕ) (elem : τ)
  /-- a map whose keys are strings -/
  | map (elem : τ)
  | struct (fields : List (Field τ))
  | ptr (elem : τ)
  /-- floats, channels, functions, interfaces with methods -/
  | other

/-- Why an `UnmarshalBencode` has stored nothing: it returned an error, or panicked with a
`runtime.Error`. -/
inductive Refusal
  | error
  | runtime
  deriving DecidableEq

/-- What the decoder makes of it: a `*UnmarshalerError` is thrown, or the panic goes on. -/
def Refusal.err : Refusal → Err
  | .error => .unmarshaler
  | .runtime => .runtimeError

/-- A Go type as the decoder sees it. -/
structure GoType (τ : Type) where
  kind : Kind τ
  /-- `UnmarshalBencode`, which may fail -/
  unmarshaler : Option (Str → Except Refusal Val)

section
variable {τ : Type}

/-- `interface{}` -/
def GoType.iface : GoType τ := ⟨.iface, none⟩

/-- `string`, the type of the keys of a dict -/
def GoType.string : GoType τ := ⟨.string, none⟩

/-- `bencode.Bytes` is an `Unmarshaler` that keeps the text. -/
def GoType.bytes (byte : τ) : GoType τ := ⟨.slice byte, some fun s => .ok (.custom s)⟩

/-! ## Tags -/

/-- `parseTag` -/
def parseTag (tagStr : Str) : List Str := tagStr.splitOn 44

/-- `HasOpt` -/
def hasOpt (tag : List Str) (opt : Str) : Bool := tag.tail.contains opt

/-- `ignore_unmarshal_type_error` -/
def ignoreUnmarshalTypeErrorOpt : Str :=
  [105, 103, 110, 111, 114, 101, 95, 117, 110, 109, 97, 114, 115, 104, 97, 108, 95, 116, 121, 112,
    101, 95, 101, 114, 114, 111, 114]

namespace Field

/-- `IgnoreUnmarshalTypeError` of the field's tag -/
def ignores (f : Field τ) : Bool := hasOpt (parseTag f.tagStr) ignoreUnmarshalTypeErrorOpt

/-- The key of the field: the one in its tag, or its name. -/
def key (f : Field τ) : Str :=
  let k := (parseTag f.tagStr).headD []
  if k = [] then f.name else k

end Field

/-- `getStructFieldForKey`: of several fields with one key the last counts, and a field whose tag
is `-` does not. -/
def getStructFieldForKey (fields : List (Field τ)) (key : Str) : Option (Field τ × ℕ) :=
  fields.zipIdx.reverse.find? fun f => decide (f.1.tagStr ≠ [45] ∧ f.1.key = key)

/-! ## Storing -/

/-- The fields of a struct that have been set. -/
def Val.slots : Val → List (ℕ × Val)
  | .struct fs => fs
  | _ => []

/-- The entries of a map. -/
def Val.entries : Val → List (Str × Val)
  | .map es => es
  | _ => []

/-- The string that a variable of type `string` holds. -/
def Val.text : Val → Str
  | .str s => s
  | _ => []

/-- An array: the items there are, and zero values. -/
def Val.array (len : ℕ) (xs : List Val) : Val :=
  .list (xs.take len ++ List.replicate (len - xs.length) .zero)

/-- The items of a `[]byte`. -/
def byteVals (s : Str) : List Val := s.map fun b => .int b.toNat

/-- Has a field been set that is reached through the embedded pointer `p`? -/
def ptrSet (fields : List (Field τ)) (v : Val) (p : ℕ) : Bool :=
  v.slots.any fun s => decide ((fields[s.1]?).bind Field.ptr = some p)

/-- `Get` of a struct field and the `Set` after it. -/
def setField (fields : List (Field τ)) (f : Field τ) (i : ℕ) (v x : Val) : Except Err Val :=
  if f.ptr.any (ptrSet fields v) then .error .reflectValue
  else if f.settable then .ok (.struct ((i, x) :: v.slots))
  else .error .unexportedField

/-- `dictField` -/
structure DictField (τ : Type) where
  /-- nil if the value is to be discarded -/
  type : Option τ
  get : Val → Val → Except Err Val
  ignores : Bool

/-- `getDictField` -/
def getDictField (g : GoType τ) (key : Str) : Except Err (DictField τ) :=
  match g.kind with
  | .map elem => .ok ⟨some elem, fun v x => .ok (.map (setKey key x v.entries)), false⟩
  | .struct fields =>
    match getStructFieldForKey fields key with
    | some (f, i) => .ok ⟨some f.type, setField fields f i, f.ignores⟩
    | none => .ok ⟨none, fun v _ => .ok v, false⟩
  | _ => .error .dictInto

/-! ## Parsing -/

/-- What `parseValue` returns, and what the variable then holds. -/
structure Parsed where
  ok : Bool
  err : Option Err
  val : Val

/-- The error that `parseDict` does not ignore. -/
def Parsed.uncaught (p : Parsed) (ignores : Bool) : Option Err :=
  p.err.filter fun e => !(e.isUnmarshalType && ignores)

/-- One level of indirection: the type that is stored to, and the variable around it. -/
def GoType.indirect (T : τ → GoType τ) (g : GoType τ) : GoType τ × (Val → Val) :=
  match g.kind with
  | .ptr elem => (T elem, .ptr)
  | _ => (g, id)

/-- `v.Type().Elem().Kind() == reflect.Uint8` -/
def GoType.isByte (g : GoType τ) : Bool :=
  match g.kind with
  | .uint 8 => true
  | _ => false

namespace Decoder

/-- `parseInt`: the error, and the value of the variable -/
def parseInt (g : GoType τ) (d : Decoder) : Except Err ((Option Err × Val) × Decoder) := do
  let start := d.offset - 1
  let (err, d) ← d.readInt
  match err with
  | some e => return ((some e, .zero), d)
  | none =>
    match g.kind with
    | .int bits =>
      match Decimal.parseInt d.buf with
      | .error e => .error (.syntaxError start (.number e))
      | .ok n =>
        if -2 ^ (bits - 1) ≤ n ∧ n < 2 ^ (bits - 1) then
          return ((none, .int n), { d with buf := [] })
        else return ((some (.unmarshalType .int), .zero), d)
    | .uint bits =>
      match parseUint d.buf with
      | .error e => .error (.syntaxError start (.number e))
      | .ok n =>
        if n < 2 ^ bits then return ((none, .int n), { d with buf := [] })
        else return ((some (.unmarshalType .int), .zero), d)
    | .bool => return ((none, .bool (decide (d.buf ≠ [48]))), { d with buf := [] })
    | _ => return ((some (.unmarshalType .int), .zero), d)

/-- `read` of `parseString`: `io.ReadFull` -/
def readFull (length : ℕ) (d : Decoder) : Except Err (Str × Decoder) :=
  if length ≤ d.rest.length then
    .ok (d.rest.take length,
      { d with rest := d.rest.drop length, offset := d.offset + length })
  else if d.rest = [] then .error (.syntaxError d.offset .unexpectedEOF)
  else .error (.syntaxError (d.offset + d.rest.length) .ioError)

variable (T : τ → GoType τ)

/-- What `parseString` makes of the bytes, by the kind of the target. -/
def storeString (g : GoType τ) (s : Str) : Option Err × Val :=
  match g.kind with
  | .string => (none, .str s)
  | .slice elem =>
    if (T elem).isByte then (none, .list (byteVals s)) else (some (.unmarshalType .string), .zero)
  | .array len elem =>
    if (T elem).isByte then (none, .array len (byteVals s))
    else (some (.unmarshalType .string), .zero)
  | _ => (some (.unmarshalType .string), .zero)

/-- `parseString` -/
def parseString (g : GoType τ) (d : Decoder) :
    Except Err ((Option Err × Val) × Decoder) := do
  let (length, d) ← d.parseStringLength
  match length with
  | .error e => return ((some e, .zero), d)
  | .ok length =>
    let (s, d) ← d.readFull length.toNat
    return (storeString T g s, { d with buf := [] })

/-- `parseUnmarshaler`: what the `Unmarshaler` has stored, if it was called -/
def parseUnmarshaler (fuel : ℕ) (g : GoType τ) (d : Decoder) :
    Except Err (Option Val × Decoder) :=
  match g.unmarshaler with
  | none => .ok (none, d)
  | some unmarshalBencode =>
    match readOneValue fuel { d with buf := [] } with
    | .error e => .error e
    | .ok (false, d) => .ok (none, d)
    | .ok (true, d) =>
      match unmarshalBencode d.buf with
      | .error refusal => .error refusal.err
      | .ok v => .ok (some v, d)

/-- What `parseList` makes of the items, by the kind of the target. -/
def storeList (g : GoType τ) (err : Option Err) (xs : List Val) : Option Err × Val :=
  match g.kind with
  | .slice _ => (err, .list xs)
  | .array len _ => (err, .array len xs)
  | _ =>
    match err, xs with
    | some e, _ => (some e, .zero)
    | none, [x] => (none, x)
    | none, _ => (some (.unmarshalType .list), .zero)

/-- The type of the items `parseList` reads, and how many of them have a place. A target that is
neither array nor slice is read as a slice of its own type. -/
def itemType (g : GoType τ) : GoType τ × Option ℕ :=
  match g.kind with
  | .slice elem => (T elem, none)
  | .array len elem => (T elem, some len)
  | _ => (g, none)

mutual

/-- `parseValue` -/
def parseValue (T : τ → GoType τ) : ℕ → GoType τ → Decoder → Except Err (Parsed × Decoder)
  | 0, _, _ => .error .outOfFuel
  | fuel + 1, g, d =>
    let t := (g.indirect T).1
    let put := (g.indirect T).2
    match parseUnmarshaler (fuel + 1) t d with
    | .error e => .error e
    | .ok (some v, d) => .ok (⟨true, none, put v⟩, d)
    | .ok (none, d) =>
      match t.kind, d.rest with
      | .iface, _ =>
        match parseValueInterface (fuel + 1) d with
        | .error e => .error e
        -- `v.Set(reflect.ValueOf(nil))`
        | .ok (none, _) => .error .reflectValue
        | .ok (some v, d) => .ok (⟨true, none, put (.iface v)⟩, d)
      | _, [] => .ok (⟨false, some .eof, put .zero⟩, d)
      | _, b :: rest =>
        let d := { d with rest := rest, offset := d.offset + 1 }
        if b = 101 then .ok (⟨false, none, put .zero⟩, d)
        else if b = 100 then
          match parseDict T fuel t .zero d with
          | .error e => .error e
          | .ok ((err, v), d) => .ok (⟨true, err, put v⟩, d)
        else if b = 108 then
          match parseItems T fuel (itemType T t) [] d with
          | .error e => .error e
          | .ok ((err, xs), d) =>
            .ok (⟨true, (storeList t err xs).1, put (storeList t err xs).2⟩, d)
        else if b = 105 then
          match parseInt t d with
          | .error e => .error e
          | .ok ((err, v), d) => .ok (⟨true, err, put v⟩, d)
        else if isDigit b then
          match parseString T t { d with buf := [b] } with
          | .error e => .error e
          | .ok ((err, v), d) => .ok (⟨true, err, put v⟩, d)
        else .error (.syntaxError (d.offset - 1) (.unknownValueType b))

/-- The loop of `parseDict`, at the value of the variable. -/
def parseDict (T : τ → GoType τ) :
    ℕ → GoType τ → Val → Decoder → Except Err ((Option Err × Val) × Decoder)
  | 0, _, _, _ => .error .outOfFuel
  | fuel + 1, g, v, d =>
    match parseValue T fuel .string d with
    | .error e => .error e
    | .ok (⟨_, some e, _⟩, d) => .ok ((some (.dictKey e), v), d)
    | .ok (⟨false, none, _⟩, d) => .ok ((none, v), d)
    | .ok (⟨true, none, keyValue⟩, d) =>
      match getDictField g keyValue.text with
      | .error e => .ok ((some e, v), d)
      | .ok ⟨none, _, _⟩ =>
        match parseValueInterface (fuel + 1) d with
        | .error e => .error e
        | .ok (none, d) => .ok ((some (.noValue keyValue.text), v), d)
        | .ok (some _, d) => parseDict T fuel g v d
      | .ok ⟨some elem, get, ignores⟩ =>
        match parseValue T fuel (T elem) d with
        | .error e => .error e
        | .ok (p, d) =>
          match p.uncaught ignores with
          | some e => .ok ((some (.keyValue keyValue.text e), v), d)
          | none =>
            if p.ok then
              match get v p.val with
              | .error e => .error e
              | .ok v => parseDict T fuel g v d
            else .ok ((some (.missingValue keyValue.text), v), d)

/-- The loop of `parseList`: the error, and the items. -/
def parseItems (T : τ → GoType τ) :
    ℕ → GoType τ × Option ℕ → List Val → Decoder → Except Err ((Option Err × List Val) × Decoder)
  | 0, _, _, _ => .error .outOfFuel
  | fuel + 1, (g, len), xs, d =>
    if len.all fun n => decide (xs.length < n) then
      match parseValue T fuel g d with
      | .error e => .error e
      | .ok (⟨_, some e, x⟩, d) => .ok ((some e, xs ++ [x]), d)
      | .ok (⟨false, none, _⟩, d) => .ok ((none, xs), d)
      | .ok (⟨true, none, x⟩, d) => parseItems T fuel (g, len) (xs ++ [x]) d
    else
      match parseValueInterface (fuel + 1) d with
      | .error e => .error e
      | .ok (none, d) => .ok ((none, xs), d)
      | .ok (some _, d) => parseItems T fuel (g, len) xs d

end

/-- `Decode`, into a variable of the type: an `io.EOF` that was thrown is unexpected. -/
def decode (g : GoType τ) (d : Decoder) : Except Err (Val × Decoder) :=
  match parseValue T (2 * d.rest.length + 2) g d with
  | .error .eof => .error .unexpectedEOF
  | .error e => .error e
  | .ok (⟨_, some e, _⟩, _) => .error e
  | .ok (⟨true, none, v⟩, d) => .ok (v, d)
  | .ok (⟨false, none, _⟩, d) => .error (.syntaxError (d.offset - 1) .unexpectedEnd)

theorem decode_ok_iff {T : τ → GoType τ} {g : GoType τ} {d d' : Decoder} {v : Val} :
    decode T g d = .ok (v, d') ↔
      parseValue T (2 * d.rest.length + 2) g d = .ok (⟨true, none, v⟩, d') := by
  rw [decode]
  split <;> simp_all

end Decoder

/-- `Unmarshal` -/
def unmarshal (T : τ → GoType τ) (g : GoType τ) (data : Str) : Except Err Val :=
  match Decoder.decode T g ⟨data, 0, [], 0⟩ with
  | .error e => .error e
  | .ok (v, d) => if d.rest = [] then .ok v else .error (.unusedTrailingBytes d.rest.length)

theorem unmarshal_ok_iff {T : τ → GoType τ} {g : GoType τ} {data : Str} {v : Val} :
    unmarshal T g data = .ok v ↔
      ∃ d, Decoder.decode T g ⟨data, 0, [], 0⟩ = .ok (v, d) ∧ d.rest = [] := by
  rw [unmarshal]
  split
  · next e he => simp [he]
  · next w d hd =>
    by_cases h : d.rest = []
    · simp [hd, h]
    · simp [hd, h]

end

end ReliableBT.Bencode
