import ReliableBT.Lib.Bytes

/-!
# Fixed-size binary records

A `FixedCodec α` writes every value of `α` as the same number of bytes and reads it back: what a
big-endian binary encoding does to integers, byte arrays, booleans and the structures made of
them. A structure is the concatenation of its fields, in order and without padding: `pair` and
`iso` build its codec from theirs.

`get` is total on byte strings of the right size and need not be injective there (every byte but
zero reads as `true`). A codec is `Exact` if it is: then each string of the right size is the
encoding of one value.

* `pair_put`, `pair_get`: how a record is written, and read off the front of a string.
* `numeral_exact`, `bytes_exact`, `pair_exact`, `iso_exact`: exactness, built the same way.
* `read_append`, `read_short`: the read of one record from a reader.
-/

namespace ReliableBT

open Bytes List

/-- A byte array of `n` bytes. -/
structure ByteArr (n : Nat) where
  toList : List UInt8
  length_eq : toList.length = n
  deriving Repr, DecidableEq

/-- A binary form of fixed size. -/
structure FixedCodec (α : Type) where
  size : Nat
  put : α → List UInt8
  get : List UInt8 → α
  length_put : ∀ a, (put a).length = size
  get_put : ∀ a, get (put a) = a

namespace FixedCodec

variable {α β : Type}

attribute [simp] length_put get_put

/-- Every string of the right size is the form of a value. -/
def Exact (c : FixedCodec α) : Prop :=
  ∀ bs : List UInt8, bs.length = c.size → c.put (c.get bs) = bs

/-- A number type of `w` bytes. -/
def numeral (w : Nat) (toNat : α → Nat) (ofNat : Nat → α) (hof : ∀ a, ofNat (toNat a) = a)
    (hlt : ∀ a, toNat a < 256 ^ w) : FixedCodec α where
  size := w
  put a := putBE w (toNat a)
  get bs := ofNat (getBE bs)
  length_put a := length_putBE w _
  get_put a := by rw [getBE_putBE_of_lt (hlt a), hof]

/-- An array of `n` bytes, as it is. -/
def bytes (n : Nat) : FixedCodec (ByteArr n) where
  size := n
  put a := a.toList
  get bs := if h : bs.length = n then ⟨bs, h⟩ else ⟨replicate n 0, length_replicate⟩
  length_put a := a.length_eq
  get_put a := by rw [dif_pos a.length_eq]

/-- A truth value: `1` or `0` when written, any byte but `0` is true when read. -/
def bool : FixedCodec Bool where
  size := 1
  put b := [if b then 1 else 0]
  get bs := decide (bs.headD 0 ≠ 0)
  length_put b := rfl
  get_put b := by cases b <;> decide

/-- One field after the other. -/
def pair (c : FixedCodec α) (d : FixedCodec β) : FixedCodec (α × β) where
  size := c.size + d.size
  put p := c.put p.1 ++ d.put p.2
  get bs := (c.get (bs.take c.size), d.get (bs.drop c.size))
  length_put p := by rw [length_append, c.length_put, d.length_put]
  get_put p := by
    rw [take_left' (c.length_put _), drop_left' (c.length_put _), c.get_put, d.get_put]

/-- A structure, through the tuple of its fields. -/
def iso (c : FixedCodec α) (mk : α → β) (fields : β → α) (hmk : ∀ b, mk (fields b) = b) :
    FixedCodec β where
  size := c.size
  put b := c.put (fields b)
  get bs := mk (c.get bs)
  length_put b := c.length_put _
  get_put b := by rw [c.get_put, hmk]

/-! ## Reading the parts of a string -/

variable {c : FixedCodec α} {d : FixedCodec β} {a : α} {b : β} {bs rest : List UInt8}

theorem pair_put : (c.pair d).put (a, b) = c.put a ++ d.put b := rfl

section

variable {fields : β → α} {mk : α → β} (hmk : ∀ b, mk (fields b) = b)

theorem iso_put : (c.iso mk fields hmk).put b = c.put (fields b) := rfl

theorem iso_get : (c.iso mk fields hmk).get bs = mk (c.get bs) := rfl

end

theorem pair_get : (c.pair d).get (c.put a ++ bs) = (a, d.get bs) := by
  change (c.get (take c.size _), d.get (drop c.size _)) = _
  rw [take_left' (c.length_put a), drop_left' (c.length_put a), c.get_put]

theorem numeral_exact {w : Nat} {toNat : α → Nat} {ofNat : Nat → α}
    {hof : ∀ a, ofNat (toNat a) = a} {hlt : ∀ a, toNat a < 256 ^ w}
    (hto : ∀ n < 256 ^ w, toNat (ofNat n) = n) : (numeral w toNat ofNat hof hlt).Exact := by
  intro bs hbs
  change bs.length = w at hbs
  change putBE w (toNat (ofNat (getBE bs))) = bs
  subst hbs
  rw [hto _ (getBE_lt bs), putBE_getBE]

theorem bytes_exact (n : Nat) : (bytes n).Exact := by
  intro bs hbs
  change bs.length = n at hbs
  change (dite (bs.length = n) _ _ : ByteArr n).toList = bs
  rw [dif_pos hbs]

theorem pair_exact {c : FixedCodec α} {d : FixedCodec β} (hc : c.Exact) (hd : d.Exact) :
    (c.pair d).Exact := by
  intro bs hbs
  change bs.length = c.size + d.size at hbs
  change c.put (c.get (bs.take c.size)) ++ d.put (d.get (bs.drop c.size)) = bs
  rw [hc _ (by rw [length_take]; omega), hd _ (by rw [length_drop]; omega),
    take_append_drop]

theorem iso_exact {c : FixedCodec α} {mk : α → β} {fields : β → α}
    {hmk : ∀ b, mk (fields b) = b} (hc : c.Exact) (hfields : ∀ a, fields (mk a) = a) :
    (c.iso mk fields hmk).Exact := by
  intro bs hbs
  change c.put (fields (mk (c.get bs))) = bs
  rw [hfields, hc bs hbs]

/-! ## Reading from a reader -/

/-- The read of one record: all its bytes, or none of its fields. -/
def read (c : FixedCodec α) (s : List UInt8) : Except IoError α × List UInt8 :=
  match readFull c.size s with
  | (.ok bs, rest) => (.ok (c.get bs), rest)
  | (.error e, rest) => (.error e, rest)

theorem read_append (h : bs.length = c.size) : c.read (bs ++ rest) = (.ok (c.get bs), rest) := by
  rw [read, ← h, readFull_append]

theorem read_put : c.read (c.put a ++ rest) = (.ok a, rest) := by
  rw [read_append (length_put _ _), get_put]

theorem read_short (c : FixedCodec α) {s : List UInt8} (h : s.length < c.size) :
    ∃ e, c.read s = (.error e, []) := by
  obtain ⟨e, he⟩ := readFull_of_lt h
  exact ⟨e, by rw [read, he]⟩

/-! ## The integers -/

/-- `uint16` -/
def uint16 : FixedCodec UInt16 :=
  numeral 2 UInt16.toNat UInt16.ofNat (fun _ => UInt16.ofNat_toNat) UInt16.toNat_lt

/-- `uint32` -/
def uint32 : FixedCodec UInt32 :=
  numeral 4 UInt32.toNat UInt32.ofNat (fun _ => UInt32.ofNat_toNat) UInt32.toNat_lt

/-- `uint64` -/
def uint64 : FixedCodec UInt64 :=
  numeral 8 UInt64.toNat UInt64.ofNat (fun _ => UInt64.ofNat_toNat) UInt64.toNat_lt

/-- `int32`, through its two's complement. -/
def int32 : FixedCodec Int32 :=
  uint32.iso UInt32.toInt32 Int32.toUInt32 Int32.toInt32_toUInt32

/-- `int64`, through its two's complement. -/
def int64 : FixedCodec Int64 :=
  uint64.iso UInt64.toInt64 Int64.toUInt64 Int64.toInt64_toUInt64

theorem uint16_exact : uint16.Exact := numeral_exact fun _ h => UInt16.toNat_ofNat_of_lt' h

theorem uint32_exact : uint32.Exact := numeral_exact fun _ h => UInt32.toNat_ofNat_of_lt' h

theorem uint64_exact : uint64.Exact := numeral_exact fun _ h => UInt64.toNat_ofNat_of_lt' h

theorem int32_exact : int32.Exact := iso_exact uint32_exact UInt32.toUInt32_toInt32

theorem int64_exact : int64.Exact := iso_exact uint64_exact UInt64.toUInt64_toInt64

end FixedCodec

end ReliableBT
