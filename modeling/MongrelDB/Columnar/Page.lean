import Mathlib.Data.List.Basic
import MongrelDB.Lib.Bitmap

/-!
# Column pages

The `Value` codec of a column page. A page is an algorithm byte followed by the
possibly compressed content: a validity bitmap with its length, and a payload that
depends on the column type.

The compressors and the metadata serializer are a parameter, `Codecs`: each one
reads back what it wrote.
Floating-point numbers are their bit patterns, sixteen-byte ids the big-endian
number of their bytes. A slice out of range is the error `panic`.
-/

namespace MongrelDB.Columnar

open Lib

/-! ## Types and values -/

inductive TypeId where
  | bool
  | int8
  | int16
  | int32
  | int64
  | uint8
  | uint16
  | uint32
  | uint64
  | float32
  | float64
  | timestampNanos
  | date32
  | date64
  | time64
  | interval
  | uuid
  | json
  | array (elementType : UInt8)
  | bytes
  | embedding (dim : UInt32)
  | decimal128 (precision : UInt8) (scale : Int8)
  | enum (variants : List String)
  deriving Repr

/-- Bytes a value of a fixed-width type takes. -/
def TypeId.fixedSize : TypeId → Option Nat
  | .bool => some 1
  | .int8 | .uint8 => some 1
  | .int16 | .uint16 => some 2
  | .int32 | .uint32 | .float32 | .date32 => some 4
  | .int64 | .uint64 | .float64 | .timestampNanos | .date64 | .time64 => some 8
  | .bytes | .embedding _ | .enum _ => none
  | .decimal128 _ _ => some 16
  | .uuid => some 16
  | .json | .array _ => none
  | .interval => some 20

/-- The types whose `Value` pages may be dictionaries. -/
def TypeId.hasDictionary : TypeId → Bool
  | .bytes | .enum _ => true
  | _ => false

/-- `M` is the type of the metadata of generated embeddings. -/
inductive Value (M : Type) where
  | null
  | bool (b : Bool)
  | int64 (x : BitVec 64)
  | float64 (bits : BitVec 64)
  | bytes (b : Bytes)
  | embedding (vector : List (BitVec 32))
  | decimal (x : BitVec 128)
  | interval (months : BitVec 64) (days : BitVec 32) (nanos : BitVec 64)
  | uuid (b : BitVec 128)
  | json (b : Bytes)
  | generatedEmbedding (vector : List (BitVec 32)) (metadata : M)
  deriving DecidableEq, Repr

namespace Value

variable {M : Type}

def isNull : Value M → Bool
  | .null => true
  | _ => false

def asEmbedding : Value M → Option (List (BitVec 32))
  | .embedding vector => some vector
  | .generatedEmbedding vector _ => some vector
  | _ => none

def generatedEmbeddingMetadata : Value M → Option M
  | .generatedEmbedding _ metadata => some metadata
  | _ => none

end Value

inductive Encoding where
  | plain
  | dictionary
  | delta
  | byteStreamSplit
  | runLength
  | binaryQuantized
  | zstd
  deriving DecidableEq, Repr

/-- The message, and the type or value it is about. -/
inductive MongrelError (M : Type) where
  | invalidArgument (message : String) (column : Option TypeId := none)
  | schema (message : String) (column : TypeId) (value : Option (Value M) := none)
  | full (message : String)
  | other (message : String)
  | resourceLimitExceeded (resource : String) (requested limit : Nat)
  | panic
  deriving Repr

/-- The libraries the page format rests on, and that they lose nothing. -/
structure Codecs (M : Type) where
  zstdEncode : Int → Bytes → Bytes
  zstdDecode : Bytes → Option Bytes
  /-- an LZ4 block without its size -/
  lz4Block : Bytes → Bytes
  lz4Decode : Bytes → Nat → Option Bytes
  serialize : List (Option M) → Bytes
  deserialize : Bytes → Option (List (Option M))
  zstd_lossless : ∀ level data, zstdDecode (zstdEncode level data) = some data
  lz4_lossless : ∀ data, lz4Decode (lz4Block data) data.length = some data
  bincode_lossless : ∀ metadata, deserialize (serialize metadata) = some metadata

variable {M : Type}

/-! ## Slots -/

/-- The bytes of a number, highest first. -/
def beBits {w : Nat} (k : Nat) (x : BitVec w) : Bytes := beBytes k x.toNat

/-- A number off its bytes, in either order. -/
def ofBits (le : Bool) (w : Nat) (b : Bytes) : BitVec w :=
  BitVec.ofNat w (if le then leValue b else beValue b)

def typeMismatch (ty : TypeId) (v : Value M) : MongrelError M :=
  .schema "type mismatch" ty (some v)

def zeros (w : Nat) : Bytes := List.replicate w 0

section

variable (ty : TypeId)

/-- `Int64` and the types stored as one. -/
def int64Slot : Value M → Except (MongrelError M) Bytes
  | .int64 x => .ok (beBits 8 x)
  | .null => .ok (zeros 8)
  | v => .error (typeMismatch ty v)

def float64Slot : Value M → Except (MongrelError M) Bytes
  | .float64 bits => .ok (beBits 8 bits)
  | .null => .ok (zeros 8)
  | v => .error (typeMismatch ty v)

def intervalSlot : Value M → Except (MongrelError M) Bytes
  | .interval months days nanos => .ok (beBits 8 months ++ (beBits 4 days ++ beBits 8 nanos))
  | .null => .ok (zeros 20)
  | v => .error (typeMismatch ty v)

def boolSlot : Value M → Except (MongrelError M) Bytes
  | .bool b => .ok [if b then 1 else 0]
  | .null => .ok (zeros 1)
  | v => .error (typeMismatch ty v)

/-- The low 32 bits. -/
def int32Slot : Value M → Except (MongrelError M) Bytes
  | .int64 x => .ok (beBits 4 (x.setWidth 32))
  | .null => .ok (zeros 4)
  | v => .error (typeMismatch ty v)

def uuidSlot : Value M → Except (MongrelError M) Bytes
  | .uuid b => .ok (beBits 16 b)
  | .null => .ok (zeros 16)
  | v => .error (typeMismatch ty v)

def decimalSlot : Value M → Except (MongrelError M) Bytes
  | .decimal x => .ok (beBits 16 x)
  | .null => .ok (zeros 16)
  | v => .error (typeMismatch ty v)

end

/-- The components of the vector; zeros for a null row. -/
def embeddingSlot (dim : UInt32) (v : Value M) : Except (MongrelError M) Bytes :=
  match v.asEmbedding with
  | some vector =>
    if vector.length ≠ dim.toNat then
      .error (.schema "embedding dimension mismatch" (.embedding dim) (some v))
    else .ok (vector.flatMap fun x => beBits 4 x)
  | none =>
    if v.isNull then .ok (zeros (dim.toNat * 4)) else .error (typeMismatch (.embedding dim) v)

/-- The slots one after the other. -/
def fixedEncode (enc : Value M → Except (MongrelError M) Bytes) :
    List (Value M) → Except (MongrelError M) Bytes
  | [] => .ok []
  | v :: vs =>
    match enc v with
    | .error e => .error e
    | .ok slot =>
      match fixedEncode enc vs with
      | .error e => .error e
      | .ok rest => .ok (slot ++ rest)

/-! ## Encoding a column -/

def validityBitmap (values : List (Value M)) : Bytes :=
  packBits (values.map fun v => !v.isNull)

def generatedEmbeddingTrailerMagic : Bytes := [0x47, 0x45, 0x4d, 0x31]

def metadataOf (values : List (Value M)) : List (Option M) :=
  values.map Value.generatedEmbeddingMetadata

/-- Nothing unless some row has metadata. -/
def embeddingTrailer (c : Codecs M) (values : List (Value M)) : Except (MongrelError M) Bytes :=
  if (metadataOf values).any Option.isSome then
    let encoded := c.serialize (metadataOf values)
    if 2 ^ 32 ≤ encoded.length then .error (.full "embedding metadata page is too large")
    else .ok (generatedEmbeddingTrailerMagic ++ (beBytes 4 encoded.length ++ encoded))
  else .ok []

def embeddingEncode (c : Codecs M) (values : List (Value M)) (dim : UInt32) :
    Except (MongrelError M) Bytes :=
  match fixedEncode (embeddingSlot dim) values with
  | .error e => .error e
  | .ok vectors =>
    match embeddingTrailer c values with
    | .error e => .error e
    | .ok trailer => .ok (vectors ++ trailer)

/-- The bytes a row adds to the data section. -/
def Value.rawBytes : Value M → Bytes
  | .bytes b => b
  | .json b => b
  | _ => []

/-- The offsets after `off` and the data. -/
def bytesEncodeLoop : Nat → List (Value M) → Except (MongrelError M) (Bytes × Bytes)
  | _, [] => .ok ([], [])
  | off, v :: vs =>
    let off' := off + v.rawBytes.length
    if 2 ^ 64 ≤ off' then .error (.invalidArgument "bytes length overflow")
    else
      match bytesEncodeLoop off' vs with
      | .error e => .error e
      | .ok (offsets, data) => .ok (beBytes 8 off' ++ offsets, v.rawBytes ++ data)

def bytesEncode (values : List (Value M)) : Except (MongrelError M) Bytes :=
  match bytesEncodeLoop 0 values with
  | .error e => .error e
  | .ok (offsets, data) => .ok (beBytes 8 0 ++ (offsets ++ data))

def encodePayload (c : Codecs M) (ty : TypeId) (values : List (Value M)) :
    Except (MongrelError M) Bytes :=
  match ty with
  | .int64 | .timestampNanos | .date64 | .time64 => fixedEncode (int64Slot ty) values
  | .float64 => fixedEncode (float64Slot ty) values
  | .interval => fixedEncode (intervalSlot ty) values
  | .bool => fixedEncode (boolSlot ty) values
  | .int32 | .uint32 | .date32 => fixedEncode (int32Slot ty) values
  | .bytes | .json | .enum _ => bytesEncode values
  | .uuid => fixedEncode (uuidSlot ty) values
  | .embedding dim => embeddingEncode c values dim
  | .decimal128 _ _ => fixedEncode (decimalSlot ty) values
  | _ => .error (.schema "encoding for type not implemented yet" ty)

/-- The bitmap with its length in front of the payload. -/
def withValidity (validity payload : Bytes) : Bytes :=
  beBytes 4 validity.length ++ (validity ++ payload)

def encodeColumn (c : Codecs M) (ty : TypeId) (values : List (Value M)) :
    Except (MongrelError M) Bytes :=
  match encodePayload c ty values with
  | .error e => .error e
  | .ok payload => .ok (withValidity (validityBitmap values) payload)

/-! ## Decoding a column -/

/-- `w` bytes at the cursor, read as a value. -/
def takeSlot (payload : Bytes) (cur w : Nat) (read : Bytes → Value M) :
    Except (MongrelError M) (Value M × Nat) :=
  if payload.length < cur + w then .error (.invalidArgument "payload truncated")
  else .ok (read ((payload.drop cur).take w), cur + w)

/-- The components of a vector, one by one. -/
def takeFloats (payload : Bytes) : Nat → Nat → Except (MongrelError M) (List (BitVec 32) × Nat)
  | 0, cur => .ok ([], cur)
  | dim + 1, cur =>
    if payload.length < cur + 4 then .error (.invalidArgument "payload truncated")
    else
      match takeFloats payload dim (cur + 4) with
      | .error e => .error e
      | .ok (acc, cur') => .ok (ofBits false 32 ((payload.drop cur).take 4) :: acc, cur')

/-- How far a null row moves the cursor. -/
def nullWidth : TypeId → Nat
  | .int64 | .float64 | .timestampNanos => 8
  | .int32 | .uint32 | .date32 => 4
  | .bool => 1
  | .decimal128 _ _ => 16
  | .date64 | .time64 => 8
  | .interval => 20
  | .uuid => 16
  | .embedding dim => dim.toNat * 4
  | _ => 0

def advanceNull (ty : TypeId) (payload : Bytes) (cur : Nat) : Except (MongrelError M) Nat :=
  if payload.length < cur + nullWidth ty then .error (.invalidArgument "payload truncated at null")
  else .ok (cur + nullWidth ty)

/-- A position computed in `usize`. A slice has less than `2 ^ 63` bytes, so a position inside
it has not wrapped; one past its end may have. -/
def position (bytes : Bytes) (k : Nat) : Nat := if k ≤ bytes.length then k else k % 2 ^ 64

@[simp] theorem position_of_le {bytes : Bytes} {k : Nat} (h : k ≤ bytes.length) :
    position bytes k = k := if_pos h

theorem position_of_lt {k : Nat} (h : k < 2 ^ 64) (bytes : Bytes) : position bytes k = k := by
  rw [position]
  split
  · rfl
  · exact Nat.mod_eq_of_lt h

/-- Entry `idx` of the offset table. -/
def readOff (payload : Bytes) (idx : Nat) (le : Bool) : Except (MongrelError M) Nat :=
  let s := position payload (idx * 8)
  if payload.length < s + 8 then .error .panic
  else .ok (ofBits le 64 ((payload.drop s).take 8)).toNat

/-- `bytes[lo..hi]` -/
def slice (bytes : Bytes) (lo hi : Nat) : Except (MongrelError M) Bytes :=
  if hi < lo ∨ bytes.length < hi then .error .panic else .ok ((bytes.take hi).drop lo)

def decodeBytesRow (payload : Bytes) (n : Nat) (le : Bool) (i : Nat) :
    Except (MongrelError M) Bytes :=
  let bytesStart := position payload ((n + 1) * 8)
  match readOff payload i le with
  | .error e => .error e
  | .ok lo =>
    match readOff payload (i + 1) le with
    | .error e => .error e
    | .ok hi =>
      slice payload (position payload (bytesStart + lo)) (position payload (bytesStart + hi))

/-- A row whose validity bit is set. -/
def decodeValue (ty : TypeId) (payload : Bytes) (n : Nat) (le : Bool) (i cur : Nat) :
    Except (MongrelError M) (Value M × Nat) :=
  match ty with
  | .int64 | .timestampNanos | .date64 | .time64 =>
    takeSlot payload cur 8 fun b => .int64 (ofBits le 64 b)
  | .float64 => takeSlot payload cur 8 fun b => .float64 (ofBits le 64 b)
  | .bool => takeSlot payload cur 1 fun b => .bool (decide (b.headD 0 ≠ 0))
  | .int32 | .uint32 | .date32 =>
    takeSlot payload cur 4 fun b => .int64 ((ofBits le 32 b).signExtend 64)
  | .bytes | .enum _ =>
    match decodeBytesRow payload n le i with
    | .error e => .error e
    | .ok data => .ok (.bytes data, cur)
  | .json =>
    match decodeBytesRow payload n le i with
    | .error e => .error e
    | .ok data => .ok (.json data, cur)
  | .uuid => takeSlot payload cur 16 fun b => .uuid (ofBits false 128 b)
  | .embedding dim =>
    match takeFloats payload dim.toNat cur with
    | .error e => .error e
    | .ok (acc, cur') => .ok (.embedding acc, cur')
  | .decimal128 _ _ => takeSlot payload cur 16 fun b => .decimal (ofBits false 128 b)
  | .interval =>
    takeSlot payload cur 20 fun b =>
      .interval (ofBits false 64 (b.take 8)) (ofBits false 32 ((b.drop 8).take 4))
        (ofBits false 64 (b.drop 12))
  | _ => .error (.schema "decoding for type not implemented yet" ty)

def decodeRow (ty : TypeId) (validity payload : Bytes) (n : Nat) (le : Bool) (i cur : Nat) :
    Except (MongrelError M) (Value M × Nat) :=
  if bitAt validity i then decodeValue ty payload n le i cur
  else
    match advanceNull ty payload cur with
    | .error e => .error e
    | .ok cur => .ok (.null, cur)

/-- The loop over the rows from row `i` on, with `count` of them left. -/
def decodeRows (ty : TypeId) (validity payload : Bytes) (n : Nat) (le : Bool) :
    Nat → Nat → Nat → Except (MongrelError M) (List (Value M) × Nat)
  | 0, _, cur => .ok ([], cur)
  | count + 1, i, cur =>
    match decodeRow ty validity payload n le i cur with
    | .error e => .error e
    | .ok (v, cur) =>
      match decodeRows ty validity payload n le count (i + 1) cur with
      | .error e => .error e
      | .ok (vs, cur) => .ok (v :: vs, cur)

/-- Give the rows their metadata back. -/
def applyMetadata : List (Value M) → List (Option M) → Except (MongrelError M) (List (Value M))
  | v :: vs, m :: ms =>
    match applyMetadata vs ms with
    | .error e => .error e
    | .ok rest =>
      match m, v with
      | none, v => .ok (v :: rest)
      | some metadata, .embedding vector => .ok (.generatedEmbedding vector metadata :: rest)
      | some _, _ =>
        .error (.invalidArgument "generated embedding metadata targets a null row")
  | vs, _ => .ok vs

def decodeGeneratedEmbeddingTrailer (c : Codecs M) (trailer : Bytes) (values : List (Value M)) :
    Except (MongrelError M) (List (Value M)) :=
  if trailer.length < 8 ∨ trailer.take 4 ≠ generatedEmbeddingTrailerMagic then
    .error (.invalidArgument "invalid generated embedding metadata trailer")
  else
    let encodedLen := beValue ((trailer.drop 4).take 4)
    if trailer.length ≠ 8 + encodedLen then
      .error (.invalidArgument "generated embedding metadata trailer length mismatch")
    else
      match c.deserialize (trailer.drop 8) with
      | none => .error (.other "embedding metadata decode")
      | some metadata =>
        if metadata.length ≠ values.length then
          .error (.invalidArgument "generated embedding metadata row count mismatch")
        else applyMetadata values metadata

/-- The rows, and for embeddings the trailer if anything is left. -/
def decodePayload (c : Codecs M) (ty : TypeId) (validity payload : Bytes) (n : Nat) (le : Bool) :
    Except (MongrelError M) (List (Value M)) :=
  match decodeRows ty validity payload n le n 0 0 with
  | .error e => .error e
  | .ok (out, cur) =>
    match ty with
    | .embedding _ =>
      if cur < payload.length then decodeGeneratedEmbeddingTrailer c (payload.drop cur) out
      else .ok out
    | _ => .ok out

def decodeColumn (c : Codecs M) (ty : TypeId) (page : Bytes) (n : Nat) (le : Bool) :
    Except (MongrelError M) (List (Value M)) :=
  if page.length < 4 then .error (.invalidArgument "page too short for header")
  else
    let vlen := beValue (page.take 4)
    if page.length < 4 + vlen then .error (.invalidArgument "page validity out of range")
    else decodePayload c ty ((page.drop 4).take vlen) (page.drop (4 + vlen)) n le

/-! ## Dictionaries -/

/-- The index of each row, and the table grown by the values met for the first time. -/
def dictIndices : List (Value M) → List Bytes → List Nat × List Bytes
  | [], table => ([], table)
  | .bytes b :: vs, table =>
    match table.idxOf? b with
    | some i => let r := dictIndices vs table; (i :: r.1, r.2)
    | none => let r := dictIndices vs (table ++ [b]); (table.length :: r.1, r.2)
  | _ :: vs, table => let r := dictIndices vs table; (0 :: r.1, r.2)

/-- The layout both dictionary encoders write. -/
def dictLayout (validity : Bytes) (indices : List Nat) (table : List Bytes) : Bytes :=
  beBytes 4 validity.length ++ (validity ++ (beBytes 4 indices.length ++
    (indices.flatMap (beBytes 4) ++ (beBytes 4 table.length ++
      table.flatMap fun entry => beBytes 4 entry.length ++ entry))))

def dictEncodeBytes (values : List (Value M)) : Bytes :=
  let dict := dictIndices values []
  dictLayout (validityBitmap values) dict.1 dict.2

def readU32Be (data : Bytes) : Except (MongrelError M) (Nat × Bytes) :=
  if data.length < 4 then .error (.invalidArgument "dict payload truncated")
  else .ok (beValue (data.take 4), data.drop 4)

def checkedSlice (data : Bytes) (len : Nat) : Except (MongrelError M) (Bytes × Bytes) :=
  if data.length < len then .error (.invalidArgument "dict payload truncated")
  else .ok (data.take len, data.drop len)

def readIndices : Nat → Bytes → Except (MongrelError M) (List Nat × Bytes)
  | 0, data => .ok ([], data)
  | count + 1, data =>
    match readU32Be data with
    | .error e => .error e
    | .ok (idx, data) =>
      match readIndices count data with
      | .error e => .error e
      | .ok (indices, data) => .ok (idx :: indices, data)

def readTable : Nat → Bytes → Except (MongrelError M) (List Bytes × Bytes)
  | 0, data => .ok ([], data)
  | count + 1, data =>
    match readU32Be data with
    | .error e => .error e
    | .ok (len, data) =>
      match checkedSlice data len with
      | .error e => .error e
      | .ok (entry, data) =>
        match readTable count data with
        | .error e => .error e
        | .ok (table, data) => .ok (entry :: table, data)

/-- The sections of a dictionary payload: validity, indices, table. -/
def readDict (data : Bytes) : Except (MongrelError M) (Bytes × List Nat × List Bytes) :=
  match readU32Be data with
  | .error e => .error e
  | .ok (vlen, data) =>
    match checkedSlice data vlen with
    | .error e => .error e
    | .ok (validity, data) =>
      match readU32Be data with
      | .error e => .error e
      | .ok (indexCount, data) =>
        match readIndices indexCount data with
        | .error e => .error e
        | .ok (indices, data) =>
          match readU32Be data with
          | .error e => .error e
          | .ok (tableCount, data) =>
            match readTable tableCount data with
            | .error e => .error e
            | .ok (table, _) => .ok (validity, indices, table)

/-- The rows of a dictionary from row `i` on. -/
def dictRows (validity : Bytes) (table : List Bytes) :
    Nat → List Nat → Except (MongrelError M) (List (Value M))
  | _, [] => .ok []
  | i, idx :: indices =>
    let rest := dictRows validity table (i + 1) indices
    if bitAt validity i then
      match table[idx]? with
      | none => .error (.invalidArgument "dict index out of range")
      | some entry =>
        match rest with
        | .error e => .error e
        | .ok vs => .ok (.bytes entry :: vs)
    else
      match rest with
      | .error e => .error e
      | .ok vs => .ok (.null :: vs)

def dictDecodeBytes (data : Bytes) (n : Nat) : Except (MongrelError M) (List (Value M)) :=
  match readDict data with
  | .error e => .error e
  | .ok (validity, indices, table) => dictRows validity table 0 (indices.take n)

/-! ## Compression -/

def maxPageDecompressedBytes : Nat := 64 * 1024 * 1024

/-- The algorithm byte without its byte-order flag. -/
inductive Algo where
  | plain
  | zstdPlain
  | zstdDict
  | zstdDelta
  | lz4Plain
  | lz4Dict
  | lz4Delta
  deriving DecidableEq, Repr

namespace Algo

def code : Algo → Nat
  | plain => 0
  | zstdPlain => 1
  | zstdDict => 2
  | zstdDelta => 3
  | lz4Plain => 4
  | lz4Dict => 5
  | lz4Delta => 6

def ofCode : Nat → Option Algo
  | 0 => some plain
  | 1 => some zstdPlain
  | 2 => some zstdDict
  | 3 => some zstdDelta
  | 4 => some lz4Plain
  | 5 => some lz4Dict
  | 6 => some lz4Delta
  | _ => none

def isPlain : Algo → Bool
  | plain | zstdPlain | lz4Plain => true
  | _ => false

def isDict : Algo → Bool
  | zstdDict | lz4Dict => true
  | _ => false

def isDelta : Algo → Bool
  | zstdDelta | lz4Delta => true
  | _ => false

end Algo

/-- Bit 3 is the byte-order flag. -/
def algoWithLe (algo : Algo) (le : Bool) : UInt8 :=
  UInt8.ofNat (algo.code + if le then 8 else 0)

def algoLe (byte : UInt8) : Bool := byte.toNat.testBit 3

def algoBase (byte : UInt8) : Option Algo :=
  Algo.ofCode (if algoLe byte then byte.toNat - 8 else byte.toNat)

def zstdCompressLevel (c : Codecs M) (data : Bytes) (level : Int) : Except (MongrelError M) Bytes :=
  if maxPageDecompressedBytes < data.length then
    .error (.resourceLimitExceeded "column page bytes" data.length maxPageDecompressedBytes)
  else .ok (c.zstdEncode level data)

def zstdCompress (c : Codecs M) (data : Bytes) : Except (MongrelError M) Bytes :=
  zstdCompressLevel c data 3

def lz4Compress (c : Codecs M) (data : Bytes) : Bytes :=
  leBytes 4 data.length ++ c.lz4Block data

/-- The most bytes a page of `n` rows may expand to. The sums and products saturate in the
source; the page limit is below every value at which they do. -/
def maxDecompressedBytes (ty : TypeId) (n : Nat) (algo : Algo) : Nat :=
  let validity := 4 + (n + 7) / 8
  if algo.isDelta then min (validity + n * 8) maxPageDecompressedBytes
  else if algo.isDict then maxPageDecompressedBytes
  else
    match ty with
    | .bytes | .json | .enum _ => maxPageDecompressedBytes
    | .embedding dim => min (validity + dim.toNat * 8 * n) maxPageDecompressedBytes
    | _ => min (validity + n * ty.fixedSize.getD 8) maxPageDecompressedBytes

def lz4Decompress (c : Codecs M) (data : Bytes) (maxBytes : Nat) :
    Except (MongrelError M) Bytes :=
  if data.length < 4 then .error (.invalidArgument "lz4 page truncated")
  else
    let declared := leValue (data.take 4)
    if maxBytes < declared then .error (.invalidArgument "lz4 declared size exceeds page limit")
    else
      match c.lz4Decode (data.drop 4) declared with
      | none => .error (.invalidArgument "lz4 decompress")
      | some out => .ok out

def zstdDecompress (c : Codecs M) (data : Bytes) (maxBytes : Nat) :
    Except (MongrelError M) Bytes :=
  match c.zstdDecode data with
  | none => .error (.invalidArgument "zstd decompress")
  | some out =>
    if maxBytes < out.length then .error (.invalidArgument "zstd output exceeds page limit")
    else .ok out

/-- The content of a page under any of the algorithms. -/
def decompress (c : Codecs M) (algo : Algo) (body : Bytes) (maxBytes : Nat) :
    Except (MongrelError M) Bytes :=
  match algo with
  | .plain => .ok body
  | .zstdPlain | .zstdDict | .zstdDelta => zstdDecompress c body maxBytes
  | .lz4Plain | .lz4Dict | .lz4Delta => lz4Decompress c body maxBytes

/-! ## Delta pages -/

def splitValidity (raw : Bytes) : Except (MongrelError M) (Bytes × Bytes) :=
  if raw.length < 4 then .error (.invalidArgument "page validity header")
  else
    let vlen := beValue (raw.take 4)
    if raw.length < 4 + vlen then .error (.invalidArgument "page validity range")
    else .ok ((raw.drop 4).take vlen, raw.drop (4 + vlen))

/-- `n` eight-byte numbers, with the message for a payload that is too short. -/
def takeWords (message : String) (le : Bool) (p : Bytes) (n : Nat) :
    Except (MongrelError M) (List (BitVec 64)) :=
  let len := position p (n * 8)
  if p.length < len then .error (.invalidArgument message)
  else .ok ((List.range (len / 8)).map fun i => ofBits le 64 ((p.drop (i * 8)).take 8))

def takeU64 (le : Bool) (p : Bytes) (n : Nat) : Except (MongrelError M) (List (BitVec 64)) :=
  takeWords "u64 payload truncated" le p n

def takeI64 (le : Bool) (p : Bytes) (n : Nat) : Except (MongrelError M) (List (BitVec 64)) :=
  takeWords "int64 payload truncated" le p n

/-- Running sums, wrapping. -/
def deltaPrefixSum : BitVec 64 → List (BitVec 64) → List (BitVec 64)
  | _, [] => []
  | acc, d :: ds => (acc + d) :: deltaPrefixSum (acc + d) ds

def decodeInt64DeltaValues (raw : Bytes) (ty : TypeId) (n : Nat) (le : Bool) :
    Except (MongrelError M) (List (Value M)) :=
  match ty with
  | .int64 | .timestampNanos =>
    match splitValidity raw with
    | .error e => .error e
    | .ok (validity, p) =>
      match takeI64 le p n with
      | .error e => .error e
      | .ok deltas =>
        .ok ((deltaPrefixSum 0 deltas).zipIdx.map fun x =>
          if bitAt validity x.2 then .int64 x.1 else .null)
  | _ => .error (.invalidArgument "delta page not valid for" (some ty))

/-! ## Pages -/

def encodePage (c : Codecs M) (ty : TypeId) (values : List (Value M)) (encoding : Encoding) :
    Except (MongrelError M) Bytes :=
  match encoding with
  | .plain =>
    match encodeColumn c ty values with
    | .error e => .error e
    | .ok column => .ok (algoWithLe .plain false :: column)
  | _ =>
    if encoding = .dictionary ∧ ty.hasDictionary = true then
      match zstdCompress c (dictEncodeBytes values) with
      | .error e => .error e
      | .ok compressed => .ok (algoWithLe .zstdDict false :: compressed)
    else
      match encodeColumn c ty values with
      | .error e => .error e
      | .ok column =>
        match zstdCompress c column with
        | .error e => .error e
        | .ok compressed => .ok (algoWithLe .zstdPlain false :: compressed)

def decodePage (c : Codecs M) (ty : TypeId) (page : Bytes) (n : Nat) :
    Except (MongrelError M) (List (Value M)) :=
  match page with
  | [] => .error (.invalidArgument "empty page")
  | byte :: body =>
    match algoBase byte with
    | none => .error (.invalidArgument "unknown page algo")
    | some algo =>
      match decompress c algo body (maxDecompressedBytes ty n algo) with
      | .error e => .error e
      | .ok raw =>
        if algo.isPlain then decodeColumn c ty raw n (algoLe byte)
        else if algo.isDict then dictDecodeBytes raw n
        else decodeInt64DeltaValues raw ty n (algoLe byte)

end MongrelDB.Columnar
