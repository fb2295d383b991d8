import MongrelDB.Columnar.Page

/-!
# Typed columns

The second codec of the same pages: typed buffers with a validity bitmap, encoded and
decoded without going through `Value`.
-/

namespace MongrelDB.Columnar

open Lib

variable {M : Type}

inductive NativeColumn where
  | int64 (data : List (BitVec 64)) (validity : Bytes)
  | float64 (data : List (BitVec 64)) (validity : Bytes)
  | bool (data : Bytes) (validity : Bytes)
  | bytes (offsets : List UInt32) (values : Bytes) (validity : Bytes)
  deriving DecidableEq, Repr

inductive Compress where
  | plain
  | zstd (level : Int)
  | lz4
  deriving DecidableEq, Repr

namespace NativeColumn

def len : NativeColumn → Nat
  | .int64 data _ => data.length
  | .float64 data _ => data.length
  | .bool data _ => data.length
  | .bytes offsets _ _ => offsets.length - 1

def validity : NativeColumn → Bytes
  | .int64 _ validity => validity
  | .float64 _ validity => validity
  | .bool _ validity => validity
  | .bytes _ _ validity => validity

/-- The value of a row; `none` if it is null or out of range. -/
def valueAt (col : NativeColumn) (idx : Nat) : Except (MongrelError M) (Option (Value M)) :=
  if !bitAt col.validity idx then .ok none
  else
    match col with
    | .int64 data _ => .ok (data[idx]?.map .int64)
    | .float64 data _ => .ok (data[idx]?.map .float64)
    | .bool data _ => .ok (data[idx]?.map fun b => .bool (decide (b ≠ 0)))
    | .bytes offsets values _ =>
      match offsets[idx]?, offsets[idx + 1]? with
      | some lo, some hi =>
        match slice values lo.toNat hi.toNat with
        | .error e => .error e
        | .ok data => .ok (some (.bytes data))
      | _, _ => .ok none

/-- The first `count` rows from row `i` on, read back with `valueAt`. -/
def valuesFrom (col : NativeColumn) : Nat → Nat → Except (MongrelError M) (List (Value M))
  | 0, _ => .ok []
  | count + 1, i =>
    match col.valueAt i with
    | .error e => .error e
    | .ok v =>
      match col.valuesFrom count (i + 1) with
      | .error e => .error e
      | .ok vs => .ok (v.getD .null :: vs)

end NativeColumn

/-! ## Encoding -/

def appendWords (le : Bool) (data : List (BitVec 64)) : Bytes :=
  data.flatMap fun x => if le then leBytes 8 x.toNat else beBytes 8 x.toNat

/-- Differences to the value before, wrapping. -/
def deltasOf : BitVec 64 → List (BitVec 64) → List (BitVec 64)
  | _, [] => []
  | prev, v :: vs => (v - prev) :: deltasOf v vs

/-- The parts of `values` the offsets bound, in order. -/
def nativeSlices (values : Bytes) : List UInt32 → Except (MongrelError M) (List Bytes)
  | lo :: hi :: offsets =>
    match slice values lo.toNat hi.toNat with
    | .error e => .error e
    | .ok entry =>
      match nativeSlices values (hi :: offsets) with
      | .error e => .error e
      | .ok entries => .ok (entry :: entries)
  | _ => .ok []

/-- The index of each slice, and the table of distinct slices. -/
def nativeIndices : List Bytes → List Bytes → List Nat × List Bytes
  | [], table => ([], table)
  | entry :: entries, table =>
    match table.idxOf? entry with
    | some i => let r := nativeIndices entries table; (i :: r.1, r.2)
    | none => let r := nativeIndices entries (table ++ [entry]); (table.length :: r.1, r.2)

/-- Without offsets the row count underflows and the first index is out of range. -/
def dictEncodeBytesNative (offsets : List UInt32) (values validity : Bytes) :
    Except (MongrelError M) Bytes :=
  if offsets.isEmpty then .error .panic
  else
    match nativeSlices values offsets with
    | .error e => .error e
    | .ok entries =>
      let dict := nativeIndices entries []
      .ok (dictLayout validity dict.1 dict.2)

/-- The content under the algorithm the compression selects. -/
def compressWith (c : Codecs M) (compress : Compress) (zstd lz4 : Algo) (le : Bool)
    (content : Bytes) : Except (MongrelError M) Bytes :=
  match compress with
  | .plain => .ok (algoWithLe .plain le :: content)
  | .zstd level =>
    match zstdCompressLevel c content level with
    | .error e => .error e
    | .ok compressed => .ok (algoWithLe zstd le :: compressed)
  | .lz4 => .ok (algoWithLe lz4 le :: lz4Compress c content)

def compressDeltaPayload (c : Codecs M) (content : Bytes) (compress : Compress) (le : Bool) :
    Except (MongrelError M) Bytes :=
  compressWith c compress .zstdDelta .lz4Delta le content

/-- Dictionary pages never carry the byte-order flag. -/
def compressDictPayload (c : Codecs M) (content : Bytes) (compress : Compress) :
    Except (MongrelError M) Bytes :=
  compressWith c compress .zstdDict .lz4Dict false content

/-- A content over the limit of zstd makes the encoder panic. -/
def nativePlainPage (c : Codecs M) (validity : Bytes) (compress : Compress) (raw le : Bool)
    (payload : Bytes) : Except (MongrelError M) Bytes :=
  let content := withValidity validity payload
  if raw then .ok (algoWithLe .plain le :: content)
  else
    match compressWith c compress .zstdPlain .lz4Plain le content with
    | .error _ => .error .panic
    | .ok page => .ok page

def encodePageNative (c : Codecs M) (ty : TypeId) (col : NativeColumn) (encoding : Encoding)
    (compress : Compress) (le : Bool) : Except (MongrelError M) Bytes :=
  let raw := decide (compress = .plain) || decide (encoding = .plain)
  match ty, col with
  | .int64, .int64 data validity | .timestampNanos, .int64 data validity =>
    if encoding = .delta ∧ raw = false then
      compressDeltaPayload c (withValidity validity (appendWords le (deltasOf 0 data))) compress le
    else nativePlainPage c validity compress raw le (appendWords le data)
  | .float64, .float64 data validity =>
    nativePlainPage c validity compress raw le (appendWords le data)
  | .bool, .bool data validity => nativePlainPage c validity compress raw le data
  | .bytes, .bytes offsets values validity =>
    if encoding = .dictionary ∧ raw = false then
      match dictEncodeBytesNative offsets values validity with
      | .error e => .error e
      | .ok dict => compressDictPayload c dict compress
    else
      nativePlainPage c validity compress raw le
        (appendWords le (offsets.map fun o => BitVec.ofNat 64 o.toNat) ++ values)
  | _, _ => .error (.invalidArgument "encode_page_native: unsupported" (some ty))

/-! ## Decoding -/

/-- Offsets are narrowed to 32 bits. -/
def decodeBytesPlainPayload (raw : Bytes) (n : Nat) (le : Bool) :
    Except (MongrelError M) NativeColumn :=
  match (splitValidity raw : Except (MongrelError M) (Bytes × Bytes)) with
  | .error e => .error e
  | .ok (validity, p) =>
    let table := position p ((n + 1) * 8)
    if p.length < table then .error (.invalidArgument "bytes offsets truncated")
    else
      match (takeU64 le p (n + 1) : Except (MongrelError M) (List (BitVec 64))) with
      | .error e => .error e
      | .ok offsets =>
        .ok (.bytes (offsets.map fun o => UInt32.ofNat o.toNat) (p.drop table) validity)

/-- The offsets after those written so far and the bytes of the rows from row `i` on. -/
def mergeRows (validity : Bytes) (table : List Bytes) :
    Nat → List Nat → Bytes → Except (MongrelError M) (List UInt32 × Bytes)
  | _, [], merged => .ok ([], merged)
  | i, idx :: indices, merged =>
    if bitAt validity i then
      match table[idx]? with
      | none => .error (.invalidArgument "dict index out of range")
      | some entry =>
        match mergeRows validity table (i + 1) indices (merged ++ entry) with
        | .error e => .error e
        | .ok (offs, out) => .ok (UInt32.ofNat (merged ++ entry).length :: offs, out)
    else
      match mergeRows validity table (i + 1) indices merged with
      | .error e => .error e
      | .ok (offs, out) => .ok (UInt32.ofNat merged.length :: offs, out)

/-- The row count is checked before the indices are read. -/
def dictDecodeBytesNative (data : Bytes) (n : Nat) : Except (MongrelError M) NativeColumn :=
  match (readDict data : Except (MongrelError M) (Bytes × List Nat × List Bytes)) with
  | .error e => .error e
  | .ok (validity, indices, table) =>
    if indices.length < n then .error (.invalidArgument "dict index_count < n")
    else
      match (mergeRows validity table 0 (indices.take n) [] :
          Except (MongrelError M) (List UInt32 × Bytes)) with
      | .error e => .error e
      | .ok (offs, merged) => .ok (.bytes (0 :: offs) merged validity)

section

variable (ty : TypeId) (raw : Bytes) (n : Nat)

def decodePlainNative (le : Bool) :
    Except (MongrelError M) NativeColumn :=
  match ty with
  | .int64 | .timestampNanos | .date64 | .time64 =>
    match (splitValidity raw : Except (MongrelError M) (Bytes × Bytes)) with
    | .error e => .error e
    | .ok (validity, p) =>
      match takeI64 le p n with
      | .error e => .error e
      | .ok data => .ok (.int64 data validity)
  | .float64 =>
    match (splitValidity raw : Except (MongrelError M) (Bytes × Bytes)) with
    | .error e => .error e
    | .ok (validity, p) =>
      match takeU64 le p n with
      | .error e => .error e
      | .ok data => .ok (.float64 data validity)
  | .bool =>
    match (splitValidity raw : Except (MongrelError M) (Bytes × Bytes)) with
    | .error e => .error e
    | .ok (validity, p) =>
      if p.length < n then .error (.invalidArgument "bool payload truncated")
      else .ok (.bool (p.take n) validity)
  | .bytes | .json | .enum _ => decodeBytesPlainPayload raw n le
  | _ => .error (.invalidArgument "decode_page_native: unsupported ty" (some ty))

def decodeDeltaNative (le : Bool) :
    Except (MongrelError M) NativeColumn :=
  match ty with
  | .int64 | .timestampNanos =>
    match (splitValidity raw : Except (MongrelError M) (Bytes × Bytes)) with
    | .error e => .error e
    | .ok (validity, p) =>
      match takeI64 le p n with
      | .error e => .error e
      | .ok deltas => .ok (.int64 (deltaPrefixSum 0 deltas) validity)
  | _ =>
    .error (.invalidArgument "decode_page_native: delta algo only valid for Int64" (some ty))

def decodeDictNative :
    Except (MongrelError M) NativeColumn :=
  match ty with
  | .bytes | .json | .enum _ => dictDecodeBytesNative raw n
  | _ =>
    .error (.invalidArgument "decode_page_native: dict algo only valid for variable bytes"
      (some ty))

end

def decodePageNative (c : Codecs M) (ty : TypeId) (page : Bytes) (n : Nat) :
    Except (MongrelError M) NativeColumn :=
  match page with
  | [] => .error (.invalidArgument "empty page")
  | byte :: body =>
    match algoBase byte with
    | none => .error (.invalidArgument "decode_page_native: unsupported algo" (some ty))
    | some algo =>
      match decompress c algo body (maxDecompressedBytes ty n algo) with
      | .error e => .error e
      | .ok raw =>
        if algo.isDict then decodeDictNative ty raw n
        else if algo.isDelta then decodeDeltaNative ty raw n (algoLe byte)
        else decodePlainNative ty raw n (algoLe byte)

/-- The page decoded to a typed column and read back row by row. -/
def decodePageNativeValues (c : Codecs M) (ty : TypeId) (page : Bytes) (n : Nat) :
    Except (MongrelError M) (List (Value M)) :=
  match decodePageNative c ty page n with
  | .error e => .error e
  | .ok col => col.valuesFrom n 0

end MongrelDB.Columnar
