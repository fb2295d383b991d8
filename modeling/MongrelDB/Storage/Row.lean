import MongrelDB.Epoch.Snapshot

/-!
# Rows, values and column types

A row version as the storage tiers hold it. Floating-point values are elements of
an arbitrary type `F`, linearly ordered where a reader compares them.
-/

namespace MongrelDB.Storage

open Epoch (HlcTimestamp Stamp)

inductive TypeId where
  | bool
  | int8
  | int16
  | int32
  | int64
  | uint8
  | uint16
  | uint32
  | uint64
  | float32
  | float64
  | timestampNanos
  | date32
  | date64
  | time64
  | interval
  | uuid
  | json
  | array
  | bytes
  | embedding
  | decimal128
  | enum
  deriving DecidableEq, Repr

/-- The types `decode_page_native` has a branch for. -/
def TypeId.decodePageNative : TypeId → Bool
  | int64 | timestampNanos | date64 | time64 | float64 | bool | bytes | json | enum => true
  | _ => false

/-- The types a point lookup reads through `decode_page_native` only. -/
def TypeId.pointScalar : TypeId → Bool
  | bool | int8 | int16 | int32 | int64 | uint8 | uint16 | uint32 | uint64 | float32 | float64
  | timestampNanos | date32 | bytes => true
  | _ => false

structure ColumnDef where
  id : Nat
  ty : TypeId
  deriving DecidableEq, Repr

inductive Value (F : Type) where
  | null
  | bool (b : Bool)
  | int64 (n : Int)
  | float64 (x : F)
  | bytes (b : List UInt8)
  | json (text : List UInt8)
  deriving DecidableEq, Repr

structure Row (F : Type) where
  rowId : Nat
  committedEpoch : Nat
  columns : List (Nat × Value F)
  deleted : Bool
  commitTs : Option HlcTimestamp
  deriving DecidableEq, Repr

variable {F : Type}

/-- What the typed page decoder hands out for a stored value: JSON text comes back as bytes. -/
def TypeId.nativeValue : TypeId → Value F → Value F
  | json, .json text => .bytes text
  | _, v => v

def Row.stamp (r : Row F) : Stamp := ⟨r.committedEpoch, r.commitTs⟩

/-- The value stored under a column id, if the row has one. -/
def Row.get (r : Row F) (id : Nat) : Option (Value F) := r.columns.lookup id

/-! ## Time to live -/

structure TtlPolicy where
  columnId : Nat
  durationNanos : Nat
  deriving DecidableEq, Repr

/-- `i64::saturating_add` of a non-negative amount. -/
def saturatingAdd (timestamp : Int) (duration : Nat) : Int := min (timestamp + duration)
    (2 ^ 63 - 1)

/-- The row's TTL column holds a timestamp and the policy's duration has passed since. -/
def rowExpiredAt (ttl : Option TtlPolicy) (row : Row F) (nowNanos : Int) : Bool :=
  match ttl with
  | none => false
  | some policy =>
    match row.get policy.columnId with
    | some (.int64 timestamp) => decide (saturatingAdd timestamp policy.durationNanos ≤ nowNanos)
    | _ => false

end MongrelDB.Storage
