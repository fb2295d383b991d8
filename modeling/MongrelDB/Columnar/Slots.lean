import MongrelDB.Columnar.Page

/-!
# Fixed-width payloads

The types with one slot a row.
-/

namespace MongrelDB.Columnar

open Lib List

variable {M : Type}

/-- One slot of `nullWidth` bytes for each row. -/
def TypeId.isFixed : TypeId → Bool
  | .int64 | .timestampNanos | .date64 | .time64 | .float64 | .bool | .int32 | .uint32 | .date32
  | .uuid | .embedding _ | .decimal128 _ _ | .interval => true
  | _ => false

/-! ## Reading slots -/

/-- The `d` components in the bytes of a vector. -/
def floatsOf (d : Nat) (b : Bytes) : List (BitVec 32) :=
  (List.range d).map fun i => ofBits false 32 ((b.drop (i * 4)).take 4)

/-- What the decoder makes of a slot. -/
def readSlot (ty : TypeId) (le : Bool) (b : Bytes) : Value M :=
  match ty with
  | .int64 | .timestampNanos | .date64 | .time64 => .int64 (ofBits le 64 b)
  | .float64 => .float64 (ofBits le 64 b)
  | .bool => .bool (decide (b.headD 0 ≠ 0))
  | .int32 | .uint32 | .date32 => .int64 ((ofBits le 32 b).signExtend 64)
  | .uuid => .uuid (ofBits false 128 b)
  | .embedding dim => .embedding (floatsOf dim.toNat b)
  | .decimal128 _ _ => .decimal (ofBits false 128 b)
  | .interval =>
    .interval (ofBits false 64 (b.take 8)) (ofBits false 32 ((b.drop 8).take 4))
      (ofBits false 64 (b.drop 12))
  | _ => .null

theorem floatsOf_succ (d : Nat) (b : Bytes) :
    floatsOf (d + 1) b = ofBits false 32 (b.take 4) :: floatsOf d (b.drop 4) := by
  rw [floatsOf, range_succ_eq_map, map_cons, map_map, floatsOf]
  congr 1
  refine map_congr_left fun i _ => ?_
  show ofBits false 32 ((b.drop ((i + 1) * 4)).take 4) = _
  rw [drop_drop, Nat.succ_mul, Nat.add_comm]

theorem floatsOf_take (d : Nat) (b : Bytes) : floatsOf d (b.take (d * 4)) = floatsOf d b := by
  refine map_congr_left fun i hi => ?_
  have hi : i < d := mem_range.mp hi
  rw [drop_take, take_take, Nat.min_eq_left (by omega)]

theorem takeFloats_eq (payload : Bytes) (d cur : Nat) (hcur : cur ≤ payload.length) :
    (takeFloats payload d cur : Except (MongrelError M) _) =
      if payload.length < cur + d * 4 then .error (.invalidArgument "payload truncated")
      else .ok (floatsOf d (payload.drop cur), cur + d * 4) := by
  induction d generalizing cur with
  | zero =>
    rw [takeFloats, if_neg (by omega), Nat.zero_mul]
    rfl
  | succ d ih =>
    rw [takeFloats]
    by_cases h4 : payload.length < cur + 4
    · rw [if_pos h4, if_pos (by omega)]
    · rw [if_neg h4, ih (cur + 4) (by omega)]
      by_cases h : payload.length < cur + 4 + d * 4
      · rw [if_pos h, if_pos (by omega)]
      · rw [if_neg h, if_neg (by omega), floatsOf_succ, drop_drop]
        simp only [Except.ok.injEq, Prod.mk.injEq, true_and]
        omega

theorem decodeValue_fixed {ty : TypeId} (hty : ty.isFixed = true) {payload : Bytes} {cur : Nat}
    (hcur : cur ≤ payload.length) (n : Nat) (le : Bool) (i : Nat) :
    (decodeValue ty payload n le i cur : Except (MongrelError M) _) =
      takeSlot payload cur (nullWidth ty) (readSlot ty le) := by
  cases ty with
  | embedding dim =>
    rw [decodeValue, takeFloats_eq payload dim.toNat cur hcur, takeSlot, nullWidth]
    by_cases h : payload.length < cur + dim.toNat * 4
    · rw [if_pos h, if_pos h]
    · rw [if_neg h, if_neg h]
      simp only [readSlot, floatsOf_take]
  | _ => first | rfl | exact absurd hty (by simp [TypeId.isFixed])

/-- Row `i`, with its slot at `cur`. -/
def rowAt (ty : TypeId) (validity payload : Bytes) (le : Bool) (i cur : Nat) : Value M :=
  if bitAt validity i then readSlot ty le ((payload.drop cur).take (nullWidth ty)) else .null

section Rows

variable {ty : TypeId} {validity payload : Bytes} {n : Nat} {le : Bool}

theorem decodeRow_fixed (hty : ty.isFixed = true) (i : Nat) {cur : Nat}
    (h : cur + nullWidth ty ≤ payload.length) :
    (decodeRow ty validity payload n le i cur : Except (MongrelError M) _) =
      .ok (rowAt ty validity payload le i cur, cur + nullWidth ty) := by
  rw [decodeRow, rowAt]
  split
  next =>
    rw [decodeValue_fixed hty (by omega), takeSlot, if_neg (by omega)]
  next =>
    rw [advanceNull, if_neg (by omega)]

theorem decodeRows_fixed (hty : ty.isFixed = true) (count i cur : Nat)
    (h : cur + count * nullWidth ty ≤ payload.length) :
    (decodeRows ty validity payload n le count i cur : Except (MongrelError M) _) =
      .ok ((List.range count).map fun k =>
          rowAt ty validity payload le (i + k) (cur + k * nullWidth ty),
        cur + count * nullWidth ty) := by
  induction count generalizing i cur with
  | zero => simp [decodeRows]
  | succ count ih =>
    rw [Nat.succ_mul] at h
    have hrow : (decodeRow ty validity payload n le i cur : Except (MongrelError M) _) =
        .ok (rowAt ty validity payload le i cur, cur + nullWidth ty) :=
      decodeRow_fixed hty i (by omega)
    have hrest := ih (i + 1) (cur + nullWidth ty) (by omega)
    rw [decodeRows, hrow]
    simp only [hrest]
    rw [range_succ_eq_map, map_cons, map_map]
    simp only [Except.ok.injEq, Prod.mk.injEq, List.cons.injEq]
    refine ⟨⟨by simp, map_congr_left fun k _ => ?_⟩, by rw [Nat.succ_mul]; omega⟩
    show _ = rowAt ty validity payload le (i + (k + 1)) (cur + (k + 1) * nullWidth ty)
    rw [Nat.succ_mul, show i + 1 + k = i + (k + 1) by omega,
      show cur + nullWidth ty + k * nullWidth ty = cur + (k * nullWidth ty + nullWidth ty) by omega]

end Rows

/-! ## Slots that were written -/

theorem ofBits_beBits {w k : Nat} (h : 256 ^ k = 2 ^ w) (x : BitVec w) :
    ofBits false w (beBits k x) = x := by
  have hx : x.toNat < 256 ^ k := h ▸ x.isLt
  rw [ofBits, beBits, if_neg (by simp), beValue_beBytes_of_lt hx, BitVec.ofNat_toNat,
    BitVec.setWidth_eq]

@[simp] theorem length_beBits {w : Nat} (k : Nat) (x : BitVec w) : (beBits k x).length = k :=
  length_beBytes k _

theorem floatsOf_flatMap (vector : List (BitVec 32)) :
    floatsOf vector.length (vector.flatMap fun x => beBits 4 x) = vector := by
  induction vector with
  | nil => rfl
  | cons x xs ih =>
    rw [length_cons, floatsOf_succ, flatMap_cons, take_left' (length_beBits 4 x),
      drop_left' (length_beBits 4 x), ih, ofBits_beBits (by norm_num)]

/-- The slot encoder of each fixed-width type. -/
def slotOf (ty : TypeId) : Value M → Except (MongrelError M) Bytes :=
  match ty with
  | .int64 | .timestampNanos | .date64 | .time64 => int64Slot ty
  | .float64 => float64Slot ty
  | .interval => intervalSlot ty
  | .bool => boolSlot ty
  | .int32 | .uint32 | .date32 => int32Slot ty
  | .uuid => uuidSlot ty
  | .embedding dim => embeddingSlot dim
  | .decimal128 _ _ => decimalSlot ty
  | _ => fun v => .error (typeMismatch ty v)

/-- A value as it comes back from its slot or its place in the data section: 32-bit columns keep
the low half of the number, with its sign; embeddings lose their metadata; whatever a row of a
bytes column holds comes back as bytes. -/
def reread (ty : TypeId) (v : Value M) : Value M :=
  if v.isNull then .null
  else
    match ty, v with
    | .int32, .int64 x | .uint32, .int64 x | .date32, .int64 x =>
      .int64 ((x.setWidth 32).signExtend 64)
    | .embedding _, .generatedEmbedding vector _ => .embedding vector
    | .bytes, v | .enum _, v => .bytes v.rawBytes
    | .json, v => .json v.rawBytes
    | _, v => v

theorem reread_of_isNull (ty : TypeId) {v : Value M} (h : v.isNull = true) :
    reread ty v = .null := if_pos h

theorem slotOf_spec {ty : TypeId} (hty : ty.isFixed = true) {v : Value M} {slot : Bytes}
    (h : slotOf ty v = .ok slot) :
    slot.length = nullWidth ty ∧ (v.isNull = false → readSlot ty false slot = reread ty v) := by
  have hzero : ∀ w, (zeros w).length = w := fun w => length_replicate
  have hword : ∀ x : BitVec 64, ofBits false 64 (beBits 8 x) = x := ofBits_beBits (by norm_num)
  have hhalf : ∀ x : BitVec 32, ofBits false 32 (beBits 4 x) = x := ofBits_beBits (by norm_num)
  have hwide : ∀ x : BitVec 128, ofBits false 128 (beBits 16 x) = x := ofBits_beBits (by norm_num)
  cases ty with
  | int64 | timestampNanos | date64 | time64 | float64 | int32 | uint32 | date32 | uuid
  | decimal128 =>
    -- one number, in big-endian bytes
    cases v <;> simp only [slotOf, int64Slot, float64Slot, int32Slot, uuidSlot, decimalSlot,
      Except.ok.injEq, reduceCtorEq] at h
    all_goals subst h
    case null => exact ⟨hzero _, nofun⟩
    all_goals
      exact ⟨length_beBits _ _, fun _ => by
        simp [readSlot, reread, Value.isNull, hword, hhalf, hwide]⟩
  | bool =>
    cases v <;> simp only [slotOf, boolSlot, Except.ok.injEq, reduceCtorEq] at h
    all_goals subst h
    case null => exact ⟨hzero 1, nofun⟩
    case bool b => exact ⟨rfl, fun _ => by cases b <;> rfl⟩
  | interval =>
    cases v <;> simp only [slotOf, intervalSlot, Except.ok.injEq, reduceCtorEq] at h
    all_goals subst h
    case null => exact ⟨hzero 20, nofun⟩
    case interval months days nanos =>
      refine ⟨by simp [nullWidth], fun _ => ?_⟩
      have htail : (beBits 8 months ++ (beBits 4 days ++ beBits 8 nanos)).drop 12 =
          beBits 8 nanos := by
        rw [← append_assoc, drop_left' (by simp)]
      simp only [readSlot, reread, Value.isNull, htail, take_left' (length_beBits 8 months),
        drop_left' (length_beBits 8 months), take_left' (length_beBits 4 days), hword,
        hhalf]
      rfl
  | embedding dim =>
    simp only [slotOf, embeddingSlot] at h
    cases v with
    | null =>
      obtain rfl : zeros (dim.toNat * 4) = slot := by
        simpa [Value.asEmbedding, Value.isNull] using h
      exact ⟨hzero _, nofun⟩
    | embedding vector | generatedEmbedding vector metadata =>
      simp only [Value.asEmbedding] at h
      split at h
      next => exact absurd h (by simp)
      next hdim =>
        have hdim : vector.length = dim.toNat := by simpa using hdim
        obtain rfl : (vector.flatMap fun x => beBits 4 x) = slot := by simpa using h
        refine ⟨?_, fun _ => ?_⟩
        · rw [length_flatMap_of_length fun x _ => length_beBits 4 x, hdim]
          rfl
        · simp only [readSlot, ← hdim, floatsOf_flatMap]
          rfl
    | _ => simp [Value.asEmbedding, Value.isNull] at h
  | _ => cases hty

/-- The slot of a value that has one. -/
def slotBytes (enc : Value M → Except (MongrelError M) Bytes) (v : Value M) : Bytes :=
  (enc v).toOption.getD []

variable {values : List (Value M)}

theorem fixedEncode_ok {enc : Value M → Except (MongrelError M) Bytes}
    {bs : Bytes} (h : fixedEncode enc values = .ok bs) :
    (∀ v ∈ values, enc v = .ok (slotBytes enc v)) ∧ bs = values.flatMap (slotBytes enc) := by
  induction values generalizing bs with
  | nil =>
    obtain rfl : [] = bs := by simpa [fixedEncode] using h
    exact ⟨fun v hv => absurd hv not_mem_nil, rfl⟩
  | cons v vs ih =>
    rw [fixedEncode] at h
    cases hv : enc v with
    | error e => simp [hv] at h
    | ok slot =>
      cases hvs : fixedEncode enc vs with
      | error e => simp [hv, hvs] at h
      | ok rest =>
        have hslot : slotBytes enc v = slot := by rw [slotBytes, hv]; rfl
        obtain ⟨hall, rfl⟩ := ih hvs
        obtain rfl : slot ++ vs.flatMap (slotBytes enc) = bs := by simpa [hv, hvs] using h
        exact ⟨forall_mem_cons.mpr ⟨by rw [hv, hslot], hall⟩, by rw [flatMap_cons, hslot]⟩

theorem bitAt_validityBitmap {i : Nat} {v : Value M}
    (h : values[i]? = some v) : bitAt (validityBitmap values) i = !v.isNull := by
  rw [validityBitmap, bitAt_packBits, getD_eq_getElem?_getD, getElem?_map, h]
  rfl

theorem decodeRows_fixedEncode {ty : TypeId} (hty : ty.isFixed = true)
    {bs : Bytes} (h : fixedEncode (slotOf ty) values = .ok bs) (trailer : Bytes) (n : Nat) :
    bs.length = values.length * nullWidth ty ∧
    decodeRows ty (validityBitmap values) (bs ++ trailer) n false values.length 0 0 =
      .ok (values.map (reread ty), values.length * nullWidth ty) := by
  obtain ⟨hslots, rfl⟩ := fixedEncode_ok h
  have hwidth : ∀ v ∈ values, (slotBytes (slotOf ty) v).length = nullWidth ty :=
    fun v hv => (slotOf_spec hty (hslots v hv)).1
  have hlen := length_flatMap_of_length hwidth
  refine ⟨hlen, ?_⟩
  rw [decodeRows_fixed hty _ 0 0 (by rw [length_append, hlen]; omega), Nat.zero_add]
  simp only [Except.ok.injEq, Prod.mk.injEq, and_true]
  refine ext_getElem (by simp) fun i h1 h2 => ?_
  have hi : i < values.length := by simpa using h1
  have hget : values[i]? = some values[i] := getElem?_eq_getElem hi
  have hmem : values[i] ∈ values := getElem_mem hi
  rw [getElem_map, getElem_map, getElem_range, Nat.zero_add, Nat.zero_add, rowAt,
    bitAt_validityBitmap hget, take_drop_flatMap hwidth hget]
  cases hnull : values[i].isNull with
  | true => simp [reread, hnull]
  | false => simpa using (slotOf_spec hty (hslots _ hmem)).2 hnull

end MongrelDB.Columnar
