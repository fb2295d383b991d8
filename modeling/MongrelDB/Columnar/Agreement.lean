import MongrelDB.Columnar.Native
import MongrelDB.Columnar.RoundTrip

/-!
# The two readers

`decode_page` and `decode_page_native` with `value_at` on the same page.
-/

namespace MongrelDB.Columnar

open Lib List

variable {M : Type}

/-- Both readers yield the same list. -/
def Agree (c : Codecs M) (ty : TypeId) (page : Bytes) (n : Nat) : Prop :=
  ∃ vs, decodePage c ty page n = .ok vs ∧ decodePageNativeValues c ty page n = .ok vs

/-! ## Below the compression -/

/-- The `Value` reader on the content of a page. -/
def decodeContent (c : Codecs M) (ty : TypeId) (algo : Algo) (content : Bytes) (n : Nat)
    (le : Bool) : Except (MongrelError M) (List (Value M)) :=
  if algo.isPlain then decodeColumn c ty content n le
  else if algo.isDict then dictDecodeBytes content n
  else decodeInt64DeltaValues content ty n le

/-- The typed reader on the content of a page. -/
def decodeContentNative (ty : TypeId) (algo : Algo) (content : Bytes) (n : Nat) (le : Bool) :
    Except (MongrelError M) NativeColumn :=
  if algo.isDict then decodeDictNative ty content n
  else if algo.isDelta then decodeDeltaNative ty content n le
  else decodePlainNative ty content n le

/-- The typed column the content decodes to reads as `vs`. -/
def ReadsAs (col : Except (MongrelError M) NativeColumn) (n : Nat) (vs : List (Value M)) : Prop :=
  ∃ column, col = .ok column ∧ column.valuesFrom n 0 = .ok vs

def AgreeContent (c : Codecs M) (ty : TypeId) (algo : Algo) (content : Bytes) (n : Nat)
    (le : Bool) : Prop :=
  ∃ vs, decodeContent c ty algo content n le = .ok vs ∧
    ReadsAs (decodeContentNative ty algo content n le) n vs

theorem agree_iff_content {c : Codecs M} {ty : TypeId} {algo : Algo} {body content : Bytes}
    {n : Nat} {le : Bool}
    (h : decompress c algo body (maxDecompressedBytes ty n algo) = .ok content) :
    Agree c ty (algoWithLe algo le :: body) n ↔ AgreeContent c ty algo content n le := by
  have hvalue : decodePage c ty (algoWithLe algo le :: body) n =
      decodeContent c ty algo content n le := by
    simp only [decodePage, algoBase_algoWithLe, algoLe_algoWithLe, h, decodeContent]
  have hnative : decodePageNative c ty (algoWithLe algo le :: body) n =
      decodeContentNative ty algo content n le := by
    simp only [decodePageNative, algoBase_algoWithLe, algoLe_algoWithLe, h, decodeContentNative]
  simp only [Agree, AgreeContent, hvalue, decodePageNativeValues, hnative, ReadsAs]
  cases decodeContentNative (M := M) ty algo content n le with
  | error e => simp
  | ok column => simp

theorem not_agree_of_error {c : Codecs M} {ty : TypeId} {algo : Algo} {body : Bytes} {n : Nat}
    {le : Bool} {e : MongrelError M}
    (h : decompress c algo body (maxDecompressedBytes ty n algo) = .error e) :
    ¬ Agree c ty (algoWithLe algo le :: body) n := by
  rintro ⟨vs, hvs, -⟩
  simp [decodePage, algoBase_algoWithLe, h] at hvs

/-! ## Loops over rows -/

variable {col : NativeColumn}

theorem valuesFrom_ok {g : Nat → Option (Value M)} (count i : Nat)
    (h : ∀ k, i ≤ k → k < i + count → col.valueAt k = .ok (g k)) :
    col.valuesFrom count i = .ok ((List.range' i count).map fun k => (g k).getD .null) := by
  induction count generalizing i with
  | zero => rfl
  | succ count ih =>
    have hrest := ih (i + 1) fun k h1 h2 => h k (by omega) (by omega)
    rw [NativeColumn.valuesFrom, h i (Nat.le_refl i) (by omega)]
    simp only [hrest, range'_succ, map_cons]

theorem exists_valuesFrom_error {count i k : Nat} (h1 : i ≤ k)
    (h2 : k < i + count) {e : MongrelError M} (h : col.valueAt k = .error e) :
    ∃ e', (col.valuesFrom count i : Except (MongrelError M) _) = .error e' := by
  induction count generalizing i with
  | zero => omega
  | succ count ih =>
    rw [NativeColumn.valuesFrom]
    cases hi : (col.valueAt i : Except (MongrelError M) _) with
    | error e' => exact ⟨e', rfl⟩
    | ok v =>
      have hne : i ≠ k := by
        rintro rfl
        rw [h] at hi
        exact absurd hi (by simp)
      obtain ⟨e', he'⟩ := ih (i := i + 1) (by omega) (by omega)
      exact ⟨e', by simp only [he']⟩

theorem splitValidity_withValidity {validity : Bytes} (h : validity.length < 2 ^ 32)
    (payload : Bytes) :
    (splitValidity (withValidity validity payload) : Except (MongrelError M) _) =
      .ok (validity, payload) := by
  obtain ⟨hlen, hvalidity, hpayload⟩ := parts_withValidity h payload
  have hsize := length_withValidity validity payload
  rw [splitValidity, if_neg (by omega), hlen, if_neg (by omega), hvalidity, hpayload]

/-! ## Numbers and flags -/

/-- The types whose plain pages are numbers or flags in both readers. -/
def TypeId.isNativeFixed : TypeId → Bool
  | .int64 | .timestampNanos | .date64 | .time64 | .float64 | .bool => true
  | _ => false

/-- The words of a payload of `n` of them. -/
def wordsOf (le : Bool) (p : Bytes) (n : Nat) : List (BitVec 64) :=
  (List.range n).map fun i => ofBits le 64 ((p.drop (i * 8)).take 8)

theorem getElem?_wordsOf {le : Bool} {p : Bytes} {n k : Nat} (hk : k < n) :
    (wordsOf le p n)[k]? = some (ofBits le 64 ((p.drop (k * 8)).take 8)) := by
  simp [wordsOf, getElem?_range hk]

theorem takeWords_ok {le : Bool} {p : Bytes} {n : Nat} (h : n * 8 ≤ p.length) (message : String) :
    (takeWords message le p n : Except (MongrelError M) _) = .ok (wordsOf le p n) := by
  rw [takeWords, position_of_le h, if_neg (by omega), Nat.mul_div_cancel n (by omega)]
  rfl

/-- The column the typed reader makes of a plain page of numbers or flags. -/
def fixedColumn (ty : TypeId) (validity p : Bytes) (n : Nat) (le : Bool) : NativeColumn :=
  match ty with
  | .float64 => .float64 (wordsOf le p n) validity
  | .bool => .bool (p.take n) validity
  | _ => .int64 (wordsOf le p n) validity

theorem valueAt_fixedColumn {ty : TypeId} (hty : ty.isNativeFixed = true) {validity p : Bytes}
    {n : Nat} {le : Bool} (hlen : n * nullWidth ty ≤ p.length) {k : Nat} (hk : k < n) :
    (fixedColumn ty validity p n le).valueAt k = (.ok
      (if bitAt validity k then some (readSlot ty le
        ((p.drop (k * nullWidth ty)).take (nullWidth ty)))
      else none) : Except (MongrelError M) _) := by
  cases ty with
  | bool =>
    have hlen' : n ≤ p.length := by simpa [nullWidth] using hlen
    have hget : (p.take n)[k]? = some p[k] := by
      rw [getElem?_take_of_lt hk, getElem?_eq_getElem]
    have hslot : ((p.drop (k * 1)).take 1).headD 0 = p[k] := by
      rw [Nat.mul_one, drop_eq_getElem_cons (by omega)]
      rfl
    simp only [fixedColumn, NativeColumn.valueAt, NativeColumn.validity, hget, Option.map_some,
      nullWidth, readSlot, hslot]
    cases bitAt validity k <;> rfl
  | int64 | timestampNanos | date64 | time64 | float64 =>
    simp only [fixedColumn, NativeColumn.valueAt, NativeColumn.validity, getElem?_wordsOf hk,
      Option.map_some, nullWidth, readSlot]
    cases bitAt validity k <;> rfl
  | _ => cases hty

theorem agreeContent_fixed {c : Codecs M} {ty : TypeId} (hty : ty.isNativeFixed = true)
    {algo : Algo} (halgo : algo.isPlain = true) {validity p : Bytes}
    (hvalidity : validity.length < 2 ^ 32) {n : Nat} (hlen : n * nullWidth ty ≤ p.length)
    (le : Bool) : AgreeContent c ty algo (withValidity validity p) n le := by
  have hfixed : ty.isFixed = true := by
    cases ty <;> first | (cases hty; done) | rfl
  have hother : algo.isDict = false ∧ algo.isDelta = false := by
    cases algo <;> first | (cases halgo; done) | exact ⟨rfl, rfl⟩
  have hcolumn : (decodePlainNative ty (withValidity validity p) n le :
      Except (MongrelError M) _) = .ok (fixedColumn ty validity p n le) := by
    have hsplit := splitValidity_withValidity (M := M) hvalidity p
    cases ty with
    | bool =>
      have hlen' : ¬ p.length < n := by simpa [nullWidth] using hlen
      simp only [decodePlainNative, hsplit, if_neg hlen', fixedColumn]
    | int64 | timestampNanos | date64 | time64 | float64 =>
      have hlen' : n * 8 ≤ p.length := hlen
      simp only [decodePlainNative, hsplit, takeI64, takeU64, takeWords_ok hlen', fixedColumn]
    | _ => cases hty
  have hrows : (decodeRows ty validity p n le n 0 0 : Except (MongrelError M) _) = _ :=
    decodeRows_fixed hfixed n 0 0 (show 0 + n * nullWidth ty ≤ p.length by omega)
  have hvalue : decodePayload c ty validity p n le = .ok ((List.range n).map fun k =>
      rowAt ty validity p le (0 + k) (0 + k * nullWidth ty)) := by
    rw [decodePayload, hrows]
    cases ty <;> first | (cases hty; done) | rfl
  refine ⟨(List.range n).map fun k => rowAt ty validity p le (0 + k) (0 + k * nullWidth ty),
    ?_, fixedColumn ty validity p n le, ?_, ?_⟩
  · rw [decodeContent, if_pos halgo, decodeColumn_withValidity c ty hvalidity, hvalue]
  · simp only [decodeContentNative, hother, Bool.false_eq_true, if_false, hcolumn]
  · rw [valuesFrom_ok n 0 fun k _ hk => valueAt_fixedColumn hty hlen (by omega)]
    rw [range_eq_range']
    refine congrArg Except.ok (map_congr_left fun k _ => ?_)
    rw [Nat.zero_add, Nat.zero_add, rowAt]
    cases bitAt validity k <;> rfl

/-! ## Delta pages -/

theorem length_deltaPrefixSum (acc : BitVec 64) (ds : List (BitVec 64)) :
    (deltaPrefixSum acc ds).length = ds.length := by
  induction ds generalizing acc with
  | nil => rfl
  | cons d ds ih => simp [deltaPrefixSum, ih]

theorem agreeContent_delta {c : Codecs M} {ty : TypeId}
    (hty : ty = .int64 ∨ ty = .timestampNanos) {algo : Algo} (halgo : algo.isDelta = true)
    {validity p : Bytes} (hvalidity : validity.length < 2 ^ 32) {n : Nat} (hlen : n * 8 ≤ p.length)
    (le : Bool) : AgreeContent c ty algo (withValidity validity p) n le := by
  have hother : algo.isDict = false ∧ algo.isPlain = false := by
    cases algo <;> first | (cases halgo; done) | exact ⟨rfl, rfl⟩
  have hsplit := splitValidity_withValidity (M := M) hvalidity p
  set sums := deltaPrefixSum 0 (wordsOf le p n) with hsums
  have hcount : sums.length = n := by
    rw [hsums, length_deltaPrefixSum, wordsOf, length_map, length_range]
  have hvalue : (decodeInt64DeltaValues (withValidity validity p) ty n le :
      Except (MongrelError M) _) = .ok (sums.zipIdx.map fun x =>
        if bitAt validity x.2 then .int64 x.1 else .null) := by
    rcases hty with rfl | rfl <;>
      simp only [decodeInt64DeltaValues, hsplit, takeI64, takeWords_ok hlen, hsums]
  have hcolumn : (decodeDeltaNative ty (withValidity validity p) n le :
      Except (MongrelError M) _) = .ok (.int64 sums validity) := by
    rcases hty with rfl | rfl <;>
      simp only [decodeDeltaNative, hsplit, takeI64, takeWords_ok hlen, hsums]
  refine ⟨sums.zipIdx.map fun x => if bitAt validity x.2 then .int64 x.1 else .null, ?_,
    .int64 sums validity, ?_, ?_⟩
  · simp only [decodeContent, hother, Bool.false_eq_true, if_false, hvalue]
  · simp only [decodeContentNative, hother, Bool.false_eq_true, if_false, halgo, if_true, hcolumn]
  · have hat : ∀ k, (0 : Nat) ≤ k → k < 0 + n →
        (NativeColumn.int64 sums validity).valueAt k = (.ok (if bitAt validity k then
          sums[k]?.map .int64 else none) : Except (MongrelError M) _) := by
      intro k _ _
      by_cases hbit : bitAt validity k = true <;>
        simp [NativeColumn.valueAt, NativeColumn.validity, hbit]
    rw [valuesFrom_ok n 0 hat]
    refine congrArg Except.ok (ext_getElem (by simp [hcount]) fun k h1 h2 => ?_)
    have hk : k < sums.length := by simpa [hcount] using h1
    simp only [getElem_map, getElem_range', getElem_zipIdx, Nat.zero_add, Nat.one_mul]
    cases bitAt validity k with
    | false => rfl
    | true => simp [getElem?_eq_getElem hk]

/-! ## Bytes behind a table of offsets -/

/-- Entry `i` of the table of offsets. -/
def wordAt (le : Bool) (p : Bytes) (i : Nat) : Nat := (ofBits le 64 ((p.drop (i * 8)).take 8)).toNat

/-- The offsets of row `i` bound a part of the data. -/
def RowInRange (le : Bool) (p : Bytes) (n i : Nat) : Prop :=
  wordAt le p i ≤ wordAt le p (i + 1) ∧ wordAt le p (i + 1) ≤ (p.drop ((n + 1) * 8)).length

/-- The bytes the offsets of row `i` bound. -/
def rowBytes (le : Bool) (p : Bytes) (n i : Nat) : Bytes :=
  ((p.drop ((n + 1) * 8)).take (wordAt le p (i + 1))).drop (wordAt le p i)

section

variable {le : Bool} {p : Bytes}

theorem slice_of_rowInRange {n i : Nat} (h : RowInRange le p n i) :
    (slice (p.drop ((n + 1) * 8)) (wordAt le p i) (wordAt le p (i + 1)) :
      Except (MongrelError M) _) = .ok (rowBytes le p n i) := by
  obtain ⟨h1, h2⟩ := h
  exact if_neg (by omega)

theorem slice_of_not_rowInRange {n i : Nat} (h : ¬ RowInRange le p n i) :
    (slice (p.drop ((n + 1) * 8)) (wordAt le p i) (wordAt le p (i + 1)) :
      Except (MongrelError M) _) = .error .panic := by
  refine if_pos ?_
  by_contra hcon
  exact h ⟨by omega, by omega⟩

theorem readOff_eq {i : Nat} (h : i * 8 + 8 ≤ p.length) :
    (readOff p i le : Except (MongrelError M) _) = .ok (wordAt le p i) := by
  rw [readOff, position_of_le (by omega)]
  exact if_neg (by omega)

/-- The `Value` reader takes its rows from the part after the table as well. -/
theorem decodeBytesRow_eq {n i : Nat} (hlen : (n + 1) * 8 ≤ p.length) (hi : i < n)
    (h : RowInRange le p n i) :
    (decodeBytesRow p n le i : Except (MongrelError M) _) = .ok (rowBytes le p n i) := by
  have htable : (p.take ((n + 1) * 8)).length = (n + 1) * 8 := by
    rw [length_take]
    omega
  have hend := h.2
  rw [length_drop] at hend
  have hslice := slice_append_right (M := M) (p.take ((n + 1) * 8)) (p.drop ((n + 1) * 8))
    (wordAt le p i) (wordAt le p (i + 1))
  rw [take_append_drop, htable] at hslice
  rw [decodeBytesRow_of_readOff (readOff_eq (by omega)) (readOff_eq (by omega)) h.1 (by omega),
    hslice, slice_of_rowInRange h]

end

/-- The column the typed reader makes of the same payload. -/
def bytesColumn (le : Bool) (validity p : Bytes) (n : Nat) : NativeColumn :=
  .bytes ((wordsOf le p (n + 1)).map fun o => UInt32.ofNat o.toNat) (p.drop ((n + 1) * 8)) validity

theorem toNat_ofNat_of_lt {x : Nat} (h : x < 2 ^ 32) : (UInt32.ofNat x).toNat = x := by
  rw [UInt32.toNat_ofNat']
  exact Nat.mod_eq_of_lt h

section BytesColumn

variable {le : Bool} {validity p : Bytes} {n i : Nat}

variable (hi : i < n) (hoff : wordAt le p i < 2 ^ 32 ∧ wordAt le p (i + 1) < 2 ^ 32)
include hi hoff

theorem getElem?_bytesColumn :
    ∃ lo hi, ((wordsOf le p (n + 1)).map fun o => UInt32.ofNat o.toNat)[i]? = some lo ∧
      ((wordsOf le p (n + 1)).map fun o => UInt32.ofNat o.toNat)[i + 1]? = some hi ∧
      lo.toNat = wordAt le p i ∧ hi.toNat = wordAt le p (i + 1) := by
  refine ⟨_, _, ?_, ?_, toNat_ofNat_of_lt hoff.1, toNat_ofNat_of_lt hoff.2⟩
  · rw [getElem?_map, getElem?_wordsOf (by omega)]
    rfl
  · rw [getElem?_map, getElem?_wordsOf (by omega)]
    rfl

theorem valueAt_bytesColumn (hbit : bitAt validity i = true) (h : RowInRange le p n i) :
    (bytesColumn le validity p n).valueAt i =
      (.ok (some (.bytes (rowBytes le p n i))) : Except (MongrelError M) _) := by
  obtain ⟨lo, hi, hlo, hhi, h1, h2⟩ := getElem?_bytesColumn hi hoff
  simp only [NativeColumn.valueAt, bytesColumn, NativeColumn.validity, hbit, Bool.not_true,
    Bool.false_eq_true, if_false, hlo, hhi, h1, h2, slice_of_rowInRange (M := M) h]

theorem valueAt_bytesColumn_error (hbit : bitAt validity i = true) (h : ¬ RowInRange le p n i) :
    (bytesColumn le validity p n).valueAt i = (.error .panic : Except (MongrelError M) _) := by
  obtain ⟨lo, hi, hlo, hhi, h1, h2⟩ := getElem?_bytesColumn hi hoff
  simp only [NativeColumn.valueAt, bytesColumn, NativeColumn.validity, hbit, Bool.not_true,
    Bool.false_eq_true, if_false, hlo, hhi, h1, h2, slice_of_not_rowInRange (M := M) h]

end BytesColumn

theorem valueAt_of_null {i : Nat} (h : bitAt col.validity i = false) :
    (col.valueAt i : Except (MongrelError M) _) = .ok none := by
  cases col <;> simp_all [NativeColumn.valueAt, NativeColumn.validity]

/-- What a variable-length type makes of the bytes of a row. -/
def ofRowBytes (ty : TypeId) (b : Bytes) : Value M :=
  match ty with
  | .json => .json b
  | _ => .bytes b

theorem ofRowBytes_of_ne {ty : TypeId} (h : ty ≠ .json) (b : Bytes) :
    (ofRowBytes ty b : Value M) = .bytes b := by
  cases ty <;> first | rfl | exact absurd rfl h

section VarBytes

variable {c : Codecs M} {ty : TypeId} {algo : Algo} {validity p : Bytes} {n : Nat} {le : Bool}

theorem decodeRow_varBytes (hty : ty.isVarBytes = true) (hlen : (n + 1) * 8 ≤ p.length)
    (hrows : ∀ i < n, bitAt validity i = true → RowInRange le p n i) {i : Nat} (hi : i < n) :
    decodeRow ty validity p n le i 0 = (.ok (if bitAt validity i then
      ofRowBytes ty (rowBytes le p n i) else .null, 0) : Except (MongrelError M) _) := by
  rw [decodeRow]
  by_cases hbit : bitAt validity i = true
  · have hrow : (decodeBytesRow p n le i : Except (MongrelError M) _) =
      .ok (rowBytes le p n i) := by
      rw [decodeBytesRow_eq hlen hi (hrows i hi hbit)]
    rw [if_pos hbit, if_pos hbit]
    cases ty with
    | bytes | json | enum _ => simp [decodeValue, hrow, ofRowBytes]
    | _ => cases hty
  · have hnull : nullWidth ty = 0 := by
      cases ty <;> first | (cases hty; done) | rfl
    rw [if_neg hbit, if_neg hbit, advanceNull, hnull, if_neg (by omega)]

variable (hty : ty.isVarBytes = true) (halgo : algo.isPlain = true)
  (hvalidity : validity.length < 2 ^ 32)
include hty halgo hvalidity

theorem decodeContent_varBytes (hlen : (n + 1) * 8 ≤ p.length)
    (hrows : ∀ i < n, bitAt validity i = true → RowInRange le p n i) :
    decodeContent c ty algo (withValidity validity p) n le = .ok ((List.range' 0 n).map fun i =>
      if bitAt validity i then ofRowBytes ty (rowBytes le p n i) else .null) := by
  rw [decodeContent, if_pos halgo, decodeColumn_withValidity c ty hvalidity, decodePayload,
    decodeRows_of_const n 0 fun k _ hk =>
      decodeRow_varBytes hty hlen hrows (show k < n by omega)]
  cases ty <;> first | (cases hty; done) | rfl

theorem decodeContentNative_varBytes (hpos : position p ((n + 1) * 8) = (n + 1) * 8) :
    (decodeContentNative ty algo (withValidity validity p) n le : Except (MongrelError M) _) =
      if p.length < (n + 1) * 8 then .error (.invalidArgument "bytes offsets truncated")
      else .ok (bytesColumn le validity p n) := by
  have hother : algo.isDict = false ∧ algo.isDelta = false := by
    cases algo <;> first | (cases halgo; done) | exact ⟨rfl, rfl⟩
  have hplain : (decodePlainNative ty (withValidity validity p) n le : Except (MongrelError M) _) =
      decodeBytesPlainPayload (withValidity validity p) n le := by
    cases ty <;> first | (cases hty; done) | rfl
  simp only [decodeContentNative, hother, Bool.false_eq_true, if_false, hplain,
    decodeBytesPlainPayload, splitValidity_withValidity (M := M) hvalidity, hpos]
  split
  · rfl
  · next h =>
    have htake : (takeU64 le p (n + 1) : Except (MongrelError M) _) = _ :=
      takeWords_ok (Nat.le_of_not_lt h) _
    simp only [htake, bytesColumn]

/-- Two readers, one list: the offsets must bound parts of the data, and a row that is there
must not be JSON, which the typed reader hands out as bytes. -/
theorem agreeContent_varBytes_iff (hlen : (n + 1) * 8 ≤ p.length)
    (hoff : ∀ i < n, wordAt le p i < 2 ^ 32 ∧ wordAt le p (i + 1) < 2 ^ 32) :
    AgreeContent c ty algo (withValidity validity p) n le ↔
      ∀ i < n, bitAt validity i = true → RowInRange le p n i ∧ ty ≠ .json := by
  have hnative : (decodeContentNative ty algo (withValidity validity p) n le :
      Except (MongrelError M) _) = .ok (bytesColumn le validity p n) := by
    rw [decodeContentNative_varBytes hty halgo hvalidity (position_of_le hlen), if_neg (by omega)]
  -- where every row is in range both lists are known
  have hlist (hrows : ∀ i < n, bitAt validity i = true → RowInRange le p n i) :
      (bytesColumn le validity p n).valuesFrom n 0 = (.ok ((List.range' 0 n).map fun i =>
        if bitAt validity i then .bytes (rowBytes le p n i) else .null) :
          Except (MongrelError M) _) := by
    have hat : ∀ k, 0 ≤ k → k < 0 + n → (bytesColumn le validity p n).valueAt k = (.ok
        (if bitAt validity k then some (.bytes (rowBytes le p n k)) else none) :
          Except (MongrelError M) _) := by
      intro k _ hk
      by_cases hbit : bitAt validity k = true
      · rw [valueAt_bytesColumn (by omega) (hoff k (by omega)) hbit (hrows k (by omega) hbit),
          if_pos hbit]
      · have hnull : bitAt (bytesColumn le validity p n).validity k = false :=
          eq_false_of_ne_true hbit
        rw [valueAt_of_null hnull, if_neg hbit]
    rw [valuesFrom_ok n 0 hat]
    refine congrArg Except.ok (map_congr_left fun k _ => ?_)
    cases bitAt validity k <;> rfl
  constructor
  · rintro ⟨vs, hvs, col, hcol, hread⟩
    obtain rfl := Except.ok.inj (hnative.symm.trans hcol)
    have hrows : ∀ i < n, bitAt validity i = true → RowInRange le p n i := by
      intro i hi hbit
      by_contra hnot
      have herr := valueAt_bytesColumn_error (M := M) hi (hoff i hi) hbit hnot
      obtain ⟨e, he⟩ := exists_valuesFrom_error (Nat.zero_le i) (show i < 0 + n by omega) herr
      exact absurd (hread.symm.trans he) (by simp)
    intro i hi hbit
    refine ⟨hrows i hi hbit, ?_⟩
    rintro rfl
    rw [decodeContent_varBytes hty halgo hvalidity hlen hrows] at hvs
    have heq := Except.ok.inj (hvs.trans (hread.symm.trans (hlist hrows)))
    have hrow := map_inj_left.mp heq i (by simp [mem_range'_1, hi])
    simp [hbit, ofRowBytes] at hrow
  · intro h
    have hrows i hi hbit := (h i hi hbit).1
    refine ⟨_, decodeContent_varBytes hty halgo hvalidity hlen hrows, _, hnative, ?_⟩
    rw [hlist hrows]
    refine congrArg Except.ok (map_congr_left fun k hk => ?_)
    have hk' : k < n := by simpa [mem_range'_1] using hk
    by_cases hbit : bitAt validity k = true
    · rw [if_pos hbit, if_pos hbit, ofRowBytes_of_ne (h k hk' hbit).2]
    · rw [if_neg hbit, if_neg hbit]

theorem not_agreeContent_of_short (hlen : p.length < (n + 1) * 8) (hn : (n + 1) * 8 < 2 ^ 64) :
    ¬ AgreeContent c ty algo (withValidity validity p) n le := by
  rintro ⟨vs, -, col, hcol, -⟩
  rw [decodeContentNative_varBytes hty halgo hvalidity (position_of_lt hn p), if_pos hlen] at hcol
  exact absurd hcol (by simp)

end VarBytes

/-! ## Dictionaries -/

/-- Row `i` of a list of values is null where its bit is clear and bytes where it is set. -/
def RowsFit (validity : Bytes) (i : Nat) (vs : List (Value M)) : Prop :=
  ∀ k v, vs[k]? = some v →
    (bitAt validity (i + k) = true ∧ ∃ b, v = .bytes b) ∨
      (bitAt validity (i + k) = false ∧ v = .null)

variable {vs : List (Value M)}

theorem RowsFit.cons {validity : Bytes} {i : Nat} {v : Value M}
    (hv : (bitAt validity i = true ∧ ∃ b, v = .bytes b) ∨ (bitAt validity i = false ∧ v = .null))
    (h : RowsFit validity (i + 1) vs) : RowsFit validity i (v :: vs) := by
  intro k w hk
  cases k with
  | zero =>
    obtain rfl : v = w := by simpa using hk
    simpa using hv
  | succ k =>
    have hrow := h k w (by simpa using hk)
    rwa [show i + 1 + k = i + (k + 1) by omega] at hrow

theorem mergeRows_of_dictRows {validity : Bytes} {table : List Bytes} {indices : List Nat}
    {i : Nat} (h : dictRows validity table i indices = .ok vs)
    (merged : Bytes) :
    (mergeRows validity table i indices merged : Except (MongrelError M) _) =
        .ok ((offsetsFrom merged.length vs).map UInt32.ofNat, merged ++ dataOf vs) ∧
      RowsFit validity i vs ∧ vs.length = indices.length := by
  induction indices generalizing i vs merged with
  | nil =>
    obtain rfl : [] = vs := by simpa [dictRows] using h
    exact ⟨by simp [mergeRows, offsetsFrom, dataOf], fun k v hk => by simp at hk, rfl⟩
  | cons idx indices ih =>
    rw [dictRows] at h
    split at h
    · next hbit =>
      split at h
      · exact absurd h (by simp)
      · next entry hentry =>
        split at h
        · exact absurd h (by simp)
        · next rest hrest =>
          obtain rfl := Except.ok.inj h
          obtain ⟨hmerge, hfit, hlen⟩ := ih hrest (merged ++ entry)
          refine ⟨?_, hfit.cons (.inl ⟨hbit, entry, rfl⟩), by simp [hlen]⟩
          simp [mergeRows, hbit, hentry, hmerge, offsetsFrom, dataOf, Value.rawBytes]
    · next hbit =>
      split at h
      · exact absurd h (by simp)
      · next rest hrest =>
        obtain rfl := Except.ok.inj h
        obtain ⟨hmerge, hfit, hlen⟩ := ih hrest merged
        refine ⟨?_, hfit.cons (.inr ⟨eq_false_of_ne_true hbit, rfl⟩), by simp [hlen]⟩
        simp [mergeRows, hbit, hmerge, offsetsFrom, dataOf, Value.rawBytes]

theorem dataOf_take_append_drop (k : Nat) (vs : List (Value M)) :
    dataOf vs = dataOf (vs.take k) ++ dataOf (vs.drop k) := by
  rw [dataOf, dataOf, dataOf, ← flatMap_append, take_append_drop]

theorem valuesFrom_offsetTable {validity : Bytes}
    (hfit : RowsFit validity 0 vs) (hsize : (dataOf vs).length < 2 ^ 32) :
    (NativeColumn.bytes ((offsetTable vs).map UInt32.ofNat) (dataOf vs) validity).valuesFrom
      vs.length 0 = .ok vs := by
  set col := NativeColumn.bytes ((offsetTable vs).map UInt32.ofNat) (dataOf vs) validity
  have htaken (k : Nat) : (dataOf (vs.take k)).length ≤ (dataOf vs).length := by
    rw [dataOf_take_append_drop k vs, length_append]
    exact Nat.le_add_right _ _
  have hoff {k : Nat} (hk : k ≤ vs.length) :
      ((offsetTable vs).map UInt32.ofNat)[k]? =
        some (UInt32.ofNat (dataOf (vs.take k)).length) := by
    rw [getElem?_map, offsetTable, getElem?_offsetsFrom 0 vs hk, Nat.zero_add]
    rfl
  have hat : ∀ k, 0 ≤ k → k < 0 + vs.length → col.valueAt k =
      (.ok (if bitAt validity k then vs[k]? else none) : Except (MongrelError M) _) := by
    intro k _ hk
    have hk' : k < vs.length := by omega
    have hget := getElem?_eq_getElem hk'
    rcases hfit k vs[k] hget with ⟨hbit, b, hb⟩ | ⟨hbit, -⟩
    · rw [Nat.zero_add] at hbit
      have hlo : (UInt32.ofNat (dataOf (vs.take k)).length).toNat = (dataOf (vs.take k)).length :=
        toNat_ofNat_of_lt (lt_of_le_of_lt (htaken k) hsize)
      have hhi : (UInt32.ofNat (dataOf (vs.take (k + 1))).length).toNat =
          (dataOf (vs.take (k + 1))).length :=
        toNat_ofNat_of_lt (lt_of_le_of_lt (htaken (k + 1)) hsize)
      have htake : dataOf (vs.take (k + 1)) = dataOf (vs.take k) ++ b := by
        rw [take_add_one, hget, hb]
        simp [dataOf, Value.rawBytes]
      have hdata : dataOf vs = dataOf (vs.take k) ++ (b ++ dataOf (vs.drop (k + 1))) := by
        rw [← append_assoc, ← htake]
        exact dataOf_take_append_drop (k + 1) vs
      have hslice : (slice (dataOf vs) (dataOf (vs.take k)).length
          (dataOf (vs.take (k + 1))).length : Except (MongrelError M) _) = .ok b := by
        rw [slice, if_neg (by have := htaken (k + 1); simp [htake]; simp [htake] at this; omega),
          htake, hdata, ← append_assoc, take_left, drop_left]
      simp only [col, NativeColumn.valueAt, NativeColumn.validity, hbit, Bool.not_true,
        Bool.false_eq_true, if_false, hoff (Nat.le_of_lt hk'), hoff (Nat.succ_le_of_lt hk'), hlo,
        hhi, hslice, if_true, hget, hb]
    · rw [Nat.zero_add] at hbit
      have hnull : bitAt col.validity k = false := hbit
      rw [valueAt_of_null hnull, hbit]
      rfl
  rw [valuesFrom_ok vs.length 0 hat]
  refine congrArg Except.ok (ext_getElem (by simp) fun k h1 h2 => ?_)
  have hget := getElem?_eq_getElem h2
  simp only [getElem_map, getElem_range', Nat.zero_add, Nat.one_mul, hget]
  rcases hfit k vs[k] hget with ⟨hbit, -⟩ | ⟨hbit, hnull⟩
  · rw [Nat.zero_add] at hbit
    simp [hbit]
  · rw [Nat.zero_add] at hbit
    simp [hbit, hnull]

theorem agreeContent_dict_iff {c : Codecs M} {ty : TypeId} (hty : ty.isVarBytes = true)
    {algo : Algo} (halgo : algo.isDict = true) {content validity : Bytes} {indices : List Nat}
    {table : List Bytes}
    (hread : (readDict content : Except (MongrelError M) _) = .ok (validity, indices, table))
    {n : Nat} (hn : indices.length = n) (le : Bool)
    (hsize : ∀ vs : List (Value M), dictRows validity table 0 indices = .ok vs →
      (dataOf vs).length < 2 ^ 32) :
    AgreeContent c ty algo content n le ↔
      ∃ vs : List (Value M), dictRows validity table 0 indices = .ok vs := by
  have hplain : algo.isPlain = false := by
    cases algo <;> first | (cases halgo; done) | rfl
  have hdict : (decodeDictNative ty content n : Except (MongrelError M) _) =
      dictDecodeBytesNative content n := by
    cases ty <;> first | (cases hty; done) | rfl
  have htake : indices.take n = indices := take_of_length_le (Nat.le_of_eq hn)
  have hvalue : decodeContent c ty algo content n le = dictRows validity table 0 indices := by
    simp only [decodeContent, hplain, Bool.false_eq_true, if_false, halgo, if_true,
      dictDecodeBytes, hread, htake]
  constructor
  · rintro ⟨vs, hvs, -⟩
    exact ⟨vs, hvalue.symm.trans hvs⟩
  · rintro ⟨vs, hvs⟩
    obtain ⟨hmerge, hfit, hlen⟩ := mergeRows_of_dictRows hvs []
    refine ⟨vs, hvalue.trans hvs,
      .bytes ((offsetTable vs).map UInt32.ofNat) (dataOf vs) validity, ?_, ?_⟩
    · simp only [decodeContentNative, halgo, if_true, hdict, dictDecodeBytesNative, hread,
        if_neg (Nat.not_lt.mpr (Nat.le_of_eq hn.symm)), htake, hmerge]
      rfl
    · have hcount : vs.length = n := hlen.trans hn
      have hvalues := valuesFrom_offsetTable hfit (hsize vs hvs)
      rw [hcount] at hvalues
      exact hvalues

end MongrelDB.Columnar
