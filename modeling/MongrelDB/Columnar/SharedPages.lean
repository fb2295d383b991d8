import Mathlib.Algebra.Order.BigOperators.Group.List
import MongrelDB.Columnar.Agreement

/-!
# Pages both readers can read

Which pages of either writer the two readers read alike. The typed reader covers
integers, floats, flags and bytes; it refuses the other types, and it hands out JSON
as bytes.
-/

namespace MongrelDB.Columnar

open Lib List

variable {M : Type} {c : Codecs M} {ty : TypeId} {encoding : Encoding} {compress : Compress}

/-! ## Compression -/

/-- The algorithm `compressWith` selects. -/
def Compress.algo (compress : Compress) (zstd lz4 : Algo) : Algo :=
  match compress with
  | .plain => .plain
  | .zstd _ => zstd
  | .lz4 => lz4

theorem lz4Decompress_lz4Compress (c : Codecs M) {content : Bytes} (h : content.length < 2 ^ 32)
    (limit : Nat) :
    (content.length ≤ limit → lz4Decompress c (lz4Compress c content) limit = .ok content) ∧
    (limit < content.length → ∃ e, lz4Decompress c (lz4Compress c content) limit = .error e) := by
  have hsize : ¬ (lz4Compress c content).length < 4 := by
    rw [lz4Compress, length_append, length_leBytes]
    omega
  have hdeclared : leValue ((lz4Compress c content).take 4) = content.length := by
    rw [lz4Compress, take_left' (length_leBytes 4 _),
      leValue_leBytes_of_lt (lt_of_lt_of_eq h (by norm_num))]
  have hblock : (lz4Compress c content).drop 4 = c.lz4Block content := by
    rw [lz4Compress, drop_left' (length_leBytes 4 _)]
  rw [lz4Decompress, if_neg hsize]
  dsimp only
  rw [hdeclared, hblock]
  constructor
  · intro hle
    rw [if_neg (by omega), c.lz4_lossless]
  · intro hlt
    exact ⟨_, if_pos hlt⟩

theorem agree_compressWith_iff {zstd lz4 : Algo} {le : Bool} {content page : Bytes} {n : Nat}
    (hzstd : zstd = .zstdPlain ∨ zstd = .zstdDict ∨ zstd = .zstdDelta)
    (hlz4 : lz4 = .lz4Plain ∨ lz4 = .lz4Dict ∨ lz4 = .lz4Delta)
    (hsize : content.length < 2 ^ 32)
    (h : compressWith c compress zstd lz4 le content = .ok page) :
    Agree c ty page n ↔
      (compress = .plain ∨
        content.length ≤ maxDecompressedBytes ty n (compress.algo zstd lz4)) ∧
      AgreeContent c ty (compress.algo zstd lz4) content n le := by
  cases compress with
  | plain =>
    obtain rfl := Except.ok.inj h
    have hbody : decompress c .plain content (maxDecompressedBytes ty n .plain) = .ok content := rfl
    rw [agree_iff_content hbody]
    simp [Compress.algo]
  | zstd level =>
    rw [compressWith] at h
    cases hz : zstdCompressLevel c content level with
    | error e => simp [hz] at h
    | ok compressed =>
      obtain ⟨-, rfl⟩ := zstdCompress_ok hz
      obtain rfl : algoWithLe zstd le :: c.zstdEncode level content = page := by simpa [hz] using h
      obtain ⟨hok, herr⟩ :=
        @decompress_zstd M c zstd content level (maxDecompressedBytes ty n zstd) hzstd
      by_cases hle : content.length ≤ maxDecompressedBytes ty n zstd
      · rw [agree_iff_content (hok hle)]
        simp [Compress.algo, hle]
      · obtain ⟨e, he⟩ := herr (by omega)
        simp [Compress.algo, hle, not_agree_of_error he]
  | lz4 =>
    obtain rfl := Except.ok.inj h
    have hunfold : decompress c lz4 (lz4Compress c content) (maxDecompressedBytes ty n lz4) =
        lz4Decompress c (lz4Compress c content) (maxDecompressedBytes ty n lz4) := by
      rcases hlz4 with rfl | rfl | rfl <;> rfl
    obtain ⟨hok, herr⟩ := lz4Decompress_lz4Compress c hsize (maxDecompressedBytes ty n lz4)
    by_cases hle : content.length ≤ maxDecompressedBytes ty n lz4
    · rw [agree_iff_content (hunfold.trans (hok hle))]
      simp [Compress.algo, hle]
    · obtain ⟨e, he⟩ := herr (by omega)
      simp [Compress.algo, hle, not_agree_of_error (hunfold.trans he)]

/-! ## Pages of the `Value` writer -/

/-- The types the typed reader covers. -/
def TypeId.isNative (ty : TypeId) : Bool := ty.isNativeFixed || ty.isVarBytes

theorem not_agree_of_not_native (hty : ty.isNative = false)
    (page : Bytes) (n : Nat) : ¬ Agree c ty page n := by
  -- whatever the page holds, each of the three typed decoders refuses the type
  have hrefuse algo raw le :
      ∃ e, (decodeContentNative ty algo raw n le : Except (MongrelError M) _) = .error e := by
    rw [decodeContentNative]
    split
    · cases ty <;> first | (cases hty; done) | exact ⟨_, rfl⟩
    · split
      · cases ty <;> first | (cases hty; done) | exact ⟨_, rfl⟩
      · cases ty <;> first | (cases hty; done) | exact ⟨_, rfl⟩
  rintro ⟨vs, -, hvs⟩
  cases page with
  | nil => simp [decodePageNativeValues, decodePageNative] at hvs
  | cons byte body =>
    cases hbase : algoBase byte with
    | none => simp [decodePageNativeValues, decodePageNative, hbase] at hvs
    | some algo =>
      cases hraw : decompress c algo body (maxDecompressedBytes ty n algo) with
      | error e => simp [decodePageNativeValues, decodePageNative, hbase, hraw] at hvs
      | ok raw =>
        have hpage : decodePageNative c ty (byte :: body) n =
            decodeContentNative ty algo raw n (algoLe byte) := by
          simp only [decodePageNative, hbase, hraw, decodeContentNative]
        obtain ⟨e, he⟩ := hrefuse algo raw (algoLe byte)
        simp [decodePageNativeValues, hpage, he] at hvs

/-- Every type the typed reader covers, JSON only without values. -/
def SharedPlain (ty : TypeId) (values : List (Value M)) : Prop :=
  ty.isNative = true ∧ (ty = .json → ∀ v ∈ values, v.isNull = true)

theorem wordAt_offsets {offsets : List Nat} (hoff : ∀ o ∈ offsets, o < 2 ^ 64) (data : Bytes)
    {k o : Nat} (hk : offsets[k]? = some o) :
    wordAt false (offsets.flatMap (beBytes 8) ++ data) k = o := by
  have hread := readOff_offsets (M := Unit) hoff data hk
  have hlt : k < offsets.length := (List.getElem?_eq_some_iff.mp hk).1
  rw [readOff_eq (by rw [length_append, length_flatMap_offsets]; omega)] at hread
  exact Except.ok.inj hread

variable {values : List (Value M)}

theorem agreeContent_encodeColumn_iff (hty : ty.isNative = true)
    {algo : Algo} (halgo : algo.isPlain = true) {column : Bytes}
    (h : encodeColumn c ty values = .ok column) (hn : values.length ≤ 8 * (2 ^ 32 - 1))
    (hdata : (dataOf values).length < 2 ^ 32) :
    AgreeContent c ty algo column values.length false ↔ SharedPlain ty values := by
  have hvalidity : (validityBitmap values).length < 2 ^ 32 := by
    rw [length_validityBitmap]
    omega
  obtain ⟨payload, hpayload, rfl⟩ := encodeColumn_ok h
  by_cases hfixed : ty.isNativeFixed = true
  · have hlen : values.length * nullWidth ty ≤ payload.length := by
      have hpay := length_encodePayload hpayload
        (by cases ty <;> first | (cases hfixed; done) | rfl) (by rintro dim rfl; cases hfixed)
      rw [hpay]
      cases ty <;> first | (cases hfixed; done) | exact le_rfl
    have hnot : ty ≠ .json := by
      rintro rfl
      cases hfixed
    exact iff_of_true (agreeContent_fixed hfixed halgo hvalidity hlen false)
      ⟨hty, fun hjson => absurd hjson hnot⟩
  · have hvar : ty.isVarBytes = true := by simpa [TypeId.isNative, hfixed] using hty
    have hbytes : bytesEncode values = .ok payload := by
      cases ty <;> first | (cases hvar; done) | exact hpayload
    obtain ⟨rfl, hoff⟩ := bytesEncode_ok hbytes
    set payload := (offsetTable values).flatMap (beBytes 8) ++ dataOf values with hpay
    have hcount : (offsetTable values).length = values.length + 1 := by
      rw [offsetTable, length_cons, length_offsetsFrom]
    have htable := length_flatMap_offsets (offsetTable values)
    have hlen : (values.length + 1) * 8 ≤ payload.length := by
      rw [hpay, length_append, htable, hcount]
      omega
    have hdrop : payload.drop ((values.length + 1) * 8) = dataOf values := by
      rw [hpay, drop_left' (by rw [htable, hcount])]
    have hword {k : Nat} (hk : k ≤ values.length) :
        wordAt false payload k = (dataOf (values.take k)).length := by
      have hget := getElem?_offsetsFrom 0 values hk
      rw [Nat.zero_add] at hget
      exact wordAt_offsets hoff _ hget
    have hsplit (k : Nat) : (dataOf values).length =
        (dataOf (values.take k)).length + (dataOf (values.drop k)).length := by
      rw [← length_append, ← dataOf_take_append_drop]
    have hrange : ∀ i < values.length, RowInRange false payload values.length i := by
      intro i hi
      rw [RowInRange, hword (Nat.le_of_lt hi), hword (show i + 1 ≤ values.length by omega), hdrop,
        take_add_one]
      refine ⟨by simp [dataOf], ?_⟩
      have := hsplit (i + 1)
      rw [take_add_one] at this
      omega
    rw [agreeContent_varBytes_iff hvar halgo hvalidity hlen fun i hi => by
      rw [hword (Nat.le_of_lt hi), hword (show i + 1 ≤ values.length by omega)]
      have h1 := hsplit i
      have h2 := hsplit (i + 1)
      exact ⟨by omega, by omega⟩]
    constructor
    · intro hrows
      refine ⟨hty, fun hjson v hv => ?_⟩
      obtain ⟨i, hi, rfl⟩ := getElem_of_mem hv
      by_contra hnull
      have hbit : bitAt (validityBitmap values) i = true := by
        rw [bitAt_validityBitmap (getElem?_eq_getElem hi)]
        simpa using hnull
      exact (hrows i hi hbit).2 hjson
    · rintro ⟨-, hnulls⟩ i hi hbit
      refine ⟨hrange i hi, fun hjson => ?_⟩
      rw [bitAt_validityBitmap (getElem?_eq_getElem hi),
        hnulls hjson _ (getElem_mem hi)] at hbit
      exact absurd hbit (by simp)

/-! ### Dictionary pages of values -/

def Value.asBytes : Value M → Option Bytes
  | .bytes b => some b
  | _ => none

variable {v : Value M}

theorem Value.asBytes_eq_some {b : Bytes} (h : v.asBytes = some b) :
    v = .bytes b := by
  cases v <;> simp_all [Value.asBytes]

/-- The first entry of the dictionary. -/
def firstBytes (values : List (Value M)) : Option Bytes := values.findSome? Value.asBytes

/-- What a row of a dictionary page reads as: a row that is neither null nor bytes has index
zero. -/
def expandRow (values : List (Value M)) (v : Value M) : Value M :=
  if v.isNull then .null else .bytes (v.asBytes.getD ((firstBytes values).getD []))

theorem dictIndices_of_asBytes_none (hv : v.asBytes = none) (vs : List (Value M))
    (table : List Bytes) :
    dictIndices (v :: vs) table =
      (0 :: (dictIndices vs table).1, (dictIndices vs table).2) := by
  cases v <;> first | rfl | simp [Value.asBytes] at hv

theorem getElem?_dictIndices_of_asBytes_none {table : List Bytes}
    {k : Nat} (hk : values[k]? = some v) (hv : v.asBytes = none) :
    (dictIndices values table).1[k]? = some 0 := by
  induction values generalizing k table with
  | nil => simp at hk
  | cons w vs ih =>
    cases k with
    | zero =>
      obtain rfl : w = v := by simpa using hk
      rw [dictIndices_of_asBytes_none hv]
      rfl
    | succ k =>
      have hk' : vs[k]? = some v := by simpa using hk
      cases hw : w.asBytes with
      | none =>
        rw [dictIndices_of_asBytes_none hw]
        exact ih hk'
      | some b =>
        obtain rfl := Value.asBytes_eq_some hw
        rw [dictIndices]
        split
        · exact ih hk'
        · exact ih hk'

theorem head_dictIndices (values : List (Value M)) (table : List Bytes) :
    (dictIndices values table).2[0]? = table[0]?.or (firstBytes values) := by
  induction values generalizing table with
  | nil => simp [dictIndices, firstBytes]
  | cons v vs ih =>
    cases hv : v.asBytes with
    | none =>
      rw [dictIndices_of_asBytes_none hv]
      simp [ih, firstBytes, hv]
    | some b =>
      obtain rfl := Value.asBytes_eq_some hv
      have hfirst : firstBytes (.bytes b :: vs) = some b := rfl
      rw [dictIndices, hfirst]
      split
      · next i hi =>
        -- an entry that is found stands in a table that is not empty
        obtain ⟨hlt, -⟩ := List.getElem?_eq_some_iff.mp (getElem?_of_idxOf? hi)
        have hhead : table[0]? = some table[0] := getElem?_eq_getElem (by omega)
        rw [ih, hhead]
        rfl
      · rw [ih]
        cases table <;> simp

/-- A row that is there and has an entry to read. -/
def SharedDict (values : List (Value M)) : Prop :=
  (∀ v ∈ values, v.isNull = true) ∨ ∃ b, .bytes b ∈ values

theorem firstBytes_eq_none_iff :
    firstBytes values = none ↔ ¬ ∃ b, .bytes b ∈ values := by
  rw [firstBytes, findSome?_eq_none_iff]
  constructor
  · rintro h ⟨b, hb⟩
    simpa [Value.asBytes] using h _ hb
  · intro h v hv
    cases hb : v.asBytes with
    | none => rfl
    | some b => exact absurd ⟨b, Value.asBytes_eq_some hb ▸ hv⟩ h

theorem dictRow_dictIndices {k idx : Nat}
    (hv : values[k]? = some v) (hidx : (dictIndices values []).1[k]? = some idx) :
    dictRow (validityBitmap values) (dictIndices values []).2 k idx =
      if v.isNull then some (.null : Value M)
      else (v.asBytes.or (firstBytes values)).map .bytes := by
  rw [dictRow, bitAt_validityBitmap hv]
  cases hnull : v.isNull with
  | true => rfl
  | false =>
    simp only [Bool.not_false, if_true, Bool.false_eq_true, if_false]
    cases hb : v.asBytes with
    | none =>
      obtain rfl : 0 = idx := by
        simpa [getElem?_dictIndices_of_asBytes_none hv hb] using hidx
      rw [head_dictIndices]
      rfl
    | some b =>
      obtain rfl := Value.asBytes_eq_some hb
      obtain ⟨i, hi, hentry⟩ := (isDict_dictIndices values []).rows k b hv
      obtain rfl : i = idx := by rw [hidx] at hi; simpa using hi.symm
      rw [hentry]
      rfl

theorem dictRows_of_sharedDict (h : SharedDict values) :
    dictRows (validityBitmap values) (dictIndices values []).2 0 (dictIndices values []).1 =
      .ok (values.map (expandRow values)) := by
  refine dictRows_map fun k idx v hget hk => ?_
  rw [dictRow_dictIndices hget hk, expandRow]
  cases hnull : v.isNull with
  | true => rfl
  | false =>
    simp only [Bool.false_eq_true, if_false]
    cases hb : v.asBytes with
    | some b => rfl
    | none =>
      -- not every row is null, so some row gave the dictionary an entry
      have hsome : ∃ b, .bytes b ∈ values := by
        rcases h with hall | hsome
        · exact absurd (hall _ (mem_of_getElem? hget)) (by simp [hnull])
        · exact hsome
      cases hfirst : firstBytes values with
      | none => exact absurd hsome (firstBytes_eq_none_iff.mp hfirst)
      | some b => rfl

theorem dictRows_values_iff (values : List (Value M)) :
    (∃ vs : List (Value M), dictRows (validityBitmap values) (dictIndices values []).2 0
      (dictIndices values []).1 = .ok vs) ↔ SharedDict values := by
  constructor
  · rintro ⟨vs, hvs⟩
    by_contra hnot
    obtain ⟨hrow, hnone⟩ := not_or.mp hnot
    push Not at hrow
    obtain ⟨v, hv, hnull⟩ := hrow
    obtain ⟨k, hk, rfl⟩ := getElem_of_mem hv
    have hget : values[k]? = some values[k] := getElem?_eq_getElem hk
    have hbytes : values[k].asBytes = none := by
      cases hb : values[k].asBytes with
      | none => rfl
      | some b => exact absurd ⟨b, Value.asBytes_eq_some hb ▸ hv⟩ hnone
    have hidx : (dictIndices values []).1[k]? = some 0 :=
      getElem?_dictIndices_of_asBytes_none hget hbytes
    have hfirst := firstBytes_eq_none_iff.mpr hnone
    obtain ⟨e, he⟩ := exists_dictRows_error (M := M) (i := 0) hidx (by
      rw [Nat.zero_add, dictRow_dictIndices hget hidx, if_neg hnull, hbytes, hfirst]
      rfl)
    exact absurd (hvs.symm.trans he) (by simp)
  · exact fun h => ⟨_, dictRows_of_sharedDict h⟩

/-- The readers agree on a page of values: a type the typed reader covers, no JSON row, and
in a dictionary an entry for the rows that are there. -/
def SharedValues (ty : TypeId) (encoding : Encoding) (values : List (Value M)) : Prop :=
  SharedPlain ty values ∧
    (encoding = .dictionary → ty.hasDictionary = true → SharedDict values)

/-- Rows whose bytes a 32-bit offset can reach, on a plain page and expanded from a
dictionary. -/
structure SmallValues (values : List (Value M)) : Prop where
  rows : values.length ≤ 8 * (2 ^ 32 - 1)
  plain : (dataOf values).length < 2 ^ 32
  expanded : (dataOf (values.map (expandRow values))).length < 2 ^ 32

theorem agree_encodePage_iff {page : Bytes} (hpage : encodePage c ty values encoding = .ok page)
    (hsmall : SmallValues values) :
    Agree c ty page values.length ↔ SharedValues ty encoding values := by
  by_cases hty : ty.isNative = true
  swap
  · have hfalse := eq_false_of_ne_true hty
    exact iff_of_false (not_agree_of_not_native hfalse page _) fun h => hty h.1.1
  rcases encodePage_ok hpage with ⟨rfl, column, hcol, rfl⟩ | ⟨rfl, hdict, hlen, rfl⟩ |
      ⟨hne, hother, column, hcol, hlen, rfl⟩
  · have hbody : decompress c .plain column (maxDecompressedBytes ty values.length .plain) =
        .ok column := rfl
    rw [agree_iff_content hbody,
      agreeContent_encodeColumn_iff hty rfl hcol hsmall.rows hsmall.plain]
    exact ⟨fun h => ⟨h, fun he => absurd he (by decide)⟩, And.left⟩
  · have hvar : ty.isVarBytes = true := by cases ty <;> first | (cases hdict; done) | rfl
    have hnot : ty ≠ .json := by
      rintro rfl
      cases hdict
    have hbody : decompress c .zstdDict (c.zstdEncode 3 (dictEncodeBytes values))
        (maxDecompressedBytes ty values.length .zstdDict) = .ok (dictEncodeBytes values) :=
      (decompress_zstd (.inr (.inl rfl))).1 hlen
    have hrows := (isDict_dictIndices values []).length
    rw [agree_iff_content hbody, agreeContent_dict_iff hvar rfl (readDict_dictEncodeBytes hlen)
      hrows false fun vs hvs => ?_, dictRows_values_iff]
    · exact ⟨fun h => ⟨⟨hty, fun hj => absurd hj hnot⟩, fun _ _ => h⟩, fun h => h.2 rfl hdict⟩
    · have hshared := (dictRows_values_iff values).mp ⟨vs, hvs⟩
      obtain rfl := Except.ok.inj ((dictRows_of_sharedDict hshared).symm.trans hvs)
      exact hsmall.expanded
  · have hlimit := (length_le_maxDecompressedBytes_iff hcol hlen).mpr (by rintro dim rfl; cases hty)
    have hbody : decompress c .zstdPlain (c.zstdEncode 3 column)
        (maxDecompressedBytes ty values.length .zstdPlain) = .ok column :=
      (decompress_zstd (.inl rfl)).1 hlimit
    rw [agree_iff_content hbody,
      agreeContent_encodeColumn_iff hty rfl hcol hsmall.rows hsmall.plain]
    exact ⟨fun h => ⟨h, fun h1 h2 => absurd ⟨h1, h2⟩ hother⟩, And.left⟩

/-! ## Pages of the typed writer -/

/-- The writer compresses unless either of its arguments says plain. -/
def compressed (encoding : Encoding) (compress : Compress) : Bool :=
  !(decide (compress = .plain) || decide (encoding = .plain))

/-- The compression a page ends up with. -/
def compressionOf (encoding : Encoding) (compress : Compress) : Compress :=
  if compressed encoding compress then compress else .plain

theorem compressionOf_eq_plain_iff :
    compressionOf encoding compress = .plain ↔ compressed encoding compress = false := by
  rw [compressionOf]
  cases h : compressed encoding compress with
  | false => simp
  | true =>
    have hne : compress ≠ .plain := by
      rintro rfl
      simp [compressed] at h
    simpa using hne

theorem nativePlainPage_ok {validity payload page : Bytes} {le : Bool}
    (h : nativePlainPage c validity compress (decide (compress = .plain) ||
      decide (encoding = .plain)) le payload = .ok page) :
    compressWith c (compressionOf encoding compress) .zstdPlain .lz4Plain le
      (withValidity validity payload) = .ok page := by
  rw [nativePlainPage] at h
  rw [compressionOf, compressed]
  cases hraw : decide (compress = .plain) || decide (encoding = .plain) with
  | true => simpa [hraw, compressWith] using h
  | false =>
    simp only [hraw, Bool.false_eq_true, if_false] at h
    simp only [Bool.not_false, if_true]
    cases hw : compressWith c compress .zstdPlain .lz4Plain le (withValidity validity payload) with
    | error e => simp [hw] at h
    | ok page' => simpa [hw] using h

theorem length_appendWords (le : Bool) (data : List (BitVec 64)) :
    (appendWords le data).length = data.length * 8 :=
  length_flatMap_of_length fun x => by cases le <;> simp [length_leBytes, length_beBytes]

theorem length_deltasOf (prev : BitVec 64) (data : List (BitVec 64)) :
    (deltasOf prev data).length = data.length := by
  induction data generalizing prev with
  | nil => rfl
  | cons v vs ih => simp [deltasOf, ih]

/-- A compressed page of numbers or flags is read only if its bitmap has no more bytes than the
rows need and the whole is within the page limit. -/
def SharedFixed (validity : Bytes) (n w : Nat) (encoding : Encoding) (compress : Compress) : Prop :=
  compressed encoding compress = true →
    validity.length ≤ (n + 7) / 8 ∧ 4 + validity.length + n * w ≤ maxPageDecompressedBytes

theorem sharedFixed_iff {validity p : Bytes} {n w : Nat} (hp : p.length = n * w) :
    (compressionOf encoding compress = .plain ∨ (withValidity validity p).length ≤
      min (4 + (n + 7) / 8 + n * w) maxPageDecompressedBytes) ↔
      SharedFixed validity n w encoding compress := by
  rw [compressionOf_eq_plain_iff, length_withValidity, hp, SharedFixed]
  cases compressed encoding compress with
  | false => simp
  | true =>
    simp only [Bool.true_eq_false, false_or, true_implies]
    omega

section Typed

variable {c : Codecs M} {ty : TypeId} {validity p page : Bytes} {n : Nat} {encoding : Encoding}
  {compress : Compress} {le : Bool}

theorem agree_plain_fixed_iff (hty : ty.isNativeFixed = true) (hp : p.length = n * nullWidth ty)
    (hsize : (withValidity validity p).length < 2 ^ 32)
    (h : compressWith c (compressionOf encoding compress) .zstdPlain .lz4Plain le
      (withValidity validity p) = .ok page) :
    Agree c ty page n ↔ SharedFixed validity n (nullWidth ty) encoding compress := by
  have hlen := length_withValidity validity p
  have halgo : ((compressionOf encoding compress).algo .zstdPlain .lz4Plain).isPlain = true := by
    cases compressionOf encoding compress <;> rfl
  have hlimit : maxDecompressedBytes ty n ((compressionOf encoding compress).algo .zstdPlain
      .lz4Plain) = min (4 + (n + 7) / 8 + n * nullWidth ty) maxPageDecompressedBytes := by
    cases compressionOf encoding compress <;> cases ty <;> first | (cases hty; done) | rfl
  rw [agree_compressWith_iff (.inl rfl) (.inl rfl) hsize h, hlimit, sharedFixed_iff hp]
  exact and_iff_left (agreeContent_fixed hty halgo (by omega) (Nat.le_of_eq hp.symm) le)

theorem agree_delta_iff (hty : ty = .int64 ∨ ty = .timestampNanos) (hp : p.length = n * 8)
    (hcompressed : compressed encoding compress = true)
    (hsize : (withValidity validity p).length < 2 ^ 32)
    (h : compressDeltaPayload c (withValidity validity p) compress le = .ok page) :
    Agree c ty page n ↔ SharedFixed validity n 8 encoding compress := by
  have hlen := length_withValidity validity p
  have hsame : compressionOf encoding compress = compress := if_pos hcompressed
  have hne : compress ≠ .plain := by
    rintro rfl
    simp [compressed] at hcompressed
  have halgo : (compress.algo .zstdDelta .lz4Delta).isDelta = true := by
    cases compress with
    | plain => exact absurd rfl hne
    | zstd level => rfl
    | lz4 => rfl
  have hlimit : maxDecompressedBytes ty n (compress.algo .zstdDelta .lz4Delta) =
      min (4 + (n + 7) / 8 + n * 8) maxPageDecompressedBytes := by
    unfold maxDecompressedBytes
    exact if_pos halgo
  rw [agree_compressWith_iff (.inr (.inr rfl)) (.inr (.inr rfl)) hsize h, hlimit,
    ← sharedFixed_iff hp, hsame]
  exact and_iff_left (agreeContent_delta hty halgo (by omega) (Nat.le_of_eq hp.symm) le)

end Typed

/-! ### Bytes -/

theorem wordAt_appendWords {le : Bool} {data : List (BitVec 64)} {k : Nat} {x : BitVec 64}
    (hk : data[k]? = some x) (rest : Bytes) :
    wordAt le (appendWords le data ++ rest) k = x.toNat := by
  have hx : x.toNat < 256 ^ 8 := lt_of_lt_of_eq x.isLt (by norm_num)
  have htake : ((appendWords le data ++ rest).drop (k * 8)).take 8 =
      if le then leBytes 8 x.toNat else beBytes 8 x.toNat :=
    take_drop_flatMap (fun y _ => by cases le <;> simp [length_leBytes, length_beBytes]) hk rest
  rw [wordAt, htake, ofBits]
  cases le with
  | true => simp [leValue_leBytes_of_lt hx]
  | false => simp [beValue_beBytes_of_lt hx]

/-- The offsets of every row that is there bound a part of the data. Without offsets the
reader takes the first eight bytes of the data for one. -/
def OffsetsBound (offsets : List UInt32) (values validity : Bytes) : Prop :=
  (offsets = [] → 8 ≤ values.length) ∧
  ∀ i < offsets.length - 1, bitAt validity i = true →
    offsets.getD i 0 ≤ offsets.getD (i + 1) 0 ∧ (offsets.getD (i + 1) 0).toNat ≤ values.length

variable {offsets : List UInt32}

theorem agreeContent_nativeBytes_iff {algo : Algo} (halgo : algo.isPlain = true)
    {values validity : Bytes} (hvalidity : validity.length < 2 ^ 32)
    (le : Bool) :
    AgreeContent c .bytes algo (withValidity validity
      (appendWords le (offsets.map fun o => BitVec.ofNat 64 o.toNat) ++ values))
      (offsets.length - 1) le ↔ OffsetsBound offsets values validity := by
  set words := offsets.map fun o => BitVec.ofNat 64 o.toNat with hwords
  set p := appendWords le words ++ values with hp
  have htable : (appendWords le words).length = offsets.length * 8 := by
    rw [length_appendWords, hwords, length_map]
  have hlen : p.length = offsets.length * 8 + values.length := by
    rw [hp, length_append, htable]
  rcases Nat.eq_zero_or_pos offsets.length with hempty | hpos
  · -- no rows; only the length of the table is checked
    obtain rfl := eq_nil_of_length_eq_zero hempty
    by_cases height : 8 ≤ values.length
    · rw [agreeContent_varBytes_iff rfl halgo hvalidity (by simp at hlen ⊢; omega) (by simp)]
      simp [OffsetsBound, height]
    · refine iff_of_false (not_agreeContent_of_short rfl halgo hvalidity ?_ (by simp))
        fun h => height (h.1 rfl)
      simp at hlen ⊢
      omega
  · have hrows : offsets.length - 1 + 1 = offsets.length := by omega
    have hdrop : p.drop ((offsets.length - 1 + 1) * 8) = values := by
      rw [hrows, hp, drop_left' htable]
    have hword {k : Nat} (hk : k < offsets.length) :
        wordAt le p k = (offsets.getD k 0).toNat := by
      have hget : words[k]? = some (BitVec.ofNat 64 (offsets.getD k 0).toNat) := by
        rw [hwords, getElem?_map, getD_eq_getElem?_getD, getElem?_eq_getElem hk]
        rfl
      rw [hp, wordAt_appendWords hget, BitVec.toNat_ofNat]
      have := (offsets.getD k 0).toNat_lt
      omega
    rw [agreeContent_varBytes_iff rfl halgo hvalidity (by omega) fun i hi => by
      rw [hword (k := i) (by omega), hword (k := i + 1) (by omega)]
      exact ⟨UInt32.toNat_lt _, UInt32.toNat_lt _⟩]
    have hne : offsets ≠ [] := ne_nil_of_length_pos hpos
    constructor
    · intro h
      refine ⟨fun h0 => absurd h0 hne, fun i hi hbit => ?_⟩
      obtain ⟨h1, h2⟩ := (h i hi hbit).1
      rw [hword (k := i) (by omega), hword (k := i + 1) (by omega)] at h1
      rw [hword (k := i + 1) (by omega), hdrop] at h2
      exact ⟨h1, h2⟩
    · rintro ⟨-, h⟩ i hi hbit
      obtain ⟨h1, h2⟩ := h i hi hbit
      refine ⟨⟨?_, ?_⟩, nofun⟩
      · rw [hword (k := i) (by omega), hword (k := i + 1) (by omega)]
        exact h1
      · rw [hword (k := i + 1) (by omega), hdrop]
        exact h2

/-! ### Dictionaries of slices -/

theorem nativeIndices_eq (entries table : List Bytes) :
    nativeIndices entries table = dictIndices (entries.map (Value.bytes (M := M))) table := by
  induction entries generalizing table with
  | nil => rfl
  | cons entry entries ih =>
    cases h : table.idxOf? entry with
    | none => simp [nativeIndices, dictIndices, h, ih]
    | some i => simp [nativeIndices, dictIndices, h, ih]

/-- The slices follow each other, so together they are no longer than the last offset. -/
theorem nativeSlices_ok {values : Bytes} {lo : UInt32} {entries : List Bytes}
    (h : (nativeSlices values (lo :: offsets) : Except (MongrelError M) _) = .ok entries) :
    entries.length = offsets.length ∧ lo.toNat + entries.flatten.length < 2 ^ 32 := by
  induction offsets generalizing lo entries with
  | nil =>
    obtain rfl : [] = entries := by simpa [nativeSlices] using h
    exact ⟨rfl, by simpa using lo.toNat_lt⟩
  | cons hi offsets ih =>
    rw [nativeSlices, slice] at h
    split at h
    · exact absurd h (by simp)
    · next entry hentry =>
      split at hentry
      · exact absurd hentry (by simp)
      · next hrange =>
        obtain rfl := Except.ok.inj hentry
        split at h
        · exact absurd h (by simp)
        · next rest hrest =>
          obtain rfl := Except.ok.inj h
          obtain ⟨hlen, hsum⟩ := ih hrest
          refine ⟨by simp [hlen], ?_⟩
          simp only [flatten_cons, length_append, length_drop, length_take]
          omega

section

variable (validity : Bytes) (entries : List Bytes)

/-- The rows of a dictionary of slices. -/
def sliceRow (k : Nat) : Value M :=
  if bitAt validity k then .bytes (entries.getD k []) else .null

theorem isDict_nativeIndices :
    IsDict (entries.map (Value.bytes (M := M))) [] (nativeIndices entries []) := by
  rw [nativeIndices_eq (M := M)]
  exact isDict_dictIndices _ _

theorem dictRows_nativeIndices :
    dictRows validity (nativeIndices entries []).2 0 (nativeIndices entries []).1 =
      .ok ((List.range' 0 entries.length).map (sliceRow (M := M) validity entries)) := by
  have hdict := isDict_nativeIndices (M := M) entries
  have hlen : (nativeIndices entries []).1.length = entries.length := by
    rw [hdict.length, length_map]
  rw [dictRows_ok (f := sliceRow validity entries), hlen]
  intro k idx hk
  have hlt : k < entries.length := hlen ▸ (List.getElem?_eq_some_iff.mp hk).1
  obtain ⟨i, hi, hentry⟩ := hdict.rows k entries[k] (by simp [hlt])
  obtain rfl : i = idx := by rw [hk] at hi; simpa using hi.symm
  rw [Nat.zero_add, dictRow, sliceRow, hentry, getD_eq_getElem?_getD,
    getElem?_eq_getElem hlt]
  cases bitAt validity k <;> rfl

theorem length_dataOf_sliceRow :
    (dataOf ((List.range' 0 entries.length).map (sliceRow (M := M) validity entries))).length ≤
      entries.flatten.length := by
  rw [dataOf, length_flatMap, length_flatten, ← map_range_getD List.length entries [], map_map]
  refine sum_le_sum fun k _ => ?_
  simp only [Function.comp_apply, sliceRow]
  split
  · exact le_rfl
  · exact Nat.zero_le _

end

theorem agreeContent_nativeDict {algo : Algo} (halgo : algo.isDict = true)
    {values validity dict : Bytes}
    (h : (dictEncodeBytesNative offsets values validity : Except (MongrelError M) _) = .ok dict)
    (hsize : dict.length ≤ maxPageDecompressedBytes) (le : Bool) :
    AgreeContent c .bytes algo dict (offsets.length - 1) le := by
  rw [dictEncodeBytesNative] at h
  cases offsets with
  | nil => simp at h
  | cons lo offsets =>
    simp only [isEmpty_cons, Bool.false_eq_true, if_false] at h
    split at h
    · exact absurd h (by simp)
    · next entries hentries =>
      obtain rfl := Except.ok.inj h
      obtain ⟨hlen, hsum⟩ := nativeSlices_ok hentries
      have hdict := isDict_nativeIndices (M := M) entries
      have hread := readDict_dictLayout (M := M) (dictFits_of_length hsize hdict.range)
      have hrows := dictRows_nativeIndices (M := M) validity entries
      refine (agreeContent_dict_iff rfl halgo hread ?_ le ?_).mpr ⟨_, hrows⟩
      · rw [hdict.length, length_map, hlen, length_cons]
        omega
      · intro vs hvs
        obtain rfl := Except.ok.inj (hrows.symm.trans hvs)
        have := length_dataOf_sliceRow (M := M) validity entries
        omega

/-! ### Every typed column -/

section

variable (M : Type) (col : NativeColumn) (encoding : Encoding) (compress : Compress)

/-- The bytes of a page before compression. -/
def contentLength :
    Nat :=
  match col with
  | .int64 data validity | .float64 data validity => 4 + validity.length + data.length * 8
  | .bool data validity => 4 + validity.length + data.length
  | .bytes offsets values validity =>
    if encoding = .dictionary ∧ compressed encoding compress = true then
      match (dictEncodeBytesNative offsets values validity : Except (MongrelError M) Bytes) with
      | .ok dict => dict.length
      | .error _ => 0
    else 4 + validity.length + (offsets.length * 8 + values.length)

/-- A compressed page is within the limit of the reader, and the offsets of a plain page of
bytes bound its rows. -/
def SharedNative :
    Prop :=
  match col with
  | .int64 data validity | .float64 data validity =>
    SharedFixed validity data.length 8 encoding compress
  | .bool data validity => SharedFixed validity data.length 1 encoding compress
  | .bytes offsets values validity =>
    (compressed encoding compress = true →
      contentLength M (.bytes offsets values validity) encoding compress ≤
        maxPageDecompressedBytes) ∧
    ((encoding = .dictionary ∧ compressed encoding compress = true) ∨
      OffsetsBound offsets values validity)

end

theorem agree_nativeBytes_iff {values validity page : Bytes} {le : Bool}
    (hpage : encodePageNative c .bytes (.bytes offsets values validity) encoding compress le =
      .ok page)
    (hsmall : contentLength M (.bytes offsets values validity) encoding compress < 2 ^ 32) :
    Agree c .bytes page (offsets.length - 1) ↔
      SharedNative M (.bytes offsets values validity) encoding compress := by
  simp only [encodePageNative] at hpage
  by_cases hdict : encoding = .dictionary ∧ compressed encoding compress = true
  · have hraw : (decide (compress = .plain) || decide (encoding = .plain)) = false := by
      simpa [compressed] using hdict.2
    rw [if_pos ⟨hdict.1, hraw⟩] at hpage
    split at hpage
    · exact absurd hpage (by simp)
    · next dict hd =>
      have hlen : contentLength M (.bytes offsets values validity) encoding compress =
          dict.length := by
        simp only [contentLength, if_pos hdict, hd]
      have hshared : SharedNative M (.bytes offsets values validity) encoding compress ↔
          dict.length ≤ maxPageDecompressedBytes := by
        rw [SharedNative, hlen]
        exact ⟨fun h => h.1 hdict.2, fun h => ⟨fun _ => h, .inl hdict⟩⟩
      rw [hlen] at hsmall
      have hne : compress ≠ .plain := by
        rintro rfl
        simp at hraw
      have halgo : (compress.algo .zstdDict .lz4Dict).isDict = true := by
        cases compress with
        | plain => exact absurd rfl hne
        | zstd level => rfl
        | lz4 => rfl
      have hlimit : maxDecompressedBytes .bytes (offsets.length - 1)
          (compress.algo .zstdDict .lz4Dict) = maxPageDecompressedBytes := by
        cases compress with
        | plain => exact absurd rfl hne
        | zstd level => rfl
        | lz4 => rfl
      rw [agree_compressWith_iff (.inr (.inl rfl)) (.inr (.inl rfl)) hsmall hpage, hlimit, hshared]
      simp only [hne, false_or]
      exact and_iff_left_of_imp fun hle => agreeContent_nativeDict halgo hd hle false
  · have hraw : ¬ (encoding = .dictionary ∧
        (decide (compress = .plain) || decide (encoding = .plain)) = false) := by
      simpa [compressed] using hdict
    rw [if_neg hraw] at hpage
    have hlen : (withValidity validity (appendWords le (offsets.map fun o =>
        BitVec.ofNat 64 o.toNat) ++ values)).length =
          contentLength M (.bytes offsets values validity) encoding compress := by
      rw [length_withValidity, length_append, length_appendWords, length_map,
        contentLength, if_neg hdict]
    have hvalidity : validity.length < 2 ^ 32 := by
      rw [← hlen, length_withValidity] at hsmall
      omega
    have halgo : ((compressionOf encoding compress).algo .zstdPlain .lz4Plain).isPlain = true := by
      cases compressionOf encoding compress <;> rfl
    have hlimit : maxDecompressedBytes .bytes (offsets.length - 1)
        ((compressionOf encoding compress).algo .zstdPlain .lz4Plain) =
          maxPageDecompressedBytes := by
      cases compressionOf encoding compress <;> rfl
    rw [agree_compressWith_iff (.inl rfl) (.inl rfl) (hlen ▸ hsmall) (nativePlainPage_ok hpage),
      hlimit, agreeContent_nativeBytes_iff halgo hvalidity, compressionOf_eq_plain_iff, hlen,
      SharedNative]
    refine and_congr ?_ (or_iff_right hdict).symm
    cases compressed encoding compress <;> simp

theorem agree_nativeInt_iff
    (hty : ty = .int64 ∨ ty = .timestampNanos) {data : List (BitVec 64)} {validity page : Bytes}
    {le : Bool}
    (hpage : encodePageNative c ty (.int64 data validity) encoding compress le = .ok page)
    (hsmall : 4 + validity.length + data.length * 8 < 2 ^ 32) :
    Agree c ty page data.length ↔ SharedFixed validity data.length 8 encoding compress := by
  have hfixed : ty.isNativeFixed = true := by rcases hty with rfl | rfl <;> rfl
  have hwidth : nullWidth ty = 8 := by rcases hty with rfl | rfl <;> rfl
  have hsize (p : Bytes) (hp : p.length = data.length * 8) :
      (withValidity validity p).length < 2 ^ 32 := by
    rw [length_withValidity, hp]
    exact hsmall
  have hunfold : encodePageNative c ty (.int64 data validity) encoding compress le =
      if encoding = .delta ∧ (decide (compress = .plain) || decide (encoding = .plain)) = false
      then compressDeltaPayload c (withValidity validity (appendWords le (deltasOf 0 data)))
        compress le
      else nativePlainPage c validity compress
        (decide (compress = .plain) || decide (encoding = .plain)) le (appendWords le data) := by
    rcases hty with rfl | rfl <;> rfl
  rw [hunfold] at hpage
  split at hpage
  · next hdelta =>
    have hp : (appendWords le (deltasOf 0 data)).length = data.length * 8 := by
      rw [length_appendWords, length_deltasOf]
    have hcompressed : compressed encoding compress = true := by
      rw [compressed, hdelta.2]
      rfl
    exact agree_delta_iff hty hp hcompressed (hsize _ hp) hpage
  · have hp := length_appendWords le data
    have hplain := agree_plain_fixed_iff hfixed (hwidth ▸ hp) (hsize _ hp)
      (nativePlainPage_ok hpage)
    rw [hwidth] at hplain
    exact hplain

theorem agree_encodePageNative_iff {col : NativeColumn} {le : Bool} {page : Bytes}
    (hpage : encodePageNative c ty col encoding compress le = .ok page)
    (hsmall : contentLength M col encoding compress < 2 ^ 32) :
    Agree c ty page col.len ↔ SharedNative M col encoding compress := by
  cases col with
  | int64 data validity =>
    cases ty with
    | int64 => exact agree_nativeInt_iff (.inl rfl) hpage hsmall
    | timestampNanos => exact agree_nativeInt_iff (.inr rfl) hpage hsmall
    | _ => exact absurd hpage (by simp [encodePageNative])
  | float64 data validity =>
    cases ty with
    | float64 =>
      have hp := length_appendWords le data
      refine agree_plain_fixed_iff rfl hp ?_ (nativePlainPage_ok hpage)
      rw [length_withValidity, hp]
      exact hsmall
    | _ => exact absurd hpage (by simp [encodePageNative])
  | bool data validity =>
    cases ty with
    | bool =>
      refine agree_plain_fixed_iff rfl (Nat.mul_one _).symm ?_ (nativePlainPage_ok hpage)
      rw [length_withValidity]
      exact hsmall
    | _ => exact absurd hpage (by simp [encodePageNative])
  | bytes offsets values validity =>
    cases ty with
    | bytes => exact agree_nativeBytes_iff hpage hsmall
    | _ => exact absurd hpage (by simp [encodePageNative])

/-! ## Both writers -/

/-- What a page is written from: `Value`s or a typed column. -/
inductive PageSource (M : Type) where
  | ofValues (rows : List (Value M)) (encoding : Encoding)
  | ofNative (col : NativeColumn) (encoding : Encoding) (compress : Compress) (le : Bool)

namespace PageSource

def encode (c : Codecs M) (ty : TypeId) : PageSource M → Except (MongrelError M) Bytes
  | .ofValues rows encoding => encodePage c ty rows encoding
  | .ofNative col encoding compress le => encodePageNative c ty col encoding compress le

def rowCount : PageSource M → Nat
  | .ofValues rows _ => rows.length
  | .ofNative col _ _ _ => col.len

/-- Sizes that fit the 32-bit offsets and lengths of the format. -/
def Small : PageSource M → Prop
  | .ofValues rows _ => SmallValues rows
  | .ofNative col encoding compress _ => contentLength M col encoding compress < 2 ^ 32

def Shared (ty : TypeId) : PageSource M → Prop
  | .ofValues rows encoding => SharedValues ty encoding rows
  | .ofNative col encoding compress _ => SharedNative M col encoding compress

end PageSource

/-- The two readers yield the same list exactly from the pages of `PageSource.Shared`. -/
theorem readers_agree_iff {c : Codecs M} {ty : TypeId} {source : PageSource M} {page : Bytes}
    (hpage : source.encode c ty = .ok page) (hsmall : source.Small) :
    Agree c ty page source.rowCount ↔ source.Shared ty := by
  cases source with
  | ofValues rows encoding => exact agree_encodePage_iff hpage hsmall
  | ofNative col encoding compress le => exact agree_encodePageNative_iff hpage hsmall

/-- Two dates and a null, written as `Value`s. -/
theorem date_page_read_by_both :
    Agree rawCodecs .date64 (algoWithLe .plain false :: withValidity [0b101]
      [0, 0, 0, 0, 0, 0, 0, 5, 0, 0, 0, 0, 0, 0, 0, 0, 0, 0, 0, 0, 0, 0, 0, 7]) 3 :=
  (@readers_agree_iff Unit rawCodecs .date64 (.ofValues [.int64 5, .null, .int64 7] .plain) _ rfl
    ⟨by decide, by decide, by decide⟩).mpr
    ⟨⟨rfl, nofun⟩, fun h => nomatch h⟩

/-- A JSON value comes back as JSON from one reader and as bytes from the other. -/
theorem json_page_read_differently :
    ∃ page, encodePage rawCodecs .json [.json [0x31]] .plain = .ok page ∧
      decodePage rawCodecs .json page 1 = .ok [.json [0x31]] ∧
      decodePageNativeValues rawCodecs .json page 1 = .ok [.bytes [0x31]] ∧
      ¬ Agree rawCodecs .json page 1 := by
  refine ⟨_, rfl, rfl, rfl, ?_⟩
  rintro ⟨vs, h1, h2⟩
  have heq : ([.json [0x31]] : List (Value Unit)) = [.bytes [0x31]] :=
    Except.ok.inj (h1.trans h2.symm)
  exact absurd heq nofun

end MongrelDB.Columnar
