import MongrelDB.Columnar.VarBytes

/-!
# Encoding a page and decoding it again

Two things can be lost between `encode_page` and `decode_page`. A 32-bit unsigned
column is written as the low half of the number and read back with the sign of that
half.
-/

namespace MongrelDB.Columnar

open Lib List

variable {M : Type}

/-- `v` is a value of the type, null aside. -/
def TypeId.holds (ty : TypeId) (v : Value M) : Bool :=
  match ty, v with
  | .bool, .bool _ => true
  | .int64, .int64 _ | .timestampNanos, .int64 _ | .date64, .int64 _ | .time64, .int64 _ => true
  | .int32, .int64 x | .date32, .int64 x => decide (-2 ^ 31 ≤ x.toInt ∧ x.toInt < 2 ^ 31)
  | .uint32, .int64 x => decide (x.toNat < 2 ^ 32)
  | .float64, .float64 _ => true
  | .bytes, .bytes _ | .enum _, .bytes _ => true
  | .json, .json _ => true
  | .uuid, .uuid _ => true
  | .decimal128 _ _, .decimal _ => true
  | .interval, .interval _ _ _ => true
  | .embedding dim, .embedding vector | .embedding dim, .generatedEmbedding vector _ =>
    decide (vector.length = dim.toNat)
  | _, _ => false

/-! ## The framing -/

theorem algoBase_algoWithLe (algo : Algo) (le : Bool) : algoBase (algoWithLe algo le) = some algo :=
     by
  cases algo <;> cases le <;> rfl

theorem algoLe_algoWithLe (algo : Algo) (le : Bool) : algoLe (algoWithLe algo le) = le := by
  cases algo <;> cases le <;> rfl

@[simp] theorem length_validityBitmap (values : List (Value M)) :
    (validityBitmap values).length = (values.length + 7) / 8 := by
  simp [validityBitmap]

theorem length_withValidity (validity payload : Bytes) :
    (withValidity validity payload).length = 4 + validity.length + payload.length := by
  simp [withValidity]
  omega

/-- The parts of a column are where the readers look for them. -/
theorem parts_withValidity {validity : Bytes} (h : validity.length < 2 ^ 32) (payload : Bytes) :
    beValue ((withValidity validity payload).take 4) = validity.length ∧
      ((withValidity validity payload).drop 4).take validity.length = validity ∧
      (withValidity validity payload).drop (4 + validity.length) = payload := by
  rw [← drop_drop, withValidity, take_left' (length_beBytes 4 _),
    drop_left' (length_beBytes 4 _), take_left, drop_left]
  exact ⟨beValue_beBytes_of_lt (lt_of_lt_of_eq h (by norm_num)), rfl, rfl⟩

theorem decodeColumn_withValidity (c : Codecs M) (ty : TypeId) {validity : Bytes}
    (h : validity.length < 2 ^ 32) (payload : Bytes) (n : Nat) (le : Bool) :
    decodeColumn c ty (withValidity validity payload) n le =
      decodePayload c ty validity payload n le := by
  obtain ⟨hlen, hvalidity, hpayload⟩ := parts_withValidity h payload
  have hsize := length_withValidity validity payload
  rw [decodeColumn, if_neg (by omega), hlen, if_neg (by omega), hvalidity, hpayload]

variable {c : Codecs M} {ty : TypeId}

variable {column : Bytes}

theorem encodeColumn_ok {c : Codecs M} {values : List (Value M)}
    (h : encodeColumn c ty values = .ok column) :
    ∃ payload, encodePayload c ty values = .ok payload ∧
      withValidity (validityBitmap values) payload = column := by
  rw [encodeColumn] at h
  cases hpay : encodePayload c ty values with
  | error e => simp [hpay] at h
  | ok payload => exact ⟨payload, rfl, by simpa [hpay] using h⟩

theorem decompress_zstd {algo : Algo} {content : Bytes} {level : Int} {limit : Nat}
    (halgo : algo = .zstdPlain ∨ algo = .zstdDict ∨ algo = .zstdDelta) :
    (content.length ≤ limit → decompress c algo (c.zstdEncode level content) limit = .ok content) ∧
    (limit < content.length →
      ∃ e, decompress c algo (c.zstdEncode level content) limit = .error e) := by
  have hunfold : decompress c algo (c.zstdEncode level content) limit =
      zstdDecompress c (c.zstdEncode level content) limit := by
    rcases halgo with rfl | rfl | rfl <;> rfl
  rw [hunfold, zstdDecompress, c.zstd_lossless]
  constructor
  · intro h
    simp only [if_neg (Nat.not_lt.mpr h)]
  · intro h
    simp only [if_pos h]
    exact ⟨_, rfl⟩

theorem zstdCompress_ok {content compressed : Bytes} {level : Int}
    (h : zstdCompressLevel c content level = .ok compressed) :
    content.length ≤ maxPageDecompressedBytes ∧ compressed = c.zstdEncode level content := by
  rw [zstdCompressLevel] at h
  split at h
  next => exact absurd h (by simp)
  next hle => exact ⟨by omega, by simpa using h.symm⟩

/-! ## The metadata of embeddings -/

variable {values : List (Value M)} {dim : UInt32}

/-- The vectors get back the metadata they lost. -/
theorem applyMetadata_reread
    (h : ∀ v ∈ values, v.isNull = true ∨ ∃ vector, v.asEmbedding = some vector) :
    applyMetadata (values.map (reread (.embedding dim))) (metadataOf values) = .ok values := by
  induction values with
  | nil => rfl
  | cons v vs ih =>
    have htail := ih fun u hu => h u (mem_cons_of_mem _ hu)
    have hhead := h v mem_cons_self
    rw [metadataOf] at htail ⊢
    rw [map_cons, map_cons, applyMetadata, htail]
    cases v with
    | null | embedding vector | generatedEmbedding vector metadata => rfl
    | _ => simp [Value.isNull, Value.asEmbedding] at hhead

theorem embeddingTrailer_ok {trailer : Bytes}
    (h : embeddingTrailer c values = .ok trailer) :
    ((metadataOf values).any Option.isSome = false ∧ trailer = []) ∨
    ((metadataOf values).any Option.isSome = true ∧
      (c.serialize (metadataOf values)).length < 2 ^ 32 ∧
      trailer = generatedEmbeddingTrailerMagic ++
        (beBytes 4 (c.serialize (metadataOf values)).length ++
          c.serialize (metadataOf values))) := by
  rw [embeddingTrailer] at h
  split at h
  next hany =>
    dsimp only at h
    split at h
    next => exact absurd h (by simp)
    next hlt => exact .inr ⟨hany, by omega, by simpa using h.symm⟩
  next hany => exact .inl ⟨by simpa using hany, by simpa using h.symm⟩

theorem decodeTrailer_embeddingTrailer {values out : List (Value M)}
    (hlt : (c.serialize (metadataOf values)).length < 2 ^ 32) (hout : out.length = values.length) :
    decodeGeneratedEmbeddingTrailer c (generatedEmbeddingTrailerMagic ++
        (beBytes 4 (c.serialize (metadataOf values)).length ++
          c.serialize (metadataOf values))) out =
      applyMetadata out (metadataOf values) := by
  set encoded := c.serialize (metadataOf values) with hencoded
  have hmagic : generatedEmbeddingTrailerMagic.length = 4 := rfl
  have hsize : (generatedEmbeddingTrailerMagic ++ (beBytes 4 encoded.length ++ encoded)).length =
      8 + encoded.length := by
    simp [hmagic]
    omega
  have hlen : beValue (((generatedEmbeddingTrailerMagic ++
      (beBytes 4 encoded.length ++ encoded)).drop 4).take 4) = encoded.length := by
    rw [drop_left' hmagic, take_left' (length_beBytes 4 _),
      beValue_beBytes_of_lt (lt_of_lt_of_eq hlt (by norm_num))]
  have hbody : (generatedEmbeddingTrailerMagic ++ (beBytes 4 encoded.length ++ encoded)).drop 8 =
      encoded := by
    rw [← append_assoc, drop_left' (by simp [hmagic])]
  have hcount : (metadataOf values).length = out.length := by
    rw [metadataOf, length_map, hout]
  rw [decodeGeneratedEmbeddingTrailer, if_neg (by rw [hsize, take_left' hmagic]; simp), hlen,
    hsize, if_neg (by simp), hbody, hencoded, c.bincode_lossless]
  simp only [hcount, ne_eq, not_true_eq_false, if_false]

/-! ## The payload -/

/-- What a row comes back as from an uncompressed page. -/
def restored (ty : TypeId) (v : Value M) : Value M :=
  match ty with
  | .embedding _ => v
  | _ => reread ty v

theorem asEmbedding_of_embeddingSlot {v : Value M} {slot : Bytes}
    (h : embeddingSlot dim v = .ok slot) :
    v.isNull = true ∨ ∃ vector, v.asEmbedding = some vector := by
  rw [embeddingSlot] at h
  cases hv : v.asEmbedding with
  | some vector => exact .inr ⟨vector, rfl⟩
  | none =>
    rw [hv] at h
    dsimp only at h
    split at h
    next hnull => exact .inl hnull
    next => exact absurd h (by simp)

variable {payload : Bytes}

theorem embeddingEncode_ok
    (h : embeddingEncode c values dim = .ok payload) : ∃ vectors trailer,
      fixedEncode (embeddingSlot dim) values = .ok vectors ∧
        embeddingTrailer c values = .ok trailer ∧
      vectors ++ trailer = payload := by
  rw [embeddingEncode] at h
  cases hvec : fixedEncode (embeddingSlot dim) values with
  | error e => simp [hvec] at h
  | ok vectors =>
    cases htr : embeddingTrailer c values with
    | error e => simp [hvec, htr] at h
    | ok trailer => exact ⟨vectors, trailer, rfl, rfl, by simpa [hvec, htr] using h⟩

theorem decodePayload_embedding
    (h : embeddingEncode c values dim = .ok payload) :
    decodePayload c (.embedding dim) (validityBitmap values) payload values.length false =
      .ok values := by
  obtain ⟨vectors, trailer, hvec, htr, rfl⟩ := embeddingEncode_ok h
  have hfixed : (TypeId.embedding dim).isFixed = true := rfl
  have henc : fixedEncode (slotOf (.embedding dim)) values = .ok vectors := hvec
  obtain ⟨hlen, hrows⟩ := decodeRows_fixedEncode hfixed henc trailer values.length
  have hkind : ∀ v ∈ values, v.isNull = true ∨ ∃ vector, v.asEmbedding = some vector :=
    fun v hv => asEmbedding_of_embeddingSlot ((fixedEncode_ok hvec).1 v hv)
  rw [decodePayload, hrows]
  simp only
  rcases embeddingTrailer_ok htr with ⟨hnone, rfl⟩ | ⟨hsome, hlt, rfl⟩
  · -- no row has metadata, so the rows are the values
    rw [if_neg (by rw [append_nil, hlen]; omega)]
    congr 1
    refine (map_congr_left fun v hv => ?_).trans (map_id _)
    have hmeta : v.generatedEmbeddingMetadata = none := by
      have := any_eq_false.mp hnone v.generatedEmbeddingMetadata
        (mem_map_of_mem hv)
      simpa using this
    cases v with
    | null | embedding vector => rfl
    | generatedEmbedding vector metadata => simp [Value.generatedEmbeddingMetadata] at hmeta
    | _ =>
      have := hkind _ hv
      simp [Value.isNull, Value.asEmbedding] at this
  · rw [if_pos (by rw [length_append, hlen]; simp [generatedEmbeddingTrailerMagic]),
      ← hlen, drop_left, decodeTrailer_embeddingTrailer hlt (by simp),
      applyMetadata_reread hkind]

/-- Every row of an uncompressed page comes back as `restored` says. -/
theorem decodePayload_encodePayload
    (h : encodePayload c ty values = .ok payload) :
    decodePayload c ty (validityBitmap values) payload values.length false =
      .ok (values.map (restored ty)) := by
  -- fixed-width types without a trailer
  have hfixed : ∀ (ty : TypeId), ty.isFixed = true → (∀ dim, ty ≠ .embedding dim) →
      fixedEncode (slotOf ty) values = .ok payload →
      decodePayload c ty (validityBitmap values) payload values.length false =
        .ok (values.map (restored ty)) := by
    intro ty hty hne henc
    have hrows := (decodeRows_fixedEncode hty henc [] values.length).2
    rw [append_nil] at hrows
    rw [decodePayload, hrows]
    cases ty <;> first | rfl | exact absurd rfl (hne _)
  have hbytes : ∀ (ty : TypeId), ty.isVarBytes = true → bytesEncode values = .ok payload →
      decodePayload c ty (validityBitmap values) payload values.length false =
        .ok (values.map (restored ty)) := by
    intro ty hty henc
    rw [decodePayload, decodeRows_bytesEncode hty henc]
    cases ty <;> first | (cases hty; done) | rfl
  cases ty with
  | embedding dim =>
    rw [decodePayload_embedding h]
    exact congrArg Except.ok (map_id values).symm
  | bytes | json | enum variants => exact hbytes _ rfl h
  | int64 | timestampNanos | date64 | time64 | float64 | interval | bool | int32 | uint32 | date32
  | uuid | decimal128 p s => exact hfixed _ rfl (fun _ => by simp) h
  | _ => simp [encodePayload] at h

/-! ## The limit on compressed pages -/

theorem length_encodePayload
    (h : encodePayload c ty values = .ok payload) (hty : ty.isFixed = true)
    (hne : ∀ dim, ty ≠ .embedding dim) : payload.length = values.length * ty.fixedSize.getD 8 := by
  have hslots : fixedEncode (slotOf ty) values = .ok payload := by
    cases ty <;> first
      | exact h
      | exact absurd rfl (hne _)
      | exact absurd hty (by simp [TypeId.isFixed])
  rw [(decodeRows_fixedEncode hty hslots [] values.length).1]
  cases ty <;> first | rfl | exact absurd rfl (hne _) | exact absurd hty (by simp [TypeId.isFixed])

/-- The trailer of an embedding page. -/
def trailerLength (c : Codecs M) (values : List (Value M)) : Nat :=
  if (metadataOf values).any Option.isSome then 8 + (c.serialize (metadataOf values)).length else 0

theorem length_embeddingEncode
    (h : embeddingEncode c values dim = .ok payload) :
    payload.length = values.length * (dim.toNat * 4) + trailerLength c values := by
  obtain ⟨vectors, trailer, hvec, htr, rfl⟩ := embeddingEncode_ok h
  have henc : fixedEncode (slotOf (.embedding dim)) values = .ok vectors := hvec
  have hlen := (decodeRows_fixedEncode rfl henc [] values.length).1
  rw [length_append, hlen, trailerLength]
  rcases embeddingTrailer_ok htr with ⟨hnone, rfl⟩ | ⟨hsome, -, rfl⟩
  · rw [hnone]
    rfl
  · rw [if_pos hsome]
    simp [generatedEmbeddingTrailerMagic, nullWidth]
    omega

/-- Only the trailer of an embedding page can take a page over the reader's limit. -/
theorem length_le_maxDecompressedBytes_iff (h : encodeColumn c ty values = .ok column)
    (hmax : column.length ≤ maxPageDecompressedBytes) :
    column.length ≤ maxDecompressedBytes ty values.length .zstdPlain ↔
      ∀ dim, ty = .embedding dim → trailerLength c values ≤ 4 * dim.toNat * values.length := by
  obtain ⟨payload, hpay, rfl⟩ := encodeColumn_ok h
  have hlen := length_withValidity (validityBitmap values) payload
  rw [length_validityBitmap] at hlen
  cases ty with
  | embedding dim =>
    have hpayload := length_embeddingEncode hpay
    have hvec : values.length * (dim.toNat * 4) = 4 * dim.toNat * values.length := by ring
    have hbound : dim.toNat * 8 * values.length = 2 * (4 * dim.toNat * values.length) := by ring
    simp only [maxDecompressedBytes, Algo.isDelta, Algo.isDict, Bool.false_eq_true, if_false,
      Nat.le_min, hmax, and_true, TypeId.embedding.injEq, forall_eq', hbound]
    omega
  | bytes | json | enum variants =>
    simp only [maxDecompressedBytes, Algo.isDelta, Algo.isDict, Bool.false_eq_true, if_false]
    simp [hmax]
  | int64 | timestampNanos | date64 | time64 | float64 | interval | bool | int32 | uint32
  | date32 | uuid | decimal128 p s =>
    have hpayload := length_encodePayload hpay rfl (fun _ => by simp)
    simp only [maxDecompressedBytes, Algo.isDelta, Algo.isDict, Bool.false_eq_true, if_false,
      Nat.le_min, hmax, and_true]
    simp
    omega
  | _ => simp [encodePayload] at hpay

/-! ## What is lost -/

theorem signExtend_setWidth_eq_iff (x : BitVec 64) :
    (x.setWidth 32).signExtend 64 = x ↔ -2 ^ 31 ≤ x.toInt ∧ x.toInt < 2 ^ 31 := by
  have hval : ((x.setWidth 32).signExtend 64).toInt = x.toInt.bmod (2 ^ 32) := by
    rw [BitVec.toInt_signExtend_of_le (by omega), BitVec.toInt_setWidth, BitVec.toInt_eq_toNat_bmod,
      Int.bmod_bmod_of_dvd (by norm_num)]
  rw [← BitVec.toInt_inj, hval, Int.bmod_def]
  split <;> omega

/-- The page reads back: no unsigned number of a 32-bit column needs the top bit, and the metadata
in a compressed embedding page is no longer than the vectors. -/
def Survives (c : Codecs M) (ty : TypeId) (encoding : Encoding) (values : List (Value M)) : Prop :=
  (ty = .uint32 → ∀ x, .int64 x ∈ values → x.toNat < 2 ^ 31) ∧
  (encoding ≠ .plain → ∀ dim, ty = .embedding dim →
    trailerLength c values ≤ 4 * dim.toNat * values.length)

/-- A value of its column's type is restored, except for the upper half of the unsigned range. -/
theorem restored_eq_iff {v : Value M} (h : v = .null ∨ ty.holds v = true) :
    restored ty v = v ↔ (ty = .uint32 → ∀ x, v = .int64 x → x.toNat < 2 ^ 31) := by
  rcases h with rfl | h
  · have : restored ty (.null : Value M) = .null := by cases ty <;> rfl
    simp [this]
  cases ty with
  | uint32 =>
    cases v with
    | int64 x =>
      have hx : x.toNat < 2 ^ 32 := by simpa [TypeId.holds] using h
      have hre : restored .uint32 (.int64 x : Value M) = .int64 ((x.setWidth 32).signExtend 64) :=
        rfl
      rw [hre, Value.int64.injEq, signExtend_setWidth_eq_iff, BitVec.toInt_eq_toNat_cond]
      simp only [forall_true_left, Value.int64.injEq, forall_eq']
      split <;> omega
    | _ => simp [TypeId.holds] at h
  | int32 | date32 =>
    cases v with
    | int64 x =>
      have hx : -2 ^ 31 ≤ x.toInt ∧ x.toInt < 2 ^ 31 := by simpa [TypeId.holds] using h
      have hre : (.int64 ((x.setWidth 32).signExtend 64) : Value M) = .int64 x := by
        rw [(signExtend_setWidth_eq_iff x).mpr hx]
      exact iff_of_true hre (fun ht => by simp at ht)
    | _ => simp [TypeId.holds] at h
  | _ =>
    cases v <;> first
      | exact iff_of_true rfl (fun ht => by simp at ht)
      | (simp [TypeId.holds] at h)

theorem map_restored_eq_iff
    (h : ∀ v ∈ values, v = .null ∨ ty.holds v = true) :
    values.map (restored ty) = values ↔
      (ty = .uint32 → ∀ x, .int64 x ∈ values → x.toNat < 2 ^ 31) := by
  have hmap : values.map (restored ty) = values ↔ ∀ v ∈ values, restored ty v = v := by
    conv_lhs => rhs; rw [← map_id values]
    exact map_inj_left
  rw [hmap]
  constructor
  · intro hall hty x hx
    exact (restored_eq_iff (h _ hx)).mp (hall _ hx) hty x rfl
  · intro hall v hv
    exact (restored_eq_iff (h v hv)).mpr fun hty x hx => hall hty x (hx ▸ hv)

/-! ## Pages -/

theorem encodePage_ok {encoding : Encoding}
    {page : Bytes} (h : encodePage c ty values encoding = .ok page) :
    (encoding = .plain ∧ ∃ column, encodeColumn c ty values = .ok column ∧
      page = algoWithLe .plain false :: column) ∨
    (encoding = .dictionary ∧ ty.hasDictionary = true ∧
      (dictEncodeBytes values).length ≤ maxPageDecompressedBytes ∧
      page = algoWithLe .zstdDict false :: c.zstdEncode 3 (dictEncodeBytes values)) ∨
    (encoding ≠ .plain ∧ ¬ (encoding = .dictionary ∧ ty.hasDictionary = true) ∧
      ∃ column, encodeColumn c ty values = .ok column ∧
      column.length ≤ maxPageDecompressedBytes ∧
      page = algoWithLe .zstdPlain false :: c.zstdEncode 3 column) := by
  by_cases hplain : encoding = .plain
  · subst hplain
    rw [encodePage] at h
    cases hcol : encodeColumn c ty values with
    | error e => simp [hcol] at h
    | ok column => exact .inl ⟨rfl, column, rfl, by simpa [hcol] using h.symm⟩
  rw [encodePage] at h
  · split at h
    next hdict =>
      cases hz : zstdCompress c (dictEncodeBytes values) with
      | error e => simp [hz] at h
      | ok compressed =>
        obtain ⟨hlen, rfl⟩ := zstdCompress_ok hz
        exact .inr (.inl ⟨hdict.1, hdict.2, hlen, by simpa [hz] using h.symm⟩)
    next hdict =>
      cases hcol : encodeColumn c ty values with
      | error e => simp [hcol] at h
      | ok column =>
        cases hz : zstdCompress c column with
        | error e => simp [hcol, hz] at h
        | ok compressed =>
          obtain ⟨hlen, rfl⟩ := zstdCompress_ok hz
          exact .inr (.inr ⟨hplain, hdict, column, rfl, hlen, by simpa [hcol, hz] using h.symm⟩)
  · exact hplain

theorem decodeColumn_encodeColumn (h : encodeColumn c ty values = .ok column)
    (hn : values.length ≤ 8 * (2 ^ 32 - 1)) :
    decodeColumn c ty column values.length false = .ok (values.map (restored ty)) := by
  obtain ⟨payload, hpay, rfl⟩ := encodeColumn_ok h
  rw [decodeColumn_withValidity c ty (by rw [length_validityBitmap]; omega),
    decodePayload_encodePayload hpay]

theorem decodePage_plain (c : Codecs M) (ty : TypeId) (content : Bytes) (n : Nat) :
    decodePage c ty (algoWithLe .plain false :: content) n = decodeColumn c ty content n false := by
  rw [decodePage, algoBase_algoWithLe, algoLe_algoWithLe]
  rfl

/-- A page reads back as its values exactly when nothing is lost. -/
theorem decodePage_encodePage_iff {c : Codecs M} {ty : TypeId} {values : List (Value M)}
    {encoding : Encoding} {page : Bytes} (hpage : encodePage c ty values encoding = .ok page)
    (hvalues : ∀ v ∈ values, v = .null ∨ ty.holds v = true)
    (hn : values.length ≤ 8 * (2 ^ 32 - 1)) :
    decodePage c ty page values.length = .ok values ↔ Survives c ty encoding values := by
  have hrestored := map_restored_eq_iff hvalues
  rcases encodePage_ok hpage with ⟨rfl, column, hcol, rfl⟩ | ⟨rfl, hdict, hlen, rfl⟩ |
      ⟨hne, -, column, hcol, hlen, rfl⟩
  · rw [decodePage_plain, decodeColumn_encodeColumn hcol hn, Except.ok.injEq, hrestored, Survives]
    simp
  · -- dictionary pages hold bytes, which are never lost
    have hbytes : ∀ v ∈ values, v.isNull = false → ∃ b, v = .bytes b := by
      intro v hv hnull
      rcases hvalues v hv with rfl | hholds
      · simp [Value.isNull] at hnull
      · cases ty <;> simp [TypeId.hasDictionary] at hdict <;>
          cases v <;> simp [TypeId.holds] at hholds ⊢
    have hrows := dictRows_dictIndices hdict hbytes
    have hnotfixed : ty ≠ .uint32 ∧ ∀ dim, ty ≠ .embedding dim := by
      cases ty <;> simp [TypeId.hasDictionary] at hdict <;> simp
    have hid : values.map (reread ty) = values := by
      have hsame : values.map (restored ty) = values.map (reread ty) := by
        cases ty <;> first | (cases hdict; done) | rfl
      rw [← hsame]
      exact hrestored.mpr fun hty => absurd hty hnotfixed.1
    have hmax : maxDecompressedBytes ty values.length .zstdDict = maxPageDecompressedBytes := rfl
    have hcount : (dictIndices values []).1.length = values.length :=
      (isDict_dictIndices values []).length
    rw [decodePage, algoBase_algoWithLe]
    simp only [hmax, (decompress_zstd (.inr (.inl rfl))).1 hlen]
    rw [if_neg (by decide), if_pos (by decide), dictDecodeBytes, readDict_dictEncodeBytes hlen]
    simp only [take_of_length_le (Nat.le_of_eq hcount), hrows, hid]
    exact iff_of_true trivial ⟨fun h => absurd h hnotfixed.1,
      fun _ dim h => absurd h (hnotfixed.2 dim)⟩
  · have hfit := length_le_maxDecompressedBytes_iff hcol hlen
    rw [decodePage, algoBase_algoWithLe, algoLe_algoWithLe]
    by_cases hle : column.length ≤ maxDecompressedBytes ty values.length .zstdPlain
    · simp only [(decompress_zstd (.inl rfl)).1 hle]
      rw [if_pos (by decide), decodeColumn_encodeColumn hcol hn, Except.ok.injEq, hrestored,
        Survives]
      exact ⟨fun h => ⟨h, fun _ => hfit.mp hle⟩, And.left⟩
    · -- the reader refuses the page
      obtain ⟨e, he⟩ : ∃ e, decompress c .zstdPlain (c.zstdEncode 3 column)
          (maxDecompressedBytes ty values.length .zstdPlain) = .error e :=
        (decompress_zstd (.inl rfl)).2 (Nat.lt_of_not_le hle)
      simp only [he]
      refine iff_of_false (by simp) fun hsurvives => hle (hfit.mpr ?_)
      exact hsurvives.2 hne

/-- Compressors that do nothing, and one byte a row for metadata that says nothing. -/
def rawCodecs : Codecs Unit where
  zstdEncode _ data := data
  zstdDecode := some
  lz4Block data := data
  lz4Decode data _ := some data
  serialize metadata := metadata.map fun m => if m.isSome then 1 else 0
  deserialize data := some (data.map fun b => if b = 0 then none else some ())
  zstd_lossless _ _ := rfl
  lz4_lossless _ := rfl
  bincode_lossless metadata := by
    rw [map_map]
    refine congrArg some ((map_congr_left fun m _ => ?_).trans (map_id metadata))
    cases m <;> rfl

theorem unsigned_page_survives :
    decodePage rawCodecs .uint32 (algoWithLe .zstdPlain false ::
      withValidity [0b101] [0, 0, 0, 5, 0, 0, 0, 0, 0x7f, 0xff, 0xff, 0xff]) 3 =
      .ok [.int64 5, .null, .int64 0x7fffffff] ↔
    Survives rawCodecs .uint32 .zstd [.int64 5, .null, .int64 0x7fffffff] :=
  @decodePage_encodePage_iff Unit rawCodecs .uint32 [.int64 5, .null, .int64 0x7fffffff] .zstd _
    rfl (by decide) (by decide)

/-- The number 2^31 comes back as -2^31. -/
theorem unsigned_top_bit_lost :
    TypeId.uint32.holds (.int64 0x80000000 : Value Unit) = true ∧
    ∃ page, encodePage rawCodecs .uint32 [.int64 0x80000000] .plain = .ok page ∧
      decodePage rawCodecs .uint32 page 1 = .ok [.int64 0xffffffff80000000] ∧
      decodePage rawCodecs .uint32 page 1 ≠ .ok [.int64 0x80000000] := by
  have hdecode : decodePage rawCodecs .uint32
      (algoWithLe .plain false :: withValidity [1] [0x80, 0, 0, 0]) 1 =
      .ok [.int64 0xffffffff80000000] := rfl
  refine ⟨by decide, algoWithLe .plain false :: withValidity [1] [0x80, 0, 0, 0], rfl, hdecode, ?_⟩
  rw [hdecode]
  simp

end MongrelDB.Columnar
