import MongrelDB.Columnar.Agreement

/-!
# Pages nobody vouches for

A page is read with a type and a row count from elsewhere, and nothing says that an
encoder wrote its bytes. Four lengths are used without a check: the offsets of a plain
page of variable-length values, the same narrowed to 32 bits, the number of indices of
a dictionary, and the row count times eight, which may wrap.
-/

namespace MongrelDB.Columnar

open Lib List

variable {M α β : Type} {ty : TypeId} {algo : Algo} {raw validity p : Bytes} {n : Nat} {le : Bool}

/-- A result with the property or an error of the source's own, not a panic. -/
def Answers (P : α → Prop) : Except (MongrelError M) α → Prop
  | .ok a => P a
  | .error e => e ≠ .panic

abbrev Calm : Except (MongrelError M) α → Prop := Answers fun _ => True

variable {r : Except (MongrelError M) α}

variable {P : α → Prop}

theorem Answers.error {Q : β → Prop} {e : MongrelError M} (h : Answers P r) (hr : r = .error e) :
    Answers Q (.error e) := by
  subst hr
  exact h

theorem Answers.ok {a : α} (h : Answers P r) (hr : r = .ok a) : P a := by
  subst hr
  exact h

theorem Answers.check {p : Prop} [Decidable p] {e : MongrelError M}
    (he : e ≠ .panic) (h : ¬ p → Answers P r) :
    Answers P (if p then .error e else r) := by
  split
  · exact he
  · exact h ‹_›

/-! ## Sections of a page -/

section Sections

variable (c : Codecs M) (data : Bytes)

theorem splitValidity_calm : Calm (M := M) (splitValidity data) :=
  .check nofun fun _ => .check nofun fun _ => trivial

/-- The number of bytes does not wrap to one the payload covers. -/
def Unwrapped (p : Bytes) (k : Nat) : Prop := k % 2 ^ 64 ≤ p.length → k < 2 ^ 64

theorem Unwrapped.covered {k : Nat} (h : Unwrapped p k) (hle : ¬ p.length < position p k) :
    k ≤ p.length := by
  rw [position] at hle
  split at hle
  · assumption
  · have hlt := h (by omega)
    omega

theorem takeWords_answers (h : Unwrapped data (n * 8)) (message : String) :
    Answers (M := M) (·.length = n) (takeWords message le data n) := by
  rw [takeWords]
  refine .check (by simp) fun hlt => ?_
  rw [position_of_le (h.covered hlt), Nat.mul_div_cancel n (by omega)]
  simp [Answers]

theorem readU32Be_calm : Calm (M := M) (readU32Be data) := .check nofun fun _ => trivial

theorem checkedSlice_calm (len : Nat) : Calm (M := M) (checkedSlice data len) :=
  .check nofun fun _ => trivial

theorem readIndices_calm (count : Nat) : Calm (M := M) (readIndices count data) := by
  induction count generalizing data with
  | zero => trivial
  | succ count ih =>
    rw [readIndices]
    split
    · exact (readU32Be_calm data).error ‹_›
    · split
      · exact (ih _).error ‹_›
      · trivial

theorem readTable_calm (count : Nat) : Calm (M := M) (readTable count data) := by
  induction count generalizing data with
  | zero => trivial
  | succ count ih =>
    rw [readTable]
    split
    · exact (readU32Be_calm data).error ‹_›
    · split
      · exact (checkedSlice_calm _ _).error ‹_›
      · split
        · exact (ih _).error ‹_›
        · trivial

theorem readDict_calm : Calm (M := M) (readDict data) := by
  rw [readDict]
  repeat' split
  all_goals first
    | trivial
    | exact (readU32Be_calm _).error ‹_›
    | exact (checkedSlice_calm _ _).error ‹_›
    | exact (readIndices_calm _ _).error ‹_›
    | exact (readTable_calm _ _).error ‹_›

theorem decompress_calm (algo : Algo) (maxBytes : Nat) :
    Calm (decompress c algo data maxBytes) := by
  have hzstd : Calm (zstdDecompress c data maxBytes) := by
    rw [zstdDecompress]
    cases c.zstdDecode data with
    | none => rintro ⟨⟩
    | some out => exact .check (by simp) fun _ => trivial
  have hlz4 : Calm (lz4Decompress c data maxBytes) := by
    refine .check (by simp) fun _ => .check (by simp) fun _ => ?_
    cases c.lz4Decode (data.drop 4) (leValue (data.take 4)) with
    | none => rintro ⟨⟩
    | some out => trivial
  cases algo <;> first | exact trivial | exact hzstd | exact hlz4

end Sections

/-! ## The `Value` reader -/

section Rows

/-- The offset table is there, and the offsets of the row bound a part of the data and are
in order when they are narrowed to 32 bits. -/
def RowReadable (le : Bool) (p : Bytes) (n i : Nat) : Prop :=
  (n + 1) * 8 ≤ p.length ∧ RowInRange le p n i ∧
    wordAt le p i % 2 ^ 32 ≤ wordAt le p (i + 1) % 2 ^ 32

theorem takeFloats_calm (dim cur : Nat) : Calm (M := M) (takeFloats p dim cur) := by
  induction dim generalizing cur with
  | zero => trivial
  | succ dim ih =>
    refine .check (by simp) fun _ => ?_
    split
    · exact (ih (cur + 4)).error ‹_›
    · trivial

theorem applyMetadata_answers (vs : List (Value M)) (ms : List (Option M)) :
    Answers (·.length = vs.length) (applyMetadata vs ms) := by
  induction vs generalizing ms with
  | nil => rfl
  | cons v vs ih =>
    cases ms with
    | nil => rfl
    | cons m ms =>
      rw [applyMetadata]
      split
      · exact (ih ms).error ‹_›
      · have hrest := (ih ms).ok ‹_›
        split
        · exact congrArg (· + 1) hrest
        · exact congrArg (· + 1) hrest
        · rintro ⟨⟩

variable (h : ty.isVarBytes = true → ∀ i < n, bitAt validity i = true → RowReadable le p n i)
include h

theorem decodeRow_calm {i : Nat} (hi : i < n) (cur : Nat) :
    Calm (M := M) (decodeRow ty validity p n le i cur) := by
  rw [decodeRow]
  split
  next hbit =>
    have hrow (hty : ty.isVarBytes = true) : Calm (M := M) (decodeBytesRow p n le i) := by
      obtain ⟨hlen, hrange, -⟩ := h hty i hi hbit
      rw [decodeBytesRow_eq hlen hi hrange]
      trivial
    rw [decodeValue.eq_def]
    repeat' split
    all_goals first
      | trivial
      | exact .check (by simp) fun _ => trivial
      | exact (hrow rfl).error ‹_›
      | exact (takeFloats_calm _ cur).error ‹_›
      | rintro ⟨⟩
  next =>
    have hnull : Calm (M := M) (advanceNull ty p cur) := .check (by simp) fun _ => trivial
    split
    · exact hnull.error ‹_›
    · trivial

theorem decodeRows_answers (count i cur : Nat) (hi : i + count ≤ n) :
    Answers (M := M) (·.1.length = count) (decodeRows ty validity p n le count i cur) := by
  induction count generalizing i cur with
  | zero => rfl
  | succ count ih =>
    rw [decodeRows]
    split
    · exact (decodeRow_calm h (show i < n by omega) cur).error ‹_›
    · have hrest := ih (i + 1) ‹_› (by omega)
      split
      · exact hrest.error ‹_›
      · exact congrArg (· + 1) (hrest.ok ‹_›)

theorem decodePayload_answers (c : Codecs M) :
    Answers (·.length = n) (decodePayload c ty validity p n le) := by
  have hrows := decodeRows_answers (M := M) h n 0 0 (by omega)
  rw [decodePayload]
  split
  · exact hrows.error ‹_›
  · have hn := hrows.ok ‹_›
    split
    · split
      · refine .check (by simp) fun _ => .check (by simp) fun _ => ?_
        split
        · rintro ⟨⟩
        · exact .check (by simp) fun _ => hn ▸ applyMetadata_answers _ _
      · exact hn
    · exact hn

end Rows

section Dict

variable (validity : Bytes) (table : List Bytes) (i : Nat) (indices : List Nat)

theorem dictRows_answers :
    Answers (M := M) (·.length = indices.length) (dictRows validity table i indices) := by
  induction indices generalizing i with
  | nil => rfl
  | cons idx indices ih =>
    rw [dictRows]
    split
    · split
      · rintro ⟨⟩
      · split
        · exact (ih (i + 1)).error ‹_›
        · exact congrArg (· + 1) ((ih (i + 1)).ok ‹_›)
    · split
      · exact (ih (i + 1)).error ‹_›
      · exact congrArg (· + 1) ((ih (i + 1)).ok ‹_›)

/-- The typed reader only gets through rows the other reader gets through. -/
theorem mergeRows_answers (merged : Bytes) :
    Answers (M := M) (fun _ => ∃ vs : List (Value M), dictRows validity table i indices = .ok vs)
      (mergeRows validity table i indices merged) := by
  induction indices generalizing i merged with
  | nil => exact ⟨[], rfl⟩
  | cons idx indices ih =>
    rw [mergeRows]
    split
    next hbit =>
      split
      · rintro ⟨⟩
      next entry hentry =>
        split
        · exact (ih (i + 1) _).error ‹_›
        next hm =>
          obtain ⟨vs, hvs⟩ := (ih (i + 1) _).ok hm
          exact ⟨.bytes entry :: vs, by simp only [dictRows, hbit, if_true, hentry, hvs]⟩
    next hbit =>
      split
      · exact (ih (i + 1) _).error ‹_›
      next hm =>
        obtain ⟨vs, hvs⟩ := (ih (i + 1) _).ok hm
        exact ⟨.null :: vs, by rw [dictRows, if_neg hbit, hvs]⟩

end Dict

/-! ## The typed reader -/

theorem valuesFrom_answers {col : NativeColumn}
    (h : ∀ i < n, Calm (M := M) (col.valueAt i)) (count i : Nat) (hi : i + count ≤ n) :
    Answers (M := M) (·.length = count) (col.valuesFrom count i) := by
  induction count generalizing i with
  | zero => rfl
  | succ count ih =>
    have hrest := ih (i + 1) (by omega)
    rw [NativeColumn.valuesFrom]
    split
    · exact (h i (by omega)).error ‹_›
    · split
      · exact hrest.error ‹_›
      · exact congrArg (· + 1) (hrest.ok ‹_›)

/-- The column has the rows, and reading them all answers. -/
def Readable (M : Type) (n : Nat) (col : NativeColumn) : Prop :=
  col.len = n ∧ Answers (M := M) (·.length = n) (col.valuesFrom n 0)

theorem readable_of_not_bytes {col : NativeColumn} (hlen : col.len = n)
    (h : ∀ offsets values validity, col ≠ .bytes offsets values validity) : Readable M n col := by
  refine ⟨hlen, valuesFrom_answers (n := n) (fun i _ => ?_) n 0 (by omega)⟩
  cases col with
  | bytes offsets values validity => exact absurd rfl (h offsets values validity)
  | _ => rw [NativeColumn.valueAt]; split <;> trivial

/-- Narrowed offsets that are in order do not leave the data. -/
theorem readable_of_offsets {offsets : List Nat} {values validity : Bytes}
    (hlen : offsets.length = n + 1)
    (h : ∀ i lo hi, bitAt validity i = true → offsets[i]? = some lo → offsets[i + 1]? = some hi →
      lo % 2 ^ 32 ≤ hi % 2 ^ 32 ∧ hi ≤ values.length) :
    Readable M n (.bytes (offsets.map UInt32.ofNat) values validity) := by
  refine ⟨by simp [NativeColumn.len, hlen], valuesFrom_answers (n := n) (fun i _ => ?_) n 0
    (by omega)⟩
  simp only [NativeColumn.valueAt, NativeColumn.validity, getElem?_map]
  split
  · trivial
  next hbit =>
    cases hlo : offsets[i]? with
    | none => trivial
    | some lo =>
      cases hhi : offsets[i + 1]? with
      | none => trivial
      | some hi =>
        obtain ⟨horder, hend⟩ := h i lo hi (by simpa using hbit) hlo hhi
        have hle := Nat.mod_le hi (2 ^ 32)
        simp only [Option.map_some, UInt32.toNat_ofNat', slice]
        rw [if_neg (by omega)]
        trivial

theorem readable_bytesColumn (h : ∀ i < n, bitAt validity i = true → RowReadable le p n i) :
    Readable M n (bytesColumn le validity p n) := by
  have hwords : bytesColumn le validity p n =
      .bytes (((wordsOf le p (n + 1)).map BitVec.toNat).map UInt32.ofNat)
        (p.drop ((n + 1) * 8)) validity := by
    rw [map_map]
    rfl
  rw [hwords]
  refine readable_of_offsets (by simp [wordsOf]) fun i lo hi hbit hlo hhi => ?_
  have hi' : i + 1 < n + 1 := by
    simpa [wordsOf] using (List.getElem?_eq_some_iff.mp hhi).1
  rw [getElem?_map, getElem?_wordsOf (by omega)] at hlo hhi
  obtain ⟨rfl, rfl⟩ := And.intro (Option.some.inj hlo) (Option.some.inj hhi)
  obtain ⟨-, hrange, hnarrow⟩ := h i (by omega) hbit
  exact ⟨hnarrow, hrange.2⟩

/-! ## Pages -/

/-- Every row a plain page marks valid is readable. -/
def OffsetsReadable (M : Type) (le : Bool) (raw : Bytes) (n : Nat) : Prop :=
  ∀ validity p, (splitValidity raw : Except (MongrelError M) _) = .ok (validity, p) →
    ∀ i < n, bitAt validity i = true → RowReadable le p n i

/-- Where its rows decode, the dictionary has an index for every row, and the typed reader's
narrowed offsets are in order. -/
def DictReadable (M : Type) (ty : TypeId) (raw : Bytes) (n : Nat) : Prop :=
  ∀ validity indices table,
    (readDict raw : Except (MongrelError M) _) = .ok (validity, indices, table) →
    ∀ vs : List (Value M), dictRows validity table 0 (indices.take n) = .ok vs →
      n ≤ indices.length ∧ (ty.isVarBytes = true → ∀ i < n,
        (dataOf (vs.take i)).length % 2 ^ 32 ≤ (dataOf (vs.take (i + 1))).length % 2 ^ 32)

/-- The words a reader takes of a payload at once. -/
def wordCount (algo : Algo) (n : Nat) : TypeId → Nat
  | .int64 | .timestampNanos => n
  | .date64 | .time64 | .float64 => if algo.isPlain then n else 0
  | .bytes | .json | .enum _ => if algo.isPlain then n + 1 else 0
  | _ => 0

/-- What the readers use of a content without a check is in order. -/
structure InOrder (M : Type) (ty : TypeId) (algo : Algo) (raw : Bytes) (n : Nat) (le : Bool) :
    Prop where
  count : algo.isDict = false → ∀ validity p,
    (splitValidity raw : Except (MongrelError M) _) = .ok (validity, p) →
      Unwrapped p (wordCount algo n ty * 8)
  offsets : algo.isPlain = true → ty.isVarBytes = true → OffsetsReadable M le raw n
  dict : algo.isDict = true → DictReadable M ty raw n

theorem decodeContent_answers (c : Codecs M) (h : InOrder M ty algo raw n le) :
    Answers (·.length = n) (decodeContent c ty algo raw n le) := by
  rw [decodeContent]
  split
  next hplain =>
    refine .check (by simp) fun h1 => .check (by simp) fun h2 => ?_
    exact decodePayload_answers (fun hty => h.offsets hplain hty _ _
      (by rw [splitValidity, if_neg h1, if_neg h2])) c
  next =>
    split
    next hdict =>
      rw [dictDecodeBytes]
      split
      · exact (readDict_calm raw).error ‹_›
      next validity indices table hr =>
        have hrows := dictRows_answers (M := M) validity table 0 (indices.take n)
        cases hvs : (dictRows validity table 0 (indices.take n) : Except (MongrelError M) _) with
        | error e => exact hrows.error hvs
        | ok vs =>
          have hlen := hrows.ok hvs
          rwa [length_take, Nat.min_eq_left (h.dict hdict _ _ _ hr vs hvs).1] at hlen
    next hplain hdict =>
      have hcount := h.count (eq_false_of_ne_true hdict)
      rw [decodeInt64DeltaValues.eq_def]
      cases ty with
      | int64 | timestampNanos =>
        dsimp only
        split
        · exact (splitValidity_calm raw).error ‹_›
        next validity p hsplit =>
          have hwords : Answers (M := M) (·.length = n) (takeI64 le p n) :=
            takeWords_answers p (hcount validity p hsplit) _
          split
          · exact hwords.error ‹_›
          next deltas hdeltas =>
            have hlen := hwords.ok hdeltas
            simpa [Answers, length_deltaPrefixSum] using hlen
      | _ => rintro ⟨⟩

theorem dictDecodeBytesNative_answers (hty : ty.isVarBytes = true) (h : DictReadable M ty raw n) :
    Answers (M := M) (Readable M n) (dictDecodeBytesNative raw n) := by
  rw [dictDecodeBytesNative]
  split
  · exact (readDict_calm raw).error ‹_›
  next validity indices table hr =>
    refine .check (by simp) fun hn => ?_
    split
    · exact (mergeRows_answers _ _ _ _ _).error ‹_›
    next offs merged hm =>
      obtain ⟨vs, hvs⟩ := (mergeRows_answers _ _ _ _ _).ok hm
      obtain ⟨hmerge, hfit, hlen⟩ := mergeRows_of_dictRows hvs []
      obtain ⟨rfl, rfl⟩ := Prod.mk.inj (Except.ok.inj (hm.symm.trans hmerge))
      have hcount : vs.length = n := by
        rw [hlen, length_take]
        omega
      have hread : Readable M n
          (.bytes ((offsetTable vs).map UInt32.ofNat) (dataOf vs) validity) := by
        refine readable_of_offsets (by simp [offsetTable, length_offsetsFrom, hcount])
          fun i lo hi _ hlo hhi => ?_
        have hi' : i + 1 < n + 1 := by
          simpa [offsetTable, length_offsetsFrom, hcount] using (List.getElem?_eq_some_iff.mp hhi).1
        rw [offsetTable, getElem?_offsetsFrom 0 vs (by omega), Nat.zero_add] at hlo hhi
        obtain ⟨rfl, rfl⟩ := And.intro (Option.some.inj hlo) (Option.some.inj hhi)
        refine ⟨(h _ _ _ hr vs hvs).2 hty i (by omega), ?_⟩
        have hcut := congrArg (fun l => (dataOf l).length) (take_append_drop (i + 1) vs)
        simp only [dataOf, flatMap_append, length_append] at hcut ⊢
        omega
      exact hread

theorem decodeBytesPlainPayload_answers (h : OffsetsReadable M le raw n)
    (hcount : ∀ validity p, (splitValidity raw : Except (MongrelError M) _) = .ok (validity, p) →
      Unwrapped p ((n + 1) * 8)) :
    Answers (M := M) (Readable M n) (decodeBytesPlainPayload raw n le) := by
  rw [decodeBytesPlainPayload]
  split
  · exact (splitValidity_calm raw).error ‹_›
  next validity p hsplit =>
    refine .check (by simp) fun hlen => ?_
    have hle := (hcount validity p hsplit).covered hlen
    rw [takeU64, takeWords_ok hle, position_of_le hle]
    exact readable_bytesColumn (h validity p hsplit)

theorem decodeContentNative_answers (h : InOrder M ty algo raw n le) :
    Answers (M := M) (Readable M n) (decodeContentNative ty algo raw n le) := by
  rw [decodeContentNative]
  split
  next hdict =>
    cases ty with
    | bytes | json | enum _ => exact dictDecodeBytesNative_answers rfl (h.dict hdict)
    | _ => rintro ⟨⟩
  next hdict =>
    have hcount := h.count (eq_false_of_ne_true hdict)
    split
    next =>
      rw [decodeDeltaNative.eq_def]
      cases ty with
      | int64 | timestampNanos =>
        dsimp only
        split
        · exact (splitValidity_calm raw).error ‹_›
        next validity p hsplit =>
          have hwords : Answers (M := M) (·.length = n) (takeI64 le p n) :=
            takeWords_answers p (hcount validity p hsplit) _
          split
          · exact hwords.error ‹_›
          next deltas hdeltas =>
            exact readable_of_not_bytes ((length_deltaPrefixSum 0 deltas).trans
              (hwords.ok hdeltas)) (by simp)
      | _ => rintro ⟨⟩
    next hdelta =>
      have hplain : algo.isPlain = true := by
        cases algo <;> first | rfl | exact absurd rfl hdict | exact absurd rfl hdelta
      simp only [wordCount, hplain, if_true] at hcount
      rw [decodePlainNative.eq_def]
      cases ty with
      | bytes | json | enum _ =>
        exact decodeBytesPlainPayload_answers (h.offsets hplain rfl) hcount
      | bool =>
        dsimp only
        split
        · exact (splitValidity_calm raw).error ‹_›
        next validity p hsplit =>
          refine .check (by simp) fun hlen => readable_of_not_bytes ?_ (by simp)
          simp only [NativeColumn.len, length_take]
          omega
      | int64 | timestampNanos | date64 | time64 | float64 =>
        dsimp only
        split
        · exact (splitValidity_calm raw).error ‹_›
        next validity p hsplit =>
          split
          · exact (takeWords_answers p (hcount validity p hsplit) _).error ‹_›
          next data hdata =>
            exact readable_of_not_bytes
              ((takeWords_answers p (hcount validity p hsplit) _).ok hdata) (by simp)
      | _ => rintro ⟨⟩

/-- What the readers use of a page without a check is in order. -/
def InBounds (c : Codecs M) (ty : TypeId) (page : Bytes) (n : Nat) : Prop :=
  ∀ byte body algo raw, page = byte :: body → algoBase byte = some algo →
    decompress c algo body (maxDecompressedBytes ty n algo) = .ok raw →
    InOrder M ty algo raw n (algoLe byte)

/-- A row of two bytes behind its two offsets, the second of which is given. -/
def twoBytes (hi : UInt8) : Bytes :=
  algoWithLe .plain false :: withValidity [1]
    [0, 0, 0, 0, 0, 0, 0, 0, 0, 0, 0, 0, 0, 0, 0, hi, 7, 8]

end MongrelDB.Columnar
