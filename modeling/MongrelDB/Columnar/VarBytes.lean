import MongrelDB.Columnar.Slots

/-!
# Variable-length payloads

Bytes columns keep a table of offsets in front of the concatenated data, or a
dictionary of the distinct values with an index for each row.
-/

namespace MongrelDB.Columnar

open Lib List Option

variable {M : Type}

/-- The types stored as an offset table. -/
def TypeId.isVarBytes : TypeId → Bool
  | .bytes | .json | .enum _ => true
  | _ => false

/-! ## The offset table -/

/-- The end of each row in the data section. -/
def offsetsFrom : Nat → List (Value M) → List Nat
  | _, [] => []
  | off, v :: vs => (off + v.rawBytes.length) :: offsetsFrom (off + v.rawBytes.length) vs

/-- The whole table, with the start of the first row in front. -/
def offsetTable (values : List (Value M)) : List Nat := 0 :: offsetsFrom 0 values

def dataOf (values : List (Value M)) : Bytes := values.flatMap Value.rawBytes

theorem length_offsetsFrom (off : Nat) (values : List (Value M)) :
    (offsetsFrom off values).length = values.length := by
  induction values generalizing off with
  | nil => rfl
  | cons v vs ih => simp [offsetsFrom, ih]

theorem getElem?_offsetsFrom (off : Nat) (values : List (Value M)) {k : Nat}
    (hk : k ≤ values.length) :
    (off :: offsetsFrom off values)[k]? = some (off + (dataOf (values.take k)).length) := by
  induction values generalizing off k with
  | nil =>
    obtain rfl : k = 0 := by simpa using hk
    simp [dataOf]
  | cons v vs ih =>
    cases k with
    | zero => simp [dataOf]
    | succ k =>
      have := ih (off + v.rawBytes.length) (k := k) (by simpa using hk)
      rw [getElem?_cons_succ, offsetsFrom, this, take_succ_cons]
      simp [dataOf, Nat.add_assoc]

variable {values : List (Value M)}

theorem bytesEncodeLoop_ok {off : Nat} {offsets data : Bytes}
    (h : bytesEncodeLoop off values = .ok (offsets, data)) :
    offsets = (offsetsFrom off values).flatMap (beBytes 8) ∧ data = dataOf values ∧
      ∀ o ∈ offsetsFrom off values, o < 2 ^ 64 := by
  induction values generalizing off offsets data with
  | nil =>
    obtain ⟨rfl, rfl⟩ : [] = offsets ∧ [] = data := by simpa [bytesEncodeLoop] using h
    exact ⟨rfl, rfl, fun o ho => absurd ho not_mem_nil⟩
  | cons v vs ih =>
    rw [bytesEncodeLoop] at h
    split at h
    next => exact absurd h (by simp)
    next hlt =>
      cases hrest : bytesEncodeLoop (off + v.rawBytes.length) vs with
      | error e => simp [hrest] at h
      | ok r =>
        obtain ⟨offsets', data'⟩ := r
        obtain ⟨rfl, rfl, hall⟩ := ih hrest
        obtain ⟨rfl, rfl⟩ := by simpa [hrest] using h
        exact ⟨rfl, rfl, forall_mem_cons.mpr ⟨by omega, hall⟩⟩

variable {payload : Bytes}

theorem bytesEncode_ok
    (h : bytesEncode values = .ok payload) :
    payload = (offsetTable values).flatMap (beBytes 8) ++ dataOf values ∧
      ∀ o ∈ offsetTable values, o < 2 ^ 64 := by
  rw [bytesEncode] at h
  cases hloop : bytesEncodeLoop 0 values with
  | error e => simp [hloop] at h
  | ok r =>
    obtain ⟨offsets, data⟩ := r
    obtain ⟨rfl, rfl, hall⟩ := bytesEncodeLoop_ok hloop
    obtain rfl := by simpa [hloop] using h
    exact ⟨by simp [offsetTable], forall_mem_cons.mpr ⟨by decide, hall⟩⟩

theorem length_flatMap_offsets (offsets : List Nat) :
    (offsets.flatMap (beBytes 8)).length = offsets.length * 8 :=
  length_flatMap_of_length fun o _ => length_beBytes 8 o

theorem readOff_offsets {offsets : List Nat} (hoff : ∀ o ∈ offsets, o < 2 ^ 64) (data : Bytes)
    {k o : Nat} (hk : offsets[k]? = some o) :
    (readOff (offsets.flatMap (beBytes 8) ++ data) k false : Except (MongrelError M) Nat) =
      .ok o := by
  have hlt : k < offsets.length := (List.getElem?_eq_some_iff.mp hk).1
  have ho : o < 2 ^ 64 := hoff o (mem_of_getElem? hk)
  have hle : k * 8 + 8 ≤ (offsets.flatMap (beBytes 8) ++ data).length := by
    rw [length_append, length_flatMap_offsets]
    omega
  rw [readOff, position_of_le (by omega), if_neg (by omega),
    take_drop_flatMap (fun o _ => length_beBytes 8 o) hk, ofBits, if_neg (by simp),
    beValue_beBytes_of_lt (lt_of_lt_of_eq ho (by norm_num)), BitVec.toNat_ofNat,
    Nat.mod_eq_of_lt ho]

theorem slice_append_right (table data : Bytes) (lo hi : Nat) :
    (slice (table ++ data) (table.length + lo) (table.length + hi) : Except (MongrelError M) _) =
      slice data lo hi := by
  simp only [slice, length_append]
  have hcond : (table.length + hi < table.length + lo ∨
      table.length + data.length < table.length + hi) ↔ (hi < lo ∨ data.length < hi) := by omega
  simp only [hcond, take_length_add_append, drop_length_add_append]

theorem decodeBytesRow_of_readOff {p : Bytes} {n i lo hi : Nat} {le : Bool}
    (hlo : (readOff p i le : Except (MongrelError M) Nat) = .ok lo)
    (hhi : (readOff p (i + 1) le : Except (MongrelError M) Nat) = .ok hi)
    (hle : lo ≤ hi) (hlen : (n + 1) * 8 + hi ≤ p.length) :
    (decodeBytesRow p n le i : Except (MongrelError M) Bytes) =
      slice p ((n + 1) * 8 + lo) ((n + 1) * 8 + hi) := by
  simp only [decodeBytesRow, hlo, hhi, position_of_le (show (n + 1) * 8 ≤ p.length by omega),
    position_of_le (show (n + 1) * 8 + lo ≤ p.length by omega), position_of_le hlen]

theorem decodeBytesRow_bytesEncode
    (h : bytesEncode values = .ok payload) {i : Nat} {v : Value M} (hi : values[i]? = some v) :
    (decodeBytesRow payload values.length false i : Except (MongrelError M) Bytes) =
      .ok v.rawBytes := by
  obtain ⟨rfl, hoff⟩ := bytesEncode_ok h
  have hlt : i < values.length := (List.getElem?_eq_some_iff.mp hi).1
  have hget : values[i] = v := (List.getElem?_eq_some_iff.mp hi).2
  have hlo := getElem?_offsetsFrom 0 values (Nat.le_of_lt hlt)
  have hhi := getElem?_offsetsFrom 0 values (show i + 1 ≤ values.length from hlt)
  -- the data is what comes before the row, the row, and what comes after
  have hsplit : dataOf values =
      dataOf (values.take i) ++ (v.rawBytes ++ dataOf (values.drop (i + 1))) := by
    have hcut : values = values.take i ++ v :: values.drop (i + 1) := by
      rw [← hget, ← drop_eq_getElem_cons hlt, take_append_drop]
    conv_lhs => rw [hcut]
    simp [dataOf]
  have hend : (dataOf (values.take (i + 1))).length =
      (dataOf (values.take i)).length + v.rawBytes.length := by
    rw [take_add_one, hi]
    simp [dataOf]
  have htable : ((offsetTable values).flatMap (beBytes 8)).length = (values.length + 1) * 8 := by
    rw [length_flatMap_offsets, offsetTable, length_cons, length_offsetsFrom]
  have hdata := congrArg length hsplit
  simp only [length_append] at hdata
  rw [decodeBytesRow_of_readOff (readOff_offsets hoff _ hlo) (readOff_offsets hoff _ hhi)
    (by omega) (by rw [length_append, htable]; omega)]
  simp only [Nat.zero_add, ← htable, slice_append_right]
  rw [slice, if_neg (by rw [hsplit]; simp only [length_append]; omega), hsplit, hend,
    ← append_assoc, take_left' (by simp), drop_left]

variable {ty : TypeId}

theorem decodeRow_bytesEncode (hty : ty.isVarBytes = true)
    (h : bytesEncode values = .ok payload) {i : Nat} {v : Value M} (hi : values[i]? = some v) :
    decodeRow ty (validityBitmap values) payload values.length false i 0 =
      .ok (reread ty v, 0) := by
  have hrow := decodeBytesRow_bytesEncode h hi
  rw [decodeRow, bitAt_validityBitmap hi]
  cases hnull : v.isNull with
  | true =>
    have hzero : nullWidth ty = 0 := by
      cases ty <;> first | (cases hty; done) | rfl
    rw [if_neg (by simp), reread_of_isNull ty hnull, advanceNull, hzero, if_neg (by omega)]
  | false =>
    rw [if_pos (by simp)]
    cases ty with
    | bytes | json | enum variants => simp only [decodeValue, hrow, reread, hnull]; rfl
    | _ => cases hty

theorem decodeRows_of_const {validity payload : Bytes} {n : Nat} {le : Bool}
    {f : Nat → Value M} (count i : Nat)
    (h : ∀ k, i ≤ k → k < i + count → decodeRow ty validity payload n le k 0 = .ok (f k, 0)) :
    decodeRows ty validity payload n le count i 0 =
      .ok ((List.range' i count).map f, 0) := by
  induction count generalizing i with
  | zero => rfl
  | succ count ih =>
    have hrest := ih (i + 1) fun k h1 h2 => h k (by omega) (by omega)
    rw [decodeRows, h i (Nat.le_refl i) (by omega)]
    simp only [hrest, range'_succ, map_cons]

theorem map_range_getD {α β : Type} (f : α → β) (l : List α) (d : α) :
    (List.range' 0 l.length).map (fun k => f (l.getD k d)) = l.map f := by
  refine ext_getElem (by simp) fun k h1 h2 => ?_
  have hk : k < l.length := by simpa using h2
  simp [getElem?_eq_getElem hk]

theorem decodeRows_bytesEncode (hty : ty.isVarBytes = true) (h : bytesEncode values = .ok payload) :
    decodeRows ty (validityBitmap values) payload values.length false values.length 0 0 =
      .ok (values.map (reread ty), 0) := by
  rw [decodeRows_of_const (f := fun k => reread ty (values.getD k .null)) values.length 0]
  · rw [map_range_getD]
  · intro k _ hk
    have hget : values[k]? = some values[k] := getElem?_eq_getElem (by omega)
    rw [decodeRow_bytesEncode hty h hget, getD_eq_getElem?_getD, hget, getD_some]

/-! ## Dictionaries -/

theorem readU32Be_append {n : Nat} (h : n < 2 ^ 32) (rest : Bytes) :
    (readU32Be (beBytes 4 n ++ rest) : Except (MongrelError M) _) = .ok (n, rest) := by
  rw [readU32Be, if_neg (by simp), take_left' (length_beBytes 4 n),
    drop_left' (length_beBytes 4 n),
    beValue_beBytes_of_lt (lt_of_lt_of_eq h (by norm_num))]

theorem checkedSlice_append (bytes rest : Bytes) :
    (checkedSlice (bytes ++ rest) bytes.length : Except (MongrelError M) _) =
      .ok (bytes, rest) := by
  rw [checkedSlice, if_neg (by simp), take_left, drop_left]

variable {indices : List Nat}

theorem readIndices_append (h : ∀ i ∈ indices, i < 2 ^ 32) (rest : Bytes) :
    (readIndices indices.length (indices.flatMap (beBytes 4) ++ rest) :
      Except (MongrelError M) _) = .ok (indices, rest) := by
  induction indices with
  | nil => rfl
  | cons i is ih =>
    have htail := ih fun j hj => h j (mem_cons_of_mem _ hj)
    simp only [length_cons, readIndices, flatMap_cons, append_assoc,
      readU32Be_append (h i mem_cons_self), htail]

variable {table : List Bytes}

theorem readTable_append (h : ∀ e ∈ table, e.length < 2 ^ 32)
    (rest : Bytes) :
    (readTable table.length ((table.flatMap fun e => beBytes 4 e.length ++ e) ++ rest) :
      Except (MongrelError M) _) = .ok (table, rest) := by
  induction table with
  | nil => rfl
  | cons e es ih =>
    have htail := ih fun x hx => h x (mem_cons_of_mem _ hx)
    simp only [length_cons, readTable, flatMap_cons, append_assoc,
      readU32Be_append (h e mem_cons_self), checkedSlice_append, htail]

/-- Every count and length in the layout fits the four bytes it is written in. -/
structure DictFits (validity : Bytes) (indices : List Nat) (table : List Bytes) : Prop where
  validity : validity.length < 2 ^ 32
  indexCount : indices.length < 2 ^ 32
  indices : ∀ i ∈ indices, i < 2 ^ 32
  tableCount : table.length < 2 ^ 32
  entries : ∀ e ∈ table, e.length < 2 ^ 32

variable {validity : Bytes}

theorem readDict_dictLayout
    (h : DictFits validity indices table) :
    (readDict (dictLayout validity indices table) : Except (MongrelError M) _) =
      .ok (validity, indices, table) := by
  have htable : (readTable table.length (table.flatMap fun e => beBytes 4 e.length ++ e) :
      Except (MongrelError M) _) = .ok (table, []) := by
    simpa using readTable_append (M := M) h.entries []
  simp only [readDict, dictLayout, readU32Be_append h.validity, checkedSlice_append,
    readU32Be_append h.indexCount, readIndices_append h.indices, readU32Be_append h.tableCount,
    htable]

theorem dictFits_of_length
    (hlen : (dictLayout validity indices table).length ≤ maxPageDecompressedBytes)
    (hidx : ∀ i ∈ indices, i < table.length ∨ i = 0) : DictFits validity indices table := by
  have hindices : (indices.flatMap (beBytes 4)).length = indices.length * 4 :=
    length_flatMap_of_length fun i _ => length_beBytes 4 i
  have hentries : ∀ (t : List Bytes),
      t.length * 4 ≤ (t.flatMap fun e => beBytes 4 e.length ++ e).length ∧
      ∀ e ∈ t, e.length ≤ (t.flatMap fun e => beBytes 4 e.length ++ e).length := by
    intro t
    induction t with
    | nil => exact ⟨by simp, fun e he => absurd he not_mem_nil⟩
    | cons x xs ih =>
      simp only [flatMap_cons, length_append, length_beBytes, length_cons]
      refine ⟨by omega, fun e he => ?_⟩
      rcases mem_cons.mp he with rfl | he
      · omega
      · have := ih.2 e he
        omega
  obtain ⟨hcount, hlength⟩ := hentries table
  simp only [dictLayout, length_append, length_beBytes, hindices, maxPageDecompressedBytes]
    at hlen
  refine ⟨by omega, by omega, fun i hi => ?_, by omega, fun e he => ?_⟩
  · rcases hidx i hi with h | h <;> omega
  · have := hlength e he
    omega

/-- `r` is a dictionary of the values: the table has grown from `table`, every index points into
it, and the index of a row with bytes points to these bytes. -/
structure IsDict (values : List (Value M)) (table : List Bytes) (r : List Nat × List Bytes) :
    Prop where
  length : r.1.length = values.length
  grows : table <+: r.2
  range : ∀ i ∈ r.1, i < r.2.length ∨ i = 0
  rows : ∀ (k : Nat) (b : Bytes), values[k]? = some (.bytes b) →
    ∃ i, r.1[k]? = some i ∧ r.2[i]? = some b

theorem IsDict.cons_bytes {b : Bytes} {vs : List (Value M)} {table table' : List Bytes}
    {r : List Nat × List Bytes} {idx : Nat} (h : IsDict vs table' r) (hgrow : table <+: table')
    (hidx : table'[idx]? = some b) : IsDict (.bytes b :: vs) table (idx :: r.1, r.2) := by
  have hhead : r.2[idx]? = some b := by
    obtain ⟨t, ht⟩ := h.grows
    rw [← ht, getElem?_append_left (List.getElem?_eq_some_iff.mp hidx).1, hidx]
  refine ⟨by simp [h.length], hgrow.trans h.grows, ?_, fun k b' hk => ?_⟩
  · exact forall_mem_cons.mpr ⟨.inl (List.getElem?_eq_some_iff.mp hhead).1, h.range⟩
  · cases k with
    | zero =>
      obtain rfl : b = b' := by simpa using hk
      exact ⟨idx, rfl, hhead⟩
    | succ k => exact h.rows k b' (by simpa using hk)

theorem IsDict.cons_other {v : Value M} {vs : List (Value M)}
    {r : List Nat × List Bytes} (h : IsDict vs table r) (hv : ∀ b, v ≠ .bytes b) :
    IsDict (v :: vs) table (0 :: r.1, r.2) := by
  refine ⟨by simp [h.length], h.grows, forall_mem_cons.mpr ⟨.inr rfl, h.range⟩, fun k b' hk => ?_⟩
  · cases k with
    | zero => exact absurd (by simpa using hk) (hv b')
    | succ k => exact h.rows k b' (by simpa using hk)

theorem getElem?_of_idxOf? {b : Bytes} {i : Nat}
    (h : table.idxOf? b = some i) : table[i]? = some b := by
  obtain ⟨h1, h2, -⟩ := findIdx?_eq_some_iff_getElem.mp h
  rw [getElem?_eq_getElem h1]
  simpa using h2

theorem isDict_dictIndices (values : List (Value M)) (table : List Bytes) :
    IsDict values table (dictIndices values table) := by
  induction values generalizing table with
  | nil =>
    exact ⟨rfl, prefix_rfl, fun i hi => absurd hi not_mem_nil, fun k b h => by simp at h⟩
  | cons v vs ih =>
    cases v with
    | bytes b =>
      rw [dictIndices]
      cases hfind : table.idxOf? b with
      | some i => exact (ih table).cons_bytes prefix_rfl (getElem?_of_idxOf? hfind)
      | none => exact (ih (table ++ [b])).cons_bytes (prefix_append table [b]) (by simp)
    | _ => exact (ih table).cons_other fun b => by simp

/-- A row of a dictionary page. -/
def dictRow (validity : Bytes) (table : List Bytes) (i idx : Nat) : Option (Value M) :=
  if bitAt validity i then table[idx]?.map .bytes else some .null

theorem dictRows_ok {f : Nat → Value M}
    {i : Nat}
    (h : ∀ k idx, indices[k]? = some idx → dictRow validity table (i + k) idx = some (f (i + k))) :
    dictRows validity table i indices = .ok ((List.range' i indices.length).map f) := by
  induction indices generalizing i with
  | nil => rfl
  | cons idx indices ih =>
    have hhead := h 0 idx rfl
    have htail := ih (i := i + 1) fun k idx' hk => by
      have := h (k + 1) idx' (by simpa using hk)
      rwa [show i + (k + 1) = i + 1 + k by omega] at this
    rw [dictRows, htail, length_cons, range'_succ, map_cons]
    rw [Nat.add_zero, dictRow] at hhead
    split
    next hbit =>
      rw [if_pos hbit] at hhead
      obtain ⟨entry, hentry, hf⟩ := map_eq_some_iff.mp hhead
      rw [hentry, ← hf]
    next hbit =>
      rw [if_neg hbit] at hhead
      obtain hf : Value.null = f i := by simpa using hhead
      rw [← hf]

theorem exists_dictRows_error
    {i k idx : Nat} (hk : indices[k]? = some idx)
    (h : dictRow (M := M) validity table (i + k) idx = none) :
    ∃ e, (dictRows validity table i indices : Except (MongrelError M) _) = .error e := by
  induction indices generalizing i k with
  | nil => simp at hk
  | cons j indices ih =>
    rw [dictRows]
    cases k with
    | zero =>
      obtain rfl : j = idx := by simpa using hk
      rw [Nat.add_zero, dictRow] at h
      split at h
      next hbit =>
        rw [if_pos hbit, map_eq_none_iff.mp h]
        exact ⟨_, rfl⟩
      next => exact absurd h (by simp)
    | succ k =>
      obtain ⟨e, he⟩ := ih (i := i + 1) (k := k) (by simpa using hk)
        (by rwa [show i + 1 + k = i + (k + 1) by omega])
      rw [he]
      split
      next =>
        cases table[j]? with
        | none => exact ⟨_, rfl⟩
        | some entry => exact ⟨e, rfl⟩
      next => exact ⟨e, rfl⟩

theorem readDict_dictEncodeBytes
    (hlen : (dictEncodeBytes values).length ≤ maxPageDecompressedBytes) :
    (readDict (dictEncodeBytes values) : Except (MongrelError M) _) =
      .ok (validityBitmap values, (dictIndices values []).1, (dictIndices values []).2) :=
  readDict_dictLayout (dictFits_of_length hlen (isDict_dictIndices values []).range)

/-- Row by row: what each row of the dictionary reads as. -/
theorem dictRows_map {f : Value M → Value M}
    (h : ∀ k idx v, values[k]? = some v → (dictIndices values []).1[k]? = some idx →
      dictRow (validityBitmap values) (dictIndices values []).2 k idx = some (f v)) :
    dictRows (validityBitmap values) (dictIndices values []).2 0 (dictIndices values []).1 =
      .ok (values.map f) := by
  have hlen := (isDict_dictIndices values []).length
  rw [dictRows_ok (f := fun k => f (values.getD k .null)), hlen]
  · rw [map_range_getD]
  · intro k idx hk
    have hlt : k < values.length := hlen ▸ (List.getElem?_eq_some_iff.mp hk).1
    have hget : values[k]? = some values[k] := getElem?_eq_getElem hlt
    rw [Nat.zero_add, h k idx values[k] hget hk, getD_eq_getElem?_getD, hget, getD_some]

/-- A column of bytes and nulls comes back from its dictionary. -/
theorem dictRows_dictIndices (hty : ty.hasDictionary = true)
    (hvalues : ∀ v ∈ values, v.isNull = false → ∃ b, v = .bytes b) :
    dictRows (validityBitmap values) (dictIndices values []).2 0 (dictIndices values []).1 =
      .ok (values.map (reread ty)) := by
  have hdict := isDict_dictIndices values []
  have hreread : ∀ b : Bytes, reread ty (.bytes b : Value M) = .bytes b := by
    intro b
    cases ty <;> first | (cases hty; done) | rfl
  refine dictRows_map fun k idx v hget hk => ?_
  rw [dictRow, bitAt_validityBitmap hget]
  cases hnull : v.isNull with
  | true =>
    rw [if_neg (by simp), reread_of_isNull ty hnull]
  | false =>
    obtain ⟨b, hb⟩ := hvalues _ (mem_of_getElem? hget) hnull
    obtain ⟨i, hi, hentry⟩ := hdict.rows k b (by rw [hget, hb])
    obtain rfl : i = idx := by rw [hk] at hi; simpa using hi.symm
    rw [if_pos (by simp), hentry, hb, hreread]
    rfl

end MongrelDB.Columnar
