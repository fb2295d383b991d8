import MongrelDB.Storage.RunSpec

/-!
# Do the readers of one run agree?

The seven readers of a sorted run are meant to agree on which version of each
row wins at a snapshot (`ReadersAgree`).
-/

namespace MongrelDB.Storage

open Epoch Lib List Option

variable {F : Type}

namespace RunReader

/-! ## Agreement -/

/-- Every reader reports the winners `w`, in storage order. -/
structure ReadersAgree (r : RunReader F) (snap : Snapshot) (w : Nat → Option (Slot F)) : Prop where
  point : ∀ rowId, r.findVersionPageAt rowId snap = w rowId
  point_ok : ∀ rowId, ∃ found, r.getVersionAt rowId snap = .ok found
  versions : Enumerates w (fun _ => true) (r.visiblePicksAt snap)
  indices : ∃ l, Enumerates w (fun s => !s.row.deleted) l ∧
    r.visibleIndicesAt snap = l.map Slot.index
  indicesNative : ∃ l, Enumerates w (fun s => !s.row.deleted) l ∧
    r.visibleIndicesNativeAt snap = l.map Slot.index
  positions : ∃ l, Enumerates w (fun s => !s.row.deleted) l ∧
    r.visiblePositionsWithRidsAt snap = (l.map Slot.index, l.map fun s => s.row.rowId)
  tombstoned : ∃ l, Enumerates w (fun s => s.row.deleted) l ∧
    r.tombstonedRowIdsAt snap = l.map fun s => s.row.rowId
  cursor : Enumerates w (fun _ => true) (r.cursorVersionsAt snap)

/-- The point lookup can decode every stored column of the schema. -/
def PointDecodable (r : RunReader F) : Prop :=
  r.firstStored (fun ty => ty.pointScalar && !ty.decodePageNative) = none
  deriving Decidable

/-- Nothing in the run makes the readers differ at this snapshot. -/
structure Unambiguous (r : RunReader F) (snap : Snapshot) : Prop where
  ties : ∀ rowId, TiesResolved r.stampOf (r.group snap rowId)
  overlay : ∀ s ∈ r.run.slots, r.storedVisible snap s = r.visible snap s
  decodable : (∃ s ∈ r.run.slots, r.storedVisible snap s = true) → r.PointDecodable

/-- No row of the run has both stamped and unstamped versions. -/
def RowsUnmixed (r : RunReader F) : Prop :=
  ∀ rowId, Unmixed r.stampOf (r.run.slots.filter fun s => decide (s.row.rowId = rowId))

variable {r : RunReader F} {snap : Snapshot} {rowId : Nat} {s : Slot F}

theorem materializeInPage_ok (h : r.PointDecodable) (s : Slot F) :
    r.materializeInPage s =
      .ok { r.materialize s with committedEpoch := s.row.committedEpoch } := by
  rw [materializeInPage, h]
  rfl

theorem materializeInPage_error (h : ¬ r.PointDecodable) (s : Slot F) :
    ∃ e, r.materializeInPage s = .error e := by
  obtain ⟨c, hc⟩ := ne_none_iff_exists'.mp h
  exact ⟨_, by rw [materializeInPage, hc]⟩

/-! ## Sufficiency -/

theorem storedGroup_eq_group (h : ∀ s ∈ r.run.slots, r.storedVisible snap s = r.visible snap s) :
    r.storedGroup snap rowId = r.group snap rowId := by
  rw [storedGroup, group, filter_congr h]

/-- An overlay moves the epochs of all versions alike, so it changes no comparison. -/
theorem versionSupersedes_stored {a b : Slot F} (ha : a ∈ r.run.slots) (hb : b ∈ r.run.slots) :
    versionSupersedes (r.storedStampOf a) (r.storedStampOf b) =
      versionSupersedes (r.stampOf a) (r.stampOf b) := by
  cases ho : r.epochOverride with
  | none => simp [stampOf, storedStampOf, ho]
  | some e =>
    have hu := r.override_uniform (by simp [ho])
    have ha0 := r.run.uniform_zero hu a.row (Run.row_mem ha)
    have hb0 := r.run.uniform_zero hu b.row (Run.row_mem hb)
    simp only [versionSupersedes, versionIsNewer, stampOf, storedStampOf, ho, ha0, hb0,
      getD_some]
    cases r.commitTsOf a <;> cases r.commitTsOf b <;> simp

theorem lastWins_stored {l : List (Slot F)} (hl : ∀ s ∈ l, s ∈ r.run.slots) :
    lastWins r.storedStampOf l = lastWins r.stampOf l :=
  winner_congr fun a ha b hb => versionSupersedes_stored (hl a ha) (hl b hb)

theorem findVersionPageAt_eq_lastWins
    (h : ∀ s ∈ r.run.slots, r.storedVisible snap s = r.visible snap s) :
    r.findVersionPageAt rowId snap = lastWins r.stampOf (r.group snap rowId) := by
  rw [findVersionPageAt_eq, storedGroup_eq_group h]
  exact lastWins_stored fun s hs => (mem_group.mp hs).1

theorem getVersionAt_of_find_none (h : r.findVersionPageAt rowId snap = none) :
    r.getVersionAt rowId snap = .ok none := by
  rw [getVersionAt, h]

section

variable (h : r.findVersionPageAt rowId snap = some s)
include h

theorem getVersionAt_of_find_some (hd : r.PointDecodable) :
    r.getVersionAt rowId snap = .ok (some (s.row.committedEpoch,
      { r.materialize s with committedEpoch := s.row.committedEpoch })) := by
  rw [getVersionAt, h]
  show Except.map _ (r.materializeInPage s) = _
  rw [materializeInPage_ok hd]
  rfl

theorem getVersionAt_undecodable (hd : ¬ r.PointDecodable) (found : Option (Nat × Row F)) :
    r.getVersionAt rowId snap ≠ .ok found := by
  obtain ⟨e, he⟩ := materializeInPage_error hd s
  rw [getVersionAt, h]
  show Except.map _ (r.materializeInPage s) ≠ _
  rw [he]
  intro h
  cases h

/-- What a point lookup finds is a version of the row observed at its stored epoch. -/
theorem find_mem :
    s ∈ r.run.slots ∧ r.storedVisible snap s = true ∧ s.row.rowId = rowId := by
  rw [findVersionPageAt_eq] at h
  exact mem_storedGroup.mp (winner_mem h)

end

theorem find_isSome (hs : s ∈ r.run.slots) (hv : r.storedVisible snap s = true) :
    ∃ t, r.findVersionPageAt s.row.rowId snap = some t := by
  rw [← ne_none_iff_exists', findVersionPageAt_eq, lastWins, ne_eq, winner_eq_none_iff]
  exact ne_nil_of_mem (mem_storedGroup.mpr ⟨hs, hv, rfl⟩)

theorem getVersionAt_ok (h : (∃ s ∈ r.run.slots, r.storedVisible snap s = true) → r.PointDecodable)
    (rowId : Nat) : ∃ found, r.getVersionAt rowId snap = .ok found := by
  cases hf : r.findVersionPageAt rowId snap with
  | none => exact ⟨_, getVersionAt_of_find_none hf⟩
  | some s =>
    have hmem := find_mem hf
    exact ⟨_, getVersionAt_of_find_some hf (h ⟨s, hmem.1, hmem.2.1⟩)⟩

theorem Unambiguous.readersAgree (h : r.Unambiguous snap) :
    r.ReadersAgree snap fun rowId => lastWins r.stampOf (r.group snap rowId) := by
  have hw : (fun rowId => firstWins r.stampOf (r.group snap rowId)) =
      fun rowId => lastWins r.stampOf (r.group snap rowId) :=
    funext fun rowId => firstWins_eq_lastWins epochSorted_group (h.ties rowId)
  exact
    { point := fun rowId => findVersionPageAt_eq_lastWins h.overlay
      point_ok := getVersionAt_ok h.decodable
      versions := visiblePicksAt_enumerates
      indices := hw ▸ liveIndicesAt_enumerates
      indicesNative := hw ▸ liveIndicesAt_enumerates
      positions := hw ▸ positions_enumerates
      tombstoned := hw ▸ tombstoned_enumerates
      cursor := hw ▸ cursor_enumerates }

/-! ## Necessity -/

theorem RowsUnmixed.group (h : r.RowsUnmixed) : Unmixed r.stampOf (r.group snap rowId) := by
  have hmem : ∀ s ∈ r.group snap rowId,
      s ∈ r.run.slots.filter fun s => decide (s.row.rowId = rowId) := by
    intro s hs
    obtain ⟨hslot, -, hid⟩ := mem_group.mp hs
    exact mem_filter.mpr ⟨hslot, decide_eq_true hid⟩
  exact (h rowId).imp (fun h s hs => h s (hmem s hs)) fun h s hs => h s (hmem s hs)

section

variable {w : Nat → Option (Slot F)}

/-- The winners are versions of their row: the point lookup returns no others. -/
theorem ReadersAgree.rowId_eq (h : r.ReadersAgree snap w) (hw : w rowId = some s) :
    s.row.rowId = rowId := by
  rw [← h.point] at hw
  exact (find_mem hw).2.2

theorem winners_eq_of_enumerates {l : List (Slot F)} {v : Nat → Option (Slot F)}
    (hw : Enumerates w (fun _ => true) l) (hv : Enumerates v (fun _ => true) l)
    (hwid : ∀ rowId s, w rowId = some s → s.row.rowId = rowId)
    (hvid : ∀ rowId s, v rowId = some s → s.row.rowId = rowId) : w = v := by
  have hiff : ∀ rowId s, w rowId = some s ↔ v rowId = some s := by
    intro rowId s
    constructor
    · intro h
      have hid := hwid rowId s h
      exact hid ▸ ((hv.mem_iff s).mp ((hw.mem_iff s).mpr ⟨hid ▸ h, rfl⟩)).1
    · intro h
      have hid := hvid rowId s h
      exact hid ▸ ((hw.mem_iff s).mp ((hv.mem_iff s).mpr ⟨hid ▸ h, rfl⟩)).1
  funext rowId
  exact Option.ext fun s => hiff rowId s

theorem rowId_of_firstWins (h : firstWins r.stampOf (r.group snap rowId) = some s) :
    s.row.rowId = rowId := (mem_group.mp (winner_mem h)).2.2

theorem rowId_of_lastWins (h : lastWins r.stampOf (r.group snap rowId) = some s) :
    s.row.rowId = rowId := (mem_group.mp (winner_mem h)).2.2

theorem ReadersAgree.eq_lastWins (h : r.ReadersAgree snap w) :
    w = fun rowId => lastWins r.stampOf (r.group snap rowId) :=
  winners_eq_of_enumerates h.versions visiblePicksAt_enumerates (fun _ _ => h.rowId_eq)
    fun _ _ => rowId_of_lastWins

theorem ReadersAgree.eq_firstWins (h : r.ReadersAgree snap w) :
    w = fun rowId => firstWins r.stampOf (r.group snap rowId) :=
  winners_eq_of_enumerates h.cursor cursor_enumerates (fun _ _ => h.rowId_eq)
    fun _ _ => rowId_of_firstWins

/-- An overlay can only hide a version: the placeholder epoch is zero. -/
theorem storedVisible_of_visible (hs : s ∈ r.run.slots) (hv : r.visible snap s = true) :
    r.storedVisible snap s = true := by
  cases ho : r.epochOverride with
  | none => simpa [visible, storedVisible, stampOf, storedStampOf, ho] using hv
  | some e =>
    have hu := r.override_uniform (by simp [ho])
    have h0 := r.run.uniform_zero hu s.row (Run.row_mem hs)
    rw [visible, stampOf, ho] at hv
    rw [storedVisible, storedStampOf, h0]
    by_cases hts : snap.usesHlcAuthority = false ∨ r.commitTsOf s = none
    · rw [Snapshot.observesVersion_of_epoch hts]
      exact decide_eq_true (Nat.zero_le _)
    · rw [not_or, Bool.not_eq_false] at hts
      obtain ⟨t, ht⟩ := ne_none_iff_exists'.mp hts.2
      rw [ht] at hv ⊢
      rw [← hv]
      exact Snapshot.observesVersion_of_hlc hts.1

theorem epoch_decides_of_hidden (hs : r.storedVisible snap s = true)
    (hv : r.visible snap s = false) : snap.usesHlcAuthority = false ∨ r.commitTsOf s = none := by
  by_contra hts
  rw [not_or, Bool.not_eq_false] at hts
  obtain ⟨t, ht⟩ := ne_none_iff_exists'.mp hts.2
  rw [storedVisible, storedStampOf, ht] at hs
  rw [visible, stampOf, ht] at hv
  rw [Snapshot.observesVersion_of_hlc hts.1, hv] at hs
  exact Bool.false_ne_true hs

/-- Where a version is hidden by the overlay, and its row is unmixed, the whole row is hidden. -/
theorem group_eq_nil_of_hidden (hu : r.RowsUnmixed) (hs : s ∈ r.run.slots)
    (hsv : r.storedVisible snap s = true) (hv : r.visible snap s = false) :
    r.group snap s.row.rowId = [] := by
  have hepoch := epoch_decides_of_hidden hsv hv
  rw [eq_nil_iff_forall_not_mem]
  intro t ht
  obtain ⟨htslot, htv, htid⟩ := mem_group.mp ht
  have hts : snap.usesHlcAuthority = false ∨ r.commitTsOf t = none := by
    refine hepoch.imp_right fun hnone => ?_
    rcases hu s.row.rowId with hall | hnone'
    · exact absurd hnone (hall s (mem_filter.mpr ⟨hs, by simp⟩))
    · exact hnone' t (mem_filter.mpr ⟨htslot, by simp [htid]⟩)
  cases ho : r.epochOverride with
  | none => simp [visible, storedVisible, stampOf, storedStampOf, ho] at hsv hv; simp [hsv] at hv
  | some e =>
    rw [visible, Snapshot.observesVersion_of_epoch hts, stampOf, ho] at htv
    rw [visible, Snapshot.observesVersion_of_epoch hepoch, stampOf, ho] at hv
    exact absurd (of_decide_eq_true htv) (of_decide_eq_false hv)

theorem ReadersAgree.unambiguous (h : r.ReadersAgree snap w) (hu : r.RowsUnmixed) :
    r.Unambiguous snap where
  ties rowId := by
    refine tiesResolved_of_firstWins_eq_lastWins epochSorted_group hu.group nodup_group ?_
    rw [← congrFun h.eq_firstWins rowId, ← congrFun h.eq_lastWins rowId]
  overlay s hs := by
    by_contra hne
    have hv : r.visible snap s = false := by
      by_contra hv
      rw [Bool.not_eq_false] at hv
      exact hne (by rw [hv, storedVisible_of_visible hs hv])
    have hsv : r.storedVisible snap s = true := by
      rw [hv] at hne
      exact Bool.ne_false_iff.mp hne
    -- the point lookup finds a version of a row the scans report as absent
    obtain ⟨t, ht⟩ := find_isSome hs hsv
    rw [h.point, congrFun h.eq_lastWins s.row.rowId, group_eq_nil_of_hidden hu hs hsv hv] at ht
    exact absurd ht.symm (some_ne_none t)
  decodable hex := by
    obtain ⟨s, hs, hsv⟩ := hex
    obtain ⟨t, ht⟩ := find_isSome hs hsv
    obtain ⟨found, hfound⟩ := h.point_ok s.row.rowId
    by_contra hd
    exact getVersionAt_undecodable ht hd found hfound

end

/-- The readers agree on every run and snapshot without ambiguity; and unless a row mixes stamped
and unstamped versions they agree on no others. -/
theorem readersAgree_of_unambiguous (r : RunReader F) (snap : Snapshot) :
    (r.Unambiguous snap → ∃ w, r.ReadersAgree snap w) ∧
      (r.RowsUnmixed → ((∃ w, r.ReadersAgree snap w) ↔ r.Unambiguous snap)) := by
  refine ⟨fun h => ⟨_, h.readersAgree⟩, fun hu => ⟨?_, fun h => ⟨_, h.readersAgree⟩⟩⟩
  intro ⟨w, h⟩
  exact h.unambiguous hu

theorem tiesResolved_of_no_ties
    (h : r.run.slots.Pairwise fun a b =>
      a.row.rowId = b.row.rowId → ¬ Tied (r.stampOf a) (r.stampOf b)) (rowId : Nat) :
    TiesResolved r.stampOf (r.group snap rowId) := by
  refine tiesResolved_of_pairwise (Pairwise.imp_of_mem ?_ (h.sublist group_sublist))
  intro a b ha hb hab
  exact hab ((mem_group.mp ha).2.2.trans (mem_group.mp hb).2.2.symm)

/-- A reader over a run of unstamped versions without user columns, given as triples of row id,
epoch and tombstone flag. -/
def versionRow (v : Nat × Nat × Bool) : Row Nat := ⟨v.1, v.2.1, [], v.2.2, none⟩

/-- A put at epoch 1 and a delete at epoch 2 of one row, and a put of another, over two pages. -/
def putThenDelete : RunReader Nat :=
  openFile
    { pages := [[versionRow (1, 1, false)], [versionRow (1, 2, true), versionRow (2, 2, false)]]
      storedColumns := [], hasCommitTs := false, clean := false, uniformEpoch := false
      epochCreated := 2, sorted := by decide, clean_rows := by decide, epoch_le := by decide
      uniform_zero := by decide } []

theorem readersAgree_putThenDelete :
    ∃ w, putThenDelete.ReadersAgree (Snapshot.atEpoch 2) w := by
  refine (readersAgree_of_unambiguous putThenDelete (Snapshot.atEpoch 2)).1
    ⟨tiesResolved_of_no_ties (by decide), by decide, fun _ => by decide⟩

/-- A put and a delete of one row at the same epoch, as one transaction writes them. -/
def tiedDelete : RunReader Nat :=
  openFile
    { pages := [[versionRow (1, 5, false), versionRow (1, 5, true)]]
      storedColumns := [], hasCommitTs := false, clean := false, uniformEpoch := false
      epochCreated := 5, sorted := by decide, clean_rows := by decide, epoch_le := by decide
      uniform_zero := by decide } []

/-- The version scan reports the delete, the cursor the put. -/
theorem tied_delete_splits_readers :
    ¬ ∃ w, tiedDelete.ReadersAgree (Snapshot.atEpoch 5) w := by
  intro ⟨w, h⟩
  let put : Slot Nat := ⟨0, 0, 0, versionRow (1, 5, false)⟩
  let delete : Slot Nat := ⟨1, 0, 1, versionRow (1, 5, true)⟩
  have hdel : w 1 = some delete := ((h.versions.mem_iff delete).mp (by decide)).1
  have hput : w 1 = some put := ((h.cursor.mem_iff put).mp (by decide)).1
  rw [hdel] at hput
  exact absurd hput (by decide)

/-! ## The uniform-epoch overlay -/

/-- What the version scan reports for one row, with the epoch of the version. -/
def scanVersionAt (r : RunReader F) (rowId : Nat) (snap : Snapshot) : Option (Nat × Row F) :=
  ((r.visibleVersionsAt snap).find? fun row => decide (row.rowId = rowId)).map
    fun row => (row.committedEpoch, row)

/-- The point lookup reads the run as one committed at `epoch`: it returns a version of that epoch
exactly when the snapshot observes one, and it is the version the scan reports. -/
structure OverlayHonoured (r : RunReader F) (epoch rowId : Nat) (snap : Snapshot) : Prop where
  found_iff : (∃ row, r.getVersionAt rowId snap = .ok (some (epoch, row))) ↔
    ∃ s ∈ r.run.slots, s.row.rowId = rowId ∧ snap.observesVersion ⟨epoch, r.commitTsOf s⟩ = true
  eq_scan : r.getVersionAt rowId snap = .ok (r.scanVersionAt rowId snap)

theorem scanVersionAt_eq (r : RunReader F) (rowId : Nat) (snap : Snapshot) :
    r.scanVersionAt rowId snap =
      (lastWins r.stampOf (r.group snap rowId)).map
        fun s => ((r.stampOf s).epoch, r.materialize s) := by
  have hpick : Enumerates _ _ (r.visiblePicksAt snap) := visiblePicksAt_enumerates
  have hfind : (r.visiblePicksAt snap).find? (fun s => decide (s.row.rowId = rowId)) =
      lastWins r.stampOf (r.group snap rowId) := by
    cases hf : (r.visiblePicksAt snap).find? fun s => decide (s.row.rowId = rowId) with
    | none =>
      rw [find?_eq_none] at hf
      cases hw : lastWins r.stampOf (r.group snap rowId) with
      | none => rfl
      | some s =>
        have hid := rowId_of_lastWins hw
        exact absurd (decide_eq_true hid) (hf s ((hpick.mem_iff s).mpr ⟨hid ▸ hw, rfl⟩))
    | some s =>
      have hid : s.row.rowId = rowId := by simpa using find?_some hf
      exact (hid ▸ ((hpick.mem_iff s).mp (mem_of_find?_eq_some hf)).1).symm
  rw [scanVersionAt, visibleVersionsAt, find?_map, ← hfind, Option.map_map]
  rfl

section

variable {run : Run F} {schema : List ColumnDef} {epoch : Nat}

theorem setUniformEpoch_override (hu : run.uniformEpoch = true) :
    ((openFile run schema).setUniformEpoch epoch).epochOverride = some epoch := by
  have hu' : (openFile run schema).run.uniformEpoch = true := hu
  rw [setUniformEpoch, dif_pos hu']

theorem setUniformEpoch_run :
    ((openFile run schema).setUniformEpoch epoch).run = run := by
  unfold setUniformEpoch
  split <;> rfl

end

theorem stampOf_of_override {epoch : Nat} (h : r.epochOverride = some epoch) (s : Slot F) :
    r.stampOf s = ⟨epoch, r.commitTsOf s⟩ := by
  rw [stampOf, h]
  rfl

theorem storedStampOf_of_override {epoch : Nat} (h : r.epochOverride = some epoch)
    (hs : s ∈ r.run.slots) : r.storedStampOf s = ⟨0, r.commitTsOf s⟩ := by
  rw [storedStampOf, r.run.uniform_zero (r.override_uniform (by simp [h])) s.row (Run.row_mem hs)]

/-- Rows whose versions the snapshot does not observe at the placeholder epoch are absent for the
lookup and for the scan. -/
theorem OverlayHonoured.of_hidden {epoch : Nat} (ho : r.epochOverride = some epoch)
    (h : ∀ s ∈ r.run.slots, s.row.rowId = rowId →
      snap.observesVersion ⟨0, r.commitTsOf s⟩ = false) : r.OverlayHonoured epoch rowId snap := by
  have hstored : ∀ s ∈ r.run.slots, s.row.rowId = rowId → r.storedVisible snap s ≠ true := by
    intro s hs hid
    rw [storedVisible, storedStampOf_of_override ho hs, h s hs hid]
    exact Bool.false_ne_true
  have hfind : r.findVersionPageAt rowId snap = none := by
    by_contra hne
    obtain ⟨s, hs⟩ := ne_none_iff_exists'.mp hne
    obtain ⟨hslot, hv, hid⟩ := find_mem hs
    exact hstored s hslot hid hv
  have hgroup : r.group snap rowId = [] := by
    rw [eq_nil_iff_forall_not_mem]
    intro s hs
    obtain ⟨hslot, hv, hid⟩ := mem_group.mp hs
    exact hstored s hslot hid (storedVisible_of_visible hslot hv)
  have hget := getVersionAt_of_find_none hfind
  constructor
  · constructor
    · intro ⟨row, hrow⟩
      rw [hget] at hrow
      cases hrow
    · intro ⟨s, hs, hid, hv⟩
      have hmem : s ∈ r.group snap rowId :=
        mem_group.mpr ⟨hs, by rw [visible, stampOf_of_override ho]; exact hv, hid⟩
      rw [hgroup] at hmem
      exact absurd hmem not_mem_nil
  · rw [hget, scanVersionAt_eq, hgroup]
    rfl

theorem OverlayHonoured.of_zero (ho : r.epochOverride = some 0) (hd : r.PointDecodable) :
    r.OverlayHonoured 0 rowId snap := by
  have hstamp : ∀ s ∈ r.run.slots, r.storedStampOf s = r.stampOf s := by
    intro s hs
    rw [storedStampOf_of_override ho hs, stampOf_of_override ho]
  have hfind : r.findVersionPageAt rowId snap = lastWins r.stampOf (r.group snap rowId) :=
    findVersionPageAt_eq_lastWins fun s hs => by rw [storedVisible, visible, hstamp s hs]
  constructor
  · constructor
    · rintro ⟨row, hrow⟩
      cases hf : r.findVersionPageAt rowId snap with
      | none =>
        rw [getVersionAt_of_find_none hf] at hrow
        cases hrow
      | some s =>
        obtain ⟨hs, hv, hid⟩ := find_mem hf
        exact ⟨s, hs, hid, by rw [← storedStampOf_of_override ho hs]; exact hv⟩
    · rintro ⟨s, hs, hid, hv⟩
      have hsv : r.storedVisible snap s = true := by
        rw [storedVisible, storedStampOf_of_override ho hs]
        exact hv
      obtain ⟨t, ht⟩ := find_isSome hs hsv
      rw [hid] at ht
      have hepoch : t.row.committedEpoch = 0 :=
        congrArg Stamp.epoch (storedStampOf_of_override ho (find_mem ht).1)
      exact ⟨_, by rw [getVersionAt_of_find_some ht hd, hepoch]⟩
  · rw [scanVersionAt_eq, ← hfind]
    cases hf : r.findVersionPageAt rowId snap with
    | none => exact getVersionAt_of_find_none hf
    | some s =>
      have hepoch : s.row.committedEpoch = (r.stampOf s).epoch :=
        congrArg Stamp.epoch (hstamp s (find_mem hf).1)
      rw [getVersionAt_of_find_some hf hd, hepoch]
      rfl

/-- The point lookup honours the overlay only when the snapshot observes no version of the row at
the placeholder epoch, or when the overlay is the placeholder. -/
theorem overlayHonoured_iff (run : Run F) (schema : List ColumnDef) (epoch rowId : Nat)
    (snap : Snapshot) (hu : run.uniformEpoch = true) :
    let r := (openFile run schema).setUniformEpoch epoch
    r.OverlayHonoured epoch rowId snap ↔
      (∀ s ∈ run.slots, s.row.rowId = rowId →
        snap.observesVersion ⟨0, r.commitTsOf s⟩ = false) ∨ epoch = 0 ∧ r.PointDecodable := by
  intro r
  have ho : r.epochOverride = some epoch := setUniformEpoch_override hu
  have hrun : r.run = run := setUniformEpoch_run
  constructor
  · intro h
    by_contra hnot
    rw [not_or] at hnot
    obtain ⟨hseen, hnz⟩ := hnot
    push Not at hseen
    obtain ⟨s, hs, hid, hv⟩ := hseen
    rw [← hrun] at hs
    have hsv : r.storedVisible snap s = true := by
      rw [storedVisible, storedStampOf_of_override ho hs]
      exact Bool.ne_false_iff.mp hv
    obtain ⟨t, ht⟩ := find_isSome hs hsv
    rw [hid] at ht
    have heq := h.eq_scan
    by_cases hd : r.PointDecodable
    · rw [getVersionAt_of_find_some ht hd, scanVersionAt_eq, Except.ok.injEq] at heq
      obtain ⟨w, -, hw⟩ := map_eq_some_iff.mp heq.symm
      have hstored : t.row.committedEpoch = 0 :=
        congrArg Stamp.epoch (storedStampOf_of_override ho (find_mem ht).1)
      rw [Prod.mk.injEq, stampOf_of_override ho, hstored] at hw
      exact hnz ⟨hw.1, hd⟩
    · exact getVersionAt_undecodable ht hd _ heq
  · rintro (h | ⟨rfl, hd⟩)
    · exact .of_hidden ho (hrun ▸ h)
    · exact .of_zero ho hd

/-- A uniform-epoch run with one row. -/
def spilledRun : Run Nat :=
  { pages := [[versionRow (1, 0, false)]], storedColumns := [], hasCommitTs := false
    clean := false, uniformEpoch := true, epochCreated := 0, sorted := by decide
    clean_rows := by decide, epoch_le := by decide, uniform_zero := by decide }

/-- With the overlay at zero the row of the run has one epoch for both. -/
theorem overlayHonoured_at_zero :
    ((openFile spilledRun []).setUniformEpoch 0).OverlayHonoured 0 1 (Snapshot.atEpoch 3) :=
  (overlayHonoured_iff spilledRun [] 0 1 (Snapshot.atEpoch 3) rfl).mpr (Or.inr ⟨rfl, by decide⟩)

/-- Committed at epoch 5, the row is visible to a point lookup at epoch 3. -/
theorem point_lookup_ignores_overlay :
    ¬ ((openFile spilledRun []).setUniformEpoch 5).OverlayHonoured 5 1 (Snapshot.atEpoch 3) := by
  intro h
  have hscan : ((openFile spilledRun []).setUniformEpoch 5).scanVersionAt 1 (Snapshot.atEpoch 3) =
      none := by decide
  have hget := h.eq_scan
  rw [hscan] at hget
  exact absurd hget (by decide)

end RunReader

end MongrelDB.Storage
