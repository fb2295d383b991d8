import MongrelDB.Lib.Records
import MongrelDB.Storage.RunAgreement
import MongrelDB.Storage.Table
import MongrelDB.Storage.TierSpec

/-!
# What the reads of a table return

The versions of a row, taken over all tiers from the oldest sorted run to the
memtable, are its write log (`Table.versions`).
-/

namespace MongrelDB.Storage

open Epoch Lib List
open Option hiding filter_map mem_map map_map mem_map_of_mem map_id

variable {F : Type} {snap : Snapshot} {rowId : Nat}

/-! ## One sorted run -/

/-- The typed page decoder accepts the type and hands out the value as stored. -/
def TypeId.streamable (ty : TypeId) : Bool := ty.decodePageNative && decide (ty ≠ .json)

/-- An ordinary run of natively decodable columns: every materialiser gives the same row. -/
structure RunReader.Plain (r : RunReader F) : Prop where
  override : r.epochOverride = none
  streamable : ∀ c ∈ r.schema, c.ty.streamable = true

abbrev newer (a b : Row F) : Bool := versionIsNewer a.stamp b.stamp

namespace RunReader

/-- The versions of a row in the run, as a scan materialises them. -/
def storedIn (r : RunReader F) (rowId : Nat) : List (Row F) :=
  (r.run.slots.filter fun s => decide (s.row.rowId = rowId)).map r.materialize

variable {r : RunReader F}

theorem firstStored_eq_none {bad : TypeId → Bool} (h : ∀ c ∈ r.schema, bad c.ty = false) :
    r.firstStored bad = none := by
  rw [firstStored, find?_eq_none]
  intro c hc
  rw [h c hc, Bool.and_false]
  exact Bool.false_ne_true

theorem Plain.pointDecodable (h : r.Plain) : r.PointDecodable := by
  refine firstStored_eq_none fun c hc => ?_
  have hty := h.streamable c hc
  rw [TypeId.streamable, Bool.and_eq_true] at hty
  rw [hty.1, Bool.not_true, Bool.and_false]

theorem nativeValue_of_streamable {ty : TypeId} (h : ty.streamable = true) (v : Value F) :
    ty.nativeValue v = v := by
  cases ty <;> first | rfl | exact absurd h (by decide)

theorem Plain.materializeNative_eq (h : r.Plain) (s : Slot F) :
    r.materializeNative s = .ok (r.materialize s) := by
  have hnone : r.firstStored (fun ty => !ty.decodePageNative) = none := by
    refine firstStored_eq_none fun c hc => ?_
    have hty := h.streamable c hc
    rw [TypeId.streamable, Bool.and_eq_true] at hty
    rw [hty.1]
    rfl
  have hcols : (r.schema.map fun c => (c.id, c.ty.nativeValue (r.valueAt s c.id))) =
      r.readColumns s :=
    map_congr_left fun c hc => by rw [nativeValue_of_streamable (h.streamable c hc)]
  rw [materializeNative, hnone]
  simp only [hcols]
  rfl

theorem group_map_materialize (r : RunReader F) (snap : Snapshot) (rowId : Nat) :
    (r.group snap rowId).map r.materialize = (r.storedIn rowId).filter (observed snap) := by
  rw [storedIn, filter_map, group, filter_comm]
  rfl

theorem getLast?_group (r : RunReader F) (snap : Snapshot) (rowId : Nat) :
    ((r.group snap rowId).getLast?).map r.materialize = newest snap (r.storedIn rowId) := by
  rw [newest, ← group_map_materialize, getLast?_map]

/-- A point read returns a version of the row that the snapshot observes at its stored stamp. -/
theorem exists_slot_of_getVersionAt {e : Nat} {row : Row F}
    (h : r.getVersionAt rowId snap = .ok (some (e, row))) :
    ∃ s ∈ r.run.slots, s.row.rowId = rowId ∧ row.stamp = r.storedStampOf s := by
  unfold getVersionAt at h
  cases hf : r.findVersionPageAt rowId snap with
  | none =>
    rw [hf] at h
    cases h
  | some s =>
    rw [findVersionPageAt_eq] at hf
    obtain ⟨hs, -, hid⟩ := mem_storedGroup.mp (winner_mem hf)
    rw [← findVersionPageAt_eq] at hf
    rw [hf] at h
    dsimp only at h
    unfold materializeInPage at h
    cases hbad : r.firstStored fun ty => ty.pointScalar && !ty.decodePageNative with
    | some c =>
      rw [hbad] at h
      cases h
    | none =>
      rw [hbad] at h
      obtain ⟨-, rfl⟩ := Prod.mk.inj (some.inj (Except.ok.inj h))
      exact ⟨s, hs, hid, rfl⟩

/-- Placeholder epochs are zero, so the overlay makes a version newer, never older. -/
theorem newer_stampOf {s : Slot F} (hs : s ∈ r.run.slots) {best : Stamp}
    (h : versionIsNewer (r.storedStampOf s) best = true) :
    versionIsNewer (r.stampOf s) best = true := by
  have hle : s.row.committedEpoch ≤ r.epochOverride.getD s.row.committedEpoch := by
    cases ho : r.epochOverride with
    | none => exact le_rfl
    | some e =>
      rw [r.run.uniform_zero (r.override_uniform (by simp [ho])) s.row (Run.row_mem hs)]
      exact Nat.zero_le _
  unfold storedStampOf at h
  unfold stampOf
  cases hts : r.commitTsOf s with
  | none =>
    rw [hts, versionIsNewer_none_left, decide_eq_true_eq] at h
    rw [versionIsNewer_none_left, decide_eq_true_eq]
    exact Nat.lt_of_lt_of_le h hle
  | some ts =>
    rw [hts] at h
    rcases best with ⟨e, _ | ts'⟩
    · rw [versionIsNewer_none_right, decide_eq_true_eq] at h ⊢
      exact Nat.lt_of_lt_of_le h hle
    · exact h

section

variable (h : (r.storedIn rowId).Pairwise fun a b => Before a.stamp b.stamp)

include h

theorem pairwise_group : (r.group snap rowId).Pairwise fun a b => Before (r.stampOf a)
    (r.stampOf b) := by
  have hobs := h.filter (observed snap)
  rw [← group_map_materialize, pairwise_map] at hobs
  exact hobs

theorem lastWins_group :
    (lastWins r.stampOf (r.group snap rowId)).map r.materialize =
      newest snap (r.storedIn rowId) := by
  rw [lastWins_eq_getLast? ((pairwise_group h).imp Before.notAfter), getLast?_group]

theorem firstWins_group :
    (firstWins r.stampOf (r.group snap rowId)).map r.materialize =
      newest snap (r.storedIn rowId) := by
  rw [firstWins_eq_getLast? (pairwise_group h), getLast?_group]

theorem Plain.getVersionAt_eq (hp : r.Plain) :
    r.getVersionAt rowId snap =
      .ok ((newest snap (r.storedIn rowId)).map fun row => (row.committedEpoch, row)) := by
  have hstamp : ∀ s, r.storedStampOf s = r.stampOf s := by
    intro s
    rw [storedStampOf, stampOf, hp.override]
    rfl
  have hfind : r.findVersionPageAt rowId snap = lastWins r.stampOf (r.group snap rowId) :=
    findVersionPageAt_eq_lastWins fun s _ => by rw [storedVisible, visible, hstamp]
  rw [← lastWins_group h, ← hfind]
  cases hf : r.findVersionPageAt rowId snap with
  | none => exact getVersionAt_of_find_none hf
  | some s =>
    have hepoch : s.row.committedEpoch = (r.stampOf s).epoch := congrArg Stamp.epoch (hstamp s)
    rw [getVersionAt_of_find_some hf hp.pointDecodable, hepoch]
    rfl

theorem versionsOf_visibleVersionsAt :
    versionsOf rowId (r.visibleVersionsAt snap) = (newest snap (r.storedIn rowId)).toList := by
  have hpick : (r.visiblePicksAt snap).filter (fun s => decide (s.row.rowId = rowId)) =
      (lastWins r.stampOf (r.group snap rowId)).toList := by
    rw [visiblePicksAt, sortSlots, filter_insertionSort, bestByRow, filter_key_tally]
    show List.insertionSort _ (lastWins r.stampOf (r.group snap rowId)).toList = _
    cases lastWins r.stampOf (r.group snap rowId) <;> rfl
  rw [← lastWins_group h, visibleVersionsAt, versionsOf, filter_map]
  show ((r.visiblePicksAt snap).filter fun s => decide (s.row.rowId = rowId)).map r.materialize = _
  rw [hpick, toList_map]

theorem filter_cursorVersionsAt :
    ((r.cursorVersionsAt snap).filter fun s => decide (s.row.rowId = rowId)).map r.materialize =
      (newest snap (r.storedIn rowId)).toList := by
  rw [cursorVersionsAt_eq, groupBestAt, filter_groupWinners rowId Run.slots_rowId_le,
    ← firstWins_group h, toList_map]
  rfl

end

end RunReader

/-! ## The write log of a row -/

variable {rr : RunRef F}

namespace Table

section

variable (t : Table F)

theorem openRun_run (rr : RunRef F) : (t.openRun rr).run = rr.run :=
  RunReader.setUniformEpoch_run

theorem openRun_override (h : rr.run.uniformEpoch = false) :
    (t.openRun rr).epochOverride = none := by
  have hnot : ¬ (RunReader.openFile rr.run t.schema).run.uniformEpoch = true := by
    rw [Bool.not_eq_true]
    exact h
  rw [openRun, RunReader.setUniformEpoch, dif_neg hnot]
  rfl

theorem openRun_schema (rr : RunRef F) : (t.openRun rr).schema = t.schema := by
  unfold openRun RunReader.setUniformEpoch
  split <;> rfl

/-- The versions of a row in the sorted runs, oldest run first. -/
def storedVersions (rowId : Nat) : List (Row F) :=
  t.runRefs.flatMap fun rr => (t.openRun rr).storedIn rowId

/-- The versions of a row in memory, in the order they were written. -/
def overlayVersions (rowId : Nat) : List (Row F) :=
  versionsOf rowId t.mutableRun.rows ++ versionsOf rowId t.memtable.rows

def versions (rowId : Nat) : List (Row F) :=
  t.storedVersions rowId ++ t.overlayVersions rowId

end

/-- Every log is in commit order, and versions of equal stamp are all in memory. -/
structure Ordered (t : Table F) : Prop where
  stored : ∀ rowId, (t.storedVersions rowId).Pairwise fun a b => Before a.stamp b.stamp
  overlay : ∀ rowId, InCommitOrder (t.overlayVersions rowId)
  cross : ∀ rowId, ∀ a ∈ t.storedVersions rowId, ∀ b ∈ t.overlayVersions rowId,
    Before a.stamp b.stamp

/-- The sorted runs can be read by every reader, and a directory that claims to be complete is the
one of some initial part of the runs. -/
structure Consultable (t : Table F) : Prop where
  plain : ∀ rr ∈ t.runRefs, (t.openRun rr).Plain
  runIds : (t.runRefs.map RunRef.runId).Pairwise fun i j => i < j
  runIds_lt : ∀ rr ∈ t.runRefs, rr.runId < t.nextRunId
  directory : t.runLookup.complete = true → ∃ n,
    t.runLookup.directory = some (t.rebuildFromRuns (t.runRefs.take n)) ∧
      t.runLookup.fingerprint = (t.runRefs.take n).map RunRef.runId

variable {t : Table F}

theorem Ordered.memtable (h : t.Ordered) (rowId : Nat) :
    InCommitOrder (versionsOf rowId t.memtable.rows) := (pairwise_append.mp (h.overlay rowId)).2.1

theorem Ordered.mutableRun (h : t.Ordered) (rowId : Nat) :
    InCommitOrder (versionsOf rowId t.mutableRun.rows) :=
  (pairwise_append.mp (h.overlay rowId)).1

theorem Ordered.storedIn (h : t.Ordered) (rowId : Nat) (hrr : rr ∈ t.runRefs) :
    ((t.openRun rr).storedIn rowId).Pairwise fun a b => Before a.stamp b.stamp := by
  have hsub : Sublist ((t.openRun rr).storedIn rowId) (t.storedVersions rowId) := by
    rw [storedVersions, flatMap_def]
    exact sublist_flatten_of_mem (mem_map_of_mem hrr)
  exact (h.stored rowId).sublist hsub

end Table

theorem newest_append (snap : Snapshot) (l r : List (Row F)) :
    newest snap (l ++ r) = (newest snap r).or (newest snap l) := by
  rw [newest, filter_append, getLast?_append]
  rfl

/-- The last observed version of a concatenation is that of one of its parts. -/
theorem exists_of_newest_flatMap {β : Type} (f : β → List (Row F)) (l : List β) {w : Row F}
    (hw : newest snap (l.flatMap f) = some w) : ∃ a ∈ l, newest snap (f a) = some w := by
  induction l using List.reverseRecOn with
  | nil => cases hw
  | append_singleton l a ih =>
    rw [flatMap_append, flatMap_singleton, newest_append] at hw
    cases hlast : newest snap (f a) with
    | some v =>
      rw [hlast] at hw
      exact ⟨a, by simp, hlast.trans hw⟩
    | none =>
      rw [hlast] at hw
      obtain ⟨b, hmem, hb⟩ := ih hw
      exact ⟨b, mem_append_left _ hmem, hb⟩

/-! ## Choosing among the tiers -/

namespace Table

variable {t : Table F} {l : List (Row F)}

/-- What the tiers in memory offer. -/
def overlayCandidates (t : Table F) (snap : Snapshot) (rowId : Nat) : List (Row F) :=
  (newest snap (versionsOf rowId t.memtable.rows)).toList ++
    (newest snap (versionsOf rowId t.mutableRun.rows)).toList

/-- `l` is what the sorted runs offer, in some order. -/
def Offers (t : Table F) (snap : Snapshot) (rowId : Nat) (l : List (Row F)) : Prop :=
  ∀ row, row ∈ l ↔ ∃ rr ∈ t.runRefs, newest snap ((t.openRun rr).storedIn rowId) = some row

theorem winner_overlayCandidates (h : t.Ordered) (snap : Snapshot) (rowId : Nat) :
    winner newer (t.overlayCandidates snap rowId) =
      newest snap (t.overlayVersions rowId) := by
  rw [overlayVersions, newest_append, overlayCandidates]
  cases hmem : newest snap (versionsOf rowId t.memtable.rows) with
  | none => cases newest snap (versionsOf rowId t.mutableRun.rows) <;> rfl
  | some w =>
    refine winner_cons_of_kept fun row hrow => ?_
    have hcross := (pairwise_append.mp (h.overlay rowId)).2.2
    exact (hcross row (mem_of_newest (mem_toList.mp hrow)).1 w (mem_of_newest hmem).1).not_newer

variable {row : Row F}

theorem mem_storedVersions_of_offer (hrr : rr ∈ t.runRefs)
    (h : newest snap ((t.openRun rr).storedIn rowId) = some row) :
    row ∈ t.storedVersions rowId ∧ observed snap row = true :=
  ⟨mem_flatMap.mpr ⟨rr, hrr, (mem_of_newest h).1⟩, (mem_of_newest h).2⟩

/-- In whatever order the runs are asked, the choice among them is the last stored version that the
snapshot observes. -/
theorem winner_of_stored_offers (h : t.Ordered) (hl : t.Offers snap rowId l) :
    winner newer l =
      newest snap (t.storedVersions rowId) := by
  cases hstored : newest snap (t.storedVersions rowId) with
  | none =>
    rw [winner_eq_none_iff, eq_nil_iff_forall_not_mem]
    intro row hrow
    obtain ⟨rr, hrr, hoffer⟩ := (hl row).mp hrow
    obtain ⟨hmem, hobs⟩ := mem_storedVersions_of_offer hrr hoffer
    rw [newest, getLast?_eq_none_iff, filter_eq_nil_iff] at hstored
    exact hstored row hmem hobs
  | some w =>
    have hbefore : ∀ row ∈ l, row = w ∨ Before row.stamp w.stamp := by
      intro row hrow
      obtain ⟨rr, hrr, hoffer⟩ := (hl row).mp hrow
      have hmem := mem_filter.mpr (mem_storedVersions_of_offer hrr hoffer)
      have hpw := (h.stored rowId).filter (observed snap)
      obtain ⟨init, hinit⟩ := getLast?_eq_some_iff.mp hstored
      rw [hinit] at hmem hpw
      rcases mem_append.mp hmem with hmem | hmem
      · exact Or.inr ((pairwise_append.mp hpw).2.2 row hmem w (by simp))
      · exact Or.inl (mem_singleton.mp hmem)
    refine winner_eq_of_best ((hl w).mpr (exists_of_newest_flatMap _ _ hstored))
      (fun row hrow => (hbefore row hrow).imp_right And.right) fun row hrow => ?_
    rcases hbefore row hrow with rfl | hlt
    · exact versionIsNewer_irrefl _
    · exact hlt.notAfter.not_newer

/-- Asked before the runs, the tiers in memory keep their version. -/
theorem winner_of_offers (h : t.Ordered) (hl : t.Offers snap rowId l) :
    winner newer
        (t.overlayCandidates snap rowId ++ l) = newest snap (t.versions rowId) := by
  rw [versions, newest_append, ← winner_overlayCandidates h]
  cases hover : winner newer
    (t.overlayCandidates snap rowId) with
  | some w =>
    -- a version in memory is committed after every stored one
    have hw := winner_overlayCandidates h snap rowId
    rw [hover] at hw
    obtain ⟨hwmem, -⟩ := mem_of_newest hw.symm
    rw [winner, foldl_append]
    show l.foldl _ (winner _ (t.overlayCandidates snap rowId)) = _
    rw [hover]
    have hkeep : ∀ row ∈ l, versionIsNewer row.stamp w.stamp = false := by
      intro row hrow
      obtain ⟨rr, hrr, hoffer⟩ := (hl row).mp hrow
      have hstored := (mem_storedVersions_of_offer hrr hoffer).1
      exact (h.cross rowId row hstored w hwmem).notAfter.not_newer
    exact winner_cons_of_kept hkeep
  | none =>
    rw [winner_eq_none_iff] at hover
    rw [hover, nil_append, none_or]
    exact winner_of_stored_offers h hl

/-! ## Point read -/

theorem foldl_consider (h : ∀ row ∈ l, observed snap row = true)
    (best : Option (Row F)) :
    l.foldl (consider snap) best =
      l.foldl (challenge newer) best := by
  refine foldl_ext _ _ best fun best row hrow => ?_
  rw [consider, if_pos (h row hrow)]

/-- What a run offers: the version its reader picks, if the snapshot observes it. -/
def pick (snap : Snapshot) (rowId : Nat) (r : RunReader F) : List (Row F) :=
  match r.getVersionAt rowId snap with
  | .ok (some (_, row)) => [row].filter (observed snap)
  | _ => []

abbrev picks (t : Table F) (snap : Snapshot) (rowId : Nat) : List (Row F) :=
  t.runRefs.flatMap fun rr => pick snap rowId (t.openRun rr)

theorem considerRun_eq (r : RunReader F) (best : Option (Row F)) :
    considerRun snap rowId best r =
      (pick snap rowId r).foldl (challenge newer) best := by
  rw [considerRun, pick]
  cases r.getVersionAt rowId snap with
  | error e => rfl
  | ok found =>
    cases found with
    | none => rfl
    | some found =>
      show consider snap best found.2 = ([found.2].filter (observed snap)).foldl _ best
      rw [consider]
      by_cases hobs : observed snap found.2 = true
      · rw [if_pos hobs, filter_cons_of_pos hobs]
        rfl
      · rw [if_neg hobs, filter_cons_of_neg hobs]
        rfl

theorem mem_pick {r : RunReader F} (h : row ∈ pick snap rowId r) :
    (∃ s ∈ r.run.slots, s.row.rowId = rowId ∧ row.stamp = r.storedStampOf s) ∧
      observed snap row = true := by
  unfold pick at h
  split at h
  next e row' heq =>
    obtain ⟨hrow, hobs⟩ := mem_filter.mp h
    rw [mem_singleton.mp hrow] at hobs ⊢
    exact ⟨RunReader.exists_slot_of_getVersionAt heq, hobs⟩
  next => exact absurd h not_mem_nil

/-- A run without versions of the row offers none. -/
theorem pick_eq_nil {r : RunReader F} (h : r.storedIn rowId = []) : pick snap rowId r = [] := by
  rw [eq_nil_iff_forall_not_mem]
  intro row hrow
  obtain ⟨⟨s, hs, hid, -⟩, -⟩ := mem_pick hrow
  have hmem : r.materialize s ∈ r.storedIn rowId :=
    mem_map_of_mem (mem_filter.mpr ⟨hs, by simp [hid]⟩)
  rw [h] at hmem
  exact absurd hmem not_mem_nil

theorem pick_eq_newest {r : RunReader F} (hp : r.Plain)
    (h : (r.storedIn rowId).Pairwise fun a b => Before a.stamp b.stamp) :
    pick snap rowId r = (newest snap (r.storedIn rowId)).toList := by
  rw [pick, RunReader.Plain.getVersionAt_eq h hp]
  cases hn : newest snap (r.storedIn rowId) with
  | none => rfl
  | some row => exact filter_cons_of_pos (mem_of_newest hn).2

theorem storedIn_eq_nil (h : rr.mayContain rowId = false) :
    (t.openRun rr).storedIn rowId = [] := by
  rw [RunReader.storedIn, openRun_run, map_eq_nil_iff, filter_eq_nil_iff]
  intro s hs hid
  rw [decide_eq_true_eq] at hid
  have hmay := RunReader.pageMayContain_of_mem Run.slots_rowId_le hs
  rw [hid] at hmay
  rw [RunRef.mayContain, hmay] at h
  exact Bool.false_ne_true h.symm

/-- Run ids are distinct, and a version of the row that the snapshot observes at its stored epoch
it also observes at the epoch of the overlay. -/
structure Readable (t : Table F) (rowId : Nat) (snap : Snapshot) : Prop where
  runIds : (t.runRefs.map RunRef.runId).Nodup
  epochs : ∀ rr ∈ t.runRefs, ∀ s ∈ rr.run.slots, s.row.rowId = rowId →
    (t.openRun rr).storedVisible snap s = true → (t.openRun rr).visible snap s = true

theorem Consultable.readable (hc : t.Consultable) : t.Readable rowId snap := by
  refine ⟨hc.runIds.imp Nat.ne_of_lt, fun rr hrr s _ _ hvisible => ?_⟩
  rw [RunReader.visible, RunReader.stampOf, (hc.plain rr hrr).override]
  exact hvisible

theorem considerAllRuns_eq (t : Table F) (best : Option (Row F)) :
    t.considerAllRuns snap rowId best =
      (t.picks snap rowId).foldl (challenge newer) best := by
  rw [considerAllRuns, foldl_flatMap]
  refine foldl_ext _ _ best fun best rr hrr => ?_
  by_cases hmay : rr.mayContain rowId = true
  · rw [if_pos hmay, considerRun_eq]
  · rw [if_neg hmay, pick_eq_nil (storedIn_eq_nil (Bool.eq_false_iff.mpr hmay))]
    rfl

theorem openReader_eq (hr : t.Readable rowId snap) (hrr : rr ∈ t.runRefs) :
    t.openReader rr.runId = some (t.openRun rr) := by
  rw [openReader, (find?_key_eq_some hr.runIds).mpr ⟨hrr, rfl⟩]
  rfl

/-- The posting of a row for one run. -/
def posting (t : Table F) (rowId : Nat) (rr : RunRef F) : Option RunLocator :=
  RunLocator.ofStamps rr.runId (stampsIn (t.openRun rr) rowId)

theorem stampsIn_eq (r : RunReader F) (rowId : Nat) :
    stampsIn r rowId = (r.storedIn rowId).map Row.stamp := by
  rw [stampsIn, RunReader.storedIn, map_map]
  rfl

theorem postings_perm (t : Table F) (runs : List (RunRef F)) (rowId : Nat) :
    ((t.rebuildFromRuns runs).postings rowId).Perm (runs.filterMap (t.posting rowId)) := by
  show (List.foldl _ [] runs).Perm _
  induction runs using List.reverseRecOn with
  | nil => exact List.Perm.refl _
  | append_singleton runs rr ih =>
    rw [foldl_append, filterMap_append]
    cases hp : t.posting rowId rr with
    | none =>
      rw [filterMap_cons_none hp, filterMap_nil, append_nil]
      unfold posting at hp
      simp only [foldl_cons, foldl_nil, hp]
      exact ih
    | some l =>
      rw [filterMap_cons_some hp, filterMap_nil]
      unfold posting at hp
      simp only [foldl_cons, foldl_nil, hp]
      exact (RunLookupDirectory.insertLocator_perm l _).trans
        ((ih.cons l).trans (perm_append_singleton l _).symm)

/-- What the run of a posting offers. -/
def offer (t : Table F) (snap : Snapshot) (rowId : Nat) (l : RunLocator) : List (Row F) :=
  match t.openReader l.runId with
  | none => []
  | some r => pick snap rowId r

/-- `l` is the posting of a run of the table. -/
def IsPosting (t : Table F) (rowId : Nat) (l : RunLocator) : Prop :=
  ∃ rr ∈ t.runRefs, t.posting rowId rr = some l

theorem offer_eq (hr : t.Readable rowId snap) (hrr : rr ∈ t.runRefs) {l : RunLocator}
    (hl : t.posting rowId rr = some l) :
    t.offer snap rowId l = pick snap rowId (t.openRun rr) := by
  rw [offer, RunLocator.runId_of_ofStamps hl, openReader_eq hr hrr]

/-- Whatever a posting's run offers has a stamp in the posting's envelope that the snapshot observes
and that beats all that the offer beats. -/
theorem covers_of_mem_offer (hr : t.Readable rowId snap) {l : RunLocator}
    (hl : t.IsPosting rowId l) (hrow : row ∈ t.offer snap rowId l) :
    ∃ s, l.Covers s ∧ snap.observesVersion s = true ∧
      ∀ best, versionIsNewer row.stamp best = true → versionIsNewer s best = true := by
  obtain ⟨rr, hrr, hposting⟩ := hl
  rw [offer_eq hr hrr hposting] at hrow
  obtain ⟨⟨s, hs, hid, hstamp⟩, hobs⟩ := mem_pick hrow
  rw [observed, hstamp] at hobs
  have hs' : s ∈ rr.run.slots := by rwa [openRun_run] at hs
  refine ⟨(t.openRun rr).stampOf s, RunLocator.covers_of_ofStamps hposting ?_,
    hr.epochs rr hrr s hs' hid hobs, fun best hnewer => ?_⟩
  · exact mem_map_of_mem (mem_filter.mpr ⟨hs, by simp [hid]⟩)
  · rw [hstamp] at hnewer
    exact RunReader.newer_stampOf hs hnewer

/-- A posting the loop skips offers nothing that would replace the current version. -/
theorem foldl_offer_of_skip (hr : t.Readable rowId snap) {l : RunLocator} (hl : t.IsPosting rowId l)
    {best : Option (Row F)}
    (hskip : best.any (fun row => !l.canContainVersionNewerThan row.stamp snap) = true ∨
      l.isImpossibleFor snap = true) :
    (t.offer snap rowId l).foldl (challenge newer) best =
      best := by
  rcases hskip with hskip | hskip
  · cases best with
    | none => exact absurd hskip (by simp)
    | some b =>
      have hcannot : l.canContainVersionNewerThan b.stamp snap = false := by simpa using hskip
      refine winner_cons_of_kept fun row hrow => ?_
      obtain ⟨s, hcov, hobs, hbeats⟩ := covers_of_mem_offer hr hl hrow
      have hnot := RunLocator.not_newer_of_cannot_contain hcov hobs hcannot
      exact Bool.eq_false_iff.mpr fun hnewer => by simp [hbeats _ hnewer] at hnot
  · have hnil : t.offer snap rowId l = [] := by
      rw [eq_nil_iff_forall_not_mem]
      intro row hrow
      obtain ⟨s, hcov, hobs, -⟩ := covers_of_mem_offer hr hl hrow
      rw [RunLocator.observes_of_impossible hcov hskip] at hobs
      exact Bool.false_ne_true hobs
    rw [hnil]
    rfl

/-- Skipping and stopping early change nothing: the loop chooses among all offers. -/
theorem considerLocators_eq (hr : t.Readable rowId snap) (ls : List RunLocator)
    (opened : List Nat) (best : Option (Row F)) (hls : ∀ l ∈ ls, t.IsPosting rowId l)
    (hnd : (ls.map RunLocator.runId).Nodup) (hopened : ∀ l ∈ ls, l.runId ∉ opened) :
    t.considerLocators snap rowId ls opened best =
      (ls.flatMap (t.offer snap rowId)).foldl
        (challenge newer) best := by
  induction ls generalizing opened best with
  | nil => rfl
  | cons l ls ih =>
    rw [map_cons, nodup_cons] at hnd
    have hls' := fun k hk => hls k (mem_cons_of_mem l hk)
    have hopened' := fun k hk => hopened k (mem_cons_of_mem l hk)
    have hl := hls l (by simp)
    rw [considerLocators, flatMap_cons, foldl_append]
    split
    next hskip =>
      rw [foldl_offer_of_skip hr hl (Or.inl hskip)]
      exact ih opened best hls' hnd.2 hopened'
    next =>
      split
      next hskip =>
        rw [foldl_offer_of_skip hr hl (Or.inr hskip)]
        exact ih opened best hls' hnd.2 hopened'
      next =>
        rw [if_neg (hopened l (by simp))]
        obtain ⟨rr, hrr, hposting⟩ := hl
        have hid := RunLocator.runId_of_ofStamps hposting
        rw [offer_eq hr hrr hposting, hid, openReader_eq hr hrr]
        show t.considerLocators snap rowId ls (rr.runId :: opened)
          (considerRun snap rowId best (t.openRun rr)) = _
        rw [considerRun_eq]
        refine ih _ _ hls' hnd.2 fun k hk => ?_
        rw [mem_cons, not_or]
        refine ⟨fun he => hnd.1 ?_, hopened' k hk⟩
        rw [hid, ← he]
        exact mem_map_of_mem hk

theorem runId_of_posting {l : RunLocator} (h : t.posting rowId rr = some l) :
    l.runId = rr.runId := RunLocator.runId_of_ofStamps h

theorem nodup_postings (hr : t.Readable rowId snap) {ls : List RunLocator}
    (hls : ls.Perm (t.runRefs.filterMap (t.posting rowId))) : (ls.map RunLocator.runId).Nodup := by
  rw [(hls.map RunLocator.runId).nodup_iff]
  have hnd : t.runRefs.Pairwise fun a b => a.runId ≠ b.runId := pairwise_map.mp hr.runIds
  rw [Nodup, pairwise_map, pairwise_filterMap]
  refine hnd.imp fun hne l hl k hk => ?_
  rw [runId_of_posting hl, runId_of_posting hk]
  exact hne

theorem pick_eq_nil_of_posting (hl : t.posting rowId rr = none) :
    pick snap rowId (t.openRun rr) = [] := by
  refine pick_eq_nil (map_eq_nil_iff.mp ((stampsIn_eq _ _).symm.trans ?_))
  unfold posting at hl
  cases hst : stampsIn (t.openRun rr) rowId with
  | nil => rfl
  | cons s stamps =>
    rw [hst] at hl
    cases hl

/-- The postings of a row reach every run that offers a version of it. -/
theorem offers_perm (hr : t.Readable rowId snap) {ls : List RunLocator}
    (hls : ls.Perm (t.runRefs.filterMap (t.posting rowId))) :
    (ls.flatMap (t.offer snap rowId)).Perm (t.picks snap rowId) := by
  refine (hls.flatMap_right _).trans (Perm.of_eq ?_)
  rw [filterMap_eq_flatMap_toList, flatMap_assoc]
  refine flatMap_congr fun rr hrr => ?_
  cases hl : t.posting rowId rr with
  | none => exact (pick_eq_nil_of_posting hl).symm
  | some l => exact (flatMap_singleton _ l).trans (offer_eq hr hrr hl)

/-- The best version the tiers in memory have. -/
def overlayBest (t : Table F) (snap : Snapshot) (rowId : Nat) : Option (Row F) :=
  ((t.memtable.getVersionAt rowId snap).toList ++
    (t.mutableRun.getVersionAt rowId snap).toList).foldl (consider snap) none

theorem get_of_fallback (hdec : t.lookupDecision rowId = .unavailableOrStale)
    (nowNanos : Int) :
    t.get rowId snap nowNanos =
      ((t.picks snap rowId).foldl (challenge newer) (t.overlayBest snap rowId)).filter
        (t.isLive nowNanos) := by
  unfold get
  rw [hdec]
  show (t.considerAllRuns snap rowId (t.overlayBest snap rowId)).filter _ = _
  rw [considerAllRuns_eq]

/-- The directory path folds the same offers, in another order. -/
theorem get_of_directory (hr : t.Readable rowId snap)
    (hdec : t.lookupDecision rowId = (t.rebuildFromRuns t.runRefs).lookup rowId)
    (nowNanos : Int) :
    ∃ l : List (Row F), l.Perm (t.picks snap rowId) ∧
      t.get rowId snap nowNanos =
        (l.foldl (challenge newer)
          (t.overlayBest snap rowId)).filter (t.isLive nowNanos) := by
  have hperm := t.postings_perm t.runRefs rowId
  rw [RunLookupDirectory.lookup] at hdec
  unfold get
  rw [hdec]
  cases hpost : (t.rebuildFromRuns t.runRefs).postings rowId with
  | nil =>
    rw [hpost] at hperm
    exact ⟨[], offers_perm hr hperm, rfl⟩
  | cons l ls =>
    rw [hpost] at hperm
    have hsorted := (sortLocators_perm snap (l :: ls)).trans hperm
    refine ⟨_, offers_perm hr hsorted, congrArg (Option.filter _) ?_⟩
    exact considerLocators_eq hr _ _ _
      (fun k hk => mem_filterMap.mp (hsorted.mem_iff.mp hk)) (nodup_postings hr hsorted)
      fun k hk => not_mem_nil

theorem offers_of_perm (h : t.Ordered) (hc : t.Consultable)
    (hl : l.Perm (t.picks snap rowId)) : t.Offers snap rowId l := by
  intro row
  rw [hl.mem_iff, mem_flatMap]
  refine exists_congr fun rr => and_congr_right fun hrr => ?_
  rw [pick_eq_newest (hc.plain rr hrr) (h.storedIn rowId hrr), mem_toList]

theorem offers_of_runRefs (t : Table F) (snap : Snapshot) (rowId : Nat) :
    t.Offers snap rowId
      (t.runRefs.flatMap fun rr => (newest snap ((t.openRun rr).storedIn rowId)).toList) := by
  intro row
  simp only [mem_flatMap, mem_toList]

theorem lookupDecision_cases (hc : t.Consultable) (rowId : Nat) :
    t.lookupDecision rowId = .unavailableOrStale ∨
      t.lookupDecision rowId = (t.rebuildFromRuns t.runRefs).lookup rowId := by
  unfold lookupDecision
  split
  next hcond =>
    rw [Bool.and_eq_true, decide_eq_true_eq] at hcond
    obtain ⟨n, hdir, hfp⟩ := hc.directory hcond.1
    have hlen := congrArg List.length (hfp.symm.trans hcond.2)
    rw [length_map, length_map, length_take] at hlen
    rw [hdir, take_of_length_le (by omega)]
    exact Or.inr rfl
  next => exact Or.inl rfl

theorem get_eq (h : t.Ordered) (hc : t.Consultable) (rowId : Nat) (snap : Snapshot)
    (nowNanos : Int) :
    t.get rowId snap nowNanos = (newest snap (t.versions rowId)).filter (t.isLive nowNanos) := by
  have hover : t.overlayBest snap rowId =
      winner newer (t.overlayCandidates snap rowId) := by
    rw [overlayBest, Memtable.getVersionAt_eq (h.memtable rowId),
      MutableRun.getVersionAt_eq (h.mutableRun rowId)]
    refine foldl_consider (fun row hrow => ?_) none
    rcases mem_append.mp hrow with hrow | hrow
    · exact (mem_of_newest (mem_toList.mp hrow)).2
    · exact (mem_of_newest (mem_toList.mp hrow)).2
  -- whichever way the runs are consulted, the loop is one more stretch of the same fold
  have hruns : ∀ l : List (Row F),
      l.Perm (t.picks snap rowId) →
      l.foldl (challenge newer) (t.overlayBest snap rowId) =
        newest snap (t.versions rowId) := by
    intro l hl
    rw [hover, ← winner_of_offers h (offers_of_perm h hc hl), winner, winner, foldl_append]
  rcases lookupDecision_cases hc rowId with hdec | hdec
  · rw [get_of_fallback hdec, hruns _ (List.Perm.refl _)]
  · obtain ⟨l, hl, heq⟩ := get_of_directory hc.readable hdec nowNanos
    rw [heq, hruns l hl]

/-! ## Full scan -/

theorem versionsOf_scanned (h : t.Ordered) (snap : Snapshot) (rowId : Nat) :
    versionsOf rowId (t.memtable.visibleVersionsAt snap ++ t.mutableRun.visibleVersionsAt snap ++
        t.runRefs.flatMap fun rr => (t.openRun rr).visibleVersionsAt snap) =
      t.overlayCandidates snap rowId ++
        t.runRefs.flatMap fun rr => (newest snap ((t.openRun rr).storedIn rowId)).toList := by
  rw [versionsOf_append, versionsOf_append, Tier.filter_visibleVersionsAt (h.memtable rowId),
    Tier.filter_visibleVersionsAt (h.mutableRun rowId), overlayCandidates]
  congr 1
  rw [versionsOf, filter_flatMap]
  exact flatMap_congr fun rr hrr =>
    RunReader.versionsOf_visibleVersionsAt (h.storedIn rowId hrr)

theorem observed_of_mem_candidates (hl : t.Offers snap rowId l)
    (hrow : row ∈ t.overlayCandidates snap rowId ++ l) : observed snap row = true := by
  rw [overlayCandidates, mem_append, mem_append] at hrow
  rcases hrow with (hrow | hrow) | hrow
  · exact (mem_of_newest (mem_toList.mp hrow)).2
  · exact (mem_of_newest (mem_toList.mp hrow)).2
  · obtain ⟨rr, hrr, hoffer⟩ := (hl row).mp hrow
    exact (mem_storedVersions_of_offer hrr hoffer).2

/-- The versions of a row among which a full scan chooses, those in memory first. -/
def scanned (t : Table F) (snap : Snapshot) (rowId : Nat) : List (Row F) :=
  (versionsOf rowId (t.memtable.visibleVersionsAt snap ++ t.mutableRun.visibleVersionsAt snap ++
    t.runRefs.flatMap fun rr => (t.openRun rr).visibleVersionsAt snap)).filter (observed snap)

theorem winner_scanned (h : t.Ordered) (snap : Snapshot) (rowId : Nat) :
    winner newer (t.scanned snap rowId) = newest snap (t.versions rowId) := by
  have hoffers := offers_of_runRefs t snap rowId
  rw [scanned, versionsOf_scanned h,
    filter_eq_self.mpr fun row => observed_of_mem_candidates hoffers, winner_of_offers h hoffers]

/-- On any table, a full scan has at most one version of a row. -/
theorem versionsOf_scan (t : Table F) (rowId : Nat) (snap : Snapshot) (nowNanos : Int) :
    versionsOf rowId (t.visibleRowsAtTime snap nowNanos) =
      ((winner newer (t.scanned snap rowId)).filter (t.isLive nowNanos)).toList := by
  unfold visibleRowsAtTime
  rw [versionsOf, filter_insertionSort, filter_comm, filter_key_tally, filter_comm]
  show List.insertionSort _ ((winner _ (t.scanned snap rowId)).toList.filter _) = _
  cases winner newer (t.scanned snap rowId) with
  | none => rfl
  | some row =>
    by_cases hlive : t.isLive nowNanos row = true
    · simp [Option.filter, hlive]
    · simp [Option.filter, hlive]

theorem versionsOf_visibleRowsAtTime (h : t.Ordered) (rowId : Nat) (snap : Snapshot)
    (nowNanos : Int) :
    versionsOf rowId (t.visibleRowsAtTime snap nowNanos) =
      ((newest snap (t.versions rowId)).filter (t.isLive nowNanos)).toList := by
  rw [versionsOf_scan, winner_scanned h]

end Table

/-! ## Streaming scan -/

namespace Candidate

/-- The version as a full scan would materialise it. -/
def row : Candidate F → Row F
  | memory row => row
  | run reader version => reader.materialize version

theorem rowId_row (c : Candidate F) : c.row.rowId = c.rowId := by cases c <;> rfl

theorem stamp_row (c : Candidate F) : c.row.stamp = c.stamp := by cases c <;> rfl

theorem deleted_row (c : Candidate F) : c.row.deleted = c.deleted := by cases c <;> rfl

end Candidate

theorem visited_visitChosen {visits : Row F → Bool} {cs : List (Candidate F)}
    (h : ∀ c ∈ cs, c.materialize = .ok c.row) :
    (visitChosen visits cs).visited =
      (cs.map Candidate.row).filter fun row => !row.deleted && visits row := by
  induction cs with
  | nil => rfl
  | cons c cs ih =>
    have hcs := ih fun d hd => h d (mem_cons_of_mem c hd)
    rw [visitChosen, map_cons, h c (by simp)]
    by_cases hdel : c.deleted = true
    · rw [if_pos hdel, hcs, filter_cons_of_neg (by simp [c.deleted_row, hdel])]
    · rw [if_neg hdel]
      dsimp only
      by_cases hv : visits c.row = true
      · rw [if_pos hv, filter_cons_of_pos (by simp [c.deleted_row, hdel, hv]), hcs]
      · rw [if_neg hv, filter_cons_of_neg (by simp [hv]), hcs]

theorem winner_map_row (cs : List (Candidate F)) :
    (winner (fun a b : Candidate F => versionIsNewer a.stamp b.stamp) cs).map Candidate.row =
      winner newer (cs.map Candidate.row) := by
  rw [winner_map]
  simp only [newer, Candidate.stamp_row]

namespace Table

variable {t : Table F}

theorem iter_eq_nil_of_isEmpty {m : Memtable F} (h : m.isEmpty = true) :
    m.newestVisibleIter snap = [] := by
  have hrows : (m.segments.map Segment.rows).flatten = [] := m.isEmpty_iff h
  rw [Memtable.newestVisibleIter, mergeSources, hrows]
  rfl

theorem mutableIter_eq_nil_of_isEmpty {m : MutableRun F} (h : m.isEmpty = true) :
    m.newestVisibleIter snap = [] := by
  have hrows : (m.segments.map Segment.rows).flatten = [] := m.isEmpty_iff h
  rw [MutableRun.newestVisibleIter, mergeSources, hrows]
  rfl

theorem flatten_controlledSources (t : Table F) (snap : Snapshot) :
    (t.controlledSources snap).flatten =
      (t.memtable.newestVisibleIter snap).map .memory ++
        (t.mutableRun.newestVisibleIter snap).map .memory ++
        t.runRefs.flatMap fun rr => ((t.openRun rr).cursorVersionsAt snap).map
          (.run (t.openRun rr)) := by
  unfold controlledSources
  rw [flatten_append, flatten_append, ← flatMap_def]
  congr 2
  · split
    next hempty => rw [iter_eq_nil_of_isEmpty hempty]; rfl
    next => simp
  · split
    next hempty => rw [mutableIter_eq_nil_of_isEmpty hempty]; rfl
    next => simp

theorem controlledSources_sorted (hgap : t.mutableRun.Gapless snap) :
    ∀ l ∈ t.controlledSources snap, l.Pairwise fun a b => a.rowId ≤ b.rowId := by
  intro l hl
  unfold controlledSources at hl
  rw [mem_append, mem_append] at hl
  rcases hl with (hl | hl) | hl
  · split at hl
    · exact absurd hl not_mem_nil
    · rw [mem_singleton.mp hl, pairwise_map]
      exact t.memtable.newestVisibleIter_sorted snap
  · split at hl
    · exact absurd hl not_mem_nil
    · rw [mem_singleton.mp hl, pairwise_map]
      exact MutableRun.newestVisibleIter_sorted hgap
  · obtain ⟨rr, -, rfl⟩ := mem_map.mp hl
    rw [pairwise_map, RunReader.cursorVersionsAt_eq]
    exact Run.slots_rowId_le.sublist (groupWinners_sublist Run.slots_rowId_le)

theorem candidates_map_row (h : t.Ordered) (hgap : t.mutableRun.Gapless snap) (rowId : Nat) :
    (((t.controlledSources snap).flatten).filter fun c => decide (c.rowId = rowId)).map
        Candidate.row =
      t.overlayCandidates snap rowId ++
        t.runRefs.flatMap fun rr => (newest snap ((t.openRun rr).storedIn rowId)).toList := by
  have hmem : ∀ rows : List (Row F),
      ((rows.map Candidate.memory).filter fun c => decide (c.rowId = rowId)).map Candidate.row =
        versionsOf rowId rows := by
    intro rows
    rw [filter_map, map_map]
    exact map_id _
  rw [flatten_controlledSources, filter_append, filter_append, map_append,
    map_append, hmem, hmem, Memtable.filter_newestVisibleIter (h.memtable rowId),
    MutableRun.filter_newestVisibleIter hgap (h.mutableRun rowId), overlayCandidates]
  congr 1
  rw [filter_flatMap, map_flatMap]
  refine flatMap_congr fun rr hrr => ?_
  rw [← RunReader.filter_cursorVersionsAt (h.storedIn rowId hrr), filter_map, map_map]
  rfl

theorem materialize_candidates (hc : t.Consultable) {c : Candidate F}
    (hmem : c ∈ (t.controlledSources snap).flatten) : c.materialize = .ok c.row := by
  rw [flatten_controlledSources, mem_append, mem_append] at hmem
  rcases hmem with (hmem | hmem) | hmem
  · obtain ⟨row, -, rfl⟩ := mem_map.mp hmem
    rfl
  · obtain ⟨row, -, rfl⟩ := mem_map.mp hmem
    rfl
  · obtain ⟨rr, hrr, hmem⟩ := mem_flatMap.mp hmem
    obtain ⟨v, -, rfl⟩ := mem_map.mp hmem
    exact (hc.plain rr hrr).materializeNative_eq v

theorem versionsOf_visited (h : t.Ordered) (hc : t.Consultable) (hgap : t.mutableRun.Gapless snap)
    (rowId : Nat) (nowNanos : Int) :
    versionsOf rowId (t.forEachVisibleRowControlled snap nowNanos).visited =
      ((newest snap (t.versions rowId)).filter (t.isLive nowNanos)).toList := by
  have hoffers := offers_of_runRefs t snap rowId
  have hsorted := controlledSources_sorted hgap
  have hmerged := pairwise_mergeSources hsorted
  let newer : Candidate F → Candidate F → Bool := fun a b => versionIsNewer a.stamp b.stamp
  let chosen := groupWinners newer Candidate.rowId (fun _ => true)
    (mergeSources Candidate.rowId (t.controlledSources snap))
  have hmat : ∀ c ∈ chosen, c.materialize = .ok c.row := by
    intro c hcm
    have hmem := (groupWinners_sublist hmerged).mem hcm
    rw [mergeSources_eq_insertionSort hsorted, mem_insertionSort] at hmem
    exact materialize_candidates hc hmem
  have hrow : versionsOf rowId (chosen.map Candidate.row) =
      (newest snap (t.versions rowId)).toList := by
    rw [versionsOf, filter_map]
    show (chosen.filter fun c => decide (c.row.rowId = rowId)).map Candidate.row = _
    simp only [Candidate.rowId_row]
    rw [filter_groupWinners rowId hmerged, filter_true, filter_key_mergeSources rowId hsorted,
      ← toList_map, winner_map_row, candidates_map_row h hgap, winner_of_offers h hoffers]
  have hvisited : versionsOf rowId (t.forEachVisibleRowControlled snap nowNanos).visited =
      (newest snap (t.versions rowId)).toList.filter fun row =>
        !row.deleted && (!rowExpiredAt t.ttl row nowNanos && observed snap row) := by
    rw [← hrow, versionsOf, versionsOf, filter_comm]
    exact congrArg (List.filter _) (visited_visitChosen hmat)
  rw [hvisited]
  cases hn : newest snap (t.versions rowId) with
  | none => rfl
  | some row =>
    have hobs := (mem_of_newest hn).2
    by_cases hlive : t.isLive nowNanos row = true
    · simp_all [Option.filter, isLive]
    · simp_all [Option.filter, isLive]

end Table

end MongrelDB.Storage
