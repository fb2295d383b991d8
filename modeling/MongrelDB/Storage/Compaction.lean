import MongrelDB.Epoch.VersionOrder
import MongrelDB.Storage.Row
import MongrelDB.Lib.Gallop
import MongrelDB.Lib.Merge

/-!
# Compaction: which versions of a row survive

Compaction gathers every version of a row, sorts them by epoch, lets `selectKeep`
choose what the oldest queryable snapshot (the *floor*) still needs, and drops what
has outlived its time to live (`compactRow`).
-/

namespace MongrelDB.Storage

open Epoch Lib List
open Option hiding any_eq_false any_eq_true filter_filter

variable {F : Type}

/-! ## The source -/

def cmpCommitTs : Option HlcTimestamp → Option HlcTimestamp → Ordering
  | none, none => .eq
  | none, some _ => .lt
  | some _, none => .gt
  | some a, some b => compare a b

/-- Recency of two versions: timestamps when both have one, else epochs. -/
def cmpVersionOrder (a b : Row F) : Ordering :=
  if versionIsNewer a.stamp b.stamp then .gt
  else if versionIsNewer b.stamp a.stamp then .lt
  else (compare a.committedEpoch b.committedEpoch).then (cmpCommitTs a.commitTs b.commitTs)

/-- `max_by(cmp_version_order)`, which keeps the current maximum only against something less. -/
def newestVersion (vers : List (Row F)) : Option (Row F) :=
  winner (fun a b => cmpVersionOrder b a != .gt) vers

def isSameVersion (a b : Row F) : Bool :=
  decide (a.committedEpoch = b.committedEpoch) && decide (a.commitTs = b.commitTs)

/-- The versions at or after the floor `minE`, with the boundary version before them unless one of
them is at the floor itself. A lone boundary tombstone is not kept. -/
def keepFrom (older recent : List (Row F)) (minE : Nat) : List (Row F) :=
  match older.getLast?, recent with
  | none, recent => recent
  | some boundary, [] => if boundary.deleted then [] else [boundary]
  | some boundary, first :: rest =>
    if minE < first.committedEpoch then boundary :: first :: rest else first :: rest

/-- The row-id-reuse guard: the only kept version is live and a tombstone shares its epoch. -/
def reuseGuard (vers keep : List (Row F)) : Bool :=
  match keep with
  | [row] => !row.deleted &&
      vers.any fun v => v.deleted && decide (v.committedEpoch = row.committedEpoch)
  | _ => false

def selectKeep (vers : List (Row F)) (minActive : Option Nat) : List (Row F) :=
  match newestVersion vers with
  | none => []
  | some newest =>
    match minActive with
    | none => if newest.deleted then [] else [newest]
    | some minE =>
      let older := vers.takeWhile fun row => decide (row.committedEpoch < minE)
      let recent := vers.dropWhile fun row => decide (row.committedEpoch < minE)
      let keep := keepFrom older recent minE
      if reuseGuard vers keep then [] else keep

/-- What becomes of a kept version: expired ones go, except that the newest one, if newer than the
floor, stays as a tombstone. -/
def dropExpired (ttl : Option TtlPolicy) (now : Int) (minActive : Option Nat) (newest row : Row F) :
    Option (Row F) :=
  if rowExpiredAt ttl row now then
    if isSameVersion row newest &&
        minActive.any (fun epoch => decide (epoch < newest.committedEpoch))
    then some { row with deleted := true, columns := [] }
    else none
  else some row

def sortByEpoch (versions : List (Row F)) : List (Row F) :=
  versions.insertionSort fun a b => a.committedEpoch ≤ b.committedEpoch

section

variable (ttl : Option TtlPolicy) (now : Int)

/-- The compaction of one row's versions, given in physical write order. -/
def compactRow (minActive : Option Nat)
    (versions : List (Row F)) : List (Row F) :=
  let versions := sortByEpoch versions
  match newestVersion versions with
  | none => []
  | some newest => (selectKeep versions minActive).filterMap (dropExpired ttl now minActive newest)

/-! ## What a snapshot sees -/

/-- The content of a version; a tombstone or an expired version means absent. -/
def contentOf (row : Row F) : Option (List (Nat × Value F)) :=
  if row.deleted || rowExpiredAt ttl row now then none else some row.columns

/-- The content of the row at a snapshot epoch, from its versions in physical order: the newest of
the observed versions counts, and the last one on a tie. -/
def contentAt (versions : List (Row F)) (epoch : Nat) :
    Option (List (Nat × Value F)) :=
  let observed := versions.filter fun v => (Snapshot.atEpoch epoch).observesVersion v.stamp
  (lastWins Row.stamp observed).bind (contentOf ttl now)

end

/-- The snapshot epoch is at or above the floor. Without a floor there are no older snapshots, and
new ones see every version. -/
def AtOrAbove (minActive : Option Nat) (versions : List (Row F)) (epoch : Nat) : Prop :=
  match minActive with
  | none => ∀ v ∈ versions, v.committedEpoch ≤ epoch
  | some minE => minE ≤ epoch

/-- One stamp per epoch, and later epochs are newer. -/
structure Coherent (versions : List (Row F)) : Prop where
  newer : ∀ a ∈ versions, ∀ b ∈ versions, a.committedEpoch < b.committedEpoch →
    versionIsNewer b.stamp a.stamp = true
  same : ∀ a ∈ versions, ∀ b ∈ versions, a.committedEpoch = b.committedEpoch → a.stamp = b.stamp

section

variable (minE : Nat) (versions : List (Row F))

def before : List (Row F) :=
  versions.filter fun v => decide (v.committedEpoch < minE)

def since : List (Row F) :=
  versions.filter fun v => decide (minE ≤ v.committedEpoch)

/-- The versions a floor has to keep: those at or after it and, if none is at the floor itself, the
last one before it. -/
def retained : List (Row F) :=
  if (since minE versions).any fun v => decide (v.committedEpoch = minE) then since minE versions
  else (before minE versions).getLast?.toList ++ since minE versions

end

/-- The last version of the row is older than the floor, live and not expired, and some tombstone
shares its epoch. -/
def HiddenByReuseGuard (ttl : Option TtlPolicy) (now : Int) (minE : Nat)
    (versions : List (Row F)) : Prop :=
  ∃ x, versions.getLast? = some x ∧ x.committedEpoch < minE ∧ x.deleted = false ∧
    rowExpiredAt ttl x now = false ∧
    ∃ t ∈ versions, t.deleted = true ∧ t.committedEpoch = x.committedEpoch

/-- The version the snapshot sees has expired, it is not the last version committed after the
floor, and the last unexpired version retained before it is live. -/
def Uncovers (ttl : Option TtlPolicy) (now : Int) (minE epoch : Nat) (versions : List (Row F)) :
    Prop :=
  ∃ pre w post, retained minE versions = pre ++ w :: post ∧ w.committedEpoch ≤ epoch ∧
    (∀ v ∈ post, epoch < v.committedEpoch) ∧ rowExpiredAt ttl w now = true ∧
    (post ≠ [] ∨ w.committedEpoch ≤ minE) ∧
    ∃ x, (pre.filter fun v => !rowExpiredAt ttl v now).getLast? = some x ∧ x.deleted = false

/-! ## Coherent versions are ranked by epoch -/

variable {g : Row F → Option (Row F)}

section Coherent

variable {versions l : List (Row F)} {a b : Row F}

theorem Coherent.mono (h : Coherent versions) (hl : ∀ v ∈ l, v ∈ versions) : Coherent l where
  newer a ha b hb := h.newer a (hl a ha) b (hl b hb)
  same a ha b hb := h.same a (hl a ha) b (hl b hb)

theorem exists_of_mem_filterMap
    (hg : ∀ v v', g v = some v' → v'.stamp = v.stamp) (ha : a ∈ versions.filterMap g) :
    ∃ x ∈ versions, a.stamp = x.stamp ∧ a.committedEpoch = x.committedEpoch := by
  obtain ⟨x, hx, hax⟩ := mem_filterMap.mp ha
  exact ⟨x, hx, hg x a hax, congrArg Stamp.epoch (hg x a hax)⟩

theorem Coherent.filterMap (h : Coherent versions)
    (hg : ∀ v v', g v = some v' → v'.stamp = v.stamp) : Coherent (versions.filterMap g) where
  newer a ha b hb hlt := by
    obtain ⟨x, hx, hax, hxa⟩ := exists_of_mem_filterMap hg ha
    obtain ⟨y, hy, hby, hyb⟩ := exists_of_mem_filterMap hg hb
    rw [hax, hby]
    exact h.newer x hx y hy (by omega)
  same a ha b hb heq := by
    obtain ⟨x, hx, hax, hxa⟩ := exists_of_mem_filterMap hg ha
    obtain ⟨y, hy, hby, hyb⟩ := exists_of_mem_filterMap hg hb
    rw [hax, hby]
    exact h.same x hx y hy (by omega)

theorem Coherent.newer_eq (h : Coherent l) (ha : a ∈ l) (hb : b ∈ l) :
    versionIsNewer a.stamp b.stamp = decide (b.committedEpoch < a.committedEpoch) := by
  rcases Nat.lt_trichotomy a.committedEpoch b.committedEpoch with hlt | heq | hgt
  · rw [versionIsNewer_asymm (h.newer a ha b hb hlt), eq_comm, decide_eq_false_iff_not]
    omega
  · rw [h.same a ha b hb heq, versionIsNewer_irrefl, eq_comm, decide_eq_false_iff_not]
    omega
  · rw [h.newer b hb a ha hgt, decide_eq_true hgt]

theorem Coherent.lastWins_eq (h : Coherent l) :
    lastWins Row.stamp l = lastMax Row.committedEpoch l := by
  refine winner_congr fun a ha b hb => ?_
  rw [versionSupersedes, h.newer_eq hb ha, ← decide_not]
  exact decide_eq_decide.mpr Nat.not_lt

theorem cmpCommitTs_self (t : Option HlcTimestamp) : cmpCommitTs t t = .eq := by
  cases t with
  | none => rfl
  | some t => exact compare_eq_iff_eq.mpr rfl

theorem Coherent.newestVersion_eq (h : Coherent l) :
    newestVersion l = lastMax Row.committedEpoch l := by
  refine winner_congr fun a ha b hb => ?_
  unfold cmpVersionOrder
  rw [h.newer_eq ha hb, h.newer_eq hb ha]
  rcases Nat.lt_trichotomy a.committedEpoch b.committedEpoch with hlt | heq | hgt
  · simp [hlt]
  · have hts : b.commitTs = a.commitTs := congrArg Stamp.commitTs (h.same b hb a ha heq.symm)
    simp [heq, hts, cmpCommitTs_self]
  · simp [hgt, Nat.lt_asymm hgt, hgt.le]

/-! ## The reader's choice in epoch order -/

/-- In epoch order. -/
def InOrder (l : List (Row F)) : Prop :=
  l.Pairwise fun a b => a.committedEpoch ≤ b.committedEpoch

/-- The versions a snapshot epoch observes. -/
def upTo (epoch : Nat) (l : List (Row F)) : List (Row F) :=
  l.filter fun v => decide (v.committedEpoch ≤ epoch)

theorem mem_upTo {epoch : Nat} : a ∈ upTo epoch l ↔ a ∈ l ∧ a.committedEpoch ≤ epoch := by
  rw [upTo, mem_filter, decide_eq_true_eq]

theorem InOrder.upTo (h : InOrder l) (epoch : Nat) : InOrder (upTo epoch l) := h.filter _

theorem Coherent.upTo (h : Coherent l) (epoch : Nat) : Coherent (upTo epoch l) :=
  h.mono fun _ hv => (mem_upTo.mp hv).1

theorem InOrder.le_getLast? (h : InOrder l) (hlast : l.getLast? = some a) :
    ∀ v ∈ l, v.committedEpoch ≤ a.committedEpoch := by
  obtain ⟨front, rfl⟩ := getLast?_eq_some_iff.mp hlast
  exact forall_mem_append.mpr ⟨fun v hv => (pairwise_append.mp h).2.2 v hv a (by simp),
    forall_mem_singleton.mpr le_rfl⟩

theorem filter_observes (l : List (Row F)) (epoch : Nat) :
    l.filter (fun v => (Snapshot.atEpoch epoch).observesVersion v.stamp) = upTo epoch l :=
  filter_congr fun _ _ => Snapshot.observesVersion_of_epoch (Or.inl rfl)

theorem contentAt_eq_lastMax (ttl : Option TtlPolicy) (now : Int) (h : Coherent l) (epoch : Nat) :
    contentAt ttl now l epoch =
      (lastMax Row.committedEpoch (upTo epoch l)).bind (contentOf ttl now) := by
  rw [contentAt, filter_observes]
  show (lastWins Row.stamp (upTo epoch l)).bind _ = _
  rw [(h.upTo epoch).lastWins_eq]

theorem contentAt_eq_getLast? (ttl : Option TtlPolicy) (now : Int) (h : Coherent l)
    (hs : InOrder l) (epoch : Nat) :
    contentAt ttl now l epoch = (upTo epoch l).getLast?.bind (contentOf ttl now) := by
  rw [contentAt_eq_lastMax ttl now h, lastMax_eq_getLast? (hs.upTo epoch)]

theorem mem_sortByEpoch : a ∈ sortByEpoch l ↔ a ∈ l := mem_insertionSort _

theorem inOrder_sortByEpoch (l : List (Row F)) : InOrder (sortByEpoch l) :=
  pairwise_insertionSort (fun a b : Row F => a.committedEpoch ≤ b.committedEpoch) l

theorem Coherent.sortByEpoch (h : Coherent l) : Coherent (sortByEpoch l) :=
  h.mono fun _ hv => mem_sortByEpoch.mp hv

theorem contentAt_sortByEpoch (ttl : Option TtlPolicy) (now : Int) (h : Coherent l) (epoch : Nat) :
    contentAt ttl now (sortByEpoch l) epoch = contentAt ttl now l epoch := by
  rw [contentAt_eq_lastMax ttl now h, contentAt_eq_lastMax ttl now h.sortByEpoch]
  exact congrArg (Option.bind · _) (lastMax_filter_insertionSort _ _ l)

end Coherent

/-! ## Dropping expired versions -/

section Expiry

variable {ttl : Option TtlPolicy} {now : Int} {minActive : Option Nat} {newest row row' : Row F}

/-- The newest version stays as a tombstone when it expires. -/
def Converted (minActive : Option Nat) (newest row : Row F) : Prop :=
  row.stamp = newest.stamp ∧ ∃ minE, minActive = some minE ∧ minE < newest.committedEpoch

theorem converted_iff :
    (isSameVersion row newest &&
      minActive.any (fun epoch => decide (epoch < newest.committedEpoch))) = true ↔
      Converted minActive newest row := by
  rw [Bool.and_eq_true, Option.any_eq_true, isSameVersion, Bool.and_eq_true, decide_eq_true_eq,
    decide_eq_true_eq, Converted, Row.stamp, Row.stamp, Stamp.mk.injEq]
  simp only [decide_eq_true_eq]

theorem dropExpired_of_live (h : rowExpiredAt ttl row now = false) :
    dropExpired ttl now minActive newest row = some row := by
  simp [dropExpired, h]

theorem dropExpired_of_not_converted (h : rowExpiredAt ttl row now = true)
    (hc : ¬ Converted minActive newest row) : dropExpired ttl now minActive newest row = none := by
  rw [← converted_iff] at hc
  simp only [dropExpired, h, if_true, hc]
  rfl

theorem dropExpired_of_converted (h : rowExpiredAt ttl row now = true)
    (hc : Converted minActive newest row) :
    dropExpired ttl now minActive newest row =
      some { row with deleted := true, columns := [] } := by
  rw [← converted_iff] at hc
  simp only [dropExpired, h, if_true, hc]

theorem dropExpired_stamp (h : dropExpired ttl now minActive newest row = some row') :
    row'.stamp = row.stamp := by
  by_cases hx : rowExpiredAt ttl row now = true
  · by_cases hc : Converted minActive newest row
    · rw [dropExpired_of_converted hx hc, some.injEq] at h
      rw [← h]
      rfl
    · rw [dropExpired_of_not_converted hx hc] at h
      exact absurd h.symm (some_ne_none _)
  · rw [dropExpired_of_live (Bool.eq_false_iff.mpr hx), some.injEq] at h
    rw [h]

/-- The last version has expired and goes, and the last unexpired one before it is live. -/
def UncoversLast (ttl : Option TtlPolicy) (now : Int) (minActive : Option Nat) (newest : Row F)
    (seen : List (Row F)) : Prop :=
  ∃ pre w, seen = pre ++ [w] ∧ rowExpiredAt ttl w now = true ∧ ¬ Converted minActive newest w ∧
    ∃ x, (pre.filter fun v => !rowExpiredAt ttl v now).getLast? = some x ∧ x.deleted = false

theorem filterMap_dropExpired_pre {pre : List (Row F)} {w : Row F}
    (hs : InOrder (pre ++ [w])) (hc : Coherent (newest :: (pre ++ [w])))
    (hle : ∀ v ∈ pre ++ [w], v.committedEpoch ≤ newest.committedEpoch)
    (hw : ¬ Converted minActive newest w) :
    pre.filterMap (dropExpired ttl now minActive newest) =
      pre.filter fun v => !rowExpiredAt ttl v now := by
  rw [← filterMap_eq_filter]
  refine filterMap_congr fun v hv => ?_
  by_cases hx : rowExpiredAt ttl v now = true
  · have hv' : ¬ Converted minActive newest v := by
      intro ⟨hst, hmin⟩
      refine hw ⟨?_, hmin⟩
      have hve : v.committedEpoch = newest.committedEpoch := congrArg Stamp.epoch hst
      have hvw := (pairwise_append.mp hs).2.2 v hv w (by simp)
      have hwn := hle w (by simp)
      exact hc.same w (by simp) newest (by simp) (by omega)
    rw [dropExpired_of_not_converted hx hv']
    simp [Option.guard, hx]
  · rw [dropExpired_of_live (Bool.eq_false_iff.mpr hx)]
    simp [Option.guard, hx]

theorem contentOf_of_expired (h : rowExpiredAt ttl row now = true) :
    contentOf ttl now row = none := by
  simp [contentOf, h]

theorem contentOf_eq_none_iff :
    contentOf ttl now row = none ↔ row.deleted = true ∨ rowExpiredAt ttl row now = true := by
  simp only [contentOf, Bool.or_eq_true]
  split
  next h => simp [h]
  next h => simp [h]

theorem uncoversLast_concat {pre : List (Row F)} {w : Row F} :
    UncoversLast ttl now minActive newest (pre ++ [w]) ↔
      rowExpiredAt ttl w now = true ∧ ¬ Converted minActive newest w ∧
        ∃ x, (pre.filter fun v => !rowExpiredAt ttl v now).getLast? = some x ∧
          x.deleted = false := by
  constructor
  · intro ⟨pre', w', heq, h⟩
    obtain ⟨rfl, hw⟩ := append_inj' heq rfl
    obtain rfl : w = w' := by simpa using hw
    exact h
  · intro h
    exact ⟨pre, w, rfl, h⟩

theorem seen_dropExpired_iff {seen : List (Row F)} (hs : InOrder seen)
    (hc : Coherent (newest :: seen))
    (hle : ∀ v ∈ seen, v.committedEpoch ≤ newest.committedEpoch) :
    (seen.filterMap (dropExpired ttl now minActive newest)).getLast?.bind (contentOf ttl now) =
        seen.getLast?.bind (contentOf ttl now) ↔
      ¬ UncoversLast ttl now minActive newest seen := by
  rcases eq_nil_or_concat' seen with rfl | ⟨pre, w, rfl⟩
  · simp [UncoversLast]
  rw [filterMap_append, getLast?_concat, uncoversLast_concat]
  show _ = contentOf ttl now w ↔ _
  by_cases hx : rowExpiredAt ttl w now = true
  · rw [contentOf_of_expired hx]
    by_cases hw : Converted minActive newest w
    · rw [filterMap_cons_some (dropExpired_of_converted hx hw), filterMap_nil,
        getLast?_concat]
      exact iff_of_true rfl fun h => h.2.1 hw
    · rw [filterMap_cons_none (dropExpired_of_not_converted hx hw), filterMap_nil,
        append_nil, filterMap_dropExpired_pre hs hc hle hw]
      cases hlast : (pre.filter fun v => !rowExpiredAt ttl v now).getLast? with
      | none => simp
      | some x =>
        -- the version uncovered is not expired, so it is absent only if it is a tombstone
        have hxl : rowExpiredAt ttl x now = false := by
          simpa using (mem_filter.mp (mem_of_getLast? hlast)).2
        show contentOf ttl now x = none ↔ _
        rw [contentOf_eq_none_iff, hxl]
        simp [hx, hw]
  · rw [Bool.not_eq_true] at hx
    rw [filterMap_cons_some (dropExpired_of_live hx), filterMap_nil, getLast?_concat]
    refine iff_of_true rfl fun h => ?_
    rw [hx] at h
    exact Bool.false_ne_true h.1

end Expiry

/-! ## Keeping what the floor needs -/

section Retention

variable {l : List (Row F)} {minE epoch : Nat} {a : Row F}

theorem mem_before : a ∈ before minE l ↔ a ∈ l ∧ a.committedEpoch < minE := by
  rw [before, mem_filter, decide_eq_true_eq]

theorem mem_since : a ∈ since minE l ↔ a ∈ l ∧ minE ≤ a.committedEpoch := by
  rw [since, mem_filter, decide_eq_true_eq]

theorem partition_eq (hs : InOrder l) :
    l.takeWhile (fun row => decide (row.committedEpoch < minE)) = before minE l ∧
      l.dropWhile (fun row => decide (row.committedEpoch < minE)) = since minE l := by
  obtain ⟨htake, hdrop⟩ := Partitioned.split (hs.imp fun {a b} hab hb =>
    decide_eq_true (Nat.lt_of_le_of_lt hab (of_decide_eq_true hb)))
  refine ⟨htake, hdrop.trans (filter_congr fun a _ => ?_)⟩
  simp [← decide_not]

theorem before_append_since (minE : Nat) (hs : InOrder l) : before minE l ++ since minE l = l := by
  rw [← (partition_eq hs).1, ← (partition_eq hs).2, takeWhile_append_dropWhile]

theorem getLast?_toList_append (l r : List (Row F)) :
    (l.getLast?.toList ++ r).getLast? = (l ++ r).getLast? := by
  by_cases hr : r = []
  · rw [hr, append_nil, append_nil]
    cases l.getLast? <;> rfl
  · rw [getLast?_append_of_ne_nil _ hr, getLast?_append_of_ne_nil _ hr]

theorem getLast?_retained (hs : InOrder l) : (retained minE l).getLast? = l.getLast? := by
  conv_rhs => rw [← before_append_since minE hs]
  unfold retained
  split
  next h =>
    obtain ⟨v, hv, -⟩ := any_eq_true.mp h
    rw [getLast?_append_of_ne_nil _ (ne_nil_of_mem hv)]
  next => exact getLast?_toList_append _ _

theorem retained_sublist (minE : Nat) (hs : InOrder l) : (retained minE l).Sublist l := by
  conv_rhs => rw [← before_append_since minE hs]
  unfold retained
  split
  · exact sublist_append_right _ _
  · refine Sublist.append ?_ (Sublist.refl _)
    cases h : (before minE l).getLast? with
    | none => exact nil_sublist _
    | some b => exact singleton_sublist.mpr (mem_of_getLast? h)

theorem upTo_append (l₁ l₂ : List (Row F)) : upTo epoch
    (l₁ ++ l₂) = upTo epoch l₁ ++ upTo epoch l₂ :=
  filter_append l₁ l₂

theorem upTo_eq_self (h : ∀ v ∈ l, v.committedEpoch ≤ epoch) : upTo epoch l = l :=
  filter_eq_self.mpr fun v hv => decide_eq_true (h v hv)

/-- A snapshot at or above the floor sees the same version among those retained. -/
theorem getLast?_upTo_retained (hs : InOrder l) (hle : minE ≤ epoch) :
    (upTo epoch (retained minE l)).getLast? = (upTo epoch l).getLast? := by
  have hbefore : ∀ v ∈ before minE l, v.committedEpoch ≤ epoch := by
    intro v hv
    have := (mem_before.mp hv).2
    omega
  conv_rhs => rw [← before_append_since minE hs, upTo_append, upTo_eq_self hbefore]
  unfold retained
  split
  next h =>
    obtain ⟨v, hv, heq⟩ := any_eq_true.mp h
    have hseen : v ∈ upTo epoch (since minE l) := by
      rw [mem_upTo]
      refine ⟨hv, ?_⟩
      rw [of_decide_eq_true heq]
      exact hle
    rw [getLast?_append_of_ne_nil _ (ne_nil_of_mem hseen)]
  next =>
    have hlast : ∀ v ∈ (before minE l).getLast?.toList, v.committedEpoch ≤ epoch := by
      intro v hv
      exact hbefore v (mem_of_getLast? (mem_toList.mp hv))
    rw [upTo_append, upTo_eq_self hlast]
    exact getLast?_toList_append _ _

/-- `keepFrom` keeps what the floor needs, except that a lone boundary tombstone goes. -/
theorem keepFrom_eq (hs : InOrder l) :
    keepFrom (before minE l) (since minE l) minE = retained minE l ∨
      ∃ b, since minE l = [] ∧ l.getLast? = some b ∧ b.deleted = true ∧
        keepFrom (before minE l) (since minE l) minE = [] ∧ retained minE l = [b] := by
  have hsince : InOrder (since minE l) := hs.filter _
  cases hb : (before minE l).getLast? with
  | none => exact Or.inl (by simp [keepFrom, retained, hb])
  | some b =>
    cases hr : since minE l with
    | nil =>
      have hret : retained minE l = [b] := by simp [retained, hb, hr]
      by_cases hd : b.deleted = true
      · refine Or.inr ⟨b, rfl, ?_, hd, by simp [keepFrom, hb, hd], hret⟩
        rw [← hb, ← before_append_since minE hs, hr, append_nil]
        simp only [before, filter_filter, Bool.and_self]
      · exact Or.inl (by simp [keepFrom, hb, hd, hret])
    | cons first rest =>
      left
      rw [hr] at hsince
      have hfirst : minE ≤ first.committedEpoch := (mem_since.mp (hr ▸ mem_cons_self)).2
      by_cases hlt : minE < first.committedEpoch
      · -- the first version is after the floor, so they all are
        have hany : (first :: rest).any (fun v => decide (v.committedEpoch = minE)) = false := by
          rw [any_eq_false]
          intro v hv
          have hle : first.committedEpoch ≤ v.committedEpoch := by
            rcases mem_cons.mp hv with rfl | hv
            · exact le_rfl
            · exact (pairwise_cons.mp hsince).1 v hv
          simp only [decide_eq_true_eq]
          omega
        simp only [keepFrom, retained, hb, hr, hlt, if_true, hany]
        rfl
      · have heq : first.committedEpoch = minE := by omega
        simp [keepFrom, retained, hb, hr, heq]

end Retention

/-! ## Content before and after -/

section Content

variable {ttl : Option TtlPolicy} {now : Int} {minActive : Option Nat} {minE epoch : Nat}
  {newest : Row F} {l kept : List (Row F)}

theorem upTo_filterMap
    (hg : ∀ v v', g v = some v' → v'.stamp = v.stamp) (l : List (Row F)) :
    upTo epoch (l.filterMap g) = (upTo epoch l).filterMap g := by
  induction l with
  | nil => rfl
  | cons v l ih =>
    unfold upTo at ih ⊢
    cases hv : g v with
    | none =>
      rw [filterMap_cons_none hv, ih]
      by_cases hle : v.committedEpoch ≤ epoch
      · rw [filter_cons_of_pos (by simp [hle]), filterMap_cons_none hv]
      · rw [filter_cons_of_neg (by simp [hle])]
    | some v' =>
      have he : v'.committedEpoch = v.committedEpoch := congrArg Stamp.epoch (hg v v' hv)
      rw [filterMap_cons_some hv]
      by_cases hle : v.committedEpoch ≤ epoch
      · rw [filter_cons_of_pos (by simp [he, hle]), filter_cons_of_pos (by simp [hle]),
          filterMap_cons_some hv, ih]
      · rw [filter_cons_of_neg (by simp [he, hle]), filter_cons_of_neg (by simp [hle]),
          ih]

theorem contentAt_dropExpired (hc : Coherent kept) (hs : InOrder kept) :
    contentAt ttl now (kept.filterMap (dropExpired ttl now minActive newest)) epoch =
      ((upTo epoch kept).filterMap (dropExpired ttl now minActive newest)).getLast?.bind
        (contentOf ttl now) := by
  have hstamp : ∀ v v', dropExpired ttl now minActive newest v = some v' → v'.stamp = v.stamp :=
    fun _ _ => dropExpired_stamp
  have hsorted : InOrder (kept.filterMap (dropExpired ttl now minActive newest)) := by
    refine Pairwise.filterMap _ ?_ hs
    intro v v' hle x hx y hy
    have hxe : x.committedEpoch = v.committedEpoch := congrArg Stamp.epoch (hstamp v x hx)
    have hye : y.committedEpoch = v'.committedEpoch := congrArg Stamp.epoch (hstamp v' y hy)
    omega
  rw [contentAt_eq_getLast? ttl now (hc.filterMap hstamp) hsorted, upTo_filterMap hstamp]

theorem upTo_append_after (hs : InOrder kept) :
    upTo epoch kept ++ since (epoch + 1) kept = kept := by
  have hle : upTo epoch kept = before (epoch + 1) kept :=
    filter_congr fun v _ => decide_eq_decide.mpr Nat.lt_succ_iff.symm
  rw [hle, before_append_since _ hs]

/-- The expired version a snapshot sees is turned into a tombstone exactly when it is the last one
and after the floor. -/
theorem not_converted_iff (hlast : kept.getLast? = some newest)
    {pre post : List (Row F)} {w : Row F} (hk : kept = pre ++ w :: post)
    (hw : w.committedEpoch ≤ epoch) (hpost : ∀ v ∈ post, epoch < v.committedEpoch) :
    ¬ Converted (some minE) newest w ↔ post ≠ [] ∨ w.committedEpoch ≤ minE := by
  rcases eq_nil_or_concat' post with rfl | ⟨post, z, rfl⟩
  · obtain rfl : w = newest := by
      rw [hk, getLast?_concat] at hlast
      exact some.inj hlast
    simp [Converted]
  · obtain rfl : z = newest := by
      rw [hk, ← cons_append, ← append_assoc, getLast?_concat] at hlast
      exact some.inj hlast
    refine iff_of_true ?_ (Or.inl (by simp))
    intro hconv
    have hz := hpost z (by simp)
    have he : w.committedEpoch = z.committedEpoch := congrArg Stamp.epoch hconv.1
    omega

theorem uncoversLast_upTo_iff (hs : InOrder kept) (hlast : kept.getLast? = some newest) :
    UncoversLast ttl now (some minE) newest (upTo epoch kept) ↔
      ∃ pre w post, kept = pre ++ w :: post ∧ w.committedEpoch ≤ epoch ∧
        (∀ v ∈ post, epoch < v.committedEpoch) ∧ rowExpiredAt ttl w now = true ∧
        (post ≠ [] ∨ w.committedEpoch ≤ minE) ∧
        ∃ x, (pre.filter fun v => !rowExpiredAt ttl v now).getLast? = some x ∧
          x.deleted = false := by
  constructor
  · intro ⟨pre, w, hseen, hx, hconv, hex⟩
    have hw : w.committedEpoch ≤ epoch :=
      (mem_upTo.mp (hseen ▸ mem_append_right _ (mem_singleton_self w))).2
    have hk : kept = pre ++ w :: since (epoch + 1) kept := by
      rw [← singleton_append, ← append_assoc, ← hseen, upTo_append_after hs]
    have hpost : ∀ v ∈ since (epoch + 1) kept, epoch < v.committedEpoch := fun v hv =>
      (mem_since.mp hv).2
    exact ⟨pre, w, _, hk, hw, hpost, hx, (not_converted_iff hlast hk hw hpost).mp hconv, hex⟩
  · intro ⟨pre, w, post, hk, hw, hpost, hx, hor, hex⟩
    refine ⟨pre, w, ?_, hx, (not_converted_iff hlast hk hw hpost).mpr hor, hex⟩
    rw [hk] at hs ⊢
    have hpre : ∀ v ∈ pre, v.committedEpoch ≤ epoch := fun v hv =>
      Nat.le_trans ((pairwise_append.mp hs).2.2 v hv w (by simp)) hw
    have hnil : upTo epoch post = [] :=
      filter_eq_nil_iff.mpr fun v hv hle =>
        absurd (of_decide_eq_true hle) (Nat.not_le.mpr (hpost v hv))
    rw [← singleton_append, upTo_append, upTo_append, upTo_eq_self hpre, hnil,
      upTo_eq_self (by simpa using hw), append_nil]

theorem content_retained_iff (hc : Coherent l) (hs : InOrder l) (hlast : l.getLast? = some newest)
    (hle : minE ≤ epoch) :
    contentAt ttl now ((retained minE l).filterMap (dropExpired ttl now (some minE) newest)) epoch =
        contentAt ttl now l epoch ↔ ¬ Uncovers ttl now minE epoch l := by
  have hsub := retained_sublist minE hs
  have hsorted : InOrder (retained minE l) := Pairwise.sublist hsub hs
  have hmem : ∀ v ∈ upTo epoch (retained minE l), v ∈ l := fun v hv =>
    hsub.subset (mem_upTo.mp hv).1
  have hnew : newest ∈ l := mem_of_getLast? hlast
  have hmax := hs.le_getLast? hlast
  rw [contentAt_dropExpired (hc.mono fun v hv => hsub.subset hv) hsorted,
    contentAt_eq_getLast? ttl now hc hs, ← getLast?_upTo_retained hs hle,
    seen_dropExpired_iff (hsorted.upTo epoch) ?_ fun v hv => hmax v (hmem v hv),
    uncoversLast_upTo_iff hsorted ((getLast?_retained hs).trans hlast)]
  · rfl
  · exact hc.mono (forall_mem_cons.mpr ⟨hnew, hmem⟩)

/-! ## The two failures -/

theorem not_uncovers_of_singleton {b : Row F} (h : retained minE l = [b]) :
    ¬ Uncovers ttl now minE epoch l := by
  intro ⟨pre, w, post, hsplit, _, _, _, _, x, hx, _⟩
  have hpre : pre = [] := by
    cases pre with
    | nil => rfl
    | cons v pre =>
      rw [h] at hsplit
      simp at hsplit
  rw [hpre] at hx
  cases hx

theorem reuseGuard_iff {vers keep : List (Row F)} :
    reuseGuard vers keep = true ↔
      ∃ x, keep = [x] ∧ x.deleted = false ∧
        ∃ t ∈ vers, t.deleted = true ∧ t.committedEpoch = x.committedEpoch := by
  unfold reuseGuard
  split
  next row =>
    simp only [Bool.and_eq_true, Bool.not_eq_true', any_eq_true, decide_eq_true_eq]
    constructor
    · intro h
      exact ⟨row, rfl, h⟩
    · intro ⟨x, hx, h⟩
      obtain rfl : row = x := by simpa using hx
      exact h
  next hne =>
    refine iff_of_false Bool.false_ne_true ?_
    intro ⟨x, hx, _⟩
    exact hne x hx

theorem since_subset_retained {v : Row F} (h : v ∈ since minE l) : v ∈ retained minE l := by
  unfold retained
  split
  · exact h
  · exact mem_append_right _ h

/-- The guard fires only on a row that is older than the floor as a whole. -/
theorem reuseGuard_before (hs : InOrder l) {x : Row F} (hret : retained minE l = [x])
    (hlive : x.deleted = false)
    (ht : ∃ t ∈ l, t.deleted = true ∧ t.committedEpoch = x.committedEpoch) :
    l.getLast? = some x ∧ x.committedEpoch < minE := by
  refine ⟨by rw [← getLast?_retained hs, hret]; rfl, ?_⟩
  by_contra hge
  obtain ⟨t, htl, htd, hte⟩ := ht
  have hmem : t ∈ retained minE l := since_subset_retained (mem_since.mpr ⟨htl, by omega⟩)
  rw [hret, mem_singleton] at hmem
  rw [hmem, hlive] at htd
  exact Bool.false_ne_true htd

theorem contentAt_of_getLast? (hc : Coherent l) (hs : InOrder l) {x : Row F}
    (hlast : l.getLast? = some x) (hx : x.committedEpoch ≤ epoch) :
    contentAt ttl now l epoch = contentOf ttl now x := by
  have hall : ∀ v ∈ l, v.committedEpoch ≤ epoch := fun v hv =>
    Nat.le_trans (hs.le_getLast? hlast v hv) hx
  rw [contentAt_eq_getLast? ttl now hc hs, upTo_eq_self hall, hlast]
  rfl

theorem contentAt_nil : contentAt ttl now ([] : List (Row F)) epoch = none := rfl

theorem selectKeep_floor (hs : InOrder l) (hn : newestVersion l = some newest) :
    selectKeep l (some minE) =
      if reuseGuard l (keepFrom (before minE l) (since minE l) minE) then []
      else keepFrom (before minE l) (since minE l) minE := by
  rw [selectKeep, hn]
  simp only [(partition_eq hs).1, (partition_eq hs).2]

variable (hc : Coherent l) (hs : InOrder l) (hlast : l.getLast? = some newest)
include hc hs hlast

/-- With a floor: content is kept exactly when neither failure occurs. -/
theorem content_floor_iff (hle : minE ≤ epoch) :
    contentAt ttl now ((selectKeep l (some minE)).filterMap
        (dropExpired ttl now (some minE) newest)) epoch = contentAt ttl now l epoch ↔
      ¬ HiddenByReuseGuard ttl now minE l ∧ ¬ Uncovers ttl now minE epoch l := by
  have hn : newestVersion l = some newest := by
    rw [hc.newestVersion_eq, lastMax_eq_getLast? hs, hlast]
  rw [selectKeep_floor hs hn]
  rcases keepFrom_eq hs with hkeep | ⟨b, hnil, hb, hdel, hkeep, hret⟩
  · rw [hkeep]
    split
    next hguard =>
      obtain ⟨x, hret, hlive, ht⟩ := reuseGuard_iff.mp hguard
      obtain ⟨hx, hlt⟩ := reuseGuard_before hs hret hlive ht
      rw [filterMap_nil, contentAt_nil, contentAt_of_getLast? hc hs hx (by omega), eq_comm,
        contentOf_eq_none_iff, and_iff_left (not_uncovers_of_singleton hret)]
      constructor
      · intro hor ⟨y, hy, _, hylive, hyx, _⟩
        obtain rfl : x = y := some.inj (hx.symm.trans hy)
        rcases hor with hd | he
        · exact Bool.false_ne_true (hylive.symm.trans hd)
        · exact Bool.false_ne_true (hyx.symm.trans he)
      · intro hnot
        right
        by_contra he
        exact hnot ⟨x, hx, hlt, hlive, Bool.eq_false_iff.mpr he, ht⟩
    next hguard =>
      rw [content_retained_iff hc hs hlast hle]
      refine (and_iff_right ?_).symm
      intro ⟨x, hx, hlt, hlive, _, ht⟩
      -- everything is before the floor, so the last version alone is retained
      have hnil : since minE l = [] :=
        filter_eq_nil_iff.mpr fun v hv hge => by
          have := hs.le_getLast? hx v hv
          have := of_decide_eq_true hge
          omega
      have hbefore : (before minE l).getLast? = some x := by
        rw [← hx, ← congrArg List.getLast? (before_append_since minE hs), hnil, append_nil]
      have hret : retained minE l = [x] := by simp [retained, hnil, hbefore]
      exact hguard (reuseGuard_iff.mpr ⟨x, hret, hlive, ht⟩)
  · rw [hkeep]
    have hbe : b.committedEpoch ≤ epoch := by
      by_contra hgt
      have hmem : b ∈ since minE l := mem_since.mpr ⟨mem_of_getLast? hb, by omega⟩
      rw [hnil] at hmem
      exact absurd hmem not_mem_nil
    rw [if_neg (by simp [reuseGuard]), filterMap_nil, contentAt_nil,
      contentAt_of_getLast? hc hs hb hbe, eq_comm, contentOf_eq_none_iff]
    refine iff_of_true (Or.inl hdel) ⟨?_, not_uncovers_of_singleton hret⟩
    intro ⟨x, hx, _, hlive, _⟩
    obtain rfl : b = x := some.inj (hb.symm.trans hx)
    exact Bool.false_ne_true (hlive.symm.trans hdel)

/-- Without a floor only the current version is kept, and nothing can be uncovered. -/
theorem content_no_floor (hall : ∀ v ∈ l, v.committedEpoch ≤ epoch) :
    contentAt ttl now ((selectKeep l none).filterMap (dropExpired ttl now none newest)) epoch =
      contentAt ttl now l epoch := by
  have hn : newestVersion l = some newest := by
    rw [hc.newestVersion_eq, lastMax_eq_getLast? hs, hlast]
  have hnew : newest ∈ l := mem_of_getLast? hlast
  rw [selectKeep, hn, contentAt_of_getLast? hc hs hlast (hall newest hnew)]
  simp only
  split
  next hdel =>
    rw [filterMap_nil, contentAt_nil, eq_comm, contentOf_eq_none_iff]
    exact Or.inl hdel
  next =>
    have hone : Coherent [newest] := hc.mono fun v hv => mem_singleton.mp hv ▸ hnew
    by_cases hx : rowExpiredAt ttl newest now = true
    · have hnot : ¬ Converted none newest newest := fun h => by simp [Converted] at h
      rw [filterMap_cons_none (dropExpired_of_not_converted hx hnot), filterMap_nil,
        contentAt_nil, contentOf_of_expired hx]
    · rw [filterMap_cons_some (dropExpired_of_live (Bool.eq_false_iff.mpr hx)),
        filterMap_nil]
      exact contentAt_of_getLast? hone (pairwise_singleton _ _) rfl (hall newest hnew)

end Content

/-- Rows live for ten units after the time in column 7. -/
def tenUnits : Option TtlPolicy := some ⟨7, 10⟩

/-- An unstamped version of row 1 written at `epoch` with `time` in its TTL column. -/
def putAt (epoch : Nat) (time : Int) : Row Nat := ⟨1, epoch, [(7, .int64 time)], false, none⟩

def deleteAt (epoch : Nat) : Row Nat := ⟨1, epoch, [], true, none⟩

end MongrelDB.Storage
