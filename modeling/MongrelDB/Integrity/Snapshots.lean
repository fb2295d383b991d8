import MongrelDB.Integrity.Commits
import MongrelDB.Integrity.ForeignKeys
import MongrelDB.Locks.Invariant

/-!
# Foreign keys across concurrent commits

A child insert holds the shared lock of its parent's key and a parent delete the
exclusive one, but both look for rows at their read epochs, and neither has a write
key that the other one has.
-/

namespace MongrelDB.Integrity

open Lib
open Txn (KeysOverlap)
open List

/-! ## The conditions -/

/-- The foreign key references the parent's primary key `c`, which no action writes; it is not
null in the table or the batch, and the batch removes rows by their ids only. -/
@[mk_iff]
structure KeySafe (db : Database) (staging : Staging) (fk : ForeignKey) (parent : CatalogEntry)
    (c : ColumnId) : Prop where
  refColumns : fk.refColumns = [c]
  untouched : Untouched parent [c]
  rows : ∀ a ∈ inPlay db staging parent.tableId, a[c]? ≠ some .null
  staged : ∀ op ∈ staging, op.1 = parent.tableId → op.2 ≠ .truncate ∧
    ∀ id ∈ op.2.removes, id < (db parent.tableId).nextRowId

instance (db : Database) (staging : Staging) (fk : ForeignKey) (parent : CatalogEntry)
    (c : ColumnId) : Decidable (KeySafe db staging fk parent c) :=
  decidable_of_iff _ (keySafe_iff ..).symm

def Protected (cat : Catalog) (db : Database) (staging : Staging) : Prop :=
  ∀ child ∈ cat.tables, ∀ fk ∈ child.schema.foreignKeys, ∀ parent ∈ cat.tables,
    parent.name = fk.refTable → ∃ c ∈ parent.schema.primaryKey, KeySafe db staging fk parent c
  deriving Decidable

theorem Protected.nil {cat : Catalog} (db : Database) (staging : Staging)
    (h : Protected cat db staging) : Protected cat db [] := by
  intro child hchild fk hfk parent hparent hname
  obtain ⟨c, hpk, hsafe⟩ := h child hchild fk hfk parent hparent hname
  refine ⟨c, hpk, hsafe.refColumns, hsafe.untouched, fun a ha => ?_, nofun⟩
  exact hsafe.rows a (mem_append_left _ (by simpa [inPlay, images] using ha))

def FkLock.Conflicts (l l' : FkLock) : Prop := l.key = l'.key ∧ l.mode.compatible l'.mode = false
  deriving Decidable

theorem FkLock.Conflicts.symm {l l' : FkLock} (h : l.Conflicts l') : l'.Conflicts l :=
  ⟨h.1.symm, (Locks.LockMode.compatible_comm _ _).trans h.2⟩

/-- A lock is taken only while no transaction that committed after the read epoch has held its
key in a conflicting mode. -/
def System.Timely (s : System) : Label → Prop
  | .lock t =>
    match s.phase t with
    | .locking r (l :: _) => ∀ r' ∈ s.log.drop r.readEpoch, ∀ l' ∈ r'.locks, ¬ l.Conflicts l'
    | _ => True
  | _ => True

instance (s : System) (l : Label) : Decidable (s.Timely l) := by
  unfold System.Timely
  split
  · split <;> infer_instance
  · infer_instance

/-! ## Locks of the log -/

/-- No two concurrent transactions have held conflicting locks. -/
def Apart (log : List Record) : Prop :=
  ∀ (i j : Nat) (r r' : Record), log[i]? = some r → log[j]? = some r' → r.readEpoch ≤ j → j < i →
    ∀ l ∈ r.locks, ∀ l' ∈ r'.locks, ¬ l.Conflicts l'

namespace System

structure LockInv (s : System) : Prop where
  apart : Apart s.log
  /-- What is not left to be taken is held. -/
  taken : ∀ t r left, s.phase t = .locking r left → ∀ l ∈ r.locks, l ∈ left ∨ (t, l) ∈ s.held
  compatible : ∀ h ∈ s.held, ∀ h' ∈ s.held, h.1 ≠ h'.1 → ¬ h.2.Conflicts h'.2
  fresh : ∀ t r left, s.phase t = .locking r left → ∀ l, (t, l) ∈ s.held →
    ∀ r' ∈ s.log.drop r.readEpoch, ∀ l' ∈ r'.locks, ¬ l.Conflicts l'
  /-- Locks are taken after the validation. -/
  early : ∀ t l, (t, l) ∈ s.held → s.phase t ≠ .idle ∧ ∀ e, s.phase t ≠ .begun e

variable {c : Setting} {s s' : System} {l : Label}

theorem init_lockInv : LockInv init :=
  ⟨nofun, nofun, nofun, nofun, nofun⟩

theorem setPhase_phase (s : System) (t t' : Nat) (p : Phase) :
    (s.setPhase t p).phase t' = if t' = t then p else s.phase t' := by
  simp [setPhase, Function.update_apply]

variable {t : Nat}

theorem LockInv.setPhase {p : Phase} (h : LockInv s) (hlocking : ∀ r left, p ≠ .locking r left)
    (hearly : (p = .idle ∨ ∃ e, p = .begun e) → ∀ l, (t, l) ∉ s.held) :
    LockInv (s.setPhase t p) := by
  refine ⟨h.apart, fun t' r left hphase => ?_, h.compatible, fun t' r left hphase => ?_,
    fun t' l hheld => ?_⟩
  · rw [setPhase_phase] at hphase
    split at hphase
    · exact absurd hphase (hlocking r left)
    · exact h.taken t' r left hphase
  · rw [setPhase_phase] at hphase
    split at hphase
    · exact absurd hphase (hlocking r left)
    · exact h.fresh t' r left hphase
  · rw [setPhase_phase]
    split
    next heq =>
      subst heq
      exact ⟨fun hp => hearly (.inl hp) l hheld, fun e hp => hearly (.inr ⟨e, hp⟩) l hheld⟩
    · exact h.early t' l hheld

theorem LockInv.unlock (h : LockInv s) (t : Nat) :
    LockInv ((s.unlock t).setPhase t .finished) := by
  have hheld : ∀ {x : Nat × FkLock}, x ∈ (s.unlock t).held ↔ x ∈ s.held ∧ x.1 ≠ t := by
    simp [System.unlock]
  refine ⟨h.apart, fun t' r left hphase l hl => ?_, fun x hx y hy => ?_,
    fun t' r left hphase l hl => ?_, fun t' l hl => ?_⟩
  · rw [setPhase_phase] at hphase
    split at hphase
    · cases hphase
    next hne =>
      exact (h.taken t' r left hphase l hl).imp_right fun hl => hheld.mpr ⟨hl, hne⟩
  · exact h.compatible x (hheld.mp hx).1 y (hheld.mp hy).1
  · rw [setPhase_phase] at hphase
    split at hphase
    · cases hphase
    · exact h.fresh t' r left hphase l (hheld.mp hl).1
  · rw [setPhase_phase, if_neg (hheld.mp hl).2]
    exact h.early t' l (hheld.mp hl).1

theorem LockInv.relog (h : LockInv s) {log : List Record} {epochs : Epoch.System}
    (hlog : ∀ (i : Nat) (r : Record), log[i]? = some r → ∃ r₀, s.log[i]? = some r₀ ∧
      r.readEpoch = r₀.readEpoch ∧ r.locks = r₀.locks) :
    LockInv { s with log, epochs } := by
  have hdrop : ∀ {e : Nat} {r : Record}, r ∈ log.drop e → ∃ r₀ ∈ s.log.drop e,
      r.locks = r₀.locks := by
    intro e r hr
    obtain ⟨i, hi⟩ := getElem?_of_mem hr
    rw [getElem?_drop] at hi
    obtain ⟨r₀, hr₀, -, hlocks⟩ := hlog _ r hi
    exact ⟨r₀, mem_of_getElem? (getElem?_drop.trans hr₀), hlocks⟩
  refine ⟨fun i j r r' hi hj hread hji => ?_, h.taken, h.compatible,
    fun t r left hphase l hl r' hr' => ?_, h.early⟩
  · obtain ⟨r₀, hr₀, heq, hlocks⟩ := hlog i r hi
    obtain ⟨r₀', hr₀', -, hlocks'⟩ := hlog j r' hj
    rw [hlocks, hlocks']
    exact h.apart i j r₀ r₀' hr₀ hr₀' (heq ▸ hread) hji
  · obtain ⟨r₀, hr₀, hlocks⟩ := hdrop hr'
    rw [hlocks]
    exact h.fresh t r left hphase l hl r₀ hr₀

theorem grantable_iff {l : FkLock} :
    s.grantable t l = true ↔ ∀ h ∈ s.held, h.1 ≠ t → ¬ h.2.Conflicts l := by
  simp only [grantable, all_eq_true, Bool.or_eq_true, decide_eq_true_eq, FkLock.Conflicts]
  refine forall₂_congr fun h _ => ?_
  cases h.2.mode.compatible l.mode with
  | true => simp
  | false =>
    simp
    tauto

theorem LockInv.locking {r : Record} {left : List FkLock} (h : LockInv s)
    (htaken : ∀ l ∈ r.locks, l ∈ left ∨ (t, l) ∈ s.held)
    (hfresh : ∀ l, (t, l) ∈ s.held → ∀ r' ∈ s.log.drop r.readEpoch, ∀ l' ∈ r'.locks,
    ¬ l.Conflicts l') : LockInv (s.setPhase t (.locking r left)) := by
  refine ⟨h.apart, fun t' r' left' hphase => ?_, h.compatible, fun t' r' left' hphase => ?_,
    fun t' l hheld => ?_⟩
  · rw [setPhase_phase] at hphase
    split at hphase
    next heq =>
      subst heq
      cases hphase
      exact htaken
    · exact h.taken t' r' left' hphase
  · rw [setPhase_phase] at hphase
    split at hphase
    next heq =>
      subst heq
      cases hphase
      exact hfresh
    · exact h.fresh t' r' left' hphase
  · rw [setPhase_phase]
    split
    · exact ⟨nofun, nofun⟩
    · exact h.early t' l hheld

theorem LockInv.grant {r : Record} {l : FkLock} {left : List FkLock} (h : LockInv s)
    (hphase : s.phase t = .locking r (l :: left)) (hgrant : s.grantable t l = true)
    (htimely : ∀ r' ∈ s.log.drop r.readEpoch, ∀ l' ∈ r'.locks, ¬ l.Conflicts l') :
    LockInv { s with held := (t, l) :: s.held } := by
  have hother := grantable_iff.mp hgrant
  refine ⟨h.apart, fun t' r' left' hphase' l' hl' => ?_, fun x hx y hy hne => ?_,
    fun t' r' left' hphase' l' hl' => ?_, fun t' l' hl' => ?_⟩
  · exact (h.taken t' r' left' hphase' l' hl').imp_right (mem_cons_of_mem _)
  · rcases mem_cons.mp hx with rfl | hx <;> rcases mem_cons.mp hy with rfl | hy
    · exact absurd rfl hne
    · exact fun hc => hother y hy (fun heq => hne heq.symm) hc.symm
    · exact hother x hx hne
    · exact h.compatible x hx y hy hne
  · rcases mem_cons.mp hl' with heq | hl'
    · cases heq
      cases hphase.symm.trans hphase'
      exact htimely
    · exact h.fresh t' r' left' hphase' l' hl'
  · rcases mem_cons.mp hl' with heq | hl'
    · cases heq
      simp [hphase]
    · exact h.early t' l' hl'

theorem LockInv.append {r : Record} {epochs : Epoch.System} (h : LockInv s)
    (hphase : ∀ r' left, s.phase t ≠ .locking r' left) (hheld : ∀ l ∈ r.locks, (t, l) ∈ s.held)
    (hfresh : ∀ l ∈ r.locks, ∀ r' ∈ s.log.drop r.readEpoch, ∀ l' ∈ r'.locks, ¬ l.Conflicts l') :
    LockInv { s with epochs, log := s.log ++ [r] } := by
  refine ⟨fun i j r₁ r₂ hi hj hread hji => ?_, h.taken, h.compatible,
    fun t' r' left hphase' l hl r₂ hr₂ l' hl' => ?_, h.early⟩
  · rcases getElem?_concat hj with hold | ⟨rfl, -⟩
    · rcases getElem?_concat hi with hi | ⟨rfl, rfl⟩
      · exact h.apart i j r₁ r₂ hi hold hread hji
      · refine fun l hl => hfresh l hl r₂ (mem_of_getElem? (i := j - r₁.readEpoch) ?_)
        rw [getElem?_drop, Nat.add_sub_cancel' hread]
        exact hold
    · have hlt := (List.getElem?_eq_some_iff.mp hi).1
      rw [length_append, length_singleton] at hlt
      omega
  · rw [drop_append] at hr₂
    rcases mem_append.mp hr₂ with hr₂ | hr₂
    · exact h.fresh t' r' left hphase' l hl r₂ hr₂ l' hl'
    · -- both hold their locks now
      obtain rfl := mem_singleton.mp (mem_of_mem_drop hr₂)
      have hne : t' ≠ t := fun heq => hphase r' left (heq ▸ hphase')
      exact h.compatible (t', l) hl (t, l') (hheld l' hl') hne

theorem LockInv.step (h : LockInv s) (htimely : s.Timely l) (hstep : s.step c l = some s') :
    LockInv s' := by
  cases step_moves hstep with
  | begin hphase =>
    exact h.setPhase nofun fun _ l hl => (h.early _ l hl).1 hphase
  | @validate t _ readEpoch staging batch locks hphase hok =>
    exact h.locking (fun l hl => .inl hl) fun l hl => absurd hphase ((h.early _ l hl).2 readEpoch)
  | refuse => exact h.setPhase nofun (by simp)
  | @lock t r l left hphase hgrant =>
    simp only [Timely, hphase] at htimely
    have hgranted := h.grant hphase hgrant htimely
    refine hgranted.locking (fun l' hl' => ?_) (hgranted.fresh t r (l :: left) hphase)
    rcases hgranted.taken t r (l :: left) hphase l' hl' with hleft | hheld
    · rcases mem_cons.mp hleft with rfl | hleft
      · exact .inr mem_cons_self
      · exact .inl hleft
    · exact .inr hheld
  | @sequence t r epochs hphase hclear hepochs =>
    have hheld : ∀ l ∈ r.locks, (t, l) ∈ s.held := fun l hl =>
      (h.taken t r [] hphase l hl).resolve_left not_mem_nil
    have hsequenced : LockInv (s.setPhase t (.sequenced epochs.auth.assigned)) :=
      h.setPhase nofun (by simp)
    refine hsequenced.append (t := t) (fun r' left => ?_) hheld
      fun l hl => h.fresh t r [] hphase l (hheld l hl)
    rw [setPhase_phase, if_pos rfl]
    nofun
  | publish | store => exact (h.relog fun i r hi => ⟨r, hi, rfl, rfl⟩).setPhase nofun (by simp)
  | abandon hepochs =>
    refine (h.relog fun i r hi => ?_).setPhase nofun (by simp)
    obtain ⟨r₀, hr₀, rfl | rfl⟩ := getElem?_modify_dropped hi
    · exact ⟨_, hr₀, rfl, rfl⟩
    · exact ⟨r₀, hr₀, rfl, rfl⟩
  | release => exact h.unlock _
  | abort => exact h.unlock _

end System

/-! ## What the checks have found stays -/

section Snapshot

variable {cat : Catalog} {dbR : Database} {staging batch : Staging} {fk : ForeignKey}
  {parent : CatalogEntry} {c : ColumnId} {k : Key}

theorem KeySafe.removes_lt (h : KeySafe dbR staging fk parent c)
    (hgrows : Grows cat dbR staging batch) {id : RowId}
    (hid : Removes batch parent.tableId id) : id < (dbR parent.tableId).nextRowId :=
  hgrows.removes_lt (fun id ⟨_, hop, hid⟩ => (h.staged _ hop rfl).2 id hid) hid

theorem KeySafe.gentle (h : KeySafe dbR staging fk parent c) (hparent : parent ∈ cat.tables)
    (hgrows : Grows cat dbR staging batch) {t : Table} {gone : RowId → Prop}
    (hgone : ∀ id, Removes batch parent.tableId id → gone id)
    (hlt : ∀ id, gone id → id < t.nextRowId) :
    t.Gentle (some c) [c] k gone (writesOn (normalize batch) parent.tableId) := by
  have hput : ∀ b ∈ images batch parent.tableId, b[c]? ≠ some .null := by
    intro b hb
    obtain ⟨cells, hcells, rfl⟩ := mem_images.mp hb
    obtain ⟨a, ha, hsame⟩ := hgrows.image hparent h.untouched hcells
    rw [hsame c (mem_singleton.mpr rfl)]
    exact h.rows a ha
  rw [← puts_normalize] at hput
  exact {
    gone_lt := hlt
    rows := fun r _ _ b hb => Table.agree_primaryKey (hput b hb)
    puts := pairwise_of_forall_mem_list fun _ _ b hb => Table.agree_primaryKey (hput b hb)
    delete := fun id hid => hgone id (delete_mem_normalize.mp (mem_writesOn.mp hid))
    truncate := fun htruncate =>
      have hstaged := hgrows.truncate (truncate_mem_normalize.mp (mem_writesOn.mp htruncate))
      (h.staged _ hstaged rfl).1 rfl }

end Snapshot

section Log

variable {c : Setting} {log : List Record} {child parent : CatalogEntry} {fk : ForeignKey}
  {k : Key} {i n : Nat} {r : Record}

/-- A row that a later batch removes by its id was in that batch's snapshot. -/
theorem mem_snapshot {table : TableId} {e : Nat} (hen : e ≤ n) {p : Row}
    (hp : p ∈ (stateAt c log n table).rows)
    (hlt : p.rowId < (stateAt c log e table).nextRowId) :
    p ∈ (stateAt c log e table).rows := by
  rcases mem_stateAt hen hp with hold | ⟨hle, -⟩
  · exact hold
  · exact absurd hlt (Nat.not_lt.mpr hle)

section

variable (h : LogOk c (Protected c.cat) log) (hi : log[i]? = some r)
  (hchild : child ∈ c.cat.tables) (hfk : fk ∈ child.schema.foreignKeys)
  (hparent : parent ∈ c.cat.tables) (hname : parent.name = fk.refTable) {col : ColumnId}
  (hpk : col ∈ parent.schema.primaryKey)
include h hi hchild hfk hparent hname hpk

theorem LogOk.keySafe :
    KeySafe (stateAt c log r.readEpoch) r.staging fk parent col := by
  obtain ⟨col', hpk', hsafe⟩ :=
    (h.records r (mem_of_getElem? hi)).asked child hchild fk hfk parent hparent hname
  cases hpk.symm.trans hpk'
  exact hsafe

/-- One batch: a key that is there stays, unless the batch has its exclusive lock and removes
all its children in the snapshot. Rows that are `gone` already do not count. -/
theorem LogOk.offers_succ {gone : RowId → Prop}
    (hgone : ∀ id, gone id → id < (stateAt c log i parent.tableId).nextRowId)
    (hoffers : (stateAt c log i parent.tableId).Offers fk.refColumns k gone) :
    (stateAt c log (i + 1) parent.tableId).Offers fk.refColumns k gone ∨
      fkLock parent.tableId k .exclusive ∈ r.locks ∧
        ∀ x ∈ childRows (stateAt c log r.readEpoch) child fk k,
          Removes r.batch child.tableId x.rowId := by
  have hrecord := h.records r (mem_of_getElem? hi)
  have hread := h.before i r hi
  have hsafe := h.keySafe hi hchild hfk hparent hname hpk
  have hlt : ∀ id, gone id ∨ Removes r.batch parent.tableId id →
      id < (stateAt c log i parent.tableId).nextRowId := by
    rintro id (hid | hid)
    · exact hgone id hid
    · exact Nat.lt_of_lt_of_le (hsafe.removes_lt hrecord.validated.grows hid)
        (nextRowId_stateAt hread _)
  have hgentle := hsafe.gentle (k := k) hparent hrecord.validated.grows (fun id => .inr) hlt
  have hkept : ∀ t : Table,
      t.Offers [col] k (fun id => gone id ∨ Removes r.batch parent.tableId id) →
      t.Offers fk.refColumns k gone := by
    intro t ht
    rw [hsafe.refColumns]
    exact ht.mono fun _ => .inl
  have hsucc : stateAt c log (i + 1) parent.tableId =
      (stateAt c log i parent.tableId).applyAll (some col)
        (writesOn (normalize r.batch) parent.tableId) := by
    rw [stateAt_succ hi, applyBatch, primaryKey_eq hparent, hpk]
  rw [hsucc]
  obtain ⟨p, hp, hpkey, hstays⟩ := hoffers
  by_cases hremoved : Removes r.batch parent.tableId p.rowId
  · have hsnapshot := mem_snapshot hread hp (hsafe.removes_lt hrecord.validated.grows hremoved)
    have href : Untouched parent fk.refColumns := hsafe.refColumns ▸ hsafe.untouched
    rcases hrecord.validated.key_or_children href hparent hchild hfk hname hsnapshot hpkey
      hremoved with ⟨cells, hcells, hkey⟩ | hlocked
    · rw [hsafe.refColumns] at hkey
      exact .inl (hkept _ (hgentle.offers_put
        (mem_writesOn.mpr (put_mem_normalize.mpr hcells)) hkey))
    · exact .inr hlocked
  · refine .inl (hkept _ (Table.Offers.applyAll hgentle ⟨p, hp, hsafe.refColumns ▸ hpkey, ?_⟩))
    rintro (hgone | hid)
    · exact hstays hgone
    · exact hremoved hid

end

/-- A key under a batch's shared lock, in its snapshot and not removed by the batch, is there
when the batch is applied. -/
theorem LogOk.offers_until (h : LogOk c (Protected c.cat) log) (hapart : Apart log)
    (hn : log[n]? = some r) (hchild : child ∈ c.cat.tables)
    (hfk : fk ∈ child.schema.foreignKeys) (hparent : parent ∈ c.cat.tables)
    (hname : parent.name = fk.refTable) {col : ColumnId} (hpk : col ∈ parent.schema.primaryKey)
    (hlock : fkLock parent.tableId k .shared ∈ r.locks)
    (hoffers : (stateAt c log r.readEpoch parent.tableId).Offers fk.refColumns k
      (Removes r.batch parent.tableId)) :
    (stateAt c log n parent.tableId).Offers fk.refColumns k (Removes r.batch parent.tableId) := by
  have hrecord := h.records r (mem_of_getElem? hn)
  have hsafe := h.keySafe hn hchild hfk hparent hname hpk
  -- by induction over the epochs from the snapshot on
  suffices hall : ∀ j, r.readEpoch ≤ j → j ≤ n →
      (stateAt c log j parent.tableId).Offers fk.refColumns k (Removes r.batch parent.tableId) from
    hall n (h.before n r hn) (Nat.le_refl n)
  intro j hj
  induction hj with
  | refl => exact fun _ => hoffers
  | @step j hj ih =>
    intro hjn
    have hoffers := ih (by omega)
    have hlt : j < log.length := by
      have := (List.getElem?_eq_some_iff.mp hn).1
      omega
    have hj' : log[j]? = some log[j] := getElem?_eq_getElem hlt
    have hgone : ∀ id, Removes r.batch parent.tableId id →
        id < (stateAt c log j parent.tableId).nextRowId := fun id hid =>
      Nat.lt_of_lt_of_le (hsafe.removes_lt hrecord.validated.grows hid) (nextRowId_stateAt hj _)
    rcases h.offers_succ hj' hchild hfk hparent hname hpk hgone hoffers with
      hnext | ⟨hexclusive, -⟩
    · exact hnext
    · exact absurd ⟨rfl, rfl⟩ (hapart n j r _ hn hj' hj (by omega) _ hlock _ hexclusive)

theorem LogOk.foreignKeys (h : LogOk c (Protected c.cat) log) (hapart : Apart log)
    (h₀ : ForeignKeysHold c.cat c.initial) (n : Nat) :
    ForeignKeysHold c.cat (stateAt c log n) := by
  induction n with
  | zero => exact h₀
  | succ n ih =>
    cases hn : log[n]? with
    | none =>
      rw [stateAt_succ_of_none hn]
      exact ih
    | some r =>
      intro child hchild fk hfk x hx k hk
      have hrecord := h.records r (mem_of_getElem? hn)
      rw [stateAt_succ hn] at hx
      rcases Table.mem_applyAll hx with ⟨hold, hkept⟩ | ⟨-, cells, hput, hcolumns⟩
      · -- a row the batch leaves alone: its parent stays, or the batch would have removed it
        obtain ⟨parent, hparent, hname, p, hp, hpkey⟩ := ih child hchild fk hfk x hold k hk
        obtain ⟨col, hpk, -⟩ := hrecord.asked child hchild fk hfk parent hparent hname
        have hoffers : (stateAt c log n parent.tableId).Offers fk.refColumns k fun _ => False :=
          ⟨p, hp, hpkey, id⟩
        rcases h.offers_succ hn hchild hfk hparent hname hpk nofun hoffers with
          ⟨q, hq, hqkey, -⟩ | ⟨hexclusive, hchildren⟩
        · exact ⟨parent, hparent, hname, q, hq, hqkey⟩
        · exfalso
          rcases mem_stateAt (h.before n r hn) hold with
            hsnapshot | ⟨-, j, r', hle, hlt, hj, cells, hcells, hcolumns⟩
          · have hdelete := hchildren x (mem_childRows.mpr ⟨hsnapshot, hk⟩)
            have hkeeps := hkept _ (mem_writesOn.mpr (delete_mem_normalize.mpr hdelete))
            simp [Write.keeps] at hkeeps
          · -- the child came after the snapshot, under the shared lock
            obtain ⟨op, hop, himage⟩ := hcells
            have hchecked := (h.records r' (mem_of_getElem? hj)).validated.checked _ op child
              hop (Catalog.entry_eq_some.mpr ⟨hchild, rfl⟩)
            rw [hcolumns] at hk
            obtain ⟨parent', hentry, hshared, -⟩ := (hchecked.image cells himage).2 fk hfk k hk
            cases (Catalog.entryByName_eq_some.mpr ⟨hparent, hname⟩).symm.trans hentry
            exact hapart n j r r' hn hj hle hlt _ hexclusive _ hshared ⟨rfl, rfl⟩
      · -- an image: its parent was found in the snapshot or in the batch
        obtain ⟨op, hop, himage⟩ := put_mem_normalize.mp (mem_writesOn.mp hput)
        have hchecked := hrecord.validated.checked _ op child hop
          (Catalog.entry_eq_some.mpr ⟨hchild, rfl⟩)
        rw [hcolumns] at hk
        obtain ⟨parent, hentry, hshared, hfound⟩ := (hchecked.image cells himage).2 fk hfk k hk
        obtain ⟨hparent, hname⟩ := Catalog.entryByName_eq_some.mp hentry
        obtain ⟨col, hpk, hsafe⟩ := hrecord.asked child hchild fk hfk parent hparent hname
        have hstays : KeyStays (stateAt c log n parent.tableId) r.batch parent.tableId
            fk.refColumns k := by
          rcases hfound with ⟨p, hp, hremoved, hpkey⟩ | himage'
          · exact .inl (h.offers_until hapart hn hchild hfk hparent hname hpk hshared
              ⟨p, hp, hpkey, hremoved⟩)
          · exact .inr himage'
        have hgentle := hsafe.gentle (k := k) hparent hrecord.validated.grows (fun _ hid => hid)
          fun id hid => Nat.lt_of_lt_of_le (hsafe.removes_lt hrecord.validated.grows hid)
            (nextRowId_stateAt (h.before n r hn) _)
        rw [hsafe.refColumns] at hstays
        obtain ⟨q, hq, hqkey, -⟩ := hstays.offers hgentle
        refine ⟨parent, hparent, hname, q, ?_, hsafe.refColumns ▸ hqkey⟩
        rw [stateAt_succ hn, applyBatch, primaryKey_eq hparent, hpk]
        exact hq

end Log

/-! ## Every run -/

instance (c : Setting) (Q : Database → Staging → Prop) [∀ db staging, Decidable (Q db staging)]
    (s : System) (l : Label) : Decidable (s.Asks c Q l) := by
  unfold System.Asks
  split
  · split <;> infer_instance
  · infer_instance

/-- The lock is taken in time, and the batch is protected at its snapshot. -/
def Careful (c : Setting) (s : System) (l : Label) : Prop :=
  s.Asks c (Protected c.cat) l ∧ s.Timely l
  deriving Decidable

/-- In every careful run every published state satisfies all foreign keys. -/
theorem foreignKeys_published (c : Setting) (h₀ : ForeignKeysHold c.cat c.initial) {s : System}
    (h : Reachable (System.step c) (Careful c) System.init s) :
    ∀ e ≤ s.visible, ForeignKeysHold c.cat (stateAt c s.log e) := by
  have hinv := System.reachable_inv Protected.nil (h.mono fun _ _ hok => hok.1)
  have hlocks : s.LockInv := h.invariant System.init_lockInv
    fun _ _ _ hlocks hok hstep => hlocks.step hok.2 hstep
  exact fun e _ => hinv.log.foreignKeys hlocks.apart h₀ e

/-- Two parents, no child yet. -/
def household : Setting where
  cat := family 0
  initial := familiesOf [[(0, .int64 1)], [(0, .int64 2)]] []
  hash := beValue
  clash := fun ks ks' => decide (KeysOverlap ks ks')

/-- A child of one parent and the removal of the other, at the same time. -/
theorem unrelated_keys_published :
    ∃ s, Reachable (System.step household) (Careful household) System.init s ∧
      (s.visible = 2 ∧ ((stateAt household s.log 2 0).rows.length = 1 ∧
        (stateAt household s.log 2 1).rows.length = 1)) ∧
      ForeignKeysHold household.cat (stateAt household s.log 2) := by
  obtain ⟨s, hs, hp⟩ := exists_reachable_of_execute (System.step household) (Careful household)
    System.init (fun s => s.visible = 2 ∧ ((stateAt household s.log 2 0).rows.length = 1 ∧
      (stateAt household s.log 2 1).rows.length = 1))
    [.begin 1, .begin 2, .validate 1 2 [(1, .put [(0, .int64 7), (1, .int64 1)])], .lock 1,
      .validate 2 2 [(0, .delete 1)], .lock 2, .sequence 1, .sequence 2, .publish 2, .publish 1,
      .store 2, .store 1, .release 1, .release 2]
    (by decide +kernel)
  have hinitial : ForeignKeysHold household.cat household.initial := by decide +kernel
  exact ⟨s, hs, hp, foreignKeys_published household hinitial hs 2 hp.1.ge⟩

/-- The batch keeps the foreign keys of its own snapshot. -/
def SoundAlone (cat : Catalog) (fuel : Nat) (db : Database) (staging : Staging) : Prop :=
  ∀ r ∈ (validateConstraints fuel cat db staging).toOption,
    ForeignKeysHold cat (applyBatch cat db (normalize r.1))
  deriving Decidable

/-- The parent is removed at a snapshot from before its child: the exclusive lock is granted once
the child's transaction has committed and released its own, and no write key is common. Each
batch is sound alone and protected. -/
theorem stale_parent_delete_orphan :
    ∃ s, Reachable (System.step household) (System.Asks household fun db staging =>
        SoundAlone household.cat 4 db staging ∧ Protected household.cat db staging) System.init s ∧
      s.visible = 2 ∧ ¬ ForeignKeysHold household.cat (stateAt household s.log 2) :=
  exists_reachable_of_execute (System.step household) _ System.init (fun s => s.visible = 2 ∧
      ¬ ForeignKeysHold household.cat (stateAt household s.log 2))
    [.begin 2, .begin 1, .validate 1 4 [(1, .put [(0, .int64 7), (1, .int64 1)])], .lock 1,
      .sequence 1, .publish 1, .store 1, .release 1, .validate 2 4 [(0, .delete 0)], .lock 2,
      .sequence 2, .publish 2, .store 2]
    (by decide +kernel)

end MongrelDB.Integrity
