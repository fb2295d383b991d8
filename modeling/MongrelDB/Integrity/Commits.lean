import MongrelDB.Epoch.Authority
import MongrelDB.Integrity.Validate

/-!
# Commits that validate at their snapshots

The commit path around `validate_constraints`, interleaved over any number of
transactions.
-/

namespace MongrelDB.Integrity

open Lib
open Txn (WriteKey KeysOverlap)
open List
open Option hiding all_eq_true mem_map

/-! ## The system -/

/-- A validated transaction. -/
structure Record where
  readEpoch : Nat
  staging : Staging
  /-- with the expansion -/
  batch : Staging
  locks : List FkLock
  keys : List WriteKey

/-- A batch whose ticket was abandoned. Its write keys stay in the conflict index. -/
def Record.dropped (r : Record) : Record := { r with staging := [], batch := [] }

structure Setting where
  cat : Catalog
  initial : Database
  hash : Key → Nat
  /-- The verdict of the conflict check on two sets of write keys. -/
  clash : List WriteKey → List WriteKey → Bool

/-- What the first `e` batches make of the initial state. -/
def stateAt (c : Setting) (log : List Record) (e : Nat) : Database :=
  (log.take e).foldl (fun db r => applyBatch c.cat db (normalize r.batch)) c.initial

inductive Phase where
  | idle
  | begun (readEpoch : Nat)
  /-- with the locks still to be taken -/
  | locking (r : Record) (left : List FkLock)
  | sequenced (epoch : Nat)
  /-- resolved, with the drained value still to be stored -/
  | resolved (drained : Nat)
  | stored
  | finished

structure System where
  /-- The transaction with epoch `n + 1` at `n`. -/
  log : List Record
  epochs : Epoch.System
  phase : Nat → Phase
  held : List (Nat × FkLock)

inductive Label where
  | begin (t : Nat)
  | validate (t fuel : Nat) (staging : Staging)
  | lock (t : Nat)
  | sequence (t : Nat)
  | publish (t : Nat)
  | abandon (t : Nat)
  | store (t : Nat)
  | release (t : Nat)
  | abort (t : Nat)

namespace System

def init : System where
  log := []
  epochs := .init 0
  phase := fun _ => .idle
  held := []

def visible (s : System) : Nat := s.epochs.auth.visible

def setPhase (s : System) (t : Nat) (p : Phase) : System :=
  { s with phase := Function.update s.phase t p }

def unlock (s : System) (t : Nat) : System :=
  { s with held := s.held.filter fun h => h.1 ≠ t }

/-- No other transaction holds the key in a conflicting mode. -/
def grantable (s : System) (t : Nat) (l : FkLock) : Bool :=
  s.held.all fun h => h.1 = t || h.2.key ≠ l.key || h.2.mode.compatible l.mode

/-- The drained value is the last one in flight. -/
def resolve (s : System) (t : Nat) (epochs : Epoch.System) : Option System :=
  epochs.inFlight.head?.map fun v => { s with epochs }.setPhase t (.resolved v)

def step (c : Setting) (s : System) : Label → Option System
  | .begin t =>
    match s.phase t with
    | .idle => some (s.setPhase t (.begun s.visible))
    | _ => none
  | .validate t fuel staging =>
    match s.phase t with
    | .begun readEpoch =>
      match validateConstraints fuel c.cat (stateAt c s.log readEpoch) staging with
      | .ok (batch, locks) =>
        let keys := writeKeys c.hash c.cat (normalize batch)
        some (s.setPhase t (.locking ⟨readEpoch, staging, batch, locks, keys⟩ locks))
      | .error _ => some (s.setPhase t .finished)
    | _ => none
  | .lock t =>
    match s.phase t with
    | .locking r (l :: left) =>
      if s.grantable t l then
        some ({ s with held := (t, l) :: s.held }.setPhase t (.locking r left))
      else none
    | _ => none
  | .sequence t =>
    match s.phase t with
    | .locking r [] =>
      if (s.log.drop r.readEpoch).all fun r' => !c.clash r.keys r'.keys then
        (s.epochs.step .bumpAssigned).map fun epochs =>
          { s with epochs, log := s.log ++ [r] }.setPhase t (.sequenced epochs.auth.assigned)
      else none
    | _ => none
  | .publish t =>
    match s.phase t with
    | .sequenced e => (s.epochs.step (.publishInOrder e)).bind (s.resolve t)
    | _ => none
  | .abandon t =>
    match s.phase t with
    | .sequenced e =>
      (s.epochs.step (.abandon e)).bind
        ({ s with log := s.log.modify (e - 1) Record.dropped }.resolve t)
    | _ => none
  | .store t =>
    match s.phase t with
    | .resolved v =>
      (s.epochs.step (.publishVisible v)).map fun epochs =>
        { s with epochs }.setPhase t .stored
    | _ => none
  | .release t =>
    match s.phase t with
    | .stored => some ((s.unlock t).setPhase t .finished)
    | _ => none
  | .abort t =>
    match s.phase t with
    | .begun _ | .locking _ _ => some ((s.unlock t).setPhase t .finished)
    | _ => none

/-- What a step does. -/
inductive Moves (c : Setting) (s : System) : Label → System → Prop where
  | begin {t : Nat} (hphase : s.phase t = .idle) :
    Moves c s (.begin t) (s.setPhase t (.begun s.visible))
  | validate {t fuel readEpoch : Nat} {staging batch : Staging} {locks : List FkLock}
    (hphase : s.phase t = .begun readEpoch)
    (hok : validateConstraints fuel c.cat (stateAt c s.log readEpoch) staging =
      .ok (batch, locks)) :
    Moves c s (.validate t fuel staging) (s.setPhase t (.locking
      ⟨readEpoch, staging, batch, locks, writeKeys c.hash c.cat (normalize batch)⟩ locks))
  | refuse {t fuel : Nat} {staging : Staging} :
    Moves c s (.validate t fuel staging) (s.setPhase t .finished)
  | lock {t : Nat} {r : Record} {l : FkLock} {left : List FkLock}
    (hphase : s.phase t = .locking r (l :: left)) (hgrant : s.grantable t l = true) :
    Moves c s (.lock t) ({ s with held := (t, l) :: s.held }.setPhase t (.locking r left))
  | sequence {t : Nat} {r : Record} {epochs : Epoch.System}
    (hphase : s.phase t = .locking r [])
    (hclear : ∀ r' ∈ s.log.drop r.readEpoch, c.clash r.keys r'.keys = false)
    (hepochs : s.epochs.step .bumpAssigned = some epochs) :
    Moves c s (.sequence t) ({ s with epochs, log := s.log ++ [r] }.setPhase t
      (.sequenced epochs.auth.assigned))
  | publish {t e v : Nat} {epochs : Epoch.System}
    (hepochs : s.epochs.step (.publishInOrder e) = some epochs) :
    Moves c s (.publish t) ({ s with epochs }.setPhase t (.resolved v))
  | abandon {t e v : Nat} {epochs : Epoch.System}
    (hepochs : s.epochs.step (.abandon e) = some epochs) :
    Moves c s (.abandon t) ({ s with epochs, log := s.log.modify (e - 1) Record.dropped }.setPhase
      t (.resolved v))
  | store {t v : Nat} {epochs : Epoch.System}
    (hepochs : s.epochs.step (.publishVisible v) = some epochs) :
    Moves c s (.store t) ({ s with epochs }.setPhase t .stored)
  | release {t : Nat} : Moves c s (.release t) ((s.unlock t).setPhase t .finished)
  | abort {t : Nat} : Moves c s (.abort t) ((s.unlock t).setPhase t .finished)

theorem step_moves {c : Setting} {s s' : System} {l : Label} (h : s.step c l = some s') :
    Moves c s l s' := by
  cases l with
  | begin t =>
    simp only [step] at h
    split at h <;> cases h
    exact .begin ‹_›
  | validate t fuel staging =>
    simp only [step] at h
    split at h
    next hphase =>
      split at h <;> cases h
      · exact .validate hphase ‹_›
      · exact .refuse
    · cases h
  | lock t =>
    simp only [step] at h
    split at h
    next hphase =>
      split at h <;> cases h
      exact .lock hphase ‹_›
    · cases h
  | sequence t =>
    simp only [step] at h
    split at h
    next r hphase =>
      split at h
      next hclear =>
        obtain ⟨epochs, hepochs, rfl⟩ := map_eq_some_iff.mp h
        exact .sequence hphase (by simpa using hclear) hepochs
      · cases h
    · cases h
  | publish t =>
    simp only [step] at h
    split at h
    · obtain ⟨epochs, hepochs, h⟩ := bind_eq_some_iff.mp h
      obtain ⟨v, -, rfl⟩ := map_eq_some_iff.mp h
      exact .publish hepochs
    · cases h
  | abandon t =>
    simp only [step] at h
    split at h
    · obtain ⟨epochs, hepochs, h⟩ := bind_eq_some_iff.mp h
      obtain ⟨v, -, rfl⟩ := map_eq_some_iff.mp h
      exact .abandon hepochs
    · cases h
  | store t =>
    simp only [step] at h
    split at h
    · obtain ⟨epochs, hepochs, rfl⟩ := map_eq_some_iff.mp h
      exact .store hepochs
    · cases h
  | release t =>
    simp only [step] at h
    split at h <;> cases h
    exact .release
  | abort t =>
    simp only [step] at h
    split at h <;> cases h
    · exact .abort
    · exact .abort

end System

/-! ## The log -/

section Log

variable {c : Setting} {Q : Database → Staging → Prop} {log log' : List Record} {r : Record}
  {e i : Nat}

theorem stateAt_append (h : e ≤ log.length) (r : Record) :
    stateAt c (log ++ [r]) e = stateAt c log e := by
  rw [stateAt, take_append_of_le_length h]
  rfl

theorem stateAt_modify (h : e ≤ i) (f : Record → Record) :
    stateAt c (log.modify i f) e = stateAt c log e := by
  have htake : (log.modify i f).take e = log.take e := by
    refine ext_getElem? fun n => ?_
    rw [getElem?_take, getElem?_take, getElem?_modify]
    split
    next hlt =>
      have hne : i ≠ n := by omega
      simp [hne]
    · rfl
  rw [stateAt, htake]
  rfl

theorem stateAt_succ (h : log[e]? = some r) :
    stateAt c log (e + 1) = applyBatch c.cat (stateAt c log e) (normalize r.batch) := by
  rw [stateAt, take_add_one, h, foldl_append]
  rfl

theorem stateAt_succ_of_none (h : log[e]? = none) :
    stateAt c log (e + 1) = stateAt c log e := by
  rw [stateAt, take_add_one, h, toList_none, append_nil]
  rfl

/-- What is known of a validated transaction; `Q` is what was asked of its batch. -/
structure RecordOk (c : Setting) (Q : Database → Staging → Prop) (log : List Record)
    (r : Record) : Prop where
  validated : Validated c.cat (stateAt c log r.readEpoch) r.staging r.batch r.locks
  keys : ∀ key ∈ writeKeys c.hash c.cat (normalize r.batch), key ∈ r.keys
  asked : Q (stateAt c log r.readEpoch) r.staging

theorem RecordOk.congr (h : RecordOk c Q log r)
    (hstate : stateAt c log' r.readEpoch = stateAt c log r.readEpoch) : RecordOk c Q log' r := by
  refine ⟨?_, h.keys, ?_⟩
  · rw [hstate]
    exact h.validated
  · rw [hstate]
    exact h.asked

theorem validated_nil (cat : Catalog) (db : Database) (locks : List FkLock) :
    Validated cat db [] [] locks :=
  ⟨.refl _, nofun, nofun, nofun, nofun, Pairwise.nil⟩

theorem RecordOk.dropped (hQ : ∀ db staging, Q db staging → Q db []) (h : RecordOk c Q log r) :
    RecordOk c Q log r.dropped :=
  ⟨validated_nil _ _ _, nofun, hQ _ _ h.asked⟩

/-- Each batch passed at its read epoch and clashes with none of those in between. -/
structure LogOk (c : Setting) (Q : Database → Staging → Prop) (log : List Record) : Prop where
  before : ∀ (i : Nat) (r : Record), log[i]? = some r → r.readEpoch ≤ i
  records : ∀ r ∈ log, RecordOk c Q log r
  clear : ∀ (i j : Nat) (r r' : Record), log[i]? = some r → log[j]? = some r' →
    r.readEpoch ≤ j → j < i → c.clash r.keys r'.keys = false

theorem getElem?_concat {r' : Record} (h : (log ++ [r])[i]? = some r') :
    log[i]? = some r' ∨ i = log.length ∧ r' = r := by
  rw [getElem?_append] at h
  split at h
  · exact .inl h
  · obtain ⟨hlt, heq⟩ := List.getElem?_eq_some_iff.mp h
    rw [length_singleton] at hlt
    exact .inr ⟨by omega, by simpa using heq.symm⟩

theorem LogOk.append (h : LogOk c Q log) (hr : RecordOk c Q log r)
    (hread : r.readEpoch ≤ log.length)
    (hclear : ∀ r' ∈ log.drop r.readEpoch, c.clash r.keys r'.keys = false) :
    LogOk c Q (log ++ [r]) := by
  refine ⟨fun i r' hi => ?_, fun r' hr' => ?_, fun i j r₁ r₂ hi hj hread₁ hji => ?_⟩
  · rcases getElem?_concat hi with hi | ⟨rfl, rfl⟩
    · exact h.before i r' hi
    · exact hread
  · rcases mem_append.mp hr' with hr' | hr'
    · obtain ⟨i, hi⟩ := getElem?_of_mem hr'
      have hlt := (List.getElem?_eq_some_iff.mp hi).1
      exact (h.records r' hr').congr (stateAt_append (by have := h.before i r' hi; omega) r)
    · obtain rfl := mem_singleton.mp hr'
      exact hr.congr (stateAt_append hread r')
  · rcases getElem?_concat hj with hold | ⟨rfl, rfl⟩
    · rcases getElem?_concat hi with hi | ⟨rfl, rfl⟩
      · exact h.clear i j r₁ r₂ hi hold hread₁ hji
      · refine hclear r₂ (mem_of_getElem? (i := j - r₁.readEpoch) ?_)
        rw [getElem?_drop, Nat.add_sub_cancel' hread₁]
        exact hold
    · have hle : i ≤ log.length := by
        rcases getElem?_concat hi with hi | ⟨rfl, -⟩
        · exact Nat.le_of_lt (List.getElem?_eq_some_iff.mp hi).1
        · exact le_rfl
      omega

theorem getElem?_modify_dropped {n : Nat} (h : (log.modify i Record.dropped)[n]? = some r) :
    ∃ r₀, log[n]? = some r₀ ∧ (r = r₀ ∨ r = r₀.dropped) := by
  rw [getElem?_modify] at h
  obtain ⟨r₀, hr₀, rfl⟩ := map_eq_some_iff.mp h
  refine ⟨r₀, hr₀, ?_⟩
  split
  · exact .inr rfl
  · exact .inl rfl

/-- An abandoned epoch above every read epoch leaves the log as good as before. -/
theorem LogOk.drop (hQ : ∀ db staging, Q db staging → Q db []) (h : LogOk c Q log) {i : Nat}
    (hreads : ∀ r ∈ log, r.readEpoch ≤ i) : LogOk c Q (log.modify i Record.dropped) := by
  refine ⟨fun n r hn => ?_, fun r hr => ?_, fun n j r₁ r₂ hn hj hread hjn => ?_⟩
  · obtain ⟨r₀, hr₀, rfl | rfl⟩ := getElem?_modify_dropped hn
    · exact h.before n _ hr₀
    · exact h.before n r₀ hr₀
  · obtain ⟨n, hn⟩ := getElem?_of_mem hr
    obtain ⟨r₀, hr₀, hr⟩ := getElem?_modify_dropped hn
    have hmem := mem_of_getElem? hr₀
    have hok : RecordOk c Q log r := by
      rcases hr with rfl | rfl
      · exact h.records _ hmem
      · exact (h.records _ hmem).dropped hQ
    have hread : r.readEpoch ≤ i := by
      rcases hr with rfl | rfl
      · exact hreads _ hmem
      · exact hreads r₀ hmem
    exact hok.congr (stateAt_modify hread _)
  · obtain ⟨r₁', hr₁, h₁⟩ := getElem?_modify_dropped hn
    obtain ⟨r₂', hr₂, h₂⟩ := getElem?_modify_dropped hj
    have hclear := h.clear n j r₁' r₂' hr₁ hr₂
    rcases h₁ with rfl | rfl <;> rcases h₂ with rfl | rfl <;> exact hclear hread hjn

end Log

/-! ## Every run -/

namespace System

variable {c : Setting} {Q : Database → Staging → Prop} {s s' : System} {l : Label}

def PhaseOk (c : Setting) (Q : Database → Staging → Prop) (s : System) : Phase → Prop
  | .begun readEpoch => readEpoch ≤ s.visible
  | .locking r _ => r.readEpoch ≤ s.visible ∧ RecordOk c Q s.log r
  | .idle | .sequenced _ | .resolved _ | .stored | .finished => True

structure Inv (c : Setting) (Q : Database → Staging → Prop) (s : System) : Prop where
  epochs : s.epochs.WInv
  assigned : s.epochs.auth.assigned = s.log.length
  reads : ∀ r ∈ s.log, r.readEpoch ≤ s.visible
  log : LogOk c Q s.log
  phases : ∀ t, PhaseOk c Q s (s.phase t)

/-- The batch a step validates is as `Q` asks. -/
def Asks (c : Setting) (Q : Database → Staging → Prop) (s : System) : Label → Prop
  | .validate t _ staging =>
    match s.phase t with
    | .begun readEpoch => Q (stateAt c s.log readEpoch) staging
    | _ => True
  | _ => True

theorem init_inv : Inv c Q init :=
  ⟨Epoch.System.init_winv 0, rfl, nofun, ⟨nofun, nofun, nofun⟩, fun _ => trivial⟩

/-- Phases stay good when the visible epoch only grows and the states up to it stay. -/
theorem Inv.phasesOk (h : Inv c Q s) (hvisible : s.visible ≤ s'.visible)
    (hstate : ∀ e ≤ s.visible, stateAt c s'.log e = stateAt c s.log e) (t : Nat) :
    PhaseOk c Q s' (s.phase t) := by
  have hphase := h.phases t
  cases hp : s.phase t with
  | begun readEpoch =>
    rw [hp] at hphase
    exact Nat.le_trans hphase hvisible
  | locking r left =>
    rw [hp] at hphase
    exact ⟨Nat.le_trans hphase.1 hvisible, hphase.2.congr (hstate _ hphase.1)⟩
  | _ => trivial

theorem Inv.setPhase {t : Nat} {p : Phase} (h : Inv c Q s) (hp : PhaseOk c Q s p) :
    Inv c Q (s.setPhase t p) := by
  refine ⟨h.epochs, h.assigned, h.reads, h.log, fun t' => ?_⟩
  have heq : (s.setPhase t p).phase t' = if t' = t then p else s.phase t' := by
    simp [System.setPhase, Function.update_apply]
  rw [heq]
  split
  · exact hp
  · exact h.phases t'

theorem Inv.advance (h : Inv c Q s) {l : Epoch.Label} {epochs : Epoch.System}
    (hepochs : s.epochs.step l = some epochs) (hl : l ≠ .bumpAssigned) :
    Inv c Q { s with epochs } := by
  obtain ⟨hwinv, hle, hassigned⟩ := Epoch.System.step_spec h.epochs hepochs
  refine ⟨hwinv, ?_, fun r hr => Nat.le_trans (h.reads r hr) hle, h.log, fun t => ?_⟩
  · exact (hassigned hl).trans h.assigned
  · exact @Inv.phasesOk c Q s { s with epochs } h hle (fun _ _ => rfl) t

theorem Inv.relock (h : Inv c Q s) (held : List (Nat × FkLock)) : Inv c Q { s with held } := by
  refine ⟨h.epochs, h.assigned, h.reads, h.log, fun t => ?_⟩
  exact @Inv.phasesOk c Q s { s with held } h le_rfl (fun _ _ => rfl) t

theorem Inv.step (hQ : ∀ db staging, Q db staging → Q db []) (h : Inv c Q s)
    (hasks : Asks c Q s l) (hstep : s.step c l = some s') : Inv c Q s' := by
  have hvisible : s.visible ≤ s.log.length := h.assigned ▸ h.epochs.mark_le _ mem_cons_self
  cases step_moves hstep with
  | begin hphase => exact h.setPhase le_rfl
  | @validate t _ readEpoch staging batch locks hphase hok =>
    have hread := h.phases t
    rw [hphase] at hread
    simp only [Asks, hphase] at hasks
    exact h.setPhase ⟨hread, validateConstraints_spec hok, fun key hkey => hkey, hasks⟩
  | refuse => exact h.setPhase trivial
  | @lock t r l left hphase hgrant =>
    have hr := h.phases t
    rw [hphase] at hr
    exact (h.relock _).setPhase hr
  | @sequence t r epochs hphase hclear hepochs =>
    have hr := h.phases t
    rw [hphase] at hr
    obtain ⟨hwinv, hle, -⟩ := Epoch.System.step_spec h.epochs hepochs
    cases hepochs
    refine Inv.setPhase ⟨hwinv, ?_, ?_, h.log.append hr.2 (Nat.le_trans hr.1 hvisible) hclear,
      fun t' => ?_⟩ trivial
    · show s.epochs.auth.assigned + 1 = (s.log ++ [r]).length
      rw [h.assigned, length_append, length_singleton]
    · intro r' hr'
      rcases mem_append.mp hr' with hr' | hr'
      · exact Nat.le_trans (h.reads r' hr') hle
      · exact mem_singleton.mp hr' ▸ hr.1
    · exact @Inv.phasesOk c Q s { s with epochs := _, log := s.log ++ [r] } h hle
        (fun e he => stateAt_append (Nat.le_trans he hvisible) r) t'
  | publish hepochs | store hepochs => exact (h.advance hepochs nofun).setPhase trivial
  | @abandon t e v epochs hepochs =>
    have hlt : s.visible < e := Epoch.System.visible_lt_of_abandon h.epochs hepochs
    have hreads : ∀ r ∈ s.log, r.readEpoch ≤ e - 1 := fun r hr => by
      have := h.reads r hr
      omega
    have h' := h.advance hepochs nofun
    have hdropped : ∀ r ∈ s.log.modify (e - 1) Record.dropped,
        r.readEpoch ≤ epochs.auth.visible := by
      intro r hr
      obtain ⟨n, hn⟩ := getElem?_of_mem hr
      obtain ⟨r₀, hr₀, hr⟩ := getElem?_modify_dropped hn
      have hread := h'.reads r₀ (mem_of_getElem? hr₀)
      rcases hr with rfl | rfl <;> exact hread
    refine Inv.setPhase ⟨h'.epochs, ?_, hdropped, h.log.drop hQ hreads, fun t' => ?_⟩ trivial
    · show epochs.auth.assigned = (s.log.modify (e - 1) Record.dropped).length
      rw [length_modify]
      exact h'.assigned
    · exact @Inv.phasesOk c Q s { s with epochs, log := s.log.modify (e - 1) Record.dropped } h
        (Epoch.System.step_spec h.epochs hepochs).2.1
        (fun e' he' => stateAt_modify (by omega) _) t'
  | release | abort => exact (h.relock _).setPhase trivial

theorem reachable_inv (hQ : ∀ db staging, Q db staging → Q db [])
    (h : Reachable (step c) (Asks c Q) init s) : Inv c Q s :=
  h.invariant init_inv fun _ _ _ hinv hasks hstep => hinv.step hQ hasks hstep

end System

/-! ## Unique constraints -/

/-- No two rows of a table have one key for a unique constraint. -/
def UniquesHold (cat : Catalog) (db : Database) : Prop :=
  ∀ entry ∈ cat.tables, ∀ uc ∈ entry.schema.uniques, (db entry.tableId).rows.Pairwise fun a b =>
    ∀ k ∈ encodeCompositeKey uc.columns a.columns,
      encodeCompositeKey uc.columns b.columns ≠ some k
  deriving Decidable

variable {cat : Catalog}

theorem Validated.images_distinct {db : Database} {staging batch : Staging}
    {locks : List FkLock} (h : Validated cat db staging batch locks) {entry : CatalogEntry}
    (hentry : entry ∈ cat.tables) {uc : UniqueConstraint} (huc : uc ∈ entry.schema.uniques) :
    (images batch entry.tableId).Pairwise fun a b => ∀ k ∈ encodeCompositeKey uc.columns a,
      encodeCompositeKey uc.columns b ≠ some k := by
  have hmark : ∀ (op : TableId × Staged) (a : Columns) (k : Key),
      (if op.1 = entry.tableId then op.2.image.map collect else none) = some a →
      encodeCompositeKey uc.columns a = some k →
      UniqueMark cat op (entry.tableId, uc.id, k) := by
    intro op a k ha hk
    split at ha
    next htable =>
      obtain ⟨cells, himage, rfl⟩ := map_eq_some_iff.mp ha
      exact ⟨entry, cells, Catalog.entry_eq_some.mpr ⟨hentry, htable.symm⟩, himage, uc, huc, k, hk,
        rfl⟩
    · cases ha
  refine Pairwise.filterMap _ (fun op op' hdistinct a ha b hb k hk hk' => ?_) h.distinct
  exact hdistinct _ (hmark op a k ha hk) (hmark op' b k hb hk')

/-- A batch keeps the unique constraints when it removes each row that has a key in common
with one of its images. -/
theorem UniquesHold.applyBatch {db dbR : Database} {staging batch : Staging}
    {locks : List FkLock} (h : UniquesHold cat db) (hv : Validated cat dbR staging batch locks)
    (hremoved : ∀ entry ∈ cat.tables, ∀ uc ∈ entry.schema.uniques,
    ∀ r ∈ (db entry.tableId).rows, ∀ cells, Brings batch entry.tableId cells →
    ∀ k, encodeCompositeKey uc.columns r.columns = some k →
    encodeCompositeKey uc.columns (collect cells) = some k → Removes batch entry.tableId r.rowId) :
    UniquesHold cat (applyBatch cat db (normalize batch)) := by
  intro entry hentry uc huc
  obtain ⟨new, hrows, hnew⟩ := @Table.rows_applyAll (cat.primaryKey entry.tableId)
    (db entry.tableId) (writesOn (normalize batch) entry.tableId)
  rw [puts_normalize] at hnew
  show (Table.applyAll _ _ _).rows.Pairwise _
  rw [hrows, pairwise_append]
  refine ⟨(h entry hentry uc huc).sublist filter_sublist, ?_, ?_⟩
  · exact pairwise_map.mp ((hv.images_distinct hentry huc).sublist hnew)
  · -- a row that is left, and an image with its key: the row has been removed
    intro r hr r' hr' k hk hk'
    obtain ⟨hr, hkept⟩ := mem_filter.mp hr
    obtain ⟨cells, hcells, hcolumns⟩ :=
      mem_images.mp (hnew.subset (mem_map.mpr ⟨r', hr', rfl⟩))
    have hremoves := hremoved entry hentry uc huc r hr cells hcells k hk (hcolumns ▸ hk')
    have hkeeps := all_eq_true.mp hkept _ (mem_writesOn.mpr (delete_mem_normalize.mpr hremoves))
    simp [Write.keeps] at hkeeps

section Log

variable {c : Setting} {Q : Database → Staging → Prop} {log : List Record}

/-- A batch from epoch `e` on, before `n`, brought the row. -/
def BroughtBetween (c : Setting) (log : List Record) (e n : Nat) (table : TableId) (r : Row) :
    Prop :=
  (stateAt c log e table).nextRowId ≤ r.rowId ∧ ∃ i record, e ≤ i ∧ i < n ∧
    log[i]? = some record ∧ ∃ cells, Brings record.batch table cells ∧ r.columns = collect cells

theorem nextRowId_stateAt {e n : Nat} (hen : e ≤ n) (table : TableId) :
    (stateAt c log e table).nextRowId ≤ (stateAt c log n table).nextRowId := by
  induction hen with
  | refl => exact le_rfl
  | @step n hen ih =>
    refine Nat.le_trans ih ?_
    cases hn : log[n]? with
    | none =>
      rw [stateAt_succ_of_none hn]
    | some record =>
      rw [stateAt_succ hn]
      exact Table.nextRowId_le_applyAll

theorem mem_stateAt {e n : Nat} (hen : e ≤ n) {table : TableId} {r : Row}
    (h : r ∈ (stateAt c log n table).rows) :
    r ∈ (stateAt c log e table).rows ∨ BroughtBetween c log e n table r := by
  induction hen with
  | refl => exact .inl h
  | @step n hen ih =>
    have hlater : BroughtBetween c log e n table r → BroughtBetween c log e (n + 1) table r :=
      fun ⟨hid, i, record, hle, hlt, hi⟩ => ⟨hid, i, record, hle, by omega, hi⟩
    cases hn : log[n]? with
    | none =>
      rw [stateAt_succ_of_none hn] at h
      exact (ih h).imp_right hlater
    | some record =>
      rw [stateAt_succ hn] at h
      rcases Table.mem_applyAll h with ⟨hold, -⟩ | ⟨hid, cells, hput, hcolumns⟩
      · exact (ih hold).imp_right hlater
      · exact .inr ⟨Nat.le_trans (nextRowId_stateAt hen table) hid, n, record, hen,
          Nat.lt_succ_self n, hn, cells, put_mem_normalize.mp (mem_writesOn.mp hput), hcolumns⟩

theorem unique_mem_writeKeys {hash : Key → Nat} {batch : Staging}
    {entry : CatalogEntry} (hentry : entry ∈ cat.tables) {uc : UniqueConstraint}
    (huc : uc ∈ entry.schema.uniques) {cells : Cells} (hcells : Brings batch entry.tableId cells)
    {k : Key} (hk : encodeCompositeKey uc.columns (collect cells) = some k) :
    WriteKey.unique entry.tableId (uniqueIndexId uc.id) (hash k) ∈
      writeKeys hash cat (normalize batch) := by
  refine mem_flatMap.mpr ⟨_, put_mem_normalize.mpr hcells, ?_⟩
  rw [Write.writeKeys, Catalog.entry_eq_some.mpr ⟨hentry, rfl⟩]
  refine mem_append_right _ (mem_filterMap.mpr ⟨uc, huc, ?_⟩)
  rw [hk]
  rfl

/-- A clash is found where two transactions have a common write key. -/
def FindsCommonKeys (clash : List WriteKey → List WriteKey → Bool) : Prop :=
  ∀ ks ks' key, key ∈ ks → key ∈ ks' → clash ks ks' = true

theorem LogOk.uniques (hclash : FindsCommonKeys c.clash) (h₀ : UniquesHold c.cat c.initial)
    (h : LogOk c Q log) (n : Nat) : UniquesHold c.cat (stateAt c log n) := by
  induction n with
  | zero => exact h₀
  | succ n ih =>
    cases hn : log[n]? with
    | none =>
      rw [stateAt_succ_of_none hn]
      exact ih
    | some record =>
      rw [stateAt_succ hn]
      have hrecord := h.records record (mem_of_getElem? hn)
      refine ih.applyBatch hrecord.validated
        fun entry hentry uc huc r hr cells hcells k hk hk' => ?_
      rcases mem_stateAt (h.before n record hn) hr with
        hold | ⟨-, i, r', hle, hlt, hi, cells', hcells', hcolumns⟩
      · -- the scan of the snapshot has met the row
        obtain ⟨op, hop, himage⟩ := hcells
        have hchecked := hrecord.validated.checked _ op entry hop
          (Catalog.entry_eq_some.mpr ⟨hentry, rfl⟩)
        by_contra hstays
        exact (hchecked.image cells himage).1 uc huc k hk' r hold hstays hk
      · -- the batch that brought it has the same write key
        rw [hcolumns] at hk
        have hkey := hrecord.keys _ (unique_mem_writeKeys hentry huc hcells hk')
        have hkey' := (h.records r' (mem_of_getElem? hi)).keys _
          (unique_mem_writeKeys hentry huc hcells' hk)
        have hclear := h.clear n i record r' hn hi hle hlt
        rw [hclash _ _ _ hkey hkey'] at hclear
        cases hclear

end Log

/-- In every published state the unique constraints hold. -/
theorem uniques_hold (c : Setting) (hclash : FindsCommonKeys c.clash)
    (h₀ : UniquesHold c.cat c.initial) {s : System}
    (h : Reachable (System.step c) anyStep System.init s) :
    ∀ e ≤ s.visible, UniquesHold c.cat (stateAt c s.log e) := by
  have hasks : Reachable (System.step c) (System.Asks c fun _ _ => True) System.init s := by
    refine h.mono fun s l _ => ?_
    cases l with
    | validate t fuel staging =>
      simp only [System.Asks]
      split <;> trivial
    | _ => trivial
  have hinv := System.reachable_inv (fun _ _ _ => trivial) hasks
  exact fun e _ => hinv.log.uniques hclash h₀ e

theorem findsCommonKeys_keysOverlap :
    FindsCommonKeys fun ks ks' => decide (KeysOverlap ks ks') :=
  fun _ _ key hkey hkey' => decide_eq_true ⟨key, hkey, key, hkey', .inl rfl⟩

/-- Accounts by their id, with a unique name in column 1. -/
def accounts : Setting where
  cat :=
    { tables := [⟨0, "accounts", ⟨some 0, [⟨1, "name", [1]⟩], [], []⟩⟩]
      distinctIds := by simp
      distinctNames := by simp }
  initial := fun _ => .empty
  hash := beValue
  clash := fun ks ks' => decide (KeysOverlap ks ks')

/-- The second transaction begins before the first is published; their names differ. -/
theorem concurrent_inserts_unique :
    ∃ s, Reachable (System.step accounts) anyStep System.init s ∧
      (s.visible = 2 ∧ (stateAt accounts s.log 2 0).rows.length = 2) ∧
      UniquesHold accounts.cat (stateAt accounts s.log 2) := by
  obtain ⟨s, hs, hp⟩ := exists_reachable_of_execute (System.step accounts) anyStep System.init
    (fun s => s.visible = 2 ∧ (stateAt accounts s.log 2 0).rows.length = 2)
    [.begin 1, .validate 1 2 [(0, .put [(0, .int64 1), (1, .bytes [5])])], .sequence 1, .begin 2,
      .publish 1, .store 1, .release 1, .validate 2 2 [(0, .put [(0, .int64 2), (1, .bytes [6])])],
      .sequence 2, .publish 2, .store 2]
    (by decide +kernel)
  have hinitial : UniquesHold accounts.cat accounts.initial := by decide +kernel
  exact ⟨s, hs, hp, uniques_hold accounts findsCommonKeys_keysOverlap hinitial hs 2 hp.1.ge⟩

end MongrelDB.Integrity
