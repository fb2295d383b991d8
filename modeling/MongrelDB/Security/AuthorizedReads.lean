import Mathlib
import MongrelDB.Lib.Transition
import MongrelDB.Security.Policies
import MongrelDB.Storage.Table

/-!
# Authorized reads

An authorized read of a table with row-level security works with the set of row ids
its principal may see.

A read takes the security state, works under the table's lock, and is repeated, three
times at most, when the security version has moved in between. Commits are applied to
one table at a time; reads and security changes come in anywhere. Checkpoints,
permissions and the other reads of the table are left out.
-/

namespace MongrelDB.Security

open Epoch (HlcTimestamp Snapshot Stamp)
open Lib
open Storage (Row Value Table)
open List

/-! ## The cache -/

structure CacheKey where
  table : Text
  dataGeneration : Nat
  securityVersion : Nat
  principal : PrincipalKey
  deriving DecidableEq, Repr

structure CacheEntry where
  key : CacheKey
  value : List Nat
  bytes : Nat
  /-- Where the rows were read, which the source does not keep. -/
  snapshot : Snapshot
  nowNanos : Int

/-- `RLS_CACHE_MAX_BYTES` -/
def rlsCacheMaxBytes : Nat := 64 * 1024 * 1024

/-- Least recently used first. -/
structure RlsCache where
  entries : List CacheEntry

namespace RlsCache

def find (c : RlsCache) (key : CacheKey) : Option CacheEntry :=
  c.entries.find? fun e => e.key = key

/-- A hit becomes the most recently used entry. -/
def touch (c : RlsCache) (e : CacheEntry) : RlsCache where
  entries := c.entries.filter (fun x => x.key ≠ e.key) ++ [e]

/-- Drop the oldest entries until there is room. -/
def evict (bytes : Nat) : List CacheEntry → List CacheEntry
  | [] => []
  | e :: rest =>
    if ((e :: rest).map CacheEntry.bytes).sum + bytes > rlsCacheMaxBytes then evict bytes rest
    else e :: rest

def insert (c : RlsCache) (e : CacheEntry) : RlsCache where
  entries :=
    if e.bytes > rlsCacheMaxBytes then c.entries
    else evict e.bytes (c.entries.filter fun x => x.key ≠ e.key) ++ [e]

theorem find_eq_some {c : RlsCache} {key : CacheKey} {e : CacheEntry} (h : c.find key = some e) :
    e ∈ c.entries ∧ e.key = key :=
  ⟨mem_of_find?_eq_some h, by simpa using find?_some h⟩

theorem mem_touch {c : RlsCache} {e x : CacheEntry} (he : e ∈ c.entries)
    (h : x ∈ (c.touch e).entries) : x ∈ c.entries := by
  rcases mem_append.mp h with h | h
  · exact (mem_filter.mp h).1
  · exact mem_singleton.mp h ▸ he

theorem mem_of_mem_evict {bytes : Nat} {x : CacheEntry} {l : List CacheEntry}
    (h : x ∈ evict bytes l) : x ∈ l := by
  induction l with
  | nil => exact h
  | cons e rest ih =>
    rw [evict] at h
    split at h
    · exact mem_cons_of_mem e (ih h)
    · exact h

theorem mem_insert {c : RlsCache} {e x : CacheEntry} (h : x ∈ (c.insert e).entries) :
    x ∈ c.entries ∨ x = e := by
  simp only [insert] at h
  split at h
  · exact .inl h
  · rcases mem_append.mp h with h | h
    · exact .inl (mem_filter.mp (mem_of_mem_evict h)).1
    · exact .inr (mem_singleton.mp h)

end RlsCache

/-! ## The set of allowed row ids -/

section

variable {F : Type} [BEq F] {security : SecurityCatalog F}

/-- The generation is a `u64` that wraps in the source. -/
structure TableSlot (F : Type) where
  table : Table F
  dataGeneration : Nat

/-- The rows a principal may see, by the policies on reading. -/
def allowedIn (security : SecurityCatalog F) (name : Text) (p : Principal) (rows : List (Row F)) :
    List Nat :=
  (rows.filter fun row => security.rowAllowed name .select row p false).map Row.rowId

inductive ReadError where
  | authRequired
  deriving DecidableEq, Repr

def cacheKey (name : Text) (slot : TableSlot F) (securityVersion : Nat) (p : Principal) :
    CacheKey :=
  ⟨name, slot.dataGeneration, securityVersion, p.key⟩

/-- `cost` is the size of an entry, which depends on the capacity of the hash set. -/
def allowedRowIdsLocked (cost : CacheKey → List Nat → Nat) (cache : RlsCache) (name : Text)
    (slot : TableSlot F) (snapshot : Snapshot) (security : SecurityCatalog F)
    (securityVersion : Nat) (principal : Option Principal) (nowNanos : Int) :
    Except ReadError (Option (List Nat) × RlsCache) :=
  if !security.rlsEnabled name then .ok (none, cache)
  else
    match principal with
    | none => .error .authRequired
    | some p =>
      let key := cacheKey name slot securityVersion p
      match cache.find key with
      | some e => .ok (some e.value, cache.touch e)
      | none =>
        let allowed := allowedIn security name p (slot.table.visibleRowsAtTime snapshot nowNanos)
        .ok (some allowed, cache.insert ⟨key, allowed, cost key allowed, snapshot, nowNanos⟩)

/-! ## The system -/

inductive StagedOp (F : Type) where
  /-- with the tombstones of the rows that the puts displace -/
  | put (rows : List (Row F))
  | delete (rowId : Nat) (stamp : Stamp)
  | truncate

def StagedOp.apply (t : Table F) : StagedOp F → Table F
  | put rows => rows.foldl Table.put t
  | delete rowId stamp => t.tombstoneRow rowId stamp
  | truncate => Table.new t.schema t.ttl

/-- Each operation moves the generation of the data. -/
def TableSlot.apply (slot : TableSlot F) (ops : List (StagedOp F)) : TableSlot F where
  table := ops.foldl StagedOp.apply slot.table
  dataGeneration := slot.dataGeneration + ops.length

structure Request where
  table : Text
  snapshotOverride : Option Snapshot

/-- What a read has been given to work with. -/
structure Answer (F : Type) where
  table : Text
  snapshot : Snapshot
  securityVersion : Nat
  principal : Principal
  allowed : List Nat
  /-- The rows visible at the snapshot, whether they were looked at or not. -/
  rows : List (Row F)

inductive Reader (F : Type) where
  | idle
  | starting (attempt : Nat) (request : Request)
  | authorizing (attempt : Nat) (request : Request) (security : SecurityCatalog F)
    (securityVersion : Nat) (principal : Option Principal)
  /-- `none` when the table has no row-level security -/
  | reading (attempt : Nat) (request : Request) (securityVersion : Nat) (answer : Option (Answer F))
  | returned (answer : Option (Answer F))
  | failed

/-- The answer a reader has been given last. -/
def Reader.answer : Reader F → Option (Answer F)
  | reading _ _ _ answer => answer
  | returned answer => answer
  | idle => none
  | starting _ _ => none
  | authorizing _ _ _ _ _ => none
  | failed => none

structure System (F : Type) where
  tables : Text → TableSlot F
  visible : Nat
  security : SecurityCatalog F
  securityVersion : Nat
  /-- The catalog of each version so far. -/
  catalogOf : Nat → SecurityCatalog F
  cache : RlsCache
  readers : Nat → Reader F

inductive Label (F : Type) where
  /-- a commit on one table, under its lock -/
  | apply (table : Text) (ops : List (StagedOp F))
  | publish (epoch : Nat)
  | changeSecurity (security : SecurityCatalog F)
  | start (q : Nat) (request : Request)
  /-- with the principal the catalog resolves the caller to -/
  | authorize (q : Nat) (principal : Option Principal)
  /-- under the table's lock, with the two clocks the read looks at -/
  | read (q : Nat) (hlc : HlcTimestamp) (nowNanos : Int)
  | confirm (q : Nat)

/-- `RETRIES` -/
def retries : Nat := 3

namespace System

def init (tables : Text → TableSlot F) (visible : Nat) (security : SecurityCatalog F)
    (securityVersion : Nat) : System F where
  tables := tables
  visible := visible
  security := security
  securityVersion := securityVersion
  catalogOf := fun _ => security
  cache := ⟨[]⟩
  readers := fun _ => .idle

def setReader (s : System F) (q : Nat) (r : Reader F) : System F :=
  { s with readers := Function.update s.readers q r }

def applied (s : System F) (table : Text) (ops : List (StagedOp F)) : System F :=
  { s with tables := Function.update s.tables table ((s.tables table).apply ops) }

/-- `Table::snapshot` of a mounted table, unless the read names one. -/
def snapshotOf (s : System F) (request : Request) (hlc : HlcTimestamp) : Snapshot :=
  request.snapshotOverride.getD (.atHlc s.visible hlc)

def step (cost : CacheKey → List Nat → Nat) (s : System F) : Label F → Option (System F)
  | .apply table ops => some (s.applied table ops)
  | .publish epoch => some { s with visible := max s.visible epoch }
  | .changeSecurity security =>
    if s.securityVersion + 1 < 2 ^ 64 then
      some { s with
        security
        securityVersion := s.securityVersion + 1
        catalogOf := Function.update s.catalogOf (s.securityVersion + 1) security }
    else none
  | .start q request =>
    match s.readers q with
    | .idle => some (s.setReader q (.starting 0 request))
    | _ => none
  | .authorize q principal =>
    match s.readers q with
    | .starting attempt request =>
      some (s.setReader q (.authorizing attempt request s.security s.securityVersion principal))
    | _ => none
  | .read q hlc nowNanos =>
    match s.readers q with
    | .authorizing attempt request security securityVersion principal =>
      let slot := s.tables request.table
      let snapshot := s.snapshotOf request hlc
      match allowedRowIdsLocked cost s.cache request.table slot snapshot security securityVersion
        principal nowNanos with
      | .error _ => some (s.setReader q .failed)
      | .ok (allowed, cache) =>
        let rows := slot.table.visibleRowsAtTime snapshot nowNanos
        let answer := principal.bind fun p => allowed.map fun ids =>
          ⟨request.table, snapshot, securityVersion, p, ids, rows⟩
        some ({ s with cache }.setReader q (.reading attempt request securityVersion answer))
    | _ => none
  | .confirm q =>
    match s.readers q with
    | .reading attempt request securityVersion answer =>
      if s.securityVersion = securityVersion then some (s.setReader q (.returned answer))
      else if attempt + 1 = retries then some (s.setReader q .failed)
      else some (s.setReader q (.starting (attempt + 1) request))
    | _ => none

/-! ## Exactness -/

/-- The set is that of the rows visible at the read's snapshot that the policies of its security
version allow for its principal. -/
def Exact (s : System F) (a : Answer F) : Prop :=
  ∀ id, id ∈ a.allowed ↔
    id ∈ allowedIn (s.catalogOf a.securityVersion) a.table a.principal a.rows

/-- Where a read finds its key in the cache, it sees the same rows as the read that filled the
entry. -/
def SameView (s : System F) : Label F → Prop
  | .read q hlc nowNanos =>
    match s.readers q with
    | .authorizing _ request _ securityVersion (some p) =>
      let slot := s.tables request.table
      ∀ e ∈ s.cache.find (cacheKey request.table slot securityVersion p),
        slot.table.visibleRowsAtTime (s.snapshotOf request hlc) nowNanos =
          slot.table.visibleRowsAtTime e.snapshot e.nowNanos
    | _ => True
  | _ => True

/-- What an entry stands for, as long as its generation is the table's. -/
structure EntryOk (s : System F) (e : CacheEntry) : Prop where
  version : e.key.securityVersion ≤ s.securityVersion
  generation : e.key.dataGeneration ≤ (s.tables e.key.table).dataGeneration
  value : e.key.dataGeneration = (s.tables e.key.table).dataGeneration →
    ∀ p : Principal, p.key = e.key.principal →
      e.value = allowedIn (s.catalogOf e.key.securityVersion) e.key.table p
        ((s.tables e.key.table).table.visibleRowsAtTime e.snapshot e.nowNanos)

structure Inv (s : System F) : Prop where
  catalog : s.catalogOf s.securityVersion = s.security
  authorizing : ∀ q attempt request security v p,
    s.readers q = .authorizing attempt request security v p →
      v ≤ s.securityVersion ∧ s.catalogOf v = security
  answers : ∀ q a, (s.readers q).answer = some a → a.securityVersion ≤ s.securityVersion ∧ s.Exact a
  cache : ∀ e ∈ s.cache.entries, s.EntryOk e

variable {s s' : System F} {cost : CacheKey → List Nat → Nat} {l : Label F}

theorem init_inv (tables : Text → TableSlot F) (visible : Nat) (security : SecurityCatalog F)
    (securityVersion : Nat) : (init tables visible security securityVersion).Inv :=
  ⟨rfl, nofun, nofun, nofun⟩

omit [BEq F] in
theorem setReader_readers (s : System F) (q q' : Nat) (r : Reader F) :
    (s.setReader q r).readers q' = if q' = q then r else s.readers q' := by
  simp [setReader, Function.update_apply]

theorem Inv.setReader (h : s.Inv) {q : Nat} {r : Reader F}
    (hauthorizing : ∀ attempt request security v p,
      r = .authorizing attempt request security v p →
        v ≤ s.securityVersion ∧ s.catalogOf v = security)
    (hanswer : ∀ a, r.answer = some a → a.securityVersion ≤ s.securityVersion ∧ s.Exact a) :
    (s.setReader q r).Inv := by
  refine ⟨h.catalog, fun q' attempt request security v p hq => ?_, fun q' a ha => ?_, ?_⟩
  · rw [setReader_readers] at hq
    split at hq
    · exact hauthorizing _ _ _ _ _ hq
    · exact h.authorizing q' _ _ _ _ _ hq
  · rw [setReader_readers] at ha
    split at ha
    · exact hanswer a ha
    · exact h.answers q' a ha
  · exact fun e he => ⟨(h.cache e he).version, (h.cache e he).generation, (h.cache e he).value⟩

omit [BEq F] in
theorem applied_tables (s : System F) (table name : Text) (ops : List (StagedOp F)) :
    (s.applied table ops).tables name =
      if name = table then (s.tables table).apply ops else s.tables name := by
  simp [applied, Function.update_apply]

/-- A commit moves the generation of its table past every entry. -/
theorem Inv.apply (h : s.Inv) (table : Text) (ops : List (StagedOp F)) :
    (s.applied table ops).Inv := by
  refine ⟨h.catalog, h.authorizing, h.answers, fun e he => ?_⟩
  obtain ⟨hversion, hgeneration, hvalue⟩ := h.cache e he
  by_cases htable : e.key.table = table
  · subst htable
    have hslot : (s.applied e.key.table ops).tables e.key.table =
        (s.tables e.key.table).apply ops := by rw [applied_tables, if_pos rfl]
    refine ⟨hversion, ?_, ?_⟩
    · rw [hslot]
      exact Nat.le_add_right_of_le hgeneration
    · rw [hslot]
      intro heq
      have hsame : e.key.dataGeneration =
          (s.tables e.key.table).dataGeneration + ops.length := heq
      -- the generation is still the entry's only when nothing was applied
      obtain rfl : ops = [] := length_eq_zero_iff.mp (by omega)
      exact hvalue hsame
  · have hslot : (s.applied table ops).tables e.key.table = s.tables e.key.table := by
      rw [applied_tables, if_neg htable]
    refine ⟨hversion, ?_, ?_⟩
    · rw [hslot]
      exact hgeneration
    · rw [hslot]
      exact hvalue

/-- A new security version leaves the catalogs of the old ones as they were. -/
theorem Inv.changeSecurity (h : s.Inv) (security : SecurityCatalog F) :
    Inv { s with
      security
      securityVersion := s.securityVersion + 1
      catalogOf := Function.update s.catalogOf (s.securityVersion + 1) security } := by
  have hold : ∀ v ≤ s.securityVersion,
      (Function.update s.catalogOf (s.securityVersion + 1) security : Nat → SecurityCatalog F) v =
        s.catalogOf v :=
    fun v hv => Function.update_of_ne (by omega) _ _
  refine ⟨Function.update_self .., fun q attempt request sec v p hq => ?_, fun q a ha => ?_,
    fun e he => ?_⟩
  · obtain ⟨hv, hcatalog⟩ := h.authorizing q attempt request sec v p hq
    exact ⟨Nat.le_succ_of_le hv, (hold v hv).trans hcatalog⟩
  · obtain ⟨hv, hexact⟩ := h.answers q a ha
    refine ⟨Nat.le_succ_of_le hv, ?_⟩
    simp only [Exact, hold _ hv]
    exact hexact
  · obtain ⟨hversion, hgeneration, hvalue⟩ := h.cache e he
    refine ⟨Nat.le_succ_of_le hversion, hgeneration, ?_⟩
    simp only [hold _ hversion]
    exact hvalue

theorem allowedRowIdsLocked_spec {cache cache' : RlsCache} {name : Text} {slot : TableSlot F}
    {snapshot : Snapshot} {version : Nat}
    {principal : Option Principal} {now : Int} {allowed : Option (List Nat)}
    (h : allowedRowIdsLocked cost cache name slot snapshot security version principal now =
      .ok (allowed, cache')) :
    (allowed = none ∧ cache' = cache) ∨ ∃ p ids, principal = some p ∧ allowed = some ids ∧
      ((∃ e, cache.find (cacheKey name slot version p) = some e ∧ ids = e.value ∧
          cache' = cache.touch e) ∨
        ids = allowedIn security name p (slot.table.visibleRowsAtTime snapshot now) ∧
          cache' = cache.insert ⟨cacheKey name slot version p, ids,
            cost (cacheKey name slot version p) ids, snapshot, now⟩) := by
  simp only [allowedRowIdsLocked] at h
  split at h
  · cases h
    exact .inl ⟨rfl, rfl⟩
  · split at h
    · cases h
    next p =>
      split at h
      next e he =>
        cases h
        exact .inr ⟨p, _, rfl, rfl, .inl ⟨e, he, rfl, rfl⟩⟩
      · cases h
        exact .inr ⟨p, _, rfl, rfl, .inr ⟨rfl, rfl⟩⟩

theorem Inv.read (h : s.Inv) {q attempt version : Nat} {request : Request}
    {principal : Option Principal} {hlc : HlcTimestamp} {now : Int}
    (hreader : s.readers q = .authorizing attempt request security version principal)
    (hview : s.SameView (.read q hlc now)) {allowed : Option (List Nat)} {cache : RlsCache}
    (hallowed : allowedRowIdsLocked cost s.cache request.table (s.tables request.table)
      (s.snapshotOf request hlc) security version principal now = .ok (allowed, cache)) :
    (∀ e ∈ cache.entries, s.EntryOk e) ∧ ∀ p ids, principal = some p → allowed = some ids →
      ids = allowedIn security request.table p
        ((s.tables request.table).table.visibleRowsAtTime (s.snapshotOf request hlc) now) := by
  obtain ⟨hversion, hcatalog⟩ := h.authorizing q _ _ _ _ _ hreader
  rcases allowedRowIdsLocked_spec hallowed with
    ⟨rfl, rfl⟩ | ⟨p, ids, rfl, rfl, ⟨e, hfind, rfl, rfl⟩ | ⟨hids, rfl⟩⟩
  · exact ⟨h.cache, nofun⟩
  · -- a hit: the entry is good for the rows of its own snapshot, and these are the same
    obtain ⟨he, hkey⟩ := RlsCache.find_eq_some hfind
    refine ⟨fun x hx => h.cache x (RlsCache.mem_touch he hx), ?_⟩
    rintro _ _ ⟨⟩ ⟨⟩
    simp only [SameView, hreader] at hview
    rw [hview e hfind, ← hcatalog]
    have hvalue := (h.cache e he).value
    rw [hkey] at hvalue
    exact hvalue rfl p rfl
  · -- a miss
    constructor
    · intro x hx
      rcases RlsCache.mem_insert hx with hx | rfl
      · exact h.cache x hx
      · refine ⟨hversion, le_rfl, fun _ p' hp' => ?_⟩
        simp only [cacheKey, hcatalog, hids, allowedIn, SecurityCatalog.rowAllowed_congr hp']
    · rintro _ _ ⟨⟩ ⟨⟩
      exact hids

theorem Inv.step (h : s.Inv) (hview : s.SameView l) (hstep : s.step cost l = some s') : s'.Inv := by
  cases l with
  | apply table ops =>
    cases hstep
    exact h.apply table ops
  | publish epoch =>
    cases hstep
    exact ⟨h.catalog, h.authorizing, h.answers,
      fun e he => ⟨(h.cache e he).version, (h.cache e he).generation, (h.cache e he).value⟩⟩
  | changeSecurity security =>
    simp only [System.step] at hstep
    split at hstep <;> cases hstep
    exact h.changeSecurity security
  | start q request =>
    simp only [System.step] at hstep
    split at hstep <;> cases hstep
    exact h.setReader nofun nofun
  | authorize q principal =>
    simp only [System.step] at hstep
    split at hstep <;> cases hstep
    refine h.setReader ?_ nofun
    rintro _ _ _ _ _ ⟨⟩
    exact ⟨le_rfl, h.catalog⟩
  | read q hlc now =>
    simp only [System.step] at hstep
    split at hstep
    next attempt request security version principal hreader =>
      split at hstep
      · cases hstep
        exact h.setReader nofun nofun
      next allowed cache hallowed =>
        cases hstep
        obtain ⟨hcache, hexact⟩ := h.read hreader hview hallowed
        obtain ⟨hversion, hcatalog⟩ := h.authorizing q _ _ _ _ _ hreader
        have hinv : Inv { s with cache } := ⟨h.catalog, h.authorizing, h.answers,
          fun e he => ⟨(hcache e he).version, (hcache e he).generation, (hcache e he).value⟩⟩
        refine hinv.setReader nofun fun a ha => ?_
        obtain ⟨p, hp, ha⟩ := Option.bind_eq_some_iff.mp ha
        obtain ⟨ids, hids, rfl⟩ := Option.map_eq_some_iff.mp ha
        refine ⟨hversion, fun id => ?_⟩
        rw [hexact p ids hp hids]
        show _ ↔ id ∈ allowedIn (s.catalogOf version) request.table p _
        rw [hcatalog]
    · cases hstep
  | confirm q =>
    simp only [System.step] at hstep
    split at hstep
    next attempt request version answer hreader =>
      split at hstep
      · cases hstep
        refine h.setReader nofun fun a ha => h.answers q a ?_
        rw [hreader]
        exact ha
      · split at hstep <;> cases hstep
        · exact h.setReader nofun nofun
        · exact h.setReader nofun nofun
    · cases hstep

instance [DecidableEq F] (s : System F) (l : Label F) : Decidable (s.SameView l) := by
  unfold SameView
  split
  · split <;> infer_instance
  · infer_instance

end System

/-- Every set that is handed to a read is exact. -/
theorem handed_exact (cost : CacheKey → List Nat → Nat) (tables : Text → TableSlot F)
    (visible : Nat) (security : SecurityCatalog F) (securityVersion : Nat) {s : System F}
    (h : Reachable (System.step cost) System.SameView
      (System.init tables visible security securityVersion) s) (q : Nat) (a : Answer F)
    (ha : (s.readers q).answer = some a) : s.Exact a :=
  have hinv : s.Inv := h.invariant (System.init_inv tables visible security securityVersion)
    fun _ _ _ hinv hview hstep => hinv.step hview hstep
  (hinv.answers q a ha).2

theorem rowId_of_mem_allowedIn {name : Text} {p : Principal}
    {rows : List (Row F)} {id : Nat} (h : id ∈ allowedIn security name p rows) :
    id ∈ rows.map Row.rowId :=
  (filter_sublist.map _).subset h

end

/-! ## Two runs -/

/-- Notes are read by the user named in their column 0. -/
def notes : SecurityCatalog Unit where
  rlsTables := [[110]]
  policies := [⟨[111], [110], .select, [], true, some (.columnEqCurrentUser 0), none⟩]

def alice : Principal := ⟨1, 1, [97], false, []⟩

def stampAt (epoch : Nat) : Stamp := ⟨epoch, some ⟨epoch, 0, 0⟩⟩

def noteOf (rowId epoch : Nat) : Row Unit :=
  ⟨rowId, epoch, [(0, .bytes alice.username)], false, (stampAt epoch).commitTs⟩

def emptyNotes : System Unit :=
  .init (fun _ => ⟨.new [⟨0, .bytes⟩] none, 0⟩) 0 notes 0

/-- A read of the notes by one reader. -/
def readNotes (q micros : Nat) (snapshotOverride : Option Snapshot) : List (Label Unit) :=
  [.start q ⟨[110], snapshotOverride⟩, .authorize q (some alice), .read q ⟨micros, 0, 0⟩ 0,
    .confirm q]

/-- A commit between two reads, and a third read from the cache. -/
theorem current_reads_exact :
    ∃ s, Reachable (System.step fun _ ids => ids.length) System.SameView emptyNotes s ∧
      ∃ a ∈ (s.readers 2).answer, a.allowed = [2] ∧ s.Exact a := by
  obtain ⟨s, hs, a, ha, hallowed⟩ := exists_reachable_of_execute
    (System.step fun _ ids => ids.length) System.SameView emptyNotes
    (fun s => ∃ a ∈ (s.readers 2).answer, a.allowed = [2])
    (.apply [110] [.put [noteOf 1 1]] :: .publish 1 :: readNotes 0 2 none ++
      .apply [110] [.delete 1 (stampAt 3), .put [noteOf 2 3]] :: .publish 3 ::
        readNotes 1 4 none ++ readNotes 2 5 none)
    (by decide +kernel)
  exact ⟨s, hs, a, ha, hallowed, handed_exact _ _ _ _ _ hs 2 a ha⟩

/-- A read at an older snapshot is handed the set of the current one: note 1, which it sees, is
not in it, and note 2, which it does not, is. -/
theorem older_snapshot_handed_newer_set :
    ∃ s, Reachable (System.step fun _ ids => ids.length) anyStep emptyNotes s ∧
      ∃ q a, (s.readers q).answer = some a ∧ ¬ s.Exact a := by
  obtain ⟨s, hs, a, ha, hallowed, hrows⟩ := exists_reachable_of_execute
    (System.step fun _ ids => ids.length) anyStep emptyNotes
    (fun s => ∃ a ∈ (s.readers 1).answer, a.allowed = [2] ∧ a.rows.map Row.rowId = [1])
    (.apply [110] [.put [noteOf 1 1]] :: .publish 1 ::
      .apply [110] [.delete 1 (stampAt 3), .put [noteOf 2 3]] :: .publish 3 ::
        readNotes 0 4 none ++ readNotes 1 5 (some (.atHlc 1 ⟨2, 0, 0⟩)))
    (by decide +kernel)
  refine ⟨s, hs, 1, a, ha, fun hexact => ?_⟩
  have hmem : 2 ∈ a.allowed := by rw [hallowed]; decide
  have hvisible := rowId_of_mem_allowedIn ((hexact 2).mp hmem)
  rw [hrows] at hvisible
  exact absurd hvisible (by decide)

end MongrelDB.Security
