import MongrelDB.Lib.Records
import MongrelDB.Lib.Transition
import MongrelDB.Meta.State

/-!
# References between meta records

A table names its database, a tablet its table, a schema job both, and the replicas of
tablets and placements name nodes.
-/

namespace MongrelDB.Meta

open Lib
open Epoch (HlcTimestamp)
open Tablets (NodeId DatabaseId TableId RaftGroupId TabletId CommandId
  ReplicaDescriptor TabletDescriptor TabletRecord)

/-- A command of the meta group's log. -/
structure Entry where
  command : MetaCommand
  commandId : Option CommandId
  commitTs : HlcTimestamp
  deriving DecidableEq, Repr

namespace MetaState

/-- Every name resolves. -/
structure Linked (st : MetaState) : Prop where
  tables : Every st.tables fun t => t.databaseId ∈ st.databases
  tablets : Every st.tablets fun t => t.descriptor.tableId ∈ st.tables
  jobs : Every st.schemaJobs fun j => j.databaseId ∈ st.databases ∧ j.tableId ∈ st.tables
  placed : Every st.placements fun p => ∀ r ∈ p.replicas, r.nodeId ∈ st.nodes
  hosted : Every st.tablets fun t => ∀ r ∈ t.descriptor.replicas, r.nodeId ∈ st.nodes

/-- The command does not take the two ways around the checks, even if it is refused. -/
def Spared (st : MetaState) (entry : Entry) : Prop :=
  match entry.command with
  | .tablet (.setTabletDescriptor d) => ∀ r ∈ d.replicas, r.nodeId ∈ st.nodes
  | .dropDatabase id => Every st.schemaJobs fun j => j.databaseId ≠ id
  | _ => True

instance (st : MetaState) (entry : Entry) : Decidable (st.Spared entry) := by
  unfold Spared
  split <;> infer_instance

def step (registry : FeatureRegistry) (st : MetaState) (entry : Entry) : Option MetaState :=
  some (st.apply entry.command entry.commandId entry.commitTs registry).1

namespace Linked

variable {st : MetaState}

theorem withNodes (h : st.Linked) {nodes : Std.TreeMap NodeId NodeRecord}
    (hnodes : ∀ id, st.References id → id ∈ st.nodes → id ∈ nodes) :
    Linked { st with nodes } := by
  refine ⟨h.tables, h.tablets, h.jobs, ?_, ?_⟩
  · intro group placement hplacement r hr
    refine hnodes r.nodeId (.inl ⟨(group, placement), ?_, r, hr, rfl⟩)
      (h.placed group placement hplacement r hr)
    exact Std.TreeMap.mem_toList_iff_getElem?_eq_some.mpr hplacement
  · intro id record hrecord r hr
    refine hnodes r.nodeId (.inr ⟨(id, record), ?_, .inl ⟨r, hr, rfl⟩⟩)
      (h.hosted id record hrecord r hr)
    exact Std.TreeMap.mem_toList_iff_getElem?_eq_some.mpr hrecord

theorem withDatabases (h : st.Linked) {databases : Std.TreeMap DatabaseId DatabaseDescriptor}
    (hdbs : ∀ id, (∃ (t : TableId) (record : TableSchemaRecord),
        st.tables[t]? = some record ∧ record.databaseId = id) ∨
        (∃ (j : Nat) (job : SchemaJobRecord), st.schemaJobs[j]? = some job ∧ job.databaseId = id) →
      id ∈ st.databases → id ∈ databases) :
    Linked { st with databases } := by
  refine ⟨?_, h.tablets, ?_, h.placed, h.hosted⟩
  · intro t record hrecord
    exact hdbs _ (.inl ⟨t, record, hrecord, rfl⟩) (h.tables t record hrecord)
  · intro j job hjob
    exact ⟨hdbs _ (.inr ⟨j, job, hjob, rfl⟩) (h.jobs j job hjob).1, (h.jobs j job hjob).2⟩

theorem putTable (h : st.Linked) {record : TableSchemaRecord} {version : Nat}
    (hdb : record.databaseId ∈ st.databases) : (st.putTable record version).Linked := by
  refine ⟨h.tables.insert hdb, h.tablets.mono fun _ => mem_insert_of_mem, ?_, h.placed, h.hosted⟩
  exact h.jobs.mono fun _ hjob => ⟨hjob.1, mem_insert_of_mem hjob.2⟩

variable {entry : Entry}

theorem newTablet_hosted (h : st.Linked) {command : Tablets.MetaCommand}
    (hcommand : entry.command = .tablet command) (hspared : st.Spared entry) {id : TabletId}
    {d : TabletDescriptor} (hnew : st.NewTablet command id d) :
    ∀ r ∈ d.replicas, r.nodeId ∈ st.nodes := by
  rcases hnew.nodes with rfl | ⟨old, hold, hnodes⟩
  · simpa only [Spared, hcommand] using hspared
  · -- the nodes are those of the descriptor it replaces
    intro r hr
    obtain ⟨record, hrecord, rfl⟩ := Option.map_eq_some_iff.mp hold
    have hmem : r.nodeId ∈ record.descriptor.replicas.map (·.nodeId) :=
      hnodes ▸ List.mem_map_of_mem hr
    obtain ⟨r', hr', heq⟩ := List.mem_map.mp hmem
    exact heq ▸ h.hosted id record hrecord r' hr'

theorem writes (h : st.Linked) {st' : MetaState} (hspared : st.Spared entry)
    (hwrites : st.Writes entry.command st') : st'.Linked := by
  obtain ⟨command, commandId, commitTs⟩ := entry
  cases hwrites with
  | nothing => exact h
  | node hid hfree => exact h.withNodes fun id _ => mem_insert_of_mem
  | nodeState hrecord hlive => exact h.withNodes fun id _ => mem_insert_of_mem
  | noNode hfree =>
    refine h.withNodes fun id hreferences hmem => mem_erase_of_ne hmem ?_
    rintro rfl
    exact hfree hreferences
  | database => exact h.withDatabases fun id _ => mem_insert_of_mem
  | noDatabase hempty =>
    refine h.withDatabases fun id hnamed hmem => mem_erase_of_ne hmem ?_
    rintro rfl
    rcases hnamed with ⟨t, record, hrecord, hid⟩ | ⟨j, job, hjob, hid⟩
    · exact hempty t record hrecord hid
    · exact hspared j job hjob hid
  | table hdb => exact h.putTable hdb
  | tablets hnew =>
    refine ⟨h.tables, ?_, h.jobs, h.placed, ?_⟩
    · intro id record hrecord
      rcases hnew id record hrecord with hold | hnew
      · exact h.tablets id record hold
      · exact hnew.table
    · intro id record hrecord
      rcases hnew id record hrecord with hold | hnew
      · exact h.hosted id record hold
      · exact h.newTablet_hosted rfl hspared hnew
  | placement hnodes => exact ⟨h.tables, h.tablets, h.jobs, h.placed.insert hnodes, h.hosted⟩
  | policy => exact ⟨h.tables, h.tablets, h.jobs, h.placed, h.hosted⟩
  | job hdb htable _ =>
    exact ⟨h.tables, h.tablets, h.jobs.insert ⟨hdb, htable⟩, h.placed, h.hosted⟩
  | jobState hrecord _ =>
    -- a job keeps its database and its table
    have hjob := h.jobs _ _ hrecord
    exact ⟨h.tables, h.tablets, h.jobs.insert hjob, h.placed, h.hosted⟩
  | setting | feature | partition | raftIds =>
    exact ⟨h.tables, h.tablets, h.jobs, h.placed, h.hosted⟩

theorem apply (h : st.Linked) (hspared : st.Spared entry) (registry : FeatureRegistry) :
    (st.apply entry.command entry.commandId entry.commitTs registry).1.Linked := by
  obtain ⟨st', rejections, hwrites, heq⟩ :=
    st.apply_writes entry.command entry.commandId entry.commitTs registry
  rw [heq]
  have h' : Linked { st with metadataVersion := st.metadataVersion + 1 } :=
    ⟨h.tables, h.tablets, h.jobs, h.placed, h.hosted⟩
  have hlinked : st'.Linked := h'.writes hspared hwrites
  exact ⟨hlinked.tables, hlinked.tablets, hlinked.jobs, hlinked.placed, hlinked.hosted⟩

end Linked

theorem linked_of_reachable (registry : FeatureRegistry) {st : MetaState}
    (h : Reachable (step registry) Spared {} st) : st.Linked := by
  refine h.invariant ⟨.empty, .empty, .empty, .empty, .empty⟩ ?_
  intro st entry st' hst hspared hstep
  cases hstep
  exact hst.apply hspared registry

end MetaState

/-! ## Two runs -/

def NodeDescriptor.bare (id : NodeId) (state : NodeState) : NodeDescriptor :=
  { nodeId := id
    rpcAddress := ""
    locality := []
    capacity := ⟨0, 0, 0⟩
    state := state
    version := ⟨"", none⟩
    versionInfo := ⟨"", 0, 0, 0, 0, 0, 0, []⟩ }

def Entry.unnamed (command : MetaCommand) : Entry := ⟨command, none, .zero⟩

/-- Database 1 with table 1, and database 2. -/
def twoDatabases : List Entry :=
  [.unnamed (.createDatabase ⟨1, "a", .zero, .online, 0⟩),
    .unnamed (.createDatabase ⟨2, "b", .zero, .online, 0⟩),
    .unnamed (.setTableSchema ⟨1, 1, 1, "", 0⟩)]

/-- Tablet 1 of table 1, all keys, one replica. -/
def tabletOn (node : NodeId) : TabletDescriptor :=
  { tabletId := 1
    tableId := 1
    databaseId := 1
    raftGroupId := 1
    partition := ⟨.unbounded, .unbounded⟩
    replicas := [⟨node, .voter, 7⟩]
    leaderHint := none
    generation := 1
    state := .active }

/-- A job of database 2 on the table of database 1. -/
def crossJob : SchemaJobRecord :=
  ⟨1, 2, 1, .indexBuild, .pending, .zero, .zero, none, 0⟩

/-- A node that hosts a replica is not removed, nor a database that holds a table dropped. -/
theorem hosted_node_linked :
    ∃ st, Reachable (MetaState.step []) MetaState.Spared {} st ∧
      1 ∈ st.nodes ∧ 1 ∈ st.databases ∧ 2 ∉ st.databases ∧ st.Linked := by
  obtain ⟨st, hreach, hnode, hdb, hdropped⟩ := exists_reachable_of_execute
    (MetaState.step []) MetaState.Spared {}
    (fun st => 1 ∈ st.nodes ∧ 1 ∈ st.databases ∧ 2 ∉ st.databases)
    (twoDatabases ++
      [.unnamed (.registerNode (.bare 1 .up)),
        .unnamed (.tablet (.setTabletDescriptor (tabletOn 1))),
        .unnamed (.removeNode 1), .unnamed (.dropDatabase 1), .unnamed (.dropDatabase 2)])
    (by decide +kernel)
  exact ⟨st, hreach, hnode, hdb, hdropped, MetaState.linked_of_reachable [] hreach⟩

/-- A tablet on a node nobody has registered, and a job whose database is gone. -/
theorem names_left_dangling :
    (∃ st, Reachable (MetaState.step []) anyStep {} st ∧
      ¬ Every st.tablets fun t => ∀ r ∈ t.descriptor.replicas, r.nodeId ∈ st.nodes) ∧
    ∃ st, Reachable (MetaState.step []) anyStep {} st ∧
      ¬ Every st.schemaJobs fun j => j.databaseId ∈ st.databases :=
  ⟨exists_reachable_of_execute _ anyStep _ _
      (twoDatabases ++ [.unnamed (.tablet (.setTabletDescriptor (tabletOn 9)))])
      (by decide +kernel),
    exists_reachable_of_execute _ anyStep _ _
      (twoDatabases ++ [.unnamed (.submitSchemaJob crossJob), .unnamed (.dropDatabase 2)])
      (by decide +kernel)⟩

end MongrelDB.Meta
