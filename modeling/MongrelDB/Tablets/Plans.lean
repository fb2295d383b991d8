import MongrelDB.Tablets.Executor

/-!
# Split and merge plans

A plan fixes everything an executor will do: the source descriptors as they were when
the plan was made, the new tablets, and the timestamp of the snapshot the new tablets
are built from.
-/

namespace MongrelDB.Tablets

open Lib
open Epoch (HlcTimestamp)
open List

/-- A child of a split, or the replacement of a merge. -/
structure ChildPlan where
  bounds : PartitionBounds Key
  /-- Of the child's layout. -/
  tabletId : TabletId
  raftGroupId : RaftGroupId
  replicas : List ReplicaDescriptor
  deriving DecidableEq, Repr

def ChildPlan.descriptor (child : ChildPlan) (tableId : TableId) (generation : Nat)
    (state : TabletState) (role : ReplicaRole) : TabletDescriptor where
  tabletId := child.tabletId
  tableId := tableId
  databaseId := 0
  raftGroupId := child.raftGroupId
  partition := child.bounds
  replicas := child.replicas.map fun replica => { replica with role }
  leaderHint := none
  generation := generation
  state := state

/-- A child on its publication: `Creating` to `Active`, learners to voters. -/
def publishChild (d : TabletDescriptor) : Except TabletError TabletDescriptor := do
  let published ← d.publishedTransition .active
  return published.promoted

/-! ## Split -/

structure SplitPlan where
  /-- As it was at initiation. -/
  source : TabletDescriptor
  /-- Lower half first. -/
  children : ChildPlan × ChildPlan
  splitKey : Key
  splitTs : HlcTimestamp
  deriving DecidableEq, Repr

namespace SplitPlan

/-- The children as created: hidden, all replicas learners. -/
def childDescriptors (plan : SplitPlan) : Except SplitError (TabletDescriptor × TabletDescriptor) :=
  do
    let generation ← orElseFail (checkedAdd plan.source.generation 1) .generationOverflow
    let create := fun child : ChildPlan =>
      child.descriptor plan.source.tableId generation .creating .learner
    return (create plan.children.1, create plan.children.2)

def validate (plan : SplitPlan) : Except SplitError Unit := do
  plan.source.validate.mapError .tablet
  let halves ← orElseFail (plan.source.partition.splitAt plan.splitKey)
    (.invalidSplitKey plan.splitKey)
  ensure (plan.children.1.bounds = halves.1 ∧ plan.children.2.bounds = halves.2) .planBounds
  ensure (plan.children.1.tabletId ≠ plan.children.2.tabletId) .childIdsNotDistinct
  ensure (plan.children.1.tabletId ≠ plan.source.tabletId ∧
    plan.children.2.tabletId ≠ plan.source.tabletId) .childIsSource
  ensure (plan.children.1.raftGroupId ≠ plan.source.raftGroupId ∧
    plan.children.2.raftGroupId ≠ plan.source.raftGroupId) .childGroupIsSource
  let children ← plan.childDescriptors
  children.1.validate.mapError .tablet
  children.2.validate.mapError .tablet

end SplitPlan

/-- `SplitPublishCommand::from_plan` -/
def SplitPublishCommand.fromPlan (plan : SplitPlan) : Except SplitError SplitPublishCommand := do
  let marked ← (plan.source.publishedTransition .splitting).mapError .tablet
  let source ← (marked.publishedTransition .retiring).mapError .tablet
  let children ← plan.childDescriptors
  let lower ← (publishChild children.1).mapError .tablet
  let upper ← (publishChild children.2).mapError .tablet
  let command : SplitPublishCommand :=
    { source, children := (lower, upper), splitKey := plan.splitKey, splitTs := plan.splitTs }
  command.validate
  return command

/-- The steps of `SplitExecutor::step` by phase, and of `abort_split`. -/
def splitProtocol (plan : SplitPlan) : Protocol where
  ops
    -- `mark_source_splitting`
    | .started => [.set (plan.source.publishedTransition .splitting).toOption]
    -- `create_children`
    | .marked =>
      [.set (plan.childDescriptors.toOption.map (·.1)),
        .set (plan.childDescriptors.toOption.map (·.2))]
    -- `pin_source_snapshot`
    | .created => []
    -- `build_children`
    | .pinned => [.beginBuild, .stageSnapshot, .install 0, .install 1]
    -- `catch_up_children`
    | .built => [.readDeltas, .applyDeltas]
    -- `publish_children`
    | .caughtUp => [.publish ((SplitPublishCommand.fromPlan plan).toOption.map .split)]
    -- `remove_source`
    | .published =>
      [.retire plan.source.tabletId, .remove plan.source.tabletId, .dropRecord]
    | .retired => []
  abort := some
    [.remove plan.children.1.tabletId, .remove plan.children.2.tabletId,
      .restore plan.source.tabletId, .dropRecord]

def splitShift (plan : SplitPlan) : Shift where
  table := plan.source.tableId
  olds := [(plan.source.tabletId, plan.source.partition)]
  news := [(plan.children.1.tabletId, plan.children.1.bounds),
    (plan.children.2.tabletId, plan.children.2.bounds)]

/-! ## Merge -/

structure MergePlan where
  /-- As they were at initiation, lower half first. -/
  sources : TabletDescriptor × TabletDescriptor
  replacement : ChildPlan
  mergeTs : HlcTimestamp
  deriving DecidableEq, Repr

namespace MergePlan

def maxGeneration (plan : MergePlan) : Nat :=
  max plan.sources.1.generation plan.sources.2.generation

/-- The replacement as created: hidden, all replicas learners. -/
def replacementDescriptor (plan : MergePlan) : Except MergeError TabletDescriptor := do
  let generation ← orElseFail (checkedAdd plan.maxGeneration 1) .generationOverflow
  return plan.replacement.descriptor plan.sources.1.tableId generation .creating .learner

def publishGeneration (plan : MergePlan) : Except MergeError Nat :=
  orElseFail (checkedAdd plan.maxGeneration 2) .generationOverflow

def validate (plan : MergePlan) : Except MergeError Unit := do
  plan.sources.1.validate.mapError .tablet
  plan.sources.2.validate.mapError .tablet
  ensure (plan.sources.1.partition.meetsStartOf plan.sources.2.partition = true) .notOrdered
  let union ← orElseFail (plan.sources.1.partition.unionAdjacent plan.sources.2.partition)
    .notAdjacent
  ensure (plan.replacement.bounds = union) .planBounds
  ensure (plan.sources.1.tabletId ≠ plan.sources.2.tabletId ∧
    (plan.sources.1.tabletId ≠ plan.replacement.tabletId ∧
      plan.sources.2.tabletId ≠ plan.replacement.tabletId) ∧
    plan.sources.1.raftGroupId ≠ plan.sources.2.raftGroupId ∧
    plan.sources.1.raftGroupId ≠ plan.replacement.raftGroupId ∧
    plan.sources.2.raftGroupId ≠ plan.replacement.raftGroupId) .planIdsNotDistinct
  let replacement ← plan.replacementDescriptor
  replacement.validate.mapError .tablet

end MergePlan

/-- One source on its publication, at the command-wide generation. -/
def retireMergeSource (source : TabletDescriptor) (publishGeneration : Nat) :
    Except TabletError TabletDescriptor := do
  let marked ← source.publishedTransition .merging
  let retiring ← marked.publishedTransition .retiring
  return { retiring with generation := publishGeneration }

/-- `MergePublishCommand::from_plan` -/
def MergePublishCommand.fromPlan (plan : MergePlan) : Except MergeError MergePublishCommand := do
  let publishGeneration ← plan.publishGeneration
  let lower ← (retireMergeSource plan.sources.1 publishGeneration).mapError .tablet
  let upper ← (retireMergeSource plan.sources.2 publishGeneration).mapError .tablet
  let created ← plan.replacementDescriptor
  let replacement ← (publishChild created).mapError .tablet
  let command : MergePublishCommand :=
    { sources := (lower, upper), replacement, mergeTs := plan.mergeTs }
  command.validate
  return command

/-- The steps of `MergeExecutor::step` by phase. There is no abort. -/
def mergeProtocol (plan : MergePlan) : Protocol where
  ops
    -- `mark_sources_merging`
    | .started =>
      [.set (plan.sources.1.publishedTransition .merging).toOption,
        .set (plan.sources.2.publishedTransition .merging).toOption]
    -- `create_replacement`
    | .marked => [.set plan.replacementDescriptor.toOption]
    -- `pin_source_snapshots`
    | .created => []
    -- `build_replacement`
    | .pinned => [.beginBuild, .stageSnapshot, .install 0]
    -- `catch_up_replacement`
    | .built => [.readDeltas, .applyDeltas]
    -- `publish_replacement`
    | .caughtUp => [.publish ((MergePublishCommand.fromPlan plan).toOption.map .merge)]
    -- `remove_sources`
    | .published =>
      [.retire plan.sources.1.tabletId, .remove plan.sources.1.tabletId,
        .retire plan.sources.2.tabletId, .remove plan.sources.2.tabletId, .dropRecord]
    | .retired => []
  abort := none

def mergeShift (plan : MergePlan) : Shift where
  table := plan.sources.1.tableId
  olds := [(plan.sources.1.tabletId, plan.sources.1.partition),
    (plan.sources.2.tabletId, plan.sources.2.partition)]
  news := [(plan.replacement.tabletId, plan.replacement.bounds)]

/-! ## The executors keep to their plan -/

theorem publishChild_spec {d d' : TabletDescriptor} (h : publishChild d = .ok d') :
    d'.tabletId = d.tabletId ∧ d'.tableId = d.tableId ∧ d'.partition = d.partition ∧
      d'.state = .active := by
  simp only [publishChild, bind_eq_ok] at h
  obtain ⟨published, hpublished, hret⟩ := h
  obtain ⟨-, rfl⟩ := TabletDescriptor.publishedTransition_spec hpublished
  cases hret
  exact ⟨rfl, rfl, rfl, rfl⟩

variable {plan : SplitPlan}

theorem SplitPlan.childDescriptors_spec
    {children : TabletDescriptor × TabletDescriptor} (h : plan.childDescriptors = .ok children) :
    ∃ generation,
      children.1 = plan.children.1.descriptor plan.source.tableId generation .creating .learner ∧
      children.2 =
        plan.children.2.descriptor plan.source.tableId generation .creating .learner := by
  simp only [childDescriptors, bind_eq_ok] at h
  obtain ⟨generation, -, hret⟩ := h
  cases hret
  exact ⟨generation, rfl, rfl⟩

theorem SplitPlan.validate_spec (h : plan.validate = .ok ()) :
    plan.source.partition.splitAt plan.splitKey =
        some (plan.children.1.bounds, plan.children.2.bounds) ∧
      plan.children.1.tabletId ≠ plan.children.2.tabletId ∧
      plan.children.1.tabletId ≠ plan.source.tabletId ∧
      plan.children.2.tabletId ≠ plan.source.tabletId := by
  simp only [validate, bind_eq_ok, orElseFail_eq_ok, ensure_eq_ok] at h
  obtain ⟨_, -, ⟨lower, upper⟩, hsplit, _, ⟨hlower, hupper⟩, _, hids, _, ⟨h1, h2⟩, -⟩ := h
  exact ⟨by rw [hsplit, hlower, hupper], hids, h1, h2⟩

theorem splitShift_lawful (h : plan.validate = .ok ()) :
    (splitShift plan).Lawful := by
  obtain ⟨hsplit, hids, h1, h2⟩ := SplitPlan.validate_spec h
  refine ⟨cons_ne_nil _ _, ?_, fun key => ?_, fun key => ?_, fun key => ?_⟩
  · simp [splitShift, Shift.ids, hids, h1, h2]
  · simpa [splitShift] using (PartitionBounds.splitAt_contains hsplit key).symm
  · simp [splitShift]
  · exact PartitionBounds.eq_of_apart (PartitionBounds.splitAt_disjoint hsplit key)

theorem after_of_publication {S : Shift} {st₀ st : MetaState} {p : Publication}
    (hids : (p.news ++ p.olds).map (·.tabletId) = S.ids)
    (hnew : ∀ n ∈ S.news, ∃ d ∈ p.news, S.Serves n d)
    (hold : ∀ o ∈ S.olds, ∃ d ∈ p.olds, d.tabletId = o.1 ∧ d.state.isRoutable = false)
    (hside : S.Before st₀ st ∨ S.After st₀ st) (hok : (st.propose p.command).2 = true) :
    S.After st₀ (st.propose p.command).1 := by
  obtain ⟨hstored, helse⟩ := (propose_publication st p).1 hok
  have hbefore : S.Elsewhere st₀ st := hside.elim (·.elsewhere) (·.elsewhere)
  refine ⟨fun id hid => ?_, fun o ho d hd => ?_, fun n hn => ?_⟩
  · rw [helse id (by rwa [hids])]
    exact hbefore id hid
  · obtain ⟨d', hd', hfiled, hidle⟩ := hold o ho
    have hstored' := hstored d' (mem_append_right _ hd')
    rw [hfiled, hd] at hstored'
    cases hstored'
    exact ⟨hfiled, hidle⟩
  · obtain ⟨d, hd, hserves⟩ := hnew n hn
    have hstored' := hstored d (mem_append_left _ hd)
    rw [hserves.filed] at hstored'
    exact ⟨d, hstored', hserves⟩

theorem keeps_before_mark {S : Shift} {st₀ : MetaState} (hS : S.Lawful) {source : TabletDescriptor}
    {state : TabletState} (hmem : (source.tabletId, source.partition) ∈ S.olds)
    (htable : source.tableId = S.table) (hstate : state.isRoutable = true) :
    (Op.set (source.publishedTransition state).toOption).Keeps (S.Before st₀) := by
  refine keeps_before_set_old hS hmem fun d hd => ?_
  obtain ⟨-, rfl⟩ := TabletDescriptor.publishedTransition_spec (toOption_eq_some.mp hd)
  exact ⟨rfl, htable, hstate, rfl⟩

theorem SplitPublishCommand.fromPlan_spec {command : SplitPublishCommand}
    (h : SplitPublishCommand.fromPlan plan = .ok command) :
    command.source.tabletId = plan.source.tabletId ∧ command.source.state = .retiring ∧
      (splitShift plan).Serves (plan.children.1.tabletId, plan.children.1.bounds)
        command.children.1 ∧
      (splitShift plan).Serves (plan.children.2.tabletId, plan.children.2.bounds)
        command.children.2 := by
  simp only [fromPlan, bind_eq_ok, mapError_eq_ok] at h
  obtain ⟨marked, hmarked, source, hsource, children, hchildren, lower, hlower, upper, hupper, _,
    -, hret⟩ := h
  cases hret
  obtain ⟨-, rfl⟩ := TabletDescriptor.publishedTransition_spec hmarked
  obtain ⟨-, rfl⟩ := TabletDescriptor.publishedTransition_spec hsource
  obtain ⟨generation, hc₁, hc₂⟩ := SplitPlan.childDescriptors_spec hchildren
  obtain ⟨hid₁, htable₁, hpart₁, hstate₁⟩ := publishChild_spec hlower
  obtain ⟨hid₂, htable₂, hpart₂, hstate₂⟩ := publishChild_spec hupper
  rw [hc₁] at hid₁ htable₁ hpart₁
  rw [hc₂] at hid₂ htable₂ hpart₂
  exact ⟨rfl, rfl, ⟨hid₁, htable₁, by rw [hstate₁]; rfl, hpart₁⟩,
    ⟨hid₂, htable₂, by rw [hstate₂]; rfl, hpart₂⟩⟩

theorem splitProtocol_follows (h : plan.validate = .ok ())
    (st₀ : MetaState) : (splitProtocol plan).Follows (splitShift plan) st₀ := by
  have hS := splitShift_lawful h
  refine ⟨?_, ?_, ?_, ?_⟩
  · intro phase hphase op hop
    cases phase with
    | caughtUp | published | retired => cases hphase
    | created => cases hop
    | started =>
      obtain rfl := mem_singleton.mp hop
      exact keeps_before_mark hS mem_cons_self rfl rfl
    | marked =>
      simp only [splitProtocol, mem_cons, not_mem_nil, or_false] at hop
      rcases hop with rfl | rfl <;>
      · refine keeps_before_set_new hS fun d hd => ?_
        obtain ⟨children, hchildren, rfl⟩ := Option.map_eq_some_iff.mp hd
        obtain ⟨generation, hlower, hupper⟩ := SplitPlan.childDescriptors_spec
          (toOption_eq_some.mp hchildren)
        simp [hlower, hupper, splitShift, ChildPlan.descriptor, TabletState.isRoutable]
    | pinned =>
      simp only [splitProtocol, mem_cons, not_mem_nil, or_false] at hop
      rcases hop with rfl | rfl | rfl | rfl <;> exact fun _ hst => hst
    | built =>
      simp only [splitProtocol, mem_cons, not_mem_nil, or_false] at hop
      rcases hop with rfl | rfl <;> exact fun _ hst => hst
  · refine ⟨_, rfl, fun st hside hok => ?_⟩
    cases hcommand : SplitPublishCommand.fromPlan plan with
    | error e =>
      rw [hcommand] at hok
      cases hok
    | ok command =>
      rw [hcommand] at hok
      obtain ⟨hid, hstate, hlower, hupper⟩ := SplitPublishCommand.fromPlan_spec hcommand
      refine after_of_publication ?_ ?_ ?_ hside hok
      · simp [Publication.news, Publication.olds, Shift.ids, splitShift, hid, hlower.filed,
          hupper.filed]
      · simp only [splitShift, mem_cons, not_mem_nil, or_false]
        rintro n (rfl | rfl)
        · exact ⟨command.children.1, mem_cons_self, hlower⟩
        · exact ⟨command.children.2, mem_cons_of_mem _ mem_cons_self, hupper⟩
      · intro o ho
        obtain rfl := mem_singleton.mp ho
        exact ⟨command.source, mem_cons_self, hid, by rw [hstate]; rfl⟩
  · intro op hop
    simp only [splitProtocol, mem_cons, not_mem_nil, or_false] at hop
    rcases hop with rfl | rfl | rfl
    · exact keeps_after_retire (o := (plan.source.tabletId, plan.source.partition)) hS
        mem_cons_self
    · exact keeps_after_remove hS mem_cons_self
    · exact fun _ hst => hst
  · rintro ops ⟨⟩ op hop
    simp only [mem_cons, not_mem_nil, or_false] at hop
    rcases hop with rfl | rfl | rfl | rfl
    · exact keeps_before_remove hS mem_cons_self
    · exact keeps_before_remove hS (mem_cons_of_mem _ mem_cons_self)
    · exact keeps_before_restore (o := (plan.source.tabletId, plan.source.partition)) hS
        mem_cons_self
    · exact fun _ hst => hst

theorem MergePlan.validate_spec {plan : MergePlan} (h : plan.validate = .ok ()) :
    plan.sources.1.partition.validate = .ok () ∧ plan.sources.2.partition.validate = .ok () ∧
      plan.sources.1.partition.unionAdjacent plan.sources.2.partition =
        some plan.replacement.bounds ∧
      plan.sources.1.tabletId ≠ plan.sources.2.tabletId ∧
      plan.sources.1.tabletId ≠ plan.replacement.tabletId ∧
      plan.sources.2.tabletId ≠ plan.replacement.tabletId := by
  simp only [validate, bind_eq_ok, mapError_eq_ok, orElseFail_eq_ok, ensure_eq_ok] at h
  obtain ⟨_, hv₁, _, hv₂, _, -, union, hunion, _, hbounds, _, ⟨hids, ⟨h1, h2⟩, -⟩, -⟩ := h
  exact ⟨TabletDescriptor.partition_valid hv₁, TabletDescriptor.partition_valid hv₂,
    by rw [hunion, hbounds], hids, h1, h2⟩

theorem mergeShift_lawful {plan : MergePlan} (h : plan.validate = .ok ()) :
    (mergeShift plan).Lawful := by
  obtain ⟨hv₁, hv₂, hunion, hids, h1, h2⟩ := MergePlan.validate_spec h
  refine ⟨cons_ne_nil _ _, ?_, fun key => ?_, fun key => ?_, fun key => ?_⟩
  · simp [mergeShift, Shift.ids, hids, Ne.symm h1, Ne.symm h2]
  · simpa [mergeShift] using PartitionBounds.unionAdjacent_contains hv₁ hv₂ hunion key
  · exact PartitionBounds.eq_of_apart
      (PartitionBounds.unionAdjacent_disjoint hv₁ hv₂ hunion key)
  · simp [mergeShift]

theorem MergePlan.replacementDescriptor_spec {plan : MergePlan} {d : TabletDescriptor}
    (h : plan.replacementDescriptor = .ok d) :
    ∃ generation,
      d = plan.replacement.descriptor plan.sources.1.tableId generation .creating .learner := by
  simp only [replacementDescriptor, bind_eq_ok] at h
  obtain ⟨generation, -, hret⟩ := h
  cases hret
  exact ⟨generation, rfl⟩

theorem retireMergeSource_spec {source d : TabletDescriptor} {generation : Nat}
    (h : retireMergeSource source generation = .ok d) :
    d.tabletId = source.tabletId ∧ d.state = .retiring := by
  simp only [retireMergeSource, bind_eq_ok] at h
  obtain ⟨marked, hmarked, retiring, hretiring, hret⟩ := h
  obtain ⟨-, rfl⟩ := TabletDescriptor.publishedTransition_spec hmarked
  obtain ⟨-, rfl⟩ := TabletDescriptor.publishedTransition_spec hretiring
  cases hret
  exact ⟨rfl, rfl⟩

theorem MergePublishCommand.fromPlan_spec {plan : MergePlan} {command : MergePublishCommand}
    (h : MergePublishCommand.fromPlan plan = .ok command) :
    (command.sources.1.tabletId = plan.sources.1.tabletId ∧
        command.sources.1.state = .retiring) ∧
      (command.sources.2.tabletId = plan.sources.2.tabletId ∧
        command.sources.2.state = .retiring) ∧
      (mergeShift plan).Serves (plan.replacement.tabletId, plan.replacement.bounds)
        command.replacement := by
  simp only [fromPlan, bind_eq_ok, mapError_eq_ok] at h
  obtain ⟨generation, -, lower, hlower, upper, hupper, created, hcreated, replacement,
    hreplacement, _, -, hret⟩ := h
  cases hret
  obtain ⟨_, hc⟩ := MergePlan.replacementDescriptor_spec hcreated
  obtain ⟨hid, htable, hpart, hstate⟩ := publishChild_spec hreplacement
  rw [hc] at hid htable hpart
  exact ⟨retireMergeSource_spec hlower, retireMergeSource_spec hupper, hid, htable,
    by rw [hstate]; rfl, hpart⟩

theorem mergeProtocol_follows {plan : MergePlan} (h : plan.validate = .ok ())
    (htable : plan.sources.2.tableId = plan.sources.1.tableId) (st₀ : MetaState) :
    (mergeProtocol plan).Follows (mergeShift plan) st₀ := by
  have hS := mergeShift_lawful h
  refine ⟨?_, ?_, ?_, fun ops hops => by cases hops⟩
  · intro phase hphase op hop
    cases phase with
    | caughtUp | published | retired => cases hphase
    | created => cases hop
    | started =>
      simp only [mergeProtocol, mem_cons, not_mem_nil, or_false] at hop
      rcases hop with rfl | rfl
      · exact keeps_before_mark hS mem_cons_self rfl rfl
      · exact keeps_before_mark hS (mem_cons_of_mem _ mem_cons_self) htable rfl
    | marked =>
      obtain rfl := mem_singleton.mp hop
      refine keeps_before_set_new hS fun d hd => ?_
      obtain ⟨generation, rfl⟩ := MergePlan.replacementDescriptor_spec (toOption_eq_some.mp hd)
      exact ⟨mem_cons_self, rfl⟩
    | pinned =>
      simp only [mergeProtocol, mem_cons, not_mem_nil, or_false] at hop
      rcases hop with rfl | rfl | rfl <;> exact fun _ hst => hst
    | built =>
      simp only [mergeProtocol, mem_cons, not_mem_nil, or_false] at hop
      rcases hop with rfl | rfl <;> exact fun _ hst => hst
  · refine ⟨_, rfl, fun st hside hok => ?_⟩
    cases hcommand : MergePublishCommand.fromPlan plan with
    | error e =>
      rw [hcommand] at hok
      cases hok
    | ok command =>
      rw [hcommand] at hok
      obtain ⟨⟨hid₁, hstate₁⟩, ⟨hid₂, hstate₂⟩, hreplacement⟩ :=
        MergePublishCommand.fromPlan_spec hcommand
      refine after_of_publication ?_ ?_ ?_ hside hok
      · simp [Publication.news, Publication.olds, Shift.ids, mergeShift, hid₁, hid₂,
          hreplacement.filed]
      · intro n hn
        obtain rfl := mem_singleton.mp hn
        exact ⟨command.replacement, mem_cons_self, hreplacement⟩
      · simp only [mergeShift, mem_cons, not_mem_nil, or_false]
        rintro o (rfl | rfl)
        · exact ⟨command.sources.1, mem_cons_self, hid₁, by rw [hstate₁]; rfl⟩
        · exact ⟨command.sources.2, mem_cons_of_mem _ mem_cons_self, hid₂,
            by rw [hstate₂]; rfl⟩
  · have hfirst := @keeps_after_retire (mergeShift plan) st₀
      (plan.sources.1.tabletId, plan.sources.1.partition) hS mem_cons_self
    have hsecond := @keeps_after_retire (mergeShift plan) st₀
      (plan.sources.2.tabletId, plan.sources.2.partition) hS (mem_cons_of_mem _ mem_cons_self)
    intro op hop
    simp only [mergeProtocol, mem_cons, not_mem_nil, or_false] at hop
    rcases hop with rfl | rfl | rfl | rfl | rfl
    · exact hfirst
    · exact keeps_after_remove hS mem_cons_self
    · exact hsecond
    · exact keeps_after_remove hS (mem_cons_of_mem _ mem_cons_self)
    · exact fun _ hst => hst

end MongrelDB.Tablets
