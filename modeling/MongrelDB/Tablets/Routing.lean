import MongrelDB.Tablets.Plans

/-!
# One routable tablet for every key

Whatever a crash leaves behind of a split or a merge, and however often it is
resumed, a request finds exactly one tablet for its key.
-/

namespace MongrelDB.Tablets

open Lib

/-- The plan fits the meta plane it is started on: the source is stored and routable, and the
ids of the children are not in use. -/
structure SplitPlan.Ready (plan : SplitPlan) (st : MetaState) : Prop where
  valid : plan.validate = .ok ()
  source : ∃ d, st.tablet plan.source.tabletId = some d ∧
    (splitShift plan).Serves (plan.source.tabletId, plan.source.partition) d
  fresh : st.tablet plan.children.1.tabletId = none ∧ st.tablet plan.children.2.tabletId = none

/-- As for a split; the planner has checked that the sources are of one table. -/
structure MergePlan.Ready (plan : MergePlan) (st : MetaState) : Prop where
  valid : plan.validate = .ok ()
  table : plan.sources.2.tableId = plan.sources.1.tableId
  first : ∃ d, st.tablet plan.sources.1.tabletId = some d ∧
    (mergeShift plan).Serves (plan.sources.1.tabletId, plan.sources.1.partition) d
  second : ∃ d, st.tablet plan.sources.2.tabletId = some d ∧
    (mergeShift plan).Serves (plan.sources.2.tabletId, plan.sources.2.partition) d
  fresh : st.tablet plan.replacement.tabletId = none

variable {st : MetaState}

theorem Shift.idle_of_none {ts : List (TabletId × PartitionBounds Key)}
    (h : ∀ t ∈ ts, st.tablet t.1 = none) : Idle st ts := by
  intro t ht d hd
  rw [h t ht] at hd
  cases hd

theorem SplitPlan.Ready.before {plan : SplitPlan} (h : plan.Ready st) :
    (splitShift plan).Before st st := by
  refine ⟨fun _ _ => rfl, ?_, Shift.idle_of_none ?_⟩
  · intro o ho
    obtain rfl := List.mem_singleton.mp ho
    exact h.source
  · simpa [splitShift] using h.fresh

theorem MergePlan.Ready.before {plan : MergePlan} (h : plan.Ready st) :
    (mergeShift plan).Before st st := by
  refine ⟨fun _ _ => rfl, ?_, Shift.idle_of_none ?_⟩
  · simp only [Shift.Serving, mergeShift, List.mem_cons, List.not_mem_nil, or_false]
    rintro o (rfl | rfl)
    · exact h.first
    · exact h.second
  · simpa [mergeShift] using h.fresh

/-- The routable tablets of the table partition its key space. -/
def MetaState.Partitioned (st : MetaState) (table : TableId) : Prop :=
  ∀ key, ∃! id, st.Routes table id key

/-- For every table whose routable tablets partition its key space: in every state of every run
of a split whose aborts start before the publication has landed, and of every run of a merge,
each key of the source range has exactly one routable tablet. -/
theorem one_routable_tablet (st : MetaState) :
    (∀ (plan : SplitPlan) (s : Executor), plan.Ready st → st.Partitioned plan.source.tableId →
      Reachable (Executor.step (splitProtocol plan))
        (Executor.AbortsUnpublished (splitShift plan)) (.start st) s →
      ∀ key, plan.source.partition.contains key = true →
        ∃! id, s.metaPlane.Routes plan.source.tableId id key) ∧
    (∀ (plan : MergePlan) (s : Executor), plan.Ready st →
      st.Partitioned plan.sources.1.tableId →
      Reachable (Executor.step (mergeProtocol plan)) anyStep (.start st) s →
      ∀ key, plan.sources.1.partition.contains key = true ∨
          plan.sources.2.partition.contains key = true →
        ∃! id, s.metaPlane.Routes plan.sources.1.tableId id key) := by
  refine ⟨fun plan s hready hpart hreach key _ => ?_, fun plan s hready hpart hreach key _ => ?_⟩
  · have hS := splitShift_lawful hready.valid
    have hside := Executor.reachable_before_or_after hS
      (splitProtocol_follows hready.valid st) hready.before hreach
    exact Shift.existsUnique_routes hS hready.before hside (hpart key)
  · have hS := mergeShift_lawful hready.valid
    have hP := mergeProtocol_follows hready.valid hready.table st
    -- a merge has no abort, so its runs need no condition
    have hinv : Executor.Ok (mergeProtocol plan) (mergeShift plan) st s := by
      refine hreach.invariant (Executor.start_ok hready.before) fun s l s' hok _ hstep => ?_
      refine Executor.step_ok hS hP hok (fun hl => ?_) hstep
      subst hl
      simp [Executor.step, mergeProtocol] at hstep
    exact Shift.existsUnique_routes hS hready.before hinv.side (hpart key)

/-! ## A table of one tablet -/

def wholeTablet : TabletDescriptor :=
  { splittingSource with generation := 1, state := .active }

def wholeMeta : MetaState where
  metadataVersion := 1
  tables := [1]
  tablets := Std.TreeMap.ofList [(10, TabletRecord.mk wholeTablet 1)]
  rejections := []

def halves : SplitPlan where
  source := wholeTablet
  children := (⟨lowerHalf, 11, 11, [⟨1, .learner, 1⟩]⟩, ⟨upperHalf, 12, 12, [⟨1, .learner, 1⟩]⟩)
  splitKey := splitKey
  splitTs := ⟨0, 0, 0⟩

theorem halves_ready : halves.Ready wholeMeta :=
  ⟨by decide +kernel, ⟨wholeTablet, by decide +kernel, rfl, rfl, rfl, rfl⟩, by decide +kernel⟩

theorem wholeMeta_partitioned : wholeMeta.Partitioned 1 := by
  have hex : wholeMeta.RoutingExclusive :=
    @MetaState.routingExclusive_of_single wholeMeta 10 (by decide +kernel)
  intro key
  have hroutes : wholeMeta.Routes 1 10 key :=
    ⟨wholeTablet, by decide +kernel, rfl, rfl, rfl⟩
  exact ⟨10, hroutes, fun id hid => hex 1 key id 10 hid hroutes⟩

/-- No stored tablet serves the key. -/
def MetaState.Unrouted (st : MetaState) (table : TableId) (key : Key) : Prop :=
  ∀ e ∈ st.tablets.toList, ¬ e.2.descriptor.Serves table key
  deriving Decidable

theorem MetaState.Unrouted.not_exists {table : TableId} {key : Key}
    (h : st.Unrouted table key) : ¬ ∃ id, st.Routes table id key := by
  rintro ⟨id, d, hd, hserves⟩
  obtain ⟨record, hrecord, rfl⟩ := Option.map_eq_some_iff.mp hd
  exact h (id, record) (Std.TreeMap.mem_toList_iff_getElem?_eq_some.mpr hrecord) hserves

/-- The first sixteen steps: up to and with the publication, the record still at
`CaughtUp`. -/
def untilPublication : List Executor.Label := .resume :: List.replicate 15 .advance

/-- A run that is aborted before the publication. -/
theorem aborted_early_one_routable :
    ∃ s, Reachable (Executor.step (splitProtocol halves))
        (Executor.AbortsUnpublished (splitShift halves)) (.start wholeMeta) s ∧
      s.record = none ∧ ∃! id, s.metaPlane.Routes 1 id splitKey := by
  obtain ⟨s, hreach, hrecord⟩ := exists_reachable_of_execute
    (Executor.step (splitProtocol halves)) (Executor.AbortsUnpublished (splitShift halves))
    (.start wholeMeta) (fun s => s.record = none)
    ([.resume, .advance, .advance, .advance, .crash, .abort] ++ List.replicate 4 .advance)
    (by decide +kernel)
  exact ⟨s, hreach, hrecord, (one_routable_tablet wholeMeta).1 halves s halves_ready
    wholeMeta_partitioned hreach splitKey rfl⟩

/-- A crash right after the publication, then an abort: both children are removed and the
source stays `Retiring`, so no tablet serves the key. -/
theorem abort_after_publication :
    halves.Ready wholeMeta ∧ wholeMeta.Partitioned 1 ∧
    halves.source.partition.contains splitKey = true ∧
    ∃ s, Reachable (Executor.step (splitProtocol halves)) anyStep (.start wholeMeta) s ∧
      ¬ ∃! id, s.metaPlane.Routes 1 id splitKey := by
  refine ⟨halves_ready, wholeMeta_partitioned, rfl, ?_⟩
  obtain ⟨s, hreach, hnone⟩ := exists_reachable_of_execute
    (Executor.step (splitProtocol halves)) anyStep (.start wholeMeta)
    (fun s => s.metaPlane.Unrouted 1 splitKey)
    (untilPublication ++ [.crash, .abort, .advance, .advance]) (by decide +kernel)
  exact ⟨s, hreach, fun h => hnone.not_exists h.exists⟩

end MongrelDB.Tablets
