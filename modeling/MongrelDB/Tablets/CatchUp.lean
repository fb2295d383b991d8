import MongrelDB.Tablets.Keyspace
import MongrelDB.Tablets.Routing

/-!
# What the children hold

The split executor together with the data it moves, and with the writes the source
goes on accepting for as long as requests are routed to it.
-/

namespace MongrelDB.Tablets

open Lib
open Epoch (HlcTimestamp)
open List

/-- `RoutingError` of `check_generation`. -/
inductive RoutingError where
  | tabletSplit (tablet : TabletId) (used current : Nat)
  | tabletMoved (tablet : TabletId) (used current : Nat)
  | staleMetadata (tablet : TabletId) (used current : Nat)
  deriving DecidableEq, Repr

def checkGeneration (d : TabletDescriptor) (used : Nat) : Except RoutingError Unit :=
  if used = d.generation then .ok ()
  else
    .error <| match d.state with
      | .splitting =>
        if used < d.generation then .tabletSplit d.tabletId used d.generation
        else .staleMetadata d.tabletId used d.generation
      | .retiring => .tabletMoved d.tabletId used d.generation
      | .retired => .tabletMoved d.tabletId used d.generation
      | _ => .staleMetadata d.tabletId used d.generation

structure SplitRun where
  executor : Executor
  keyspace : MapKeyspace
  sinks : Half → MapChildSink
  /-- The mutations of the running catch-up that are still to apply. -/
  deltas : List TabletMutation
  /-- A catch-up has read its mutations at some time in the run. -/
  begun : Bool

namespace SplitRun

variable {rest : List Op}

inductive Label where
  /-- A request of the given generation writes one version of a row. -/
  | write (key : Key) (generation : Nat) (ts : HlcTimestamp) (value : Option Bytes)
  | resume
  | advance
  | crash
  deriving DecidableEq, Repr

def start (st : MetaState) (keyspace : MapKeyspace) (sinks : Half → MapChildSink) : SplitRun :=
  ⟨.start st, keyspace, sinks, [], false⟩

/-- The source takes the request: it is routed there and passes `check_generation`. -/
def Accepts (plan : SplitPlan) (s : SplitRun) (key : Key) (generation : Nat) : Prop :=
  (s.executor.metaPlane.tablet plan.source.tabletId).any (fun d =>
    decide (d.Serves plan.source.tableId key) && (checkGeneration d generation).toBool) = true
  deriving Decidable

/-- The sink of the `n`th `install_staged`. -/
def sinkOf : Nat → Half
  | 0 => .lower
  | _ => .upper

/-- The executor goes on with its next step. -/
def next (plan : SplitPlan) (s : SplitRun) : Option SplitRun :=
  (s.executor.step (splitProtocol plan) .advance).map fun executor => { s with executor }

/-- The executor returns an error. -/
def fail (s : SplitRun) : SplitRun :=
  { s with executor := { s.executor with task := none }, deltas := [] }

/-- The next step of a running phase, on the data and on the meta plane. -/
def runOp (plan : SplitPlan) (s : SplitRun) : Op → Option SplitRun
  | .beginBuild => { s with sinks := fun half => (s.sinks half).beginBuild }.next plan
  | .stageSnapshot =>
    match stageRows plan (s.keyspace.rowsAt plan.splitTs).toList s.sinks with
    | some sinks => { s with sinks }.next plan
    | none => some s.fail
  | .install n =>
    match (s.sinks (sinkOf n)).installStaged with
    | some sink => { s with sinks := Function.update s.sinks (sinkOf n) sink }.next plan
    | none => some s.fail
  | .readDeltas =>
    { s with deltas := s.keyspace.deltasAfter plan.splitTs, begun := true }.next plan
  | .applyDeltas =>
    match s.deltas with
    | [] => s.next plan
    | m :: rest =>
      match routeChild plan m.key with
      | some half =>
        some { s with
          sinks := Function.update s.sinks half ((s.sinks half).applyDelta m)
          deltas := rest }
      | none => some s.fail
  | _ => s.next plan

def step (plan : SplitPlan) (s : SplitRun) : Label → Option SplitRun
  | .write key generation ts value =>
    if s.Accepts plan key generation ∧ ts ≤ maxTimestamp then
      some { s with keyspace := s.keyspace.write key ts value }
    else none
  | .resume =>
    (s.executor.step (splitProtocol plan) .resume).map fun executor =>
      { s with executor, deltas := [] }
  | .crash =>
    (s.executor.step (splitProtocol plan) .crash).map fun executor =>
      { s with executor, deltas := [] }
  | .advance =>
    match s.executor.task with
    | some (.execute _ (op :: _)) => s.runOp plan op
    | _ => s.next plan

/-- The publication has landed: requests are no longer routed to the source. -/
def Published (plan : SplitPlan) (s : SplitRun) : Prop :=
  (s.executor.metaPlane.tablet plan.source.tabletId).any (·.state.isRoutable) = false
  deriving Decidable

/-- After the snapshot is pinned only timestamps above it are written, and nothing once a
catch-up has begun. -/
def WritesInTime (plan : SplitPlan) (s : SplitRun) : Label → Prop
  | .write _ _ ts _ =>
    (s.executor.record ∈ [some Phase.pinned, some .built, some .caughtUp] → plan.splitTs < ts) ∧
      s.begun = false
  | _ => True

instance (plan : SplitPlan) (s : SplitRun) : (l : Label) → Decidable (s.WritesInTime plan l)
  | .write _ _ _ _ => inferInstanceAs (Decidable (_ ∧ _))
  | .resume => isTrue trivial
  | .advance => isTrue trivial
  | .crash => isTrue trivial

/-- The map holds what `f` gives the keys of a child's bounds, and no other key. -/
def Holds (plan : SplitPlan) (half : Half) (f : Key → Option Bytes) (rows : Rows) : Prop :=
  ∀ key, rows[key]? = if (plan.child half).bounds.contains key then f key else none

/-- The rows visible at the split's timestamp. -/
def before (plan : SplitPlan) (s : SplitRun) (key : Key) : Option Bytes :=
  (s.keyspace.rowsAt plan.splitTs)[key]?

/-- The present rows of the source. -/
def present (s : SplitRun) (key : Key) : Option Bytes := s.keyspace.current[key]?

section

variable (plan : SplitPlan) (s : SplitRun)

/-- Both children hold the source's present rows. -/
def Complete : Prop :=
  ∀ half, Holds plan half s.present (s.sinks half).installed

/-! ## The invariant -/

/-- Progress of a build, by the number of its steps still to run. -/
def BuildFacts : Nat → Prop
  | 0 => ∀ half, Holds plan half (s.before plan) (s.sinks half).installed
  | 1 => Holds plan .lower (s.before plan) (s.sinks .lower).installed ∧
      ∃ staged, (s.sinks .upper).staged = some staged ∧ Holds plan .upper (s.before plan) staged
  | 2 => ∀ half, ∃ staged, (s.sinks half).staged = some staged ∧
      Holds plan half (s.before plan) staged
  | 3 => ∀ half, (s.sinks half).staged = some ∅
  | _ => True

/-- Progress of a catch-up, by the number of its steps still to run: what is not named by a
mutation still to apply is up to date. -/
def CatchFacts : Nat → Prop
  | 0 => s.begun = true ∧ s.Complete plan
  | 1 => s.begun = true ∧ (∀ m ∈ s.deltas, s.present m.key = m.value) ∧
      ∀ half, ∀ key, (∀ m ∈ s.deltas, m.key ≠ key) →
        (s.sinks half).installed[key]? =
          if (plan.child half).bounds.contains key then s.present key else none
  | _ => True

/-- A child between its build and the end of the catch-up: each of its rows is the snapshot's
or, once a catch-up has begun, the present one. -/
def Near (half : Half) : Prop :=
  ∀ key, if (plan.child half).bounds.contains key then
      (s.sinks half).installed[key]? = s.before plan key ∨
        (s.begun = true ∧ (s.sinks half).installed[key]? = s.present key)
    else (s.sinks half).installed[key]? = none

end

/-- What the record and the meta plane say about the data. -/
structure DataOk (plan : SplitPlan) (st₀ : MetaState) (s : SplitRun) : Prop where
  early : ∀ phase, s.executor.record = some phase →
    phase ∈ [Phase.started, .marked, .created, .pinned] → s.begun = false
  near : s.executor.record = some .built → ∀ half, s.Near plan half
  late : s.executor.record = some .caughtUp → s.begun = true ∧ s.Complete plan
  done : (splitShift plan).After st₀ s.executor.metaPlane → s.Complete plan

/-- What is known about the data while `todo` of `phase` is still to run. -/
structure PhaseOk (plan : SplitPlan) (s : SplitRun) (phase : Phase) (todo : List Op) :
    Prop where
  record : phase ≠ .published → s.executor.record = some phase
  build : phase = .pinned → s.BuildFacts plan todo.length
  catchUp : phase = .built → s.CatchFacts plan todo.length

structure Ok (plan : SplitPlan) (st₀ : MetaState) (s : SplitRun) : Prop where
  executor : s.executor.Ok (splitProtocol plan) (splitShift plan) st₀
  data : s.DataOk plan st₀
  task : ∀ phase todo, s.executor.task = some (.execute phase todo) → s.PhaseOk plan phase todo
  noAbort : ∀ todo, s.executor.task ≠ some (.abort todo)

variable {plan : SplitPlan} {st₀ : MetaState} {s s' : SplitRun}

theorem not_after_of_before {st : MetaState} (h : (splitShift plan).Before st₀ st) :
    ¬ (splitShift plan).After st₀ st := by
  intro hafter
  obtain ⟨d, hd, hserves⟩ := h.old _ mem_cons_self
  have hidle := (hafter.old _ mem_cons_self d hd).2
  rw [hserves.routable] at hidle
  cases hidle

/-- Without a task only the record and the meta plane have to be accounted for. -/
theorem Ok.fail (h : s.Ok plan st₀) : s.fail.Ok plan st₀ :=
  ⟨h.executor.idle, ⟨h.data.early, h.data.near, h.data.late, h.data.done⟩,
    fun _ _ htask => (by cases htask), fun _ htask => (by cases htask)⟩

theorem start_ok (h : plan.Ready st₀) (keyspace : MapKeyspace) (sinks : Half → MapChildSink) :
    (start st₀ keyspace sinks).Ok plan st₀ := by
  refine ⟨Executor.start_ok h.before, ⟨fun _ _ _ => rfl, fun hrecord => (by cases hrecord),
    fun hrecord => (by cases hrecord), fun hafter => ?_⟩, fun _ _ htask => (by cases htask),
    fun _ htask => (by cases htask)⟩
  exact absurd hafter (not_after_of_before h.before)

/-! ### Writes -/

theorem routable_of_accepts {key : Key} {generation : Nat} (h : s.Accepts plan key generation) :
    ∃ d, s.executor.metaPlane.tablet plan.source.tabletId = some d ∧
      d.state.isRoutable = true := by
  unfold Accepts at h
  cases hd : s.executor.metaPlane.tablet plan.source.tabletId with
  | none => simp [hd] at h
  | some d =>
    simp only [hd, Option.any_some, Bool.and_eq_true, decide_eq_true_eq] at h
    exact ⟨d, rfl, h.1.2.1⟩

theorem BuildFacts.congr {n : Nat} (h : s.BuildFacts plan n)
    (hbefore : s'.before plan = s.before plan) (hsinks : s'.sinks = s.sinks) :
    s'.BuildFacts plan n := by
  unfold BuildFacts at h ⊢
  rw [hbefore, hsinks]
  exact h

theorem Ok.write (h : s.Ok plan st₀) {key : Key} {generation : Nat} {ts : HlcTimestamp}
    {value : Option Bytes} (haccepts : s.Accepts plan key generation)
    (hok : s.WritesInTime plan (.write key generation ts value)) :
    ({ s with keyspace := s.keyspace.write key ts value } : SplitRun).Ok plan st₀ := by
  obtain ⟨hts, hbegun⟩ := hok
  have hbefore : plan.splitTs < ts → ({ s with keyspace := s.keyspace.write key ts value } :
      SplitRun).before plan = s.before plan := by
    intro hlt
    funext key'
    exact s.keyspace.rowsAt_write_of_lt hlt key value key'
  refine ⟨h.executor, ⟨h.data.early, fun hrecord half key' => ?_, fun hrecord => ?_,
    fun hafter => ?_⟩, fun phase todo htask => ?_, h.noAbort⟩
  · have hnear := h.data.near hrecord half key'
    have hbuilt : s.executor.record = some .built := hrecord
    rw [hbefore (hts (by simp [hbuilt]))]
    split at hnear
    · next hin =>
      rw [if_pos hin]
      rcases hnear with hnear | ⟨htrue, -⟩
      · exact .inl hnear
      · rw [hbegun] at htrue
        cases htrue
    · next hin =>
      rw [if_neg hin]
      exact hnear
  · have htrue := (h.data.late hrecord).1
    rw [hbegun] at htrue
    cases htrue
  · obtain ⟨d, hd, hroutable⟩ := routable_of_accepts haccepts
    have hidle := (hafter.old _ mem_cons_self d hd).2
    rw [hroutable] at hidle
    cases hidle
  · have hphase := h.task phase todo htask
    refine ⟨hphase.record, fun heq => ?_, fun heq => ?_⟩
    · have hrecord := hphase.record (by rw [heq]; decide)
      rw [heq] at hrecord
      exact (hphase.build heq).congr (hbefore (hts (by simp [hrecord]))) rfl
    · -- no catch-up has begun, so its first step is still to run
      have hcatch := hphase.catchUp heq
      match hlen : todo.length, hcatch with
      | 0, hcatch =>
        rw [CatchFacts, hbegun] at hcatch
        cases hcatch.1
      | 1, hcatch =>
        rw [CatchFacts, hbegun] at hcatch
        cases hcatch.1
      | n + 2, _ => trivial

/-! ### Steps on the data -/

variable {phase : Phase} {op : Op}

theorem step_data {e : Executor} (htask : e.task = some (.execute phase (op :: rest)))
    (hrun : op.run e.metaPlane = (e.metaPlane, true)) (hop : op ≠ .dropRecord) :
    e.step (splitProtocol plan) .advance = some { e with task := some (.execute phase rest) } := by
  simp only [Executor.step, htask, Executor.runOp, hrun, if_neg hop, if_true]

theorem Ok.advance (h : s.Ok plan st₀) (hready : plan.Ready st₀) {l : Executor.Label}
    {e : Executor} (hstep : s.executor.step (splitProtocol plan) l = some e) (hl : l ≠ .abort) :
    e.Ok (splitProtocol plan) (splitShift plan) st₀ :=
  Executor.step_ok (splitShift_lawful hready.valid) (splitProtocol_follows hready.valid st₀)
    h.executor (fun habort => absurd habort hl) hstep

theorem Ok.build (h : s.Ok plan st₀) (hrecord : s.executor.record = some .pinned)
    (hstep : s.executor.step (splitProtocol plan) .advance = some s'.executor)
    (hready : plan.Ready st₀)
    (htask : s'.executor = { s.executor with task := some (.execute .pinned rest) })
    (hbegun : s'.begun = s.begun) (hfacts : s'.BuildFacts plan rest.length) :
    s'.Ok plan st₀ := by
  have hexec := h.advance hready hstep (by simp)
  have hrecord' : s'.executor.record = some .pinned := by rw [htask]; exact hrecord
  refine ⟨hexec, ⟨fun phase hphase hearly => ?_, fun hbuilt => ?_, fun hcaught => ?_,
    fun hafter => ?_⟩, fun phase todo htask' => ?_, fun todo htask' => ?_⟩
  · rw [hbegun]
    exact h.data.early .pinned hrecord (by decide)
  · rw [hrecord'] at hbuilt
    cases hbuilt
  · rw [hrecord'] at hcaught
    cases hcaught
  · exact absurd hafter (not_after_of_before (hexec.record .pinned hrecord'))
  · rw [htask] at htask'
    cases htask'
    exact ⟨fun _ => hrecord', fun _ => hfacts, fun heq => by cases heq⟩
  · rw [htask] at htask'
    cases htask'

/-- In the phase of the catch-up the children stay near the source. -/
theorem Ok.catchUp (hrecord : s.executor.record = some .built)
    (hexec : s'.executor.Ok (splitProtocol plan) (splitShift plan) st₀)
    (htask : s'.executor = { s.executor with task := some (.execute .built rest) })
    (hnear : ∀ half, s'.Near plan half) (hfacts : s'.CatchFacts plan rest.length) :
    s'.Ok plan st₀ := by
  have hrecord' : s'.executor.record = some .built := by rw [htask]; exact hrecord
  refine ⟨hexec, ⟨fun phase hphase hearly => ?_, fun _ => hnear, fun hcaught => ?_,
    fun hafter => ?_⟩, fun phase todo htask' => ?_, fun todo htask' => ?_⟩
  · obtain rfl : Phase.built = phase := Option.some.inj (hrecord'.symm.trans hphase)
    simp at hearly
  · rw [hrecord'] at hcaught
    cases hcaught
  · exact absurd hafter (not_after_of_before (hexec.record .built hrecord'))
  · rw [htask] at htask'
    cases htask'
    exact ⟨fun _ => hrecord', fun heq => (by cases heq), fun _ => hfacts⟩
  · rw [htask] at htask'
    cases htask'

theorem holds_stageRows (hvalid : plan.validate = .ok ()) {sinks : Half → MapChildSink}
    (hstage : stageRows plan (s.keyspace.rowsAt plan.splitTs).toList s.sinks = some sinks)
    (hempty : ∀ half, (s.sinks half).staged = some ∅) (half : Half) :
    ∃ staged, (sinks half).staged = some staged ∧ Holds plan half (s.before plan) staged := by
  have hnodup : ((s.keyspace.rowsAt plan.splitTs).toList.map (·.1)).Nodup := by
    rw [Std.TreeMap.map_fst_toList_eq_keys]
    exact Std.TreeMap.nodup_keys
  obtain ⟨-, staged, hstaged, hmem, helse⟩ := stageRows_spec hnodup hstage (hempty half)
  refine ⟨staged, hstaged, fun key => ?_⟩
  by_cases hin : (plan.child half).bounds.contains key = true
  · rw [if_pos hin]
    have hroute := (routeChild_eq_some hvalid).mpr hin
    cases hrow : (s.keyspace.rowsAt plan.splitTs)[key]? with
    | some value =>
      rw [before, hrow]
      exact hmem (key, value) (Std.TreeMap.mem_toList_iff_getElem?_eq_some.mpr hrow) hroute
    | none =>
      rw [before, hrow, helse key]
      · simp
      · intro hkey
        obtain ⟨row, hrow', rfl⟩ := mem_map.mp hkey
        rw [Std.TreeMap.mem_toList_iff_getElem?_eq_some.mp hrow'] at hrow
        cases hrow
  · rw [if_neg hin, helse key fun _ hroute => hin ((routeChild_eq_some hvalid).mp hroute)]
    simp

theorem next_data (htask : s.executor.task = some (.execute phase (op :: rest)))
    (hrun : op.run s.executor.metaPlane = (s.executor.metaPlane, true)) (hop : op ≠ .dropRecord)
    (hstep : s.next plan = some s') :
    s' = { s with executor := { s.executor with task := some (.execute phase rest) } } := by
  unfold next at hstep
  rw [step_data htask hrun hop] at hstep
  cases hstep
  rfl

theorem Ok.runOp_build (hready : plan.Ready st₀) (h : s.Ok plan st₀)
    (htask : s.executor.task = some (.execute .pinned (op :: rest)))
    (hstep : s.runOp plan op = some s') : s'.Ok plan st₀ := by
  obtain ⟨-, -, hsuffix, -⟩ := h.executor.task _ htask
  have hphase := h.task _ _ htask
  have hrecord := hphase.record (by decide)
  have hfacts := hphase.build rfl
  -- the step goes through with the sinks it leaves; their progress remains to be shown
  have hnext : ∀ sinks : Half → MapChildSink,
      op.run s.executor.metaPlane = (s.executor.metaPlane, true) → op ≠ .dropRecord →
      ({ s with sinks } : SplitRun).next plan = some s' →
      ({ s with sinks } : SplitRun).BuildFacts plan rest.length → s'.Ok plan st₀ := by
    intro sinks hrun hop hnext hbuild
    obtain rfl := @next_data _ plan { s with sinks } s' _ _ htask hrun hop hnext
    refine h.build hrecord (step_data htask hrun hop) hready rfl rfl ?_
    exact hbuild.congr rfl rfl
  simp only [splitProtocol, suffix_cons_iff, List.cons.injEq, suffix_nil,
    reduceCtorEq, or_false] at hsuffix
  rcases hsuffix with ⟨rfl, rfl⟩ | ⟨rfl, rfl⟩ | ⟨rfl, rfl⟩ | ⟨rfl, rfl⟩
  · exact hnext _ rfl (by decide) hstep fun _ => rfl
  · simp only [runOp] at hstep
    split at hstep
    · next sinks hstage =>
      have hstaged := holds_stageRows hready.valid hstage hfacts
      exact hnext sinks rfl (by decide) hstep hstaged
    · cases hstep
      exact h.fail
  · simp only [runOp, sinkOf] at hstep
    split at hstep
    · next sink hinstall =>
      obtain ⟨staged, hstaged, rfl⟩ := Option.map_eq_some_iff.mp hinstall
      obtain ⟨staged', hstaged', hholds⟩ := hfacts .lower
      obtain rfl : staged = staged' := Option.some.inj (hstaged.symm.trans hstaged')
      exact hnext _ rfl (by decide) hstep ⟨hholds, hfacts .upper⟩
    · cases hstep
      exact h.fail
  · simp only [runOp, sinkOf] at hstep
    split at hstep
    · next sink hinstall =>
      obtain ⟨staged, hstaged, rfl⟩ := Option.map_eq_some_iff.mp hinstall
      obtain ⟨hlower, staged', hstaged', hholds⟩ := hfacts
      obtain rfl : staged = staged' := Option.some.inj (hstaged.symm.trans hstaged')
      refine hnext _ rfl (by decide) hstep fun half => ?_
      cases half with
      | lower => exact hlower
      | upper => exact hholds
    · cases hstep
      exact h.fail

/-- Reading the mutations: a row that none of them names is already the present one. -/
theorem near_readDeltas (hnear : ∀ half, s.Near plan half) :
    let t : SplitRun :=
      { s with deltas := s.keyspace.deltasAfter plan.splitTs, begun := true }
    (∀ half, t.Near plan half) ∧ t.CatchFacts plan 1 := by
  refine ⟨fun half key => ?_, rfl, fun m hm => s.keyspace.deltasAfter_agree plan.splitTs hm,
    fun half key hkey => ?_⟩
  · have hrow := hnear half key
    split at hrow
    · next hin =>
      rw [if_pos hin]
      exact hrow.imp_right fun hpresent => ⟨rfl, hpresent.2⟩
    · next hin =>
      rw [if_neg hin]
      exact hrow
  · have hrow := hnear half key
    split at hrow
    · next hin =>
      rw [if_pos hin]
      rcases hrow with hbefore | ⟨-, hpresent⟩
      · exact hbefore.trans (s.keyspace.deltasAfter_cover plan.splitTs hkey)
      · exact hpresent
    · next hin =>
      rw [if_neg hin]
      exact hrow

theorem near_applyDelta (hvalid : plan.validate = .ok ()) {m : TabletMutation}
    {rest : List TabletMutation} {half : Half} (hdeltas : s.deltas = m :: rest)
    (hroute : routeChild plan m.key = some half) (hnear : ∀ half, s.Near plan half)
    (hfacts : s.CatchFacts plan 1) :
    let t : SplitRun :=
      { s with
        sinks := Function.update s.sinks half ((s.sinks half).applyDelta m)
        deltas := rest }
    (∀ half, t.Near plan half) ∧ t.CatchFacts plan 1 := by
  obtain ⟨hbegun, hagree, hrows⟩ := hfacts
  have hin := (routeChild_eq_some hvalid).mp hroute
  rw [hdeltas] at hagree hrows
  have hvalue := hagree m mem_cons_self
  -- the row named by the mutation is present where it belongs, every other row is untouched
  have hsink : ∀ half' key,
      (Function.update s.sinks half ((s.sinks half).applyDelta m) half').installed[key]? =
        if half' = half ∧ m.key = key then s.present key
        else (s.sinks half').installed[key]? := by
    intro half' key
    by_cases heq : half' = half
    · subst heq
      rw [Function.update_self, MapChildSink.applyDelta_installed]
      by_cases hkey : m.key = key
      · rw [if_pos hkey, if_pos ⟨rfl, hkey⟩, ← hvalue, hkey]
      · rw [if_neg hkey, if_neg fun h => hkey h.2]
    · rw [Function.update_of_ne heq, if_neg fun h => heq h.1]
  refine ⟨fun half' key => ?_, hbegun, fun m' hm' => hagree m' (mem_cons_of_mem _ hm'),
    fun half' key hkey => ?_⟩
  · show if (plan.child half').bounds.contains key = true then _ else _
    dsimp only
    rw [hsink half' key]
    by_cases heq : half' = half ∧ m.key = key
    · obtain ⟨rfl, rfl⟩ := heq
      rw [if_pos hin, if_pos ⟨rfl, rfl⟩]
      exact .inr ⟨hbegun, rfl⟩
    · rw [if_neg heq]
      exact hnear half' key
  · dsimp only
    rw [hsink half' key]
    by_cases heq : half' = half ∧ m.key = key
    · obtain ⟨rfl, rfl⟩ := heq
      rw [if_pos hin, if_pos ⟨rfl, rfl⟩]
      rfl
    · rw [if_neg heq]
      by_cases hmkey : m.key = key
      · -- the other child: the key is not in its bounds, and it holds no such row
        have hout : ¬ (plan.child half').bounds.contains key = true := by
          intro hin'
          have hroute' := (routeChild_eq_some hvalid).mpr (hmkey ▸ hin')
          exact heq ⟨Option.some.inj (hroute'.symm.trans hroute), hmkey⟩
        have hrow := hnear half' key
        rw [if_neg hout] at hrow ⊢
        exact hrow
      · refine hrows half' key fun m' hm' => ?_
        rcases mem_cons.mp hm' with rfl | hm'
        · exact hmkey
        · exact hkey m' hm'

theorem Ok.runOp_catchUp (hready : plan.Ready st₀) (h : s.Ok plan st₀)
    (htask : s.executor.task = some (.execute .built (op :: rest)))
    (hstep : s.runOp plan op = some s') : s'.Ok plan st₀ := by
  obtain ⟨-, -, hsuffix, -⟩ := h.executor.task _ htask
  have hphase := h.task _ _ htask
  have hrecord := hphase.record (by decide)
  have hfacts := hphase.catchUp rfl
  have hnear := h.data.near hrecord
  have hadvance : ∀ e, s.executor.step (splitProtocol plan) .advance = some e →
      e.Ok (splitProtocol plan) (splitShift plan) st₀ := fun e he => h.advance hready he (by simp)
  simp only [splitProtocol, suffix_cons_iff, List.cons.injEq, suffix_nil,
    reduceCtorEq, or_false] at hsuffix
  rcases hsuffix with ⟨rfl, rfl⟩ | ⟨rfl, rfl⟩
  · obtain ⟨hnear', hfacts'⟩ := near_readDeltas hnear
    obtain rfl := @next_data _ plan
      { s with deltas := s.keyspace.deltasAfter plan.splitTs, begun := true } s' _ _ htask rfl
      (by decide) hstep
    exact Ok.catchUp hrecord (hadvance _ (step_data htask rfl (by decide))) rfl hnear' hfacts'
  · simp only [runOp] at hstep
    split at hstep
    · next hnil =>
      obtain rfl := next_data htask rfl (by decide) hstep
      refine Ok.catchUp hrecord (hadvance _ (step_data htask rfl (by decide))) rfl hnear ?_
      obtain ⟨hbegun, -, hrows⟩ := hfacts
      refine ⟨hbegun, fun half key => hrows half key fun m hm => ?_⟩
      rw [hnil] at hm
      cases hm
    · next m deltas hdeltas =>
      split at hstep
      · next half hroute =>
        cases hstep
        obtain ⟨hnear', hfacts'⟩ := near_applyDelta hready.valid hdeltas hroute hnear hfacts
        have hsame : s.executor =
            { s.executor with task := some (.execute .built [.applyDeltas]) } := by
          rw [← htask]
        exact Ok.catchUp hrecord h.executor hsame hnear' hfacts'
      · cases hstep
        exact h.fail

/-! ### The other phases -/

theorem PhaseOk.begin (hrecord : s.executor.record = some phase) :
    s.PhaseOk plan phase ((splitProtocol plan).ops phase) := by
  refine ⟨fun _ => hrecord, ?_, ?_⟩
  · rintro rfl
    trivial
  · rintro rfl
    trivial

/-- The steps of the other phases leave the data alone, and only the last phase ends the
record. -/
theorem runOp_eq_next (hop : op ∈ (splitProtocol plan).ops phase)
    (hpinned : phase ≠ .pinned) (hbuilt : phase ≠ .built) :
    s.runOp plan op = s.next plan ∧ (phase ≠ .published → op ≠ .dropRecord) := by
  cases phase with
  | started | caughtUp =>
    obtain rfl := mem_singleton.mp hop
    exact ⟨rfl, fun _ => by simp⟩
  | marked =>
    simp only [splitProtocol, mem_cons, not_mem_nil, or_false] at hop
    rcases hop with rfl | rfl <;> exact ⟨rfl, fun _ => by simp⟩
  | published =>
    simp only [splitProtocol, mem_cons, not_mem_nil, or_false] at hop
    rcases hop with rfl | rfl | rfl <;> exact ⟨rfl, fun hne => absurd rfl hne⟩
  | created | retired => cases hop
  | pinned => exact absurd rfl hpinned
  | built => exact absurd rfl hbuilt

theorem Ok.runOp_plain (hready : plan.Ready st₀) (h : s.Ok plan st₀)
    (htask : s.executor.task = some (.execute phase (op :: rest)))
    (hpinned : phase ≠ .pinned) (hbuilt : phase ≠ .built) (hstep : s.runOp plan op = some s') :
    s'.Ok plan st₀ := by
  have hP := splitProtocol_follows hready.valid st₀
  obtain ⟨hon, -, hsuffix, -⟩ := h.executor.task _ htask
  have hphase := h.task _ _ htask
  have hop : op ∈ (splitProtocol plan).ops phase := hsuffix.subset mem_cons_self
  obtain ⟨hnext, hdrop⟩ := @runOp_eq_next plan s _ _ hop hpinned hbuilt
  have hon' := hP.onSide hop hon
  have hadvance : s.executor.step (splitProtocol plan) .advance =
      some (s.executor.runOp op (.execute phase rest)) := by
    simp only [Executor.step, htask]
  have hexec := h.advance hready hadvance (by simp)
  rw [hnext, next, hadvance] at hstep
  cases hstep
  refine ⟨hexec, ⟨fun p hp => h.data.early p (Executor.record_runOp hp),
    fun hp => h.data.near (Executor.record_runOp hp),
    fun hp => h.data.late (Executor.record_runOp hp), fun hafter => ?_⟩, ?_, ?_⟩
  · -- the publication is the only step that changes sides
    show s.Complete plan
    cases phase with
    | caughtUp => exact (h.data.late (hphase.record (by decide))).2
    | published => exact h.data.done hon
    | retired => exact hon.elim
    | started | marked | created | pinned | built =>
      exact absurd hafter (not_after_of_before hon')
  · intro phase' todo htask'
    simp only [Executor.runOp] at htask'
    split at htask'
    · cases htask'
      refine ⟨fun hne => ?_, fun heq => absurd heq hpinned, fun heq => absurd heq hbuilt⟩
      show (if op = .dropRecord then none else s.executor.record) = some phase
      rw [if_neg (hdrop hne)]
      exact hphase.record hne
    · cases htask'
  · intro todo htask'
    simp only [Executor.runOp] at htask'
    split at htask' <;> cases htask'

theorem Ok.persist (hready : plan.Ready st₀) (h : s.Ok plan st₀)
    (htask : s.executor.task = some (.execute phase [])) (hstep : s.next plan = some s') :
    s'.Ok plan st₀ := by
  have hphase := h.task _ _ htask
  unfold next at hstep
  obtain ⟨executor, hadvance, rfl⟩ := Option.map_eq_some_iff.mp hstep
  have hexec := h.advance hready hadvance (by simp)
  simp only [Executor.step, htask] at hadvance
  split at hadvance
  · cases hadvance
    exact ⟨hexec, ⟨h.data.early, h.data.near, h.data.late, h.data.done⟩,
      fun _ _ htask => (by cases htask), fun _ htask => (by cases htask)⟩
  · next hnext =>
    cases hadvance
    refine ⟨hexec, ⟨?_, ?_, ?_, h.data.done⟩, ?_, fun _ htask => (by cases htask)⟩
    · rintro _ ⟨⟩ hearly
      cases phase with
      | started | marked | created =>
        exact h.data.early _ (hphase.record (by decide)) (by decide)
      | pinned | built | caughtUp | published | retired => simp [Phase.next] at hearly
    · intro hbuilt half key
      obtain rfl : phase = .pinned := by
        cases phase <;> first | rfl | cases hbuilt
      have hrow := hphase.build rfl half key
      split at hrow
      · next hin =>
        rw [if_pos hin]
        exact .inl hrow
      · next hin =>
        rw [if_neg hin]
        exact hrow
    · intro hcaught
      obtain rfl : phase = .built := by
        cases phase <;> first | rfl | cases hcaught
      exact hphase.catchUp rfl
    · rintro _ _ ⟨⟩
      exact .begin rfl

theorem step_ok (hready : plan.Ready st₀) {l : Label} (h : s.Ok plan st₀)
    (hok : s.WritesInTime plan l) (hstep : s.step plan l = some s') : s'.Ok plan st₀ := by
  cases l with
  | write key generation ts value =>
    simp only [step] at hstep
    split at hstep
    · next hwrite =>
      cases hstep
      exact h.write hwrite.1 hok
    · cases hstep
  | resume =>
    simp only [step] at hstep
    obtain ⟨executor, hresume, rfl⟩ := Option.map_eq_some_iff.mp hstep
    have hexec := h.advance hready hresume (by simp)
    simp only [Executor.step] at hresume
    split at hresume
    · next phase _ hrecord =>
      cases hresume
      refine ⟨hexec, ⟨h.data.early, h.data.near, h.data.late, h.data.done⟩, ?_,
        fun _ htask => (by cases htask)⟩
      rintro _ _ ⟨⟩
      exact .begin hrecord
    · cases hresume
  | crash =>
    cases hstep
    exact h.fail
  | advance =>
    simp only [step] at hstep
    split at hstep
    · next phase op rest htask =>
      by_cases hpinned : phase = .pinned
      · subst hpinned
        exact h.runOp_build hready htask hstep
      by_cases hbuilt : phase = .built
      · subst hbuilt
        exact h.runOp_catchUp hready htask hstep
      exact h.runOp_plain hready htask hpinned hbuilt hstep
    · next hnone =>
      cases htask : s.executor.task with
      | none =>
        simp [next, Executor.step, htask] at hstep
      | some task =>
        cases task with
        | abort todo => exact absurd htask (h.noAbort todo)
        | execute phase todo =>
          cases todo with
          | nil => exact h.persist hready htask hstep
          | cons op rest => exact absurd htask (hnone phase op rest)

/-- After the publication each child holds the source's rows of its bounds and no others. The
source accepts no write any more, so these are its rows at the publication. -/
theorem children_hold_source (plan : SplitPlan) (st : MetaState) (keyspace : MapKeyspace)
    (sinks : Half → MapChildSink) (s : SplitRun) (hready : plan.Ready st)
    (hreach : Reachable (step plan) (WritesInTime plan) (start st keyspace sinks) s)
    (hpublished : s.Published plan) :
    (∀ key generation, ¬ s.Accepts plan key generation) ∧
    ∀ half, ∀ key : Key, (s.sinks half).installed[key]? =
      if (plan.child half).bounds.contains key then s.keyspace.current[key]? else none := by
  have hok : s.Ok plan st :=
    hreach.invariant (start_ok hready keyspace sinks) fun _ _ _ h hcond hstep =>
      step_ok hready h hcond hstep
  unfold Published at hpublished
  refine ⟨fun key generation haccepts => ?_, ?_⟩
  · obtain ⟨d, hd, hroutable⟩ := routable_of_accepts haccepts
    simp [hd, hroutable] at hpublished
  · refine hok.data.done (hok.executor.side.resolve_left fun hbefore => ?_)
    obtain ⟨d, hd, hserves⟩ := hbefore.old _ mem_cons_self
    simp [hd, hserves.routable] at hpublished

/-! ## Two runs -/

/-- A run over an empty tablet. -/
def emptyRun : SplitRun := start wholeMeta .empty fun _ => ⟨none, ∅⟩

/-- A row of the lower child written before the snapshot is pinned, and one of the upper child
after it. -/
theorem written_in_time_held :
    ∃ s, Reachable (step halves) (WritesInTime halves) emptyRun s ∧ s.Published halves ∧
      (s.sinks .lower).installed[(⟨[0]⟩ : Key)]? = some [1] ∧
      (s.sinks .upper).installed[splitKey]? = some [2] := by
  obtain ⟨s, hreach, hpublished, hlower, hupper⟩ := exists_reachable_of_execute
    (step halves) (WritesInTime halves) emptyRun
    (fun s => s.Published halves ∧ s.keyspace.current[(⟨[0]⟩ : Key)]? = some [1] ∧
      s.keyspace.current[splitKey]? = some [2])
    (.write ⟨[0]⟩ 1 ⟨0, 0, 0⟩ (some [1]) :: .resume :: List.replicate 11 .advance ++
      .write splitKey 2 ⟨1, 0, 0⟩ (some [2]) :: List.replicate 5 .advance) (by decide +kernel)
  have hheld := (children_hold_source halves wholeMeta .empty (fun _ => ⟨none, ∅⟩) s halves_ready
    hreach hpublished).2
  exact ⟨s, hreach, hpublished, (hheld .lower ⟨[0]⟩).trans hlower,
    (hheld .upper splitKey).trans hupper⟩

/-- A row written when the catch-up is done: the source accepts it, and no child holds it. -/
theorem write_after_catch_up_lost :
    halves.Ready wholeMeta ∧
    ∃ s, Reachable (step halves) anyStep emptyRun s ∧ s.Published halves ∧
      (halves.child .upper).bounds.contains splitKey = true ∧
      s.keyspace.current[splitKey]? = some [7] ∧
      (s.sinks .upper).installed[splitKey]? = none := by
  refine ⟨halves_ready, ?_⟩
  exact exists_reachable_of_execute (step halves) anyStep emptyRun
    (fun s => s.Published halves ∧ (halves.child .upper).bounds.contains splitKey = true ∧
      s.keyspace.current[splitKey]? = some [7] ∧ (s.sinks .upper).installed[splitKey]? = none)
    (.resume :: List.replicate 14 .advance ++
      [.write splitKey 2 ⟨1, 0, 0⟩ (some [7]), .advance]) (by decide +kernel)

end SplitRun

end MongrelDB.Tablets
