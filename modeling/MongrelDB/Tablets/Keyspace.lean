import MongrelDB.Epoch.Clock
import MongrelDB.Tablets.Plans

/-!
# The data of a split

The source's keyspace keeps for every key a chain of versions in ascending order of
their timestamps.
-/

namespace MongrelDB.Tablets

open Lib
open Epoch (HlcTimestamp maxMicros maxLogical)
open List
open Option hiding mem_map

instance : Std.LawfulEqOrd Key := ⟨fun h => compare_eq_iff_eq.mp h⟩

abbrev Rows := Std.TreeMap Key Bytes

/-! ## Version chains -/

abbrev VersionChain := List (HlcTimestamp × Option Bytes)

def versionLe (a b : HlcTimestamp × Option Bytes) : Bool := decide (a.1 ≤ b.1)

def Ascending (chain : VersionChain) : Prop := chain.Pairwise fun a b => versionLe a b = true

/-- `push`, then a stable sort by timestamp. -/
def addVersion (chain : VersionChain) (ts : HlcTimestamp) (value : Option Bytes) :
    VersionChain :=
  (chain ++ [(ts, value)]).mergeSort versionLe

/-- `rfind`: the last version at or below `ts`; a deletion shows no value. -/
def visibleAt (chain : VersionChain) (ts : HlcTimestamp) : Option Bytes :=
  (chain.reverse.find? fun version => decide (version.1 ≤ ts)).bind (·.2)

theorem versionLe_trans (a b c : HlcTimestamp × Option Bytes) (hab : versionLe a b = true)
    (hbc : versionLe b c = true) : versionLe a c = true := by
  simp only [versionLe, decide_eq_true_eq] at *
  exact le_trans hab hbc

theorem versionLe_total (a b : HlcTimestamp × Option Bytes) :
    (versionLe a b || versionLe b a) = true := by
  simpa [versionLe] using le_total a.1 b.1

theorem ascending_addVersion (chain : VersionChain) (ts : HlcTimestamp) (value : Option Bytes) :
    Ascending (addVersion chain ts value) :=
  pairwise_mergeSort versionLe_trans versionLe_total _

/-- What a chain shows at `ts` depends on its versions up to `ts` only. -/
theorem visibleAt_eq (chain : VersionChain) (ts : HlcTimestamp) :
    visibleAt chain ts =
      ((chain.filter fun version => decide (version.1 ≤ ts)).getLast?).bind (·.2) := by
  unfold visibleAt
  rw [← head?_filter, filter_reverse, head?_reverse]

section

variable {chain : VersionChain} (h : Ascending chain) {ts ts' : HlcTimestamp} (hlt : ts < ts')
  (value : Option Bytes)
include h hlt

/-- The sort is stable, so the versions up to `ts` keep their places when one above `ts` comes
in. -/
theorem filter_addVersion :
    (addVersion chain ts' value).filter (fun version => decide (version.1 ≤ ts)) =
      chain.filter fun version => decide (version.1 ≤ ts) := by
  have hnew : decide (ts' ≤ ts) = false := decide_eq_false (not_le.mpr hlt)
  have happend : (chain ++ [(ts', value)]).filter (fun version => decide (version.1 ≤ ts)) =
      chain.filter fun version => decide (version.1 ≤ ts) := by
    simp [filter_append, hnew]
  have hsub : (chain.filter fun version => decide (version.1 ≤ ts)).Sublist
      ((addVersion chain ts' value).filter fun version => decide (version.1 ≤ ts)) := by
    have hle := sublist_mergeSort versionLe_trans versionLe_total (h.filter _)
      ((filter_sublist (p := fun version => decide (version.1 ≤ ts))).trans
        (sublist_append_left chain [(ts', value)]))
    simpa [addVersion] using hle.filter fun version => decide (version.1 ≤ ts)
  have hlen : ((addVersion chain ts' value).filter
      fun version => decide (version.1 ≤ ts)).length =
      (chain.filter fun version => decide (version.1 ≤ ts)).length := by
    rw [← happend]
    exact ((mergeSort_perm _ versionLe).filter _).length_eq
  exact (hsub.eq_of_length hlen.symm).symm

theorem visibleAt_addVersion_of_lt :
    visibleAt (addVersion chain ts' value) ts = visibleAt chain ts := by
  rw [visibleAt_eq, visibleAt_eq, filter_addVersion h hlt]

end

/-! ## Keyspace -/

structure MapKeyspace where
  rows : Std.TreeMap Key VersionChain
  ascending : ∀ (key : Key) (chain : VersionChain), rows[key]? = some chain → Ascending chain

/-- The last timestamp there is. -/
def maxTimestamp : HlcTimestamp := ⟨maxMicros, maxLogical, maxLogical⟩

inductive TabletMutation where
  | upsert (key : Key) (value : Bytes)
  | delete (key : Key)
  deriving DecidableEq, Repr

namespace TabletMutation

def key : TabletMutation → Key
  | upsert key _ => key
  | delete key => key

/-- The value the mutation gives its key. -/
def value : TabletMutation → Option Bytes
  | upsert _ value => some value
  | delete _ => none

end TabletMutation

namespace MapKeyspace

/-- `MapKeyspace::new` -/
def empty : MapKeyspace := ⟨∅, fun key chain h => by simp at h⟩

variable (ks : MapKeyspace)

/-- `insert` and `delete`: one more version of `key`. -/
def write (key : Key) (ts : HlcTimestamp) (value : Option Bytes) :
    MapKeyspace where
  rows := ks.rows.insert key (addVersion (ks.rows.getD key []) ts value)
  ascending := by
    intro key' chain h
    rw [Std.TreeMap.getElem?_insert] at h
    split at h
    · cases h
      exact ascending_addVersion _ _ _
    · exact ks.ascending key' chain h

def rowsAt (ts : HlcTimestamp) : Rows :=
  ks.rows.filterMap fun _ chain => visibleAt chain ts

/-- The present rows. -/
def current : Rows := ks.rowsAt maxTimestamp

def deltasAfter (ts : HlcTimestamp) : List TabletMutation :=
  let before := ks.rowsAt ts
  let current := ks.current
  (current.toList.filter fun e => before[e.1]? ≠ some e.2).map
      (fun e => TabletMutation.upsert e.1 e.2) ++
    (before.toList.filter fun e => current[e.1]? = none).map fun e => .delete e.1

theorem rowsAt_getElem? (ts : HlcTimestamp) (key : Key) :
    (ks.rowsAt ts)[key]? = ks.rows[key]?.bind fun chain => visibleAt chain ts := by
  unfold rowsAt
  rw [Std.TreeMap.getElem?_filterMap']

theorem rowsAt_write_of_lt {ts ts' : HlcTimestamp} (hlt : ts < ts')
    (key : Key) (value : Option Bytes) (key' : Key) :
    ((ks.write key ts' value).rowsAt ts)[key']? = (ks.rowsAt ts)[key']? := by
  rw [rowsAt_getElem?, rowsAt_getElem?]
  unfold write
  dsimp only
  rw [Std.TreeMap.getElem?_insert]
  split
  · next heq =>
    obtain rfl : key = key' := by simpa using heq
    rw [Std.TreeMap.getD_eq_getD_getElem?]
    cases hchain : ks.rows[key]? with
    | none =>
      -- a first version above `ts` is not seen at `ts`
      exact @visibleAt_addVersion_of_lt [] Pairwise.nil _ _ hlt value
    | some chain =>
      exact visibleAt_addVersion_of_lt (ks.ascending key chain hchain) hlt value
  · rfl

theorem deltasAfter_agree (ts : HlcTimestamp) {m : TabletMutation}
    (hm : m ∈ ks.deltasAfter ts) : ks.current[m.key]? = m.value := by
  simp only [deltasAfter, mem_append, mem_map, mem_filter] at hm
  rcases hm with ⟨e, ⟨he, -⟩, rfl⟩ | ⟨e, ⟨-, hnone⟩, rfl⟩
  · exact Std.TreeMap.mem_toList_iff_getElem?_eq_some.mp he
  · exact of_decide_eq_true hnone

theorem deltasAfter_cover (ts : HlcTimestamp) {key : Key}
    (hkey : ∀ m ∈ ks.deltasAfter ts, m.key ≠ key) :
    (ks.rowsAt ts)[key]? = ks.current[key]? := by
  by_contra hne
  cases hcurrent : ks.current[key]? with
  | some value =>
    have hmem : TabletMutation.upsert key value ∈ ks.deltasAfter ts := by
      simp only [deltasAfter, mem_append, mem_map, mem_filter]
      refine .inl ⟨(key, value), ⟨Std.TreeMap.mem_toList_iff_getElem?_eq_some.mpr hcurrent, ?_⟩,
        rfl⟩
      simpa [hcurrent] using hne
    exact hkey _ hmem rfl
  | none =>
    cases hbefore : (ks.rowsAt ts)[key]? with
    | none => exact hne (hbefore.trans hcurrent.symm)
    | some value =>
      have hmem : TabletMutation.delete key ∈ ks.deltasAfter ts := by
        simp only [deltasAfter, mem_append, mem_map, mem_filter]
        exact .inr ⟨(key, value), ⟨Std.TreeMap.mem_toList_iff_getElem?_eq_some.mpr hbefore,
          by simpa using hcurrent⟩, rfl⟩
      exact hkey _ hmem rfl

end MapKeyspace

/-! ## Children -/

structure MapChildSink where
  staged : Option Rows
  installed : Rows

namespace MapChildSink

variable (sink : MapChildSink)

def beginBuild : MapChildSink := { sink with staged := some ∅ }

/-- `none` is `NoStagedBuild`. -/
def stage (key : Key) (value : Bytes) : Option MapChildSink :=
  sink.staged.map fun staged => { sink with staged := some (staged.insert key value) }

def installStaged : Option MapChildSink :=
  sink.staged.map fun staged => { staged := none, installed := staged }

def applyDelta : TabletMutation → MapChildSink
  | .upsert key value => { sink with installed := sink.installed.insert key value }
  | .delete key => { sink with installed := sink.installed.erase key }

theorem applyDelta_installed (m : TabletMutation) (key : Key) :
    (sink.applyDelta m).installed[key]? =
      if m.key = key then m.value else sink.installed[key]? := by
  cases m with
  | upsert k v =>
    show (sink.installed.insert k v)[key]? = if k = key then some v else sink.installed[key]?
    rw [Std.TreeMap.getElem?_insert]
    by_cases heq : k = key
    · simp [heq]
    · rw [if_neg heq, if_neg (by simpa using heq)]
  | delete k =>
    show (sink.installed.erase k)[key]? = if k = key then none else sink.installed[key]?
    rw [Std.TreeMap.getElem?_erase]
    by_cases heq : k = key
    · simp [heq]
    · rw [if_neg heq, if_neg (by simpa using heq)]

end MapChildSink

/-- The two children. -/
inductive Half where
  | lower
  | upper
  deriving DecidableEq, Repr

def SplitPlan.child (plan : SplitPlan) : Half → ChildPlan
  | .lower => plan.children.1
  | .upper => plan.children.2

/-- `route_child`; `none` is `KeyOutsideSource`. -/
def routeChild (plan : SplitPlan) (key : Key) : Option Half :=
  if plan.children.1.bounds.contains key then some .lower
  else if plan.children.2.bounds.contains key then some .upper
  else none

variable {plan : SplitPlan}

theorem routeChild_eq_some (h : plan.validate = .ok ()) {key : Key} {half : Half} :
    routeChild plan key = some half ↔ (plan.child half).bounds.contains key = true := by
  obtain ⟨hsplit, -⟩ := SplitPlan.validate_spec h
  have hapart := PartitionBounds.splitAt_disjoint hsplit key
  unfold routeChild
  cases half with
  | lower =>
    simp only [SplitPlan.child]
    split
    · next hl => exact iff_of_true rfl hl
    · next hl => exact iff_of_false (by split <;> simp) hl
  | upper =>
    simp only [SplitPlan.child]
    split
    · next hl => exact iff_of_false (by simp) fun hu => hapart ⟨hl, hu⟩
    · split
      · next hu => exact iff_of_true rfl hu
      · next hu => exact iff_of_false (by simp) hu

/-- The loop of `build_children` over the snapshot. -/
def stageRows (plan : SplitPlan) (rows : List (Key × Bytes)) (sinks : Half → MapChildSink) :
    Option (Half → MapChildSink) :=
  rows.foldlM (fun sinks row => do
    let half ← routeChild plan row.1
    let sink ← (sinks half).stage row.1 row.2
    return Function.update sinks half sink) sinks

/-- One row: its child's staged build gets it, all else is as it was. -/
theorem stage_cases {row : Key × Bytes} {sinks sinks' : Half → MapChildSink} (h : (do
    let half ← routeChild plan row.1 let sink ← (sinks half).stage row.1 row.2
    return Function.update sinks half sink) = some sinks') (half : Half) :
    (sinks' half).installed = (sinks half).installed ∧
      (routeChild plan row.1 = some half → ∃ staged, (sinks half).staged = some staged ∧
        (sinks' half).staged = some (staged.insert row.1 row.2)) ∧
      (routeChild plan row.1 ≠ some half → sinks' half = sinks half) := by
  obtain ⟨half', hroute, hrest⟩ := bind_eq_some_iff.mp h
  obtain ⟨sink, hsink, hret⟩ := bind_eq_some_iff.mp hrest
  obtain ⟨staged, hstaged, rfl⟩ := map_eq_some_iff.mp hsink
  cases hret
  by_cases heq : half = half'
  · subst heq
    refine ⟨by rw [Function.update_self], fun _ => ⟨staged, hstaged, ?_⟩,
      fun hne => absurd hroute hne⟩
    rw [Function.update_self]
  · rw [Function.update_of_ne heq]
    refine ⟨rfl, fun hroute' => ?_, fun _ => rfl⟩
    exact absurd (some.inj (hroute'.symm.trans hroute)) heq

/-- A completed staging: a child's build holds the rows routed to it. -/
theorem stageRows_spec {half : Half} :
    ∀ {rows : List (Key × Bytes)} {sinks sinks' : Half → MapChildSink} {staged : Rows},
      (rows.map (·.1)).Nodup → stageRows plan rows sinks = some sinks' →
      (sinks half).staged = some staged →
      (sinks' half).installed = (sinks half).installed ∧
      ∃ staged', (sinks' half).staged = some staged' ∧
        (∀ row ∈ rows, routeChild plan row.1 = some half → staged'[row.1]? = some row.2) ∧
        ∀ key : Key, (key ∈ rows.map (·.1) → routeChild plan key ≠ some half) →
          staged'[key]? = staged[key]? := by
  intro rows
  induction rows with
  | nil =>
    rintro sinks sinks' staged - h hstaged
    cases h
    exact ⟨rfl, staged, hstaged, fun row hrow => (by cases hrow), fun _ _ => rfl⟩
  | cons row rows ih =>
    intro sinks sinks' staged hnodup h hstaged
    rw [map_cons, nodup_cons] at hnodup
    obtain ⟨sinks₁, hfirst, hrest⟩ := bind_eq_some_iff.mp h
    obtain ⟨hinst, hin, hout⟩ := stage_cases hfirst half
    by_cases hroute : routeChild plan row.1 = some half
    · obtain ⟨staged₀, hstaged₀, hstaged₁⟩ := hin hroute
      obtain rfl : staged₀ = staged := some.inj (hstaged₀.symm.trans hstaged)
      obtain ⟨hinst', staged', hstaged', hmem, helse⟩ := ih hnodup.2 hrest hstaged₁
      refine ⟨hinst'.trans hinst, staged', hstaged', ?_, ?_⟩
      · intro r hr hr'
        rcases mem_cons.mp hr with rfl | hr
        · rw [helse r.1 fun hmem => absurd hmem hnodup.1, Std.TreeMap.getElem?_insert_self]
        · exact hmem r hr hr'
      · intro key hkey
        have hne : row.1 ≠ key := by
          rintro rfl
          exact hkey mem_cons_self hroute
        rw [helse key fun hk => hkey (mem_cons_of_mem _ hk), Std.TreeMap.getElem?_insert,
          if_neg (by simpa using hne)]
    · rw [← hout hroute] at hstaged
      obtain ⟨hinst', staged', hstaged', hmem, helse⟩ := ih hnodup.2 hrest hstaged
      refine ⟨hinst'.trans hinst, staged', hstaged', ?_, ?_⟩
      · intro r hr hr'
        rcases mem_cons.mp hr with rfl | hr
        · exact absurd hr' hroute
        · exact hmem r hr hr'
      · exact fun key hkey => helse key fun hk => hkey (mem_cons_of_mem _ hk)

end MongrelDB.Tablets
