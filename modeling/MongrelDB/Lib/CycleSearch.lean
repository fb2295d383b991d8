import Mathlib.Data.List.Chain
import Mathlib.Data.List.Nodup
import Mathlib.Algebra.Order.BigOperators.Group.List
import Mathlib.Algebra.Order.Ring.Nat
import Mathlib.Logic.Relation

/-!
# Depth-first search for a cycle

An iterative search over a graph given by the list of successors of a node.
-/

namespace MongrelDB.Lib

open List

universe u

variable {α : Type u} [DecidableEq α]

/-! ## The search -/

/-- The path from `next` on, outermost first. -/
def closeCycle (frames : List (α × List α)) (next : α) : List α :=
  ((frames.map Prod.fst).takeWhile fun v => decide (v ≠ next)) |>.concat next |>.reverse

/-- Visit everything that is reachable from the path. Answers the finished nodes, or a cycle. -/
def visitLoop (succ : α → List α) : Nat → List (α × List α) → List α → Except (List α) (List α)
  | _, [], done => .ok done
  | 0, _ :: _, done => .ok done
  | n + 1, (node, []) :: frames, done => visitLoop succ n frames (node :: done)
  | n + 1, (node, next :: rest) :: frames, done =>
    if next ∈ node :: frames.map Prod.fst then .error (closeCycle ((node, rest) :: frames) next)
    else if next ∈ done then visitLoop succ n ((node, rest) :: frames) done
    else visitLoop succ n ((next, succ next) :: (node, rest) :: frames) done

def findCycle (succ : α → List α) (fuel : Nat) : List α → List α → Option (List α)
  | [], _ => none
  | start :: starts, done =>
    if start ∈ done then findCycle succ fuel starts done
    else
      match visitLoop succ fuel [(start, succ start)] done with
      | .error cycle => some cycle
      | .ok done => findCycle succ fuel starts done

/-- Enough turns to enter and leave every node and to look at every edge. -/
def searchFuel (succ : α → List α) (nodes : List α) : Nat :=
  (nodes.map fun v => (succ v).length + 1).sum

/-! ## A found cycle -/

/-- Every member has an edge to the next and the last one to the first. -/
def IsCycle (succ : α → List α) (cycle : List α) : Prop :=
  cycle.IsChain (fun a b => b ∈ succ a) ∧
    ∃ first ∈ cycle.head?, ∃ last ∈ cycle.getLast?, first ∈ succ last

variable {succ : α → List α} {frames : List (α × List α)} {done : List α} {n : Nat}

variable {cycle : List α}

omit [DecidableEq α] in
theorem IsCycle.exists_succ (h : IsCycle succ cycle) {v : α} (hv : v ∈ cycle) :
    ∃ w, w ∈ succ v := by
  obtain ⟨hchain, first, -, last, hlast, hedge⟩ := h
  obtain ⟨before, after, rfl⟩ := append_of_mem hv
  cases after with
  | nil =>
    obtain rfl : v = last := by simpa using hlast
    exact ⟨first, hedge⟩
  | cons w after =>
    have := (isChain_append.mp hchain).2.1
    exact ⟨w, (isChain_cons_cons.mp this).1⟩

/-- Each frame was entered by an edge from the one below it, and looks at successors of its node. -/
def PathFrames (succ : α → List α) : List (α × List α) → Prop
  | [] => True
  | (node, rest) :: frames =>
    (∀ v ∈ rest, v ∈ succ node) ∧ (∀ below ∈ frames.head?, node ∈ succ below.1) ∧
      PathFrames succ frames

omit [DecidableEq α] in
theorem PathFrames.isChain (h : PathFrames succ frames) :
    (frames.map Prod.fst).IsChain fun a b => a ∈ succ b := by
  induction frames with
  | nil => exact .nil
  | cons f frames ih =>
    obtain ⟨node, rest⟩ := f
    obtain ⟨-, hbelow, hframes⟩ := h
    rw [map_cons]
    cases frames with
    | nil => exact .singleton _
    | cons g frames => exact isChain_cons_cons.mpr ⟨hbelow g rfl, ih hframes⟩

omit [DecidableEq α] in
theorem pathFrames_start (start : α) : PathFrames succ [(start, succ start)] :=
  ⟨fun _ hv => hv, fun _ hb => absurd hb (by simp), trivial⟩

omit [DecidableEq α] in
theorem PathFrames.enter {node next : α} {rest : List α}
    (h : PathFrames succ ((node, rest) :: frames))
    (hedge : next ∈ succ node) : PathFrames succ ((next, succ next) :: (node, rest) :: frames) := by
  refine ⟨fun _ hv => hv, fun below hbelow => ?_, h⟩
  obtain rfl := Option.some.inj hbelow
  exact hedge

/-- The part of the path from the node an edge leads back to is a cycle. -/
theorem isCycle_closeCycle {node next : α} {rest : List α}
    (h : PathFrames succ ((node, next :: rest) :: frames))
    (hnext : next ∈ node :: frames.map Prod.fst) :
    IsCycle succ (closeCycle ((node, rest) :: frames) next) := by
  have hchain : (node :: frames.map Prod.fst).IsChain fun a b => a ∈ succ b := h.isChain
  obtain ⟨before, after, hpath, hfresh⟩ := eq_append_cons_of_mem hnext
  have hclose : closeCycle ((node, rest) :: frames) next = (before ++ [next]).reverse := by
    have hbefore : ∀ v ∈ before, decide (v ≠ next) = true := fun v hv =>
      decide_eq_true fun heq => hfresh (heq ▸ hv)
    rw [closeCycle, map_cons, hpath, takeWhile_append_of_pos hbefore,
      takeWhile_cons_of_neg (by simp), append_nil, concat_eq_append]
  rw [hclose]
  refine ⟨?_, next, by simp, node, ?_, h.1 next mem_cons_self⟩
  · rw [isChain_reverse]
    rw [hpath, append_cons] at hchain
    exact hchain.left_of_append
  · -- the innermost node is the last of the cycle
    rw [getLast?_reverse]
    have hhead := congrArg List.head? hpath
    cases before with
    | nil => simpa using hhead.symm
    | cons b before => simpa using hhead.symm

omit [DecidableEq α] in
theorem PathFrames.skip {node next : α} {rest : List α}
    (h : PathFrames succ ((node, next :: rest) :: frames)) :
    PathFrames succ ((node, rest) :: frames) :=
  ⟨fun v hv => h.1 v (mem_cons_of_mem _ hv), h.2⟩

theorem isCycle_of_visitLoop (hp : PathFrames succ frames)
    (h : visitLoop succ n frames done = .error cycle) : IsCycle succ cycle := by
  fun_induction visitLoop succ n frames done with
  | case1 | case2 => cases h
  | case3 n node frames done ih => exact ih hp.2.2 h
  | case4 n node next rest frames done hnext =>
    obtain rfl := Except.error.inj h
    exact isCycle_closeCycle hp hnext
  | case5 n node next rest frames done _ _ ih => exact ih hp.skip h
  | case6 n node next rest frames done _ _ ih =>
    exact ih (hp.skip.enter (hp.1 next mem_cons_self)) h

variable {starts : List α}

theorem isCycle_of_findCycle {fuel : Nat} :
    ∀ {done : List α}, findCycle succ fuel starts done = some cycle → IsCycle succ cycle := by
  induction starts with
  | nil =>
    intro done h
    exact absurd h (by simp [findCycle])
  | cons start starts ih =>
    intro done h
    rw [findCycle] at h
    split at h
    next => exact ih h
    next =>
      split at h
      next c hloop =>
        obtain rfl := Option.some.inj h
        exact isCycle_of_visitLoop (pathFrames_start start) hloop
      next => exact ih h

/-! ## Nothing found -/

/-- Every successor of a finished node was finished before it. -/
def Settled (succ : α → List α) : List α → Prop
  | [] => True
  | v :: vs => (∀ w ∈ succ v, w ∈ vs) ∧ v ∉ vs ∧ Settled succ vs

omit [DecidableEq α] in
theorem settled_nil : Settled succ ([] : List α) := trivial

omit [DecidableEq α] in
theorem Settled.closed (h : Settled succ done) {v w : α} (hv : v ∈ done) (hw : w ∈ succ v) :
    w ∈ done := by
  induction done with
  | nil => exact absurd hv not_mem_nil
  | cons d done ih =>
    obtain ⟨hsucc, -, hrest⟩ := h
    rcases mem_cons.mp hv with rfl | hv
    · exact mem_cons_of_mem _ (hsucc w hw)
    · exact mem_cons_of_mem _ (ih hrest hv)

omit [DecidableEq α] in
theorem Settled.closed_transGen (h : Settled succ done) {v w : α} (hv : v ∈ done)
    (hw : Relation.TransGen (fun a b => b ∈ succ a) v w) : w ∈ done := by
  induction hw with
  | single hedge => exact h.closed hv hedge
  | tail _ hedge ih => exact h.closed ih hedge

omit [DecidableEq α] in
theorem Settled.not_transGen (h : Settled succ done) {v : α} (hv : v ∈ done) :
    ¬ Relation.TransGen (fun a b => b ∈ succ a) v v := by
  induction done with
  | nil => exact absurd hv not_mem_nil
  | cons d done ih =>
    obtain ⟨hsucc, hfresh, hrest⟩ := h
    rcases mem_cons.mp hv with rfl | hv
    · -- the cycle leaves the last finished node for earlier ones and cannot come back
      intro hcycle
      obtain ⟨w, hedge, hback⟩ := Relation.TransGen.head'_iff.mp hcycle
      rcases Relation.reflTransGen_iff_eq_or_transGen.mp hback with heq | hback
      · exact hfresh (heq ▸ hsucc w hedge)
      · exact hfresh (hrest.closed_transGen (hsucc w hedge) hback)
    · exact ih hrest hv

/-- What a frame has looked at is finished, except the node of the frame above it. -/
def SeenFrames (succ : α → List α) (done : List α) : Option α → List (α × List α) → Prop
  | _, [] => True
  | above, (node, rest) :: frames =>
    (∀ v ∈ succ node, v ∈ done ∨ v ∈ rest ∨ above = some v) ∧
      SeenFrames succ done (some node) frames

omit [DecidableEq α] in
theorem SeenFrames.mono {above : Option α} {done' : List α} (h : SeenFrames succ done above frames)
    (hsub : ∀ v ∈ done, v ∈ done') : SeenFrames succ done' above frames := by
  induction frames generalizing above with
  | nil => trivial
  | cons f frames ih =>
    obtain ⟨hseen, hframes⟩ := h
    exact ⟨fun v hv => (hseen v hv).imp_left (hsub v), ih hframes⟩

omit [DecidableEq α] in
theorem SeenFrames.finish {node : α} (h : SeenFrames succ done (some node) frames) :
    SeenFrames succ (node :: done) none frames := by
  cases frames with
  | nil => trivial
  | cons f frames =>
    obtain ⟨hseen, hframes⟩ := h
    refine ⟨fun v hv => ?_, hframes.mono fun _ => mem_cons_of_mem _⟩
    rcases hseen v hv with hdone | hrest | habove
    · exact Or.inl (mem_cons_of_mem _ hdone)
    · exact Or.inr (Or.inl hrest)
    · obtain rfl := Option.some.inj habove
      exact Or.inl mem_cons_self

/-- The turns that are left: an entered node is left once and each of its remaining successors is
looked at once; a node of `nodes` that is not entered yet has all of that before it. -/
def pending (succ : α → List α) (nodes : List α) (frames : List (α × List α)) (done : List α) :
    Nat :=
  (frames.map fun f => f.2.length + 1).sum +
    searchFuel succ (nodes.filter fun v => decide (v ∉ done ∧ v ∉ frames.map Prod.fst))

theorem pending_cons (succ : α → List α) (nodes : List α) (node : α) (rest : List α)
    (frames : List (α × List α)) (done : List α) :
    pending succ nodes ((node, rest) :: frames) done =
      rest.length + 1 + (frames.map fun f => f.2.length + 1).sum +
        searchFuel succ (nodes.filter fun v =>
          decide (v ∉ done ∧ v ∉ node :: frames.map Prod.fst)) := by
  simp only [pending, map_cons, sum_cons]

omit [DecidableEq α] in
theorem searchFuel_le_of_sublist {vs ws : List α} (h : vs.Sublist ws) :
    searchFuel succ vs ≤ searchFuel succ ws :=
  (h.map _).sum_le_sum fun _ _ => Nat.zero_le _

/-- Entering a node moves its turns from the nodes to the path. -/
theorem searchFuel_enter {nodes : List α} (hnd : nodes.Nodup) (p : α → Prop) [DecidablePred p]
    {next : α} (hmem : next ∈ nodes) (hp : p next) :
    searchFuel succ (nodes.filter fun v => decide (p v)) = (succ next).length + 1 +
      searchFuel succ (nodes.filter fun v => decide (p v ∧ v ≠ next)) := by
  have hperm := ((perm_cons_erase hmem).filter fun v => decide (p v)).map
    fun v => (succ v).length + 1
  rw [hnd.erase_eq_filter, filter_cons_of_pos (by simpa using hp), filter_filter] at hperm
  rw [searchFuel, hperm.sum_eq, map_cons, sum_cons, searchFuel,
    filter_congr fun v _ => show _ = decide (p v ∧ v ≠ next) by
      rw [Bool.eq_iff_iff]
      simp]

section Complete

variable {nodes : List α} (hnd : nodes.Nodup) (hsucc : ∀ v ∈ nodes, ∀ w ∈ succ v, w ∈ nodes)

include hnd hsucc

/-- With enough fuel a loop that finds no cycle finishes the whole path. -/
theorem settled_of_visitLoop {done' : List α} (hfuel : pending succ nodes frames done ≤ n)
    (hin : ∀ v ∈ frames.map Prod.fst, v ∈ nodes) (hpath : (frames.map Prod.fst).Nodup)
    (hfresh : ∀ v ∈ frames.map Prod.fst, v ∉ done) (hseen : SeenFrames succ done none frames)
    (hp : PathFrames succ frames) (hdone : Settled succ done)
    (h : visitLoop succ n frames done = .ok done') :
    Settled succ done' ∧ (∀ v ∈ done, v ∈ done') ∧ ∀ v ∈ frames.map Prod.fst, v ∈ done' := by
  fun_induction visitLoop succ n frames done with
  | case1 n done =>
    obtain rfl := Except.ok.inj h
    exact ⟨hdone, fun _ hv => hv, fun _ hv => absurd hv not_mem_nil⟩
  | case2 done f frames =>
    rw [pending, map_cons, sum_cons] at hfuel
    omega
  | case3 n node frames done ih =>
    rw [map_cons] at hin hpath hfresh
    obtain ⟨hnode, hpath⟩ := nodup_cons.mp hpath
    have hfinished : Settled succ (node :: done) := by
      refine ⟨fun w hw => ?_, hfresh node mem_cons_self, hdone⟩
      simpa using hseen.1 w hw
    have hpending : pending succ nodes frames (node :: done) ≤ n := by
      have hsame : (nodes.filter fun v => decide (v ∉ node :: done ∧ v ∉ frames.map Prod.fst)) =
          nodes.filter fun v => decide (v ∉ done ∧ v ∉ node :: frames.map Prod.fst) :=
        filter_congr fun v _ => by
          rw [decide_eq_decide, mem_cons, mem_cons]
          tauto
      rw [pending_cons] at hfuel
      rw [pending, hsame]
      omega
    obtain ⟨hset, hkeep, hall⟩ := ih hpending (fun v hv => hin v (mem_cons_of_mem _ hv)) hpath
      (fun v hv hmem => by
        rcases mem_cons.mp hmem with rfl | hmem
        · exact hnode hv
        · exact hfresh v (mem_cons_of_mem _ hv) hmem)
      hseen.2.finish hp.2.2 hfinished h
    exact ⟨hset, fun v hv => hkeep v (mem_cons_of_mem _ hv),
      forall_mem_cons.mpr ⟨hkeep _ mem_cons_self, hall⟩⟩
  | case4 => cases h
  | case5 n node next rest frames done hnext hold ih =>
    -- a finished successor is passed over
    rw [pending_cons, length_cons] at hfuel
    refine ih (by rw [pending_cons]; omega) hin hpath hfresh ⟨fun v hv => ?_, hseen.2⟩ hp.skip
      hdone h
    rcases hseen.1 v hv with hv | hv | hv
    · exact Or.inl hv
    · rcases mem_cons.mp hv with rfl | hv
      · exact Or.inl hold
      · exact Or.inr (Or.inl hv)
    · exact absurd hv (by simp)
  | case6 n node next rest frames done hnext hnew ih =>
    -- any other one is entered
    have hmem : next ∈ nodes :=
      hsucc node (hin node mem_cons_self) next (hp.1 next mem_cons_self)
    have hpending : pending succ nodes ((next, succ next) :: (node, rest) :: frames) done ≤ n := by
      have henter : searchFuel succ _ = _ := searchFuel_enter hnd
        (fun v => v ∉ done ∧ v ∉ node :: frames.map Prod.fst) hmem ⟨hnew, hnext⟩
      have hsame : (nodes.filter fun v => decide
          (v ∉ done ∧ v ∉ next :: node :: frames.map Prod.fst)) =
          nodes.filter fun v => decide
            ((v ∉ done ∧ v ∉ node :: frames.map Prod.fst) ∧ v ≠ next) :=
        filter_congr fun v _ => by
          rw [decide_eq_decide, mem_cons (b := next)]
          tauto
      rw [pending_cons, length_cons, henter] at hfuel
      rw [pending_cons, map_cons, map_cons, sum_cons, hsame]
      dsimp only
      omega
    have hlooked : ∀ v ∈ succ node, v ∈ done ∨ v ∈ rest ∨ some next = some v := by
      intro v hv
      rcases hseen.1 v hv with hv | hv | hv
      · exact Or.inl hv
      · rcases mem_cons.mp hv with rfl | hv
        · exact Or.inr (Or.inr rfl)
        · exact Or.inr (Or.inl hv)
      · exact absurd hv (by simp)
    obtain ⟨hset, hkeep, hall⟩ := ih hpending (forall_mem_cons.mpr ⟨hmem, hin⟩)
      (nodup_cons.mpr ⟨hnext, hpath⟩) (forall_mem_cons.mpr ⟨hnew, hfresh⟩)
      ⟨fun v hv => Or.inr (Or.inl hv), hlooked, hseen.2⟩
      (hp.skip.enter (hp.1 next mem_cons_self)) hdone h
    exact ⟨hset, hkeep, fun v hv => hall v (mem_cons_of_mem _ hv)⟩

theorem settled_of_findCycle {fuel : Nat} (hfuel : searchFuel succ nodes ≤ fuel) :
    (∀ v ∈ starts, v ∈ nodes) → Settled succ done → findCycle succ fuel starts done = none →
      ∃ done', Settled succ done' ∧ (∀ v ∈ done, v ∈ done') ∧ ∀ v ∈ starts, v ∈ done' := by
  fun_induction findCycle succ fuel starts done with
  | case1 done =>
    exact fun _ hdone _ => ⟨done, hdone, fun _ hv => hv, fun _ hv => absurd hv not_mem_nil⟩
  | case2 start starts done hold ih =>
    intro hin hdone h
    obtain ⟨done', hset, hkeep, hall⟩ := ih (fun v hv => hin v (mem_cons_of_mem _ hv)) hdone h
    exact ⟨done', hset, hkeep, forall_mem_cons.mpr ⟨hkeep _ hold, hall⟩⟩
  | case3 => exact fun _ _ h => absurd h (by simp)
  | case4 start starts done hnew done₁ hloop ih =>
    intro hin hdone h
    have hstart : start ∈ nodes := hin start mem_cons_self
    have hpending : pending succ nodes [(start, succ start)] done ≤ fuel := by
      have henter : searchFuel succ _ = _ :=
        searchFuel_enter hnd (fun _ => True) hstart trivial
      have hless : searchFuel succ (nodes.filter fun v => decide (v ∉ done ∧ v ∉ [start])) ≤
          searchFuel succ (nodes.filter fun v => decide (True ∧ v ≠ start)) :=
        searchFuel_le_of_sublist (monotone_filter_right _ fun v hv => by
          simp only [decide_eq_true_eq, mem_singleton] at hv
          simpa using hv.2)
      rw [decide_true, filter_true] at henter
      rw [pending_cons]
      simp only [map_nil, sum_nil]
      omega
    obtain ⟨hset₁, hkeep₁, hpath₁⟩ := settled_of_visitLoop hnd hsucc hpending
      (by simpa using hstart) (by simp) (by simpa using hnew)
      ⟨fun v hv => Or.inr (Or.inl hv), trivial⟩ (pathFrames_start start) hdone hloop
    obtain ⟨done', hset, hkeep, hall⟩ :=
      ih (fun v hv => hin v (mem_cons_of_mem _ hv)) hset₁ h
    exact ⟨done', hset, fun v hv => hkeep v (hkeep₁ v hv),
      forall_mem_cons.mpr ⟨hkeep _ (hpath₁ _ (by simp)), hall⟩⟩

theorem not_transGen_of_findCycle (hstarts : ∀ v ∈ starts, v ∈ nodes)
    (hsinks : ∀ v, v ∉ starts → succ v = [])
    (h : findCycle succ (searchFuel succ nodes) starts [] = none) (v : α) :
    ¬ Relation.TransGen (fun a b => b ∈ succ a) v v := by
  obtain ⟨done, hset, -, hall⟩ := settled_of_findCycle hnd hsucc le_rfl hstarts settled_nil h
  by_cases hv : v ∈ starts
  · exact hset.not_transGen (hall v hv)
  · intro hcycle
    obtain ⟨w, hedge, -⟩ := Relation.TransGen.head'_iff.mp hcycle
    rw [hsinks v hv] at hedge
    exact absurd hedge not_mem_nil

end Complete

end MongrelDB.Lib
