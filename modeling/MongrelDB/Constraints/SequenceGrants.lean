import MongrelDB.Consensus.Replay
import MongrelDB.DistTxn.Status

/-!
# Sequence grants

A sequence tablet grants ranges of values.
-/

namespace MongrelDB.Constraints

open Epoch Lib Consensus

/-- `u64::MAX` -/
def maxValue : Nat := 2 ^ 64 - 1

def maxSequenceGrantWidth : Nat := 1000000

abbrev SequenceName := Nat

/-- The 16 bytes of a grant's command id. -/
abbrev GrantId := Nat

structure SequenceGrant where
  sequence : SequenceName
  first : Nat
  last : Nat
  holder : Nat
  grantedAt : HlcTimestamp
  commandId : GrantId
  deriving DecidableEq, Repr

/-- `SequenceCommand::Grant` -/
structure SequenceCommand where
  sequence : SequenceName
  width : Nat
  holder : Nat
  grantedAt : HlcTimestamp
  deriving DecidableEq, Repr

/-- What a command of a sequence group's log carries. -/
inductive SequenceBody where
  | grant (command : SequenceCommand)
  /-- maintenance and no-ops -/
  | pass
  /-- a catalog command, or an envelope that does not decode -/
  | fault (reason : String)
  deriving DecidableEq, Repr

inductive SequenceRejectionReason where
  | invalidWidth (width : Nat)
  | exhausted (sequence : SequenceName)
  deriving DecidableEq, Repr

structure SequenceRejection where
  position : LogId
  commandId : Option GrantId
  reason : SequenceRejectionReason
  deriving DecidableEq, Repr

structure SequenceHighWater where
  highWater : Nat
  lastGrant : Option SequenceGrant
  deriving DecidableEq, Repr

structure SequenceAllocatorState where
  sequences : Std.TreeMap SequenceName SequenceHighWater := ∅
  grants : Std.TreeMap GrantId SequenceGrant := ∅
  rejections : List SequenceRejection := []

variable {c : SequenceCommand}

namespace SequenceAllocatorState

/-- The last value granted, zero if none was. -/
def highWater (st : SequenceAllocatorState) (sequence : SequenceName) : Nat :=
  (st.sequences[sequence]?).elim 0 (·.highWater)

section

variable (st : SequenceAllocatorState) (command : AppliedCommand GrantId SequenceBody)
  (reason : SequenceRejectionReason)

def journal : SequenceAllocatorState :=
  { st with
    rejections := DistTxn.pushBounded st.rejections
      { position := command.position, commandId := command.command.commandId, reason := reason } }

theorem journal_spec :
    (st.journal command reason).grants = st.grants ∧
      ∀ sequence, (st.journal command reason).highWater sequence = st.highWater sequence := by
  constructor
  · simp only [journal]
  · intro sequence
    simp only [highWater, journal]

end

/-- The grant of the `width` values after the high-water mark. -/
def nextGrant (st : SequenceAllocatorState) (id : GrantId) (c : SequenceCommand) :
    SequenceGrant where
  sequence := c.sequence
  first := st.highWater c.sequence + 1
  last := st.highWater c.sequence + c.width
  holder := c.holder
  grantedAt := c.grantedAt
  commandId := id

def applyGrant (command : AppliedCommand GrantId SequenceBody) (st : SequenceAllocatorState)
    (c : SequenceCommand) : SequenceAllocatorState :=
  if c.width = 0 ∨ maxSequenceGrantWidth < c.width then
    st.journal command (.invalidWidth c.width)
  else
    let commandId := command.command.commandId.getD 0
    -- both `checked_add`s
    if maxValue < st.highWater c.sequence + 1 ∨ maxValue < st.highWater c.sequence + c.width then
      st.journal command (.exhausted c.sequence)
    else
      let grant := st.nextGrant commandId c
      { st with
        sequences := st.sequences.insert c.sequence ⟨grant.last, some grant⟩
        grants := st.grants.insert commandId grant }

/-- `SequenceApplySink::apply`, without the position it skips by. -/
def apply : SinkApply GrantId SequenceBody SequenceAllocatorState := fun command st =>
  match command.command.body with
  | .grant c => .ok (applyGrant command st c)
  | .pass => .ok st
  | .fault reason => .error (.corrupt reason)

/-- The command made `g` of the values after the high-water mark. -/
structure Makes (st st' : SequenceAllocatorState) (id : GrantId) (c : SequenceCommand)
    (g : SequenceGrant) : Prop where
  grant : g = st.nextGrant id c
  nonempty : g.first ≤ g.last
  bounded : g.last ≤ maxValue
  mark : st'.highWater c.sequence = g.last
  marks : ∀ sequence, sequence ≠ c.sequence → st'.highWater sequence = st.highWater sequence
  grants : st'.grants = st.grants.insert id g

theorem applyGrant_accepted (command : AppliedCommand GrantId SequenceBody)
    {st : SequenceAllocatorState}
    (hwidth : 1 ≤ c.width ∧ c.width ≤ maxSequenceGrantWidth)
    (hroom : st.highWater c.sequence + c.width ≤ maxValue) :
    Makes st (applyGrant command st c) (command.command.commandId.getD 0) c
        (st.nextGrant (command.command.commandId.getD 0) c) ∧
      (applyGrant command st c).rejections = st.rejections := by
  unfold applyGrant
  rw [if_neg (by omega)]
  dsimp only
  rw [if_neg (by omega)]
  refine ⟨⟨rfl, ?_, ?_, ?_, fun sequence hne => ?_, rfl⟩, rfl⟩
  · show st.highWater c.sequence + 1 ≤ st.highWater c.sequence + c.width
    omega
  · exact hroom
  · simp [highWater]
  · have hcompare : ¬ compare c.sequence sequence = .eq := by
      simpa using fun heq => hne heq.symm
    simp only [highWater, Std.TreeMap.getElem?_insert, if_neg hcompare]

theorem applyGrant_cases (command : AppliedCommand GrantId SequenceBody)
    (st : SequenceAllocatorState) (c : SequenceCommand) :
    ((applyGrant command st c).grants = st.grants ∧
      ∀ sequence, (applyGrant command st c).highWater sequence = st.highWater sequence) ∨
    ∃ g, Makes st (applyGrant command st c) (command.command.commandId.getD 0) c g := by
  by_cases hwidth : 1 ≤ c.width ∧ c.width ≤ maxSequenceGrantWidth
  · by_cases hroom : st.highWater c.sequence + c.width ≤ maxValue
    · exact .inr ⟨_, (applyGrant_accepted command hwidth hroom).1⟩
    · unfold applyGrant
      rw [if_neg (by omega)]
      dsimp only
      rw [if_pos (by omega)]
      exact .inl (st.journal_spec command _)
  · unfold applyGrant
    rw [if_pos (by omega)]
    exact .inl (st.journal_spec command _)

theorem apply_cases {command : AppliedCommand GrantId SequenceBody}
    {st st' : SequenceAllocatorState} (h : apply command st = .ok st') :
    (st'.grants = st.grants ∧ ∀ sequence, st'.highWater sequence = st.highWater sequence) ∨
    ∃ c g, command.command.body = .grant c ∧
      Makes st st' (command.command.commandId.getD 0) c g := by
  unfold apply at h
  split at h
  · next c hbody =>
    cases h
    refine (applyGrant_cases command st c).imp_right ?_
    rintro ⟨g, hg⟩
    exact ⟨c, g, hbody, hg⟩
  · cases h
    exact .inl ⟨rfl, fun _ => rfl⟩
  · cases h

theorem Makes.mark_le {st st' : SequenceAllocatorState} {id : GrantId}
    {g : SequenceGrant} (h : Makes st st' id c g) (sequence : SequenceName) :
    st.highWater sequence ≤ st'.highWater sequence := by
  by_cases heq : sequence = c.sequence
  · subst heq
    have hfirst : g.first = st.highWater c.sequence + 1 := by rw [h.grant]; rfl
    have hnonempty := h.nonempty
    rw [h.mark]
    omega
  · rw [h.marks sequence heq]

end SequenceAllocatorState

/-! ## Grants and entries -/

abbrev SequenceLog := List (RaftLogEntry GrantId SequenceBody Unit)

abbrev SequenceMachine := StateMachine GrantId Unit (Held SequenceAllocatorState)

/-- The replica that has applied the first `k` entries. -/
abbrev replica (retention : Nat) (log : SequenceLog) (k : Nat) :
    Except StateMachineError SequenceMachine :=
  uninterrupted SequenceAllocatorState.apply retention {} log k

/-- Entry `j` of the log carries the grant command `c`. -/
def Carries (log : SequenceLog) (j : Nat) (id : Option GrantId) (c : SequenceCommand) : Prop :=
  ∃ entry ts, log[j]? = some entry ∧ entry.payload = .normal ⟨id, ts, .grant c⟩

/-- Entry `j` of the log made the grant `g`. -/
def MadeAt (retention : Nat) (log : SequenceLog) (j : Nat) (g : SequenceGrant) : Prop :=
  ∃ (m m' : SequenceMachine) (id : Option GrantId) (c : SequenceCommand),
    replica retention log j = .ok m ∧ replica retention log (j + 1) = .ok m' ∧
      Carries log j id c ∧
      SequenceAllocatorState.Makes m.sink.state m'.sink.state (id.getD 0) c g

section Entries

variable {retention : Nat} {log : SequenceLog} {j j' k : Nat} {g g' : SequenceGrant}

theorem Carries.lt {id : Option GrantId} (h : Carries log j id c) :
    j < log.length := by
  obtain ⟨entry, ts, hentry, -⟩ := h
  exact (List.getElem?_eq_some_iff.mp hentry).1

theorem Carries.append {id : Option GrantId} (h : Carries log j id c)
    (more : SequenceLog) : Carries (log ++ more) j id c := by
  have hlt := h.lt
  obtain ⟨entry, ts, hentry, hpayload⟩ := h
  exact ⟨entry, ts, by rw [List.getElem?_append_left hlt]; exact hentry, hpayload⟩

theorem MadeAt.append (h : MadeAt retention log j g) (more : SequenceLog) :
    MadeAt retention (log ++ more) j g := by
  obtain ⟨m, m', id, c, hm, hm', hcarries, hmakes⟩ := h
  have hlt := hcarries.lt
  refine ⟨m, m', id, c, ?_, ?_, hcarries.append more, hmakes⟩
  · rw [replica, uninterrupted_append hlt.le]
    exact hm
  · rw [replica, uninterrupted_append hlt]
    exact hm'

theorem mark_mono {m m' : SequenceMachine} (hjk : j ≤ k) (hm : replica retention log j = .ok m)
    (hm' : replica retention log k = .ok m') (sequence : SequenceName) :
    m.sink.state.highWater sequence ≤ m'.sink.state.highWater sequence := by
  refine uninterrupted_preserves (I := fun _ => True)
    (R := fun st st' => st.highWater sequence ≤ st'.highWater sequence)
    (fun _ => le_rfl) (fun _ _ _ => Nat.le_trans) trivial ?_ hjk hm hm'
  intro entry _ command _ st st' _ happly
  refine ⟨trivial, ?_⟩
  rcases SequenceAllocatorState.apply_cases happly with ⟨-, hmarks⟩ | ⟨c, g, -, hmakes⟩
  · exact (hmarks sequence).ge
  · exact hmakes.mark_le sequence

section

variable (h : MadeAt retention log j g)
include h

theorem MadeAt.range : g.first ≤ g.last ∧ g.last ≤ maxValue := by
  obtain ⟨m, m', id, c, -, -, -, hmakes⟩ := h
  exact ⟨hmakes.nonempty, hmakes.bounded⟩

theorem MadeAt.carries :
    ∃ id c, Carries log j id c ∧ g.commandId = id.getD 0 ∧ g.sequence = c.sequence := by
  obtain ⟨m, m', id, c, -, -, hcarries, hmakes⟩ := h
  refine ⟨id, c, hcarries, ?_, ?_⟩ <;> rw [hmakes.grant] <;> rfl

theorem MadeAt.unique (h' : MadeAt retention log j g') :
    g = g' := by
  obtain ⟨m, _, id, c, hm, -, ⟨entry, ts, hentry, hpayload⟩, hmakes⟩ := h
  obtain ⟨n, _, id', c', hn, -, ⟨entry', ts', hentry', hpayload'⟩, hmakes'⟩ := h'
  obtain rfl : entry = entry' := Option.some.inj (hentry.symm.trans hentry')
  rw [hpayload] at hpayload'
  cases hpayload'
  cases hm.symm.trans hn
  rw [hmakes.grant, hmakes'.grant]

variable (h' : MadeAt retention log j' g') (hsequence : g.sequence = g'.sequence)
include h' hsequence

theorem MadeAt.lt (hj : j < j') : g.last < g'.first := by
  obtain ⟨_, m, id, c, -, hm, -, hmakes⟩ := h
  obtain ⟨n, _, id', c', hn, -, -, hmakes'⟩ := h'
  have hmono := mark_mono hj hm hn c.sequence
  have hc : g.sequence = c.sequence := by rw [hmakes.grant]; rfl
  have hc' : g'.sequence = c'.sequence := by rw [hmakes'.grant]; rfl
  have hfirst : g'.first = n.sink.state.highWater c'.sequence + 1 := by rw [hmakes'.grant]; rfl
  rw [hmakes.mark, ← hc, hsequence, hc'] at hmono
  omega

/-- Two grants of one sequence that share a value are one. -/
theorem MadeAt.eq_of_mem {value : Nat} (hv : g.first ≤ value ∧ value ≤ g.last)
    (hv' : g'.first ≤ value ∧ value ≤ g'.last) : j = j' ∧ g = g' := by
  rcases Nat.lt_trichotomy j j' with hlt | rfl | hlt
  · have := h.lt h' hsequence hlt
    omega
  · exact ⟨rfl, h.unique h'⟩
  · have := h'.lt h hsequence.symm hlt
    omega

end

theorem stored_madeAt {m : SequenceMachine} (h : replica retention log k = .ok m) {id : GrantId}
    (hg : m.sink.state.grants[id]? = some g) :
    g.commandId = id ∧ ∃ j < k, MadeAt retention log j g := by
  induction k generalizing m with
  | zero =>
    cases h
    simp [freshMachine] at hg
  | succ k ih =>
    obtain ⟨m₀, hm₀, heq | ⟨entry, hentry, command, hpayload, happly⟩⟩ := uninterrupted_step h
    · rw [heq] at hg
      obtain ⟨hid, j, hj, hmade⟩ := ih hm₀ hg
      exact ⟨hid, j, Nat.lt_succ_of_lt hj, hmade⟩
    · rcases SequenceAllocatorState.apply_cases happly with ⟨hgrants, -⟩ | ⟨c, g', hbody, hmakes⟩
      · rw [hgrants] at hg
        obtain ⟨hid, j, hj, hmade⟩ := ih hm₀ hg
        exact ⟨hid, j, Nat.lt_succ_of_lt hj, hmade⟩
      · rw [hmakes.grants, Std.TreeMap.getElem?_insert] at hg
        split at hg
        · next heq =>
          cases hg
          obtain rfl := Std.LawfulEqOrd.eq_of_compare heq
          obtain ⟨commandId, ts, body⟩ := command
          obtain rfl : body = .grant c := hbody
          exact ⟨by rw [hmakes.grant]; rfl, k, Nat.lt_succ_self k, m₀, m, commandId, c, hm₀, h,
            ⟨entry, ts, hentry, hpayload⟩, hmakes⟩
        · obtain ⟨hid, j, hj, hmade⟩ := ih hm₀ hg
          exact ⟨hid, j, Nat.lt_succ_of_lt hj, hmade⟩

end Entries

/-- Any two grants of one sequence that members hold are the same or share no value. -/
def GrantsApart (s : Cluster GrantId Unit SequenceAllocatorState) : Prop :=
  ∀ (a b : Nat) (id id' : GrantId) (g g' : SequenceGrant),
    (s.nodes a).machine.sink.state.grants[id]? = some g →
    (s.nodes b).machine.sink.state.grants[id']? = some g' → g.sequence = g'.sequence →
    g = g' ∨ g.last < g'.first ∨ g'.last < g.first

theorem grants_apart (retention : Nat) (log : SequenceLog) (hlog : WellNumbered log)
    (s : Cluster GrantId Unit SequenceAllocatorState)
    (h : Reachable (Cluster.step SequenceAllocatorState.apply retention log) anyStep
      (.fresh {}) s) :
    GrantsApart s := by
  intro a b id id' g g' hg hg' hsequence
  obtain ⟨k, m, hm, hsink⟩ := reachable_sink hlog h a
  obtain ⟨k', m', hm', hsink'⟩ := reachable_sink hlog h b
  rw [hsink] at hg
  rw [hsink'] at hg'
  obtain ⟨-, j, -, hmade⟩ := stored_madeAt hm hg
  obtain ⟨-, j', -, hmade'⟩ := stored_madeAt hm' hg'
  rcases Nat.lt_trichotomy j j' with hlt | rfl | hlt
  · exact .inr (.inl (hmade.lt hmade' hsequence hlt))
  · exact .inl (hmade.unique hmade')
  · exact .inr (.inr (hmade'.lt hmade hsequence.symm hlt))

def twoGrants : SequenceLog :=
  [⟨⟨1, 1⟩, .normal ⟨some 7, none, .grant ⟨1, 10, 0, .zero⟩⟩⟩,
    ⟨⟨1, 2⟩, .normal ⟨some 8, none, .grant ⟨1, 5, 0, .zero⟩⟩⟩]

theorem grants_apart_on_two_members :
    ∃ s, Reachable (Cluster.step SequenceAllocatorState.apply 4 twoGrants) anyStep (.fresh {}) s ∧
      ((s.nodes 0).machine.sink.state.grants[7]?.isSome ∧
        (s.nodes 1).machine.sink.state.grants[8]?.isSome) ∧ GrantsApart s := by
  obtain ⟨s, hs, hheld⟩ := exists_reachable_of_execute
    (Cluster.step SequenceAllocatorState.apply 4 twoGrants) anyStep (.fresh {})
    (fun s => (s.nodes 0).machine.sink.state.grants[7]?.isSome ∧
      (s.nodes 1).machine.sink.state.grants[8]?.isSome)
    [.apply 0 0, .apply 1 0, .apply 1 1] (by decide)
  refine ⟨s, hs, hheld, grants_apart 4 twoGrants (fun i entry h => ?_) s hs⟩
  match i with
  | 0 | 1 => cases h; rfl
  | i + 2 => cases h

end MongrelDB.Constraints
