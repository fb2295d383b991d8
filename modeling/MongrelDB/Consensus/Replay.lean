import MongrelDB.Consensus.StateMachine
import MongrelDB.Lib.Transition
import Mathlib.Tactic.Common

/-!
# Crashes, restarts and snapshots leave no trace

The sink persists every command it takes; the record is persisted once per batch.
-/

namespace MongrelDB.Consensus

open Lib List

section Prefixes

variable {ι γ μ σ : Type} [DecidableEq ι]
variable (core : SinkApply ι γ σ) (retention : Nat)

/-- A machine before the first entry. -/
def freshMachine (s₀ : σ) : StateMachine ι μ (Held σ) :=
  { record := {}, members := none, sink := { position := .zero, state := s₀ } }

/-- Entry `i` has index `i + 1`; the bootstrap membership, entry 0 of openraft, is not one of
them. -/
def WellNumbered (log : List (RaftLogEntry ι γ μ)) : Prop :=
  ∀ i entry, log[i]? = some entry → entry.logId.index = i + 1

/-- The machine that has applied the first `k` entries once, without interruption. -/
def uninterrupted (s₀ : σ) (log : List (RaftLogEntry ι γ μ)) (k : Nat) :
    Except StateMachineError (StateMachine ι μ (Held σ)) :=
  applyEntries (skipping core) retention (freshMachine s₀) (log.take k)

end Prefixes

/-! ## One entry -/

section Entry

variable {ι γ μ σ : Type} [DecidableEq ι]

/-- The command that goes to the sink. -/
def AppliedRecord.takes (r : AppliedRecord ι) (entry : RaftLogEntry ι γ μ) :
    Option (ReplicatedCommand ι γ) :=
  match entry.payload with
  | .normal command => if r.isDuplicate command.commandId then none else some command
  | _ => none

def AppliedRecord.after (retention : Nat) (r : AppliedRecord ι) (entry : RaftLogEntry ι γ μ) :
    AppliedRecord ι :=
  { (match r.takes entry with
    | none => r
    | some command => r.dispatched retention command) with lastApplied := some entry.logId }

def membersAfter (members : Option μ) (entry : RaftLogEntry ι γ μ) : Option μ :=
  match entry.payload with
  | .membership m => some m
  | _ => members

def sinkAfter (apply : SinkApply ι γ σ) (r : AppliedRecord ι) (entry : RaftLogEntry ι γ μ)
    (sink : σ) : Except StateMachineError σ :=
  match r.takes entry with
  | none => .ok sink
  | some command => apply ⟨entry.logId, command⟩ sink

/-- The record decides alone; only the sink can fail. -/
theorem applyOne_eq {apply : SinkApply ι γ σ} {retention : Nat} {m : StateMachine ι μ σ}
    {entry : RaftLogEntry ι γ μ} (h : ¬ m.record.covers entry) :
    (applyOne apply retention m entry).map Prod.fst =
      (sinkAfter apply m.record entry m.sink).map fun sink =>
        { record := m.record.after retention entry
          members := membersAfter m.members entry
          sink := sink } := by
  rw [applyOne, if_neg h]
  unfold sinkAfter AppliedRecord.after AppliedRecord.takes membersAfter
  cases entry.payload with
  | blank => rfl
  | membership m => rfl
  | normal command =>
    dsimp only
    split
    · rfl
    · dsimp only
      cases apply ⟨entry.logId, command⟩ m.sink <;> rfl

omit [DecidableEq ι] in
theorem AppliedRecord.not_covers {r : AppliedRecord ι} {entry : RaftLogEntry ι γ μ}
    (h : r.position.index < entry.logId.index) : ¬ r.covers entry := by
  rintro ⟨last, hlast, hle⟩
  rw [AppliedRecord.position, hlast] at h
  exact absurd h (Nat.not_lt.mpr hle)

/-- `h'` is the sink `h`, or one that has got further. -/
def Held.Follows (h' h : Held σ) : Prop := h' = h ∨ h.position.index < h'.position.index

theorem Held.Follows.le {h h' : Held σ} (hf : h'.Follows h) :
    h.position.index ≤ h'.position.index := by
  rcases hf with rfl | hlt
  · exact le_rfl
  · exact Nat.le_of_lt hlt

theorem Held.Follows.trans {a b c : Held σ} (hab : b.Follows a) (hbc : c.Follows b) :
    c.Follows a := by
  rcases hbc with rfl | hlt
  · exact hab
  · exact .inr (Nat.lt_of_le_of_lt hab.le hlt)

omit [DecidableEq ι] in
theorem skipping_follows {core : SinkApply ι γ σ} {command : AppliedCommand ι γ}
    {h h' : Held σ} (happly : skipping core command h = .ok h') : h'.Follows h := by
  unfold skipping at happly
  split at happly
  · cases happly
    exact .inl rfl
  next hlt =>
    split at happly
    · cases happly
    · cases happly
      exact .inr (Nat.lt_of_not_le hlt)

end Entry

section Lemmas

variable {ι γ μ σ : Type} [DecidableEq ι]
variable {core : SinkApply ι γ σ} {retention : Nat} {s₀ : σ} {log : List (RaftLogEntry ι γ μ)}
  {entry : RaftLogEntry ι γ μ} {m : StateMachine ι μ (Held σ)} {k : Nat}

theorem applyEntries_append {τ : Type} {apply : SinkApply ι γ τ} (m : StateMachine ι μ τ)
    (as bs : List (RaftLogEntry ι γ μ)) :
    applyEntries apply retention m (as ++ bs) =
      (applyEntries apply retention m as).bind (applyEntries apply retention · bs) := by
  induction as generalizing m with
  | nil => rfl
  | cons a as ih =>
    rw [cons_append, applyEntries, applyEntries]
    cases applyOne apply retention m a with
    | error e => rfl
    | ok r => exact ih r.1

theorem uninterrupted_succ (h : log[k]? = some entry) :
    uninterrupted core retention s₀ log (k + 1) =
      (uninterrupted core retention s₀ log k).bind fun m =>
        (applyOne (skipping core) retention m entry).map Prod.fst := by
  have htake : log.take (k + 1) = log.take k ++ [entry] := by
    rw [take_add_one, h]
    rfl
  rw [uninterrupted, htake, applyEntries_append]
  refine congrArg _ (funext fun m => ?_)
  rw [applyEntries]
  cases applyOne (skipping core) retention m entry with
  | error e => rfl
  | ok r => rfl

theorem uninterrupted_length :
    uninterrupted core retention s₀ log log.length =
      applyEntries (skipping core) retention (freshMachine s₀) log := by
  rw [uninterrupted, take_length]

/-- A longer prefix that goes through goes through at every shorter one. -/
theorem uninterrupted_of_le {j k : Nat} (hjk : j ≤ k)
    (h : uninterrupted core retention s₀ log k = .ok m) :
    ∃ m', uninterrupted core retention s₀ log j = .ok m' := by
  have htake := take_append_drop j (log.take k)
  rw [take_take, Nat.min_eq_left hjk] at htake
  rw [uninterrupted, ← htake, applyEntries_append] at h
  cases hj : applyEntries (skipping core) retention (freshMachine s₀) (log.take j) with
  | error e => rw [hj] at h; cases h
  | ok m' => exact ⟨m', hj⟩

omit [DecidableEq ι] in
theorem entry_of_lt (hk : k < log.length) : ∃ entry, log[k]? = some entry :=
  ⟨log[k], getElem?_eq_getElem hk⟩

/-- What is known of the machine after `k` entries. -/
structure AtPrefix (k : Nat) (m : StateMachine ι μ (Held σ)) : Prop where
  index : m.record.position.index = k
  held : m.sink.position.index ≤ k

theorem uninterrupted_succ_eq (hlog : WellNumbered log) (hentry : log[k]? = some entry)
    (h : uninterrupted core retention s₀ log k = .ok m) (hm : AtPrefix k m) :
    uninterrupted core retention s₀ log (k + 1) =
      (sinkAfter (skipping core) m.record entry m.sink).map fun sink =>
        { record := m.record.after retention entry
          members := membersAfter m.members entry
          sink := sink } := by
  have hindex := hlog k entry hentry
  rw [uninterrupted_succ hentry, h,
    ← applyOne_eq (AppliedRecord.not_covers (by rw [hm.index]; omega))]
  rfl

theorem uninterrupted_atPrefix (hlog : WellNumbered log) (hk : k ≤ log.length)
    (h : uninterrupted core retention s₀ log k = .ok m) :
    AtPrefix k m := by
  induction k generalizing m with
  | zero =>
    cases h
    exact ⟨rfl, le_rfl⟩
  | succ k ih =>
    obtain ⟨entry, hentry⟩ := entry_of_lt (show k < log.length by omega)
    obtain ⟨m', hm'⟩ := uninterrupted_of_le (Nat.le_succ k) h
    have hbefore := ih (by omega) hm'
    have hindex := hlog k entry hentry
    rw [uninterrupted_succ_eq hlog hentry hm' hbefore] at h
    unfold sinkAfter at h
    split at h
    · cases h
      exact ⟨hindex, Nat.le_succ_of_le hbefore.held⟩
    · -- the sink holds less, so the command goes in
      next command _ =>
      rw [skipping, if_neg (by have := hbefore.held; dsimp only; omega)] at h
      dsimp only at h
      split at h
      · cases h
      · cases h
        exact ⟨hindex, Nat.le_of_eq hindex⟩

theorem held_follows (hlog : WellNumbered log) {j k : Nat} (hjk : j ≤ k) (hk : k ≤ log.length)
    {a b : StateMachine ι μ (Held σ)} (ha : uninterrupted core retention s₀ log j = .ok a)
    (hb : uninterrupted core retention s₀ log k = .ok b) : b.sink.Follows a.sink := by
  induction k generalizing b with
  | zero =>
    obtain rfl : j = 0 := by omega
    rw [ha] at hb
    cases hb
    exact .inl rfl
  | succ k ih =>
    rcases Nat.lt_or_eq_of_le hjk with hlt | rfl
    swap
    · rw [ha] at hb
      cases hb
      exact .inl rfl
    obtain ⟨entry, hentry⟩ := entry_of_lt (show k < log.length by omega)
    obtain ⟨m, hm⟩ := uninterrupted_of_le (Nat.le_succ k) hb
    refine (ih (by omega) (by omega) hm).trans ?_
    rw [uninterrupted_succ_eq hlog hentry hm (uninterrupted_atPrefix hlog (by omega) hm)] at hb
    unfold sinkAfter at hb
    split at hb
    · cases hb
      exact .inl rfl
    · next command _ =>
      cases happly : skipping core ⟨entry.logId, command⟩ m.sink with
      | error e => rw [happly] at hb; cases hb
      | ok sink =>
        rw [happly] at hb
        cases hb
        exact skipping_follows happly

/-! ## What every prefix keeps -/

/-- One entry changes the state of the sink as its command does, or not at all. -/
theorem uninterrupted_step {m' : StateMachine ι μ (Held σ)}
    (h : uninterrupted core retention s₀ log (k + 1) = .ok m') :
    ∃ m, uninterrupted core retention s₀ log k = .ok m ∧
      (m'.sink.state = m.sink.state ∨ ∃ entry, log[k]? = some entry ∧ ∃ command,
        entry.payload = .normal command ∧
          core ⟨entry.logId, command⟩ m.sink.state = .ok m'.sink.state) := by
  obtain ⟨m, hm⟩ := uninterrupted_of_le (Nat.le_succ k) h
  refine ⟨m, hm, ?_⟩
  rcases Nat.lt_or_ge k log.length with hk | hk
  swap
  · rw [uninterrupted, take_of_length_le (by omega)] at h hm
    cases h.symm.trans hm
    exact .inl rfl
  obtain ⟨entry, hentry⟩ := entry_of_lt hk
  rw [uninterrupted_succ hentry, hm] at h
  change (applyOne (skipping core) retention m entry).map Prod.fst = .ok m' at h
  cases happly : applyOne (skipping core) retention m entry with
  | error e => rw [happly] at h; cases h
  | ok r =>
    rw [happly] at h
    cases h
    refine (applyOne_state happly).imp_right ?_
    rintro ⟨command, hpayload, hstate⟩
    exact ⟨entry, hentry, command, hpayload, hstate⟩

theorem uninterrupted_invariant {I : σ → Prop} (h₀ : I s₀)
    (hstep : ∀ entry ∈ log, ∀ command, entry.payload = .normal command → ∀ st st', I st →
      core ⟨entry.logId, command⟩ st = .ok st' → I st')
    (h : uninterrupted core retention s₀ log k = .ok m) : I m.sink.state := by
  induction k generalizing m with
  | zero =>
    cases h
    exact h₀
  | succ k ih =>
    obtain ⟨m₀, hm₀, heq | ⟨entry, hentry, command, hpayload, happly⟩⟩ := uninterrupted_step h
    · rw [heq]
      exact ih hm₀
    · exact hstep entry (mem_of_getElem? hentry) command hpayload _ _ (ih hm₀) happly

/-- So does what each of them preserves between an earlier prefix and a later one. -/
theorem uninterrupted_preserves {I : σ → Prop} {R : σ → σ → Prop} (hrefl : ∀ st, R st st)
    (htrans : ∀ a b c, R a b → R b c → R a c) (h₀ : I s₀)
    (hstep : ∀ entry ∈ log, ∀ command, entry.payload = .normal command → ∀ st st', I st →
      core ⟨entry.logId, command⟩ st = .ok st' → I st' ∧ R st st')
    {j k : Nat} (hjk : j ≤ k) {a b : StateMachine ι μ (Held σ)}
    (ha : uninterrupted core retention s₀ log j = .ok a)
    (hb : uninterrupted core retention s₀ log k = .ok b) : R a.sink.state b.sink.state := by
  induction k generalizing b with
  | zero =>
    obtain rfl : j = 0 := by omega
    cases ha.symm.trans hb
    exact hrefl _
  | succ k ih =>
    rcases Nat.lt_or_eq_of_le hjk with hlt | rfl
    swap
    · cases ha.symm.trans hb
      exact hrefl _
    obtain ⟨m, hm, heq | ⟨entry, hentry, command, hpayload, happly⟩⟩ := uninterrupted_step hb
    · rw [heq]
      exact ih (by omega) hm
    · have hinv : I m.sink.state := uninterrupted_invariant h₀
        (fun entry hentry command hpayload st st' hst happly =>
          (hstep entry hentry command hpayload st st' hst happly).1) hm
      exact htrans _ _ _ (ih (by omega) hm)
        (hstep entry (mem_of_getElem? hentry) command hpayload _ _ hinv happly).2

/-! ## A machine whose parts stem from different prefixes -/

/-- Record, membership and sink of the prefixes `k`, `q` and `p`. -/
structure Behind (core : SinkApply ι γ σ) (retention : Nat) (s₀ : σ)
    (log : List (RaftLogEntry ι γ μ)) (m : StateMachine ι μ (Held σ)) (k q p : Nat)
    (a b c : StateMachine ι μ (Held σ)) : Prop where
  record : uninterrupted core retention s₀ log k = .ok a
  members : uninterrupted core retention s₀ log q = .ok b
  sink : uninterrupted core retention s₀ log p = .ok c
  eq : m = { record := a.record, members := b.members, sink := c.sink }
  le_members : k ≤ q
  le_sink : k ≤ p
  members_le : q ≤ log.length
  sink_le : p ≤ log.length

namespace Behind

variable {m a b c : StateMachine ι μ (Held σ)} {k q p : Nat} (hlog : WellNumbered log)
  (h : Behind core retention s₀ log m k q p a b c)
include hlog h

theorem index :
    m.record.position.index = k := by
  have hk := Nat.le_trans h.le_sink h.sink_le
  rw [h.eq]
  exact (uninterrupted_atPrefix hlog hk h.record).index

theorem sinkAfter_ahead (hlt : k < p) (hentry : log[k]? = some entry) :
    sinkAfter (skipping core) a.record entry c.sink = .ok c.sink := by
  obtain ⟨next, hnext⟩ := uninterrupted_of_le hlt h.sink
  have hbefore := uninterrupted_atPrefix hlog (Nat.le_trans h.le_sink h.sink_le) h.record
  have hmono := (held_follows hlog hlt h.sink_le hnext h.sink).le
  have hindex := hlog k entry hentry
  rw [uninterrupted_succ_eq hlog hentry h.record hbefore] at hnext
  unfold sinkAfter at hnext ⊢
  split
  · rfl
  · next command htakes =>
    -- the command went in when the sink came by, so the sink is at or past it
    rw [htakes] at hnext
    dsimp only at hnext ⊢
    rw [skipping, if_neg (by have := hbefore.held; dsimp only; omega)] at hnext
    rw [skipping, if_pos]
    dsimp only at hnext
    split at hnext
    · cases hnext
    · cases hnext
      exact hmono

omit hlog in
/-- The membership after an entry is that of the prefix with it, or still that of `q`. -/
theorem members_after (hk : k < log.length) {next : StateMachine ι μ (Held σ)}
    (hnext : uninterrupted core retention s₀ log (k + 1) = .ok next)
    (hmembers : next.members = membersAfter a.members entry) :
    ∃ q' b', k + 1 ≤ q' ∧ q' ≤ log.length ∧ uninterrupted core retention s₀ log q' = .ok b' ∧
      b'.members = membersAfter b.members entry := by
  rcases Nat.lt_or_eq_of_le h.le_members with hlt | rfl
  swap
  · obtain rfl : a = b := Except.ok.inj (h.record.symm.trans h.members)
    exact ⟨k + 1, next, le_rfl, hk, hnext, hmembers⟩
  by_cases hm : ∃ members, entry.payload = .membership members
  · obtain ⟨members, hm⟩ := hm
    refine ⟨k + 1, next, le_rfl, hk, hnext, ?_⟩
    rw [hmembers, membersAfter, membersAfter, hm]
  · refine ⟨q, b, hlt, h.members_le, h.members, ?_⟩
    unfold membersAfter
    split
    · next members hm' => exact absurd ⟨members, hm'⟩ hm
    · rfl

/-- One entry: the machine stays as it should, or the whole log fails here as well. -/
theorem applyOne (hentry : log[k]? = some entry) :
    (∃ m' q' p' a' b' c', (applyOne (skipping core) retention m entry).map Prod.fst = .ok m' ∧
      Behind core retention s₀ log m' (k + 1) q' p' a' b' c') ∨
    ∃ e, (Consensus.applyOne (skipping core) retention m entry).map Prod.fst = .error e ∧
      uninterrupted core retention s₀ log (k + 1) = .error e := by
  have hk : k < log.length := (List.getElem?_eq_some_iff.mp hentry).1
  have hbefore := uninterrupted_atPrefix hlog (Nat.le_of_lt hk) h.record
  have hsucc := uninterrupted_succ_eq hlog hentry h.record hbefore
  have hindex := hlog k entry hentry
  rw [applyOne_eq (AppliedRecord.not_covers (by rw [h.index hlog]; omega)), h.eq]
  dsimp only
  rcases Nat.lt_or_eq_of_le h.le_sink with hlt | rfl
  · obtain ⟨next, hnext⟩ := uninterrupted_of_le hlt h.sink
    rw [h.sinkAfter_ahead hlog hlt hentry]
    have hparts := hsucc.symm.trans hnext
    cases hsink : sinkAfter (skipping core) a.record entry a.sink with
    | error e => rw [hsink] at hparts; cases hparts
    | ok sink =>
      rw [hsink] at hparts
      cases hparts
      obtain ⟨q', b', hq, hqlen, hb', hmembers⟩ := h.members_after hk hnext rfl
      exact .inl ⟨_, q', p, _, b', c, rfl, ⟨hnext, hb', h.sink, by rw [hmembers], hq, hlt,
        hqlen, h.sink_le⟩⟩
  · obtain rfl : a = c := Except.ok.inj (h.record.symm.trans h.sink)
    cases hsink : sinkAfter (skipping core) a.record entry a.sink with
    | error e =>
      rw [hsink] at hsucc
      exact .inr ⟨e, rfl, hsucc⟩
    | ok sink =>
      rw [hsink] at hsucc
      obtain ⟨q', b', hq, hqlen, hb', hmembers⟩ := h.members_after hk hsucc rfl
      exact .inl ⟨_, q', k + 1, _, b', _, rfl, ⟨hsucc, hb', hsucc, by rw [hmembers], hq,
        le_rfl, hqlen, hk⟩⟩

theorem resume : applyEntries (skipping core) retention m (log.drop k) =
      applyEntries (skipping core) retention (freshMachine s₀) log := by
  have hklen := Nat.le_trans h.le_sink h.sink_le
  induction hn : log.length - k generalizing m k q p a b c with
  | zero =>
    obtain rfl : k = log.length := by omega
    obtain rfl : q = log.length := Nat.le_antisymm h.members_le h.le_members
    obtain rfl : p = log.length := Nat.le_antisymm h.sink_le h.le_sink
    obtain rfl : a = b := Except.ok.inj (h.record.symm.trans h.members)
    obtain rfl : a = c := Except.ok.inj (h.record.symm.trans h.sink)
    rw [drop_length, ← uninterrupted_length, h.record, h.eq]
    rfl
  | succ n ih =>
    obtain ⟨entry, hentry⟩ := entry_of_lt (show k < log.length by omega)
    have hdrop : log.drop k = entry :: log.drop (k + 1) := by
      rw [drop_eq_getElem?_toList_append, hentry]
      rfl
    rw [hdrop, applyEntries]
    rcases h.applyOne hlog hentry with ⟨m', q', p', a', b', c', hone, h'⟩ | ⟨e, hone, hfail⟩
    · cases hres : Consensus.applyOne (skipping core) retention m entry with
      | error e => rw [hres] at hone; cases hone
      | ok r =>
        rw [hres] at hone
        cases hone
        exact ih h' (by omega) (by omega)
    · cases hres : Consensus.applyOne (skipping core) retention m entry with
      | ok r => rw [hres] at hone; cases hone
      | error e' =>
        rw [hres] at hone
        cases hone
        have htake := take_append_drop (k + 1) log
        rw [← htake, applyEntries_append]
        rw [uninterrupted] at hfail
        rw [htake, hfail]
        rfl

end Behind

end Lemmas

/-! ## Nodes that crash -/

section Cluster

variable {ι γ μ σ : Type} [DecidableEq ι]

/-- The machine in memory and the checkpoint on disk. What the sink and the membership file
hold is durable at once. -/
structure Node (ι μ σ : Type) where
  machine : StateMachine ι μ (Held σ)
  persisted : AppliedRecord ι

/-- Replicas of one log and the snapshots they have built. -/
structure Cluster (ι μ σ : Type) where
  nodes : Nat → Node ι μ σ
  pool : List (SmSnapshot ι μ (Held σ))

inductive Action where
  /-- entry `i` of the log, as part of a batch -/
  | apply (node i : Nat)
  /-- the end of a batch -/
  | checkpoint (node : Nat)
  /-- a crash and the restart after it -/
  | restart (node : Nat)
  | build (node : Nat)
  /-- an install of which `stage` durable steps were done when a crash came; from three on
  none came -/
  | install (node snapshot stage : Nat)
  deriving DecidableEq, Repr

namespace Node

def fresh (s₀ : σ) : Node ι μ σ := { machine := freshMachine s₀, persisted := {} }

def restart (n : Node ι μ σ) : Node ι μ σ :=
  { n with machine := { n.machine with record := n.persisted } }

/-- `install_framed_snapshot`: sink, membership file, checkpoint, then the record in memory. -/
def install (n : Node ι μ σ) (snapshot : SmSnapshot ι μ (Held σ)) : Nat → Node ι μ σ
  | 0 => n.restart
  | 1 => { n with machine := { n.machine with sink := snapshot.sinkPayload } : Node ι μ σ }.restart
  | 2 =>
    { n with machine := { n.machine with
        sink := snapshot.sinkPayload
        members := snapshot.members } : Node ι μ σ }.restart
  | _ =>
    { machine :=
        { record := snapshot.record, members := snapshot.members, sink := snapshot.sinkPayload }
      persisted := snapshot.record }

end Node

namespace Cluster

def fresh (s₀ : σ) : Cluster ι μ σ := { nodes := fun _ => .fresh s₀, pool := [] }

def setNode (s : Cluster ι μ σ) (node : Nat) (n : Node ι μ σ) : Cluster ι μ σ :=
  { s with nodes := Function.update s.nodes node n }

/-- A batch starts where the record is, or before it. -/
def step (core : SinkApply ι γ σ) (retention : Nat) (log : List (RaftLogEntry ι γ μ))
    (s : Cluster ι μ σ) : Action → Option (Cluster ι μ σ)
  | .apply node i =>
    let n := s.nodes node
    if n.machine.record.position.index < i then none
    else
      match log[i]? with
      | none => none
      | some entry =>
        match applyOne (skipping core) retention n.machine entry with
        | .error _ => none
        | .ok (machine, _) => some (s.setNode node { n with machine := machine })
  | .checkpoint node =>
    let n := s.nodes node
    some (s.setNode node { n with persisted := n.machine.record })
  | .restart node => some (s.setNode node (s.nodes node).restart)
  | .build node =>
    some { s with pool := s.pool ++ [buildSnapshotNow (s.nodes node).machine] }
  | .install node i stage =>
    let n := s.nodes node
    match s.pool[i]? with
    | none => none
    | some snapshot =>
      if isStale snapshot.record n.machine.record then none
      else some (s.setNode node (n.install snapshot stage))

end Cluster

/-! ## The invariant -/

variable {core : SinkApply ι γ σ} {retention : Nat} {s₀ : σ} {log : List (RaftLogEntry ι γ μ)}

/-- The record is that of prefix `k`, the rest of prefixes at least as long. -/
def Lagging (core : SinkApply ι γ σ) (retention : Nat) (s₀ : σ)
    (log : List (RaftLogEntry ι γ μ)) (m : StateMachine ι μ (Held σ)) (k : Nat) : Prop :=
  ∃ q p a b c, Behind core retention s₀ log m k q p a b c

/-- The record goes back to one of a shorter prefix; membership and sink may have gone on. -/
theorem Lagging.recombine {r m n : StateMachine ι μ (Held σ)} {i j k : Nat}
    (hr : Lagging core retention s₀ log r i) (hm : Lagging core retention s₀ log m j)
    (hn : Lagging core retention s₀ log n k) (hij : i ≤ j) (hik : i ≤ k) :
    Lagging core retention s₀ log
      { record := r.record, members := m.members, sink := n.sink } i := by
  obtain ⟨_, _, a, _, _, hr⟩ := hr
  obtain ⟨q, _, _, b, _, hm⟩ := hm
  obtain ⟨_, p, _, _, c, hn⟩ := hn
  refine ⟨q, p, a, b, c, hr.record, hm.members, hn.sink, ?_, Nat.le_trans hij hm.le_members,
    Nat.le_trans hik hn.le_sink, hm.members_le, hn.sink_le⟩
  rw [hr.eq, hm.eq, hn.eq]

/-- In memory prefix `k`, on disk prefix `j`. -/
structure NodeOk (core : SinkApply ι γ σ) (retention : Nat) (s₀ : σ)
    (log : List (RaftLogEntry ι γ μ)) (n : Node ι μ σ) (j k : Nat) : Prop where
  memory : Lagging core retention s₀ log n.machine k
  disk : Lagging core retention s₀ log { n.machine with record := n.persisted } j
  le : j ≤ k

structure ClusterOk (core : SinkApply ι γ σ) (retention : Nat) (s₀ : σ)
    (log : List (RaftLogEntry ι γ μ)) (s : Cluster ι μ σ) : Prop where
  nodes : ∀ node, ∃ j k, NodeOk core retention s₀ log (s.nodes node) j k
  pool : ∀ snapshot ∈ s.pool, ∃ k, Lagging core retention s₀ log
    { record := snapshot.record, members := snapshot.members, sink := snapshot.sinkPayload } k

theorem lagging_fresh : Lagging core retention s₀ log (freshMachine s₀) 0 :=
  ⟨0, 0, freshMachine s₀, freshMachine s₀, freshMachine s₀, rfl, rfl, rfl, rfl, le_rfl,
    le_rfl, Nat.zero_le _, Nat.zero_le _⟩

theorem clusterOk_fresh : ClusterOk core retention s₀ log (.fresh s₀) :=
  ⟨fun _ => ⟨0, 0, lagging_fresh, lagging_fresh, le_rfl⟩, by simp [Cluster.fresh]⟩

variable {s : Cluster ι μ σ} {n : Node ι μ σ}

theorem ClusterOk.setNode (h : ClusterOk core retention s₀ log s) {node : Nat}
    {j k : Nat} (hn : NodeOk core retention s₀ log n j k) :
    ClusterOk core retention s₀ log (s.setNode node n) := by
  refine ⟨fun other => ?_, h.pool⟩
  by_cases ho : other = node
  · subst ho
    exact ⟨j, k, by simpa [Cluster.setNode] using hn⟩
  · obtain ⟨j', k', hother⟩ := h.nodes other
    exact ⟨j', k', by simpa [Cluster.setNode, ho] using hother⟩

/-- A longer log keeps the prefixes there are. -/
theorem uninterrupted_append {k : Nat} (hk : k ≤ log.length) (more : List (RaftLogEntry ι γ μ)) :
    uninterrupted core retention s₀ (log ++ more) k = uninterrupted core retention s₀ log k := by
  unfold uninterrupted
  rw [take_append_of_le_length hk]

theorem Lagging.append {m : StateMachine ι μ (Held σ)} {k : Nat}
    (h : Lagging core retention s₀ log m k) (more : List (RaftLogEntry ι γ μ)) :
    Lagging core retention s₀ (log ++ more) m k := by
  obtain ⟨q, p, a, b, c, h⟩ := h
  have hlength : log.length ≤ (log ++ more).length := by simp
  refine ⟨q, p, a, b, c, ?_, ?_, ?_, h.eq, h.le_members, h.le_sink,
    h.members_le.trans hlength, h.sink_le.trans hlength⟩
  · rw [uninterrupted_append (h.le_sink.trans h.sink_le)]
    exact h.record
  · rw [uninterrupted_append h.members_le]
    exact h.members
  · rw [uninterrupted_append h.sink_le]
    exact h.sink

theorem ClusterOk.append (h : ClusterOk core retention s₀ log s)
    (more : List (RaftLogEntry ι γ μ)) : ClusterOk core retention s₀ (log ++ more) s := by
  refine ⟨fun node => ?_, fun snapshot hsnapshot => ?_⟩
  · obtain ⟨j, k, hnode⟩ := h.nodes node
    exact ⟨j, k, hnode.memory.append more, hnode.disk.append more, hnode.le⟩
  · obtain ⟨k, hk⟩ := h.pool snapshot hsnapshot
    exact ⟨k, hk.append more⟩

theorem ClusterOk.sink (h : ClusterOk core retention s₀ log s) (node : Nat) :
    ∃ k m, k ≤ log.length ∧ uninterrupted core retention s₀ log k = .ok m ∧
      (s.nodes node).machine.sink = m.sink := by
  obtain ⟨j, k, hnode⟩ := h.nodes node
  obtain ⟨q, p, a, b, c, hbehind⟩ := hnode.memory
  refine ⟨p, c, hbehind.sink_le, hbehind.sink, ?_⟩
  rw [hbehind.eq]

omit [DecidableEq ι] in
/-- An entry that is not yet in the record is the one after it. -/
theorem index_of_not_covers (hlog : WellNumbered log) {r : AppliedRecord ι} {i k : Nat}
    (hindex : r.position.index = k) {entry : RaftLogEntry ι γ μ} (hentry : log[i]? = some entry)
    (hi : i ≤ k) (hcovers : ¬ r.covers entry) : i = k := by
  refine Nat.le_antisymm hi (Nat.le_of_not_lt fun hlt => hcovers ?_)
  have hlogIndex := hlog i entry hentry
  rw [AppliedRecord.position] at hindex
  cases hlast : r.lastApplied with
  | none =>
    rw [hlast] at hindex
    exact absurd (hindex ▸ hlt) (Nat.not_lt_zero _)
  | some last =>
    rw [hlast] at hindex
    exact ⟨last, hlast, by rw [hlogIndex, show last.index = k from hindex]; exact hlt⟩

theorem NodeOk.apply (hlog : WellNumbered log) {j k i : Nat}
    (h : NodeOk core retention s₀ log n j k) {entry : RaftLogEntry ι γ μ}
    (hentry : log[i]? = some entry) (hi : i ≤ n.machine.record.position.index)
    {machine : StateMachine ι μ (Held σ)} {response : ApplyResponse ι}
    (happly : applyOne (skipping core) retention n.machine entry = .ok (machine, response)) :
    ∃ k', NodeOk core retention s₀ log { n with machine := machine } j k' := by
  obtain ⟨q, p, a, b, c, hb⟩ := h.memory
  have hindex := hb.index hlog
  by_cases hcovers : n.machine.record.covers entry
  · rw [applyOne, if_pos hcovers] at happly
    cases happly
    exact ⟨k, h⟩
  obtain rfl := index_of_not_covers hlog hindex hentry (hindex ▸ hi) hcovers
  rcases hb.applyOne hlog hentry with ⟨m', q', p', a', b', c', hone, hb'⟩ | ⟨e, hone, -⟩
  · rw [happly] at hone
    cases hone
    have hmemory : Lagging core retention s₀ log machine (i + 1) := ⟨q', p', a', b', c', hb'⟩
    have hle := h.le
    exact ⟨i + 1, hmemory, h.disk.recombine hmemory hmemory (by omega) (by omega), by omega⟩
  · rw [happly] at hone
    cases hone

omit [DecidableEq ι] in
theorem not_isStale {incoming current : AppliedRecord ι} (h : ¬ isStale incoming current = true) :
    current.position.index ≤ incoming.position.index := by
  simp only [isStale, decide_eq_true_eq, not_or] at h
  omega

theorem NodeOk.install (hlog : WellNumbered log) {j k l : Nat}
    (h : NodeOk core retention s₀ log n j k) {snapshot : SmSnapshot ι μ (Held σ)}
    (hsnap : Lagging core retention s₀ log
    { record := snapshot.record, members := snapshot.members, sink := snapshot.sinkPayload } l)
    (hfresh : ¬ isStale snapshot.record n.machine.record = true) (stage : Nat) :
    ∃ j' k', NodeOk core retention s₀ log (n.install snapshot stage) j' k' := by
  have hkl : k ≤ l := by
    obtain ⟨_, _, _, _, _, hb⟩ := h.memory
    obtain ⟨_, _, _, _, _, hb'⟩ := hsnap
    have := not_isStale hfresh
    rw [hb.index hlog] at this
    rwa [hb'.index hlog] at this
  have hjl := Nat.le_trans h.le hkl
  match stage with
  | 0 => exact ⟨j, j, h.disk, h.disk, le_rfl⟩
  | 1 =>
    have hd := h.disk.recombine h.memory hsnap h.le hjl
    exact ⟨j, j, hd, hd, le_rfl⟩
  | 2 =>
    have hd := h.disk.recombine hsnap hsnap hjl hjl
    exact ⟨j, j, hd, hd, le_rfl⟩
  | stage + 3 => exact ⟨l, l, hsnap, hsnap, le_rfl⟩

theorem ClusterOk.step (hlog : WellNumbered log) {s s' : Cluster ι μ σ} {a : Action}
    (h : ClusterOk core retention s₀ log s) (hstep : s.step core retention log a = some s') :
    ClusterOk core retention s₀ log s' := by
  cases a with
  | apply node i =>
    obtain ⟨j, k, hn⟩ := h.nodes node
    simp only [Cluster.step] at hstep
    split at hstep
    · cases hstep
    next hi =>
      split at hstep
      · cases hstep
      next entry hentry =>
        split at hstep
        · cases hstep
        next machine response happly =>
          cases hstep
          obtain ⟨k', hn'⟩ := hn.apply hlog hentry (Nat.le_of_not_lt hi) happly
          exact h.setNode hn'
  | checkpoint node =>
    obtain ⟨j, k, hn⟩ := h.nodes node
    cases hstep
    exact h.setNode ⟨hn.memory, hn.memory, Nat.le_refl k⟩
  | restart node =>
    obtain ⟨j, k, hn⟩ := h.nodes node
    cases hstep
    exact h.setNode ⟨hn.disk, hn.disk, Nat.le_refl j⟩
  | build node =>
    obtain ⟨j, k, hn⟩ := h.nodes node
    cases hstep
    exact ⟨h.nodes, forall_mem_append.mpr ⟨h.pool, forall_mem_singleton.mpr ⟨k, hn.memory⟩⟩⟩
  | install node i stage =>
    obtain ⟨j, k, hn⟩ := h.nodes node
    simp only [Cluster.step] at hstep
    split at hstep
    · cases hstep
    next snapshot hget =>
      split at hstep
      · cases hstep
      next hfresh =>
        cases hstep
        obtain ⟨l, hsnap⟩ := h.pool snapshot (mem_of_getElem? hget)
        obtain ⟨j', k', hn'⟩ := hn.install hlog hsnap hfresh stage
        exact h.setNode hn'

/-- From any state of any run, the entries that a node has not applied give exactly the
machine that the whole log gives on a fresh one: sink, applied position, remembered command
ids and membership. -/
theorem resumed_eq_uninterrupted (hlog : WellNumbered log) {s : Cluster ι μ σ}
    (h : Reachable (Cluster.step core retention log) anyStep (.fresh s₀) s) (node : Nat) :
    applyEntries (skipping core) retention (s.nodes node).machine
        (log.drop (s.nodes node).machine.record.position.index) =
      applyEntries (skipping core) retention (freshMachine s₀) log := by
  have hok : ClusterOk core retention s₀ log s :=
    h.invariant clusterOk_fresh fun _ _ _ hs _ hstep => hs.step hlog hstep
  obtain ⟨_, k, hn⟩ := hok.nodes node
  obtain ⟨q, p, a, b, c, hb⟩ := hn.memory
  rw [hb.index hlog]
  exact hb.resume hlog

theorem reachable_sink (hlog : WellNumbered log)
    (h : Reachable (Cluster.step core retention log) anyStep (.fresh s₀) s) (node : Nat) :
    ∃ k m, uninterrupted core retention s₀ log k = .ok m ∧
      (s.nodes node).machine.sink = m.sink := by
  have hs := h.invariant (I := ClusterOk core retention s₀ log) clusterOk_fresh
    (fun _ _ _ hs _ hstep => hs.step hlog hstep)
  obtain ⟨k, m, -, hm, hsink⟩ := hs.sink node
  exact ⟨k, m, hm, hsink⟩

/-- A sink that keeps the bodies of its commands. -/
def keepBodies : SinkApply Nat Nat (List Nat) := fun command bodies =>
  .ok (bodies ++ [command.command.body])

/-- Three commands; the last repeats the id of the first. -/
def retriedLog : List (RaftLogEntry Nat Nat Unit) :=
  [⟨⟨1, 1⟩, .normal ⟨some 7, none, 70⟩⟩, ⟨⟨1, 2⟩, .normal ⟨some 8, none, 80⟩⟩,
    ⟨⟨1, 3⟩, .normal ⟨some 7, none, 71⟩⟩]

theorem wellNumbered_retriedLog : WellNumbered retriedLog := by
  intro i entry h
  match i with
  | 0 | 1 | 2 => cases h; rfl
  | i + 3 => cases h

/-- Both commands are in the sink when a crash takes the record back to the start; a snapshot
built then pairs the two, and another node installs it. -/
theorem crash_before_checkpoint_resumes :
    ∃ s, Reachable (Cluster.step keepBodies 4 retriedLog) anyStep (.fresh []) s ∧
      ((s.nodes 1).machine.record.position.index = 0 ∧
        (s.nodes 1).machine.sink.state = [70, 80]) ∧
      applyEntries (skipping keepBodies) 4 (s.nodes 1).machine
          (retriedLog.drop (s.nodes 1).machine.record.position.index) =
        applyEntries (skipping keepBodies) 4 (freshMachine []) retriedLog := by
  obtain ⟨s, hs, hp⟩ := exists_reachable_of_execute (Cluster.step keepBodies 4 retriedLog) anyStep
    (.fresh []) (fun s => (s.nodes 1).machine.record.position.index = 0 ∧
      (s.nodes 1).machine.sink.state = [70, 80])
    [.apply 0 0, .apply 0 1, .restart 0, .build 0, .install 1 0 3] (by decide)
  exact ⟨s, hs, hp, resumed_eq_uninterrupted wellNumbered_retriedLog hs 1⟩

/-- At one position there is one state, at any two times of any two runs over the log. -/
theorem members_agree (core : SinkApply ι γ σ) (retention : Nat) (s₀ : σ)
    (log : List (RaftLogEntry ι γ μ)) (hlog : WellNumbered log) (s s' : Cluster ι μ σ)
    (h : Reachable (Cluster.step core retention log) anyStep (.fresh s₀) s)
    (h' : Reachable (Cluster.step core retention log) anyStep (.fresh s₀) s') (a b : Nat)
    (hindex : (s.nodes a).machine.sink.position.index =
      (s'.nodes b).machine.sink.position.index) :
    (s.nodes a).machine.sink = (s'.nodes b).machine.sink := by
  have hok {s : Cluster ι μ σ}
      (h : Reachable (Cluster.step core retention log) anyStep (.fresh s₀) s) :
      ClusterOk core retention s₀ log s :=
    h.invariant clusterOk_fresh fun _ _ _ hs _ hstep => hs.step hlog hstep
  obtain ⟨j, m, hj, hm, hsink⟩ := (hok h).sink a
  obtain ⟨k, m', hk, hm', hsink'⟩ := (hok h').sink b
  rw [hsink, hsink'] at hindex ⊢
  rcases Nat.le_total j k with hjk | hkj
  · exact ((held_follows hlog hjk hk hm hm').resolve_right (by omega)).symm
  · exact (held_follows hlog hkj hj hm' hm).resolve_right (by omega)

/-- One member takes the commands itself, another one the snapshot of the first. -/
theorem members_agree_after_install :
    ∃ s, Reachable (Cluster.step keepBodies 4 retriedLog) anyStep (.fresh []) s ∧
      (s.nodes 1).machine.sink.position.index = 2 ∧
      (s.nodes 0).machine.sink = (s.nodes 1).machine.sink := by
  obtain ⟨s, hs, hindex, h⟩ := exists_reachable_of_execute (Cluster.step keepBodies 4 retriedLog)
    anyStep (.fresh []) (fun s => (s.nodes 1).machine.sink.position.index = 2 ∧
      (s.nodes 0).machine.sink.position.index = (s.nodes 1).machine.sink.position.index)
    [.apply 0 0, .apply 0 1, .build 0, .install 1 0 3] (by decide)
  exact ⟨s, hs, hindex, members_agree _ _ _ _ wellNumbered_retriedLog s s hs hs 0 1 h⟩

end Cluster

end MongrelDB.Consensus
