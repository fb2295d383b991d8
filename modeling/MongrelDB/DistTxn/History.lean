import MongrelDB.DistTxn.Driver
import MongrelDB.Lib.History
import Mathlib.Data.List.Nodup

/-!
# The laws of a two-phase commit

What the protocol is for, said about the history of what took effect: a transaction
begins once; a prepare carries writes of the request and shares no key with a
transaction prepared before it and not resolved; a transaction is decided once, and
committed only when all its participants have prepared, at a timestamp above what the
client observed and above the prepares, unless a prepare bears the last value of the
clock; a participant resolves only what has been decided.
-/

namespace MongrelDB.DistTxn

open Epoch Lib List

def Began (es : List Event) (txnId : TransactionId) (key : IdempotencyKey) : Prop :=
  Event.began txnId key ∈ es

def Decided (es : List Event) (txnId : TransactionId) (decision : TxnDecision) : Prop :=
  ∃ expiry pushedAt, Event.decided txnId decision expiry pushedAt ∈ es

def PreparedAt (es : List Event) (group : RaftGroupId) (txnId : TransactionId) : Prop :=
  ∃ prepareTs intents, Event.prepared group txnId prepareTs intents ∈ es

def ResolvedAt (es : List Event) (group : RaftGroupId) (txnId : TransactionId) : Prop :=
  ∃ decision writes, Event.resolved group txnId decision writes ∈ es

/-- Two sets of intents have a key in common. -/
def Overlap (intents intents' : List WriteIntent) : Prop :=
  ∃ intent ∈ intents, ∃ intent' ∈ intents', intent.key = intent'.key

/-- The commit timestamp is above what the client observed, and every participant has prepared
below it. A prepare at the last value of the clock excuses the second. -/
structure CommitLaw (d : Deployment) (past : List Event) (txnId : TransactionId)
    (key : IdempotencyKey) (commitTs : HlcTimestamp) : Prop where
  observed : ∀ ts ∈ (d.request txnId key).observed, ts < commitTs
  prepared : ∀ writes ∈ (d.request txnId key).writes,
    ∃ prepareTs intents,
      Event.prepared writes.participant.raftGroupId txnId prepareTs intents ∈ past ∧
      (prepareTs < commitTs ∨
        ∃ group last intents', Event.prepared group txnId last intents' ∈ past ∧ last.AtEnd)

/-- What may happen after `past`. -/
inductive Law (d : Deployment) (past : List Event) : Event → Prop where
  | began {txnId : TransactionId} {key : IdempotencyKey}
      (valid : (d.request txnId key).Valid)
      (first : ∀ key', ¬ Began past txnId key') : Law d past (.began txnId key)
  | prepared {group : RaftGroupId} {txnId : TransactionId} {prepareTs : HlcTimestamp}
      {intents : List WriteIntent} (key : IdempotencyKey) (writes : ParticipantWrites)
      (began : Began past txnId key) (mem : writes ∈ (d.request txnId key).writes)
      (at_group : writes.participant.raftGroupId = group)
      (staged_eq : intents = staged txnId prepareTs writes.intents)
      (free : ∀ other ts held, other ≠ txnId → Event.prepared group other ts held ∈ past →
        Overlap intents held → ResolvedAt past group other)
      (once : PreparedAt past group txnId → ResolvedAt past group txnId) :
      Law d past (.prepared group txnId prepareTs intents)
  | decided {txnId : TransactionId} {decision : TxnDecision} {expiry : HlcTimestamp}
      {pushedAt : Option HlcTimestamp} (key : IdempotencyKey) (began : Began past txnId key)
      (first : ∀ decision', ¬ Decided past txnId decision')
      (commit : ∀ commitTs, decision = .committed commitTs → CommitLaw d past txnId key commitTs) :
      Law d past (.decided txnId decision expiry pushedAt)
  | resolved {group : RaftGroupId} {txnId : TransactionId} {decision : TxnDecision}
      {writes : List CommittedWrite} (decided : Decided past txnId decision)
      (visible : ¬ ResolvedAt past group txnId → ∀ prepareTs intents,
        Event.prepared group txnId prepareTs intents ∈ past →
          writes = visibleWrites txnId (.prepared prepareTs intents) decision)
      (only : ∀ write ∈ writes, write.txnId = txnId ∧ decision = .committed write.commitTs) :
      Law d past (.resolved group txnId decision writes)

variable {d : Deployment} {es : List Event}

/-! ## Once -/

section

variable (txnId : TransactionId) (past : List Event) (e : Event) (h : Law d past e)
include h

theorem began_once (he : ∃ key, e = .began txnId key) : ∀ x ∈ past, ¬ ∃ key, x = .began txnId key :=
     by
  obtain ⟨key, rfl⟩ := he
  rintro x hx ⟨key', rfl⟩
  cases h with
  | began _ first => exact first key' hx

theorem decided_once
    (he : ∃ decision expiry pushedAt, e = .decided txnId decision expiry pushedAt) :
    ∀ x ∈ past, ¬ ∃ decision expiry pushedAt, x = .decided txnId decision expiry pushedAt := by
  obtain ⟨decision, expiry, pushedAt, rfl⟩ := he
  rintro x hx ⟨decision', expiry', pushedAt', rfl⟩
  cases h with
  | decided _ _ first => exact first decision' ⟨expiry', pushedAt', hx⟩

end

variable {txnId : TransactionId}

theorem began_unique (h : Lawful (Law d) es) {key key' : IdempotencyKey}
    (hb : Began es txnId key) (hb' : Began es txnId key') : key = key' := by
  have heq := h.unique (began_once txnId) hb hb' ⟨key, rfl⟩ ⟨key', rfl⟩
  cases heq
  rfl

theorem decided_unique (h : Lawful (Law d) es)
    {decision decision' : TxnDecision} (hd : Decided es txnId decision)
    (hd' : Decided es txnId decision') : decision = decision' := by
  obtain ⟨expiry, pushedAt, hmem⟩ := hd
  obtain ⟨expiry', pushedAt', hmem'⟩ := hd'
  have heq := h.unique (decided_once txnId) hmem hmem' ⟨_, _, _, rfl⟩ ⟨_, _, _, rfl⟩
  cases heq
  rfl

/-! ## Monotone facts -/

variable {key : IdempotencyKey} {recent : List Event}

theorem Began.mono
    (h : Began es txnId key) : Began (recent ++ es) txnId key :=
  mem_append_right _ h

variable {decision : TxnDecision}

theorem Decided.mono
    (h : Decided es txnId decision) : Decided (recent ++ es) txnId decision := by
  obtain ⟨expiry, pushedAt, hmem⟩ := h
  exact ⟨expiry, pushedAt, mem_append_right _ hmem⟩

variable {group : RaftGroupId}

theorem ResolvedAt.mono
    (h : ResolvedAt es group txnId) : ResolvedAt (recent ++ es) group txnId := by
  obtain ⟨decision, writes, hmem⟩ := h
  exact ⟨decision, writes, mem_append_right _ hmem⟩

/-! ## What the laws give -/

section

variable (h : Lawful (Law d) es)
include h

/-- An event of a lawful history splits it where its law applies. -/
theorem law_of_mem {e : Event} (he : e ∈ es) :
    ∃ recent past, es = recent ++ past ∧ e ∈ recent ∧ Law d past e ∧ Lawful (Law d) past := by
  obtain ⟨recent, past, rfl⟩ := append_of_mem he
  exact ⟨recent ++ [e], past, by simp, by simp, h.law, h.before⟩

theorem decided_of_resolved {writes : List CommittedWrite}
    (hr : Event.resolved group txnId decision writes ∈ es) : Decided es txnId decision := by
  obtain ⟨recent, past, rfl, -, hlaw, -⟩ := law_of_mem h hr
  cases hlaw with
  | resolved decided => exact decided.mono

theorem ResolvedAt.decided (hr : ResolvedAt es group txnId) :
    ∃ decision, Decided es txnId decision := by
  obtain ⟨decision, writes, hmem⟩ := hr
  exact ⟨decision, decided_of_resolved h hmem⟩

/-- No participant resolves two decisions, and no two participants differ. -/
theorem resolved_unique {group group' : RaftGroupId}
    {decision decision' : TxnDecision}
    {writes writes' : List CommittedWrite}
    (hr : Event.resolved group txnId decision writes ∈ es)
    (hr' : Event.resolved group' txnId decision' writes' ∈ es) : decision = decision' :=
  decided_unique h (decided_of_resolved h hr) (decided_of_resolved h hr')

/-- Until it resolves a transaction a participant prepares it once. -/
theorem prepared_unique (hopen : ¬ ResolvedAt es group txnId) {ts ts' : HlcTimestamp}
    {intents intents' : List WriteIntent} (hp : Event.prepared group txnId ts intents ∈ es)
    (hp' : Event.prepared group txnId ts' intents' ∈ es) : ts = ts' ∧ intents = intents' := by
  induction h with
  | nil => cases hp
  | @cons e past hlaw _ ih =>
    have hopen' : ¬ ResolvedAt past group txnId := by
      rintro ⟨decision, writes, hmem⟩
      exact hopen ⟨decision, writes, mem_cons_of_mem _ hmem⟩
    -- the newest event is not a second prepare
    have hfirst : ∀ ts intents, e = .prepared group txnId ts intents →
        ¬ PreparedAt past group txnId := by
      rintro ts intents rfl hprepared
      cases hlaw with
      | prepared _ _ _ _ _ _ _ once => exact hopen' (once hprepared)
    rcases mem_cons.mp hp with heq | hp <;> rcases mem_cons.mp hp' with heq' | hp'
    · cases heq.trans heq'.symm
      exact ⟨rfl, rfl⟩
    · exact absurd ⟨_, _, hp'⟩ (hfirst _ _ heq.symm)
    · exact absurd ⟨_, _, hp⟩ (hfirst _ _ heq'.symm)
    · exact ih hopen' hp hp'

end

variable {commitTs : HlcTimestamp}

theorem CommitLaw.mono {past recent : List Event}
    (h : CommitLaw d past txnId key commitTs) :
    CommitLaw d (recent ++ past) txnId key commitTs where
  observed := h.observed
  prepared := by
    intro writes hwrites
    obtain ⟨prepareTs, intents, hmem, hlt⟩ := h.prepared writes hwrites
    refine ⟨prepareTs, intents, mem_append_right _ hmem, hlt.imp_right ?_⟩
    rintro ⟨group, last, intents', hmem', hlast⟩
    exact ⟨group, last, intents', mem_append_right _ hmem', hlast⟩

theorem Decided.law (h : Lawful (Law d) es) (hd : Decided es txnId decision) :
    ∃ key, Began es txnId key ∧
      ∀ commitTs, decision = .committed commitTs → CommitLaw d es txnId key commitTs := by
  obtain ⟨expiry, pushedAt, hmem⟩ := hd
  obtain ⟨recent, past, rfl, -, hlaw, -⟩ := law_of_mem h hmem
  cases hlaw with
  | decided key began _ commit => exact ⟨key, began.mono, fun ts hts => (commit ts hts).mono⟩

/-- A request is valid, so each group holds the writes of one participant. -/
theorem writes_eq_of_group (h : Lawful (Law d) es)
    (hb : Began es txnId key) {writes writes' : ParticipantWrites}
    (hw : writes ∈ (d.request txnId key).writes) (hw' : writes' ∈ (d.request txnId key).writes)
    (hgroup : writes.participant.raftGroupId = writes'.participant.raftGroupId) :
    writes = writes' := by
  obtain ⟨recent, past, rfl, -, hlaw, -⟩ := law_of_mem h hb
  cases hlaw with
  | began valid _ =>
    have hnodup := d.groups txnId key valid.2
    rw [CommitRequest.participants, map_map] at hnodup
    exact inj_on_of_nodup_map hnodup hw hw' hgroup

theorem committed_writes_visible (h : Lawful (Law d) es)
    (hb : Began es txnId key)
    (hd : Decided es txnId (.committed commitTs)) {writes : ParticipantWrites}
    (hw : writes ∈ (d.request txnId key).writes)
    (hr : ResolvedAt es writes.participant.raftGroupId txnId) :
    ∃ visible,
      Event.resolved writes.participant.raftGroupId txnId (.committed commitTs) visible ∈ es ∧
      visible = committedWritesOf txnId commitTs writes.intents := by
  -- the first resolution there
  obtain ⟨decision, resolved, hmem⟩ := hr
  obtain ⟨recent, e, past, hes, ⟨decision, visible, rfl⟩, hfirst⟩ :=
    exists_oldest (P := fun e => ∃ decision visible,
      e = Event.resolved writes.participant.raftGroupId txnId decision visible)
      ⟨_, hmem, decision, resolved, rfl⟩
  have hresolved : Event.resolved writes.participant.raftGroupId txnId decision visible ∈ es := by
    rw [hes]
    simp
  obtain rfl := decided_unique h (decided_of_resolved h hresolved) hd
  refine ⟨visible, hresolved, ?_⟩
  subst hes
  have hpast := h.before
  have hlaw := h.law
  cases hlaw with
  | resolved decided visible_eq _ =>
    -- the participant had prepared before the decision
    obtain ⟨key', hb', hcommit⟩ := decided.law hpast
    obtain rfl : key' = key :=
      began_unique h (mem_append_right _ (mem_cons_of_mem _ hb')) hb
    obtain ⟨prepareTs, intents, hprepared, -⟩ := (hcommit _ rfl).prepared writes hw
    rw [visible_eq (fun hr => by
      obtain ⟨decision, visible', hmem⟩ := hr
      exact hfirst _ hmem ⟨decision, visible', rfl⟩) prepareTs intents hprepared]
    -- and what it prepared is the participant's part of the request
    obtain ⟨recent', past', rfl, -, hlaw', hpast'⟩ := law_of_mem hpast hprepared
    cases hlaw' with
    | prepared key'' writes' began mem at_group staged_eq _ _ =>
      obtain rfl : key'' = key' := began_unique hpast began.mono hb'
      obtain rfl := writes_eq_of_group hpast hb' mem hw at_group
      rw [staged_eq]
      simp [visibleWrites, committedWritesOf, staged]

end MongrelDB.DistTxn
