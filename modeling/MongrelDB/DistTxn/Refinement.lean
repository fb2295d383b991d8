import MongrelDB.DistTxn.History
import Mathlib.Data.List.Induction

/-!
# The cluster keeps the laws

What is known about a record, a view of a group, a message on its way or a running
call is said in terms of the history, and stays true as the history grows.
-/

namespace MongrelDB.DistTxn

open Epoch Lib Consensus List
open Option hiding mem_map

/-! ## What the history says -/

/-- A timestamp that does not go beyond what the client observed and the participants prepared
at. -/
def Bounded (d : Deployment) (es : List Event) (txnId : TransactionId) (key : IdempotencyKey)
    (ts : HlcTimestamp) : Prop :=
  ts ≤ maxOf (d.request txnId key).observed ∨
    ∃ group prepareTs intents, Event.prepared group txnId prepareTs intents ∈ es ∧ ts ≤ prepareTs

structure RecordOk (d : Deployment) (es : List Event) (txnId : TransactionId)
    (record : TxnRecord) : Prop where
  began : Began es txnId record.idempotencyKey
  participants : record.participants = (d.request txnId record.idempotencyKey).participants
  observed : maxOf (d.request txnId record.idempotencyKey).observed ≤ record.maxObserved
  bounded : Bounded d es txnId record.idempotencyKey record.maxObserved
  marks : ∀ (tabletId : TabletId) (ts : HlcTimestamp), record.prepareTs[tabletId]? = some ts →
    Bounded d es txnId record.idempotencyKey ts
  decided : ∀ decision, record.state.decision = some decision → Decided es txnId decision

section

variable (d : Deployment) (es : List Event)

/-- Every participant has prepared at or below `minimum`, or it no longer matters. -/
def Ready (txnId : TransactionId) (minimum : HlcTimestamp) :
    Prop :=
  (∃ decision, Decided es txnId decision) ∨
    ∃ key, Began es txnId key ∧ Bounded d es txnId key minimum ∧
      ∀ writes ∈ (d.request txnId key).writes, ∃ prepareTs intents,
        Event.prepared writes.participant.raftGroupId txnId prepareTs intents ∈ es ∧
          prepareTs ≤ minimum

/-- A mark says nothing beyond what the client observed and the participants prepared at. -/
def MarkOk (txnId : TransactionId)
    (timestamps : List HlcTimestamp) : Prop :=
  (∃ decision, Decided es txnId decision) ∨
    ∃ key, Began es txnId key ∧ ∀ ts ∈ timestamps, Bounded d es txnId key ts

def CommandOk : CoordinatorCommand → Prop
  | .begin record => ∃ driver key now,
      record = Pc.pendingRecord d driver record.txnId key now ∧ (d.request record.txnId key).Valid
  | .markPreparing txnId _ prepareTs observed => MarkOk d es txnId [prepareTs, observed]
  | .commit txnId commitTs =>
    ∃ minimum, Ready d es txnId minimum ∧ (¬ minimum.AtEnd → minimum < commitTs)
  | .heartbeat _ _ _ | .abort _ _ => True

def IntentCommandOk (group : RaftGroupId) :
    IntentCommand → Prop
  | .persistIntents txnId _ _ prepareTs intents =>
    ∃ key writes, Began es txnId key ∧ writes ∈ (d.request txnId key).writes ∧
      writes.participant.raftGroupId = group ∧ intents = staged txnId prepareTs writes.intents
  | .resolve txnId decision => Decided es txnId decision
  | .setTabletVersions _ _ | .sweepResolved _ _ => True

def MessageOk : Message → Prop
  | .status group _ command _ => group = d.coordinator command.txnId ∧ CommandOk d es command
  | .intent group _ command => IntentCommandOk d es group command

end

/-- The participant has prepared at the token's timestamp, or it no longer matters. -/
def TokenOk (es : List Event) (txnId : TransactionId) (group : RaftGroupId)
    (token : PrepareToken) : Prop :=
  (∃ decision, Decided es txnId decision) ∨
    ∃ intents, Event.prepared group txnId token.prepareTs intents ∈ es

structure ProbesOk (d : Deployment) (es : List Event) (txnId : TransactionId) (record : TxnRecord)
    (todo : List TxnParticipant) (probed : List HlcTimestamp) (missing : Nat) : Prop where
  recordOk : RecordOk d es txnId record
  bounded : ∀ ts ∈ probed, Bounded d es txnId record.idempotencyKey ts
  complete : missing = 0 → ∀ participant ∈ record.participants, participant ∈ todo ∨
    ∃ ts ∈ probed, ∃ intents, Event.prepared participant.raftGroupId txnId ts intents ∈ es

def CallOk (d : Deployment) (es : List Event) : Pc → Prop
  | .prepare txnId key slots => Began es txnId key ∧
      slots.length = (d.request txnId key).writes.length ∧
      ∀ (i : Nat) (writes : ParticipantWrites) (token : PrepareToken),
        (d.request txnId key).writes[i]? = some writes →
        slots[i]? = some (.answered (.ok token)) →
        TokenOk es txnId writes.participant.raftGroupId token
  | .mark txnId todo observed minimum | .markSent txnId _ _ todo observed minimum =>
    Ready d es txnId minimum ∧ MarkOk d es txnId (observed :: todo.map (·.prepareTs))
  | .commit txnId minimum => Ready d es txnId minimum
  | .broadcast txnId decision _ => Decided es txnId decision
  | .probe txnId _ record todo probed missing => ProbesOk d es txnId record todo probed missing
  | _ => True

/-- What a member of a coordinator group sees. -/
def StatusView (d : Deployment) (es : List Event) (group : RaftGroupId) (st : TxnStatusState) :
    Prop :=
  ∀ (txnId : TransactionId) (record : TxnRecord), st.records[txnId]? = some record →
    d.coordinator txnId = group ∧ RecordOk d es txnId record

/-- What the newest state of a coordinator group knows besides. -/
structure StatusNow (d : Deployment) (es : List Event) (group : RaftGroupId)
    (st : TxnStatusState) : Prop where
  fresh : ∀ txnId : TransactionId, d.coordinator txnId = group → st.records[txnId]? = none →
    ∀ key, ¬ Began es txnId key
  live : ∀ (txnId : TransactionId) (record : TxnRecord), st.records[txnId]? = some record →
    record.state.decision = none → ∀ decision, ¬ Decided es txnId decision

/-- What a member of a participant group sees. -/
structure IntentView (es : List Event) (group : RaftGroupId) (st : IntentState) : Prop where
  prepared : ∀ txnId prepareTs intents, st.phase txnId = .prepared prepareTs intents →
    Event.prepared group txnId prepareTs intents ∈ es
  resolved : ∀ txnId decision, st.phase txnId = .resolved decision → Decided es txnId decision

/-- What the newest state of a participant group knows besides. -/
structure IntentNow (es : List Event) (group : RaftGroupId) (st : IntentState) : Prop where
  keyed : st.Keyed
  held : ∀ txnId, PreparedAt es group txnId → ¬ ResolvedAt es group txnId →
    ∃ prepareTs intents, st.phase txnId = .prepared prepareTs intents
  resolved : ∀ txnId decision, st.phase txnId = .resolved decision → ResolvedAt es group txnId

/-- All views of a group, and its newest state. -/
structure GroupOk {σ : Type} (View Now : σ → Prop) (g : Group σ) : Prop where
  trace : ∀ entry ∈ g.trace, View entry.2
  state : View g.state
  now : Now g.state

structure ClusterOk (d : Deployment) (s : Cluster) : Prop where
  lawful : Lawful (Law d) s.events
  status : ∀ group, GroupOk (StatusView d s.events group) (StatusNow d s.events group)
    (s.status group)
  intents : ∀ group, GroupOk (IntentView s.events group) (IntentNow s.events group)
    (s.intents group)
  network : ∀ message ∈ s.network, MessageOk d s.events message
  calls : ∀ call ∈ s.calls, CallOk d s.events call.2

/-! ## Monotonicity -/

variable {record : TxnRecord} {ts : HlcTimestamp} {command : CoordinatorCommand} {st : IntentState}
  {probed : List HlcTimestamp}

section Mono

variable {d : Deployment} {es recent : List Event} {txnId : TransactionId} {group : RaftGroupId}

theorem Bounded.mono {key : IdempotencyKey} (h : Bounded d es txnId key ts) :
    Bounded d (recent ++ es) txnId key ts := by
  rcases h with h | ⟨group, prepareTs, intents, hmem, hle⟩
  · exact .inl h
  · exact .inr ⟨group, prepareTs, intents, mem_append_right _ hmem, hle⟩

theorem decided_mono (h : ∃ decision, Decided es txnId decision) :
    ∃ decision, Decided (recent ++ es) txnId decision := by
  obtain ⟨decision, hd⟩ := h
  exact ⟨decision, hd.mono⟩

theorem RecordOk.mono (h : RecordOk d es txnId record) :
    RecordOk d (recent ++ es) txnId record where
  began := h.began.mono
  participants := h.participants
  observed := h.observed
  bounded := h.bounded.mono
  marks := fun tabletId ts hts => (h.marks tabletId ts hts).mono
  decided := fun decision hd => (h.decided decision hd).mono

theorem Ready.mono {minimum : HlcTimestamp} (h : Ready d es txnId minimum) :
    Ready d (recent ++ es) txnId minimum := by
  refine h.imp decided_mono ?_
  rintro ⟨key, hb, hbound, hall⟩
  refine ⟨key, hb.mono, hbound.mono, ?_⟩
  intro writes hwrites
  obtain ⟨prepareTs, intents, hmem, hle⟩ := hall writes hwrites
  exact ⟨prepareTs, intents, mem_append_right _ hmem, hle⟩

theorem MarkOk.mono {timestamps : List HlcTimestamp} (h : MarkOk d es txnId timestamps) :
    MarkOk d (recent ++ es) txnId timestamps := by
  refine h.imp decided_mono ?_
  rintro ⟨key, hb, hall⟩
  exact ⟨key, hb.mono, fun ts hts => (hall ts hts).mono⟩

theorem CommandOk.mono (h : CommandOk d es command) :
    CommandOk d (recent ++ es) command := by
  cases command with
  | begin record => exact h
  | markPreparing => exact MarkOk.mono h
  | commit =>
    obtain ⟨minimum, hready, hlt⟩ := h
    exact ⟨minimum, hready.mono, hlt⟩
  | heartbeat | abort => trivial

theorem MessageOk.mono {message : Message} (h : MessageOk d es message) :
    MessageOk d (recent ++ es) message := by
  cases message with
  | status => exact ⟨h.1, h.2.mono⟩
  | intent group id command =>
    cases command with
    | persistIntents =>
      obtain ⟨key, writes, hb, hrest⟩ := h
      exact ⟨key, writes, hb.mono, hrest⟩
    | resolve => exact Decided.mono h
    | setTabletVersions | sweepResolved => trivial

theorem TokenOk.mono {token : PrepareToken}
    (h : TokenOk es txnId group token) : TokenOk (recent ++ es) txnId group token := by
  refine h.imp decided_mono ?_
  rintro ⟨intents, hmem⟩
  exact ⟨intents, mem_append_right _ hmem⟩

theorem ProbesOk.mono {todo : List TxnParticipant} {missing : Nat}
    (h : ProbesOk d es txnId record todo probed missing) :
    ProbesOk d (recent ++ es) txnId record todo probed missing where
  recordOk := h.recordOk.mono
  bounded := fun ts hts => (h.bounded ts hts).mono
  complete := by
    intro hmissing participant hmem
    refine (h.complete hmissing participant hmem).imp_right ?_
    rintro ⟨ts, hts, intents, hprepared⟩
    exact ⟨ts, hts, intents, mem_append_right _ hprepared⟩

theorem CallOk.mono {pc : Pc} (h : CallOk d es pc) : CallOk d (recent ++ es) pc := by
  cases pc with
  | prepare txnId key slots =>
    obtain ⟨hb, hlen, htokens⟩ := h
    exact ⟨hb.mono, hlen, fun i writes token hw hs => (htokens i writes token hw hs).mono⟩
  | mark | markSent => exact ⟨h.1.mono, h.2.mono⟩
  | commit => exact Ready.mono h
  | broadcast => exact Decided.mono h
  | probe => exact ProbesOk.mono h
  | _ => trivial

theorem StatusView.mono {st : TxnStatusState}
    (h : StatusView d es group st) : StatusView d (recent ++ es) group st :=
  fun txnId record hrecord => ⟨(h txnId record hrecord).1, (h txnId record hrecord).2.mono⟩

theorem IntentView.mono (h : IntentView es group st) :
    IntentView (recent ++ es) group st where
  prepared := fun txnId ts intents hphase =>
    mem_append_right _ (h.prepared txnId ts intents hphase)
  resolved := fun txnId decision hphase => (h.resolved txnId decision hphase).mono

end Mono

/-! ## Timestamps -/

theorem le_maxOf {ts : List HlcTimestamp} {t : HlcTimestamp} (h : t ∈ ts) : t ≤ maxOf ts := by
  induction ts using reverseRecOn with
  | nil => cases h
  | append_singleton ts last ih =>
    rw [maxOf, foldl_append]
    rcases mem_append.mp h with h | h
    · exact (ih h).trans (le_max_left _ _)
    · exact mem_singleton.mp h ▸ le_max_right _ _

variable {intents : List WriteIntent}

section Timestamps

variable {d : Deployment} {es : List Event} {txnId : TransactionId} {key : IdempotencyKey}

theorem Bounded.max {a b : HlcTimestamp} (ha : Bounded d es txnId key a)
    (hb : Bounded d es txnId key b) : Bounded d es txnId key (max a b) := by
  rcases max_choice a b with h | h
  · rwa [h]
  · rwa [h]

theorem Bounded.maxOf {ts : List HlcTimestamp} (h : ∀ t ∈ ts, Bounded d es txnId key t) :
    Bounded d es txnId key (maxOf ts) :=
  foldlRecOn ts Max.max (.inl (HlcTimestamp.zero_le _)) fun _ hmax t ht => hmax.max (h t ht)

theorem bounded_of_prepared {group : RaftGroupId}
    (h : Event.prepared group txnId ts intents ∈ es) : Bounded d es txnId key ts :=
  .inr ⟨group, ts, intents, h, le_refl _⟩

theorem bounded_of_observed (h : ts ∈ (d.request txnId key).observed) :
    Bounded d es txnId key ts :=
  .inl (le_maxOf h)

end Timestamps

/-! ## Views -/

variable {σ : Type}

theorem GroupOk.view {View Now : σ → Prop} {g : Group σ} (h : GroupOk View Now g)
    {at? : Nat} {st : σ} (hview : g.view at? = some st) : View st := by
  obtain ⟨entry, hentry, rfl⟩ := map_eq_some_iff.mp hview
  exact h.trace entry (mem_of_getElem? hentry)

theorem GroupOk.answer {View Now : σ → Prop} {g : Group σ} (h : GroupOk View Now g)
    {message at? : Nat} {st : σ} (hanswer : g.answer message at? = some st) : View st := by
  unfold Group.answer at hanswer
  split at hanswer
  · exact h.view hanswer
  · cases hanswer

theorem ClusterOk.recordOk {d : Deployment} {s : Cluster} (h : ClusterOk d s)
    {txnId : TransactionId} (hrecord : s.record d txnId = some record) :
    RecordOk d s.events txnId record :=
  ((h.status (d.coordinator txnId)).state txnId record hrecord).2

/-! ## Calls -/

section Calls

variable {d : Deployment} {s : Cluster} {txnId : TransactionId} {es : List Event}
  {key : IdempotencyKey}

theorem onRecord_ok (hs : ClusterOk d s) {only : Option RaftGroupId} {live : TxnRecord → Pc}
    (hlive : ∀ record, s.record d txnId = some record → CallOk d s.events (live record)) :
    CallOk d s.events (Pc.onRecord txnId (s.record d txnId) only live) := by
  unfold Pc.onRecord
  split
  · trivial
  next record hrecord =>
    split
    next decision hdecision => exact (hs.recordOk hrecord).decided decision hdecision
    next => exact hlive record hrecord

theorem pushIfExpired_ok (now : HlcTimestamp) (pushedBy : String) (only : Option RaftGroupId)
    (record : TxnRecord) :
    CallOk d es (Pc.pushIfExpired txnId now pushedBy only record) := by
  unfold Pc.pushIfExpired
  split <;> trivial

theorem beginAnswer_ok {st : TxnStatusState}
    (hview : StatusView d s.events (d.coordinator txnId) st) :
    CallOk d s.events (Pc.beginAnswer d txnId key st) := by
  unfold Pc.beginAnswer
  split
  · trivial
  split
  · trivial
  next record hrecord =>
    have hok := (hview txnId record hrecord).2
    split
    · trivial
    next hkey =>
      obtain rfl : record.idempotencyKey = key := not_not.mp hkey
      split
      next decision hdecision => exact hok.decided decision hdecision
      next =>
        refine ⟨hok.began, by simp, ?_⟩
        intro i writes token _ hslot
        rw [getElem?_map] at hslot
        obtain ⟨_, _, hslot⟩ := map_eq_some_iff.mp hslot
        cases hslot

theorem prepareAnswer_ok {participant : TxnParticipant} {token : PrepareToken}
    (hview : IntentView s.events participant.raftGroupId st)
    (h : Pc.prepareAnswer txnId participant st = .ok token) :
    TokenOk s.events txnId participant.raftGroupId token := by
  unfold Pc.prepareAnswer at h
  split at h
  · cases h
  split at h
  · cases h
  next stored hstored =>
    cases h
    have hphase : st.phase txnId = stored.phase := by rw [IntentState.phase, hstored]
    cases hresolution : stored.resolution with
    | none =>
      refine .inr ⟨stored.intents, hview.prepared txnId _ _ ?_⟩
      rw [hphase, ParticipantTxn.phase, hresolution]
    | some decision =>
      refine .inl ⟨decision, hview.resolved txnId decision ?_⟩
      rw [hphase, ParticipantTxn.phase, hresolution]

/-- Tokens come from prepares that were all answered. -/
theorem collect_eq_ok : ∀ {slots : List Slot} {tokens : List PrepareToken},
    collect slots = some (.ok tokens) → slots = tokens.map fun token => .answered (.ok token)
  | [], tokens, h => by
    cases h
    rfl
  | .unsent :: _, _, h => by cases h
  | .sent _ :: _, _, h => by cases h
  | .answered (.error _) :: rest, tokens, h => by
    rw [collect] at h
    obtain ⟨_, _, h⟩ := map_eq_some_iff.mp h
    cases h
  | .answered (.ok token) :: rest, tokens, h => by
    rw [collect] at h
    obtain ⟨answer, hrest, h⟩ := map_eq_some_iff.mp h
    cases answer with
    | error => cases h
    | ok tokens' =>
      cases h
      rw [collect_eq_ok hrest]
      rfl

/-- When every prepare has been answered with a token, the driver may decide. -/
theorem collected_ok {tokens : List PrepareToken}
    (h : CallOk d es (.prepare txnId key (tokens.map fun token => .answered (.ok token))))
    (marks : List PrepareToken) (hmarks : ∀ token ∈ marks, token ∈ tokens)
    (extra : List HlcTimestamp) (hextra : ∀ ts ∈ extra, ts ∈ tokens.map (·.prepareTs)) :
    CallOk d es (.mark txnId marks (maxOf ((d.request txnId key).observed ++ extra))
      (maxOf (tokens.map (·.prepareTs) ++ ((d.request txnId key).observed ++ extra)))) := by
  obtain ⟨hb, hlen, htokens⟩ := h
  rw [length_map] at hlen
  by_cases hdecided : ∃ decision, Decided es txnId decision
  · exact ⟨.inl hdecided, .inl hdecided⟩
  -- each token stands for a prepare
  have hprepared : ∀ (i : Nat) (token : PrepareToken) (writes : ParticipantWrites),
      tokens[i]? = some token → (d.request txnId key).writes[i]? = some writes →
      ∃ intents, Event.prepared writes.participant.raftGroupId txnId token.prepareTs intents
        ∈ es := by
    intro i token writes htoken hwrites
    refine (htokens i writes token hwrites ?_).resolve_left hdecided
    simp [htoken]
  have hbounded : ∀ token ∈ tokens, Bounded d es txnId key token.prepareTs := by
    intro token htoken
    obtain ⟨i, hi, hget⟩ := mem_iff_getElem.mp htoken
    obtain ⟨intents, hmem⟩ := hprepared i token (d.request txnId key).writes[i]
      (by rw [getElem?_eq_getElem hi, hget]) (getElem?_eq_getElem (hlen ▸ hi))
    exact bounded_of_prepared hmem
  have hmap : ∀ ts ∈ tokens.map (·.prepareTs), Bounded d es txnId key ts := by
    intro ts hts
    obtain ⟨token, htoken, rfl⟩ := mem_map.mp hts
    exact hbounded token htoken
  have hobserved : ∀ ts ∈ (d.request txnId key).observed ++ extra, Bounded d es txnId key ts :=
    forall_mem_append.mpr
      ⟨fun ts hts => bounded_of_observed hts, fun ts hts => hmap ts (hextra ts hts)⟩
  refine ⟨.inr ⟨key, hb, .maxOf ?_, ?_⟩, .inr ⟨key, hb, ?_⟩⟩
  · intro ts hts
    exact (mem_append.mp hts).elim (hmap ts) (hobserved ts)
  · intro writes hwrites
    obtain ⟨i, hi, hget⟩ := mem_iff_getElem.mp hwrites
    have hi' : i < tokens.length := hlen ▸ hi
    obtain ⟨intents, hmem⟩ := hprepared i tokens[i] writes (getElem?_eq_getElem hi')
      (by rw [getElem?_eq_getElem hi, hget])
    refine ⟨tokens[i].prepareTs, intents, hmem, le_maxOf (mem_append_left _ ?_)⟩
    exact mem_map.mpr ⟨tokens[i], getElem_mem hi', rfl⟩
  · intro ts hts
    rcases mem_cons.mp hts with rfl | hts
    · exact .maxOf hobserved
    · obtain ⟨token, htoken, rfl⟩ := mem_map.mp hts
      exact hbounded token (hmarks token htoken)

theorem prepare_set {slots : List Slot} {slot : Nat}
    {value : Slot} (h : CallOk d es (.prepare txnId key slots))
    (hvalue : ∀ writes token, (d.request txnId key).writes[slot]? = some writes →
      value = .answered (.ok token) → TokenOk es txnId writes.participant.raftGroupId token) :
    CallOk d es (.prepare txnId key (slots.set slot value)) := by
  obtain ⟨hb, hlen, htokens⟩ := h
  refine ⟨hb, by rw [length_set, hlen], ?_⟩
  intro i writes token hwrites hslot
  by_cases hi : slot = i
  · subst hi
    rw [getElem?_set_self'] at hslot
    obtain ⟨_, _, hslot⟩ := map_eq_some_iff.mp hslot
    exact hvalue writes token hwrites hslot
  · rw [getElem?_set_ne hi] at hslot
    exact htokens i writes token hwrites hslot

theorem probeParticipant_some {group : RaftGroupId} {st : Option IntentState}
    (hview : ∀ view, st = some view → IntentView es group view)
    (h : Pc.probeParticipant st txnId = some ts) :
    ∃ intents, Event.prepared group txnId ts intents ∈ es := by
  unfold Pc.probeParticipant at h
  split at h
  next prepareTs intents hphase =>
    cases h
    obtain ⟨view, hst, hphase⟩ := map_eq_some_iff.mp hphase
    exact ⟨intents, (hview view hst).prepared txnId _ _ hphase⟩
  next => cases h

theorem ProbesOk.found {participant : TxnParticipant} {todo : List TxnParticipant} {missing : Nat}
    (h : ProbesOk d es txnId record (participant :: todo) probed missing)
    (hprepared : ∃ intents, Event.prepared participant.raftGroupId txnId ts intents ∈ es) :
    ProbesOk d es txnId record todo (probed ++ [ts]) missing where
  recordOk := h.recordOk
  bounded := by
    obtain ⟨intents, hmem⟩ := hprepared
    exact forall_mem_append.mpr
      ⟨h.bounded, forall_mem_singleton.mpr (bounded_of_prepared hmem)⟩
  complete := by
    intro hmissing other hother
    rcases h.complete hmissing other hother with hmem | ⟨t, ht, hrest⟩
    · rcases mem_cons.mp hmem with rfl | hmem
      · exact .inr ⟨ts, by simp, hprepared⟩
      · exact .inl hmem
    · exact .inr ⟨t, mem_append_left _ ht, hrest⟩

theorem recovered_ok {now : HlcTimestamp} {missing : Nat}
    (h : ProbesOk d es txnId record [] probed missing) :
    CallOk d es (Pc.recovered txnId now record probed missing) := by
  unfold Pc.recovered
  split
  swap
  · exact pushIfExpired_ok ..
  next hmissing =>
    refine .inr ⟨record.idempotencyKey, h.recordOk.began, h.recordOk.bounded.max (.maxOf ?_), ?_⟩
    · intro ts hts
      rcases mem_append.mp hts with hts | hts
      · exact h.bounded ts hts
      · obtain ⟨⟨tabletId, ts⟩, hmem, rfl⟩ := mem_map.mp hts
        exact h.recordOk.marks tabletId ts (Std.TreeMap.mem_toList_iff_getElem?_eq_some.mp hmem)
    · intro writes hwrites
      have hparticipant : writes.participant ∈ record.participants := by
        rw [h.recordOk.participants]
        exact mem_map.mpr ⟨writes, hwrites, rfl⟩
      obtain ⟨ts, hts, intents, hmem⟩ :=
        (h.complete hmissing writes.participant hparticipant).resolve_left (by simp)
      exact ⟨ts, intents, hmem,
        le_trans (le_maxOf (mem_append_left _ hts)) (le_max_right _ _)⟩

theorem next_ok (hs : ClusterOk d s) {driver : DriverId} {wall at? slot : Nat} {pc : Pc}
    (hpc : CallOk d s.events pc) {effect : Effect}
    (h : pc.next d s driver wall at? slot = some effect) :
    CallOk d s.events effect.pc ∧
      ∀ message, effect.send = some message → MessageOk d s.events message := by
  cases pc with
  | «begin» txnId key =>
    simp only [Pc.next] at h
    split at h
    next hvalid =>
      cases h
      refine ⟨trivial, ?_⟩
      rintro _ ⟨⟩
      exact ⟨rfl, driver, key, _, rfl, hvalid⟩
    next =>
      cases h
      exact ⟨trivial, by simp⟩
  | beginSent txnId key message =>
    obtain ⟨st, hst, rfl⟩ := map_eq_some_iff.mp h
    exact ⟨beginAnswer_ok ((hs.status _).answer hst), by simp⟩
  | prepare txnId key slots =>
    simp only [Pc.next] at h
    split at h
    next writes hwrites hslot =>
      cases h
      refine ⟨prepare_set hpc (by rintro _ _ _ ⟨⟩), ?_⟩
      rintro _ ⟨⟩
      exact ⟨key, writes, hpc.1, mem_of_getElem? hwrites, rfl, rfl⟩
    next writes message hwrites hslot =>
      obtain ⟨st, hst, rfl⟩ := map_eq_some_iff.mp h
      refine ⟨prepare_set hpc ?_, by simp⟩
      intro writes' token hwrites' hvalue
      obtain rfl : writes = writes' := some.inj (hwrites.symm.trans hwrites')
      exact prepareAnswer_ok ((hs.intents _).answer hst) (Slot.answered.inj hvalue)
    next =>
      obtain ⟨answer, hanswer, rfl⟩ := map_eq_some_iff.mp h
      cases answer with
      | error => exact ⟨trivial, by simp⟩
      | ok tokens =>
        obtain rfl := collect_eq_ok hanswer
        refine ⟨collected_ok hpc _ ?_ _ ?_, by simp⟩
        · intro token htoken
          split at htoken
          · exact htoken
          · cases htoken
        · intro ts hts
          split at hts
          · exact hts
          · cases hts
    next => cases h
  | mark txnId todo observed minimum =>
    cases todo with
    | nil =>
      cases h
      exact ⟨hpc.1, by simp⟩
    | cons token todo =>
      cases h
      obtain ⟨hready, hmarks⟩ := hpc
      refine ⟨⟨hready, hmarks.imp_right ?_⟩, ?_⟩
      · rintro ⟨key, hb, hall⟩
        refine ⟨key, hb, fun ts hts => hall ts ?_⟩
        simp only [map_cons, mem_cons] at hts ⊢
        tauto
      · rintro _ ⟨⟩
        refine ⟨rfl, hmarks.imp_right ?_⟩
        rintro ⟨key, hb, hall⟩
        refine ⟨key, hb, fun ts hts => hall ts ?_⟩
        simp only [map_cons, mem_cons, not_mem_nil, or_false] at hts ⊢
        tauto
  | markSent txnId message tablet todo observed minimum =>
    obtain ⟨st, hst, rfl⟩ := map_eq_some_iff.mp h
    split
    · exact ⟨hpc, by simp⟩
    · exact ⟨trivial, by simp⟩
  | commit txnId minimum =>
    cases h
    refine ⟨trivial, ?_⟩
    rintro _ ⟨⟩
    exact ⟨rfl, minimum, hpc, ClockState.lt_nextAfter _ _ _⟩
  | commitSent | abortSent =>
    obtain ⟨st, hst, rfl⟩ := map_eq_some_iff.mp h
    exact ⟨trivial, by simp⟩
  | abort | heartbeat =>
    cases h
    refine ⟨trivial, ?_⟩
    rintro _ ⟨⟩
    exact ⟨rfl, trivial⟩
  | readBack txnId only =>
    cases h
    exact ⟨onRecord_ok hs fun _ _ => trivial, by simp⟩
  | broadcast txnId decision todo =>
    cases todo with
    | nil =>
      cases h
      exact ⟨trivial, by simp⟩
    | cons participant todo =>
      cases h
      refine ⟨hpc, ?_⟩
      rintro _ ⟨⟩
      exact hpc
  | recover txnId now =>
    cases h
    refine ⟨onRecord_ok hs fun record hrecord => ?_, by simp⟩
    exact { recordOk := hs.recordOk hrecord, bounded := by simp, complete := fun _ _ h => .inl h }
  | probe txnId now record todo probed missing =>
    cases todo with
    | nil =>
      cases h
      exact ⟨recovered_ok hpc, by simp⟩
    | cons participant todo =>
      simp only [Pc.next] at h
      split at h
      next ts hts =>
        cases h
        exact ⟨ProbesOk.found hpc
          (probeParticipant_some (fun _ hview => (hs.intents _).view hview) hts), by simp⟩
      next =>
        cases h
        exact ⟨{ recordOk := hpc.recordOk, bounded := hpc.bounded
                 complete := fun hzero => absurd hzero (Nat.succ_ne_zero _) }, by simp⟩
  | push | orphan =>
    cases h
    exact ⟨onRecord_ok hs fun _ _ => pushIfExpired_ok .., by simp⟩
  | sweep group now =>
    cases h
    refine ⟨trivial, ?_⟩
    rintro _ ⟨⟩
    trivial
  | finished outcome => cases h

theorem fail_ok {pc : Pc} (hpc : CallOk d es pc) (slot : Nat)
    (reason : AbortReason) : CallOk d es (pc.fail slot reason) := by
  cases pc with
  | prepare txnId key slots => exact prepare_set hpc (by rintro _ _ _ ⟨⟩)
  | broadcast => exact hpc
  | _ => trivial

end Calls

/-! ## Deliveries at a coordinator group -/

variable {decision : TxnDecision}

section Status

variable {d : Deployment} {es : List Event} {group : RaftGroupId}
  {before after : TxnStatusState} {recent : List Event} {txnId other : TransactionId}

theorem statusEvents_of_records_eq
    (h : after.records = before.records) (command : CoordinatorCommand)
    (pushedAt : Option HlcTimestamp) : statusEvents before after command pushedAt = [] := by
  unfold statusEvents
  rw [h]
  cases before.records[command.txnId]? with
  | none => rfl
  | some record => cases hd : record.state.decision <;> simp [hd]

theorem statusEvents_new (hbefore : before.records[command.txnId]? = none)
    (hafter : after.records[command.txnId]? = some record) (pushedAt : Option HlcTimestamp) :
    statusEvents before after command pushedAt =
      [.began command.txnId record.idempotencyKey] := by
  rw [statusEvents, hbefore, hafter]

theorem records_insert_self {records : Std.TreeMap TransactionId TxnRecord} :
    (records.insert txnId record)[txnId]? = some record := by
  simp

theorem records_insert_of_ne {records : Std.TreeMap TransactionId TxnRecord} (h : other ≠ txnId) :
    (records.insert txnId record)[other]? = records[other]? := by
  rw [Std.TreeMap.getElem?_insert, if_neg (by simpa using Ne.symm h)]

/-- Events of one transaction at its coordinator. -/
def Concerns (txnId : TransactionId) : Event → Prop
  | .began id _ => id = txnId
  | .decided id _ _ _ => id = txnId
  | .prepared _ _ _ _ | .resolved _ _ _ _ => False

theorem concerns_of_mem_statusEvents {pushedAt : Option HlcTimestamp} {e : Event}
    (he : e ∈ statusEvents before after command pushedAt) : Concerns command.txnId e := by
  unfold statusEvents at he
  split at he
  · obtain rfl := mem_singleton.mp he
    rfl
  · split at he
    · obtain rfl := mem_singleton.mp he
      rfl
    · cases he
  · cases he

/-- What does not concern a transaction leaves it where it was. -/
theorem began_append {key : IdempotencyKey}
    (hrecent : ∀ e ∈ recent, Concerns txnId e) (hne : other ≠ txnId)
    (h : Began (recent ++ es) other key) : Began es other key := by
  rcases mem_append.mp h with h | h
  · exact absurd (hrecent _ h) hne
  · exact h

theorem decided_append (hrecent : ∀ e ∈ recent, Concerns txnId e) (hne : other ≠ txnId)
    (h : Decided (recent ++ es) other decision) : Decided es other decision := by
  obtain ⟨expiry, pushedAt, hmem⟩ := h
  rcases mem_append.mp hmem with hmem | hmem
  · exact absurd (hrecent _ hmem) hne
  · exact ⟨expiry, pushedAt, hmem⟩

/-- A command on a record that is not decided keeps what is known about it. -/
theorem RecordOk.transition (hlawful : Lawful (Law d) es)
    {record record' : TxnRecord} (hrecord : RecordOk d es command.txnId record)
    (hopen : ∀ decision, ¬ Decided es command.txnId decision) (hcommand : CommandOk d es command)
    (h : record.transition command = .ok record')
    (hdecided : ∀ decision, record'.state.decision = some decision →
      Decided (recent ++ es) command.txnId decision) :
    RecordOk d (recent ++ es) command.txnId record' := by
  cases command with
  | «begin» => cases h
  | heartbeat txnId heartbeat expiry =>
    cases h
    unfold TxnRecord.beat at hdecided ⊢
    split at hdecided
    next hlater =>
      rw [if_pos hlater]
      exact { hrecord.mono with decided := hdecided }
    next hearlier =>
      rw [if_neg hearlier]
      exact hrecord.mono
  | markPreparing txnId tabletId prepareTs observed =>
    simp only [TxnRecord.transition] at h
    split at h
    · cases h
    cases h
    obtain hdec | ⟨key, hb, hbounded⟩ := hcommand
    · obtain ⟨decision, hdec⟩ := hdec
      exact absurd hdec (hopen decision)
    obtain rfl : key = record.idempotencyKey := began_unique hlawful hb hrecord.began
    refine { hrecord.mono with
      observed := le_trans hrecord.observed (le_max_left _ _)
      bounded := hrecord.mono.bounded.max (hbounded observed (by simp)).mono
      marks := ?_
      decided := hdecided }
    intro tablet ts hts
    dsimp only at hts
    rw [Std.TreeMap.getElem?_insert] at hts
    split at hts
    · cases hts
      exact (hbounded prepareTs (by simp)).mono
    · exact hrecord.mono.marks tablet ts hts
  | commit txnId commitTs =>
    simp only [TxnRecord.transition] at h
    split at h
    · cases h
    cases h
    exact { hrecord.mono with decided := hdecided }
  | abort txnId reason =>
    cases h
    exact { hrecord.mono with decided := hdecided }

theorem commit_of_transition {record record' : TxnRecord}
    {commitTs : HlcTimestamp} (h : record.transition command = .ok record')
    (hdecision : record'.state.decision = some (.committed commitTs))
    (hlive : record.state.decision = none) : ∃ txnId, command = .commit txnId commitTs := by
  cases command with
  | «begin» => cases h
  | heartbeat txnId heartbeat expiry =>
    cases h
    unfold TxnRecord.beat at hdecision
    split at hdecision <;> cases hlive.symm.trans hdecision
  | markPreparing txnId tabletId prepareTs observed =>
    simp only [TxnRecord.transition] at h
    split at h
    · cases h
    · cases h
      cases hdecision
  | commit txnId ts =>
    simp only [TxnRecord.transition] at h
    split at h
    · cases h
    · cases h
      cases hdecision
      exact ⟨txnId, rfl⟩
  | abort txnId reason =>
    cases h
    cases hdecision

theorem commitLaw_of_transition (hlawful : Lawful (Law d) es)
    {commitTs : HlcTimestamp} {record record' : TxnRecord}
    (hrecord : RecordOk d es txnId record) (hopen : ∀ decision, ¬ Decided es txnId decision)
    (hcommand : CommandOk d es (.commit txnId commitTs))
    (h : record.transition (.commit txnId commitTs) = .ok record') :
    CommitLaw d es txnId record.idempotencyKey commitTs := by
  simp only [TxnRecord.transition] at h
  split at h
  · cases h
  next hvalid =>
    have habove : record.maxObserved < commitTs := not_le.mp fun hle => hvalid (.inr hle)
    obtain ⟨minimum, hready, hlt⟩ := hcommand
    obtain hdec | ⟨key, hb, hbounded, hall⟩ := hready
    · obtain ⟨decision, hdec⟩ := hdec
      exact absurd hdec (hopen decision)
    obtain rfl : key = record.idempotencyKey := began_unique hlawful hb hrecord.began
    refine { observed := ?_, prepared := ?_ }
    · intro ts hts
      exact lt_of_le_of_lt (le_trans (le_maxOf hts) hrecord.observed) habove
    · intro writes hwrites
      obtain ⟨prepareTs, intents, hmem, hle⟩ := hall writes hwrites
      refine ⟨prepareTs, intents, hmem, ?_⟩
      by_cases hend : minimum.AtEnd
      · -- the last value comes from the client, and is below the timestamp, or from a prepare
        rcases hbounded with hobs | ⟨group, last, intents', hmem', hle'⟩
        · exact .inl (lt_of_le_of_lt (le_trans hle (le_trans hobs hrecord.observed)) habove)
        · exact .inr ⟨group, last, intents', hmem', hend.mono hle'⟩
      · exact .inl (lt_of_le_of_lt hle (hlt hend))

/-- A record that is replaced or added: the rest of the group's state is as it was. -/
theorem statusOk_insert {st st' : TxnStatusState} (hview : StatusView d es group st)
    (hnow : StatusNow d es group st)
    (hrecords : st'.records = st.records.insert txnId record) (hgroup : d.coordinator txnId = group)
    (hrecent : ∀ e ∈ recent, Concerns txnId e)
    (hrecord : RecordOk d (recent ++ es) txnId record)
    (hlive : record.state.decision = none → ∀ decision, ¬ Decided (recent ++ es) txnId decision) :
    StatusView d (recent ++ es) group st' ∧ StatusNow d (recent ++ es) group st' := by
  refine ⟨?_, ?_, ?_⟩
  · intro other found hfound
    rw [hrecords] at hfound
    by_cases heq : other = txnId
    · subst heq
      rw [records_insert_self] at hfound
      cases hfound
      exact ⟨hgroup, hrecord⟩
    · rw [records_insert_of_ne heq] at hfound
      exact hview.mono other found hfound
  · intro other hother hnone
    rw [hrecords] at hnone
    by_cases heq : other = txnId
    · subst heq
      rw [records_insert_self] at hnone
      cases hnone
    · rw [records_insert_of_ne heq] at hnone
      intro key hb
      exact hnow.fresh other hother hnone key (began_append hrecent heq hb)
  · intro other found hfound hopen
    rw [hrecords] at hfound
    by_cases heq : other = txnId
    · subst heq
      rw [records_insert_self] at hfound
      cases hfound
      exact hlive hopen
    · rw [records_insert_of_ne heq] at hfound
      intro decision hd
      exact hnow.live other found hfound hopen decision (decided_append hrecent heq hd)

/-- The events of a command obey the laws, and the state after it is in order. -/
theorem applyCommand_ok (hlawful : Lawful (Law d) es)
    {command : AppliedCommand CommandId CoordinatorCommand}
    (hview : StatusView d es group before) (hnow : StatusNow d es group before)
    (hgroup : d.coordinator command.command.body.txnId = group)
    (hcommand : CommandOk d es command.command.body)
    (h : TxnStatusState.applyCommand command before = .ok after)
    (pushedAt : Option HlcTimestamp) :
    let recent := statusEvents before after command.command.body pushedAt
    Lawful (Law d) (recent ++ es) ∧ StatusView d (recent ++ es) group after ∧
      StatusNow d (recent ++ es) group after := by
  intro recent
  have hconcerns : ∀ e ∈ recent, Concerns command.command.body.txnId e :=
    fun e he => concerns_of_mem_statusEvents he
  rcases TxnStatusState.applyCommand_cases h with
    hsame | ⟨record, hbody, hpending, hnone, hafter⟩ | ⟨record, record', hfound, hopen, htransition,
      hafter⟩
  · -- the records are as they were
    have hrecent : recent = [] := statusEvents_of_records_eq hsame _ _
    rw [hrecent]
    refine ⟨hlawful, ?_, ?_, ?_⟩
    · intro txnId record hrecord
      exact hview txnId record (hsame ▸ hrecord)
    · intro txnId hcoordinator hrecord
      exact hnow.fresh txnId hcoordinator (hsame ▸ hrecord)
    · intro txnId record hrecord
      exact hnow.live txnId record (hsame ▸ hrecord)
  · -- a new record
    rw [hbody] at hgroup hcommand hconcerns
    obtain ⟨driver, key, now, hpendingRecord, hvalid⟩ := hcommand
    have hkey : record.idempotencyKey = key := by rw [hpendingRecord]; rfl
    have hfirst := hnow.fresh record.txnId hgroup hnone
    have hrecent : recent = [.began record.txnId key] := by
      show statusEvents before after command.command.body pushedAt = _
      rw [hbody, ← hkey]
      exact statusEvents_new hnone (by rw [hafter]; exact records_insert_self) pushedAt
    have hbegan : Began (recent ++ es) record.txnId key := by
      rw [hrecent]
      exact mem_cons_self
    refine ⟨?_, statusOk_insert hview hnow hafter hgroup hconcerns ?_ ?_⟩
    · rw [hrecent]
      exact .cons (.began hvalid hfirst) hlawful
    · refine { began := hkey ▸ hbegan, participants := ?_, observed := ?_, bounded := ?_,
               marks := ?_, decided := ?_ }
      · rw [hkey, hpendingRecord]; rfl
      · rw [hkey, hpendingRecord]; exact le_refl _
      · rw [hkey, hpendingRecord]; exact .inl (le_refl _)
      · intro tabletId ts hts
        rw [hpendingRecord] at hts
        simp [Pc.pendingRecord] at hts
      · intro decision hdecision
        rw [hpending] at hdecision
        cases hdecision
    · intro _ decision hdecided
      rw [hrecent] at hdecided
      obtain ⟨expiry, at?, hmem⟩ := hdecided
      have hpast : Decided es record.txnId decision := ⟨expiry, at?, by simpa using hmem⟩
      obtain ⟨key', hb, -⟩ := hpast.law hlawful
      exact hfirst key' hb
  · -- a transition of a record that is not decided
    have hlive : record.state.decision = none := DistributedTxnState.isTerminal_eq_false.mp hopen
    have hundecided := hnow.live _ record hfound hlive
    have hrecord := (hview _ record hfound).2
    have hrecent : recent = record'.state.decision.toList.map fun decision =>
        .decided command.command.body.txnId decision record.expiry pushedAt := by
      show statusEvents before after command.command.body pushedAt = _
      rw [statusEvents, hfound, hafter, records_insert_self]
      dsimp only
      rw [hlive]
      cases record'.state.decision <;> rfl
    cases hdecision : record'.state.decision with
    | none =>
      rw [hdecision] at hrecent
      refine ⟨by rw [hrecent]; exact hlawful, statusOk_insert hview hnow hafter hgroup hconcerns
        (hrecord.transition hlawful hundecided hcommand htransition ?_) ?_⟩
      · rw [hdecision]
        exact nofun
      · intro _ decision hdecided
        rw [hrecent] at hdecided
        exact hundecided decision hdecided
    | some decision =>
      rw [hdecision] at hrecent
      have hdecided : Decided (recent ++ es) command.command.body.txnId decision := by
        rw [hrecent]
        exact ⟨_, _, mem_cons_self⟩
      refine ⟨?_, statusOk_insert hview hnow hafter hgroup hconcerns
        (hrecord.transition hlawful hundecided hcommand htransition ?_) ?_⟩
      · rw [hrecent]
        refine .cons (.decided record.idempotencyKey hrecord.began hundecided ?_) hlawful
        rintro commitTs rfl
        obtain ⟨txnId, hcommit⟩ : ∃ txnId, command.command.body = .commit txnId commitTs :=
          commit_of_transition htransition hdecision hlive
        rw [hcommit] at htransition hrecord hundecided hcommand ⊢
        exact commitLaw_of_transition hlawful hrecord hundecided hcommand htransition
      · intro decision' h
        rw [hdecision] at h
        cases h
        exact hdecided
      · rw [hdecision]
        exact nofun

end Status

/-! ## Deliveries at a participant -/

variable {verdict : Option String}

section Intents

variable {d : Deployment} {es : List Event} {group : RaftGroupId} {before after : IntentState}

/-- A transaction stays in its phase, or its tombstone is swept. -/
def Settled (before after : IntentPhase) : Prop :=
  after = before ∨ ∃ decision, before = .resolved decision ∧ after = .absent

/-- Events of one transaction at one participant. -/
def ConcernsAt (group : RaftGroupId) (txnId : TransactionId) : Event → Prop
  | .prepared g id _ _ => g = group ∧ id = txnId
  | .resolved g id _ _ => g = group ∧ id = txnId
  | .began _ _ | .decided _ _ _ _ => False

theorem concernsAt_of_mem_intentEvents {command : IntentCommand}
    {txnId : TransactionId} (htxn : command.txnId? = some txnId) {e : Event}
    (he : e ∈ intentEvents group before after command) : ConcernsAt group txnId e := by
  unfold intentEvents at he
  rw [htxn] at he
  dsimp only at he
  unfold phaseEvents at he
  split at he
  · obtain rfl := mem_singleton.mp he
    exact ⟨rfl, rfl⟩
  · cases he
  · obtain rfl := mem_singleton.mp he
    exact ⟨rfl, rfl⟩
  · cases he

theorem intentEvents_self (st : IntentState) (command : IntentCommand) :
    intentEvents group st st command = [] := by
  unfold intentEvents
  split
  · rfl
  next txnId _ => cases st.phase txnId <;> rfl

theorem preparedAt_append {recent : List Event} {txnId other : TransactionId}
    {group' : RaftGroupId} (hrecent : ∀ e ∈ recent, ConcernsAt group txnId e)
    (hne : group' ≠ group ∨ other ≠ txnId) (h : PreparedAt (recent ++ es) group' other) :
    PreparedAt es group' other := by
  obtain ⟨ts, intents, hmem⟩ := h
  rcases mem_append.mp hmem with hmem | hmem
  · obtain ⟨hg, ht⟩ := hrecent _ hmem
    exact (hne.elim (· hg) (· ht)).elim
  · exact ⟨ts, intents, hmem⟩

section

variable {txnId : TransactionId} (h : Settled (before.phase txnId) (after.phase txnId))
include h

theorem Settled.prepared (hview : IntentView es group before)
    (hphase : after.phase txnId = .prepared ts intents) :
    Event.prepared group txnId ts intents ∈ es := by
  rcases h with h | ⟨_, _, h⟩
  · exact hview.prepared txnId ts intents (h ▸ hphase)
  · rw [h] at hphase
    cases hphase

theorem Settled.resolved (hphase : after.phase txnId = .resolved decision) :
    before.phase txnId = .resolved decision := by
  rcases h with h | ⟨_, _, h⟩
  · exact h ▸ hphase
  · rw [h] at hphase
    cases hphase

theorem Settled.held (hphase : before.phase txnId = .prepared ts intents) :
    after.phase txnId = .prepared ts intents := by
  rcases h with h | ⟨_, hbefore, _⟩
  · rw [h, hphase]
  · rw [hbefore] at hphase
    cases hphase

end

section

variable (hview : IntentView es group before) (hnow : IntentNow es group before)
  (hkeyed : after.Keyed)
include hview hnow hkeyed

theorem intentOk_settled (hsettled : ∀ txnId, Settled (before.phase txnId) (after.phase txnId)) :
    IntentView es group after ∧ IntentNow es group after where
  left :=
    { prepared := fun txnId _ _ hphase => (hsettled txnId).prepared hview hphase
      resolved := fun txnId decision hphase =>
        hview.resolved txnId decision ((hsettled txnId).resolved hphase) }
  right :=
    { keyed := hkeyed
      held := by
        intro txnId hprepared hopen
        obtain ⟨ts, intents, hphase⟩ := hnow.held txnId hprepared hopen
        exact ⟨ts, intents, (hsettled txnId).held hphase⟩
      resolved := fun txnId decision hphase =>
        hnow.resolved txnId decision ((hsettled txnId).resolved hphase) }

/-- One transaction prepared or resolved: the others are as they were. -/
theorem intentOk_event {txnId : TransactionId} {e : Event}
    (hothers : ∀ other, other ≠ txnId → Settled (before.phase other) (after.phase other))
    (hevent : ConcernsAt group txnId e)
    (hprepared : ∀ ts intents, after.phase txnId = .prepared ts intents →
      Event.prepared group txnId ts intents = e)
    (hresolved : ∀ decision, after.phase txnId = .resolved decision →
      Decided es txnId decision ∧ ResolvedAt (e :: es) group txnId)
    (hheld : ¬ ResolvedAt (e :: es) group txnId →
      ∃ ts intents, after.phase txnId = .prepared ts intents) :
    IntentView (e :: es) group after ∧ IntentNow (e :: es) group after := by
  have hrecent : ∀ x ∈ [e], ConcernsAt group txnId x := forall_mem_singleton.mpr hevent
  have hview' : IntentView ([e] ++ es) group before := hview.mono
  refine ⟨⟨?_, ?_⟩, ⟨hkeyed, ?_, ?_⟩⟩
  · intro other ts intents hphase
    by_cases heq : other = txnId
    · subst heq
      rw [hprepared ts intents hphase]
      exact mem_cons_self
    · exact (hothers other heq).prepared hview' hphase
  · intro other decision hphase
    by_cases heq : other = txnId
    · subst heq
      show Decided ([e] ++ es) other decision
      exact (hresolved decision hphase).1.mono
    · exact hview'.resolved other decision ((hothers other heq).resolved hphase)
  · intro other hp hopen
    by_cases heq : other = txnId
    · subst heq
      exact hheld hopen
    · have hp' : PreparedAt ([e] ++ es) group other := hp
      have hopen' : ¬ ResolvedAt es group other := fun hr =>
        hopen (show ResolvedAt ([e] ++ es) group other from hr.mono)
      obtain ⟨ts, intents, hphase⟩ :=
        hnow.held other (preparedAt_append hrecent (.inr heq) hp') hopen'
      exact ⟨ts, intents, (hothers other heq).held hphase⟩
  · intro other decision hphase
    by_cases heq : other = txnId
    · subst heq
      exact (hresolved decision hphase).2
    · show ResolvedAt ([e] ++ es) group other
      exact (hnow.resolved other decision ((hothers other heq).resolved hphase)).mono

end

theorem settled_of_phaseStep {body : IntentCommand} {txnId : TransactionId}
    {before after : IntentPhase} (h : st.PhaseStep body txnId before after)
    (hbody : body.txnId? ≠ some txnId) : Settled before after := by
  cases h with
  | same => exact .inl rfl
  | prepare _ _ _ _ heq => exact absurd (by rw [heq]; rfl) hbody
  | resolve _ _ heq => exact absurd (by rw [heq]; rfl) hbody
  | sweep decision => exact .inr ⟨decision, rfl, rfl⟩

theorem law_of_prepare (hlawful : Lawful (Law d) es)
    (hview : IntentView es group st) (hnow : IntentNow es group st) {txnId : TransactionId}
    {schemaVersion : SchemaVersion} {authzVersion : Nat} {prepareTs : HlcTimestamp}
    (hcommand : IntentCommandOk d es group
      (.persistIntents txnId schemaVersion authzVersion prepareTs intents))
    (habsent : st.phase txnId = .absent) (hfree : st.Free txnId intents) :
    Law d es (.prepared group txnId prepareTs intents) := by
  obtain ⟨key, writes, hb, hmem, hgroup, hstaged⟩ := hcommand
  refine .prepared key writes hb hmem hgroup hstaged ?_ ?_
  · -- whoever prepared one of the keys and is not resolved still holds it
    rintro other ts held hne hprepared ⟨intent, hintent, intent', hintent', hkey⟩
    by_contra hopen
    obtain ⟨ts', held', hphase⟩ := hnow.held other ⟨ts, held, hprepared⟩ hopen
    obtain ⟨-, rfl⟩ :=
      prepared_unique hlawful hopen hprepared (hview.prepared other ts' held' hphase)
    exact hfree other ts' held hne hphase intent hintent intent' hintent' hkey.symm
  · intro hprepared
    by_contra hopen
    obtain ⟨ts, held, hphase⟩ := hnow.held txnId hprepared hopen
    rw [habsent] at hphase
    cases hphase

theorem law_of_resolve (hlawful : Lawful (Law d) es)
    (hview : IntentView es group before) (hnow : IntentNow es group before)
    {command : AppliedCommand CommandId IntentCommand} {txnId : TransactionId}
    (hdecided : Decided es txnId decision)
    (h : before.applyResolve command txnId decision = .ok after) :
    Law d es (.resolved group txnId decision
      (after.committedWrites.drop before.committedWrites.length)) := by
  have hwrites : after.committedWrites.drop before.committedWrites.length =
      visibleWrites txnId (before.phase txnId) decision := by
    rw [IntentState.applyResolve_committedWrites h, drop_left]
  rw [hwrites]
  refine .resolved hdecided ?_ ?_
  · intro hopen prepareTs intents hprepared
    obtain ⟨ts, held, hphase⟩ := hnow.held txnId ⟨prepareTs, intents, hprepared⟩ hopen
    obtain ⟨rfl, rfl⟩ :=
      prepared_unique hlawful hopen hprepared (hview.prepared txnId ts held hphase)
    rw [hphase]
  · intro write hwrite
    unfold visibleWrites at hwrite
    split at hwrite
    · obtain ⟨intent, -, rfl⟩ := mem_map.mp hwrite
      exact ⟨rfl, rfl⟩
    · cases hwrite

/-- The events of a command obey the laws, and the state after it is in order. -/
theorem applyIntent_ok (hlawful : Lawful (Law d) es)
    {command : AppliedCommand CommandId IntentCommand}
    (hview : IntentView es group before) (hnow : IntentNow es group before)
    (hcommand : IntentCommandOk d es group command.command.body)
    (h : IntentState.applyIntent verdict command before = .ok after) :
    let recent := intentEvents group before after command.command.body
    Lawful (Law d) (recent ++ es) ∧ IntentView (recent ++ es) group after ∧
      IntentNow (recent ++ es) group after := by
  intro recent
  have hkeyed := hnow.keyed.applyIntent h
  have hphase := fun txnId => IntentState.applyIntent_phase hnow.keyed h txnId
  cases htxn : command.command.body.txnId? with
  | none =>
    have hrecent : recent = [] := by
      show intentEvents group before after command.command.body = []
      rw [intentEvents, htxn]
    rw [hrecent]
    exact ⟨hlawful, intentOk_settled hview hnow hkeyed fun txnId =>
      settled_of_phaseStep (hphase txnId) (by rw [htxn]; exact nofun)⟩
  | some txnId =>
    have hothers : ∀ other, other ≠ txnId → Settled (before.phase other) (after.phase other) := by
      intro other hne
      refine settled_of_phaseStep (hphase other) ?_
      rw [htxn]
      exact fun heq => hne (some.inj heq).symm
    have hrecent : recent = phaseEvents group txnId
        (after.committedWrites.drop before.committedWrites.length) (before.phase txnId)
        (after.phase txnId) := by
      show intentEvents group before after command.command.body = _
      rw [intentEvents, htxn]
    have hstep := hphase txnId
    generalize hbefore : before.phase txnId = old at hstep hrecent
    generalize hafter : after.phase txnId = new at hstep hrecent
    -- a command that does nothing to its transaction
    have hnothing : recent = [] → Settled old new →
        Lawful (Law d) (recent ++ es) ∧ IntentView (recent ++ es) group after ∧
          IntentNow (recent ++ es) group after := by
      intro hnil hsettled
      rw [hnil]
      refine ⟨hlawful, intentOk_settled hview hnow hkeyed fun other => ?_⟩
      by_cases heq : other = txnId
      · rw [heq, hbefore, hafter]
        exact hsettled
      · exact hothers other heq
    cases hstep with
    | same => exact hnothing (by cases old <;> exact hrecent) (.inl rfl)
    | sweep decision => exact hnothing hrecent (.inr ⟨decision, rfl, rfl⟩)
    | prepare schemaVersion authzVersion prepareTs intents hbody hfree =>
      rw [hbody] at hcommand
      have hlaw := law_of_prepare hlawful hview hnow hcommand hbefore hfree
      rw [show recent = [.prepared group txnId prepareTs intents] from hrecent]
      refine ⟨.cons hlaw hlawful, intentOk_event hview hnow hkeyed hothers ⟨rfl, rfl⟩ ?_ ?_ ?_⟩
      · intro ts held hheld
        cases hafter.symm.trans hheld
        rfl
      · intro decision hresolved
        cases hafter.symm.trans hresolved
      · exact fun _ => ⟨prepareTs, intents, hafter⟩
    | resolve _ decision hbody hlive =>
      rw [hbody] at hcommand
      have happly : before.applyResolve command txnId decision = .ok after := by
        rw [IntentState.applyIntent, hbody] at h
        exact h
      have hlaw := law_of_resolve hlawful hview hnow hcommand happly
      have hone : recent = [.resolved group txnId decision
          (after.committedWrites.drop before.committedWrites.length)] := by
        rw [hrecent]
        cases old with
        | absent => rfl
        | prepared => rfl
        | resolved prior => exact absurd rfl (hlive prior)
      rw [hone]
      refine ⟨.cons hlaw hlawful, intentOk_event hview hnow hkeyed hothers ⟨rfl, rfl⟩ ?_ ?_ ?_⟩
      · intro ts held hheld
        cases hafter.symm.trans hheld
      · intro decision' hresolved
        cases hafter.symm.trans hresolved
        exact ⟨hcommand, _, _, mem_cons_self⟩
      · exact fun hopen => absurd ⟨_, _, mem_cons_self⟩ hopen

end Intents

/-! ## Steps and runs -/

section Steps

variable {d : Deployment} {s s' : Cluster}

theorem GroupOk.delivered {View View' Now Now' : σ → Prop} {g g' : Group σ}
    {message : Nat} (h : GroupOk View Now g) (hmono : ∀ st, View st → View' st)
    (htrace : g'.trace = g.trace ++ [(message, g'.state)]) (hview : View' g'.state)
    (hnow : Now' g'.state) : GroupOk View' Now' g' where
  trace := by
    rw [htrace]
    exact forall_mem_append.mpr ⟨fun entry hentry => hmono _ (h.trace entry hentry),
      forall_mem_singleton.mpr hview⟩
  state := hview
  now := hnow

theorem GroupOk.mono {View View' Now Now' : σ → Prop} {g : Group σ}
    (h : GroupOk View Now g) (hview : ∀ st, View st → View' st)
    (hnow : Now g.state → Now' g.state) :
    GroupOk View' Now' g where
  trace := fun entry hentry => hview _ (h.trace entry hentry)
  state := hview _ h.state
  now := hnow h.now

theorem StatusNow.mono {es recent : List Event} {group : RaftGroupId} {st : TxnStatusState}
    (h : StatusNow d es group st)
    (hbegan : ∀ txnId key, d.coordinator txnId = group → Began (recent ++ es) txnId key →
      Began es txnId key)
    (hdecided : ∀ txnId decision, d.coordinator txnId = group →
      Decided (recent ++ es) txnId decision → Decided es txnId decision)
    (hview : StatusView d es group st) : StatusNow d (recent ++ es) group st where
  fresh := fun txnId hgroup hnone key hb =>
    h.fresh txnId hgroup hnone key (hbegan txnId key hgroup hb)
  live := fun txnId record hrecord hopen decision hd =>
    h.live txnId record hrecord hopen decision
      (hdecided txnId decision (hview txnId record hrecord).1 hd)

theorem IntentNow.mono {es recent : List Event} {group : RaftGroupId} (h : IntentNow es group st)
    (hprepared : ∀ txnId, PreparedAt (recent ++ es) group txnId → PreparedAt es group txnId) :
    IntentNow (recent ++ es) group st where
  keyed := h.keyed
  held := fun txnId hp hopen => h.held txnId (hprepared txnId hp) fun hr => hopen hr.mono
  resolved := fun txnId decision hphase => (h.resolved txnId decision hphase).mono

section

variable (hs : ClusterOk d s) {message : Nat} {group : RaftGroupId} {id : CommandId}
include hs

theorem deliver_status_ok {pushedAt : Option HlcTimestamp}
    (hmessage : MessageOk d s.events (.status group id command pushedAt)) {stamp : HlcTimestamp}
    (h : s.deliver d message stamp verdict (.status group id command pushedAt) = some s') :
    ClusterOk d s' := by
  obtain ⟨after, hafter, rfl⟩ := map_eq_some_iff.mp h
  obtain ⟨htrace, hstate⟩ := Group.deliver_cases hafter
  obtain ⟨hgroup, hcommand⟩ := hmessage
  have hbefore := hs.status group
  generalize hrecent : statusEvents (s.status group).state after.state command pushedAt = recent
  have hcore : Lawful (Law d) (recent ++ s.events) ∧
      StatusView d (recent ++ s.events) group after.state ∧
      StatusNow d (recent ++ s.events) group after.state := by
    rcases hstate with hsame | ⟨position, happly⟩
    · rw [hsame, statusEvents_of_records_eq rfl] at hrecent
      rw [← hrecent, hsame]
      exact ⟨hs.lawful, hbefore.state, hbefore.now⟩
    · rw [← hrecent]
      exact applyCommand_ok hs.lawful hbefore.state hbefore.now hgroup.symm hcommand happly pushedAt
  have hconcerns : ∀ e ∈ recent, Concerns command.txnId e := by
    rw [← hrecent]
    exact fun e he => concerns_of_mem_statusEvents he
  refine { lawful := hcore.1, status := ?_, intents := ?_, network := ?_, calls := ?_ }
  · intro other
    by_cases heq : other = group
    · subst heq
      dsimp only
      rw [Function.update_self]
      exact hbefore.delivered (fun st => StatusView.mono) htrace hcore.2.1 hcore.2.2
    · dsimp only
      rw [Function.update_of_ne heq]
      have hne : ∀ txnId, d.coordinator txnId = other → txnId ≠ command.txnId := by
        rintro txnId hother rfl
        exact heq (hother.symm.trans hgroup.symm)
      exact (hs.status other).mono (fun st => StatusView.mono) fun hnow =>
        hnow.mono (fun txnId _ hg => began_append hconcerns (hne txnId hg))
          (fun txnId _ hg => decided_append hconcerns (hne txnId hg)) (hs.status other).state
  · intro other
    refine (hs.intents other).mono (fun st => IntentView.mono) fun hnow => hnow.mono ?_
    rintro txnId ⟨ts, intents, hmem⟩
    exact ⟨ts, intents, (mem_append.mp hmem).resolve_left (hconcerns _)⟩
  · exact fun m hm => (hs.network m hm).mono
  · exact fun call hcall => (hs.calls call hcall).mono

theorem deliver_intent_ok {command : IntentCommand}
    (hmessage : MessageOk d s.events (.intent group id command)) {stamp : HlcTimestamp}
    (h : s.deliver d message stamp verdict (.intent group id command) = some s') :
    ClusterOk d s' := by
  obtain ⟨after, hafter, rfl⟩ := map_eq_some_iff.mp h
  obtain ⟨htrace, hstate⟩ := Group.deliver_cases hafter
  have hcommand : IntentCommandOk d s.events group command := hmessage
  have hbefore := hs.intents group
  generalize hrecent : intentEvents group (s.intents group).state after.state command = recent
  have hcore : Lawful (Law d) (recent ++ s.events) ∧
      IntentView (recent ++ s.events) group after.state ∧
      IntentNow (recent ++ s.events) group after.state := by
    rcases hstate with hsame | ⟨position, happly⟩
    · rw [hsame, intentEvents_self] at hrecent
      rw [← hrecent, hsame]
      exact ⟨hs.lawful, hbefore.state, hbefore.now⟩
    · rw [← hrecent]
      exact applyIntent_ok hs.lawful hbefore.state hbefore.now hcommand happly
  -- nothing begins or is decided here, and nothing happens at other participants
  have hconcerns : ∀ e ∈ recent, ∃ txnId, ConcernsAt group txnId e := by
    rw [← hrecent]
    intro e he
    cases htxn : command.txnId? with
    | none => rw [intentEvents, htxn] at he; cases he
    | some txnId => exact ⟨txnId, concernsAt_of_mem_intentEvents htxn he⟩
  refine { lawful := hcore.1, status := ?_, intents := ?_, network := ?_, calls := ?_ }
  · intro other
    refine (hs.status other).mono (fun st => StatusView.mono) fun hnow =>
      hnow.mono ?_ ?_ (hs.status other).state
    · exact fun txnId key _ hb => (mem_append.mp hb).resolve_left fun h =>
        (hconcerns _ h).elim fun _ hc => hc
    · rintro txnId decision _ ⟨expiry, pushedAt, hmem⟩
      exact ⟨expiry, pushedAt, (mem_append.mp hmem).resolve_left fun h =>
        (hconcerns _ h).elim fun _ hc => hc⟩
  · intro other
    by_cases heq : other = group
    · subst heq
      dsimp only
      rw [Function.update_self]
      exact hbefore.delivered (fun st => IntentView.mono) htrace hcore.2.1 hcore.2.2
    · dsimp only
      rw [Function.update_of_ne heq]
      refine (hs.intents other).mono (fun st => IntentView.mono) fun hnow => hnow.mono ?_
      rintro txnId ⟨ts, intents, hmem⟩
      exact ⟨ts, intents, (mem_append.mp hmem).resolve_left fun h =>
        (hconcerns _ h).elim fun _ hc => heq hc.1⟩
  · exact fun m hm => (hs.network m hm).mono
  · exact fun call hcall => (hs.calls call hcall).mono

end

theorem take_ok (hs : ClusterOk d s) {call : Nat} {driver : DriverId} {effect : Effect}
    (hpc : CallOk d s.events effect.pc)
    (hsend : ∀ message, effect.send = some message → MessageOk d s.events message) :
    ClusterOk d (s.take call driver effect) where
  lawful := hs.lawful
  status := hs.status
  intents := hs.intents
  network :=
    forall_mem_append.mpr
      ⟨hs.network, fun message hmessage => hsend message (mem_toList.mp hmessage)⟩
  calls := by
    intro entry hentry
    rcases mem_or_eq_of_mem_set hentry with hentry | rfl
    · exact hs.calls entry hentry
    · exact hpc

theorem ClusterOk.step (hs : ClusterOk d s) {label : Label} (h : s.step d label = some s') :
    ClusterOk d s' := by
  cases label with
  | start driver request =>
    cases h
    refine { hs with calls := ?_ }
    refine forall_mem_append.mpr ⟨hs.calls, forall_mem_singleton.mpr ?_⟩
    cases request <;> trivial
  | advance call wall at? slot =>
    simp only [Cluster.step] at h
    split at h
    · cases h
    next driver pc hcall =>
      obtain ⟨effect, heffect, rfl⟩ := map_eq_some_iff.mp h
      obtain ⟨hpc, hsend⟩ := next_ok hs (hs.calls _ (mem_of_getElem? hcall)) heffect
      exact take_ok hs hpc hsend
  | fail call slot reason =>
    simp only [Cluster.step] at h
    split at h
    · cases h
    next driver pc hcall =>
      cases h
      exact take_ok hs (fail_ok (hs.calls _ (mem_of_getElem? hcall)) slot reason) (by simp)
  | setTabletVersions group schemaVersion authzVersion n =>
    cases h
    refine { hs with network := ?_ }
    exact forall_mem_append.mpr ⟨hs.network, forall_mem_singleton.mpr trivial⟩
  | observe driver wall remote =>
    cases h
    exact { hs with }
  | deliver message stamp verdict =>
    simp only [Cluster.step] at h
    split at h
    · cases h
    next m hm =>
      have hok := hs.network m (mem_of_getElem? hm)
      cases m with
      | status => exact deliver_status_ok hs hok h
      | intent => exact deliver_intent_ok hs hok h

theorem clusterOk_init (d : Deployment) : ClusterOk d .init where
  lawful := .nil
  status := fun group =>
    { trace := by intro entry hentry; cases hentry
      state := by
        intro txnId record hrecord
        simp [Cluster.init, Group.init, Group.state] at hrecord
      now := { fresh := by intro txnId _ _ key hb; cases hb
               live := by rintro txnId record _ _ decision ⟨_, _, hmem⟩; cases hmem } }
  intents := fun group =>
    have hphase : ∀ txnId, (Group.init ({} : IntentState)).state.phase txnId = .absent := by
      intro txnId
      rw [IntentState.phase_eq_absent]
      simp [Group.init, Group.state]
    { trace := by intro entry hentry; cases hentry
      state :=
        { prepared := by
            intro txnId ts intents h
            cases (hphase txnId).symm.trans h
          resolved := by
            intro txnId decision h
            cases (hphase txnId).symm.trans h }
      now :=
        { keyed := by
            intro txnId txn htxn
            simp [Cluster.init, Group.init, Group.state] at htxn
          held := by rintro txnId ⟨_, _, hmem⟩; cases hmem
          resolved := by
            intro txnId decision h
            cases (hphase txnId).symm.trans h } }
  network := by intro message hmessage; cases hmessage
  calls := by intro call hcall; cases hcall

theorem reachable_clusterOk {ok : Cluster → Label → Prop}
    (h : Reachable (Cluster.step d) ok .init s) : ClusterOk d s :=
  h.invariant (clusterOk_init d) fun _ _ _ hs _ hstep => hs.step hstep

end Steps

end MongrelDB.DistTxn
