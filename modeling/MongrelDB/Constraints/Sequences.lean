import MongrelDB.Constraints.SequenceGrants
import Mathlib.Data.List.Nodup

/-!
# Sequence allocators

An allocator draws a range from the sequence tablet and hands out its values one by
one from a counter that is lost in a crash.
-/

namespace MongrelDB.Constraints

open Epoch Lib Consensus List

/-- Where a call of `next` that needs a new range has got to. -/
inductive Refill where
  | idle
  | proposing (id : GrantId)
  /-- The grant is committed and was not refused. -/
  | reading (id : GrantId) (node : Nat)
  deriving DecidableEq, Repr

def Refill.id : Refill → Option GrantId
  | idle => none
  | proposing id => some id
  | reading id _ => some id

structure SequenceAllocator where
  sequence : SequenceName
  holder : Nat
  width : Nat
  nextValue : Nat := 0
  grantLast : Nat := 0
  hasGrant : Bool := false
  refill : Refill := .idle
  deriving DecidableEq, Repr

/-- A grant proposed by an allocator, or by somebody else. -/
structure Request where
  id : GrantId
  allocator : Option Nat
  command : SequenceCommand
  deriving DecidableEq, Repr

structure Handed where
  allocator : Nat
  sequence : SequenceName
  value : Nat
  deriving DecidableEq, Repr

structure SequenceRun where
  log : SequenceLog
  group : Cluster GrantId Unit SequenceAllocatorState
  /-- All that may still reach the log, now or later. -/
  requests : List Request
  /-- By the order of their creation. -/
  allocators : List (Option SequenceAllocator)
  /-- In the order of the answers. -/
  handed : List Handed

namespace SequenceRun

variable {al : SequenceAllocator} {id : GrantId} {g : SequenceGrant}

inductive Label where
  | propose (id : GrantId) (command : SequenceCommand)
  /-- The leader appends an entry. -/
  | append (term : Nat) (payload : EntryPayload GrantId SequenceBody Unit)
  /-- A step of a member of the group. -/
  | member (action : Action)
  | create (sequence : SequenceName) (holder width : Nat)
  | crash (allocator : Nat)
  /-- A call of `next`, with the id and the time its refill would draw. -/
  | next (allocator : Nat) (id : GrantId) (grantedAt : HlcTimestamp)
  /-- A member answers the proposal. -/
  | answered (allocator node : Nat)
  /-- The grant is read back from it. -/
  | read (allocator : Nat)
  | giveUp (allocator : Nat)
  deriving DecidableEq, Repr

def init : SequenceRun := ⟨[], .fresh {}, [], [], []⟩

def allocator (s : SequenceRun) (a : Nat) : Option SequenceAllocator := (s.allocators[a]?).join

def setAllocator (s : SequenceRun) (a : Nat) (al : Option SequenceAllocator) : SequenceRun :=
  { s with allocators := s.allocators.set a al }

/-- A grant reaches the log only from a request. -/
def proposed (s : SequenceRun) : EntryPayload GrantId SequenceBody Unit → Bool
  | .normal command =>
    match command.body with
    | .grant c => s.requests.any fun r => command.commandId = some r.id ∧ r.command = c
    | _ => true
  | _ => true

/-- The next value goes out and the counter moves on, up to `u64::MAX`. -/
def hand (s : SequenceRun) (a : Nat) (al : SequenceAllocator) : SequenceRun :=
  { s.setAllocator a
      (some { al with nextValue := min (al.nextValue + 1) maxValue, refill := .idle })
    with handed := s.handed ++ [⟨a, al.sequence, al.nextValue⟩] }

def payloadId : EntryPayload GrantId SequenceBody Unit → Option GrantId
  | .normal command => command.commandId
  | _ => none

/-- The member has applied an entry of the request. -/
def applied (s : SequenceRun) (node : Nat) (id : GrantId) : Bool :=
  (s.log.take (s.group.nodes node).machine.record.position.index).any fun entry =>
    payloadId entry.payload = some id

/-- The state the member's sink shows. -/
def view (s : SequenceRun) (node : Nat) : SequenceAllocatorState :=
  (s.group.nodes node).machine.sink.state

def step (retention : Nat) (s : SequenceRun) : Label → Option SequenceRun
  | .propose id command =>
    if id ∈ s.requests.map (·.id) then none
    else some { s with requests := s.requests ++ [⟨id, none, command⟩] }
  | .append term payload =>
    if s.proposed payload then
      some { s with log := s.log ++ [⟨⟨term, s.log.length + 1⟩, payload⟩] }
    else none
  | .member action =>
    (s.group.step SequenceAllocatorState.apply retention s.log action).map fun group =>
      { s with group }
  | .create sequence holder width =>
    some { s with allocators := s.allocators ++ [some { sequence, holder, width }] }
  | .crash a => some (s.setAllocator a none)
  | .next a id grantedAt =>
    match s.allocator a with
    | none => none
    | some al =>
      if al.refill ≠ .idle then none
      else if al.hasGrant ∧ al.nextValue ≤ al.grantLast then some (s.hand a al)
      else if id ∈ s.requests.map (·.id) then none
      else
        some { s.setAllocator a (some { al with refill := .proposing id }) with
          requests := s.requests ++ [⟨id, some a, ⟨al.sequence, al.width, al.holder, grantedAt⟩⟩] }
  | .answered a node =>
    match s.allocator a with
    | none => none
    | some al =>
      match al.refill with
      | .proposing id =>
        if s.applied node id then
          -- the newest refusal of the id is the answer
          match (s.view node).rejections.reverse.find? (·.commandId = some id) with
          | some _ => some (s.setAllocator a (some { al with refill := .idle }))
          | none => some (s.setAllocator a (some { al with refill := .reading id node }))
        else none
      | _ => none
  | .read a =>
    match s.allocator a with
    | none => none
    | some al =>
      match al.refill with
      | .reading id node =>
        match (s.view node).grants[id]? with
        | none => some (s.setAllocator a (some { al with refill := .idle }))
        | some grant =>
          some (s.hand a
            { al with nextValue := grant.first, grantLast := grant.last, hasGrant := true })
      | _ => none
  | .giveUp a =>
    (s.allocator a).map fun al => s.setAllocator a (some { al with refill := .idle })

/-- No value twice in a sequence, and increasing values from each allocator. -/
def Increasing (s : SequenceRun) : Prop :=
  s.handed.Pairwise fun x y =>
    (x.sequence = y.sequence → x.value ≠ y.value) ∧ (x.allocator = y.allocator → x.value < y.value)

/-- An allocator that has handed out `u64::MAX` is not asked again. -/
def NotExhausted (s : SequenceRun) : Label → Prop
  | .next a _ _ => ∀ x ∈ s.handed, x.allocator = a → x.value ≠ maxValue
  | _ => True

/-! ## The invariant -/

/-- The grant `g`, made by entry `j`, answers a request of the allocator. -/
def Owns (retention : Nat) (s : SequenceRun) (a j : Nat) (g : SequenceGrant) : Prop :=
  MadeAt retention s.log j g ∧ ∃ r ∈ s.requests, r.id = g.commandId ∧ r.allocator = some a

/-- The value stems from the grant that entry `j` made. -/
def From (retention : Nat) (s : SequenceRun) (x : Handed) (j : Nat) : Prop :=
  ∃ g, Owns retention s x.allocator j g ∧ g.sequence = x.sequence ∧
    g.first ≤ x.value ∧ x.value ≤ g.last

/-- What an allocator may hand out next is above all it has handed out, until the end. -/
structure HeldOk (retention : Nat) (s : SequenceRun) (a : Nat) (al : SequenceAllocator) :
    Prop where
  grant : ∃ j g, Owns retention s a j g ∧ g.sequence = al.sequence ∧ g.first ≤ al.nextValue ∧
    g.last = al.grantLast
  above : ∀ x ∈ s.handed, x.allocator = a → x.value < al.nextValue ∨ x.value = maxValue

/-- All that the allocator has handed out was granted before the request could be. -/
structure PendingOk (retention : Nat) (s : SequenceRun) (a : Nat) (al : SequenceAllocator)
    (id : GrantId) : Prop where
  request : ∃ r ∈ s.requests, r.id = id ∧ r.allocator = some a ∧
    r.command.sequence = al.sequence
  later : ∃ start ≤ s.log.length, (∀ j c, Carries s.log j (some id) c → start ≤ j) ∧
    ∀ x ∈ s.handed, x.allocator = a → ∃ j < start, From retention s x j

structure Ok (retention : Nat) (s : SequenceRun) : Prop where
  numbered : WellNumbered s.log
  group : ClusterOk SequenceAllocatorState.apply retention {} s.log s.group
  logged : ∀ j id c, Carries s.log j id c → ∃ r ∈ s.requests, id = some r.id ∧ r.command = c
  distinct : (s.requests.map (·.id)).Nodup
  created : ∀ x ∈ s.handed, x.allocator < s.allocators.length
  sequence : ∀ a al, s.allocator a = some al → ∀ x ∈ s.handed, x.allocator = a →
    x.sequence = al.sequence
  source : ∀ x ∈ s.handed, ∃ j, From retention s x j
  held : ∀ a al, s.allocator a = some al → al.hasGrant = true → HeldOk retention s a al
  pending : ∀ a al id, s.allocator a = some al → al.refill.id = some id →
    PendingOk retention s a al id
  increasing : s.Increasing

variable {retention : Nat} {s s' : SequenceRun}

theorem init_ok : Ok retention init where
  numbered := fun i entry h => by simp [init] at h
  group := clusterOk_fresh
  logged := fun j id c h => absurd h.lt (by simp [init])
  distinct := nodup_nil
  created := fun x hx => by cases hx
  sequence := fun a al h => by simp [init, allocator] at h
  source := fun x hx => by cases hx
  held := fun a al h => by simp [init, allocator] at h
  pending := fun a al id h => by simp [init, allocator] at h
  increasing := Pairwise.nil

/-! ### Steps that hand nothing out -/

/-- Log and requests only grow. -/
structure Extends (s s' : SequenceRun) : Prop where
  log : ∃ more, s'.log = s.log ++ more
  requests : ∀ r ∈ s.requests, r ∈ s'.requests

theorem Owns.mono {a j : Nat} (h : Owns retention s a j g)
    (hext : Extends s s') : Owns retention s' a j g := by
  obtain ⟨hmade, r, hr, hid, ha⟩ := h
  obtain ⟨more, hlog⟩ := hext.log
  refine ⟨?_, r, hext.requests r hr, hid, ha⟩
  rw [hlog]
  exact hmade.append more

theorem From.mono {x : Handed} {j : Nat} (h : From retention s x j) (hext : Extends s s') :
    From retention s' x j := by
  obtain ⟨g, howns, hrest⟩ := h
  exact ⟨g, howns.mono hext, hrest⟩

variable {a : Nat}

theorem HeldOk.mono (h : HeldOk retention s a al)
    (hext : Extends s s') (hhanded : s'.handed = s.handed) : HeldOk retention s' a al := by
  obtain ⟨j, g, howns, hrest⟩ := h.grant
  refine ⟨⟨j, g, howns.mono hext, hrest⟩, ?_⟩
  rw [hhanded]
  exact h.above

theorem PendingOk.mono {al al' : SequenceAllocator}
    (h : PendingOk retention s a al id) (hsequence : al'.sequence = al.sequence)
    (hext : Extends s s') (hhanded : s'.handed = s.handed) : PendingOk retention s' a al' id := by
  obtain ⟨r, hr, hid, ha, hrsequence⟩ := h.request
  obtain ⟨start, hstart, hlater, hbefore⟩ := h.later
  obtain ⟨more, hlog⟩ := hext.log
  refine ⟨⟨r, hext.requests r hr, hid, ha, hrsequence.trans hsequence.symm⟩, start, ?_, ?_, ?_⟩
  · rw [hlog, length_append]
    omega
  · intro j c hcarries
    rw [hlog] at hcarries
    rcases Nat.lt_or_ge j s.log.length with hlt | hge
    · obtain ⟨entry, ts, hentry, hpayload⟩ := hcarries
      rw [getElem?_append_left hlt] at hentry
      exact hlater j c ⟨entry, ts, hentry, hpayload⟩
    · exact hstart.trans hge
  · intro x hx hxa
    rw [hhanded] at hx
    obtain ⟨j, hj, hfrom⟩ := hbefore x hx hxa
    exact ⟨j, hj, hfrom.mono hext⟩

/-- The allocator of `s'` is one of `s` that may have drawn an id or dropped one, or is new. -/
def Same (retention : Nat) (s s' : SequenceRun) (a : Nat) (al' : SequenceAllocator) : Prop :=
  (s.allocators.length ≤ a ∧ al'.hasGrant = false ∧ al'.refill = .idle) ∨
  ∃ al, s.allocator a = some al ∧
    { al' with refill := al.refill } = al ∧
    ∀ id, al'.refill.id = some id → al.refill.id = some id ∨ PendingOk retention s' a al' id

/-- Nothing is handed out. -/
structure Quiet (retention : Nat) (s s' : SequenceRun) : Prop where
  ext : Extends s s'
  handed : s'.handed = s.handed
  length : s.allocators.length ≤ s'.allocators.length
  allocators : ∀ a al', s'.allocator a = some al' → Same retention s s' a al'

theorem Ok.quiet (h : Ok retention s) (hquiet : Quiet retention s s')
    (hnumbered : WellNumbered s'.log)
    (hgroup : ClusterOk SequenceAllocatorState.apply retention {} s'.log s'.group)
    (hlogged : ∀ j id c, Carries s'.log j id c → ∃ r ∈ s'.requests, id = some r.id ∧ r.command = c)
    (hdistinct : (s'.requests.map (·.id)).Nodup) : Ok retention s' := by
  have hhanded := hquiet.handed
  refine ⟨hnumbered, hgroup, hlogged, hdistinct, ?_, ?_, ?_, ?_, ?_, ?_⟩
  · intro x hx
    rw [hhanded] at hx
    exact (h.created x hx).trans_le hquiet.length
  · intro a al' hal' x hx hxa
    rw [hhanded] at hx
    rcases hquiet.allocators a al' hal' with ⟨hnew, -⟩ | ⟨al, hal, heq, -⟩
    · have := h.created x hx
      omega
    · rw [h.sequence a al hal x hx hxa, ← heq]
  · intro x hx
    rw [hhanded] at hx
    obtain ⟨j, hfrom⟩ := h.source x hx
    exact ⟨j, hfrom.mono hquiet.ext⟩
  · intro a al' hal' hgrant
    rcases hquiet.allocators a al' hal' with ⟨-, hnone, -⟩ | ⟨al, hal, heq, -⟩
    · rw [hnone] at hgrant
      cases hgrant
    · have hheld := (h.held a al hal (by rw [← heq]; exact hgrant)).mono hquiet.ext hhanded
      rw [← heq] at hheld
      exact ⟨hheld.grant, hheld.above⟩
  · intro a al' id hal' hid
    rcases hquiet.allocators a al' hal' with ⟨-, -, hidle⟩ | ⟨al, hal, heq, hids⟩
    · rw [hidle] at hid
      cases hid
    · rcases hids id hid with hold | hnew
      · exact (h.pending a al id hal hold).mono (by rw [← heq]) hquiet.ext hhanded
      · exact hnew
  · rw [Increasing, hhanded]
    exact h.increasing

theorem Same.of_eq {al' : SequenceAllocator} (h : s.allocator a = some al') :
    Same retention s s' a al' :=
  .inr ⟨al', h, rfl, fun _ hid => .inl hid⟩

theorem allocator_setAllocator {a b : Nat} {al : Option SequenceAllocator}
    {al' : SequenceAllocator} (h : (s.setAllocator a al).allocator b = some al') :
    (b = a ∧ al = some al') ∨ (b ≠ a ∧ s.allocator b = some al') := by
  unfold allocator setAllocator at h
  dsimp only at h
  rw [getElem?_set] at h
  split at h
  · next heq =>
    split at h
    · exact .inl ⟨heq.symm, by simpa using h⟩
    · simp at h
  · next hne => exact .inr ⟨fun heq => hne heq.symm, h⟩

theorem allocator_lt (h : s.allocator a = some al) :
    a < s.allocators.length := by
  by_contra hge
  rw [allocator, getElem?_eq_none (by omega)] at h
  cases h

theorem Ok.setRefill (h : Ok retention s) (hal : s.allocator a = some al) {refill : Refill}
    (hid : ∀ id, refill.id = some id → al.refill.id = some id) :
    Ok retention (s.setAllocator a (some { al with refill })) := by
  refine h.quiet ⟨⟨⟨[], (append_nil _).symm⟩, fun _ hr => hr⟩, rfl, ?_, ?_⟩ h.numbered h.group
    h.logged h.distinct
  · simp [setAllocator]
  · intro b al' hal'
    rcases allocator_setAllocator hal' with ⟨rfl, heq⟩ | ⟨-, heq⟩
    · cases heq
      exact .inr ⟨al, hal, rfl, fun id hid' => .inl (hid id hid')⟩
    · exact .of_eq heq

theorem Ok.request_distinct (h : Ok retention s) {r : Request}
    (hfresh : r.id ∉ s.requests.map (·.id)) : ((s.requests ++ [r]).map (·.id)).Nodup := by
  rw [map_append, map_singleton]
  exact h.distinct.append (nodup_singleton _) (by simpa using hfresh)

theorem Ok.request_logged (h : Ok retention s) (r : Request) {j : Nat} {id : Option GrantId}
    {c : SequenceCommand} (hcarries : Carries s.log j id c) :
    ∃ r' ∈ s.requests ++ [r], id = some r'.id ∧ r'.command = c := by
  obtain ⟨r', hr', hrest⟩ := h.logged j id c hcarries
  exact ⟨r', mem_append_left _ hr', hrest⟩

theorem Ok.propose (h : Ok retention s) {command : SequenceCommand}
    (hfresh : id ∉ s.requests.map (·.id)) :
    Ok retention { s with requests := s.requests ++ [⟨id, none, command⟩] } :=
  h.quiet ⟨⟨⟨[], (append_nil _).symm⟩, fun _ hr => mem_append_left _ hr⟩, rfl,
      le_rfl, fun _ _ hal => .of_eq hal⟩
    h.numbered h.group (fun _ _ _ => h.request_logged _) (h.request_distinct hfresh)

theorem Ok.append (h : Ok retention s) {term : Nat}
    {payload : EntryPayload GrantId SequenceBody Unit}
    (hproposed : s.proposed payload = true) :
    Ok retention { s with log := s.log ++ [⟨⟨term, s.log.length + 1⟩, payload⟩] } := by
  refine h.quiet ⟨⟨⟨_, rfl⟩, fun _ hr => hr⟩, rfl, le_rfl, fun _ _ hal => .of_eq hal⟩ ?_
    (h.group.append _) ?_ h.distinct
  · intro i entry hentry
    rcases Nat.lt_trichotomy i s.log.length with hlt | rfl | hgt
    · rw [getElem?_append_left hlt] at hentry
      exact h.numbered i entry hentry
    · rw [getElem?_append_right le_rfl] at hentry
      simp only [Nat.sub_self, getElem?_cons_zero, Option.some.injEq] at hentry
      rw [← hentry]
    · rw [getElem?_eq_none (by simp; omega)] at hentry
      cases hentry
  · rintro j id c ⟨entry, ts, hentry, hpayload⟩
    rcases Nat.lt_or_ge j s.log.length with hlt | hge
    · rw [getElem?_append_left hlt] at hentry
      exact h.logged j id c ⟨entry, ts, hentry, hpayload⟩
    · -- the new entry: a grant that is not requested is not appended
      rw [getElem?_append_right hge] at hentry
      have hmem := mem_singleton.mp (mem_of_getElem? hentry)
      rw [hmem] at hpayload
      dsimp only at hpayload
      subst hpayload
      simp only [proposed, any_eq_true, decide_eq_true_eq] at hproposed
      exact hproposed

section

variable (h : Ok retention s)
include h

theorem Ok.member {action : Action} {group : Cluster GrantId Unit _}
    (hstep : s.group.step SequenceAllocatorState.apply retention s.log action = some group) :
    Ok retention { s with group } :=
  h.quiet ⟨⟨⟨[], (append_nil _).symm⟩, fun _ hr => hr⟩, rfl, le_rfl,
      fun _ _ hal => .of_eq hal⟩
    h.numbered (h.group.step h.numbered hstep) h.logged h.distinct

theorem Ok.create (sequence : SequenceName) (holder width : Nat) :
    Ok retention { s with allocators := s.allocators ++ [some { sequence, holder, width }] } := by
  refine h.quiet ⟨⟨⟨[], (append_nil _).symm⟩, fun _ hr => hr⟩, rfl, by simp, ?_⟩ h.numbered
    h.group h.logged h.distinct
  intro a al' hal'
  unfold allocator at hal'
  dsimp only at hal'
  rcases Nat.lt_or_ge a s.allocators.length with hlt | hge
  · rw [getElem?_append_left hlt] at hal'
    exact .of_eq hal'
  · have hentry := Option.join_eq_some_iff.mp hal'
    rw [getElem?_append_right hge] at hentry
    cases mem_singleton.mp (mem_of_getElem? hentry)
    exact .inl ⟨hge, rfl, rfl⟩

theorem Ok.crash (a : Nat) : Ok retention (s.setAllocator a none) := by
  refine h.quiet ⟨⟨⟨[], (append_nil _).symm⟩, fun _ hr => hr⟩, rfl, ?_, ?_⟩ h.numbered
    h.group h.logged h.distinct
  · simp [setAllocator]
  · intro b al' hal'
    rcases allocator_setAllocator hal' with ⟨-, heq⟩ | ⟨-, heq⟩
    · cases heq
    · exact .of_eq heq

/-- A call of `next` draws an id for its refill. -/
theorem Ok.draw (hal : s.allocator a = some al) {grantedAt : HlcTimestamp}
    (hfresh : id ∉ s.requests.map (·.id)) :
    Ok retention { s.setAllocator a (some { al with refill := .proposing id }) with
      requests := s.requests ++ [⟨id, some a,
        ⟨al.sequence, al.width, al.holder, grantedAt⟩⟩] } := by
  refine h.quiet ⟨⟨⟨[], (append_nil _).symm⟩, fun _ hr => mem_append_left _ hr⟩, rfl, ?_, ?_⟩
    h.numbered h.group (fun _ _ _ => h.request_logged _) (h.request_distinct hfresh)
  · simp [setAllocator]
  · intro b al' hal'
    rcases @allocator_setAllocator s _ _ _ _ hal' with ⟨rfl, heq⟩ | ⟨-, heq⟩
    · cases heq
      refine .inr ⟨al, hal, rfl, fun id' hid' => .inr ?_⟩
      cases hid'
      refine ⟨⟨_, mem_append_right _ mem_cons_self, rfl, rfl, rfl⟩, s.log.length,
        le_rfl, fun j c hcarries => ?_, fun x hx hxb => ?_⟩
      · -- no entry has the id yet
        obtain ⟨r, hr, hid, -⟩ := h.logged j _ c hcarries
        exact absurd (mem_map.mpr ⟨r, hr, (Option.some.inj hid).symm⟩) hfresh
      · obtain ⟨j, hfrom⟩ := h.source x hx
        have hlt : j < s.log.length := by
          obtain ⟨g, ⟨hmade, -⟩, -⟩ := hfrom
          obtain ⟨_, c, hcarries, -⟩ := hmade.carries
          exact hcarries.lt
        exact ⟨j, hlt, hfrom.mono ⟨⟨[], (append_nil _).symm⟩, fun _ hr => mem_append_left _ hr⟩⟩
    · exact .of_eq heq

/-! ### Values handed out -/

theorem Ok.owner_unique {a b j : Nat}
    (ha : Owns retention s a j g) (hb : Owns retention s b j g) : a = b := by
  obtain ⟨-, r, hr, hid, hra⟩ := ha
  obtain ⟨-, r', hr', hid', hrb⟩ := hb
  obtain rfl : r = r' := inj_on_of_nodup_map h.distinct hr hr' (hid.trans hid'.symm)
  exact Option.some.inj (hra.symm.trans hrb)

end

/-- The next value of an owned grant, above all the allocator has handed out. -/
theorem Ok.hand (h : Ok retention s) {a j : Nat} {al old : SequenceAllocator}
    (hold : s.allocator a = some old) (hsequence : al.sequence = old.sequence)
    (howns : Owns retention s a j g) (hg : g.sequence = al.sequence)
    (hfirst : g.first ≤ al.nextValue) (hlast : al.nextValue ≤ al.grantLast)
    (hgrantLast : g.last = al.grantLast)
    (habove : ∀ x ∈ s.handed, x.allocator = a → x.value < al.nextValue) :
    Ok retention (s.hand a al) := by
  have hext : Extends s (s.hand a al) := ⟨⟨[], (append_nil _).symm⟩, fun _ hr => hr⟩
  have hmax : al.nextValue ≤ maxValue := by
    have := howns.1.range
    omega
  have hmem : ∀ {x}, x ∈ (s.hand a al).handed →
      x ∈ s.handed ∨ x = ⟨a, al.sequence, al.nextValue⟩ := by
    intro x hx
    rcases mem_append.mp hx with hx | hx
    · exact .inl hx
    · exact .inr (mem_singleton.mp hx)
  refine ⟨h.numbered, h.group, h.logged, h.distinct, ?_, ?_, ?_, ?_, ?_, ?_⟩
  · intro x hx
    show x.allocator < (s.allocators.set a _).length
    rw [length_set]
    rcases hmem hx with hx | rfl
    · exact h.created x hx
    · exact allocator_lt hold
  · intro b al' hal' x hx hxb
    rcases @allocator_setAllocator s _ _ _ _ hal' with ⟨rfl, heq⟩ | ⟨hne, heq⟩
    · cases heq
      rcases hmem hx with hx | rfl
      · exact (h.sequence b old hold x hx hxb).trans hsequence.symm
      · rfl
    · rcases hmem hx with hx | rfl
      · exact h.sequence b al' heq x hx hxb
      · exact absurd hxb.symm hne
  · intro x hx
    rcases hmem hx with hx | rfl
    · obtain ⟨i, hfrom⟩ := h.source x hx
      exact ⟨i, hfrom.mono hext⟩
    · exact ⟨j, g, howns.mono hext, hg, hfirst, hgrantLast ▸ hlast⟩
  · intro b al' hal' hgrant
    rcases @allocator_setAllocator s _ _ _ _ hal' with ⟨rfl, heq⟩ | ⟨hne, heq⟩
    · cases heq
      refine ⟨⟨j, g, howns.mono hext, hg, ?_, hgrantLast⟩, fun x hx hxb => ?_⟩
      · show g.first ≤ min (al.nextValue + 1) maxValue
        omega
      · show x.value < min (al.nextValue + 1) maxValue ∨ x.value = maxValue
        rcases hmem hx with hx | rfl
        · have := habove x hx hxb
          omega
        · show al.nextValue < min (al.nextValue + 1) maxValue ∨ al.nextValue = maxValue
          omega
    · have hheld := h.held b al' heq hgrant
      obtain ⟨i, g', howns', hrest⟩ := hheld.grant
      refine ⟨⟨i, g', howns'.mono hext, hrest⟩, fun x hx hxb => ?_⟩
      rcases hmem hx with hx | rfl
      · exact hheld.above x hx hxb
      · exact absurd hxb.symm hne
  · intro b al' id hal' hid
    rcases @allocator_setAllocator s _ _ _ _ hal' with ⟨rfl, heq⟩ | ⟨hne, heq⟩
    · cases heq
      cases hid
    · have hpending := h.pending b al' id heq hid
      obtain ⟨start, hstart, hlater, hbefore⟩ := hpending.later
      refine ⟨hpending.request, start, hstart, hlater, fun x hx hxb => ?_⟩
      rcases hmem hx with hx | rfl
      · obtain ⟨i, hi, hfrom⟩ := hbefore x hx hxb
        exact ⟨i, hi, hfrom.mono hext⟩
      · exact absurd hxb.symm hne
  · refine pairwise_append.mpr ⟨h.increasing, pairwise_singleton _ _, ?_⟩
    intro x hx y hy
    obtain rfl := mem_singleton.mp hy
    refine ⟨fun hseq hvalue => ?_, fun hxa => habove x hx hxa⟩
    -- a common value would stem from one grant, so from this allocator
    obtain ⟨i, g', howns', hg', hrange⟩ := h.source x hx
    have hvalue' : x.value = al.nextValue := hvalue
    have hsame : g'.sequence = g.sequence := hg'.trans (hseq.trans hg.symm)
    obtain ⟨rfl, rfl⟩ := howns'.1.eq_of_mem howns.1 hsame hrange
      ⟨hvalue' ▸ hfirst, by rw [hvalue', hgrantLast]; exact hlast⟩
    have hlt := habove x hx (h.owner_unique howns' howns)
    omega

/-- The grant read back by a refill is above all that its allocator has handed out. -/
theorem Ok.read (h : Ok retention s) {a node : Nat}
    (hal : s.allocator a = some al) (hid : al.refill.id = some id)
    (hg : (s.view node).grants[id]? = some g) :
    Ok retention (s.hand a
      { al with nextValue := g.first, grantLast := g.last, hasGrant := true }) := by
  obtain ⟨k, m, hk, hm, hsink⟩ := h.group.sink node
  have hstored : m.sink.state.grants[id]? = some g := by
    rw [← hsink]
    exact hg
  obtain ⟨hcommand, j, -, hmade⟩ := stored_madeAt hm hstored
  obtain ⟨⟨r, hr, hrid, hra, hrsequence⟩, start, -, hlater, hbefore⟩ := h.pending a al id hal hid
  -- the entry carries the request's own command
  obtain ⟨id', c, hcarries, hcommand', hsequence⟩ := hmade.carries
  obtain ⟨r', hr', hid', hc⟩ := h.logged j id' c hcarries
  have hrr' : r'.id = r.id := by
    rw [hrid, ← hcommand, hcommand', hid']
    rfl
  obtain rfl : r' = r := inj_on_of_nodup_map h.distinct hr' hr hrr'
  have hseq : g.sequence = al.sequence := by rw [hsequence, ← hc, hrsequence]
  have hj : start ≤ j := hlater j c (by rw [← hrid, ← hid']; exact hcarries)
  refine h.hand hal rfl ⟨hmade, r', hr, hrid.trans hcommand.symm, hra⟩ hseq le_rfl
    hmade.range.1 rfl fun x hx hxa => ?_
  obtain ⟨i, hi, g', howns, hg', hrange⟩ := hbefore x hx hxa
  have hsame : g'.sequence = g.sequence := by
    rw [hg', h.sequence a al hal x hx hxa, hseq]
  have hlt := howns.1.lt hmade hsame (hi.trans_le hj)
  show x.value < g.first
  omega

theorem step_ok {l : Label} (h : Ok retention s) (hok : s.NotExhausted l)
    (hstep : s.step retention l = some s') : Ok retention s' := by
  cases l with
  | propose id command =>
    simp only [step] at hstep
    split at hstep
    · cases hstep
    · next hfresh =>
      cases hstep
      exact h.propose hfresh
  | append term payload =>
    simp only [step] at hstep
    split at hstep
    · next hproposed =>
      cases hstep
      exact h.append hproposed
    · cases hstep
  | member action =>
    simp only [step] at hstep
    obtain ⟨group, hgroup, rfl⟩ := Option.map_eq_some_iff.mp hstep
    exact h.member hgroup
  | create sequence holder width =>
    cases hstep
    exact h.create sequence holder width
  | crash a =>
    cases hstep
    exact h.crash a
  | next a id grantedAt =>
    simp only [step] at hstep
    split at hstep
    · cases hstep
    next al hal =>
    split at hstep
    · cases hstep
    split at hstep
    · next hvalue =>
      cases hstep
      obtain ⟨⟨j, g, howns, hg, hfirst, hlast⟩, habove⟩ := h.held a al hal hvalue.1
      refine h.hand hal rfl howns hg hfirst hvalue.2 hlast fun x hx hxa => ?_
      exact (habove x hx hxa).resolve_right (hok x hx hxa)
    split at hstep
    · cases hstep
    next hfresh =>
      cases hstep
      exact h.draw hal hfresh
  | answered a node =>
    simp only [step] at hstep
    split at hstep
    · cases hstep
    next al hal =>
    split at hstep
    · next id hrefill =>
      split at hstep
      · split at hstep
        · cases hstep
          exact h.setRefill hal fun _ hid => by cases hid
        · cases hstep
          refine h.setRefill hal fun id' hid => ?_
          rw [hrefill]
          exact hid
      · cases hstep
    · cases hstep
  | read a =>
    simp only [step] at hstep
    split at hstep
    · cases hstep
    next al hal =>
    split at hstep
    · next id node hrefill =>
      split at hstep
      · cases hstep
        exact h.setRefill hal fun _ hid => by cases hid
      · next g hg =>
        cases hstep
        exact h.read hal (by rw [hrefill]; rfl) hg
    · cases hstep
  | giveUp a =>
    simp only [step] at hstep
    obtain ⟨al, hal, rfl⟩ := Option.map_eq_some_iff.mp hstep
    exact h.setRefill hal fun _ hid => by cases hid

/-- No value of a sequence is handed out twice, and each allocator's values increase, in every
run in which an allocator that has handed out `u64::MAX` is not asked again. -/
theorem values_increase (retention : Nat) (s : SequenceRun)
    (hreach : Reachable (step retention) NotExhausted init s) :
    s.handed.Pairwise fun x y =>
      (x.sequence = y.sequence → x.value ≠ y.value) ∧
      (x.allocator = y.allocator → x.value < y.value) := by
  have hok : Ok retention s :=
    hreach.invariant init_ok fun _ _ _ h hcond hstep => step_ok h hcond hstep
  exact hok.increasing

instance (s : SequenceRun) : (l : Label) → Decidable (s.NotExhausted l)
  | .next a _ _ => inferInstanceAs (Decidable (∀ x ∈ s.handed, x.allocator = a → _))
  | .propose _ _ => isTrue trivial
  | .append _ _ => isTrue trivial
  | .member _ => isTrue trivial
  | .create _ _ _ => isTrue trivial
  | .crash _ => isTrue trivial
  | .answered _ _ => isTrue trivial
  | .read _ => isTrue trivial
  | .giveUp _ => isTrue trivial

/-- Two allocators of one sequence draw two values each; the second reads its grant from a
member that was restarted on the way. -/
theorem two_allocators_increase :
    ∃ s, Reachable (step 4) NotExhausted init s ∧
      s.handed.map (·.value) = [1, 3, 2, 4] ∧
      s.handed.Pairwise fun x y =>
        (x.sequence = y.sequence → x.value ≠ y.value) ∧
        (x.allocator = y.allocator → x.value < y.value) := by
  obtain ⟨s, hreach, hvalues⟩ := exists_reachable_of_execute (step 4) NotExhausted init
    (fun s => s.handed.map (·.value) = [1, 3, 2, 4])
    [.create 1 7 2, .create 1 8 2, .next 0 70 ⟨1, 0, 0⟩,
      .append 1 (.normal ⟨some 70, none, .grant ⟨1, 2, 7, ⟨1, 0, 0⟩⟩⟩), .member (.apply 0 0),
      .answered 0 0, .read 0, .next 1 80 ⟨2, 0, 0⟩,
      .append 1 (.normal ⟨some 80, none, .grant ⟨1, 2, 8, ⟨2, 0, 0⟩⟩⟩), .member (.apply 1 0),
      .member (.apply 1 1), .member (.restart 1), .member (.apply 1 0), .member (.apply 1 1),
      .answered 1 1, .read 1, .next 0 90 ⟨3, 0, 0⟩, .next 1 91 ⟨3, 0, 0⟩] (by decide +kernel)
  exact ⟨s, hreach, hvalues, values_increase 4 s hreach⟩

/-! ## The end of the value space

A grant has at most a million values, so a sequence that is used up has seen
some 10¹³ grants. The run that uses it up is built grant by grant. -/

/-- Member 0 has applied `n` grants, all of sequence 1, up to the value `total`. -/
structure At (s : SequenceRun) (n total : Nat) : Prop where
  length : s.log.length = n
  index : (s.group.nodes 0).machine.record.position.index = n
  known : ∀ id, (s.group.nodes 0).machine.record.isDuplicate (some id) = true → id < n
  sink : (s.group.nodes 0).machine.sink.position.index = n
  mark : (s.view 0).highWater 1 = total
  accepted : (s.view 0).rejections = []

theorem init_at : At init 0 0 where
  length := rfl
  index := rfl
  known := fun id h => by simp [init, Cluster.fresh, Node.fresh, freshMachine,
    AppliedRecord.isDuplicate] at h
  sink := rfl
  mark := rfl
  accepted := rfl

theorem isDuplicate_dispatched {r : AppliedRecord GrantId}
    {command : ReplicatedCommand GrantId SequenceBody} {at? : Option LogId}
    (h : AppliedRecord.isDuplicate
      { r.dispatched retention command with lastApplied := at? } (some id) = true) :
    command.commandId = some id ∨ r.isDuplicate (some id) = true := by
  obtain ⟨commandId, commitTs, body⟩ := command
  cases commandId with
  | none => cases commitTs <;> exact .inr h
  | some id' =>
    have hrecord :
        AppliedRecord.isDuplicate (r.recordCommandId retention id') (some id) = true := by
      cases commitTs <;> exact h
    simp only [AppliedRecord.isDuplicate, AppliedRecord.recordCommandId, Option.any_some,
      decide_eq_true_eq] at hrecord ⊢
    split at hrecord
    · rcases hrecord with hlast | hmem
      · exact .inl hlast
      · exact .inr (.inr hmem)
    · rcases hrecord with hlast | hmem
      · exact .inl hlast
      · rcases mem_append.mp (mem_of_mem_drop hmem) with hmem | hmem
        · exact .inr (.inr hmem)
        · exact .inl (congrArg some (mem_singleton.mp hmem).symm)

/-- The machine after it has passed an accepted grant to its sink. -/
def granted (retention : Nat) (m : SequenceMachine) (logId : LogId) (id : GrantId)
    (c : SequenceCommand) : SequenceMachine :=
  let command : ReplicatedCommand GrantId SequenceBody := ⟨some id, none, .grant c⟩
  { m with
    sink := ⟨logId, m.sink.state.applyGrant ⟨logId, command⟩ c⟩
    record := { m.record.dispatched retention command with lastApplied := some logId } }

theorem applyOne_granted {m : SequenceMachine} {logId : LogId} {c : SequenceCommand}
    (hrecord : m.record.position.index < logId.index)
    (hsink : m.sink.position.index < logId.index)
    (hnew : m.record.isDuplicate (some id) = false) :
    applyOne (skipping SequenceAllocatorState.apply) retention m
        (⟨logId, .normal ⟨some id, none, .grant c⟩⟩ : RaftLogEntry GrantId SequenceBody Unit) =
      .ok (granted retention m logId id c, { position := logId, commandId := some id }) := by
  have hcovers : ¬ m.record.covers
      (⟨logId, .normal ⟨some id, none, .grant c⟩⟩ : RaftLogEntry GrantId SequenceBody Unit) :=
    AppliedRecord.not_covers hrecord
  simp only [applyOne, if_neg hcovers, hnew, Bool.false_eq_true, if_false, skipping]
  rw [if_neg (Nat.not_le_of_lt hsink)]
  rfl

variable {n total : Nat}

/-- A requested grant lands in the log and member 0 applies it. -/
theorem At.land (h : At s n total)
    (hreach : Reachable (step retention) anyStep init s) {r : Request} (hr : r ∈ s.requests)
    (hid : r.id = n) (hsequence : r.command.sequence = 1)
    (hwidth : 1 ≤ r.command.width ∧ r.command.width ≤ maxSequenceGrantWidth)
    (hroom : total + r.command.width ≤ maxValue) :
    ∃ s', Reachable (step retention) anyStep init s' ∧ At s' (n + 1) (total + r.command.width) ∧
      s'.requests = s.requests ∧ s'.allocators = s.allocators ∧ s'.handed = s.handed ∧
      s'.applied 0 n = true ∧
      ∃ g, (s'.view 0).grants[n]? = some g ∧ g.first = total + 1 ∧
        g.last = total + r.command.width := by
  have hmark := h.mark
  have hlength := h.length
  rw [← hsequence] at hmark
  let logId : LogId := ⟨1, s.log.length + 1⟩
  let payload : EntryPayload GrantId SequenceBody Unit := .normal ⟨some n, none, .grant r.command⟩
  have hnew : logId.index = n + 1 := congrArg (· + 1) hlength
  have hproposed : s.proposed payload = true := by
    simp only [proposed, payload, any_eq_true, decide_eq_true_eq]
    exact ⟨r, hr, congrArg some hid.symm, rfl⟩
  have happend : step retention s (.append 1 payload) =
      some { s with log := s.log ++ [⟨logId, payload⟩] } := by
    simp only [step, hproposed, if_true]
    rfl
  have hlog : (s.log ++ [⟨logId, payload⟩])[n]? = some ⟨logId, payload⟩ := by
    rw [getElem?_append_right hlength.le, hlength]
    simp
  have hfresh : (s.group.nodes 0).machine.record.isDuplicate (some n) = false := by
    by_contra hdup
    exact absurd (h.known n (by simpa using hdup)) (Nat.lt_irrefl n)
  have hmember : step retention { s with log := s.log ++ [⟨logId, payload⟩] }
      (.member (.apply 0 n)) =
      some { s with
        log := s.log ++ [⟨logId, payload⟩]
        group := s.group.setNode 0 { (s.group.nodes 0) with
          machine := granted retention (s.group.nodes 0).machine logId n r.command } } := by
    have hindex : ¬ (s.group.nodes 0).machine.record.position.index < n := by
      rw [h.index]
      exact Nat.lt_irrefl n
    simp only [step, Cluster.step, if_neg hindex, hlog]
    rw [applyOne_granted (by rw [h.index, hnew]; exact Nat.lt_succ_self n)
      (by rw [h.sink, hnew]; exact Nat.lt_succ_self n) hfresh]
    rfl
  obtain ⟨hmakes, haccepted⟩ := SequenceAllocatorState.applyGrant_accepted
    ⟨logId, ⟨some n, none, .grant r.command⟩⟩ hwidth (hmark.symm ▸ hroom)
  refine ⟨_, .tail (.tail hreach trivial happend) trivial hmember, ⟨?_, ?_, ?_, ?_, ?_, ?_⟩, rfl,
    rfl, rfl, ?_, (s.view 0).nextGrant n r.command, ?_, ?_, ?_⟩
  · show (s.log ++ [_]).length = n + 1
    rw [length_append, hlength]
    rfl
  · exact hnew
  · intro id hknown
    rcases isDuplicate_dispatched hknown with heq | hknown
    · cases heq
      exact Nat.lt_succ_self _
    · exact Nat.lt_succ_of_lt (h.known id hknown)
  · exact hnew
  · rw [← hsequence]
    exact hmakes.mark.trans (congrArg (· + r.command.width) hmark)
  · exact haccepted.trans h.accepted
  · show ((s.log ++ [_]).take logId.index).any _ = true
    rw [take_of_length_le (by rw [hnew, length_append, hlength]; rfl), any_append]
    simp [payload, payloadId]
  · show (SequenceAllocatorState.applyGrant _ (s.view 0) r.command).grants[n]? = _
    rw [hmakes.grants]
    exact Std.TreeMap.getElem?_insert_self
  · exact congrArg (· + 1) hmark
  · exact congrArg (· + r.command.width) hmark

/-- A run in which no allocator has been created and `n` grants reach up to `total`. -/
structure Filled (retention : Nat) (s : SequenceRun) (n total : Nat) : Prop where
  reach : Reachable (step retention) anyStep init s
  member : At s n total
  ids : ∀ r ∈ s.requests, r.id < n
  allocators : s.allocators = []
  handed : s.handed = []

theorem Filled.fresh (h : Filled retention s n total) :
    n ∉ s.requests.map (·.id) := by
  intro hmem
  obtain ⟨r, hr, hid⟩ := mem_map.mp hmem
  exact Nat.lt_irrefl n (hid ▸ h.ids r hr)

theorem Filled.grant (h : Filled retention s n total) (width : Nat)
    (hwidth : 1 ≤ width ∧ width ≤ maxSequenceGrantWidth) (hroom : total + width ≤ maxValue) :
    ∃ s', Filled retention s' (n + 1) (total + width) := by
  have hpropose : step retention s (.propose n ⟨1, width, 0, .zero⟩) =
      some { s with requests := s.requests ++ [⟨n, none, ⟨1, width, 0, .zero⟩⟩] } := by
    simp only [step, if_neg h.fresh]
  obtain ⟨s', hreach, hat, hrequests, hallocators, hhanded, -⟩ :=
    @At.land retention
      { s with requests := s.requests ++ [⟨n, none, ⟨1, width, 0, .zero⟩⟩] } n total
      ⟨h.member.length, h.member.index, h.member.known, h.member.sink, h.member.mark,
        h.member.accepted⟩
      (.tail h.reach trivial hpropose) _ (mem_append_right _ mem_cons_self) rfl rfl
      hwidth hroom
  refine ⟨s', hreach, hat, fun r hr => ?_, hallocators.trans h.allocators,
    hhanded.trans h.handed⟩
  rw [hrequests] at hr
  rcases mem_append.mp hr with hr | hr
  · exact Nat.lt_succ_of_lt (h.ids r hr)
  · rw [mem_singleton.mp hr]
    exact Nat.lt_succ_self n

theorem exists_filled (k : Nat) (hk : k * maxSequenceGrantWidth ≤ maxValue) :
    ∃ s, Filled retention s k (k * maxSequenceGrantWidth) := by
  induction k with
  | zero => exact ⟨init, .refl, init_at, fun r hr => (by cases hr), rfl, rfl⟩
  | succ k ih =>
    rw [Nat.succ_mul] at hk ⊢
    obtain ⟨s, hs⟩ := ih (by omega)
    exact hs.grant _ (by decide) hk

theorem exists_filled_but_one : ∃ s n, Filled retention s n (maxValue - 1) := by
  obtain ⟨s, hs⟩ := @exists_filled retention 18446744073709 (by decide)
  obtain ⟨s', hs'⟩ := hs.grant 551614 (by decide) (by decide)
  exact ⟨s', _, hs'⟩

/-- An allocator draws the last value there is, and is asked again. -/
theorem last_value_twice :
    ∃ s, Reachable (step 4096) anyStep init s ∧
      s.handed = [⟨0, 1, maxValue⟩, ⟨0, 1, maxValue⟩] ∧
      ¬ s.handed.Pairwise fun x y =>
        (x.sequence = y.sequence → x.value ≠ y.value) ∧
        (x.allocator = y.allocator → x.value < y.value) := by
  obtain ⟨s, n, hs⟩ := @exists_filled_but_one 4096
  let al : SequenceAllocator := { sequence := 1, holder := 0, width := 1 }
  let request : Request := ⟨n, some 0, ⟨1, 1, 0, .zero⟩⟩
  -- the allocator is created and asked for a value
  have hcreate : step 4096 s (.create 1 0 1) = some { s with allocators := [some al] } := by
    simp only [step, hs.allocators]
    rfl
  have hdraw : step 4096 { s with allocators := [some al] } (.next 0 n .zero) =
      some { s with
        allocators := [some { al with refill := .proposing n }]
        requests := s.requests ++ [request] } := by
    have hfresh := hs.fresh
    simp only [step, allocator, getElem?_cons_zero, Option.join_some, al, ne_eq,
      not_true_eq_false, if_false, Bool.false_eq_true, false_and, if_neg hfresh]
    rfl
  -- the grant of the last value lands
  have hwidth : 1 ≤ 1 ∧ 1 ≤ maxSequenceGrantWidth := by decide
  have hroom : maxValue - 1 + 1 ≤ maxValue := by decide
  obtain ⟨t, hreach, hat, -, hallocators, hhanded, happlied, g, hg, hfirst, hlast⟩ :=
    @At.land 4096 { s with
        allocators := [some { al with refill := .proposing n }]
        requests := s.requests ++ [request] } n (maxValue - 1)
      ⟨hs.member.length, hs.member.index, hs.member.known, hs.member.sink, hs.member.mark,
        hs.member.accepted⟩
      (.tail (.tail hs.reach trivial hcreate) trivial hdraw) request
      (mem_append_right _ mem_cons_self) rfl rfl hwidth hroom
  have hanswered : step 4096 t (.answered 0 0) =
      some { t with allocators := [some { al with refill := .reading n 0 }] } := by
    simp only [step, allocator, hallocators, getElem?_cons_zero, Option.join_some, happlied,
      if_true, hat.accepted, setAllocator]
    rfl
  let used : SequenceAllocator :=
    { al with nextValue := maxValue, grantLast := maxValue, hasGrant := true }
  have hread : step 4096 { t with allocators := [some { al with refill := .reading n 0 }] }
      (.read 0) = some { t with allocators := [some used], handed := [⟨0, 1, maxValue⟩] } := by
    have hmax : maxValue - 1 + 1 = maxValue := by decide
    have hview : (({ t with allocators := [some { al with refill := .reading n 0 }] } :
        SequenceRun).view 0).grants[n]? = some g := hg
    have hempty : t.handed = [] := hhanded.trans hs.handed
    simp only [step, allocator, getElem?_cons_zero, Option.join_some, hview]
    simp only [hand, setAllocator, hempty, hfirst, hlast, request, hmax]
    rfl
  have hagain : step 4096 { t with allocators := [some used], handed := [⟨0, 1, maxValue⟩] }
      (.next 0 0 .zero) =
      some { t with
        allocators := [some used], handed := [⟨0, 1, maxValue⟩, ⟨0, 1, maxValue⟩] } := by
    rfl
  refine ⟨_, .tail (.tail (.tail hreach trivial hanswered) trivial hread) trivial hagain, rfl, ?_⟩
  intro hpairwise
  have hvalues := (pairwise_pair.mp hpairwise).1 rfl
  exact hvalues rfl

end SequenceRun

end MongrelDB.Constraints
