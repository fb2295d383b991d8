import MongrelDB.DistSsi.Serializability

/-!
# Which transactions the certifier refuses

The module text of the source speaks of conflicts with concurrent transactions.
-/

namespace MongrelDB.DistSsi

open Lib List

/-- The two accesses are of one kind and to one key. -/
def Access.Same (a b : Access) : Prop := a.kind = b.kind ∧ a.tablet = b.tablet ∧ a.key = b.key

namespace System

/-- The certified transactions that have accessed anything, in the order of certification. A
transaction without accesses is certified without a place in the window. -/
def active (s : System) : List TransactionId :=
  s.certified.filter fun t => s.accesses.any (·.txn == t)

/-- The last `window` of them. -/
def recent (s : System) (window : Nat) : List TransactionId :=
  s.active.drop (s.active.length - window)

/-- `track` is given what the transaction has done, no more, and it has done something. -/
def TracksDone (s : System) : Action → Prop
  | .track txn access => (∃ b ∈ s.accesses, b.txn = txn) ∧
      (∀ e ∈ access.reads.toList, ∀ k ∈ e.2.keys, ∃ b ∈ s.accesses,
        b.txn = txn ∧ b.kind = .read ∧ b.tablet = e.1 ∧ b.key = k) ∧
      ∀ e ∈ access.writes.toList, ∀ k ∈ e.2.keys, ∃ b ∈ s.accesses,
        b.txn = txn ∧ b.kind = .write ∧ b.tablet = e.1 ∧ b.key = k
  | _ => True

instance (s : System) (a : Action) : Decidable (s.TracksDone a) :=
  match a with
  | .track txn access => inferInstanceAs (Decidable ((∃ b ∈ s.accesses, b.txn = txn) ∧
      (∀ e ∈ access.reads.toList, ∀ k ∈ e.2.keys, ∃ b ∈ s.accesses,
        b.txn = txn ∧ b.kind = .read ∧ b.tablet = e.1 ∧ b.key = k) ∧
      ∀ e ∈ access.writes.toList, ∀ k ∈ e.2.keys, ∃ b ∈ s.accesses,
        b.txn = txn ∧ b.kind = .write ∧ b.tablet = e.1 ∧ b.key = k))
  | .read _ _ _ | .write _ _ _ | .certify _ | .commit _ | .abort _ => isTrue trivial

end System

/-! ## What the certifier has recorded -/

/-- The set holds the accesses of the transaction, no more and no less. -/
def Recorded (accesses : List Access) (txn : TransactionId) (set : DistAccessSet) : Prop :=
  ∀ a, set.Covers a ↔ ∃ b ∈ accesses, b.txn = txn ∧ b.Same a

/-- The two histories have the same accesses of the transaction. -/
def SameOf (txn : TransactionId) (accesses accesses' : List Access) : Prop :=
  ∀ b : Access, b.txn = txn → (b ∈ accesses' ↔ b ∈ accesses)

section

variable {accesses accesses' : List Access} {txn : TransactionId} {set : DistAccessSet}

theorem Recorded.congr (h : Recorded accesses txn set) (hsame : SameOf txn accesses accesses') :
    Recorded accesses' txn set := by
  intro a
  refine (h a).trans (exists_congr fun b => ?_)
  rw [and_left_comm, and_left_comm (a := b ∈ accesses')]
  exact and_congr_right fun hb => by rw [hsame b hb]

theorem SameOf.any_eq (h : SameOf txn accesses accesses') :
    accesses'.any (·.txn == txn) = accesses.any (·.txn == txn) := by
  rw [Bool.eq_iff_iff, any_eq_true, any_eq_true]
  simp only [beq_iff_eq]
  refine exists_congr fun b => ?_
  rw [and_comm, and_comm (a := b ∈ accesses)]
  exact and_congr_right fun hb => h b hb

theorem sameOf_append {b : Access} (hne : b.txn ≠ txn) : SameOf txn accesses (accesses ++ [b]) := by
  intro c hc
  refine mem_append.trans (or_iff_left fun h => hne ?_)
  rw [← mem_singleton.mp h, hc]

theorem sameOf_forget {s : System} {t : TransactionId} (hne : t ≠ txn) :
    SameOf t s.accesses (s.forget txn) := by
  intro b hb
  simp [System.forget, hb, hne]

theorem recorded_empty (h : ∀ b ∈ accesses, b.txn ≠ txn) : Recorded accesses txn {} := by
  intro a
  refine iff_of_false ?_ fun ⟨b, hb, hbt, _⟩ => h b hb hbt
  unfold DistAccessSet.Covers
  split <;> rintro ⟨_, hget, _⟩ <;> simp at hget

/-- One more access, observed by the certifier. -/
theorem Recorded.observe {s : System} {kind : AccessKind} {tablet : TabletId} {key : KeyBytes}
    {set' : DistAccessSet} (h : Recorded s.accesses txn set)
    (hset : ∀ a, set'.Covers a ↔ set.Covers a ∨ (s.access txn kind tablet key).Same a) :
    Recorded (s.accesses ++ [s.access txn kind tablet key]) txn set' := by
  intro a
  rw [hset, h a]
  constructor
  · rintro (⟨b, hb, hbt, hsame⟩ | hsame)
    · exact ⟨b, mem_append_left _ hb, hbt, hsame⟩
    · exact ⟨_, mem_append_right _ (mem_singleton_self _), rfl, hsame⟩
  · rintro ⟨b, hb, hbt, hsame⟩
    rcases mem_append.mp hb with hb | hb
    · exact .inl ⟨b, hb, hbt, hsame⟩
    · obtain rfl := mem_singleton.mp hb
      exact .inr hsame

end

theorem DistAccessSet.covers_read_iff (set : DistAccessSet) (s : System) (txn : TransactionId)
    (tablet : TabletId) (key : KeyBytes) (a : Access) :
    (set.read tablet key).Covers a ↔
      set.Covers a ∨ (s.access txn .read tablet key).Same a := by
  unfold Covers DistAccessSet.read
  cases hkind : a.kind with
  | read =>
    refine KeySets.has_record.trans (or_congr_right ?_)
    simp [Access.Same, System.access, hkind, eq_comm]
  | write => simp [Access.Same, System.access, hkind]

theorem DistAccessSet.covers_write_iff (set : DistAccessSet) (s : System) (txn : TransactionId)
    (tablet : TabletId) (key : KeyBytes) (a : Access) :
    (set.write tablet key).Covers a ↔
      set.Covers a ∨ (s.access txn .write tablet key).Same a := by
  unfold Covers DistAccessSet.write
  cases hkind : a.kind with
  | write =>
    refine KeySets.has_record.trans (or_congr_right ?_)
    simp [Access.Same, System.access, hkind, eq_comm]
  | read => simp [Access.Same, System.access, hkind]

/-- Recorded sets conflict when one of the accesses overwrites the other. -/
theorem Recorded.conflicts_iff {accesses : List Access} {txn other : TransactionId}
    {mine theirs : DistAccessSet} (hmine : Recorded accesses txn mine)
    (htheirs : Recorded accesses other theirs) :
    DistSsiCertifier.conflicts mine theirs = true ↔
      ∃ w ∈ accesses, w.txn = other ∧ ∃ a ∈ accesses, a.txn = txn ∧ w.Overwrites a := by
  constructor
  · intro h
    obtain ⟨tablet, key, hw, ha⟩ := DistSsiCertifier.conflicts_iff.mp h
    obtain ⟨w, hwm, hwt, hwk, hwtab, hwkey⟩ := (htheirs ⟨other, .write, tablet, key, 0⟩).mp hw
    rcases ha with ha | ha
    · obtain ⟨a, ham, hat, -, hatab, hakey⟩ := (hmine ⟨txn, .write, tablet, key, 0⟩).mp ha
      exact ⟨w, hwm, hwt, a, ham, hat, hwk, hwtab.trans hatab.symm, hwkey.trans hakey.symm⟩
    · obtain ⟨a, ham, hat, -, hatab, hakey⟩ := (hmine ⟨txn, .read, tablet, key, 0⟩).mp ha
      exact ⟨w, hwm, hwt, a, ham, hat, hwk, hwtab.trans hatab.symm, hwkey.trans hakey.symm⟩
  · rintro ⟨w, hwm, hwt, a, ham, hat, ho⟩
    by_contra hclear
    exact DistAccessSet.not_overwrites hclear ((htheirs w).mpr ⟨w, hwm, hwt, rfl, rfl, rfl⟩)
      ((hmine a).mpr ⟨a, ham, hat, rfl, rfl, rfl⟩) ho

/-! ## The window over a run -/

/-- What the certifier holds, in terms of the history. -/
structure System.Windowed (window : Nat) (s : System) : Prop where
  size : s.certifier.window = window
  running : ∀ t set, s.certifier.inflight[t]? = some set →
    ¬ t ∈ s.certified ∧ (∃ b ∈ s.accesses, b.txn = t) ∧ Recorded s.accesses t set
  idle : ∀ t, ¬ t ∈ s.certified → s.certifier.inflight[t]? = none → ∀ b ∈ s.accesses, b.txn ≠ t
  members : s.certifier.committed.map Prod.fst = s.recent window
  recorded : ∀ e ∈ s.certifier.committed, Recorded s.accesses e.1 e.2

namespace System.Windowed

variable {s : System} {txn : TransactionId} {window : Nat}

theorem init (window : Nat) : (System.init window).Windowed (max window 1) := by
  constructor <;> simp [System.init, DistSsiCertifier.new, recent, active]

/-- A member of the window has been certified. -/
theorem certified_of_mem (h : s.Windowed window) {e : TransactionId × DistAccessSet}
    (he : e ∈ s.certifier.committed) : e.1 ∈ s.certified := by
  have hmem : e.1 ∈ s.recent window := h.members ▸ mem_map_of_mem he
  exact (mem_filter.mp (mem_of_mem_drop hmem)).1

/-- A step of a running transaction that touches its own records only. -/
theorem own (h : s.Windowed window) (htxn : ¬ txn ∈ s.certified)
    {inflight : Std.TreeMap TransactionId DistAccessSet} {accesses : List Access}
    (hsame : ∀ t, t ≠ txn → SameOf t s.accesses accesses)
    (hothers : ∀ t, t ≠ txn → inflight[t]? = s.certifier.inflight[t]?)
    (hsome : ∀ set, inflight[txn]? = some set →
      (∃ b ∈ accesses, b.txn = txn) ∧ Recorded accesses txn set)
    (hnone : inflight[txn]? = none → ∀ b ∈ accesses, b.txn ≠ txn) :
    ({ s with
      certifier := { s.certifier with inflight := inflight }
      accesses := accesses } : System).Windowed window := by
  have hne : ∀ {t}, t ∈ s.certified → t ≠ txn := fun ht heq => htxn (heq ▸ ht)
  refine ⟨h.size, fun t set hget => ?_, fun t ht hget => ?_, ?_, fun e he => ?_⟩
  · by_cases heq : t = txn
    · subst heq
      exact ⟨htxn, hsome set hget⟩
    · obtain ⟨ht, ⟨b, hb, hbt⟩, hrec⟩ := h.running t set (by rwa [← hothers t heq])
      exact ⟨ht, ⟨b, (hsame t heq b hbt).mpr hb, hbt⟩, hrec.congr (hsame t heq)⟩
  · by_cases heq : t = txn
    · subst heq
      exact hnone hget
    · intro b hb hbt
      exact h.idle t ht (by rwa [← hothers t heq]) b ((hsame t heq b hbt).mp hb) hbt
  · have hactive : ∀ t ∈ s.certified,
        accesses.any (·.txn == t) = s.accesses.any (·.txn == t) :=
      fun t ht => (hsame t (hne ht)).any_eq
    refine h.members.trans ?_
    unfold recent active
    dsimp only
    rw [filter_congr hactive]
  · exact (h.recorded e he).congr (hsame _ (hne (h.certified_of_mem he)))

/-- One more access: the certifier records it with those before it. -/
theorem observe (h : s.Windowed window) (htxn : ¬ txn ∈ s.certified) {kind : AccessKind}
    {tablet : TabletId} {key : KeyBytes} {set : DistAccessSet}
    (hset : ∀ a, set.Covers a ↔ (s.certifier.inflight[txn]?.getD {}).Covers a ∨
      (s.access txn kind tablet key).Same a) :
    ({ s with
      certifier := { s.certifier with inflight := s.certifier.inflight.insert txn set }
      accesses := s.accesses ++ [s.access txn kind tablet key] } : System).Windowed window := by
  have hbefore : Recorded s.accesses txn (s.certifier.inflight[txn]?.getD {}) := by
    cases hget : s.certifier.inflight[txn]? with
    | none => exact recorded_empty (h.idle txn htxn hget)
    | some old => exact (h.running txn old hget).2.2
  refine h.own htxn (fun t ht => sameOf_append ht.symm) (fun t ht => ?_) (fun set' hget => ?_)
    fun hget => ?_
  · rw [Std.TreeMap.getElem?_insert, if_neg (by simpa using ht.symm)]
  · obtain rfl : set = set' := by simpa using hget
    exact ⟨⟨_, mem_append_right _ (mem_singleton_self _), rfl⟩, hbefore.observe hset⟩
  · simp at hget

/-- The transaction is forgotten, in the history and by the certifier. -/
theorem forget (h : s.Windowed window) (htxn : ¬ txn ∈ s.certified) :
    ({ s with
      certifier := { s.certifier with inflight := s.certifier.inflight.erase txn }
      accesses := s.forget txn } : System).Windowed window := by
  refine h.own htxn (fun t ht => sameOf_forget ht) (fun t ht => ?_) (fun set hget => ?_)
    fun _ b hb hbt => ?_
  · rw [Std.TreeMap.getElem?_erase, if_neg (by simpa using ht.symm)]
  · simp at hget
  · simp [System.forget, hbt] at hb

theorem track (h : s.Windowed window) (htxn : ¬ txn ∈ s.certified) {access : DistAccessSet}
    (hall : ∀ a ∈ s.accesses, a.txn = txn → access.Covers a)
    (hdone : s.TracksDone (.track txn access)) :
    ({ s with certifier := s.certifier.track txn access } : System).Windowed window := by
  obtain ⟨hsome, hreads, hwrites⟩ := hdone
  have hrec : Recorded s.accesses txn access := by
    intro a
    constructor
    · intro hcov
      unfold DistAccessSet.Covers at hcov
      split at hcov
      next hkind =>
        obtain ⟨set, hget, hkey⟩ := hcov
        obtain ⟨b, hb, hbt, hbk, hbtab, hbkey⟩ := hreads (a.tablet, set)
          (Std.TreeMap.mem_toList_iff_getElem?_eq_some.mpr hget) a.key hkey
        exact ⟨b, hb, hbt, hbk.trans hkind.symm, hbtab, hbkey⟩
      next hkind =>
        obtain ⟨set, hget, hkey⟩ := hcov
        obtain ⟨b, hb, hbt, hbk, hbtab, hbkey⟩ := hwrites (a.tablet, set)
          (Std.TreeMap.mem_toList_iff_getElem?_eq_some.mpr hget) a.key hkey
        exact ⟨b, hb, hbt, hbk.trans hkind.symm, hbtab, hbkey⟩
    · rintro ⟨b, hb, hbt, hkind, htab, hkey⟩
      have hcov := hall b hb hbt
      unfold DistAccessSet.Covers at hcov ⊢
      rwa [hkind, htab, hkey] at hcov
  refine h.own htxn (fun t _ b _ => Iff.rfl) (fun t ht => ?_) (fun set hget => ?_) fun hget => ?_
  · rw [Std.TreeMap.getElem?_insert, if_neg (by simpa using ht.symm)]
  · obtain rfl : access = set := by simpa using hget
    exact ⟨hsome, hrec⟩
  · simp at hget

/-- Dropping all but the last `n` of a list, then once more after an element has come. -/
theorem drop_append_singleton {α : Type} (l : List α) (x : α) {n : Nat} (hn : 1 ≤ n) :
    (l.drop (l.length - n) ++ [x]).drop ((l.drop (l.length - n)).length + 1 - n) =
      (l ++ [x]).drop (l.length + 1 - n) := by
  rw [length_drop]
  by_cases h : l.length < n
  · rw [show l.length - n = 0 by omega, drop_zero]
    congr 1
  · rw [← drop_append_of_le_length (by omega), drop_drop]
    congr 1
    omega

/-- The transaction takes the last place of the window, if it has done anything. -/
theorem certify (h : s.Windowed window) (hpos : 1 ≤ window) (htxn : ¬ txn ∈ s.certified)
    {certifier : DistSsiCertifier} (hcertify : s.certifier.certify txn = (certifier, .ok)) :
    ({ s with certifier := certifier, certified := s.certified ++ [txn] } : System).Windowed
      window := by
  rcases s.certifier.certify_cases txn with
    ⟨hnone, heq⟩ | ⟨mine, hmine, heq | ⟨-, heq⟩⟩ <;> rw [heq] at hcertify <;> cases hcertify
  · -- it has done nothing
    have hidle := h.idle txn htxn hnone
    have hany : (s.accesses.any fun b => b.txn == txn) = false := by simpa using hidle
    refine ⟨h.size, fun t set hget => ?_, fun t ht => ?_, ?_, h.recorded⟩
    · obtain ⟨ht, hrest⟩ := h.running t set hget
      refine ⟨fun hmem => ?_, hrest⟩
      rcases mem_append.mp hmem with hmem | hmem
      · exact ht hmem
      · rw [mem_singleton.mp hmem, hnone] at hget
        cases hget
    · exact h.idle t fun hmem => ht (mem_append_left _ hmem)
    · refine h.members.trans ?_
      unfold recent active
      dsimp only
      rw [filter_append, filter_cons_of_neg (by simp [hany]), filter_nil, append_nil]
  · obtain ⟨-, ⟨b, hb, hbt⟩, hrec⟩ := h.running txn mine hmine
    have hany : (s.accesses.any fun b => b.txn == txn) = true :=
      any_eq_true.mpr ⟨b, hb, by simp [hbt]⟩
    refine ⟨h.size, fun t set hget => ?_, fun t ht hget => ?_, ?_, fun e he => ?_⟩
    · dsimp only at hget
      rw [Std.TreeMap.getElem?_erase] at hget
      split at hget
      · cases hget
      next hne =>
        obtain ⟨ht, hrest⟩ := h.running t set hget
        refine ⟨fun hmem => ?_, hrest⟩
        rcases mem_append.mp hmem with hmem | hmem
        · exact ht hmem
        · exact hne (by simp [mem_singleton.mp hmem])
    · dsimp only at hget ht
      rw [mem_append, mem_singleton, not_or] at ht
      rw [Std.TreeMap.getElem?_erase, if_neg (by simpa using Ne.symm ht.2)] at hget
      exact h.idle t ht.1 hget
    · have hactive : ({ s with certified := s.certified ++ [txn] } : System).active =
          s.active ++ [txn] := by
        unfold active
        dsimp only
        rw [filter_append, filter_cons_of_pos (by simpa using hany), filter_nil]
      have hlength := congrArg List.length h.members
      rw [length_map] at hlength
      calc ((s.certifier.committed ++ [(txn, mine)]).drop _).map Prod.fst
        _ = (s.active ++ [txn]).drop (s.active.length + 1 - window) := by
          rw [map_drop, map_append, h.members, length_append, hlength, h.size]
          exact drop_append_singleton s.active txn hpos
        _ = (s.active ++ [txn]).drop ((s.active ++ [txn]).length - window) := by
          rw [length_append, length_singleton]
        _ = _ := by
          rw [← hactive]
          rfl
    · rcases mem_append.mp (mem_of_mem_drop he) with he | he
      · exact h.recorded e he
      · rw [mem_singleton.mp he]
        exact hrec

theorem step (h : s.Windowed window) (hpos : 1 ≤ window) {s' : System} {action : Action}
    (hok : s.TracksDone action) (hstep : s.step action = some s') : s'.Windowed window := by
  cases action with
  | read txn tablet key =>
    simp only [System.step] at hstep
    split at hstep
    · cases hstep
    next htxn =>
      cases hstep
      exact h.observe htxn (DistAccessSet.covers_read_iff _ s txn tablet key)
  | write txn tablet key =>
    simp only [System.step] at hstep
    split at hstep
    · cases hstep
    next htxn =>
      cases hstep
      exact h.observe htxn (DistAccessSet.covers_write_iff _ s txn tablet key)
  | track txn access =>
    simp only [System.step] at hstep
    split at hstep
    · cases hstep
    next hcond =>
      cases hstep
      push Not at hcond
      exact h.track hcond.1 hcond.2 hok
  | certify txn =>
    simp only [System.step] at hstep
    split at hstep
    · cases hstep
    next htxn =>
      split at hstep
      next certifier hcertify =>
        cases hstep
        exact h.certify hpos htxn hcertify
      next certifier hcertify =>
        cases hstep
        rcases s.certifier.certify_cases txn with
          ⟨-, heq⟩ | ⟨mine, -, heq | ⟨-, heq⟩⟩ <;> rw [heq] at hcertify <;> cases hcertify
        exact h.forget htxn
  | commit txn =>
    simp only [System.step] at hstep
    split at hstep
    · cases hstep
      exact ⟨h.size, h.running, h.idle, h.members, h.recorded⟩
    · cases hstep
  | abort txn =>
    simp only [System.step] at hstep
    split at hstep
    · cases hstep
    next htxn =>
      cases hstep
      exact h.forget htxn

end System.Windowed

/-- In every run: a transaction is certified exactly if none of the last `window` certified
transactions with accesses has written a key that it has read or written. Whether they had
committed before it began plays no part. -/
theorem certified_iff_recent_clear (window : Nat) {s : System}
    (h : Reachable System.step System.TracksDone (.init window) s) {txn : TransactionId}
    (htxn : ¬ txn ∈ s.certified) :
    (s.certifier.certify txn).2 = .ok ↔
      ∀ w ∈ s.accesses, w.txn ∈ s.recent (max window 1) →
        ∀ a ∈ s.accesses, a.txn = txn → ¬ w.Overwrites a := by
  have hinv : s.Windowed (max window 1) := h.invariant (.init window)
    fun _ _ _ hs hok hstep => hs.step (Nat.le_max_right _ _) hok hstep
  rw [DistSsiCertifier.certify_ok_iff]
  constructor
  · intro hclear w hw hrecent a ha hat ho
    obtain ⟨e, he, het⟩ := mem_map.mp (hinv.members ▸ hrecent)
    cases hget : s.certifier.inflight[txn]? with
    | none => exact hinv.idle txn htxn hget a ha hat
    | some mine =>
      exact hclear mine hget e he (((hinv.running txn mine hget).2.2.conflicts_iff
        (hinv.recorded e he)).mpr ⟨w, hw, het.symm, a, ha, hat, ho⟩)
  · intro hclear mine hget e he hconf
    obtain ⟨w, hw, hwt, a, ha, hat, ho⟩ :=
      ((hinv.running txn mine hget).2.2.conflicts_iff (hinv.recorded e he)).mp hconf
    have hrecent : w.txn ∈ s.recent (max window 1) := by
      rw [hwt, ← hinv.members]
      exact mem_map_of_mem he
    exact hclear w hw hrecent a ha hat ho

/-- The writer of the key has left the window of one place, so the next one is certified. -/
theorem certified_after_eviction :
    ∃ s, Reachable System.step System.TracksDone (.init 1) s ∧
      (s.certified = [1, 2] ∧ s.recent 1 = [2]) ∧ (s.certifier.certify 3).2 = .ok := by
  obtain ⟨s, hs, ⟨hcert, hrecent⟩, hacc⟩ := exists_reachable_of_execute System.step
    System.TracksDone (.init 1)
    (fun s => (s.certified = [1, 2] ∧ s.recent 1 = [2]) ∧
      s.accesses = [⟨1, .write, 5, [7], 0⟩, ⟨2, .write, 5, [8], 1⟩, ⟨3, .write, 5, [7], 1⟩])
    [.write 1 5 [7], .certify 1, .commit 1, .write 2 5 [8], .certify 2, .write 3 5 [7]]
    (by decide)
  refine ⟨s, hs, ⟨hcert, hrecent⟩, (certified_iff_recent_clear 1 hs (by simp [hcert])).mpr ?_⟩
  rw [show max 1 1 = 1 from rfl, hrecent, hacc]
  intro w hw hwt a ha hat ho
  simp only [mem_cons, not_mem_nil, or_false] at hw ha hwt
  rcases hw with rfl | rfl | rfl <;> rcases ha with rfl | rfl | rfl <;> simp_all [ho.key]
  exact absurd ho.key (by decide)

/-- With any room in the window, here one place: transaction 1 writes a key, is certified and
commits; transaction 2 makes its only access after that, to the same key, and is refused. -/
theorem serial_writers_refused :
    ∃ s, Reachable System.step anyStep (.init 1) s ∧
      (s.certified = [1] ∧ s.commits = [1] ∧
        s.accesses = [⟨1, .write, 5, [7], 0⟩, ⟨2, .write, 5, [7], 1⟩] ∧
        (s.certifier.certify 2).2 = .serializationFailure) :=
  exists_reachable_of_execute System.step anyStep (.init 1) _
    [.write 1 5 [7], .certify 1, .commit 1, .write 2 5 [7]] (by decide)

end MongrelDB.DistSsi
