import Mathlib.Data.List.Dedup
import Mathlib.Data.List.Sort
import MongrelDB.Storage.Row

/-!
# Row policies

`security.rs`: which rows of a table with row-level security a principal may touch.

Column masks are applied to rows after the fact and are left out.
-/

namespace MongrelDB.Security

open Storage (Row Value)

/-- A text as its UTF-8 bytes. -/
abbrev Text := List UInt8

/-! ## Principals -/

/-- Permissions are checked elsewhere. -/
structure Principal where
  userId : Nat
  createdEpoch : Nat
  username : Text
  isAdmin : Bool
  roles : List Text
  deriving DecidableEq, Repr

/-- The parts of the text that stands for the principal in a cache key. -/
structure PrincipalKey where
  userId : Nat
  createdEpoch : Nat
  username : Text
  isAdmin : Bool
  /-- sorted -/
  roles : List Text
  deriving DecidableEq, Repr

def Principal.key (p : Principal) : PrincipalKey where
  userId := p.userId
  createdEpoch := p.createdEpoch
  username := p.username
  isAdmin := p.isAdmin
  roles := p.roles.insertionSort (· ≤ ·)

variable {p q : Principal}

theorem Principal.roles_of_key (h : p.key = q.key) (role : Text) :
    role ∈ p.roles ↔ role ∈ q.roles := by
  have hsorted : p.roles.insertionSort (· ≤ ·) = q.roles.insertionSort (· ≤ ·) :=
    congrArg PrincipalKey.roles h
  have hperm := List.perm_insertionSort (· ≤ ·) p.roles
  rw [hsorted] at hperm
  exact (hperm.symm.trans (List.perm_insertionSort _ _)).mem_iff

def toAsciiLowercase (c : UInt8) : UInt8 := if 65 ≤ c ∧ c ≤ 90 then c + 32 else c

def eqIgnoreAsciiCase (a b : Text) : Bool := a.map toAsciiLowercase == b.map toAsciiLowercase

/-- `public` -/
def publicSubject : Text := [112, 117, 98, 108, 105, 99]

def subjectMatches (subjects : List Text) (p : Principal) : Bool :=
  subjects.isEmpty || subjects.any fun subject =>
    eqIgnoreAsciiCase subject publicSubject || subject == p.username || p.roles.contains subject

theorem subjectMatches_congr (h : p.key = q.key) (subjects : List Text) :
    subjectMatches subjects p = subjectMatches subjects q := by
  have hname : p.username = q.username := congrArg PrincipalKey.username h
  have hroles : ∀ subject, p.roles.contains subject = q.roles.contains subject := fun subject =>
    Bool.eq_iff_iff.mpr (by simpa using Principal.roles_of_key h subject)
  simp only [subjectMatches, hname, hroles]

/-! ## Policies -/

inductive PolicyCommand where
  | all
  | select
  | insert
  | update
  | delete
  deriving DecidableEq, Repr

inductive SecurityExpr (F : Type) where
  | always
  | columnEqCurrentUser (column : Nat)
  | columnEqValue (column : Nat) (value : Value F)
  | and (left right : SecurityExpr F)
  | or (left right : SecurityExpr F)
  | not (expression : SecurityExpr F)

structure RowPolicy (F : Type) where
  name : Text
  table : Text
  command : PolicyCommand
  subjects : List Text
  permissive : Bool
  usingExpr : Option (SecurityExpr F)
  withCheck : Option (SecurityExpr F)

structure SecurityCatalog (F : Type) where
  rlsTables : List Text
  policies : List (RowPolicy F)

section

variable {F : Type} [BEq F]

/-- Equality of values; floating-point values by their own. -/
def valueEq : Value F → Value F → Bool
  | .null, .null => true
  | .bool a, .bool b => a == b
  | .int64 a, .int64 b => a == b
  | .float64 a, .float64 b => a == b
  | .bytes a, .bytes b => a == b
  | .json a, .json b => a == b
  | _, _ => false

def SecurityExpr.eval (row : Row F) (p : Principal) : SecurityExpr F → Bool
  | always => true
  | columnEqCurrentUser column => (row.get column).any fun v => valueEq v (.bytes p.username)
  | columnEqValue column value => (row.get column).any fun v => valueEq v value
  | and left right => left.eval row p && right.eval row p
  | or left right => left.eval row p || right.eval row p
  | not expression => !expression.eval row p

/-- The columns that it pushes, in order. -/
def SecurityExpr.collectColumns : SecurityExpr F → List Nat
  | always => []
  | columnEqCurrentUser column | columnEqValue column _ => [column]
  | and left right | or left right => left.collectColumns ++ right.collectColumns
  | not expression => expression.collectColumns

/-- An expression sees the name of the principal and the columns it collects. -/
theorem SecurityExpr.eval_congr (hname : p.username = q.username) {row row' : Row F}
    {e : SecurityExpr F} (h : ∀ c ∈ e.collectColumns, row.get c = row'.get c) :
    e.eval row p = e.eval row' q := by
  induction e with
  | always => rfl
  | columnEqCurrentUser column | columnEqValue column value =>
    simp only [eval, hname, h column (List.mem_singleton_self _)]
  | and left right ihl ihr | or left right ihl ihr =>
    obtain ⟨hl, hr⟩ := List.forall_mem_append.mp h
    simp only [eval, ihl hl, ihr hr]
  | not expression ih => simp only [eval, ih h]

/-- The three flags of the loop over the policies. -/
structure Verdict where
  hasPermissive : Bool
  permissiveAllowed : Bool
  restrictiveAllowed : Bool

/-- One policy; a policy without an expression allows nothing. -/
def RowPolicy.judge (row : Row F) (p : Principal) (checkNew : Bool) (v : Verdict)
    (policy : RowPolicy F) : Verdict :=
  let expression := if checkNew then policy.withCheck.or policy.usingExpr else policy.usingExpr
  let allowed := expression.any fun e => e.eval row p
  if policy.permissive then
    { v with hasPermissive := true, permissiveAllowed := v.permissiveAllowed || allowed }
  else { v with restrictiveAllowed := v.restrictiveAllowed && allowed }

namespace SecurityCatalog

def rlsEnabled (security : SecurityCatalog F) (table : Text) : Bool :=
  security.rlsTables.any fun name => name == table

def rowAllowed (security : SecurityCatalog F) (table : Text) (command : PolicyCommand)
    (row : Row F) (p : Principal) (checkNew : Bool) : Bool :=
  if p.isAdmin || !security.rlsEnabled table then true
  else
    let applicable := security.policies.filter fun policy =>
      policy.table == table && (policy.command == .all || policy.command == command)
    let v := (applicable.filter fun policy => subjectMatches policy.subjects p).foldl
      (RowPolicy.judge row p checkNew) ⟨false, false, true⟩
    v.hasPermissive && v.permissiveAllowed && v.restrictiveAllowed

theorem rowAllowed_congr (h : p.key = q.key) (security : SecurityCatalog F)
    (table : Text) (command : PolicyCommand) (row : Row F) (checkNew : Bool) :
    security.rowAllowed table command row p checkNew =
      security.rowAllowed table command row q checkNew := by
  have hadmin : p.isAdmin = q.isAdmin := congrArg PrincipalKey.isAdmin h
  have hjudge : RowPolicy.judge row p checkNew = RowPolicy.judge row q checkNew := by
    funext v policy
    simp only [RowPolicy.judge,
      SecurityExpr.eval_congr (congrArg PrincipalKey.username h) fun _ _ => rfl]
  simp only [rowAllowed, hadmin, subjectMatches_congr h, hjudge]

/-- The row with these columns only. -/
def project (row : Row F) (columns : List Nat) : Row F :=
  { row with columns := row.columns.filter fun c => columns.contains c.1 }

/-- The columns that the policies of a `SELECT` read, for one principal. -/
def selectPolicyColumns (security : SecurityCatalog F) (table : Text) (p : Principal) : List Nat :=
  let policies := security.policies.filter fun policy =>
    policy.table == table && (policy.command == .all || policy.command == .select) &&
      subjectMatches policy.subjects p
  let columns := policies.flatMap fun policy => policy.usingExpr.elim [] (·.collectColumns)
  (columns.insertionSort (· ≤ ·)).dedup

omit [BEq F] in
theorem get_project {row : Row F} {columns : List Nat} {c : Nat} (h : c ∈ columns) :
    (project row columns).get c = row.get c := by
  unfold project Row.get
  induction row.columns with
  | nil => rfl
  | cons cell cells ih => grind

variable {security : SecurityCatalog F} {table : Text} {command : PolicyCommand} {row : Row F}
  {checkNew : Bool}

def Applies (table : Text) (command : PolicyCommand) (p : Principal) (policy : RowPolicy F) :
    Prop :=
  (policy.table == table && (policy.command == .all || policy.command == command)) = true ∧
    subjectMatches policy.subjects p = true

def allows (row : Row F) (p : Principal) (checkNew : Bool) (policy : RowPolicy F) : Bool :=
  (if checkNew then policy.withCheck.or policy.usingExpr else policy.usingExpr).any
    fun e => e.eval row p

theorem foldl_judge (policies : List (RowPolicy F)) (v : Verdict) :
    policies.foldl (RowPolicy.judge row p checkNew) v =
      ⟨v.hasPermissive || policies.any (·.permissive),
        v.permissiveAllowed || policies.any fun q => q.permissive && allows row p checkNew q,
        v.restrictiveAllowed && policies.all fun q => q.permissive || allows row p checkNew q⟩ := by
  induction policies generalizing v with
  | nil => simp
  | cons policy policies ih =>
    rw [List.foldl_cons, ih]
    cases hp : policy.permissive <;>
      simp [RowPolicy.judge, hp, allows, Bool.or_assoc, Bool.and_assoc]

/-- Some permissive policy that applies allows the row, and every restrictive one does. -/
theorem rowAllowed_iff : security.rowAllowed table command row p checkNew = true ↔
    (p.isAdmin || !security.rlsEnabled table) = true ∨
      (∃ q ∈ security.policies, Applies table command p q ∧ q.permissive = true ∧
        allows row p checkNew q = true) ∧
      ∀ q ∈ security.policies, Applies table command p q → q.permissive = false →
        allows row p checkNew q = true := by
  unfold rowAllowed
  by_cases hopen : (p.isAdmin || !security.rlsEnabled table) = true
  · rw [if_pos hopen]
    exact iff_of_true rfl (.inl hopen)
  · rw [if_neg hopen, or_iff_right hopen]
    simp only [foldl_judge, Bool.false_or, Bool.true_and, Bool.and_eq_true, List.any_eq_true,
      List.all_eq_true, List.mem_filter]
    grind [Applies]

/-- The loop and the collection select the same policies. -/
theorem rowAllowed_of_columns {row' : Row F}
    (hrow : ∀ c ∈ security.selectPolicyColumns table p, row.get c = row'.get c)
    (h : security.rowAllowed table .select row p false = true) :
    security.rowAllowed table .select row' p false = true := by
  have hallows : ∀ q ∈ security.policies, Applies table .select p q →
      allows row p false q = true → allows row' p false q = true := by
    intro q hq happlies
    rw [allows, allows, if_neg Bool.false_ne_true]
    cases he : q.usingExpr with
    | none => exact id
    | some e =>
      refine (SecurityExpr.eval_congr rfl fun c hc => hrow c ?_).symm.trans
      rw [selectPolicyColumns, List.mem_dedup, List.mem_insertionSort, List.mem_flatMap]
      refine ⟨q, List.mem_filter.mpr ⟨hq, Bool.and_eq_true_iff.mpr happlies⟩, ?_⟩
      rwa [he]
  rw [rowAllowed_iff] at h ⊢
  refine h.imp_right fun ⟨⟨q, hq, happlies, hpermissive, hallow⟩, hrestrictive⟩ => ⟨?_, ?_⟩
  · exact ⟨q, hq, happlies, hpermissive, hallows q hq happlies hallow⟩
  · exact fun q hq happlies hq' => hallows q hq happlies (hrestrictive q hq happlies hq')

/-- For every catalog, table and principal: rows that agree on `select_policy_columns` are both
readable or both not, so it is enough to look at these columns; and no restrictive policy, wherever
it is added, allows what was denied. -/
theorem select_by_policy_columns (security : SecurityCatalog F) (table : Text) (p : Principal) :
    (∀ row row' : Row F,
      (∀ c ∈ security.selectPolicyColumns table p, row.get c = row'.get c) →
        security.rowAllowed table .select row p false =
          security.rowAllowed table .select row' p false) ∧
    (∀ row : Row F, security.rowAllowed table .select
        (project row (security.selectPolicyColumns table p)) p false =
      security.rowAllowed table .select row p false) ∧
    ∀ front back policy, security.policies = front ++ back → policy.permissive = false →
      ∀ command row checkNew,
        rowAllowed { security with policies := front ++ policy :: back } table command row p
          checkNew = true →
        security.rowAllowed table command row p checkNew = true := by
  refine ⟨fun row row' h => Bool.eq_iff_iff.mpr ⟨rowAllowed_of_columns h, ?_⟩,
    fun row => Bool.eq_iff_iff.mpr ⟨rowAllowed_of_columns fun c hc => get_project hc, ?_⟩, ?_⟩
  · exact rowAllowed_of_columns fun c hc => (h c hc).symm
  · exact rowAllowed_of_columns fun c hc => (get_project hc).symm
  intro front back policy hpolicies hpolicy command row checkNew h
  rw [rowAllowed_iff] at h ⊢
  rw [hpolicies]
  refine h.imp_right fun ⟨⟨q, hq, happlies, hpermissive, hallow⟩, hrestrictive⟩ => ⟨?_, ?_⟩
  · refine ⟨q, ?_, happlies, hpermissive, hallow⟩
    -- the added policy is not permissive
    grind
  · exact fun q hq => hrestrictive q (by grind)

end SecurityCatalog

end

end MongrelDB.Security
