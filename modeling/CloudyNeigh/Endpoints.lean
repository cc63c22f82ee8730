import CloudyNeigh.QueryHeapEngine

/-!
# The endpoints

The handlers of `IngestServer` and `QueryServer` behind `TenantInterceptor`: what is checked
of a request and in which order, the one call of the tenant's ingester or engine, and the
status that its error becomes. Any number of requests are handled at a time. The backends
are arbitrary machines, one for each tenant, that see the calls begin and return.

A run of the ingest server has no `Query`, and a run of the query server has nothing else.
-/
namespace CloudyNeigh.Grpc
open Naming Query Tenant Transition VectorFormat

inductive Code
  | canceled
  | invalidArgument
  | deadlineExceeded
  | notFound
  | alreadyExists
  | internal
  | unauthenticated
  deriving DecidableEq, Repr

/-- The errors that a handler looks for with `errors.Is`. -/
inductive Sentinel
  | canceled
  | deadlineExceeded
  | notFound
  | branchAlreadyExists
  | dimensionMismatch
  | zeroVector
  deriving DecidableEq, Repr

/-- An error of a backend: what it wraps, and its text. -/
structure BackendErr where
  wraps : List Sentinel
  text : String
  deriving DecidableEq, Repr

def BackendErr.Is (err : BackendErr) (target : Sentinel) : Bool := err.wraps.contains target

/-- The text of a status: its format, with the arguments. -/
inductive Message
  | missingTenant
  | multipleTenantHeaders
  | invalidTenant (err : NameErr)
  | nilRequest
  | unknownTenant (tenant : String)
  | invalidNamespace (err : NameErr)
  | invalidBranch (err : NameErr)
  | emptyTargetBranch
  | invalidTargetBranch (err : NameErr)
  | identicalBranches
  | recordIsNil (i : ℕ)
  | recordHasEmptyID (i : ℕ)
  | idIsEmpty (i : ℕ)
  | emptyQueryVector
  | topKNotPositive
  | plain (err : String)
  | upsert (err : String)
  | delete (err : String)
  | fork (err : String)
  | sourceNotFound (branch : String)
  | targetAlreadyExists (branch : String)
  | grpcapi (err : String)
  | search (err : String)
  | setTrailer (err : String)
  deriving DecidableEq, Repr

structure Status where
  code : Code
  message : Message
  deriving DecidableEq, Repr

structure UpsertRequest where
  Namespace : String
  -- `none` is a nil pointer
  Records : List (Option Record)
  Branch : String

structure DeleteRequest where
  Namespace : String
  Ids : List String
  Branch : String

structure ForkRequest where
  Namespace : String
  SourceBranch : String
  TargetBranch : String

structure QueryRequest where
  Namespace : String
  Vector : List F32
  TopK : UInt32
  Filter : Option EqualityFilter
  VectorColumn : String
  Branch : String

/-- A request with its method, `none` for a nil one. -/
inductive Rpc
  | Upsert (req : Option UpsertRequest)
  | Delete (req : Option DeleteRequest)
  | Fork (req : Option ForkRequest)
  | Query (req : Option QueryRequest)

/-- The call of the tenant's ingester or engine. -/
inductive Call
  | Upsert (ns branch : String) (records : List Record)
  | Delete (ns branch : String) (ids : List String)
  | Fork (ns source target : String)
  | Query (req : Request)

inductive Response
  | Upsert (upsertedCount : UInt32)
  | Delete (deletedCount : UInt32)
  | Fork
  | Query (hits : List ScoredResult)

/-- What a handler does after its checks. -/
inductive Next
  | reply (r : Response)
  | call (c : Call)

variable {β σ : Type*}

section Checks

def TenantInterceptor (vals : List String) : Except Status String :=
  match vals with
  | [] => .error ⟨.unauthenticated, .missingTenant⟩
  | tenant :: more =>
    if tenant = "" then .error ⟨.unauthenticated, .missingTenant⟩
    else if more ≠ [] then .error ⟨.invalidArgument, .multipleTenantHeaders⟩
    else match ValidateName tenant with
      | .error err => .error ⟨.invalidArgument, .invalidTenant err⟩
      | .ok () => .ok tenant

def checkName (message : NameErr → Message) (name : String) : Except Status Unit :=
  match ValidateName name with
  | .error err => .error ⟨.invalidArgument, message err⟩
  | .ok () => .ok ()

def orDefault (default raw : String) : String := if raw = "" then default else raw

/-- A name that may be left empty. -/
def resolve (message : NameErr → Message) (default raw : String) : Except Status String := do
  checkName message (orDefault default raw)
  return orDefault default raw

def resolveNamespace : String → Except Status String := resolve .invalidNamespace DefaultNamespace

def resolveBranch : String → Except Status String := resolve .invalidBranch DefaultBranch

/-- The look-up in the map of ingesters or engines. -/
def lookupTenant (tenants : List String) (tenant : String) : Except Status Unit :=
  if tenant ∈ tenants then .ok () else .error ⟨.notFound, .unknownTenant tenant⟩

/-- The loop over the records, from index `i`. -/
def checkRecords (i : ℕ) : List (Option Record) → Except Status (List Record)
  | [] => .ok []
  | none :: _ => .error ⟨.invalidArgument, .recordIsNil i⟩
  | some rec :: rest =>
    if rec.Id = "" then .error ⟨.invalidArgument, .recordHasEmptyID i⟩
    else do
      let records ← checkRecords (i + 1) rest
      return rec :: records

def checkIDs (i : ℕ) : List String → Except Status Unit
  | [] => .ok ()
  | id :: rest =>
    if id = "" then .error ⟨.invalidArgument, .idIsEmpty i⟩ else checkIDs (i + 1) rest

def refuseIf (refused : Bool) (message : Message) : Except Status Unit :=
  if refused then .error ⟨.invalidArgument, message⟩ else .ok ()

variable (tenants : List String) (tenant : String)

def Upsert : Option UpsertRequest → Except Status Next
  | none => .error ⟨.invalidArgument, .nilRequest⟩
  | some req => do
    lookupTenant tenants tenant
    let ns ← resolveNamespace req.Namespace
    let branch ← resolveBranch req.Branch
    if req.Records.length = 0 then .ok (.reply (.Upsert 0))
    else do
      let records ← checkRecords 0 req.Records
      return .call (.Upsert ns branch records)

def Delete : Option DeleteRequest → Except Status Next
  | none => .error ⟨.invalidArgument, .nilRequest⟩
  | some req => do
    lookupTenant tenants tenant
    let ns ← resolveNamespace req.Namespace
    let branch ← resolveBranch req.Branch
    if req.Ids.length = 0 then .ok (.reply (.Delete 0))
    else do
      checkIDs 0 req.Ids
      return .call (.Delete ns branch req.Ids)

def Fork : Option ForkRequest → Except Status Next
  | none => .error ⟨.invalidArgument, .nilRequest⟩
  | some req => do
    lookupTenant tenants tenant
    let ns ← resolveNamespace req.Namespace
    refuseIf (req.TargetBranch = "") .emptyTargetBranch
    checkName .invalidTargetBranch req.TargetBranch
    let source ← resolveBranch req.SourceBranch
    refuseIf (source = req.TargetBranch) .identicalBranches
    return .call (.Fork ns source req.TargetBranch)

/-- Here the namespace has no default, and it is checked before the tenant is looked up. -/
def Query : Option QueryRequest → Except Status Next
  | none => .error ⟨.invalidArgument, .nilRequest⟩
  | some req => do
    checkName .invalidNamespace req.Namespace
    lookupTenant tenants tenant
    let branch ← resolveBranch req.Branch
    refuseIf (req.Vector.length = 0) .emptyQueryVector
    refuseIf (req.TopK = 0) .topKNotPositive
    return .call (.Query
      { Namespace := req.Namespace, Branch := branch, VectorColumn := req.VectorColumn,
        Vector := req.Vector, TopK := req.TopK.toNat, Filter := req.Filter })

def Rpc.checked : Rpc → Except Status Next
  | .Upsert req => Grpc.Upsert tenants tenant req
  | .Delete req => Grpc.Delete tenants tenant req
  | .Fork req => Grpc.Fork tenants tenant req
  | .Query req => Grpc.Query tenants tenant req

end Checks

section Accepted

/-- What the backends rely on. -/
def Call.WellFormed : Call → Prop
  | .Upsert ns branch records =>
    Valid ns ∧ Valid branch ∧ records ≠ [] ∧ ∀ rec ∈ records, rec.Id ≠ ""
  | .Delete ns branch ids => Valid ns ∧ Valid branch ∧ ids ≠ [] ∧ ∀ id ∈ ids, id ≠ ""
  | .Fork ns source target => Valid ns ∧ Valid source ∧ Valid target ∧ source ≠ target
  | .Query req => Valid req.Namespace ∧ Valid req.Branch ∧ req.Vector ≠ [] ∧ 0 < req.TopK

/-- The call that a request asks for, with the defaults of the names that it leaves out. -/
def Rpc.Asks : Rpc → Call → Prop
  | .Upsert (some req), .Upsert ns branch records =>
    ns = orDefault DefaultNamespace req.Namespace ∧ branch = orDefault DefaultBranch req.Branch ∧
      req.Records = records.map some
  | .Delete (some req), .Delete ns branch ids =>
    ns = orDefault DefaultNamespace req.Namespace ∧ branch = orDefault DefaultBranch req.Branch ∧
      req.Ids = ids
  | .Fork (some req), .Fork ns source target =>
    ns = orDefault DefaultNamespace req.Namespace ∧
      source = orDefault DefaultBranch req.SourceBranch ∧ req.TargetBranch = target
  | .Query (some req), .Query r =>
    r = ⟨req.Namespace, orDefault DefaultBranch req.Branch, req.VectorColumn, req.Vector,
      req.TopK.toNat, req.Filter⟩
  | _, _ => False

variable {tenants : List String} {tenant : String} {message : NameErr → Message}

lemma bind_eq_ok {ε α γ : Type} {x : Except ε α} {f : α → Except ε γ} {b : γ} :
    (x >>= f) = .ok b ↔ ∃ a, x = .ok a ∧ f a = .ok b := by
  cases x with
  | error e => simp [bind, Except.bind]
  | ok a => simp [bind, Except.bind]

lemma ne_empty_of_valid {name : String} (h : Valid name) : name ≠ "" := by
  rintro rfl
  exact absurd h (by decide)

lemma interceptor_eq_ok {vals : List String} :
    TenantInterceptor vals = .ok tenant ↔ vals = [tenant] ∧ Valid tenant := by
  cases vals with
  | nil => simp [TenantInterceptor]
  | cons val more =>
    simp only [TenantInterceptor, List.cons.injEq]
    constructor
    · intro h
      split at h
      · cases h
      · split at h
        · cases h
        · rename_i hmore
          cases hname : ValidateName val with
          | error err =>
            rw [hname] at h
            cases h
          | ok =>
            rw [hname] at h
            cases h
            exact ⟨⟨rfl, not_not.mp hmore⟩, hname⟩
    · rintro ⟨⟨rfl, rfl⟩, hname⟩
      simp [ne_empty_of_valid hname, hname]

lemma checkName_eq_ok {name : String} {u : Unit} :
    checkName message name = .ok u ↔ Valid name := by
  cases hname : ValidateName name with
  | error err => simp [checkName, Valid, hname]
  | ok => simp [checkName, Valid, hname]

lemma resolve_eq_ok {default raw name : String} :
    resolve message default raw = .ok name ↔ name = orDefault default raw ∧ Valid name := by
  simp only [resolve, bind_eq_ok, checkName_eq_ok, pure, Except.pure, Except.ok.injEq]
  constructor
  · rintro ⟨-, hvalid, rfl⟩
    exact ⟨rfl, hvalid⟩
  · rintro ⟨rfl, hvalid⟩
    exact ⟨(), hvalid, rfl⟩

lemma lookupTenant_eq_ok {u : Unit} : lookupTenant tenants tenant = .ok u ↔ tenant ∈ tenants := by
  simp only [lookupTenant]
  split <;> simp [*]

lemma refuseIf_eq_ok {refused : Bool} {text : Message} {u : Unit} :
    refuseIf refused text = .ok u ↔ refused = false := by
  cases refused <;> simp [refuseIf]

lemma checkRecords_eq_ok {i : ℕ} {recs : List (Option Record)} {records : List Record} :
    checkRecords i recs = .ok records ↔
      recs = records.map some ∧ ∀ rec ∈ records, rec.Id ≠ "" := by
  induction recs generalizing i records with
  | nil => cases records <;> simp [checkRecords]
  | cons rec? rest ih =>
    cases rec? with
    | none => cases records <;> simp [checkRecords]
    | some rec =>
      simp only [checkRecords]
      split
      · rename_i hempty
        cases records with
        | nil => simp
        | cons rec' records =>
          simp only [reduceCtorEq, List.map_cons, List.cons.injEq, Option.some.injEq,
            List.forall_mem_cons, false_iff]
          rintro ⟨⟨rfl, -⟩, hne, -⟩
          exact hne hempty
      · rename_i hid
        simp only [bind_eq_ok, ih, pure, Except.pure, Except.ok.injEq]
        constructor
        · rintro ⟨records, ⟨rfl, hall⟩, rfl⟩
          exact ⟨rfl, List.forall_mem_cons.mpr ⟨hid, hall⟩⟩
        · rintro ⟨hmap, hall⟩
          cases records with
          | nil => cases hmap
          | cons rec' records =>
            rw [List.map_cons, List.cons.injEq, Option.some.injEq] at hmap
            obtain ⟨rfl, rfl⟩ := hmap
            exact ⟨records, ⟨rfl, (List.forall_mem_cons.mp hall).2⟩, rfl⟩

lemma checkIDs_eq_ok {i : ℕ} {ids : List String} {u : Unit} :
    checkIDs i ids = .ok u ↔ ∀ id ∈ ids, id ≠ "" := by
  induction ids generalizing i with
  | nil => simp [checkIDs]
  | cons id rest ih =>
    simp only [checkIDs, List.forall_mem_cons]
    split
    · simp [*]
    · rw [ih]
      simp [*]

lemma upsert_call_iff {req : UpsertRequest} {c : Call} :
    Upsert tenants tenant (some req) = .ok (.call c) ↔
      tenant ∈ tenants ∧ (Rpc.Upsert (some req)).Asks c ∧ c.WellFormed := by
  simp only [Upsert, bind_eq_ok, lookupTenant_eq_ok, resolveNamespace, resolveBranch,
    resolve_eq_ok]
  constructor
  · rintro ⟨-, ht, ns, ⟨hns, hnsv⟩, branch, ⟨hbranch, hbranchv⟩, h⟩
    split at h
    · cases h
    · rename_i hlen
      obtain ⟨records, hrecords, h⟩ := bind_eq_ok.mp h
      obtain ⟨hmap, hids⟩ := checkRecords_eq_ok.mp hrecords
      cases h
      refine ⟨ht, ⟨hns, hbranch, hmap⟩, hnsv, hbranchv, ?_, hids⟩
      rintro rfl
      exact hlen (by rw [hmap]; rfl)
  · rintro ⟨ht, hasks, hwf⟩
    cases c with
    | Upsert ns branch records =>
      obtain ⟨hns, hbranch, hmap⟩ := hasks
      obtain ⟨hnsv, hbranchv, hne, hids⟩ := hwf
      refine ⟨(), ht, ns, ⟨hns, hnsv⟩, branch, ⟨hbranch, hbranchv⟩, ?_⟩
      rw [if_neg (by simpa [hmap] using hne), bind_eq_ok]
      exact ⟨records, checkRecords_eq_ok.mpr ⟨hmap, hids⟩, rfl⟩
    | Delete | Fork | Query => cases hasks

lemma delete_call_iff {req : DeleteRequest} {c : Call} :
    Delete tenants tenant (some req) = .ok (.call c) ↔
      tenant ∈ tenants ∧ (Rpc.Delete (some req)).Asks c ∧ c.WellFormed := by
  simp only [Delete, bind_eq_ok, lookupTenant_eq_ok, resolveNamespace, resolveBranch,
    resolve_eq_ok]
  constructor
  · rintro ⟨-, ht, ns, ⟨hns, hnsv⟩, branch, ⟨hbranch, hbranchv⟩, h⟩
    split at h
    · cases h
    · rename_i hlen
      obtain ⟨u, hids, h⟩ := bind_eq_ok.mp h
      cases h
      exact ⟨ht, ⟨hns, hbranch, rfl⟩, hnsv, hbranchv, fun hnil => hlen (by rw [hnil]; rfl),
        checkIDs_eq_ok.mp hids⟩
  · rintro ⟨ht, hasks, hwf⟩
    cases c with
    | Delete ns branch ids =>
      obtain ⟨hns, hbranch, rfl⟩ := hasks
      obtain ⟨hnsv, hbranchv, hne, hids⟩ := hwf
      refine ⟨(), ht, ns, ⟨hns, hnsv⟩, branch, ⟨hbranch, hbranchv⟩, ?_⟩
      rw [if_neg (by simpa using hne), bind_eq_ok]
      exact ⟨(), checkIDs_eq_ok.mpr hids, rfl⟩
    | Upsert | Fork | Query => cases hasks

lemma fork_call_iff {req : ForkRequest} {c : Call} :
    Fork tenants tenant (some req) = .ok (.call c) ↔
      tenant ∈ tenants ∧ (Rpc.Fork (some req)).Asks c ∧ c.WellFormed := by
  simp only [Fork, bind_eq_ok, lookupTenant_eq_ok, resolveNamespace, resolveBranch,
    resolve_eq_ok, checkName_eq_ok, refuseIf_eq_ok, decide_eq_false_iff_not]
  constructor
  · rintro ⟨-, ht, ns, ⟨hns, hnsv⟩, -, -, -, htarget, source, ⟨hsource, hsourcev⟩, -, hne, h⟩
    cases h
    exact ⟨ht, ⟨hns, hsource, rfl⟩, hnsv, hsourcev, htarget, hne⟩
  · rintro ⟨ht, hasks, hwf⟩
    cases c with
    | Fork ns source target =>
      obtain ⟨hns, hsource, rfl⟩ := hasks
      obtain ⟨hnsv, hsourcev, htarget, hne⟩ := hwf
      exact ⟨(), ht, ns, ⟨hns, hnsv⟩, (), ne_empty_of_valid htarget, (), htarget, source,
        ⟨hsource, hsourcev⟩, (), hne, rfl⟩
    | Upsert | Delete | Query => cases hasks

lemma query_call_iff {req : QueryRequest} {c : Call} :
    Query tenants tenant (some req) = .ok (.call c) ↔
      tenant ∈ tenants ∧ (Rpc.Query (some req)).Asks c ∧ c.WellFormed := by
  have hpos : (0 : ℤ) < req.TopK.toNat ↔ ¬req.TopK = 0 := by
    rw [Int.natCast_pos, Nat.pos_iff_ne_zero, ne_eq, ← UInt32.toNat_inj, UInt32.toNat_zero]
  simp only [Query, bind_eq_ok, lookupTenant_eq_ok, resolveBranch, resolve_eq_ok, checkName_eq_ok,
    refuseIf_eq_ok, decide_eq_false_iff_not, List.length_eq_zero_iff]
  constructor
  · rintro ⟨-, hns, -, ht, branch, ⟨rfl, hbranch⟩, -, hvector, -, htop, h⟩
    cases h
    exact ⟨ht, rfl, hns, hbranch, hvector, hpos.mpr htop⟩
  · rintro ⟨ht, hasks, hwf⟩
    cases c with
    | Query r =>
      cases hasks
      obtain ⟨hns, hbranch, hvector, htop⟩ := hwf
      exact ⟨(), hns, (), ht, _, ⟨rfl, hbranch⟩, (), hvector, (), hpos.mp htop, rfl⟩
    | Upsert | Delete | Fork => cases hasks

/-- A query has to name its namespace; a write that does not goes to the default one. -/
lemma query_needs_namespace {req : QueryRequest} {c : Call} (h : (Rpc.Query (some req)).Asks c)
    (hwf : c.WellFormed) : req.Namespace ≠ "" := by
  cases c with
  | Query r =>
    cases h
    exact ne_empty_of_valid hwf.1
  | Upsert | Delete | Fork => cases h

lemma checked_call_iff {rpc : Rpc} {c : Call} :
    rpc.checked tenants tenant = .ok (.call c) ↔ tenant ∈ tenants ∧ rpc.Asks c ∧ c.WellFormed := by
  cases rpc with
  | Upsert req =>
    cases req with
    | none => simp [Rpc.checked, Grpc.Upsert, Rpc.Asks]
    | some req => exact upsert_call_iff
  | Delete req =>
    cases req with
    | none => simp [Rpc.checked, Grpc.Delete, Rpc.Asks]
    | some req => exact delete_call_iff
  | Fork req =>
    cases req with
    | none => simp [Rpc.checked, Grpc.Fork, Rpc.Asks]
    | some req => exact fork_call_iff
  | Query req =>
    cases req with
    | none => simp [Rpc.checked, Grpc.Query, Rpc.Asks]
    | some req => exact query_call_iff

end Accepted

section Responses

/-- How a backend call returns, and the error of `grpc.SetTrailer` that may follow. The list
of hits is that of a query; a write returns no value. -/
structure Returned where
  result : Except BackendErr (List ScoredResult)
  trailer : Option BackendErr

/-- The first two tests of the three ingest handlers. -/
def contextStatus (err : BackendErr) (other : Status) : Status :=
  if err.Is .canceled then ⟨.canceled, .plain err.text⟩
  else if err.Is .deadlineExceeded then ⟨.deadlineExceeded, .plain err.text⟩
  else other

def Call.status : Call → BackendErr → Status
  | .Upsert .., err => contextStatus err ⟨.internal, .upsert err.text⟩
  | .Delete .., err => contextStatus err ⟨.internal, .delete err.text⟩
  | .Fork _ source target, err => contextStatus err <|
    if err.Is .notFound then ⟨.notFound, .sourceNotFound source⟩
    else if err.Is .branchAlreadyExists then ⟨.alreadyExists, .targetAlreadyExists target⟩
    else ⟨.internal, .fork err.text⟩
  | .Query _, err =>
    if err.Is .dimensionMismatch then ⟨.invalidArgument, .grpcapi err.text⟩
    else if err.Is .zeroVector then ⟨.invalidArgument, .grpcapi err.text⟩
    else ⟨.internal, .search err.text⟩

def Call.respond (c : Call) (out : Returned) : Except Status Response :=
  match out.result with
  | .error err => .error (c.status err)
  | .ok hits =>
    match c with
    | .Upsert _ _ records => .ok (.Upsert (.ofNat records.length))
    | .Delete _ _ ids => .ok (.Delete (.ofNat ids.length))
    | .Fork .. => .ok .Fork
    | .Query _ =>
      match out.trailer with
      | some err => .error ⟨.internal, .setTrailer err.text⟩
      | none => .ok (.Query hits)

/-- A request that reached its backend is answered without an error exactly when the backend
returned none, and in a query the trailer was set. -/
lemma respond_eq_ok_iff {c : Call} {out : Returned} : (∃ r, c.respond out = .ok r) ↔
    (∃ hits, out.result = .ok hits) ∧ ∀ req, c = .Query req → out.trailer = none := by
  cases hresult : out.result with
  | error err => simp [Call.respond, hresult]
  | ok hits =>
    cases c with
    | Query req => cases htrailer : out.trailer <;> simp [Call.respond, hresult, htrailer]
    | Upsert | Delete | Fork => simp [Call.respond, hresult]

/-- Unlike the other handlers, `Query` does not look for the errors of the context: a query
that its client cancelled is an internal error. -/
lemma query_status_code (req : Request) (err : BackendErr) :
    ((Call.Query req).status err).code = .invalidArgument ∨
      ((Call.Query req).status err).code = .internal := by
  simp only [Call.status]
  split
  · exact .inl rfl
  · split
    · exact .inl rfl
    · exact .inr rfl

end Responses

section Machine

/-- Where the handler of a request is. -/
inductive Handler
  | calling (tenant : String) (c : Call)
  | replied (r : Except Status Response)

/-- A request from its arrival to the backend call or to the reply. -/
def handle (tenants vals : List String) (rpc : Rpc) : Handler :=
  match TenantInterceptor vals with
  | .error st => .replied (.error st)
  | .ok tenant =>
    match rpc.checked tenants tenant with
    | .error st => .replied (.error st)
    | .ok (.reply r) => .replied (.ok r)
    | .ok (.call c) => .calling tenant c

structure Served where
  /-- The values of the tenant header. -/
  vals : List String
  rpc : Rpc
  handler : Handler

/-- What a backend sees: calls that begin and return, and work of its own. -/
inductive Event (β : Type*)
  | begin (id : ℕ) (c : Call)
  | finish (id : ℕ) (out : Returned)
  | work (b : β)

structure State (σ : Type*) where
  backends : String → σ
  requests : ℕ → Option Served

inductive Action (β : Type*)
  | receive (id : ℕ) (vals : List String) (rpc : Rpc)
  | finish (tenant : String) (id : ℕ) (out : Returned)
  | work (tenant : String) (b : β)

def State.goto (s : State σ) (id : ℕ) (r : Served) : State σ :=
  { s with requests := Function.update s.requests id (some r) }

variable (tenants : List String) (B : String → Machine σ (Event β))

/-- The backend of `tenant` takes part in a step. -/
def State.backend (s : State σ) (tenant : String) (e : Event β) : Option (State σ) :=
  ((B tenant).step (s.backends tenant) e).map fun b =>
    { s with backends := Function.update s.backends tenant b }

def State.step (s : State σ) : Action β → Option (State σ)
  | .receive id vals rpc =>
    if (s.requests id).isSome then none
    else match handle tenants vals rpc with
      | .replied r => some (s.goto id ⟨vals, rpc, .replied r⟩)
      | .calling tenant c => (s.goto id ⟨vals, rpc, .calling tenant c⟩).backend B tenant (.begin id c)
  | .finish tenant id out =>
    match s.requests id with
    | some ⟨vals, rpc, .calling tenant' c⟩ =>
      if tenant' = tenant then
        (s.goto id ⟨vals, rpc, .replied (c.respond out)⟩).backend B tenant (.finish id out)
      else none
    | _ => none
  | .work tenant b => s.backend B tenant (.work b)

def server : Machine (State σ) (Action β) where
  init := ⟨fun tenant => (B tenant).init, fun _ => none⟩
  step := State.step tenants B

end Machine

section Steps

variable {tenants vals : List String} {B : String → Machine σ (Event β)} {s t : State σ}
variable {T tenant : String} {id : ℕ} {rpc : Rpc} {c : Call}

lemma handle_calling_iff : handle tenants vals rpc = .calling tenant c ↔
    vals = [tenant] ∧ Valid tenant ∧ tenant ∈ tenants ∧ rpc.Asks c ∧ c.WellFormed := by
  simp only [handle]
  constructor
  · intro h
    split at h
    · cases h
    · rename_i tenant' hvals
      split at h
      · cases h
      · cases h
      · rename_i c' hc
        cases h
        obtain ⟨hvals, hvalid⟩ := interceptor_eq_ok.mp hvals
        exact ⟨hvals, hvalid, checked_call_iff.mp hc⟩
  · rintro ⟨hvals, hvalid, hc⟩
    rw [interceptor_eq_ok.mpr ⟨hvals, hvalid⟩]
    simp only [checked_call_iff.mpr hc]

lemma backend_eq_some {e : Event β} : s.backend B tenant e = some t ↔
    ∃ b, (B tenant).step (s.backends tenant) e = some b ∧
      { s with backends := Function.update s.backends tenant b } = t :=
  Option.map_eq_some_iff

/-- What the arrival of a request does. -/
lemma step_receive (h : s.step tenants B (.receive id vals rpc) = some t) :
    s.requests id = none ∧
    t.requests = Function.update s.requests id (some ⟨vals, rpc, handle tenants vals rpc⟩) ∧
    ((∃ r, handle tenants vals rpc = .replied r ∧ t.backends = s.backends) ∨
      ∃ tenant c b, handle tenants vals rpc = .calling tenant c ∧
        (B tenant).step (s.backends tenant) (.begin id c) = some b ∧
        t.backends = Function.update s.backends tenant b) := by
  simp only [State.step] at h
  split at h
  · cases h
  · rename_i hfree
    refine ⟨by simpa using hfree, ?_⟩
    split at h
    · rename_i r hr
      cases h
      exact ⟨by rw [hr]; rfl, .inl ⟨r, hr, rfl⟩⟩
    · rename_i tenant c hc
      obtain ⟨b, hb, rfl⟩ := backend_eq_some.mp h
      exact ⟨by rw [hc]; rfl, .inr ⟨tenant, c, b, hc, hb, rfl⟩⟩

/-- And what the return of its call does. -/
lemma step_finish {out : Returned} (h : s.step tenants B (.finish tenant id out) = some t) :
    ∃ vals rpc c b, s.requests id = some ⟨vals, rpc, .calling tenant c⟩ ∧
      (B tenant).step (s.backends tenant) (.finish id out) = some b ∧
      t.requests = Function.update s.requests id (some ⟨vals, rpc, .replied (c.respond out)⟩) ∧
      t.backends = Function.update s.backends tenant b := by
  simp only [State.step] at h
  split at h
  · rename_i vals rpc tenant' c hr
    split at h
    · rename_i heq
      obtain ⟨b, hb, rfl⟩ := backend_eq_some.mp h
      exact ⟨vals, rpc, c, b, heq ▸ hr, hb, rfl, rfl⟩
    · cases h
  · cases h

lemma step_work {w : β} (h : s.step tenants B (.work tenant w) = some t) :
    t.requests = s.requests ∧ ∃ b, (B tenant).step (s.backends tenant) (.work w) = some b ∧
      t.backends = Function.update s.backends tenant b := by
  obtain ⟨b, hb, rfl⟩ := backend_eq_some.mp h
  exact ⟨rfl, b, hb, rfl⟩

end Steps

section Isolation

/-- What the backend of `T` sees of an action. -/
def Action.event (tenants : List String) (T : String) : Action β → Option (Event β)
  | .receive id vals rpc =>
    match handle tenants vals rpc with
    | .replied _ => none
    | .calling tenant c => if tenant = T then some (.begin id c) else none
  | .finish tenant id out => if tenant = T then some (.finish id out) else none
  | .work tenant w => if tenant = T then some (.work w) else none

/-- The requests that name `T` and nothing else, and what its backend does. -/
def Action.own (T : String) : Action β → Bool
  | .receive _ vals _ => vals = [T]
  | .finish tenant _ _ => tenant = T
  | .work tenant _ => tenant = T

/-- `T` sees the same in both states, and the second one has nothing else. -/
structure View (T : String) (s t : State σ) : Prop where
  backends : t.backends T = s.backends T
  requests : ∀ id, t.requests id = (s.requests id).filter fun r => r.vals = [T]

def Event.of (id : ℕ) : Event β → Bool
  | .begin id' _ => id' = id
  | .finish id' _ => id' = id
  | .work _ => false

/-- What the backend of `T` sees of request `id`. -/
def calls (tenants : List String) (T : String) (id : ℕ) (as : List (Action β)) : List (Event β) :=
  (as.filterMap (Action.event tenants T)).filter (Event.of id)

/-- How far a request is, and what the backend of `T` has seen of it. -/
inductive Served.At (tenants : List String) (T : String) (id : ℕ) (r : Served) : List (Event β) → Prop
  | refused {reply : Except Status Response} (hhandle : handle tenants r.vals r.rpc = .replied reply)
      (hat : r.handler = .replied reply) : r.At tenants T id []
  | elsewhere {tenant : String} {c : Call} (hhandle : handle tenants r.vals r.rpc = .calling tenant c)
      (hne : tenant ≠ T) : r.At tenants T id []
  | calling {c : Call} (hhandle : handle tenants r.vals r.rpc = .calling T c)
      (hat : r.handler = .calling T c) : r.At tenants T id [.begin id c]
  | returned {c : Call} {out : Returned} (hhandle : handle tenants r.vals r.rpc = .calling T c)
      (hat : r.handler = .replied (c.respond out)) : r.At tenants T id [.begin id c, .finish id out]

/-- No request is lost, and each one is called for and answered as its checks decide. -/
structure State.Answered (tenants : List String) (as : List (Action β)) (s : State σ) : Prop where
  received : ∀ id vals rpc, .receive id vals rpc ∈ as ↔
    ∃ handler, s.requests id = some ⟨vals, rpc, handler⟩
  fresh : ∀ id, s.requests id = none → ∀ T, calls tenants T id as = []
  answered : ∀ id r, s.requests id = some r → ∀ T, r.At tenants T id (calls tenants T id as)

variable {tenants : List String} {B : String → Machine σ (Event β)} {s t u : State σ}
variable {T : String} {id : ℕ} {a : Action β} {as before : List (Action β)}

lemma calls_snoc : calls tenants T id (before ++ [a]) =
    calls tenants T id before ++ (a.event tenants T).toList.filter (Event.of id) := by
  rw [calls, List.filterMap_append, List.filter_append]
  cases he : a.event tenants T with
  | none => simp [calls, he]
  | some e => simp [calls, he]

lemma calls_other (h : ∀ e, a.event tenants T = some e → e.of id = false) :
    calls tenants T id (before ++ [a]) = calls tenants T id before := by
  rw [calls_snoc]
  cases he : a.event tenants T with
  | none => simp
  | some e => simp [h e he]

/-- The events of a request carry its number. -/
lemma receive_event {vals : List String} {rpc : Rpc} {e : Event β} {id' : ℕ} (hid : id' ≠ id)
    (he : (Action.receive id vals rpc).event tenants T = some e) : e.of id' = false := by
  simp only [Action.event] at he
  split at he
  · cases he
  · obtain ⟨-, he⟩ := Option.ite_none_right_eq_some.mp he
    cases he
    simp [Event.of, hid.symm]

lemma finish_event {tenant : String} {out : Returned} {e : Event β} {id' : ℕ} (hid : id' ≠ id)
    (he : (Action.finish tenant id out).event tenants T = some e) : e.of id' = false := by
  obtain ⟨-, he⟩ := Option.ite_none_right_eq_some.mp he
  cases he
  simp [Event.of, hid.symm]

lemma work_event {tenant : String} {w : β} {e : Event β}
    (he : (Action.work tenant w).event tenants T = some e) : e.of id = false := by
  obtain ⟨-, he⟩ := Option.ite_none_right_eq_some.mp he
  cases he
  rfl

section At

variable {r : Served} {tenant : String} {c : Call} {es : List (Event β)}

lemma Served.At.replied {reply : Except Status Response} (h : r.At tenants T id es)
    (hhandle : handle tenants r.vals r.rpc = .replied reply) : r.handler = .replied reply := by
  cases h with
  | refused hreplied hat =>
    cases hhandle.symm.trans hreplied
    exact hat
  | elsewhere hcalling _ => cases hhandle.symm.trans hcalling
  | calling hcalling _ => cases hhandle.symm.trans hcalling
  | returned hcalling _ => cases hhandle.symm.trans hcalling

lemma Served.At.called (h : r.At tenants T id es)
    (hhandle : handle tenants r.vals r.rpc = .calling T c) :
    (r.handler = .calling T c ∧ es = [.begin id c]) ∨
      ∃ out, r.handler = .replied (c.respond out) ∧ es = [.begin id c, .finish id out] := by
  cases h with
  | refused hreplied _ => cases hhandle.symm.trans hreplied
  | elsewhere hcalling hne =>
    cases hhandle.symm.trans hcalling
    exact absurd rfl hne
  | calling hcalling hat =>
    cases hhandle.symm.trans hcalling
    exact .inl ⟨hat, rfl⟩
  | returned hcalling hat =>
    cases hhandle.symm.trans hcalling
    exact .inr ⟨_, hat, rfl⟩

lemma Served.At.uncalled (h : r.At tenants T id es)
    (hhandle : handle tenants r.vals r.rpc = .calling tenant c) (hne : tenant ≠ T) : es = [] := by
  cases h with
  | refused => rfl
  | elsewhere => rfl
  | calling hcalling _ =>
    cases hhandle.symm.trans hcalling
    exact absurd rfl hne
  | returned hcalling _ =>
    cases hhandle.symm.trans hcalling
    exact absurd rfl hne

/-- A handler that waits was allowed to call. -/
lemma State.Answered.calling (h : s.Answered tenants before) (hr : s.requests id = some r)
    (hat : r.handler = .calling tenant c) : handle tenants r.vals r.rpc = .calling tenant c := by
  cases hhandle : handle tenants r.vals r.rpc with
  | replied reply => cases hat.symm.trans ((h.answered id r hr tenant).replied hhandle)
  | calling tenant' c' =>
    obtain ⟨hat', -⟩ | ⟨out, hat', -⟩ := (h.answered id r hr tenant').called hhandle
    · exact hat'.symm.trans hat
    · cases hat.symm.trans hat'

lemma State.Answered.calls_calling (h : s.Answered tenants before) (hr : s.requests id = some r)
    (hat : r.handler = .calling tenant c) : calls tenants tenant id before = [.begin id c] := by
  obtain ⟨-, hcalls⟩ | ⟨out, hat', -⟩ := (h.answered id r hr tenant).called (h.calling hr hat)
  · exact hcalls
  · cases hat.symm.trans hat'

end At

/-- A step about one request: what has to be shown of that one. -/
lemma State.Answered.update (h : s.Answered tenants before) {r : Served}
    (ht : t.requests = Function.update s.requests id (some r))
    (hother : ∀ id' ≠ id, ∀ T e, a.event tenants T = some e → e.of id' = false)
    (hreceived : ∀ id' vals rpc, .receive id' vals rpc ∈ before ++ [a] ↔
      ∃ handler, t.requests id' = some ⟨vals, rpc, handler⟩)
    (hr : ∀ T, r.At tenants T id (calls tenants T id (before ++ [a]))) :
    t.Answered tenants (before ++ [a]) := by
  refine ⟨hreceived, fun id' hnone T => ?_, fun id' r' hr' T => ?_⟩
  · rw [ht] at hnone
    by_cases hid : id' = id
    · rw [hid, Function.update_self] at hnone
      cases hnone
    · rw [Function.update_of_ne hid] at hnone
      rw [calls_other (hother id' hid T)]
      exact h.fresh id' hnone T
  · rw [ht] at hr'
    by_cases hid : id' = id
    · subst hid
      rw [Function.update_self, Option.some.injEq] at hr'
      exact hr' ▸ hr T
    · rw [Function.update_of_ne hid] at hr'
      rw [calls_other (hother id' hid T)]
      exact h.answered id' r' hr' T

lemma State.Answered.receive (h : s.Answered tenants before) {vals : List String} {rpc : Rpc}
    (hs : s.step tenants B (.receive id vals rpc) = some t) :
    t.Answered tenants (before ++ [.receive id vals rpc]) := by
  obtain ⟨hfree, hrequests, -⟩ := step_receive hs
  refine h.update hrequests (fun id' hid T e he => receive_event hid he) ?_ fun T => ?_
  · intro id' vals' rpc'
    rw [hrequests, List.mem_append, List.mem_singleton, Action.receive.injEq, h.received]
    by_cases hid : id' = id
    · subst hid
      simp [hfree, eq_comm]
    · simp [hid]
  · rw [calls_snoc, h.fresh id hfree, List.nil_append]
    cases hhandle : handle tenants vals rpc with
    | replied reply =>
      simp only [Action.event, hhandle]
      exact .refused hhandle rfl
    | calling tenant c =>
      simp only [Action.event, hhandle]
      by_cases hT : tenant = T
      · subst hT
        simp only [if_true, Option.toList_some, List.filter_cons, Event.of, decide_true,
          List.filter_nil]
        exact .calling hhandle rfl
      · simp only [if_neg hT, Option.toList_none, List.filter_nil]
        exact .elsewhere hhandle hT

lemma State.Answered.finish (h : s.Answered tenants before) {tenant : String} {out : Returned}
    (hs : s.step tenants B (.finish tenant id out) = some t) :
    t.Answered tenants (before ++ [.finish tenant id out]) := by
  obtain ⟨vals, rpc, c, b, hr, -, hrequests, -⟩ := step_finish hs
  have hhandle : handle tenants vals rpc = .calling tenant c := h.calling hr rfl
  refine h.update hrequests (fun id' hid T e he => finish_event hid he) ?_ fun T => ?_
  · intro id' vals' rpc'
    rw [hrequests, List.mem_append, h.received]
    by_cases hid : id' = id
    · subst hid
      simp [hr]
    · simp [hid]
  · rw [calls_snoc]
    by_cases hT : tenant = T
    · subst hT
      rw [h.calls_calling hr rfl]
      simp only [Action.event, if_true, Option.toList_some, List.filter_cons, Event.of, decide_true,
        List.filter_nil, List.singleton_append]
      exact .returned hhandle rfl
    · rw [(h.answered id _ hr T).uncalled hhandle hT]
      simp only [Action.event, if_neg hT, Option.toList_none, List.filter_nil, List.append_nil]
      exact .elsewhere hhandle hT

lemma State.Answered.step (h : s.Answered tenants before) (hs : s.step tenants B a = some t) :
    t.Answered tenants (before ++ [a]) := by
  cases a with
  | receive id vals rpc => exact h.receive hs
  | finish tenant id out => exact h.finish hs
  | work tenant w =>
    obtain ⟨hrequests, -⟩ := step_work hs
    have hcalls (id : ℕ) (T : String) :
        calls tenants T id (before ++ [.work tenant w]) = calls tenants T id before :=
      calls_other fun e he => work_event he
    refine ⟨fun id vals rpc => ?_, fun id hnone T => ?_, fun id r hr T => ?_⟩
    · rw [hrequests, ← h.received]
      simp
    · rw [hcalls]
      exact h.fresh id (hrequests ▸ hnone) T
    · rw [hcalls]
      exact h.answered id r (hrequests ▸ hr) T

lemma exec_anyStep_cons {α τ : Type*} {M : Machine τ α} {x y : τ} {b : α} {bs : List α}
    (h : M.step x b = some y) : M.exec anyStep x (b :: bs) = M.exec anyStep y bs := by
  simp [Machine.exec, anyStep, h]

lemma answered_run (h : s.Answered tenants before)
    (hs : (server tenants B).exec anyStep s as = some t) : t.Answered tenants (before ++ as) := by
  induction as generalizing s before with
  | nil =>
    cases hs
    rwa [List.append_nil]
  | cons a as ih =>
    obtain ⟨-, u, hu, hs⟩ := Machine.exec_cons hs
    rw [← List.singleton_append, ← List.append_assoc]
    exact ih (h.step hu) hs

/-- The backend of `T` takes part with this event, or stays as it is. -/
def State.Moves (B : String → Machine σ (Event β)) (T : String) (s t : State σ) :
    Option (Event β) → Prop
  | none => t.backends T = s.backends T
  | some e => (B T).step (s.backends T) e = some (t.backends T)

lemma moves_of_update {tenant : String} {e : Event β} {b : σ}
    (hb : (B tenant).step (s.backends tenant) e = some b)
    (hbackends : t.backends = Function.update s.backends tenant b) :
    s.Moves B T t (if tenant = T then some e else none) := by
  by_cases hT : tenant = T
  · subst hT
    rw [if_pos rfl, State.Moves, hbackends, Function.update_self]
    exact hb
  · rw [if_neg hT, State.Moves, hbackends, Function.update_of_ne (Ne.symm hT)]

lemma backend_step (hs : s.step tenants B a = some t) : s.Moves B T t (a.event tenants T) := by
  cases a with
  | receive id vals rpc =>
    obtain ⟨-, -, ⟨r, hr, hbackends⟩ | ⟨tenant, c, b, hc, hb, hbackends⟩⟩ := step_receive hs
    · simp only [Action.event, hr, State.Moves, hbackends]
    · simp only [Action.event, hc]
      exact moves_of_update hb hbackends
  | finish tenant id out =>
    obtain ⟨-, -, -, b, -, hb, -, hbackends⟩ := step_finish hs
    exact moves_of_update hb hbackends
  | work tenant w =>
    obtain ⟨-, b, hb, hbackends⟩ := step_work hs
    exact moves_of_update hb hbackends

lemma backend_run (hs : (server tenants B).exec anyStep s as = some t) :
    (B T).exec anyStep (s.backends T) (as.filterMap (Action.event tenants T)) =
      some (t.backends T) := by
  induction as generalizing s with
  | nil =>
    cases hs
    rfl
  | cons a as ih =>
    obtain ⟨-, u, hu, hs⟩ := Machine.exec_cons hs
    have hstep := backend_step (T := T) hu
    cases he : a.event tenants T with
    | none =>
      rw [he, State.Moves] at hstep
      rw [List.filterMap_cons_none he, ← hstep]
      exact ih hs
    | some e =>
      rw [he, State.Moves] at hstep
      rw [List.filterMap_cons_some he, exec_anyStep_cons hstep]
      exact ih hs

lemma begin_mem_iff {c : Call} :
    .begin id c ∈ as.filterMap (Action.event tenants T) ↔
      Valid T ∧ T ∈ tenants ∧ c.WellFormed ∧ ∃ rpc, .receive id [T] rpc ∈ as ∧ rpc.Asks c := by
  rw [List.mem_filterMap]
  constructor
  · rintro ⟨a, ha, he⟩
    cases a with
    | receive id' vals rpc =>
      simp only [Action.event] at he
      split at he
      · cases he
      · rename_i tenant c' hc
        obtain ⟨hT, heq⟩ := Option.ite_none_right_eq_some.mp he
        subst hT
        cases heq
        obtain ⟨rfl, hvalid, hmem, hasks, hwf⟩ := handle_calling_iff.mp hc
        exact ⟨hvalid, hmem, hwf, rpc, ha, hasks⟩
    | finish tenant id' out => cases (Option.ite_none_right_eq_some.mp he).2
    | work tenant w => cases (Option.ite_none_right_eq_some.mp he).2
  · rintro ⟨hvalid, hmem, hwf, rpc, ha, hasks⟩
    refine ⟨_, ha, ?_⟩
    simp only [Action.event, handle_calling_iff.mpr ⟨rfl, hvalid, hmem, hasks, hwf⟩, if_pos]

lemma View.update {s' t' : State σ} (h : View T s t) {id : ℕ} {r : Served} (hr : r.vals = [T])
    (hs : s'.requests = Function.update s.requests id (some r))
    (ht : t'.requests = Function.update t.requests id (some r))
    (hb : t'.backends T = s'.backends T) : View T s' t' := by
  refine ⟨hb, fun id' => ?_⟩
  rw [hs, ht]
  by_cases hid : id' = id
  · subst hid
    rw [Function.update_self, Function.update_self, Option.filter_some, if_pos (by simpa using hr)]
  · rw [Function.update_of_ne hid, Function.update_of_ne hid]
    exact h.requests id'

lemma View.own_step (h : View T s u) (hans : s.Answered tenants before)
    (hs : s.step tenants B a = some t) (ha : a.own T = true) :
    ∃ v, u.step tenants B a = some v ∧ View T t v := by
  cases a with
  | receive id vals rpc =>
    obtain rfl : vals = [T] := of_decide_eq_true ha
    obtain ⟨hfree, hrequests, ⟨r, hr, hbackends⟩ | ⟨tenant, c, b, hc, hb, hbackends⟩⟩ :=
      step_receive hs
    · have hfree' : u.requests id = none := by rw [h.requests, hfree]; rfl
      refine ⟨u.goto id ⟨[T], rpc, .replied r⟩, ?_, ?_⟩
      · simp [State.step, hfree', hr]
      · refine h.update rfl hrequests (by rw [hr]; rfl) ?_
        rw [hbackends]
        exact h.backends
    · obtain ⟨hT, -⟩ := handle_calling_iff.mp hc
      obtain rfl : T = tenant := by simpa using hT
      have hfree' : u.requests id = none := by rw [h.requests, hfree]; rfl
      refine ⟨{ u.goto id ⟨[T], rpc, .calling T c⟩ with
        backends := Function.update u.backends T b }, ?_, ?_⟩
      · simp only [State.step, hfree', Option.isSome_none, Bool.false_eq_true, if_false, hc]
        exact backend_eq_some.mpr ⟨b, h.backends ▸ hb, rfl⟩
      · refine h.update rfl hrequests (by rw [hc]; rfl) ?_
        simp only [hbackends, Function.update_self]
  | finish tenant id out =>
    obtain rfl : tenant = T := of_decide_eq_true ha
    obtain ⟨vals, rpc, c, b, hr, hb, hrequests, hbackends⟩ := step_finish hs
    obtain ⟨rfl, -⟩ := handle_calling_iff.mp (hans.calling hr rfl)
    have hr' : u.requests id = some ⟨[tenant], rpc, .calling tenant c⟩ := by
      rw [h.requests, hr]
      simp
    refine ⟨{ u.goto id ⟨[tenant], rpc, .replied (c.respond out)⟩ with
      backends := Function.update u.backends tenant b }, ?_, ?_⟩
    · simp only [State.step, hr', if_true]
      exact backend_eq_some.mpr ⟨b, h.backends ▸ hb, rfl⟩
    · refine h.update rfl hrequests rfl ?_
      simp only [hbackends, Function.update_self]
  | work tenant w =>
    obtain rfl : tenant = T := of_decide_eq_true ha
    obtain ⟨hrequests, b, hb, hbackends⟩ := step_work hs
    refine ⟨{ u with backends := Function.update u.backends tenant b }, ?_, ?_, ?_⟩
    · exact backend_eq_some.mpr ⟨b, h.backends ▸ hb, rfl⟩
    · simp only [hbackends, Function.update_self]
    · rw [hrequests]
      exact h.requests

/-- A request of another tenant, before and after, is out of sight. -/
lemma View.unseen {s' : State σ} (h : View T s u) {id : ℕ} {r : Served} (hr : r.vals ≠ [T])
    (hold : ∀ r', s.requests id = some r' → r'.vals ≠ [T])
    (hs : s'.requests = Function.update s.requests id (some r))
    (hb : s'.backends T = s.backends T) : View T s' u := by
  refine ⟨h.backends.trans hb.symm, fun id' => ?_⟩
  rw [hs, h.requests]
  by_cases hid : id' = id
  · subst hid
    rw [Function.update_self, Option.filter_some, if_neg (by simpa using hr)]
    exact Option.filter_eq_none_iff.mpr fun r' hr' => by simpa using hold r' hr'
  · rw [Function.update_of_ne hid]

lemma View.other_step (h : View T s u) (hans : s.Answered tenants before)
    (hs : s.step tenants B a = some t) (ha : a.own T = false) : View T t u := by
  cases a with
  | receive id vals rpc =>
    have hvals : vals ≠ [T] := of_decide_eq_false ha
    obtain ⟨hfree, hrequests, hcase⟩ := step_receive hs
    refine h.unseen hvals (by simp [hfree]) hrequests ?_
    obtain ⟨r, -, hbackends⟩ | ⟨tenant, c, b, hc, -, hbackends⟩ := hcase
    · rw [hbackends]
    · obtain ⟨rfl, -⟩ := handle_calling_iff.mp hc
      rw [hbackends, Function.update_of_ne (fun hT => hvals (by rw [hT]))]
  | finish tenant id out =>
    have hT : tenant ≠ T := of_decide_eq_false ha
    obtain ⟨vals, rpc, c, b, hr, -, hrequests, hbackends⟩ := step_finish hs
    obtain ⟨rfl, -⟩ := handle_calling_iff.mp (hans.calling hr rfl)
    have hvals : [tenant] ≠ [T] := by simpa using hT
    refine h.unseen hvals ?_ hrequests ?_
    · intro r' hr'
      rw [hr, Option.some.injEq] at hr'
      exact hr' ▸ hvals
    · rw [hbackends, Function.update_of_ne hT.symm]
  | work tenant w =>
    have hT : tenant ≠ T := of_decide_eq_false ha
    obtain ⟨hrequests, b, -, hbackends⟩ := step_work hs
    refine ⟨?_, ?_⟩
    · rw [hbackends, Function.update_of_ne hT.symm]
      exact h.backends
    · rw [hrequests]
      exact h.requests

lemma view_run (h : View T s u) (hans : s.Answered tenants before)
    (hs : (server tenants B).exec anyStep s as = some t) :
    ∃ v, (server tenants B).exec anyStep u (as.filter (Action.own T)) = some v ∧ View T t v := by
  induction as generalizing s u before with
  | nil =>
    cases hs
    exact ⟨u, rfl, h⟩
  | cons a as ih =>
    obtain ⟨-, s', hs', hs⟩ := Machine.exec_cons hs
    cases ha : a.own T with
    | true =>
      obtain ⟨u', hu', hview⟩ := h.own_step hans hs' ha
      rw [List.filter_cons_of_pos ha, exec_anyStep_cons (M := server tenants B) hu']
      exact ih hview (hans.step hs') hs
    | false =>
      rw [List.filter_cons_of_neg (by simp [ha])]
      exact ih (h.other_step hans hs' ha) (hans.step hs') hs

/-- **Tenants do not see each other**, whatever requests are handled at a time. What `T` sees
of a run is the run of its own requests alone. Its backend is called for the requests that
name `T` alone and ask for a well-formed call, and for no others. Every request has the reply
of its checks, or was called for once and has the response to the return of that call. -/
theorem tenants_isolated (hs : (server tenants B).exec anyStep (server tenants B).init as = some s)
    (T : String) :
    (∃ t, (server tenants B).exec anyStep (server tenants B).init (as.filter (Action.own T)) = some t ∧
      View T s t) ∧
    (B T).exec anyStep (B T).init (as.filterMap (Action.event tenants T)) = some (s.backends T) ∧
    (∀ id c, .begin id c ∈ as.filterMap (Action.event tenants T) ↔
      Valid T ∧ T ∈ tenants ∧ c.WellFormed ∧ ∃ rpc, .receive id [T] rpc ∈ as ∧ rpc.Asks c) ∧
    s.Answered tenants as := by
  have hinit : (server tenants B).init.Answered tenants ([] : List (Action β)) := by
    refine ⟨fun id vals rpc => ?_, fun id _ T => rfl, fun id r hr => by cases hr⟩
    simp [server]
  have hview : View T (server tenants B).init (server tenants B).init := ⟨rfl, fun _ => rfl⟩
  refine ⟨view_run hview hinit hs, backend_run hs, fun id c => begin_mem_iff, ?_⟩
  exact answered_run hinit hs

/-- A backend that counts the calls that have not returned. -/
def pendingCalls : Machine ℕ (Event Unit) where
  init := 0
  step n
    | .begin _ _ => some (n + 1)
    | .finish _ _ => some (n - 1)
    | .work () => some n

/-- Two requests at a time, and one that names both tenants. -/
def twoTenants : List (Action Unit) :=
  [.receive 0 ["acme"] (.Delete (some ⟨"", ["a"], ""⟩)),
   .receive 1 ["umbrella"] (.Fork (some ⟨"docs", "", "dev"⟩)),
   .receive 2 ["umbrella", "acme"] (.Delete (some ⟨"", ["b"], ""⟩)),
   .finish "acme" 0 ⟨.ok [], none⟩]

theorem tenants_isolated_two : ∃ s t,
    s.backends "acme" = 0 ∧ s.backends "umbrella" = 1 ∧ View "umbrella" s t ∧
    (server ["acme", "umbrella"] fun _ => pendingCalls).exec anyStep
      (server ["acme", "umbrella"] fun _ => pendingCalls).init
      (twoTenants.filter (Action.own "umbrella")) = some t := by
  have hrun : ((server ["acme", "umbrella"] fun _ => pendingCalls).exec anyStep
      (server ["acme", "umbrella"] fun _ => pendingCalls).init twoTenants).any
      (fun s => s.backends "acme" = 0 ∧ s.backends "umbrella" = 1) = true := by decide
  obtain ⟨s, hs, hcounts⟩ := Option.any_eq_true .. |>.mp hrun
  obtain ⟨t, ht, hview⟩ := (tenants_isolated hs "umbrella").1
  obtain ⟨hacme, humbrella⟩ := of_decide_eq_true hcounts
  exact ⟨s, t, hacme, humbrella, hview, ht⟩

end Isolation

end CloudyNeigh.Grpc
