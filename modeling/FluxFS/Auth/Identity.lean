import FluxFS.Lib.Text
import FluxFS.Types

/-!
# Identity — workload identities and their URIs

`crates/types/src/auth.rs`: a workload certificate names its holder by a URI
`spiffe://fluxfs/<role>/<name>`. The name of a worker is a decimal number, and the numeral
that is read need not be the one that is printed.
-/

namespace FluxFS

open Kit

/-- A tenant; no constructor sets one yet. -/
abbrev TenantId := Nat

/-- `WorkloadRole`. -/
inductive WorkloadRole where
  | «meta»
  | worker
  | clientAdmin
deriving DecidableEq, Repr

namespace WorkloadRole

/-- `WorkloadRole::as_str`. -/
def asStr : WorkloadRole → String
  | .meta => "meta"
  | .worker => "worker"
  | .clientAdmin => "client-admin"

/-- `parse_role`. -/
def parseRole (s : String) : Option WorkloadRole :=
  if s = "meta" then some .meta
  else if s = "worker" then some .worker
  else if s = "client-admin" then some .clientAdmin
  else none

end WorkloadRole

/-- `WorkloadIdentity`. -/
structure WorkloadIdentity where
  role : WorkloadRole
  name : String
  workerTargetId : Option WorkerTargetId
  tenantId : Option TenantId
deriving DecidableEq, Repr

namespace WorkloadIdentity

/-- `WorkloadIdentity::spiffe_uri`. -/
def spiffeUri (identity : WorkloadIdentity) : String :=
  s!"spiffe://fluxfs/{identity.role.asStr}/{identity.name}"

/-- `WorkloadIdentity::meta`. -/
def «meta» (group : String) : WorkloadIdentity := ⟨.meta, group, none, none⟩

/-- `WorkloadIdentity::worker`: its name is the decimal id. -/
def worker (targetId : WorkerTargetId) : WorkloadIdentity :=
  ⟨.worker, toString targetId, some targetId, none⟩

/-- `WorkloadIdentity::client_admin`. -/
def clientAdmin (name : String) : WorkloadIdentity := ⟨.clientAdmin, name, none, none⟩

/-- The `match` on the role in `from_spiffe_uri`. -/
def ofRole (name : List Char) : WorkloadRole → Option WorkloadIdentity
  | .meta => some (.meta (String.ofList name))
  | .clientAdmin => some (.clientAdmin (String.ofList name))
  | .worker => (parseUint u64Max 10 name).map .worker

/-- `WorkloadIdentity::from_spiffe_uri`. -/
def fromSpiffeUri (uri : String) : Option WorkloadIdentity := do
  let rest ← "spiffe://fluxfs/".toList.isPrefixOf? uri.toList
  let (roleStr, name) ← splitOnce '/' rest
  if name.isEmpty ∨ '/' ∈ name then none
  else
    let role ← WorkloadRole.parseRole (String.ofList roleStr)
    ofRole name role

end WorkloadIdentity

/-! ## What is read -/

section
variable {uri name : String} {role : WorkloadRole} {identity : WorkloadIdentity}

theorem WorkloadRole.parseRole_eq_some {s : String} : parseRole s = some role ↔ s = role.asStr := by
  rw [parseRole]
  constructor
  · intro h
    split_ifs at h with hmeta hworker hclient
    · cases h
      exact hmeta
    · cases h
      exact hworker
    · cases h
      exact hclient
  · rintro rfl
    cases role with
    | «meta» => rfl
    | worker => rfl
    | clientAdmin => rfl

theorem WorkloadRole.slash_not_mem_asStr (role : WorkloadRole) : '/' ∉ role.asStr.toList := by
  cases role with
  | «meta» => decide
  | worker => decide
  | clientAdmin => decide

theorem WorkloadIdentity.toList_spiffeUri (identity : WorkloadIdentity) :
    identity.spiffeUri.toList = "spiffe://fluxfs/".toList ++
      (identity.role.asStr.toList ++ '/' :: identity.name.toList) := by
  have hslash : "/".toList = ['/'] := by simp
  have hparts : identity.spiffeUri =
      "spiffe://fluxfs/" ++ identity.role.asStr ++ "/" ++ identity.name := rfl
  rw [hparts, String.toList_append, String.toList_append, String.toList_append, hslash]
  simp only [List.append_assoc, List.singleton_append]

/-- A URI is read exactly if it is a role and a name without a slash. -/
theorem WorkloadIdentity.fromSpiffeUri_eq_some :
    fromSpiffeUri uri = some identity ↔ ∃ (role : WorkloadRole) (name : List Char),
      uri.toList = "spiffe://fluxfs/".toList ++ (role.asStr.toList ++ '/' :: name) ∧
        name ≠ [] ∧ '/' ∉ name ∧ ofRole name role = some identity := by
  rw [fromSpiffeUri]
  constructor
  · intro h
    obtain ⟨rest, hrest, h⟩ := Option.bind_eq_some_iff.mp h
    obtain ⟨⟨roleStr, name⟩, hsplit, h⟩ := Option.bind_eq_some_iff.mp h
    dsimp only at h
    split_ifs at h with hname
    obtain ⟨role, hrole, h⟩ := Option.bind_eq_some_iff.mp h
    have hroleStr : roleStr = role.asStr.toList := by
      rw [← WorkloadRole.parseRole_eq_some.mp hrole, String.toList_ofList]
    obtain ⟨hempty, hslash⟩ := not_or.mp hname
    refine ⟨role, name, ?_, by simpa using hempty, hslash, h⟩
    rw [← hroleStr, ← (splitOnce_eq_some.mp hsplit).1]
    exact (List.isPrefixOf?_eq_some_iff_append_eq.mp hrest).symm
  · rintro ⟨role, name, huri, hempty, hslash, h⟩
    have hsplit := splitOnce_eq_some.mpr
      ⟨(rfl : role.asStr.toList ++ '/' :: name = _), role.slash_not_mem_asStr⟩
    refine Option.bind_eq_some_iff.mpr ⟨_, List.isPrefixOf?_eq_some_iff_append_eq.mpr huri.symm, ?_⟩
    refine Option.bind_eq_some_iff.mpr ⟨_, hsplit, ?_⟩
    dsimp only
    rw [if_neg (not_or.mpr ⟨by simpa using hempty, hslash⟩)]
    refine Option.bind_eq_some_iff.mpr ⟨role, ?_, h⟩
    rw [String.ofList_toList]
    exact WorkloadRole.parseRole_eq_some.mpr rfl

end

/-! ## One URI for each identity -/

/-- If the URI is a worker's, its number is written without a sign and without zeros in
front. -/
def CanonicalUri (uri : String) : Prop :=
  ∀ name : String, uri = "spiffe://fluxfs/worker/" ++ name → Canonical name.toList

theorem toList_workerUri (name : String) :
    ("spiffe://fluxfs/worker/" ++ name).toList =
      "spiffe://fluxfs/".toList ++ (WorkloadRole.worker.asStr.toList ++ '/' :: name.toList) := by
  have hstart : "spiffe://fluxfs/worker/" =
      "spiffe://fluxfs/" ++ WorkloadRole.worker.asStr ++ "/" := by decide
  have hslash : "/".toList = ['/'] := by simp
  rw [hstart]
  simp only [String.toList_append, hslash, List.append_assoc, List.singleton_append]

theorem spiffeUri_of_canonical {uri : String} {identity : WorkloadIdentity}
    (hcanonical : CanonicalUri uri) (h : WorkloadIdentity.fromSpiffeUri uri = some identity) :
    identity.spiffeUri = uri := by
  obtain ⟨role, name, huri, -, -, hrole⟩ := WorkloadIdentity.fromSpiffeUri_eq_some.mp h
  apply String.toList_inj.mp
  rw [huri, WorkloadIdentity.toList_spiffeUri]
  cases role with
  | «meta» =>
    cases hrole
    simp [WorkloadIdentity.meta]
  | clientAdmin =>
    cases hrole
    simp [WorkloadIdentity.clientAdmin]
  | worker =>
    obtain ⟨n, hn, rfl⟩ := Option.map_eq_some_iff.mp hrole
    have hname : uri = "spiffe://fluxfs/worker/" ++ String.ofList name := by
      apply String.toList_inj.mp
      rw [huri, toList_workerUri, @String.toList_ofList name]
    have hdigits := toDigits_of_parseUint (by simpa using hcanonical _ hname) hn
    simp [WorkloadIdentity.worker, hdigits]

/-- The printed name of a worker is canonical, so a URI that is printed again is. -/
theorem canonical_of_spiffeUri {uri : String} {identity : WorkloadIdentity}
    (h : WorkloadIdentity.fromSpiffeUri uri = some identity) (hsame : identity.spiffeUri = uri) :
    CanonicalUri uri := by
  intro workerName hworker
  obtain ⟨role, name, huri, -, -, hrole⟩ := WorkloadIdentity.fromSpiffeUri_eq_some.mp h
  rw [hworker, toList_workerUri, List.append_cancel_left_eq] at huri
  obtain ⟨hasStr, rfl⟩ :=
    append_sep_inj WorkloadRole.worker.slash_not_mem_asStr role.slash_not_mem_asStr huri
  obtain rfl : WorkloadRole.worker = role := by
    apply Option.some.inj
    rw [← WorkloadRole.parseRole_eq_some.mpr rfl, String.toList_inj.mp hasStr]
    exact WorkloadRole.parseRole_eq_some.mpr rfl
  obtain ⟨n, -, rfl⟩ := Option.map_eq_some_iff.mp hrole
  -- the name that is printed is the name that was read
  have hprinted := congrArg String.toList (hsame.trans hworker)
  rw [WorkloadIdentity.toList_spiffeUri, toList_workerUri, List.append_cancel_left_eq] at hprinted
  have hname := (append_sep_inj WorkloadRole.worker.slash_not_mem_asStr
    WorkloadRole.worker.slash_not_mem_asStr hprinted).2
  rw [← hname, WorkloadIdentity.worker, Nat.toString_eq_ofList_toDigits, String.toList_ofList]
  exact canonical_toDigits n

/-- A URI that is accepted is the URI of the identity it gives exactly if a worker number in
it is canonical; and every identity with a proper name is read back from its own URI. -/
theorem spiffeUri_canonical (uri name : String) (identity : WorkloadIdentity)
    (targetId : WorkerTargetId) :
    (WorkloadIdentity.fromSpiffeUri uri = some identity →
      (identity.spiffeUri = uri ↔ CanonicalUri uri)) ∧
    (name ≠ "" → '/' ∉ name.toList →
      WorkloadIdentity.fromSpiffeUri (WorkloadIdentity.meta name).spiffeUri = some (.meta name) ∧
      WorkloadIdentity.fromSpiffeUri (WorkloadIdentity.clientAdmin name).spiffeUri =
        some (.clientAdmin name)) ∧
    (targetId ≤ u64Max →
      WorkloadIdentity.fromSpiffeUri (WorkloadIdentity.worker targetId).spiffeUri =
        some (.worker targetId)) := by
  refine ⟨fun h => ⟨canonical_of_spiffeUri h, fun hcanonical => spiffeUri_of_canonical hcanonical h⟩,
    fun hne hslash => ⟨?_, ?_⟩, fun hid => ?_⟩
  · refine WorkloadIdentity.fromSpiffeUri_eq_some.mpr ⟨.meta, name.toList,
      WorkloadIdentity.toList_spiffeUri _, by simpa using hne, hslash, ?_⟩
    rw [WorkloadIdentity.ofRole, String.ofList_toList]
  · refine WorkloadIdentity.fromSpiffeUri_eq_some.mpr ⟨.clientAdmin, name.toList,
      WorkloadIdentity.toList_spiffeUri _, by simpa using hne, hslash, ?_⟩
    rw [WorkloadIdentity.ofRole, String.ofList_toList]
  · have hname : (WorkloadIdentity.worker targetId).name.toList = Nat.toDigits 10 targetId := by
      rw [WorkloadIdentity.worker, Nat.toString_eq_ofList_toDigits, String.toList_ofList]
    refine WorkloadIdentity.fromSpiffeUri_eq_some.mpr ⟨.worker, Nat.toDigits 10 targetId, ?_,
      Nat.toDigits_ne_nil, fun hslash => ?_, ?_⟩
    · rw [WorkloadIdentity.toList_spiffeUri, hname]
      rfl
    · exact not_mem_toDigits (by decide) hslash
    · rw [WorkloadIdentity.ofRole, parseUint_toDigits hid]
      rfl

theorem spiffeUri_canonical_worker_seven :
    (WorkloadIdentity.worker 7).spiffeUri = "spiffe://fluxfs/worker/7" ∧
    WorkloadIdentity.fromSpiffeUri (WorkloadIdentity.meta "g0").spiffeUri = some (.meta "g0") ∧
    WorkloadIdentity.fromSpiffeUri (WorkloadIdentity.worker 7).spiffeUri = some (.worker 7) := by
  have hread : WorkloadIdentity.fromSpiffeUri "spiffe://fluxfs/worker/7" = some (.worker 7) := by
    decide +kernel
  have hcanonical : CanonicalUri "spiffe://fluxfs/worker/7" := by
    intro name h
    have hsplit : "spiffe://fluxfs/worker/7" = "spiffe://fluxfs/worker/" ++ "7" := by decide +kernel
    rw [← (String.append_right_inj _).mp (hsplit.symm.trans h)]
    decide
  obtain ⟨huri, hname, hworker⟩ := spiffeUri_canonical "spiffe://fluxfs/worker/7" "g0" (.worker 7) 7
  exact ⟨(huri hread).mpr hcanonical, (hname (by decide) (by decide)).1, hworker (by decide)⟩

/-- A sign and zeros in front are read away, so one worker has many URIs. -/
theorem worker_seven_uris :
    WorkloadIdentity.fromSpiffeUri "spiffe://fluxfs/worker/+007" = some (.worker 7) ∧
    WorkloadIdentity.fromSpiffeUri "spiffe://fluxfs/worker/7" = some (.worker 7) ∧
    (WorkloadIdentity.worker 7).spiffeUri ≠ "spiffe://fluxfs/worker/+007" := by
  decide +kernel

end FluxFS
