import Thock.Lib.Table
import Thock.Lib.TextBytes

/-!
# The budget guard

A trip closes a project's services and takes the public members out of its buckets' policies; a
restore puts back what the labels on each resource say. Every call to the cloud may fail, and may
fail after it was carried out.

A bucket is kept with the policy the cloud holds under its name. The log lines are left out, and
Go's letter case is taken on faith outside ASCII.
-/

namespace Thock.BudgetGuard

open TextScan

def labelGuard : Text := "budget-guard".toList
def labelIngress : Text := "budget-guard-ingress".toList
def labelPublicPrefix : Text := "budget-guard-public-".toList
def labelRestored : Text := "budget-guard-restored".toList
def valueTripped : Text := "tripped".toList
def valueExempt : Text := "exempt".toList
def ingressAll : Text := "INGRESS_TRAFFIC_ALL".toList
def ingressInternal : Text := "INGRESS_TRAFFIC_INTERNAL_ONLY".toList

/-- Go's `strings.ToLower` and `strings.ToUpper`, which go by letter on ASCII. -/
structure LetterCase where
  toLower : Text → Text
  toUpper : Text → Text
  toLower_ascii : ∀ t, (∀ c ∈ t, Ascii c) → toLower t = t.map Char.toLower
  toUpper_ascii : ∀ t, (∀ c ∈ t, Ascii c) → toUpper t = t.map Char.toUpper

def publicMembers : Table Text Text :=
  [("allUsers".toList, "allusers".toList), ("allAuthenticatedUsers".toList, "allauthenticatedusers".toList)]

def rolePrefix : Text := "roles/storage.".toList

/-- The predefined Storage roles, without their prefix. -/
def roleNames : List Text :=
  ["admin", "objectAdmin", "objectCreator", "objectUser", "objectViewer", "legacyBucketOwner",
    "legacyBucketReader", "legacyBucketWriter", "legacyObjectOwner", "legacyObjectReader"].map String.toList

def storageRoles (text : LetterCase) : Table Text Text :=
  roleNames.map fun role => (text.toLower role, rolePrefix ++ role)

abbrev Labels := Table Text Text

structure Service where
  name : Text
  ingress : Text
  labels : Labels
deriving DecidableEq, Repr

/-- One role's members, under a condition kept as its JSON. -/
structure Binding where
  role : Text
  members : List Text
  condition : Option Text
deriving DecidableEq, Repr

structure Policy where
  version : ℤ
  etag : Text
  bindings : List Binding
deriving DecidableEq, Repr

structure Bucket where
  name : Text
  labels : Labels
  policy : Policy
deriving DecidableEq, Repr

structure Project where
  name : Text
  services : List Service
  buckets : List Bucket
deriving DecidableEq, Repr

/-! ## Calls that may fail -/

/-- How a writing call ended: carried out, refused, or carried out with its answer lost. -/
inductive Reply where
  | done
  | refused (error : Text)
  | lost (error : Text)
deriving DecidableEq, Repr

/-- What the call leaves, and the error it reports. -/
def Reply.apply {α : Type*} : Reply → α → α → α × Option Text
  | .done, _, after => (after, none)
  | .refused error, before, _ => (before, some error)
  | .lost error, _, after => (after, some error)

/-- How the cloud answers during one run of the guard; a reading call fails with the error given. -/
structure Faults where
  listServices : Option Text
  updateService : Text → Reply
  listBuckets : Option Text
  readPolicy : Text → Option Text
  setLabels : Text → Reply
  setPolicy : Text → Reply

structure Guard where
  dryRun : Bool
deriving DecidableEq, Repr

/-- One change, or none in a dry run, with the errors it adds. -/
def act {α : Type*} (guard : Guard) (action resource : Text) (before : α) (change : α × Option Text) :
    α × List Text :=
  if guard.dryRun then (before, [])
  else match change with
    | (after, none) => (after, [])
    | (after, some error) => (after, [action ++ ' ' :: resource ++ ": ".toList ++ error])

/-- Every resource is attempted and the errors are joined. -/
def attemptEach {α : Type*} (attempt : α → α × List Text) (resources : List α) : List α × List Text :=
  (resources.map fun r => (attempt r).1, resources.flatMap fun r => (attempt r).2)

/-- The given labels are set, and those given without a value removed. -/
def setBucketLabels (labels : Labels) (given : List (Text × Option Text)) : Labels :=
  given.foldl (fun labels entry =>
    match entry.2 with
    | some value => labels.put entry.1 value
    | none => labels.erase entry.1) labels

/-! ## Bindings and labels -/

def skipTrip (labels : Labels) (period : Text) : Bool :=
  labels.get labelGuard = some valueExempt || (period ≠ [] && labels.get labelRestored = some period)

def isPublic (member : Text) : Bool := (publicMembers.get member).isSome

/-- The policy without its public members, and the bindings that held them. -/
def withoutPublicMembers (p : Policy) : Policy × List Binding :=
  ({ p with bindings := p.bindings.filterMap fun b =>
      let members := b.members.filter fun member => !isPublic member
      if members.isEmpty then none else some { b with members } },
    p.bindings.flatMap fun b =>
      (b.members.filter isPublic).map fun member => { role := b.role, members := [member], condition := none })

/-- The member joins the unconditional binding for the role. -/
def withMemberIn (role member : Text) : List Binding → List Binding
  | [] => [{ role, members := [member], condition := none }]
  | b :: rest =>
    if b.role ≠ role ∨ b.condition ≠ none then b :: withMemberIn role member rest
    else if member ∈ b.members then b :: rest
    else { b with members := b.members ++ [member] } :: rest

def withMember (p : Policy) (role member : Text) : Policy :=
  { p with bindings := withMemberIn role member p.bindings }

/-- Removed bindings as label values; a role that no label can hold is left out. -/
def encodePublicBindings (text : LetterCase) (removed : List Binding) : List Text :=
  removed.filterMap fun b => do
    let short ← stripPrefix rolePrefix b.role
    let _ ← (storageRoles text).get (text.toLower short)
    some ((publicMembers.get (b.members.headD [])).getD [] ++ '_' :: text.toLower short)

/-- The member and role a label value names. -/
def decodePublicBinding (text : LetterCase) (value : Text) : Option (Text × Text) := do
  let (shortMember, shortRole) ← splitFirst ['_'] value
  let member ← publicMembers.find? fun e => e.2 = shortMember
  let role ← (storageRoles text).get shortRole
  some (member.1, role)

/-! ## A trip -/

/-- The label of a bucket's `n`-th public binding. -/
def labelPublic (n : ℕ) : Text := labelPublicPrefix ++ Nat.toDigits 10 n

def tripService (text : LetterCase) (guard : Guard) (period : Text) (faults : Faults) (s : Service) :
    Service × List Text :=
  if skipTrip s.labels period || s.ingress = ingressInternal then (s, [])
  else
    let restricted : Service :=
      { s with
        ingress := ingressInternal
        labels := (s.labels.put labelGuard valueTripped).put labelIngress (text.toLower s.ingress) }
    act guard "restrict_service".toList s.name s ((faults.updateService s.name).apply s restricted)

def tripBucket (text : LetterCase) (guard : Guard) (period : Text) (faults : Faults) (b : Bucket) :
    Bucket × List Text :=
  if skipTrip b.labels period then (b, [])
  else match faults.readPolicy b.name with
    | some error => (b, ["reading the policy of ".toList ++ b.name ++ ": ".toList ++ error])
    | none =>
      let split := withoutPublicMembers b.policy
      if split.2.isEmpty then (b, [])
      else
        let labels := (labelGuard, some valueTripped) ::
          (encodePublicBindings text split.2).zipIdx.map fun (value, i) => (labelPublic i, some value)
        act guard "restrict_bucket".toList b.name b <|
          match (faults.setLabels b.name).apply b { b with labels := setBucketLabels b.labels labels } with
          | (labelled, some error) => (labelled, some error)
          | (labelled, none) => (faults.setPolicy b.name).apply labelled { labelled with policy := split.1 }

/-- The resources after an attempt at each, or as they were when they cannot be listed. -/
def listed {α : Type*} (failure : Option Text) (kind project : Text) (attempt : α → α × List Text)
    (resources : List α) : List α × List Text :=
  match failure with
  | some error => (resources, ["listing ".toList ++ kind ++ " in ".toList ++ project ++ ": ".toList ++ error])
  | none => attemptEach attempt resources

def trip (text : LetterCase) (guard : Guard) (project : Project) (period : Text) (faults : Faults) :
    Project × List Text :=
  let services := listed faults.listServices "services".toList project.name
    (tripService text guard period faults) project.services
  let buckets := listed faults.listBuckets "buckets".toList project.name
    (tripBucket text guard period faults) project.buckets
  ({ project with services := services.1, buckets := buckets.1 }, services.2 ++ buckets.2)

/-! ## A restore -/

def restoreService (text : LetterCase) (guard : Guard) (period : Text) (faults : Faults) (s : Service) :
    Service × List Text :=
  if s.labels.get labelGuard ≠ some valueTripped then (s, [])
  else
    let ingress := text.toUpper ((s.labels.get labelIngress).getD [])
    let restored : Service :=
      { s with
        ingress := if ingress = [] then ingressAll else ingress
        labels := ((s.labels.put labelRestored period).erase labelGuard).erase labelIngress }
    act guard "restore_service".toList s.name s ((faults.updateService s.name).apply s restored)

/-- One label's binding goes back into the policy, its label is to be removed, and a label that
names no binding is reported. -/
def restoreLabel (text : LetterCase) (bucket : Text) (acc : Policy × List (Text × Option Text) × List Text)
    (entry : Text × Text) : Policy × List (Text × Option Text) × List Text :=
  if labelPublicPrefix.isPrefixOf entry.1 then
    let labels := acc.2.1 ++ [(entry.1, none)]
    match decodePublicBinding text entry.2 with
    | some (member, role) => (withMember acc.1 role member, labels, acc.2.2)
    | none =>
      (acc.1, labels, acc.2.2 ++ [bucket ++ ": label ".toList ++ entry.1 ++ '=' :: entry.2 ++
        " is not a binding restore knows; re-add it by hand".toList])
  else acc

def restoreBucket (text : LetterCase) (guard : Guard) (period : Text) (faults : Faults) (b : Bucket) :
    Bucket × List Text :=
  if b.labels.get labelGuard ≠ some valueTripped then (b, [])
  else match faults.readPolicy b.name with
    | some error => (b, ["reading the policy of ".toList ++ b.name ++ ": ".toList ++ error])
    | none =>
      let read := b.labels.foldl (restoreLabel text b.name)
        (b.policy, [(labelGuard, none), (labelRestored, some period)], [])
      let acted := act guard "restore_bucket".toList b.name b <|
        match (faults.setPolicy b.name).apply b { b with policy := read.1 } with
        | (opened, some error) => (opened, some error)
        | (opened, none) =>
          (faults.setLabels b.name).apply opened { opened with labels := setBucketLabels opened.labels read.2.1 }
      (acted.1, read.2.2 ++ acted.2)

def restore (text : LetterCase) (guard : Guard) (project : Project) (period : Text) (faults : Faults) :
    Project × List Text :=
  let services := listed faults.listServices "services".toList project.name
    (restoreService text guard period faults) project.services
  let buckets := listed faults.listBuckets "buckets".toList project.name
    (restoreBucket text guard period faults) project.buckets
  ({ project with services := services.1, buckets := buckets.1 }, services.2 ++ buckets.2)

end Thock.BudgetGuard
