import Mathlib.Data.List.Nodup
import Thock.Lib.TextScan
import Thock.Lib.Transition

/-!
# Pairing agents with the desk

The service that lets other machines' agents call the desk: pairing codes and the tokens they are
exchanged for. The paired clients and the code that may be typed are in memory, where a request is
checked, and in two files, which are written in the background. A stop drops the request loop where
it is; a start reads the files back over what is in memory.

Digests are a parameter. A client's dates, harness and address, which nothing here reads, are left
out, and a written file reads back as what was written.
-/

namespace Thock.Desk.BridgePairing

open TextScan Transition

/-- How long a pairing code works, in seconds. -/
def pairingCodeSeconds : ℕ := 10 * 60

structure PairedClient where
  name : Text
  tokenSha256 : Text
deriving DecidableEq, Repr

/-- The code that may be typed; `issue` tells the codes apart that were issued. -/
structure PendingCode where
  codeSha256 : Text
  expiresAt : ℕ
  issue : ℕ
deriving DecidableEq, Repr

def PendingCode.isExpired (pending : PendingCode) (now : ℕ) : Bool := pending.expiresAt ≤ now

def PendingCode.matches (sha256Hex : Text → Text) (pending : PendingCode) (code : Text) : Bool :=
  pending.codeSha256 = sha256Hex (trim code)

/-- Whether a trimmed name is a plain host name. -/
def plainHostName (name : Text) : Bool :=
  !name.isEmpty && name.length ≤ 64 && name.head? != some '.' &&
    name.all fun c => c.isAlphanum || c = '-' || c = '_' || c = '.'

/-- How far a start is. -/
inductive Start
  | waiting
  | clients (clients : List PairedClient)
  | loaded (clients : List PairedClient) (pending : Option PendingCode)
deriving DecidableEq, Repr

inductive Server
  | off
  | starting (start : Start)
  | serving
deriving DecidableEq, Repr

/-- The list of clients a start has read. -/
def Server.loadedClients : Server → Option (List PairedClient)
  | .starting (.clients clients) => some clients
  | .starting (.loaded clients _) => some clients
  | _ => none

/-- The code a start has read. -/
def Server.loadedPending : Server → Option PendingCode
  | .starting (.loaded _ pending) => pending
  | _ => none

/-- How far a pair request is with what follows the token: the write of the client list, which is
the last of `left` writes to come, and the removal of the code's file. -/
inductive Stage
  | saving (left : ℕ)
  | saved (written : Bool)
  | removing
deriving DecidableEq, Repr

/-- A pair request that minted a token; `dropped` once its name was disconnected. -/
structure Flight where
  client : PairedClient
  stage : Stage
  dropped : Bool := false
deriving DecidableEq, Repr

/-- A token minted for a code, with the codes issued by then. -/
structure Mint where
  pending : PendingCode
  time : ℕ
  issued : ℕ
deriving DecidableEq, Repr

structure World where
  now : ℕ := 0
  server : Server := .off
  clients : List PairedClient
  pending : Option PendingCode := none
  clientsFile : List PairedClient
  pendingFile : Option PendingCode := none
  /-- The writes of the client list that wait, and the list the running one writes. -/
  queued : ℕ := 0
  running : Option (List PairedClient) := none
  pendingWrites : List PendingCode := []
  /-- Removals of the code's file whose request was cut off. -/
  stragglers : ℕ := 0
  flight : Option Flight := none
  issued : ℕ := 0
  mints : List Mint := []
  /-- Every client there was, the digests of the tokens that must no longer work, and the clients
  whose pairing was answered and neither undone nor repeated. -/
  known : List PairedClient
  revoked : List Text := []
  kept : List PairedClient := []
deriving DecidableEq

inductive Action
  | tick
  | stop
  | start
  | startFails
  | readClients
  | readPending
  | install (bound : Bool)
  | beginPairing (code : Text)
  | landPending (i : ℕ) (written : Bool)
  | disconnect (name : Text)
  | touch (name : Text)
  | pair (name code token : Text)
  | render
  | landClients (written : Bool)
  | remove
  | answer (removed : Bool)
  | straggle (removed : Bool)
deriving DecidableEq, Repr

namespace World

/-- The desk takes a token whose digest is on its list. -/
def Accepts (w : World) (tokenSha256 : Text) : Prop := ∃ client ∈ w.clients, client.tokenSha256 = tokenSha256

/-- The digests of the tokens a name ever had. -/
def digestsOf (w : World) (name : Text) : List Text :=
  (w.known.filter fun client => client.name = name).map PairedClient.tokenSha256

/-- Queue a write of the client list. -/
def persistClients (w : World) : World := { w with queued := w.queued + 1 }

/-- The request loop goes, and the request it was in. A removal under way may still land. -/
def stop (w : World) : World :=
  { w with
    server := .off
    stragglers := if (w.flight.map Flight.stage) = some .removing then w.stragglers + 1 else w.stragglers
    flight := none }

def disconnect (w : World) (name : Text) : World :=
  persistClients { w with
    clients := w.clients.filter fun client => client.name ≠ name
    flight := w.flight.map fun flight => { flight with dropped := flight.dropped || flight.client.name = name }
    revoked := w.revoked ++ w.digestsOf name
    kept := w.kept.filter fun client => client.name ≠ name }

/-- The code is spent, and a client of that name is on the list with a new token. -/
def mint (w : World) (pending : PendingCode) (client : PairedClient) : World :=
  persistClients { w with
    pending := none
    clients := (w.clients.filter fun other => other.name ≠ client.name) ++ [client]
    flight := some ⟨client, .saving ((if w.running.isSome then 1 else 0) + w.queued + 1), false⟩
    mints := w.mints ++ [⟨pending, w.now, w.issued⟩]
    known := w.known ++ [client]
    kept := w.kept.filter fun other => other.name ≠ client.name }

/-- A pair request up to the token. The generator never gives a token twice. -/
def pair (sha256Hex : Text → Text) (w : World) (name code token : Text) : Option World :=
  let name := trim name
  if !plainHostName name then some w
  else match w.pending with
    | none => some w
    | some pending =>
      if !pending.isExpired w.now && pending.matches sha256Hex code then
        if sha256Hex token ∈ w.known.map PairedClient.tokenSha256 then none
        else some (w.mint pending ⟨name, sha256Hex token⟩)
      else if pending.isExpired w.now then some { w with pending := none }
      else some w

/-- The running write of the client list is through. -/
def landClients (w : World) (list : List PairedClient) (written : Bool) : World :=
  { w with
    clientsFile := if written then list else w.clientsFile
    running := none
    flight := w.flight.map fun flight =>
      match flight.stage with
      | .saving 1 => { flight with stage := .saved written }
      | .saving left => { flight with stage := .saving (left - 1) }
      | _ => flight }

/-- A pairing is answered with success; the tokens its name had before must no longer work. -/
def answer (w : World) (flight : Flight) (removed : Bool) : World :=
  { w with
    pendingFile := if removed then none else w.pendingFile
    flight := none
    revoked := w.revoked ++ (w.digestsOf flight.client.name).filter fun digest => digest ≠ flight.client.tokenSha256
    kept := if flight.dropped then w.kept else w.kept ++ [flight.client] }

def step (sha256Hex : Text → Text) (w : World) : Action → Option World
  | .tick => some { w with now := w.now + 1 }
  | .stop => some w.stop
  | .start => if w.server = .off then some { w with server := .starting .waiting } else none
  | .startFails =>
    match w.server with
    | .starting _ => some { w with server := .off }
    | _ => none
  | .readClients =>
    if w.server = .starting .waiting then some { w with server := .starting (.clients w.clientsFile) } else none
  | .readPending =>
    match w.server with
    | .starting (.clients clients) =>
      some { w with server := .starting (.loaded clients (w.pendingFile.filter fun p => !p.isExpired w.now)) }
    | _ => none
  | .install bound =>
    match w.server with
    | .starting (.loaded clients pending) =>
      some { w with clients, pending, server := if bound then .serving else .off }
    | _ => none
  | .beginPairing code =>
    if w.server = .serving then
      let pending : PendingCode := ⟨sha256Hex code, w.now + pairingCodeSeconds, w.issued⟩
      some { w with pending := some pending, issued := w.issued + 1, pendingWrites := w.pendingWrites ++ [pending] }
    else none
  | .landPending i written =>
    (w.pendingWrites[i]?).map fun pending =>
      { w with
        pendingFile := if written then some pending else w.pendingFile
        pendingWrites := w.pendingWrites.eraseIdx i }
  | .disconnect name => some (w.disconnect name)
  | .touch name =>
    if w.server = .serving ∧ w.flight = none ∧ w.clients.any (fun client => client.name = name) then
      some w.persistClients
    else none
  | .pair name code token =>
    if w.server = .serving ∧ w.flight = none then w.pair sha256Hex name code token else none
  | .render =>
    if w.running = none ∧ 0 < w.queued then some { w with running := some w.clients, queued := w.queued - 1 } else none
  | .landClients written => w.running.map fun list => w.landClients list written
  | .remove =>
    match w.flight with
    | some ⟨client, .saved true, dropped⟩ => some { w with flight := some ⟨client, .removing, dropped⟩ }
    | some ⟨_, .saved false, _⟩ => some { w with flight := none }
    | _ => none
  | .answer removed =>
    match w.flight with
    | some ⟨client, .removing, dropped⟩ => some (w.answer ⟨client, .removing, dropped⟩ removed)
    | _ => none
  | .straggle removed =>
    if 0 < w.stragglers then
      some { w with stragglers := w.stragglers - 1, pendingFile := if removed then none else w.pendingFile }
    else none

/-- The steps as a relation. -/
def Next (sha256Hex : Text → Text) (w : World) (action : Action) (t : World) : Prop := w.step sha256Hex action = some t

/-- The service is not serving, nothing is under way, and the files are as memory is. -/
structure Initial (w : World) : Prop where
  server : w.server = .off
  quiet : w.queued = 0 ∧ w.running = none ∧ w.pendingWrites = [] ∧ w.stragglers = 0 ∧ w.flight = none
  clients : w.clientsFile = w.clients
  pending : w.pendingFile = w.pending
  newest : ∀ pending ∈ w.pending, pending.issue + 1 = w.issued
  ghosts : w.known = w.clients ∧ w.kept = w.clients ∧ w.revoked = [] ∧ w.mints = []
  /-- No two clients have one token. -/
  distinct : (w.clients.map PairedClient.tokenSha256).Nodup

/-- A code mints one token at most, while it is the newest and has not expired. -/
def CodesSpentOnce (w : World) : Prop :=
  (w.mints.map fun mint => mint.pending.issue).Nodup ∧
    ∀ mint ∈ w.mints, mint.pending.issue + 1 = mint.issued ∧ mint.time < mint.pending.expiresAt

/-- No token works that was disconnected or replaced. -/
def RevokedStayOut (w : World) : Prop := ∀ digest ∈ w.revoked, ¬ w.Accepts digest

/-- Every client whose pairing stands is on the list. -/
def KeptStayIn (w : World) : Prop := ∀ client ∈ w.kept, client ∈ w.clients

/-- A start does not overtake what changed since the files were written: the list it reads has no
client that memory has dropped, none is dropped before the list is put in place, and the code it
reads is the one memory waits for. -/
def InStep (w : World) : Action → Prop
  | .readClients => ∀ client ∈ w.clientsFile, client ∈ w.clients
  | .disconnect _ => w.server.loadedClients = none
  | .readPending => ∀ pending ∈ w.pendingFile, pending.isExpired w.now = false → w.pending = some pending
  | _ => True

/-! ## What was answered stays -/

/-- A client that is on the list, in its file, and in whatever is about to become either. -/
structure Everywhere (w : World) (client : PairedClient) : Prop where
  memory : client ∈ w.clients
  file : client ∈ w.clientsFile
  running : ∀ list, w.running = some list → client ∈ list
  loaded : ∀ list, w.server.loadedClients = some list → client ∈ list

/-- What holds of the pair request under way. -/
structure Flies (w : World) (flight : Flight) : Prop where
  serving : w.server = .serving
  memory : flight.dropped = false → flight.client ∈ w.clients
  /-- The first write to come is the request's own only once it has its list. -/
  own : flight.dropped = false → flight.stage = .saving 1 → ∀ list, w.running = some list → flight.client ∈ list
  saved : flight.dropped = false → flight.stage = .saved true ∨ flight.stage = .removing →
    flight.client ∈ w.clientsFile ∧ ∀ list, w.running = some list → flight.client ∈ list

/-- What every run keeps of the clients whose pairing was answered. -/
structure Keeps (w : World) : Prop where
  kept : ∀ client ∈ w.kept, w.Everywhere client
  flies : ∀ flight, w.flight = some flight → w.Flies flight

variable {sha256Hex : Text → Text} {w t : World}

theorem Keeps.of_initial (h : w.Initial) : w.Keeps := by
  refine ⟨fun client hclient => ?_, fun flight hflight => ?_⟩
  · rw [h.ghosts.2.1] at hclient
    refine ⟨hclient, h.clients ▸ hclient, fun list hlist => ?_, fun list hlist => ?_⟩
    · rw [h.quiet.2.1] at hlist
      cases hlist
    · rw [h.server] at hlist
      cases hlist
  · rw [h.quiet.2.2.2.2] at hflight
    cases hflight

theorem Everywhere.frame {client : PairedClient} (h : w.Everywhere client) (hclients : t.clients = w.clients)
    (hfile : t.clientsFile = w.clientsFile) (hrunning : t.running = w.running) (hserver : t.server = w.server) :
    t.Everywhere client := by
  refine ⟨?_, ?_, ?_, ?_⟩
  · exact hclients ▸ h.memory
  · exact hfile ▸ h.file
  · exact hrunning ▸ h.running
  · exact hserver ▸ h.loaded

/-- A step of the desk that touches neither the list, its file and writes, nor the request. -/
theorem Keeps.frame (h : w.Keeps) (hclients : t.clients = w.clients) (hfile : t.clientsFile = w.clientsFile)
    (hrunning : t.running = w.running) (hkept : t.kept = w.kept) (hserver : t.server = w.server)
    (hflight : t.flight = w.flight) : t.Keeps := by
  refine ⟨fun client hclient => ?_, fun flight ht => ?_⟩
  · exact (h.kept client (hkept ▸ hclient)).frame hclients hfile hrunning hserver
  · have hold := h.flies flight (hflight ▸ ht)
    exact ⟨hserver ▸ hold.serving, hclients ▸ hold.memory, hrunning ▸ hold.own, hfile ▸ hrunning ▸ hold.saved⟩

/-- The request loop goes. -/
theorem Keeps.stop (h : w.Keeps) : w.stop.Keeps := by
  refine ⟨fun client hclient => ?_, fun flight ht => nomatch ht⟩
  have hold := h.kept client hclient
  exact ⟨hold.memory, hold.file, hold.running, fun list hlist => nomatch hlist⟩

/-- While the service is not serving no request is under way. -/
theorem Keeps.grounded (h : w.Keeps) (hserver : w.server ≠ .serving) : w.flight = none := by
  cases hflight : w.flight with
  | none => rfl
  | some flight => exact absurd (h.flies flight hflight).serving hserver

/-- A start moves on; a list it has read is the file's, or the one it had read. -/
theorem Keeps.starts (h : w.Keeps) (hserver : w.server ≠ .serving) {server : Server}
    (hloaded : ∀ list, server.loadedClients = some list →
      list = w.clientsFile ∨ w.server.loadedClients = some list) : Keeps { w with server } := by
  have hground : w.flight = none := h.grounded hserver
  refine ⟨fun client hclient => ?_, fun flight ht => ?_⟩
  · have hold := h.kept client hclient
    refine ⟨hold.memory, hold.file, hold.running, fun list hlist => ?_⟩
    rcases hloaded list hlist with rfl | hread
    · exact hold.file
    · exact hold.loaded list hread
  · simp [hground] at ht

theorem Keeps.install (h : w.Keeps) {clients : List PairedClient} {pending : Option PendingCode} {server : Server}
    (hserver : w.server = .starting (.loaded clients pending)) (hnone : server.loadedClients = none) :
    Keeps { w with clients, pending, server } := by
  have hground : w.flight = none := h.grounded (by simp [hserver])
  refine ⟨fun client hclient => ?_, fun flight ht => ?_⟩
  · have hold := h.kept client hclient
    refine ⟨hold.loaded clients (by simp [hserver, Server.loadedClients]), hold.file, hold.running, fun list hlist => ?_⟩
    simp [hnone] at hlist
  · simp [hground] at ht

theorem Keeps.disconnect (h : w.Keeps) (name : Text) : (w.disconnect name).Keeps := by
  refine ⟨fun client hclient => ?_, fun flight ht => ?_⟩
  · obtain ⟨hkept, hname⟩ := List.mem_filter.mp hclient
    have hold := h.kept client hkept
    exact ⟨List.mem_filter.mpr ⟨hold.memory, hname⟩, hold.file, hold.running, hold.loaded⟩
  · obtain ⟨before, hbefore, rfl⟩ := Option.map_eq_some_iff.mp ht
    have hold := h.flies before hbefore
    have hdropped : ∀ {P : Prop}, ((before.dropped || decide (before.client.name = name)) = false → P) ↔
        (before.dropped = false → before.client.name ≠ name → P) := by
      intro P
      simp
    refine ⟨hold.serving, hdropped.mpr fun hkept hname => ?_, hdropped.mpr fun hkept _ => hold.own hkept,
      hdropped.mpr fun hkept _ => hold.saved hkept⟩
    exact List.mem_filter.mpr ⟨hold.memory hkept, by simpa using hname⟩

theorem Keeps.mint (h : w.Keeps) (hserver : w.server = .serving) (pending : PendingCode) (client : PairedClient) :
    (w.mint pending client).Keeps := by
  refine ⟨fun other hother => ?_, fun flight ht => ?_⟩
  · obtain ⟨hkept, hname⟩ := List.mem_filter.mp hother
    have hold := h.kept other hkept
    refine ⟨List.mem_append_left _ (List.mem_filter.mpr ⟨hold.memory, hname⟩), hold.file, hold.running, hold.loaded⟩
  · cases ht
    refine ⟨hserver, fun _ => List.mem_append_right _ List.mem_cons_self, fun _ hstage list hlist => ?_,
      fun _ hstage => ?_⟩
    · have hrunning : w.running = some list := hlist
      simp [hrunning] at hstage
    · rcases hstage with hstage | hstage
      · cases hstage
      · cases hstage

/-- A write takes the list as it is. -/
theorem Keeps.render (h : w.Keeps) (queued : ℕ) : Keeps { w with running := some w.clients, queued } := by
  refine ⟨fun client hclient => ?_, fun flight ht => ?_⟩
  · have hold := h.kept client hclient
    exact ⟨hold.memory, hold.file, fun list hlist => Option.some.inj hlist ▸ hold.memory, hold.loaded⟩
  · have hold := h.flies flight ht
    exact ⟨hold.serving, hold.memory, fun hkept _ list hlist => Option.some.inj hlist ▸ hold.memory hkept,
      fun hkept hstage => ⟨(hold.saved hkept hstage).1, fun list hlist => Option.some.inj hlist ▸ hold.memory hkept⟩⟩

theorem Keeps.landClients (h : w.Keeps) {list : List PairedClient} (hrunning : w.running = some list)
    (written : Bool) : (w.landClients list written).Keeps := by
  refine ⟨fun client hclient => ?_, fun flight ht => ?_⟩
  · have hold := h.kept client hclient
    refine ⟨hold.memory, ?_, fun _ hlist => (nomatch hlist), hold.loaded⟩
    cases written with
    | true => exact hold.running list hrunning
    | false => exact hold.file
  · obtain ⟨before, hbefore, rfl⟩ := Option.map_eq_some_iff.mp ht
    have hold := h.flies before hbefore
    have hfile : before.dropped = false → before.stage = .saved true ∨ before.stage = .removing →
        before.client ∈ (w.landClients list written).clientsFile := by
      intro hkept hstage
      cases written with
      | true => exact (hold.saved hkept hstage).2 list hrunning
      | false => exact (hold.saved hkept hstage).1
    split
    · next hstage =>
      refine ⟨hold.serving, hold.memory, fun _ hsaving => (nomatch hsaving), fun hkept hsaved => ?_⟩
      rcases hsaved with hsaved | hsaved
      · cases hsaved
        exact ⟨hold.own hkept hstage list hrunning, fun _ hlist => (nomatch hlist)⟩
      · cases hsaved
    · refine ⟨hold.serving, hold.memory, fun _ _ _ hlist => (nomatch hlist), fun _ hsaved => ?_⟩
      rcases hsaved with hsaved | hsaved
      · cases hsaved
      · cases hsaved
    · exact ⟨hold.serving, hold.memory, fun _ _ _ hlist => (nomatch hlist),
        fun hkept hsaved => ⟨hfile hkept hsaved, fun _ hlist => (nomatch hlist)⟩⟩

theorem Keeps.remove (h : w.Keeps) {client : PairedClient} {dropped : Bool}
    (hflight : w.flight = some ⟨client, .saved true, dropped⟩) :
    Keeps { w with flight := some ⟨client, .removing, dropped⟩ } := by
  refine ⟨fun other hother => (h.kept other hother).frame rfl rfl rfl rfl, fun flight ht => ?_⟩
  have hold := h.flies _ hflight
  cases ht
  exact ⟨hold.serving, hold.memory, fun _ hstage => (nomatch hstage), fun hkept _ => hold.saved hkept (.inl rfl)⟩

/-- A request whose write failed is answered with an error. -/
theorem Keeps.refuse (h : w.Keeps) : Keeps { w with flight := none } :=
  ⟨fun client hclient => (h.kept client hclient).frame rfl rfl rfl rfl, fun _ ht => nomatch ht⟩

theorem Keeps.answer (h : w.Keeps) {client : PairedClient} {dropped : Bool}
    (hflight : w.flight = some ⟨client, .removing, dropped⟩) (removed : Bool) :
    (w.answer ⟨client, .removing, dropped⟩ removed).Keeps := by
  refine ⟨fun other hother => ?_, fun flight ht => nomatch ht⟩
  have hfly := h.flies _ hflight
  have hcases : other ∈ w.kept ∨ dropped = false ∧ other = client := by
    cases dropped with
    | true => exact .inl hother
    | false => simpa [World.answer] using hother
  rcases hcases with hkept | ⟨hdropped, rfl⟩
  · exact (h.kept other hkept).frame rfl rfl rfl rfl
  · have hsaved := hfly.saved hdropped (.inr rfl)
    refine ⟨hfly.memory hdropped, hsaved.1, hsaved.2, fun list hlist => ?_⟩
    have hserving : w.server = .serving := hfly.serving
    simp [World.answer, hserving, Server.loadedClients] at hlist

theorem Keeps.pair (h : w.Keeps) (hserver : w.server = .serving) {name code token : Text}
    (hstep : w.pair sha256Hex name code token = some t) : t.Keeps := by
  simp only [World.pair] at hstep
  split at hstep
  · exact Option.some.inj hstep ▸ h
  · split at hstep
    · exact Option.some.inj hstep ▸ h
    · split at hstep
      · split at hstep
        · cases hstep
        · exact Option.some.inj hstep ▸ h.mint hserver _ _
      · split at hstep
        · exact Option.some.inj hstep ▸ h.frame rfl rfl rfl rfl rfl rfl
        · exact Option.some.inj hstep ▸ h

/-- Every step keeps the clients whose pairing was answered. -/
theorem Keeps.step (h : w.Keeps) {action : Action} (hstep : w.step sha256Hex action = some t) : t.Keeps := by
  cases action with
  | tick => exact Option.some.inj hstep ▸ h.frame rfl rfl rfl rfl rfl rfl
  | stop => exact Option.some.inj hstep ▸ h.stop
  | start =>
    simp only [World.step, Option.ite_none_right_eq_some] at hstep
    refine Option.some.inj hstep.2 ▸ h.starts (by simp [hstep.1]) fun list hlist => nomatch hlist
  | startFails =>
    simp only [World.step] at hstep
    split at hstep
    · next start hserver =>
      refine Option.some.inj hstep ▸ h.starts (by simp [hserver]) fun list hlist => nomatch hlist
    · cases hstep
  | readClients =>
    simp only [World.step, Option.ite_none_right_eq_some] at hstep
    refine Option.some.inj hstep.2 ▸ h.starts (by simp [hstep.1]) fun list hlist => .inl ?_
    exact (Option.some.inj hlist).symm
  | readPending =>
    simp only [World.step] at hstep
    split at hstep
    · next clients hserver =>
      refine Option.some.inj hstep ▸ h.starts (by simp [hserver]) fun list hlist => .inr ?_
      exact hserver ▸ hlist
    · cases hstep
  | install bound =>
    simp only [World.step] at hstep
    split at hstep
    · next clients pending hserver =>
      refine Option.some.inj hstep ▸ h.install hserver ?_
      cases bound <;> rfl
    · cases hstep
  | beginPairing code =>
    simp only [World.step, Option.ite_none_right_eq_some] at hstep
    exact Option.some.inj hstep.2 ▸ h.frame rfl rfl rfl rfl rfl rfl
  | landPending i written =>
    obtain ⟨pending, -, rfl⟩ := Option.map_eq_some_iff.mp hstep
    exact h.frame rfl rfl rfl rfl rfl rfl
  | disconnect name => exact Option.some.inj hstep ▸ h.disconnect name
  | touch name =>
    simp only [World.step, Option.ite_none_right_eq_some] at hstep
    exact Option.some.inj hstep.2 ▸ h.frame rfl rfl rfl rfl rfl rfl
  | pair name code token =>
    simp only [World.step, Option.ite_none_right_eq_some] at hstep
    exact h.pair hstep.1.1 hstep.2
  | render =>
    simp only [World.step, Option.ite_none_right_eq_some] at hstep
    exact Option.some.inj hstep.2 ▸ h.render _
  | landClients written =>
    obtain ⟨list, hrunning, rfl⟩ := Option.map_eq_some_iff.mp hstep
    exact h.landClients hrunning written
  | remove =>
    simp only [World.step] at hstep
    split at hstep
    · next hflight => exact Option.some.inj hstep ▸ h.remove hflight
    · exact Option.some.inj hstep ▸ h.refuse
    · cases hstep
  | answer removed =>
    simp only [World.step] at hstep
    split at hstep
    · next hflight => exact Option.some.inj hstep ▸ h.answer hflight removed
    · cases hstep
  | straggle removed =>
    simp only [World.step, Option.ite_none_right_eq_some] at hstep
    exact Option.some.inj hstep.2 ▸ h.frame rfl rfl rfl rfl rfl rfl

/-! ## What was revoked stays out -/

/-- What a run in step keeps of the tokens that must no longer work. -/
structure Forgets (w : World) : Prop where
  known : ∀ client ∈ w.clients, client ∈ w.known
  distinct : (w.known.map PairedClient.tokenSha256).Nodup
  loaded : ∀ list, w.server.loadedClients = some list → ∀ client ∈ list, client ∈ w.clients
  gone : w.RevokedStayOut
  were : ∀ digest ∈ w.revoked, digest ∈ w.known.map PairedClient.tokenSha256
  /-- A request's client is the only one of its name. -/
  alone : ∀ flight, w.flight = some flight → ∀ client ∈ w.clients, client.name = flight.client.name →
    client = flight.client

theorem Forgets.of_initial (h : w.Initial) : w.Forgets := by
  obtain ⟨hknown, -, hrevoked, -⟩ := h.ghosts
  refine ⟨fun client hclient => hknown ▸ hclient, hknown ▸ h.distinct, fun list hlist => ?_, fun digest hdigest => ?_,
    fun digest hdigest => ?_, fun flight hflight => ?_⟩
  · simp [h.server, Server.loadedClients] at hlist
  · simp [hrevoked] at hdigest
  · simp [hrevoked] at hdigest
  · simp [h.quiet.2.2.2.2] at hflight

/-- One digest is one client's. -/
theorem Forgets.eq_of_digest (h : w.Forgets) {client other : PairedClient} (hclient : client ∈ w.known)
    (hother : other ∈ w.known) (heq : client.tokenSha256 = other.tokenSha256) : client = other :=
  List.inj_on_of_nodup_map h.distinct hclient hother heq

/-- A step that takes no client in and revokes nothing. -/
theorem Forgets.shrink (h : w.Forgets) (hclients : ∀ client ∈ t.clients, client ∈ w.clients)
    (hknown : t.known = w.known) (hrevoked : t.revoked = w.revoked)
    (hloaded : ∀ list, t.server.loadedClients = some list → ∀ client ∈ list, client ∈ t.clients)
    (hflight : ∀ flight, t.flight = some flight → ∃ before, w.flight = some before ∧ flight.client = before.client) :
    t.Forgets := by
  refine ⟨fun client hclient => hknown ▸ h.known client (hclients client hclient), hknown ▸ h.distinct, hloaded,
    fun digest hdigest haccepts => ?_, fun digest hdigest => ?_, fun flight ht client hclient hname => ?_⟩
  · obtain ⟨client, hclient, heq⟩ := haccepts
    exact h.gone digest (hrevoked ▸ hdigest) ⟨client, hclients client hclient, heq⟩
  · rw [hknown]
    exact h.were digest (hrevoked ▸ hdigest)
  · obtain ⟨before, hbefore, heq⟩ := hflight flight ht
    rw [heq] at hname ⊢
    exact h.alone before hbefore client (hclients client hclient) hname

/-- A step that leaves the list, its readings and the request's client alone. -/
theorem Forgets.frame (h : w.Forgets) (hclients : t.clients = w.clients) (hknown : t.known = w.known)
    (hrevoked : t.revoked = w.revoked)
    (hloaded : ∀ list, t.server.loadedClients = some list → w.server.loadedClients = some list)
    (hflight : t.flight = w.flight ∨ t.flight = none) : t.Forgets := by
  refine h.shrink (fun client hclient => hclients ▸ hclient) hknown hrevoked (fun list hlist => ?_) fun flight ht => ?_
  · rw [hclients]
    exact h.loaded list (hloaded list hlist)
  · rcases hflight with hsame | hnone
    · exact ⟨flight, hsame ▸ ht, rfl⟩
    · simp [hnone] at ht

/-- Known tokens that are on no list may be revoked. -/
theorem Forgets.revoke (h : w.Forgets) {digests : List Text}
    (hdigests : ∀ digest ∈ digests, digest ∈ w.known.map PairedClient.tokenSha256 ∧ ¬ w.Accepts digest) :
    Forgets { w with revoked := w.revoked ++ digests } := by
  refine ⟨h.known, h.distinct, h.loaded, fun digest hdigest => ?_, fun digest hdigest => ?_, h.alone⟩
  · rcases List.mem_append.mp hdigest with hold | hnew
    · exact h.gone digest hold
    · exact (hdigests digest hnew).2
  · rcases List.mem_append.mp hdigest with hold | hnew
    · exact h.were digest hold
    · exact (hdigests digest hnew).1

theorem mem_digestsOf {name digest : Text} :
    digest ∈ w.digestsOf name ↔ ∃ client ∈ w.known, client.name = name ∧ client.tokenSha256 = digest := by
  simp [digestsOf, and_assoc]

theorem Forgets.disconnect (h : w.Forgets) (hguard : w.server.loadedClients = none) (name : Text) :
    (w.disconnect name).Forgets := by
  have hsmall : Forgets { w.disconnect name with revoked := w.revoked } := by
    refine h.shrink (fun client hclient => List.mem_of_mem_filter hclient) rfl rfl (fun list hlist => ?_)
      fun flight ht => ?_
    · exact absurd (hguard.symm.trans hlist) (by simp)
    · obtain ⟨before, hbefore, rfl⟩ := Option.map_eq_some_iff.mp ht
      exact ⟨before, hbefore, rfl⟩
  refine hsmall.revoke fun digest hdigest => ?_
  obtain ⟨client, hclient, hname, hdig⟩ := mem_digestsOf.mp hdigest
  refine ⟨List.mem_map.mpr ⟨client, hclient, hdig⟩, fun haccepts => ?_⟩
  obtain ⟨other, hother, hsame⟩ := haccepts
  obtain ⟨hlisted, hkept⟩ := List.mem_filter.mp hother
  have heq : other = client := h.eq_of_digest (h.known other hlisted) hclient (hsame.trans hdig.symm)
  simp [heq, hname] at hkept

theorem Forgets.mint (h : w.Forgets) (hserver : w.server = .serving) (pending : PendingCode) {client : PairedClient}
    (hfresh : client.tokenSha256 ∉ w.known.map PairedClient.tokenSha256) : (w.mint pending client).Forgets := by
  have hlisted : ∀ other ∈ (w.mint pending client).clients, other ∈ w.clients ∧ other.name ≠ client.name ∨
      other = client := by
    intro other hother
    rcases List.mem_append.mp hother with hold | hnew
    · exact .inl ⟨List.mem_of_mem_filter hold, by simpa using (List.mem_filter.mp hold).2⟩
    · exact .inr (List.mem_singleton.mp hnew)
  refine ⟨fun other hother => ?_, ?_, fun list hlist => ?_, fun digest hdigest haccepts => ?_, fun digest hdigest => ?_,
    fun flight ht other hother hname => ?_⟩
  · rcases hlisted other hother with ⟨hold, -⟩ | rfl
    · exact List.mem_append_left _ (h.known other hold)
    · exact List.mem_append_right _ List.mem_cons_self
  · have hmap : (w.mint pending client).known.map PairedClient.tokenSha256 =
        w.known.map PairedClient.tokenSha256 ++ [client.tokenSha256] := by
      simp [World.mint, persistClients]
    rw [hmap]
    exact List.Nodup.append h.distinct (List.nodup_singleton _) (by simpa using hfresh)
  · have hnone : (w.mint pending client).server.loadedClients = none := by
      simp [World.mint, persistClients, hserver, Server.loadedClients]
    exact absurd (hnone.symm.trans hlist) (by simp)
  · obtain ⟨other, hother, heq⟩ := haccepts
    rcases hlisted other hother with ⟨hold, -⟩ | rfl
    · exact h.gone digest hdigest ⟨other, hold, heq⟩
    · exact hfresh (heq ▸ h.were digest hdigest)
  · have hold := h.were digest hdigest
    simp only [World.mint, persistClients, List.map_append, List.mem_append]
    exact .inl hold
  · cases ht
    rcases hlisted other hother with ⟨-, hne⟩ | rfl
    · exact absurd hname hne
    · rfl

theorem Forgets.answer (h : w.Forgets) {flight : Flight} (hflight : w.flight = some flight) (removed : Bool) :
    (w.answer flight removed).Forgets := by
  have hsmall : Forgets { w.answer flight removed with revoked := w.revoked } :=
    h.frame rfl rfl rfl (fun _ hlist => hlist) (.inr rfl)
  refine hsmall.revoke fun digest hdigest => ?_
  obtain ⟨hname, hne⟩ := List.mem_filter.mp hdigest
  obtain ⟨client, hclient, hname, hdig⟩ := mem_digestsOf.mp hname
  refine ⟨List.mem_map.mpr ⟨client, hclient, hdig⟩, fun haccepts => ?_⟩
  obtain ⟨other, hother, hsame⟩ := haccepts
  have heq : other = client := h.eq_of_digest (h.known other hother) hclient (hsame.trans hdig.symm)
  have hown : other = flight.client := h.alone flight hflight other hother (heq ▸ hname)
  simp [← hsame, hown] at hne

theorem Forgets.install (h : w.Forgets) {clients : List PairedClient} {pending : Option PendingCode} {server : Server}
    (hserver : w.server = .starting (.loaded clients pending)) (hnone : server.loadedClients = none)
    (hground : w.flight = none) : Forgets { w with clients, pending, server } := by
  refine h.shrink (h.loaded clients (by simp [hserver, Server.loadedClients])) rfl rfl (fun list hlist => ?_)
    fun flight ht => ?_
  · exact absurd (hnone.symm.trans hlist) (by simp)
  · simp [hground] at ht

theorem Forgets.pair (h : w.Forgets) (hserver : w.server = .serving) {name code token : Text}
    (hstep : w.pair sha256Hex name code token = some t) : t.Forgets := by
  simp only [World.pair] at hstep
  split at hstep
  · exact Option.some.inj hstep ▸ h
  · split at hstep
    · exact Option.some.inj hstep ▸ h
    · split at hstep
      · split at hstep
        · cases hstep
        · next hfresh => exact Option.some.inj hstep ▸ h.mint hserver _ hfresh
      · split at hstep
        · exact Option.some.inj hstep ▸ h.frame rfl rfl rfl (fun _ hlist => hlist) (.inl rfl)
        · exact Option.some.inj hstep ▸ h

/-- Every step in step keeps revoked tokens out. -/
theorem Forgets.step (h : w.Forgets) (hkeeps : w.Keeps) {action : Action} (hguard : w.InStep action)
    (hstep : w.step sha256Hex action = some t) : t.Forgets := by
  cases action with
  | tick => exact Option.some.inj hstep ▸ h.frame rfl rfl rfl (fun _ hlist => hlist) (.inl rfl)
  | stop => exact Option.some.inj hstep ▸ h.frame rfl rfl rfl (fun _ hlist => nomatch hlist) (.inr rfl)
  | start =>
    simp only [World.step, Option.ite_none_right_eq_some] at hstep
    exact Option.some.inj hstep.2 ▸ h.frame rfl rfl rfl (fun _ hlist => nomatch hlist) (.inl rfl)
  | startFails =>
    simp only [World.step] at hstep
    split at hstep
    · exact Option.some.inj hstep ▸ h.frame rfl rfl rfl (fun _ hlist => nomatch hlist) (.inl rfl)
    · cases hstep
  | readClients =>
    simp only [World.step, Option.ite_none_right_eq_some] at hstep
    refine Option.some.inj hstep.2 ▸ h.shrink (fun _ hclient => hclient) rfl rfl (fun list hlist => ?_)
      fun flight ht => ⟨flight, ht, rfl⟩
    cases hlist
    exact hguard
  | readPending =>
    simp only [World.step] at hstep
    split at hstep
    · next clients hserver =>
      exact Option.some.inj hstep ▸ h.frame rfl rfl rfl (fun _ hlist => hserver ▸ hlist) (.inl rfl)
    · cases hstep
  | install bound =>
    simp only [World.step] at hstep
    split at hstep
    · next clients pending hserver =>
      refine Option.some.inj hstep ▸ h.install hserver ?_ (hkeeps.grounded (by simp [hserver]))
      cases bound <;> rfl
    · cases hstep
  | beginPairing code =>
    simp only [World.step, Option.ite_none_right_eq_some] at hstep
    exact Option.some.inj hstep.2 ▸ h.frame rfl rfl rfl (fun _ hlist => hlist) (.inl rfl)
  | landPending i written =>
    obtain ⟨pending, -, rfl⟩ := Option.map_eq_some_iff.mp hstep
    exact h.frame rfl rfl rfl (fun _ hlist => hlist) (.inl rfl)
  | disconnect name => exact Option.some.inj hstep ▸ h.disconnect hguard name
  | touch name =>
    simp only [World.step, Option.ite_none_right_eq_some] at hstep
    exact Option.some.inj hstep.2 ▸ h.frame rfl rfl rfl (fun _ hlist => hlist) (.inl rfl)
  | pair name code token =>
    simp only [World.step, Option.ite_none_right_eq_some] at hstep
    exact h.pair hstep.1.1 hstep.2
  | render =>
    simp only [World.step, Option.ite_none_right_eq_some] at hstep
    exact Option.some.inj hstep.2 ▸ h.frame rfl rfl rfl (fun _ hlist => hlist) (.inl rfl)
  | landClients written =>
    obtain ⟨list, -, rfl⟩ := Option.map_eq_some_iff.mp hstep
    refine h.shrink (fun _ hclient => hclient) rfl rfl h.loaded fun flight ht => ?_
    obtain ⟨before, hbefore, rfl⟩ := Option.map_eq_some_iff.mp ht
    refine ⟨before, hbefore, ?_⟩
    split <;> rfl
  | remove =>
    simp only [World.step] at hstep
    split at hstep
    · next hflight =>
      refine Option.some.inj hstep ▸ h.shrink (fun _ hclient => hclient) rfl rfl h.loaded fun flight ht => ?_
      cases ht
      exact ⟨_, hflight, rfl⟩
    · exact Option.some.inj hstep ▸ h.frame rfl rfl rfl (fun _ hlist => hlist) (.inr rfl)
    · cases hstep
  | answer removed =>
    simp only [World.step] at hstep
    split at hstep
    · next hflight => exact Option.some.inj hstep ▸ h.answer hflight removed
    · cases hstep
  | straggle removed =>
    simp only [World.step, Option.ite_none_right_eq_some] at hstep
    exact Option.some.inj hstep.2 ▸ h.frame rfl rfl rfl (fun _ hlist => hlist) (.inl rfl)

/-! ## What a code mints -/

/-- What a run in step keeps of the codes. -/
structure Issues (w : World) : Prop where
  newest : ∀ pending, w.pending = some pending →
    pending.issue + 1 = w.issued ∧ ∀ mint ∈ w.mints, mint.pending.issue ≠ pending.issue
  loaded : ∀ pending, w.server.loadedPending = some pending → w.pending = some pending
  past : ∀ mint ∈ w.mints, mint.pending.issue < w.issued
  spent : w.CodesSpentOnce

theorem Issues.of_initial (h : w.Initial) : w.Issues := by
  have hmints : w.mints = [] := h.ghosts.2.2.2
  refine ⟨fun pending hpending => ⟨h.newest pending hpending, fun mint hmint => ?_⟩, fun pending hpending => ?_,
    fun mint hmint => ?_, ?_, fun mint hmint => ?_⟩
  · simp [hmints] at hmint
  · simp [h.server, Server.loadedPending] at hpending
  · simp [hmints] at hmint
  · simp [hmints]
  · simp [hmints] at hmint

/-- A step that issues and spends nothing; a code a start has read it had read, or memory waits for it. -/
theorem Issues.frame (h : w.Issues) (hpending : t.pending = w.pending ∨ t.pending = none)
    (hissued : t.issued = w.issued) (hmints : t.mints = w.mints)
    (hloaded : ∀ pending, t.server.loadedPending = some pending → t.pending = some pending) : t.Issues := by
  refine ⟨fun pending ht => ?_, hloaded, hmints ▸ hissued ▸ h.past, hmints ▸ h.spent.1, hmints ▸ h.spent.2⟩
  rcases hpending with hsame | hnone
  · rw [hissued, hmints]
    exact h.newest pending (hsame ▸ ht)
  · simp [hnone] at ht

theorem Issues.mint (h : w.Issues) (hserver : w.server = .serving) {pending : PendingCode}
    (hpending : w.pending = some pending) (hlive : pending.isExpired w.now = false) (client : PairedClient) :
    (w.mint pending client).Issues := by
  obtain ⟨hissue, hunspent⟩ := h.newest pending hpending
  have hlisted : ∀ mint ∈ (w.mint pending client).mints, mint ∈ w.mints ∨ mint = ⟨pending, w.now, w.issued⟩ := by
    intro mint hmint
    rcases List.mem_append.mp hmint with hold | hnew
    · exact .inl hold
    · exact .inr (List.mem_singleton.mp hnew)
  have hmints : (w.mint pending client).mints = w.mints ++ [⟨pending, w.now, w.issued⟩] := rfl
  refine ⟨fun other ht => (nomatch ht), fun other ht => ?_, fun mint hmint => ?_, ?_, fun mint hmint => ?_⟩
  · have hnone : (w.mint pending client).server.loadedPending = none := by
      simp [World.mint, persistClients, hserver, Server.loadedPending]
    exact absurd (hnone.symm.trans ht) (by simp)
  · rcases hlisted mint hmint with hold | rfl
    · exact h.past mint hold
    · change pending.issue < w.issued
      omega
  · rw [hmints, List.map_append]
    refine List.Nodup.append h.spent.1 (List.nodup_singleton _) ?_
    simpa using hunspent
  · rcases hlisted mint hmint with hold | rfl
    · exact h.spent.2 mint hold
    · exact ⟨hissue, by simpa [PendingCode.isExpired] using hlive⟩

/-- A new code is newer than any that was spent. -/
theorem Issues.beginPairing (h : w.Issues) (hserver : w.server = .serving) (codeSha256 : Text) (expiresAt : ℕ)
    (pendingWrites : List PendingCode) :
    Issues { w with pending := some ⟨codeSha256, expiresAt, w.issued⟩, issued := w.issued + 1, pendingWrites } := by
  refine ⟨fun pending ht => ?_, fun pending ht => ?_, fun mint hmint => Nat.lt_succ_of_lt (h.past mint hmint), h.spent⟩
  · cases ht
    exact ⟨rfl, fun mint hmint => Nat.ne_of_lt (h.past mint hmint)⟩
  · simp [hserver, Server.loadedPending] at ht

theorem Issues.install (h : w.Issues) {clients : List PairedClient} {pending : Option PendingCode} {server : Server}
    (hserver : w.server = .starting (.loaded clients pending)) (hnone : server.loadedPending = none) :
    Issues { w with clients, pending, server } := by
  have hpending : pending = w.pending ∨ pending = none := by
    cases hp : pending with
    | none => exact .inr rfl
    | some p => exact .inl (h.loaded p (by simp [hserver, Server.loadedPending, hp])).symm
  refine h.frame hpending rfl rfl fun p ht => ?_
  exact absurd (hnone.symm.trans ht) (by simp)

theorem Issues.pair (h : w.Issues) (hserver : w.server = .serving) {name code token : Text}
    (hstep : w.pair sha256Hex name code token = some t) : t.Issues := by
  simp only [World.pair] at hstep
  split at hstep
  · exact Option.some.inj hstep ▸ h
  · split at hstep
    · exact Option.some.inj hstep ▸ h
    · next pending hpending =>
      split at hstep
      · next haccepted =>
        have hlive : pending.isExpired w.now = false := by
          simp only [Bool.and_eq_true, Bool.not_eq_true'] at haccepted
          exact haccepted.1
        split at hstep
        · cases hstep
        · exact Option.some.inj hstep ▸ h.mint hserver hpending hlive _
      · split at hstep
        · refine Option.some.inj hstep ▸ h.frame (.inr rfl) rfl rfl fun p ht => ?_
          simp [hserver, Server.loadedPending] at ht
        · exact Option.some.inj hstep ▸ h

/-- Every step in step keeps the codes. -/
theorem Issues.step (h : w.Issues) {action : Action} (hguard : w.InStep action)
    (hstep : w.step sha256Hex action = some t) : t.Issues := by
  cases action with
  | tick => exact Option.some.inj hstep ▸ h.frame (.inl rfl) rfl rfl h.loaded
  | stop => exact Option.some.inj hstep ▸ h.frame (.inl rfl) rfl rfl fun _ ht => nomatch ht
  | start =>
    simp only [World.step, Option.ite_none_right_eq_some] at hstep
    exact Option.some.inj hstep.2 ▸ h.frame (.inl rfl) rfl rfl fun _ ht => nomatch ht
  | startFails =>
    simp only [World.step] at hstep
    split at hstep
    · exact Option.some.inj hstep ▸ h.frame (.inl rfl) rfl rfl fun _ ht => nomatch ht
    · cases hstep
  | readClients =>
    simp only [World.step, Option.ite_none_right_eq_some] at hstep
    exact Option.some.inj hstep.2 ▸ h.frame (.inl rfl) rfl rfl fun _ ht => nomatch ht
  | readPending =>
    simp only [World.step] at hstep
    split at hstep
    · refine Option.some.inj hstep ▸ h.frame (.inl rfl) rfl rfl fun pending ht => ?_
      obtain ⟨hfile, hlive⟩ := Option.filter_eq_some_iff.mp ht
      exact hguard pending hfile (by simpa using hlive)
    · cases hstep
  | install bound =>
    simp only [World.step] at hstep
    split at hstep
    · next clients pending hserver =>
      refine Option.some.inj hstep ▸ h.install hserver ?_
      cases bound <;> rfl
    · cases hstep
  | beginPairing code =>
    simp only [World.step, Option.ite_none_right_eq_some] at hstep
    exact Option.some.inj hstep.2 ▸ h.beginPairing hstep.1 _ _ _
  | landPending i written =>
    obtain ⟨pending, -, rfl⟩ := Option.map_eq_some_iff.mp hstep
    exact h.frame (.inl rfl) rfl rfl h.loaded
  | disconnect name => exact Option.some.inj hstep ▸ h.frame (.inl rfl) rfl rfl h.loaded
  | touch name =>
    simp only [World.step, Option.ite_none_right_eq_some] at hstep
    exact Option.some.inj hstep.2 ▸ h.frame (.inl rfl) rfl rfl h.loaded
  | pair name code token =>
    simp only [World.step, Option.ite_none_right_eq_some] at hstep
    exact h.pair hstep.1.1 hstep.2
  | render =>
    simp only [World.step, Option.ite_none_right_eq_some] at hstep
    exact Option.some.inj hstep.2 ▸ h.frame (.inl rfl) rfl rfl h.loaded
  | landClients written =>
    obtain ⟨list, -, rfl⟩ := Option.map_eq_some_iff.mp hstep
    exact h.frame (.inl rfl) rfl rfl h.loaded
  | remove =>
    simp only [World.step] at hstep
    split at hstep
    · exact Option.some.inj hstep ▸ h.frame (.inl rfl) rfl rfl h.loaded
    · exact Option.some.inj hstep ▸ h.frame (.inl rfl) rfl rfl h.loaded
    · cases hstep
  | answer removed =>
    simp only [World.step] at hstep
    split at hstep
    · exact Option.some.inj hstep ▸ h.frame (.inl rfl) rfl rfl h.loaded
    · cases hstep
  | straggle removed =>
    simp only [World.step, Option.ite_none_right_eq_some] at hstep
    exact Option.some.inj hstep.2 ▸ h.frame (.inl rfl) rfl rfl h.loaded

instance (w : World) (action : Action) : Decidable (w.InStep action) := by
  unfold InStep
  split <;> infer_instance

/-- A desk with one machine paired, about to start. -/
def onePaired : World :=
  { clients := [⟨"robin".toList, "r1".toList⟩]
    clientsFile := [⟨"robin".toList, "r1".toList⟩]
    known := [⟨"robin".toList, "r1".toList⟩]
    kept := [⟨"robin".toList, "r1".toList⟩] }

/-- The service starts. -/
def starts : List Action := [.start, .readClients, .readPending, .install true]

/-- Another machine pairs, with the removal of the code's file as given. -/
def pairs (removed : Bool) : List Action :=
  [.beginPairing "maple-river".toList, .landPending 0 true, .pair "hp".toList "maple-river".toList "h1".toList,
    .render, .landClients true, .remove, .answer removed]

end World

end Thock.Desk.BridgePairing
