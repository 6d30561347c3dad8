import DeploymentManager.Routing.Algo
import DeploymentManager.Metrics.Registry
import DeploymentManager.Ssh.Store

namespace DeploymentManager.Ssh

open Routing

structure Listener where
  name : String
  addr : String

/-- Modelled from the spec: the routing record of a group. Its `Version` is set only on the
copy `getRoutingInfo` returns, and is that reply's second field here. -/
structure RoutingInfo where
  replicas : List String
  assignments : List Assignment
deriving DecidableEq

structure ColocationGroupState where
  name : String
  components : AList (fun _ : String => Bool)
  replicas : List String
  replicaPids : List Int
  assignments : AList (fun _ : String => Assignment)

/-- Modelled from the spec: the state of the deployment; its submission time is left out. -/
structure AppVersionState where
  app : String
  deploymentId : String
  listeners : List Listener
  groups : AList (fun _ : String => ColocationGroupState)

structure ProxyInfo where
  backends : List String
  addr : String

/-- The fields of `manager` that requests read or write, and `launches`, the log of the
`startBabysitter(loc, group, replicaId)` calls that succeeded, as `(group, replicaId)`. -/
structure Manager where
  started : List String
  appState : VersionedMap AppVersionState
  routingState : VersionedMap RoutingInfo
  proxies : AList (fun _ : String => ProxyInfo)
  metrics : AList (fun _ : String × Int => List Metrics.MetricSnapshot)
  launches : List (String × Nat)

structure Config where
  app : String
  deploymentId : String
  locations : List String

inductive ListenResult where
  | ok (addr : String)
  | addrInUse (err : String)
  | failed (err : String)

/-- The environment of one request: the orders in which the two loops of
`mayGenerateNewRoutingInfo` visit `g.Assignments`, the result of
`startBabysitter(loc, group, replicaId)`, and of `net.Listen`. -/
structure Outcomes where
  visit : List (Σ _ : String, Assignment) → List (Σ _ : String, Assignment)
  visit_perm : ∀ l, (visit l).Perm l
  order : List Assignment → List Assignment
  order_perm : ∀ l, (order l).Perm l
  launch : String → String → Nat → Except String Unit
  listen : String → ListenResult

inductive Request where
  | getComponentsToStart (group : String) (version : Option Nat)
  | registerReplica (group address : String) (pid : Int)
  | exportListener (listener : Listener) (localAddress : String)
  | startComponent (group component : String) (isRouted : Bool)
  | getRoutingInfo (group : String) (version : Option Nat)
  | recvMetrics (groupName : String) (replicaId : Int) (metrics : List Metrics.MetricSnapshot)

inductive Reply where
  | ok
  | error (err : String)
  | componentsToStart (components : List String) (version : Nat)
  | exported (proxyAddress : String)
  | exportError (err : String)
  | routingInfo (info : RoutingInfo) (version : Nat)
  | blocked

def Manager.init : Manager := ⟨[], .empty, .empty, ∅, ∅, []⟩

def Config.freshState (cfg : Config) : AppVersionState := ⟨cfg.app, cfg.deploymentId, [], ∅⟩

def loadAppState (cfg : Config) (m : Manager) (version : Option Nat) :
    Option (AppVersionState × Nat) :=
  (m.appState.read appVersionStateKey version).map fun r => (r.1.getD cfg.freshState, r.2)

def appStateOf (cfg : Config) (m : Manager) : AppVersionState :=
  (m.appState.value appVersionStateKey).getD cfg.freshState

def findOrAddGroup (state : AppVersionState) (group : String) : ColocationGroupState :=
  (state.groups.lookup group).getD ⟨group, ∅, [], [], ∅⟩

def loadRoutingState (m : Manager) (group : String) (version : Option Nat) :
    Option (RoutingInfo × Nat) :=
  (m.routingState.read (routingKey group) version).map fun r => (r.1.getD ⟨[], []⟩, r.2)

def routingStateOf (m : Manager) (group : String) : RoutingInfo :=
  (m.routingState.value (routingKey group)).getD ⟨[], []⟩

def updateRoutingInfo (m : Manager) (g : ColocationGroupState) (info : RoutingInfo) : Manager :=
  if routingStateOf m g.name = info then m
  else { m with routingState := m.routingState.update (routingKey g.name) info }

/-- The first loop of `mayGenerateNewRoutingInfo` over the entries it visits: the map entry of
each component is replaced by the assignment `routingAlgo` computes from the replicas, which
it sorts in place. -/
def reassign (lg : Log2Ceil) :
    List (Σ _ : String, Assignment) → AList (fun _ : String => Assignment) → List String →
      AList (fun _ : String => Assignment) × List String
  | [], assignments, replicas => (assignments, replicas)
  | ⟨component, curr⟩ :: rest, assignments, replicas =>
    reassign lg rest (assignments.replace component (routingAlgo lg curr replicas).1)
      (routingAlgo lg curr replicas).2

def reassignGroup (lg : Log2Ceil)
    (visit : List (Σ _ : String, Assignment) → List (Σ _ : String, Assignment))
    (g : ColocationGroupState) : ColocationGroupState :=
  { g with
    assignments := (reassign lg (visit g.assignments.entries) g.assignments g.replicas).1
    replicas := sortStrings (reassign lg (visit g.assignments.entries) g.assignments g.replicas).2 }

def routingInfoOf (order : List Assignment → List Assignment) (g : ColocationGroupState) :
    RoutingInfo :=
  ⟨g.replicas, order (g.assignments.entries.map (·.2))⟩

def mayGenerateNewRoutingInfo (lg : Log2Ceil) (env : Outcomes) (m : Manager)
    (g : ColocationGroupState) : Manager × ColocationGroupState :=
  (updateRoutingInfo m (reassignGroup lg env.visit g)
      (routingInfoOf env.order (reassignGroup lg env.visit g)),
    reassignGroup lg env.visit g)

def addReplica (g : ColocationGroupState) (address : String) (pid : Int) :
    ColocationGroupState :=
  if address ∈ g.replicas then g
  else { g with replicas := g.replicas ++ [address], replicaPids := g.replicaPids ++ [pid] }

def registerReplica (cfg : Config) (lg : Log2Ceil) (env : Outcomes) (m : Manager)
    (group address : String) (pid : Int) : Manager :=
  let state := appStateOf cfg m
  let r := mayGenerateNewRoutingInfo lg env m (addReplica (findOrAddGroup state group) address pid)
  { r.1 with
    appState := r.1.appState.update appVersionStateKey
      { state with groups := state.groups.insert group r.2 } }

/-- `exportListener`. The state is stored before the proxy is looked up, so a call that
fails still records its listener. `AddBackend` changes the proxy the map points to. -/
def exportListener (cfg : Config) (listen : String → ListenResult) (m : Manager)
    (listener : Listener) (localAddress : String) : Manager × Reply :=
  let state := appStateOf cfg m
  let m := { m with
    appState := m.appState.update appVersionStateKey
      { state with listeners := state.listeners ++ [listener] } }
  match m.proxies.lookup listener.name with
  | some p =>
    ({ m with
        proxies := m.proxies.insert listener.name
          { p with backends := p.backends ++ [listener.addr] } },
      .exported p.addr)
  | none =>
    match listen localAddress with
    | .addrInUse err => (m, .exportError err)
    | .failed err => (m, .error ("proxy listen: " ++ err))
    | .ok addr =>
      ({ m with proxies := m.proxies.insert listener.name ⟨[listener.addr], addr⟩ },
        .exported addr)

def startBabysitters (launch : String → String → Nat → Except String Unit) (group : String) :
    Nat → List String → List (String × Nat) → List (String × Nat) × Option String
  | _, [], log => (log, none)
  | replicaId, loc :: locs, log =>
    match launch loc group replicaId with
    | .error err =>
      (log, some ("unable to start babysitter for group " ++ group ++ " at location " ++ loc ++
        ": " ++ err ++ "\n"))
    | .ok () => startBabysitters launch group (replicaId + 1) locs (log ++ [(group, replicaId)])

/-- `startColocationGroup`: a group is marked started only once all its babysitters
started. -/
def startColocationGroup (cfg : Config) (launch : String → String → Nat → Except String Unit)
    (m : Manager) (group : String) : Manager × Reply :=
  if group ∈ m.started then (m, .ok)
  else
    match startBabysitters launch group 0 cfg.locations m.launches with
    | (launches, some err) => ({ m with launches }, .error err)
    | (launches, none) => ({ m with launches, started := m.started ++ [group] }, .ok)

def addComponent (cfg : Config) (g : ColocationGroupState) (component : String)
    (isRouted : Bool) : ColocationGroupState :=
  let g := { g with components := g.components.insert component isRouted }
  if isRouted ∧ g.assignments.lookup component = none then
    { g with
      assignments := g.assignments.insert component
        ⟨cfg.app, cfg.deploymentId, component, 0, []⟩ }
  else g

def startComponent (cfg : Config) (lg : Log2Ceil) (env : Outcomes) (m : Manager)
    (group component : String) (isRouted : Bool) : Manager × Reply :=
  let state := appStateOf cfg m
  let r := mayGenerateNewRoutingInfo lg env m
    (addComponent cfg (findOrAddGroup state group) component isRouted)
  startColocationGroup cfg env.launch
    { r.1 with
      appState := r.1.appState.update appVersionStateKey
        { state with groups := state.groups.insert group r.2 } }
    group

/-- `getComponentsToStart`; it reads without taking `m.mu`. -/
def getComponentsToStart (cfg : Config) (m : Manager) (group : String) (version : Option Nat) :
    Reply :=
  match loadAppState cfg m version with
  | none => .blocked
  | some (state, v) => .componentsToStart (findOrAddGroup state group).components.keys v

def getRoutingInfo (m : Manager) (group : String) (version : Option Nat) : Reply :=
  match loadRoutingState m group version with
  | none => .blocked
  | some (info, v) => .routingInfo info v

def handleRecvMetrics (m : Manager) (groupName : String) (replicaId : Int)
    (metrics : List Metrics.MetricSnapshot) : Manager :=
  { m with metrics := m.metrics.insert (groupName, replicaId) metrics }

/-- One request, served under `m.mu`. -/
def step (cfg : Config) (lg : Log2Ceil) (env : Outcomes) (m : Manager) :
    Request → Manager × Reply
  | .getComponentsToStart group version => (m, getComponentsToStart cfg m group version)
  | .registerReplica group address pid =>
    (registerReplica cfg lg env m group address pid, .ok)
  | .exportListener listener localAddress => exportListener cfg env.listen m listener localAddress
  | .startComponent group component isRouted =>
    startComponent cfg lg env m group component isRouted
  | .getRoutingInfo group version => (m, getRoutingInfo m group version)
  | .recvMetrics groupName replicaId metrics =>
    (handleRecvMetrics m groupName replicaId metrics, .ok)

def run (cfg : Config) (lg : Log2Ceil) : Manager → List (Request × Outcomes) → Manager
  | m, [] => m
  | m, (req, env) :: rest => run cfg lg (step cfg lg env m req).1 rest

def trace (cfg : Config) (lg : Log2Ceil) :
    Manager → List (Request × Outcomes) → List (Request × Reply)
  | _, [] => []
  | m, (req, env) :: rest =>
    (req, (step cfg lg env m req).2) :: trace cfg lg (step cfg lg env m req).1 rest

inductive Reachable (cfg : Config) (lg : Log2Ceil) : Manager → Prop
  | init : Reachable cfg lg Manager.init
  | step {m : Manager} (env : Outcomes) (req : Request) :
    Reachable cfg lg m → Reachable cfg lg (step cfg lg env m req).1

end DeploymentManager.Ssh
