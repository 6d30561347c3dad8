import Mathlib.Data.List.Dedup
import DeploymentManager.Ssh.Steps

namespace DeploymentManager.Ssh

open Metrics Routing

variable {cfg : Config} {lg : Log2Ceil}

/-- `Metrics`, the status page: the snapshot lists of `m.metrics`, one after another. Go
visits the map in an unspecified order; the model takes the map's own, and what is proved
about the page holds up to reordering. -/
def metricsPage (m : Manager) : List MetricSnapshot :=
  m.metrics.entries.flatMap fun e => e.2

def reportFor (key : String × Int) : Request → Option (List MetricSnapshot)
  | .recvMetrics groupName replicaId metrics =>
    if (groupName, replicaId) = key then some metrics else none
  | _ => none

def reportKey : Request → Option (String × Int)
  | .recvMetrics groupName replicaId _ => some (groupName, replicaId)
  | _ => none

def lastReport (key : String × Int) : List Request → Option (List MetricSnapshot)
  | [] => none
  | req :: reqs => lastReport key reqs <|> reportFor key req

def reporters (reqs : List Request) : List (String × Int) :=
  (reqs.filterMap reportKey).dedup

theorem reportFor_isSome (key : String × Int) (req : Request) :
    (reportFor key req).isSome ↔ reportKey req = some key := by
  cases req <;> simp only [reportFor, reportKey, Option.isSome_none, reduceCtorEq,
    Bool.false_eq_true]
  split_ifs <;> simp_all

theorem lastReport_isSome (key : String × Int) (reqs : List Request) :
    (lastReport key reqs).isSome ↔ key ∈ reporters reqs := by
  simp only [reporters, List.mem_dedup, List.mem_filterMap]
  induction reqs with
  | nil => simp [lastReport]
  | cons req reqs ih =>
    simp only [lastReport, List.mem_cons, exists_eq_or_imp]
    rw [← ih, ← reportFor_isSome]
    cases lastReport key reqs <;> simp

@[simp] theorem updateRoutingInfo_metrics (m : Manager) (g : ColocationGroupState)
    (info : RoutingInfo) : (updateRoutingInfo m g info).metrics = m.metrics := by
  unfold updateRoutingInfo; split_ifs <;> rfl

@[simp] theorem startColocationGroup_metrics
    (launch : String → String → Nat → Except String Unit) (m : Manager) (group : String) :
    (startColocationGroup cfg launch m group).1.metrics = m.metrics := by
  unfold startColocationGroup; split_ifs <;> [rfl; split <;> rfl]

@[simp] theorem exportListener_metrics (listen : String → ListenResult) (m : Manager)
    (l : Listener) (localAddress : String) :
    (exportListener cfg listen m l localAddress).1.metrics = m.metrics := by
  simp only [exportListener]; split <;> (try split) <;> rfl

theorem step_metrics_lookup (env : Outcomes) (m : Manager) (req : Request)
    (key : String × Int) :
    (step cfg lg env m req).1.metrics.lookup key = (reportFor key req <|> m.metrics.lookup key) := by
  cases req with
  | recvMetrics groupName replicaId metrics =>
    simp only [step, handleRecvMetrics, reportFor]
    split_ifs with h
    · simp [h]
    · rw [AList.lookup_insert_ne (Ne.symm h), Option.none_orElse]
  | registerReplica | startComponent =>
    simp [step, reportFor, registerReplica, startComponent, mayGenerateNewRoutingInfo]
  | exportListener | getComponentsToStart | getRoutingInfo => simp [step, reportFor]

/-- After any run, the manager keeps for each (group, replica) pair the snapshots of its last
report in the run, or what it kept before when the pair did not report. -/
theorem run_metrics_lookup (m : Manager) (steps : List (Request × Outcomes))
    (key : String × Int) :
    (run cfg lg m steps).metrics.lookup key =
      (lastReport key (steps.map Prod.fst) <|> m.metrics.lookup key) := by
  induction steps generalizing m with
  | nil => simp [run, lastReport]
  | cons s steps ih =>
    rw [run, ih, step_metrics_lookup, List.map_cons, lastReport]
    cases lastReport key (steps.map Prod.fst) <;> rfl

theorem metricsPage_eq (m : Manager) :
    metricsPage m = m.metrics.keys.flatMap fun k => (m.metrics.lookup k).getD [] := by
  rw [metricsPage, AList.keys, List.keys, List.flatMap_map]
  refine List.flatMap_congr fun e he => ?_
  rw [show m.metrics.lookup e.1 = some e.2 from AList.mem_lookup_iff.mpr he, Option.getD_some]

/-- After any run from the initial manager, the `Metrics` page lists, up to order, the
snapshots of the last report of every (group, replica) pair that reported, each pair once. -/
theorem run_metricsPage (steps : List (Request × Outcomes)) :
    (metricsPage (run cfg lg .init steps)).Perm
      ((reporters (steps.map Prod.fst)).flatMap fun k =>
        (lastReport k (steps.map Prod.fst)).getD []) := by
  have hl : ∀ k, (run cfg lg .init steps).metrics.lookup k = lastReport k (steps.map Prod.fst) :=
    fun k => by rw [run_metrics_lookup]; exact Option.orElse_none _
  have hk : (run cfg lg .init steps).metrics.keys.Perm (reporters (steps.map Prod.fst)) :=
    (List.perm_ext_iff_of_nodup (AList.keys_nodup _) (List.nodup_dedup _)).mpr fun k => by
      rw [← AList.mem_keys, ← AList.lookup_isSome, hl, lastReport_isSome, reporters]
  rw [metricsPage_eq]
  simp only [hl]
  exact hk.flatMap_right _

end DeploymentManager.Ssh
