import Mathlib.Data.BitVec
import Mathlib.Algebra.BigOperators.Group.List
import DeploymentManager.Ssh.MetricsPage

namespace DeploymentManager.Status

open Metrics Ssh Routing

def methodCountsName : String := "serviceweaver_remote_method_count"

def label (labels : List (String × String)) (key : String) : String :=
  (labels.lookup key).getD ""

def callOf (metric : MetricSnapshot) : String × String :=
  (label metric.labels "caller", label metric.labels "component")

structure Edge where
  source : String
  target : String
  value : BitVec 64
deriving DecidableEq

/-- The loop of `computeTraffic`: `byPair[call] += int(metric.Value)` for each method-count
snapshot. `toInt` is Go's `int(float64)` conversion, which the model leaves open. -/
def aggregate (toInt : Float64 → BitVec 64) :
    List MetricSnapshot → AList (fun _ : String × String => BitVec 64) →
      AList (fun _ : String × String => BitVec 64)
  | [], byPair => byPair
  | metric :: metrics, byPair =>
    if metric.name ≠ methodCountsName then aggregate toInt metrics byPair
    else
      aggregate toInt metrics (byPair.insert (callOf metric)
        ((byPair.lookup (callOf metric)).getD 0 + toInt metric.value))

/-- `computeTraffic`, with the edges in the map's order (Go's is unspecified). The status it
is passed is unused. -/
def computeTraffic (toInt : Float64 → BitVec 64) (metrics : List MetricSnapshot) : List Edge :=
  (aggregate toInt metrics ∅).entries.map fun e => ⟨e.1.1, e.1.2, e.2⟩

def CountsCalls (call : String × String) (metric : MetricSnapshot) : Prop :=
  metric.name = methodCountsName ∧ callOf metric = call

instance (call : String × String) : DecidablePred (CountsCalls call) :=
  fun _ => inferInstanceAs (Decidable (_ ∧ _))

def trafficSum (toInt : Float64 → BitVec 64) (call : String × String)
    (metrics : List MetricSnapshot) : BitVec 64 :=
  ((metrics.filter fun m => CountsCalls call m).map fun m => toInt m.value).sum

def edgeValue (edges : List Edge) (call : String × String) : Option (BitVec 64) :=
  (edges.find? fun e => (e.source, e.target) = call).map Edge.value

variable (toInt : Float64 → BitVec 64)

theorem trafficSum_cons (call : String × String) (metric : MetricSnapshot)
    (metrics : List MetricSnapshot) :
    trafficSum toInt call (metric :: metrics) =
      (if CountsCalls call metric then toInt metric.value else 0) +
        trafficSum toInt call metrics := by
  by_cases h : CountsCalls call metric <;> simp [trafficSum, List.filter_cons, h]

theorem trafficSum_eq_zero {call : String × String} {metrics : List MetricSnapshot}
    (h : ¬∃ m ∈ metrics, CountsCalls call m) : trafficSum toInt call metrics = 0 := by
  rw [trafficSum, List.filter_eq_nil_iff.mpr fun m hm hc => h ⟨m, hm, of_decide_eq_true hc⟩]
  rfl

theorem trafficSum_flatMap {α : Type} (call : String × String) (l : List α)
    (f : α → List MetricSnapshot) :
    trafficSum toInt call (l.flatMap f) = (l.map fun k => trafficSum toInt call (f k)).sum := by
  induction l with
  | nil => rfl
  | cons k l ih =>
    rw [List.flatMap_cons, List.map_cons, List.sum_cons, ← ih]
    simp only [trafficSum, List.filter_append, List.map_append, List.sum_append]

theorem aggregate_lookup (call : String × String) (metrics : List MetricSnapshot)
    (byPair : AList (fun _ : String × String => BitVec 64)) :
    (aggregate toInt metrics byPair).lookup call =
      if ∃ m ∈ metrics, CountsCalls call m then
        some ((byPair.lookup call).getD 0 + trafficSum toInt call metrics)
      else byPair.lookup call := by
  induction metrics generalizing byPair with
  | nil => simp [aggregate]
  | cons metric metrics ih =>
    rw [trafficSum_cons]
    by_cases hc : CountsCalls call metric
    · obtain ⟨hn, rfl⟩ := hc
      have hm : ∃ m ∈ metric :: metrics, CountsCalls (callOf metric) m :=
        ⟨_, List.mem_cons_self _ _, hn, rfl⟩
      rw [aggregate, if_neg (not_not.mpr hn), ih, AList.lookup_insert, if_pos hm,
        if_pos (show CountsCalls (callOf metric) metric from ⟨hn, rfl⟩), Option.getD_some,
        ← add_assoc]
      split_ifs with h
      · rfl
      · rw [trafficSum_eq_zero toInt h, add_zero]
    · have hl : (aggregate toInt (metric :: metrics) byPair).lookup call =
          (aggregate toInt metrics byPair).lookup call := by
        rw [aggregate]
        split_ifs with hn
        · rfl
        · rw [ih, ih, AList.lookup_insert_ne fun h => hc ⟨not_not.mp hn, h.symm⟩]
      rw [hl, ih, if_neg hc, zero_add]
      simp only [List.mem_cons, exists_eq_or_imp, hc, false_or]

theorem edgeValue_map (l : List (Σ _ : String × String, BitVec 64)) (call : String × String) :
    edgeValue (l.map fun e => ⟨e.1.1, e.1.2, e.2⟩) call = l.dlookup call := by
  induction l with
  | nil => rfl
  | cons e l ih =>
    obtain ⟨⟨s, t⟩, v⟩ := e
    by_cases h : (s, t) = call
    · subst h
      simp [edgeValue, List.dlookup_cons_eq]
    · rw [List.dlookup_cons_ne _ _ (Ne.symm h), ← ih]
      simp [edgeValue, h]

/-- For every list of snapshots, `computeTraffic` draws an edge from `call.1` to `call.2`
exactly when a method-count snapshot names that caller and callee; the edge's value is the
64-bit sum of `int(Value)` over those snapshots, no two edges join the same pair, and the
edges do not depend on the order of the snapshots. -/
theorem computeTraffic_spec (metrics : List MetricSnapshot) :
    (∀ call, edgeValue (computeTraffic toInt metrics) call =
      if ∃ m ∈ metrics, CountsCalls call m then some (trafficSum toInt call metrics) else none) ∧
    ((computeTraffic toInt metrics).map fun e => (e.source, e.target)).Nodup ∧
    ∀ metrics', metrics'.Perm metrics → ∀ call,
      edgeValue (computeTraffic toInt metrics') call =
        edgeValue (computeTraffic toInt metrics) call := by
  have hv : ∀ metrics call, edgeValue (computeTraffic toInt metrics) call =
      if ∃ m ∈ metrics, CountsCalls call m then some (trafficSum toInt call metrics) else none :=
    fun metrics call => by
      rw [computeTraffic, edgeValue_map, ← AList.lookup, aggregate_lookup]
      simp
  refine ⟨hv metrics, ?_, fun metrics' hp call => ?_⟩
  · simpa [computeTraffic, List.map_map, Function.comp_def] using
      (aggregate toInt metrics ∅).keys_nodup
  · rw [hv, hv, trafficSum, trafficSum, ((hp.filter _).map _).sum_eq]
    simp only [hp.mem_iff]

/-- After any run of the SSH manager from its initial state, the dashboard draws an edge from
`call.1` to `call.2` exactly when the last report of some (group, replica) pair counts such
calls, and the edge's value adds up what the last reports of the pairs that reported count:
every replica's last report once, and none of its earlier ones. -/
theorem run_traffic {cfg : Config} {lg : Log2Ceil} (steps : List (Request × Outcomes))
    (call : String × String) :
    edgeValue (computeTraffic toInt (metricsPage (run cfg lg .init steps))) call =
      if ∃ k ∈ reporters (steps.map Prod.fst),
          ∃ m ∈ (lastReport k (steps.map Prod.fst)).getD [], CountsCalls call m then
        some (((reporters (steps.map Prod.fst)).map fun k =>
          trafficSum toInt call ((lastReport k (steps.map Prod.fst)).getD [])).sum)
      else none := by
  obtain ⟨hv, -, hperm⟩ := computeTraffic_spec toInt
    ((reporters (steps.map Prod.fst)).flatMap fun k => (lastReport k (steps.map Prod.fst)).getD [])
  have hc : ∀ (l : List (String × Int)) (f : String × Int → List MetricSnapshot),
      (∃ m ∈ l.flatMap f, CountsCalls call m) ↔ ∃ k ∈ l, ∃ m ∈ f k, CountsCalls call m :=
    fun l f => by
      simp only [List.mem_flatMap]
      exact ⟨fun ⟨m, ⟨k, hk, hm⟩, h⟩ => ⟨k, hk, m, hm, h⟩,
        fun ⟨k, hk, m, hm, h⟩ => ⟨m, ⟨k, hk, hm⟩, h⟩⟩
  rw [hperm _ (run_metricsPage steps), hv, trafficSum_flatMap]
  simp only [hc]

end DeploymentManager.Status
