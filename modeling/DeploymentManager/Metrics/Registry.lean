import Mathlib.Data.List.AList
import Mathlib.Algebra.Order.Ring.Unbundled.Rat
import Mathlib.Order.WithBot

namespace DeploymentManager.Metrics

/-- A float64 as Go's comparisons see it: NaN, or a point of the extended real line
(`-0` and `+0` compare equal and are one point here). -/
inductive Float64 where
  | nan
  | num (x : WithBot (WithTop ℚ))
deriving DecidableEq

def Float64.zero : Float64 := .num (0 : ℚ)

def Float64.isNaN : Float64 → Bool
  | .nan => true
  | .num _ => false

def Float64.ge : Float64 → Float64 → Bool
  | .num x, .num y => decide (y ≤ x)
  | _, _ => false

def Float64.eq : Float64 → Float64 → Bool
  | .num x, .num y => decide (x = y)
  | _, _ => false

def Float64.lt : Float64 → Float64 → Bool
  | .num x, .num y => decide (x < y)
  | _, _ => false

@[simp] theorem Float64.ge_num (x y : WithBot (WithTop ℚ)) :
    (Float64.num x).ge (.num y) = decide (y ≤ x) := rfl

@[simp] theorem Float64.eq_num (x y : WithBot (WithTop ℚ)) :
    (Float64.num x).eq (.num y) = decide (x = y) := rfl

@[simp] theorem Float64.lt_num (x y : WithBot (WithTop ℚ)) :
    (Float64.num x).lt (.num y) = decide (x < y) := rfl

def searchLoop (f : Nat → Bool) (i j : Nat) : Nat :=
  if hij : i < j then
    let h := (i + j) / 2
    if !f h then searchLoop f (h + 1) j else searchLoop f i h
  else i
termination_by j - i

def search (n : Nat) (f : Nat → Bool) : Nat := searchLoop f 0 n

def searchFloat64s (a : List Float64) (x : Float64) : Nat :=
  search a.length fun i => (a.getD i .nan).ge x

inductive MetricType where
  | invalid
  | counter
  | gauge
  | histogram
deriving DecidableEq, Repr

structure MetricSnapshot where
  id : BitVec 64
  typ : MetricType
  name : String
  labels : List (String × String)
  help : String
  value : Float64
  bounds : List Float64
  counts : List (BitVec 64)

structure MetricConfig where
  typ : MetricType
  name : String
  help : String
  bounds : List Float64

/-- A `Metric`. Its labels are kept as the label value `labelsThunk` extracts them from;
the id and materialized labels, set only by `Init`, are left out. `version` and `counts` are
Go's `atomic.Uint64`, which wraps. -/
structure Metric (L : Type) where
  typ : MetricType
  name : String
  help : String
  labels : L
  bounds : List Float64
  counts : List (BitVec 64)
  value : Float64
  version : BitVec 64

def putIndex (bounds : List Float64) (val : Float64) : Nat :=
  let idx := searchFloat64s bounds val
  if idx < bounds.length ∧ val.eq (bounds.getD idx .nan) then idx + 1 else idx

/-- `Metric.Put`. `fadd` is float64 addition, which the model leaves open; an index past
`counts` is Go's index-out-of-range panic. -/
def Metric.put {L : Type} (fadd : Float64 → Float64 → Float64) (m : Metric L) (val : Float64) :
    Option (Metric L) :=
  let idx := putIndex m.bounds val
  if idx < m.counts.length then
    some { m with
      counts := m.counts.modify (· + 1) idx, value := fadd m.value val, version := m.version + 1 }
  else none

def Metric.putAll {L : Type} (fadd : Float64 → Float64 → Float64) (m : Metric L) :
    List Float64 → Option (Metric L)
  | [] => some m
  | v :: vs => (m.put fadd v).bind fun m => m.putAll fadd vs

structure MetricMap (L : Type) [DecidableEq L] where
  config : MetricConfig
  metrics : AList (fun _ : L => Nat)

structure Registry (L : Type) [DecidableEq L] where
  metricNames : List String
  metrics : List (Metric L)
  maps : List (MetricMap L)

inductive Panic where
  | labels (err : String)
  | emptyName
  | invalidType (name : String)
  | nanBound (name : String)
  | nonAscending (name : String)
  | duplicate (name : String)
  | nilMap

variable {L : Type} [DecidableEq L]

def Registry.init : Registry L := ⟨[], [], []⟩

def newMetric (config : MetricConfig) (labels : L) (metrics : List (Metric L)) :
    List (Metric L) × Nat :=
  let metric : Metric L :=
    { typ := config.typ, name := config.name, help := config.help, labels,
      bounds := config.bounds,
      counts := if config.typ = .histogram then List.replicate (config.bounds.length + 1) 0
        else [],
      value := .zero, version := 0 }
  (metrics ++ [metric], metrics.length)

def nonAscending : List Float64 → Bool
  | x :: y :: rest => x.ge y || nonAscending (y :: rest)
  | _ => false

/-- `RegisterMap[L]`. `labelCheck` is what `typecheckLabels[L]()` returns for the map's
label type. The new map's handle is its position in `maps`. -/
def registerMap (labelCheck : Option String) (typ : MetricType) (name help : String)
    (bounds : List Float64) (reg : Registry L) : Except Panic (Registry L × Nat) :=
  match labelCheck with
  | some err => .error (.labels err)
  | none =>
    if name = "" then .error .emptyName
    else if typ = .invalid then .error (.invalidType name)
    else if bounds.any Float64.isNaN then .error (.nanBound name)
    else if nonAscending bounds then .error (.nonAscending name)
    else if name ∈ reg.metricNames then .error (.duplicate name)
    else
      let mm : MetricMap L := ⟨⟨typ, name, help, bounds⟩, ∅⟩
      .ok ({ reg with metricNames := reg.metricNames ++ [name], maps := reg.maps ++ [mm] },
        reg.maps.length)

/-- `MetricMap.Get` on the map with handle `h`; a missing map is a nil pointer. -/
def get (h : Nat) (labels : L) (reg : Registry L) : Except Panic (Registry L × Nat) :=
  match reg.maps[h]? with
  | none => .error .nilMap
  | some mm =>
    match mm.metrics.lookup labels with
    | some i => .ok (reg, i)
    | none =>
      let (metrics, i) := newMetric mm.config labels reg.metrics
      .ok ({ reg with
          metrics,
          maps := reg.maps.set h { mm with metrics := mm.metrics.insert labels i } }, i)

def register (unit : L) (typ : MetricType) (name help : String) (bounds : List Float64)
    (reg : Registry L) : Except Panic (Registry L × Nat) := do
  let (reg, h) ← registerMap none typ name help bounds reg
  get h unit reg

inductive Call (L : Type) where
  | registerMap (labelCheck : Option String) (typ : MetricType) (name help : String)
      (bounds : List Float64)
  | register (typ : MetricType) (name help : String) (bounds : List Float64)
  | get (h : Nat) (labels : L)

def call (unit : L) : Call L → Registry L → Except Panic (Registry L × Nat)
  | .registerMap c t n hp b => registerMap c t n hp b
  | .register t n hp b => register unit t n hp b
  | .get h l => get h l

def exec (unit : L) : Registry L → List (Call L) → Except Panic (Registry L)
  | reg, [] => .ok reg
  | reg, c :: cs => do
    let (reg, _) ← call unit c reg
    exec unit reg cs

/-- A sequence of calls with what each returned: the handle of the map `RegisterMap` made, or
the metric `Register` or `Get` returned. -/
def execTrace (unit : L) : Registry L → List (Call L) → Except Panic (Registry L × List Nat)
  | reg, [] => .ok (reg, [])
  | reg, c :: cs => do
    let (reg, r) ← call unit c reg
    let (reg, rs) ← execTrace unit reg cs
    pure (reg, r :: rs)

end DeploymentManager.Metrics
