import Mathlib.Data.BitVec
import Mathlib.Algebra.BigOperators.Group.List
import DeploymentManager.Metrics.Histogram

namespace DeploymentManager.Metrics

def Float64.neg : Float64 → Float64
  | .nan => .nan
  | .num none => .num ⊤
  | .num (some none) => .num ⊥
  | .num (some (some q)) => .num (-q : ℚ)

section Metric

variable {L : Type} (fadd : Float64 → Float64 → Float64)

def Metric.add (m : Metric L) (delta : Float64) : Metric L :=
  { m with value := fadd m.value delta, version := m.version + 1 }

def Metric.sub (m : Metric L) (delta : Float64) : Metric L :=
  { m with value := fadd m.value delta.neg, version := m.version + 1 }

def Metric.set (m : Metric L) (val : Float64) : Metric L :=
  { m with value := val, version := m.version + 1 }

inductive Update where
  | add (delta : Float64)
  | sub (delta : Float64)
  | set (val : Float64)
  | put (val : Float64)

def Update.isPut : Update → Bool
  | .put _ => true
  | _ => false

def Metric.update (m : Metric L) : Update → Option (Metric L)
  | .add delta => some (m.add fadd delta)
  | .sub delta => some (m.sub fadd delta)
  | .set val => some (m.set val)
  | .put val => m.put fadd val

theorem sum_modify_succ {l : List (BitVec 64)} {i : Nat} (h : i < l.length) :
    (l.modify (· + 1) i).sum = l.sum + 1 := by
  induction l generalizing i with
  | nil => cases h
  | cons a l ih =>
    cases i with
    | zero => rw [List.modify_zero_cons, List.sum_cons, List.sum_cons, add_right_comm]
    | succ i =>
      rw [List.modify_succ_cons, List.sum_cons, List.sum_cons, ih (by simpa using h), add_assoc]

theorem Metric.update_spec {m m' : Metric L} {u : Update} (h : m.update fadd u = some m') :
    m'.typ = m.typ ∧ m'.bounds = m.bounds ∧ m'.counts.length = m.counts.length ∧
      m'.version = m.version + 1 ∧
      m'.counts.sum = m.counts.sum + if u.isPut then 1 else 0 := by
  cases u with
  | add | sub | set =>
    cases h
    exact ⟨rfl, rfl, rfl, rfl, (add_zero _).symm⟩
  | put v =>
    simp only [Metric.update, Metric.put] at h
    split_ifs at h with hi
    cases h
    refine ⟨rfl, rfl, List.length_modify _ _ _, rfl, ?_⟩
    simp only [Update.isPut, if_true]
    exact sum_modify_succ hi

end Metric

/-- A step of a program that uses the package: a registry call, or an update of the metric at
position `i` of `metrics`, through the pointer a `Get` returned for it. -/
inductive Op (L : Type) where
  | call (c : Call L)
  | update (i : Nat) (u : Update)

def Op.targets {L : Type} (i : Nat) : Op L → Bool
  | .update j _ => j == i
  | .call _ => false

def Op.puts {L : Type} (i : Nat) : Op L → Bool
  | .update j u => j == i && u.isPut
  | .call _ => false

theorem countP_puts_le_targets {L : Type} (i : Nat) (ops : List (Op L)) :
    ops.countP (Op.puts i) ≤ ops.countP (Op.targets i) :=
  List.countP_mono_left fun op _ h => by
    cases op with
    | call => cases h
    | update j u =>
      simp only [Op.puts, Bool.and_eq_true] at h
      exact h.1

theorem countP_targets_update {L : Type} (ops : List (Op L)) (i j : Nat) (u : Update) :
    (ops ++ [Op.update i u]).countP (Op.targets j) =
      ops.countP (Op.targets j) + if i = j then 1 else 0 := by
  by_cases h : i = j <;> simp [List.countP_cons, Op.targets, h]

theorem countP_puts_update {L : Type} (ops : List (Op L)) (i j : Nat) (u : Update) :
    (ops ++ [Op.update i u]).countP (Op.puts j) =
      ops.countP (Op.puts j) + if i = j then (if u.isPut then 1 else 0) else 0 := by
  by_cases h : i = j <;> cases hu : u.isPut <;> simp [List.countP_cons, Op.puts, h, hu]

theorem ofNat_add_ite (n : Nat) (b : Bool) :
    BitVec.ofNat 64 (n + if b then 1 else 0) = BitVec.ofNat 64 n + if b then 1 else 0 := by
  cases b
  · exact (add_zero _).symm
  · exact BitVec.ofNat_add n 1

section Registry

variable {L : Type} [DecidableEq L] (unit : L) (fadd : Float64 → Float64 → Float64)

def updateAt (i : Nat) (u : Update) (reg : Registry L) : Option (Registry L) :=
  match reg.metrics[i]? with
  | none => none
  | some m => (m.update fadd u).map fun m' => { reg with metrics := reg.metrics.set i m' }

def runOps : Registry L → List (Op L) → Option (Registry L)
  | reg, [] => some reg
  | reg, .call c :: ops =>
    match call unit c reg with
    | .ok (reg', _) => runOps reg' ops
    | .error _ => none
  | reg, .update i u :: ops => (updateAt fadd i u reg).bind fun reg' => runOps reg' ops

/-- What the metrics record of the steps `ops` run so far: bounds as `RegisterMap` checked
them, each metric's version the number of updates it received, a histogram's counts the
number of values put in it, and no update of a metric that does not exist yet. -/
structure Accounted (reg : Registry L) (ops : List (Op L)) : Prop where
  bounds : BoundsChecked reg
  metrics : ∀ i m, reg.metrics[i]? = some m →
    m.version = BitVec.ofNat 64 (ops.countP (Op.targets i)) ∧
      (m.typ = .histogram → m.counts.sum = BitVec.ofNat 64 (ops.countP (Op.puts i)))
  fresh : ∀ i, reg.metrics.length ≤ i → ops.countP (Op.targets i) = 0

theorem init_accounted : Accounted (Registry.init : Registry L) [] :=
  ⟨init_boundsChecked, fun _ _ h => by simp [Registry.init] at h, fun _ _ => rfl⟩

theorem get_metrics {k : Nat} {l : L} {reg reg' : Registry L} {i : Nat}
    (h : get k l reg = .ok (reg', i)) :
    ∃ extra, reg'.metrics = reg.metrics ++ extra ∧
      ∀ m ∈ extra, m.version = 0 ∧ m.counts.sum = 0 := by
  obtain ⟨mm, -, ⟨-, rfl⟩ | ⟨-, -, rfl⟩⟩ := get_ok h
  · exact ⟨[], (List.append_nil _).symm, by simp⟩
  · refine ⟨_, rfl, fun m hm => ?_⟩
    rw [List.mem_singleton.mp hm]
    refine ⟨rfl, ?_⟩
    split_ifs
    · rw [List.sum_replicate, nsmul_zero]
    · rfl

theorem call_metrics {c : Call L} {reg reg' : Registry L} {r : Nat}
    (h : call unit c reg = .ok (reg', r)) :
    ∃ extra, reg'.metrics = reg.metrics ++ extra ∧
      ∀ m ∈ extra, m.version = 0 ∧ m.counts.sum = 0 := by
  cases c with
  | registerMap lc t n hp b =>
    obtain ⟨-, -, rfl⟩ := registerMap_ok h
    exact ⟨[], (List.append_nil _).symm, by simp⟩
  | register t n hp b =>
    obtain ⟨⟨reg₁, k⟩, h₁, h₂⟩ := bind_ok h
    obtain ⟨-, -, rfl⟩ := registerMap_ok h₁
    obtain ⟨extra, he, hz⟩ := get_metrics (k := k) (l := unit) h₂
    exact ⟨extra, he, hz⟩
  | get k l => exact get_metrics h

theorem Accounted.call {c : Call L} {reg reg' : Registry L} {r : Nat} {ops : List (Op L)}
    (ha : Accounted reg ops) (h : call unit c reg = .ok (reg', r)) :
    Accounted reg' (ops ++ [Op.call c]) := by
  obtain ⟨extra, he, hz⟩ := call_metrics unit h
  have hc : ∀ i, (ops ++ [Op.call c]).countP (Op.targets i) = ops.countP (Op.targets i) := by
    simp [Op.targets]
  have hp : ∀ i, (ops ++ [Op.call c]).countP (Op.puts i) = ops.countP (Op.puts i) := by
    simp [Op.puts]
  refine ⟨ha.bounds.call unit h, fun i m hm => ?_, fun i hi => ?_⟩
  · rw [hc, hp]
    rw [he] at hm
    by_cases hi : i < reg.metrics.length
    · rw [List.getElem?_append_left hi] at hm
      exact ha.metrics i m hm
    · rw [List.getElem?_append_right (by omega)] at hm
      obtain ⟨hv, hs⟩ := hz m (List.mem_iff_getElem?.mpr ⟨_, hm⟩)
      have h0 := ha.fresh i (by omega)
      have hp0 := Nat.le_zero.mp (h0 ▸ countP_puts_le_targets i ops)
      exact ⟨by rw [hv, h0]; rfl, fun _ => by rw [hs, hp0]; rfl⟩
  · rw [hc]
    exact ha.fresh i (by rw [he, List.length_append] at hi; omega)

theorem Accounted.update {i : Nat} {u : Update} {reg reg' : Registry L} {ops : List (Op L)}
    (ha : Accounted reg ops) (h : updateAt fadd i u reg = some reg') :
    Accounted reg' (ops ++ [Op.update i u]) := by
  unfold updateAt at h
  split at h
  · cases h
  rename_i m hm
  obtain ⟨m', hu, rfl⟩ := Option.map_eq_some'.mp h
  obtain ⟨ht, hb, hl, hv, hs⟩ := Metric.update_spec fadd hu
  have hi : i < reg.metrics.length := bound_of_getElem? hm
  refine ⟨⟨ha.bounds.maps, fun mt hmt => ?_⟩, fun j mj hj => ?_, fun j hj => ?_⟩
  · rcases List.mem_or_eq_of_mem_set hmt with hmt | rfl
    · exact ha.bounds.metrics mt hmt
    · obtain ⟨hvb, hc⟩ := ha.bounds.metrics m (List.mem_iff_getElem?.mpr ⟨i, hm⟩)
      exact ⟨hb ▸ hvb, fun hh => by rw [hl, hb]; exact hc (ht ▸ hh)⟩
  · dsimp only at hj
    rw [countP_targets_update, countP_puts_update]
    by_cases hji : i = j
    · subst hji
      rw [List.getElem?_set_self hi, Option.some_inj] at hj
      subst hj
      obtain ⟨hv₀, hc₀⟩ := ha.metrics i m hm
      exact ⟨by rw [hv, hv₀, if_pos rfl, BitVec.ofNat_add]; rfl,
        fun hh => by rw [hs, hc₀ (ht ▸ hh), if_pos rfl, ofNat_add_ite]⟩
    · rw [List.getElem?_set_ne hji] at hj
      rw [if_neg hji, if_neg hji, add_zero, add_zero]
      exact ha.metrics j mj hj
  · dsimp only at hj
    rw [List.length_set] at hj
    rw [countP_targets_update, if_neg (by omega), add_zero]
    exact ha.fresh j hj

theorem Accounted.run {reg reg' : Registry L} {hist ops : List (Op L)}
    (ha : Accounted reg hist) (h : runOps unit fadd reg ops = some reg') :
    Accounted reg' (hist ++ ops) := by
  induction ops generalizing reg hist with
  | nil =>
    cases h
    simpa using ha
  | cons op ops ih =>
    rw [← List.singleton_append, ← List.append_assoc]
    cases op with
    | call c =>
      rw [runOps] at h
      split at h
      · exact ih (ha.call unit ‹_›) h
      · cases h
    | update i u =>
      obtain ⟨reg₁, h₁, h₂⟩ := Option.bind_eq_some.mp h
      exact ih (ha.update fadd h₁) h₂

theorem BoundsChecked.put_isSome {reg : Registry L} (hb : BoundsChecked reg) {i : Nat}
    {m : Metric L} (hm : reg.metrics[i]? = some m) (hh : m.typ = .histogram) (v : Float64) :
    (updateAt fadd i (.put v) reg).isSome := by
  obtain ⟨hv, hc⟩ := hb.metrics m (List.mem_iff_getElem?.mpr ⟨i, hm⟩)
  obtain ⟨m', hput, -⟩ := Metric.put_bucket fadd hv (hc hh) v
  simp [updateAt, hm, Metric.update, hput]

/-- Over any program of registrations, `Get`s and updates that runs without a panic, every
metric's version is the number of updates addressed to it. A histogram keeps one count per
bucket, its counts add up to the number of `Put`s addressed to it, and a further `Put` of any
value does not panic. -/
theorem runOps_accounted (ops : List (Op L)) {reg : Registry L}
    (h : runOps unit fadd .init ops = some reg) {i : Nat} {m : Metric L}
    (hm : reg.metrics[i]? = some m) :
    m.version = BitVec.ofNat 64 (ops.countP (Op.targets i)) ∧
      (m.typ = .histogram →
        m.counts.length = m.bounds.length + 1 ∧
          m.counts.sum = BitVec.ofNat 64 (ops.countP (Op.puts i)) ∧
          ∀ v, (updateAt fadd i (.put v) reg).isSome) := by
  have ha := init_accounted.run unit fadd h
  rw [List.nil_append] at ha
  obtain ⟨hv, hc⟩ := ha.metrics i m hm
  exact ⟨hv, fun hh => ⟨(ha.bounds.metrics m (List.mem_iff_getElem?.mpr ⟨i, hm⟩)).2 hh, hc hh,
    ha.bounds.put_isSome fadd hm hh⟩⟩

end Registry

theorem counter_updates_accounted :
    let ops : List (Op Unit) := [.call (.register .counter "requests" "" []),
      .update 0 (.add (.num (1 : ℚ))), .update 0 (.sub (.num (1 : ℚ))), .update 0 (.set .zero)]
    ∃ reg m, runOps () (fun a _ => a) .init ops = some reg ∧ reg.metrics[0]? = some m ∧
      m.version = BitVec.ofNat 64 (ops.countP (Op.targets 0)) ∧
        (m.typ = .histogram →
          m.counts.length = m.bounds.length + 1 ∧
            m.counts.sum = BitVec.ofNat 64 (ops.countP (Op.puts 0)) ∧
            ∀ v, (updateAt (fun a _ => a) 0 (.put v) reg).isSome) :=
  ⟨_, _, rfl, rfl, runOps_accounted () (fun a _ => a)
    [.call (.register .counter "requests" "" []), .update 0 (.add (.num (1 : ℚ))),
      .update 0 (.sub (.num (1 : ℚ))), .update 0 (.set .zero)] rfl rfl⟩

end DeploymentManager.Metrics
