import DeploymentManager.Metrics.Registry

namespace DeploymentManager.Metrics

variable {L : Type} [DecidableEq L]

def key (m : Metric L) : String × L := (m.name, m.labels)

theorem bind_ok {α β ε : Type} {x : Except ε α} {f : α → Except ε β} {b : β}
    (h : (x >>= f) = .ok b) : ∃ a, x = .ok a ∧ f a = .ok b := by
  cases x with
  | error e => cases h
  | ok a => exact ⟨a, rfl, h⟩

theorem registerMap_ok {c : Option String} {t : MetricType} {n hp : String}
    {b : List Float64} {reg reg' : Registry L} {k : Nat}
    (h : registerMap c t n hp b reg = .ok (reg', k)) :
    n ∉ reg.metricNames ∧ k = reg.maps.length ∧
      reg' = { reg with
        metricNames := reg.metricNames ++ [n]
        maps := reg.maps ++ [⟨⟨t, n, hp, b⟩, ∅⟩] } := by
  unfold registerMap at h
  split at h
  · cases h
  simp only [ite_eq_iff, reduceCtorEq, and_false, false_or, Except.ok.injEq,
    Prod.mk.injEq] at h
  obtain ⟨-, -, -, -, hn, rfl, rfl⟩ := h
  exact ⟨hn, rfl, rfl⟩

theorem get_ok {k : Nat} {l : L} {reg reg' : Registry L} {i : Nat}
    (h : get k l reg = .ok (reg', i)) :
    ∃ mm, reg.maps[k]? = some mm ∧
      ((mm.metrics.lookup l = some i ∧ reg' = reg) ∨
        (mm.metrics.lookup l = none ∧ i = reg.metrics.length ∧
          reg' = { reg with
            metrics := (newMetric mm.config l reg.metrics).1,
            maps := reg.maps.set k { mm with metrics := mm.metrics.insert l i } })) := by
  unfold get at h
  split at h
  · cases h
  · rename_i mm hmm
    refine ⟨mm, hmm, ?_⟩
    split at h
    · cases h
      exact .inl ⟨‹_›, rfl⟩
    · cases h
      exact .inr ⟨‹_›, rfl, rfl⟩

/-- The registry's invariant: names are unique per map, every series once in the list, and
each map's cache holding exactly the series of its name. -/
structure Consistent (reg : Registry L) : Prop where
  names : reg.metricNames = reg.maps.map (·.config.name)
  names_nodup : (reg.maps.map (·.config.name)).Nodup
  keys_nodup : (reg.metrics.map key).Nodup
  cache : ∀ (h : Nat) (mm : MetricMap L), reg.maps[h]? = some mm → ∀ l i,
    mm.metrics.lookup l = some i ↔ reg.metrics[i]?.map key = some (mm.config.name, l)
  owned : ∀ m ∈ reg.metrics, m.name ∈ reg.metricNames

theorem init_consistent : Consistent (Registry.init : Registry L) :=
  ⟨rfl, List.nodup_nil, List.nodup_nil, by simp [Registry.init], by simp [Registry.init]⟩

theorem getElem?_append_singleton {α : Type} {xs : List α} {a b : α} {j : Nat} :
    (xs ++ [a])[j]? = some b ↔ xs[j]? = some b ∨ (j = xs.length ∧ a = b) := by
  rw [List.getElem?_append]
  split_ifs with hj
  · have : j ≠ xs.length := by omega
    simp [this]
  · rcases Nat.lt_or_ge xs.length j with hlt | hle
    · rw [List.getElem?_eq_none (by simp; omega)]
      simp [show j ≠ xs.length by omega, List.getElem?_eq_none (show xs.length ≤ j by omega)]
    · simp [show j = xs.length by omega]

theorem bound_of_getElem? {α : Type} {xs : List α} {j : Nat} {a : α} (h : xs[j]? = some a) :
    j < xs.length :=
  (List.getElem?_eq_some_iff.mp h).1

theorem Consistent.map_eq {reg : Registry L} (hc : Consistent reg) {h h' : Nat}
    {mm mm' : MetricMap L} (hm : reg.maps[h]? = some mm) (hm' : reg.maps[h']? = some mm')
    (hn : mm.config.name = mm'.config.name) : h = h' := by
  apply List.getElem?_inj (bound_of_getElem? (by simpa using congrArg (Option.map _) hm))
    hc.names_nodup
  simp [hm, hm', hn]

theorem Consistent.registerMap {c : Option String} {t : MetricType} {n hp : String}
    {b : List Float64} {reg reg' : Registry L} {k : Nat} (hc : Consistent reg)
    (h : Metrics.registerMap c t n hp b reg = .ok (reg', k)) : Consistent reg' := by
  obtain ⟨hn, -, rfl⟩ := registerMap_ok h
  have hn' : n ∉ reg.maps.map (·.config.name) := hc.names ▸ hn
  refine ⟨by simp [hc.names], ?_, hc.keys_nodup, ?_, ?_⟩
  · simpa [List.nodup_append] using And.intro hc.names_nodup hn'
  · intro h mm hmm l i
    rcases getElem?_append_singleton.mp hmm with hmm | ⟨-, rfl⟩
    · exact hc.cache h mm hmm l i
    · constructor
      · intro hl
        cases hl
      · intro hi
        obtain ⟨m, hm, he⟩ := Option.map_eq_some'.mp hi
        have hname : m.name = n := congrArg Prod.fst he
        exact (hn (hname ▸ hc.owned m (List.mem_iff_getElem?.mpr ⟨_, hm⟩))).elim
  · intro m hm
    exact List.mem_append_left _ (hc.owned m hm)

omit [DecidableEq L] in
theorem key_newMetric {c : MetricConfig} {l : L} {ms : List (Metric L)} {j : Nat}
    {x : String × L} :
    (newMetric c l ms).1[j]?.map key = some x ↔
      ms[j]?.map key = some x ∨ (j = ms.length ∧ (c.name, l) = x) := by
  simp only [newMetric, Option.map_eq_some', getElem?_append_singleton]
  constructor
  · rintro ⟨m, hm | ⟨hj, rfl⟩, rfl⟩
    · exact .inl ⟨m, hm, rfl⟩
    · exact .inr ⟨hj, rfl⟩
  · rintro (⟨m, hm, rfl⟩ | ⟨hj, rfl⟩)
    · exact ⟨m, .inl hm, rfl⟩
    · exact ⟨_, .inr ⟨hj, rfl⟩, rfl⟩

theorem getElem?_set_of_some {α : Type} {xs : List α} {k h : Nat} {a b : α}
    (hk : xs[k]? = some a) : (xs.set k b)[h]? = if k = h then some b else xs[h]? := by
  rw [List.getElem?_set, if_pos (bound_of_getElem? hk)]

theorem Consistent.no_series {reg : Registry L} (hc : Consistent reg) {k : Nat}
    {mm : MetricMap L} {l : L} (hmm : reg.maps[k]? = some mm) (hl : mm.metrics.lookup l = none)
    (j : Nat) : reg.metrics[j]?.map key ≠ some (mm.config.name, l) := fun hj => by
  have := (hc.cache k mm hmm l j).mpr hj
  rw [hl] at this
  cases this

theorem Consistent.cache_get_miss {reg : Registry L} (hc : Consistent reg) {k : Nat}
    {mm : MetricMap L} {l : L} (hmm : reg.maps[k]? = some mm) (hl : mm.metrics.lookup l = none)
    (h' : Nat) (mm' : MetricMap L)
    (hm' : (reg.maps.set k { mm with metrics := mm.metrics.insert l reg.metrics.length })[h']? =
      some mm') (l' : L) (j : Nat) :
    mm'.metrics.lookup l' = some j ↔
      (newMetric mm.config l reg.metrics).1[j]?.map key = some (mm'.config.name, l') := by
  rw [getElem?_set_of_some hmm] at hm'
  rw [key_newMetric]
  split_ifs at hm' with hk
  · cases hm'
    by_cases hl' : l' = l
    · subst hl'
      rw [AList.lookup_insert, Option.some.injEq]
      constructor
      · rintro rfl
        exact .inr ⟨rfl, rfl⟩
      · rintro (h | ⟨rfl, -⟩)
        · exact (hc.no_series hmm hl j h).elim
        · rfl
    · rw [AList.lookup_insert_ne hl', hc.cache k mm hmm l' j]
      simp [Ne.symm hl']
  · rw [hc.cache h' mm' hm' l' j]
    refine ⟨.inl, fun h => h.elim id fun ⟨_, he⟩ => ?_⟩
    exact (hk (hc.map_eq hmm hm' (congrArg Prod.fst he))).elim

theorem Consistent.get_miss {reg : Registry L} (hc : Consistent reg) {k : Nat}
    {mm : MetricMap L} {l : L} (hmm : reg.maps[k]? = some mm) (hl : mm.metrics.lookup l = none) :
    Consistent { reg with
      metrics := (newMetric mm.config l reg.metrics).1,
      maps := reg.maps.set k { mm with metrics := mm.metrics.insert l reg.metrics.length } } := by
  have hmaps := fun h' => getElem?_set_of_some (b := { mm with
    metrics := mm.metrics.insert l reg.metrics.length }) (h := h') hmm
  have hnames : (reg.maps.set k { mm with metrics := mm.metrics.insert l reg.metrics.length }).map
      (·.config.name) = reg.maps.map (·.config.name) := by
    apply List.ext_getElem?
    intro h'
    simp only [List.getElem?_map, hmaps]
    split_ifs with hk
    · rw [← hk, hmm]
      rfl
    · rfl
  refine ⟨hnames ▸ hc.names, hnames ▸ hc.names_nodup, ?_, hc.cache_get_miss hmm hl, ?_⟩
  · simp only [newMetric, List.map_append, List.map_singleton]
    refine List.nodup_append.mpr ⟨hc.keys_nodup, List.nodup_singleton _, ?_⟩
    intro x hx hx'
    obtain ⟨j, hj⟩ := List.mem_iff_getElem?.mp hx
    rw [List.getElem?_map, List.mem_singleton.mp hx'] at hj
    exact hc.no_series hmm hl j hj
  · intro m hm
    rcases List.mem_append.mp hm with hm | hm
    · exact hc.owned m hm
    · rw [List.mem_singleton.mp hm, hc.names]
      exact List.mem_map.mpr ⟨mm, List.mem_iff_getElem?.mpr ⟨k, hmm⟩, rfl⟩

theorem Consistent.get {k : Nat} {l : L} {reg reg' : Registry L} {i : Nat}
    (hc : Consistent reg) (h : Metrics.get k l reg = .ok (reg', i)) : Consistent reg' := by
  obtain ⟨mm, hmm, ⟨hl, rfl⟩ | ⟨hl, rfl, rfl⟩⟩ := get_ok h
  · exact hc
  · exact hc.get_miss hmm hl

theorem Consistent.call (unit : L) {c : Call L} {reg reg' : Registry L} {r : Nat}
    (hc : Consistent reg) (h : call unit c reg = .ok (reg', r)) : Consistent reg' := by
  cases c with
  | registerMap lc t n hp b => exact hc.registerMap h
  | register t n hp b =>
    obtain ⟨⟨reg₁, k⟩, h₁, h₂⟩ := bind_ok h
    exact (hc.registerMap h₁).get h₂
  | get k l => exact hc.get h

theorem exec_consistent (unit : L) :
    ∀ (calls : List (Call L)) {reg reg' : Registry L},
      Consistent reg → exec unit reg calls = .ok reg' → Consistent reg'
  | [], _, _, hc, h => by
    cases h
    exact hc
  | _ :: cs, _, _, hc, h => by
    obtain ⟨⟨reg₁, r⟩, h₁, h₂⟩ := bind_ok h
    exact exec_consistent unit cs (hc.call unit h₁) h₂

def Cached (reg : Registry L) (h : Nat) (l : L) (i : Nat) : Prop :=
  ∃ mm, reg.maps[h]? = some mm ∧ mm.metrics.lookup l = some i

theorem Consistent.cached {reg : Registry L} (hc : Consistent reg) {i : Nat}
    (hi : i < reg.metrics.length) : ∃ h l, Cached reg h l i := by
  obtain ⟨mm, hmm, hn⟩ := List.mem_map.mp (hc.names ▸ hc.owned _ (List.getElem_mem hi))
  obtain ⟨h, hh⟩ := List.mem_iff_getElem?.mp hmm
  exact ⟨h, reg.metrics[i].labels, mm, hh,
    (hc.cache h mm hh _ i).mpr (by simp [List.getElem?_eq_getElem hi, key, hn])⟩

theorem registerMap_cached {c : Option String} {t : MetricType} {n hp : String}
    {b : List Float64} {reg reg' : Registry L} {k : Nat}
    (h : registerMap c t n hp b reg = .ok (reg', k)) (h' : Nat) (l : L) (i : Nat) :
    Cached reg' h' l i ↔ Cached reg h' l i := by
  obtain ⟨-, -, rfl⟩ := registerMap_ok h
  simp only [Cached, getElem?_append_singleton]
  constructor
  · rintro ⟨mm, hmm | ⟨-, rfl⟩, hl⟩
    · exact ⟨mm, hmm, hl⟩
    · simp at hl
  · rintro ⟨mm, hmm, hl⟩
    exact ⟨mm, .inl hmm, hl⟩

theorem get_cached {k : Nat} {l : L} {reg reg' : Registry L} {i : Nat}
    (h : get k l reg = .ok (reg', i)) (h' : Nat) (l' : L) (j : Nat) :
    Cached reg' h' l' j ↔ Cached reg h' l' j ∨ (h' = k ∧ l' = l ∧ j = i) := by
  obtain ⟨mm, hmm, ⟨hl, rfl⟩ | ⟨hl, rfl, rfl⟩⟩ := get_ok h
  · refine ⟨.inl, fun h => h.elim id ?_⟩
    rintro ⟨rfl, rfl, rfl⟩
    exact ⟨mm, hmm, hl⟩
  · simp only [Cached, getElem?_set_of_some hmm]
    by_cases hk : k = h'
    · subst hk
      by_cases hl' : l' = l
      · subst hl'
        simp [hmm, hl, eq_comm]
      · simp [hmm, AList.lookup_insert_ne hl', hl']
    · simp [hk, Ne.symm hk]

def Call.mapName : Call L → Option String
  | .registerMap _ _ name _ _ => some name
  | .register _ name _ _ => some name
  | .get _ _ => none

/-- The names of the maps a program registers, in order: the map with handle `h` is the
`h`-th, as `RegisterMap` and `Register` each register one. -/
def mapNames (calls : List (Call L)) : List String :=
  calls.flatMap fun c => c.mapName.toList

/-- The series a call asks `Get` for, with the metric `r` it returned, after `made` maps were
registered: `Register` asks for its one label value on the map it registers. -/
def Call.gets (unit : L) (made r : Nat) : Call L → List (Nat × L × Nat)
  | .registerMap .. => []
  | .register .. => [(made, unit, r)]
  | .get h l => [(h, l, r)]

/-- The `Get`s of a program, as (map, label value, metric returned), from what its calls
returned. -/
def getsOf (unit : L) : Nat → List (Call L) → List Nat → List (Nat × L × Nat)
  | made, c :: cs, r :: rs =>
    c.gets unit made r ++ getsOf unit (made + c.mapName.toList.length) cs rs
  | _, _, _ => []

theorem call_cached (unit : L) {c : Call L} {reg reg' : Registry L} {r : Nat}
    (h : call unit c reg = .ok (reg', r)) (h' : Nat) (l : L) (i : Nat) :
    Cached reg' h' l i ↔ Cached reg h' l i ∨ (h', l, i) ∈ c.gets unit reg.maps.length r := by
  cases c with
  | registerMap lc t n hp b => simp [Call.gets, registerMap_cached h]
  | register t n hp b =>
    obtain ⟨⟨reg₁, k⟩, h₁, h₂⟩ := bind_ok h
    obtain ⟨-, rfl, -⟩ := registerMap_ok h₁
    simp [Call.gets, get_cached h₂, registerMap_cached h₁]
  | get k l => simp [Call.gets, get_cached h]

theorem call_maps (unit : L) {c : Call L} {reg reg' : Registry L} {r : Nat}
    (h : call unit c reg = .ok (reg', r)) :
    reg'.metricNames = reg.metricNames ++ c.mapName.toList ∧
      reg'.maps.length = reg.maps.length + c.mapName.toList.length := by
  have hg : ∀ {k l} {reg reg' : Registry L} {i}, get k l reg = .ok (reg', i) →
      reg'.metricNames = reg.metricNames ∧ reg'.maps.length = reg.maps.length := fun h => by
    obtain ⟨mm, -, ⟨-, rfl⟩ | ⟨-, -, rfl⟩⟩ := get_ok h <;> simp
  cases c with
  | registerMap lc t n hp b =>
    obtain ⟨-, -, rfl⟩ := registerMap_ok h
    simp [Call.mapName]
  | register t n hp b =>
    obtain ⟨⟨reg₁, k⟩, h₁, h₂⟩ := bind_ok h
    obtain ⟨-, -, rfl⟩ := registerMap_ok h₁
    simp [Call.mapName, hg h₂]
  | get k l => simp [Call.mapName, hg h]

theorem execTrace_cons_ok (unit : L) {c : Call L} {cs : List (Call L)} {reg reg' : Registry L}
    {rs' : List Nat} (h : execTrace unit reg (c :: cs) = .ok (reg', rs')) :
    ∃ reg₁ r rs, call unit c reg = .ok (reg₁, r) ∧ execTrace unit reg₁ cs = .ok (reg', rs) ∧
      rs' = r :: rs := by
  obtain ⟨⟨reg₁, r⟩, h₁, h₂⟩ := bind_ok h
  obtain ⟨⟨reg₂, rs⟩, h₃, h₄⟩ := bind_ok h₂
  cases h₄
  exact ⟨reg₁, r, rs, h₁, h₃, rfl⟩

/-- Over any run, the registry gains the maps the program registers, and its caches gain
exactly the series the program's `Get`s asked for, with the metrics they returned. -/
theorem execTrace_cached (unit : L) :
    ∀ (calls : List (Call L)) {reg reg' : Registry L} {rs : List Nat},
      execTrace unit reg calls = .ok (reg', rs) →
      reg'.metricNames = reg.metricNames ++ mapNames calls ∧
        ∀ h l i, Cached reg' h l i ↔
          Cached reg h l i ∨ (h, l, i) ∈ getsOf unit reg.maps.length calls rs
  | [], _, _, _, h => by
    cases h
    simp [mapNames, getsOf]
  | c :: cs, _, _, _, h => by
    obtain ⟨reg₁, r, rs, h₁, h₂, rfl⟩ := execTrace_cons_ok unit h
    obtain ⟨hn, hm⟩ := call_maps unit h₁
    obtain ⟨hn', hc'⟩ := execTrace_cached unit cs h₂
    refine ⟨by simp only [hn', hn, mapNames, List.flatMap_cons, List.append_assoc], fun h l i => ?_⟩
    rw [hc', call_cached unit h₁, getsOf, hm, List.mem_append, or_assoc]

theorem execTrace_exec (unit : L) :
    ∀ (calls : List (Call L)) {reg reg' : Registry L} {rs : List Nat},
      execTrace unit reg calls = .ok (reg', rs) → exec unit reg calls = .ok reg'
  | [], _, _, _, h => by
    cases h
    rfl
  | c :: cs, _, _, _, h => by
    obtain ⟨reg₁, r, rs, h₁, h₂, rfl⟩ := execTrace_cons_ok unit h
    simp only [exec, h₁]
    exact execTrace_exec unit cs h₂

/-- One metric per series of a program, whose maps have the names `names` and whose `Get`s
are `gets`: no two metrics share a name and a label value, every `Get` returned a metric of
its map's name and its label value, two `Get`s returned the same metric exactly when they
asked for the same series, and every metric was returned by a `Get`. -/
def OneMetricPerSeries (names : List String) (gets : List (Nat × L × Nat)) (reg : Registry L) :
    Prop :=
  (reg.metrics.map key).Nodup ∧
    (∀ k l i, (k, l, i) ∈ gets → ∃ name, names[k]? = some name ∧
      reg.metrics[i]?.map key = some (name, l)) ∧
    (∀ k l i k' l' i', (k, l, i) ∈ gets → (k', l', i') ∈ gets →
      (i = i' ↔ k = k' ∧ l = l')) ∧
    ∀ i < reg.metrics.length, ∃ k l, (k, l, i) ∈ gets

theorem Consistent.one_metric_per_series {reg : Registry L} (hc : Consistent reg)
    {gets : List (Nat × L × Nat)} (hg : ∀ k l i, (k, l, i) ∈ gets ↔ Cached reg k l i) :
    OneMetricPerSeries reg.metricNames gets reg := by
  refine ⟨hc.keys_nodup, fun k l i h => ?_, fun k l i k' l' i' h h' => ?_, fun i hi => ?_⟩
  · obtain ⟨mm, hmm, hl⟩ := (hg k l i).mp h
    exact ⟨mm.config.name, by simp [hc.names, hmm], (hc.cache k mm hmm l i).mp hl⟩
  · obtain ⟨mm, hmm, hl⟩ := (hg k l i).mp h
    obtain ⟨mm', hmm', hl'⟩ := (hg k' l' i').mp h'
    constructor
    · rintro rfl
      have e := ((hc.cache k mm hmm l i).mp hl).symm.trans ((hc.cache k' mm' hmm' l' i).mp hl')
      simp only [Option.some.injEq, Prod.mk.injEq] at e
      exact ⟨hc.map_eq hmm hmm' e.1, e.2⟩
    · rintro ⟨rfl, rfl⟩
      rw [hmm, Option.some.injEq] at hmm'
      subst hmm'
      rw [hl] at hl'
      exact Option.some.inj hl'
  · obtain ⟨k, l, hl⟩ := hc.cached hi
    exact ⟨k, l, (hg k l i).mpr hl⟩

/-- Every run of `RegisterMap`, `Register` and `Get` calls that does not panic ends with one
metric per series the program's `Get`s asked for, read off the calls and what they
returned. -/
theorem exec_one_metric_per_series (unit : L) (calls : List (Call L)) {reg : Registry L}
    {rs : List Nat} (h : execTrace unit .init calls = .ok (reg, rs)) :
    OneMetricPerSeries (mapNames calls) (getsOf unit 0 calls rs) reg := by
  obtain ⟨hn, hc⟩ := execTrace_cached unit calls h
  have hcons := exec_consistent unit calls init_consistent (execTrace_exec unit calls h)
  rw [show mapNames calls = reg.metricNames from hn.symm]
  exact hcons.one_metric_per_series fun k l i => by rw [hc]; simp [Cached, Registry.init]

theorem exec_one_metric_per_series_requests :
    let calls : List (Call String) := [.registerMap none .counter "requests" "" [],
      .get 0 "/", .get 0 "/foo", .get 0 "/", .register .gauge "load" "" []]
    ∃ reg rs, execTrace "" .init calls = .ok (reg, rs) ∧
      OneMetricPerSeries (mapNames calls) (getsOf "" 0 calls rs) reg :=
  ⟨_, _, rfl, exec_one_metric_per_series "" [.registerMap none .counter "requests" "" [],
      .get 0 "/", .get 0 "/foo", .get 0 "/", .register .gauge "load" "" []] rfl⟩

end DeploymentManager.Metrics
