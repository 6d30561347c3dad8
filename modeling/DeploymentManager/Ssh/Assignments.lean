import DeploymentManager.Ssh.Replicas

namespace DeploymentManager.Ssh

open Routing

variable {cfg : Config} {lg : Log2Ceil}

def SlicesCurrent (lg : Log2Ceil) (g : ColocationGroupState) : Prop :=
  ∀ c a, g.assignments.lookup c = some a → a.slices = (routingAlgo lg a g.replicas).1.slices

theorem reassignGroup_slicesCurrent (g : ColocationGroupState) :
    SlicesCurrent lg (reassignGroup lg id g) := by
  intro c a h
  rw [reassignGroup_lookup] at h
  obtain ⟨a₀, -, rfl⟩ := Option.map_eq_some'.mp h
  rw [reassignGroup_replicas, routingAlgo_slices_congr]

theorem groupStep_slicesCurrent (k : String) {g : ColocationGroupState} (req : Request)
    (h : SlicesCurrent lg g) : SlicesCurrent lg (groupStep cfg lg k g req) := by
  cases req with
  | registerReplica | startComponent =>
    simp only [groupStep]
    split_ifs
    · exact reassignGroup_slicesCurrent _
    · exact h
  | _ => exact h

theorem Reachable.slicesCurrent {m : Manager} (hm : Reachable cfg lg m) (k : String) :
    SlicesCurrent lg (groupOf cfg m k) :=
  hm.groupOf_of_step (P := fun _ g => SlicesCurrent lg g) (fun _ _ _ h => by simp at h)
    (fun k _ req h => groupStep_slicesCurrent k req h) k

/-- In every reachable state each routed component of a group of at most `maxSliceLen`
replicas holds the slices `routingAlgo` computes from the group's replicas: none without
replicas, else a partition of the key space whose slice `i` is owned by replica `i mod n`
alone. Every replica owns a slice, and only replicas own slices. -/
theorem reachable_assignment_slices {m : Manager} (hm : Reachable cfg lg m) {k c : String}
    {a : Assignment} (hc : (groupOf cfg m k).assignments.lookup c = some a)
    (hn : (groupOf cfg m k).replicas.length ≤ maxSliceLen) :
    a.slices = (routingAlgo lg a (groupOf cfg m k).replicas).1.slices ∧
      ((groupOf cfg m k).replicas = [] → a.slices = []) ∧
      ((groupOf cfg m k).replicas ≠ [] →
        KeySpacePartition (a.slices.map Slice.start) ∧
          ∀ i < a.slices.length, a.slices[i]?.map Slice.replicas =
            some [(groupOf cfg m k).replicas.getD (i % (groupOf cfg m k).replicas.length) ""]) ∧
      (∀ r ∈ (groupOf cfg m k).replicas, ∃ s ∈ a.slices, s.replicas = [r]) ∧
      (∀ s ∈ a.slices, ∀ r ∈ s.replicas, r ∈ (groupOf cfg m k).replicas) := by
  have hs := hm.slicesCurrent k c a hc
  have hsort : sortStrings (groupOf cfg m k).replicas = (groupOf cfg m k).replicas :=
    sortStrings_of_sorted (hm.replicas_sorted k).le_of_lt
  refine ⟨hs, fun h0 => by rw [hs, h0, routingAlgo_slices_nil], fun hne => ?_,
    fun r hr => hs ▸ routingAlgo_slices_cover lg a hn hr, fun s hs' r hr => ?_⟩
  · have h1 : 1 ≤ (groupOf cfg m k).replicas.length := List.length_pos.mpr hne
    rw [hs]
    refine ⟨routingAlgo_slices_partition lg a h1 hn, fun i hi => ?_⟩
    rw [routingAlgo_slices_getElem? lg a h1 hi, hsort]
  · obtain ⟨x, hx, he⟩ := routingAlgo_slices_owner lg a (hs ▸ hs')
    rw [he, List.mem_singleton] at hr
    exact hr ▸ hx

theorem reachable_assignment_slices_three_replicas :
    let cfg : Config := ⟨"app", "dep", ["l0"]⟩
    let m := run cfg .exactCeil .init
      [(.startComponent "g" "c" true, .allOk), (.registerReplica "g" "c1" 1, .allOk),
        (.registerReplica "g" "a1" 2, .allOk), (.registerReplica "g" "b1" 3, .allOk)]
    let a : Assignment := ((groupOf cfg m "g").assignments.lookup "c").get (by decide)
    a.slices = (routingAlgo .exactCeil a (groupOf cfg m "g").replicas).1.slices ∧
      ((groupOf cfg m "g").replicas = [] → a.slices = []) ∧
      ((groupOf cfg m "g").replicas ≠ [] →
        KeySpacePartition (a.slices.map Slice.start) ∧
          ∀ i < a.slices.length, a.slices[i]?.map Slice.replicas =
            some [(groupOf cfg m "g").replicas.getD (i % (groupOf cfg m "g").replicas.length) ""]) ∧
      (∀ r ∈ (groupOf cfg m "g").replicas, ∃ s ∈ a.slices, s.replicas = [r]) ∧
      (∀ s ∈ a.slices, ∀ r ∈ s.replicas, r ∈ (groupOf cfg m "g").replicas) :=
  reachable_assignment_slices (c := "c") (Reachable.init.run _) (Option.some_get _).symm (by decide)

def storesGroup (k : String) : Request → Bool
  | .registerReplica group _ _ | .startComponent group _ _ => group = k
  | _ => false

theorem groupStep_lookup (k : String) {g : ColocationGroupState} (req : Request) {c : String}
    {a : Assignment} (h : g.assignments.lookup c = some a) :
    ∃ a', (groupStep cfg lg k g req).assignments.lookup c = some a' ∧
      a'.version = a.version + if storesGroup k req then 1 else 0 := by
  cases req with
  | registerReplica group address pid =>
    by_cases hk : group = k <;> simp [groupStep, storesGroup, hk, h]
  | startComponent group component isRouted =>
    by_cases hk : group = k
    · simp [groupStep, storesGroup, hk, addComponent_lookup _ _ _ _ h]
    · simp [groupStep, storesGroup, hk, h]
  | _ => simp [groupStep, storesGroup, h]

theorem foldl_groupStep_lookup (k : String) (reqs : List Request) {g : ColocationGroupState}
    {c : String} {a : Assignment} (h : g.assignments.lookup c = some a) :
    ∃ a', (reqs.foldl (groupStep cfg lg k) g).assignments.lookup c = some a' ∧
      a'.version = a.version + reqs.countP (storesGroup k) := by
  induction reqs generalizing g a with
  | nil => exact ⟨a, h, rfl⟩
  | cons req reqs ih =>
    obtain ⟨a₁, h₁, hv₁⟩ := groupStep_lookup k req h
    obtain ⟨a', h', hv'⟩ := ih h₁
    refine ⟨a', h', ?_⟩
    rw [hv', hv₁, List.countP_cons]
    omega

/-- Once a group holds an assignment for a component, every later run keeps it, and its
version grows by exactly the number of requests that store the group. -/
theorem run_assignment_version (m : Manager) (steps : List (Request × Outcomes)) {k c : String}
    {a : Assignment} (h : (groupOf cfg m k).assignments.lookup c = some a) :
    ∃ a', (groupOf cfg (run cfg lg m steps) k).assignments.lookup c = some a' ∧
      a'.version = a.version + (steps.map Prod.fst).countP (storesGroup k) := by
  rw [groupOf_run]
  exact foldl_groupStep_lookup k _ h

theorem run_assignment_version_two_requests :
    let cfg : Config := ⟨"app", "dep", ["l0"]⟩
    let m := run cfg .exactCeil .init [(.startComponent "g" "c" true, .allOk)]
    let steps : List (Request × Outcomes) :=
      [(.registerReplica "g" "a" 1, .allOk), (.startComponent "g" "d" true, .allOk),
        (.registerReplica "h" "b" 2, .allOk)]
    ∃ a', (groupOf cfg (run cfg .exactCeil m steps) "g").assignments.lookup "c" = some a' ∧
      a'.version = 1 + (steps.map Prod.fst).countP (storesGroup "g") :=
  run_assignment_version (a := ⟨"app", "dep", "c", 1, []⟩) _ _ (by decide)

end DeploymentManager.Ssh
