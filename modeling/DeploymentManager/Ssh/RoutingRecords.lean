import Mathlib.Data.List.MinMax
import DeploymentManager.Ssh.Assignments

namespace DeploymentManager.Ssh

open Routing

variable {cfg : Config} {lg : Log2Ceil}

theorem routingStateOf_congr {m m' : Manager} (h : m'.routingState = m.routingState)
    (k : String) : routingStateOf m' k = routingStateOf m k := by
  simp only [routingStateOf, h]

theorem step_store_cases (env : Outcomes) (m : Manager) (req : Request) :
    (∃ group g', groupOf cfg (step cfg lg env m req).1 group = g' ∧
      (appStateOf cfg (step cfg lg env m req).1).groups = (appStateOf cfg m).groups.insert group g' ∧
      (step cfg lg env m req).1.routingState =
        (updateRoutingInfo m g' (routingInfoOf env.order g')).routingState) ∨
    ((appStateOf cfg (step cfg lg env m req).1).groups = (appStateOf cfg m).groups ∧
      (step cfg lg env m req).1.routingState = m.routingState) := by
  cases req with
  | registerReplica group address pid =>
    refine .inl ⟨group, _, by rw [groupOf_step]; simp [groupStep], ?_,
      registerReplica_routingState _ _ _ _ _⟩
    rw [step, appStateOf_registerReplica]
  | startComponent group component isRouted =>
    refine .inl ⟨group, _, by rw [groupOf_step]; simp [groupStep], ?_,
      startComponent_routingState _ _ _ _ _⟩
    rw [step, appStateOf_startComponent]
  | exportListener l localAddress =>
    refine .inr ⟨?_, exportListener_routingState _ _ _ _⟩
    simp [step, appStateOf, exportListener_appState]
  | getComponentsToStart | getRoutingInfo | recvMetrics => exact .inr ⟨rfl, rfl⟩

/-- The routing record of every stored group whose routing key no other stored group
shares holds the group's replicas and, in some order, its assignments. -/
def RecordsAgree (cfg : Config) (m : Manager) : Prop :=
  ∀ k g, (appStateOf cfg m).groups.lookup k = some g →
    (∀ k' ∈ (appStateOf cfg m).groups.keys, routingKey k' = routingKey k → k' = k) →
    (routingStateOf m k).replicas = g.replicas ∧
      (routingStateOf m k).assignments.Perm (g.assignments.entries.map (·.2))

theorem RecordsAgree.step {m : Manager} (hm : Reachable cfg lg m) (h : RecordsAgree cfg m)
    (env : Outcomes) (req : Request) : RecordsAgree cfg (step cfg lg env m req).1 := by
  have hname := (hm.step env req).groupOf_name
  rcases @step_store_cases cfg lg env m req with
    ⟨group, g', rfl, hg, hr⟩ | ⟨hg, hr⟩
  · intro k g hk huniq
    rw [routingStateOf_congr hr, routingStateOf_updateRoutingInfo, hname]
    rw [hg] at hk huniq
    by_cases hkg : k = group
    · subst hkg
      rw [AList.lookup_insert, Option.some_inj] at hk
      subst hk
      rw [if_pos rfl]
      exact ⟨rfl, env.order_perm _⟩
    · rw [AList.lookup_insert_ne hkg] at hk
      have hkey : routingKey k ≠ routingKey group := fun e =>
        hkg (huniq group (by simp) e.symm).symm
      rw [if_neg hkey]
      refine h k g hk fun k' hk' e => huniq k' ?_ e
      rw [AList.keys_insert]
      by_cases hk'g : k' = group
      · exact hk'g ▸ List.mem_cons_self _ _
      · exact List.mem_cons_of_mem _ ((List.mem_erase_of_ne hk'g).mpr hk')
  · intro k g hk huniq
    rw [routingStateOf_congr hr]
    rw [hg] at hk huniq
    exact h k g hk huniq

theorem Reachable.recordsAgree {m : Manager} (hm : Reachable cfg lg m) : RecordsAgree cfg m := by
  induction hm with
  | init => intro k g hk; simp [appStateOf, Manager.init, Config.freshState] at hk
  | step env req hm ih => exact ih.step hm env req

/-- The routing record of a stored group agrees with the group when no other stored group's
name cleans to the same routing key. -/
theorem reachable_routing_record_agrees {m : Manager} (hm : Reachable cfg lg m) {k : String}
    {g : ColocationGroupState} (hg : (appStateOf cfg m).groups.lookup k = some g)
    (huniq : ∀ k' ∈ (appStateOf cfg m).groups.keys, routingKey k' = routingKey k → k' = k) :
    (routingStateOf m k).replicas = g.replicas ∧
      (routingStateOf m k).assignments.Perm (g.assignments.entries.map (·.2)) :=
  hm.recordsAgree k g hg huniq

theorem routing_record_agrees_two_groups :
    let cfg : Config := ⟨"app", "dep", ["l0"]⟩
    let m := run cfg .exactCeil .init
      [(.registerReplica "x" "a" 1, .allOk), (.startComponent "y" "d" true, .allOk),
        (.registerReplica "y" "b" 2, .allOk), (.startComponent "x" "c" true, .allOk)]
    (routingStateOf m "x").replicas = (groupOf cfg m "x").replicas ∧
      (routingStateOf m "x").assignments.Perm
        ((groupOf cfg m "x").assignments.entries.map (·.2)) :=
  reachable_routing_record_agrees (Reachable.init.run _) rfl (by decide)

theorem mem_values {A : AList (fun _ : String => Assignment)} {x : Assignment} :
    x ∈ A.entries.map (·.2) ↔ ∃ c, A.lookup c = some x := by
  constructor
  · intro h
    obtain ⟨⟨c, x'⟩, hm, rfl⟩ := List.mem_map.mp h
    exact ⟨c, AList.mem_lookup_iff.mpr hm⟩
  · rintro ⟨c, hc⟩
    exact List.mem_map.mpr ⟨⟨c, x⟩, AList.mem_lookup_iff.mp hc, rfl⟩

theorem reassignGroup_values_not_perm {g g₀ : ColocationGroupState}
    (hsub : ∀ c a, g.assignments.lookup c = some a → g₀.assignments.lookup c = some a)
    {c : String} {a : Assignment} (hc : g.assignments.lookup c = some a) :
    ¬((reassignGroup lg id g₀).assignments.entries.map (·.2)).Perm
      (g.assignments.entries.map (·.2)) := by
  intro hp
  obtain ⟨a₀, ha₀⟩ := Option.ne_none_iff_exists'.mp
    (mt List.argmax_eq_none.mp (List.ne_nil_of_mem (mem_values.mpr ⟨c, hc⟩))
      : (g.assignments.entries.map (·.2)).argmax Assignment.version ≠ none)
  obtain ⟨c₀, hc₀⟩ := mem_values.mp (List.argmax_mem ha₀)
  have hnew : (routingAlgo lg a₀ g₀.replicas).1 ∈
      (reassignGroup lg id g₀).assignments.entries.map (·.2) :=
    mem_values.mpr ⟨c₀, by rw [reassignGroup_lookup, hsub c₀ a₀ hc₀]; rfl⟩
  have hle := List.le_of_mem_argmax (hp.subset hnew) ha₀
  rw [routingAlgo_version] at hle
  omega

theorem step_routingState_of_storesGroup (env : Outcomes) (m : Manager) {req : Request}
    {k : String} (hreq : storesGroup k req = true) :
    (step cfg lg env m req).1.routingState =
      (updateRoutingInfo m (groupStep cfg lg k (groupOf cfg m k) req)
        (routingInfoOf env.order (groupStep cfg lg k (groupOf cfg m k) req))).routingState := by
  cases req with
  | registerReplica group address pid =>
    obtain rfl : group = k := by simpa [storesGroup] using hreq
    simp only [step, groupStep, if_true]
    exact registerReplica_routingState _ _ _ _ _
  | startComponent group component isRouted =>
    obtain rfl : group = k := by simpa [storesGroup] using hreq
    simp only [step, groupStep, if_true]
    exact startComponent_routingState _ _ _ _ _
  | _ => simp [storesGroup] at hreq

theorem groupStep_of_storesGroup {k : String} (g : ColocationGroupState) {req : Request}
    (hreq : storesGroup k req = true) :
    ∃ g₀ : ColocationGroupState, g₀.name = g.name ∧
      (∀ c a, g.assignments.lookup c = some a → g₀.assignments.lookup c = some a) ∧
      groupStep cfg lg k g req = reassignGroup lg id g₀ := by
  cases req with
  | registerReplica group address pid =>
    obtain rfl : group = k := by simpa [storesGroup] using hreq
    exact ⟨addReplica g address pid, by simp, by simp, by simp [groupStep]⟩
  | startComponent group component isRouted =>
    obtain rfl : group = k := by simpa [storesGroup] using hreq
    exact ⟨addComponent cfg g component isRouted, by simp,
      fun c a h => addComponent_lookup _ _ _ _ h, by simp [groupStep]⟩
  | _ => simp [storesGroup] at hreq

/-- While a group has a routed component and no other stored group shares its routing key,
every `registerReplica` or `startComponent` for it writes its routing record, whether or not
the replicas or the routed components changed. -/
theorem reachable_routed_group_record_rewritten {m : Manager} (hm : Reachable cfg lg m)
    (env : Outcomes) {req : Request} {k c : String} {a : Assignment}
    (hreq : storesGroup k req = true) (hc : (groupOf cfg m k).assignments.lookup c = some a)
    (huniq : ∀ k' ∈ (appStateOf cfg m).groups.keys, routingKey k' = routingKey k → k' = k) :
    (step cfg lg env m req).1.routingState.version (routingKey k) =
      m.routingState.version (routingKey k) + 1 := by
  have hstored : (appStateOf cfg m).groups.lookup k = some (groupOf cfg m k) := by
    cases hk : (appStateOf cfg m).groups.lookup k with
    | none => simp [groupOf, findOrAddGroup, hk] at hc
    | some g => simp [groupOf, findOrAddGroup, hk]
  have hagree := hm.recordsAgree k _ hstored huniq
  obtain ⟨g₀, hname, hsub, hstep⟩ := @groupStep_of_storesGroup cfg lg k (groupOf cfg m k) req hreq
  rw [hm.groupOf_name] at hname
  have hchanged : routingStateOf m k ≠ routingInfoOf env.order (reassignGroup lg id g₀) := by
    intro heq
    refine @reassignGroup_values_not_perm lg _ _ hsub _ _ hc (List.Perm.trans ?_ hagree.2)
    rw [heq]
    exact (env.order_perm _).symm
  rw [step_routingState_of_storesGroup env m hreq, hstep, updateRoutingInfo,
    reassignGroup_name, hname, if_neg hchanged]
  simp

theorem duplicate_registration_record_rewritten :
    let cfg : Config := ⟨"app", "dep", ["l0"]⟩
    let m := run cfg .exactCeil .init
      [(.registerReplica "main" "a" 1, .allOk), (.startComponent "main" "c" true, .allOk)]
    (step cfg .exactCeil .allOk m (.registerReplica "main" "a" 1)).1.routingState.version
        (routingKey "main") = m.routingState.version (routingKey "main") + 1 :=
  reachable_routed_group_record_rewritten (c := "c") (a := ⟨"app", "dep", "c", 1, [⟨0, ["a"]⟩]⟩)
    (Reachable.init.run _) _ rfl (by decide) (by decide)

/-- `path.Join` cleans the group name, so groups `x` and `x/` share one routing record:
starting a component in `x/` overwrites the record of `x`, whose replica `a` it drops. -/
theorem routing_record_shared_by_cleaned_names :
    let cfg : Config := ⟨"app", "dep", ["l0"]⟩
    let m := run cfg .exactCeil .init
      [(.registerReplica "x" "a" 1, .allOk), (.startComponent "x/" "c" false, .allOk)]
    ((appStateOf cfg m).groups.lookup "x").isSome ∧ (groupOf cfg m "x").replicas = ["a"] ∧
      routingStateOf m "x" = ⟨[], []⟩ := by
  decide

/-- Registering a replica that is already registered, or restarting a routed component,
rewrites the group's routing record: `routingAlgo` bumps the version of every assignment, so
`gproto.Equal` never finds the new info unchanged. -/
theorem repeated_requests_write_routing_record :
    let cfg : Config := ⟨"app", "dep", ["l0"]⟩
    let m := run cfg .exactCeil .init
      [(.registerReplica "main" "a" 1, .allOk), (.startComponent "main" "c" true, .allOk)]
    "a" ∈ (groupOf cfg m "main").replicas ∧
      ((groupOf cfg m "main").assignments.lookup "c").isSome ∧
      (step cfg .exactCeil .allOk m (.registerReplica "main" "a" 1)).1.routingState.version
          (routingKey "main") = m.routingState.version (routingKey "main") + 1 ∧
      (step cfg .exactCeil .allOk m (.startComponent "main" "c" true)).1.routingState.version
          (routingKey "main") = m.routingState.version (routingKey "main") + 1 := by
  decide

end DeploymentManager.Ssh
