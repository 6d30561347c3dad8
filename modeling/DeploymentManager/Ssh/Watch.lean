import DeploymentManager.Ssh.Steps

namespace DeploymentManager.Ssh

open Routing

variable {cfg : Config} {lg : Log2Ceil}

theorem updateRoutingInfo_later (m : Manager) (g : ColocationGroupState) (info : RoutingInfo) :
    m.routingState.Later (updateRoutingInfo m g info).routingState := by
  unfold updateRoutingInfo
  split_ifs
  · exact .refl _
  · exact VersionedMap.later_update _ _ _

theorem step_later (env : Outcomes) (m : Manager) (req : Request) :
    m.routingState.Later (step cfg lg env m req).1.routingState ∧
      m.appState.Later (step cfg lg env m req).1.appState := by
  cases req with
  | registerReplica group address pid =>
    refine ⟨updateRoutingInfo_later _ _ _, ?_⟩
    simp only [step, registerReplica, mayGenerateNewRoutingInfo, updateRoutingInfo_appState]
    exact VersionedMap.later_update _ _ _
  | startComponent group component isRouted =>
    refine ⟨by rw [step, startComponent_routingState]; exact updateRoutingInfo_later _ _ _, ?_⟩
    simp only [step, startComponent, startColocationGroup_appState, mayGenerateNewRoutingInfo,
      updateRoutingInfo_appState]
    exact VersionedMap.later_update _ _ _
  | exportListener l localAddress =>
    rw [step, exportListener_routingState, exportListener_appState]
    exact ⟨.refl _, VersionedMap.later_update _ _ _⟩
  | getComponentsToStart | getRoutingInfo | recvMetrics => exact ⟨.refl _, .refl _⟩

theorem run_later (m : Manager) (steps : List (Request × Outcomes)) :
    m.routingState.Later (run cfg lg m steps).routingState ∧
      m.appState.Later (run cfg lg m steps).appState := by
  induction steps generalizing m with
  | nil => exact ⟨.refl _, .refl _⟩
  | cons s steps ih =>
    obtain ⟨req, env⟩ := s
    obtain ⟨h₁, h₂⟩ := @step_later cfg lg env m req
    obtain ⟨h₃, h₄⟩ := ih (step cfg lg env m req).1
    exact ⟨h₁.trans h₃, h₂.trans h₄⟩

/-- A replica that polls the routing record of its group with the version it last received
misses no change: after any run the poll blocks only while the record is still the one it
holds, and otherwise answers at once with the current record at a newer version. -/
theorem run_getRoutingInfo_poll (m : Manager) (steps : List (Request × Outcomes))
    {group : String} {since : Option Nat} {info : RoutingInfo} {v : Nat}
    (h : getRoutingInfo m group since = .routingInfo info v) :
    (getRoutingInfo (run cfg lg m steps) group (some v) = .blocked ∧
        routingStateOf (run cfg lg m steps) group = info) ∨
      ∃ v', v < v' ∧ getRoutingInfo (run cfg lg m steps) group (some v) =
        .routingInfo (routingStateOf (run cfg lg m steps) group) v' := by
  obtain ⟨val, hr, rfl⟩ : ∃ val, m.routingState.read (routingKey group) since = some (val, v) ∧
      info = val.getD ⟨[], []⟩ := by
    simp only [getRoutingInfo, loadRoutingState] at h
    rcases hr : m.routingState.read (routingKey group) since with _ | ⟨val, v₀⟩ <;>
      simp only [hr, Option.map_none', Option.map_some', reduceCtorEq] at h
    obtain ⟨rfl, rfl⟩ := Reply.routingInfo.inj h
    exact ⟨val, rfl, rfl⟩
  rcases (@run_later cfg lg m steps).1.read hr with ⟨hb, hv⟩ | ⟨hlt, hs⟩
  · exact .inl ⟨by simp [getRoutingInfo, loadRoutingState, hb], by simp [routingStateOf, hv]⟩
  · exact .inr ⟨_, hlt, by simp [getRoutingInfo, loadRoutingState, hs, routingStateOf]⟩

theorem routing_poll_after_registration :
    let cfg : Config := ⟨"app", "dep", ["l0"]⟩
    let m' := run cfg .exactCeil .init [(.registerReplica "g" "a" 1, .allOk)]
    getRoutingInfo Manager.init "g" none = .routingInfo ⟨[], []⟩ 0 ∧
      ((getRoutingInfo m' "g" (some 0) = .blocked ∧ routingStateOf m' "g" = ⟨[], []⟩) ∨
        ∃ v', 0 < v' ∧ getRoutingInfo m' "g" (some 0) = .routingInfo (routingStateOf m' "g") v') :=
  ⟨rfl, @run_getRoutingInfo_poll _ _ .init _ "g" none _ _ rfl⟩

/-- A replica that polls the components of its group with the version it last received
misses no change: after any run the poll blocks only while the stored app state is the one
it read, and otherwise answers at once with the group's current components at a newer
version. -/
theorem run_getComponentsToStart_poll (m : Manager) (steps : List (Request × Outcomes))
    {group : String} {since : Option Nat} {names : List String} {v : Nat}
    (h : getComponentsToStart cfg m group since = .componentsToStart names v) :
    (getComponentsToStart cfg (run cfg lg m steps) group (some v) = .blocked ∧
        appStateOf cfg (run cfg lg m steps) = appStateOf cfg m) ∨
      ∃ v', v < v' ∧ getComponentsToStart cfg (run cfg lg m steps) group (some v) =
        .componentsToStart (groupOf cfg (run cfg lg m steps) group).components.keys v' := by
  obtain ⟨val, hr⟩ : ∃ val, m.appState.read appVersionStateKey since = some (val, v) := by
    simp only [getComponentsToStart, loadAppState] at h
    rcases hr : m.appState.read appVersionStateKey since with _ | ⟨val, v₀⟩ <;>
      simp only [hr, Option.map_none', Option.map_some', reduceCtorEq] at h
    obtain ⟨-, rfl⟩ := Reply.componentsToStart.inj h
    exact ⟨val, rfl⟩
  have hval : m.appState.value appVersionStateKey = val := by
    unfold VersionedMap.read at hr
    split_ifs at hr
    exact (Prod.mk.inj (Option.some.inj hr)).1
  rcases (@run_later cfg lg m steps).2.read hr with ⟨hb, hv⟩ | ⟨hlt, hs⟩
  · exact .inl ⟨by simp [getComponentsToStart, loadAppState, hb],
      by simp only [appStateOf, hv, hval]⟩
  · exact .inr ⟨_, hlt, by simp [getComponentsToStart, loadAppState, hs, groupOf, appStateOf]⟩

theorem components_poll_after_start :
    let cfg : Config := ⟨"app", "dep", ["l0"]⟩
    let m' := run cfg .exactCeil .init [(.startComponent "g" "c" false, .allOk)]
    getComponentsToStart cfg Manager.init "g" none = .componentsToStart [] 0 ∧
      ((getComponentsToStart cfg m' "g" (some 0) = .blocked ∧
          appStateOf cfg m' = appStateOf cfg Manager.init) ∨
        ∃ v', 0 < v' ∧ getComponentsToStart cfg m' "g" (some 0) =
          .componentsToStart (groupOf cfg m' "g").components.keys v') :=
  ⟨rfl, @run_getComponentsToStart_poll _ _ .init _ "g" none _ _ rfl⟩

end DeploymentManager.Ssh
