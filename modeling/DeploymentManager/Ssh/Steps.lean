import Mathlib.Data.List.GetD
import DeploymentManager.Routing.Partition
import DeploymentManager.Ssh.Model

namespace DeploymentManager.Ssh

open Routing

variable {cfg : Config} {lg : Log2Ceil}

def groupOf (cfg : Config) (m : Manager) (k : String) : ColocationGroupState :=
  findOrAddGroup (appStateOf cfg m) k

@[simp] theorem groupOf_init (k : String) :
    groupOf cfg Manager.init k = ⟨k, ∅, [], [], ∅⟩ := rfl

def Outcomes.allOk : Outcomes :=
  ⟨id, fun _ => .refl _, id, fun _ => .refl _, fun _ _ _ => .ok (), fun _ => .ok "127.0.0.1:8000"⟩

@[simp] theorem appStateOf_update (m : Manager) (s : AppVersionState) :
    appStateOf cfg { m with appState := m.appState.update appVersionStateKey s } = s := by
  simp [appStateOf]

@[simp] theorem updateRoutingInfo_appState (m : Manager) (g : ColocationGroupState)
    (info : RoutingInfo) : (updateRoutingInfo m g info).appState = m.appState := by
  unfold updateRoutingInfo; split_ifs <;> rfl

@[simp] theorem updateRoutingInfo_started (m : Manager) (g : ColocationGroupState)
    (info : RoutingInfo) : (updateRoutingInfo m g info).started = m.started := by
  unfold updateRoutingInfo; split_ifs <;> rfl

@[simp] theorem updateRoutingInfo_launches (m : Manager) (g : ColocationGroupState)
    (info : RoutingInfo) : (updateRoutingInfo m g info).launches = m.launches := by
  unfold updateRoutingInfo; split_ifs <;> rfl

@[simp] theorem updateRoutingInfo_proxies (m : Manager) (g : ColocationGroupState)
    (info : RoutingInfo) : (updateRoutingInfo m g info).proxies = m.proxies := by
  unfold updateRoutingInfo; split_ifs <;> rfl

theorem routingStateOf_updateRoutingInfo (m : Manager) (g : ColocationGroupState)
    (info : RoutingInfo) (k : String) :
    routingStateOf (updateRoutingInfo m g info) k =
      if routingKey k = routingKey g.name then info else routingStateOf m k := by
  unfold updateRoutingInfo
  split_ifs with h₁ h₂ <;> simp_all [routingStateOf]

@[simp] theorem startColocationGroup_appState (launch : String → String → Nat → Except String Unit)
    (m : Manager) (group : String) :
    (startColocationGroup cfg launch m group).1.appState = m.appState := by
  unfold startColocationGroup; split_ifs <;> [rfl; split <;> rfl]

@[simp] theorem appStateOf_startColocationGroup
    (launch : String → String → Nat → Except String Unit) (m : Manager) (group : String) :
    appStateOf cfg (startColocationGroup cfg launch m group).1 = appStateOf cfg m := by
  simp [appStateOf]

@[simp] theorem startColocationGroup_routingState
    (launch : String → String → Nat → Except String Unit) (m : Manager) (group : String) :
    (startColocationGroup cfg launch m group).1.routingState = m.routingState := by
  unfold startColocationGroup; split_ifs <;> [rfl; split <;> rfl]

@[simp] theorem startColocationGroup_proxies
    (launch : String → String → Nat → Except String Unit) (m : Manager) (group : String) :
    (startColocationGroup cfg launch m group).1.proxies = m.proxies := by
  unfold startColocationGroup; split_ifs <;> [rfl; split <;> rfl]

theorem exportListener_appState (listen : String → ListenResult) (m : Manager) (l : Listener)
    (localAddress : String) :
    (exportListener cfg listen m l localAddress).1.appState =
      m.appState.update appVersionStateKey
        { appStateOf cfg m with listeners := (appStateOf cfg m).listeners ++ [l] } := by
  simp only [exportListener]; split <;> (try split) <;> rfl

@[simp] theorem exportListener_routingState (listen : String → ListenResult) (m : Manager)
    (l : Listener) (localAddress : String) :
    (exportListener cfg listen m l localAddress).1.routingState = m.routingState := by
  simp only [exportListener]; split <;> (try split) <;> rfl

@[simp] theorem exportListener_started (listen : String → ListenResult) (m : Manager)
    (l : Listener) (localAddress : String) :
    (exportListener cfg listen m l localAddress).1.started = m.started := by
  simp only [exportListener]; split <;> (try split) <;> rfl

@[simp] theorem exportListener_launches (listen : String → ListenResult) (m : Manager)
    (l : Listener) (localAddress : String) :
    (exportListener cfg listen m l localAddress).1.launches = m.launches := by
  simp only [exportListener]; split <;> (try split) <;> rfl

@[simp] theorem routingAlgo_sortStrings (a : Assignment) (c : List String) :
    routingAlgo lg a (sortStrings c) = routingAlgo lg a c := by
  simp only [routingAlgo, sortStrings_sortStrings]

theorem kreplace_cons {β : Type} (c k : String) (b v : β) (l : List (Σ _ : String, β)) :
    (⟨k, v⟩ :: l).kreplace c b = if c = k then ⟨c, b⟩ :: l else ⟨k, v⟩ :: l.kreplace c b := by
  split_ifs with hk
  · exact List.lookmap_cons_some _ _ (if_pos hk)
  · exact List.lookmap_cons_none _ _ (if_neg hk)

theorem dlookup_kreplace {β : Type} (c c' : String) (b : β) (l : List (Σ _ : String, β)) :
    (l.kreplace c b).dlookup c' = if c' = c then (l.dlookup c').map fun _ => b else l.dlookup c' := by
  induction l with
  | nil => split_ifs <;> rfl
  | cons e l ih =>
    obtain ⟨k, v⟩ := e
    rw [kreplace_cons]
    by_cases hk : c = k <;> by_cases h : c' = k
    · subst hk h; simp [List.dlookup_cons_eq]
    · subst hk; simp [List.dlookup_cons_ne _ (⟨c, _⟩ : Σ _ : String, β) h, h]
    · subst h; simp [List.dlookup_cons_eq, Ne.symm hk, hk]
    · simp only [if_neg hk, List.dlookup_cons_ne _ (⟨k, v⟩ : Σ _ : String, β) h, ih]

theorem lookup_replace {β : Type} (c c' : String) (b : β) (s : AList (fun _ : String => β)) :
    (s.replace c b).lookup c' = if c' = c then (s.lookup c').map fun _ => b else s.lookup c' :=
  dlookup_kreplace c c' b s.entries

theorem alist_ext {β : Type} {s t : AList (fun _ : String => β)} (hk : s.keys = t.keys)
    (hl : ∀ c, s.lookup c = t.lookup c) : s = t := by
  obtain ⟨l, hnd⟩ := s
  obtain ⟨l', hnd'⟩ := t
  refine AList.ext ?_
  change l = l'
  change l.keys = l'.keys at hk
  change ∀ c, l.dlookup c = l'.dlookup c at hl
  induction l generalizing l' with
  | nil => exact (List.eq_nil_of_map_eq_nil hk.symm).symm
  | cons e l ih =>
    obtain ⟨k, v⟩ := e
    obtain _ | ⟨⟨k', v'⟩, l'⟩ := l'
    · cases hk
    obtain ⟨rfl, htl⟩ : k = k' ∧ l.keys = l'.keys := List.cons_eq_cons.mp hk
    have hv := hl k
    rw [List.dlookup_cons_eq, List.dlookup_cons_eq, Option.some_inj] at hv
    subst hv
    have hnk : k ∉ l.keys := (List.nodupKeys_cons.mp hnd).1
    refine congrArg _ (ih (List.nodupKeys_cons.mp hnd).2 l' (List.nodupKeys_cons.mp hnd').2 htl
      fun c => ?_)
    by_cases hc : c = k
    · subst hc
      rw [List.dlookup_eq_none.mpr hnk, List.dlookup_eq_none.mpr (htl ▸ hnk)]
    · simpa [List.dlookup_cons_ne _ (⟨k, v⟩ : Σ _ : String, β) hc] using hl c

theorem reassign_keys (es : List (Σ _ : String, Assignment))
    (A : AList (fun _ : String => Assignment)) (rs : List String) :
    (reassign lg es A rs).1.keys = A.keys := by
  induction es generalizing A rs with
  | nil => rfl
  | cons e es ih => rw [reassign, ih, AList.keys_replace]

theorem reassign_replicas (es : List (Σ _ : String, Assignment))
    (A : AList (fun _ : String => Assignment)) (rs : List String) :
    sortStrings (reassign lg es A rs).2 = sortStrings rs := by
  induction es generalizing A rs with
  | nil => rfl
  | cons e es ih => simp [reassign, ih]

theorem reassign_lookup (es : List (Σ _ : String, Assignment))
    (A : AList (fun _ : String => Assignment)) (rs : List String) (hnd : es.NodupKeys)
    (hA : ∀ x ∈ es, A.lookup x.1 = some x.2) (c : String) :
    (reassign lg es A rs).1.lookup c =
      if c ∈ es.keys then (A.lookup c).map (fun a => (routingAlgo lg a rs).1)
      else A.lookup c := by
  induction es generalizing A rs with
  | nil => rfl
  | cons e es ih =>
    obtain ⟨c₀, a₀⟩ := e
    obtain ⟨hc₀, hnd⟩ := List.nodupKeys_cons.mp hnd
    have hA' : ∀ x ∈ es, (A.replace c₀ (routingAlgo lg a₀ rs).1).lookup x.1 = some x.2 :=
      fun x hx => by
        rw [lookup_replace, if_neg (fun h => hc₀ (by simpa only [h] using List.mem_keys_of_mem hx))]
        exact hA x (List.mem_cons_of_mem _ hx)
    simp only [reassign, routingAlgo_candidates, ih _ _ hnd hA', routingAlgo_sortStrings,
      lookup_replace]
    by_cases hc : c = c₀
    · subst hc
      simp [hc₀, hA ⟨c, a₀⟩ (List.mem_cons_self _ _)]
    · by_cases hm : c ∈ es.keys <;> simp [hc, hm]

@[simp] theorem reassignGroup_replicas (visit : List (Σ _ : String, Assignment) →
    List (Σ _ : String, Assignment)) (g : ColocationGroupState) :
    (reassignGroup lg visit g).replicas = sortStrings g.replicas :=
  reassign_replicas _ _ _

@[simp] theorem reassignGroup_name (g : ColocationGroupState) :
    (reassignGroup lg id g).name = g.name := rfl

@[simp] theorem reassignGroup_replicaPids (g : ColocationGroupState) :
    (reassignGroup lg id g).replicaPids = g.replicaPids := rfl

theorem reassign_lookup_of_perm {es : List (Σ _ : String, Assignment)}
    {A : AList (fun _ : String => Assignment)} (hp : es.Perm A.entries) (rs : List String)
    (c : String) :
    (reassign lg es A rs).1.lookup c = (A.lookup c).map fun a => (routingAlgo lg a rs).1 := by
  rw [reassign_lookup _ _ _ ((List.perm_nodupKeys hp).mpr A.nodupKeys)
    (fun x hx => AList.mem_lookup_iff.mpr (hp.subset hx))]
  split_ifs with h
  · rfl
  · rw [AList.lookup_eq_none.mpr (AList.mem_keys.not.mpr
      fun h' => h ((hp.map Sigma.fst).mem_iff.mpr h')), Option.map_none']

/-- The first loop of `mayGenerateNewRoutingInfo` leaves the same group whatever order Go's
map iteration visits the assignments in. -/
theorem reassignGroup_visit (visit : List (Σ _ : String, Assignment) →
    List (Σ _ : String, Assignment)) (g : ColocationGroupState)
    (hv : (visit g.assignments.entries).Perm g.assignments.entries) :
    reassignGroup lg visit g = reassignGroup lg id g := by
  have ha : (reassign lg (visit g.assignments.entries) g.assignments g.replicas).1 =
      (reassign lg g.assignments.entries g.assignments g.replicas).1 :=
    alist_ext (by rw [reassign_keys, reassign_keys]) fun c => by
      rw [reassign_lookup_of_perm hv, reassign_lookup_of_perm (.refl _)]
  simp only [reassignGroup, ha, reassign_replicas, id]

@[simp] theorem reassignGroup_lookup (g : ColocationGroupState) (c : String) :
    (reassignGroup lg id g).assignments.lookup c =
      (g.assignments.lookup c).map (fun a => (routingAlgo lg a g.replicas).1) :=
  reassign_lookup_of_perm (.refl _) _ c

@[simp] theorem addReplica_name (g : ColocationGroupState) (a : String) (p : Int) :
    (addReplica g a p).name = g.name := by
  unfold addReplica; split_ifs <;> rfl

@[simp] theorem addReplica_assignments (g : ColocationGroupState) (a : String) (p : Int) :
    (addReplica g a p).assignments = g.assignments := by
  unfold addReplica; split_ifs <;> rfl

@[simp] theorem addComponent_name (g : ColocationGroupState) (c : String) (r : Bool) :
    (addComponent cfg g c r).name = g.name := by
  simp only [addComponent]; split_ifs <;> rfl

@[simp] theorem addComponent_replicas (g : ColocationGroupState) (c : String) (r : Bool) :
    (addComponent cfg g c r).replicas = g.replicas := by
  simp only [addComponent]; split_ifs <;> rfl

@[simp] theorem addComponent_replicaPids (g : ColocationGroupState) (c : String) (r : Bool) :
    (addComponent cfg g c r).replicaPids = g.replicaPids := by
  simp only [addComponent]; split_ifs <;> rfl

theorem addComponent_lookup (g : ColocationGroupState) (c r : String) (isRouted : Bool)
    {a : Assignment} (h : g.assignments.lookup r = some a) :
    (addComponent cfg g c isRouted).assignments.lookup r = some a := by
  simp only [addComponent]
  split_ifs with hc
  · have : r ≠ c := by rintro rfl; simp [h] at hc
    simpa [AList.lookup_insert_ne this] using h
  · exact h

def groupStep (cfg : Config) (lg : Log2Ceil) (k : String) (g : ColocationGroupState) :
    Request → ColocationGroupState
  | .registerReplica group address pid =>
    if group = k then reassignGroup lg id (addReplica g address pid) else g
  | .startComponent group component isRouted =>
    if group = k then reassignGroup lg id (addComponent cfg g component isRouted) else g
  | _ => g

theorem findOrAddGroup_insert (s : AppVersionState) (group k : String)
    (g : ColocationGroupState) :
    findOrAddGroup { s with groups := s.groups.insert group g } k =
      if group = k then g else findOrAddGroup s k := by
  unfold findOrAddGroup
  split_ifs with h
  · subst h; simp
  · simp [AList.lookup_insert_ne (Ne.symm h)]

theorem mayGenerateNewRoutingInfo_eq (env : Outcomes) (m : Manager) (g : ColocationGroupState) :
    mayGenerateNewRoutingInfo lg env m g =
      (updateRoutingInfo m (reassignGroup lg id g) (routingInfoOf env.order (reassignGroup lg id g)),
        reassignGroup lg id g) := by
  rw [mayGenerateNewRoutingInfo, reassignGroup_visit env.visit g (env.visit_perm _)]

theorem appStateOf_registerReplica (env : Outcomes) (m : Manager) (group address : String)
    (pid : Int) :
    appStateOf cfg (registerReplica cfg lg env m group address pid) =
      { appStateOf cfg m with
        groups := (appStateOf cfg m).groups.insert group
          (reassignGroup lg id (addReplica (groupOf cfg m group) address pid)) } := by
  rw [registerReplica, mayGenerateNewRoutingInfo_eq]
  exact appStateOf_update _ _

theorem registerReplica_routingState (env : Outcomes) (m : Manager) (group address : String)
    (pid : Int) :
    (registerReplica cfg lg env m group address pid).routingState =
      (updateRoutingInfo m (reassignGroup lg id (addReplica (groupOf cfg m group) address pid))
        (routingInfoOf env.order
          (reassignGroup lg id (addReplica (groupOf cfg m group) address pid)))).routingState := by
  rw [registerReplica, mayGenerateNewRoutingInfo_eq]
  rfl

theorem appStateOf_startComponent (env : Outcomes) (m : Manager) (group component : String)
    (isRouted : Bool) :
    appStateOf cfg (startComponent cfg lg env m group component isRouted).1 =
      { appStateOf cfg m with
        groups := (appStateOf cfg m).groups.insert group
          (reassignGroup lg id (addComponent cfg (groupOf cfg m group) component isRouted)) } := by
  simp only [startComponent, appStateOf_startColocationGroup, mayGenerateNewRoutingInfo_eq]
  exact appStateOf_update _ _

theorem startComponent_routingState (env : Outcomes) (m : Manager) (group component : String)
    (isRouted : Bool) :
    (startComponent cfg lg env m group component isRouted).1.routingState =
      (updateRoutingInfo m
        (reassignGroup lg id (addComponent cfg (groupOf cfg m group) component isRouted))
        (routingInfoOf env.order (reassignGroup lg id
          (addComponent cfg (groupOf cfg m group) component isRouted)))).routingState := by
  simp only [startComponent, startColocationGroup_routingState, mayGenerateNewRoutingInfo_eq]
  rfl

@[simp] theorem registerReplica_started (env : Outcomes) (m : Manager) (group address : String)
    (pid : Int) : (registerReplica cfg lg env m group address pid).started = m.started :=
  updateRoutingInfo_started _ _ _

@[simp] theorem registerReplica_launches (env : Outcomes) (m : Manager) (group address : String)
    (pid : Int) : (registerReplica cfg lg env m group address pid).launches = m.launches :=
  updateRoutingInfo_launches _ _ _

@[simp] theorem registerReplica_proxies (env : Outcomes) (m : Manager) (group address : String)
    (pid : Int) : (registerReplica cfg lg env m group address pid).proxies = m.proxies :=
  updateRoutingInfo_proxies _ _ _

@[simp] theorem startComponent_proxies (env : Outcomes) (m : Manager) (group component : String)
    (isRouted : Bool) : (startComponent cfg lg env m group component isRouted).1.proxies = m.proxies := by
  simp only [startComponent, startColocationGroup_proxies]
  exact updateRoutingInfo_proxies _ _ _

/-- Groups evolve by `groupStep` alone, whatever the environment of the request. -/
theorem groupOf_step (env : Outcomes) (m : Manager) (req : Request) (k : String) :
    groupOf cfg (step cfg lg env m req).1 k = groupStep cfg lg k (groupOf cfg m k) req := by
  cases req with
  | getComponentsToStart | getRoutingInfo | recvMetrics => rfl
  | registerReplica group address pid =>
    rw [step, groupOf, appStateOf_registerReplica, findOrAddGroup_insert, groupStep]
    split_ifs with h <;> [subst h; skip] <;> rfl
  | startComponent group component isRouted =>
    rw [step, groupOf, appStateOf_startComponent, findOrAddGroup_insert, groupStep]
    split_ifs with h <;> [subst h; skip] <;> rfl
  | exportListener l localAddress =>
    simp only [step, groupStep, groupOf, appStateOf, exportListener_appState]
    simp [findOrAddGroup]

theorem groupOf_run (m : Manager) (steps : List (Request × Outcomes)) (k : String) :
    groupOf cfg (run cfg lg m steps) k =
      (steps.map Prod.fst).foldl (groupStep cfg lg k) (groupOf cfg m k) := by
  induction steps generalizing m with
  | nil => rfl
  | cons s steps ih => simp [run, ih, groupOf_step]

/-- The groups a run stores do not depend on its environment: neither Go's map iteration
order nor the outcome of a launch or a listen changes a group. -/
theorem run_groups_environment_independent (m : Manager) {steps steps' : List (Request × Outcomes)}
    (h : steps.map Prod.fst = steps'.map Prod.fst) (k : String) :
    groupOf cfg (run cfg lg m steps) k = groupOf cfg (run cfg lg m steps') k := by
  rw [groupOf_run, groupOf_run, h]

theorem run_groups_environment_independent_launch_failure :
    let cfg : Config := ⟨"app", "dep", ["l0", "l1"]⟩
    let reqs : List Request :=
      [.startComponent "g" "c" true, .startComponent "g" "d" true, .registerReplica "g" "a" 1]
    let failing : Outcomes :=
      ⟨List.reverse, List.reverse_perm, List.reverse, List.reverse_perm,
        fun _ _ _ => .error "connection refused", fun _ => .failed "permission denied"⟩
    groupOf cfg (run cfg .exactCeil .init (reqs.map (·, .allOk))) "g" =
      groupOf cfg (run cfg .exactCeil .init (reqs.map (·, failing))) "g" :=
  run_groups_environment_independent _ (by simp) "g"

theorem Reachable.groupOf_of_step {P : String → ColocationGroupState → Prop}
    (h₀ : ∀ k, P k ⟨k, ∅, [], [], ∅⟩)
    (hs : ∀ k g req, P k g → P k (groupStep cfg lg k g req)) {m : Manager}
    (hm : Reachable cfg lg m) (k : String) : P k (groupOf cfg m k) := by
  induction hm with
  | init => exact h₀ k
  | step env req _ ih => rw [groupOf_step]; exact hs _ _ _ ih

theorem groupStep_name (k : String) (g : ColocationGroupState) (req : Request) :
    (groupStep cfg lg k g req).name = g.name := by
  cases req <;> simp only [groupStep] <;> split_ifs <;> simp

theorem Reachable.groupOf_name {m : Manager} (hm : Reachable cfg lg m) (k : String) :
    (groupOf cfg m k).name = k :=
  hm.groupOf_of_step (P := fun k g => g.name = k) (fun _ => rfl)
    (fun k g req h => (groupStep_name k g req).trans h) k

theorem Reachable.run {m : Manager} (hm : Reachable cfg lg m) (steps : List (Request × Outcomes)) :
    Reachable cfg lg (run cfg lg m steps) := by
  induction steps generalizing m with
  | nil => exact hm
  | cons s steps ih => exact ih (hm.step s.2 s.1)

end DeploymentManager.Ssh
