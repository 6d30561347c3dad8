import DeploymentManager.Ssh.Steps

namespace DeploymentManager.Ssh

open Routing

variable {cfg : Config} {lg : Log2Ceil}

def startedComponents (k : String) (reqs : List Request) : List String :=
  reqs.filterMap fun
    | .startComponent group component _ => if group = k then some component else none
    | _ => none

@[simp] theorem reassignGroup_components (g : ColocationGroupState) :
    (reassignGroup lg id g).components = g.components := rfl

@[simp] theorem addReplica_components (g : ColocationGroupState) (a : String) (p : Int) :
    (addReplica g a p).components = g.components := by
  unfold addReplica; split_ifs <;> rfl

@[simp] theorem addComponent_components (g : ColocationGroupState) (c : String) (r : Bool) :
    (addComponent cfg g c r).components = g.components.insert c r := by
  simp only [addComponent]; split_ifs <;> rfl

theorem groupStep_components_mem (k : String) (g : ColocationGroupState) (req : Request)
    (c : String) :
    c ∈ (groupStep cfg lg k g req).components ↔
      c ∈ g.components ∨ c ∈ startedComponents k [req] := by
  cases req with
  | startComponent group component isRouted =>
    by_cases hk : group = k
    · subst hk; simp [groupStep, startedComponents, or_comm]
    · simp [groupStep, hk, startedComponents]
  | registerReplica group address pid =>
    by_cases hk : group = k <;> simp [groupStep, hk, startedComponents]
  | _ => simp [groupStep, startedComponents]

theorem foldl_groupStep_components (k : String) (reqs : List Request) (g : ColocationGroupState)
    (c : String) :
    c ∈ (reqs.foldl (groupStep cfg lg k) g).components ↔
      c ∈ g.components ∨ c ∈ startedComponents k reqs := by
  induction reqs generalizing g with
  | nil => simp [startedComponents]
  | cons req reqs ih =>
    have hcons : startedComponents k (req :: reqs) =
        startedComponents k [req] ++ startedComponents k reqs :=
      List.filterMap_append [req] reqs _
    rw [List.foldl_cons, ih, groupStep_components_mem, hcons, List.mem_append, or_assoc]

/-- After any run, `getComponentsToStart` for a group answers at once with each component
started in the group, once, and with no other. -/
theorem run_componentsToStart (steps : List (Request × Outcomes)) (k : String) :
    ∃ names v, getComponentsToStart cfg (run cfg lg .init steps) k none =
        .componentsToStart names v ∧ names.Nodup ∧
      ∀ c, c ∈ names ↔ c ∈ startedComponents k (steps.map Prod.fst) := by
  refine ⟨(groupOf cfg (run cfg lg .init steps) k).components.keys, _, rfl,
    AList.keys_nodup _, fun c => ?_⟩
  rw [← AList.mem_keys, groupOf_run, foldl_groupStep_components]
  simp

end DeploymentManager.Ssh
