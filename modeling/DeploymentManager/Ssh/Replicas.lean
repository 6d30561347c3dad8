import DeploymentManager.Ssh.Steps

namespace DeploymentManager.Ssh

open Routing

variable {cfg : Config} {lg : Log2Ceil}

def registeredAddresses (k : String) (reqs : List Request) : List String :=
  reqs.filterMap fun
    | .registerReplica group address _ => if group = k then some address else none
    | _ => none

@[simp] theorem mem_sortStrings {a : String} {l : List String} : a ∈ sortStrings l ↔ a ∈ l :=
  (sortStrings_perm l).mem_iff

theorem sortStrings_sorted_lt {l : List String} (h : l.Nodup) :
    (sortStrings l).Sorted (· < ·) :=
  (sortStrings_sorted l).lt_of_le ((sortStrings_perm l).nodup_iff.mpr h)

theorem addReplica_replicas (g : ColocationGroupState) (a : String) (p : Int) :
    (addReplica g a p).replicas = if a ∈ g.replicas then g.replicas else g.replicas ++ [a] := by
  unfold addReplica; split_ifs <;> rfl

theorem addReplica_replicaPids (g : ColocationGroupState) (a : String) (p : Int) :
    (addReplica g a p).replicaPids =
      if a ∈ g.replicas then g.replicaPids else g.replicaPids ++ [p] := by
  unfold addReplica; split_ifs <;> rfl

theorem mem_addReplica_replicas {g : ColocationGroupState} {address : String} {p : Int}
    {a : String} : a ∈ (addReplica g address p).replicas ↔ a ∈ g.replicas ∨ a = address := by
  rw [addReplica_replicas]
  split_ifs with h
  · exact ⟨Or.inl, fun h' => h'.elim id (· ▸ h)⟩
  · simp

theorem groupStep_replicas_mem (k : String) (g : ColocationGroupState) (req : Request)
    (a : String) :
    a ∈ (groupStep cfg lg k g req).replicas ↔ a ∈ g.replicas ∨ a ∈ registeredAddresses k [req] := by
  cases req with
  | registerReplica group address pid =>
    by_cases hk : group = k
    · subst hk; simp [groupStep, mem_addReplica_replicas, registeredAddresses]
    · simp [groupStep, hk, registeredAddresses]
  | startComponent group component isRouted =>
    by_cases hk : group = k <;> simp [groupStep, hk, registeredAddresses]
  | _ => simp [groupStep, registeredAddresses]

theorem groupStep_replicas_sorted (k : String) {g : ColocationGroupState} (req : Request)
    (h : g.replicas.Sorted (· < ·)) : (groupStep cfg lg k g req).replicas.Sorted (· < ·) := by
  cases req with
  | registerReplica group address pid =>
    simp only [groupStep]
    split_ifs
    · rw [reassignGroup_replicas, addReplica_replicas]
      split_ifs with ha
      · exact sortStrings_sorted_lt h.nodup
      · exact sortStrings_sorted_lt (h.nodup.append (List.nodup_singleton _) (by simpa using ha))
    · exact h
  | startComponent group component isRouted =>
    simp only [groupStep]
    split_ifs
    · rw [reassignGroup_replicas, addComponent_replicas]; exact sortStrings_sorted_lt h.nodup
    · exact h
  | _ => exact h

theorem groupStep_replicaPids_length (k : String) {g : ColocationGroupState} (req : Request)
    (h : g.replicaPids.length = g.replicas.length) :
    (groupStep cfg lg k g req).replicaPids.length = (groupStep cfg lg k g req).replicas.length := by
  cases req with
  | registerReplica group address pid =>
    simp only [groupStep]
    split_ifs
    · simp only [reassignGroup_replicaPids, reassignGroup_replicas, length_sortStrings,
        addReplica_replicaPids, addReplica_replicas]
      split_ifs <;> simp [h]
    · exact h
  | startComponent group component isRouted =>
    simp only [groupStep]
    split_ifs
    · simpa using h
    · exact h
  | _ => exact h

theorem foldl_groupStep_replicas (k : String) (reqs : List Request) {g : ColocationGroupState}
    (h : g.replicas.Sorted (· < ·)) :
    (reqs.foldl (groupStep cfg lg k) g).replicas.Sorted (· < ·) ∧
      ∀ a, a ∈ (reqs.foldl (groupStep cfg lg k) g).replicas ↔
        a ∈ g.replicas ∨ a ∈ registeredAddresses k reqs := by
  induction reqs generalizing g with
  | nil => exact ⟨h, fun a => by simp [registeredAddresses]⟩
  | cons req reqs ih =>
    obtain ⟨hs, hm⟩ := ih (groupStep_replicas_sorted k req h)
    refine ⟨hs, fun a => ?_⟩
    have hcons : registeredAddresses k (req :: reqs) =
        registeredAddresses k [req] ++ registeredAddresses k reqs :=
      List.filterMap_append [req] reqs _
    rw [List.foldl_cons, hm, groupStep_replicas_mem, hcons, List.mem_append, or_assoc]

/-- The replicas of a group are sorted strictly and are the registered addresses, so they
are the same for every run that registers the same addresses. -/
theorem run_replicas_registered (steps : List (Request × Outcomes)) (k : String) :
    (groupOf cfg (run cfg lg .init steps) k).replicas.Sorted (· < ·) ∧
      (∀ a, a ∈ (groupOf cfg (run cfg lg .init steps) k).replicas ↔
        a ∈ registeredAddresses k (steps.map Prod.fst)) ∧
      ∀ steps' : List (Request × Outcomes),
        (∀ a, a ∈ registeredAddresses k (steps'.map Prod.fst) ↔
          a ∈ registeredAddresses k (steps.map Prod.fst)) →
        (groupOf cfg (run cfg lg .init steps') k).replicas =
          (groupOf cfg (run cfg lg .init steps) k).replicas := by
  have key : ∀ steps : List (Request × Outcomes),
      (groupOf cfg (run cfg lg .init steps) k).replicas.Sorted (· < ·) ∧
        ∀ a, a ∈ (groupOf cfg (run cfg lg .init steps) k).replicas ↔
          a ∈ registeredAddresses k (steps.map Prod.fst) := fun steps => by
    rw [groupOf_run]
    simpa using @foldl_groupStep_replicas cfg lg k (steps.map Prod.fst) (groupOf cfg .init k)
      List.sorted_nil
  obtain ⟨hs, hm⟩ := key steps
  refine ⟨hs, hm, fun steps' hsame => ?_⟩
  obtain ⟨hs', hm'⟩ := key steps'
  refine List.eq_of_perm_of_sorted ?_ hs' hs
  exact (List.perm_ext_iff_of_nodup hs'.nodup hs.nodup).mpr fun a => by
    rw [hm', hm, hsame]

theorem Reachable.replicas_sorted {m : Manager} (hm : Reachable cfg lg m) (k : String) :
    (groupOf cfg m k).replicas.Sorted (· < ·) :=
  hm.groupOf_of_step (P := fun _ g => g.replicas.Sorted (· < ·)) (fun _ => List.sorted_nil)
    (fun k _ req h => groupStep_replicas_sorted k req h) k

/-- The pid list of every group has one entry per replica. -/
theorem Reachable.replicaPids_length {m : Manager} (hm : Reachable cfg lg m) (k : String) :
    (groupOf cfg m k).replicaPids.length = (groupOf cfg m k).replicas.length :=
  hm.groupOf_of_step (P := fun _ g => g.replicaPids.length = g.replicas.length) (fun _ => rfl)
    (fun k _ req h => groupStep_replicaPids_length k req h) k

theorem replicaPids_length_two_registrations :
    let cfg : Config := ⟨"app", "dep", ["l0"]⟩
    let m := run cfg .exactCeil .init
      [(.registerReplica "g" "b" 1, .allOk), (.registerReplica "g" "a" 2, .allOk)]
    (groupOf cfg m "g").replicaPids.length = (groupOf cfg m "g").replicas.length :=
  Reachable.replicaPids_length (Reachable.init.run _) "g"

/-- Registering `b` with pid 1 and then `a` with pid 2 sorts the replicas but not the pids:
the pid stored next to `a` is `b`'s. -/
theorem replicaPids_not_parallel :
    let cfg : Config := ⟨"app", "dep", ["l0"]⟩
    let m := run cfg .exactCeil .init
      [(.registerReplica "g" "b" 1, .allOk), (.registerReplica "g" "a" 2, .allOk)]
    (groupOf cfg m "g").replicas = ["a", "b"] ∧ (groupOf cfg m "g").replicaPids = [1, 2] := by
  decide

end DeploymentManager.Ssh
