import Mathlib.Data.List.Nodup
import DeploymentManager.Ssh.Steps

namespace DeploymentManager.Ssh

open Routing

variable {cfg : Config} {lg : Log2Ceil}

def Reply.isError : Reply → Bool
  | .error _ => true
  | _ => false

def failedStart (G : String) : Request × Reply → Bool
  | (.startComponent group _ _, reply) => group = G && reply.isError
  | _ => false

theorem startBabysitters_log (launch : String → String → Nat → Except String Unit)
    (group : String) (replicaId : Nat) (locs : List String) (log : List (String × Nat)) :
    ∃ n, (startBabysitters launch group replicaId locs log).1 =
      log ++ (List.range' replicaId n).map (fun j => (group, j)) ∧
      ((startBabysitters launch group replicaId locs log).2 = none → n = locs.length) := by
  induction locs generalizing replicaId log with
  | nil => exact ⟨0, by simp [startBabysitters]⟩
  | cons loc locs ih =>
    simp only [startBabysitters]
    split
    · exact ⟨0, by simp⟩
    · obtain ⟨n, hn, hall⟩ := ih (replicaId + 1) (log ++ [(group, replicaId)])
      exact ⟨n + 1, by simp [hn, List.range'_succ], fun h => by simp [hall h]⟩

theorem count_launched (group G : String) (replicaId n i : Nat) :
    ((List.range' replicaId n).map (fun j => (group, j))).count (G, i) =
      if group = G ∧ replicaId ≤ i ∧ i < replicaId + n then 1 else 0 := by
  induction n generalizing replicaId with
  | zero => rw [if_neg (by omega)]; rfl
  | succ n ih =>
    rw [List.range'_succ, List.map_cons, List.count_cons, ih]
    by_cases hg : group = G
    · simp only [hg, true_and, beq_iff_eq, Prod.mk.injEq]
      split_ifs <;> omega
    · simp [hg]

theorem count_launched_le (group G : String) (replicaId n i : Nat) :
    ((List.range' replicaId n).map (fun j => (group, j))).count (G, i) ≤
      if group = G then 1 else 0 := by
  rw [count_launched]
  split_ifs <;> simp_all

/-- The launches of `(G, i)` are at most the failed starts `f` of `G`, plus one once `G` has
started. -/
def LaunchBound (m : Manager) (G : String) (f : Nat) : Prop :=
  ∀ i, m.launches.count (G, i) ≤ f + if G ∈ m.started then 1 else 0

theorem LaunchBound.of_eq {m m' : Manager} {G : String} {f : Nat} (h : LaunchBound m G f)
    (hl : m'.launches = m.launches) (hs : m'.started = m.started) : LaunchBound m' G f := by
  rw [LaunchBound, hl, hs]
  exact h

theorem LaunchBound.startColocationGroup (launch : String → String → Nat → Except String Unit)
    {m : Manager} {group G : String} {f : Nat} (h : LaunchBound m G f) :
    LaunchBound (startColocationGroup cfg launch m group).1 G
      (f + if group = G ∧ (startColocationGroup cfg launch m group).2.isError then 1 else 0) := by
  by_cases hs : group ∈ m.started
  · simpa [Ssh.startColocationGroup, hs, Reply.isError] using h
  · obtain ⟨n, hn, -⟩ := startBabysitters_log launch group 0 cfg.locations m.launches
    simp only [Ssh.startColocationGroup, if_neg hs]
    intro i
    have hi := h i
    have hc := count_launched_le group G 0 n i
    by_cases hg : group = G
    · subst hg
      rw [if_neg hs] at hi
      rw [if_pos rfl] at hc
      rcases hr : startBabysitters launch group 0 cfg.locations m.launches with ⟨log, _ | err⟩ <;>
        rw [hr] at hn <;> subst hn <;>
        simp only [List.count_append, Reply.isError, List.mem_append, List.mem_singleton, hs,
          or_true, and_true, and_false, if_true, if_false] <;> omega
    · rw [if_neg hg] at hc
      rcases hr : startBabysitters launch group 0 cfg.locations m.launches with ⟨log, _ | err⟩ <;>
        rw [hr] at hn <;> subst hn <;>
        simp only [List.count_append, List.mem_append, List.mem_singleton, hg, Ne.symm hg,
          false_and, or_false, if_false] <;> omega

theorem LaunchBound.step (env : Outcomes) {m : Manager} (req : Request) {G : String} {f : Nat}
    (h : LaunchBound m G f) :
    LaunchBound (step cfg lg env m req).1 G
      (f + if failedStart G (req, (step cfg lg env m req).2) then 1 else 0) := by
  cases req with
  | startComponent group component isRouted =>
    simp only [Ssh.step, startComponent, failedStart, Bool.and_eq_true, decide_eq_true_eq]
    exact LaunchBound.startColocationGroup _ (h.of_eq (updateRoutingInfo_launches _ _ _)
      (updateRoutingInfo_started _ _ _))
  | registerReplica | exportListener | getComponentsToStart | getRoutingInfo | recvMetrics =>
    simpa only [failedStart, Bool.false_eq_true, if_false, Nat.add_zero] using
      h.of_eq (by simp [Ssh.step, handleRecvMetrics]) (by simp [Ssh.step, handleRecvMetrics])

theorem LaunchBound.run {m : Manager} {G : String} {f : Nat} (h : LaunchBound m G f)
    (steps : List (Request × Outcomes)) :
    LaunchBound (run cfg lg m steps) G (f + (trace cfg lg m steps).countP (failedStart G)) := by
  induction steps generalizing m f with
  | nil => simpa [trace] using h
  | cons s steps ih =>
    have := ih (@LaunchBound.step cfg lg s.2 _ s.1 _ _ h)
    simp only [Ssh.run, trace, List.countP_cons] at this ⊢
    intro i
    have := this i
    omega

/-- A location of a group is launched again only after a start of the group failed: each
`(G, i)` is launched at most once plus once per failed `startComponent` for `G`. -/
theorem run_launch_count_le (steps : List (Request × Outcomes)) (G : String) (i : Nat) :
    (run cfg lg .init steps).launches.count (G, i) ≤
      1 + (trace cfg lg .init steps).countP (failedStart G) := by
  have h := @LaunchBound.run cfg lg .init G 0 (fun i => by simp [Manager.init]) steps i
  split_ifs at h <;> omega

def AllLaunched (cfg : Config) (m : Manager) : Prop :=
  ∀ G ∈ m.started, ∀ i < cfg.locations.length, (G, i) ∈ m.launches

theorem AllLaunched.startColocationGroup (launch : String → String → Nat → Except String Unit)
    {m : Manager} (h : AllLaunched cfg m) (group : String) :
    AllLaunched cfg (startColocationGroup cfg launch m group).1 := by
  by_cases hs : group ∈ m.started
  · simpa [Ssh.startColocationGroup, hs] using h
  · obtain ⟨n, hn, hall⟩ := startBabysitters_log launch group 0 cfg.locations m.launches
    simp only [Ssh.startColocationGroup, if_neg hs]
    rcases hr : startBabysitters launch group 0 cfg.locations m.launches with ⟨log, _ | err⟩
    all_goals rw [hr] at hn hall; subst hn
    · intro G hG i hi
      rcases List.mem_append.mp hG with hG | hG
      · exact List.mem_append_left _ (h G hG i hi)
      · obtain rfl := List.mem_singleton.mp hG
        exact List.mem_append_right _ (List.mem_map.mpr ⟨i, by simp [hall rfl, hi], rfl⟩)
    · exact fun G hG i hi => List.mem_append_left _ (h G hG i hi)

theorem AllLaunched.of_eq {m m' : Manager} (h : AllLaunched cfg m)
    (hl : m'.launches = m.launches) (hs : m'.started = m.started) : AllLaunched cfg m' := by
  rw [AllLaunched, hl, hs]
  exact h

theorem AllLaunched.step (env : Outcomes) {m : Manager} (req : Request)
    (h : AllLaunched cfg m) : AllLaunched cfg (step cfg lg env m req).1 := by
  cases req with
  | startComponent group component isRouted =>
    exact AllLaunched.startColocationGroup _ (h.of_eq (by exact updateRoutingInfo_launches _ _ _)
      (by exact updateRoutingInfo_started _ _ _)) group
  | registerReplica | exportListener | getComponentsToStart | getRoutingInfo | recvMetrics =>
    exact h.of_eq (by simp [Ssh.step, handleRecvMetrics]) (by simp [Ssh.step, handleRecvMetrics])

theorem Reachable.allLaunched {m : Manager} (hm : Reachable cfg lg m) : AllLaunched cfg m := by
  induction hm with
  | init => intro G hG; simp [Manager.init] at hG
  | step env req _ ih => exact ih.step env req

/-- A group is marked started only once its babysitter has been launched at every
location. -/
theorem reachable_started_all_launched {m : Manager} (hm : Reachable cfg lg m) {G : String}
    (hG : G ∈ m.started) {i : Nat} (hi : i < cfg.locations.length) : (G, i) ∈ m.launches :=
  hm.allLaunched G hG i hi

theorem started_all_launched_two_locations :
    let cfg : Config := ⟨"app", "dep", ["l0", "l1"]⟩
    (("G", 1) ∈ (run cfg .exactCeil .init [(.startComponent "G" "c" false, .allOk)]).launches) :=
  reachable_started_all_launched (Reachable.init.run _) (by decide) (by decide)

/-- A start that fails at the second location leaves the group unstarted, and the retry
launches the first location a second time. -/
theorem launch_repeated_after_failure :
    (run ⟨"app", "dep", ["l0", "l1"]⟩ .exactCeil .init
      [(.startComponent "G" "c" false,
          { Outcomes.allOk with
            launch := fun loc _ _ => if loc = "l1" then .error "connection refused" else .ok () }),
        (.startComponent "G" "c" false, .allOk)]).launches.count ("G", 0) = 2 := by
  decide

/-- What `run` asks once the manager listens: start component `main` in group `main`, then
the group `main` itself; an error ends it. `run` makes the second call without taking `m.mu`,
while the handlers already serve requests; the model runs the two calls as one atomic
step. -/
def boot (cfg : Config) (lg : Log2Ceil) (env : Outcomes) (m : Manager) : Manager × Reply :=
  match startComponent cfg lg env m "main" "main" false with
  | (m', .ok) => startColocationGroup cfg env.launch m' "main"
  | r => r

theorem startColocationGroup_of_started (launch : String → String → Nat → Except String Unit)
    {m : Manager} {group : String} (h : group ∈ m.started) :
    startColocationGroup cfg launch m group = (m, .ok) :=
  if_pos h

theorem startColocationGroup_ok_started (launch : String → String → Nat → Except String Unit)
    (m : Manager) (group : String) (h : (startColocationGroup cfg launch m group).2 = .ok) :
    group ∈ (startColocationGroup cfg launch m group).1.started := by
  unfold Ssh.startColocationGroup at h ⊢
  split_ifs at h ⊢ with hs
  · exact hs
  · split at h <;> simp_all

theorem startColocationGroup_restart (launch launch' : String → String → Nat → Except String Unit)
    {m m' : Manager} {group : String} (h : startColocationGroup cfg launch m group = (m', .ok)) :
    startColocationGroup cfg launch' m' group = (m', .ok) := by
  have hs := startColocationGroup_ok_started launch m group (by rw [h])
  rw [h] at hs
  exact startColocationGroup_of_started launch' hs

/-- In every environment and from every manager state, the `startColocationGroup("main")`
that `run` makes after starting component `main` changes nothing: when `startComponent`
succeeded, it had started the group already, and otherwise `run` stops before it. -/
theorem boot_eq_startComponent (env : Outcomes) (m : Manager) :
    boot cfg lg env m = startComponent cfg lg env m "main" "main" false := by
  unfold boot
  split
  · rename_i m' h
    rw [h]
    exact startColocationGroup_restart env.launch env.launch h
  · rfl

end DeploymentManager.Ssh
