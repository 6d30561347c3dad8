import DeploymentManager.Ssh.Proxies

namespace DeploymentManager.Proxy

open Ssh Routing

variable {cfg : Config} {lg : Log2Ceil}

/-- `rand.Intn(n)`: a number in `[0, n)` for every positive `n`. -/
structure Rand where
  intn : Nat → Nat
  intn_lt : ∀ n, 0 < n → intn n < n

/-- `Proxy.director`: the host `backends[rand.Intn(len(backends))]`, or `none` when the proxy
has no backend and the request is left as it is. -/
def director (rand : Rand) (backends : List String) : Option String :=
  if backends.length = 0 then none else some (backends.getD (rand.intn backends.length) "")

theorem director_mem (rand : Rand) {backends : List String} (h : backends ≠ []) :
    ∃ host, director rand backends = some host ∧ host ∈ backends := by
  have hpos : 0 < backends.length := List.length_pos.mpr h
  have hlt := rand.intn_lt _ hpos
  refine ⟨_, if_neg (Nat.pos_iff_ne_zero.mp hpos), ?_⟩
  rw [List.getD_eq_getElem _ _ hlt]
  exact List.getElem_mem hlt

def HasBackends (m : Manager) : Prop :=
  ∀ L p, m.proxies.lookup L = some p → p.backends ≠ []

theorem HasBackends.insert {m m' : Manager} (h : HasBackends m) {name : String} {p : ProxyInfo}
    (hp : p.backends ≠ []) (hs : m'.proxies = m.proxies.insert name p) : HasBackends m' := by
  intro L q hq
  rw [hs] at hq
  by_cases hL : L = name
  · subst hL
    rw [AList.lookup_insert, Option.some_inj] at hq
    exact hq ▸ hp
  · exact h L q (by rwa [AList.lookup_insert_ne hL] at hq)

theorem HasBackends.step (env : Outcomes) {m : Manager} (req : Request) (h : HasBackends m) :
    HasBackends (step cfg lg env m req).1 := by
  cases req with
  | exportListener l localAddress =>
    rcases @exportListener_cases cfg env.listen m l localAddress with
      ⟨p, -, hs, -⟩ | ⟨-, addr, hs, -⟩ | ⟨hs, -⟩
    · exact h.insert (by simp) hs
    · exact h.insert (List.cons_ne_nil _ _) hs
    · intro L p hp
      exact h L p (by rwa [Ssh.step, hs] at hp)
  | registerReplica | startComponent | getComponentsToStart | getRoutingInfo | recvMetrics =>
    intro L p hp
    exact h L p (by simpa [Ssh.step, handleRecvMetrics] using hp)

theorem HasBackends.run {m : Manager} (h : HasBackends m) (steps : List (Request × Outcomes)) :
    HasBackends (run cfg lg m steps) := by
  induction steps generalizing m with
  | nil => exact h
  | cons s steps ih => exact ih (h.step s.2 s.1)

/-- After any run from the initial manager, the director of each proxy the manager holds
sends every request to a listener address exported under the proxy's listener name, by a call
that got this proxy's address; it never finds the proxy without backends. -/
theorem run_director (rand : Rand) (steps : List (Request × Outcomes)) (L : String)
    {p : ProxyInfo} (hp : (run cfg lg .init steps).proxies.lookup L = some p) :
    ∃ host, director rand p.backends = some host ∧
      (host, p.addr) ∈ exportedTo L (trace cfg lg .init steps) := by
  have hb := @HasBackends.run cfg lg .init (fun _ _ h => by simp [Manager.init] at h) steps L p hp
  obtain ⟨host, hd, hmem⟩ := director_mem rand hb
  rcases @ProxyMatches.run cfg lg .init L [] (.inl ⟨rfl, rfl⟩) steps with
    ⟨hn, -⟩ | ⟨p', hp', hbk, ha⟩
  · rw [hn] at hp
    cases hp
  · obtain rfl : p' = p := Option.some_inj.mp (hp'.symm.trans hp)
    rw [List.nil_append] at hbk ha
    rw [hbk, List.mem_map] at hmem
    obtain ⟨x, hx, rfl⟩ := hmem
    exact ⟨_, hd, by rw [← ha x hx]; exact hx⟩

theorem director_after_export :
    let cfg : Config := ⟨"app", "dep", ["l0"]⟩
    let steps : List (Request × Outcomes) := [(.exportListener ⟨"L", "w1"⟩ ":8080", .allOk)]
    (run cfg .exactCeil .init steps).proxies.lookup "L" = some ⟨["w1"], "127.0.0.1:8000"⟩ ∧
      ∃ host, director ⟨fun _ => 0, fun _ h => h⟩ ["w1"] = some host ∧
        (host, "127.0.0.1:8000") ∈ exportedTo "L" (trace cfg .exactCeil .init steps) :=
  ⟨rfl, @run_director ⟨"app", "dep", ["l0"]⟩ .exactCeil ⟨fun _ => 0, fun _ h => h⟩
    [(.exportListener ⟨"L", "w1"⟩ ":8080", .allOk)] "L" ⟨["w1"], "127.0.0.1:8000"⟩ rfl⟩

end DeploymentManager.Proxy
