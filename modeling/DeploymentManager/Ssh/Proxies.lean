import DeploymentManager.Ssh.Steps

namespace DeploymentManager.Ssh

open Routing

variable {cfg : Config} {lg : Log2Ceil}

def exportedPair (L : String) : Request × Reply → Option (String × String)
  | (.exportListener l _, .exported addr) => if l.name = L then some (l.addr, addr) else none
  | _ => none

def exportedTo (L : String) (t : List (Request × Reply)) : List (String × String) :=
  t.filterMap (exportedPair L)

theorem exportedPair_of_not_exported (L : String) (req : Request) {rep : Reply}
    (h : ∀ addr, rep ≠ .exported addr) : exportedPair L (req, rep) = none := by
  unfold exportedPair
  split <;> simp_all

theorem exportedTo_cons (L : String) (x : Request × Reply) (t : List (Request × Reply)) :
    exportedTo L (x :: t) = (exportedPair L x).toList ++ exportedTo L t := by
  simp only [exportedTo, List.filterMap_cons]
  split <;> simp_all

/-- The proxy of `L` does not exist before a call for `L` got an address; afterwards its
backends are those of the calls that got one, and each of them got its address. -/
def ProxyMatches (m : Manager) (L : String) (ex : List (String × String)) : Prop :=
  (m.proxies.lookup L = none ∧ ex = []) ∨
    ∃ p, m.proxies.lookup L = some p ∧ p.backends = ex.map Prod.fst ∧ ∀ x ∈ ex, x.2 = p.addr

theorem exportListener_cases (listen : String → ListenResult) (m : Manager) (l : Listener)
    (localAddress : String) :
    (∃ p, m.proxies.lookup l.name = some p ∧
      (exportListener cfg listen m l localAddress).1.proxies =
        m.proxies.insert l.name { p with backends := p.backends ++ [l.addr] } ∧
      (exportListener cfg listen m l localAddress).2 = .exported p.addr) ∨
    (m.proxies.lookup l.name = none ∧ ∃ addr,
      (exportListener cfg listen m l localAddress).1.proxies =
        m.proxies.insert l.name ⟨[l.addr], addr⟩ ∧
      (exportListener cfg listen m l localAddress).2 = .exported addr) ∨
    ((exportListener cfg listen m l localAddress).1.proxies = m.proxies ∧
      ∀ addr, (exportListener cfg listen m l localAddress).2 ≠ .exported addr) := by
  simp only [exportListener]
  split
  · exact .inl ⟨_, ‹_›, rfl, rfl⟩
  · split
    · exact .inr (.inr ⟨rfl, fun _ => Reply.noConfusion⟩)
    · exact .inr (.inr ⟨rfl, fun _ => Reply.noConfusion⟩)
    · exact .inr (.inl ⟨‹_›, _, rfl, rfl⟩)

/-- A call that fails, because listening failed or the address is in use, changes nothing
but the stored app state, which it wrote before listening: the old state with the listener
appended, at the next version. -/
theorem exportListener_failure_stores_listener (listen : String → ListenResult) (m : Manager)
    (l : Listener) (localAddress : String)
    (hfail : (∃ err, (exportListener cfg listen m l localAddress).2 = .error err) ∨
      ∃ err, (exportListener cfg listen m l localAddress).2 = .exportError err) :
    (exportListener cfg listen m l localAddress).1 =
        { m with appState := (m.appState.update appVersionStateKey
            { appStateOf cfg m with listeners := (appStateOf cfg m).listeners ++ [l] }) } ∧
      (exportListener cfg listen m l localAddress).1.proxies = m.proxies ∧
      (appStateOf cfg (exportListener cfg listen m l localAddress).1).listeners =
        (appStateOf cfg m).listeners ++ [l] ∧
      (exportListener cfg listen m l localAddress).1.appState.version appVersionStateKey =
        m.appState.version appVersionStateKey + 1 := by
  have hs : (exportListener cfg listen m l localAddress).1 =
      { m with appState := (m.appState.update appVersionStateKey
          { appStateOf cfg m with listeners := (appStateOf cfg m).listeners ++ [l] }) } := by
    revert hfail
    simp only [exportListener]
    split
    · rintro (⟨_, h⟩ | ⟨_, h⟩) <;> cases h
    · split
      · intro; rfl
      · intro; rfl
      · rintro (⟨_, h⟩ | ⟨_, h⟩) <;> cases h
  rw [hs]
  exact ⟨rfl, rfl, by simp [appStateOf], by simp⟩

theorem address_in_use_stores_listener :
    let cfg : Config := ⟨"app", "dep", ["l0"]⟩
    let listen : String → ListenResult := fun _ => .addrInUse "address already in use"
    let l : Listener := ⟨"L", "w1"⟩
    let r := exportListener cfg listen Manager.init l ":8080"
    ((∃ err, r.2 = .error err) ∨ ∃ err, r.2 = .exportError err) ∧
      r.1 = { Manager.init with appState := (Manager.init.appState.update appVersionStateKey
          { appStateOf cfg Manager.init with
            listeners := (appStateOf cfg Manager.init).listeners ++ [l] }) } ∧
      r.1.proxies = Manager.init.proxies ∧
      (appStateOf cfg r.1).listeners = (appStateOf cfg Manager.init).listeners ++ [l] ∧
      r.1.appState.version appVersionStateKey =
        Manager.init.appState.version appVersionStateKey + 1 :=
  have hfail := Or.inr ⟨"address already in use", rfl⟩
  ⟨hfail, exportListener_failure_stores_listener _ _ _ _ hfail⟩

/-- With the address in use, the first export of a listener is refused, yet the listener is
stored and the app state's version moves. -/
theorem export_address_in_use_records_listener :
    let cfg : Config := ⟨"app", "dep", ["l0"]⟩
    let r := exportListener cfg (fun _ => .addrInUse "address already in use") Manager.init
      ⟨"L", "w1"⟩ ":8080"
    r.2 = .exportError "address already in use" ∧
      (appStateOf cfg r.1).listeners ≠ (appStateOf cfg Manager.init).listeners ∧
      r.1.appState.version appVersionStateKey ≠ Manager.init.appState.version appVersionStateKey :=
  ⟨rfl, List.cons_ne_nil _ _, by decide⟩

theorem ProxyMatches.of_lookup {m m' : Manager} {L : String} {ex : List (String × String)}
    (h : ProxyMatches m L ex) (hp : m'.proxies.lookup L = m.proxies.lookup L) :
    ProxyMatches m' L ex := by
  rw [ProxyMatches, hp]
  exact h

theorem exportedPair_of_ne {L : String} {l : Listener} (hL : l.name ≠ L) (localAddress : String)
    (rep : Reply) : exportedPair L (.exportListener l localAddress, rep) = none := by
  unfold exportedPair
  split <;> simp_all

theorem ProxyMatches.exportListener (listen : String → ListenResult) {m : Manager}
    {L : String} {ex : List (String × String)} (h : ProxyMatches m L ex) (l : Listener)
    (localAddress : String) :
    ProxyMatches (exportListener cfg listen m l localAddress).1 L
      (ex ++ (exportedPair L (.exportListener l localAddress,
        (exportListener cfg listen m l localAddress).2)).toList) := by
  by_cases hL : l.name = L
  · subst hL
    rcases @exportListener_cases cfg listen m l localAddress with
      ⟨p, hp, hs, hr⟩ | ⟨hn, addr, hs, hr⟩ | ⟨hs, hr⟩
    · obtain ⟨hn, -⟩ | ⟨p', hp', hb, ha⟩ := h
      · simp only [hn, reduceCtorEq] at hp
      · obtain rfl : p' = p := Option.some_inj.mp (hp'.symm.trans hp)
        simp only [hr, exportedPair, if_true, Option.toList_some]
        refine .inr ⟨_, by rw [hs, AList.lookup_insert], by simp [hb], ?_⟩
        simp only [List.mem_append, List.mem_singleton]
        rintro x (hx | rfl)
        · exact ha x hx
        · rfl
    · obtain ⟨-, rfl⟩ | ⟨p', hp', -⟩ := h
      · simp only [hr, exportedPair, if_true, Option.toList_some, List.nil_append]
        exact .inr ⟨_, by rw [hs, AList.lookup_insert], rfl, by simp⟩
      · simp only [hn, reduceCtorEq] at hp'
    · rw [exportedPair_of_not_exported _ _ hr, Option.toList_none, List.append_nil]
      exact h.of_lookup (by rw [hs])
  · rw [exportedPair_of_ne hL, Option.toList_none, List.append_nil]
    refine h.of_lookup ?_
    rcases @exportListener_cases cfg listen m l localAddress with
      ⟨p, -, hs, -⟩ | ⟨-, addr, hs, -⟩ | ⟨hs, -⟩ <;>
      simp only [hs, AList.lookup_insert_ne (Ne.symm hL)]

theorem ProxyMatches.step (env : Outcomes) {m : Manager} (req : Request) {L : String}
    {ex : List (String × String)} (h : ProxyMatches m L ex) :
    ProxyMatches (step cfg lg env m req).1 L
      (ex ++ (exportedPair L (req, (step cfg lg env m req).2)).toList) := by
  cases req with
  | exportListener l localAddress => exact h.exportListener env.listen l localAddress
  | registerReplica | startComponent | getComponentsToStart | getRoutingInfo | recvMetrics =>
    simpa only [exportedPair, Option.toList_none, List.append_nil] using
      h.of_lookup (by simp [Ssh.step, handleRecvMetrics])

theorem ProxyMatches.run {m : Manager} {L : String} {ex : List (String × String)}
    (h : ProxyMatches m L ex) (steps : List (Request × Outcomes)) :
    ProxyMatches (run cfg lg m steps) L (ex ++ exportedTo L (trace cfg lg m steps)) := by
  induction steps generalizing m ex with
  | nil => simpa [trace, exportedTo] using h
  | cons s steps ih =>
    obtain ⟨req, env⟩ := s
    simp only [Ssh.run, trace, exportedTo_cons, ← List.append_assoc]
    exact ih (h.step env req)

/-- Over any run, listener `L` has no proxy until a call for it gets a proxy address; from
then on its one proxy has as backends the listeners of exactly those calls, in order, and
every such call got that proxy's address. -/
theorem run_proxy_backends (steps : List (Request × Outcomes)) (L : String) :
    ((run cfg lg .init steps).proxies.lookup L = none ∧
        exportedTo L (trace cfg lg .init steps) = []) ∨
      ∃ p, (run cfg lg .init steps).proxies.lookup L = some p ∧
        p.backends = (exportedTo L (trace cfg lg .init steps)).map Prod.fst ∧
        ∀ x ∈ exportedTo L (trace cfg lg .init steps), x.2 = p.addr := by
  exact @ProxyMatches.run cfg lg .init L [] (.inl ⟨rfl, rfl⟩) steps

end DeploymentManager.Ssh
