import Mathlib.Data.List.Chain
import Mathlib.Data.List.Sort
import DeploymentManager.Metrics.Unique

namespace DeploymentManager.Metrics

section Search

variable {f : Nat → Bool} {n : Nat}

def SearchInv (f : Nat → Bool) (n i j : Nat) : Prop :=
  i ≤ j ∧ j ≤ n ∧ (∀ k < i, f k = false) ∧ ∀ k, j ≤ k → k < n → f k = true

theorem searchLoop_inv (hmono : ∀ a b, a ≤ b → b < n → f a = true → f b = true) {i j : Nat}
    (h : SearchInv f n i j) : SearchInv f n (searchLoop f i j) (searchLoop f i j) := by
  induction i, j using searchLoop.induct f with
  | case1 i j hij h hf ih =>
    rw [searchLoop, dif_pos hij, if_pos hf]
    obtain ⟨-, hjn, hlo, hhi⟩ := h
    refine ih ⟨by omega, hjn, fun k hk => ?_, hhi⟩
    simp only [Bool.not_eq_true'] at hf
    cases hfk : f k
    · rfl
    · rw [hmono k _ (by omega) (by omega) hfk] at hf
      cases hf
  | case2 i j hij h hf ih =>
    rw [searchLoop, dif_pos hij, if_neg hf]
    obtain ⟨-, hjn, hlo, hhi⟩ := h
    simp only [Bool.not_eq_true', Bool.not_eq_false] at hf
    exact ih ⟨by omega, by omega, hlo, fun k hk hkn => hmono _ k hk hkn hf⟩
  | case3 i j hij =>
    rw [searchLoop, dif_neg hij]
    obtain ⟨hij', hjn, hlo, hhi⟩ := h
    exact ⟨le_rfl, by omega, hlo, fun k hk hkn => hhi k (by omega) hkn⟩

theorem search_spec (hmono : ∀ a b, a ≤ b → b < n → f a = true → f b = true) :
    search n f ≤ n ∧ (∀ k < search n f, f k = false) ∧
      (search n f < n → f (search n f) = true) := by
  obtain ⟨-, hn, hlo, hhi⟩ :=
    searchLoop_inv hmono ⟨Nat.zero_le n, le_rfl, fun _ h => absurd h (Nat.not_lt_zero _),
      fun k hk hkn => absurd hkn (by omega)⟩
  exact ⟨hn, hlo, hhi _ le_rfl⟩

end Search

def ValidBounds (bounds : List Float64) : Prop :=
  ∃ xs : List (WithBot (WithTop ℚ)), bounds = xs.map .num ∧ xs.Sorted (· < ·)

theorem validBounds_of_checked {bounds : List Float64}
    (hnan : ¬bounds.any Float64.isNaN = true) (hasc : ¬nonAscending bounds = true) :
    ValidBounds bounds := by
  suffices h : ∃ xs : List (WithBot (WithTop ℚ)), bounds = xs.map .num ∧ xs.Chain' (· < ·) by
    obtain ⟨xs, rfl, hc⟩ := h
    exact ⟨xs, rfl, List.chain'_iff_pairwise.mp hc⟩
  induction bounds with
  | nil => exact ⟨[], rfl, List.chain'_nil⟩
  | cons b rest ih =>
    simp only [List.any_cons, Bool.or_eq_true, not_or] at hnan
    obtain ⟨x, rfl⟩ : ∃ x, b = .num x := by
      cases b with
      | nan => exact absurd rfl hnan.1
      | num x => exact ⟨x, rfl⟩
    have hrest : ¬nonAscending rest = true := by
      cases rest with
      | nil => exact Bool.false_ne_true
      | cons y rest =>
        simp only [nonAscending, Bool.or_eq_true, not_or] at hasc
        exact hasc.2
    obtain ⟨xs, rfl, hc⟩ := ih hnan.2 hrest
    refine ⟨x :: xs, rfl, ?_⟩
    cases xs with
    | nil => exact List.chain'_singleton x
    | cons y ys =>
      simp only [nonAscending, List.map_cons, Float64.ge, Bool.or_eq_true, decide_eq_true_eq,
        not_or, not_le] at hasc
      exact hc.cons hasc.1

/-- The bucket of `v`: at or above bound `idx - 1`, below bound `idx`; a NaN has none. -/
def InBucket (bounds : List Float64) (idx : Nat) (v : Float64) : Prop :=
  v ≠ .nan →
    (idx = 0 ∨ ∃ b, bounds[idx - 1]? = some b ∧ v.ge b = true) ∧
      (idx = bounds.length ∨ ∃ b, bounds[idx]? = some b ∧ v.lt b = true)

theorem searchFloat64s_nan (bounds : List Float64) :
    searchFloat64s bounds .nan = bounds.length := by
  have hf : ∀ k, (bounds.getD k .nan).ge .nan = false := fun k => by
    cases bounds.getD k .nan <;> rfl
  obtain ⟨hle, -, hlt⟩ := search_spec (n := bounds.length)
    (f := fun k => (bounds.getD k .nan).ge .nan) (fun a _ _ _ h => by simp only [hf] at h; cases h)
  by_contra hne
  have := hlt (by unfold searchFloat64s at hne; omega)
  rw [hf] at this
  cases this

theorem getD_map_num {xs : List (WithBot (WithTop ℚ))} {k : Nat} (hk : k < xs.length) :
    (xs.map Float64.num).getD k .nan = .num xs[k] := by
  simp [List.getD_eq_getElem?_getD, List.getElem?_eq_getElem hk]

theorem searchFloat64s_num {xs : List (WithBot (WithTop ℚ))} (hs : xs.Sorted (· < ·))
    (x : WithBot (WithTop ℚ)) :
    searchFloat64s (xs.map .num) (.num x) ≤ xs.length ∧
      (∀ k < searchFloat64s (xs.map .num) (.num x), ∀ y ∈ xs[k]?, y < x) ∧
      ∀ y ∈ xs[searchFloat64s (xs.map .num) (.num x)]?, x ≤ y := by
  have hf : ∀ k (hk : k < xs.length),
      ((xs.map Float64.num).getD k .nan).ge (.num x) = decide (x ≤ xs[k]) := fun k hk => by
    rw [getD_map_num hk]; rfl
  have hmono : ∀ a b, a ≤ b → b < (xs.map Float64.num).length →
      ((xs.map Float64.num).getD a .nan).ge (.num x) = true →
        ((xs.map Float64.num).getD b .nan).ge (.num x) = true := by
    intro a b hab hb ha
    rw [List.length_map] at hb
    rw [hf a (by omega), decide_eq_true_eq] at ha
    rw [hf b hb, decide_eq_true_eq]
    rcases Nat.lt_or_eq_of_le hab with hab | rfl
    · exact ha.trans (List.pairwise_iff_getElem.mp hs a b (by omega) hb hab).le
    · exact ha
  obtain ⟨hle, hlo, hhi⟩ := search_spec hmono
  unfold searchFloat64s
  simp only [List.length_map] at hle hlo hhi ⊢
  refine ⟨hle, fun k hk y hy => ?_, fun y hy => ?_⟩
  · have hkx : k < xs.length := by omega
    have := hlo k hk
    rw [hf k hkx, decide_eq_false_iff_not, not_le] at this
    rwa [List.getElem?_eq_getElem hkx, Option.mem_some_iff.mp hy] at *
  · have hlt : search xs.length (fun k => ((xs.map Float64.num).getD k .nan).ge (.num x)) <
        xs.length :=
      (List.getElem?_eq_some_iff.mp (Option.mem_def.mp hy)).1
    have := hhi hlt
    rw [hf _ hlt, decide_eq_true_eq] at this
    rwa [List.getElem?_eq_getElem hlt, Option.mem_some_iff.mp hy] at *

theorem putIndex_spec {bounds : List Float64} (hv : ValidBounds bounds) (v : Float64) :
    putIndex bounds v ≤ bounds.length ∧ InBucket bounds (putIndex bounds v) v := by
  cases v with
  | nan =>
    have h : putIndex bounds .nan = bounds.length := by
      simp [putIndex, searchFloat64s_nan]
    exact ⟨h.le, fun hn => absurd rfl hn⟩
  | num x =>
    obtain ⟨xs, rfl, hs⟩ := hv
    obtain ⟨hle, hlo, hhi⟩ := searchFloat64s_num hs x
    simp only [putIndex, List.length_map]
    generalize searchFloat64s (xs.map .num) (.num x) = i at hle hlo hhi
    have hget : ∀ k (hk : k < xs.length), (xs.map Float64.num)[k]? = some (.num xs[k]) :=
      fun k hk => by simp [List.getElem?_eq_getElem hk]
    have hbelow : i = 0 ∨ ∃ b, (xs.map Float64.num)[i - 1]? = some b ∧ (Float64.num x).ge b := by
      rcases Nat.eq_zero_or_pos i with rfl | hpos
      · exact .inl rfl
      · have hk : i - 1 < xs.length := by omega
        refine .inr ⟨_, hget _ hk, ?_⟩
        simpa using (hlo (i - 1) (by omega) _ (List.getElem?_eq_getElem hk ▸ rfl)).le
    refine ⟨by split_ifs <;> omega, fun _ => ?_⟩
    by_cases hi : i < xs.length
    · have hxi : x ≤ xs[i] := hhi _ (List.getElem?_eq_getElem hi ▸ rfl)
      rw [getD_map_num hi, Float64.eq_num]
      by_cases heq : x = xs[i]
      · rw [if_pos ⟨hi, decide_eq_true heq⟩]
        refine ⟨.inr ⟨_, hget i hi, by simp [heq]⟩, ?_⟩
        by_cases hi' : i + 1 < xs.length
        · have hlt := List.pairwise_iff_getElem.mp hs i (i + 1) hi hi' (by omega)
          exact .inr ⟨_, hget _ hi', by simp [heq, hlt]⟩
        · exact .inl (by simp only [List.length_map]; omega)
      · rw [if_neg fun h => heq (of_decide_eq_true h.2)]
        exact ⟨hbelow, .inr ⟨_, hget i hi, by simp [lt_of_le_of_ne hxi heq]⟩⟩
    · rw [if_neg fun h => hi h.1]
      exact ⟨hbelow, .inl (by simp only [List.length_map]; omega)⟩

section Put

variable {L : Type} (fadd : Float64 → Float64 → Float64)

theorem Metric.put_bucket {m : Metric L} (hv : ValidBounds m.bounds)
    (hc : m.counts.length = m.bounds.length + 1) (v : Float64) :
    ∃ m', m.put fadd v = some m' ∧ m'.bounds = m.bounds ∧
      m'.counts = m.counts.modify (· + 1) (putIndex m.bounds v) := by
  have hle := (putIndex_spec hv v).1
  simp only [Metric.put, if_pos (show putIndex m.bounds v < m.counts.length by omega)]
  exact ⟨_, rfl, rfl, rfl⟩

theorem Metric.putAll_shape {m : Metric L} (hv : ValidBounds m.bounds)
    (hc : m.counts.length = m.bounds.length + 1) (vs : List Float64) :
    ∃ m', m.putAll fadd vs = some m' ∧ m'.bounds = m.bounds ∧
      m'.counts.length = m.counts.length := by
  induction vs generalizing m with
  | nil => exact ⟨m, rfl, rfl, rfl⟩
  | cons v vs ih =>
    obtain ⟨m₁, h₁, hb₁, hc₁⟩ := Metric.put_bucket fadd hv hc v
    have hl₁ : m₁.counts.length = m.counts.length := by rw [hc₁, List.length_modify]
    obtain ⟨m', h', hb', hc'⟩ := ih (hb₁ ▸ hv) (by rw [hl₁, hb₁, hc])
    exact ⟨m', by simp [Metric.putAll, h₁, h'], hb'.trans hb₁, hc'.trans hl₁⟩

end Put

/-- What the registry keeps of the bounds checks: every map's bounds are valid, and every
metric has valid bounds and, when a histogram, one count per bucket. -/
structure BoundsChecked {L : Type} [DecidableEq L] (reg : Registry L) : Prop where
  maps : ∀ mm ∈ reg.maps, ValidBounds mm.config.bounds
  metrics : ∀ mt ∈ reg.metrics, ValidBounds mt.bounds ∧
    (mt.typ = .histogram → mt.counts.length = mt.bounds.length + 1)

section Registry

variable {L : Type} [DecidableEq L]

theorem init_boundsChecked : BoundsChecked (Registry.init : Registry L) :=
  ⟨fun _ h => absurd h (List.not_mem_nil _), fun _ h => absurd h (List.not_mem_nil _)⟩

theorem registerMap_bounds {c : Option String} {t : MetricType} {n hp : String}
    {b : List Float64} {reg reg' : Registry L} {k : Nat}
    (h : registerMap c t n hp b reg = .ok (reg', k)) : ValidBounds b := by
  unfold registerMap at h
  split at h
  · cases h
  simp only [ite_eq_iff, reduceCtorEq, and_false, false_or, Except.ok.injEq,
    Prod.mk.injEq] at h
  obtain ⟨-, -, hnan, hasc, -⟩ := h
  exact validBounds_of_checked hnan hasc

theorem BoundsChecked.registerMap {c : Option String} {t : MetricType} {n hp : String}
    {b : List Float64} {reg reg' : Registry L} {k : Nat} (hb : BoundsChecked reg)
    (h : Metrics.registerMap c t n hp b reg = .ok (reg', k)) : BoundsChecked reg' := by
  have hv := registerMap_bounds h
  obtain ⟨-, -, rfl⟩ := registerMap_ok h
  refine ⟨fun mm hmm => ?_, hb.metrics⟩
  rcases List.mem_append.mp hmm with hmm | hmm
  · exact hb.maps mm hmm
  · rw [List.mem_singleton.mp hmm]
    exact hv

theorem BoundsChecked.get {k : Nat} {l : L} {reg reg' : Registry L} {i : Nat}
    (hb : BoundsChecked reg) (h : Metrics.get k l reg = .ok (reg', i)) : BoundsChecked reg' := by
  obtain ⟨mm, hmm, ⟨-, rfl⟩ | ⟨-, -, rfl⟩⟩ := get_ok h
  · exact ⟨hb.maps, hb.metrics⟩
  · have hv := hb.maps mm (List.mem_iff_getElem?.mpr ⟨k, hmm⟩)
    refine ⟨fun mm' hmm' => ?_, fun mt hmt => ?_⟩
    · rcases List.mem_or_eq_of_mem_set hmm' with hmm' | rfl
      · exact hb.maps mm' hmm'
      · exact hv
    · rcases List.mem_append.mp hmt with hmt | hmt
      · exact hb.metrics mt hmt
      · rw [List.mem_singleton.mp hmt]
        refine ⟨hv, fun ht => ?_⟩
        simp only at ht
        simp [ht]

theorem BoundsChecked.call (unit : L) {c : Call L} {reg reg' : Registry L} {r : Nat}
    (hb : BoundsChecked reg) (h : call unit c reg = .ok (reg', r)) : BoundsChecked reg' := by
  cases c with
  | registerMap lc t n hp b => exact hb.registerMap h
  | register t n hp b =>
    obtain ⟨⟨reg₁, k⟩, h₁, h₂⟩ := bind_ok h
    exact (hb.registerMap h₁).get h₂
  | get k l => exact hb.get h

theorem exec_boundsChecked (unit : L) :
    ∀ (calls : List (Call L)) {reg reg' : Registry L},
      BoundsChecked reg → exec unit reg calls = .ok reg' → BoundsChecked reg'
  | [], _, _, hb, h => by
    cases h
    exact hb
  | _ :: cs, _, _, hb, h => by
    obtain ⟨⟨reg₁, r⟩, h₁, h₂⟩ := bind_ok h
    exact exec_boundsChecked unit cs (hb.call unit h₁) h₂

/-- Every histogram metric of a registry built by `RegisterMap`, `Register` and `Get` calls,
after any `Put`s, takes the next value `v` without a panic: exactly one of its counts, at an
index `idx` in `[0, len(bounds)]`, grows by one, and a value that is not NaN lies in bucket
`idx`, that is at or above `bounds[idx-1]` and below `bounds[idx]`. -/
theorem exec_histogram_put (unit : L) (calls : List (Call L)) {reg : Registry L}
    (h : exec unit .init calls = .ok reg) {mt : Metric L} (hmt : mt ∈ reg.metrics)
    (hh : mt.typ = .histogram) (fadd : Float64 → Float64 → Float64) (vs : List Float64)
    (v : Float64) :
    ∃ mt', mt.putAll fadd vs = some mt' ∧ mt'.counts.length = mt.bounds.length + 1 ∧
      ∃ idx mt'', mt'.put fadd v = some mt'' ∧ idx ≤ mt.bounds.length ∧
        mt''.counts = mt'.counts.modify (· + 1) idx ∧ InBucket mt.bounds idx v := by
  obtain ⟨hv, hc⟩ := (exec_boundsChecked unit calls init_boundsChecked h).metrics mt hmt
  obtain ⟨mt', h', hb', hc'⟩ := Metric.putAll_shape fadd hv (hc hh) vs
  rw [← hb'] at hv ⊢
  obtain ⟨mt'', h'', -, hc''⟩ :=
    Metric.put_bucket fadd hv (by rw [hc', hc hh, hb']) v
  exact ⟨mt', h', by rw [hc', hc hh, hb'], _, mt'', h'', (putIndex_spec hv v).1, hc'',
    (putIndex_spec hv v).2⟩

theorem histogram_put_at_bound :
    ∃ reg mt, exec () .init [.register .histogram "latency" "" [.num (0 : ℚ), .num (10 : ℚ)]] =
        .ok reg ∧ mt ∈ reg.metrics ∧ mt.typ = .histogram ∧
      ∃ mt', mt.putAll (fun a _ => a) [.num (5 : ℚ)] = some mt' ∧
        mt'.counts.length = mt.bounds.length + 1 ∧
        ∃ idx mt'', mt'.put (fun a _ => a) (.num (10 : ℚ)) = some mt'' ∧
          idx ≤ mt.bounds.length ∧ mt''.counts = mt'.counts.modify (· + 1) idx ∧
          InBucket mt.bounds idx (.num (10 : ℚ)) :=
  ⟨_, _, rfl, List.mem_singleton_self _, rfl,
    exec_histogram_put ()
      [.register .histogram "latency" "" [.num (0 : ℚ), .num (10 : ℚ)]] rfl
      (List.mem_singleton_self _) rfl _ _ _⟩

end Registry

end DeploymentManager.Metrics
