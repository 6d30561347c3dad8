import DeploymentManager.Routing.Partition

namespace DeploymentManager.Routing

theorem countP_range_eq (j m : Nat) :
    ((List.range m).countP fun i => i = j) = if j < m then 1 else 0 := by
  induction m with
  | zero => simp
  | succ m ih =>
    rw [List.range_succ, List.countP_append, ih]
    by_cases h : m = j
    · subst h; simp
    · simp only [List.countP_singleton, decide_eq_true_eq, if_neg h]
      split_ifs <;> omega

theorem countP_range_mod {n N j : Nat} (hj : j < n) (hnN : n ≤ N) (hN : N ≤ 2 * n) :
    ((List.range N).countP fun i => i % n = j) = if j < N - n then 2 else 1 := by
  obtain ⟨m, rfl⟩ : ∃ m, N = n + m := ⟨N - n, by omega⟩
  rw [List.range_add, List.countP_append, List.countP_map]
  have h₁ : ((List.range n).countP fun i => i % n = j) = 1 := by
    rw [List.countP_congr (q := fun i => i = j) fun i hi => by
      simp [Nat.mod_eq_of_lt (List.mem_range.mp hi)], countP_range_eq, if_pos hj]
  have h₂ : ((List.range m).countP ((fun i => decide (i % n = j)) ∘ fun x => n + x)) =
      if j < m then 1 else 0 := by
    rw [List.countP_congr (q := fun i => i = j) fun i hi => by
      have := List.mem_range.mp hi
      simp [Nat.add_mod_left, Nat.mod_eq_of_lt (show i < n by omega)], countP_range_eq]
  rw [h₁, h₂, Nat.add_sub_cancel_left]
  split_ifs <;> rfl

theorem routingAlgo_replicas_map (lg : Log2Ceil) (a : Assignment) {c : List String}
    (h1 : 1 ≤ c.length) :
    (routingAlgo lg a c).1.slices.map Slice.replicas =
      (List.range (routingAlgo lg a c).1.slices.length).map
        fun i => [(sortStrings c).getD (i % c.length) ""] := by
  refine List.ext_getElem? fun i => ?_
  by_cases hi : i < (routingAlgo lg a c).1.slices.length
  · rw [List.getElem?_map, routingAlgo_slices_getElem? lg a h1 hi, List.getElem?_map,
      List.getElem?_range hi]
    rfl
  · rw [List.getElem?_eq_none (by simpa using hi), List.getElem?_eq_none (by simpa using hi)]

theorem nextPowerOfTwo_lt_two_mul (lg : Log2Ceil) {n : Nat} (h2 : 2 ≤ n) (hn : n ≤ maxSliceLen) :
    n ≤ nextPowerOfTwo lg n ∧ nextPowerOfTwo lg n ≤ 2 * n := by
  rw [nextPowerOfTwo_eq lg (by omega) hn]
  have hpos : 1 ≤ Nat.clog 2 n := (Nat.pow_lt_iff_lt_clog (by decide)).mp (by omega)
  have hpred := Nat.pow_pred_clog_lt_self (b := 2) (by decide) (x := n) (by omega)
  have hsplit : 2 ^ Nat.clog 2 n = 2 * 2 ^ (Nat.clog 2 n).pred := by
    have h : (Nat.clog 2 n).pred + 1 = Nat.clog 2 n := Nat.succ_pred_eq_of_pos hpos
    rw [← pow_succ', h]
  exact ⟨Nat.le_pow_clog (by decide) n, by omega⟩

theorem routingAlgo_owned_count (lg : Log2Ceil) (a : Assignment) {c : List String}
    (h2 : 2 ≤ c.length) (hnd : c.Nodup) (hn : c.length ≤ maxSliceLen) {j : Nat}
    (hj : j < (sortStrings c).length) :
    (routingAlgo lg a c).1.slices.countP (fun s => s.replicas = [(sortStrings c)[j]]) =
      if j < nextPowerOfTwo lg c.length - c.length then 2 else 1 := by
  have hnds : (sortStrings c).Nodup := (sortStrings_perm c).nodup_iff.mpr hnd
  have hlen := routingAlgo_slices_length lg a (by omega) hn
  rw [if_neg (by omega)] at hlen
  have hj' : j < c.length := by simpa using hj
  obtain ⟨hlo, hhi⟩ := nextPowerOfTwo_lt_two_mul lg h2 hn
  rw [show (fun s : Slice => decide (s.replicas = [(sortStrings c)[j]])) =
      (fun r => decide (r = [(sortStrings c)[j]])) ∘ Slice.replicas from rfl,
    ← List.countP_map, routingAlgo_replicas_map lg a (by omega), List.countP_map, hlen,
    ← countP_range_mod hj' hlo hhi]
  refine List.countP_congr fun i _ => ?_
  have hi : i % c.length < (sortStrings c).length := by
    simpa using Nat.mod_lt i (show 0 < c.length by omega)
  simp only [Function.comp, decide_eq_true_eq, List.cons.injEq, and_true,
    List.getD_eq_getElem _ _ hi]
  exact hnds.getElem_inj_iff

theorem getElem_mem_take_iff {α : Type} {l : List α} (hl : l.Nodup) {j k : Nat}
    (hj : j < l.length) : l[j] ∈ l.take k ↔ j < k := by
  rw [List.mem_take_iff_getElem]
  constructor
  · rintro ⟨i, hi, he⟩
    have := hl.getElem_inj_iff.mp he
    omega
  · exact fun h => ⟨j, by omega, rfl⟩

/-- Slice `i` of `routingAlgo`'s result is owned by sorted candidate `i mod n`. For distinct
candidates, at most `maxSliceLen` of them, every candidate owns one or two slices, and those
owning two are exactly the first `nextPowerOfTwo n - n` in sorted order. -/
theorem routingAlgo_round_robin_balance (lg : Log2Ceil) (a : Assignment) {c : List String}
    (h2 : 2 ≤ c.length) (hnd : c.Nodup) :
    (∀ i < (routingAlgo lg a c).1.slices.length,
        (routingAlgo lg a c).1.slices[i]?.map Slice.replicas =
          some [(sortStrings c).getD (i % c.length) ""]) ∧
      (c.length ≤ maxSliceLen → ∀ x ∈ c,
        1 ≤ (routingAlgo lg a c).1.slices.countP (fun s => s.replicas = [x]) ∧
        (routingAlgo lg a c).1.slices.countP (fun s => s.replicas = [x]) ≤ 2 ∧
        ((routingAlgo lg a c).1.slices.countP (fun s => s.replicas = [x]) = 2 ↔
          x ∈ (sortStrings c).take (nextPowerOfTwo lg c.length - c.length))) := by
  refine ⟨fun i hi => routingAlgo_slices_getElem? lg a (by omega) hi, fun hn x hx => ?_⟩
  have hnds : (sortStrings c).Nodup := (sortStrings_perm c).nodup_iff.mpr hnd
  obtain ⟨j, hj, rfl⟩ := List.getElem_of_mem ((sortStrings_perm c).symm.subset hx)
  rw [routingAlgo_owned_count lg a h2 hnd hn hj, getElem_mem_take_iff hnds hj]
  split_ifs with h <;> simp [h]

theorem routingAlgo_round_robin_balance_three :
    let a : Assignment := ⟨"app", "dep", "c", 0, []⟩
    let c := ["c", "a", "b"]
    2 ≤ c.length ∧ c.Nodup ∧
      (∀ i < (routingAlgo .exactCeil a c).1.slices.length,
        (routingAlgo .exactCeil a c).1.slices[i]?.map Slice.replicas =
          some [(sortStrings c).getD (i % c.length) ""]) ∧
      (c.length ≤ maxSliceLen → ∀ x ∈ c,
        1 ≤ (routingAlgo .exactCeil a c).1.slices.countP (fun s => s.replicas = [x]) ∧
        (routingAlgo .exactCeil a c).1.slices.countP (fun s => s.replicas = [x]) ≤ 2 ∧
        ((routingAlgo .exactCeil a c).1.slices.countP (fun s => s.replicas = [x]) = 2 ↔
          x ∈ (sortStrings c).take (nextPowerOfTwo .exactCeil c.length - c.length))) :=
  ⟨by decide, by decide, routingAlgo_round_robin_balance _ _ (by decide) (by decide)⟩

/-- The keys of each slice, read off the starts `s_0 < … < s_{N-1}` with `s_N = 2^64`: slice
`i` holds `s_{i+1} - s_i` keys. -/
def keyCounts : List Nat → List Nat
  | [] => []
  | [s] => [2 ^ 64 - s]
  | s :: t :: rest => (t - s) :: keyCounts (t :: rest)

theorem Tiles.keyCounts_near {k l r : Nat} {xs : List (Nat × Nat)} (h : Tiles k l r xs)
    (hr : r + 1 = 2 ^ 64) : ∀ g ∈ keyCounts (xs.map Prod.fst), 2 ^ k ≤ g + 1 ∧ g ≤ 2 ^ k + 1 := by
  induction h with
  | @last l r hle hw =>
    simp only [List.map_cons, List.map_nil, keyCounts, List.mem_singleton, forall_eq]
    generalize 2 ^ 64 = T at hr ⊢
    rcases hw with hw | hw <;> omega
  | @cons l m r xs hle hw ht ih =>
    obtain ⟨tail, htail⟩ := List.head?_eq_some_iff.mp ht.head
    intro g hg
    rw [List.map_cons, htail, keyCounts, ← htail, List.mem_cons] at hg
    rcases hg with rfl | hg
    · rcases hw with hw | hw <;> omega
    · exact ih hr g hg

/-- For two to `maxSliceLen` candidates, each of the `N` slices holds `2^64 / N` keys up to
one. -/
theorem routingAlgo_key_counts_near (lg : Log2Ceil) (a : Assignment) {c : List String}
    (h2 : 2 ≤ c.length) (hn : c.length ≤ maxSliceLen) :
    ∀ g ∈ keyCounts ((routingAlgo lg a c).1.slices.map Slice.start),
      2 ^ 64 / (routingAlgo lg a c).1.slices.length ≤ g + 1 ∧
        g ≤ 2 ^ 64 / (routingAlgo lg a c).1.slices.length + 1 := by
  have hd := clog_le_of_le_maxSliceLen hn
  rw [routingAlgo_slices_of_two_le lg a h2 hn, assignSlices_starts, length_assignSlices,
    level_length, Nat.pow_div (by omega) (by decide)]
  exact (level_tiles (by omega)).keyCounts_near rfl

theorem routingAlgo_key_counts_near_two :
    let a : Assignment := ⟨"app", "dep", "c", 0, []⟩
    2 ≤ ["b", "a"].length ∧ ["b", "a"].length ≤ maxSliceLen ∧
      ∀ g ∈ keyCounts ((routingAlgo .exactCeil a ["b", "a"]).1.slices.map Slice.start),
        2 ^ 64 / (routingAlgo .exactCeil a ["b", "a"]).1.slices.length ≤ g + 1 ∧
          g ≤ 2 ^ 64 / (routingAlgo .exactCeil a ["b", "a"]).1.slices.length + 1 :=
  ⟨by decide, by decide, routingAlgo_key_counts_near _ _ (by decide) (by decide)⟩

theorem keyCounts_append_pair (xs : List Nat) (a b : Nat) :
    ∃ pre, keyCounts (xs ++ [a, b]) = pre ++ [b - a, 2 ^ 64 - b] := by
  induction xs with
  | nil => exact ⟨[], rfl⟩
  | cons x xs ih =>
    obtain ⟨pre, hpre⟩ := ih
    cases xs with
    | nil => exact ⟨[a - x], rfl⟩
    | cons y ys =>
      refine ⟨(y - x) :: pre, ?_⟩
      rw [List.cons_append, List.cons_append, keyCounts, ← List.cons_append, hpre,
        List.cons_append]

theorem toFloat64_pred_two_pow' {k : Nat} (hk : 54 ≤ k) (hle : 2 ^ k ≤ 2 ^ 64) :
    toFloat64 (2 ^ 64 - 1 - (2 ^ 64 - 2 ^ k)) = 2 ^ k := by
  rw [show 2 ^ 64 - 1 - (2 ^ 64 - 2 ^ k) = 2 ^ k - 1 by omega, toFloat64_pred_two_pow hk]

theorem split_pair (l r : Nat) :
    split (l, r) = [(l, l + toFloat64 (r - l) / 2), (l + toFloat64 (r - l) / 2, r)] := rfl

theorem level_last {d : Nat} (hd : d ≤ 11) :
    ∃ pre, level d = pre ++ [(2 ^ 64 - 2 ^ (64 - d), 2 ^ 64 - 1)] := by
  induction d with
  | zero => exact ⟨[], rfl⟩
  | succ d ih =>
    obtain ⟨pre, hpre⟩ := ih (by omega)
    have hk : 2 ^ (64 - d) = 2 * 2 ^ (64 - (d + 1)) := by
      rw [← pow_succ']
      congr 1
      omega
    have hle : 2 ^ (64 - d) ≤ 2 ^ 64 := Nat.pow_le_pow_right (by decide) (by omega)
    refine ⟨pre.flatMap split ++ [(2 ^ 64 - 2 ^ (64 - d), 2 ^ 64 - 2 ^ (64 - (d + 1)))], ?_⟩
    rw [level, hpre, List.flatMap_append, List.flatMap_cons, List.flatMap_nil, List.append_nil,
      split_pair, toFloat64_pred_two_pow' (show 54 ≤ 64 - d by omega) hle, List.append_assoc]
    generalize 2 ^ (64 - d) = P at hk hle ⊢
    subst hk
    generalize 2 ^ (64 - (d + 1)) = Q at hle ⊢
    rw [show 2 ^ 64 - 2 * Q + 2 * Q / 2 = 2 ^ 64 - Q by omega]
    rfl

theorem level_twelve :
    ∃ pre, level 12 = pre ++
      [(2 ^ 64 - 2 ^ 53, 2 ^ 64 - 2 ^ 52 - 1), (2 ^ 64 - 2 ^ 52 - 1, 2 ^ 64 - 1)] := by
  obtain ⟨pre, hpre⟩ := level_last (d := 11) le_rfl
  refine ⟨pre.flatMap split, ?_⟩
  rw [level, hpre, List.flatMap_append, List.flatMap_cons, List.flatMap_nil, List.append_nil,
    split_pair, show 2 ^ 64 - 1 - (2 ^ 64 - 2 ^ (64 - 11)) = 2 ^ 53 - 1 from rfl,
    toFloat64_of_lt (by decide)]
  rfl

theorem routingAlgo_key_counts_tail (lg : Log2Ceil) (a : Assignment) {c : List String}
    (h1 : 2 ^ 11 < c.length) (h2 : c.length ≤ 2 ^ 12) :
    ∃ pre, keyCounts ((routingAlgo lg a c).1.slices.map Slice.start) =
      pre ++ [2 ^ 52 - 1, 2 ^ 52 + 1] := by
  have hclog : Nat.clog 2 c.length = 12 :=
    le_antisymm ((Nat.le_pow_iff_clog_le (by decide)).mp h2)
      ((Nat.pow_lt_iff_lt_clog (by decide)).mp h1)
  rw [routingAlgo_slices_of_two_le lg a (by omega) (le_trans h2 (by decide)),
    assignSlices_starts, hclog]
  obtain ⟨pre, hpre⟩ := level_twelve
  rw [hpre, List.map_append]
  obtain ⟨pre', h'⟩ := keyCounts_append_pair (pre.map Prod.fst)
    (2 ^ 64 - 2 ^ 53) (2 ^ 64 - 2 ^ 52 - 1)
  exact ⟨pre', by rw [List.map_cons, List.map_cons, List.map_nil, h']; rfl⟩

/-- With `4096` candidates two neighbouring slices differ by two keys: `2^52 - 1` and
`2^52 + 1`. -/
theorem key_counts_differ_by_two (lg : Log2Ceil) (a : Assignment) :
    ∃ pre, keyCounts ((routingAlgo lg a ((List.range 4096).map Nat.repr)).1.slices.map
      Slice.start) = pre ++ [2 ^ 52 - 1, 2 ^ 52 + 1] :=
  routingAlgo_key_counts_tail lg a (by simp) (by simp)

end DeploymentManager.Routing
