import DeploymentManager.Routing.Partition

namespace DeploymentManager.Routing

theorem length_bisectStep {q : List (Nat × Nat)} (h : q ≠ []) :
    (bisectStep q).length = q.length + 1 := by
  obtain ⟨x, q, rfl⟩ := List.exists_cons_of_ne_nil h
  simp [bisectStep, split]

theorem bisectLoop_eq {n : Nat} :
    ∀ (fuel : Nat) {q : List (Nat × Nat)}, q ≠ [] → q.length < n →
      bisectLoop n fuel q = if n - q.length ≤ fuel then some (bisect (n - q.length) q) else none
  | 0, _, _, hlt => by rw [bisectLoop, if_neg (by omega)]
  | fuel + 1, q, hq, hlt => by
    have hl := length_bisectStep hq
    simp only [bisectLoop, hl]
    by_cases he : q.length + 1 = n
    · rw [if_neg (not_not.mpr he), if_pos (by omega), show n - q.length = 0 + 1 by omega,
        bisect, bisect]
    · have hq' : bisectStep q ≠ [] := List.ne_nil_of_length_pos (by omega)
      rw [if_pos he, bisectLoop_eq fuel hq' (by omega), hl,
        show n - q.length = n - (q.length + 1) + 1 by omega, bisect]
      simp only [Nat.add_le_add_iff_right]

/-- Intervals that chain from `l` to `r`, each with its start below its end. -/
inductive Chain : Nat → Nat → List (Nat × Nat) → Prop
  | nil (l : Nat) : Chain l l []
  | cons {l m r : Nat} {xs : List (Nat × Nat)} : l < m → Chain m r xs → Chain l r ((l, m) :: xs)

theorem Chain.append {l m r : Nat} {xs ys : List (Nat × Nat)} (h₁ : Chain l m xs)
    (h₂ : Chain m r ys) : Chain l r (xs ++ ys) := by
  induction h₁ with
  | nil => exact h₂
  | cons hlt _ ih => exact .cons hlt (ih h₂)

theorem Tiles.chain {k l r : Nat} {xs : List (Nat × Nat)} (hk : 1 ≤ k) (h : Tiles k l r xs) :
    Chain l r xs := by
  induction h with
  | last hle hw => exact .cons (by have := hw.pos hk; omega) (.nil _)
  | cons hle hw _ ih => exact .cons (by have := hw.pos hk; omega) ih

theorem Tiles.take_drop {k l r : Nat} {xs : List (Nat × Nat)} (h : Tiles k l r xs) {i : Nat}
    (hi : 0 < i) (hil : i < xs.length) :
    ∃ m, Tiles k l m (xs.take i) ∧ Tiles k m r (xs.drop i) := by
  induction h generalizing i with
  | last => simp only [List.length_singleton] at hil; omega
  | @cons l m r xs hle hw ht ih =>
    obtain ⟨j, rfl⟩ : ∃ j, i = j + 1 := ⟨i - 1, by omega⟩
    rcases Nat.eq_zero_or_pos j with rfl | hj
    · exact ⟨m, .last hle hw, ht⟩
    · obtain ⟨m', h₁, h₂⟩ := ih hj (by simp only [List.length_cons] at hil; omega)
      exact ⟨m', .cons hle hw h₁, h₂⟩

theorem bisect_take_drop (q : List (Nat × Nat)) {i : Nat} (hi : i ≤ q.length) :
    bisect i q = q.drop i ++ (q.take i).flatMap split := by
  have h := bisect_pass (q.take i) (q.drop i)
  rwa [List.take_append_drop, List.length_take, min_eq_left hi] at h

theorem bisect_queue {n : Nat} (h1 : 1 ≤ n) :
    bisect (n - 1) (level 0) =
      (level n.log2).drop (n - 2 ^ n.log2) ++
        ((level n.log2).take (n - 2 ^ n.log2)).flatMap split := by
  obtain ⟨hlo, hhi⟩ := pow_log2_bounds h1
  rw [show n - 1 = (2 ^ n.log2 - 1) + (n - 2 ^ n.log2) by omega, bisect_add, bisect_level,
    bisect_take_drop _ (by rw [level_length]; omega)]

/-- For every slice count from `2` to `2^62`, the bisection loop stops after exactly
`numSlices - 1` passes, with `numSlices` intervals that, put in key order, each have their
start below their end and chain from `0` to `math.MaxUint64`. For a power of two the queue is
already in key order, and sorting it by start leaves it as it is. -/
theorem bisectLoop_chains {numSlices : Nat} (h2 : 2 ≤ numSlices) (hn : numSlices ≤ 2 ^ 62) :
    (∀ fuel, bisectLoop numSlices fuel [(minSliceKey, maxSliceKey)] =
        if numSlices - 1 ≤ fuel then some (bisect (numSlices - 1) [(minSliceKey, maxSliceKey)])
        else none) ∧
      (bisect (numSlices - 1) [(minSliceKey, maxSliceKey)]).length = numSlices ∧
      (∃ S, (bisect (numSlices - 1) [(minSliceKey, maxSliceKey)]).Perm S ∧
        Chain minSliceKey maxSliceKey S) ∧
      ∀ d, numSlices = 2 ^ d →
        ((bisect (numSlices - 1) [(minSliceKey, maxSliceKey)]).map Prod.fst).Sorted (· < ·) ∧
          sortSplits (bisect (numSlices - 1) [(minSliceKey, maxSliceKey)]) =
            bisect (numSlices - 1) [(minSliceKey, maxSliceKey)] := by
  obtain ⟨hlo, hhi⟩ := pow_log2_bounds (show 1 ≤ numSlices by omega)
  have hd : numSlices.log2 ≤ 62 :=
    (Nat.pow_le_pow_iff_right (by decide)).mp (hlo.trans hn)
  have hq := bisect_queue (n := numSlices) (by omega)
  rw [show [(minSliceKey, maxSliceKey)] = level 0 from rfl]
  refine ⟨fun fuel => ?_, ?_, ?_, fun d hnd => ?_⟩
  · have h := @bisectLoop_eq numSlices fuel (level 0) (List.cons_ne_nil _ _)
      (by rw [level_length, pow_zero]; omega)
    rwa [level_length, pow_zero] at h
  · rw [hq, List.length_append, length_flatMap_split, List.length_drop, List.length_take,
      level_length]
    omega
  · have ht := level_tiles (d := numSlices.log2) (by omega)
    rw [hq]
    rcases Nat.eq_zero_or_pos (numSlices - 2 ^ numSlices.log2) with h0 | hpos
    · rw [h0, List.drop_zero, List.take_zero, List.flatMap_nil, List.append_nil]
      exact ⟨_, .refl _, ht.chain (by omega)⟩
    · obtain ⟨m, h₁, h₂⟩ := ht.take_drop hpos (by rw [level_length]; omega)
      have hc₁ := (h₁.flatMap_split (by omega)).chain (by omega)
      exact ⟨_, List.perm_append_comm, hc₁.append (h₂.chain (by omega))⟩
  · subst hnd
    have hd' : d ≤ 62 := (Nat.pow_le_pow_iff_right (by decide)).mp hn
    rw [bisect_level]
    exact ⟨(level_tiles (by omega)).starts_sorted (by omega),
      (level_sorted (by omega)).insertionSort_eq⟩

theorem bisectLoop_chains_three :
    2 ≤ 3 ∧ 3 ≤ 2 ^ 62 ∧
      (∀ fuel, bisectLoop 3 fuel [(minSliceKey, maxSliceKey)] =
          if 3 - 1 ≤ fuel then some (bisect (3 - 1) [(minSliceKey, maxSliceKey)]) else none) ∧
        (bisect (3 - 1) [(minSliceKey, maxSliceKey)]).length = 3 ∧
        (∃ S, (bisect (3 - 1) [(minSliceKey, maxSliceKey)]).Perm S ∧
          Chain minSliceKey maxSliceKey S) ∧
        ∀ d, 3 = 2 ^ d →
          ((bisect (3 - 1) [(minSliceKey, maxSliceKey)]).map Prod.fst).Sorted (· < ·) ∧
            sortSplits (bisect (3 - 1) [(minSliceKey, maxSliceKey)]) =
              bisect (3 - 1) [(minSliceKey, maxSliceKey)] :=
  ⟨by decide, by decide, bisectLoop_chains (by decide) (by decide)⟩

end DeploymentManager.Routing
