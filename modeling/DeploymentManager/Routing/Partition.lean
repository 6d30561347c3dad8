import Mathlib.Data.List.GetD
import DeploymentManager.Routing.Algo

namespace DeploymentManager.Routing

theorem droppedBits_of_lt {x : Nat} (h : x < 2 ^ 53) : droppedBits x = 0 := by
  rcases Nat.eq_zero_or_pos x with rfl | hx
  · simp [droppedBits]
  · have := (Nat.log2_lt hx.ne').mpr h
    simp only [droppedBits]
    omega

theorem toFloat64_of_lt {x : Nat} (h : x < 2 ^ 53) : toFloat64 x = x := by
  simp [toFloat64, droppedBits_of_lt h, Nat.mod_one]

@[simp] theorem toFloat64_two_pow (k : Nat) : toFloat64 (2 ^ k) = 2 ^ k := by
  have hd : 2 ^ droppedBits (2 ^ k) ∣ 2 ^ k :=
    Nat.pow_dvd_pow 2 (by simp only [droppedBits, Nat.log2_two_pow]; omega)
  have hp : 0 < 2 ^ droppedBits (2 ^ k) := Nat.two_pow_pos _
  simp only [toFloat64, Nat.mod_eq_zero_of_dvd hd]
  rw [if_neg (by omega), Nat.div_mul_cancel hd]

theorem log2_pred_two_pow {k : Nat} (hk : 1 ≤ k) : Nat.log2 (2 ^ k - 1) = k - 1 := by
  have h1 : 2 ^ (k - 1) ≤ 2 ^ k - 1 := by
    have := Nat.pow_lt_pow_right (a := 2) (by decide) (show k - 1 < k by omega)
    omega
  have h0 : 2 ^ k - 1 ≠ 0 := by have := Nat.one_le_two_pow (n := k - 1); omega
  apply le_antisymm
  · have := (Nat.log2_lt h0).mpr (show 2 ^ k - 1 < 2 ^ k by have := Nat.one_le_two_pow (n := k); omega)
    omega
  · exact (Nat.le_log2 h0).mpr h1

theorem toFloat64_pred_two_pow {k : Nat} (hk : 54 ≤ k) : toFloat64 (2 ^ k - 1) = 2 ^ k := by
  obtain ⟨e, rfl⟩ : ∃ e, k = 53 + (e + 1) := ⟨k - 54, by omega⟩
  have hd : droppedBits (2 ^ (53 + (e + 1)) - 1) = e + 1 := by
    simp only [droppedBits, log2_pred_two_pow (show 1 ≤ 53 + (e + 1) by omega)]
    omega
  have hP : 2 ≤ 2 ^ (e + 1) := Nat.le_self_pow (by omega) 2
  generalize hp : 2 ^ (e + 1) = P at hP
  have hx : 2 ^ (53 + (e + 1)) - 1 = P - 1 + P * (2 ^ 53 - 1) := by
    rw [pow_add, hp]
    have : 1 ≤ 2 ^ 53 * P := by omega
    rw [Nat.mul_sub, mul_one, mul_comm]
    omega
  have hq : (2 ^ (53 + (e + 1)) - 1) / P = 2 ^ 53 - 1 := by
    rw [hx, Nat.add_mul_div_left _ _ (by omega), Nat.div_eq_of_lt (by omega), zero_add]
  have hr : (2 ^ (53 + (e + 1)) - 1) % P = P - 1 := by
    rw [hx, Nat.add_mul_mod_self_left, Nat.mod_eq_of_lt (by omega)]
  simp only [toFloat64, hd, hp, hq, hr]
  rw [if_pos (by omega), pow_add, hp]
  omega

def Near (k w : Nat) : Prop := w + 1 = 2 ^ k ∨ w = 2 ^ k

theorem Near.pos {k w : Nat} (hk : 1 ≤ k) (h : Near k w) : 0 < w := by
  have := Nat.le_self_pow (show k ≠ 0 by omega) 2
  rcases h with h | h <;> omega

theorem near_half {k w : Nat} (hk : 1 ≤ k) (hw : Near k w) :
    toFloat64 w / 2 ≤ w ∧ Near (k - 1) (toFloat64 w / 2) ∧
      Near (k - 1) (w - toFloat64 w / 2) := by
  obtain ⟨j, rfl⟩ : ∃ j, k = j + 1 := ⟨k - 1, by omega⟩
  have hP : 1 ≤ 2 ^ j := Nat.one_le_two_pow
  have h2 : 2 ^ (j + 1) = 2 * 2 ^ j := by rw [pow_succ, mul_comm]
  simp only [Near, Nat.add_sub_cancel] at hw ⊢
  rcases hw with hw | rfl
  · by_cases hs : j + 1 ≤ 53
    · have hlt : w < 2 ^ 53 :=
        lt_of_lt_of_le (by omega) (Nat.pow_le_pow_right (by decide) hs)
      rw [toFloat64_of_lt hlt]
      omega
    · have : w = 2 ^ (j + 1) - 1 := by omega
      rw [this, toFloat64_pred_two_pow (by omega)]
      omega
  · rw [toFloat64_two_pow]
    omega

/-- `xs` tiles `[lo, hi]` from left to right, each interval of width `2^k - 1` or `2^k`. -/
inductive Tiles (k : Nat) : Nat → Nat → List (Nat × Nat) → Prop
  | last {l r : Nat} : l ≤ r → Near k (r - l) → Tiles k l r [(l, r)]
  | cons {l m r : Nat} {xs : List (Nat × Nat)} :
      l ≤ m → Near k (m - l) → Tiles k m r xs → Tiles k l r ((l, m) :: xs)

theorem Tiles.append {k l m r : Nat} {xs ys : List (Nat × Nat)} (h₁ : Tiles k l m xs)
    (h₂ : Tiles k m r ys) : Tiles k l r (xs ++ ys) := by
  induction h₁ with
  | last hle hw => exact .cons hle hw h₂
  | cons hle hw _ ih => exact .cons hle hw (ih h₂)

theorem split_tiles {k l r : Nat} (hk : 1 ≤ k) (hle : l ≤ r) (hw : Near k (r - l)) :
    Tiles (k - 1) l r (split (l, r)) := by
  obtain ⟨hh, h1, h2⟩ := near_half hk hw
  have hm : l + toFloat64 (r - l) / 2 - l = toFloat64 (r - l) / 2 := by omega
  have hr : r - (l + toFloat64 (r - l) / 2) = r - l - toFloat64 (r - l) / 2 := by omega
  show Tiles (k - 1) l r [(l, l + toFloat64 (r - l) / 2), (l + toFloat64 (r - l) / 2, r)]
  exact .cons (by omega) (by rwa [hm]) (.last (by omega) (by rwa [hr]))

theorem Tiles.flatMap_split {k l r : Nat} {xs : List (Nat × Nat)} (hk : 1 ≤ k)
    (h : Tiles k l r xs) : Tiles (k - 1) l r (xs.flatMap split) := by
  induction h with
  | last hle hw => simpa using split_tiles hk hle hw
  | cons hle hw _ ih => simpa using (split_tiles hk hle hw).append ih

theorem Tiles.le {k l r : Nat} {xs : List (Nat × Nat)} (h : Tiles k l r xs) : l ≤ r := by
  induction h with
  | last hle => exact hle
  | cons hle _ _ ih => omega

theorem Tiles.bounds {k l r : Nat} {xs : List (Nat × Nat)} (hk : 1 ≤ k) (h : Tiles k l r xs) :
    ∀ p ∈ xs, l ≤ p.1 ∧ p.1 < p.2 ∧ p.2 ≤ r := by
  induction h with
  | last hle hw =>
    have := hw.pos hk
    simp only [List.mem_singleton, forall_eq]
    omega
  | cons hle hw ht ih =>
    have := hw.pos hk
    have := ht.le
    intro p hp
    rcases List.mem_cons.mp hp with rfl | hp
    · omega
    · have := ih p hp
      omega

theorem Tiles.head {k l r : Nat} {xs : List (Nat × Nat)} (h : Tiles k l r xs) :
    (xs.map Prod.fst).head? = some l := by
  cases h <;> rfl

theorem Tiles.starts_sorted {k l r : Nat} {xs : List (Nat × Nat)} (hk : 1 ≤ k)
    (h : Tiles k l r xs) : (xs.map Prod.fst).Sorted (· < ·) := by
  induction h with
  | last => simp
  | cons hle hw ht ih =>
    have := hw.pos hk
    refine List.sorted_cons.mpr ⟨?_, ih⟩
    intro b hb
    obtain ⟨p, hp, rfl⟩ := List.mem_map.mp hb
    have := (ht.bounds hk p hp).1
    omega

def level : Nat → List (Nat × Nat)
  | 0 => [(minSliceKey, maxSliceKey)]
  | d + 1 => (level d).flatMap split

theorem length_flatMap_split (xs : List (Nat × Nat)) :
    (xs.flatMap split).length = 2 * xs.length := by
  induction xs with
  | nil => rfl
  | cons x xs ih => simp [split, ih]; omega

@[simp] theorem level_length (d : Nat) : (level d).length = 2 ^ d := by
  induction d with
  | zero => rfl
  | succ d ih => rw [level, length_flatMap_split, ih, pow_succ, mul_comm]

theorem level_tiles {d : Nat} (hd : d ≤ 64) :
    Tiles (64 - d) minSliceKey maxSliceKey (level d) := by
  induction d with
  | zero => exact .last (by simp [minSliceKey]) (.inl (by simp [minSliceKey, maxSliceKey]))
  | succ d ih =>
    have h := (ih (by omega)).flatMap_split (by omega)
    rwa [show 64 - d - 1 = 64 - (d + 1) by omega] at h

theorem bisect_add (a b : Nat) (q : List (Nat × Nat)) :
    bisect (a + b) q = bisect b (bisect a q) := by
  induction a generalizing q with
  | zero => simp [bisect]
  | succ a ih => rw [Nat.add_right_comm, bisect, bisect, ih]

theorem bisect_pass (B A : List (Nat × Nat)) :
    bisect B.length (B ++ A) = A ++ B.flatMap split := by
  induction B generalizing A with
  | nil => simp [bisect]
  | cons x B ih => simp [bisect, bisectStep, ih]

theorem bisect_level (d : Nat) : bisect (2 ^ d - 1) (level 0) = level d := by
  induction d with
  | zero => rfl
  | succ d ih =>
    have h : 2 ^ (d + 1) - 1 = (2 ^ d - 1) + (level d).length := by
      rw [level_length, pow_succ]
      have := Nat.one_le_two_pow (n := d)
      omega
    rw [h, bisect_add, ih]
    simpa [level] using bisect_pass (level d) []

theorem level_sorted {d : Nat} (hd : d ≤ 63) : (level d).Sorted (fun a b => a.1 ≤ b.1) := by
  have h := (level_tiles (d := d) (by omega)).starts_sorted (by omega)
  exact (List.pairwise_map.mp h).imp le_of_lt

theorem pow_log2_bounds {n : Nat} (hn : 0 < n) : 2 ^ n.log2 ≤ n ∧ n < 2 * 2 ^ n.log2 := by
  have := Nat.lt_log2_self (n := n)
  exact ⟨Nat.log2_self_le hn.ne', by rwa [pow_succ, mul_comm] at this⟩

theorem eq_two_pow_of_and_pred {x : Nat} (hx : 0 < x) (h : x &&& (x - 1) = 0) :
    x = 2 ^ Nat.log2 x := by
  obtain ⟨hlo, hhi⟩ := pow_log2_bounds hx
  by_contra hne
  have hbit : ∀ y, 2 ^ x.log2 ≤ y → y < 2 * 2 ^ x.log2 → y.testBit x.log2 = true := by
    intro y h1 h2
    have := Nat.testBit_two_pow_add_eq (y - 2 ^ x.log2) x.log2
    rwa [Nat.add_sub_cancel' h1, Nat.testBit_lt_two_pow (x := y - 2 ^ x.log2) (by omega)] at this
  have := congrArg (Nat.testBit · x.log2) h
  simp only [Nat.testBit_and, Nat.zero_testBit, hbit x hlo hhi,
    hbit (x - 1) (by omega) (by omega)] at this
  exact Bool.noConfusion this

theorem nextPowerOfTwo_eq (lg : Log2Ceil) {n : Nat} (h1 : 1 ≤ n) (hn : n ≤ maxSliceLen) :
    nextPowerOfTwo lg n = 2 ^ Nat.clog 2 n := by
  unfold nextPowerOfTwo
  split_ifs with h
  · have hp := eq_two_pow_of_and_pred h1 h
    rw [hp, Nat.clog_pow 2 _ (by decide)]
  · rw [lg.exact n h1 hn]

theorem clog_le_of_le_maxSliceLen {n : Nat} (hn : n ≤ maxSliceLen) : Nat.clog 2 n ≤ 44 :=
  (Nat.le_pow_iff_clog_le (by decide)).mp hn

theorem sortStrings_perm (xs : List String) : (sortStrings xs).Perm xs :=
  List.perm_insertionSort _ _

theorem sortStrings_sorted (xs : List String) : (sortStrings xs).Sorted (· ≤ ·) :=
  List.sorted_insertionSort _ _

theorem sortStrings_of_sorted {xs : List String} (h : xs.Sorted (· ≤ ·)) : sortStrings xs = xs :=
  List.Sorted.insertionSort_eq h

@[simp] theorem length_sortStrings (xs : List String) : (sortStrings xs).length = xs.length :=
  (sortStrings_perm xs).length_eq

@[simp] theorem sortStrings_sortStrings (xs : List String) :
    sortStrings (sortStrings xs) = sortStrings xs :=
  sortStrings_of_sorted (sortStrings_sorted xs)

@[simp] theorem length_assignSlices (c : List String) (rId : Nat) (xs : List (Nat × Nat)) :
    (assignSlices c rId xs).length = xs.length := by
  induction xs generalizing rId <;> simp [assignSlices, *]

theorem assignSlices_starts (c : List String) (rId : Nat) (xs : List (Nat × Nat)) :
    (assignSlices c rId xs).map Slice.start = xs.map Prod.fst := by
  induction xs generalizing rId <;> simp [assignSlices, *]

theorem assignSlices_getElem? {c : List String} (hc : 0 < c.length) {rId : Nat}
    (hr : rId < c.length) (xs : List (Nat × Nat)) (i : Nat) :
    (assignSlices c rId xs)[i]? =
      xs[i]?.map (fun s => ⟨s.1, [c.getD ((rId + i) % c.length) ""]⟩) := by
  induction xs generalizing rId i with
  | nil => rfl
  | cons s xs ih =>
    cases i with
    | zero => simp [assignSlices, Nat.mod_eq_of_lt hr]
    | succ i =>
      simp only [assignSlices, List.getElem?_cons_succ, ih (Nat.mod_lt _ hc)]
      rw [Nat.mod_add_mod, Nat.add_right_comm, Nat.add_assoc]

theorem assignSlices_replicas {c : List String} (hc : 0 < c.length) (xs : List (Nat × Nat))
    {s : Slice} (hs : s ∈ assignSlices c 0 xs) : ∃ x ∈ c, s.replicas = [x] := by
  obtain ⟨i, hi⟩ := List.mem_iff_getElem?.mp hs
  rw [assignSlices_getElem? hc hc] at hi
  obtain ⟨p, -, rfl⟩ := Option.map_eq_some'.mp hi
  exact ⟨_, List.getD_eq_getElem _ _ (Nat.mod_lt _ hc) ▸ List.getElem_mem _, rfl⟩

@[simp] theorem routingAlgo_version (lg : Log2Ceil) (a : Assignment) (c : List String) :
    (routingAlgo lg a c).1.version = a.version + 1 := by
  simp only [routingAlgo]
  split_ifs <;> rfl

@[simp] theorem routingAlgo_candidates (lg : Log2Ceil) (a : Assignment) (c : List String) :
    (routingAlgo lg a c).2 = sortStrings c := by
  simp only [routingAlgo]
  split_ifs <;> rfl

theorem routingAlgo_slices_nil (lg : Log2Ceil) (a : Assignment) :
    (routingAlgo lg a []).1.slices = [] := rfl

theorem routingAlgo_slices_one (lg : Log2Ceil) (a : Assignment) {c : List String}
    (h : c.length = 1) : (routingAlgo lg a c).1.slices = [⟨minSliceKey, sortStrings c⟩] := by
  simp [routingAlgo, h]

theorem routingAlgo_slices_congr (lg : Log2Ceil) (a a' : Assignment) (c : List String) :
    (routingAlgo lg a' (sortStrings c)).1.slices = (routingAlgo lg a c).1.slices := by
  simp only [routingAlgo, sortStrings_sortStrings]
  split_ifs <;> rfl

theorem routingAlgo_slices_round_robin (lg : Log2Ceil) (a : Assignment) {c : List String}
    (h2 : 2 ≤ c.length) :
    ∃ splits, (routingAlgo lg a c).1.slices = assignSlices (sortStrings c) 0 splits := by
  simp only [routingAlgo, length_sortStrings, if_neg (show c.length ≠ 0 by omega),
    if_neg (show c.length ≠ 1 by omega)]
  exact ⟨_, rfl⟩

theorem routingAlgo_slices_of_two_le (lg : Log2Ceil) (a : Assignment) {c : List String}
    (h2 : 2 ≤ c.length) (hn : c.length ≤ maxSliceLen) :
    (routingAlgo lg a c).1.slices =
      assignSlices (sortStrings c) 0 (level (Nat.clog 2 c.length)) := by
  have hd := clog_le_of_le_maxSliceLen hn
  simp only [routingAlgo, length_sortStrings, if_neg (show c.length ≠ 0 by omega),
    if_neg (show c.length ≠ 1 by omega), nextPowerOfTwo_eq lg (by omega) hn]
  rw [show [(minSliceKey, maxSliceKey)] = level 0 from rfl, bisect_level, sortSplits,
    (level_sorted (by omega)).insertionSort_eq]

theorem routingAlgo_slices_getElem? (lg : Log2Ceil) (a : Assignment) {c : List String}
    (h1 : 1 ≤ c.length) {i : Nat} (hi : i < (routingAlgo lg a c).1.slices.length) :
    (routingAlgo lg a c).1.slices[i]?.map Slice.replicas =
      some [(sortStrings c).getD (i % c.length) ""] := by
  by_cases hc : c.length = 1
  · obtain ⟨x, hx⟩ : ∃ x, sortStrings c = [x] :=
      List.length_eq_one.mp ((length_sortStrings c).trans hc)
    rw [routingAlgo_slices_one lg a hc] at hi ⊢
    obtain rfl : i = 0 := by simpa using hi
    simp [hx]
  · obtain ⟨splits, hs⟩ := routingAlgo_slices_round_robin lg a (c := c) (by omega)
    have hpos : 0 < (sortStrings c).length := by simp only [length_sortStrings]; omega
    rw [hs] at hi ⊢
    rw [assignSlices_getElem? hpos hpos, zero_add, length_sortStrings,
      List.getElem?_eq_getElem (by simpa using hi)]
    rfl

theorem routingAlgo_slices_length (lg : Log2Ceil) (a : Assignment) {c : List String}
    (h1 : 1 ≤ c.length) (hn : c.length ≤ maxSliceLen) :
    (routingAlgo lg a c).1.slices.length =
      if c.length = 1 then 1 else nextPowerOfTwo lg c.length := by
  by_cases hc : c.length = 1
  · simp [routingAlgo_slices_one lg a hc, hc]
  · rw [routingAlgo_slices_of_two_le lg a (by omega) hn, if_neg hc, nextPowerOfTwo_eq lg h1 hn]
    simp

/-- Slice starts that begin at `0`, strictly increase and stay below `2^64`: the ranges
`[start i, start (i+1))`, the last one ending at `2^64`, cover the key space once. -/
def KeySpacePartition (starts : List Nat) : Prop :=
  starts.head? = some minSliceKey ∧ starts.Sorted (· < ·) ∧ ∀ s ∈ starts, s < 2 ^ 64

theorem level_partition {d : Nat} (hd : d ≤ 63) :
    KeySpacePartition ((level d).map Prod.fst) := by
  have ht := level_tiles (d := d) (by omega)
  refine ⟨ht.head, ht.starts_sorted (by omega), ?_⟩
  intro s hs
  obtain ⟨p, hp, rfl⟩ := List.mem_map.mp hs
  have := ht.bounds (by omega) p hp
  simp only [maxSliceKey] at this
  omega

theorem routingAlgo_slices_partition (lg : Log2Ceil) (a : Assignment) {c : List String}
    (h1 : 1 ≤ c.length) (hn : c.length ≤ maxSliceLen) :
    KeySpacePartition ((routingAlgo lg a c).1.slices.map Slice.start) := by
  by_cases hc : c.length = 1
  · rw [routingAlgo_slices_one lg a hc]
    exact ⟨rfl, List.sorted_singleton _, by simp [minSliceKey]⟩
  · have hd := clog_le_of_le_maxSliceLen hn
    rw [routingAlgo_slices_of_two_le lg a (by omega) hn, assignSlices_starts]
    exact level_partition (by omega)

theorem routingAlgo_slices_owner (lg : Log2Ceil) (a : Assignment) {c : List String}
    {s : Slice} (hs : s ∈ (routingAlgo lg a c).1.slices) : ∃ x ∈ c, s.replicas = [x] := by
  simp only [routingAlgo] at hs
  split_ifs at hs with h0 h1
  · cases hs
  · obtain ⟨x, hx⟩ := List.length_eq_one.mp h1
    exact ⟨x, (sortStrings_perm c).subset (hx ▸ List.mem_singleton_self x),
      by rw [List.mem_singleton.mp hs, hx]⟩
  · obtain ⟨x, hx, he⟩ := assignSlices_replicas (by omega) _ hs
    exact ⟨x, (sortStrings_perm c).subset hx, he⟩

theorem routingAlgo_slices_cover (lg : Log2Ceil) (a : Assignment) {c : List String}
    (hn : c.length ≤ maxSliceLen) {x : String} (hx : x ∈ c) :
    ∃ s ∈ (routingAlgo lg a c).1.slices, s.replicas = [x] := by
  have h1 : 1 ≤ c.length := List.length_pos_of_mem hx
  obtain ⟨j, hj, hjx⟩ := List.getElem_of_mem ((sortStrings_perm c).symm.subset hx)
  have hjc : j < c.length := by simpa using hj
  have hlen : c.length ≤ (routingAlgo lg a c).1.slices.length := by
    rw [routingAlgo_slices_length lg a h1 hn]
    split_ifs with hc
    · omega
    · rw [nextPowerOfTwo_eq lg h1 hn]; exact Nat.le_pow_clog (by decide) _
  have hjs : j < (routingAlgo lg a c).1.slices.length := by omega
  have ho := routingAlgo_slices_getElem? lg a h1 hjs
  rw [List.getElem?_eq_getElem hjs, Option.map_some', Option.some_inj, Nat.mod_eq_of_lt hjc,
    List.getD_eq_getElem _ _ hj, hjx] at ho
  exact ⟨_, List.getElem_mem hjs, ho⟩

/-- For any one to `maxSliceLen` candidates, in any order and with repeats, `routingAlgo`
bumps the version and splits the whole key space into slices with strictly increasing starts
from `0`, each owned by one candidate: one slice for one candidate, `nextPowerOfTwo n`
slices for `n ≥ 2`. -/
theorem routingAlgo_partitions_key_space (lg : Log2Ceil) (a : Assignment) (c : List String)
    (h1 : 1 ≤ c.length) (hn : c.length ≤ maxSliceLen) :
    (routingAlgo lg a c).1.version = a.version + 1 ∧
      KeySpacePartition ((routingAlgo lg a c).1.slices.map Slice.start) ∧
      (∀ s ∈ (routingAlgo lg a c).1.slices, ∃ x ∈ c, s.replicas = [x]) ∧
      (routingAlgo lg a c).1.slices.length =
        if c.length = 1 then 1 else nextPowerOfTwo lg c.length := by
  refine ⟨routingAlgo_version lg a c, routingAlgo_slices_partition lg a h1 hn,
    fun s hs => routingAlgo_slices_owner lg a hs, routingAlgo_slices_length lg a h1 hn⟩

theorem routingAlgo_partitions_two_candidates :
    let a : Assignment := ⟨"app", "dep", "c", 0, []⟩
    (routingAlgo .exactCeil a ["b", "a"]).1.version = a.version + 1 ∧
      KeySpacePartition ((routingAlgo .exactCeil a ["b", "a"]).1.slices.map Slice.start) ∧
      (∀ s ∈ (routingAlgo .exactCeil a ["b", "a"]).1.slices, ∃ x ∈ ["b", "a"], s.replicas = [x]) ∧
      (routingAlgo .exactCeil a ["b", "a"]).1.slices.length =
        if ["b", "a"].length = 1 then 1 else nextPowerOfTwo .exactCeil ["b", "a"].length :=
  routingAlgo_partitions_key_space _ _ ["b", "a"] (by decide) (by decide)

end DeploymentManager.Routing
