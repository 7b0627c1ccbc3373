import TaoDag.Consensus.Work

namespace TaoDag.Consensus

/-- The seconds between consecutive headers. -/
def solvetimes (window : List TimedTarget) : List Int :=
  List.zipWith (fun prev cur => cur.timestamp - prev.timestamp) window window.tail

/-- `Σ j * solvetime_j` from the weight `i` on, each solve time within 1 and `maxSolvetime`. -/
def weightedSum (maxSolvetime : Int) : Nat → List Int → Int
  | _, [] => 0
  | i, s :: ss => i * max 1 (min s maxSolvetime) + weightedSum maxSolvetime (i + 1) ss

/-- The weights `1 + … + n`. -/
def triangle (n : Nat) : Nat := n * (n + 1) / 2

/-- The last `n + 1` headers: `n` solve times. -/
def recentWindow (recent : List TimedTarget) (n : Nat) : List TimedTarget :=
  recent.drop (recent.length - (n + 1))

/-- The works of the blocks of a window, without the one that it starts from. -/
def worksOf (window : List TimedTarget) : List Nat :=
  window.tail.map fun h => workForTarget h.target

theorem solvetimes_cons (a b : TimedTarget) (l : List TimedTarget) :
    solvetimes (a :: b :: l) = (b.timestamp - a.timestamp) :: solvetimes (b :: l) := rfl

theorem solvetimes_length (window : List TimedTarget) :
    (solvetimes window).length = window.length - 1 := by
  simp [solvetimes]

section Weights

variable {maxSolvetime : Int} {l : List Int} {i : Nat}

theorem weightedSum_nonneg (i : Nat) (l : List Int) : 0 ≤ weightedSum maxSolvetime i l := by
  induction l generalizing i with
  | nil => simp [weightedSum]
  | cons s ss ih =>
    have h1 : (0 : Int) ≤ i * max 1 (min s maxSolvetime) :=
      mul_nonneg (Int.natCast_nonneg i) (by omega)
    have h2 := ih (i + 1)
    simp only [weightedSum]
    omega

/-- Every solve time counts as at least a second. -/
theorem weights_le (i : Nat) (l : List Int) :
    ((List.range' i l.length).sum : Int) ≤ weightedSum maxSolvetime i l := by
  induction l generalizing i with
  | nil => simp [weightedSum]
  | cons s ss ih =>
    have h1 : (i : Int) * 1 ≤ i * max 1 (min s maxSolvetime) :=
      mul_le_mul_of_nonneg_left (by omega) (Int.natCast_nonneg i)
    have h2 := ih (i + 1)
    simp only [weightedSum, List.length_cons, List.range'_succ, List.sum_cons, Nat.cast_add]
    omega

theorem weightedSum_le (hmax : 1 ≤ maxSolvetime) (i : Nat) (l : List Int) :
    weightedSum maxSolvetime i l ≤ maxSolvetime * ((List.range' i l.length).sum : Nat) := by
  induction l generalizing i with
  | nil => simp [weightedSum]
  | cons s ss ih =>
    have h1 : (i : Int) * max 1 (min s maxSolvetime) ≤ i * maxSolvetime :=
      mul_le_mul_of_nonneg_left (by omega) (Int.natCast_nonneg i)
    have h2 := ih (i + 1)
    simp only [weightedSum, List.length_cons, List.range'_succ, List.sum_cons, Nat.cast_add,
      mul_add]
    linarith [mul_comm (i : Int) maxSolvetime]

theorem weightedSum_mono {l l' : List Int} (h : List.Forall₂ (· ≤ ·) l l') (i : Nat) :
    weightedSum maxSolvetime i l ≤ weightedSum maxSolvetime i l' := by
  induction h generalizing i with
  | nil => exact le_rfl
  | cons hs _ ih =>
    have h1 := mul_le_mul_of_nonneg_left
      (max_le_max (le_refl (1 : Int)) (min_le_min hs (le_refl maxSolvetime)))
      (Int.natCast_nonneg i)
    have h2 := ih (i + 1)
    simp only [weightedSum]
    omega

theorem weightedSum_const {T : Int} (h1 : 1 ≤ T) (h2 : T ≤ maxSolvetime) (i : Nat)
    (h : ∀ s ∈ l, s = T) :
    weightedSum maxSolvetime i l = T * ((List.range' i l.length).sum : Nat) := by
  induction l generalizing i with
  | nil => simp [weightedSum]
  | cons s ss ih =>
    have hs : max 1 (min s maxSolvetime) = T := by
      have := h s List.mem_cons_self
      omega
    have htail := ih (i + 1) fun x hx => h x (List.mem_cons_of_mem _ hx)
    simp only [weightedSum, hs, htail, List.length_cons, List.range'_succ, List.sum_cons,
      Nat.cast_add]
    ring

theorem two_mul_triangle (n : Nat) : 2 * triangle n = n * (n + 1) :=
  Nat.mul_div_cancel' (Nat.even_mul_succ_self n).two_dvd

theorem sum_weights (n : Nat) : (List.range' 1 n).sum = triangle n := by
  rw [List.sum_range', triangle, Nat.mul_one, Nat.mul_one]
  have : n * (n + 1) = n * (n - 1) + n * 2 := by
    cases n with
    | zero => rfl
    | succ n => simp only [Nat.succ_sub_one]; ring
  omega

end Weights

theorem i64_ok {x : Int} (h1 : i64Min ≤ x) (h2 : x ≤ i64Max) : i64 x = .ok x := if_pos ⟨h1, h2⟩

theorem u256_ok {x : Nat} (h : x ≤ u256Max) : u256 x = .ok x := if_pos h

/-- What the loop sums up, as long as it stays within its types. -/
theorem lwmaLoop_eq {maxSolvetime : Int} (hmax : 1 ≤ maxSolvetime) {i : Nat} {prev : TimedTarget}
    {rest : List TimedTarget} {weightedTime : Int} {difficultySum : Nat}
    (h0 : 0 ≤ weightedTime) (hfit : ∀ s ∈ solvetimes (prev :: rest), i64Min ≤ s ∧ s ≤ i64Max)
    (htime : weightedTime + weightedSum maxSolvetime i (solvetimes (prev :: rest)) ≤ i64Max)
    (hwork : difficultySum + (worksOf (prev :: rest)).sum ≤ u256Max) :
    lwmaLoop maxSolvetime i prev rest weightedTime difficultySum =
      .ok (weightedTime + weightedSum maxSolvetime i (solvetimes (prev :: rest)),
        difficultySum + (worksOf (prev :: rest)).sum) := by
  induction rest generalizing i prev weightedTime difficultySum with
  | nil => simp [lwmaLoop, solvetimes, weightedSum, worksOf]
  | cons cur rest ih =>
    rw [solvetimes_cons] at hfit htime ⊢
    simp only [worksOf, List.tail_cons, List.map_cons, List.sum_cons] at hwork
    simp only [weightedSum] at htime
    have hs := hfit _ List.mem_cons_self
    have hlater : 0 ≤ weightedSum maxSolvetime (i + 1) (solvetimes (cur :: rest)) :=
      weightedSum_nonneg _ _
    have hterm : (0 : Int) ≤
        i * max 1 (min (cur.timestamp - prev.timestamp) maxSolvetime) :=
      mul_nonneg (Int.natCast_nonneg i) (by omega)
    have hmin : i64Min ≤ 0 := by decide
    have hstep : lwmaLoop maxSolvetime i prev (cur :: rest) weightedTime difficultySum =
        lwmaLoop maxSolvetime (i + 1) cur rest
          (weightedTime + i * max 1 (min (cur.timestamp - prev.timestamp) maxSolvetime))
          (difficultySum + workForTarget cur.target) := by
      rw [lwmaLoop, assert, if_pos hmax, i64_ok hs.1 hs.2]
      change (i64 _ >>= fun _ => _) = _
      rw [i64_ok (by omega) (by omega)]
      change (i64 _ >>= fun _ => _) = _
      rw [i64_ok (by omega) (by omega)]
      change (u256 _ >>= fun _ => _) = _
      rw [u256_ok (by omega)]
      rfl
    rw [hstep, ih (by omega) (fun s hs => hfit s (List.mem_cons_of_mem _ hs)) (by omega)
      (by simp only [worksOf, List.tail_cons]; omega)]
    simp only [weightedSum, worksOf, List.tail_cons, List.map_cons, List.sum_cons, add_assoc]

/-- `Σ work / N`, rounded down. -/
def averageWork (params : DifficultyParams) (window : List TimedTarget) : Nat :=
  (worksOf window).sum / params.window

/-- `k`, the weighted sum of a window that is on time. -/
def onTime (params : DifficultyParams) : Nat := params.targetBlockTimeSecs * triangle params.window

def weightedTime (params : DifficultyParams) (window : List TimedTarget) : Int :=
  weightedSum (6 * params.targetBlockTimeSecs) 1 (solvetimes window)

/-- The average work, by how much faster than on time the window was. -/
def nextDifficulty (params : DifficultyParams) (window : List TimedTarget) : Nat :=
  averageWork params window * onTime params / (weightedTime params window).toNat

/-- No machine type of the computation is too small for a window. -/
structure Fits (params : DifficultyParams) (window : List TimedTarget) : Prop where
  maxSolvetime : 6 * (params.targetBlockTimeSecs : Int) ≤ i64Max
  solvetime : ∀ s ∈ solvetimes window, i64Min ≤ s ∧ s ≤ i64Max
  weighted : weightedTime params window ≤ i64Max
  works : (worksOf window).sum ≤ u256Max
  weights : params.window * (params.window + 1) ≤ u64Max
  factor : onTime params ≤ u64Max
  scaled : averageWork params window * onTime params ≤ u256Max

section NextTarget

variable {params : DifficultyParams} {recent : List TimedTarget} {genesisTarget : Target}

theorem recentWindow_length (h : params.window < recent.length) :
    (recentWindow recent params.window).length = params.window + 1 := by
  rw [recentWindow, List.length_drop]
  omega

theorem solvetimes_recentWindow_length (h : params.window < recent.length) :
    (solvetimes (recentWindow recent params.window)).length = params.window := by
  rw [solvetimes_length, recentWindow_length h, Nat.add_sub_cancel]

theorem triangle_pos {n : Nat} (h : 1 ≤ n) : 0 < triangle n := by
  have : 1 * 2 ≤ n * (n + 1) := Nat.mul_le_mul h (by omega)
  exact Nat.div_pos this (by decide)

theorem triangle_le_weightedTime (h : params.window < recent.length) :
    (triangle params.window : Int) ≤ weightedTime params (recentWindow recent params.window) := by
  have hle : ((List.range' 1 _).sum : Int) ≤ weightedSum (6 * params.targetBlockTimeSecs) 1
      (solvetimes (recentWindow recent params.window)) := weights_le 1 _
  rwa [solvetimes_recentWindow_length h, sum_weights] at hle

theorem weightedTime_le (hT : 1 ≤ params.targetBlockTimeSecs) (h : params.window < recent.length) :
    weightedTime params (recentWindow recent params.window) ≤ 6 * (onTime params : Nat) := by
  have hle := weightedSum_le (by omega : 1 ≤ 6 * (params.targetBlockTimeSecs : Int)) 1
    (solvetimes (recentWindow recent params.window))
  rw [solvetimes_recentWindow_length h, sum_weights] at hle
  rw [weightedTime, onTime, Nat.cast_mul, ← mul_assoc]
  exact hle

/-- The rule reads no more than the last `N + 1` headers. -/
theorem nextTarget_recentWindow (h : params.window < recent.length) (other : Target) :
    nextTarget (recentWindow recent params.window) params other =
      nextTarget recent params genesisTarget := by
  have hlen := recentWindow_length h
  have hdrop : (recentWindow recent params.window).drop
      ((recentWindow recent params.window).length - (params.window + 1)) =
        recentWindow recent params.window := by
    rw [hlen, Nat.sub_self, List.drop_zero]
  rw [nextTarget, nextTarget, if_neg (by omega), if_neg (by omega), hdrop]
  rfl

theorem asI64_eq {x : Nat} (h : x < 2^63) : asI64 x = x := by
  rw [asI64, BitVec.toInt_eq_toNat_of_lt] <;>
    rw [BitVec.toNat_ofNat, Nat.mod_eq_of_lt (by omega)]
  omega

theorem nextTarget_eq (hT : 1 ≤ params.targetBlockTimeSecs) (hN : 2 ≤ params.window) (h : params.window < recent.length)
    (fits : Fits params (recentWindow recent params.window)) :
    nextTarget recent params genesisTarget =
      .ok (difficultyToTarget (nextDifficulty params (recentWindow recent params.window))) := by
  have hT63 : params.targetBlockTimeSecs < 2^63 := by
    have := fits.maxSolvetime
    simp only [i64Max] at this
    omega
  have hmin : i64Min ≤ 6 * (params.targetBlockTimeSecs : Int) := by
    simp only [i64Min]
    omega
  obtain ⟨prev, rest, hw⟩ : ∃ prev rest, recentWindow recent params.window = prev :: rest :=
    List.exists_cons_of_length_pos (by rw [recentWindow_length h]; omega)
  have hloop := lwmaLoop_eq (by omega : 1 ≤ 6 * (params.targetBlockTimeSecs : Int)) (le_refl 0)
    (hw ▸ fits.solvetime) (by rw [Int.zero_add, ← hw]; exact fits.weighted)
    (by rw [Nat.zero_add, ← hw]; exact fits.works)
  have hn1 : params.window + 1 ≤ u64Max := by
    by_cases h0 : params.window = 0
    · rw [h0]
      decide
    · exact (Nat.le_mul_of_pos_left _ (Nat.pos_of_ne_zero h0)).trans fits.weights
  have hdrop : recent.drop (recent.length - (params.window + 1)) = prev :: rest := hw
  rw [nextTarget, if_neg (by omega), asI64_eq hT63, i64_ok hmin fits.maxSolvetime]
  simp only [hdrop]
  change (lwmaLoop _ 1 prev rest 0 0 >>= fun _ => _) = _
  rw [hloop, ← hw]
  change (addU64 _ _ >>= fun _ => _) = _
  rw [addU64, addUpTo, if_pos hn1]
  change (mulU64 _ _ >>= fun _ => _) = _
  rw [mulU64, if_pos fits.weights]
  change (mulU64 _ (triangle params.window) >>= fun _ => _) = _
  rw [mulU64, if_pos (show params.targetBlockTimeSecs * triangle params.window ≤ u64Max from
    fits.factor)]
  have hpos : max (0 + weightedTime params (recentWindow recent params.window)) 1 =
      weightedTime params (recentWindow recent params.window) := by
    have h1 := triangle_le_weightedTime h
    have h2 := triangle_pos (by omega : 1 ≤ params.window)
    omega
  have hscaled : min ((0 + (worksOf (recentWindow recent params.window)).sum) / params.window *
      onTime params) u256Max = averageWork params (recentWindow recent params.window) *
        onTime params := by
    rw [Nat.zero_add]
    exact min_eq_left fits.scaled
  change Except.ok (difficultyToTarget
    (min ((0 + (worksOf (recentWindow recent params.window)).sum) / params.window *
      onTime params) u256Max /
        (max (0 + weightedTime params (recentWindow recent params.window)) 1).toNat)) = _
  rw [hscaled, hpos, nextDifficulty]

/-- The parameters and windows for which the types suffice. -/
theorem Fits.of_bounds (hT : 1 ≤ params.targetBlockTimeSecs) (hN : 2 ≤ params.window)
    (h : params.window < recent.length)
    (hk : 6 * params.targetBlockTimeSecs * params.window * (params.window + 1) / 2 < 2^63)
    (hsolve : ∀ s ∈ solvetimes (recentWindow recent params.window), i64Min ≤ s ∧ s ≤ i64Max)
    (hworks : (worksOf (recentWindow recent params.window)).sum < 2^256)
    (hscaled : onTime params * averageWork params (recentWindow recent params.window) < 2^256) :
    Fits params (recentWindow recent params.window) := by
  have htri := two_mul_triangle params.window
  have hpos := triangle_pos (by omega : 1 ≤ params.window)
  have hk' : 6 * params.targetBlockTimeSecs * params.window * (params.window + 1) / 2 =
      6 * onTime params := by
    have : 6 * params.targetBlockTimeSecs * params.window * (params.window + 1) =
        2 * (6 * onTime params) := by
      rw [onTime, Nat.mul_assoc, ← htri]
      ring
    rw [this, Nat.mul_div_cancel_left _ (by decide)]
  rw [hk'] at hk
  have h1 : params.targetBlockTimeSecs ≤ onTime params := Nat.le_mul_of_pos_right _ hpos
  have h2 : triangle params.window ≤ onTime params := Nat.le_mul_of_pos_left _ hT
  have h3 := weightedTime_le hT h
  refine ⟨?_, hsolve, ?_, ?_, ?_, ?_, ?_⟩
  · simp only [i64Max]
    omega
  · simp only [i64Max]
    omega
  · simp only [u256Max]
    omega
  · simp only [u64Max]
    omega
  · simp only [u64Max]
    omega
  · rw [Nat.mul_comm, u256Max]
    omega

theorem worksOf_recentWindow_congr {slower : List TimedTarget} (n : Nat)
    (ht : slower.map (·.target) = recent.map (·.target)) :
    worksOf (recentWindow slower n) = worksOf (recentWindow recent n) := by
  have hlen : slower.length = recent.length := by
    rw [← List.length_map (·.target), ht, List.length_map]
  have htargets : (recentWindow slower n).map (·.target) = (recentWindow recent n).map (·.target) := by
    rw [recentWindow, recentWindow, List.map_drop, List.map_drop, ht, hlen]
  have hworks (window : List TimedTarget) :
      worksOf window = ((window.map (·.target)).tail).map workForTarget := by
    rw [worksOf, ← List.map_tail, List.map_map]
    rfl
  rw [hworks, hworks, htargets]

theorem averageWork_div_le (hT : 1 ≤ params.targetBlockTimeSecs) (hN : 2 ≤ params.window)
    (h : params.window < recent.length) :
    averageWork params (recentWindow recent params.window) / 6 ≤
      nextDifficulty params (recentWindow recent params.window) := by
  have h1 := triangle_le_weightedTime h
  have h2 := triangle_pos (by omega : 1 ≤ params.window)
  have h3 := weightedTime_le hT h
  rw [nextDifficulty, Nat.le_div_iff_mul_le (by omega)]
  calc averageWork params (recentWindow recent params.window) / 6 *
        (weightedTime params (recentWindow recent params.window)).toNat
      ≤ averageWork params (recentWindow recent params.window) / 6 * (6 * onTime params) :=
        Nat.mul_le_mul_left _ (by omega)
    _ = averageWork params (recentWindow recent params.window) / 6 * 6 * onTime params :=
        (Nat.mul_assoc _ _ _).symm
    _ ≤ averageWork params (recentWindow recent params.window) * onTime params :=
        Nat.mul_le_mul_right _ (Nat.div_mul_le_self _ _)

theorem nextDifficulty_le (hN : 2 ≤ params.window) (h : params.window < recent.length) :
    nextDifficulty params (recentWindow recent params.window) ≤
      params.targetBlockTimeSecs * averageWork params (recentWindow recent params.window) := by
  have h1 := triangle_le_weightedTime h
  have h2 := triangle_pos (by omega : 1 ≤ params.window)
  calc nextDifficulty params (recentWindow recent params.window)
      ≤ averageWork params (recentWindow recent params.window) * onTime params /
          triangle params.window := Nat.div_le_div_left (by omega) h2
    _ = params.targetBlockTimeSecs * averageWork params (recentWindow recent params.window) := by
        rw [onTime, ← Nat.mul_assoc, Nat.mul_div_cancel _ h2, Nat.mul_comm]

/-- The same works, over a longer time. -/
theorem nextDifficulty_anti {slower : List TimedTarget} (hN : 2 ≤ params.window)
    (h : params.window < recent.length) (ht : slower.map (·.target) = recent.map (·.target))
    (hs : List.Forall₂ (· ≤ ·) (solvetimes (recentWindow recent params.window))
      (solvetimes (recentWindow slower params.window))) :
    nextDifficulty params (recentWindow slower params.window) ≤
      nextDifficulty params (recentWindow recent params.window) := by
  have h1 := triangle_le_weightedTime h
  have h2 := triangle_pos (by omega : 1 ≤ params.window)
  have h3 : weightedTime params (recentWindow recent params.window) ≤
      weightedTime params (recentWindow slower params.window) := weightedSum_mono hs 1
  rw [nextDifficulty, nextDifficulty, averageWork, averageWork, worksOf_recentWindow_congr _ ht]
  exact Nat.div_le_div_left (by omega) (by omega)

end NextTarget

/-- Within its types the rule keeps the difficulty between a sixth of the average and `T` times
it, and slower blocks never give a harder target. -/
theorem nextTarget_bounded (params : DifficultyParams) (recent : List TimedTarget)
    (genesisTarget : Target) (hT : 1 ≤ params.targetBlockTimeSecs) (hN : 2 ≤ params.window)
    (hk : 6 * params.targetBlockTimeSecs * params.window * (params.window + 1) / 2 < 2^63)
    (hlen : params.window < recent.length)
    (hsolve : ∀ s ∈ solvetimes (recentWindow recent params.window), i64Min ≤ s ∧ s ≤ i64Max)
    (hworks : (worksOf (recentWindow recent params.window)).sum < 2^256)
    (hscaled : onTime params * averageWork params (recentWindow recent params.window) < 2^256) :
    let window := recentWindow recent params.window
    let d := nextDifficulty params window
    nextTarget recent params genesisTarget = .ok (difficultyToTarget d) ∧
      (∀ other, nextTarget window params other = .ok (difficultyToTarget d)) ∧
      averageWork params window / 6 ≤ d ∧
      d ≤ params.targetBlockTimeSecs * averageWork params window ∧
      ∀ slower : List TimedTarget, slower.map (·.target) = recent.map (·.target) →
        (∀ s ∈ solvetimes (recentWindow slower params.window), i64Min ≤ s ∧ s ≤ i64Max) →
        List.Forall₂ (· ≤ ·) (solvetimes window) (solvetimes (recentWindow slower params.window)) →
        ∃ target, nextTarget slower params genesisTarget = .ok target ∧
          (difficultyToTarget d).toNat ≤ target.toNat := by
  have fits := Fits.of_bounds hT hN hlen hk hsolve hworks hscaled
  have heq := @nextTarget_eq _ _ genesisTarget hT hN hlen fits
  refine ⟨heq, fun other => ?_, averageWork_div_le hT hN hlen, nextDifficulty_le hN hlen, ?_⟩
  · rw [nextTarget_recentWindow hlen other, heq]
  · intro slower ht hsolve' hs
    have hworks' := worksOf_recentWindow_congr params.window ht
    have hlen' : params.window < slower.length := by
      rwa [← List.length_map (·.target), ht, List.length_map]
    have fits' := Fits.of_bounds hT hN hlen' hk hsolve' (by rwa [hworks'])
      (by rwa [averageWork, hworks'])
    exact ⟨_, nextTarget_eq hT hN hlen' fits',
      difficultyToTarget_anti (nextDifficulty_anti hN hlen ht hs)⟩

/-- The second of two blocks is late: the work falls from 4 to 2. -/
theorem nextTarget_bounded_late :
    nextTarget [⟨0, difficultyToTarget 4⟩, ⟨1, difficultyToTarget 4⟩, ⟨3, difficultyToTarget 4⟩]
      ⟨1, 2⟩ 7 = .ok (difficultyToTarget 2) :=
  (nextTarget_bounded ⟨1, 2⟩
    [⟨0, difficultyToTarget 4⟩, ⟨1, difficultyToTarget 4⟩, ⟨3, difficultyToTarget 4⟩] 7
    (by decide) (by decide) (by decide) (by decide) (by decide) (by decide +kernel)
    (by decide +kernel)).1

section OnTime

variable {params : DifficultyParams} {recent : List TimedTarget} {target : Target}

theorem worksOf_replicate (h : params.window < recent.length)
    (ht : ∀ header ∈ recentWindow recent params.window, header.target = target) :
    worksOf (recentWindow recent params.window) =
      List.replicate params.window (workForTarget target) := by
  rw [List.eq_replicate_iff]
  constructor
  · rw [worksOf, List.length_map, List.length_tail, recentWindow_length h, Nat.add_sub_cancel]
  · intro w hw
    obtain ⟨header, hh, rfl⟩ := List.mem_map.mp hw
    rw [ht header (List.mem_of_mem_tail hh)]

theorem weightedTime_onTime (hT : 1 ≤ params.targetBlockTimeSecs) (h : params.window < recent.length)
    (hs : ∀ s ∈ solvetimes (recentWindow recent params.window), s = params.targetBlockTimeSecs) :
    weightedTime params (recentWindow recent params.window) = (onTime params : Nat) := by
  rw [weightedTime, weightedSum_const (by omega) (by omega) 1 hs, solvetimes_recentWindow_length h,
    sum_weights, onTime, Nat.cast_mul]

/-- Blocks that arrive on time at one target keep its work. -/
theorem nextTarget_onTime (genesisTarget : Target) (hT : 1 ≤ params.targetBlockTimeSecs)
    (hN : 2 ≤ params.window) (h : params.window < recent.length)
    (ht : ∀ header ∈ recentWindow recent params.window, header.target = target)
    (hs : ∀ s ∈ solvetimes (recentWindow recent params.window), s = params.targetBlockTimeSecs)
    (hmax : 6 * params.targetBlockTimeSecs < 2^63) (hfactor : onTime params < 2^63)
    (hscaled : onTime params * workForTarget target < 2^256) :
    nextTarget recent params genesisTarget =
      .ok (difficultyToTarget (workForTarget target)) := by
  have hpos : 0 < onTime params := Nat.mul_pos hT (triangle_pos (by omega))
  have htri : triangle params.window ≤ onTime params := Nat.le_mul_of_pos_left _ hT
  have h2tri := two_mul_triangle params.window
  have hsum : (worksOf (recentWindow recent params.window)).sum =
      params.window * workForTarget target := by
    rw [worksOf_replicate h ht, List.sum_replicate, smul_eq_mul]
  have haverage : averageWork params (recentWindow recent params.window) = workForTarget target := by
    rw [averageWork, hsum, Nat.mul_div_cancel_left _ (by omega)]
  have hwindow : params.window ≤ onTime params := by
    have : 2 * params.window ≤ params.window * (params.window + 1) := by nlinarith
    omega
  have hweighted := weightedTime_onTime hT h hs
  have fits : Fits params (recentWindow recent params.window) := by
    refine ⟨?_, fun s hmem => ?_, ?_, ?_, ?_, ?_, ?_⟩
    · simp only [i64Max]
      omega
    · rw [hs s hmem, i64Min, i64Max]
      omega
    · rw [hweighted, i64Max]
      omega
    · rw [hsum]
      have := (Nat.mul_le_mul_right (workForTarget target) hwindow).trans_lt hscaled
      simp only [u256Max]
      omega
    · simp only [u64Max]
      omega
    · simp only [u64Max]
      omega
    · rw [haverage, Nat.mul_comm, u256Max]
      omega
  rw [nextTarget_eq hT hN h fits, nextDifficulty, haverage, hweighted, Int.toNat_natCast,
    Nat.mul_div_cancel _ hpos]

end OnTime

/-- Targets and works convert into each other up to one unit, and on-time blocks keep the work of
their target up to that unit, where the solve times fit the integers of the rule. -/
theorem conversions :
    (∀ s t : Target, s.toNat ≤ t.toNat → workForTarget t ≤ workForTarget s) ∧
    (∀ t : Target, 0 < t.toNat → workForTarget t = 2^256 / (t.toNat + 1)) ∧
    (∀ t : Target, workForTarget t ≤ u256Max) ∧
    (∀ d, 1 ≤ d → d ≤ 2^128 →
      workForTarget (difficultyToTarget d) = if d ∣ 2^256 then d else d - 1) ∧
    ∀ (params : DifficultyParams) (recent : List TimedTarget) (genesisTarget target : Target),
      1 ≤ params.targetBlockTimeSecs → 2 ≤ params.window → params.window < recent.length →
      (∀ header ∈ recentWindow recent params.window, header.target = target) →
      (∀ s ∈ solvetimes (recentWindow recent params.window), s = params.targetBlockTimeSecs) →
      workForTarget target ≤ 2^128 → onTime params * workForTarget target < 2^256 →
      6 * params.targetBlockTimeSecs < 2^63 → onTime params < 2^63 →
      ∃ next, nextTarget recent params genesisTarget = .ok next ∧
        (workForTarget next = workForTarget target ∨
          workForTarget next = workForTarget target - 1) := by
  refine ⟨fun s t => workForTarget_anti, fun t => workForTarget_eq, workForTarget_le,
    fun d => workForTarget_difficultyToTarget, ?_⟩
  intro params recent genesisTarget target hT hN h ht hs hw hscaled hmax hfactor
  refine ⟨_, nextTarget_onTime genesisTarget hT hN h ht hs hmax hfactor hscaled, ?_⟩
  have hpos := workForTarget_pos target
  rw [workForTarget_difficultyToTarget hpos hw]
  by_cases hdvd : workForTarget target ∣ 2^256
  · exact Or.inl (if_pos hdvd)
  · exact Or.inr (if_neg hdvd)

theorem conversions_onTime :
    ∃ next, nextTarget [⟨0, difficultyToTarget 4⟩, ⟨1, difficultyToTarget 4⟩,
        ⟨2, difficultyToTarget 4⟩] ⟨1, 2⟩ 7 = .ok next ∧
      (workForTarget next = workForTarget (difficultyToTarget 4) ∨
        workForTarget next = workForTarget (difficultyToTarget 4) - 1) :=
  conversions.2.2.2.2 ⟨1, 2⟩
    [⟨0, difficultyToTarget 4⟩, ⟨1, difficultyToTarget 4⟩, ⟨2, difficultyToTarget 4⟩] 7
    (difficultyToTarget 4) (by decide) (by decide) (by decide) (by decide +kernel)
    (by decide +kernel) (by decide +kernel) (by decide +kernel) (by decide) (by decide)

/-- Blocks every `2^62` seconds are on time, and six times that is too much for an `i64`. -/
theorem onTime_overflows :
    solvetimes (recentWindow [⟨-2^62, .allOnes 256⟩, ⟨0, .allOnes 256⟩, ⟨2^62, .allOnes 256⟩] 2) =
        [2^62, 2^62] ∧
      onTime ⟨2^62, 2⟩ * workForTarget (.allOnes 256) < 2^256 ∧
      ¬∃ next, nextTarget [⟨-2^62, .allOnes 256⟩, ⟨0, .allOnes 256⟩, ⟨2^62, .allOnes 256⟩]
        ⟨2^62, 2⟩ 0 = .ok next := by
  refine ⟨by decide, by decide +kernel, ?_⟩
  rintro ⟨next, hnext⟩
  have hfail : fails (nextTarget
      [⟨-2^62, .allOnes 256⟩, ⟨0, .allOnes 256⟩, ⟨2^62, .allOnes 256⟩] ⟨2^62, 2⟩ 0) = true := by
    decide +kernel
  obtain ⟨e, he⟩ := fails_iff.mp hfail
  rw [hnext] at he
  cases he

end TaoDag.Consensus
