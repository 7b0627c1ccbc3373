import TaoDag.Core.Machine
import Mathlib.Data.List.Forall2

namespace TaoDag.Reachability

/-- A legal half-interval `[start, stop]` of `u64` labels (`stop` is the source's `end`);
empty exactly when `stop + 1 = start`. A margin of one is left on both sides of `u64`. -/
structure Interval where
  start : Nat
  stop : Nat
  pos : 0 < start
  le : start ≤ stop + 1
  lt : stop < u64Max
  deriving DecidableEq

namespace Interval

/-- `Interval::new` with its debug assertions. -/
def new (start stop : Nat) : Result Interval :=
  if h : 0 < start ∧ start ≤ stop + 1 ∧ stop < u64Max then
    .ok ⟨start, stop, h.1, h.2.1, h.2.2⟩
  else .error (.panic "assertion failed: illegal interval")

def maximal : Interval := ⟨1, u64Max - 1, by decide, by decide, by decide⟩

def size (i : Interval) : Nat := i.stop + 1 - i.start

def isEmpty (i : Interval) : Bool := i.size == 0

def increase (i : Interval) (offset : Nat) : Result Interval := do
  new (← addU64 i.start offset) (← addU64 i.stop offset)

def decrease (i : Interval) (offset : Nat) : Result Interval := do
  new (← subU64 i.start offset) (← subU64 i.stop offset)

def increaseStart (i : Interval) (offset : Nat) : Result Interval := do
  new (← addU64 i.start offset) i.stop

def decreaseStart (i : Interval) (offset : Nat) : Result Interval := do
  new (← subU64 i.start offset) i.stop

def increaseEnd (i : Interval) (offset : Nat) : Result Interval := do
  new i.start (← addU64 i.stop offset)

def decreaseEnd (i : Interval) (offset : Nat) : Result Interval := do
  new i.start (← subU64 i.stop offset)

/-- The `f32` nearest to an integer, ties to even: 24 significant bits. -/
def f32Round (n : Nat) : Nat :=
  if n < 2^24 then n
  else
    let e := Nat.log2 n - 23
    let q := n / 2^e
    let r := n % 2^e
    if r < 2^(e-1) ∨ (r = 2^(e-1) ∧ q % 2 = 0) then q * 2^e else (q+1) * 2^e

/-- `split_fraction(0.5)`: `f32::ceil(size as f32 * 0.5)` labels go left. Halving an
`f32` is exact. -/
def splitHalf (i : Interval) : Result (Interval × Interval) := do
  let leftSize := (f32Round i.size + 1) / 2
  let left ← new i.start (← subU64 (← addU64 i.start leftSize) 1)
  let right ← new (← addU64 i.start leftSize) i.stop
  return (left, right)

def splitExactFrom : Nat → List Nat → Result (List Interval)
  | _, [] => .ok []
  | start, size :: sizes => do
      let next ← addU64 start size
      let i ← new start (← subU64 next 1)
      return i :: (← splitExactFrom next sizes)

def splitExact (i : Interval) (sizes : List Nat) : Result (List Interval) := do
  assert ((← sumU64 sizes) = i.size) "sum of sizes must be equal to the interval's size"
  splitExactFrom i.start sizes

/-- The exponents `max_size - s` of `exponential_fractions`, one for each size. -/
def fractionExponents (sizes : List Nat) : Result (List Nat) :=
  sizes.mapM fun s => subU64 (sizes.foldr max 0) s

/-- `f64::round(total_bias * exp_fractions[i]) as u64`, from the sizes, the total bias
and `i`. The result of the floating point computation is left open. -/
abbrev Fractions := List Nat → Nat → Nat → Nat

def biasedSizes (fr : Fractions) (sizes : List Nat) (totalBias : Nat) :
    Nat → Nat → List Nat → Result (List Nat)
  | _, _, [] => .ok []
  | i, remainingBias, size :: rest => do
      let bias := if rest.isEmpty then remainingBias else min remainingBias (fr sizes totalBias i)
      let biased ← addU64 size bias
      let remainingBias ← subU64 remainingBias bias
      return biased :: (← biasedSizes fr sizes totalBias (i+1) remainingBias rest)

def splitExponential (fr : Fractions) (i : Interval) (sizes : List Nat) :
    Result (List Interval) := do
  let sizesSum ← sumU64 sizes
  assert (sizesSum ≤ i.size)
    "interval's size must be greater than or equal to sum of sizes"
  assert (0 < sizesSum) "cannot split to 0 parts"
  if i.size = sizesSum then i.splitExact sizes
  else
    let totalBias := i.size - sizesSum
    i.splitExact (← biasedSizes fr sizes totalBias 0 totalBias sizes)

def contains (i other : Interval) : Bool :=
  i.start ≤ other.start && other.stop ≤ i.stop

def strictlyContains (i other : Interval) : Bool :=
  i.start ≤ other.start && other.stop < i.stop

@[simp] theorem contains_iff {i j : Interval} :
    i.contains j = true ↔ i.start ≤ j.start ∧ j.stop ≤ i.stop := by simp [contains]

@[simp] theorem strictlyContains_iff {i j : Interval} :
    i.strictlyContains j = true ↔ i.start ≤ j.start ∧ j.stop < i.stop := by
  simp [strictlyContains]

@[simp] theorem isEmpty_iff {i : Interval} : i.isEmpty = true ↔ i.size = 0 := by simp [isEmpty]

theorem size_eq_zero {i : Interval} : i.size = 0 ↔ i.start = i.stop + 1 := by
  have := i.le
  unfold size
  omega

theorem size_pos {i : Interval} : 0 < i.size ↔ i.start ≤ i.stop := by
  have := i.le
  unfold size
  omega

theorem size_add_start (i : Interval) : i.start + i.size = i.stop + 1 := by
  have := i.le
  unfold size
  omega

@[ext] theorem ext {i j : Interval} (hs : i.start = j.start) (he : i.stop = j.stop) : i = j := by
  cases i
  cases j
  simp_all

section Specs

variable {C : Prop}

theorem new_spec {s e : Nat} (h : C → 0 < s ∧ s ≤ e + 1 ∧ e < u64Max) :
    Returns C (new s e) (fun i => i.start = s ∧ i.stop = e) := by
  by_cases hp : 0 < s ∧ s ≤ e + 1 ∧ e < u64Max
  · rw [new, dif_pos hp]
    exact Returns.ok ⟨rfl, rfl⟩
  · rw [new, dif_neg hp]
    exact Returns.error fun hc => hp (h hc)

theorem increase_spec {i : Interval} {offset : Nat} (h : C → i.stop + offset < u64Max) :
    Returns C (i.increase offset)
      (fun j => j.start = i.start + offset ∧ j.stop = i.stop + offset) := by
  have hp := i.pos
  have hl := i.le
  refine Returns.bind (addU64_spec fun hc => ?_) fun s hs => ?_
  · have := h hc
    omega
  refine Returns.bind (addU64_spec fun hc => ?_) fun e he => ?_
  · have := h hc
    omega
  refine (new_spec fun hc => ?_).mono fun j hj => ?_
  · have := h hc
    omega
  · rw [hj.1, hj.2, hs.1, he.1]
    exact ⟨rfl, rfl⟩

theorem decrease_spec {i : Interval} {offset : Nat} (h : C → offset < i.start) :
    Returns C (i.decrease offset)
      (fun j => j.start + offset = i.start ∧ j.stop + offset = i.stop) := by
  have hl := i.le
  have ht := i.lt
  refine Returns.bind (subU64_spec fun hc => ?_) fun s hs => ?_
  · have := h hc
    omega
  refine Returns.bind (subU64_spec fun hc => ?_) fun e he => ?_
  · have := h hc
    omega
  refine (new_spec fun hc => ?_).mono fun j hj => ?_
  · have := h hc
    omega
  · omega

theorem increaseStart_spec {i : Interval} {offset : Nat} (h : C → offset ≤ i.size) :
    Returns C (i.increaseStart offset)
      (fun j => j.start = i.start + offset ∧ j.stop = i.stop) := by
  have hp := i.pos
  have ha := i.size_add_start
  have ht := i.lt
  refine Returns.bind (addU64_spec fun hc => ?_) fun s hs => ?_
  · have := h hc
    omega
  refine (new_spec fun hc => ?_).mono fun j hj => ?_
  · have := h hc
    omega
  · omega

theorem decreaseStart_spec {i : Interval} {offset : Nat} (h : C → offset < i.start) :
    Returns C (i.decreaseStart offset)
      (fun j => j.start + offset = i.start ∧ j.stop = i.stop) := by
  have hl := i.le
  have ht := i.lt
  refine Returns.bind (subU64_spec fun hc => ?_) fun s hs => ?_
  · have := h hc
    omega
  refine (new_spec fun hc => ?_).mono fun j hj => ?_
  · have := h hc
    omega
  · omega

theorem increaseEnd_spec {i : Interval} {offset : Nat} (h : C → i.stop + offset < u64Max) :
    Returns C (i.increaseEnd offset)
      (fun j => j.start = i.start ∧ j.stop = i.stop + offset) := by
  have hp := i.pos
  have hl := i.le
  refine Returns.bind (addU64_spec fun hc => ?_) fun e he => ?_
  · have := h hc
    omega
  refine (new_spec fun hc => ?_).mono fun j hj => ?_
  · have := h hc
    omega
  · omega

theorem decreaseEnd_spec {i : Interval} {offset : Nat} (h : C → offset ≤ i.size) :
    Returns C (i.decreaseEnd offset)
      (fun j => j.start = i.start ∧ j.stop + offset = i.stop) := by
  have hp := i.pos
  have ha := i.size_add_start
  have ht := i.lt
  refine Returns.bind (subU64_spec fun hc => ?_) fun e he => ?_
  · have := h hc
    omega
  refine (new_spec fun hc => ?_).mono fun j hj => ?_
  · have := h hc
    omega
  · omega

end Specs

theorem f32Round_bounds (n : Nat) (hn : 0 < n) : 0 < f32Round n ∧ f32Round n < 2 * n := by
  simp only [f32Round]
  split_ifs with hs hr
  · omega
  all_goals
    have hlog : 2^(Nat.log2 n) ≤ n := Nat.log2_self_le (by omega)
    have h24 : 24 ≤ Nat.log2 n := (Nat.le_log2 (by omega)).mpr (by omega)
    have hsplit : 2^(Nat.log2 n) = 2^23 * 2^(Nat.log2 n - 23) := by
      rw [← pow_add]
      congr 1
      omega
    have hdiv := Nat.div_add_mod n (2^(Nat.log2 n - 23))
    have hpos : 0 < 2^(Nat.log2 n - 23) := Nat.two_pow_pos _
    have hq : 2^23 ≤ n / 2^(Nat.log2 n - 23) := by
      rw [Nat.le_div_iff_mul_le hpos, ← hsplit]
      exact hlog
    have hmod := Nat.mod_lt n hpos
    set E := 2^(Nat.log2 n - 23)
    set q := n / E
    rw [Nat.mul_comm] at hdiv
  · have hqE : 0 < q * E := Nat.mul_pos (by omega) hpos
    constructor <;> omega
  · have hqE : E ≤ q * E := Nat.le_mul_of_pos_left E (by omega)
    have hlt : E < q * E := by
      calc
        E = 1 * E := (Nat.one_mul E).symm
        _ < q * E := Nat.mul_lt_mul_of_pos_right (by omega) hpos
    rw [Nat.add_mul, Nat.one_mul]
    constructor <;> omega

/-- Whatever the rounding does, a non-empty interval is cut into a non-empty left part
and the rest. -/
theorem splitHalf_spec {C : Prop} {i : Interval} (hi : 0 < i.size) :
    Returns C i.splitHalf (fun p => p.1.start = i.start ∧ 0 < p.1.size ∧
      p.1.stop + 1 = p.2.start ∧ p.2.stop = i.stop ∧ p.1.stop ≤ i.stop) := by
  have hb := f32Round_bounds i.size hi
  have hp := i.pos
  have ha := i.size_add_start
  have ht := i.lt
  set left := (f32Round i.size + 1) / 2 with hleft
  have hl : 0 < left ∧ left ≤ i.size := by omega
  refine Returns.bind (addU64_spec fun _ => by omega) fun s hs => ?_
  refine Returns.bind (subU64_spec fun _ => by omega) fun e he => ?_
  refine Returns.bind (new_spec fun _ => by omega) fun l hlv => ?_
  refine Returns.bind (addU64_spec fun _ => by omega) fun s' hs' => ?_
  refine Returns.bind (new_spec fun _ => by omega) fun r hr => ?_
  refine Returns.ok ?_
  simp only [size_pos]
  omega

/-- The intervals tile the labels from `s` up to but not including `e`, in order. -/
def Tiles : Nat → List Interval → Nat → Prop
  | s, [], e => s = e
  | s, i :: is, e => i.start = s ∧ Tiles (i.stop + 1) is e

theorem Tiles.le {s e : Nat} {is : List Interval} (h : Tiles s is e) : s ≤ e := by
  induction is generalizing s with
  | nil => exact Nat.le_of_eq h
  | cons i is ih =>
    have := ih h.2
    have := i.le
    have := h.1
    omega

theorem Tiles.append {s m e : Nat} {is js : List Interval} (h : Tiles s is m)
    (k : Tiles m js e) : Tiles s (is ++ js) e := by
  induction is generalizing s with
  | nil =>
    cases h
    exact k
  | cons i is ih => exact ⟨h.1, ih h.2⟩

theorem tiles_append {s e : Nat} {is js : List Interval} :
    Tiles s (is ++ js) e ↔ ∃ m, Tiles s is m ∧ Tiles m js e := by
  constructor
  · intro h
    induction is generalizing s with
    | nil => exact ⟨s, rfl, h⟩
    | cons i is ih =>
      obtain ⟨m, hm, hk⟩ := ih h.2
      exact ⟨m, ⟨h.1, hm⟩, hk⟩
  · rintro ⟨m, h, k⟩
    exact h.append k

theorem Tiles.mem {s e : Nat} {is : List Interval} (h : Tiles s is e) {i : Interval}
    (hi : i ∈ is) : s ≤ i.start ∧ i.stop < e := by
  obtain ⟨as, bs, rfl⟩ := List.append_of_mem hi
  obtain ⟨m, ha, hb⟩ := tiles_append.mp h
  have := ha.le
  have := hb.2.le
  have := hb.1
  omega

/-- Every label between the ends lies in one of the intervals. -/
theorem Tiles.covers {s e l : Nat} {is : List Interval} (h : Tiles s is e) (hs : s ≤ l)
    (he : l < e) : ∃ i ∈ is, i.start ≤ l ∧ l ≤ i.stop := by
  induction is generalizing s with
  | nil =>
    have hse : s = e := h
    omega
  | cons i is ih =>
    by_cases hl : l ≤ i.stop
    · have := h.1
      exact ⟨i, List.mem_cons_self .., by omega, hl⟩
    · obtain ⟨j, hj, hlj⟩ := ih h.2 (by omega)
      exact ⟨j, List.mem_cons_of_mem _ hj, hlj⟩

/-- Consecutive intervals share no label. -/
theorem Tiles.pairwise {s e : Nat} {is : List Interval} (h : Tiles s is e) :
    is.Pairwise (fun i j => i.stop < j.start) := by
  induction is generalizing s with
  | nil => exact .nil
  | cons i is ih =>
    refine List.pairwise_cons.mpr ⟨fun j hj => ?_, ih h.2⟩
    have := (h.2.mem hj).1
    omega

theorem splitExactFrom_spec {C : Prop} {s : Nat} {sizes : List Nat} (hs : 0 < s)
    (hC : C → s + sizes.sum ≤ u64Max) :
    Returns C (splitExactFrom s sizes)
      (fun is => Tiles s is (s + sizes.sum) ∧ is.map size = sizes) := by
  induction sizes generalizing s with
  | nil => exact Returns.ok ⟨by simp [Tiles], rfl⟩
  | cons n sizes ih =>
    simp only [List.sum_cons] at hC
    refine Returns.bind (addU64_spec fun hc => ?_) fun next hn => ?_
    · have := hC hc
      omega
    refine Returns.bind (subU64_spec fun _ => by omega) fun e he => ?_
    refine Returns.bind (new_spec fun hc => ?_) fun i hi => ?_
    · have := hC hc
      omega
    refine Returns.bind (ih (s := next) (by omega) fun hc => ?_) fun is his => ?_
    · have := hC hc
      omega
    refine Returns.ok ⟨⟨hi.1, ?_⟩, ?_⟩
    · have hstart : i.stop + 1 = next := by omega
      have hend : s + (n :: sizes).sum = next + sizes.sum := by
        rw [List.sum_cons]
        omega
      rw [hstart, hend]
      exact his.1
    · have hsz : i.size = n := by
        unfold size
        omega
      rw [List.map_cons, hsz, his.2]

theorem splitExact_spec {C : Prop} {i : Interval} {sizes : List Nat}
    (hC : C → sizes.sum = i.size) :
    Returns C (i.splitExact sizes)
      (fun is => Tiles i.start is (i.stop + 1) ∧ is.map size = sizes) := by
  have ha := i.size_add_start
  have ht := i.lt
  have hp := i.pos
  refine Returns.bind (sumU64_spec fun hc => ?_) fun sum hsum => ?_
  · have := hC hc
    omega
  refine Returns.bind (assert_spec fun hc => ?_) fun _ hsz => ?_
  · rw [hsum.1]
    exact hC hc
  · have htotal : i.start + sizes.sum = i.stop + 1 := by omega
    refine (splitExactFrom_spec hp fun _ => by omega).mono fun is his => ?_
    rw [← htotal]
    exact his

theorem biasedSizes_spec {C : Prop} (fr : Fractions) (all : List Nat) (total : Nat)
    {k remaining : Nat} {sizes : List Nat} (hne : sizes ≠ [])
    (hC : C → sizes.sum + remaining ≤ u64Max) :
    Returns C (biasedSizes fr all total k remaining sizes)
      (fun bs => bs.sum = sizes.sum + remaining ∧ List.Forall₂ (· ≤ ·) sizes bs) := by
  induction sizes generalizing k remaining with
  | nil => exact absurd rfl hne
  | cons n rest ih =>
    simp only [List.sum_cons] at hC
    cases rest with
    | nil =>
      refine Returns.bind (addU64_spec fun hc => ?_) fun b hb => ?_
      · simpa using hC hc
      refine Returns.bind (subU64_spec fun _ => by simp) fun r hr => ?_
      refine Returns.ok ⟨?_, .cons ?_ .nil⟩
      · simpa using hb.1
      · rw [hb.1]
        omega
    | cons m rest =>
      set bias := min remaining (fr all total k) with hbias
      have hle : bias ≤ remaining := Nat.min_le_left _ _
      refine Returns.bind (addU64_spec fun hc => ?_) fun b hb => ?_
      · have := hC hc
        simp only [List.isEmpty_cons, Bool.false_eq_true, if_false]
        omega
      refine Returns.bind (subU64_spec fun _ => by simp) fun r hr => ?_
      simp only [List.isEmpty_cons, Bool.false_eq_true, if_false] at hb hr
      refine Returns.bind (ih (by simp) fun hc => ?_) fun bs hbs => ?_
      · have := hC hc
        simp only [List.sum_cons] at this ⊢
        omega
      refine Returns.ok ⟨?_, .cons ?_ hbs.2⟩
      · simp only [List.sum_cons] at hbs ⊢
        omega
      · omega

/-- `split_exponential` tiles the interval, giving every part at least its size, for any
outcome of the floating point fractions. -/
theorem splitExponential_spec {C : Prop} (fr : Fractions) {i : Interval} {sizes : List Nat}
    (hC : C → 0 < sizes.sum ∧ sizes.sum ≤ i.size) :
    Returns C (i.splitExponential fr sizes)
      (fun is => (Tiles i.start is (i.stop + 1) ∧
        List.Forall₂ (fun n j => n ≤ j.size) sizes is) ∧ sizes.sum ≤ i.size) := by
  have ha := i.size_add_start
  have ht := i.lt
  refine Returns.bind (sumU64_spec fun hc => ?_) fun sum hsum => ?_
  · have := hC hc
    omega
  refine Returns.bind (assert_spec fun hc => ?_) fun _ hle => ?_
  · rw [hsum.1]
    exact (hC hc).2
  refine Returns.bind (assert_spec fun hc => ?_) fun _ hpos => ?_
  · rw [hsum.1]
    exact (hC hc).1
  rw [hsum.1] at hle hpos ⊢
  split_ifs with heq
  · refine (splitExact_spec fun _ => heq.symm).mono fun is his => ⟨⟨his.1, ?_⟩, hle⟩
    rw [← his.2, List.forall₂_map_left_iff]
    exact List.forall₂_same.mpr fun _ _ => le_rfl
  · have hne : sizes ≠ [] := by
      intro h
      simp [h] at hpos
    refine Returns.bind (biasedSizes_spec fr sizes _ hne fun _ => by omega) fun bs hbs => ?_
    refine (splitExact_spec fun _ => by omega).mono fun is his => ⟨⟨his.1, ?_⟩, hle⟩
    have hmap := hbs.2
    rw [← his.2, List.forall₂_map_right_iff] at hmap
    exact hmap

/-- No size exceeds the largest one. -/
theorem fractionExponents_spec {C : Prop} (sizes : List Nat) :
    Returns C (fractionExponents sizes) (fun es => es.length = sizes.length) := by
  have hmax : ∀ {l : List Nat} {s : Nat}, s ∈ l → s ≤ l.foldr max 0 := by
    intro l s hs
    induction l with
    | nil => cases hs
    | cons n l ih =>
      rw [List.foldr_cons]
      rcases List.mem_cons.mp hs with rfl | hs
      · exact Nat.le_max_left ..
      · exact (ih hs).trans (Nat.le_max_right ..)
  refine (Returns.mapM fun s hs => subU64_spec fun _ => hmax hs).mono fun es hes => ?_
  rw [hes.1, List.length_map]

/-- Whatever the floating point fractions come to, sizes that fit an interval split it into as many
consecutive parts, each at least its size, that hold every label of the interval once. -/
theorem splitExponential_partitions (fr : Fractions) (i : Interval) (sizes : List Nat)
    (hpos : 0 < sizes.sum) (hfits : sizes.sum ≤ i.size) :
    (∃ es, fractionExponents sizes = .ok es ∧ es.length = sizes.length) ∧
      ∃ is, i.splitExponential fr sizes = .ok is ∧ Tiles i.start is (i.stop + 1) ∧
      is.length = sizes.length ∧ List.Forall₂ (fun n j => n ≤ j.size) sizes is ∧
      is.Pairwise (fun j k => j.stop < k.start) ∧
      ∀ l, i.start ≤ l ∧ l ≤ i.stop ↔ ∃ j ∈ is, j.start ≤ l ∧ l ≤ j.stop := by
  obtain ⟨is, hrun, ⟨htiles, hsizes⟩, _⟩ :=
    (splitExponential_spec (C := True) fr fun _ => ⟨hpos, hfits⟩).total
  refine ⟨(fractionExponents_spec (C := True) sizes).total, is, hrun, htiles,
    hsizes.length_eq.symm, hsizes, htiles.pairwise, fun l => ?_⟩
  constructor
  · rintro ⟨hs, he⟩
    exact htiles.covers hs (by omega)
  · rintro ⟨j, hj, hs, he⟩
    have := htiles.mem hj
    omega

/-- Three sizes, one of them zero, and fractions that ask for more than is left. -/
theorem splitExponential_partitions_three : ∃ is,
    splitExponential (fun _ _ _ => u64Max) ⟨1, 9, by decide, by decide, by decide⟩ [2, 0, 3] = .ok is ∧
      Tiles 1 is 10 ∧ is.length = 3 := by
  obtain ⟨_, is, hrun, htiles, hlen, _⟩ := splitExponential_partitions (fun _ _ _ => u64Max)
    ⟨1, 9, by decide, by decide, by decide⟩ [2, 0, 3] (by decide) (by decide)
  exact ⟨is, hrun, htiles, hlen⟩

end Interval

end TaoDag.Reachability
