import TaoDag.Core.Machine
import TaoDag.Framework.Codec

namespace TaoDag.Pouw

/-- The hash of this chain: digests, and the bytes of the output stream of an input. -/
structure Hashing where
  blake3 : Bytes → Hash
  xof : Bytes → Nat → UInt8

/-- A wrapping `i64`. -/
abbrev I64 := BitVec 64

/-- The longest vector of one-byte items. -/
def maxCapacity : Nat := 2^63 - 1

/-- `vec![0; count]` of items of this size. -/
def allocate (size count : Nat) : Result Unit :=
  assert (size * count ≤ maxCapacity) "capacity overflow"

def index {α : Type} (v : List α) (i : Nat) : Result α := expect "index out of bounds" v[i]?

/-- Expands a seed into `count` signed entries. -/
def fill (hash : Hashing) (seed : Hash) (domain : UInt8) (count : Nat) : Result (List I64) := do
  allocate 1 count
  return (List.range count).map fun i =>
    (hash.xof (Codec.bytes32.encode seed ++ [domain]) i).toBitVec.signExtend 64

/-- The sum of `count` products, of the entries at these places. -/
def dot (l r : List I64) (atL atR : Nat → Nat) (count : Nat) : Result I64 :=
  (List.range count).foldlM (fun acc k => do
    let x ← index l (atL k)
    let y ← index r (atR k)
    return acc + x * y) 0

/-- The entries of a matrix, row by row. -/
def entries (rows cols : Nat) (entry : Nat → Nat → Result I64) : Result (List I64) := do
  let rowsOf ← (List.range rows).mapM fun i => (List.range cols).mapM (entry i)
  return rowsOf.flatten

/-- Low-rank product `L · Rᵀ`: `rows × cols`, of `rows × rank` and `cols × rank`. -/
def lowrank (l r : List I64) (rows cols rank : Nat) : Result (List I64) := do
  allocate 8 (← mulU64 rows cols)
  entries rows cols fun i j => dot l r (fun k => i * rank + k) (fun k => j * rank + k) rank

/-- Dense `n × n` matrix product. -/
def matmul (a b : List I64) (n : Nat) : Result (List I64) := do
  allocate 8 (← mulU64 n n)
  entries n n fun i j => dot a b (fun k => i * n + k) (fun k => k * n + j) n

/-- The little-endian bytes of the entries. -/
def entryBytes (v : List I64) : Bytes := v.flatMap Codec.u64.encode

/-- Hashes the product of the matrices with low-rank noise. The addition of the noise stops with
the shorter of the two. -/
def noisyProductTranscript (hash : Hashing) (a b : List I64) (n rank : Nat) (noiseSeed : Hash) :
    Result Hash := do
  let count ← mulU64 n rank
  let el ← fill hash noiseSeed 2 count
  let er ← fill hash noiseSeed 3 count
  let fl ← fill hash noiseSeed 4 count
  let fr ← fill hash noiseSeed 5 count
  let e ← lowrank el er n n rank
  let f ← lowrank fl fr n n rank
  let cn ← matmul (List.zipWith (· + ·) a e) (List.zipWith (· + ·) b f) n
  return hash.blake3 (entryBytes cn)

/-- What `dot` returns inside its bounds. -/
def dotProduct (l r : List I64) (atL atR : Nat → Nat) (count : Nat) : I64 :=
  (List.range count).foldl (fun acc k => acc + l.getD (atL k) 0 * r.getD (atR k) 0) 0

/-- The product of two `n × n` matrices, wrapping. -/
def product (a b : List I64) (n : Nat) : List I64 :=
  ((List.range n).map fun i => (List.range n).map fun j =>
    dotProduct a b (fun k => i * n + k) (fun k => k * n + j) n).flatten

section Specs

variable {C : Prop}

theorem index_spec {v : List I64} {i : Nat} (h : C → i < v.length) :
    Returns C (index v i) fun x => x = v.getD i 0 ∧ i < v.length := by
  refine expect_spec (fun hc => ⟨_, List.getElem?_eq_getElem (h hc)⟩) fun x hx => ?_
  obtain ⟨hi, hx'⟩ := List.getElem?_eq_some_iff.mp hx
  rw [List.getD_eq_getElem?_getD, hx]
  exact ⟨rfl, hi⟩

theorem allocate_spec {size count : Nat} (h : C → size * count ≤ maxCapacity) :
    Returns C (allocate size count) fun _ => size * count ≤ maxCapacity :=
  assert_spec h

/-- A dot product reads its two vectors at the places of its terms, and nowhere else. -/
theorem dot_spec {l r : List I64} {atL atR : Nat → Nat} {count : Nat}
    (h : C → ∀ k < count, atL k < l.length ∧ atR k < r.length) :
    Returns C (dot l r atL atR count) fun v => v = dotProduct l r atL atR count ∧
      ∀ k < count, atL k < l.length ∧ atR k < r.length := by
  refine (Returns.foldlM (I := fun ks v =>
    v = ks.foldl (fun acc k => acc + l.getD (atL k) 0 * r.getD (atR k) 0) 0 ∧
      ∀ k ∈ ks, atL k < l.length ∧ atR k < r.length) ⟨rfl, nofun⟩ ?_).mono ?_
  · intro pre k post acc hks hacc
    have hk : k < count := by
      rw [← List.mem_range, hks]
      simp
    refine Returns.bind (index_spec fun hc => (h hc k hk).1) fun x hx => ?_
    refine Returns.bind (index_spec fun hc => (h hc k hk).2) fun y hy => Returns.pure ⟨?_, ?_⟩
    · rw [List.foldl_append, ← hacc.1, hx.1, hy.1]
      rfl
    · intro k' hk'
      rcases List.mem_append.mp hk' with hk' | hk'
      · exact hacc.2 k' hk'
      · obtain rfl := List.mem_singleton.mp hk'
        exact ⟨hx.2, hy.2⟩
  · intro v hv
    exact ⟨hv.1, fun k hk => hv.2 k (List.mem_range.mpr hk)⟩

theorem entries_spec {rows cols : Nat} {entry : Nat → Nat → Result I64} {value : Nat → Nat → I64}
    {P : Nat → Nat → Prop}
    (h : ∀ i < rows, ∀ j < cols, Returns C (entry i j) fun v => v = value i j ∧ P i j) :
    Returns C (entries rows cols entry) fun vs =>
      vs = ((List.range rows).map fun i => (List.range cols).map (value i)).flatten ∧
        ∀ i < rows, ∀ j < cols, P i j := by
  refine Returns.bind (Returns.mapM (g := fun i => (List.range cols).map (value i))
    (P := fun i => ∀ j < cols, P i j) fun i hi => ?_) fun rowsOf hrows => Returns.pure ?_
  · refine (Returns.mapM (g := value i) (P := P i) fun j hj =>
      h i (List.mem_range.mp hi) j (List.mem_range.mp hj)).mono fun vs hvs => ?_
    exact ⟨hvs.1, fun j hj => hvs.2 j (List.mem_range.mpr hj)⟩
  · exact ⟨by rw [hrows.1], fun i hi => hrows.2 i (List.mem_range.mpr hi)⟩

theorem flatten_rows_length {rows cols : Nat} (value : Nat → Nat → I64) :
    ((List.range rows).map fun i => (List.range cols).map (value i)).flatten.length =
      rows * cols := by
  simp [List.length_flatten, Function.comp_def]

theorem row_index_lt {i k rows cols : Nat} (hi : i < rows) (hk : k < cols) :
    i * cols + k < rows * cols := by
  calc i * cols + k < i * cols + cols := Nat.add_lt_add_left hk _
    _ = (i + 1) * cols := (Nat.succ_mul i cols).symm
    _ ≤ rows * cols := Nat.mul_le_mul_right cols hi

theorem fill_spec {hash : Hashing} {seed : Hash} {domain : UInt8} {count : Nat}
    (h : C → count ≤ maxCapacity) :
    Returns C (fill hash seed domain count) fun v => v.length = count ∧ count ≤ maxCapacity := by
  refine Returns.bind (allocate_spec fun hc => ?_) fun _ hcount => Returns.pure ⟨?_, ?_⟩
  · rw [Nat.one_mul]
    exact h hc
  · rw [List.length_map, List.length_range]
  · rwa [Nat.one_mul] at hcount

/-- The low-rank product of vectors of the right lengths. -/
theorem lowrank_spec {l r : List I64} {n rank : Nat} (hl : l.length = n * rank)
    (hr : r.length = n * rank) (hn : 8 * (n * n) ≤ maxCapacity) :
    Returns C (lowrank l r n n rank) fun e => e.length = n * n := by
  refine Returns.bind (mulU64_spec fun _ => ?_) fun count hcount => ?_
  · rw [maxCapacity] at hn
    rw [u64Max]
    omega
  refine Returns.bind (allocate_spec fun _ => by rw [hcount.1]; exact hn) fun _ _ => ?_
  refine (entries_spec (P := fun _ _ => True) fun i hi j hj =>
    (dot_spec fun _ k hk => ?_).mono fun v hv => ⟨hv.1, trivial⟩).mono fun e he => ?_
  · rw [hl, hr]
    exact ⟨row_index_lt hi hk, row_index_lt hj hk⟩
  · rw [he.1, flatten_rows_length]

/-- A product reads all `n * n` entries of both matrices. -/
theorem matmul_spec {a b : List I64} {n : Nat} (hn : 8 * (n * n) ≤ maxCapacity)
    (ha : n * n ≤ a.length) (h : C → n * n ≤ b.length) :
    Returns C (matmul a b n) fun c => c = product a b n ∧ n * n ≤ b.length := by
  refine Returns.bind (mulU64_spec fun _ => ?_) fun count hcount => ?_
  · rw [maxCapacity] at hn
    rw [u64Max]
    omega
  refine Returns.bind (allocate_spec fun _ => by rw [hcount.1]; exact hn) fun _ _ => ?_
  refine (entries_spec (P := fun _ j => ∀ k < n, k * n + j < b.length) fun i hi j hj =>
    (dot_spec fun hc k hk => ?_).mono fun v hv => ⟨hv.1, fun k hk => (hv.2 k hk).2⟩).mono
      fun c hc => ⟨hc.1, ?_⟩
  · exact ⟨(row_index_lt hi hk).trans_le ha, (row_index_lt hk hj).trans_le (h hc)⟩
  · cases n with
    | zero => simp
    | succ n =>
      -- the last entry that is read
      have hlast := hc.2 n (by omega) n (by omega) n (by omega)
      rw [Nat.succ_mul]
      omega

/-- The transcript of a full tile is computed when the noise fits in memory and the input has an
entry for each place. -/
theorem noisyProductTranscript_spec {hash : Hashing} {a b : List I64} {n rank : Nat} {seed : Hash}
    (hn : 8 * (n * n) ≤ maxCapacity) (ha : a.length = n * n)
    (h : C → n * rank ≤ maxCapacity ∧ n * n ≤ b.length) :
    Returns C (noisyProductTranscript hash a b n rank seed) fun _ =>
      n * rank ≤ maxCapacity ∧ n * n ≤ b.length := by
  refine Returns.bind (mulU64_spec fun hc => ?_) fun count hcount => ?_
  · have hfits := (h hc).1
    rw [maxCapacity] at hfits
    rw [u64Max]
    omega
  obtain ⟨rfl, _⟩ := hcount
  refine Returns.bind (fill_spec fun hc => (h hc).1) fun el hel => ?_
  refine Returns.bind (fill_spec fun hc => (h hc).1) fun er her => ?_
  refine Returns.bind (fill_spec fun hc => (h hc).1) fun fl hfl => ?_
  refine Returns.bind (fill_spec fun hc => (h hc).1) fun fr hfr => ?_
  refine Returns.bind (lowrank_spec hel.1 her.1 hn) fun e he => ?_
  refine Returns.bind (lowrank_spec hfl.1 hfr.1 hn) fun f hf => ?_
  have hnoised : n * n ≤ (List.zipWith (· + ·) a e).length := by
    rw [List.length_zipWith, ha, he, Nat.min_self]
  refine Returns.bind (matmul_spec hn hnoised fun hc => ?_) fun cn hcn => Returns.pure ⟨hel.2, ?_⟩
  · rw [List.length_zipWith, hf]
    exact Nat.le_min.mpr ⟨(h hc).2, le_rfl⟩
  · have hlen := hcn.2
    rw [List.length_zipWith] at hlen
    exact hlen.trans (Nat.min_le_left ..)

end Specs

end TaoDag.Pouw
