import TaoDag.Core.Machine
import Mathlib.Data.Finset.Insert

namespace TaoDag

/-- The 64 bytes of a signature. -/
abbrev Signature := BitVec 512

/-- The pending transactions, oldest first, and the first signatures that are taken. -/
structure Mempool (Tx : Type) where
  txs : List Tx
  seen : Finset Signature
  maxSize : Nat

namespace Mempool

variable {Tx : Type}

def new (maxSize : Nat) : Mempool Tx := ⟨[], ∅, maxSize⟩

/-- `Mempool::default()`. -/
def default : Mempool Tx := new 0

section Operations

variable (signature : Tx → Option Signature)

/-- Frees the first signature of a transaction. -/
def forget (seen : Finset Signature) (tx : Tx) : Finset Signature :=
  match signature tx with
  | some sig => seen.erase sig
  | none => seen

/-- Drops the oldest transaction. -/
def evict (m : Mempool Tx) : Result (Mempool Tx) :=
  match m.txs with
  | [] => .error (.panic "removal index (is 0) should be < len (is 0)")
  | old :: txs => return { m with txs, seen := forget signature m.seen old }

/-- Whether the transaction was added. -/
def submit (m : Mempool Tx) (tx : Tx) : Result (Bool × Mempool Tx) :=
  match signature tx with
  | some sig =>
      if sig ∈ m.seen then return (false, m)
      else do
        let m ← if m.maxSize ≤ m.txs.length then m.evict signature else pure m
        return (true, { m with seen := insert sig m.seen, txs := m.txs ++ [tx] })
  | none => return (false, m)

/-- The oldest `maxCount` transactions, for a block. -/
def drain (m : Mempool Tx) (maxCount : Nat) : List Tx × Mempool Tx :=
  let count := min maxCount m.txs.length
  let drained := m.txs.take count
  (drained, { m with txs := m.txs.drop count, seen := drained.foldl (forget signature) m.seen })

/-- What holds of every pool: the taken signatures are exactly the pending ones. -/
structure Sound (m : Mempool Tx) : Prop where
  bounded : m.txs.length ≤ m.maxSize
  signed : ∀ tx ∈ m.txs, (signature tx).isSome
  distinct : (m.txs.map signature).Nodup
  seen : ∀ sig, sig ∈ m.seen ↔ ∃ tx ∈ m.txs, signature tx = some sig

variable {signature}

theorem mem_forget {seen : Finset Signature} {tx : Tx} {sig : Signature} :
    sig ∈ forget signature seen tx ↔ sig ∈ seen ∧ signature tx ≠ some sig := by
  unfold forget
  cases signature tx with
  | none => simp
  | some other => simp [eq_comm, and_comm]

theorem mem_foldl_forget {txs : List Tx} {seen : Finset Signature} {sig : Signature} :
    sig ∈ txs.foldl (forget signature) seen ↔
      sig ∈ seen ∧ ∀ tx ∈ txs, signature tx ≠ some sig := by
  induction txs generalizing seen with
  | nil => simp
  | cons tx txs ih =>
    rw [List.foldl_cons, ih, mem_forget]
    simp [and_assoc]

theorem sound_new (maxSize : Nat) : Sound signature (new maxSize : Mempool Tx) :=
  ⟨by simp [new], by simp [new], by simp [new], by simp [new]⟩

namespace Sound

variable {m : Mempool Tx}

theorem apart (h : Sound signature m) (count : Nat) {tx other : Tx} (ht : tx ∈ m.txs.drop count)
    (ho : other ∈ m.txs.take count) : signature other ≠ signature tx := by
  have hd := h.distinct
  rw [← List.take_append_drop count m.txs, List.map_append] at hd
  exact (List.nodup_append.mp hd).2.2 _ (List.mem_map_of_mem ho) _ (List.mem_map_of_mem ht)

/-- The oldest transactions leave and free exactly their own signatures. -/
theorem drain (h : Sound signature m) (maxCount : Nat) :
    Sound signature (m.drain signature maxCount).2 where
  bounded := by
    have := h.bounded
    simp only [Mempool.drain, List.length_drop]
    omega
  signed tx ht := h.signed tx (List.mem_of_mem_drop ht)
  distinct := by
    simp only [Mempool.drain, List.map_drop]
    exact h.distinct.sublist (List.drop_sublist _ _)
  seen sig := by
    simp only [Mempool.drain]
    rw [mem_foldl_forget, h.seen]
    constructor
    · intro ⟨⟨tx, ht, hs⟩, kept⟩
      refine ⟨tx, ?_, hs⟩
      rw [← List.take_append_drop (min maxCount m.txs.length) m.txs] at ht
      exact (List.mem_append.mp ht).resolve_left fun hd => kept tx hd hs
    · intro ⟨tx, ht, hs⟩
      have others : ∀ other ∈ m.txs.take (min maxCount m.txs.length),
          signature other ≠ some sig := fun other ho => hs ▸ h.apart _ ht ho
      exact ⟨⟨tx, List.mem_of_mem_drop ht, hs⟩, others⟩

theorem push (h : Sound signature m) {tx : Tx} {sig : Signature} (hs : signature tx = some sig)
    (fresh : sig ∉ m.seen) (room : m.txs.length < m.maxSize) :
    Sound signature { m with seen := insert sig m.seen, txs := m.txs ++ [tx] } where
  bounded := by
    rw [List.length_append]
    exact room
  signed other ho := by
    rcases List.mem_append.mp ho with ho | ho
    · exact h.signed other ho
    · simp [List.mem_singleton.mp ho, hs]
  distinct := by
    have hn : ∀ other ∈ m.txs, signature other ≠ some sig := fun other ho hsig =>
      fresh ((h.seen sig).mpr ⟨other, ho, hsig⟩)
    rw [List.map_append, List.map_singleton, hs]
    exact h.distinct.append (List.nodup_singleton _) (by simpa using hn)
  seen other := by
    simp [h.seen, or_and_right, exists_or, hs, eq_comm, or_comm]

end Sound

/-- An eviction is a drain of one transaction. -/
theorem evict_eq {m : Mempool Tx} (h : m.txs ≠ []) :
    m.evict signature = .ok (m.drain signature 1).2 := by
  unfold evict drain
  cases ht : m.txs with
  | nil => exact absurd ht h
  | cons old txs =>
    simp
    rfl

section Submit

variable {m : Mempool Tx} {tx : Tx} {sig : Signature}

theorem submit_unsigned (hs : signature tx = none) : m.submit signature tx = .ok (false, m) := by
  simp only [submit, hs]
  rfl

theorem submit_taken (hs : signature tx = some sig) (taken : sig ∈ m.seen) :
    m.submit signature tx = .ok (false, m) := by
  simp only [submit, hs, if_pos taken]
  rfl

theorem submit_room (hs : signature tx = some sig) (fresh : sig ∉ m.seen)
    (room : m.txs.length < m.maxSize) : m.submit signature tx =
      .ok (true, { m with seen := insert sig m.seen, txs := m.txs ++ [tx] }) := by
  simp only [submit, hs, if_neg fresh, if_neg (Nat.not_le.mpr room)]
  rfl

theorem submit_full (hs : signature tx = some sig) (fresh : sig ∉ m.seen)
    (full : m.maxSize ≤ m.txs.length) (hne : m.txs ≠ []) :
    m.submit signature tx = .ok (true, { (m.drain signature 1).2 with
      seen := insert sig (m.drain signature 1).2.seen,
      txs := (m.drain signature 1).2.txs ++ [tx] }) := by
  simp only [submit, hs, if_neg fresh, if_pos full, evict_eq hne]
  rfl

/-- A pool without a place has no oldest transaction to drop. -/
theorem submit_panics (h : Sound signature m) (hm : m.maxSize = 0)
    (hs : signature tx = some sig) :
    m.submit signature tx = .error (.panic "removal index (is 0) should be < len (is 0)") := by
  have empty : m.txs = [] := List.eq_nil_of_length_eq_zero (by have := h.bounded; omega)
  have fresh : sig ∉ m.seen := by simp [h.seen, empty]
  simp only [submit, hs, if_neg fresh, hm, empty, evict]
  rfl

end Submit

end Operations

/-- A call on the pool. -/
inductive Op (Tx : Type) where
  | submit (tx : Tx)
  | drain (maxCount : Nat)

/-- A pool with its history: the transactions that it accepted, and those that have left it. -/
structure History (Tx : Type) where
  pool : Mempool Tx
  accepted : List Tx
  left : List Tx

namespace History

variable (signature : Tx → Option Signature)

def step (h : History Tx) : Op Tx → Result (History Tx)
  | .submit tx => do
      let (added, pool) ← h.pool.submit signature tx
      -- a pool that was full has evicted its oldest transaction
      let evicted := h.pool.txs.take (h.pool.txs.length + 1 - pool.txs.length)
      if added then return ⟨pool, h.accepted ++ [tx], h.left ++ evicted⟩ else return { h with pool }
  | .drain maxCount =>
      let (drained, pool) := h.pool.drain signature maxCount
      return { h with pool, left := h.left ++ drained }

/-- The history of the calls on a new pool. -/
def run (maxSize : Nat) (ops : List (Op Tx)) : Result (History Tx) :=
  ops.foldlM (step signature) ⟨Mempool.new maxSize, [], []⟩

/-- First in, first out: what was accepted has left in that order, or is pending. -/
structure Fifo (maxSize : Nat) (h : History Tx) : Prop where
  size : h.pool.maxSize = maxSize
  pool : Sound signature h.pool
  order : h.accepted = h.left ++ h.pool.txs

/-- Whether a call submits a transaction with a signature. -/
def signs : Op Tx → Bool
  | .submit tx => (signature tx).isSome
  | .drain _ => false

variable {signature} {maxSize : Nat} {h : History Tx}

theorem Fifo.drain (hf : Fifo signature maxSize h) (maxCount : Nat) :
    ∃ h', h.step signature (.drain maxCount) = .ok h' ∧ Fifo signature maxSize h' :=
  ⟨_, rfl, hf.size, hf.pool.drain maxCount, by simp [hf.order]⟩

theorem Fifo.submit (hf : Fifo signature maxSize h) (tx : Tx)
    (place : maxSize = 0 → signature tx = none) :
    ∃ h', h.step signature (.submit tx) = .ok h' ∧ Fifo signature maxSize h' := by
  cases hs : signature tx with
  | none =>
    refine ⟨h, ?_, hf⟩
    simp only [step, submit_unsigned hs]
    rfl
  | some sig =>
    by_cases taken : sig ∈ h.pool.seen
    · refine ⟨h, ?_, hf⟩
      simp only [step, submit_taken hs taken]
      rfl
    · by_cases room : h.pool.txs.length < h.pool.maxSize
      · simp only [step, submit_room hs taken room]
        refine ⟨_, rfl, hf.size, hf.pool.push hs taken room, ?_⟩
        simp [hf.order]
      · have positive : 0 < h.pool.maxSize := by
          rw [hf.size]
          exact Nat.pos_of_ne_zero fun h0 => by simp [place h0] at hs
        have hlen : 0 < h.pool.txs.length := by omega
        have full : h.pool.maxSize ≤ h.pool.txs.length := by omega
        have sound := hf.pool.drain 1
        have fresh : sig ∉ (h.pool.drain signature 1).2.seen := fun hm => by
          simp only [Mempool.drain] at hm
          exact taken (mem_foldl_forget.mp hm).1
        have space : (h.pool.drain signature 1).2.txs.length <
            (h.pool.drain signature 1).2.maxSize := by
          have := hf.pool.bounded
          simp only [Mempool.drain, List.length_drop]
          omega
        simp only [step, submit_full hs taken full (List.ne_nil_of_length_pos hlen)]
        refine ⟨_, rfl, hf.size, sound.push hs fresh space, ?_⟩
        have gone :
            h.pool.txs.length + 1 - ((h.pool.drain signature 1).2.txs ++ [tx]).length = 1 := by
          simp only [Mempool.drain, List.length_append, List.length_drop, List.length_singleton]
          omega
        rw [gone]
        have hmin : min 1 h.pool.txs.length = 1 := by omega
        simp only [Mempool.drain, hmin, hf.order, List.append_assoc]
        rw [← List.append_assoc (List.take 1 _), List.take_append_drop]

theorem Fifo.step (hf : Fifo signature maxSize h) {op : Op Tx}
    (place : maxSize = 0 → signs signature op = false) :
    ∃ h', h.step signature op = .ok h' ∧ Fifo signature maxSize h' := by
  cases op with
  | submit tx =>
    refine hf.submit tx fun h0 => ?_
    simpa [signs] using place h0
  | drain maxCount => exact hf.drain maxCount

theorem Fifo.step_panics (hf : Fifo signature maxSize h) (h0 : maxSize = 0) {op : Op Tx}
    (signed : signs signature op) : ∃ e, h.step signature op = .error e := by
  cases op with
  | submit tx =>
    obtain ⟨sig, hs⟩ := Option.isSome_iff_exists.mp signed
    refine ⟨.panic "removal index (is 0) should be < len (is 0)", ?_⟩
    simp only [History.step, submit_panics hf.pool (hf.size.trans h0) hs]
    rfl
  | drain maxCount => simp [signs] at signed

theorem Fifo.run (hf : Fifo signature maxSize h) (ops : List (Op Tx)) :
    (∃ h', ops.foldlM (History.step signature) h = .ok h' ∧ Fifo signature maxSize h') ↔
      (maxSize = 0 → ∀ op ∈ ops, signs signature op = false) := by
  induction ops generalizing h with
  | nil => exact ⟨fun _ _ op hop => (List.not_mem_nil hop).elim, fun _ => ⟨h, rfl, hf⟩⟩
  | cons op ops ih =>
    rw [List.foldlM_cons]
    by_cases place : maxSize = 0 → signs signature op = false
    · obtain ⟨next, hnext, hf'⟩ := hf.step place
      rw [hnext]
      change (∃ h', ops.foldlM (History.step signature) next = .ok h' ∧ _) ↔ _
      rw [ih hf']
      simp only [List.forall_mem_cons]
      exact ⟨fun rest h0 => ⟨place h0, rest h0⟩, fun all h0 => (all h0).2⟩
    · obtain ⟨h0, signed⟩ : maxSize = 0 ∧ signs signature op := by simpa using place
      obtain ⟨e, he⟩ := hf.step_panics h0 signed
      rw [he]
      constructor
      · intro ⟨h', hrun, _⟩
        cases hrun
      · intro all
        have := (List.forall_mem_cons.mp (all h0)).1
        simp [signed] at this

theorem fifo_new (maxSize : Nat) :
    Fifo signature maxSize (⟨Mempool.new maxSize, [], []⟩ : History Tx) :=
  ⟨rfl, sound_new maxSize, rfl⟩

end History

/-- A sound pool with a place takes any call. -/
theorem Sound.submit {signature : Tx → Option Signature} {m : Mempool Tx}
    (h : Sound signature m) (hm : 0 < m.maxSize) (tx : Tx) :
    ∃ added m', m.submit signature tx = .ok (added, m') ∧ Sound signature m' ∧
      m'.maxSize = m.maxSize := by
  have hf : History.Fifo signature m.maxSize ⟨m, m.txs, []⟩ := ⟨rfl, h, rfl⟩
  obtain ⟨h', hstep, hf'⟩ := hf.submit tx fun h0 => absurd h0 hm.ne'
  obtain ⟨⟨added, pool⟩, hsubmit, hstep⟩ := bind_eq_ok.mp hstep
  refine ⟨added, pool, hsubmit, ?_⟩
  cases added <;> cases hstep <;> exact ⟨hf'.pool, hf'.size⟩

/-- A run of calls returns, bounded, without duplicates and in submission order, exactly when no
transaction with a signature meets a pool without a place. -/
theorem run_fifo_iff (signature : Tx → Option Signature) (maxSize : Nat) (ops : List (Op Tx)) :
    (∃ h, History.run signature maxSize ops = .ok h ∧ History.Fifo signature maxSize h) ↔
      (maxSize = 0 → ∀ op ∈ ops, History.signs signature op = false) :=
  (History.fifo_new maxSize).run ops

/-- The first transaction that a default pool receives stops it. -/
theorem default_submit_panics :
    ¬∃ h, History.run some (default : Mempool Signature).maxSize [.submit 7#512] = .ok h := by
  rintro ⟨h, hrun⟩
  cases hrun

end Mempool

end TaoDag
