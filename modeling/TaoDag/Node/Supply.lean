import Mathlib.Algebra.Order.Ring.GeomSum
import TaoDag.Consensus.ForkChoice
import TaoDag.Dagvm.Fees
import TaoDag.Dagvm.Kept
import TaoDag.Dagvm.Mined
import TaoDag.Node.DagOpen
import TaoDag.Node.Miner

namespace TaoDag

open Consensus (BlockHeader BlockId ChainState DagBlock DifficultyParams)
open TaoDag.Runtime (Bank BankM Env transferEnv)

/-- Rewards that never rise and stay below the sum of the halving schedule. -/
structure Capped (R H : Nat) (rewards : List Nat) : Prop where
  nonincreasing : rewards.Pairwise (· ≥ ·)
  total : rewards.sum ≤ 2 * R * H

/-- Each interval pays at most half of what the one before it paid. -/
theorem sum_halvings_le (R : Nat) {H : Nat} (hH : 0 < H) (n : Nat) :
    ∑ h ∈ Finset.range n, R / 2^(h / H) ≤ 2 * R * H := by
  have hgroup : ∀ q, ∑ h ∈ Finset.range (q * H), R / 2^(h / H) =
      H * ∑ j ∈ Finset.range q, R / 2^j := by
    intro q
    induction q with
    | zero => simp
    | succ q ih =>
      have hlast : ∑ i ∈ Finset.range H, R / 2^((q * H + i) / H) = H * (R / 2^q) := by
        rw [Finset.sum_congr rfl (g := fun _ => R / 2^q), Finset.sum_const, Finset.card_range,
          smul_eq_mul]
        intro i hi
        have hdiv : (q * H + i) / H = q := by
          rw [Nat.mul_comm, Nat.mul_add_div hH, Nat.div_eq_of_lt (Finset.mem_range.mp hi)]
          rfl
        rw [hdiv]
      rw [Nat.succ_mul, Finset.sum_range_add, ih, hlast, Finset.sum_range_succ, Nat.mul_add]
  have hle : n ≤ n * H := Nat.le_mul_of_pos_right n hH
  calc ∑ h ∈ Finset.range n, R / 2^(h / H)
      ≤ ∑ h ∈ Finset.range (n * H), R / 2^(h / H) :=
        Finset.sum_le_sum_of_subset (Finset.range_mono hle)
    _ = H * ∑ j ∈ Finset.range n, R / 2^j := hgroup n
    _ ≤ H * (R * 2 / (2 - 1)) := Nat.mul_le_mul_left H (Nat.geom_sum_le le_rfl R n)
    _ = 2 * R * H := by
        rw [Nat.div_one]
        ring

/-- The halving schedule of the heights 1 to `n`. -/
theorem capped_halvings (R : Nat) {H : Nat} (hH : 0 < H) (n : Nat) :
    Capped R H ((List.range' 1 n).map fun h => R / 2^(h / H)) where
  nonincreasing := by
    refine List.Pairwise.map _ (fun i j hij => ?_) (List.pairwise_lt_range' ..)
    exact Nat.div_le_div_left (Nat.pow_le_pow_right Nat.two_pos (Nat.div_le_div_right hij.le))
      (Nat.two_pow_pos _)
  total := by
    refine le_trans ?_ (sum_halvings_le R hH (n + 1))
    induction n with
    | zero => simp
    | succ n ih =>
      rw [List.range'_1_concat, List.map_append, List.sum_append, Finset.sum_range_succ]
      simp only [List.map_singleton, List.sum_singleton]
      rw [Nat.add_comm 1 n]
      omega

namespace Consensus.ChainState

variable {blake3 : Bytes → Hash} {genesis : BlockHeader} {c : ChainState}

/-- The heights on a path from the genesis are consecutive. -/
theorem Inv.path_heights (inv : Inv blake3 genesis c) {x : BlockId} {path : List BlockHeader}
    (hpath : c.Path x path) : path.map (fun h => h.height.toNat) = List.range path.length ∧
      ∃ e, c.blocks.lookup x = some e ∧ path.length = e.header.height.toNat + 1 := by
  induction hpath with
  | genesis he =>
    rw [inv.root] at he
    cases he
    have hheight := inv.isGenesis
    simp only [BlockHeader.isGenesis, Bool.and_eq_true, beq_iff_eq] at hheight
    refine ⟨?_, _, inv.root, ?_⟩
    · simp [hheight.1]
    · simp [hheight.1]
  | step he hne _ ih =>
    obtain ⟨hheights, parent, hparent, hlen⟩ := ih
    obtain ⟨parent', hparent', hx, _⟩ := inv.child he hne
    cases hparent.symm.trans hparent'
    have hheight := hx.height
    refine ⟨?_, _, he, ?_⟩
    · rw [List.map_append, hheights, List.length_append, List.length_singleton, List.range_succ,
        List.map_singleton, hheight, hlen]
    · rw [List.length_append, List.length_singleton, hlen, hheight]

end Consensus.ChainState

namespace Dagvm.DagChain

variable {Tx : Type} {env : Env Tx} {c c' : DagChain Tx}

/-- What a block of the order pays its miner. -/
def coinbase (c : DagChain Tx) (block : Hash) : BitVec 64 :=
  if block = c.genesisDag then 0 else c.reward

/-- A block pays its coinbase, then runs its transactions. -/
theorem replayBlock_coinbase {bank : Bank} {block : Hash} {header : Consensus.DagBlockHeader}
    (hheader : c.headers.lookup block = some header) :
    c.replayBlock env bank block =
      if block = c.genesisDag then return bank
      else replayTxs env (bank.airdrop env header.miner (c.coinbase block))
        ((c.blockTxs.lookup block).getD []) := by
  rw [replayBlock]
  by_cases hblock : block = c.genesisDag
  · rw [if_pos hblock, if_pos hblock]
  · rw [if_neg hblock, if_neg hblock, coinbase, if_neg hblock, replayCoinbase_eq hheader,
      pure_bind]

end Dagvm.DagChain

namespace Node

open Dagvm (DagChain)

variable {Tx : Type} {env : Env Tx}

/-- The execution of a block pays the reward of its height. -/
theorem executeOn_reward {g : GenesisConfig} {bank bank' : Bank} {header : BlockHeader}
    {txs : List Tx} {exec : Runtime.BlockExecution}
    (hrun : executeOn env g bank header txs = .ok (exec, bank')) :
    exec.reward = emission g header.height.toNat := by
  obtain ⟨⟨fees, outcomes, bank₁⟩, _, hrun⟩ := bind_eq_ok.mp hrun
  cases hrun
  rfl

theorem emission_toNat {g : GenesisConfig} (hH : g.halvingInterval ≠ 0) (height : Nat) :
    (emission g height).toNat = g.initialLamports.toNat / 2^(height / g.halvingInterval) := by
  rw [emission, if_neg hH]
  by_cases hlast : 64 ≤ height / g.halvingInterval
  · have hpow : 2^64 ≤ 2^(height / g.halvingInterval) := Nat.pow_le_pow_right Nat.two_pos hlast
    have hlt := g.initialLamports.isLt
    rw [if_pos hlast, Nat.div_eq_of_lt (by omega)]
    rfl
  · rw [if_neg hlast, BitVec.toNat_ushiftRight, Nat.shiftRight_eq_div_pow]

/-- What the blocks of a linear chain pay, genesis apart. -/
def minted (g : GenesisConfig) (path : List BlockHeader) : List Nat :=
  path.tail.map fun h => (emission g h.height.toNat).toNat

theorem minted_eq {blake3 : Bytes → Hash} {genesis : BlockHeader} {c : ChainState}
    (inv : ChainState.Inv blake3 genesis c) {g : GenesisConfig} (hH : g.halvingInterval ≠ 0)
    {x : BlockId} {path : List BlockHeader} (hpath : c.Path x path) :
    minted g path = (List.range' 1 (path.length - 1)).map fun h =>
      g.initialLamports.toNat / 2^(h / g.halvingInterval) := by
  have hheights := (inv.path_heights hpath).1
  have htail : path.tail.map (fun h => h.height.toNat) = List.range' 1 (path.length - 1) := by
    rw [List.map_tail, hheights, List.range_eq_range', List.tail_range']
  rw [← htail, List.map_map, minted]
  exact List.map_congr_left fun h _ => emission_toNat hH _

/-- What the first `n` blocks of an order pay, genesis apart. -/
def dagMinted (c : DagChain Tx) (order : List Hash) (n : Nat) : List Nat :=
  ((order.filter (· ≠ c.genesisDag)).take n).map fun b => (c.coinbase b).toNat

theorem dagMinted_eq (c : DagChain Tx) (order : List Hash) (n : Nat) :
    dagMinted c order n = List.replicate (dagMinted c order n).length c.reward.toNat := by
  refine List.eq_replicate_of_mem fun r hr => ?_
  obtain ⟨b, hb, rfl⟩ := List.mem_map.mp hr
  have hne := (List.mem_filter.mp (List.mem_of_mem_take hb)).2
  rw [DagChain.coinbase, if_neg (of_decide_eq_true hne)]

/-- A constant reward is below the cap for the first `2 * H` blocks. -/
theorem capped_replicate {R H n : Nat} :
    Capped R H (List.replicate n R) ↔ R = 0 ∨ n ≤ 2 * H := by
  constructor
  · intro h
    have htotal := h.total
    rw [List.sum_replicate, smul_eq_mul] at htotal
    by_cases hR : R = 0
    · exact Or.inl hR
    · refine Or.inr (Nat.le_of_mul_le_mul_right ?_ (Nat.pos_of_ne_zero hR))
      calc n * R ≤ 2 * R * H := htotal
        _ = 2 * H * R := by ring
  · intro h
    refine ⟨List.pairwise_replicate.mpr (Or.inr le_rfl), ?_⟩
    rw [List.sum_replicate, smul_eq_mul]
    rcases h with rfl | hn
    · simp
    · calc n * R ≤ 2 * H * R := Nat.mul_le_mul_right R hn
        _ = 2 * R * H := by ring

/-- A DAG pays the initial reward of its configuration for as long as it runs. -/
theorem dagOpen_reward {texts : TextFormats} {config : Consensus.GenesisConfig} {miner : String}
    {k : BitVec 16} {file : Bytes} {pk : Consensus.Pubkey} {c₀ c : DagChain Tx}
    (hopen : dagOpen env texts config miner k file = .ok (.ok (c₀, pk)))
    (hrun : DagChain.Reaches env (fun _ _ => True) c₀ c) :
    c.reward = config.reward.initialLamports := by
  obtain ⟨p, hp, hopen⟩ := dagOpen_ok hopen
  have hreward : c.reward = p.reward :=
    congrArg DagChain.Network.reward (DagChain.network_of_reaches hopen hrun)
  rw [hreward]
  obtain ⟨_, _, hp⟩ := bind_eq_ok.mp hp
  obtain ⟨_, _, hp⟩ := bind_eq_ok.mp hp
  obtain ⟨_, _, hp⟩ := bind_eq_ok.mp hp
  cases hp
  rfl

/-- The linear node and the DAG read one emission schedule. -/
structure SameReward (g : GenesisConfig) (config : Consensus.GenesisConfig) : Prop where
  initial : g.initialLamports = config.reward.initialLamports
  interval : g.halvingInterval = config.reward.halvingInterval.toNat

/-- On every linear chain the rewards fall and stay below the cap. On a DAG they never fall: the cap
holds as long as the DAG pays nothing, or orders no more than two intervals of blocks. -/
theorem supply_capped_iff {config : Consensus.GenesisConfig}
    (hH : config.reward.halvingInterval ≠ 0) :
    (∀ {g params pow calls stored c}, SameReward g config →
      ChainState.Run env.blake3 (genesisHeader g) params pow calls stored c →
      ∀ {x path}, c.Path x path → Capped config.reward.initialLamports.toNat
        config.reward.halvingInterval.toNat (minted g path)) ∧
    (∀ {texts miner k file pk} {c₀ c : DagChain Tx},
      dagOpen env texts config miner k file = .ok (.ok (c₀, pk)) →
      DagChain.Reaches env (fun _ _ => True) c₀ c →
      ∀ {order}, c.totalOrder = .ok order → ∀ n,
        (Capped config.reward.initialLamports.toNat config.reward.halvingInterval.toNat
          (dagMinted c order n) ↔ config.reward.initialLamports.toNat = 0 ∨
            (dagMinted c order n).length ≤ 2 * config.reward.halvingInterval.toNat)) := by
  have hpos : 0 < config.reward.halvingInterval.toNat := by
    refine Nat.pos_of_ne_zero fun hzero => hH ?_
    exact BitVec.eq_of_toNat_eq hzero
  refine ⟨fun {g params pow calls stored c} hsame hrun {x path} hpath => ?_,
    fun {texts miner k file pk c₀ c} hopen hrun {order} _ n => ?_⟩
  · have hinterval : g.halvingInterval ≠ 0 := by
      rw [hsame.interval]
      exact Nat.pos_iff_ne_zero.mp hpos
    rw [minted_eq hrun.reached.toInv hinterval hpath, hsame.initial, hsame.interval]
    exact capped_halvings _ hpos _
  · rw [dagMinted_eq, dagOpen_reward hopen hrun, capped_replicate, List.length_replicate]

section Example

open TaoDag.Runtime (Transaction)

/-- A network that pays one lamport, and halves it after each block. -/
def halvingConfig : Consensus.GenesisConfig := { fixedConfig with reward := ⟨1, 1⟩ }

/-- The linear node of that network. -/
def linearHalving : GenesisConfig where
  creationTime := halvingConfig.creationTime
  targetBlockTimeSecs := 10
  lwmaWindow := 2
  initialTarget := BitVec.allOnes 256
  initialLamports := 1
  halvingInterval := 1
  allocations := []
  commitment := 0

/-- The first block of that node. -/
def linearChild : BlockHeader :=
  { genesisHeader linearHalving with
    prevHash := (genesisHeader linearHalving).id transferEnv.blake3
    height := 1
    timestamp := 1750000010 }

/-- A DAG of three blocks, each of which pays one lamport. -/
theorem halvingConfig_run : ∃ (c₀ c : DagChain Transaction) (pk : Consensus.Pubkey)
    (order : List Hash),
    dagOpen transferEnv fixedTexts halvingConfig systemAddress 3 [] = .ok (.ok (c₀, pk)) ∧
    DagChain.Reaches transferEnv (fun _ _ => True) c₀ c ∧ c.totalOrder = .ok order ∧
    dagMinted c order 3 = [1, 1, 1] := by
  have hrun : returnsWith (dagOpen transferEnv fixedTexts halvingConfig systemAddress 3 [])
      (fun o => returnsWith o fun r =>
        (r.1.acceptAll transferEnv 1750000500
            (r.1.mineAll transferEnv [1750000010, 1750000020, 1750000030])).any fun c =>
          returnsWith c.totalOrder fun order =>
            decide (dagMinted c order 3 = [1, 1, 1])) = true := by
    decide +kernel
  simp only [returnsWith_iff, Option.any_eq_true, decide_eq_true_eq] at hrun
  obtain ⟨_, hopen, ⟨c₀, pk⟩, rfl, c, haccept, order, horder, hminted⟩ := hrun
  have haccepts : DagChain.Accepts transferEnv c₀ ([] ++ _) c := .of_acceptAll .nil haccept
  exact ⟨c₀, c, pk, order, hopen, haccepts.reaches, horder, hminted⟩

/-- Two blocks are within the cap, on a linear chain and on a DAG. -/
theorem supply_capped_two : ∃ (c : DagChain Transaction) (order : List Hash)
    (linear : ChainState) (x : BlockId) (path : List BlockHeader),
    c.totalOrder = .ok order ∧ Capped 1 1 (dagMinted c order 2) ∧
    linear.Path x path ∧ Capped 1 1 (minted linearHalving path) := by
  obtain ⟨c₀, c, pk, order, hopen, hreach, horder, hminted⟩ := halvingConfig_run
  obtain ⟨hlinear, hdag⟩ := @supply_capped_iff _ transferEnv halvingConfig (by decide)
  have hlen : (dagMinted c order 2).length ≤ 2 := by
    rw [dagMinted, List.length_map]
    exact List.length_take_le ..
  have hrun : returnsWith (ChainState.new transferEnv.blake3 (genesisHeader linearHalving)
      ⟨10, 2⟩ fun _ => true) (fun linear =>
        returnsWith (linear.addHeader transferEnv.blake3 linearChild) fun r =>
          returnsWith r.1 fun _ =>
            (r.2.blocks.lookup r.2.genesis).any fun _ =>
              (r.2.blocks.lookup (linearChild.id transferEnv.blake3)).any fun e =>
                decide (linearChild.id transferEnv.blake3 ≠ r.2.genesis ∧
                  e.header.prevHash = r.2.genesis)) = true := by
    decide +kernel
  simp only [returnsWith_iff, Option.any_eq_true, decide_eq_true_eq] at hrun
  obtain ⟨linear, hnew, ⟨_, linear'⟩, hadd, status, rfl, root, hroot, e, he, hne, hparent⟩ := hrun
  have hpath : linear'.Path (linearChild.id transferEnv.blake3) ([root.header] ++ [e.header]) := by
    refine .step he hne ?_
    rw [hparent]
    exact .genesis hroot
  exact ⟨c, order, linear', _, _, horder, (hdag hopen hreach horder 2).mpr (Or.inr hlen), hpath,
    hlinear ⟨rfl, rfl⟩ (.accepted (.new hnew) hadd) hpath⟩

/-- The reward of a DAG does not halve: its third block passes the cap. -/
theorem supply_uncapped : ∃ (c₀ c : DagChain Transaction) (pk : Consensus.Pubkey)
    (order : List Hash),
    dagOpen transferEnv fixedTexts halvingConfig systemAddress 3 [] = .ok (.ok (c₀, pk)) ∧
    DagChain.Reaches transferEnv (fun _ _ => True) c₀ c ∧ c.totalOrder = .ok order ∧
    ¬Capped 1 1 (dagMinted c order 3) := by
  obtain ⟨c₀, c, pk, order, hopen, hreach, horder, hminted⟩ := halvingConfig_run
  refine ⟨c₀, c, pk, order, hopen, hreach, horder, fun h => ?_⟩
  have htotal := h.total
  rw [hminted] at htotal
  revert htotal
  decide

end Example

end Node

end TaoDag
