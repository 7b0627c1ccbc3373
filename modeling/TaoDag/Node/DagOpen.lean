import TaoDag.Consensus.Genesis
import TaoDag.Dagvm.Heaviest
import TaoDag.Dagvm.Replay

namespace TaoDag.Node

open Consensus (Allocation DagBlock Pubkey parseTarget)
open Dagvm (DagChain Params)
open TaoDag.Runtime (Env Transaction transferEnv)

variable {Tx : Type} {env : Env Tx} {g c c' : DagChain Tx}

/-- The third-party readers of the texts in a genesis file: hex digits and base58 addresses. -/
structure TextFormats where
  hexDecode : String → Except String Bytes
  pubkeyFromStr : String → Except String Pubkey

/-- An allocation with its address read. -/
def readAllocation (texts : TextFormats) (a : Allocation) : Except String (Pubkey × BitVec 64) :=
  ((texts.pubkeyFromStr a.address).map fun pk => (pk, a.lamports)).mapError fun e =>
    "bad allocation '" ++ a.address ++ "': " ++ e

/-- What `dag_open` passes to `open_with_genesis`. -/
def dagParams (blake3 : Bytes → Hash) (texts : TextFormats) (genesis : Consensus.GenesisConfig)
    (miner : String) (k : BitVec 16) : Except String Params := do
  let minerPubkey ← (texts.pubkeyFromStr miner).mapError fun e =>
    "invalid miner '" ++ miner ++ "': " ++ e
  let target ← (parseTarget texts.hexDecode genesis.pow.initialTarget).mapError fun e =>
    "bad genesis target: " ++ e
  let allocations ← genesis.allocations.mapM (readAllocation texts)
  return {
    k := k.toNat
    genesisTarget := target
    miner := minerPubkey
    reward := genesis.reward.initialLamports
    allocations
    blockTimeSecs := genesis.pow.targetBlockTimeSecs.toNat
    lwmaWindow := genesis.pow.lwmaWindow.toNat
    genesisCommitment := genesis.commitment blake3 }

/-- Opens the chain of a genesis configuration, for a miner, with the `k` of the command line,
over the bytes of its log. -/
def dagOpen (env : Env Tx) (texts : TextFormats) (genesis : Consensus.GenesisConfig) (miner : String)
    (k : BitVec 16) (file : Bytes) : Result (Except String (DagChain Tx × Pubkey)) :=
  match dagParams env.blake3 texts genesis miner k with
  | .error e => return .error e
  | .ok p => do
      match ← DagChain.openWithGenesis env p file with
      | .ok chain => return .ok (chain, p.miner)
      | .error e => return .error ("open dag chain: " ++ e)

/-- Two nodes with one configuration differ at most in their miner and their `k`. -/
theorem dagParams_agree {blake3 : Bytes → Hash} {texts : TextFormats} {genesis : Consensus.GenesisConfig}
    {miner₁ miner₂ : String} {k₁ k₂ : BitVec 16} {p₁ p₂ : Params}
    (h₁ : dagParams blake3 texts genesis miner₁ k₁ = .ok p₁)
    (h₂ : dagParams blake3 texts genesis miner₂ k₂ = .ok p₂) :
    p₂ = { p₁ with miner := p₂.miner, k := k₂.toNat } ∧ p₁.k = k₁.toNat := by
  obtain ⟨m₁, _, h₁⟩ := bind_eq_ok.mp h₁
  obtain ⟨t₁, ht₁, h₁⟩ := bind_eq_ok.mp h₁
  obtain ⟨a₁, ha₁, h₁⟩ := bind_eq_ok.mp h₁
  obtain ⟨m₂, _, h₂⟩ := bind_eq_ok.mp h₂
  obtain ⟨t₂, ht₂, h₂⟩ := bind_eq_ok.mp h₂
  obtain ⟨a₂, ha₂, h₂⟩ := bind_eq_ok.mp h₂
  rw [ht₁] at ht₂
  rw [ha₁] at ha₂
  cases ht₂
  cases ha₂
  cases h₁
  cases h₂
  exact ⟨rfl, rfl⟩

theorem dagParams_commitment {blake3 : Bytes → Hash} {texts : TextFormats}
    {genesis : Consensus.GenesisConfig} {miner : String} {k : BitVec 16} {p : Params}
    (h : dagParams blake3 texts genesis miner k = .ok p) :
    p.genesisCommitment = genesis.commitment blake3 := by
  obtain ⟨_, _, h⟩ := bind_eq_ok.mp h
  obtain ⟨_, _, h⟩ := bind_eq_ok.mp h
  obtain ⟨_, _, h⟩ := bind_eq_ok.mp h
  cases h
  rfl

theorem dagOpen_ok {texts : TextFormats} {genesis : Consensus.GenesisConfig} {miner : String}
    {k : BitVec 16} {pk : Pubkey} {file : Bytes}
    (h : dagOpen env texts genesis miner k file = .ok (.ok (c, pk))) :
    ∃ p, dagParams env.blake3 texts genesis miner k = .ok p ∧
      DagChain.openWithGenesis env p file = .ok (.ok c) := by
  rw [dagOpen] at h
  cases hp : dagParams env.blake3 texts genesis miner k with
  | error e =>
    rw [hp] at h
    cases h
  | ok p =>
    rw [hp] at h
    obtain ⟨o, hopen, h⟩ := bind_eq_ok.mp h
    cases o with
    | error e => cases h
    | ok chain =>
      cases h
      exact ⟨p, rfl, hopen⟩

/-- The byte strings that are hashed when a chain is opened. -/
def openingStrings (genesis : Consensus.GenesisConfig) (c : DagChain Tx) : Set Bytes :=
  {bytes | bytes = Consensus.GenesisConfig.codec.encode genesis ∨
    ∃ header, c.headers.lookup c.genesisDag = some header ∧ bytes = header.serialize}

/-- What a node that has only accepted blocks pays, and what it starts from. -/
theorem accepts_rewards {bs : List DagBlock} {p : Params} {log : Database.BlockLog}
    (hg : DagChain.genesis env p log = .ok g) (h : DagChain.Accepts env g bs c) :
    c.reward = p.reward ∧ c.allocations = p.allocations ∧ c.baseAccounts = none := by
  induction h with
  | nil =>
    obtain ⟨engine, _, hg⟩ := bind_eq_ok.mp hg
    cases hg
    exact ⟨rfl, rfl, rfl⟩
  | snoc _ run ih =>
    rcases DagChain.accept_ok_cases run with ⟨_, rfl⟩ | ⟨_, log, engine, txs, _, rfl⟩
    · exact ih
    · exact ih

/-- One genesis id comes from one configuration. -/
theorem genesis_id_determines_config {texts : TextFormats} {config₁ config₂ : Consensus.GenesisConfig}
    {miner₁ miner₂ : String} {k₁ k₂ : BitVec 16} {p₁ p₂ : Params} {g₁ g₂ : DagChain Tx}
    (hfits₁ : config₁.Fits) (hfits₂ : config₂.Fits)
    (hp₁ : dagParams env.blake3 texts config₁ miner₁ k₁ = .ok p₁)
    (hp₂ : dagParams env.blake3 texts config₂ miner₂ k₂ = .ok p₂)
    (hg₁ : DagChain.HoldsBlocks env p₁ [] g₁) (hg₂ : DagChain.HoldsBlocks env p₂ [] g₂)
    (hfree : Set.InjOn env.blake3 (openingStrings config₁ g₁ ∪ openingStrings config₂ g₂))
    (hid : g₁.genesisDag = g₂.genesisDag) : config₁ = config₂ := by
  have hids : (Dagvm.genesisHeader p₁).id env.blake3 = (Dagvm.genesisHeader p₂).id env.blake3 := by
    rw [← hg₁.genesisDag, ← hg₂.genesisDag, hid]
  have hserial : (Dagvm.genesisHeader p₁).serialize = (Dagvm.genesisHeader p₂).serialize :=
    hfree (Or.inl (Or.inr ⟨_, hg₁.genesis, rfl⟩)) (Or.inr (Or.inr ⟨_, hg₂.genesis, rfl⟩)) hids
  have hheader : Dagvm.genesisHeader p₁ = Dagvm.genesisHeader p₂ :=
    Consensus.DagBlockHeader.serialize_inj ⟨by simp [Dagvm.genesisHeader], by simp [Dagvm.genesisHeader]⟩
      ⟨by simp [Dagvm.genesisHeader], by simp [Dagvm.genesisHeader]⟩ hserial
  have hroot : p₁.genesisCommitment = p₂.genesisCommitment := congrArg (·.stateRoot) hheader
  rw [dagParams_commitment hp₁, dagParams_commitment hp₂] at hroot
  refine Consensus.GenesisConfig.commitment_inj hfits₁ hfits₂ (hfree.mono ?_) hroot
  rintro bytes (rfl | rfl)
  · exact Or.inl (Or.inl rfl)
  · exact Or.inr (Or.inl rfl)

/-- Equal genesis ids mean one configuration: two nodes that have accepted the same blocks pay the
same coinbases and start from the same balances. With one `k` they also colour, order and judge
blocks alike. -/
theorem equal_genesis_agree {texts : TextFormats} {config₁ config₂ : Consensus.GenesisConfig}
    {miner₁ miner₂ : String} {k₁ k₂ : BitVec 16} {pk₁ pk₂ : Pubkey} {g₁ g₂ c₁ c₂ : DagChain Tx}
    {bs₁ bs₂ : List DagBlock} (hfits₁ : config₁.Fits) (hfits₂ : config₂.Fits)
    (hopen₁ : dagOpen env texts config₁ miner₁ k₁ [] = .ok (.ok (g₁, pk₁)))
    (hopen₂ : dagOpen env texts config₂ miner₂ k₂ [] = .ok (.ok (g₂, pk₂)))
    (hfree : Set.InjOn env.blake3 (openingStrings config₁ g₁ ∪ openingStrings config₂ g₂))
    (hid : g₁.genesisDag = g₂.genesisDag) (h₁ : DagChain.Accepts env g₁ bs₁ c₁)
    (h₂ : DagChain.Accepts env g₂ bs₂ c₂) (hsame : ∀ b, b ∈ bs₁ ↔ b ∈ bs₂)
    (hblocks : DagChain.CollisionFree env.blake3 bs₁) :
    (∀ bank block, c₁.replayCoinbase env bank block = c₂.replayCoinbase env bank block) ∧
    c₁.seedAccounts env = c₂.seedAccounts env ∧
    (k₁ = k₂ → DagChain.Converged env c₁ c₂) := by
  obtain ⟨p₁, hp₁, ho₁⟩ := dagOpen_ok hopen₁
  obtain ⟨p₂, hp₂, ho₂⟩ := dagOpen_ok hopen₂
  have hg₁ := DagChain.genesis_of_open_nil ho₁
  have hg₂ := DagChain.genesis_of_open_nil ho₂
  obtain rfl : config₁ = config₂ := genesis_id_determines_config hfits₁ hfits₂ hp₁ hp₂
    (DagChain.genesis_holdsBlocks hg₁) (DagChain.genesis_holdsBlocks hg₂) hfree hid
  obtain ⟨hp, hk₁⟩ := dagParams_agree hp₁ hp₂
  have hheader : Dagvm.genesisHeader p₁ = Dagvm.genesisHeader p₂ := by rw [hp]; rfl
  have hd₁ := h₁.holdsBlocks hg₁
  have hd₂ := h₂.holdsBlocks hg₂
  obtain ⟨_, hheaders⟩ := hd₁.headers_eq hd₂ hheader hsame hblocks
  obtain ⟨hreward₁, halloc₁, hbase₁⟩ := accepts_rewards hg₁ h₁
  obtain ⟨hreward₂, halloc₂, hbase₂⟩ := accepts_rewards hg₂ h₂
  have hreward : c₁.reward = c₂.reward := by rw [hreward₁, hreward₂, hp]
  have halloc : c₁.allocations = c₂.allocations := by rw [halloc₁, halloc₂, hp]
  refine ⟨fun bank block => ?_, ?_, fun hk => ?_⟩
  · rw [DagChain.replayCoinbase, DagChain.replayCoinbase, hreward, hheaders]
  · rw [DagChain.seedAccounts, DagChain.seedAccounts, hbase₁, hbase₂, halloc]
  · have hk' : p₁.k = p₂.k := by rw [hk₁, hk, hp]
    have hd₁' : DagChain.HoldsBlocks env p₂ bs₁ c₁ :=
      hd₁.congr hk' hheader (by rw [hp]) (by rw [hp]) (by rw [hp])
    exact (hd₁'.mirrors hd₂ hsame hblocks).converged

theorem openingStrings_injOn {config : Consensus.GenesisConfig} {g₁ g₂ : DagChain Tx}
    {header : Consensus.DagBlockHeader} (h₁ : g₁.headers.lookup g₁.genesisDag = some header)
    (h₂ : g₂.headers.lookup g₂.genesisDag = some header)
    (hne : env.blake3 (Consensus.GenesisConfig.codec.encode config) ≠ header.id env.blake3) :
    Set.InjOn env.blake3 (openingStrings config g₁ ∪ openingStrings config g₂) := by
  have htwo : ∀ bytes ∈ openingStrings config g₁ ∪ openingStrings config g₂,
      bytes = Consensus.GenesisConfig.codec.encode config ∨ bytes = header.serialize := by
    rintro bytes ((h | ⟨hd, hhd, h⟩) | h | ⟨hd, hhd, h⟩)
    · exact Or.inl h
    · rw [h₁] at hhd
      cases hhd
      exact Or.inr h
    · exact Or.inl h
    · rw [h₂] at hhd
      cases hhd
      exact Or.inr h
  intro x hx y hy hxy
  rcases htwo x hx with rfl | rfl
  · rcases htwo y hy with rfl | rfl
    · rfl
    · exact absurd hxy hne
  · rcases htwo y hy with rfl | rfl
    · exact absurd hxy.symm hne
    · rfl

/-- A network at the easiest difficulty, which is held fixed. -/
def fixedConfig : Consensus.GenesisConfig where
  network := "tao-devnet"
  creationTime := 1750000000
  pow :=
    { targetBlockTimeSecs := 10
      lwmaWindow := BitVec.allOnes 64
      initialTarget := "ffffffffffffffffffffffffffffffffffffffffffffffffffffffffffffffff"
      algorithm := "blake3"
      switchHeight := none }
  reward := ⟨1000000000, 2100000⟩
  allocations := []
  pouw := none

/-- The texts of `fixedConfig` as they are read, and the address of 32 zero bytes. -/
def fixedTexts : TextFormats where
  hexDecode := fun _ => .ok (List.replicate 32 255)
  pubkeyFromStr := fun _ => .ok 0

def systemAddress : String := "11111111111111111111111111111111"

/-- Three siblings, the block that merges them, and a branch of three blocks beside it. -/
def siblingsAndBranch (c : DagChain Transaction) : List DagBlock :=
  let siblings := [1750000010, 1750000020, 1750000030].flatMap fun t => c.mineAll transferEnv [t]
  let merging := match c.acceptAll transferEnv 1750000500 siblings with
    | some c => c.mineAll transferEnv [1750000040]
    | none => []
  siblings ++ merging ++ c.mineAll transferEnv [1750000050, 1750000060, 1750000070]

/-- The id of the merging block. -/
def mergingBlock : Hash := 0xaa892950779fafca1f138e131fbc7f048f629a5a5015d899987e1d5a03e6605c

theorem fixedConfig_fits : fixedConfig.Fits := by
  have htext : ∀ text ∈ [fixedConfig.network, fixedConfig.pow.initialTarget,
      fixedConfig.pow.algorithm], Codec.string.Fits text := by
    change ∀ text : String, text ∈ _ → text.toByteArray.data.toList.length < 2^64
    decide +kernel
  exact ⟨htext _ (by simp), trivial, ⟨trivial, trivial, htext _ (by simp), htext _ (by simp), nofun⟩,
    ⟨trivial, trivial⟩, ⟨by decide, nofun⟩, nofun⟩

/-- One configuration and one `k`, the blocks in two orders. -/
theorem equal_genesis_agree_reordered : ∃ c₁ c₂ : DagChain Transaction,
    c₁.engine.tip = mergingBlock ∧ DagChain.Converged transferEnv c₁ c₂ := by
  have hrun : returnsWith (dagOpen transferEnv fixedTexts fixedConfig systemAddress 3 []) (fun o =>
      returnsWith o fun r =>
        (r.1.headers.lookup r.1.genesisDag).any fun header =>
          let bs := siblingsAndBranch r.1
          decide (transferEnv.blake3 (Consensus.GenesisConfig.codec.encode fixedConfig) ≠
              header.id transferEnv.blake3 ∧
            ∀ b ∈ bs, ∀ b' ∈ bs, b.id transferEnv.blake3 = b'.id transferEnv.blake3 →
              b.header = b'.header) &&
          (r.1.acceptAll transferEnv 1750000500 bs).any fun c₁ =>
            (r.1.acceptAll transferEnv 1750000500 (bs.drop 4 ++ bs.take 4)).any fun c₂ =>
              decide (c₁.engine.tip = mergingBlock ∧ c₂.engine.tip = mergingBlock)) = true := by
    decide +kernel
  simp only [returnsWith_iff, Option.any_eq_true, Bool.and_eq_true, decide_eq_true_eq] at hrun
  obtain ⟨_, hopen, ⟨g, pk⟩, rfl, header, hheader, ⟨hne, hfree⟩, c₁, hc₁, c₂, hc₂, htip, _⟩ := hrun
  have hsame : ∀ b, b ∈ siblingsAndBranch g ↔
      b ∈ (siblingsAndBranch g).drop 4 ++ (siblingsAndBranch g).take 4 := by
    intro b
    rw [List.mem_append, or_comm, ← List.mem_append, List.take_append_drop]
  have hagree := equal_genesis_agree fixedConfig_fits fixedConfig_fits hopen hopen
    (openingStrings_injOn hheader hheader hne) rfl (.of_acceptAll .nil hc₁) (.of_acceptAll .nil hc₂)
    hsame hfree
  exact ⟨c₁, c₂, htip, hagree.2.2 rfl⟩

/-- The `k` of the command line is not committed: two nodes with one genesis id accept the same
blocks, and colour the block that merges three siblings, and order the DAG, in two ways. -/
theorem equal_genesis_colours_apart : ∃ (g₁ g₂ c₁ c₂ : DagChain Transaction) (bs : List DagBlock),
    dagOpen transferEnv fixedTexts fixedConfig systemAddress 1 [] = .ok (.ok (g₁, 0)) ∧
    dagOpen transferEnv fixedTexts fixedConfig systemAddress 3 [] = .ok (.ok (g₂, 0)) ∧
    Set.InjOn transferEnv.blake3 (openingStrings fixedConfig g₁ ∪ openingStrings fixedConfig g₂) ∧
    g₁.genesisDag = g₂.genesisDag ∧ DagChain.CollisionFree transferEnv.blake3 bs ∧
    DagChain.Accepts transferEnv g₁ bs c₁ ∧ DagChain.Accepts transferEnv g₂ bs c₂ ∧
    c₁.engine.gd.lookup mergingBlock ≠ c₂.engine.gd.lookup mergingBlock ∧
    c₁.totalOrder ≠ c₂.totalOrder := by
  have hrun : returnsWith (dagOpen transferEnv fixedTexts fixedConfig systemAddress 1 []) (fun o₁ =>
      returnsWith o₁ fun r₁ =>
        returnsWith (dagOpen transferEnv fixedTexts fixedConfig systemAddress 3 []) fun o₂ =>
          returnsWith o₂ fun r₂ =>
            (r₁.1.headers.lookup r₁.1.genesisDag).any fun header =>
              let bs := siblingsAndBranch r₁.1
              decide (r₁.2 = 0 ∧ r₂.2 = 0 ∧ r₂.1.headers.lookup r₂.1.genesisDag = some header ∧
                transferEnv.blake3 (Consensus.GenesisConfig.codec.encode fixedConfig) ≠
                  header.id transferEnv.blake3 ∧
                r₁.1.genesisDag = r₂.1.genesisDag ∧
                ∀ b ∈ bs, ∀ b' ∈ bs, b.id transferEnv.blake3 = b'.id transferEnv.blake3 →
                  b.header = b'.header) &&
              (r₁.1.acceptAll transferEnv 1750000500 bs).any fun c₁ =>
                (r₂.1.acceptAll transferEnv 1750000500 bs).any fun c₂ =>
                  decide ((c₁.engine.gd.lookup mergingBlock).map (·.mergesetBlues.length) ≠
                    (c₂.engine.gd.lookup mergingBlock).map (·.mergesetBlues.length)) &&
                  returnsWith c₁.totalOrder (fun order => decide (order.length = 4)) &&
                  returnsWith c₂.totalOrder (fun order => decide (order.length = 5))) = true := by
    decide +kernel
  simp only [returnsWith_iff, Option.any_eq_true, Bool.and_eq_true, decide_eq_true_eq] at hrun
  obtain ⟨_, hopen₁, ⟨g₁, _⟩, rfl, _, hopen₂, ⟨g₂, _⟩, rfl, header, hheader₁,
    ⟨rfl, rfl, hheader₂, hne, hid, hfree⟩, c₁, hc₁, c₂, hc₂, ⟨hblues, order₁, horder₁, hlen₁⟩,
    order₂, horder₂, hlen₂⟩ := hrun
  have haccepts₁ : DagChain.Accepts transferEnv g₁ ([] ++ siblingsAndBranch g₁) c₁ :=
    .of_acceptAll .nil hc₁
  have haccepts₂ : DagChain.Accepts transferEnv g₂ ([] ++ siblingsAndBranch g₁) c₂ :=
    .of_acceptAll .nil hc₂
  refine ⟨g₁, g₂, c₁, c₂, siblingsAndBranch g₁, hopen₁, hopen₂,
    openingStrings_injOn hheader₁ hheader₂ hne, hid, hfree, haccepts₁, haccepts₂, fun hsame => hblues (congrArg _ hsame), fun hsame => ?_⟩
  rw [horder₁, horder₂] at hsame
  cases hsame
  rw [hlen₁] at hlen₂
  cases hlen₂

end TaoDag.Node
