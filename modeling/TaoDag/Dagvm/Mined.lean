import TaoDag.Dagvm.Unpruned

namespace TaoDag.Dagvm

open Consensus (DagBlock DagBlockHeader Target)
open Database (AppendFault BlockLog)
open Ghostdag (DagEngine SortableBlock)
open TaoDag.Runtime (Env)

/-- The genesis block. -/
def genesisBlock (p : Params) : DagBlock := ⟨genesisHeader p, []⟩

namespace DagChain

variable {Tx : Type} {env : Env Tx} {p : Params} {c c' d d₁ d₂ : DagChain Tx} {block : DagBlock}
  {tried tried₁ tried₂ : List DagBlock} {txs : List Tx} {timestamp : BitVec 64}

/-- Unpruned chains with the same blocks agree on them, whatever else their engines hold. -/
theorem Unpruned.akin (h₁ : Unpruned env p tried₁ d₁) (h₂ : Unpruned env p tried₂ d₂)
    (hblocks : d₁.blocks = d₂.blocks) (hfree : CollisionFree env.blake3 (tried₁ ++ tried₂)) :
    Akin env d₁ d₂ := by
  have hgen : d₁.genesisDag = d₂.genesisDag := h₁.genesisDag.trans h₂.genesisDag.symm
  have hsame : ∀ b₁ ∈ tried₁, ∀ b₂ ∈ tried₂, b₁.id env.blake3 = b₂.id env.blake3 →
      b₁.header = b₂.header := fun b₁ hb₁ b₂ hb₂ =>
    hfree b₁ (List.mem_append_left _ hb₁) b₂ (List.mem_append_right _ hb₂)
  have hgrown₁ := h₁.anchored.rooted.grown
  have hgrown₂ := h₂.anchored.rooted.grown
  have hroot₁ := hgrown₁.recorded.2
  have hroot₂ := hgrown₂.recorded.2
  rw [← hgen] at hroot₂
  rw [← hgen, h₂.k, ← h₁.k] at hgrown₂
  refine ⟨h₁.anchored, h₂.anchored, hgrown₁.consistent hgrown₂ fun {x ps₁ ps₂} hx₁ hx₂ => ?_, hgen,
    h₁.genesisTarget.trans h₂.genesisTarget.symm, h₁.blockTimeSecs.trans h₂.blockTimeSecs.symm,
    h₁.lwmaWindow.trans h₂.lwmaWindow.symm, fun x hx₁ hx₂ => ?_⟩
  · by_cases hx : x = d₁.genesisDag
    · rw [hx] at hx₁ hx₂
      rw [Ghostdag.DagEngine.Ready.parents_of_lookup hx₁] at hroot₁
      rw [Ghostdag.DagEngine.Ready.parents_of_lookup hx₂] at hroot₂
      exact hroot₁.trans hroot₂.symm
    · obtain ⟨b₁, hb₁, hid₁, hps₁, _⟩ := h₁.relations hx₁ hx
      obtain ⟨b₂, hb₂, hid₂, hps₂, _⟩ := h₂.relations hx₂ (hgen ▸ hx)
      rw [← hps₁, ← hps₂, hsame b₁ hb₁ b₂ hb₂ (hid₁.trans hid₂.symm)]
      exact engineParents_congr hgen hblocks
  · by_cases hx : x = d₁.genesisDag
    · rw [hx, h₁.root, hgen, h₂.root]
    · obtain ⟨hd₁, hl₁⟩ := (h₁.anchored.headers x).mp hx₁
      obtain ⟨hd₂, hl₂⟩ := (h₂.anchored.headers x).mp hx₂
      obtain ⟨⟨b₁, hb₁, hid₁, hh₁⟩, _⟩ := h₁.headers hl₁ hx
      obtain ⟨⟨b₂, hb₂, hid₂, hh₂⟩, _⟩ := h₂.headers hl₂ (hgen ▸ hx)
      rw [hl₁, hl₂, ← hh₁, ← hh₂, hsame b₁ hb₁ b₂ hb₂ (hid₁.trans hid₂.symm)]

theorem grind_spec {target : Target} {fuel : Nat} {header header' : DagBlockHeader}
    (h : grind env target fuel header = .ok header') :
    Consensus.meetsTarget (header'.id env.blake3) target ∧
      ∃ nonce, header' = { header with nonce } := by
  induction fuel generalizing header with
  | zero => cases h
  | succ fuel ih =>
    rw [grind] at h
    by_cases hmeets : Consensus.meetsTarget (header.id env.blake3) target
    · rw [if_pos hmeets] at h
      cases h
      exact ⟨hmeets, _, rfl⟩
    · rw [if_neg hmeets] at h
      obtain ⟨hlast, nonce, rfl⟩ := ih h
      exact ⟨hlast, nonce, rfl⟩

/-- The bytes of a transaction in a built block: none when it cannot be serialized. -/
def txBytes (env : Env Tx) (tx : Tx) : Bytes :=
  match env.encodeTx tx with
  | .ok bytes => bytes
  | .error _ => []

/-- A block built on the tips of a chain. -/
structure Built (env : Env Tx) (c : DagChain Tx) (txs : List Tx) (timestamp : BitVec 64)
    (block : DagBlock) : Prop where
  transactions : block.transactions = txs.map (txBytes env)
  parents : block.header.parents = c.buildParents
  time : block.header.timestamp = timestamp
  root : Consensus.txMerkleRoot env.blake3 block.transactions = block.header.txMerkleRoot
  target : c.nextTarget = .ok block.header.target
  interlink : block.header.interlink = c.interlinkForParent c.engine.tip
  work : Consensus.meetsTarget (block.header.id env.blake3) block.header.target

theorem buildBlockAt_spec (h : c.buildBlockAt env txs timestamp = .ok block) :
    Built env c txs timestamp block := by
  obtain ⟨target, htarget, h⟩ := bind_eq_ok.mp h
  obtain ⟨header, hgrind, h⟩ := bind_eq_ok.mp h
  cases h
  obtain ⟨hmeets, nonce, rfl⟩ := grind_spec hgrind
  exact ⟨rfl, rfl, rfl, rfl, htarget, rfl, hmeets⟩

theorem mineAt_spec {io : Option AppendFault} {r : Except String DagBlock}
    (h : c.mineAt env io txs timestamp = .ok (r, c')) :
    ∃ block, Built env c txs timestamp block ∧ ∃ v, c.appendAndApply env io block = .ok (v, c') ∧
      r = v.map fun _ => block := by
  obtain ⟨block, hbuild, h⟩ := bind_eq_ok.mp h
  obtain ⟨⟨v, d⟩, happly, h⟩ := bind_eq_ok.mp h
  refine ⟨block, buildBlockAt_spec hbuild, v, ?_⟩
  cases v with
  | ok u =>
    cases h
    exact ⟨happly, rfl⟩
  | error e =>
    cases h
    exact ⟨happly, rfl⟩

/-- The tips, and the heaviest block of the engine when there are too many tips. -/
theorem mem_buildParents {q : Hash} (hq : q ∈ c.buildParents) : q ∈ c.tips ∨ q = c.engine.tip := by
  rw [buildParents] at hq
  by_cases hmany : maxParents < c.tips.length
  · rw [if_pos hmany] at hq
    rcases List.mem_cons.mp hq with rfl | hq
    · exact Or.inr rfl
    · exact Or.inl (List.mem_filter.mp (List.mem_of_mem_take hq)).1
  · rw [if_neg hmany] at hq
    exact Or.inl hq

theorem buildParents_length : c.buildParents.length ≤ maxParents := by
  rw [buildParents]
  by_cases hmany : maxParents < c.tips.length
  · rw [if_pos hmany, List.length_cons, List.length_take]
    have hpos : 0 < maxParents := by decide
    omega
  · rw [if_neg hmany]
    omega

theorem buildParents_nodup (h : c.tips.Nodup) : c.buildParents.Nodup := by
  rw [buildParents]
  by_cases hmany : maxParents < c.tips.length
  · rw [if_pos hmany, List.nodup_cons]
    refine ⟨fun hmem => ?_, (List.take_sublist _ _).nodup (h.filter _)⟩
    have hne := (List.mem_filter.mp (List.mem_of_mem_take hmem)).2
    simp at hne
  · rw [if_neg hmany]
    exact h

/-- One of the tips is always among the parents. -/
theorem exists_tip_mem_buildParents (h : c.tips ≠ []) (hnodup : c.tips.Nodup) :
    ∃ q ∈ c.buildParents, q ∈ c.tips := by
  rw [buildParents]
  by_cases hmany : maxParents < c.tips.length
  · rw [if_pos hmany]
    have hlong : 1 ≤ (c.tips.filter (· ≠ c.engine.tip)).length := by
      have hsplit := List.length_eq_length_filter_add (l := c.tips) (· ≠ c.engine.tip)
      have hone : (c.tips.filter fun q => !decide (q ≠ c.engine.tip)).length ≤ 1 := by
        have hsame : (c.tips.filter fun q => !decide (q ≠ c.engine.tip)) =
            c.tips.filter (· == c.engine.tip) := List.filter_congr fun q _ => by simp [beq_eq_decide]
        rw [hsame, ← List.count_eq_length_filter]
        exact List.nodup_iff_count_le_one.mp hnodup c.engine.tip
      have htwo : 2 ≤ maxParents := by decide
      omega
    obtain ⟨q, rest, hrest⟩ : ∃ q rest, c.tips.filter (· ≠ c.engine.tip) = q :: rest :=
      List.exists_cons_of_length_pos hlong
    refine ⟨q, ?_, (List.mem_filter.mp (hrest ▸ List.mem_cons_self)).1⟩
    rw [hrest]
    exact List.mem_cons_of_mem _ List.mem_cons_self
  · rw [if_neg hmany]
    obtain ⟨q, hq⟩ := List.exists_mem_of_ne_nil _ h
    exact ⟨q, hq, hq⟩

/-- What the context-free checks ask of a block. -/
theorem validateBlockIntrinsic_iff {now : Int} :
    validateBlockIntrinsic env now block = .ok () ↔
      Consensus.meetsTarget (block.header.id env.blake3) block.header.target ∧
      block.header.parents ≠ [] ∧ block.header.parents.length ≤ maxParents ∧
      block.header.parents.Nodup ∧ block.transactions.length ≤ maxBlockTxs ∧
      (block.transactions.map List.length).sum ≤ maxBlockTxBytes ∧
      Consensus.txMerkleRoot env.blake3 block.transactions = block.header.txMerkleRoot ∧
      block.header.timestamp.toInt ≤ min (now + maxTimestampDriftSecs) Consensus.i64Max := by
  simp only [validateBlockIntrinsic, List.isEmpty_iff]
  constructor
  · intro h
    split_ifs at h with hpow hnil hmany hdup htxs hbytes hroot hlate
    exact ⟨hpow, hnil, Nat.not_lt.mp hmany, hdup, Nat.not_lt.mp htxs, Nat.not_lt.mp hbytes,
      not_not.mp hroot, Int.not_lt.mp hlate⟩
  · rintro ⟨hpow, hnil, hmany, hdup, htxs, hbytes, hroot, hlate⟩
    rw [if_neg (not_not.mpr hpow), if_neg hnil, if_neg (Nat.not_lt.mpr hmany),
      if_neg (not_not.mpr hdup), if_neg (Nat.not_lt.mpr htxs), if_neg (Nat.not_lt.mpr hbytes),
      if_neg (not_not.mpr hroot), if_neg (Int.not_lt.mpr hlate)]

/-- What the checks against the chain ask of a block whose parents are known. -/
theorem checkContext_iff {sp : Hash} {h : DagBlockHeader}
    (hps : ∀ q ∈ block.header.parents, q ∈ c.blocks)
    (hsp : c.selectedParentDag block.header.parents = .ok sp) (hh : c.headers.lookup sp = some h) :
    c.checkContext block = .ok (.ok ()) ↔
      c.selectedChainTarget sp = .ok block.header.target ∧
      Consensus.i64Min + maxTimestampDriftSecs ≤ h.timestamp.toInt ∧
      h.timestamp.toInt - maxTimestampDriftSecs ≤ block.header.timestamp.toInt ∧
      block.header.interlink = c.interlinkForParent sp := by
  have hall : (!block.header.parents.all (· ∈ c.blocks)) = false := by simpa using hps
  have hmax : h.timestamp.toInt - maxTimestampDriftSecs ≤ Consensus.i64Max := by
    have hlt := BitVec.toInt_lt (x := h.timestamp)
    rw [Consensus.i64Max, maxTimestampDriftSecs]
    omega
  rw [checkContext, hall, hsp]
  simp only [Bool.false_eq_true, if_false, bind, Except.bind, hh]
  cases htarget : c.selectedChainTarget sp with
  | error e => simp
  | ok expected =>
    simp only [Except.ok.injEq]
    by_cases hexpected : block.header.target = expected
    · simp only [hexpected, ne_eq, not_true_eq_false, if_false, true_and]
      rw [Consensus.i64]
      by_cases hmin : Consensus.i64Min ≤ h.timestamp.toInt - maxTimestampDriftSecs
      · have hmin' : Consensus.i64Min + maxTimestampDriftSecs ≤ h.timestamp.toInt := by omega
        rw [if_pos ⟨hmin, hmax⟩]
        simp only [pure, Except.pure, decide_eq_true_eq, hmin', true_and]
        by_cases htime : block.header.timestamp.toInt < h.timestamp.toInt - maxTimestampDriftSecs
        · rw [if_pos htime]
          simp [Int.not_le.mpr htime]
        · rw [if_neg htime]
          by_cases hlink : block.header.interlink = c.interlinkForParent sp
          · simp [hlink, Int.not_lt.mp htime]
          · simp [hlink]
      · have hmin' : ¬Consensus.i64Min + maxTimestampDriftSecs ≤ h.timestamp.toInt := by omega
        rw [if_neg fun hboth => hmin hboth.1]
        simp [hmin']
    · have hne : ¬expected = block.header.target := fun heq => hexpected heq.symm
      simp [hexpected, hne, pure, Except.pure]

/-- A node with its whole history over time: what it has tried to take in since genesis, and its
latest clock reading. Its clock does not run back. -/
inductive Operates (env : Env Tx) (p : Params) : List DagBlock → Int → DagChain Tx → Prop
  | start {c : DagChain Tx} {t : Int} (run : openWithGenesis env p [] = .ok (.ok c)) :
      Operates env p [] t c
  | accept {tried : List DagBlock} {t now : Int} {c c' : DagChain Tx} {io : Option AppendFault}
      {block : DagBlock} {r : Except String Unit} (before : Operates env p tried t c)
      (clock : t ≤ now) (run : c.accept env io now block = .ok (r, c')) :
      Operates env p (tried ++ [block]) now c'
  | mine {tried : List DagBlock} {t : Int} {c c' : DagChain Tx} {io : Option AppendFault}
      {txs : List Tx} {timestamp : BitVec 64} {block : DagBlock} {r : Except String DagBlock}
      (before : Operates env p tried t c) (clock : t ≤ timestamp.toInt)
      (build : c.buildBlockAt env txs timestamp = .ok block)
      (run : c.mineAt env io txs timestamp = .ok (r, c')) :
      Operates env p (tried ++ [block]) timestamp.toInt c'
  | virtualState {tried : List DagBlock} {t : Int} {c c' : DagChain Tx}
      {r : Except Runtime.BankError Runtime.Bank} (before : Operates env p tried t c)
      (run : c.virtualState env = .ok (r, c')) : Operates env p tried t c'

/-- No block but genesis is from later than the clock and the drift allow. -/
def Timely (t : Int) (c : DagChain Tx) : Prop :=
  ∀ x h, c.headers.lookup x = some h → x ≠ c.genesisDag →
    h.timestamp.toInt ≤ t + maxTimestampDriftSecs

theorem Timely.mono {t t' : Int} (h : Timely t c) (ht : t ≤ t') : Timely t' c := by
  intro x hd hx hne
  have := h x hd hx hne
  omega

/-- Appending and applying a block over parents that the engine has. -/
theorem Unpruned.appendAndApply (h : Unpruned env p tried d) {io : Option AppendFault}
    {r : Except String Unit} (hps : ∀ q ∈ block.header.parents, q ∈ d.engine.dag.blocks)
    (hrun : d.appendAndApply env io block = .ok (r, c')) :
    Unpruned env p (tried ++ [block]) c' := by
  have hlog : ∀ log, Unpruned env p tried { d with log } := fun log =>
    h.of_eq (h.anchored.of_eq rfl rfl rfl rfl rfl) rfl rfl rfl rfl ⟨rfl, rfl, rfl, rfl, rfl⟩
  rcases appendAndApply_cases hrun with ⟨e, log, _, _, rfl⟩ | ⟨log, _, hrun⟩
  · exact (hlog log).mono fun b hb => List.mem_append_left _ hb
  · exact (hlog log).apply hps hrun

theorem Timely.appendAndApply {io : Option AppendFault} {t : Int} {r : Except String Unit}
    (htime : Timely t d) (hblock : block.header.timestamp.toInt ≤ t + maxTimestampDriftSecs)
    (hrun : d.appendAndApply env io block = .ok (r, c')) : Timely t c' := by
  rcases appendAndApply_cases hrun with ⟨e, log, _, _, rfl⟩ | ⟨log, _, hrun⟩
  · exact htime
  rcases applyWithId_cases hrun with ⟨_, _, rfl⟩ | ⟨_, engine, _, hrest⟩
  · exact htime
  rcases hrest with ⟨e, _, _, rfl⟩ | ⟨txs, _, _, rfl⟩
  · exact htime
  · intro x hd hx hne
    change (d.headers.insert (block.id env.blake3) block.header).lookup x = some hd at hx
    by_cases hid : x = block.id env.blake3
    · rw [hid, AList.lookup_insert] at hx
      cases hx
      exact hblock
    · rw [AList.lookup_insert_ne hid] at hx
      exact htime x hd hx hne

theorem Unpruned.parents_mem (h : Unpruned env p tried c) (hbuilt : Built env c txs timestamp block) :
    ∀ q ∈ block.header.parents, q ∈ c.engine.dag.blocks := by
  intro q hq
  rw [hbuilt.parents] at hq
  rcases mem_buildParents hq with htip | rfl
  · exact (h.anchored.blocks q (h.tips.mp htip).1).1
  · exact h.anchored.rooted.grown.ready_best.2.mem

theorem Operates.unpruned {t : Int} (h : Operates env p tried t c) :
    Unpruned env p tried c ∧ Timely t c := by
  induction h with
  | start run =>
    refine ⟨open_unpruned run, fun x hd hx hne => ?_⟩
    have hgen := genesis_of_open_nil run
    obtain ⟨engine, _, hgen⟩ := bind_eq_ok.mp hgen
    cases hgen
    exact absurd (lookup_singleton.mp hx).1 hne
  | @accept tried t now c c' io block r before clock run ih =>
    obtain ⟨hun, htime⟩ := ih
    rcases accept_cases run with rfl | ⟨hpass, hrun⟩
    · exact ⟨hun.mono fun b hb => List.mem_append_left _ hb, htime.mono clock⟩
    · have hlate := (validateBlockIntrinsic_iff.mp hpass.intrinsic).2.2.2.2.2.2.2
      refine ⟨hun.appendAndApply (fun q hq => ?_) hrun,
        (htime.mono clock).appendAndApply (by omega) hrun⟩
      exact (hun.anchored.blocks q (hpass.parents.2.2 q hq)).1
  | @mine tried t c c' io txs timestamp block r before clock build run ih =>
    obtain ⟨hun, htime⟩ := ih
    have hbuilt := buildBlockAt_spec build
    obtain ⟨block', hbuild', happly⟩ := bind_eq_ok.mp run
    rw [build] at hbuild'
    cases hbuild'
    obtain ⟨⟨v, d⟩, happly, hend⟩ := bind_eq_ok.mp happly
    have hnow : block.header.timestamp.toInt ≤ timestamp.toInt + maxTimestampDriftSecs := by
      rw [hbuilt.time, maxTimestampDriftSecs]
      omega
    have hstep : Unpruned env p (tried ++ [block]) d ∧ Timely timestamp.toInt d :=
      ⟨hun.appendAndApply (hun.parents_mem hbuilt) happly,
        (htime.mono clock).appendAndApply hnow happly⟩
    cases v with
    | ok u =>
      cases hend
      exact hstep
    | error e =>
      cases hend
      exact hstep
  | virtualState before run ih =>
    obtain ⟨state, executed, checkpoint, rfl⟩ := virtualState_frame run
    exact ⟨ih.1.of_eq (ih.1.anchored.of_eq rfl rfl rfl rfl rfl) rfl rfl rfl rfl
      ⟨rfl, rfl, rfl, rfl, rfl⟩, ih.2⟩

/-- A heaviest block that the chain holds is one of its tips. -/
theorem Unpruned.tip_mem (h : Unpruned env p tried c) (htip : c.engine.tip ∈ c.blocks) :
    c.engine.tip ∈ c.tips := by
  obtain ⟨ready, best⟩ := h.anchored.rooted.grown.ready_best
  refine h.tips.mpr ⟨htip, fun y hd hy hmem => ?_⟩
  by_cases hyg : y = c.genesisDag
  · rw [hyg, h.root] at hy
    cases hy
    cases hmem
  · obtain ⟨_, hrel, _⟩ := h.headers hy hyg
    have hparent : c.engine.tip ∈ c.engine.dag.parents y := by
      rw [Ghostdag.DagEngine.Ready.parents_of_lookup hrel]
      exact engineParents_of_mem hmem htip
    have hwork := ready.work hparent best.ne
    obtain ⟨hye, hyo⟩ := h.anchored.blocks y ((h.anchored.headers y).mpr ⟨hd, hy⟩)
    rcases best.max hye hyo with hlt | ⟨heq, _⟩
    · exact Nat.lt_asymm hwork hlt
    · exact Nat.ne_of_gt hwork heq

theorem tip_mem_buildParents (htip : c.engine.tip ∈ c.tips) : c.engine.tip ∈ c.buildParents := by
  rw [buildParents]
  by_cases hmany : maxParents < c.tips.length
  · rw [if_pos hmany]
    exact List.mem_cons_self
  · rwa [if_neg hmany]

/-- A heaviest block among the parents is the selected one. -/
theorem Unpruned.selectedParentDag (h : Unpruned env p tried c) {ps : List Hash}
    (htip : c.engine.tip ∈ ps) (hps : ∀ q ∈ ps, q ∈ c.blocks) :
    c.selectedParentDag ps = .ok c.engine.tip := by
  have best := h.anchored.rooted.grown.ready_best.2
  obtain ⟨sp, hrun, hsp, hmax⟩ :=
    selectedParentDag_spec (List.ne_nil_of_mem htip) fun q hq => (h.anchored.blocks q (hps q hq)).1
  obtain ⟨hspe, hspo⟩ := h.anchored.blocks sp (hps sp hsp)
  have heq := SortableBlock.le_antisymm (hmax _ htip) (best.max hspe hspo)
  have hhash : c.engine.tip = sp := congrArg SortableBlock.hash heq
  rw [hrun, hhash]

/-- A block built on the tips is a new one. -/
theorem Unpruned.built_unknown (h : Unpruned env p tried c)
    (hbuilt : Built env c txs timestamp block)
    (hfree : CollisionFree env.blake3 (genesisBlock p :: tried ++ [block])) :
    block.id env.blake3 ∉ c.blocks := by
  intro hmem
  obtain ⟨q, hq, hqt⟩ := exists_tip_mem_buildParents h.tips_ne h.nodup
  rw [← hbuilt.parents] at hq
  obtain ⟨hd, hl⟩ := (h.anchored.headers _).mp hmem
  have hheader : hd = block.header := by
    by_cases hid : block.id env.blake3 = c.genesisDag
    · have hg := hfree (genesisBlock p) (by simp) block (by simp) (h.genesisDag.symm.trans hid.symm)
      rw [hid, h.root] at hl
      exact (Option.some.inj hl).symm.trans hg
    · obtain ⟨⟨b, hb, hbid, hbh⟩, _⟩ := h.headers hl hid
      exact hbh.symm.trans (hfree b (by simp [hb]) block (by simp) hbid)
  exact (h.tips.mp hqt).2 _ _ hl (hheader ▸ hq)

/-- What the block that is mined next must meet for a peer to take it: its transactions fit the
byte limit, the heaviest block of the engine is one of the chain, and the clock has not been set
before genesis. -/
structure Minable (env : Env Tx) (c : DagChain Tx) (txs : List Tx) (timestamp : BitVec 64) :
    Prop where
  size : (txs.map fun tx => (txBytes env tx).length).sum ≤ maxBlockTxBytes
  tip : ∃ h, c.headers.lookup c.engine.tip = some h ∧
    Consensus.i64Min + maxTimestampDriftSecs ≤ h.timestamp.toInt ∧
    (c.engine.tip = c.genesisDag → h.timestamp.toInt - maxTimestampDriftSecs ≤ timestamp.toInt)

/-- A peer with the same blocks passes the block that is mined next exactly when this is met. -/
theorem Unpruned.passes_iff (h : Unpruned env p tried c) (hpeer : Unpruned env p tried₁ d)
    (hsame : d.blocks = c.blocks) {t now : Int} (htime : Timely t c) (hclock : t ≤ timestamp.toInt)
    (hnow : timestamp.toInt ≤ now) (hbuilt : Built env c txs timestamp block)
    (htxs : txs.length ≤ maxBlockTxs)
    (hfree : CollisionFree env.blake3 (genesisBlock p :: tried ++ tried₁ ++ [block])) :
    Passes env now d block ↔ Minable env c txs timestamp := by
  have hnew : block.id env.blake3 ∉ c.blocks := h.built_unknown hbuilt fun b hb b' hb' =>
    hfree b (by simp at hb ⊢; tauto) b' (by simp at hb' ⊢; tauto)
  have hakin : Akin env d c := hpeer.akin h hsame fun b hb b' hb' =>
    hfree b (by simp at hb ⊢; tauto) b' (by simp at hb' ⊢; tauto)
  have hbytes : (block.transactions.map List.length).sum =
      (txs.map fun tx => (txBytes env tx).length).sum := by
    rw [hbuilt.transactions, List.map_map]
    rfl
  constructor
  · intro hpass
    obtain ⟨hne, _, hps⟩ := hpass.parents
    have hps' : ∀ q ∈ block.header.parents, q ∈ c.blocks := fun q hq => hsame ▸ hps q hq
    have hcontext := hpass.context
    rw [hakin.checkContext hne hps hps'] at hcontext
    obtain ⟨sp, hrun, hsp, _⟩ :=
      selectedParentDag_spec hne fun q hq => (h.anchored.blocks q (hps' q hq)).1
    obtain ⟨hd, hl⟩ := (h.anchored.headers sp).mp (hps' sp hsp)
    obtain ⟨_, hmin, hlate, hlink⟩ := (checkContext_iff hps' hrun hl).mp hcontext
    -- the interlink of the block is empty unless the heaviest block is one of the chain
    have htip : c.engine.tip ∈ c.blocks := by
      by_contra hpoison
      have hnone : c.headers.lookup c.engine.tip = none :=
        Option.eq_none_iff_forall_ne_some.mpr fun hd' hl' =>
          hpoison ((h.anchored.headers _).mpr ⟨hd', hl'⟩)
      have hempty : c.interlinkForParent c.engine.tip = [] := by
        rw [interlinkForParent, hnone]
      have hlen := congrArg List.length hlink
      rw [hbuilt.interlink, hempty, interlinkForParent_of_lookup hl, interlinkAfter_length,
        List.length_nil] at hlen
      omega
    have hmem : c.engine.tip ∈ block.header.parents := by
      rw [hbuilt.parents]
      exact tip_mem_buildParents (h.tip_mem htip)
    have heq : sp = c.engine.tip := Except.ok.inj (hrun.symm.trans (h.selectedParentDag hmem hps'))
    rw [heq] at hl
    rw [hbuilt.time] at hlate
    exact ⟨hbytes ▸ (validateBlockIntrinsic_iff.mp hpass.intrinsic).2.2.2.2.2.1, hd, hl, hmin,
      fun _ => hlate⟩
  · rintro ⟨hsize, hd, hl, hmin, hgenesis⟩
    have htip : c.engine.tip ∈ c.blocks := (h.anchored.headers _).mpr ⟨hd, hl⟩
    have hps : ∀ q ∈ block.header.parents, q ∈ c.blocks := by
      intro q hq
      rw [hbuilt.parents] at hq
      rcases mem_buildParents hq with hq | rfl
      · exact (h.tips.mp hq).1
      · exact htip
    have hmem : c.engine.tip ∈ block.header.parents := by
      rw [hbuilt.parents]
      exact tip_mem_buildParents (h.tip_mem htip)
    have hlate : hd.timestamp.toInt - maxTimestampDriftSecs ≤ block.header.timestamp.toInt := by
      rw [hbuilt.time]
      by_cases hg : c.engine.tip = c.genesisDag
      · exact hgenesis hg
      · have := htime _ hd hl hg
        omega
    refine ⟨hsame ▸ hnew, validateBlockIntrinsic_iff.mpr ⟨hbuilt.work, List.ne_nil_of_mem hmem, ?_, ?_,
      ?_, hbytes ▸ hsize, hbuilt.root, ?_⟩, ?_⟩
    · rw [hbuilt.parents]
      exact buildParents_length
    · rw [hbuilt.parents]
      exact buildParents_nodup h.nodup
    · rw [hbuilt.transactions, List.length_map]
      exact htxs
    · have hlt := BitVec.toInt_lt (x := timestamp)
      rw [hbuilt.time, Consensus.i64Max, maxTimestampDriftSecs]
      omega
    · have hps' : ∀ q ∈ block.header.parents, q ∈ d.blocks := fun q hq => hsame ▸ hps q hq
      rw [hakin.checkContext (List.ne_nil_of_mem hmem) hps' hps]
      refine (checkContext_iff hps (h.selectedParentDag hmem hps) hl).mpr
        ⟨hbuilt.target, hmin, hlate, hbuilt.interlink⟩

/-- A block that a node mines and applies passes the checks of a peer with the same blocks, and is
accepted by it, if and only if it was minable: mined with transactions within the byte limit, on a
heaviest block that the chain holds. -/
theorem mined_accepted_iff {t t₁ now : Int} {io : Option AppendFault}
    (hminer : Operates env p tried t c) (hpeer : Operates env p tried₁ t₁ d)
    (hsame : d.blocks = c.blocks) (hclock : t ≤ timestamp.toInt)
    (hmine : c.mineAt env io txs timestamp = .ok (.ok block, c')) (hnow : timestamp.toInt ≤ now)
    (htxs : txs.length ≤ maxBlockTxs)
    (hfree : CollisionFree env.blake3 (genesisBlock p :: tried ++ tried₁ ++ [block])) :
    (Passes env now d block ↔ Minable env c txs timestamp) ∧
      ∀ r d', d.accept env none now block = .ok (r, d') →
        (r = .ok () ↔ Minable env c txs timestamp) := by
  obtain ⟨hun, htime⟩ := hminer.unpruned
  obtain ⟨block', hbuilt, v, happly, hr⟩ := mineAt_spec hmine
  obtain ⟨rfl, rfl⟩ : v = .ok () ∧ block' = block := by
    cases v with
    | error e => cases hr
    | ok u => exact ⟨rfl, (Except.ok.inj hr).symm⟩
  have hnew : block'.id env.blake3 ∉ c.blocks := hun.built_unknown hbuilt fun b hb b' hb' =>
    hfree b (by simp at hb ⊢; tauto) b' (by simp at hb' ⊢; tauto)
  have hiff := hun.passes_iff hpeer.unpruned.1 hsame htime hclock hnow hbuilt htxs hfree
  refine ⟨hiff, fun r d' haccept => ?_⟩
  rw [← hiff]
  constructor
  · rintro rfl
    rcases accept_ok_cases haccept with ⟨hknown, _⟩ | ⟨hpass, _⟩
    · exact absurd (hsame ▸ hknown) hnew
    · exact hpass
  · intro hpass
    obtain ⟨hfits, decoded, hdecodes⟩ := appendAndApply_taken hnew happly
    rw [accept_of_passes hpass] at haccept
    rw [appendAndApply_verdict hpass.unknown haccept, hdecodes]
    unfold BlockLog.append
    rw [if_pos hfits]
    rfl

end DagChain

section Example

open DagChain
open TaoDag.Runtime (Transaction transferEnv)

/-- Two lists of two blocks with different ids. -/
private theorem collisionFree_pair {blake3 : Bytes → Hash} {b b' : DagBlock}
    (hne : b.id blake3 ≠ b'.id blake3) : CollisionFree blake3 [b, b'] := by
  intro x hx y hy hid
  simp only [List.mem_cons, List.not_mem_nil, or_false] at hx hy
  rcases hx with rfl | rfl
  · rcases hy with rfl | rfl
    · rfl
    · exact absurd hid hne
  · rcases hy with rfl | rfl
    · exact absurd hid.symm hne
    · rfl

theorem mined_accepted_iff_easy : ∃ c c' : DagChain Transaction,
    openWithGenesis transferEnv easyParams [] = .ok (.ok c) ∧
    c.mineAt transferEnv none [] 1750000010 = .ok (.ok (easyChild []), c') ∧
    (Passes transferEnv 1750000010 c (easyChild []) ↔ Minable transferEnv c [] 1750000010) ∧
    ∀ r d', c.accept transferEnv none 1750000010 (easyChild []) = .ok (r, d') →
      (r = .ok () ↔ Minable transferEnv c [] 1750000010) := by
  have hrun : returnsWith (DagChain.openWithGenesis transferEnv easyParams []) (fun o =>
      returnsWith o fun c => returnsWith (c.mineAt transferEnv none [] 1750000010) fun m =>
        returnsWith m.1 fun b => decide (b = easyChild [])) = true := by
    decide +kernel
  have hne : (genesisBlock easyParams).id Blake3.hash ≠ (easyChild []).id Blake3.hash := by
    decide +kernel
  simp only [returnsWith_iff, decide_eq_true_eq] at hrun
  obtain ⟨_, hopen, c, rfl, ⟨_, c'⟩, hmine, _, rfl, rfl⟩ := hrun
  have hstart : Operates transferEnv easyParams [] 1750000010 c := .start hopen
  exact ⟨c, c', hopen, hmine, mined_accepted_iff hstart hstart rfl (by decide) hmine (by decide)
    (by decide) (collisionFree_pair hne)⟩

/-- A peer's block with the empty byte string for a transaction: it passes every check. -/
def poisonBlock : DagBlock := easyChild [[]]

/-- After it has refused a block whose transaction does not decode, a node mines a block that a
fresh node with the same blocks refuses. -/
theorem mined_block_refused : ∃ (c c' c'' d' : DagChain Transaction) (block : DagBlock) (e : String),
    openWithGenesis transferEnv easyParams [] = .ok (.ok c) ∧
    (∃ e', c.accept transferEnv none 1750000010 poisonBlock = .ok (.error e', c')) ∧
    c'.mineAt transferEnv none [] 1750000011 = .ok (.ok block, c'') ∧ c.blocks = c'.blocks ∧
    Operates transferEnv easyParams [poisonBlock] 1750000010 c' ∧
    Operates transferEnv easyParams [] 1750000010 c ∧
    c.accept transferEnv none 1750000011 block = .ok (.error e, d') := by
  have hrun : returnsWith (DagChain.openWithGenesis transferEnv easyParams []) (fun o =>
      returnsWith o fun c =>
        returnsWith (c.accept transferEnv none 1750000010 poisonBlock) fun a =>
          fails a.1 && decide (c.blocks = a.2.blocks) &&
            returnsWith (a.2.mineAt transferEnv none [] 1750000011) fun m =>
              returnsWith m.1 fun b =>
                returnsWith (c.accept transferEnv none 1750000011 b) fun r => fails r.1) = true := by
    decide +kernel
  simp only [returnsWith_iff, Bool.and_eq_true, decide_eq_true_eq] at hrun
  obtain ⟨_, hopen, c, rfl, ⟨_, c'⟩, haccept, ⟨hfail, hsame⟩, ⟨_, c''⟩, hmine, block, rfl, ⟨_, d'⟩,
    hrefused, hfail'⟩ := hrun
  obtain ⟨e', rfl⟩ := fails_iff.mp hfail
  obtain ⟨e, rfl⟩ := fails_iff.mp hfail'
  have hstart : Operates transferEnv easyParams [] 1750000010 c := .start hopen
  exact ⟨c, c', c'', d', block, e, hopen, ⟨e', haccept⟩, hmine, hsame,
    hstart.accept (le_refl _) haccept, hstart, hrefused⟩

end Example

end TaoDag.Dagvm
