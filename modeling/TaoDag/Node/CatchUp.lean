import TaoDag.Dagvm.Linear
import TaoDag.Dagvm.Served
import TaoDag.Node.Delivery

namespace TaoDag.Dagvm.DagChain

open Consensus (DagBlock)
open Database (AppendFault)
open TaoDag.Runtime (Env)

variable {Tx : Type} {env : Env Tx} {p : Params} {c c' d g : DagChain Tx} {l own : List DagBlock}
  {b block : DagBlock}

section Start

/-- The parents that a mined block names. -/
theorem HoldsBlocks.built_parents (h : HoldsBlocks env p own c)
    (htips : c.tips ≠ [] ∧ c.tips.Nodup) (hparents : block.header.parents = c.buildParents) :
    c.engineParents block.header.parents = block.header.parents := by
  rw [hparents]
  apply engineParents_of_known
  · obtain ⟨q, hq, _⟩ := exists_tip_mem_buildParents htips.1 htips.2
    exact List.ne_nil_of_mem hq
  · exact buildParents_nodup htips.2
  · intro q hq
    rcases mem_buildParents hq with hq | rfl
    · exact (h.tips.mp hq).1
    · exact h.tip_mem

/-- A refused block that leaves the engine alone changes the log at most. -/
theorem refused_log {io : Option AppendFault} {now : Int} {e : String}
    (run : c.accept env io now block = .ok (.error e, c')) (engine : c'.engine = c.engine) :
    ∃ log, c' = { c with log } := by
  rcases accept_cases run with rfl | ⟨_, happend⟩
  · exact ⟨c'.log, rfl⟩
  rcases appendAndApply_cases happend with ⟨_, log, _, _, rfl⟩ | ⟨log, _, happly⟩
  · exact ⟨log, rfl⟩
  rcases applyWithId_cases happly with ⟨_, hr, _⟩ | ⟨_, engine', _, hrest⟩
  · cases hr
  rcases hrest with ⟨_, _, _, rfl⟩ | ⟨_, _, hr, _⟩
  · exact ⟨log, congrArg (fun engine => { c with log, engine }) engine⟩
  · cases hr

/-- A chain has grown out of its genesis by the blocks that it has taken. -/
theorem Takes.extends (h : Takes env p own c) :
    ∃ g, openWithGenesis env p [] = .ok (.ok g) ∧ Extends env own g c := by
  induction h with
  | @start c run =>
    exact ⟨c, run, (open_unpruned run).anchored.extends⟩
  | @accept own c c' io now block before run ih =>
    obtain ⟨g, hopen, hext⟩ := ih
    exact ⟨g, hopen, hext.accept run⟩
  | @mine own c c' io txs timestamp block before run ih =>
    obtain ⟨g, hopen, hext⟩ := ih
    obtain ⟨holds, unpruned⟩ := before.holds
    obtain ⟨built, hbuilt, v, happend, hv⟩ := mineAt_spec run
    cases v with
    | error e => cases hv
    | ok u =>
      obtain rfl : block = built := Except.ok.inj hv
      have hps := holds.built_parents ⟨unpruned.tips_ne, unpruned.nodup⟩ hbuilt.parents
      exact ⟨g, hopen, hext.appendAndApply hps happend⟩
  | @refuse own c c' io now block e before run engine ih =>
    obtain ⟨g, hopen, hext⟩ := ih
    obtain ⟨log, rfl⟩ := refused_log run engine
    refine ⟨g, hopen, hext.of_eq ?_ ⟨rfl, rfl, rfl, rfl, rfl, rfl, rfl⟩ rfl rfl⟩
    exact hext.anchored.of_eq rfl rfl rfl rfl rfl

end Start

section Stored

/-- A block that a chain holds with its transactions. -/
structure Stored (env : Env Tx) (c : DagChain Tx) (b : DagBlock) : Prop where
  known : b.id env.blake3 ∈ c.blocks
  header : c.headers.lookup (b.id env.blake3) = some b.header
  body : ∃ txs, decodeTxs env b.transactions = .ok txs ∧
    c.blockTxs.lookup (b.id env.blake3) = if txs = [] then none else some txs

/-- The transactions of a block are encoded to the bytes that they were decoded from. -/
def Reencodes (env : Env Tx) (b : DagBlock) : Prop :=
  ∀ txs, decodeTxs env b.transactions = .ok txs → txs.mapM env.encodeTx = .ok b.transactions

/-- A block that is held is served as it was accepted. -/
theorem Stored.getBlock (h : Stored env c b) (hb : Reencodes env b) :
    c.getBlock env (b.id env.blake3) = some b := by
  obtain ⟨txs, hdecode, hbody⟩ := h.body
  have hencode := hb txs hdecode
  rw [DagChain.getBlock, h.header, hbody]
  obtain ⟨header, transactions⟩ := b
  cases txs with
  | nil =>
    obtain rfl : [] = transactions := Except.ok.inj hencode
    rfl
  | cons tx txs =>
    simp only [List.cons_ne_nil, if_false, hencode]
    cases transactions with
    | nil => cases hdecode
    | cons t ts => rfl

theorem Stored.insertBlock (h : Stored env c b) {id : Hash} {txs : List Tx} (hid : id ∉ c.blocks) :
    Stored env (c.insertBlock block id txs) b := by
  have hne : b.id env.blake3 ≠ id := fun heq => hid (heq ▸ h.known)
  obtain ⟨txs', hdecode, hbody⟩ := h.body
  refine ⟨Finset.mem_insert_of_mem h.known, ?_, txs', hdecode, ?_⟩
  · exact (AList.lookup_insert_ne hne).trans h.header
  · rw [← hbody, DagChain.insertBlock]
    cases txs with
    | nil => rfl
    | cons tx txs => exact AList.lookup_insert_ne hne

theorem Stored.accept (h : Stored env c b) {io : Option AppendFault} {now : Int}
    (run : c.accept env io now block = .ok (.ok (), c')) : Stored env c' b := by
  rcases accept_ok_cases run with ⟨_, rfl⟩ | ⟨hpass, log, engine, txs, _, rfl⟩
  · exact h
  · have hlog : Stored env { c with log, engine } b := ⟨h.known, h.header, h.body⟩
    exact hlog.insertBlock hpass.unknown

theorem Stored.accepts (h : Stored env c b) (hrun : Accepts env c l c') : Stored env c' b := by
  induction hrun with
  | nil => exact h
  | snoc _ run ih => exact ih.accept run

/-- A chain of which every body belongs to a block holds the next block that it takes. -/
theorem stored_of_accept {acc : Accepted} (h : Holds env acc c) {io : Option AppendFault} {now : Int}
    (hnew : block.id env.blake3 ∉ c.blocks)
    (run : c.accept env io now block = .ok (.ok (), c')) : Stored env c' block := by
  have hnone : c.blockTxs.lookup (block.id env.blake3) = none := by
    refine Option.eq_none_iff_forall_ne_some.mpr fun txs htxs => ?_
    exact hnew (h.known htxs)
  rcases accept_ok_cases run with ⟨hknown, _⟩ | ⟨hpass, _⟩
  · exact absurd hknown hnew
  rw [accept_of_passes hpass] at run
  rcases appendAndApply_cases run with ⟨e, log, _, hr, _⟩ | ⟨log, _, happly⟩
  · cases hr
  rcases applyWithId_cases happly with ⟨hknown, _⟩ | ⟨_, engine, _, hrest⟩
  · exact absurd hknown hnew
  rcases hrest with ⟨e, _, hr, _⟩ | ⟨txs, hdecode, _, rfl⟩
  · cases hr
  · refine ⟨Finset.mem_insert_self _ _, AList.lookup_insert _, txs, hdecode, ?_⟩
    cases txs with
    | nil => exact hnone
    | cons tx txs => exact AList.lookup_insert _

end Stored

end TaoDag.Dagvm.DagChain

namespace TaoDag.Node

open Consensus (DagBlock)
open Dagvm (DagChain Params)
open Dagvm.DagChain (Accepts Anchored CollisionFree Extends HoldsBlocks Reencodes Serves Stored Takes)
open TaoDag.Runtime (Env)

variable {Tx : Type} {env : Env Tx} {p : Params} {c d g : DagChain Tx} {now₀ : Int} {k : Nat}
  {l own total delivered : List DagBlock} {n n₀ n' : DagNode Tx} {b : DagBlock} {x : Hash}
  {asked : List (Outgoing Unit)}

/-- What a peer serves in answer to the requests that a node broadcasts is delivered. -/
def Answered (env : Env Tx) (peer : DagNode Tx) (asked : List (Outgoing Unit))
    (delivered : List DagBlock) : Prop :=
  ∀ id bytes b, Outgoing.broadcast (.getBlock id) ∈ asked →
    peer.receive env none 0 () (.getBlock id) = .ok (peer, [.sendTo () (.newBlock bytes)]) →
    DagBlock.fromBytes bytes = .ok b → b ∈ delivered

/-- A round of synchronization with peers whose chains have grown out of `d`: one of them answers
what the node asks for, and the node goes through its pending loop. Meanwhile it serves any
messages, and gets any other blocks. -/
structure Round (env : Env Tx) (now₀ : Int) (d : DagChain Tx) (asked : List (Outgoing Unit))
    (n : DagNode Tx) (delivered : List DagBlock) (n' : DagNode Tx) : Prop where
  answered : ∃ peer more, Accepts env d more peer.chain ∧ Answered env peer asked delivered
  applied : ∃ n₁ input relay, Delivers env now₀ n delivered n₁ ∧ Faultless now₀ input ∧
    n₁.applyPending env input = .ok (n', relay)

/-- A node that is told the tips of `d`, and then goes through `k` rounds of backfill. -/
inductive CatchesUp (env : Env Tx) (now₀ : Int) (d : DagChain Tx) (n₀ : DagNode Tx) :
    Nat → List DagBlock → DagNode Tx → Prop
  | tips {delivered : List DagBlock} {n : DagNode Tx} {asked : List (Outgoing Unit)}
      (ask : n₀.receive env none 0 () (.tips d.tips) = .ok (n₀, asked))
      (round : Round env now₀ d asked n₀ delivered n) : CatchesUp env now₀ d n₀ 0 delivered n
  | backfill {k : Nat} {before delivered : List DagBlock} {n n' : DagNode Tx}
      (run : CatchesUp env now₀ d n₀ k before n)
      (round : Round env now₀ d n.backfill n delivered n') :
      CatchesUp env now₀ d n₀ (k + 1) (before ++ delivered) n'

section Offered

/-- The chain `d` of a peer that has accepted the blocks of `l`, each once, since the genesis `g`
of the node. A node to which blocks of `total` are delivered can take them. -/
structure Offered (env : Env Tx) (p : Params) (now₀ : Int) (total : List DagBlock)
    (g : DagChain Tx) (l : List DagBlock) (d : DagChain Tx) : Prop where
  genesis : HoldsBlocks env p [] g
  free : CollisionFree env.blake3 total
  sub : ∀ b ∈ l, b ∈ total
  run : Accepts env g l d
  grows : Extends env l g d
  holds : HoldsBlocks env p l d
  stored : ∀ b ∈ l, Stored env d b
  sound : ∀ b ∈ l, b.id env.blake3 ∉ g.blocks ∧ Sound env now₀ total g b
  served : ∀ b ∈ l, Reencodes env b ∧ b.Fits

theorem stored_of_accepts (hopen : DagChain.openWithGenesis env p [] = .ok (.ok g))
    (honce : (g.genesisDag :: ids env l).Nodup) (hrun : Accepts env g l d) :
    (∃ acc, Serves env p acc d) ∧ HoldsBlocks env p l d ∧
      ∀ b ∈ l, b.id env.blake3 ∉ g.blocks ∧ Stored env d b := by
  have hgenesis := DagChain.genesis_of_open_nil hopen
  have hg := DagChain.genesis_holdsBlocks hgenesis
  induction hrun with
  | nil => exact ⟨⟨∅, .genesis hgenesis⟩, hg, fun b hb => absurd hb List.not_mem_nil⟩
  | @snoc l d d' block io now before run ih =>
    rw [ids, List.map_append, ← List.cons_append, List.nodup_append] at honce
    obtain ⟨hold, _, hnew⟩ := honce
    obtain ⟨⟨acc, hserves⟩, hholds, hstored⟩ := ih hold
    have hlast : block.id env.blake3 ∈ [block].map fun b => b.id env.blake3 := by simp
    have hunknown : block.id env.blake3 ∉ d.blocks := by
      intro hmem
      obtain ⟨header, hlookup⟩ := hholds.blocks.mp hmem
      by_cases hgen : block.id env.blake3 = d.genesisDag
      · apply hnew g.genesisDag List.mem_cons_self _ hlast
        rw [hg.genesisDag, ← hholds.genesisDag, hgen]
      · obtain ⟨b, hb, _, hid⟩ := hholds.sound hlookup hgen
        exact hnew _ (List.mem_cons_of_mem _ (mem_ids.mpr ⟨b, hb, hid⟩)) _ hlast rfl
    refine ⟨⟨_, hserves.accept run⟩, hholds.accept run, fun b hb => ?_⟩
    rcases List.mem_append.mp hb with hb | hb
    · exact ⟨(hstored b hb).1, (hstored b hb).2.accept run⟩
    · rw [List.mem_singleton.mp hb]
      refine ⟨fun hmem => ?_, DagChain.stored_of_accept hserves.holds hunknown run⟩
      obtain ⟨header, hlookup⟩ := hg.blocks.mp hmem
      by_cases hgen : block.id env.blake3 = g.genesisDag
      · exact hnew g.genesisDag List.mem_cons_self _ hlast hgen.symm
      · obtain ⟨b, hb, _⟩ := hg.sound hlookup hgen
        cases hb

theorem offered_of_accepts (hopen : DagChain.openWithGenesis env p [] = .ok (.ok g))
    (honce : (g.genesisDag :: ids env l).Nodup) (hrun : Accepts env g l d)
    (hserved : ∀ b ∈ l, Reencodes env b ∧ b.Fits)
    (hnow : ∀ b ∈ l, DagChain.validateBlockIntrinsic env now₀ b = .ok ())
    (hfree : CollisionFree env.blake3 total) (hsub : ∀ b ∈ l, b ∈ total) :
    Offered env p now₀ total g l d := by
  obtain ⟨_, hholds, hstored⟩ := stored_of_accepts hopen honce hrun
  obtain ⟨hext, hvalid⟩ := hrun.valid (DagChain.open_anchored hopen) hnow
  refine ⟨DagChain.genesis_holdsBlocks (DagChain.genesis_of_open_nil hopen), hfree, hsub, hrun, hext,
    hholds, fun b hb => (hstored b hb).2, fun b hb => ⟨(hstored b hb).1, Or.inr ?_⟩, hserved⟩
  obtain ⟨b', hb', hid, hv⟩ := hvalid b hb (hstored b hb).1
  have hsame : b' = b := List.inj_on_of_nodup_map (List.nodup_cons.mp honce).2 hb' hb hid
  exact hsame ▸ hv.mono hsub

end Offered

section Round

/-- A node whose chain has grown out of `g`, and whose blocks come from `total`. -/
structure Holding (env : Env Tx) (total : List DagBlock) (g : DagChain Tx) (n : DagNode Tx) :
    Prop where
  grows : Extends env total g n.chain
  pending : ∀ b ∈ n.pending, b ∈ total

/-- A block that the node has accepted, or keeps as the peer has it. -/
def Known (env : Env Tx) (l : List DagBlock) (n : DagNode Tx) (x : Hash) : Prop :=
  x ∈ n.chain.blocks ∨ ∃ b ∈ l, b ∈ n.pending ∧ b.id env.blake3 = x

/-- After a pending loop, what stays in the buffer lacks a parent. -/
def Idle (env : Env Tx) (l : List DagBlock) (n : DagNode Tx) : Prop :=
  ∀ b ∈ l, b ∈ n.pending → b.id env.blake3 ∈ n.chain.blocks ∨
    ∃ q ∈ b.header.parents, q ∉ n.chain.blocks

theorem Holding.apply (hn : Holding env total g n) (ho : Offered env p now₀ total g l d)
    {input : Nat → AcceptInput} {relay : List DagBlock} (hinput : Faultless now₀ input)
    (hrun : n.applyPending env input = .ok (n', relay)) :
    Holding env total g n' ∧ n.chain.blocks ⊆ n'.chain.blocks ∧
      (∀ b ∈ l, b ∈ n.pending → b.id env.blake3 ∈ n'.chain.blocks ∨ b ∈ n'.pending) ∧
      Idle env l n' := by
  obtain ⟨s, hloop, hrun⟩ := bind_eq_ok.mp hrun
  cases hrun
  obtain ⟨hext, hblocks, hstill, hkeeps⟩ :=
    pendingLoop_keeps ho.genesis.historyPruned ho.free hinput hn.grows hn.pending hloop
  refine ⟨⟨hext, fun b hb => hn.pending b (hstill b hb)⟩, hblocks, fun b hb hpending => ?_,
    fun b hb hbuf => ?_⟩
  · exact (hkeeps b hpending (ho.sound b hb).2).imp_right And.left
  · exact (hkeeps b (hstill b hbuf) (ho.sound b hb).2).imp_right And.right

theorem Delivers.holding (hrun : Delivers env now₀ n delivered n')
    (ho : Offered env p now₀ total g l d) (hn : Holding env total g n)
    (hsub : ∀ b ∈ delivered, b ∈ total) :
    Holding env total g n' ∧ n.chain.blocks ⊆ n'.chain.blocks ∧
      ∀ b ∈ l, b ∈ n.pending ∨ b ∈ delivered → b.id env.blake3 ∈ n'.chain.blocks ∨ b ∈ n'.pending := by
  induction hrun with
  | start =>
    refine ⟨hn, Finset.Subset.refl _, fun b _ hb => Or.inr ?_⟩
    exact hb.resolve_right List.not_mem_nil
  | @receive Peer l' n₁ n₂ bytes block io now peer sends before hblock run ih =>
    obtain ⟨hold, hblocks, hkeeps⟩ := ih fun b hb => hsub b (List.mem_append_left _ hb)
    rw [receive_newBlock hblock run]
    refine ⟨⟨hold.grows, fun b hb => ?_⟩, hblocks, fun b hb hin => ?_⟩
    · rcases List.mem_append.mp hb with hb | hb
      · exact hold.pending b hb
      · exact hsub b (List.mem_append_right _ hb)
    · rw [List.mem_append, ← or_assoc] at hin
      rcases hin with hin | hin
      · exact (hkeeps b hb hin).imp_right fun h => List.mem_append_left _ h
      · exact Or.inr (List.mem_append_right _ hin)
  | serve _ _ ih => exact ih hsub
  | @apply l' n₁ n₂ input relay before hinput run ih =>
    obtain ⟨hold, hblocks, hkeeps⟩ := ih hsub
    obtain ⟨hnext, hblocks', hkeeps', _⟩ := hold.apply ho hinput run
    refine ⟨hnext, hblocks.trans hblocks', fun b hb hin => ?_⟩
    rcases hkeeps b hb hin with hid | hbuf
    · exact Or.inl (hblocks' hid)
    · exact hkeeps' b hb hbuf

/-- What is asked for of the blocks of `l` is delivered. -/
theorem Offered.answer (ho : Offered env p now₀ total g l d) {peer : DagNode Tx}
    {more : List DagBlock} (hpeer : Accepts env d more peer.chain)
    (hanswered : Answered env peer asked delivered) (hb : b ∈ l)
    (hasked : Outgoing.broadcast (.getBlock (b.id env.blake3)) ∈ asked) : b ∈ delivered := by
  obtain ⟨hencode, hfits⟩ := ho.served b hb
  have hserve := ((ho.stored b hb).accepts hpeer).getBlock hencode
  apply hanswered _ (DagBlock.codec.encode b) b hasked
  · rw [DagNode.receive, hserve]
    rfl
  · exact DagBlock.fromBytes_encode hfits

theorem Round.spec (hround : Round env now₀ d asked n delivered n')
    (ho : Offered env p now₀ total g l d) (hn : Holding env total g n)
    (hsub : ∀ b ∈ delivered, b ∈ total) :
    Holding env total g n' ∧ n.chain.blocks ⊆ n'.chain.blocks ∧
      (∀ x, Known env l n x → Known env l n' x) ∧
      (∀ b ∈ l, Outgoing.broadcast (.getBlock (b.id env.blake3)) ∈ asked →
        Known env l n' (b.id env.blake3)) ∧ Idle env l n' := by
  obtain ⟨⟨peer, more, hpeer, hanswered⟩, n₁, input, relay, hdelivers, hinput, hrun⟩ := hround
  obtain ⟨hold, hblocks, hkeeps⟩ := hdelivers.holding ho hn hsub
  obtain ⟨hnext, hblocks', hkeeps', hidle⟩ := hold.apply ho hinput hrun
  have hknown : ∀ b ∈ l, b ∈ n.pending ∨ b ∈ delivered → Known env l n' (b.id env.blake3) := by
    intro b hb hin
    rcases hkeeps b hb hin with hid | hbuf
    · exact Or.inl (hblocks' hid)
    · exact (hkeeps' b hb hbuf).imp_right fun h => ⟨b, hb, h, rfl⟩
  refine ⟨hnext, hblocks.trans hblocks', fun x hx => ?_, fun b hb hasked => ?_, hidle⟩
  · rcases hx with hx | ⟨b, hb, hpending, rfl⟩
    · exact Or.inl (hblocks' (hblocks hx))
    · exact hknown b hb (Or.inl hpending)
  · exact hknown b hb (Or.inr (ho.answer hpeer hanswered hb hasked))

end Round

section Progress

/-- What holds of the tips of a chain and of the parents of whatever it holds of, holds of every
block. -/
theorem covered {K : Hash → Prop} (h : Accepts env g l d) (hg : ∀ x ∈ g.blocks, K x)
    (htips : ∀ t ∈ d.tips, K t)
    (hstep : ∀ b ∈ l, K (b.id env.blake3) → ∀ q ∈ b.header.parents, K q) : ∀ x ∈ d.blocks, K x := by
  induction h with
  | nil => exact hg
  | @snoc l d₁ d block io now before run ih =>
    have hearlier : ∀ b ∈ l, b ∈ l ++ [block] := fun b hb => List.mem_append_left _ hb
    rcases DagChain.accept_ok_cases run with ⟨_, rfl⟩ | ⟨hpass, log, engine, txs, _, rfl⟩
    · exact ih htips fun b hb => hstep b (hearlier b hb)
    · have hself : K (block.id env.blake3) := by
        apply htips
        simp [DagChain.insertBlock]
      have hold : ∀ x ∈ d₁.blocks, K x := by
        apply ih
        · intro t ht
          by_cases hparent : t ∈ block.header.parents
          · exact hstep block (by simp) hself t hparent
          · apply htips
            simp [DagChain.insertBlock, ht, hparent]
        · exact fun b hb => hstep b (hearlier b hb)
      intro x hx
      rcases Finset.mem_insert.mp hx with rfl | hx
      · exact hself
      · exact hold x hx

theorem Offered.akin (ho : Offered env p now₀ total g l d) (hn : Holding env total g n) :
    DagChain.Akin env n.chain d := by
  apply hn.grows.akin ho.grows
  intro b hb b' hb'
  have hin : ∀ {b}, b ∈ total ++ l → b ∈ total := fun hb => (List.mem_append.mp hb).elim id (ho.sub _)
  exact ho.free b (hin hb) b' (hin hb')

/-- The parents of a block that the node has accepted. -/
theorem Offered.parents_mem (ho : Offered env p now₀ total g l d) (hn : Holding env total g n)
    (hb : b ∈ l) (hid : b.id env.blake3 ∈ n.chain.blocks) {q : Hash}
    (hq : q ∈ b.header.parents) : q ∈ n.chain.blocks := by
  have hstored := ho.stored b hb
  have hne : b.id env.blake3 ≠ d.genesisDag := by
    intro heq
    apply (ho.sound b hb).1
    rw [heq, ho.grows.genesisDag]
    exact ho.genesis.blocks.mpr ⟨_, ho.genesis.genesis⟩
  have hpeer : d.engine.relations.lookup (b.id env.blake3) = some b.header.parents := by
    rw [ho.holds.relations, hstored.header, Option.map_some, if_neg hne]
  obtain ⟨hmem, hor⟩ := hn.grows.anchored.blocks _ hid
  obtain ⟨ps, hps⟩ := hn.grows.anchored.rooted.grown.ready_best.1.relations.mpr ⟨hmem, hor⟩
  have hsame : ps = b.header.parents := (ho.akin hn).engine.relations hps hpeer
  have hparent : q ∈ n.chain.engine.dag.parents (b.id env.blake3) := by
    rw [Ghostdag.DagEngine.Ready.parents_of_lookup hps, hsame]
    exact hq
  refine (hn.grows.anchored.closed _ q hparent).resolve_right ?_
  exact (ho.holds.mem_engine (ho.holds.parents hstored.header q hq)).2

/-- A node that knows the tips of the peer has all of its blocks, or asks for one that it does not
know yet. -/
theorem Offered.progress (ho : Offered env p now₀ total g l d) (hn : Holding env total g n)
    (htips : ∀ t ∈ d.tips, Known env l n t) (hidle : Idle env l n) :
    d.blocks ⊆ n.chain.blocks ∨ ∃ b ∈ l, ¬Known env l n (b.id env.blake3) ∧
      (.broadcast (.getBlock (b.id env.blake3)) : Outgoing Unit) ∈ n.backfill := by
  have hheader : ∀ {b b'}, b ∈ l → b' ∈ l → b'.id env.blake3 = b.id env.blake3 →
      b'.header = b.header := fun hb hb' hid => ho.free _ (ho.sub _ hb') _ (ho.sub _ hb) hid
  by_cases hclosed : ∀ b ∈ l, Known env l n (b.id env.blake3) → ∀ q ∈ b.header.parents, Known env l n q
  · left
    have hall := covered ho.run (fun x hx => Or.inl (hn.grows.blocks hx)) htips hclosed
    have hlack : ∀ b ∈ l, b.id env.blake3 ∈ n.chain.blocks ∨
        ∃ q ∈ b.header.parents, q ∉ n.chain.blocks := by
      intro b hb
      rcases hall _ (ho.stored b hb).known with hid | ⟨b', hb', hpending, hid⟩
      · exact Or.inl hid
      · have hcause := hidle b' hb' hpending
        rwa [hid, hheader hb hb' hid] at hcause
    exact (accepts_subset ho.run hn.grows.blocks hlack).1
  · right
    push Not at hclosed
    obtain ⟨b, hb, hknown, q, hq, hunknown⟩ := hclosed
    have hmissing : q ∉ n.chain.blocks := fun hmem => hunknown (Or.inl hmem)
    have hqd : q ∈ d.blocks := ho.holds.parents (ho.stored b hb).header q hq
    obtain ⟨a, ha, hid⟩ : ∃ a ∈ l, a.id env.blake3 = q := by
      refine (ho.grows.known q hqd).resolve_left fun hmem => ?_
      exact hmissing (hn.grows.blocks hmem)
    rcases hknown with hmem | ⟨b', hb', hpending, hid'⟩
    · exact absurd (ho.parents_mem hn hb hmem hq) hmissing
    · refine ⟨a, ha, hid ▸ hunknown, ?_⟩
      rw [hid, DagNode.backfill, List.mem_map]
      refine ⟨q, List.mem_dedup.mpr (List.mem_flatMap.mpr ⟨b', hpending, ?_⟩), rfl⟩
      rw [hheader hb hb' hid', List.mem_filter]
      exact ⟨hq, decide_eq_true hmissing⟩

open Classical in
/-- The blocks of the peer that the node does not know. -/
noncomputable def missing (env : Env Tx) (l : List DagBlock) (n : DagNode Tx) : Finset Hash :=
  (ids env l).toFinset.filter fun x => ¬Known env l n x

theorem mem_missing : x ∈ missing env l n ↔ x ∈ ids env l ∧ ¬Known env l n x := by
  classical
  rw [missing, Finset.mem_filter, List.mem_toFinset]

theorem missing_lt (hkeeps : ∀ x, Known env l n x → Known env l n' x) (hb : b ∈ l)
    (hbefore : ¬Known env l n (b.id env.blake3)) (hafter : Known env l n' (b.id env.blake3)) :
    (missing env l n').card < (missing env l n).card := by
  apply Finset.card_lt_card
  rw [Finset.ssubset_iff_of_subset]
  · refine ⟨b.id env.blake3, ?_, fun hmem => (mem_missing.mp hmem).2 hafter⟩
    exact mem_missing.mpr ⟨mem_ids.mpr ⟨b, hb, rfl⟩, hbefore⟩
  · intro x hx
    obtain ⟨hmem, hx⟩ := mem_missing.mp hx
    exact mem_missing.mpr ⟨hmem, fun h => hx (hkeeps x h)⟩

theorem missing_le : (missing env l n).card ≤ l.length := by
  have hsub : missing env l n ⊆ (ids env l).toFinset := fun x hx =>
    List.mem_toFinset.mpr (mem_missing.mp hx).1
  calc (missing env l n).card ≤ (ids env l).toFinset.card := Finset.card_le_card hsub
    _ ≤ (ids env l).length := List.toFinset_card_le _
    _ = l.length := List.length_map _

/-- How far a node has come after `k` rounds of backfill. -/
structure Caught (env : Env Tx) (total : List DagBlock) (g : DagChain Tx) (l : List DagBlock)
    (d : DagChain Tx) (k : Nat) (n : DagNode Tx) : Prop where
  holding : Holding env total g n
  tips : ∀ t ∈ d.tips, Known env l n t
  idle : Idle env l n
  fewer : d.blocks ⊆ n.chain.blocks ∨ (missing env l n).card + k ≤ l.length

theorem CatchesUp.caught (hrun : CatchesUp env now₀ d n₀ k delivered n)
    (ho : Offered env p now₀ total g l d) (hn : Holding env total g n₀)
    (hsub : ∀ b ∈ delivered, b ∈ total) : Caught env total g l d k n := by
  induction hrun with
  | @tips delivered n asked ask round =>
    obtain ⟨hnext, hblocks, hkeeps, hasked, hidle⟩ := round.spec ho hn hsub
    cases ask
    refine ⟨hnext, fun t ht => ?_, hidle, Or.inr missing_le⟩
    by_cases hmem : t ∈ n₀.chain.blocks
    · exact Or.inl (hblocks hmem)
    · obtain ⟨b, hb, rfl⟩ : ∃ b ∈ l, b.id env.blake3 = t := by
        refine (ho.grows.known t (ho.holds.tips.mp ht).1).resolve_left fun hg => ?_
        exact hmem (hn.grows.blocks hg)
      apply hasked b hb
      exact List.mem_map.mpr ⟨_, List.mem_filter.mpr ⟨ht, decide_eq_true hmem⟩, rfl⟩
  | @backfill k before delivered n n' run round ih =>
    obtain ⟨hold, htips, hidle, hfewer⟩ := ih fun b hb => hsub b (List.mem_append_left _ hb)
    obtain ⟨hnext, hblocks, hkeeps, hasked, hidle'⟩ :=
      round.spec ho hold fun b hb => hsub b (List.mem_append_right _ hb)
    refine ⟨hnext, fun t ht => hkeeps t (htips t ht), hidle', ?_⟩
    rcases ho.progress hold htips hidle with hdone | ⟨b, hb, hunknown, hasks⟩
    · exact Or.inl (hdone.trans hblocks)
    · rcases hfewer with hdone | hfewer
      · exact Or.inl (hdone.trans hblocks)
      · have hlt := missing_lt hkeeps hb hunknown (hasked b hb hasks)
        exact Or.inr (by omega)

/-- What both chains hold of a block gives it the same place among the others. -/
theorem key_eq (h : DagChain.Akin env c d) (hc : x ∈ c.blocks) (hd : x ∈ d.blocks) :
    c.engine.key x = d.engine.key x := by
  obtain ⟨data, hdata⟩ := Ghostdag.DagEngine.mem_blocks.mp (h.left.blocks x hc).1
  obtain ⟨data', hdata'⟩ := Ghostdag.DagEngine.mem_blocks.mp (h.right.blocks x hd).1
  have hsame : data = data' := h.engine.gd hdata hdata'
  simp only [Ghostdag.DagEngine.key, Ghostdag.DagEngine.work, hdata, hdata', hsame]

end Progress

section Example

open Dagvm (easyParams easyChild easyGenesis easyBlock)
open TaoDag.Runtime (Transaction transferEnv)

theorem answered_one (hb : b.Fits) {chain : DagChain Tx}
    (hserve : chain.getBlock env (b.id env.blake3) = some b) :
    Answered env ⟨chain, []⟩ [.broadcast (.getBlock (b.id env.blake3))] [b] := by
  intro id bytes b' hasked hreceive hbytes
  simp only [List.mem_singleton, Outgoing.broadcast.injEq, NetMsg.getBlock.injEq] at hasked
  rw [hasked, DagNode.receive, hserve] at hreceive
  cases hreceive
  rw [DagBlock.fromBytes_encode hb] at hbytes
  cases hbytes
  exact List.mem_singleton_self b

/-- A child of `easyChild`. -/
def easyGrandchild : DagBlock :=
  let parent := 0xc7593293bee35b16654368d28600b7d3fc17357d34ea3df3e406aec55b8f7549
  easyBlock Blake3.hash [parent] [parent, easyGenesis, easyGenesis, easyGenesis] 1750000020 []

/-- A node at genesis learns of two blocks by the id of the second. -/
private theorem catching_up : ∃ (g d : DagChain Transaction) (n₁ n₂ : DagNode Transaction),
    DagChain.openWithGenesis transferEnv easyParams [] = .ok (.ok g) ∧
    Accepts transferEnv g [easyChild [], easyGrandchild] d ∧
    d.tips.filter (· ∉ g.blocks) = [easyGrandchild.id Blake3.hash] ∧
    (g.genesisDag :: ids transferEnv [easyChild [], easyGrandchild]).Nodup ∧
    DagNode.applyPending transferEnv (fun _ => ⟨none, 1750000500⟩) ⟨g, [easyGrandchild]⟩ =
      .ok (n₁, []) ∧
    n₁.pending = [easyGrandchild] ∧
    (n₁.pending.flatMap fun b => b.header.parents.filter (· ∉ n₁.chain.blocks)).dedup =
      [(easyChild []).id Blake3.hash] ∧
    (∃ relay, DagNode.applyPending transferEnv (fun _ => ⟨none, 1750000500⟩)
      ⟨n₁.chain, n₁.pending ++ [easyChild []]⟩ = .ok (n₂, relay)) ∧ n₂.pending = [] := by
  have hrun : returnsWith (DagChain.openWithGenesis transferEnv easyParams []) (fun o =>
      returnsWith o fun g =>
        returnsWith (g.accept transferEnv none 1750000500 (easyChild [])) (fun p =>
          returnsWith p.1 (fun _ => true) &&
            returnsWith (p.2.accept transferEnv none 1750000500 easyGrandchild) fun q =>
              returnsWith q.1 (fun _ => true) &&
                decide (q.2.tips.filter (· ∉ g.blocks) = [easyGrandchild.id Blake3.hash])) &&
        decide ((g.genesisDag :: ids transferEnv [easyChild [], easyGrandchild]).Nodup) &&
        returnsWith (DagNode.applyPending transferEnv (fun _ => ⟨none, 1750000500⟩)
          ⟨g, [easyGrandchild]⟩) fun r =>
            decide (r.2 = []) && decide (r.1.pending = [easyGrandchild]) &&
            decide ((r.1.pending.flatMap fun b =>
              b.header.parents.filter (· ∉ r.1.chain.blocks)).dedup =
                [(easyChild []).id Blake3.hash]) &&
            returnsWith (DagNode.applyPending transferEnv (fun _ => ⟨none, 1750000500⟩)
              ⟨r.1.chain, r.1.pending ++ [easyChild []]⟩) fun r' =>
                decide (r'.1.pending = [])) = true := by
    decide +kernel
  generalize easyChild [] = b, easyGrandchild = b' at *
  simp only [returnsWith_iff, Bool.and_eq_true, decide_eq_true_eq] at hrun
  obtain ⟨_, hopen, g, rfl, ⟨⟨⟨_, d₁⟩, hfirst, ⟨_, rfl, _⟩, ⟨_, d⟩, hsecond, ⟨_, rfl, _⟩, htips⟩,
    honce⟩, ⟨n₁, relay⟩, happly, ⟨⟨rfl, hpending⟩, hwanted⟩, ⟨n₂, relay'⟩, happly', hempty⟩ := hrun
  exact ⟨g, d, n₁, n₂, hopen, .snoc (.snoc .nil hfirst) hsecond, htips, honce, happly, hpending,
    hwanted, ⟨relay', happly'⟩, hempty⟩

private theorem easy_blocks : (∀ b ∈ [easyChild [], easyGrandchild],
      DagChain.validateBlockIntrinsic transferEnv 1750000500 b = .ok ()) ∧
    ∀ b ∈ [easyChild [], easyGrandchild], Reencodes transferEnv b ∧ b.Fits := by
  have hjudged : ∀ b ∈ [easyChild [], easyGrandchild],
      returnsWith (DagChain.validateBlockIntrinsic transferEnv 1750000500 b) (fun _ => true) = true := by
    decide +kernel
  constructor
  · intro b hb
    obtain ⟨_, hintrinsic, _⟩ := returnsWith_iff.mp (hjudged b hb)
    exact hintrinsic
  · intro b hb
    have hempty : b.transactions = [] ∧ b.header.parents.length = 1 ∧
        b.header.interlink.length = 4 := by
      simp only [List.mem_cons, List.not_mem_nil, or_false] at hb
      rcases hb with rfl | rfl
      · exact ⟨rfl, rfl, rfl⟩
      · exact ⟨rfl, rfl, rfl⟩
    obtain ⟨htxs, hparents, hinterlink⟩ := hempty
    constructor
    · intro txs hdecode
      rw [htxs] at hdecode ⊢
      cases hdecode
      rfl
    · refine ⟨⟨by omega, by omega⟩, by simp [htxs], fun t ht => ?_⟩
      rw [htxs] at ht
      cases ht

end Example

end TaoDag.Node
