import TaoDag.Dagvm.Confirmed
import TaoDag.Dagvm.Interlinked

namespace TaoDag.Dagvm

open Consensus (DagBlock DagBlockHeader meetsTarget)
open Database (AppendFault BlockLog ReplaceFault)
open Ghostdag (DagEngine)
open Ghostdag.DagEngine (Rooted)
open TaoDag.Runtime (Env)

namespace DagChain

variable {Tx : Type} {env : Env Tx} {p : Params} {c c' c₀ : DagChain Tx} {x y pt q : Hash}
  {h h₀ header : DagBlockHeader} {rest chain : List DagBlockHeader} {order suffix : List Hash}
  {i : Nat} {e : DagEngine} {block : DagBlock}

/-- `h` is mined on its parent `q`: the interlink goes on from there. -/
structure MinedOn (headers : BlockHashMap DagBlockHeader) (h : DagBlockHeader) (q : Hash) :
    Prop where
  parent : q ∈ h.parents
  interlink : ∃ header, headers.lookup q = some header ∧ h.interlink = interlinkAfter q header

/-- The proof of the origin is what the highest pointers of a chain of headers lead through, and it
is taken for the work of these. -/
structure Retains (env : Env Tx) (c : DagChain Tx) (chain : List DagBlockHeader) : Prop where
  pruned : c.historyPruned = true
  proof : c.proof = (proofOf env.blake3 chain).reverse
  verifies : verifyProof env.blake3 c.proof c.genesisDag c.originalGenesis =
    .ok (accumulatedWork (proofOf env.blake3 chain))

theorem Retains.of_eq (h : Retains env c chain)
    (hpruned : c.historyPruned = true → c'.historyPruned = true) (hproof : c'.proof = c.proof)
    (horigin : c'.genesisDag = c.genesisDag) (hgenesis : c'.originalGenesis = c.originalGenesis) :
    Retains env c' chain := by
  refine ⟨hpruned h.pruned, hproof.trans h.proof, ?_⟩
  rw [hproof, horigin, hgenesis]
  exact h.verifies

/-- Every block above the origin is mined on one of its parents in the engine, and the origin ends a
chain of headers from the first genesis on, to which the retained proof belongs. -/
structure Threaded (env : Env Tx) (c : DagChain Tx) : Prop where
  ids : ∀ x h, c.headers.lookup x = some h → h.id env.blake3 = x
  link : ∀ x h, c.headers.lookup x = some h → x ≠ c.genesisDag →
    meetsTarget x h.target = true ∧ ∃ q ∈ c.engine.dag.parents x, MinedOn c.headers h q
  root : ∃ h₀ rest, c.headers.lookup c.genesisDag = some h₀ ∧
    HeaderChain env.blake3 c.originalGenesis (h₀ :: rest) ∧
      (rest ≠ [] → Retains env c (h₀ :: rest))
  tip : c.engine.tip ∈ c.blocks → c.engine.tip ∈ c.tips

/-- No two headers that the node has, of its blocks and in the retained proof, share an id. -/
def Unambiguous (env : Env Tx) (c : DagChain Tx) : Prop :=
  ∀ h ∈ c.proof, ∀ h', h.id env.blake3 = h'.id env.blake3 →
    c.headers.lookup (h'.id env.blake3) = some h' ∨ h' ∈ c.proof → h = h'

/-- A prune keeps the parent that a kept block above the new origin is mined on. -/
def KeepsThreads (c : DagChain Tx) : Prop :=
  ∀ order i pt, c.totalOrder = .ok order → c.prunePoint order = .ok (some i) →
    order[i]? = some pt → ∀ y ∈ order.drop (i + 1), y ≠ pt → ∀ h, c.headers.lookup y = some h →
      ∃ q ∈ pt :: order.drop (i + 1), MinedOn c.headers h q

/-- The calls of a node that runs from genesis on: it mines when the heaviest block of its engine is
one of its blocks, and prunes when that keeps the threads. -/
def ThreadedCall (env : Env Tx) (c : DagChain Tx) : Call Tx → Prop
  | .mine _ _ _ => c.engine.tip ∈ c.blocks
  | .prune _ => KeepsThreads c ∧ Unambiguous env c ∧
      c.blocks.card + c.proof.length ≤ maxProofHeaders
  | .importSnapshot _ _ _ => False
  | _ => True

theorem interlinkAfter_ne_nil (q : Hash) (header : DagBlockHeader) :
    interlinkAfter q header ≠ [] := by
  rw [interlinkAfter_eq, List.replicate_succ]
  exact List.cons_ne_nil q _

theorem historyPruned_of_pruneFinalizedTransactions {n : Nat}
    (hrun : c.pruneFinalizedTransactions = .ok (n, c')) (hpruned : c.historyPruned = true) :
    c'.historyPruned = true := by
  rw [DagChain.pruneFinalizedTransactions] at hrun
  rcases Option.eq_none_or_eq_some c.checkpoint with hcp | ⟨cp, hcp⟩
  · rw [hcp] at hrun
    cases hrun
    exact hpruned
  · simp only [hcp] at hrun
    obtain ⟨_, _, hrun⟩ := bind_eq_ok.mp hrun
    by_cases hpos : 0 < (dropBodies (c.executed.take cp.len) 0 c.blockTxs).1
    · rw [if_pos hpos] at hrun
      cases hrun
      rfl
    · rw [if_neg hpos] at hrun
      cases hrun
      exact hpruned

/-- The heaviest block of an engine has no child. -/
theorem tip_childless {fr : Reachability.Interval.Fractions} {k : Nat} {genesis : Hash}
    (hrooted : Rooted fr k genesis e) : e.tip ∉ e.dag.parents y := by
  obtain ⟨ready, best⟩ := hrooted.grown.ready_best
  intro hxy
  have hy : y ∈ e.dag.blocks := by
    by_contra hnot
    rw [ready.index.dag.outside hnot] at hxy
    cases hxy
  have hyor : y ≠ blockhash.origin := by
    rintro rfl
    rw [ready.parents_origin] at hxy
    cases hxy
  have hwork := ready.work hxy best.ne
  rcases best.max hy hyor with hlt | ⟨heq, _⟩
  · exact Nat.lt_asymm hwork hlt
  · exact Nat.ne_of_gt hwork heq

namespace Threaded

/-- The chain of headers that a block ends: known ones above the origin, and the origin's below. -/
theorem headerChain (ht : Threaded env c) (ha : Anchored env c)
    (hroot : c.headers.lookup c.genesisDag = some h₀)
    (hchain : HeaderChain env.blake3 c.originalGenesis (h₀ :: rest)) (n : Nat)
    (hn : below c.engine x < n) (hx : c.headers.lookup x = some h) :
    ∃ r, HeaderChain env.blake3 c.originalGenesis (h :: r) ∧
      ∀ y ∈ h :: r, c.headers.lookup (y.id env.blake3) = some y ∨ y ∈ rest := by
  induction n generalizing x h with
  | zero => exact absurd hn (Nat.not_lt_zero _)
  | succ n ih =>
    have hid := ht.ids x h hx
    have hself : c.headers.lookup (h.id env.blake3) = some h := hid.symm ▸ hx
    by_cases hgen : x = c.genesisDag
    · rw [hgen, hroot] at hx
      cases hx
      exact ⟨rest, hchain, List.forall_mem_cons.mpr ⟨Or.inl hself, fun y hy => Or.inr hy⟩⟩
    · obtain ⟨hwork, q, hq, hmined, header, hheader, hinterlink⟩ := ht.link x h hx hgen
      have hqid := ht.ids q header hheader
      obtain ⟨hmem, hne⟩ := ha.blocks q ((ha.headers q).mpr ⟨header, hheader⟩)
      have hless := ha.rooted.grown.ready_best.1.work hq hne
      have hbelow := below_lt hmem hless
      obtain ⟨r, hr, hfound⟩ := ih (by omega) hheader
      refine ⟨header :: r, .step hr (hqid.symm ▸ hmined) (hqid.symm ▸ hinterlink) (hid.symm ▸ hwork),
        List.forall_mem_cons.mpr ⟨Or.inl hself, hfound⟩⟩

/-- What is neither of the DAG nor of the proof does not matter. -/
theorem of_eq (ht : Threaded env c) (hengine : c'.engine = c.engine)
    (hheaders : c'.headers = c.headers) (hblocks : c'.blocks = c.blocks) (htips : c'.tips = c.tips)
    (horigin : c'.genesisDag = c.genesisDag) (hgenesis : c'.originalGenesis = c.originalGenesis)
    (hproof : c'.proof = c.proof) (hpruned : c.historyPruned = true → c'.historyPruned = true) :
    Threaded env c' := by
  constructor
  case ids =>
    rw [hheaders]
    exact ht.ids
  case link =>
    intro x h hx hne
    rw [hheaders] at hx
    rw [horigin] at hne
    obtain ⟨hwork, q, hq, hmined⟩ := ht.link x h hx hne
    rw [hengine]
    exact ⟨hwork, q, hq, hheaders.symm ▸ hmined⟩
  case root =>
    obtain ⟨h₀, rest, hroot, hchain, hretains⟩ := ht.root
    rw [hheaders, horigin, hgenesis]
    refine ⟨h₀, rest, hroot, hchain, fun hne => ?_⟩
    exact (hretains hne).of_eq hpruned hproof horigin hgenesis
  case tip =>
    rw [hengine, hblocks, htips]
    exact ht.tip

theorem opened (hopen : openWithGenesis env p [] = .ok (.ok c)) : Threaded env c := by
  have hgen := genesis_of_open_nil hopen
  obtain ⟨engine, hengine, hgen⟩ := bind_eq_ok.mp hgen
  cases hgen
  constructor
  case ids =>
    intro x h hx
    obtain ⟨rfl, rfl⟩ := lookup_singleton.mp hx
    rfl
  case link =>
    intro x h hx hne
    exact absurd (lookup_singleton.mp hx).1 hne
  case root =>
    refine ⟨genesisHeader p, [], ?_, .genesis rfl rfl, fun hne => absurd rfl hne⟩
    exact lookup_singleton.mpr ⟨rfl, rfl⟩
  case tip =>
    intro htip
    simpa using htip

/-- A block that is mined on a known parent. -/
theorem apply (ht : Threaded env c) (ha : Anchored env c) (hq : MinedOn c.headers block.header q)
    (hwork : meetsTarget (block.id env.blake3) block.header.target = true)
    {r : Except String Unit} (hrun : c.apply env block = .ok (r, c')) : Threaded env c' := by
  rcases applyWithId_cases hrun with ⟨_, _, rfl⟩ | ⟨hnew, engine, hadd, hrest⟩
  · exact ht
  have hps : ∀ q ∈ c.engineParents block.header.parents, q ∈ c.blocks :=
    fun q hq => mem_engineParents ha.origin hq
  have inv := ha.rooted.grown.ready_best.1
  obtain ⟨data, _, _, hadded, _⟩ := inv.step (fun hor => absurd hor (ha.originAlone hps)) hadd
  have hheld : ∀ {x h}, c.headers.lookup x = some h → x ∈ c.blocks := fun hx =>
    (ha.headers _).mpr ⟨_, hx⟩
  have hother : ∀ {x}, x ∈ c.blocks → x ≠ block.id env.blake3 := fun hx heq => hnew (heq ▸ hx)
  have hlink : ∀ x h, c.headers.lookup x = some h → x ≠ c.genesisDag →
      meetsTarget x h.target = true ∧ ∃ q ∈ engine.dag.parents x, MinedOn c.headers h q := by
    intro x h hx hne
    rw [hadded.parents_eq inv.toInv, Function.update_of_ne (hother (hheld hx))]
    exact ht.link x h hx hne
  have hself : engine.dag.parents (block.id env.blake3) = c.engineParents block.header.parents := by
    rw [hadded.parents_eq inv.toInv, Function.update_self]
  have htips : engine.tip ∈ c.blocks → engine.tip ∈ c.tips := by
    intro hmem
    rcases hadded.tip with ⟨heq, _⟩ | ⟨heq, _⟩
    · exact absurd (heq ▸ hmem) hnew
    · rw [heq] at hmem ⊢
      exact ht.tip hmem
  rcases hrest with ⟨err, _, _, rfl⟩ | ⟨txs, _, _, rfl⟩
  · refine ⟨ht.ids, hlink, ?_, htips⟩
    obtain ⟨h₀, rest, hroot, hchain, hretains⟩ := ht.root
    exact ⟨h₀, rest, hroot, hchain, fun hne => (hretains hne).of_eq id rfl rfl rfl⟩
  have hkeep : ∀ {x}, x ∈ c.blocks →
      (c.headers.insert (block.id env.blake3) block.header).lookup x = c.headers.lookup x :=
    fun hx => AList.lookup_insert_ne (hother hx)
  have hminedOn : ∀ {h q}, MinedOn c.headers h q →
      MinedOn (c.headers.insert (block.id env.blake3) block.header) h q := by
    intro h q hmined
    obtain ⟨header, hheader, hinterlink⟩ := hmined.interlink
    exact ⟨hmined.parent, header, (hkeep (hheld hheader)).trans hheader, hinterlink⟩
  have hcases : ∀ {x h}, (c.headers.insert (block.id env.blake3) block.header).lookup x = some h →
      (x = block.id env.blake3 ∧ h = block.header) ∨ c.headers.lookup x = some h := by
    intro x h hx
    by_cases hid : x = block.id env.blake3
    · rw [hid, AList.lookup_insert] at hx
      exact Or.inl ⟨hid, (Option.some.inj hx).symm⟩
    · rw [AList.lookup_insert_ne hid] at hx
      exact Or.inr hx
  constructor
  case ids =>
    intro x h hx
    rcases hcases hx with ⟨rfl, rfl⟩ | hx
    · rfl
    · exact ht.ids x h hx
  case link =>
    intro x h hx hne
    rcases hcases hx with ⟨rfl, rfl⟩ | hx
    · refine ⟨hwork, q, ?_, hminedOn hq⟩
      obtain ⟨header, hheader, _⟩ := hq.interlink
      show q ∈ engine.dag.parents (block.id env.blake3)
      rw [hself]
      exact engineParents_of_mem hq.parent (hheld hheader)
    · obtain ⟨hwork, q, hq, hmined⟩ := hlink x h hx hne
      exact ⟨hwork, q, hq, hminedOn hmined⟩
  case root =>
    obtain ⟨h₀, rest, hroot, hchain, hretains⟩ := ht.root
    refine ⟨h₀, rest, (hkeep ha.origin).trans hroot, hchain, fun hne => ?_⟩
    exact (hretains hne).of_eq id rfl rfl rfl
  case tip =>
    intro htip
    change engine.tip ∈ insert (block.id env.blake3) c.blocks at htip
    show engine.tip ∈ c.tips.filter (· ∉ block.header.parents) ++ [block.id env.blake3]
    rcases Finset.mem_insert.mp htip with heq | hmem
    · exact List.mem_append_right _ (List.mem_singleton.mpr heq)
    -- a heaviest block has no child, so the new block does not take it off the tips
    have hchildless : engine.tip ∉ block.header.parents := by
      intro hparent
      refine tip_childless (ha.takes hps hadd).rooted (y := block.id env.blake3) ?_
      show engine.tip ∈ engine.dag.parents (block.id env.blake3)
      rw [hself]
      exact engineParents_of_mem hparent hmem
    exact List.mem_append_left _ (List.mem_filter.mpr ⟨htips hmem, by simpa using hchildless⟩)

theorem appendAndApply (ht : Threaded env c) (ha : Anchored env c)
    (hq : MinedOn c.headers block.header q)
    (hwork : meetsTarget (block.id env.blake3) block.header.target = true) {io : Option AppendFault}
    {r : Except String Unit} (hrun : c.appendAndApply env io block = .ok (r, c')) :
    Threaded env c' := by
  rcases appendAndApply_cases hrun with ⟨err, log, _, _, rfl⟩ | ⟨log, _, hrun⟩
  · exact ht.of_eq rfl rfl rfl rfl rfl rfl rfl id
  · have ht' : Threaded env { c with log } := ht.of_eq rfl rfl rfl rfl rfl rfl rfl id
    exact ht'.apply (ha.of_eq rfl rfl rfl rfl rfl) ⟨hq.parent, hq.interlink⟩ hwork hrun

/-- A block that is accepted is mined on its selected parent. -/
theorem accept (ht : Threaded env c) (ha : Anchored env c) {io : Option AppendFault} {now : Int} {r : Except String Unit}
    (hrun : c.accept env io now block = .ok (r, c')) : Threaded env c' := by
  rcases accept_cases hrun with rfl | ⟨hpass, hrun⟩
  · exact ht
  obtain ⟨hne, _, hps⟩ := hpass.parents
  obtain ⟨sp, hselected, hmem, _⟩ :=
    selectedParentDag_spec hne fun q hq => (ha.blocks q (hps q hq)).1
  obtain ⟨header, hheader⟩ := (ha.headers sp).mp (hps sp hmem)
  have hcontext := (checkContext_iff hps hselected hheader).mp hpass.context
  have hinterlink := hcontext.2.2.2
  rw [interlinkForParent_of_lookup hheader] at hinterlink
  exact ht.appendAndApply ha ⟨hmem, header, hheader, hinterlink⟩
    (validateBlockIntrinsic_iff.mp hpass.intrinsic).1 hrun

/-- A block that the node mines is mined on the heaviest block. -/
theorem mineAt (ht : Threaded env c) (ha : Anchored env c) {io : Option AppendFault} {txs : List Tx} {timestamp : BitVec 64}
    {r : Except String DagBlock} (htip : c.engine.tip ∈ c.blocks)
    (hrun : c.mineAt env io txs timestamp = .ok (r, c')) : Threaded env c' := by
  obtain ⟨block, hbuilt, v, happly, _⟩ := mineAt_spec hrun
  obtain ⟨header, hheader⟩ := (ha.headers _).mp htip
  have hparent : c.engine.tip ∈ block.header.parents := by
    rw [hbuilt.parents]
    exact tip_mem_buildParents (ht.tip htip)
  have hinterlink := hbuilt.interlink
  rw [interlinkForParent_of_lookup hheader] at hinterlink
  exact ht.appendAndApply ha ⟨hparent, header, hheader, hinterlink⟩ hbuilt.work happly

/-- A header with an interlink has its work. -/
theorem work_of_interlink (ht : Threaded env c) (hx : c.headers.lookup x = some h)
    (hne : h.interlink ≠ []) : meetsTarget x h.target = true := by
  by_cases hgen : x = c.genesisDag
  · obtain ⟨h₀, rest, hroot, hchain, _⟩ := ht.root
    have hid := ht.ids x h hx
    rw [hgen, hroot] at hx
    cases hx
    rw [← hid]
    exact (hchain.proven _ List.mem_cons_self).2 hne
  · exact (ht.link x h hx hgen).1

/-- The header of the retained proof that has an id is the only one with it. -/
theorem proofHeader_of_mem (ht : Threaded env c) (hun : Unambiguous env c)
    (hpruned : c.historyPruned = true) (hmem : h ∈ c.proof) :
    c.proofHeader env (h.id env.blake3) = some h := by
  rw [proofHeader]
  cases hlookup : c.headers.lookup (h.id env.blake3) with
  | some h' =>
    have hid := ht.ids _ h' hlookup
    rw [← hid] at hlookup
    exact congrArg some (hun h hmem h' hid.symm (Or.inl hlookup)).symm
  | none =>
    have hfound : (c.proof.find? fun y => y.id env.blake3 == h.id env.blake3).isSome := by
      rw [List.find?_isSome]
      exact ⟨h, hmem, beq_self_eq_true _⟩
    obtain ⟨h', hfind⟩ := Option.isSome_iff_exists.mp hfound
    have hsame := List.find?_some hfind
    have hid : h'.id env.blake3 = h.id env.blake3 := by simpa using hsame
    have heq := hun h hmem h' hid.symm (Or.inr (List.mem_of_find?_eq_some hfind))
    simp only [hpruned, if_true]
    rw [hfind, heq]

/-- The pointer walk from a block through the known headers goes on in the retained proof. -/
theorem linked (ht : Threaded env c) (ha : Anchored env c) (hun : Unambiguous env c)
    (hx : c.headers.lookup x = some h) :
    ∃ r, HeaderChain env.blake3 c.originalGenesis (h :: r) ∧
      Linked env.blake3 (c.proofHeader env) (proofOf env.blake3 (h :: r)) ∧
      (proofOf env.blake3 (h :: r)).length ≤ c.blocks.card + c.proof.length := by
  obtain ⟨h₀, rest, hroot, hchain, hretains⟩ := ht.root
  obtain ⟨r, hr, hfound⟩ :=
    ht.headerChain ha hroot hchain (below c.engine x + 1) (Nat.lt_succ_self _) hx
  have hheld : ∀ {y}, c.headers.lookup (y.id env.blake3) = some y →
      c.proofHeader env (y.id env.blake3) = some y := by
    intro y hy
    rw [proofHeader, hy]
  have hself : c.headers.lookup (h.id env.blake3) = some h := (ht.ids x h hx).symm ▸ hx
  have hproof : ∀ {y}, y ∈ rest → isRecord env.blake3 y = true →
      c.historyPruned = true ∧ y ∈ c.proof := by
    intro y hy hrecord
    have hkept := hretains (List.ne_nil_of_mem hy)
    refine ⟨hkept.pruned, ?_⟩
    rw [hkept.proof, List.mem_reverse, proofOf]
    exact List.mem_cons_of_mem _ (List.mem_filter.mpr ⟨hy, hrecord⟩)
  have hcases : ∀ y ∈ proofOf env.blake3 (h :: r), c.headers.lookup (y.id env.blake3) = some y ∨
      c.historyPruned = true ∧ y ∈ c.proof := by
    intro y hy
    rcases List.mem_cons.mp hy with rfl | hy
    · exact Or.inl hself
    · obtain ⟨hmem, hrecord⟩ := List.mem_filter.mp hy
      exact (hfound y (List.mem_cons_of_mem h hmem)).imp_right fun hrest => hproof hrest hrecord
  have hlinked : Linked env.blake3 (c.proofHeader env) (proofOf env.blake3 (h :: r)) := by
    refine hr.linked (hheld hself) fun y hy hrecord => ?_
    rcases hcases y (List.mem_cons_of_mem h (List.mem_filter.mpr ⟨hy, hrecord⟩)) with hy | ⟨hp, hy⟩
    · exact hheld hy
    · exact ht.proofHeader_of_mem hun hp hy
  refine ⟨r, hr, hlinked, ?_⟩
  -- the walk meets no id twice
  have hsub : ((proofOf env.blake3 (h :: r)).map (·.id env.blake3)).toFinset ⊆
      c.blocks ∪ (c.proof.map (·.id env.blake3)).toFinset := by
    intro id hid
    obtain ⟨y, hy, rfl⟩ := List.mem_map.mp (List.mem_toFinset.mp hid)
    rw [Finset.mem_union]
    rcases hcases y hy with hy | ⟨_, hy⟩
    · exact Or.inl ((ha.headers _).mpr ⟨y, hy⟩)
    · exact Or.inr (List.mem_toFinset.mpr (List.mem_map_of_mem hy))
  calc (proofOf env.blake3 (h :: r)).length
      = ((proofOf env.blake3 (h :: r)).map (·.id env.blake3)).toFinset.card := by
        rw [List.toFinset_card_of_nodup hlinked.nodup, List.length_map]
    _ ≤ (c.blocks ∪ (c.proof.map (·.id env.blake3)).toFinset).card := Finset.card_le_card hsub
    _ ≤ c.blocks.card + (c.proof.map (·.id env.blake3)).toFinset.card := Finset.card_union_le _ _
    _ ≤ c.blocks.card + c.proof.length := by
        have hcard := List.toFinset_card_le (c.proof.map (·.id env.blake3))
        rw [List.length_map] at hcard
        omega

theorem pruneFinalizedTransactions (ht : Threaded env c) {n : Nat}
    (hrun : c.pruneFinalizedTransactions = .ok (n, c')) : Threaded env c' := by
  have hpruned := historyPruned_of_pruneFinalizedTransactions hrun
  obtain ⟨blockTxs, historyPruned, state, executed, rfl, _⟩ := pruneFinalizedTransactions_frame hrun
  exact ht.of_eq rfl rfl rfl rfl rfl rfl rfl hpruned

/-- A prune that keeps the threads goes on from the proof there is. -/
theorem prune (ht : Threaded env c) (ha : Anchored env c) (hthreads : KeepsThreads c)
    (hun : Unambiguous env c) (hroom : c.blocks.card + c.proof.length ≤ maxProofHeaders)
    {io : Option ReplaceFault} {r : Except Runtime.BankError Nat}
    (hrun : c.prune env io = .ok (r, c')) : Threaded env c' := by
  rcases prune_cases hrun with ⟨log, rfl, _⟩ | hmore
  · exact ht.of_eq rfl rfl rfl rfl rfl rfl rfl id
  obtain ⟨order, i, pt, bank, e, header, log, horder, hpoint, hpt, _, he, hheader, _, _, rfl⟩ := hmore
  have hre := rerootEngine_reroots (ha.origin_not_kept horder hpt) he
  have hkept : ∀ {x h}, (restrict c.headers (pt :: order.drop (i + 1))).lookup x = some h →
      x ∈ pt :: order.drop (i + 1) ∧ c.headers.lookup x = some h := by
    intro x h hx
    rw [restrict_lookup] at hx
    by_cases hmem : x ∈ pt :: order.drop (i + 1)
    · rw [if_pos hmem] at hx
      exact ⟨hmem, hx⟩
    · rw [if_neg hmem] at hx
      cases hx
  have hkeep : ∀ {x}, x ∈ pt :: order.drop (i + 1) →
      (restrict c.headers (pt :: order.drop (i + 1))).lookup x = c.headers.lookup x := by
    intro x hmem
    rw [restrict_lookup, if_pos hmem]
  constructor
  case ids =>
    intro x h hx
    exact ht.ids x h (hkept hx).2
  case link =>
    intro x h hx hne
    obtain ⟨hmem, hx⟩ := hkept hx
    have hsuffix := (List.mem_cons.mp hmem).resolve_left hne
    obtain ⟨q, hq, hmined⟩ := hthreads order i pt horder hpoint hpt x hsuffix hne h hx
    obtain ⟨header', hheader', hinterlink⟩ := hmined.interlink
    obtain ⟨h', hh', hparents⟩ := hre.parents x hsuffix
    cases hh'.symm.trans hx
    refine ⟨?_, q, ?_, hmined.parent, header', (hkeep hq).trans hheader', hinterlink⟩
    · exact ht.work_of_interlink hx (hinterlink ▸ interlinkAfter_ne_nil q header')
    · show q ∈ e.dag.parents x
      rw [hparents]
      exact mem_keptParents_of_mem hmined.parent hq
  case root =>
    obtain ⟨r, hr, hlinked, hlen⟩ := ht.linked ha hun hheader
    have hid := ht.ids pt header hheader
    refine ⟨header, r, (hkeep List.mem_cons_self).trans hheader, hr, fun _ => ?_⟩
    have hbuilt : c.buildProofFor env pt = (proofOf env.blake3 (header :: r)).reverse := by
      rw [← hid]
      exact buildProofFor_linked hlinked (hlen.trans hroom)
    refine ⟨rfl, hbuilt, ?_⟩
    show verifyProof env.blake3 (c.buildProofFor env pt) pt c.originalGenesis = _
    rw [hbuilt, ← hid]
    refine verifyProof_linked hlinked fun y hy => hr.proven y ?_
    rcases List.mem_cons.mp hy with rfl | hy
    · exact List.mem_cons_self
    · exact List.mem_cons_of_mem header (List.mem_filter.mp hy).1
  case tip =>
    intro _
    exact List.mem_singleton.mpr rfl

theorem step (ht : Threaded env c) (ha : Anchored env c) {call : Call Tx}
    (hcall : ThreadedCall env c call) (hrun : c.step env call = .ok c') : Threaded env c' := by
  cases call with
  | mine io txs timestamp =>
    obtain ⟨⟨r, d⟩, hmine, rfl⟩ := map_eq_ok.mp hrun
    exact ht.mineAt ha hcall hmine
  | accept io now block =>
    obtain ⟨⟨r, d⟩, haccept, rfl⟩ := map_eq_ok.mp hrun
    exact ht.accept ha haccept
  | virtualState =>
    obtain ⟨⟨r, d⟩, hstate, rfl⟩ := map_eq_ok.mp hrun
    obtain ⟨state, executed, checkpoint, rfl⟩ := virtualState_frame hstate
    exact ht.of_eq rfl rfl rfl rfl rfl rfl rfl id
  | setFinalityDepth depth =>
    cases hrun
    exact ht.of_eq rfl rfl rfl rfl rfl rfl rfl id
  | pruneFinalizedTransactions =>
    obtain ⟨⟨n, d⟩, hprune, rfl⟩ := map_eq_ok.mp hrun
    exact ht.pruneFinalizedTransactions hprune
  | prune io =>
    obtain ⟨⟨r, d⟩, hprune, rfl⟩ := map_eq_ok.mp hrun
    obtain ⟨hthreads, hun, hroom⟩ := hcall
    exact ht.prune ha hthreads hun hroom hprune
  | importSnapshot io now bytes => exact False.elim hcall

theorem reaches (hopen : openWithGenesis env p [] = .ok (.ok c₀))
    (hrun : Reaches env (ThreadedCall env) c₀ c) : Anchored env c ∧ Threaded env c := by
  refine @Reaches.invariant _ env _ (fun c => Anchored env c ∧ Threaded env c) _ _ hrun
    ⟨open_anchored hopen, opened hopen⟩ ?_
  intro d call d' hd hcall hstep
  exact ⟨(anchored_kept env).step hd.1 hstep, hd.2.step hd.1 hcall hstep⟩

end Threaded

theorem unambiguous_of_nodup (hnodup : (c.proof.map (·.id env.blake3)).Nodup)
    (hsame : ∀ h ∈ c.proof, ∀ h', c.headers.lookup (h.id env.blake3) = some h' → h = h') :
    Unambiguous env c := by
  intro h hh h' hid hheld
  rcases hheld with hlookup | hmem
  · exact hsame h hh h' (hid ▸ hlookup)
  · exact List.inj_on_of_nodup_map hnodup hh hmem hid

/-- A prune that cuts no parent of a kept block off keeps the threads. -/
theorem keepsThreads_of_sealed (ht : Threaded env c) (ha : Anchored env c) (hsealed : Sealed c) :
    KeepsThreads c := by
  intro order i pt horder hpoint hpt y hy hne h hh
  have hwhole := hsealed order i pt horder hpoint hpt
  by_cases hgen : y = c.genesisDag
  · have hparent : blockhash.origin ∈ c.engine.dag.parents y := by
      rw [hgen, ha.rooted.grown.recorded.2]
      exact List.mem_singleton.mpr rfl
    exact absurd (hwhole y hy _ hparent) (ha.origin_not_kept horder hpt)
  · obtain ⟨_, q, hq, hmined⟩ := ht.link y h hh hgen
    exact ⟨q, hwhole y hy q hq, hmined⟩

/-- What the node has as the proof of its origin. -/
theorem retained_proof (hopen : openWithGenesis env p [] = .ok (.ok c₀))
    (hrun : Reaches env (ThreadedCall env) c₀ c) (hpruned : c.genesisDag ≠ c.originalGenesis) :
    ∃ h rest, c.headers.lookup c.genesisDag = some h ∧
      HeaderChain env.blake3 c.originalGenesis (h :: rest) ∧
      c.proof = (proofOf env.blake3 (h :: rest)).reverse ∧
      verifyProof env.blake3 c.proof c.genesisDag c.originalGenesis =
        .ok (accumulatedWork (proofOf env.blake3 (h :: rest))) := by
  obtain ⟨_, ht⟩ := Threaded.reaches hopen hrun
  obtain ⟨h, rest, hroot, hchain, hretains⟩ := ht.root
  have hne : rest ≠ [] := by
    rintro rfl
    cases hchain with
    | genesis id interlink => exact hpruned ((ht.ids _ h hroot).symm.trans id)
  have hkept := hretains hne
  exact ⟨h, rest, hroot, hchain, hkept.proof, hkept.verifies⟩

end DagChain

section Example

open DagChain
open TaoDag.Runtime (Transaction transferEnv)

/-- A prune to the tip that keeps the threads, and what is checked of the chain after it. -/
def prunesToTip (c : DagChain Transaction) (check : DagChain Transaction → Bool) : Bool :=
  decide (c.blocks.card + c.proof.length ≤ maxProofHeaders) &&
  decide ((c.proof.map (·.id transferEnv.blake3)).Nodup) &&
  (c.proof.all fun h => (c.headers.lookup (h.id transferEnv.blake3)).all fun h' => decide (h = h')) &&
  (returnsWith c.totalOrder fun order => returnsWith (c.prunePoint order) fun point =>
    decide (0 < order.length ∧ point = some (order.length - 1))) &&
  returnsWith (c.prune transferEnv none) fun r => check r.2

private theorem reaches_of_prunesToTip {p : Params} {c₀ c : DagChain Transaction}
    {check : DagChain Transaction → Bool} (hopen : openWithGenesis transferEnv p [] = .ok (.ok c₀))
    (hrun : Reaches transferEnv (ThreadedCall transferEnv) c₀ c)
    (h : prunesToTip c check = true) :
    ∃ c', Reaches transferEnv (ThreadedCall transferEnv) c₀ c' ∧ check c' = true := by
  simp only [prunesToTip, returnsWith_iff, Bool.and_eq_true, decide_eq_true_eq, List.all_eq_true,
    Option.all_eq_true] at h
  obtain ⟨⟨⟨⟨hroom, hnodup⟩, hsame⟩, order, horder, point, hpoint, hpos, rfl⟩, ⟨r, c'⟩, hprune,
    hcheck⟩ := h
  obtain ⟨ha, ht⟩ := Threaded.reaches hopen hrun
  have hsealed : Sealed c := sealed_of_last horder hpoint (by omega)
  have hun : Unambiguous transferEnv c := unambiguous_of_nodup hnodup hsame
  refine ⟨c', hrun.tail ⟨.prune none, ?_, map_eq_ok.mpr ⟨_, hprune, rfl⟩⟩, hcheck⟩
  exact ⟨keepsThreads_of_sealed ht ha hsealed, hun, hroom⟩

/-- Two blocks on genesis, pruned to the tip, and two blocks more, pruned to the tip again. -/
theorem retained_proof_twice : ∃ (c : DagChain Transaction) (h : DagBlockHeader)
    (rest : List DagBlockHeader), c.proof.length = 2 ∧ c.headers.lookup c.genesisDag = some h ∧
    HeaderChain transferEnv.blake3 c.originalGenesis (h :: rest) ∧
    c.proof = (proofOf transferEnv.blake3 (h :: rest)).reverse ∧
    verifyProof transferEnv.blake3 c.proof c.genesisDag c.originalGenesis =
      .ok (accumulatedWork (proofOf transferEnv.blake3 (h :: rest))) := by
  have hrun : returnsWith (openWithGenesis transferEnv prunableParams []) (fun o =>
      returnsWith o fun c₀ =>
        ((c₀.setFinalityDepth 1).acceptAll transferEnv 1750000500
          (c₀.mineAll transferEnv [1750000010, 1750000020])).any fun c =>
        prunesToTip c fun d =>
          (d.acceptAll transferEnv 1750000500
            (d.mineAll transferEnv [1750000030, 1750000040])).any fun d₁ =>
          prunesToTip d₁ fun e =>
            decide (e.proof.length = 2 ∧ e.genesisDag ≠ e.originalGenesis)) = true := by
    decide +kernel
  simp only [returnsWith_iff, Option.any_eq_true] at hrun
  obtain ⟨_, hopen, c₀, rfl, c, haccept, hprune⟩ := hrun
  have hdepth : StepOn transferEnv (ThreadedCall transferEnv) c₀ (c₀.setFinalityDepth 1) :=
    ⟨.setFinalityDepth 1, trivial, rfl⟩
  have hfirst := (Accepts.of_acceptAll .nil haccept).reachesOn (P := ThreadedCall transferEnv)
    fun _ _ _ _ => trivial
  obtain ⟨d, hd, hmore⟩ := reaches_of_prunesToTip hopen (hfirst.head hdepth) hprune
  rw [Option.any_eq_true] at hmore
  obtain ⟨d₁, haccept', hprune'⟩ := hmore
  have hsecond := (Accepts.of_acceptAll .nil haccept').reachesOn (P := ThreadedCall transferEnv)
    fun _ _ _ _ => trivial
  obtain ⟨e, he, hend⟩ := reaches_of_prunesToTip hopen (hd.trans hsecond) hprune'
  obtain ⟨hlen, hpruned⟩ := of_decide_eq_true hend
  obtain ⟨h, rest, hretained⟩ := retained_proof hopen he hpruned
  exact ⟨e, h, rest, hlen, hretained⟩

end Example

end TaoDag.Dagvm
