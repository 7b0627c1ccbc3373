import TaoDag.Dagvm.Akin
import TaoDag.Dagvm.Interlink
import TaoDag.Dagvm.Replay

namespace TaoDag.Dagvm

open Consensus (DagBlock DagBlockHeader Target)
open Database (AppendFault BlockLog)
open Ghostdag (DagEngine SortableBlock)
open TaoDag.Runtime (Env)

namespace DagChain

variable {Tx : Type} {env : Env Tx} {p : Params} {c d d' : DagChain Tx} {block : DagBlock}
  {tried tried' : List DagBlock} {x : Hash}

/-- A known parent reaches the engine. -/
theorem engineParents_of_mem {ps : List Hash} (hx : x ∈ ps) (hknown : x ∈ d.blocks) :
    x ∈ d.engineParents ps := by
  have hmapped : x ∈ ps.map fun q => if q = d.genesisDag ∨ q ∈ d.blocks then q else d.genesisDag :=
    List.mem_map.mpr ⟨x, hx, if_pos (Or.inr hknown)⟩
  exact mem_dedupFirst_or.mpr (Or.inl hmapped)

/-- A block that the engine has already never becomes a parent of its own. -/
theorem engineParents_insert {ps : List Hash} {id : Hash} (hid : id ∉ ps)
    (hgenesis : d'.genesisDag = d.genesisDag) (hblocks : d'.blocks = insert id d.blocks) :
    d'.engineParents ps = d.engineParents ps := by
  have hmap : (ps.map fun q => if q = d.genesisDag ∨ q ∈ d'.blocks then q else d.genesisDag) =
      ps.map fun q => if q = d.genesisDag ∨ q ∈ d.blocks then q else d.genesisDag := by
    refine List.map_congr_left fun q hq => ?_
    have hne : q ≠ id := fun heq => hid (heq ▸ hq)
    rw [hblocks]
    simp only [Finset.mem_insert, hne, false_or]
  rw [engineParents, engineParents, hgenesis]
  simp only [hmap]

theorem engineParents_congr {ps : List Hash} (hgenesis : d'.genesisDag = d.genesisDag)
    (hblocks : d'.blocks = d.blocks) : d'.engineParents ps = d.engineParents ps := by
  rw [engineParents, engineParents, hgenesis, hblocks]

/-- A chain with its whole history, whose blocks come from a list. Its engine may hold blocks of
the list that the chain does not; a parent that is not a block of the chain is one of these. -/
structure Unpruned (env : Env Tx) (p : Params) (tried : List DagBlock) (d : DagChain Tx) :
    Prop where
  anchored : Anchored env d
  k : d.k = p.k
  genesisDag : d.genesisDag = (genesisHeader p).id env.blake3
  genesisTarget : d.genesisTarget = p.genesisTarget
  blockTimeSecs : d.blockTimeSecs = p.blockTimeSecs
  lwmaWindow : d.lwmaWindow = p.lwmaWindow
  root : d.headers.lookup d.genesisDag = some (genesisHeader p)
  relations : ∀ {x ps}, d.engine.relations.lookup x = some ps → x ≠ d.genesisDag →
    ∃ b ∈ tried, b.id env.blake3 = x ∧ d.engineParents b.header.parents = ps ∧
      ∀ q ∈ b.header.parents, q ∈ d.engine.dag.blocks
  headers : ∀ {x h}, d.headers.lookup x = some h → x ≠ d.genesisDag →
    (∃ b ∈ tried, b.id env.blake3 = x ∧ b.header = h) ∧
      d.engine.relations.lookup x = some (d.engineParents h.parents) ∧
      ∀ q ∈ h.parents, q ∈ d.engine.dag.blocks
  tips_ne : d.tips ≠ []
  tips : ∀ {x}, x ∈ d.tips ↔ x ∈ d.blocks ∧ ∀ y h, d.headers.lookup y = some h → x ∉ h.parents
  nodup : d.tips.Nodup

theorem open_unpruned (h : openWithGenesis env p [] = .ok (.ok c)) : Unpruned env p [] c := by
  have hanchored := open_anchored h
  have hgen := genesis_of_open_nil h
  obtain ⟨engine, hengine, hgen⟩ := bind_eq_ok.mp hgen
  cases hgen
  obtain ⟨_, hrel⟩ := freshEngine_spec hengine
  refine ⟨hanchored, rfl, rfl, rfl, rfl, rfl, ?_, fun {x ps} hx hne => ?_, fun {x h} hx hne => ?_,
    by simp, fun {x} => ?_, List.nodup_singleton _⟩
  · exact lookup_singleton.mpr ⟨rfl, rfl⟩
  · rw [hrel, if_neg hne] at hx
    cases hx
  · exact absurd (lookup_singleton.mp hx).1 hne
  · refine List.mem_singleton.trans (Finset.mem_singleton.symm.trans ⟨fun hx => ⟨hx, ?_⟩, And.left⟩)
    intro y h hy
    rw [(lookup_singleton.mp hy).2]
    exact List.not_mem_nil

theorem Unpruned.mono (h : Unpruned env p tried d) (hsub : ∀ b ∈ tried, b ∈ tried') :
    Unpruned env p tried' d := by
  refine { h with relations := fun hx hne => ?_, headers := fun hx hne => ?_ }
  · obtain ⟨b, hb, hrest⟩ := h.relations hx hne
    exact ⟨b, hsub b hb, hrest⟩
  · obtain ⟨⟨b, hb, hid⟩, hrest⟩ := h.headers hx hne
    exact ⟨⟨b, hsub b hb, hid⟩, hrest⟩

theorem Unpruned.of_eq (h : Unpruned env p tried d) (hanchored : Anchored env d')
    (hengine : d'.engine = d.engine) (hblocks : d'.blocks = d.blocks)
    (hheaders : d'.headers = d.headers) (htips : d'.tips = d.tips)
    (hframe : d'.k = d.k ∧ d'.genesisDag = d.genesisDag ∧ d'.genesisTarget = d.genesisTarget ∧
      d'.blockTimeSecs = d.blockTimeSecs ∧ d'.lwmaWindow = d.lwmaWindow) :
    Unpruned env p tried d' := by
  obtain ⟨hk, hgenesis, htarget, htime, hwindow⟩ := hframe
  have hps : ∀ ps, d'.engineParents ps = d.engineParents ps :=
    fun ps => engineParents_congr hgenesis hblocks
  constructor
  case anchored => exact hanchored
  case k => exact hk.trans h.k
  case genesisDag => exact hgenesis.trans h.genesisDag
  case genesisTarget => exact htarget.trans h.genesisTarget
  case blockTimeSecs => exact htime.trans h.blockTimeSecs
  case lwmaWindow => exact hwindow.trans h.lwmaWindow
  case root => rw [hheaders, hgenesis, h.root]
  case relations =>
    intro x ps hx hne
    rw [hengine] at hx ⊢
    simp only [hps]
    exact h.relations hx (hgenesis ▸ hne)
  case headers =>
    intro x hd hx hne
    rw [hheaders] at hx
    rw [hengine, hps]
    exact h.headers hx (hgenesis ▸ hne)
  case tips_ne => exact htips ▸ h.tips_ne
  case tips =>
    intro x
    rw [htips, hblocks, hheaders]
    exact h.tips
  case nodup => exact htips ▸ h.nodup

/-- A block over parents that the engine has. -/
theorem Unpruned.apply (h : Unpruned env p tried d) {r : Except String Unit}
    (hps : ∀ q ∈ block.header.parents, q ∈ d.engine.dag.blocks)
    (hrun : d.apply env block = .ok (r, d')) : Unpruned env p (tried ++ [block]) d' := by
  have hmono : Unpruned env p (tried ++ [block]) d := h.mono fun b hb => List.mem_append_left _ hb
  have hself : block ∈ tried ++ [block] := by simp
  have hanchored := h.anchored.apply hrun
  rcases applyWithId_cases hrun with ⟨_, _, rfl⟩ | ⟨hnew, engine, hadd, hrest⟩
  · exact hmono
  have hknown : ∀ q ∈ d.engineParents block.header.parents, q ∈ d.blocks :=
    fun q hq => mem_engineParents h.anchored.origin hq
  have inv := h.anchored.rooted.grown.ready_best.1
  obtain ⟨data, _, _, ha, _⟩ :=
    inv.step (fun hor => absurd hor (h.anchored.originAlone hknown)) hadd
  have hold : ∀ {q}, q ∈ d.engine.dag.blocks → q ∈ engine.dag.blocks :=
    fun hq => ha.mem_blocks_iff.mpr (Or.inr hq)
  have hne : ∀ {q}, q ∈ d.engine.dag.blocks → q ≠ block.id env.blake3 :=
    fun hq heq => ha.new (heq ▸ hq)
  have hroot : d.genesisDag ≠ block.id env.blake3 := hne (h.anchored.blocks _ h.anchored.origin).1
  have hrelations : ∀ {x ps}, engine.relations.lookup x = some ps → x ≠ d.genesisDag →
      ∃ b ∈ tried ++ [block], b.id env.blake3 = x ∧ d.engineParents b.header.parents = ps ∧
        ∀ q ∈ b.header.parents, q ∈ d.engine.dag.blocks := by
    intro x ps hx hxg
    by_cases hid : x = block.id env.blake3
    · rw [hid, ha.relations_self] at hx
      exact ⟨block, hself, hid.symm, Option.some.inj hx, hps⟩
    · rw [ha.relations_of_ne hid] at hx
      exact hmono.relations hx hxg
  have hheaders : ∀ {x hd}, d.headers.lookup x = some hd → x ≠ d.genesisDag →
      (∃ b ∈ tried ++ [block], b.id env.blake3 = x ∧ b.header = hd) ∧
        engine.relations.lookup x = some (d.engineParents hd.parents) ∧
        ∀ q ∈ hd.parents, q ∈ d.engine.dag.blocks := by
    intro x hd hx hxg
    obtain ⟨hb, hrel, hq⟩ := hmono.headers hx hxg
    have hxb := hne (h.anchored.blocks x ((h.anchored.headers x).mpr ⟨hd, hx⟩)).1
    exact ⟨hb, by rw [ha.relations_of_ne hxb, hrel], hq⟩
  rcases hrest with ⟨e, _, _, rfl⟩ | ⟨txs, _, _, rfl⟩
  · refine { hmono with anchored := hanchored, relations := fun hx hxg => ?_, headers := ?_ }
    · obtain ⟨b, hb, hid, hrel, hq⟩ := hrelations hx hxg
      exact ⟨b, hb, hid, hrel, fun q hqb => hold (hq q hqb)⟩
    · intro x hd hx hxg
      obtain ⟨hb, hrel, hq⟩ := hheaders hx hxg
      exact ⟨hb, hrel, fun q hqb => hold (hq q hqb)⟩
  · -- the engine's parents of the others are as before: their unknown ones stay unknown
    have hsame : ∀ {ps}, (∀ q ∈ ps, q ∈ d.engine.dag.blocks) →
        ({ d with engine }.insertBlock block (block.id env.blake3) txs).engineParents ps =
          d.engineParents ps := fun hq =>
      engineParents_insert (fun hmem => hne (hq (block.id env.blake3) hmem) rfl) rfl rfl
    have hcases : ∀ {x hd}, (d.headers.insert (block.id env.blake3) block.header).lookup x = some hd →
        (x = block.id env.blake3 ∧ hd = block.header) ∨ d.headers.lookup x = some hd := by
      intro x hd hx
      by_cases hid : x = block.id env.blake3
      · rw [hid, AList.lookup_insert] at hx
        exact Or.inl ⟨hid, (Option.some.inj hx).symm⟩
      · rw [AList.lookup_insert_ne hid] at hx
        exact Or.inr hx
    have hfree : ∀ {y hd}, (d.headers.insert (block.id env.blake3) block.header).lookup y = some hd →
        ∀ q ∈ hd.parents, q ∈ d.engine.dag.blocks := by
      intro y hd hy q hq
      rcases hcases hy with ⟨_, rfl⟩ | hy
      · exact hps q hq
      · by_cases hyg : y = d.genesisDag
        · rw [hyg, h.root] at hy
          cases hy
          cases hq
        · exact (h.headers hy hyg).2.2 q hq
    refine { hmono with
      anchored := hanchored
      root := (AList.lookup_insert_ne hroot).trans h.root
      relations := fun hx hxg => ?_
      headers := fun {x hd} hx hxg => ?_
      tips_ne := by simp [insertBlock]
      tips := fun {x} => ?_
      nodup := ?_ }
    · obtain ⟨b, hb, hid, hrel, hq⟩ := hrelations hx hxg
      exact ⟨b, hb, hid, (hsame hq).trans hrel, fun q hqb => hold (hq q hqb)⟩
    · rw [hsame (hfree hx)]
      refine ⟨?_, ?_, fun q hq => hold (hfree hx q hq)⟩
      · rcases hcases hx with ⟨hid, rfl⟩ | hx
        · exact ⟨block, hself, hid.symm, rfl⟩
        · exact (hheaders hx hxg).1
      · rcases hcases hx with ⟨hid, rfl⟩ | hx
        · rw [hid]
          exact ha.relations_self
        · exact (hheaders hx hxg).2.1
    · change x ∈ d.tips.filter (· ∉ block.header.parents) ++ [block.id env.blake3] ↔
        x ∈ insert (block.id env.blake3) d.blocks ∧ ∀ y hd,
          (d.headers.insert (block.id env.blake3) block.header).lookup y = some hd → x ∉ hd.parents
      rw [List.mem_append, List.mem_filter, List.mem_singleton, decide_eq_true_eq,
        Finset.mem_insert, h.tips]
      constructor
      · rintro (⟨⟨hx, hchildless⟩, hnot⟩ | rfl)
        · refine ⟨Or.inr hx, fun y hd hy => ?_⟩
          rcases hcases hy with ⟨_, rfl⟩ | hy
          · exact hnot
          · exact hchildless y hd hy
        · exact ⟨Or.inl rfl, fun y hd hy hmem => hne (hfree hy _ hmem) rfl⟩
      · rintro ⟨heq | hx, hchildless⟩
        · exact Or.inr heq
        · refine Or.inl ⟨⟨hx, fun y hd hy => hchildless y hd ?_⟩, ?_⟩
          · have hyb := hne (h.anchored.blocks y ((h.anchored.headers y).mpr ⟨hd, hy⟩)).1
            exact (AList.lookup_insert_ne hyb).trans hy
          · exact hchildless _ _ (AList.lookup_insert _)
    · change (d.tips.filter (· ∉ block.header.parents) ++ [block.id env.blake3]).Nodup
      refine List.Nodup.append (h.nodup.filter _) (List.nodup_singleton _) fun q hq hself => ?_
      have hqt := (List.mem_filter.mp hq).1
      rw [List.mem_singleton.mp hself] at hqt
      exact hnew (h.tips.mp hqt).1

end DagChain

end TaoDag.Dagvm
