import TaoDag.Dagvm.Akin

namespace TaoDag.Dagvm.DagChain

open Consensus (DagBlock DagBlockHeader)
open Database (AppendFault BlockLog)
open Ghostdag (DagEngine)
open Ghostdag.DagEngine (Consistent Within)
open TaoDag.Runtime (Env)

variable {Tx : Type} {env : Env Tx} {c d d' d₁ d₂ : DagChain Tx}
  {tried tried' tried₁ tried₂ : List DagBlock} {block : DagBlock}

/-- The chain `d` has grown out of `c` by blocks of a list. The engine of `d` may hold some that
`d` does not. -/
structure Extends (env : Env Tx) (tried : List DagBlock) (c d : DagChain Tx) : Prop where
  anchored : Anchored env d
  k : d.k = c.k
  genesisDag : d.genesisDag = c.genesisDag
  genesisTarget : d.genesisTarget = c.genesisTarget
  blockTimeSecs : d.blockTimeSecs = c.blockTimeSecs
  lwmaWindow : d.lwmaWindow = c.lwmaWindow
  historyPruned : d.historyPruned = c.historyPruned
  within : Within c.engine d.engine
  relations : ∀ {x ps}, d.engine.relations.lookup x = some ps →
    c.engine.relations.lookup x = some ps ∨
      ∃ b ∈ tried, b.id env.blake3 = x ∧ b.header.parents = ps
  blocks : c.blocks ⊆ d.blocks
  known : ∀ x ∈ d.blocks, x ∈ c.blocks ∨ ∃ b ∈ tried, b.id env.blake3 = x
  headers : ∀ x ∈ c.blocks, d.headers.lookup x = c.headers.lookup x
  fresh : ∀ {x h}, d.headers.lookup x = some h →
    x ∈ c.blocks ∨ ∃ b ∈ tried, b.id env.blake3 = x ∧ b.header = h

theorem Anchored.extends (h : Anchored env c) : Extends env [] c c where
  anchored := h
  k := rfl
  genesisDag := rfl
  genesisTarget := rfl
  blockTimeSecs := rfl
  lwmaWindow := rfl
  historyPruned := rfl
  within := ⟨id, id⟩
  relations := Or.inl
  blocks := Finset.Subset.refl _
  known _ hx := Or.inl hx
  headers _ _ := rfl
  fresh hx := Or.inl ((h.headers _).mpr ⟨_, hx⟩)

theorem Extends.mono (h : Extends env tried c d) (hsub : ∀ b ∈ tried, b ∈ tried') :
    Extends env tried' c d where
  anchored := h.anchored
  k := h.k
  genesisDag := h.genesisDag
  genesisTarget := h.genesisTarget
  blockTimeSecs := h.blockTimeSecs
  lwmaWindow := h.lwmaWindow
  historyPruned := h.historyPruned
  within := h.within
  relations hx := (h.relations hx).imp_right fun ⟨b, hb, hid⟩ => ⟨b, hsub b hb, hid⟩
  blocks := h.blocks
  known x hx := (h.known x hx).imp_right fun ⟨b, hb, hid⟩ => ⟨b, hsub b hb, hid⟩
  headers := h.headers
  fresh hx := (h.fresh hx).imp_right fun ⟨b, hb, hid⟩ => ⟨b, hsub b hb, hid⟩

/-- What a chain extends another by. -/
theorem Extends.of_eq (h : Extends env tried c d) (hanchored : Anchored env d')
    (hframe : d'.engine = d.engine ∧ d'.k = d.k ∧ d'.genesisDag = d.genesisDag ∧
      d'.genesisTarget = d.genesisTarget ∧ d'.blockTimeSecs = d.blockTimeSecs ∧
      d'.lwmaWindow = d.lwmaWindow ∧ d'.historyPruned = d.historyPruned)
    (hblocks : d'.blocks = d.blocks) (hheaders : d'.headers = d.headers) :
    Extends env tried c d' := by
  obtain ⟨hengine, hk, hgenesis, htarget, htime, hwindow, hpruned⟩ := hframe
  constructor
  case anchored => exact hanchored
  case k => exact hk.trans h.k
  case genesisDag => exact hgenesis.trans h.genesisDag
  case genesisTarget => exact htarget.trans h.genesisTarget
  case blockTimeSecs => exact htime.trans h.blockTimeSecs
  case lwmaWindow => exact hwindow.trans h.lwmaWindow
  case historyPruned => exact hpruned.trans h.historyPruned
  case within => exact hengine ▸ h.within
  case relations => exact hengine ▸ h.relations
  case blocks => exact hblocks ▸ h.blocks
  case known => exact hblocks ▸ h.known
  case headers => exact hheaders ▸ h.headers
  case fresh => exact hheaders ▸ h.fresh

/-- A block over known parents. -/
theorem Extends.apply (h : Extends env tried c d) {r : Except String Unit}
    (hps : d.engineParents block.header.parents = block.header.parents)
    (hrun : d.apply env block = .ok (r, d')) : Extends env (tried ++ [block]) c d' := by
  have hmono : Extends env (tried ++ [block]) c d := h.mono fun b hb => List.mem_append_left _ hb
  have hself : block ∈ tried ++ [block] := by simp
  have hanchored := h.anchored.apply hrun
  have hknown : ∀ q ∈ block.header.parents, q ∈ d.blocks := by
    intro q hq
    rw [← hps] at hq
    exact mem_engineParents h.anchored.origin hq
  rcases applyWithId_cases hrun with ⟨_, _, rfl⟩ | ⟨hnew, engine, hadd, hrest⟩
  · exact hmono
  rw [hps] at hadd
  have inv := h.anchored.rooted.grown.ready_best.1
  obtain ⟨data, _, _, ha, _⟩ :=
    inv.step (fun hor => absurd hor (h.anchored.originAlone hknown)) hadd
  have hwithin : Within c.engine engine :=
    ⟨fun hx => (ha.within inv).gd (h.within.gd hx),
      fun hx => (ha.within inv).relations (h.within.relations hx)⟩
  have hrelations : ∀ {x ps}, engine.relations.lookup x = some ps →
      c.engine.relations.lookup x = some ps ∨
        ∃ b ∈ tried ++ [block], b.id env.blake3 = x ∧ b.header.parents = ps := by
    intro x ps hx
    by_cases hid : x = block.id env.blake3
    · rw [hid, ha.relations_self] at hx
      exact Or.inr ⟨block, hself, hid.symm, Option.some.inj hx⟩
    · rw [ha.relations_of_ne hid] at hx
      exact hmono.relations hx
  rcases hrest with ⟨e, _, _, rfl⟩ | ⟨txs, _, _, rfl⟩
  · exact { hmono with anchored := hanchored, within := hwithin, relations := hrelations }
  · have hne : ∀ {x}, x ∈ d.blocks → x ≠ block.id env.blake3 := fun hx heq => hnew (heq ▸ hx)
    refine { hmono with
      anchored := hanchored
      within := hwithin
      relations := hrelations
      blocks := h.blocks.trans (Finset.subset_insert _ _)
      known := fun x hx => ?_
      headers := fun x hx => ?_
      fresh := fun {x hd} hx => ?_ }
    · rcases Finset.mem_insert.mp hx with rfl | hx
      · exact Or.inr ⟨block, hself, rfl⟩
      · exact hmono.known x hx
    · exact (AList.lookup_insert_ne (hne (h.blocks hx))).trans (h.headers x hx)
    · change (d.headers.insert (block.id env.blake3) block.header).lookup x = some hd at hx
      by_cases hid : x = block.id env.blake3
      · rw [hid, AList.lookup_insert] at hx
        exact Or.inr ⟨block, hself, hid.symm, Option.some.inj hx⟩
      · rw [AList.lookup_insert_ne hid] at hx
        exact hmono.fresh hx

theorem Extends.appendAndApply (h : Extends env tried c d) {io : Option AppendFault}
    {r : Except String Unit}
    (hps : d.engineParents block.header.parents = block.header.parents)
    (hrun : d.appendAndApply env io block = .ok (r, d')) :
    Extends env (tried ++ [block]) c d' := by
  have hlog : ∀ log, Extends env tried c { d with log } := fun log =>
    h.of_eq (h.anchored.of_eq rfl rfl rfl rfl rfl) ⟨rfl, rfl, rfl, rfl, rfl, rfl, rfl⟩ rfl rfl
  rcases appendAndApply_cases hrun with ⟨e, log, _, _, rfl⟩ | ⟨log, _, hrun⟩
  · exact (hlog log).mono fun b hb => List.mem_append_left _ hb
  · exact (hlog log).apply hps hrun

theorem Extends.accept (h : Extends env tried c d) {io : Option AppendFault} {now : Int}
    {r : Except String Unit} (hrun : d.accept env io now block = .ok (r, d')) :
    Extends env (tried ++ [block]) c d' := by
  rcases accept_cases hrun with rfl | ⟨hpass, hrun⟩
  · exact h.mono fun b hb => List.mem_append_left _ hb
  · obtain ⟨hne, hnodup, hknown⟩ := hpass.parents
    exact h.appendAndApply (engineParents_of_known hne hnodup hknown) hrun

/-- Two chains that have grown out of one agree on what both hold. -/
theorem Extends.akin (h₁ : Extends env tried₁ c d₁) (h₂ : Extends env tried₂ c d₂)
    (hfree : CollisionFree env.blake3 (tried₁ ++ tried₂)) : Akin env d₁ d₂ := by
  have hsame : ∀ b₁ ∈ tried₁, ∀ b₂ ∈ tried₂, b₁.id env.blake3 = b₂.id env.blake3 →
      b₁.header = b₂.header := fun b₁ hb₁ b₂ hb₂ =>
    hfree b₁ (List.mem_append_left _ hb₁) b₂ (List.mem_append_right _ hb₂)
  have hgen : d₁.genesisDag = d₂.genesisDag := h₁.genesisDag.trans h₂.genesisDag.symm
  have hgrown₁ := h₁.anchored.rooted.grown
  have hgrown₂ := h₂.anchored.rooted.grown
  rw [← hgen, h₂.k, ← h₁.k] at hgrown₂
  refine ⟨h₁.anchored, h₂.anchored, hgrown₁.consistent hgrown₂ fun {x ps₁ ps₂} hx₁ hx₂ => ?_, hgen,
    h₁.genesisTarget.trans h₂.genesisTarget.symm, h₁.blockTimeSecs.trans h₂.blockTimeSecs.symm,
    h₁.lwmaWindow.trans h₂.lwmaWindow.symm, fun x hx₁ hx₂ => ?_⟩
  · rcases h₁.relations hx₁ with hold | ⟨b₁, hb₁, hid₁, hps₁⟩
    · exact Option.some.inj ((h₂.within.relations hold).symm.trans hx₂)
    rcases h₂.relations hx₂ with hold | ⟨b₂, hb₂, hid₂, hps₂⟩
    · exact (Option.some.inj ((h₁.within.relations hold).symm.trans hx₁)).symm
    · rw [← hps₁, ← hps₂, hsame b₁ hb₁ b₂ hb₂ (hid₁.trans hid₂.symm)]
  · by_cases hx : x ∈ c.blocks
    · rw [h₁.headers x hx, h₂.headers x hx]
    · obtain ⟨hd₁, hl₁⟩ := (h₁.anchored.headers x).mp hx₁
      obtain ⟨hd₂, hl₂⟩ := (h₂.anchored.headers x).mp hx₂
      obtain ⟨b₁, hb₁, hid₁, hh₁⟩ := (h₁.fresh hl₁).resolve_left hx
      obtain ⟨b₂, hb₂, hid₂, hh₂⟩ := (h₂.fresh hl₂).resolve_left hx
      rw [hl₁, hl₂, ← hh₁, ← hh₂, hsame b₁ hb₁ b₂ hb₂ (hid₁.trans hid₂.symm)]

/-- The clock only ever makes a block more acceptable. -/
theorem validateBlockIntrinsic_mono {now now' : Int} (hnow : now ≤ now')
    (h : validateBlockIntrinsic env now block = .ok ()) :
    validateBlockIntrinsic env now' block = .ok () := by
  have hmin : min (now + maxTimestampDriftSecs) Consensus.i64Max ≤
      min (now' + maxTimestampDriftSecs) Consensus.i64Max :=
    min_le_min_right _ (Int.add_le_add_right hnow _)
  simp only [validateBlockIntrinsic] at h ⊢
  split_ifs at h ⊢ with hpow hparents hmany hdup htxs hbytes hroot hlate hlate'
  · exact absurd (hmin.trans_lt hlate) hlate'
  · rfl

/-- A block that passes all checks once its parents are there, at any time from `now₀` on. -/
structure Valid (env : Env Tx) (now₀ : Int) (tried : List DagBlock) (c : DagChain Tx)
    (block : DagBlock) : Prop where
  intrinsic : validateBlockIntrinsic env now₀ block = .ok ()
  context : ∃ now e, Extends env tried c e ∧ Passes env now e block
  fits : (LogRecord.block block).serialize.length < 2^32
  decodes : ∃ txs, decodeTxs env block.transactions = .ok txs

theorem Valid.mono {now₀ : Int} (h : Valid env now₀ tried c block)
    (hsub : ∀ b ∈ tried, b ∈ tried') : Valid env now₀ tried' c block := by
  obtain ⟨now, e, he, hpass⟩ := h.context
  exact ⟨h.intrinsic, ⟨now, e, he.mono hsub, hpass⟩, h.fits, h.decodes⟩

theorem Passes.taken {io : Option AppendFault} {now : Int} (hpass : Passes env now d block)
    (hrun : d.accept env io now block = .ok (.ok (), d')) :
    (LogRecord.block block).serialize.length < 2^32 ∧
      ∃ txs, decodeTxs env block.transactions = .ok txs :=
  appendAndApply_taken hpass.unknown (accept_of_passes hpass ▸ hrun)

/-- Every block of a run of accepted blocks is valid, and the run holds them and what there was. -/
theorem Accepts.valid {blocks : List DagBlock} {now₀ : Int} (hanchored : Anchored env c)
    (h : Accepts env c blocks d) (hnow : ∀ b ∈ blocks, validateBlockIntrinsic env now₀ b = .ok ()) :
    Extends env blocks c d ∧ ∀ b ∈ blocks, b.id env.blake3 ∉ c.blocks →
      ∃ b' ∈ blocks, b'.id env.blake3 = b.id env.blake3 ∧ Valid env now₀ blocks c b' := by
  induction h with
  | nil => exact ⟨hanchored.extends, fun b hb => absurd hb List.not_mem_nil⟩
  | @snoc blocks d d' block io now before run ih =>
    obtain ⟨hext, hvalid⟩ := ih fun b hb => hnow b (List.mem_append_left _ hb)
    have hsub : ∀ b ∈ blocks, b ∈ blocks ++ [block] := fun b hb => List.mem_append_left _ hb
    refine ⟨hext.accept run, fun b hb hnew => ?_⟩
    have hold : ∀ b ∈ blocks, b.id env.blake3 ∉ c.blocks → ∃ b' ∈ blocks ++ [block],
        b'.id env.blake3 = b.id env.blake3 ∧ Valid env now₀ (blocks ++ [block]) c b' := by
      intro b hb hnew
      obtain ⟨b', hb', hid, hv⟩ := hvalid b hb hnew
      exact ⟨b', hsub b' hb', hid, hv.mono hsub⟩
    rcases List.mem_append.mp hb with hb | hb
    · exact hold b hb hnew
    · rw [List.mem_singleton.mp hb] at hnew ⊢
      rcases accept_ok_cases run with ⟨hknown, _⟩ | ⟨hpass, _⟩
      · obtain ⟨b', hb', hid⟩ := (hext.known _ hknown).resolve_left hnew
        obtain ⟨b'', hb'', hid', hv⟩ := hold b' hb' (hid ▸ hnew)
        exact ⟨b'', hb'', hid'.trans hid, hv⟩
      · obtain ⟨hfits, hdecodes⟩ := hpass.taken run
        exact ⟨block, by simp, rfl, hnow block (by simp), ⟨now, d, hext.mono hsub, hpass⟩, hfits,
          hdecodes⟩

/-- What `accept` does to the blocks of the chain. -/
theorem accept_blocks {io : Option AppendFault} {now : Int} {r : Except String Unit}
    (hrun : d.accept env io now block = .ok (r, d')) :
    (r = .ok () ∧ block.id env.blake3 ∈ d'.blocks ∧ d.blocks ⊆ d'.blocks ∧
      ∀ x ∈ d'.blocks, x ∈ d.blocks ∨ x = block.id env.blake3) ∨
    ∃ e, r = .error e ∧ d'.blocks = d.blocks := by
  cases r with
  | ok u =>
    refine Or.inl ⟨rfl, ?_⟩
    rcases accept_ok_cases hrun with ⟨hknown, rfl⟩ | ⟨_, log, engine, txs, _, rfl⟩
    · exact ⟨hknown, Finset.Subset.refl _, fun x hx => Or.inl hx⟩
    · refine ⟨Finset.mem_insert_self _ _, Finset.subset_insert _ _, fun x hx => ?_⟩
      exact (Finset.mem_insert.mp hx).symm
  | error e =>
    refine Or.inr ⟨e, rfl, ?_⟩
    rcases accept_cases hrun with rfl | ⟨_, hrun⟩
    · rfl
    rcases appendAndApply_cases hrun with ⟨_, log, _, _, rfl⟩ | ⟨log, _, hrun⟩
    · rfl
    rcases applyWithId_cases hrun with ⟨_, hr, _⟩ | ⟨_, engine, _, hrest⟩
    · cases hr
    rcases hrest with ⟨_, _, _, rfl⟩ | ⟨txs, _, hr, _⟩
    · rfl
    · cases hr

/-- A valid block is accepted as soon as the chain has its parents, and refused until then. -/
theorem Valid.verdict {now₀ now : Int} {r : Except String Unit}
    (hv : Valid env now₀ tried c block) (hd : Extends env tried c d)
    (hfree : CollisionFree env.blake3 tried) (hnow : now₀ ≤ now)
    (hrun : d.accept env none now block = .ok (r, d')) :
    (r = .ok () ∧
      (block.id env.blake3 ∈ d.blocks ∨ ∀ q ∈ block.header.parents, q ∈ d.blocks)) ∨
    (block.id env.blake3 ∉ d.blocks ∧ (∃ q ∈ block.header.parents, q ∉ d.blocks) ∧ d' = d ∧
      r = .error (if d.historyPruned then "parent pruned" else "unknown parent (orphan)")) := by
  by_cases hid : block.id env.blake3 ∈ d.blocks
  · rw [accept, if_pos hid] at hrun
    cases hrun
    exact Or.inl ⟨rfl, Or.inl hid⟩
  obtain ⟨now', e, he, hpass⟩ := hv.context
  have hintrinsic := validateBlockIntrinsic_mono hnow hv.intrinsic
  by_cases hps : ∀ q ∈ block.header.parents, q ∈ d.blocks
  · refine Or.inl ⟨?_, Or.inr hps⟩
    obtain ⟨hne, _, hpse⟩ := hpass.parents
    have hakin : Akin env d e := hd.akin he fun b hb b' hb' =>
      hfree b (by simpa using hb) b' (by simpa using hb')
    have hcontext : d.checkContext block = .ok (.ok ()) := by
      rw [hakin.checkContext hne hps hpse]
      exact hpass.context
    rw [accept_of_passes ⟨hid, hintrinsic, hcontext⟩] at hrun
    obtain ⟨txs, htxs⟩ := hv.decodes
    rw [appendAndApply_verdict hid hrun, htxs]
    unfold BlockLog.append
    rw [if_pos hv.fits]
    rfl
  · have hall : (!block.header.parents.all (· ∈ d.blocks)) = true := by simpa using hps
    have hmissing : ∃ q ∈ block.header.parents, q ∉ d.blocks := by simpa using hps
    refine Or.inr ⟨hid, hmissing, ?_⟩
    rw [accept, if_neg hid, hintrinsic] at hrun
    simp only [checkContext, hall, if_true] at hrun
    have hany : (block.header.parents.any fun q =>
        q ≠ d.genesisDag ∧ d.historyPruned ∧ q ∉ d.blocks) = d.historyPruned := by
      obtain ⟨q, hq, hqd⟩ := hmissing
      have hne : q ≠ d.genesisDag := fun heq => hqd (heq ▸ hd.anchored.origin)
      cases hpruned : d.historyPruned with
      | true => exact List.any_eq_true.mpr ⟨q, hq, by simp [hne, hqd]⟩
      | false => simp
    rw [hany] at hrun
    cases hpruned : d.historyPruned with
    | true =>
      rw [hpruned] at hrun
      cases hrun
      exact ⟨rfl, rfl⟩
    | false =>
      rw [hpruned] at hrun
      cases hrun
      exact ⟨rfl, rfl⟩

end TaoDag.Dagvm.DagChain
