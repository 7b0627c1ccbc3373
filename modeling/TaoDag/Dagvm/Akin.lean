import TaoDag.Dagvm.Anchored
import TaoDag.Dagvm.Converge

namespace TaoDag.Dagvm.DagChain

open Consensus (DagBlock DagBlockHeader Target)
open Database (AppendFault BlockLog)
open Ghostdag (DagEngine GhostdagData)
open Ghostdag.DagEngine (Consistent Within Rooted)
open TaoDag.Runtime (Env)

variable {Tx : Type} {env : Env Tx} {c d d₁ d₂ : DagChain Tx} {x y cur : Hash}

/-- How many blocks of the engine have less work. -/
def below (e : DagEngine) (x : Hash) : Nat := (e.dag.blocks.filter fun y => e.work y < e.work x).card

theorem below_lt {e : DagEngine} (hy : y ∈ e.dag.blocks) (hlt : e.work y < e.work x) :
    below e y < below e x := by
  refine Finset.card_lt_card ⟨fun z hz => ?_, fun hsub => ?_⟩
  · rw [Finset.mem_filter] at hz ⊢
    exact ⟨hz.1, hz.2.trans hlt⟩
  · have hmem := hsub (Finset.mem_filter.mpr ⟨hy, hlt⟩)
    exact Nat.lt_irrefl _ (Finset.mem_filter.mp hmem).2

theorem below_le {e : DagEngine} : below e x ≤ e.gd.entries.length := by
  rw [← Ghostdag.DagEngine.card_blocks]
  exact Finset.card_le_card (Finset.filter_subset _ _)

/-- The selected parent of a block above the origin. -/
theorem Anchored.selectedParent (h : Anchored env d) (hx : x ∈ d.blocks) (hne : x ≠ d.genesisDag) :
    ∃ data, d.engine.gd.lookup x = some data ∧ data.selectedParent ∈ d.blocks ∧
      d.engine.work data.selectedParent < d.engine.work x := by
  have inv := h.rooted.grown.ready_best.1
  obtain ⟨hmem, hor⟩ := h.blocks x hx
  obtain ⟨data, hdata⟩ := Ghostdag.DagEngine.mem_blocks.mp hmem
  have hparent := inv.selected hdata hor
  have hsp : data.selectedParent ≠ blockhash.origin :=
    fun heq => h.rooted.origin_not_mem hne (heq ▸ hparent)
  exact ⟨data, hdata, (h.closed x _ hparent).resolve_right hsp, inv.work hparent hsp⟩

/-- Two anchored chains that agree on what both hold. -/
structure Akin (env : Env Tx) (d₁ d₂ : DagChain Tx) : Prop where
  left : Anchored env d₁
  right : Anchored env d₂
  engine : Consistent d₁.engine d₂.engine
  genesisDag : d₁.genesisDag = d₂.genesisDag
  genesisTarget : d₁.genesisTarget = d₂.genesisTarget
  blockTimeSecs : d₁.blockTimeSecs = d₂.blockTimeSecs
  lwmaWindow : d₁.lwmaWindow = d₂.lwmaWindow
  headers : ∀ x ∈ d₁.blocks, x ∈ d₂.blocks → d₁.headers.lookup x = d₂.headers.lookup x

section Akin

theorem data_of_lookup {e : DagEngine} {data : GhostdagData} (h : e.gd.lookup x = some data) :
    e.data x = .ok data := by
  rw [DagEngine.data, DagEngine.getData, h]
  rfl

theorem Akin.data (h : Akin env d₁ d₂) (hx₁ : x ∈ d₁.blocks) (hx₂ : x ∈ d₂.blocks) :
    d₁.engine.data x = d₂.engine.data x := by
  obtain ⟨data₁, hdata₁⟩ := Ghostdag.DagEngine.mem_blocks.mp (h.left.blocks x hx₁).1
  obtain ⟨data₂, hdata₂⟩ := Ghostdag.DagEngine.mem_blocks.mp (h.right.blocks x hx₂).1
  rw [data_of_lookup hdata₁, data_of_lookup hdata₂, h.engine.gd hdata₁ hdata₂]

theorem mapM_congr {α β ε : Type} {f g : α → Except ε β} {l : List α} (h : ∀ a ∈ l, f a = g a) :
    l.mapM f = l.mapM g := by
  induction l with
  | nil => rfl
  | cons a l ih =>
    rw [List.mapM_cons, List.mapM_cons, h a List.mem_cons_self,
      ih fun b hb => h b (List.mem_cons_of_mem a hb)]

theorem Akin.selectedParentDag (h : Akin env d₁ d₂) {ps : List Hash} (hps₁ : ∀ q ∈ ps, q ∈ d₁.blocks)
    (hps₂ : ∀ q ∈ ps, q ∈ d₂.blocks) : d₁.selectedParentDag ps = d₂.selectedParentDag ps := by
  rw [DagChain.selectedParentDag, DagChain.selectedParentDag, h.genesisDag,
    mapM_congr fun q hq => by rw [h.data (hps₁ q hq) (hps₂ q hq)]]

/-- The selected parent is one of the parents, of greatest work. -/
theorem selectedParentDag_spec {ps : List Hash} (hps : ps ≠ [])
    (hmem : ∀ q ∈ ps, q ∈ d.engine.dag.blocks) : ∃ sp, d.selectedParentDag ps = .ok sp ∧ sp ∈ ps ∧
      ∀ q ∈ ps, (d.engine.key q).le (d.engine.key sp) := by
  have hweighed : Returns True (ps.mapM fun q => do
      return (⟨q, (← d.engine.data q).blueWork⟩ : Ghostdag.SortableBlock))
      fun bs => bs = ps.map d.engine.key ∧ ∀ q ∈ ps, True := by
    refine Returns.mapM fun q hq => ?_
    obtain ⟨data, hdata⟩ := Ghostdag.DagEngine.mem_blocks.mp (hmem q hq)
    rw [data_of_lookup hdata]
    refine Returns.pure ⟨?_, trivial⟩
    rw [DagEngine.key, DagEngine.work, hdata]
    rfl
  obtain ⟨bs, hbs, rfl, _⟩ := hweighed.total
  rw [DagChain.selectedParentDag, hbs]
  cases ps with
  | nil => exact absurd rfl hps
  | cons q qs =>
    obtain ⟨hmax, hle⟩ :=
      Ghostdag.GhostdagManager.maxSortable_spec (d.engine.key q) (qs.map d.engine.key)
    rw [← List.map_cons] at hmax hle
    obtain ⟨sp, hsp, hspmax⟩ := List.mem_map.mp hmax
    refine ⟨sp, ?_, hsp, fun r hr => ?_⟩
    · change Except.ok (Ghostdag.GhostdagManager.maxSortable (d.engine.key q)
        (qs.map d.engine.key)).hash = _
      rw [← hspmax]
      rfl
    · rw [hspmax]
      exact hle _ (List.mem_map_of_mem hr)

/-- The walk down the selected chain returns on both chains, and with the same blocks. -/
theorem Akin.sampleChain (h : Akin env d₁ d₂) (take : Nat) {fuel₁ fuel₂ : Nat} {above : List Hash}
    (hcur₁ : cur ∈ d₁.blocks) (hcur₂ : cur ∈ d₂.blocks)
    (habove : ∀ x ∈ above, x ∈ d₁.blocks ∧ x ∈ d₂.blocks)
    (hfuel₁ : below d₁.engine cur < fuel₁) (hfuel₂ : below d₂.engine cur < fuel₂) :
    ∃ chain, d₁.sampleChain take fuel₁ cur above = .ok chain ∧
      d₂.sampleChain take fuel₂ cur above = .ok chain ∧
      ∀ x ∈ chain, x ∈ d₁.blocks ∧ x ∈ d₂.blocks := by
  induction fuel₁ generalizing fuel₂ cur above with
  | zero => exact absurd hfuel₁ (Nat.not_lt_zero _)
  | succ fuel₁ ih =>
    cases fuel₂ with
    | zero => exact absurd hfuel₂ (Nat.not_lt_zero _)
    | succ fuel₂ =>
      have hnext : ∀ x ∈ cur :: above, x ∈ d₁.blocks ∧ x ∈ d₂.blocks := by
        intro x hx
        rcases List.mem_cons.mp hx with rfl | hx
        · exact ⟨hcur₁, hcur₂⟩
        · exact habove x hx
      rw [DagChain.sampleChain, DagChain.sampleChain, ← h.genesisDag]
      by_cases hstop : take ≤ above.length + 1 ∨ cur = d₁.genesisDag
      · rw [if_pos hstop, if_pos hstop]
        exact ⟨cur :: above, rfl, rfl, hnext⟩
      · rw [if_neg hstop, if_neg hstop]
        have hne : cur ≠ d₁.genesisDag := fun heq => hstop (Or.inr heq)
        obtain ⟨data₁, hdata₁, hsp₁, hwork₁⟩ := h.left.selectedParent hcur₁ hne
        obtain ⟨data₂, hdata₂, hsp₂, hwork₂⟩ := h.right.selectedParent hcur₂ (h.genesisDag ▸ hne)
        have hsame := h.engine.gd hdata₁ hdata₂
        subst hsame
        rw [DagEngine.selectedParent, DagEngine.selectedParent, data_of_lookup hdata₁,
          data_of_lookup hdata₂]
        have hlt₁ := below_lt (h.left.blocks _ hsp₁).1 hwork₁
        have hlt₂ := below_lt (h.right.blocks _ hsp₂).1 hwork₂
        exact ih hsp₁ hsp₂ hnext (by omega) (by omega)

theorem Akin.selectedChainTarget (h : Akin env d₁ d₂) (hx₁ : x ∈ d₁.blocks) (hx₂ : x ∈ d₂.blocks) :
    d₁.selectedChainTarget x = d₂.selectedChainTarget x := by
  have hb₁ : below d₁.engine x < d₁.engine.gd.entries.length + 1 := Nat.lt_succ_of_le below_le
  have hb₂ : below d₂.engine x < d₂.engine.gd.entries.length + 1 := Nat.lt_succ_of_le below_le
  obtain ⟨chain, hrun₁, hrun₂, hmem⟩ :=
    h.sampleChain (min (d₁.lwmaWindow + 1) u64Max) hx₁ hx₂ (List.forall_mem_nil _) hb₁ hb₂
  have hheaders : (chain.filterMap fun y => d₁.headers.lookup y) =
      chain.filterMap fun y => d₂.headers.lookup y :=
    List.filterMap_congr fun y hy => h.headers y (hmem y hy).1 (hmem y hy).2
  rw [DagChain.selectedChainTarget, DagChain.selectedChainTarget, ← h.lwmaWindow, hrun₁, hrun₂]
  simp only [bind, Except.bind, hheaders, h.blockTimeSecs, h.genesisTarget]

theorem Akin.interlinkForParent (h : Akin env d₁ d₂) (hx₁ : x ∈ d₁.blocks) (hx₂ : x ∈ d₂.blocks) :
    d₁.interlinkForParent x = d₂.interlinkForParent x := by
  rw [DagChain.interlinkForParent, DagChain.interlinkForParent, h.headers x hx₁ hx₂]

/-- A block whose parents both chains hold is judged alike by the two. -/
theorem Akin.checkContext (h : Akin env d₁ d₂) {block : DagBlock} (hne : block.header.parents ≠ [])
    (hps₁ : ∀ q ∈ block.header.parents, q ∈ d₁.blocks)
    (hps₂ : ∀ q ∈ block.header.parents, q ∈ d₂.blocks) :
    d₁.checkContext block = d₂.checkContext block := by
  obtain ⟨sp, hrun, hsp, _⟩ := selectedParentDag_spec hne fun q hq => (h.left.blocks q (hps₁ q hq)).1
  have hrun₂ := hrun
  rw [h.selectedParentDag hps₁ hps₂] at hrun₂
  have hall₁ : (!block.header.parents.all (· ∈ d₁.blocks)) = false := by simpa using hps₁
  have hall₂ : (!block.header.parents.all (· ∈ d₂.blocks)) = false := by simpa using hps₂
  rw [DagChain.checkContext, DagChain.checkContext, hall₁, hall₂, hrun, hrun₂]
  simp only [Bool.false_eq_true, if_false, bind, Except.bind]
  rw [h.selectedChainTarget (hps₁ sp hsp) (hps₂ sp hsp), h.headers sp (hps₁ sp hsp) (hps₂ sp hsp),
    h.interlinkForParent (hps₁ sp hsp) (hps₂ sp hsp)]

end Akin

end TaoDag.Dagvm.DagChain
