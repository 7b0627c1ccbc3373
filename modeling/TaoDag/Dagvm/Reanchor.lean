import TaoDag.Dagvm.Finalized
import TaoDag.Dagvm.Linear
import TaoDag.Ghostdag.Reroot

namespace TaoDag.Dagvm

open Consensus (DagBlock DagBlockHeader)
open Database (BlockLog ReplaceFault)
open Ghostdag (DagEngine)
open Ghostdag.DagEngine (Tail)
open TaoDag.Runtime (Env)

namespace DagChain

variable {Tx : Type} {env : Env Tx} {p : Params} {c c' c₀ : DagChain Tx} {x y pt : Hash}
  {order suffix : List Hash} {i : Nat} {e e' : DagEngine}

section Parents

variable {kept ps : List Hash}

theorem mem_keptParents_of_not_mem (hx : x ∈ ps) (hkept : x ∉ kept) :
    pt ∈ keptParents kept pt ps := by
  apply mem_dedupFirst_or.mpr
  apply Or.inl
  apply List.mem_map.mpr
  exact ⟨x, hx, if_neg hkept⟩

/-- Parents that are all kept stay as they are. -/
theorem keptParents_of_subset (hne : ps ≠ []) (h : ∀ q ∈ ps, q ∈ kept) :
    keptParents kept pt ps = dedupFirst [] ps := by
  have hmap : ps.map (fun q => if q ∈ kept then q else pt) = ps := by
    rw [List.map_congr_left fun q hq => if_pos (h q hq)]
    exact List.map_id ps
  rw [keptParents, hmap]
  cases ps with
  | nil => exact absurd rfl hne
  | cons q ps => simp [dedupFirst]

/-- The engine gets the parents that are known when a block comes. -/
theorem engineParents_eq (horigin : c.genesisDag ∈ c.blocks) :
    c.engineParents ps = keptParents c.blocks.toList c.genesisDag ps := by
  have hmap : ps.map (fun q => if q = c.genesisDag ∨ q ∈ c.blocks then q else c.genesisDag) =
      ps.map fun q => if q ∈ c.blocks.toList then q else c.genesisDag := by
    apply List.map_congr_left
    intro q _
    by_cases hq : q ∈ c.blocks
    · simp [hq]
    · have hne : q ≠ c.genesisDag := fun heq => hq (heq ▸ horigin)
      simp [hq, hne]
  rw [engineParents, hmap]
  rfl

end Parents

/-- The engine has a known block over the parents that its header names, with the origin in the
place of those that were not there when it came. -/
def Mapped (c : DagChain Tx) : Prop :=
  ∀ y h, c.headers.lookup y = some h → y ≠ c.genesisDag →
    ∃ there, c.engine.dag.parents y = keptParents there c.genesisDag h.parents

theorem mapped_of_singleton {header : DagBlockHeader}
    (hheaders : c.headers = AList.singleton c.genesisDag header) : Mapped c := by
  intro y h hy hne
  rw [hheaders] at hy
  have hmem := AList.mem_keys.mp (AList.lookup_isSome.mp (by rw [hy]; rfl))
  simp at hmem
  exact absurd hmem hne

theorem Mapped.applyWithId (hm : Mapped c) (ha : Anchored env c) {block : DagBlock} {id : Hash}
    {r : Except String Unit} (hrun : c.applyWithId env block id = .ok (r, c')) : Mapped c' := by
  rcases applyWithId_cases hrun with ⟨_, _, rfl⟩ | ⟨_, engine, hadd, hrest⟩
  · exact hm
  have hps : ∀ q ∈ c.engineParents block.header.parents, q ∈ c.blocks :=
    fun q hq => mem_engineParents ha.origin hq
  have inv := ha.rooted.grown.ready_best.1
  obtain ⟨d, _, _, hadded, _⟩ := inv.step (fun hor => absurd hor (ha.originAlone hps)) hadd
  have hold : ∀ y h, c.headers.lookup y = some h → y ≠ c.genesisDag →
      ∃ there, engine.dag.parents y = keptParents there c.genesisDag h.parents := by
    intro y h hy hne
    have hnew : y ≠ id := by
      rintro rfl
      exact hadded.new (ha.blocks y ((ha.headers y).mpr ⟨h, hy⟩)).1
    rw [hadded.parents_eq inv.toInv, Function.update_of_ne hnew]
    exact hm y h hy hne
  rcases hrest with ⟨e, _, _, rfl⟩ | ⟨txs, _, _, rfl⟩
  · exact hold
  · intro y h hy hne
    change (c.headers.insert id block.header).lookup y = some h at hy
    by_cases hid : y = id
    · rw [hid, AList.lookup_insert] at hy
      cases hy
      refine ⟨c.blocks.toList, ?_⟩
      show engine.dag.parents y = _
      rw [hid, hadded.parents_eq inv.toInv, Function.update_self]
      exact engineParents_eq ha.origin
    · rw [AList.lookup_insert_ne hid] at hy
      exact hold y h hy hne

theorem Mapped.prune (hm : Mapped c) (ha : Anchored env c) {io : Option ReplaceFault}
    {r : Except Runtime.BankError Nat} (hrun : c.prune env io = .ok (r, c')) : Mapped c' := by
  rcases prune_cases hrun with ⟨log, rfl, _⟩ | hmore
  · exact hm
  obtain ⟨order, i, pt, bank, e, header, log, horder, _, hpt, _, he, _, _, _, rfl⟩ := hmore
  have hre := rerootEngine_reroots (ha.origin_not_kept horder hpt) he
  intro y h hy hne
  change (restrict c.headers (pt :: order.drop (i + 1))).lookup y = some h at hy
  rw [restrict_lookup] at hy
  by_cases hmem : y ∈ pt :: order.drop (i + 1)
  · rw [if_pos hmem] at hy
    obtain ⟨h', hh', hparents⟩ := hre.parents y ((List.mem_cons.mp hmem).resolve_left hne)
    cases hh'.symm.trans hy
    exact ⟨_, hparents⟩
  · rw [if_neg hmem] at hy
    cases hy

theorem mapped_kept (env : Env Tx) : Kept env fun c => Anchored env c ∧ Named c ∧ Mapped c where
  frame h hengine hk horigin hblocks hheaders := by
    obtain ⟨ha, hn⟩ := (named_kept env).frame ⟨h.1, h.2.1⟩ hengine hk horigin hblocks hheaders
    refine ⟨ha, hn, ?_⟩
    rw [Mapped, hengine, horigin, hheaders]
    exact h.2.2
  apply h hrun := by
    obtain ⟨ha, hn⟩ := (named_kept env).apply ⟨h.1, h.2.1⟩ hrun
    exact ⟨ha, hn, h.2.2.applyWithId h.1 hrun⟩
  load h hrun := by
    obtain ⟨ha, hn⟩ := (named_kept env).load ⟨h.1, h.2.1⟩ hrun
    refine ⟨ha, hn, ?_⟩
    obtain ⟨engine, _, hrun⟩ := bind_eq_ok.mp hrun
    cases hrun
    exact mapped_of_singleton rfl
  prune h hrun := by
    obtain ⟨ha, hn⟩ := (named_kept env).prune ⟨h.1, h.2.1⟩ hrun
    exact ⟨ha, hn, h.2.2.prune h.1 hrun⟩

theorem mapped_of_reaches {P : DagChain Tx → Call Tx → Prop} {file : Bytes}
    (hopen : openWithGenesis env p file = .ok (.ok c₀)) (hrun : Reaches env P c₀ c) :
    Anchored env c ∧ Named c ∧ Mapped c := by
  refine (mapped_kept env).reaches (fun {log c} h => ?_) hopen hrun
  have ha := genesis_anchored h
  obtain ⟨engine, hengine, h⟩ := bind_eq_ok.mp h
  cases h
  exact ⟨ha, named_of_freshEngine hengine, mapped_of_singleton rfl⟩

/-- No block above the pruning point has a parent that is cut off. -/
def Whole (c : DagChain Tx) (pt : Hash) (suffix : List Hash) : Prop :=
  ∀ y ∈ suffix, ∀ q ∈ c.engine.dag.parents y, q ∈ pt :: suffix

/-- A prune of the chain cuts no parent of a kept block off. -/
def Sealed (c : DagChain Tx) : Prop :=
  ∀ order i pt, c.totalOrder = .ok order → c.prunePoint order = .ok (some i) →
    order[i]? = some pt → Whole c pt (order.drop (i + 1))

/-- A prune that keeps the tip alone cuts nothing off. -/
theorem sealed_of_last (horder : c.totalOrder = .ok order)
    (hpoint : c.prunePoint order = .ok (some i)) (hlen : order.length = i + 1) : Sealed c := by
  intro order' i' pt horder' hpoint' _ y hy
  cases horder.symm.trans horder'
  cases hpoint.symm.trans hpoint'
  rw [← hlen, List.drop_length] at hy
  cases hy

theorem tail_fold {kept done : List Hash}
    (ht : Tail env.fractions c.k c.genesisDag pt c.engine e) (hre : Reroots env c pt kept done e)
    (hpt : pt ∈ kept) (hor : blockhash.origin ∉ kept) (hholds : ∀ x ∈ suffix, c.engine.Holds x)
    (hparents : ∀ x ∈ suffix, ∀ h, c.headers.lookup x = some h →
      c.engine.dag.parents x = keptParents kept pt h.parents)
    (hrun : suffix.foldlM (fun engine id => do
      let header ← expect "kept block has a header" (c.headers.lookup id)
      engine.addBlock env.fractions id (keptParents kept pt header.parents)) e = .ok e') :
    Tail env.fractions c.k c.genesisDag pt c.engine e' := by
  induction suffix generalizing e done with
  | nil =>
    cases hrun
    exact ht
  | cons x suffix ih =>
    rw [List.foldlM_cons] at hrun
    obtain ⟨e₁, hstep, hrun⟩ := bind_eq_ok.mp hrun
    obtain ⟨header, hheader, hadd⟩ := bind_eq_ok.mp hstep
    rw [expect_eq_ok] at hheader
    obtain ⟨hre₁, _, hknown⟩ := hre.step hpt hor hheader hadd
    have hps : ∀ q ∈ keptParents kept pt header.parents, e.Holds q := by
      intro q hq
      refine ⟨hknown q hq, ?_⟩
      rintro rfl
      exact hor (mem_keptParents hpt hq)
    apply ih _ hre₁ (fun y hy => hholds y (List.mem_cons_of_mem x hy))
      (fun y hy => hparents y (List.mem_cons_of_mem x hy)) hrun
    exact ht.add (hholds x List.mem_cons_self) (hparents x List.mem_cons_self header hheader) hps
      hadd

namespace Cut

theorem holds (h : Cut env c order i pt e) (hx : x ∈ pt :: order.drop (i + 1)) :
    c.engine.Holds x := by
  obtain ⟨hreach, hne⟩ := h.mem_order.mp (h.mem_order_iff.mpr (Or.inr hx))
  exact ⟨h.inv.index.dag.mem_of_reach hreach h.anchored.rooted.grown.ready_best.2.mem, hne⟩

theorem first_of_whole (h : Cut env c order i pt e) (hw : Whole c pt (order.drop (i + 1))) :
    pt ∉ order.take i := by
  apply h.first_of_selected
  intro b hb d hd _
  exact hw b hb _ (h.inv.selected hd (h.holds (List.mem_cons_of_mem _ hb)).2)

theorem origin_not_kept (h : Cut env c order i pt e) (hw : Whole c pt (order.drop (i + 1))) :
    c.genesisDag ∉ pt :: order.drop (i + 1) := by
  intro hmem
  rcases List.mem_cons.mp hmem with heq | hmem
  · exact h.first_of_whole hw (heq ▸ h.genesis_mem)
  · have hparent : blockhash.origin ∈ c.engine.dag.parents c.genesisDag := by
      rw [h.anchored.rooted.grown.recorded.2]
      exact List.mem_singleton.mpr rfl
    exact h.anchored.origin_not_kept h.run h.point (hw _ hmem _ hparent)

/-- The new engine gets the parents that the old one has. -/
theorem parents_eq (h : Cut env c order i pt e) (hm : Mapped c)
    (hw : Whole c pt (order.drop (i + 1))) (hy : y ∈ order.drop (i + 1)) {hd : DagBlockHeader}
    (hlookup : c.headers.lookup y = some hd) :
    c.engine.dag.parents y = keptParents (pt :: order.drop (i + 1)) pt hd.parents := by
  have hnot := h.origin_not_kept hw
  have hne : y ≠ c.genesisDag := fun heq => hnot (heq ▸ List.mem_cons_of_mem pt hy)
  obtain ⟨there, hparents⟩ := hm y hd hlookup hne
  have hkept := hw y hy
  rw [hparents] at hkept ⊢
  have hthere : ∀ q ∈ hd.parents, q ∈ there := by
    intro q hq
    by_contra hout
    exact hnot (hkept _ (mem_keptParents_of_not_mem hq hout))
  have hps : hd.parents ≠ [] := by
    intro hnil
    apply hnot
    apply hkept
    simp [hnil, keptParents, dedupFirst]
  rw [keptParents_of_subset hps hthere] at hkept ⊢
  refine (keptParents_of_subset hps fun q hq => hkept q ?_).symm
  exact mem_dedupFirst_of_mem hq List.not_mem_nil

theorem tail (h : Cut env c order i pt e) (hm : Mapped c) (hw : Whole c pt (order.drop (i + 1))) :
    Tail env.fractions c.k c.genesisDag pt c.engine e := by
  obtain ⟨e₀, hfresh, hrun⟩ := bind_eq_ok.mp h.reroot
  obtain ⟨hrooted, hblocks, _, _⟩ := freshEngine_rooted hfresh
  have honly : ∀ x, e₀.Holds x → x = pt := fun x hx => ((hblocks x).mp hx.1).resolve_left hx.2
  have hstart := Tail.start h.anchored.rooted (h.holds List.mem_cons_self) hrooted honly
  apply tail_fold hstart (freshEngine_reroots hfresh) List.mem_cons_self
    (h.anchored.origin_not_kept h.run h.point) _ _ hrun
  · exact fun x hx => h.holds (List.mem_cons_of_mem pt hx)
  · exact fun x hx hd hlookup => h.parents_eq hm hw hx hlookup

theorem holds_tip (h : Cut env c order i pt e) : e.Holds c.engine.tip :=
  ⟨(h.reroots.blocks _).mpr (Or.inr (List.mem_cons.mp h.tip_mem)), (h.holds h.tip_mem).2⟩

/-- The order of the new engine is the old order from the pruning point on. -/
theorem keeps_order (h : Cut env c order i pt e) (hm : Mapped c)
    (hw : Whole c pt (order.drop (i + 1))) : e.totalOrder = .ok (order.drop i) := by
  have ht := h.tail hm hw
  obtain ⟨order', horder'⟩ := ht.above.totalOrder_total
  obtain ⟨before, rest, hsplit, rfl, _, hpast⟩ := ht.totalOrder h.holds_tip h.run horder'
  have hbefore : pt ∉ before := fun hmem => h.acyclic (hpast pt hmem)
  have hlen := length_of_first hsplit h.point hbefore (h.first_of_whole hw)
  rw [horder', hsplit, ← hlen, List.drop_left]

end Cut

/-- A prune leaves the order from the new origin on as it was. -/
def KeepsOrder (c c' : DagChain Tx) : Prop :=
  ∃ order i, c.totalOrder = .ok order ∧ order[i]? = some c'.genesisDag ∧
    c'.totalOrder = .ok (order.drop i)

end DagChain

section Example

open DagChain
open TaoDag.Runtime (Transaction transferEnv)

end Example

end TaoDag.Dagvm
